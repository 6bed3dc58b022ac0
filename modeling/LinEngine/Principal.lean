import LinEngine.Settling

/-!
# Hindley-Milner types are inferred

Inference of a core term is compared with the declarative system through solutions:
every solution of the heap it leaves gives its result a type that the system derives,
and every type the system derives is the value of some solution. A scheme on the stack
stands for its values in the solutions that agree off its quantified variables.
-/
namespace LinEngine

open Relation

/-! ## Schemes as sets of types -/

namespace Heap

/-- The types of a scheme, the variables that are not quantified having those of `ρ`. -/
def insts (h : Heap) (ρ : ℕ → Ty) (sch : Scheme) : Set Ty :=
  {τ | ∃ ρ', h.Sol ρ' ∧ (∀ v id, h.cell v = .tvr id → id ∉ sch.q → ρ' v = ρ v) ∧ ρ' sch.t = τ}

def envSets (h : Heap) (ρ : ℕ → Ty) (env : List (String × Scheme)) : SetCtx :=
  env.map fun e => (e.1, h.insts ρ e.2)

section Insts

variable {h : Heap} {ρ ρ' : ℕ → Ty} {sch : Scheme} {env : List (String × Scheme)}

lemma envSets_cons {x : String} :
    h.envSets ρ ((x, sch) :: env) = (x, h.insts ρ sch) :: h.envSets ρ env := rfl

lemma lookup_envSets {x : String} : (h.envSets ρ env).lookup x = (env.lookup x).map (h.insts ρ) := by
  induction env with
  | nil => rfl
  | cons e env ih =>
    rw [envSets, List.map_cons, List.lookup_cons, List.lookup_cons]
    split
    · rfl
    · exact ih

lemma insts_mono {a : ℕ} (hp : h.Plain) (hρ : h.Sol ρ) (ha : a < h.size) : h.insts ρ ⟨[], a⟩ = {ρ a} := by
  ext τ
  constructor
  · rintro ⟨ρ', hρ', hag, rfl⟩
    exact hp.determined hρ' hρ ha fun v id _ hv => hag v id hv (by simp)
  · rintro rfl
    exact ⟨ρ, hρ, fun _ _ _ _ => rfl, rfl⟩

/-- The types of a scheme depend on the variables it has free. -/
lemma insts_congr (hp : h.Plain) (ht : sch.t < h.size)
    (hag : ∀ v id, h.Reaches sch.t v → h.cell v = .tvr id → id ∉ sch.q → ρ v = ρ' v) :
    h.insts ρ sch ⊆ h.insts ρ' sch := by
  rintro _ ⟨ρ₁, hρ₁, h₁, rfl⟩
  classical
  set g : ℕ → Ty := fun v => if ∃ id ∈ sch.q, h.cell v = .tvr id then ρ₁ v else ρ' v with hg
  have hsol : h.Sol (h.read g) := sol_read hp.closed hp.acyclic g
  have hread : ∀ v id, h.cell v = .tvr id → h.read g v = if id ∈ sch.q then ρ₁ v else ρ' v := by
    intro v id hv
    rw [read_tvr hv, hg]
    simp [hv]
  refine ⟨h.read g, hsol, fun v id hv hq => by rw [hread v id hv, if_neg hq], ?_⟩
  refine hp.determined hsol hρ₁ ht fun v id hr hv => ?_
  rw [hread v id hv]
  split_ifs with hq
  · rfl
  · rw [h₁ v id hv hq, hag v id hr hv hq]

lemma envSets_le {h' : Heap} (hle : ∀ e ∈ env, h.insts ρ e.2 ⊆ h'.insts ρ' e.2) :
    (h.envSets ρ env).Le (h'.envSets ρ' env) := by
  rw [SetCtx.Le, envSets, envSets, List.forall₂_map_left_iff, List.forall₂_map_right_iff]
  exact List.forall₂_same.mpr fun e he => ⟨rfl, hle e he⟩

/-- Solutions are closed under substitution. -/
lemma Sol.subst (hρ : h.Sol ρ) (θ : ℕ → Ty) : h.Sol fun a => (ρ a).subst θ := by
  intro a
  have ha := hρ a
  cases hc : h.cell a with
  | link b =>
    rw [hc] at ha
    exact congrArg (Ty.subst θ) ha
  | arrow b c =>
    rw [hc] at ha
    exact congrArg (Ty.subst θ) ha
  | _ => trivial

/-- The variables of a part are variables of the whole. -/
lemma Plain.vars_subset (hp : h.Plain) (hρ : h.Sol ρ) {a v : ℕ} (hav : h.Reaches a v) :
    (ρ v).vars ⊆ (ρ a).vars := by
  induction hav with
  | refl => exact Finset.Subset.refl _
  | @tail b c _ hbc ih =>
    refine Finset.Subset.trans ?_ ih
    have hb := hρ b
    rcases hp.pure b hbc.lt with ⟨id, hc⟩ | ⟨x, y, hc⟩ | ⟨x, hc⟩
    · simp [Edge, hc, Cell.kids] at hbc
    · rw [hc] at hb
      rw [show ρ b = _ from hb, Ty.vars]
      simp only [Edge, hc, Cell.kids, List.mem_cons, List.not_mem_nil, or_false] at hbc
      rcases hbc with rfl | rfl
      · exact Finset.subset_union_left
      · exact Finset.subset_union_right
    · rw [hc] at hb
      simp only [Edge, hc, Cell.kids, List.mem_singleton] at hbc
      rw [hbc, show ρ b = _ from hb]

end Insts

end Heap

/-- What was a variable reaches a quantified one only as that variable. -/
lemma quantified_of_reaches {h h' : Heap} {q : List ℕ} {v w id i : ℕ} (hp' : h'.Plain)
    (hcells : ∀ id ∈ q, ∃ w, h.cell w = .tvr id)
    (hframe : ∀ v id, h.cell v = .tvr id → id ∈ q → Heap.Frame v h h')
    (hv : h.cell v = .tvr id) (hvw : h'.Reaches v w) (hw : h'.cell w = .tvr i) (hi : i ∈ q) : id ∈ q := by
  obtain ⟨w', hw'⟩ := hcells i hi
  have hf := hframe w' i hw' hi
  obtain rfl := hp'.inj w w' i hw (hf.cell.trans hw')
  rcases (hf.reaches v hvw).cases_head with rfl | ⟨k, hk, -⟩
  · rw [hv] at hw'
    exact Cell.tvr.inj hw' ▸ hi
  · simp [Heap.Edge, hv, Cell.kids] at hk

/-- A heap with fewer solutions, in which the quantified variables are as they were, keeps
the types of the scheme. -/
lemma Heap.Plain.insts_subset {h h' : Heap} {ρ : ℕ → Ty} {sch : Scheme} (hp : h.Plain) (hp' : h'.Plain)
    (ht : sch.t < h.size) (hsize : h.size ≤ h'.size) (hsol : ∀ ρ, h'.Sol ρ → h.Sol ρ)
    (hcells : ∀ id ∈ sch.q, ∃ w, h.cell w = .tvr id)
    (hframe : ∀ v id, h.cell v = .tvr id → id ∈ sch.q → Heap.Frame v h h') (hρ : h'.Sol ρ) :
    h.insts ρ sch ⊆ h'.insts ρ sch := by
  rintro _ ⟨ρ₁, hρ₁, h₁, rfl⟩
  classical
  set g : ℕ → Ty := fun v => if ∃ id ∈ sch.q, h.cell v = .tvr id then ρ₁ v else ρ v with hg
  have hread : h'.Sol (h'.read g) := Heap.sol_read hp'.closed hp'.acyclic g
  -- the quantified variables are variables of the new heap, the other ones are as in `ρ`
  have hquant : ∀ v id, h.cell v = .tvr id → id ∈ sch.q → h'.read g v = ρ₁ v := by
    intro v id hv hq
    rw [Heap.read_tvr ((hframe v id hv hq).cell.trans hv), hg]
    exact if_pos ⟨id, hq, hv⟩
  have hother : ∀ v id, h'.cell v = .tvr id → id ∉ sch.q → h'.read g v = ρ v := by
    intro v id hv hq
    rw [Heap.read_tvr hv, hg]
    refine if_neg fun ⟨i, hi, hvi⟩ => hq ?_
    have hv' := (hframe v i hvi hi).cell.trans hvi
    rw [hv] at hv'
    exact Cell.tvr.inj hv' ▸ hi
  refine ⟨h'.read g, hread, hother, ?_⟩
  refine hp.determined (hsol _ hread) hρ₁ ht fun v id _ hv => ?_
  by_cases hq : id ∈ sch.q
  · exact hquant v id hv hq
  · rw [h₁ v id hv hq]
    refine hp'.determined hread hρ ((Heap.lt_of_tvr hv).trans_le hsize) fun w i hvw hw => ?_
    exact hother w i hw fun hi => hq (quantified_of_reaches hp' hcells hframe hv hvw hw hi)

/-- The converse: it has no other types. -/
lemma Heap.Plain.insts_superset {h h' : Heap} {ρ : ℕ → Ty} {sch : Scheme} (hp' : h'.Plain)
    (hsize : h.size ≤ h'.size) (hsol : ∀ ρ, h'.Sol ρ → h.Sol ρ) (hcells : ∀ id ∈ sch.q, ∃ w, h.cell w = .tvr id)
    (hframe : ∀ v id, h.cell v = .tvr id → id ∈ sch.q → Heap.Frame v h h') (hρ : h'.Sol ρ) :
    h'.insts ρ sch ⊆ h.insts ρ sch := by
  rintro _ ⟨ρ₁, hρ₁, h₁, rfl⟩
  refine ⟨ρ₁, hsol ρ₁ hρ₁, fun v id hv hq => ?_, rfl⟩
  refine hp'.determined hρ₁ hρ ((Heap.lt_of_tvr hv).trans_le hsize) fun w i hvw hw => h₁ w i hw fun hi => hq ?_
  exact quantified_of_reaches hp' hcells hframe hv hvw hw hi

/-- A solution whose types generalise to all those of the scheme: it gives each quantified
variable a variable of its own, above those of the context and of `ρ`. -/
lemma Heap.Plain.general {h : Heap} {sch : Scheme} (hp : h.Plain) (ht : sch.t < h.size) (ρ : ℕ → Ty)
    (Γ : Ctx) :
    ∃ ρ', h.Sol ρ' ∧ (∀ v id, h.cell v = .tvr id → id ∉ sch.q → ρ' v = ρ v) ∧
      h.insts ρ sch ⊆ {τ | (Γ.gen (ρ' sch.t)).Inst τ} := by
  classical
  obtain ⟨N, hN⟩ := (Γ.free ∪ (Finset.range h.size).biUnion fun v => (ρ v).vars).exists_nat_subset_range
  have hΓ : ∀ v, N + v ∉ Γ.free := fun v hv => by
    have := Finset.mem_range.mp (hN (Finset.mem_union_left _ hv))
    omega
  have hvars : ∀ v < h.size, ∀ n ∈ (ρ v).vars, n < N := fun v hv n hn =>
    Finset.mem_range.mp (hN (Finset.mem_union_right _ (Finset.mem_biUnion.mpr ⟨v, Finset.mem_range.mpr hv, hn⟩)))
  set g : ℕ → Ty := fun v => if ∃ id ∈ sch.q, h.cell v = .tvr id then .var (N + v) else ρ v with hg
  have hsol : h.Sol (h.read g) := Heap.sol_read hp.closed hp.acyclic g
  have hread : ∀ v id, h.cell v = .tvr id → h.read g v = if id ∈ sch.q then .var (N + v) else ρ v := by
    intro v id hv
    rw [Heap.read_tvr hv, hg]
    simp [hv]
  refine ⟨h.read g, hsol, fun v id hv hq => by rw [hread v id hv, if_neg hq], ?_⟩
  rintro _ ⟨ρ₁, hρ₁, h₁, rfl⟩
  set θ : ℕ → Ty := fun n => if n ∈ (Γ.gen (h.read g sch.t)).q ∧ N ≤ n then ρ₁ (n - N) else .var n with hθ
  refine ⟨θ, fun n hn => if_neg fun h => hn h.1, ?_⟩
  refine hp.determined hρ₁ (hsol.subst θ) ht fun v id hr hv => ?_
  have hsub := hp.vars_subset hsol hr
  rw [hread v id hv] at hsub ⊢
  split_ifs at hsub ⊢ with hq
  · -- its own variable, which is in the type and not in the context
    have hmem : N + v ∈ (Γ.gen (h.read g sch.t)).q :=
      Finset.mem_sdiff.mpr ⟨hsub (Finset.mem_singleton_self _), hΓ v⟩
    rw [Ty.subst, hθ]
    simp only [hmem, Nat.le_add_right, and_self, if_true, Nat.add_sub_cancel_left]
  · rw [h₁ v id hv hq, Ty.subst_congr (φ := .var), Ty.subst_var]
    intro n hn
    have := hvars v (Heap.lt_of_tvr hv) n hn
    exact if_neg fun h => by omega

/-! ## The stack of binders -/

/-- A variable that is free in no scheme on the stack. -/
def Aside (s : TypeState) (v : ℕ) : Prop :=
  ∃ id, s.heap.cell v = .tvr id ∧ ∀ e ∈ s.env, s.heap.Reaches e.2.t v → id ∈ e.2.q

/-- A quantified variable is there, and it is free in no scheme. -/
structure Scoped (s : TypeState) : Prop where
  cells : ∀ e ∈ s.env, ∀ id ∈ e.2.q, ∃ w, s.heap.cell w = .tvr id
  aside : ∀ e ∈ s.env, ∀ v id, s.heap.cell v = .tvr id → id ∈ e.2.q → Aside s v

/-- The heap has grown and its solutions are fewer; the variables of `P` have stayed out of reach. -/
structure Evolved (P : ℕ → Prop) (s s' : TypeState) : Prop where
  size : s.heap.size ≤ s'.heap.size
  sol : ∀ ρ, s'.heap.Sol ρ → s.heap.Sol ρ
  frame : ∀ v, P v → Heap.Frame v s.heap s'.heap

section Evolve

variable {P P' : ℕ → Prop} {s s' s'' s₁ s₂ : TypeState} {ρ ρ' : ℕ → Ty} {v : ℕ}

lemma Evolved.trans (h : Evolved P s s') (h' : Evolved P s' s'') : Evolved P s s'' :=
  ⟨h.size.trans h'.size, fun ρ hρ => h.sol ρ (h'.sol ρ hρ), fun v hv => (h.frame v hv).trans (h'.frame v hv)⟩

lemma Evolved.refl (P : ℕ → Prop) (s : TypeState) : Evolved P s s :=
  ⟨le_rfl, fun _ h => h, fun v _ => .refl v _⟩

lemma Evolved.anti (h : Evolved P s s') (hP : ∀ v, P' v → P v) : Evolved P' s s' :=
  ⟨h.size, h.sol, fun v hv => h.frame v (hP v hv)⟩

lemma Evolved.ofHalvings (hh : s.heap.Halvings s'.heap) (hP : ∀ v, P v → ∃ id, s.heap.cell v = .tvr id) :
    Evolved P s s' :=
  ⟨hh.halved.size.ge, fun _ => hh.sol.mp, fun v hv => by
    obtain ⟨id, hid⟩ := hP v hv
    exact hh.frame (by simp [hid])⟩

lemma Aside.later (ha : Aside s v) (h : Evolved (Aside s) s s') (he : s'.env = s.env) : Aside s' v := by
  have hf := h.frame v ha
  obtain ⟨id, hid, ho⟩ := ha
  refine ⟨id, hf.cell.trans hid, fun e hmem hr => ?_⟩
  rw [he] at hmem
  exact ho e hmem (hf.reaches _ hr)

/-- Under one more scheme. -/
lemma Aside.under {x : String} {sch : Scheme} (ha : Aside s v) (h : Evolved (Aside s) s s')
    (he : s'.env = s.env) (hfree : ¬ s'.heap.Reaches sch.t v) :
    Aside { s' with env := (x, sch) :: s'.env } v := by
  obtain ⟨id, hid, ho⟩ := ha.later h he
  exact ⟨id, hid, List.forall_mem_cons.mpr ⟨fun hr => absurd hr hfree, ho⟩⟩

lemma Evolved.scopes (hsc : Scoped s) (hs' : Clean s') (h : Evolved (Aside s) s s') (henv : s'.env = s.env) :
    Scoped s' where
  cells := fun e he id hq => by
    rw [henv] at he
    obtain ⟨w, hw⟩ := hsc.cells e he id hq
    exact ⟨w, (h.frame w (hsc.aside e he w id hw hq)).cell.trans hw⟩
  aside := fun e he v id hv hq => by
    rw [henv] at he
    obtain ⟨w, hw⟩ := hsc.cells e he id hq
    have ha := hsc.aside e he w id hw hq
    obtain rfl := hs'.plain.inj v w id hv ((h.frame w ha).cell.trans hw)
    exact ha.later h henv

/-- Between two later states the schemes of the stack keep their types. -/
lemma Scoped.sets_le (hsc : Scoped s) (hs : Clean s) (hs₁ : Clean s₁) (hs₂ : Clean s₂)
    (h₁ : Evolved (Aside s) s s₁) (h₂ : Evolved (Aside s) s₁ s₂) (hρ : s₂.heap.Sol ρ) :
    (s₁.heap.envSets ρ s.env).Le (s₂.heap.envSets ρ s.env) := by
  refine Heap.envSets_le fun e he => hs₁.plain.insts_subset hs₂.plain
    ((hs.tracked.env e he).trans_le h₁.size) h₂.size h₂.sol (fun id hq => ?_) (fun v id hv hq => ?_) hρ
  · obtain ⟨w, hw⟩ := hsc.cells e he id hq
    exact ⟨w, (h₁.frame w (hsc.aside e he w id hw hq)).cell.trans hw⟩
  · obtain ⟨w, hw⟩ := hsc.cells e he id hq
    have ha := hsc.aside e he w id hw hq
    obtain rfl := hs₁.plain.inj v w id hv ((h₁.frame w ha).cell.trans hw)
    exact h₂.frame v ha

lemma SetCtx.Le.trans {Γ Γ' Γ'' : SetCtx} (h : Γ.Le Γ') (h' : Γ'.Le Γ'') : Γ.Le Γ'' := by
  induction h generalizing Γ'' with
  | nil => exact h'
  | @cons e e' l l' he _ ih =>
    cases h' with
    | cons he' hl' => exact List.Forall₂.cons ⟨he.1.trans he'.1, he.2.trans he'.2⟩ (ih hl')

/-- A later solution that agrees on the old cells has the types of the stack at least. -/
lemma Scoped.sets_le_of_agree (hsc : Scoped s) (hs : Clean s) (hs₁ : Clean s₁)
    (h₁ : Evolved (Aside s) s s₁) (hρ' : s₁.heap.Sol ρ') (hag : ∀ c < s.heap.size, ρ' c = ρ c) :
    (s.heap.envSets ρ s.env).Le (s₁.heap.envSets ρ' s.env) := by
  refine SetCtx.Le.trans (Heap.envSets_le fun e he => ?_) (hsc.sets_le hs hs hs₁ (.refl _ s) h₁ hρ')
  refine Heap.insts_congr hs.plain (hs.tracked.env e he) fun v id _ hv _ => ?_
  exact (hag v (Heap.lt_of_tvr hv)).symm

end Evolve

/-! ## Instances -/

/-- The values of an instance are the types of the scheme. -/
structure Instanced (s : TypeState) (sch : Scheme) (a : ℕ) (s' : TypeState) : Prop where
  kept : SameScope s s'
  widened : Heap.Widened s.heap s'.heap
  lt : a < s'.heap.size
  sound : ∀ ρ, s'.heap.Sol ρ → ρ a ∈ s.heap.insts ρ sch
  complete : ∀ ρ, s.heap.Sol ρ → ∀ τ ∈ s.heap.insts ρ sch,
    ∃ ρ', s'.heap.Sol ρ' ∧ (∀ c < s.heap.size, ρ' c = ρ c) ∧ ρ' a = τ
  frame : ∀ v id, s.heap.cell v = .tvr id → (s.heap.Reaches sch.t v → id ∈ sch.q) →
    Heap.Frame v s.heap s'.heap ∧ ¬ s'.heap.Reaches a v

lemma Settling.instantiate {s : TypeState} {sch : Scheme} {E : Prop} (hs : Clean s)
    (ht : sch.t < s.heap.size) : Settling (instantiate · sch) s (Instanced s sch) E := by
  refine .bind (.freshVars hs) fun m s₁ hs₁ ⟨hm, hlt⟩ => ?_
  refine (Settling.instRec hs₁ (ht.trans_le hm.widened.size) hlt fun i w hw => (hm.target i w hw).2).mono
    (fun a s₂ hs₂ hc => ?_) id
  have hw := hm.widened.trans hs.plain.closed hc.widened
  have hkeep : ∀ v id, s.heap.cell v = .tvr id → s₁.heap.cell v = .tvr id := fun v id hv =>
    (hm.widened.cell v (Heap.lt_of_tvr hv) (by simp [hv])).trans hv
  -- what the type reaches in the wider heap it reached before
  have hold : ∀ v id, s₁.heap.Reaches sch.t v → s₁.heap.cell v = .tvr id →
      v < s.heap.size ∧ s.heap.cell v = .tvr id := by
    intro v id hr hv
    have hlt := hm.widened.lt hs.plain.closed ht hr
    refine ⟨hlt, ?_⟩
    rw [← (hm.frame v hlt).cell, hv]
  refine ⟨hm.kept.trans hc.rest.sameScope, hw, hc.lt, fun ρ hρ => ?_, fun ρ hρ τ hτ => ?_, fun v id hv hq => ?_⟩
  · -- the solution of the old heap that has the new variables' types
    classical
    set g : ℕ → Ty := fun v => if h : ∃ id, s.heap.cell v = .tvr id then renamed m ρ h.choose v else ρ v
      with hg
    have hsol : s.heap.Sol (s.heap.read g) := Heap.sol_read hs.plain.closed hs.plain.acyclic g
    have hread : ∀ v id, s.heap.cell v = .tvr id → s.heap.read g v = renamed m ρ id v := by
      intro v id hv
      have hex : ∃ id, s.heap.cell v = .tvr id := ⟨id, hv⟩
      have hid : hex.choose = id := Cell.tvr.inj (hex.choose_spec.symm.trans hv)
      rw [Heap.read_tvr hv, hg]
      simp only [hex, dif_pos, hid]
    have htype := hc.type ρ (s.heap.read g) hρ (hm.sol _ hsol) fun v id hr hv =>
      hread v id (hold v id hr hv).2
    refine ⟨s.heap.read g, hsol, fun v id hv hq => ?_, htype.symm⟩
    rw [hread v id hv, renamed]
    cases hl : m.lookup id with
    | none => rfl
    | some w => exact absurd ((hm.keys id).mpr ⟨w, hl⟩) hq
  · -- the new variables get the types that the quantified ones had
    obtain ⟨ρ₁, hρ₁, hag, rfl⟩ := hτ
    classical
    set f : ℕ → Ty := fun w => if h : ∃ v id, s.heap.cell v = .tvr id ∧ m.lookup id = some w
      then ρ₁ h.choose else ρ₁ w with hf
    obtain ⟨ρ', hρ', hbelow, hnew⟩ := hw.extend hs.plain hs₂.plain hρ f
    refine ⟨ρ', hρ', hbelow, hc.type ρ' ρ₁ hρ' (hm.sol _ hρ₁) fun v id hr hv => ?_⟩
    obtain ⟨hlt, hv⟩ := hold v id hr hv
    rw [renamed]
    cases hl : m.lookup id with
    | none =>
      have hq : id ∉ sch.q := fun hq => by
        obtain ⟨w, hw⟩ := (hm.keys id).mp hq
        rw [hl] at hw
        cases hw
      exact (hag v id hv hq).trans (hbelow v hlt).symm
    | some w =>
      obtain ⟨hge, j, hj⟩ := hm.target id w hl
      have hj₂ : s₂.heap.cell w = .tvr j := (hc.widened.cell w (Heap.lt_of_tvr hj) (by simp [hj])).trans hj
      have hex : ∃ v id, s.heap.cell v = .tvr id ∧ m.lookup id = some w := ⟨v, id, hv, hl⟩
      obtain ⟨i, hi, hli⟩ := hex.choose_spec
      have hvi : hex.choose = v := hs.plain.inj _ _ id (hm.inj i id w hli hl ▸ hi) hv
      have hfw : f w = ρ₁ v := by
        rw [hf]
        simp only [hex, dif_pos, hvi]
      exact (hfw ▸ hnew w j hge hj₂).symm
  · have hlt := Heap.lt_of_tvr hv
    have hf₁ := hm.frame v hlt
    obtain ⟨hf₂, ha⟩ := hc.frame v id (hf₁.cell.trans hv) (fun i w hw he => by
      have := (hm.target i w hw).1
      omega) fun hr => (hm.keys id).mp (hq (hf₁.reaches _ hr))
    exact ⟨hf₁.trans hf₂, ha⟩

/-! ## Inference -/

/-- A state without definitions whose binders are in order. -/
structure Ready (s : TypeState) : Prop where
  clean : Clean s
  binders : Scoped s
  defs : s.prog.defs = []
  envrc : ∀ id, s.envrc.get id = 0

/-- What inference of `t` has done: its result has the types that the system derives. -/
structure Inferred (s : TypeState) (t : Term) (a : ℕ) (s' : TypeState) : Prop where
  kept : SameScope s s'
  evolved : Evolved (Aside s) s s'
  lt : a < s'.heap.size
  apart : ∀ v, Aside s v → ¬ s'.heap.Reaches a v
  sound : ∀ ρ, s'.heap.Sol ρ → ∀ Γ : Ctx, (s'.heap.envSets ρ s.env).Le Γ.sets → HM Γ t (ρ a)
  complete : ∀ ρ, s.heap.Sol ρ → ∀ τ, Admits (s.heap.envSets ρ s.env) t τ →
    ∃ ρ', s'.heap.Sol ρ' ∧ (∀ c < s.heap.size, ρ' c = ρ c) ∧ ρ' a = τ

/-- The system derives no type. -/
def Untypable (s : TypeState) (t : Term) : Prop :=
  ∀ ρ, s.heap.Sol ρ → ∀ τ, ¬ Admits (s.heap.envSets ρ s.env) t τ

section Infer

variable {s s' s₁ s₂ : TypeState} {ρ : ℕ → Ty} {a : ℕ} {x : String} {t b : Term} {d k : ℕ}

lemma Ready.later (hr : Ready s) (hs' : Clean s') (hk : SameScope s s') (h : Evolved (Aside s) s s') : Ready s' :=
  ⟨hs', h.scopes hr.binders hs' hk.env, hk.prog ▸ hr.defs, fun id => hk.envrc ▸ hr.envrc id⟩

/-- One more scheme, its quantified variables there and not free below it, and nothing free
in it that is quantified below. -/
lemma Ready.push (hr : Ready s) {sch : Scheme} (ht : sch.t < s.heap.size)
    (hcells : ∀ id ∈ sch.q, ∃ w, s.heap.cell w = .tvr id)
    (hq : ∀ v id, s.heap.cell v = .tvr id → id ∈ sch.q → Aside s v)
    (hold : ∀ e ∈ s.env, ∀ v id, s.heap.cell v = .tvr id → id ∈ e.2.q → ¬ s.heap.Reaches sch.t v) :
    Ready { s with env := (x, sch) :: s.env } where
  clean := ⟨hr.clean.tracked.withEnv (List.forall_mem_cons.mpr ⟨ht, hr.clean.tracked.env⟩),
    hr.clean.plain, hr.clean.fresh⟩
  binders := by
    refine ⟨List.forall_mem_cons.mpr ⟨hcells, hr.binders.cells⟩, List.forall_mem_cons.mpr ⟨?_, ?_⟩⟩
    · intro v id hv hmem
      obtain ⟨i, hi, ho⟩ := hq v id hv hmem
      obtain rfl := Cell.tvr.inj (hv.symm.trans hi)
      exact ⟨id, hv, List.forall_mem_cons.mpr ⟨fun _ => hmem, ho⟩⟩
    · intro e he v id hv hmem
      obtain ⟨i, hi, ho⟩ := hr.binders.aside e he v id hv hmem
      obtain rfl := Cell.tvr.inj (hv.symm.trans hi)
      exact ⟨id, hv, List.forall_mem_cons.mpr ⟨fun h => absurd h (hold e he v id hv hmem), ho⟩⟩
  defs := hr.defs
  envrc := hr.envrc

lemma Clean.pop (hs : Clean s) : Clean { s with env := s.env.tail } :=
  ⟨hs.tracked.withEnv fun e h => hs.tracked.env e (List.mem_of_mem_tail h), hs.plain, hs.fresh⟩

lemma defFind_nil {D : Defs} (hD : D.defs = []) (x : String) : D.defFind x = none := by
  have hraw : ∀ y, D.lookupRaw y = none := fun y => by simp [Defs.lookupRaw, hD]
  simp [Defs.defFind, hraw]

lemma envFind_nil (hD : s.prog.defs = []) (x : String) : envFind d k x s = .ok (s.env.lookup x) s := by
  have hwith : ∀ td, envFindWith td x s = .ok (s.env.lookup x) s := by
    intro td
    unfold envFindWith
    simp only [bind, EStateM.bind, get, getThe, MonadStateOf.get, EStateM.get]
    cases s.env.lookup x with
    | some sch => rfl
    | none =>
      simp only [EStateM.bind, EStateM.get, defFind_nil hD]
      rfl
  cases k with
  | zero => exact hwith _
  | succ k => exact hwith _

lemma Settling.inferVar (hr : Ready s) :
    Settling (fun d => infer (envFind d k) d (.var x)) s (Inferred s (.var x)) (Untypable s (.var x)) := by
  have hs := hr.clean
  refine .bind (R := fun r s' => r = s.env.lookup x ∧ s' = s)
    ⟨.ok (s.env.lookup x) s, ⟨0, fun d _ => envFind_nil hr.defs x⟩, hs, rfl, rfl⟩ fun r s' _ ⟨hr', he'⟩ => ?_
  rw [hr', he']
  cases hx : s.env.lookup x with
  | none =>
    refine .throw (by simp) fun ρ hρ τ hτ => ?_
    cases hτ with
    | var hl _ =>
      rw [Heap.lookup_envSets, hx] at hl
      cases hl
  | some sch =>
    obtain ⟨l₁, l₂, he, -⟩ := List.lookup_eq_some_iff.mp hx
    have hmem : (x, sch) ∈ s.env := by simp [he]
    have hfree : ∀ v, Aside s v → ∃ id, s.heap.cell v = .tvr id ∧ (s.heap.Reaches sch.t v → id ∈ sch.q) :=
      fun v ⟨id, hv, ho⟩ => ⟨id, hv, ho _ hmem⟩
    have hev : ∀ {a s'}, Instanced s sch a s' → Evolved (Aside s) s s' := fun hi =>
      ⟨hi.widened.size, hi.widened.sol, fun v hv => by
        obtain ⟨id, hid, hq⟩ := hfree v hv
        exact (hi.frame v id hid hq).1⟩
    refine (Settling.instantiate hs (hs.tracked.env _ hmem)).mono (fun a s' hs' hi => ⟨hi.kept, hev hi, hi.lt,
      fun v hv => ?_, fun ρ hρ Γ hΓ => ?_, fun ρ hρ τ hτ => ?_⟩) False.elim
    · obtain ⟨id, hid, hq⟩ := hfree v hv
      exact (hi.frame v id hid hq).2
    · have hle := (hr.binders.sets_le hs hs hs' (.refl _ s) (hev hi) hρ).trans hΓ
      obtain ⟨S, hS, hsub⟩ := hle.lookup (x := x) (S := s.heap.insts ρ sch) (by
        rw [Heap.lookup_envSets, hx]; rfl)
      rw [Ctx.lookup_sets] at hS
      obtain ⟨σ, hσ, rfl⟩ := Option.map_eq_some_iff.mp hS
      exact .var hσ (hsub (hi.sound ρ hρ))
    · cases hτ with
      | var hl hmemτ =>
        rw [Heap.lookup_envSets, hx] at hl
        obtain rfl := Option.some.inj hl
        exact hi.complete ρ hρ τ hmemτ

/-- A new variable is a new cell that reaches nothing. -/
lemma NewVar.evolved (hv : NewVar s a s') : Evolved (Aside s) s s' ∧
    (∀ v < s.heap.size, ¬ s'.heap.Reaches a v) ∧ a < s'.heap.size := by
  obtain ⟨hk, rfl, hheap, -⟩ := hv
  refine ⟨⟨by simp [hheap], fun ρ hρ => ?_, fun v ⟨id, hid, _⟩ => ?_⟩, fun v hlt hr => ?_, by simp [hheap]⟩
  · rw [hheap] at hρ
    exact (Heap.sol_push.mp hρ).1
  · exact hheap ▸ .push (Heap.lt_of_tvr hid) (by simp [Cell.kids])
  · rcases hr.cases_head with rfl | ⟨c, hc, -⟩
    · exact lt_irrefl _ hlt
    · simp [hheap, Heap.Edge, Cell.kids] at hc

lemma Settling.inferLam (hr : Ready s)
    (ih : ∀ {s}, Ready s → Settling (fun d => infer (envFind d k) d b) s (Inferred s b) (Untypable s b)) :
    Settling (fun d => infer (envFind d k) d (.lam x b)) s (Inferred s (.lam x b)) (Untypable s (.lam x b)) := by
  have hs := hr.clean
  refine .bind (.tvar hs) fun a s₁ hs₁ hv => ?_
  obtain ⟨hev₁, hapart₁, hlt₁⟩ := hv.evolved
  have hcell : s₁.heap.cell a = .tvr s.nextId := by rw [hv.heap, hv.addr, Heap.cell_push_size]
  have hr₁ := hr.later hs₁ hv.kept hev₁
  -- the parameter is on the stack, itself its only type
  have hr₁' : Ready { s₁ with env := (x, ⟨[], a⟩) :: s₁.env } := by
    refine hr₁.push hlt₁ (by simp) (by simp) fun e he v id hid hq hreach => ?_
    rw [hv.kept.env] at he
    obtain ⟨w, hw⟩ := hr.binders.cells e he id hq
    have hw₁ := (hev₁.frame w (hr.binders.aside e he w id hw hq)).cell.trans hw
    obtain rfl := hs₁.plain.inj v w id hid hw₁
    exact hapart₁ v (Heap.lt_of_tvr hw) hreach
  -- a solution that gives the parameter a type
  have hextend : ∀ ρ, s.heap.Sol ρ → ∀ α, ∃ ρ₁, s₁.heap.Sol ρ₁ ∧ (∀ c < s.heap.size, ρ₁ c = ρ c) ∧
      (s.heap.envSets ρ s.env).Le (s₁.heap.envSets ρ₁ s.env) ∧ ρ₁ a = α := by
    intro ρ hρ α
    have hw : Heap.Widened s.heap s₁.heap := hv.heap ▸ Heap.widened_push hs.plain.closed
    obtain ⟨ρ₁, hρ₁, hag, hnew⟩ := hw.extend hs.plain hs₁.plain hρ fun _ => α
    exact ⟨ρ₁, hρ₁, hag, hr.binders.sets_le_of_agree hs hs₁ hev₁ hρ₁ hag,
      hnew a _ (le_of_eq hv.addr.symm) hcell⟩
  have hbody : ∀ ρ₁, s₁.heap.Sol ρ₁ → ∀ {Γ : SetCtx}, Γ.Le (s₁.heap.envSets ρ₁ s.env) →
      SetCtx.Le ((x, {ρ₁ a}) :: Γ) (s₁.heap.envSets ρ₁ ((x, ⟨[], a⟩) :: s₁.env)) := by
    intro ρ₁ hρ₁ Γ hΓ
    rw [Heap.envSets, List.map_cons, hv.kept.env]
    exact .cons hΓ x (Heap.insts_mono hs₁.plain hρ₁ hlt₁).ge
  have hun : Untypable { s₁ with env := (x, ⟨[], a⟩) :: s₁.env } b → Untypable s (.lam x b) := by
    intro hun ρ hρ τ hτ
    cases hτ with
    | @lam _ _ _ α β hb =>
      obtain ⟨ρ₁, hρ₁, -, hle, rfl⟩ := hextend ρ hρ α
      exact hun ρ₁ hρ₁ _ (hb.mono (hbody ρ₁ hρ₁ hle))
  refine .envPush (.bind ((ih hr₁').mono (fun _ _ _ h => h) hun) fun c s₂ hs₂ hi => .envPop ?_)
  have henv₂ : s₂.env.tail = s.env := by rw [hi.kept.env]; exact hv.kept.env
  refine (Settling.newArrow (E := Untypable s (.lam x b)) hs₂.pop (a := a) (b := c) (hlt₁.trans_le hi.evolved.size) hi.lt).mono
    (fun r s₃ hs₃ ⟨hr₃, hheap, hrest⟩ => ?_) id
  subst hr₃
  have hheap : s₃.heap = s₂.heap.push (.arrow a c) := hheap
  -- what is aside below stays aside under the parameter
  have hunder : ∀ v, Aside s v → Aside { s₁ with env := (x, ⟨[], a⟩) :: s₁.env } v := fun v ha =>
    ha.under hev₁ hv.kept.env (hapart₁ v (Heap.lt_of_tvr ha.choose_spec.1))
  have hev₂ : Evolved (Aside s) s₁ s₂ := by
    have := hi.evolved.anti hunder
    exact ⟨this.size, this.sol, this.frame⟩
  have hsol₃ : ∀ ρ, s₃.heap.Sol ρ → s₂.heap.Sol ρ ∧ ρ s₂.heap.size = .arrow (ρ a) (ρ c) := fun ρ hρ => by
    rw [hheap] at hρ
    exact Heap.sol_push.mp hρ
  have hapart : ∀ v, Aside s v → ¬ s₂.heap.Reaches a v ∧ ¬ s₂.heap.Reaches c v := fun v ha =>
    ⟨fun h => hapart₁ v (Heap.lt_of_tvr ha.choose_spec.1) ((hev₂.frame v ha).reaches a h),
      hi.apart v (hunder v ha)⟩
  have hev₃ : Evolved (Aside s) s₂ s₃ := by
    refine ⟨by simp [hheap], fun ρ hρ => (hsol₃ ρ hρ).1, fun v ha => hheap ▸ .push ?_ fun k hk => ?_⟩
    · obtain ⟨id, hid, -⟩ := ha
      exact (Heap.lt_of_tvr hid).trans_le (hev₁.size.trans hev₂.size)
    · rcases List.mem_pair.mp hk with rfl | rfl
      · exact (hapart v ha).1
      · exact (hapart v ha).2
  have hkept : SameScope s s₃ := ⟨hrest.env.trans henv₂, hrest.envrc.trans (hi.kept.envrc.trans hv.kept.envrc),
    hrest.prog.trans (hi.kept.prog.trans hv.kept.prog),
    hv.kept.nextId.trans (hi.kept.nextId.trans hrest.nextId.ge)⟩
  refine ⟨hkept, hev₁.trans (hev₂.trans hev₃), by simp [hheap], fun v ha hreach => ?_,
    fun ρ hρ Γ hΓ => ?_, fun ρ hρ τ hτ => ?_⟩
  · have hback := (hev₃.frame v ha).reaches _ hreach
    rcases hback.cases_head with he | ⟨k, hk, -⟩
    · have hlt := (Heap.lt_of_tvr ha.choose_spec.1).trans_le (hev₁.size.trans hev₂.size)
      have he : s₂.heap.size = v := he
      omega
    · exact absurd hk.lt (lt_irrefl _)
  · obtain ⟨hρ₂, harrow⟩ := hsol₃ ρ hρ
    have harrow : ρ ({ s₂ with env := s₂.env.tail } : TypeState).heap.size = .arrow (ρ a) (ρ c) := harrow
    rw [harrow]
    refine .lam (hi.sound ρ hρ₂ _ ?_)
    rw [Heap.envSets, List.map_cons, Ctx.sets, List.map_cons]
    refine .cons ?_ x fun τ hτ => ?_
    · rw [hv.kept.env]
      exact (hr.binders.sets_le hs hs₂ hs₃ (hev₁.trans hev₂) hev₃ hρ).trans hΓ
    · rw [Heap.insts_mono hs₂.plain hρ₂ (hlt₁.trans_le hi.evolved.size)] at hτ
      exact Poly.inst_mono.mpr hτ
  · cases hτ with
    | @lam _ _ _ α β hb =>
      obtain ⟨ρ₁, hρ₁, hag₁, hle, rfl⟩ := hextend ρ hρ α
      obtain ⟨ρ₂, hρ₂, hag₂, rfl⟩ := hi.complete ρ₁ hρ₁ _ (hb.mono (hbody ρ₁ hρ₁ hle))
      have hw : Heap.Widened s₂.heap s₃.heap := hheap ▸ Heap.widened_push hs₂.plain.closed
      obtain ⟨ρ₃, hρ₃, hag₃, -⟩ := hw.extend hs₂.plain hs₃.plain hρ₂ ρ₂
      have hlt₂ : ∀ c < s.heap.size, c < s₂.heap.size := fun c hc =>
        hc.trans_le (hev₁.size.trans hev₂.size)
      refine ⟨ρ₃, hρ₃, fun e he => ?_, ?_⟩
      · exact (hag₃ e (hlt₂ e he)).trans ((hag₂ e (he.trans_le hev₁.size)).trans (hag₁ e he))
      · have harrow := (hsol₃ ρ₃ hρ₃).2
        have ha₃ : ρ₃ a = ρ₁ a := (hag₃ a (hlt₁.trans_le hi.evolved.size)).trans (hag₂ a hlt₁)
        rw [ha₃, hag₃ c hi.lt] at harrow
        exact harrow

/-- A function type from a given argument to a new variable. -/
structure ArrowTo (s : TypeState) (a r c : ℕ) (s' : TypeState) : Prop where
  kept : SameScope s s'
  widened : Heap.Widened s.heap s'.heap
  lt : c < s'.heap.size
  size : s.heap.size ≤ r
  tvr : ∃ id, s'.heap.cell r = .tvr id
  sol : ∀ ρ, s'.heap.Sol ρ → ρ c = .arrow (ρ a) (ρ r)
  frame : ∀ v < s.heap.size, ¬ s.heap.Reaches a v →
    Heap.Frame v s.heap s'.heap ∧ ¬ s'.heap.Reaches c v ∧ ¬ s'.heap.Reaches r v

lemma Settling.arrowTo {α : Type} {f : ℕ → ℕ → ℕ → TM α} {Q : α → TypeState → Prop} {E : Prop} (hs : Clean s)
    (ha : a < s.heap.size) (h : ∀ r c s', Clean s' → ArrowTo s a r c s' → Settling (fun d => f d r c) s' Q E) :
    Settling (fun d => do let r ← LinEngine.tvar; let c ← newCell (.arrow a r); f d r c) s Q E := by
  refine .bind (.tvar hs) fun r s₁ hs₁ hv => ?_
  obtain ⟨hev, hapart, hlt⟩ := hv.evolved
  have hcell : s₁.heap.cell r = .tvr s.nextId := by rw [hv.heap, hv.addr, Heap.cell_push_size]
  have hw₁ : Heap.Widened s.heap s₁.heap := hv.heap ▸ Heap.widened_push hs.plain.closed
  refine .bind (.newArrow hs₁ (ha.trans_le hw₁.size) hlt)
    fun c s₂ hs₂ ⟨hc, hheap, hr⟩ => h r c s₂ hs₂ ?_
  subst hc
  have hw₂ : Heap.Widened s₁.heap s₂.heap := hheap ▸ Heap.widened_push hs₁.plain.closed
  refine ⟨hv.kept.trans hr.sameScope, hw₁.trans hs.plain.closed hw₂, by simp [hheap], hv.addr.ge,
    ⟨_, (hw₂.cell r hlt (by simp [hcell])).trans hcell⟩, fun ρ hρ => ?_, fun v hlt₀ hav => ?_⟩
  · rw [hheap] at hρ
    exact (Heap.sol_push.mp hρ).2
  · have hf₁ : Heap.Frame v s.heap s₁.heap := hv.heap ▸ .push hlt₀ (by simp [Cell.kids])
    have hkids : ∀ k ∈ (Cell.arrow a r).kids, ¬ s₁.heap.Reaches k v := by
      intro k hk
      rcases List.mem_pair.mp hk with rfl | rfl
      · exact fun hr => hav (hf₁.reaches k hr)
      · exact hapart v hlt₀
    have hf₂ : Heap.Frame v s₁.heap s₂.heap := hheap ▸ .push (hlt₀.trans_le hw₁.size) hkids
    refine ⟨hf₁.trans hf₂, fun hr => ?_, fun hr => hapart v hlt₀ (hf₂.reaches r hr)⟩
    rcases (hf₂.reaches _ hr).cases_head with he | ⟨k, hk, -⟩
    · have := hw₁.size
      omega
    · exact absurd hk.lt (lt_irrefl _)

lemma Settling.inferApp {f b : Term} (hr : Ready s) (hnot : ∀ x c, f ≠ .lam x c)
    (ihf : ∀ {s}, Ready s → Settling (fun d => infer (envFind d k) d f) s (Inferred s f) (Untypable s f))
    (ihb : ∀ {s}, Ready s → Settling (fun d => infer (envFind d k) d b) s (Inferred s b) (Untypable s b)) :
    Settling (fun d => infer (envFind d k) d (.app f b)) s (Inferred s (.app f b)) (Untypable s (.app f b)) := by
  have hs := hr.clean
  have happ : ∀ look d, infer look d (.app f b) = do
      let u ← infer look d f
      let a ← infer look d b
      let r ← LinEngine.tvar
      LinEngine.unify d u (← newCell (.arrow a r))
      return r := fun look d => by
    rw [infer]
    exact hnot
  simp only [happ]
  refine .bind ((ihf hr).mono (fun _ _ _ h => h) fun hun ρ hρ τ hτ => ?_) fun u s₁ hs₁ hf => ?_
  · cases hτ with
    | app _ hf _ => exact hun ρ hρ _ hf
    | letLam => exact hnot _ _ rfl
  have hr₁ := hr.later hs₁ hf.kept hf.evolved
  -- a type of the function in the first state is one of a solution of the second
  have hfun : ∀ ρ, s.heap.Sol ρ → ∀ {α β}, Admits (s.heap.envSets ρ s.env) f (.arrow α β) →
      ∃ ρ₁, s₁.heap.Sol ρ₁ ∧ (∀ c < s.heap.size, ρ₁ c = ρ c) ∧ ρ₁ u = .arrow α β ∧
        (s.heap.envSets ρ s.env).Le (s₁.heap.envSets ρ₁ s₁.env) := by
    intro ρ hρ α β hα
    obtain ⟨ρ₁, hρ₁, hag, hu⟩ := hf.complete ρ hρ _ hα
    rw [hf.kept.env]
    exact ⟨ρ₁, hρ₁, hag, hu, hr.binders.sets_le_of_agree hs hs₁ hf.evolved hρ₁ hag⟩
  refine .bind ((ihb hr₁).mono (fun _ _ _ h => h) fun hun ρ hρ τ hτ => ?_) fun a s₂ hs₂ hb => ?_
  · cases hτ with
    | app _ hα ha =>
      obtain ⟨ρ₁, hρ₁, -, -, hle⟩ := hfun ρ hρ hα
      exact hun ρ₁ hρ₁ _ (ha.mono hle)
    | letLam => exact hnot _ _ rfl
  have hev₁₂ : Evolved (Aside s) s₁ s₂ := hb.evolved.anti fun v hv => hv.later hf.evolved hf.kept.env
  refine .arrowTo hs₂ hb.lt fun r c s₃ hs₃ hc => ?_
  have hult : u < s₂.heap.size := hf.lt.trans_le hb.evolved.size
  -- the solution that gives the result its type gives both sides of the unification one type
  have hall : ∀ ρ, s.heap.Sol ρ → ∀ β, Admits (s.heap.envSets ρ s.env) (.app f b) β →
      ∃ ρ₃, s₃.heap.Sol ρ₃ ∧ (∀ c < s.heap.size, ρ₃ c = ρ c) ∧ ρ₃ u = ρ₃ c ∧ ρ₃ r = β := by
    intro ρ hρ β hτ
    cases hτ with
    | @app _ _ _ α _ _ hα ha =>
      obtain ⟨ρ₁, hρ₁, hag₁, hu, hle⟩ := hfun ρ hρ hα
      obtain ⟨ρ₂, hρ₂, hag₂, ha₂⟩ := hb.complete ρ₁ hρ₁ _ (ha.mono hle)
      obtain ⟨ρ₃, hρ₃, hag₃, hnew⟩ := hc.widened.extend hs₂.plain hs₃.plain hρ₂ fun _ => β
      obtain ⟨id, hid⟩ := hc.tvr
      have hr₃ : ρ₃ r = β := hnew r id hc.size hid
      refine ⟨ρ₃, hρ₃, fun e he => ?_, ?_, hr₃⟩
      · have he₁ := he.trans_le hf.evolved.size
        rw [hag₃ e (he₁.trans_le hb.evolved.size), hag₂ e he₁, hag₁ e he]
      · rw [hc.sol ρ₃ hρ₃, hag₃ u hult, hag₂ u hf.lt, hu, hag₃ a hb.lt, ha₂, hr₃]
    | letLam => exact absurd rfl (hnot _ _)
  refine .bind ((Settling.unify hs₃ (hult.trans_le hc.widened.size) hc.lt).mono (fun _ _ _ h => h)
    fun hclash ρ hρ τ hτ => ?_) fun _ s₄ hs₄ h₄ => ?_
  · obtain ⟨ρ₃, hρ₃, -, he, -⟩ := hall ρ hρ τ hτ
    exact hclash ρ₃ hρ₃ he
  obtain ⟨hr₄, hu⟩ := h₄
  refine .pure hs₄ ?_
  have hold : ∀ v, Aside s v → ∃ id, s₂.heap.cell v = .tvr id ∧ ¬ s₂.heap.Reaches a v ∧ ¬ s₂.heap.Reaches u v := by
    intro v hv
    have hv₁ := hv.later hf.evolved hf.kept.env
    have hf₂ := hb.evolved.frame v hv₁
    obtain ⟨id, hid, -⟩ := hv₁.later hb.evolved hb.kept.env
    exact ⟨id, hid, hb.apart v hv₁, fun h => hf.apart v hv (hf₂.reaches u h)⟩
  have hframe : ∀ v, Aside s v → Heap.Frame v s₂.heap s₃.heap ∧ Heap.Frame v s₃.heap s₄.heap ∧
      ¬ s₄.heap.Reaches r v := by
    intro v hv
    obtain ⟨id, hid, ha, hu'⟩ := hold v hv
    obtain ⟨hf₃, hcv, hrv⟩ := hc.frame v (Heap.lt_of_tvr hid) ha
    have hf₄ := hu.frame v id (hf₃.cell.trans hid) (fun h => hu' (hf₃.reaches u h)) hcv
    exact ⟨hf₃, hf₄, fun h => hrv (hf₄.reaches r h)⟩
  have hev₂₄ : Evolved (Aside s) s₂ s₄ := ⟨hu.size ▸ hc.widened.size, fun ρ hρ =>
    hc.widened.sol ρ ((hu.sol ρ).mp hρ).1, fun v hv => (hframe v hv).1.trans (hframe v hv).2.1⟩
  have hev := hf.evolved.trans (hev₁₂.trans hev₂₄)
  refine ⟨hf.kept.trans (hb.kept.trans (hc.kept.trans hr₄.sameScope)), hev, ?_, fun v hv => (hframe v hv).2.2,
    fun ρ hρ Γ hΓ => ?_, fun ρ hρ τ hτ => ?_⟩
  · obtain ⟨id, hid⟩ := hc.tvr
    exact hu.size ▸ Heap.lt_of_tvr hid
  · obtain ⟨hρ₃, he⟩ := (hu.sol ρ).mp hρ
    have hρ₂ := hc.widened.sol ρ hρ₃
    have h₁ := hf.sound ρ (hev₁₂.sol ρ hρ₂) Γ
      ((hr.binders.sets_le hs hs₁ hs₄ hf.evolved (hev₁₂.trans hev₂₄) hρ).trans hΓ)
    have h₂ := hb.sound ρ hρ₂ Γ (by
      rw [hf.kept.env]
      exact (hr.binders.sets_le hs hs₂ hs₄ (hf.evolved.trans hev₁₂) hev₂₄ hρ).trans hΓ)
    rw [he, hc.sol ρ hρ₃] at h₁
    exact .app hnot h₁ h₂
  · obtain ⟨ρ₃, hρ₃, hag, he, hr₃⟩ := hall ρ hρ τ hτ
    exact ⟨ρ₃, (hu.sol ρ₃).mpr ⟨hρ₃, he⟩, hag, hr₃⟩

lemma Heap.Halvings.insts {h h' : Heap} {sch : Scheme} (hh : h.Halvings h') : h'.insts ρ sch = h.insts ρ sch := by
  simp only [Heap.insts, hh.sol, hh.tvr_iff]

lemma Heap.Halvings.envSets {h h' : Heap} {env : List (String × Scheme)} (hh : h.Halvings h') :
    h'.envSets ρ env = h.envSets ρ env := by
  simp only [Heap.envSets, hh.insts]

/-- Halving keeps what inference has done. -/
lemma Inferred.halved (hi : Inferred s t a s₁) (hr : Rest s₁ s₂) (hh : s₁.heap.Halvings s₂.heap) :
    Inferred s t a s₂ where
  kept := hi.kept.trans hr.sameScope
  evolved := hi.evolved.trans (.ofHalvings hh fun v hv => by
    have hf := hi.evolved.frame v hv
    obtain ⟨id, hid, -⟩ := hv
    exact ⟨id, hf.cell.trans hid⟩)
  lt := hh.halved.size ▸ hi.lt
  apart := fun v hv hr => by
    have hf := hi.evolved.frame v hv
    obtain ⟨id, hid, ho⟩ := hv
    exact hi.apart v ⟨id, hid, ho⟩ ((hh.halved.reaches a v (by simp [hf.cell, hid])).mp hr)
  sound := fun ρ hρ Γ hΓ => hi.sound ρ (hh.sol.mp hρ) Γ (hh.envSets ▸ hΓ)
  complete := fun ρ hρ τ hτ => by
    obtain ⟨ρ', hρ', h⟩ := hi.complete ρ hρ τ hτ
    exact ⟨ρ', hh.sol.mpr hρ', h⟩

/-- The types that the system derives for a term are types of the scheme made of its result,
in any solution that gives the result one of them. -/
lemma Inferred.types_subset (hi : Inferred s t a s₁) (hs : Clean s) (hs₁ : Clean s₁) {sch : Scheme}
    (hg : Generalized s₁ a sch) (hρ : s.heap.Sol ρ) {S : Set Ty} (hS : S.Nonempty)
    (hall : ∀ α ∈ S, Admits (s.heap.envSets ρ s.env) t α) :
    ∃ ρ₁, s₁.heap.Sol ρ₁ ∧ (∀ c < s.heap.size, ρ₁ c = ρ c) ∧ S ⊆ s₁.heap.insts ρ₁ sch := by
  obtain ⟨α₀, hα₀⟩ := hS
  obtain ⟨ρ₁, hρ₁, hag₁, -⟩ := hi.complete ρ hρ α₀ (hall α₀ hα₀)
  refine ⟨ρ₁, hρ₁, hag₁, fun α hα => ?_⟩
  obtain ⟨ρ', hρ', hag', rfl⟩ := hi.complete ρ hρ α (hall α hα)
  classical
  set g : ℕ → Ty := fun v => if ∃ id ∈ sch.q, s₁.heap.cell v = .tvr id then ρ' v else ρ₁ v with hdef
  have hsol : s₁.heap.Sol (s₁.heap.read g) := Heap.sol_read hs₁.plain.closed hs₁.plain.acyclic g
  have hread : ∀ v id, s₁.heap.cell v = .tvr id → s₁.heap.read g v = if id ∈ sch.q then ρ' v else ρ₁ v := by
    intro v id hv
    rw [Heap.read_tvr hv, hdef]
    simp [hv]
  refine ⟨s₁.heap.read g, hsol, fun v id hv hq => by rw [hread v id hv, if_neg hq], ?_⟩
  rw [hg.type]
  refine hs₁.plain.determined hsol hρ' hi.lt fun v id hr hv => ?_
  rw [hread v id hv]
  split_ifs with hq
  · rfl
  -- not quantified, so free in a binder, whose type is an old cell
  have hfree : ∃ e ∈ s₁.env, s₁.heap.VarOf e.2.t id := by
    by_contra hno
    push Not at hno
    exact hq ((hg.q id).mpr ⟨⟨v, hr, hv⟩, hno⟩)
  obtain ⟨e, he, w, hew, hw⟩ := hfree
  obtain rfl := hs₁.plain.inj v w id hv hw
  have hlt := hs.tracked.env e (hi.kept.env ▸ he)
  exact hs₁.plain.agree_below hρ₁ hρ' ((hag₁ _ hlt).trans (hag' _ hlt).symm) hew

lemma Settling.inferLet {v : Term} (hr : Ready s)
    (ihv : ∀ {s}, Ready s → Settling (fun d => infer (envFind d k) d v) s (Inferred s v) (Untypable s v))
    (ihb : ∀ {s}, Ready s → Settling (fun d => infer (envFind d k) d b) s (Inferred s b) (Untypable s b)) :
    Settling (fun d => infer (envFind d k) d (.app (.lam x b) v)) s (Inferred s (.app (.lam x b) v))
      (Untypable s (.app (.lam x b) v)) := by
  have hs := hr.clean
  refine .bind ((ihv hr).mono (fun _ _ _ h => h) fun hun ρ hρ τ hτ => ?_) fun a s₁ hs₁ hi₁ => ?_
  · cases hτ with
    | app hnot => exact absurd rfl (hnot _ _)
    | letLam hS hα =>
      obtain ⟨α, hmem⟩ := hS
      exact hun ρ hρ α (hα α hmem)
  refine .bind ((Settling.generalize hs₁ hi₁.lt fun id => hi₁.kept.envrc ▸ hr.envrc id).mono (fun _ _ _ h => h)
    False.elim) fun sch s₂ hs₂ ⟨hr₂, hh, hg₁⟩ => .envPush ?_
  have hi := hi₁.halved hr₂ hh
  have hg : Generalized s₂ a sch := ⟨hg₁.type, fun id => by rw [hg₁.q, hh.varOf, hr₂.env]; simp only [hh.varOf]⟩
  have hr₂ := hr.later hs₂ hi.kept hi.evolved
  have hsch : sch.t < s₂.heap.size := hg.type ▸ hi.lt
  -- what is quantified is free in no binder
  have hfree : ∀ e ∈ s₂.env, ∀ v id, s₂.heap.Reaches e.2.t v → s₂.heap.cell v = .tvr id → id ∉ sch.q :=
    fun e he v id hev hv hq => ((hg.q id).mp hq).2 e he ⟨v, hev, hv⟩
  have hq : ∀ v id, s₂.heap.cell v = .tvr id → id ∈ sch.q → Aside s₂ v := fun v id hv hq =>
    ⟨id, hv, fun e he hev => absurd hq (hfree e he v id hev hv)⟩
  have hcells : ∀ id ∈ sch.q, ∃ w, s₂.heap.cell w = .tvr id := fun id hq => by
    obtain ⟨w, -, hw⟩ := ((hg.q id).mp hq).1
    exact ⟨w, hw⟩
  have hr₂' : Ready { s₂ with env := (x, sch) :: s₂.env } := by
    refine hr₂.push hsch hcells hq fun e he v id hid hmem hreach => ?_
    rw [hi.kept.env] at he
    obtain ⟨w, hw⟩ := hr.binders.cells e he id hmem
    have ha := hr.binders.aside e he w id hw hmem
    obtain rfl := hs₂.plain.inj v w id hid ((hi.evolved.frame w ha).cell.trans hw)
    exact hi.apart v ha (hg.type ▸ hreach)
  -- the solution that gives the name all the types of the set
  have hall : ∀ ρ, s.heap.Sol ρ → ∀ β, Admits (s.heap.envSets ρ s.env) (.app (.lam x b) v) β →
      ∃ ρ₂, s₂.heap.Sol ρ₂ ∧ (∀ c < s.heap.size, ρ₂ c = ρ c) ∧
        Admits (s₂.heap.envSets ρ₂ ((x, sch) :: s₂.env)) b β := by
    intro ρ hρ β hτ
    cases hτ with
    | app hnot => exact absurd rfl (hnot _ _)
    | letLam hS hα hb =>
      obtain ⟨ρ₂, hρ₂, hag, hsub⟩ := hi.types_subset hs hs₂ hg hρ hS hα
      refine ⟨ρ₂, hρ₂, hag, hb.mono ?_⟩
      rw [Heap.envSets_cons, hi.kept.env]
      exact SetCtx.Le.cons (hr.binders.sets_le_of_agree hs hs₂ hi.evolved hρ₂ hag) x hsub
  refine .bind ((ihb hr₂').mono (fun _ _ _ h => h) fun hun ρ hρ τ hτ => ?_) fun c s₃ hs₃ hb => .envPop ?_
  · obtain ⟨ρ₂, hρ₂, -, hτ₂⟩ := hall ρ hρ τ hτ
    exact hun ρ₂ hρ₂ τ hτ₂
  have hunder : ∀ v, Aside s v → Aside { s₂ with env := (x, sch) :: s₂.env } v := fun v ha =>
    ha.under hi.evolved hi.kept.env (hg.type ▸ hi.apart v ha)
  have hevb : Evolved (Aside { s₂ with env := (x, sch) :: s₂.env }) s₂ s₃ :=
    ⟨hb.evolved.size, hb.evolved.sol, hb.evolved.frame⟩
  have hev₂ : Evolved (Aside s) s₂ s₃ := hevb.anti hunder
  have hev : Evolved (Aside s) s { s₃ with env := s₃.env.tail } := by
    have := hi.evolved.trans hev₂
    exact ⟨this.size, this.sol, this.frame⟩
  have hframe : ∀ v id, s₂.heap.cell v = .tvr id → id ∈ sch.q → Heap.Frame v s₂.heap s₃.heap :=
    fun v id hv hmem => hevb.frame v (hr₂'.binders.aside _ (List.mem_cons_self ..) v id hv hmem)
  refine .pure hs₃.pop ⟨⟨by rw [hb.kept.env]; exact hi.kept.env, hb.kept.envrc.trans hi.kept.envrc,
    hb.kept.prog.trans hi.kept.prog, hi.kept.nextId.trans hb.kept.nextId⟩, hev, hb.lt,
    fun v hv => hb.apart v (hunder v hv), fun ρ hρ Γ hΓ => ?_, fun ρ hρ τ hτ => ?_⟩
  · -- the quantified variables are given types that generalise to all the others
    obtain ⟨ρ', hρ', hag, hinst⟩ := hs₂.plain.general hsch ρ Γ
    have hle := (hr.binders.sets_le hs hs₂ hs₃ hi.evolved hev₂ hρ).trans hΓ
    have hv : HM Γ v (ρ' sch.t) := by
      rw [hg.type]
      refine hi.sound ρ' hρ' Γ ((Heap.envSets_le fun e he => ?_).trans hle)
      refine Heap.insts_congr hs₂.plain ((hs.tracked.env e he).trans_le hi.evolved.size) fun w id hew hw _ => ?_
      exact hag w id hw (hfree e (hi.kept.env ▸ he) w id hew hw)
    refine .letLam hv (hb.sound ρ hρ _ ?_)
    rw [Heap.envSets, List.map_cons, Ctx.sets, List.map_cons, hi.kept.env]
    refine SetCtx.Le.cons hΓ x (subset_trans ?_ hinst)
    exact hs₃.plain.insts_superset hevb.size hevb.sol hcells hframe hρ
  · obtain ⟨ρ₂, hρ₂, hag, hτ₂⟩ := hall ρ hρ τ hτ
    obtain ⟨ρ₃, hρ₃, hag₃, hc⟩ := hb.complete ρ₂ hρ₂ τ hτ₂
    exact ⟨ρ₃, hρ₃, fun e he => (hag₃ e (he.trans_le hi.evolved.size)).trans (hag e he), hc⟩

theorem Settling.infer {Δ : List String} (ht : t.PureIn Δ) (hr : Ready s) :
    Settling (fun d => infer (envFind d k) d t) s (Inferred s t) (Untypable s t) := by
  induction t using infer.induct generalizing Δ s with
  | case1 x => exact .inferVar hr
  | case2 x b ih => exact .inferLam hr fun hr => ih ht hr
  | case3 x b v ihv ihb => exact .inferLet hr (fun hr => ihv ht.2 hr) fun hr => ihb ht.1 hr
  | case4 f a hnot ihf iha =>
    exact .inferApp hr (fun x c he => hnot x c he) (fun hr => ihf ht.1 hr) fun hr => iha ht.2 hr
  | _ => exact ht.elim

end Infer

/-! ## The type of a closed term -/

/-- The types of the variables when each is itself, by its id. -/
def Heap.names (h : Heap) (v : ℕ) : Ty :=
  match h.cell v with
  | .tvr id => .var id
  | _ => .var 0

/-- A scheme read off the heap. -/
def Heap.poly (h : Heap) (sch : Scheme) : Poly := ⟨sch.q.toFinset, h.read h.names sch.t⟩

/-- A state without definitions. -/
structure Bare (s : TypeState) : Prop where
  clean : Clean s
  defs : s.prog.defs = []
  envrc : ∀ id, s.envrc.get id = 0

section Closed

variable {s s' : TypeState} {t : Term} {a k : ℕ} {sch : Scheme} {τ : Ty}

/-- The stack is emptied before a check. -/
lemma Bare.ready (hs : Bare s) : Ready { s with env := [], regN := s.prog.defs.length } where
  clean := by
    obtain ⟨ht, hp, hf⟩ := hs.clean
    exact ⟨⟨ht.closed, fun _ h => absurd h List.not_mem_nil, ht.defs, ht.acyclic, ht.bound⟩, hp, hf⟩
  binders := ⟨by simp, by simp⟩
  defs := hs.defs
  envrc := hs.envrc

lemma startState_bare : Bare startState where
  clean :=
    ⟨Start.good ⟨Heap.closed_of_ordered rfl, Heap.acyclic_of_ordered rfl, by decide, by decide, rfl, rfl⟩,
      ⟨Heap.closed_of_ordered rfl, Heap.acyclic_of_ordered rfl, fun _ h => absurd h (Nat.not_lt_zero _),
        fun v _ _ hv => absurd (Heap.lt_of_tvr hv) (Nat.not_lt_zero v)⟩,
      fun v _ hv => absurd (Heap.lt_of_tvr hv) (Nat.not_lt_zero v)⟩
  defs := rfl
  envrc := fun _ => rfl

/-- The types of a closed term are the instances of the scheme. -/
lemma Inferred.principal (hs : Clean s) (henv : s.env = []) (hs' : Clean s') (hi : Inferred s t a s')
    (ht : sch.t = a) (hq : ∀ id, id ∈ sch.q ↔ s'.heap.VarOf a id) :
    HM [] t τ ↔ (s'.heap.poly sch).Inst τ := by
  subst ht
  have hnames : s'.heap.Sol (s'.heap.read s'.heap.names) :=
    Heap.sol_read hs'.plain.closed hs'.plain.acyclic _
  constructor
  · intro hτ
    obtain ⟨ρ, hρ, -, rfl⟩ := hi.complete _ (Heap.sol_read hs.plain.closed hs.plain.acyclic .var) τ
      (by rw [henv]; exact hτ.admits)
    classical
    refine ⟨fun id => if h : ∃ v, s'.heap.Reaches sch.t v ∧ s'.heap.cell v = .tvr id then ρ h.choose else .var id,
      fun id hid => dif_neg fun h => hid (List.mem_toFinset.mpr ((hq id).mpr h)), ?_⟩
    refine hs'.plain.determined hρ (hnames.subst _) hi.lt fun v id hr hv => ?_
    have hex : ∃ w, s'.heap.Reaches sch.t w ∧ s'.heap.cell w = .tvr id := ⟨v, hr, hv⟩
    have hw : hex.choose = v := hs'.plain.inj _ _ id hex.choose_spec.2 hv
    rw [Heap.read_tvr hv, Heap.names, hv, Ty.subst, dif_pos hex, hw]
  · rintro ⟨θ, -, rfl⟩
    refine hi.sound _ (hnames.subst θ) [] ?_
    rw [henv]
    exact SetCtx.Le.refl _

/-- The check of a closed term ends; it succeeds if and only if the term has a type, and
then the instances of the scheme it returns are the types of the term. -/
theorem checkTerm_principal (hs : Bare s) (ht : t.PureIn []) :
    ∃ r, (∃ d₀, ∀ d, d₀ ≤ d → checkTerm d k t s = r) ∧ (∀ s', r ≠ .error .fuel s') ∧
      ((∃ sch s', r = .ok (.ok sch) s') ↔ ∃ τ, HM [] t τ) ∧
      ∀ sch s', r = .ok (.ok sch) s' → ∀ τ, HM [] t τ ↔ (s'.heap.poly sch).Inst τ := by
  have hrun : Settling (fun d => infer (envFind d k) d t >>= generalize d)
      { s with env := [], regN := s.prog.defs.length }
      (fun sch s' => ∀ τ, HM [] t τ ↔ (s'.heap.poly sch).Inst τ) (¬ ∃ τ, HM [] t τ) := by
    have hr := hs.ready
    refine .bind ((Settling.infer ht hr).orElse fun hun hex => ?_) fun a s₁ hs₁ hi => ?_
    · obtain ⟨τ, hτ⟩ := hex
      exact hun _ (Heap.sol_read hr.clean.plain.closed hr.clean.plain.acyclic .var) τ hτ.admits
    · refine (Settling.generalize hs₁ hi.lt fun id => hi.kept.envrc ▸ hs.envrc id).mono
        (fun sch s₂ hs₂ h₂ τ => ?_) id
      obtain ⟨hr₂, hh, hg⟩ := h₂
      refine (hi.halved hr₂ hh).principal hr.clean rfl hs₂ hg.type fun id => ?_
      rw [hg.q, hh.varOf, hi.kept.env]
      simp
  have hload : ∀ d, envLoadDefs d true s = .ok () { s with env := [], regN := s.prog.defs.length } := by
    intro d
    have hc : countDefs d (s.prog.defs.drop s.regN) = pure () := by simp [hs.defs, countDefs]
    change EStateM.bind (countDefs d (s.prog.defs.drop s.regN)) _ s = _
    rw [hc]
    rfl
  obtain ⟨r, hr, hp⟩ := (Ends.bind (f := fun d _ => infer (envFind d k) d t >>= generalize d)
    (Q := fun _ s' => s' = { s with env := [], regN := s.prog.defs.length })
    ⟨_, ⟨0, fun d _ => hload d⟩, rfl⟩ fun _ s' he => he ▸ hrun).guarded
  refine ⟨r, hr, ?_⟩
  cases r with
  | error e s' =>
    refine ⟨fun s'' he => hp.1 (by cases he; rfl), ⟨?_, fun h => absurd h hp.2⟩, fun _ _ he => (by cases he)⟩
    rintro ⟨_, _, he⟩
    cases he
  | ok r s' =>
    refine ⟨fun _ he => (by cases he), ?_, fun sch s'' he => ?_⟩
    · cases r with
      | error msg =>
        refine ⟨?_, fun h => absurd h (hp.2 msg rfl)⟩
        rintro ⟨_, _, he⟩
        cases he
      | ok sch =>
        obtain ⟨-, hsch⟩ := hp.1 sch rfl
        refine ⟨fun _ => ⟨_, (hsch _).mpr ⟨.var, fun _ _ => rfl, (Ty.subst_var _).symm⟩⟩, fun _ => ⟨sch, s', rfl⟩⟩
    · cases he
      exact (hp.1 sch rfl).2

/-- `let i = \x.x in i i`. -/
def selfTerm : Term := .app (.lam "i" (.app (.var "i") (.var "i"))) (.lam "x" (.var "x"))

theorem checkTerm_principal_self : Bare startState ∧ selfTerm.PureIn [] ∧
    ∃ r, (∃ d₀, ∀ d, d₀ ≤ d → checkTerm d 0 selfTerm startState = r) ∧ (∀ s', r ≠ .error .fuel s') ∧
      ((∃ sch s', r = .ok (.ok sch) s') ↔ ∃ τ, HM [] selfTerm τ) ∧
      ∀ sch s', r = .ok (.ok sch) s' → ∀ τ, HM [] selfTerm τ ↔ (s'.heap.poly sch).Inst τ :=
  ⟨startState_bare, by decide, checkTerm_principal startState_bare (by decide)⟩

end Closed

end LinEngine
