import LinEngine.Graph
import LinEngine.Lambda

/-!
# Reading a tree from the graph

From ROOT, a function is read through its port 2, an application through its ports
0 and 2, and a variable where a wire ends in the binder port of a function. The
agents of the tree keep their numbers as binder names, all different, so that
gluing an application to its function is plain substitution of the operand's tree.
What is not reached is garbage: it can hold the binder port of a function of the
tree, nothing else of it.
-/
namespace LinEngine

open Splice Lambda

/-- A lambda term whose binders and applications carry their agents. -/
inductive Tree
  | var (v : ℕ)
  | lam (v : ℕ) (b : Tree)
  | app (v : ℕ) (f a : Tree)
  deriving DecidableEq, Repr

namespace Tree

def nodes : Tree → List ℕ
  | var _ => []
  | lam v b => v :: nodes b
  | app v f a => v :: (nodes f ++ nodes a)

def vars : Tree → List ℕ
  | var v => [v]
  | lam _ b => vars b
  | app _ f a => vars f ++ vars a

/-- Every variable is bound by an enclosing function or by `Γ`. -/
def ClosedIn : List ℕ → Tree → Prop
  | Γ, var v => v ∈ Γ
  | Γ, lam v b => ClosedIn (v :: Γ) b
  | Γ, app _ f a => ClosedIn Γ f ∧ ClosedIn Γ a

/-- The term with the binders of `Γ` in scope, the innermost first. -/
def toTm {κ : Type} : List ℕ → Tree → Tm κ
  | Γ, var v => .var (Γ.idxOf v)
  | Γ, lam v b => .lam (toTm (v :: Γ) b)
  | Γ, app _ f a => .app (toTm Γ f) (toTm Γ a)

/-- The body of a function. -/
def body : Tree → Tree
  | lam _ b => b
  | t => t

/-- Contract the application `b` of the function `a` to the operand `N`. -/
def red (a b : ℕ) (N : Tree) : Tree → Tree
  | var v => if v = a then N else var v
  | lam v s => lam v (red a b N s)
  | app v f x => if v = b then (red a b N f).body else app v (red a b N f) (red a b N x)

section Red

variable {a b : ℕ} {N : Tree}

lemma red_of_avoids {S : Tree} (ha : a ∉ S.vars) (hb : b ∉ S.nodes) : red a b N S = S := by
  induction S with
  | var v => simp_all [vars, red, eq_comm]
  | lam v s ih =>
    simp only [vars, nodes, List.mem_cons, not_or] at ha hb
    rw [red, ih ha hb.2]
  | app v f x ihf ihx =>
    simp only [vars, nodes, List.mem_cons, List.mem_append, not_or] at ha hb
    rw [red, if_neg (Ne.symm hb.1), ihf ha.1 hb.2.1, ihx ha.2 hb.2.2]

lemma mem_vars_of_closed {S : Tree} {Γ : List ℕ} (h : S.ClosedIn Γ) {v : ℕ} (hv : v ∈ S.vars) :
    v ∈ Γ ∨ v ∈ S.nodes := by
  induction S generalizing Γ with
  | var u =>
    obtain rfl := List.mem_singleton.mp hv
    exact Or.inl h
  | lam u s ih =>
    simp only [nodes, List.mem_cons]
    rcases ih h hv with h | h
    · rcases List.mem_cons.mp h with h | h
      · exact Or.inr (Or.inl h)
      · exact Or.inl h
    · exact Or.inr (Or.inr h)
  | app u f x ihf ihx =>
    simp only [nodes, List.mem_cons, List.mem_append]
    rcases List.mem_append.mp hv with hv | hv
    · exact (ihf h.1 hv).imp_right fun h => Or.inr (Or.inl h)
    · exact (ihx h.2 hv).imp_right fun h => Or.inr (Or.inr h)

/-- More binders in scope do not matter to a closed tree. -/
lemma ClosedIn.mono {S : Tree} {Γ Γ' : List ℕ} (h : S.ClosedIn Γ) (hs : Γ ⊆ Γ') :
    S.ClosedIn Γ' := by
  induction S generalizing Γ Γ' with
  | var v => exact hs h
  | lam v s ih => exact ih h (List.cons_subset_cons v hs)
  | app v f x ihf ihx => exact ⟨ihf h.1 hs, ihx h.2 hs⟩

/-- Binders inserted in the scope shift the indices above them. -/
lemma toTm_weaken {κ : Type} {S : Tree} (E Δ Γ : List ℕ) (h : S.ClosedIn (E ++ Γ))
    (hΔ : ∀ v ∈ Δ, v ∉ E ++ Γ ∧ v ∉ S.nodes) :
    (S.toTm (E ++ Δ ++ Γ) : Tm κ) =
      (S.toTm (E ++ Γ)).rename (Tm.upr^[E.length] (· + Δ.length)) := by
  induction S generalizing E with
  | var v =>
    simp only [toTm, Tm.rename, Tm.var.injEq]
    by_cases hE : v ∈ E
    · rw [Tm.upr_iterate_lt _ (by rw [List.idxOf_append_of_mem hE]; exact List.idxOf_lt_length_of_mem hE),
        List.idxOf_append_of_mem (by simp [hE]), List.idxOf_append_of_mem hE,
        List.idxOf_append_of_mem hE]
    · have hnΔ : v ∉ Δ := fun hv => (hΔ v hv).1 h
      rw [List.idxOf_append_of_notMem (by simp [hE, hnΔ]), List.idxOf_append_of_notMem hE,
        Tm.upr_iterate_add, List.length_append]
      omega
  | lam v s ih =>
    have hih := ih (v :: E) h fun u hu => by
      obtain ⟨h1, h2⟩ := hΔ u hu
      simp only [nodes, List.mem_cons, not_or] at h2
      simp only [List.cons_append, List.mem_cons, not_or]
      exact ⟨⟨h2.1, h1⟩, h2.2⟩
    simp only [toTm, Tm.rename, Tm.lam.injEq]
    simpa only [List.cons_append, List.length_cons, Function.iterate_succ_apply'] using hih
  | app v f x ihf ihx =>
    simp only [toTm, Tm.rename, Tm.app.injEq]
    refine ⟨ihf E h.1 fun u hu => ?_, ihx E h.2 fun u hu => ?_⟩ <;>
    · obtain ⟨h1, h2⟩ := hΔ u hu
      simp only [nodes, List.mem_cons, List.mem_append, not_or] at h2
      exact ⟨h1, by simp [h2]⟩

/-- Substituting the operand's tree for the binder is beta on the terms. -/
lemma toTm_red {κ : Type} {S : Tree} (Δ Γ : List ℕ) (hS : S.ClosedIn (Δ ++ a :: Γ))
    (hN : N.ClosedIn Γ) (hb : b ∉ S.nodes) (hΔ : ∀ v ∈ Δ, v ∉ Γ ∧ v ≠ a ∧ v ∉ N.nodes)
    (hdis : ∀ v ∈ S.nodes, v ∉ Γ ∧ v ≠ a ∧ v ∉ N.nodes) :
    ((red a b N S).toTm (Δ ++ Γ) : Tm κ) =
      (S.toTm (Δ ++ a :: Γ)).subst (Tm.ups^[Δ.length] (Tm.inst (N.toTm Γ))) := by
  induction S generalizing Δ with
  | var v =>
    simp only [red, toTm, Tm.subst]
    by_cases hv : v ∈ Δ
    · have hne : v ≠ a := (hΔ v hv).2.1
      rw [if_neg hne, toTm, List.idxOf_append_of_mem hv, List.idxOf_append_of_mem hv,
        Tm.ups_iterate_lt _ (List.idxOf_lt_length_of_mem hv)]
    · rw [List.idxOf_append_of_notMem hv, Tm.ups_iterate_add]
      by_cases hva : v = a
      · subst hva
        rw [if_pos rfl, List.idxOf_cons_self, Tm.inst]
        have hw := toTm_weaken (κ := κ) (S := N) [] Δ Γ hN fun u hu =>
          ⟨(hΔ u hu).1, (hΔ u hu).2.2⟩
        simpa using hw
      · rw [if_neg hva, toTm, List.idxOf_append_of_notMem hv, List.idxOf_cons_ne _ (Ne.symm hva)]
        simp only [Tm.inst, Tm.rename, Nat.add_comm]
  | lam v s ih =>
    simp only [nodes, List.mem_cons, not_or, forall_eq_or_imp] at hb hdis
    have hih := ih (v :: Δ) hS hb.2 (by simpa using ⟨hdis.1, hΔ⟩) hdis.2
    simp only [red, toTm, Tm.subst, Tm.lam.injEq]
    simpa only [List.cons_append, List.length_cons, Function.iterate_succ_apply'] using hih
  | app v f x ihf ihx =>
    simp only [nodes, List.mem_cons, List.mem_append, not_or] at hb hdis
    rw [red, if_neg (Ne.symm hb.1)]
    simp only [toTm, Tm.subst, Tm.app.injEq]
    exact ⟨ihf Δ hS.1 hb.2.1 hΔ fun u hu => hdis u (Or.inr (Or.inl hu)),
      ihx Δ hS.2 hb.2.2 hΔ fun u hu => hdis u (Or.inr (Or.inr hu))⟩

end Red

/-! ## Substitution keeps a tree affine -/

section Count

variable {a b : ℕ} {N : Tree}

lemma count_red {S : Tree} (hb : b ∉ S.nodes) (u : ℕ) :
    (red a b N S).nodes.count u = S.nodes.count u + S.vars.count a * N.nodes.count u := by
  induction S with
  | var v =>
    by_cases hv : v = a
    · subst hv
      simp [red, nodes, vars]
    · simp [red, nodes, vars, hv]
  | lam v s ih =>
    simp only [nodes, List.mem_cons, not_or] at hb
    simp only [red, nodes, vars, List.count_cons, ih hb.2]
    omega
  | app v f x ihf ihx =>
    simp only [nodes, List.mem_cons, List.mem_append, not_or] at hb
    rw [red, if_neg (Ne.symm hb.1)]
    simp only [nodes, vars, List.count_cons, List.count_append, ihf hb.2.1, ihx hb.2.2, Nat.add_mul]
    omega

lemma count_vars_red {S : Tree} (hb : b ∉ S.nodes) (u : ℕ) :
    (red a b N S).vars.count u + (if u = a then S.vars.count a else 0) =
      S.vars.count u + S.vars.count a * N.vars.count u := by
  induction S with
  | var v =>
    by_cases hv : v = a
    · subst hv
      by_cases hu : u = v
      · subst hu
        simp [red, vars, Nat.add_comm]
      · simp [red, vars, hu, Ne.symm hu]
    · have h0 : (List.count a [v]) = 0 := by simp [hv]
      simp [red, vars, hv]
  | lam v s ih =>
    simp only [nodes, List.mem_cons, not_or] at hb
    exact ih hb.2
  | app v f x ihf ihx =>
    simp only [nodes, List.mem_cons, List.mem_append, not_or] at hb
    rw [red, if_neg (Ne.symm hb.1)]
    have hf := ihf hb.2.1
    have hx := ihx hb.2.2
    simp only [vars, List.count_append, Nat.add_mul]
    split_ifs at hf hx ⊢ <;> omega

end Count

/-- The application `b` of the function `a` with body `M` to `N` occurs in the tree. -/
def HasRedex (a b : ℕ) (M N : Tree) : Tree → Prop
  | var _ => False
  | lam _ s => HasRedex a b M N s
  | app v f x => (v = b ∧ f = lam a M ∧ x = N) ∨ HasRedex a b M N f ∨ HasRedex a b M N x

/-- Each agent occurs once, each variable at most once, and the tree is closed under
binders that are not its own. -/
structure Affine (Γ : List ℕ) (T : Tree) : Prop where
  closed : T.ClosedIn Γ
  nodes : T.nodes.Nodup
  vars : T.vars.Nodup
  apart : ∀ v ∈ T.nodes, v ∉ Γ

section Contract

variable {a b : ℕ} {M N : Tree}

lemma HasRedex.mem {T : Tree} (h : HasRedex a b M N T) :
    b ∈ T.nodes ∧ a ∈ T.nodes := by
  induction T with
  | var v => exact h.elim
  | lam v s ih =>
    obtain ⟨h1, h2⟩ := ih h
    exact ⟨List.mem_cons_of_mem _ h1, List.mem_cons_of_mem _ h2⟩
  | app v f x ihf ihx =>
    simp only [nodes, List.mem_cons, List.mem_append]
    rcases h with ⟨rfl, rfl, rfl⟩ | h | h
    · exact ⟨Or.inl rfl, Or.inr (Or.inl (List.mem_cons_self))⟩
    · exact ⟨Or.inr (Or.inl (ihf h).1), Or.inr (Or.inl (ihf h).2)⟩
    · exact ⟨Or.inr (Or.inr (ihx h).1), Or.inr (Or.inr (ihx h).2)⟩

variable {Γ : List ℕ} {v : ℕ} {f x s : Tree}

lemma Affine.lam (h : Affine Γ (lam v s)) : Affine (v :: Γ) s := by
  obtain ⟨hc, hn, hv, ha⟩ := h
  simp only [Tree.nodes, List.nodup_cons, List.mem_cons, forall_eq_or_imp] at hn ha
  refine ⟨hc, hn.2, hv, fun u hu => ?_⟩
  rw [List.mem_cons, not_or]
  exact ⟨fun he => hn.1 (he ▸ hu), ha.2 u hu⟩

lemma Affine.appL (h : Affine Γ (app v f x)) : Affine Γ f := by
  obtain ⟨hc, hn, hv, ha⟩ := h
  simp only [Tree.nodes, Tree.vars, List.nodup_cons, List.nodup_append] at hn hv
  exact ⟨hc.1, hn.2.1, hv.1, fun u hu => ha u (by simp [Tree.nodes, hu])⟩

lemma Affine.appR (h : Affine Γ (app v f x)) : Affine Γ x := by
  obtain ⟨hc, hn, hv, ha⟩ := h
  simp only [Tree.nodes, Tree.vars, List.nodup_cons, List.nodup_append] at hn hv
  exact ⟨hc.2, hn.2.2.1, hv.2.1, fun u hu => ha u (by simp [Tree.nodes, hu])⟩

/-- The two sides of an application share no agent. -/
lemma Affine.sides (h : Affine Γ (app v f x)) :
    v ∉ f.nodes ∧ v ∉ x.nodes ∧ ∀ u ∈ f.nodes, u ∉ x.nodes := by
  have hn := h.nodes
  simp only [Tree.nodes, List.nodup_cons, List.mem_append, not_or, List.nodup_append] at hn
  exact ⟨hn.1.1, hn.1.2, fun u hu hu' => hn.2.2.2 u hu u hu' rfl⟩

/-- A part that holds neither agent of the redex is not changed. -/
lemma Affine.red_other {S : Tree} (h : Affine Γ S) (hΓ : a ∉ Γ) (ha : a ∉ S.nodes)
    (hb : b ∉ S.nodes) : red a b N S = S :=
  red_of_avoids (fun hv => (mem_vars_of_closed h.closed hv).elim hΓ ha) hb

lemma closedIn_red {S : Tree} (Δ : List ℕ) (hS : S.ClosedIn (Δ ++ a :: Γ)) (hN : N.ClosedIn Γ)
    (hb : b ∉ S.nodes) : (red a b N S).ClosedIn (Δ ++ Γ) := by
  induction S generalizing Δ with
  | var v =>
    simp only [red]
    split_ifs with hv
    · exact hN.mono (List.subset_append_right Δ Γ)
    · simp only [ClosedIn, List.mem_append, List.mem_cons] at hS ⊢
      tauto
  | lam v s ih =>
    simp only [Tree.nodes, List.mem_cons, not_or] at hb
    exact ih (v :: Δ) hS hb.2
  | app v f x ihf ihx =>
    simp only [Tree.nodes, List.mem_cons, List.mem_append, not_or] at hb
    rw [red, if_neg (Ne.symm hb.1)]
    exact ⟨ihf Δ hS.1 hb.2.1, ihx Δ hS.2 hb.2.2⟩

/-- What contracting a redex does to the tree. -/
structure Contracted (Γ : List ℕ) (T T' : Tree) : Prop where
  closed : T'.ClosedIn Γ
  nodes : ∀ u, T'.nodes.count u ≤ T.nodes.count u
  vars : ∀ u, T'.vars.count u ≤ T.vars.count u
  beta : ∀ κ : Type, Tm.Beta (T.toTm Γ : Tm κ) (T'.toTm Γ)

lemma Contracted.affine {T T' : Tree} (h : Contracted Γ T T') (hT : Affine Γ T) :
    Affine Γ T' where
  closed := h.closed
  nodes := List.nodup_iff_count_le_one.mpr fun u =>
    (h.nodes u).trans (List.nodup_iff_count_le_one.mp hT.nodes u)
  vars := List.nodup_iff_count_le_one.mpr fun u =>
    (h.vars u).trans (List.nodup_iff_count_le_one.mp hT.vars u)
  apart := fun u hu => hT.apart u (List.count_pos_iff.mp
    ((List.count_pos_iff.mpr hu).trans_le (h.nodes u)))

/-- The redex itself: its function and operand are affine and apart. -/
lemma Affine.contract_here (h : Affine Γ (Tree.app b (Tree.lam a M) N)) :
    Contracted Γ (Tree.app b (Tree.lam a M) N) (red a b N M) := by
  obtain ⟨hbl, hbN, hdis⟩ := h.sides
  simp only [Tree.nodes, List.mem_cons, not_or] at hbl hdis
  have hM := h.appL.lam
  have hva : M.vars.count a ≤ 1 := List.nodup_iff_count_le_one.mp hM.vars a
  have haM : a ∉ M.nodes := fun hu => hM.apart a hu List.mem_cons_self
  refine ⟨?_, fun u => ?_, fun u => ?_, fun κ => ?_⟩
  · exact closedIn_red [] hM.closed h.appR.closed hbl.2
  · have hmul := Nat.mul_le_mul_right (N.nodes.count u) hva
    simp only [count_red hbl.2, Tree.nodes, List.count_cons, List.count_append]
    omega
  · have hmul := Nat.mul_le_mul_right (N.vars.count u) hva
    have hcount := count_vars_red (a := a) (N := N) hbl.2 u
    simp only [Tree.vars, List.count_append]
    omega
  · have hbeta := toTm_red (κ := κ) (a := a) (b := b) [] Γ hM.closed h.appR.closed hbl.2
      (by simp) fun u hu => ⟨fun hΓ => hM.apart u hu (List.mem_cons_of_mem a hΓ),
        fun he => haM (he ▸ hu), hdis u (Or.inr hu)⟩
    rw [List.nil_append] at hbeta
    rw [hbeta]
    exact .beta _ _

theorem Affine.contract {T : Tree} (h : Affine Γ T) (hr : HasRedex a b M N T) :
    Contracted Γ T (red a b N T) := by
  induction T generalizing Γ with
  | var v => exact hr.elim
  | lam v s ih =>
    obtain ⟨hc, hn, hv, hb⟩ := ih h.lam hr
    refine ⟨hc, fun u => ?_, hv, fun κ => .lam (hb κ)⟩
    simp only [red, Tree.nodes, List.count_cons]
    exact Nat.add_le_add_right (hn u) _
  | app v f x ihf ihx =>
    obtain ⟨hvf, hvx, hdis⟩ := h.sides
    rcases hr with ⟨rfl, rfl, rfl⟩ | hr | hr
    · have he : red a v x (Tree.app v (Tree.lam a M) x) = red a v x M := by
        rw [red, if_pos rfl]
        rfl
      rw [he]
      exact h.contract_here
    · obtain ⟨hbf, haf⟩ := hr.mem
      have hvb : v ≠ b := fun he => hvf (he ▸ hbf)
      have haΓ : a ∉ Γ := fun ha => h.appL.apart a haf ha
      have hx : red a b N x = x := h.appR.red_other haΓ (hdis a haf) (hdis b hbf)
      obtain ⟨hc, hn, hv, hb⟩ := ihf h.appL hr
      rw [red, if_neg hvb, hx]
      refine ⟨⟨hc, h.closed.2⟩, fun u => ?_, fun u => ?_, fun κ => .appL _ (hb κ)⟩
      · simp only [Tree.nodes, List.count_cons, List.count_append]
        have := hn u
        omega
      · simp only [Tree.vars, List.count_append]
        have := hv u
        omega
    · obtain ⟨hbx, hax⟩ := hr.mem
      have hvb : v ≠ b := fun he => hvx (he ▸ hbx)
      have haΓ : a ∉ Γ := fun ha => h.appR.apart a hax ha
      have hf : red a b N f = f :=
        h.appL.red_other haΓ (fun hu => hdis a hu hax) fun hu => hdis b hu hbx
      obtain ⟨hc, hn, hv, hb⟩ := ihx h.appR hr
      rw [red, if_neg hvb, hf]
      refine ⟨⟨h.closed.1, hc⟩, fun u => ?_, fun u => ?_, fun κ => .appR _ (hb κ)⟩
      · simp only [Tree.nodes, List.count_cons, List.count_append]
        have := hn u
        omega
      · simp only [Tree.vars, List.count_append]
        have := hv u
        omega

end Contract

/-- A term that is not normal has its redex in the tree. -/
lemma exists_redex_of_not_normal {κ : Type} {T : Tree} (Γ : List ℕ)
    (h : (T.toTm Γ : Tm κ).normal = false) : ∃ a b M N, HasRedex a b M N T := by
  induction T generalizing Γ with
  | var v => simp [toTm, Tm.normal] at h
  | lam v s ih => exact ih (v :: Γ) h
  | app v f x ihf ihx =>
    cases f with
    | lam a M => exact ⟨a, v, M, x, Or.inl ⟨rfl, rfl, rfl⟩⟩
    | var u =>
      obtain ⟨a, b, M, N, hr⟩ := ihx Γ (by simpa [toTm, Tm.normal] using h)
      exact ⟨a, b, M, N, Or.inr (Or.inr hr)⟩
    | app u f' x' =>
      simp only [toTm, Tm.normal, Bool.and_eq_false_iff] at h
      rcases h with h | h
      · obtain ⟨a, b, M, N, hr⟩ := ihf Γ (by simpa [toTm, Tm.normal] using h)
        exact ⟨a, b, M, N, Or.inr (Or.inl hr)⟩
      · obtain ⟨a, b, M, N, hr⟩ := ihx Γ h
        exact ⟨a, b, M, N, Or.inr (Or.inr hr)⟩

end Tree

/-! ## Reading a tree -/

/-- The value that arrives at a port is the tree `T`. -/
def Reads (G : Graph) : Option Port → Tree → Prop
  | X, .var v => X = some ⟨v, 1⟩
  | X, .lam v s => X = some ⟨v, 0⟩ ∧ G.live v ∧ G.tag v = .lam ∧ Reads G (G.wire ⟨v, 2⟩) s
  | X, .app v f x => X = some ⟨v, 1⟩ ∧ G.live v ∧ G.tag v = .app ∧
      Reads G (G.wire ⟨v, 0⟩) f ∧ Reads G (G.wire ⟨v, 2⟩) x

/-- The tree read from ROOT. -/
structure ReadsRoot (G : Graph) (T : Tree) : Prop where
  live : G.live 0
  tag : G.tag 0 = .root
  reads : Reads G (G.wire ⟨0, 0⟩) T
  affine : T.Affine []

section Step

variable {G G' : Graph} {a b : ℕ} {N T S : Tree} {X Z : Option Port}

lemma Reads.isSome (h : Reads G X S) : ∃ p, X = some p := by
  cases S with
  | var v => exact ⟨_, h⟩
  | lam v s => exact ⟨_, h.1⟩
  | app v f x => exact ⟨_, h.1⟩

/-- An outside node stays live when something is still wired to one of its ports. -/
lemma Annihilates.exit (h : Annihilates swapped a b G G') {p : Port} (hl : G.live p.node)
    (ha : p.node ≠ a) (hb : p.node ≠ b)
    (hS : ∀ z, Exits G.wire (crossing a b swapped) (G.wire p) z → Reads G' z S) :
    G'.live p.node ∧ Reads G' (G'.wire p) S := by
  obtain ⟨z, hz⟩ := h.exits p hl ha hb
  obtain ⟨q, hq⟩ := (hS z hz).isSome
  have hlive : G'.live p.node := (h.live _).mpr ⟨hl, ha, hb, Or.inr ⟨p.port, q, hq ▸ hz⟩⟩
  refine ⟨hlive, ?_⟩
  rw [(h.wire p hlive).unique hz]
  exact hS z hz

/-- A part that does not hold the pair is read as before, with the operand's tree in
place of the bound variable. -/
lemma Reads.outside (h : Annihilates swapped a b G G') (hS : Reads G X S)
    (hZ : Exits G.wire (crossing a b swapped) X Z) (ha : a ∉ S.nodes) (hb : b ∉ S.nodes)
    (hvb : b ∉ S.vars) (hN : a ∈ S.vars → ∀ z,
      Exits G.wire (crossing a b swapped) (G.wire ⟨b, 2⟩) z → Reads G' z N) :
    Reads G' Z (Tree.red a b N S) := by
  induction S generalizing X Z with
  | var v =>
    obtain rfl : X = some ⟨v, 1⟩ := hS
    rw [Tree.vars, List.mem_singleton] at hvb
    by_cases hv : v = a
    · subst hv
      rw [Tree.red, if_pos rfl]
      refine hN (by simp [Tree.vars]) Z ?_
      cases hZ with
      | out hc => simp [crossing] at hc
      | thru hc hZ =>
        simp only [crossing, if_true, swapped, Option.some.injEq] at hc
        exact hc ▸ hZ
    · rw [Tree.red, if_neg hv]
      rw [exits_some_iff (crossing_eq_none.mpr ⟨hv, Ne.symm hvb⟩)] at hZ
      exact hZ
  | lam v s ih =>
    obtain ⟨rfl, hl, ht, hs⟩ := hS
    simp only [Tree.nodes, List.mem_cons, not_or] at ha hb
    rw [exits_some_iff (crossing_eq_none.mpr ⟨Ne.symm ha.1, Ne.symm hb.1⟩)] at hZ
    obtain ⟨hlive, hr⟩ := h.exit (p := ⟨v, 2⟩) hl (Ne.symm ha.1) (Ne.symm hb.1)
      fun z hz => ih hs hz ha.2 hb.2 hvb hN
    exact ⟨hZ, hlive, (h.tag v hlive).trans ht, hr⟩
  | app v f x ihf ihx =>
    obtain ⟨rfl, hl, ht, hf, hx⟩ := hS
    simp only [Tree.nodes, Tree.vars, List.mem_cons, List.mem_append, not_or] at ha hb hvb hN
    rw [exits_some_iff (crossing_eq_none.mpr ⟨Ne.symm ha.1, Ne.symm hb.1⟩)] at hZ
    obtain ⟨hlive, hrf⟩ := h.exit (p := ⟨v, 0⟩) hl (Ne.symm ha.1) (Ne.symm hb.1)
      fun z hz => ihf hf hz ha.2.1 hb.2.1 hvb.1 fun hv => hN (Or.inl hv)
    obtain ⟨-, hrx⟩ := h.exit (p := ⟨v, 2⟩) hl (Ne.symm ha.1) (Ne.symm hb.1)
      fun z hz => ihx hx hz ha.2.2 hb.2.2 hvb.2 fun hv => hN (Or.inr hv)
    rw [Tree.red, if_neg (Ne.symm hb.1)]
    exact ⟨hZ, hlive, (h.tag v hlive).trans ht, hrf, hrx⟩

variable {M : Tree} {Γ : List ℕ}

/-- The part that holds the redex is read with the redex contracted. -/
lemma Reads.redex (h : Annihilates swapped a b G G') (hab : a ≠ b) (hr : Tree.HasRedex a b M N T)
    (hT : Reads G X T) (hA : T.Affine Γ) (hb : b ∉ Γ)
    (hZ : Exits G.wire (crossing a b swapped) X Z) : Reads G' Z (Tree.red a b N T) := by
  induction T generalizing Γ X Z with
  | var v => exact hr.elim
  | lam v s ih =>
    obtain ⟨rfl, hl, ht, hs⟩ := hT
    obtain ⟨hbs, has⟩ := Tree.HasRedex.mem (T := s) hr
    have hv := (List.nodup_cons.mp hA.nodes).1
    have hva : v ≠ a := fun he => hv (he ▸ has)
    have hvb : v ≠ b := fun he => hv (he ▸ hbs)
    rw [exits_some_iff (crossing_eq_none.mpr ⟨hva, hvb⟩)] at hZ
    obtain ⟨hlive, hrs⟩ := h.exit (p := ⟨v, 2⟩) hl hva hvb fun z hz =>
      ih hr hs hA.lam (by simp [hb, Ne.symm hvb]) hz
    exact ⟨hZ, hlive, (h.tag v hlive).trans ht, hrs⟩
  | app v f x ihf ihx =>
    obtain ⟨rfl, hl, ht, hf, hx⟩ := hT
    obtain ⟨hvf, hvx, hdis⟩ := hA.sides
    rcases hr with ⟨rfl, rfl, rfl⟩ | hr | hr
    · -- the redex itself: the result leads to the body of the function
      obtain ⟨-, -, -, hM⟩ := hf
      simp only [Tree.nodes, List.mem_cons, not_or] at hvf hdis
      have hAM := hA.appL.lam
      have haM : a ∉ M.nodes := fun hu => hAM.apart a hu List.mem_cons_self
      have hax : a ∉ x.nodes := hdis a (Or.inl rfl)
      have hbx : v ∉ x.vars := fun hu => (Tree.mem_vars_of_closed hA.appR.closed hu).elim hb hvx
      have hbM : v ∉ M.vars := fun hu => by
        rcases Tree.mem_vars_of_closed hAM.closed hu with hu | hu
        · exact (List.mem_cons.mp hu).elim hvf.1 hb
        · exact hvf.2 hu
      have haΓ : a ∉ Γ := hA.apart a (by simp [Tree.nodes])
      have hax' : a ∉ x.vars := fun hu =>
        (Tree.mem_vars_of_closed hA.appR.closed hu).elim haΓ hax
      have hZ' : Exits G.wire (crossing a v swapped) (G.wire ⟨a, 2⟩) Z := by
        cases hZ with
        | out hc => exact absurd rfl (crossing_eq_none.mp hc).2
        | thru hc hZ =>
          simp only [crossing, Ne.symm hab, if_false, if_true, swapped, Option.some.injEq] at hc
          exact hc ▸ hZ
      rw [Tree.red, if_pos rfl]
      refine hM.outside h hZ' haM hvf.2 hbM fun _ z hz => ?_
      have hN := hx.outside (N := x) h hz hax hvx hbx fun hu => absurd hu hax'
      rwa [Tree.red_of_avoids hax' hvx] at hN
    · obtain ⟨hbf, haf⟩ := Tree.HasRedex.mem hr
      have hva : v ≠ a := fun he => hvf (he ▸ haf)
      have hvb : v ≠ b := fun he => hvf (he ▸ hbf)
      have haΓ : a ∉ Γ := hA.appL.apart a haf
      rw [exits_some_iff (crossing_eq_none.mpr ⟨hva, hvb⟩)] at hZ
      obtain ⟨hlive, hrf⟩ := h.exit (p := ⟨v, 0⟩) hl hva hvb fun z hz =>
        ihf hr hf hA.appL hb hz
      obtain ⟨-, hrx⟩ := h.exit (p := ⟨v, 2⟩) hl hva hvb fun z hz =>
        hx.outside (N := N) h hz (hdis a haf) (hdis b hbf)
          (fun hu => (Tree.mem_vars_of_closed hA.appR.closed hu).elim hb (hdis b hbf))
          fun hu => ((Tree.mem_vars_of_closed hA.appR.closed hu).elim haΓ (hdis a haf)).elim
      rw [Tree.red, if_neg hvb]
      exact ⟨hZ, hlive, (h.tag v hlive).trans ht, hrf, hrx⟩
    · obtain ⟨hbx, hax⟩ := Tree.HasRedex.mem hr
      have hva : v ≠ a := fun he => hvx (he ▸ hax)
      have hvb : v ≠ b := fun he => hvx (he ▸ hbx)
      have haΓ : a ∉ Γ := hA.appR.apart a hax
      have haf : a ∉ f.nodes := fun hu => hdis a hu hax
      have hbf : b ∉ f.nodes := fun hu => hdis b hu hbx
      rw [exits_some_iff (crossing_eq_none.mpr ⟨hva, hvb⟩)] at hZ
      obtain ⟨hlive, hrf⟩ := h.exit (p := ⟨v, 0⟩) hl hva hvb fun z hz =>
        hf.outside (N := N) h hz haf hbf
          (fun hu => (Tree.mem_vars_of_closed hA.appL.closed hu).elim hb hbf)
          fun hu => ((Tree.mem_vars_of_closed hA.appL.closed hu).elim haΓ haf).elim
      obtain ⟨-, hrx⟩ := h.exit (p := ⟨v, 2⟩) hl hva hvb fun z hz =>
        ihx hr hx hA.appR hb hz
      rw [Tree.red, if_neg hvb]
      exact ⟨hZ, hlive, (h.tag v hlive).trans ht, hrf, hrx⟩

/-- An application of the tree whose function port leads to a function is a redex. -/
lemma Reads.hasRedex (hwire : G.wire ⟨b, 0⟩ = some ⟨a, 0⟩) (hb : G.tag b = .app)
    (hT : Reads G X T) (hbT : b ∈ T.nodes) : ∃ M N, Tree.HasRedex a b M N T := by
  induction T generalizing X with
  | var v => simp [Tree.nodes] at hbT
  | lam v s ih =>
    obtain ⟨rfl, hl, ht, hs⟩ := hT
    rcases List.mem_cons.mp hbT with rfl | hbT
    · rw [hb] at ht
      cases ht
    · exact ih hs hbT
  | app v f x ihf ihx =>
    obtain ⟨rfl, hl, ht, hf, hx⟩ := hT
    simp only [Tree.nodes, List.mem_cons, List.mem_append] at hbT
    rcases hbT with rfl | hbT | hbT
    · rw [hwire] at hf
      cases f with
      | var u => simp [Reads] at hf
      | app u f' x' => simp [Reads] at hf
      | lam u s =>
        obtain ⟨hu, -⟩ := hf
        simp only [Option.some.injEq, Port.mk.injEq, and_true] at hu
        subst hu
        exact ⟨s, x, Or.inl ⟨rfl, rfl, rfl⟩⟩
    · obtain ⟨M, N, hr⟩ := ihf hf hbT
      exact ⟨M, N, Or.inr (Or.inl hr)⟩
    · obtain ⟨M, N, hr⟩ := ihx hx hbT
      exact ⟨M, N, Or.inr (Or.inr hr)⟩

/-- The function of a redex is not reached in a tree that does not hold its application. -/
lemma Reads.function_garbage (hw : G.Wired) (hf : G.Facing a b) (ha : G.tag a = .lam)
    (hT : Reads G X T) (hX : X ≠ some ⟨a, 0⟩) (hb : b ∉ T.nodes) : a ∉ T.nodes := by
  -- only port 0 of `b` leads to port 0 of `a`
  have hback : ∀ p : Port, G.live p.node → p ≠ ⟨b, 0⟩ → G.wire p ≠ some ⟨a, 0⟩ := by
    intro p hl hp he
    have hpa := (hw p _ hl he).2.1
    rw [hf.wireL] at hpa
    exact hp (Option.some.inj hpa).symm
  induction T generalizing X with
  | var v => simp [Tree.nodes]
  | lam v s ih =>
    obtain ⟨rfl, hl, ht, hs⟩ := hT
    simp only [Tree.nodes, List.mem_cons, not_or] at hb ⊢
    refine ⟨fun he => hX (by rw [he]), ih hs (hback ⟨v, 2⟩ hl ?_) hb.2⟩
    simp
  | app v f x ihf ihx =>
    obtain ⟨rfl, hl, ht, hrf, hrx⟩ := hT
    simp only [Tree.nodes, List.mem_cons, List.mem_append, not_or] at hb ⊢
    refine ⟨?_, ihf hrf (hback ⟨v, 0⟩ hl ?_) hb.2.1, ihx hrx (hback ⟨v, 2⟩ hl ?_) hb.2.2⟩
    · rintro rfl
      rw [ha] at ht
      cases ht
    · simpa using Ne.symm hb.1
    · simp

/-- A port reads as one tree whose variables are bound: the agent at the end of the
wire tells an application from a variable. -/
lemma Reads.unique {Γ : List ℕ} {S' : Tree} (h : Reads G X S) (h' : Reads G X S')
    (hc : S.ClosedIn Γ) (hc' : S'.ClosedIn Γ) (hΓ : ∀ v ∈ Γ, G.tag v = .lam) : S = S' := by
  induction S generalizing X S' Γ with
  | var v =>
    cases S' with
    | var w => simpa using h.symm.trans h'
    | lam w s => simpa using h.symm.trans h'.1
    | app w f x =>
      obtain rfl : v = w := by simpa using h.symm.trans h'.1
      have := (hΓ v hc).symm.trans h'.2.2.1
      cases this
  | lam v s ih =>
    cases S' with
    | var w => simpa using h.1.symm.trans h'
    | lam w s' =>
      obtain rfl : v = w := by simpa using h.1.symm.trans h'.1
      rw [ih h.2.2.2 h'.2.2.2 hc hc' fun u hu => ?_]
      rcases List.mem_cons.mp hu with rfl | hu
      · exact h.2.2.1
      · exact hΓ u hu
    | app w f x => simpa using h.1.symm.trans h'.1
  | app v f x ihf ihx =>
    cases S' with
    | var w =>
      obtain rfl : v = w := by simpa using h.1.symm.trans h'
      have := (hΓ v hc').symm.trans h.2.2.1
      cases this
    | lam w s => simpa using h.1.symm.trans h'.1
    | app w f' x' =>
      obtain rfl : v = w := by simpa using h.1.symm.trans h'.1
      rw [ihf h.2.2.2.1 h'.2.2.2.1 hc.1 hc'.1 hΓ, ihx h.2.2.2.2 h'.2.2.2.2 hc.2 hc'.2 hΓ]

theorem ReadsRoot.unique {T' : Tree} (hT : ReadsRoot G T) (hT' : ReadsRoot G T') : T = T' :=
  hT.reads.unique hT'.reads hT.affine.closed hT'.affine.closed (by simp)

/-- One application of a function contracts a redex of the tree, or happens outside it. -/
theorem ReadsRoot.step (hw : G.Wired) (hf : G.Facing a b) (ha : G.tag a = .lam)
    (hb : G.tag b = .app) (h : Annihilates swapped a b G G') (hT : ReadsRoot G T) :
    ∃ T', ReadsRoot G' T' ∧ (T' = T ∨ ∀ κ : Type, Tm.Beta (T.toTm [] : Tm κ) (T'.toTm [])) := by
  obtain ⟨hl, ht, hr, hA⟩ := hT
  have h0a : (0 : ℕ) ≠ a := by
    rintro rfl
    rw [ht] at ha
    cases ha
  have h0b : (0 : ℕ) ≠ b := by
    rintro rfl
    rw [ht] at hb
    cases hb
  by_cases hbT : b ∈ T.nodes
  · obtain ⟨M, N, hred⟩ := hr.hasRedex hf.wireR hb hbT
    have hc := hA.contract hred
    obtain ⟨hlive, hreads⟩ := h.exit (p := ⟨0, 0⟩) hl h0a h0b fun z hz =>
      hr.redex h hf.ne hred hA (by simp) hz
    exact ⟨_, ⟨hlive, (h.tag 0 hlive).trans ht, hreads, hc.affine hA⟩, Or.inr hc.beta⟩
  · have haT : a ∉ T.nodes := by
      refine hr.function_garbage hw hf ha (fun he => ?_) hbT
      have hback := (hw ⟨0, 0⟩ _ hl he).2.1
      rw [hf.wireL, Option.some.injEq, Port.mk.injEq] at hback
      exact h0b hback.1.symm
    have havoid : ∀ u, u ∉ T.nodes → u ∉ T.vars := fun u hu hv =>
      (Tree.mem_vars_of_closed hA.closed hv).elim (by simp) hu
    obtain ⟨hlive, hreads⟩ := h.exit (p := ⟨0, 0⟩) (S := Tree.red a b T T) hl h0a h0b fun z hz =>
      hr.outside h hz haT hbT (havoid b hbT) fun hu => absurd hu (havoid a haT)
    rw [Tree.red_of_avoids (havoid a haT) hbT] at hreads
    exact ⟨T, ⟨hlive, (h.tag 0 hlive).trans ht, hreads, hA⟩, Or.inl rfl⟩

/-- In a graph without function-application pairs the tree is normal. -/
theorem ReadsRoot.normal {κ : Type} (hw : G.Wired) (hT : ReadsRoot G T)
    (hhalt : ∀ u v, G.Facing u v → G.tag u = .lam → G.tag v ≠ .app) :
    (T.toTm [] : Tm κ).normal = true := by
  by_contra hn
  obtain ⟨a, b, M, N, hr⟩ := Tree.exists_redex_of_not_normal [] (Bool.not_eq_true _ ▸ hn)
  have key : ∀ (S : Tree) (X : Option Port), Reads G X S → Tree.HasRedex a b M N S →
      G.live a ∧ G.live b ∧ G.tag a = .lam ∧ G.tag b = .app ∧ G.wire ⟨b, 0⟩ = some ⟨a, 0⟩ := by
    intro S
    induction S with
    | var v => exact fun X _ hr => hr.elim
    | lam v s ih => exact fun X hS hr => ih _ hS.2.2.2 hr
    | app v f x ihf ihx =>
      rintro X ⟨-, hl, ht, hf, hx⟩ (⟨rfl, rfl, rfl⟩ | hr | hr)
      · exact ⟨hf.2.1, hl, hf.2.2.1, ht, hf.1⟩
      · exact ihf _ hf hr
      · exact ihx _ hx hr
  obtain ⟨hla, hlb, hta, htb, hwire⟩ := key T _ hT.reads hr
  obtain ⟨-, hback, -⟩ := hw ⟨b, 0⟩ _ hlb hwire
  have hne : a ≠ b := by
    rintro rfl
    rw [hta] at htb
    cases htb
  exact hhalt a b ⟨hne, hla, hlb, hback, hwire⟩ hta htb

end Step

end LinEngine
