import LinEngine.Term

/-!
# The Hindley-Milner system

Types are variables and arrows, a scheme quantifies some variables of a type, and an
application of a literal function is a let. The second relation has the sets of their
instances in place of schemes: it is monotone in the context and closed under
substitution, and it admits all that the first one does.
-/
namespace LinEngine

inductive Ty
  | var (v : ℕ)
  | arrow (a b : Ty)
  deriving DecidableEq, Repr

namespace Ty

def vars : Ty → Finset ℕ
  | var v => {v}
  | arrow a b => vars a ∪ vars b

def subst (θ : ℕ → Ty) : Ty → Ty
  | var v => θ v
  | arrow a b => arrow (subst θ a) (subst θ b)

lemma subst_congr {θ φ : ℕ → Ty} {t : Ty} (h : ∀ v ∈ t.vars, θ v = φ v) : t.subst θ = t.subst φ := by
  induction t with
  | var v => exact h v (Finset.mem_singleton_self v)
  | arrow a b iha ihb =>
    rw [subst, subst, iha fun v hv => h v (Finset.mem_union_left _ hv),
      ihb fun v hv => h v (Finset.mem_union_right _ hv)]

lemma subst_subst (θ θ' : ℕ → Ty) (t : Ty) :
    (t.subst θ).subst θ' = t.subst fun v => (θ v).subst θ' := by
  induction t with
  | var v => rfl
  | arrow a b iha ihb => rw [subst, subst, subst, iha, ihb]

lemma subst_var (t : Ty) : t.subst var = t := by
  induction t with
  | var v => rfl
  | arrow a b iha ihb => rw [subst, iha, ihb]

/-- How many nodes a type has. -/
def size : Ty → ℕ
  | var _ => 1
  | arrow a b => size a + size b + 1

end Ty

/-- A type with quantified variables. -/
structure Poly where
  q : Finset ℕ
  t : Ty

namespace Poly

def free (σ : Poly) : Finset ℕ := σ.t.vars \ σ.q

/-- A substitution for the quantified variables. -/
def Inst (σ : Poly) (τ : Ty) : Prop := ∃ θ : ℕ → Ty, (∀ v ∉ σ.q, θ v = .var v) ∧ τ = σ.t.subst θ

def mono (τ : Ty) : Poly := ⟨∅, τ⟩

lemma inst_mono {τ τ' : Ty} : (mono τ).Inst τ' ↔ τ' = τ := by
  constructor
  · rintro ⟨θ, hθ, rfl⟩
    rw [Ty.subst_congr fun v _ => hθ v (Finset.notMem_empty v)]
    exact τ.subst_var
  · rintro rfl
    exact ⟨.var, fun _ _ => rfl, τ'.subst_var.symm⟩

/-- A substitution that fixes the free variables takes instances to instances. -/
lemma Inst.subst {σ : Poly} {τ : Ty} (h : σ.Inst τ) {θ : ℕ → Ty} (hθ : ∀ v ∈ σ.free, θ v = .var v) :
    σ.Inst (τ.subst θ) := by
  obtain ⟨φ, hφ, rfl⟩ := h
  refine ⟨fun v => if v ∈ σ.q then (φ v).subst θ else .var v, fun v hv => if_neg hv, ?_⟩
  rw [Ty.subst_subst]
  refine Ty.subst_congr fun v hv => ?_
  by_cases hq : v ∈ σ.q
  · rw [if_pos hq]
  · rw [if_neg hq, hφ v hq]
    exact hθ v (Finset.mem_sdiff.mpr ⟨hv, hq⟩)

end Poly

abbrev Ctx := List (String × Poly)

def Ctx.free (Γ : Ctx) : Finset ℕ := Γ.foldr (fun e s => e.2.free ∪ s) ∅

lemma Ctx.free_of_mem {Γ : Ctx} {e : String × Poly} (he : e ∈ Γ) : e.2.free ⊆ Γ.free := by
  induction Γ with
  | nil => simp at he
  | cons e' Γ ih =>
    rw [Ctx.free, List.foldr_cons]
    rcases List.mem_cons.mp he with rfl | he
    · exact Finset.subset_union_left
    · exact (ih he).trans Finset.subset_union_right

/-- Quantify what is not free in the context. -/
def Ctx.gen (Γ : Ctx) (τ : Ty) : Poly := ⟨τ.vars \ Γ.free, τ⟩

/-- The declarative system. -/
inductive HM : Ctx → Term → Ty → Prop
  | var {Γ : Ctx} {x : String} {σ : Poly} {τ : Ty} : Γ.lookup x = some σ → σ.Inst τ → HM Γ (.var x) τ
  | lam {Γ : Ctx} {x : String} {b : Term} {α β : Ty} :
      HM ((x, .mono α) :: Γ) b β → HM Γ (.lam x b) (.arrow α β)
  | app {Γ : Ctx} {f a : Term} {α β : Ty} : (∀ x b, f ≠ .lam x b) →
      HM Γ f (.arrow α β) → HM Γ a α → HM Γ (.app f a) β
  | letLam {Γ : Ctx} {x : String} {b a : Term} {α β : Ty} :
      HM Γ a α → HM ((x, Γ.gen α) :: Γ) b β → HM Γ (.app (.lam x b) a) β

/-! ## Sets of instances in place of schemes -/

abbrev SetCtx := List (String × Set Ty)

/-- A let-bound name has any types that its value has. -/
inductive Admits : SetCtx → Term → Ty → Prop
  | var {Γ : SetCtx} {x : String} {S : Set Ty} {τ : Ty} :
      Γ.lookup x = some S → τ ∈ S → Admits Γ (.var x) τ
  | lam {Γ : SetCtx} {x : String} {b : Term} {α β : Ty} :
      Admits ((x, {α}) :: Γ) b β → Admits Γ (.lam x b) (.arrow α β)
  | app {Γ : SetCtx} {f a : Term} {α β : Ty} : (∀ x b, f ≠ .lam x b) →
      Admits Γ f (.arrow α β) → Admits Γ a α → Admits Γ (.app f a) β
  | letLam {Γ : SetCtx} {x : String} {b a : Term} {S : Set Ty} {β : Ty} : S.Nonempty →
      (∀ α ∈ S, Admits Γ a α) → Admits ((x, S) :: Γ) b β → Admits Γ (.app (.lam x b) a) β

/-- The same names, with more types each. -/
def SetCtx.Le (Γ Γ' : SetCtx) : Prop := List.Forall₂ (fun e e' => e.1 = e'.1 ∧ e.2 ⊆ e'.2) Γ Γ'

lemma SetCtx.Le.cons {Γ Γ' : SetCtx} (h : Γ.Le Γ') (x : String) {S S' : Set Ty} (hS : S ⊆ S') :
    SetCtx.Le ((x, S) :: Γ) ((x, S') :: Γ') :=
  List.Forall₂.cons ⟨rfl, hS⟩ h

lemma SetCtx.Le.refl (Γ : SetCtx) : Γ.Le Γ := List.forall₂_same.mpr fun _ _ => ⟨rfl, subset_rfl⟩

lemma SetCtx.Le.lookup {Γ Γ' : SetCtx} (h : Γ.Le Γ') {x : String} {S : Set Ty}
    (hx : Γ.lookup x = some S) : ∃ S', Γ'.lookup x = some S' ∧ S ⊆ S' := by
  induction h with
  | nil => simp at hx
  | @cons e e' _ _ he _ ih =>
    obtain ⟨y, T⟩ := e
    obtain ⟨y', T'⟩ := e'
    obtain ⟨rfl, hT⟩ := he
    simp only [List.lookup_cons] at hx ⊢
    cases hxy : x == y with
    | true =>
      rw [hxy] at hx
      obtain rfl := Option.some.inj hx
      exact ⟨T', rfl, hT⟩
    | false =>
      rw [hxy] at hx
      exact ih hx

theorem Admits.mono {Γ Γ' : SetCtx} {t : Term} {τ : Ty} (h : Admits Γ t τ) (hΓ : Γ.Le Γ') :
    Admits Γ' t τ := by
  induction h generalizing Γ' with
  | var hx hτ =>
    obtain ⟨S', hx', hS⟩ := hΓ.lookup hx
    exact .var hx' (hS hτ)
  | lam _ ih => exact .lam (ih (hΓ.cons _ subset_rfl))
  | app hf _ _ ihf iha => exact .app hf (ihf hΓ) (iha hΓ)
  | letLam hS _ _ iha ihb => exact .letLam hS (fun α hα => iha α hα hΓ) (ihb (hΓ.cons _ subset_rfl))

/-- A substitution of the types of a context. -/
def SetCtx.subst (θ : ℕ → Ty) (Γ : SetCtx) : SetCtx := Γ.map fun e => (e.1, Ty.subst θ '' e.2)

lemma SetCtx.lookup_subst {θ : ℕ → Ty} {Γ : SetCtx} {x : String} :
    (Γ.subst θ).lookup x = (Γ.lookup x).map (Ty.subst θ '' ·) := by
  induction Γ with
  | nil => rfl
  | cons e Γ ih =>
    rw [subst, List.map_cons, List.lookup_cons, List.lookup_cons]
    split
    · rfl
    · exact ih

theorem Admits.subst {Γ : SetCtx} {t : Term} {τ : Ty} (h : Admits Γ t τ) (θ : ℕ → Ty) :
    Admits (Γ.subst θ) t (τ.subst θ) := by
  induction h with
  | @var Γ x S τ hx hτ =>
    have hx' : (Γ.subst θ).lookup x = some (Ty.subst θ '' S) := by
      rw [SetCtx.lookup_subst, hx]
      rfl
    exact .var hx' ⟨τ, hτ, rfl⟩
  | lam _ ih =>
    refine .lam (ih.mono (SetCtx.Le.cons (.refl _) _ ?_))
    rw [Set.image_singleton]
  | app hf _ _ ihf iha => exact .app hf ihf iha
  | letLam hS _ _ iha ihb =>
    refine .letLam (hS.image _) ?_ ihb
    rintro _ ⟨α, hα, rfl⟩
    exact iha α hα

/-- The instances of each scheme. -/
def Ctx.sets (Γ : Ctx) : SetCtx := Γ.map fun e => (e.1, {τ | e.2.Inst τ})

lemma Ctx.lookup_sets {Γ : Ctx} {x : String} :
    Γ.sets.lookup x = (Γ.lookup x).map fun σ => {τ | σ.Inst τ} := by
  induction Γ with
  | nil => rfl
  | cons e Γ ih =>
    rw [sets, List.map_cons, List.lookup_cons, List.lookup_cons]
    split
    · rfl
    · exact ih

/-- A substitution that fixes what is free in the context keeps its instances. -/
lemma Ctx.sets_subst_le {Γ : Ctx} {θ : ℕ → Ty} (hθ : ∀ v ∈ Γ.free, θ v = .var v) :
    (Γ.sets.subst θ).Le Γ.sets := by
  rw [SetCtx.Le, SetCtx.subst, sets, List.map_map, List.forall₂_map_left_iff, List.forall₂_map_right_iff]
  refine List.forall₂_same.mpr fun e he => ⟨rfl, ?_⟩
  rintro _ ⟨τ, hτ, rfl⟩
  exact Poly.Inst.subst hτ fun v hv => hθ v (free_of_mem he hv)

theorem HM.admits {Γ : Ctx} {t : Term} {τ : Ty} (h : HM Γ t τ) : Admits Γ.sets t τ := by
  induction h with
  | var hx hτ => exact .var (by rw [Ctx.lookup_sets, hx]; rfl) hτ
  | lam _ ih =>
    exact .lam (ih.mono (SetCtx.Le.cons (.refl _) _ fun τ hτ => Poly.inst_mono.mp hτ))
  | app hf _ _ ihf iha => exact .app hf ihf iha
  | @letLam Γ x b a α β _ _ iha ihb =>
    refine .letLam (S := {τ | (Γ.gen α).Inst τ}) ⟨α, .var, fun _ _ => rfl, α.subst_var.symm⟩ ?_ ihb
    rintro _ ⟨θ, hθ, rfl⟩
    refine (iha.subst θ).mono (Ctx.sets_subst_le fun v hv => hθ v fun hq => ?_)
    exact (Finset.mem_sdiff.mp hq).2 hv

end LinEngine
