import Mathlib

/-!
# The lambda calculus

Terms with de Bruijn indices over a type `κ` of constants, parallel renaming and
substitution with their composition laws, beta reduction and its normal forms.
-/
namespace LinEngine.Lambda

open Relation

/-- `r` leads from `a` in exactly `k` steps. -/
inductive InSteps {α : Type*} (r : α → α → Prop) (a : α) : ℕ → α → Prop
  | refl : InSteps r a 0 a
  | tail {k : ℕ} {b c : α} : InSteps r a k b → r b c → InSteps r a (k + 1) c

inductive Tm (κ : Type)
  | var (i : ℕ)
  | const (k : κ)
  | lam (b : Tm κ)
  | app (f a : Tm κ)
  deriving DecidableEq, Repr

theorem InSteps.reflTransGen {α : Type*} {r : α → α → Prop} {a b : α} {k : ℕ}
    (h : InSteps r a k b) : ReflTransGen r a b := by
  induction h with
  | refl => exact .refl
  | tail _ hstep ih => exact ih.tail hstep

namespace Tm

variable {κ : Type}

/-- A renaming under one more binder. -/
def upr (ρ : ℕ → ℕ) : ℕ → ℕ
  | 0 => 0
  | i + 1 => ρ i + 1

def rename (ρ : ℕ → ℕ) : Tm κ → Tm κ
  | var i => var (ρ i)
  | const k => const k
  | lam b => lam (rename (upr ρ) b)
  | app f a => app (rename ρ f) (rename ρ a)

/-- A substitution under one more binder. -/
def ups (σ : ℕ → Tm κ) : ℕ → Tm κ
  | 0 => var 0
  | i + 1 => (σ i).rename (· + 1)

def subst (σ : ℕ → Tm κ) : Tm κ → Tm κ
  | var i => σ i
  | const k => const k
  | lam b => lam (subst (ups σ) b)
  | app f a => app (subst σ f) (subst σ a)

/-- The substitution that replaces index `0` and lowers the others. -/
def inst (a : Tm κ) : ℕ → Tm κ
  | 0 => a
  | i + 1 => var i

@[simp] lemma upr_id : upr id = id := by
  funext i
  cases i <;> rfl

@[simp] lemma rename_id (t : Tm κ) : t.rename id = t := by
  induction t with
  | var i => rfl
  | const k => rfl
  | lam b ih => simp [rename, ih]
  | app f a ihf iha => simp [rename, ihf, iha]

lemma upr_comp (ρ ρ' : ℕ → ℕ) : upr ρ' ∘ upr ρ = upr (ρ' ∘ ρ) := by
  funext i
  cases i <;> rfl

lemma rename_rename (ρ ρ' : ℕ → ℕ) (t : Tm κ) :
    (t.rename ρ).rename ρ' = t.rename (ρ' ∘ ρ) := by
  induction t generalizing ρ ρ' with
  | var i => rfl
  | const k => rfl
  | lam b ih => simp only [rename, ih, upr_comp]
  | app f a ihf iha => simp only [rename, ihf, iha]

lemma ups_upr (ρ : ℕ → ℕ) (σ : ℕ → Tm κ) : ups σ ∘ upr ρ = ups (σ ∘ ρ) := by
  funext i
  cases i <;> rfl

lemma subst_rename (ρ : ℕ → ℕ) (σ : ℕ → Tm κ) (t : Tm κ) :
    (t.rename ρ).subst σ = t.subst (σ ∘ ρ) := by
  induction t generalizing ρ σ with
  | var i => rfl
  | const k => rfl
  | lam b ih => simp only [rename, subst, ih, ups_upr]
  | app f a ihf iha => simp only [rename, subst, ihf, iha]

lemma rename_ups (ρ : ℕ → ℕ) (σ : ℕ → Tm κ) :
    (fun i => (ups σ i).rename (upr ρ)) = ups (fun i => (σ i).rename ρ) := by
  funext i
  cases i with
  | zero => rfl
  | succ i =>
    simp only [ups, rename_rename]
    rfl

lemma rename_subst (ρ : ℕ → ℕ) (σ : ℕ → Tm κ) (t : Tm κ) :
    (t.subst σ).rename ρ = t.subst fun i => (σ i).rename ρ := by
  induction t generalizing ρ σ with
  | var i => rfl
  | const k => rfl
  | lam b ih => simp only [rename, subst, ih, rename_ups]
  | app f a ihf iha => simp only [rename, subst, ihf, iha]

lemma subst_ups (σ σ' : ℕ → Tm κ) :
    (fun i => (ups σ i).subst (ups σ')) = ups fun i => (σ i).subst σ' := by
  funext i
  cases i with
  | zero => rfl
  | succ i =>
    simp only [ups, subst_rename, rename_subst]
    rfl

lemma subst_subst (σ σ' : ℕ → Tm κ) (t : Tm κ) :
    (t.subst σ).subst σ' = t.subst fun i => (σ i).subst σ' := by
  induction t generalizing σ σ' with
  | var i => rfl
  | const k => rfl
  | lam b ih => simp only [subst, ih, subst_ups]
  | app f a ihf iha => simp only [subst, ihf, iha]

@[simp] lemma ups_var : ups (var : ℕ → Tm κ) = var := by
  funext i
  cases i <;> rfl

@[simp] lemma subst_var (t : Tm κ) : t.subst var = t := by
  induction t with
  | var i => rfl
  | const k => rfl
  | lam b ih => simp [subst, ih]
  | app f a ihf iha => simp [subst, ihf, iha]

/-! ### Under several binders -/

lemma upr_iterate_lt (ρ : ℕ → ℕ) {k i : ℕ} (h : i < k) : upr^[k] ρ i = i := by
  induction k generalizing i with
  | zero => omega
  | succ k ih =>
    rw [Function.iterate_succ_apply']
    cases i with
    | zero => rfl
    | succ i => simp only [upr, ih (Nat.lt_of_succ_lt_succ h)]

lemma upr_iterate_add (ρ : ℕ → ℕ) (k i : ℕ) : upr^[k] ρ (k + i) = k + ρ i := by
  induction k with
  | zero => simp
  | succ k ih =>
    rw [Function.iterate_succ_apply', Nat.add_right_comm]
    simp only [upr, ih]
    omega

lemma ups_iterate_lt (σ : ℕ → Tm κ) {k i : ℕ} (h : i < k) : ups^[k] σ i = var i := by
  induction k generalizing i with
  | zero => omega
  | succ k ih =>
    rw [Function.iterate_succ_apply']
    cases i with
    | zero => rfl
    | succ i => simp only [ups, ih (Nat.lt_of_succ_lt_succ h), rename]

lemma ups_iterate_add (σ : ℕ → Tm κ) (k i : ℕ) :
    ups^[k] σ (k + i) = (σ i).rename (· + k) := by
  induction k with
  | zero => simp [show (fun x : ℕ => x) = id from rfl]
  | succ k ih =>
    rw [Function.iterate_succ_apply', Nat.add_right_comm]
    simp only [ups, ih, rename_rename]
    congr 1

/-! ## Reduction -/

/-- One beta step anywhere in the term. -/
inductive Beta : Tm κ → Tm κ → Prop
  | beta (b a : Tm κ) : Beta (app (lam b) a) (b.subst (inst a))
  | lam {b b' : Tm κ} : Beta b b' → Beta (lam b) (lam b')
  | appL {f f' : Tm κ} (a : Tm κ) : Beta f f' → Beta (app f a) (app f' a)
  | appR (f : Tm κ) {a a' : Tm κ} : Beta a a' → Beta (app f a) (app f a')

/-- No function is applied to an operand. -/
def normal : Tm κ → Bool
  | var _ => true
  | const _ => true
  | lam b => normal b
  | app (lam _) _ => false
  | app f a => normal f && normal a

lemma normal_app {f a : Tm κ} (h : (app f a).normal = true) :
    (∀ b, f ≠ lam b) ∧ f.normal = true ∧ a.normal = true := by
  cases f <;> simp_all [normal]

/-- A normal term has no step. -/
theorem Beta.not_normal {t t' : Tm κ} (h : Beta t t') : t.normal = false := by
  rw [← Bool.not_eq_true]
  induction h with
  | beta b a => simp [normal]
  | lam _ ih => exact ih
  | appL a _ ih => exact fun h => ih (normal_app h).2.1
  | appR f _ ih => exact fun h => ih (normal_app h).2.2

/-- `t` reduces to the normal form `u`. -/
def HasNormalForm (t u : Tm κ) : Prop := ReflTransGen Beta t u ∧ u.normal = true

/-- Contract the leftmost outermost redex. -/
def step : Tm κ → Option (Tm κ)
  | var _ => none
  | const _ => none
  | lam b => (step b).map lam
  | app (lam b) a => some (b.subst (inst a))
  | app f a =>
    match step f with
    | some f' => some (app f' a)
    | none => (step a).map (app f)

theorem step_beta {t t' : Tm κ} (h : step t = some t') : Beta t t' := by
  induction t generalizing t' with
  | var i => simp [step] at h
  | const k => simp [step] at h
  | lam b ih =>
    obtain ⟨b', hb, rfl⟩ := Option.map_eq_some_iff.mp h
    exact .lam (ih hb)
  | app f a ihf iha =>
    by_cases hf : ∃ b, f = lam b
    · obtain ⟨b, rfl⟩ := hf
      simp only [step, Option.some.injEq] at h
      exact h ▸ .beta b a
    · have he : step (app f a) = match step f with
          | some f' => some (app f' a)
          | none => (step a).map (app f) := by
        cases f <;> first | rfl | exact absurd ⟨_, rfl⟩ hf
      rw [he] at h
      cases hs : step f with
      | some f' =>
        simp only [hs, Option.some.injEq] at h
        exact h ▸ .appL a (ihf hs)
      | none =>
        simp only [hs, Option.map_eq_some_iff] at h
        obtain ⟨a', ha, rfl⟩ := h
        exact .appR f (iha ha)

/-- At most `k` leftmost steps. -/
def reduce : ℕ → Tm κ → Tm κ
  | 0, t => t
  | k + 1, t => match step t with
    | some t' => reduce k t'
    | none => t

theorem reduce_steps (k : ℕ) (t : Tm κ) : ReflTransGen Beta t (reduce k t) := by
  induction k generalizing t with
  | zero => exact .refl
  | succ k ih =>
    simp only [reduce]
    cases h : step t with
    | none => exact .refl
    | some t' => exact .head (step_beta h) (ih t')

/-- A reduction that ends normally, by computation. -/
theorem hasNormalForm_of_reduce {k : ℕ} {t u : Tm κ} (h : reduce k t = u)
    (hu : u.normal = true) : HasNormalForm t u :=
  ⟨h ▸ reduce_steps k t, hu⟩

end Tm

end LinEngine.Lambda
