import LinEngine.ChurchRosser
import LinEngine.Term

/-!
# The meaning of named terms

A term stands for a lambda term once its free names have values. A let and a
definition keep their shape as constants that bind.
-/
namespace LinEngine

open Lambda Relation

/-- What is not a function, an application or a bound name. -/
inductive Atom
  | name (x : String)
  | num (value : ℕ)
  | float (x : String)
  | ref (x : String)
  | letOp
  | defOp
  deriving DecidableEq, Repr

/-- The values of the names in scope. -/
abbrev Env := String → Tm Atom

namespace Env

/-- Every name is free. -/
def free : Env := fun x => .const (.name x)

def set (ρ : Env) (x : String) (a : Tm Atom) : Env := fun y => if y = x then a else ρ y

/-- Under a binder of `x`. -/
def lift (ρ : Env) (x : String) : Env := fun y => if y = x then .var 0 else (ρ y).rename (· + 1)

/-- The names in turn, a later one before an earlier one. -/
def sets (ρ : Env) : List String → List (Tm Atom) → Env
  | x :: xs, a :: as => sets (ρ.set x a) xs as
  | _, _ => ρ

end Env

namespace Term

def under (ρ : Env) : Term → Tm Atom
  | .var x => ρ x
  | .lam x b => .lam (under (ρ.lift x) b)
  | .app f a => .app (under ρ f) (under ρ a)
  | .tlet x v b =>
    .app (.app (.const .letOp) (.lam (under (ρ.lift x) v))) (.lam (under (ρ.lift x) b))
  | .num n => .const (.num n)
  | .float x => .const (.float x)
  | .ref x => .const (.ref x)
  | .defn x b => .app (.const .defOp) (.lam (under (ρ.lift x) b))

/-- `\x₁...\xₖ.b`. -/
def lams (xs : List String) (b : Term) : Term := xs.foldr .lam b

/-- `f a₁ ... aₖ`. -/
def apps (f : Term) (as : List Term) : Term := as.foldl .app f

end Term

namespace Lambda.Tm

variable {κ : Type}

def apps (f : Tm κ) (as : List (Tm κ)) : Tm κ := as.foldl .app f

lemma reduces_apps {f f' : Tm κ} (as : List (Tm κ)) (h : ReflTransGen Beta f f') :
    ReflTransGen Beta (f.apps as) (f'.apps as) := by
  induction as generalizing f f' with
  | nil => exact h
  | cons a as ih => exact ih (reduces_app h .refl)

end Lambda.Tm

namespace Env

variable {ρ : Env} {x : String} {a : Tm Atom}

lemma lift_subst (σ : ℕ → Tm Atom) :
    (fun y => (ρ.lift x y).subst (Tm.ups σ)) = lift (fun y => (ρ y).subst σ) x := by
  funext y
  unfold lift
  split_ifs
  · rfl
  · rw [Tm.subst_rename, Tm.rename_subst]
    rfl

lemma lift_inst : (fun y => (ρ.lift x y).subst (Tm.inst a)) = ρ.set x a := by
  funext y
  unfold lift set
  split_ifs
  · rfl
  · exact Tm.subst_inst_weaken _ _

lemma sets_notMem {xs : List String} {as : List (Tm Atom)} (h : x ∉ xs) : ρ.sets xs as x = ρ x := by
  induction xs generalizing ρ as with
  | nil => rfl
  | cons y ys ih =>
    rw [List.mem_cons, not_or] at h
    cases as with
    | nil => rfl
    | cons a as =>
      rw [sets, ih h.2]
      exact if_neg h.1

/-- Distinct names get their own values. -/
lemma sets_getElem {xs : List String} {as : List (Tm Atom)} (hxs : xs.Nodup) {i : ℕ} (hi : i < xs.length)
    (hi' : i < as.length) : ρ.sets xs as xs[i] = as[i] := by
  induction xs generalizing ρ as i with
  | nil => exact absurd hi (Nat.not_lt_zero i)
  | cons y ys ih =>
    obtain ⟨hy, hys⟩ := List.nodup_cons.mp hxs
    cases as with
    | nil => exact absurd hi' (Nat.not_lt_zero i)
    | cons a as =>
      cases i with
      | zero =>
        rw [List.getElem_cons_zero, sets, sets_notMem hy]
        exact if_pos rfl
      | succ i => exact ih hys (Nat.lt_of_succ_lt_succ hi) (Nat.lt_of_succ_lt_succ hi')

/-- A name has one of the values, or the one it had. -/
lemma sets_cases (ρ : Env) (xs : List String) (as : List (Tm Atom)) (x : String) :
    ρ.sets xs as x ∈ as ∨ ρ.sets xs as x = ρ x := by
  induction xs generalizing ρ as with
  | nil => exact Or.inr rfl
  | cons y ys ih =>
    cases as with
    | nil => exact Or.inr rfl
    | cons a as =>
      rcases ih (ρ.set y a) as with h | h
      · exact Or.inl (List.mem_cons_of_mem _ h)
      · rw [sets, h, set]
        split_ifs
        · exact Or.inl List.mem_cons_self
        · exact Or.inr rfl

end Env

namespace Term

variable {ρ : Env}

lemma under_subst (t : Term) (ρ : Env) (σ : ℕ → Tm Atom) :
    (t.under ρ).subst σ = t.under fun x => (ρ x).subst σ := by
  induction t generalizing ρ σ with
  | var x => rfl
  | lam x b ih => simp only [under, Tm.subst, ih, Env.lift_subst]
  | app f a ihf iha => simp only [under, Tm.subst, ihf, iha]
  | tlet x v b ihv ihb => simp only [under, Tm.subst, ihv, ihb, Env.lift_subst]
  | defn x b ih => simp only [under, Tm.subst, ih, Env.lift_subst]
  | num n => rfl
  | float x => rfl
  | ref x => rfl

/-- Applied to a value, a function is its body where the name has that value. -/
lemma under_lam_app (x : String) (b : Term) (ρ : Env) (a : Tm Atom) :
    Tm.Beta (.app ((Term.lam x b).under ρ) a) (b.under (ρ.set x a)) := by
  have h := Tm.Beta.beta (b.under (ρ.lift x)) a
  rwa [under_subst, Env.lift_inst] at h

lemma under_lams_apps {xs : List String} {as : List (Tm Atom)} (h : xs.length = as.length) (b : Term)
    (ρ : Env) : ReflTransGen Tm.Beta (((lams xs b).under ρ).apps as) (b.under (ρ.sets xs as)) := by
  induction xs generalizing ρ as with
  | nil =>
    obtain rfl := List.length_eq_zero_iff.mp h.symm
    exact .refl
  | cons x xs ih =>
    cases as with
    | nil => cases h
    | cons a as =>
      have hstep : ReflTransGen Tm.Beta (.app ((lams (x :: xs) b).under ρ) a) ((lams xs b).under (ρ.set x a)) :=
        .single (under_lam_app x (lams xs b) ρ a)
      exact (Tm.reduces_apps as hstep).trans (ih (Nat.succ.inj h) _)

lemma under_apps (f : Term) (as : List Term) (ρ : Env) :
    (apps f as).under ρ = (f.under ρ).apps (as.map (under ρ)) := by
  induction as generalizing f with
  | nil => rfl
  | cons a as ih => exact ih (.app f a)

end Term

end LinEngine
