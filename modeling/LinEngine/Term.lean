import Mathlib

/-!
# Source terms

The core terms of `lin.h` that expansion, optimisation and compilation see. A
`TDEF` is a name wrapped around a body that `expand` put in its place; one without
a body is kept apart as `ref`. Names are compared as strings throughout the source.
-/
namespace LinEngine

inductive Term
  | var (name : String)
  | lam (name : String) (body : Term)
  | app (f a : Term)
  | tlet (name : String) (val body : Term)
  | num (value : ℕ)
  | float (name : String)
  | ref (name : String)
  | defn (name : String) (body : Term)
  deriving DecidableEq, Repr

/-- `\_fix_x._fix_h (_fix_x _fix_x)`. -/
def fixLam : Term :=
  .lam "_fix_x" (.app (.var "_fix_h") (.app (.var "_fix_x") (.var "_fix_x")))

/-- The fixpoint combinator applied to `\name.body`. -/
def termFix (name : String) (body : Term) : Term :=
  .app (.lam "_fix_h" (.app fixLam fixLam)) (.lam name body)

/-- Does `name` occur in `t` outside the scope of a binder of that name? A let of the
name hides its value as well as its body. -/
def termRefs (name : String) : Term → Bool
  | .var x => x == name
  | .lam x b => x != name && termRefs name b
  | .app f a => termRefs name f || termRefs name a
  | .tlet x v b => x != name && (termRefs name v || termRefs name b)
  | .num _ => false
  | .float _ => false
  | .ref _ => false
  | .defn _ b => termRefs name b

/-- Only variables, functions and applications, all variables bound. -/
def Term.PureIn : List String → Term → Prop
  | Γ, .var x => x ∈ Γ
  | Γ, .lam x b => PureIn (x :: Γ) b
  | Γ, .app f a => PureIn Γ f ∧ PureIn Γ a
  | _, _ => False

instance Term.decidablePureIn : (Γ : List String) → (t : Term) → Decidable (t.PureIn Γ)
  | Γ, .var x => inferInstanceAs (Decidable (x ∈ Γ))
  | Γ, .lam x b => decidablePureIn (x :: Γ) b
  | Γ, .app f a =>
    have := decidablePureIn Γ f
    have := decidablePureIn Γ a
    inferInstanceAs (Decidable (_ ∧ _))
  | _, .tlet _ _ _ => isFalse id
  | _, .num _ => isFalse id
  | _, .float _ => isFalse id
  | _, .ref _ => isFalse id
  | _, .defn _ _ => isFalse id

end LinEngine
