import LinEngine.Conversion
import LinEngine.Meaning
import LinEngine.EGraph

/-!
# The meaning of optimized terms

A term of the optimizer stands for a lambda term once its free names have values and it
is known which names are in scope. Two terms are the same when they are convertible in
every scope and for all values of the names. How the meaning depends on the names is
what its rewrites and its extraction rest on.
-/
namespace LinEngine

open Lambda Lambda.Tm

/-- How terms are read: the leaves as constants, and each let as recursive, or as the compiler scopes
it, recursive exactly when its name is not in scope yet. -/
structure Reading where
  byScope : Bool
  leaf : EgOpaque → String → Atom

namespace ETerm

def under (r : Reading) (scope : Finset String) (ρ : Env) : ETerm → Tm Atom
  | .var x => ρ x
  | .lam x b => .lam (under r (insert x scope) (ρ.lift x) b)
  | .app f a => .app (under r scope ρ f) (under r scope ρ a)
  | .tlet x v b =>
    .app (.lam (under r (insert x scope) (ρ.lift x) b))
      (if r.byScope = true ∧ x ∈ scope then under r scope ρ v
        else .app fix (.lam (under r (insert x scope) (ρ.lift x) v)))
  | .leaf k x => .const (r.leaf k x)

variable {r : Reading} {η : Bool} {scope scope' : Finset String} {ρ ρ' : Env} {x : String} {t t' u : ETerm}

lemma under_subst (t : ETerm) (scope : Finset String) (ρ : Env) (σ : ℕ → Tm Atom) :
    (t.under r scope ρ).subst σ = t.under r scope fun x => (ρ x).subst σ := by
  induction t generalizing scope ρ σ with
  | var x => rfl
  | lam x b ih => simp only [under, Tm.subst, ih, Env.lift_subst]
  | app f a ihf iha => simp only [under, Tm.subst, ihf, iha]
  | tlet x v b ihv ihb =>
    simp only [under, Tm.subst, ihb, Env.lift_subst]
    split_ifs
    · rw [ihv]
    · simp only [Tm.subst, fix_subst, ihv, Env.lift_subst]
  | leaf k x => rfl

lemma under_weaken (t : ETerm) (scope : Finset String) (ρ : Env) :
    (t.under r scope ρ).rename (· + 1) = t.under r scope fun x => (ρ x).rename (· + 1) := by
  simp only [rename_eq_subst, under_subst]

/-- Applied to a value, a function is its body where the name has that value. -/
lemma under_lam_app (x : String) (b : ETerm) (a : Tm Atom) :
    Conv η (.app ((ETerm.lam x b).under r scope ρ) a) (b.under r (insert x scope) (ρ.set x a)) := by
  have hbeta : Conv η _ _ := .beta (b.under r (insert x scope) (ρ.lift x)) a
  rwa [under_subst, Env.lift_inst] at hbeta

lemma lift_conv (h : ∀ y, Conv η (ρ y) (ρ' y)) (x y : String) : Conv η (ρ.lift x y) (ρ'.lift x y) := by
  unfold Env.lift
  split_ifs
  · exact .refl _
  · exact (h y).rename _

/-- Convertible values give convertible meanings. -/
theorem under_conv (t : ETerm) (scope : Finset String) (h : ∀ y, Conv η (ρ y) (ρ' y)) :
    Conv η (t.under r scope ρ) (t.under r scope ρ') := by
  induction t generalizing scope ρ ρ' with
  | var x => exact h x
  | lam x b ih => exact .lam (ih _ (lift_conv h x))
  | app f a ihf iha => exact .app (ihf _ h) (iha _ h)
  | tlet x v b ihv ihb =>
    refine .app (.lam (ihb _ (lift_conv h x))) ?_
    split_ifs
    · exact ihv _ h
    · exact .app (.refl _) (.lam (ihv _ (lift_conv h x)))
  | leaf k x => exact .refl _

/-! ### Names a term does not use -/

/-- No variable `x` is free, and no let is met in looking for it. -/
def Avoids (x : String) : ETerm → Prop
  | .var y => y ≠ x
  | .lam y b => y = x ∨ Avoids x b
  | .app f a => Avoids x f ∧ Avoids x a
  | .tlet _ _ _ => False
  | .leaf _ _ => True

lemma under_avoids (h : t.Avoids x) (hρ : ∀ y, y ≠ x → ρ y = ρ' y) :
    t.under r (insert x scope) ρ = t.under r scope ρ' := by
  induction t generalizing scope ρ ρ' with
  | var y => exact hρ y h
  | lam y b ih =>
    by_cases hyx : y = x
    · subst hyx
      have hlift : ρ.lift y = ρ'.lift y := by
        funext z
        unfold Env.lift
        split_ifs with hz
        · rfl
        · rw [hρ z hz]
      simp only [under, Finset.insert_idem, hlift]
    · have hlift : ∀ z, z ≠ x → ρ.lift y z = ρ'.lift y z := by
        intro z hz
        simp only [Env.lift, hρ z hz]
      rw [under, under, Finset.insert_comm, ih (h.resolve_left hyx) hlift]
  | app f a ihf iha => rw [under, under, ihf h.1 hρ, iha h.2 hρ]
  | tlet y v b => exact h.elim
  | leaf k y => rfl

/-- Under a binder of a name it does not use, a term means what it meant before. -/
theorem under_lift (h : t.Avoids x) : t.under r (insert x scope) (ρ.lift x) = (t.under r scope ρ).rename (· + 1) := by
  rw [under_weaken]
  exact under_avoids h fun y hy => if_neg hy

/-- All variables are bound; a let is read as recursive. -/
def Inside (r : Reading) (b : List String) : ETerm → Prop
  | .var x => x ∈ b
  | .lam x t => Inside r (x :: b) t
  | .app f a => Inside r b f ∧ Inside r b a
  | .tlet x v t => r.byScope = false ∧ Inside r (x :: b) v ∧ Inside r (x :: b) t
  | .leaf _ _ => True

lemma lift_eq {b : List String} (h : ∀ y ∈ b, ρ y = ρ' y) (x : String) : ∀ y ∈ x :: b, ρ.lift x y = ρ'.lift x y := by
  intro y hy
  unfold Env.lift
  split_ifs with hyx
  · rfl
  · rw [h y ((List.mem_cons.mp hy).resolve_left hyx)]

theorem under_inside {b : List String} (h : t.Inside r b) (hρ : ∀ y ∈ b, ρ y = ρ' y) :
    t.under r scope ρ = t.under r scope' ρ' := by
  induction t generalizing b scope scope' ρ ρ' with
  | var x => exact hρ x h
  | lam x t ih => rw [under, under, ih h (lift_eq hρ x)]
  | app f a ihf iha => rw [under, under, ihf h.1 hρ, iha h.2 hρ]
  | tlet x v t ihv iht =>
    obtain ⟨hby, hv, ht⟩ := h
    simp only [under, hby, Bool.false_eq_true, false_and, if_false]
    rw [ihv hv (lift_eq hρ x), iht ht (lift_eq hρ x)]
  | leaf k x => rfl

/-! ### The same meaning -/

/-- Convertible in every scope and for all values of the names. -/
def Same (r : Reading) (η : Bool) (t t' : ETerm) : Prop :=
  ∀ scope ρ, Conv η (t.under r scope ρ) (t'.under r scope ρ)

namespace Same

variable {f f' a a' b b' v v' : ETerm}

lemma refl (t : ETerm) : Same r η t t := fun _ _ => .refl _

lemma symm (h : Same r η t t') : Same r η t' t := fun scope ρ => (h scope ρ).symm

lemma trans (h : Same r η t t') (h' : Same r η t' u) : Same r η t u := fun scope ρ => (h scope ρ).trans (h' scope ρ)

lemma lam (x : String) (h : Same r η b b') : Same r η (.lam x b) (.lam x b') := fun _ _ => .lam (h _ _)

lemma app (hf : Same r η f f') (ha : Same r η a a') : Same r η (.app f a) (.app f' a') := fun _ _ =>
  .app (hf _ _) (ha _ _)

lemma tlet (x : String) (hv : Same r η v v') (hb : Same r η b b') : Same r η (.tlet x v b) (.tlet x v' b') := by
  intro scope ρ
  refine .app (.lam (hb _ _)) ?_
  split_ifs
  · exact hv _ _
  · exact .app (.refl _) (.lam (hv _ _))

/-- A function that only passes its variable on. -/
theorem eta (hη : η = true) (h : t.Avoids x) : Same r η (.lam x (.app t (.var x))) t := by
  intro scope ρ
  simp only [under, under_lift h, Env.lift, if_true]
  exact .eta hη _

/-- Without eta, terms that are the same have the same normal form. -/
theorem hasNormalForm (h : Same r false t t') {n : Tm Atom} :
    HasNormalForm (t.under r scope ρ) n ↔ HasNormalForm (t'.under r scope ρ) n :=
  ⟨(h scope ρ).hasNormalForm, (h scope ρ).symm.hasNormalForm⟩

end Same

/-! ### Substitution -/

/-- `u` means what `t` means where `x` has the value of `a`. -/
def Replaces (r : Reading) (η : Bool) (x : String) (a t u : ETerm) : Prop :=
  ∀ scope ρ, Conv η (u.under r scope ρ) (t.under r (insert x scope) (ρ.set x (a.under r scope ρ)))

namespace Replaces

variable {a a' b b' f f' u' : ETerm} {y : String}

lemma congr (h : Replaces r η x a t u) (ht : Same r η t t') (hu : Same r η u' u) : Replaces r η x a t' u' :=
  fun scope ρ => (hu scope ρ).trans ((h scope ρ).trans (ht _ _))

lemma var_self : Replaces r η x a (.var x) a := by
  intro scope ρ
  rw [under, Env.set, if_pos rfl]
  exact .refl _

lemma var_ne (h : y ≠ x) : Replaces r η x a (.var y) (.var y) := by
  intro scope ρ
  rw [under, under, Env.set, if_neg h]
  exact .refl _

lemma leaf (k : EgOpaque) (y : String) : Replaces r η x a (.leaf k y) (.leaf k y) := fun _ _ => .refl _

/-- The binder hides the variable. -/
lemma lam_self : Replaces r η x a (.lam x b) (.lam x b) := by
  intro scope ρ
  have hlift : (ρ.set x (a.under r scope ρ)).lift x = ρ.lift x := by
    funext z
    unfold Env.lift Env.set
    split_ifs <;> rfl
  rw [under, under, Finset.insert_idem, hlift]
  exact .refl _

/-- The binder captures nothing of the argument. -/
theorem lam (hyx : y ≠ x) (ha : Same r η a a') (hy : a'.Avoids y) (h : Replaces r η x a b b') :
    Replaces r η x a (.lam y b) (.lam y b') := by
  intro scope ρ
  have hweaken : Conv η (a.under r (insert y scope) (ρ.lift y)) ((a.under r scope ρ).rename (· + 1)) := by
    refine (ha _ _).trans ?_
    rw [under_lift hy]
    exact (ha scope ρ).symm.rename _
  have henv : ∀ z, Conv η ((ρ.lift y).set x (a.under r (insert y scope) (ρ.lift y)) z)
      ((ρ.set x (a.under r scope ρ)).lift y z) := by
    intro z
    rw [Env.set, Env.lift, Env.lift, Env.set]
    by_cases hzx : z = x
    · subst hzx
      rw [if_pos rfl, if_pos rfl, if_neg (Ne.symm hyx)]
      exact hweaken
    · rw [if_neg hzx, if_neg hzx]
      exact .refl _
  rw [under, under]
  refine .lam ((h _ _).trans ?_)
  rw [Finset.insert_comm]
  exact under_conv b _ henv

lemma app (hf : Replaces r η x a f f') (hb : Replaces r η x a b b') : Replaces r η x a (.app f b) (.app f' b') :=
  fun _ _ => .app (hf _ _) (hb _ _)

/-- A function applied is its body where the argument replaces the variable. -/
theorem same (h : Replaces r η x a b u) : Same r η (.app (.lam x b) a) u := fun scope ρ =>
  (under_lam_app x b (a.under r scope ρ)).trans (h scope ρ).symm

end Replaces

end ETerm

end LinEngine
