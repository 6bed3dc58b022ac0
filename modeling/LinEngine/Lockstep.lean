import Mathlib

/-!
# Two programs in step

Two programs over a state keep in step under a relation of their states if from related
states they stop or return in the same way, in related states.
-/
namespace LinEngine

variable {ε σ α β : Type} {R : σ → σ → Prop}

/-- One outcome, and related states. -/
inductive Matched (R : σ → σ → Prop) : EStateM.Result ε σ α → EStateM.Result ε σ α → Prop
  | ok (a : α) {s s' : σ} : R s s' → Matched R (.ok a s) (.ok a s')
  | error (e : ε) {s s' : σ} : R s s' → Matched R (.error e s) (.error e s')

def Lockstep (R : σ → σ → Prop) (m m' : EStateM ε σ α) : Prop := ∀ s s', R s s' → Matched R (m s) (m' s')

namespace Lockstep

variable {m m' : EStateM ε σ α}

lemma pure (a : α) : Lockstep R (pure a : EStateM ε σ α) (pure a) := fun _ _ h => .ok a h

lemma throw (e : ε) : Lockstep R (throw e : EStateM ε σ α) (throw e) := fun _ _ h => .error e h

lemma bind {f f' : α → EStateM ε σ β} (h : Lockstep R m m') (hf : ∀ a, Lockstep R (f a) (f' a)) :
    Lockstep R (m >>= f) (m' >>= f') := by
  intro s s' hs
  change Matched R (EStateM.bind m f s) (EStateM.bind m' f' s')
  have hmatched := h s s' hs
  unfold EStateM.bind
  generalize m s = r at hmatched ⊢
  generalize m' s' = r' at hmatched ⊢
  cases hmatched with
  | ok a hs' => exact hf a _ _ hs'
  | error e hs' => exact .error e hs'

/-- What follows may read the state. -/
lemma get {f f' : σ → EStateM ε σ α} (h : ∀ s s', R s s' → Lockstep R (f s) (f' s')) :
    Lockstep R (get >>= f) (get >>= f') := fun s s' hs => h s s' hs s s' hs

lemma modify {g g' : σ → σ} (h : ∀ s s', R s s' → R (g s) (g' s')) :
    Lockstep R (modify g : EStateM ε σ PUnit) (modify g') := fun s s' hs => .ok _ (h s s' hs)

lemma tryCatch {f f' : ε → EStateM ε σ α} (h : Lockstep R m m') (hf : ∀ e, Lockstep R (f e) (f' e)) :
    Lockstep R (tryCatch m f) (tryCatch m' f') := by
  intro s s' hs
  change Matched R (EStateM.tryCatch m f s) (EStateM.tryCatch m' f' s')
  have hmatched := h s s' hs
  unfold EStateM.tryCatch
  generalize m s = r at hmatched ⊢
  generalize m' s' = r' at hmatched ⊢
  cases hmatched with
  | ok a hs' => exact .ok a hs'
  | error e hs' => exact hf e _ _ hs'

/-- Where both programs return they have returned the same, in related states. -/
lemma ok {s s' z z' : σ} {a a' : α} (h : Lockstep R m m') (hs : R s s') (hm : m s = .ok a z) (hm' : m' s' = .ok a' z') :
    a' = a ∧ R z z' := by
  have hmatched := h s s' hs
  rw [hm, hm'] at hmatched
  cases hmatched with
  | ok _ hz => exact ⟨rfl, hz⟩

end Lockstep

end LinEngine
