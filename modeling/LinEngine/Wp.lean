import Mathlib

/-!
# Weakest preconditions of programs that stop

A program over a state returns a value or stops, and keeps its state in both cases.
`wp m Q E s` says that from `s` it returns into `Q` or stops into `E`.
-/
namespace LinEngine

variable {ε σ α β : Type}

def wp (m : EStateM ε σ α) (Q : α → σ → Prop) (E : ε → σ → Prop) (s : σ) : Prop :=
  match m s with
  | .ok a s' => Q a s'
  | .error e s' => E e s'

variable {Q Q' : α → σ → Prop} {E E' : ε → σ → Prop} {s : σ}

instance decidableWp {m : EStateM ε σ α} [∀ a s, Decidable (Q a s)] [∀ e s, Decidable (E e s)] :
    Decidable (wp m Q E s) :=
  match h : m s with
  | .ok a s' => decidable_of_iff (Q a s') (by rw [wp, h])
  | .error e s' => decidable_of_iff (E e s') (by rw [wp, h])

theorem wp_mono {m : EStateM ε σ α} (h : wp m Q E s) (hQ : ∀ a s', Q a s' → Q' a s')
    (hE : ∀ e s', E e s' → E' e s') : wp m Q' E' s := by
  unfold wp at h ⊢
  cases hm : m s with
  | ok a s' =>
    rw [hm] at h
    exact hQ a s' h
  | error e s' =>
    rw [hm] at h
    exact hE e s' h

theorem wp_and {m : EStateM ε σ α} (h : wp m Q E s) (h' : wp m Q' E' s) :
    wp m (fun a s' => Q a s' ∧ Q' a s') (fun e s' => E e s' ∧ E' e s') s := by
  unfold wp at h h' ⊢
  cases hm : m s with
  | ok a s' =>
    rw [hm] at h h'
    exact ⟨h, h'⟩
  | error e s' =>
    rw [hm] at h h'
    exact ⟨h, h'⟩

@[simp] theorem wp_pure {a : α} : wp (pure a) Q E s ↔ Q a s := Iff.rfl

@[simp] theorem wp_bind {m : EStateM ε σ α} {f : α → EStateM ε σ β} {Q : β → σ → Prop} :
    wp (m >>= f) Q E s ↔ wp m (fun a => wp (f a) Q E) E s := by
  simp only [wp, bind, EStateM.bind]
  cases m s <;> rfl

@[simp] theorem wp_map {m : EStateM ε σ α} {f : α → β} {Q : β → σ → Prop} :
    wp (f <$> m) Q E s ↔ wp m (fun a => Q (f a)) E s := by
  simp only [wp, Functor.map, EStateM.map]
  cases m s <;> rfl

@[simp] theorem wp_get {Q : σ → σ → Prop} : wp (get : EStateM ε σ σ) Q E s ↔ Q s s := Iff.rfl

@[simp] theorem wp_set {x : σ} {Q : PUnit → σ → Prop} :
    wp (set x : EStateM ε σ PUnit) Q E s ↔ Q () x := Iff.rfl

@[simp] theorem wp_modify {f : σ → σ} {Q : PUnit → σ → Prop} :
    wp (modify f : EStateM ε σ PUnit) Q E s ↔ Q () (f s) := Iff.rfl

@[simp] theorem wp_throw {e : ε} : wp (throw e : EStateM ε σ α) Q E s ↔ E e s := Iff.rfl

@[simp] theorem wp_tryCatch {m : EStateM ε σ α} {f : ε → EStateM ε σ α} :
    wp (tryCatch m f) Q E s ↔ wp m Q (fun e => wp (f e) Q E) s := by
  simp only [wp, tryCatch, tryCatchThe, MonadExceptOf.tryCatch, EStateM.tryCatch]
  cases m s <;> rfl

end LinEngine
