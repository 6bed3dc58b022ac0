import LinEngine.Wp

/-!
# Programs that stop when their fuel is spent

With more fuel a program runs as before or further. So a run that did not spend its
fuel is the run of every larger amount, and a program ends when some amount is enough.
-/
namespace LinEngine

variable {ε σ α β : Type} {spent : ε}

/-- Where the first program does not spend its fuel, the second one does the same. -/
def FuelLe (spent : ε) (m m' : EStateM ε σ α) : Prop := ∀ s, m s = m' s ∨ ∃ s', m s = .error spent s'

namespace FuelLe

lemma refl (m : EStateM ε σ α) : FuelLe spent m m := fun _ => Or.inl rfl

lemma throw (m : EStateM ε σ α) : FuelLe spent (throw spent) m := fun s => Or.inr ⟨s, rfl⟩

lemma trans {m m' m'' : EStateM ε σ α} (h : FuelLe spent m m') (h' : FuelLe spent m' m'') :
    FuelLe spent m m'' := by
  intro s
  rcases h s with h | h
  · rw [h]
    exact h' s
  · exact Or.inr h

lemma bind {m m' : EStateM ε σ α} {f f' : α → EStateM ε σ β} (h : FuelLe spent m m')
    (hf : ∀ a, FuelLe spent (f a) (f' a)) : FuelLe spent (m >>= f) (m' >>= f') := by
  intro s
  change EStateM.bind m f s = EStateM.bind m' f' s ∨ ∃ s', EStateM.bind m f s = _
  simp only [EStateM.bind]
  rcases h s with h | ⟨s', h⟩
  · rw [h]
    cases m' s with
    | ok a s' => exact hf a s'
    | error e s' => exact Or.inl rfl
  · rw [h]
    exact Or.inr ⟨s', rfl⟩

/-- The same first step. -/
lemma next {m : EStateM ε σ α} {f f' : α → EStateM ε σ β} (hf : ∀ a, FuelLe spent (f a) (f' a)) :
    FuelLe spent (m >>= f) (m >>= f') :=
  bind (.refl m) hf

lemma ite {p : Prop} [Decidable p] {m₁ m₂ m₁' m₂' : EStateM ε σ α} (h₁ : FuelLe spent m₁ m₁')
    (h₂ : FuelLe spent m₂ m₂') : FuelLe spent (if p then m₁ else m₂) (if p then m₁' else m₂') := by
  split_ifs
  · exact h₁
  · exact h₂

/-- Whatever a run reaches without spending its fuel the longer run reaches. -/
lemma wp {m m' : EStateM ε σ α} (h : FuelLe spent m m') {Q : α → σ → Prop} {E : ε → σ → Prop} {s : σ}
    (hm : LinEngine.wp m Q E s) (hE : ∀ s', ¬ E spent s') : LinEngine.wp m' Q E s := by
  unfold LinEngine.wp at hm ⊢
  rcases h s with h | ⟨s', h⟩
  · rwa [← h]
  · rw [h] at hm
    exact absurd hm (hE s')

end FuelLe

lemma fuelLe_of_le {m : ℕ → EStateM ε σ α} (h : ∀ d, FuelLe spent (m d) (m (d + 1))) {d d' : ℕ}
    (hd : d ≤ d') : FuelLe spent (m d) (m d') := by
  induction hd with
  | refl => exact .refl _
  | step _ ih => exact ih.trans (h _)

/-- With enough fuel the program ends in the same way for every amount. -/
def Ends (spent : ε) (m : ℕ → EStateM ε σ α) (s : σ) (Q : α → σ → Prop) (E : ε → σ → Prop) : Prop :=
  ∃ r, (∃ d₀, ∀ d, d₀ ≤ d → m d s = r) ∧
    match r with
    | .ok a s' => Q a s'
    | .error e s' => e ≠ spent ∧ E e s'

namespace Ends

variable {m : ℕ → EStateM ε σ α} {Q Q' : α → σ → Prop} {E E' : ε → σ → Prop} {s : σ}

theorem of_wp (h : ∀ d, FuelLe spent (m d) (m (d + 1))) {d : ℕ}
    (hm : LinEngine.wp (m d) Q (fun e s' => e ≠ spent ∧ E e s') s) : Ends spent m s Q E := by
  refine ⟨m d s, ⟨d, fun d' hd => ?_⟩, hm⟩
  rcases fuelLe_of_le h hd s with h | ⟨s', h⟩
  · exact h.symm
  · rw [LinEngine.wp, h] at hm
    exact absurd rfl hm.1

lemma mono (h : Ends spent m s Q E) (hQ : ∀ a s', Q a s' → Q' a s') (hE : ∀ e s', E e s' → E' e s') :
    Ends spent m s Q' E' := by
  obtain ⟨r, hr, hp⟩ := h
  refine ⟨r, hr, ?_⟩
  cases r with
  | ok a s' => exact hQ a s' hp
  | error e s' => exact ⟨hp.1, hE e s' hp.2⟩

theorem bind {f : ℕ → α → EStateM ε σ β} {R : β → σ → Prop} (h : Ends spent m s Q E)
    (hf : ∀ a s', Q a s' → Ends spent (fun d => f d a) s' R E) :
    Ends spent (fun d => m d >>= f d) s R E := by
  obtain ⟨r, ⟨d₀, hd₀⟩, hp⟩ := h
  cases r with
  | ok a s' =>
    obtain ⟨r', ⟨d₁, hd₁⟩, hp'⟩ := hf a s' hp
    refine ⟨r', ⟨max d₀ d₁, fun d hd => ?_⟩, hp'⟩
    change EStateM.bind (m d) (f d) s = r'
    rw [EStateM.bind, hd₀ d (le_of_max_le_left hd)]
    exact hd₁ d (le_of_max_le_right hd)
  | error e s' =>
    refine ⟨.error e s', ⟨d₀, fun d hd => ?_⟩, hp⟩
    change EStateM.bind (m d) (f d) s = _
    rw [EStateM.bind, hd₀ d hd]

/-- A step that needs no fuel. -/
lemma step {m : EStateM ε σ α} {f : ℕ → α → EStateM ε σ β} {R : β → σ → Prop} {a : α} {z : σ}
    (h : m s = .ok a z) (hf : Ends spent (fun d => f d a) z R E) :
    Ends spent (fun d => m >>= f d) s R E := by
  obtain ⟨r, ⟨d₀, hd₀⟩, hp⟩ := hf
  refine ⟨r, ⟨d₀, fun d hd => ?_⟩, hp⟩
  change EStateM.bind m (f d) s = r
  rw [EStateM.bind, h]
  exact hd₀ d hd

lemma pure {a : α} (h : Q a s) : Ends spent (fun _ => (pure a : EStateM ε σ α)) s Q E :=
  ⟨.ok a s, ⟨0, fun _ _ => rfl⟩, h⟩

lemma throw {e : ε} (he : e ≠ spent) (h : E e s) :
    Ends spent (fun _ => (throw e : EStateM ε σ α)) s Q E :=
  ⟨.error e s, ⟨0, fun _ _ => rfl⟩, he, h⟩

/-- What holds of every run that does not spend its fuel holds of the run that ends. -/
lemma and_wp (h : Ends spent m s Q E)
    (h' : ∀ d, LinEngine.wp (m d) Q' (fun e s' => e ≠ spent → E' e s') s) :
    Ends spent m s (fun a s' => Q a s' ∧ Q' a s') fun e s' => E e s' ∧ E' e s' := by
  obtain ⟨r, ⟨d₀, hd₀⟩, hp⟩ := h
  have hq := h' d₀
  rw [LinEngine.wp, hd₀ d₀ le_rfl] at hq
  refine ⟨r, ⟨d₀, hd₀⟩, ?_⟩
  cases r with
  | ok a s' => exact ⟨hp, hq⟩
  | error e s' => exact ⟨hp.1, hp.2, hq hp.1⟩

/-- A handler that needs no fuel. -/
lemma tryCatch {f : ε → EStateM ε σ α} (h : Ends spent m s Q E) (hQ : ∀ a s', Q a s' → Q' a s')
    (hf : ∀ e s', e ≠ spent → E e s' → LinEngine.wp (f e) Q' (fun e s' => e ≠ spent ∧ E' e s') s') :
    Ends spent (fun d => tryCatch (m d) f) s Q' E' := by
  obtain ⟨r, ⟨d₀, hd₀⟩, hp⟩ := h
  refine ⟨EStateM.tryCatch (m d₀) f s, ⟨d₀, fun d hd => ?_⟩, ?_⟩
  · change EStateM.tryCatch (m d) f s = _
    rw [EStateM.tryCatch, EStateM.tryCatch, hd₀ d hd, hd₀ d₀ le_rfl]
  · rw [EStateM.tryCatch, hd₀ d₀ le_rfl]
    cases r with
    | ok a s' => exact hQ a s' hp
    | error e s' => exact hf e s' hp.1 hp.2

/-- A recursive program spends one unit of fuel on the call. -/
lemma succ {m : ℕ → EStateM ε σ α} (h : Ends spent (fun d => m (d + 1)) s Q E) : Ends spent m s Q E := by
  obtain ⟨r, ⟨d₀, hd₀⟩, hp⟩ := h
  refine ⟨r, ⟨d₀ + 1, fun d hd => ?_⟩, hp⟩
  obtain ⟨d, rfl⟩ : ∃ k, d = k + 1 := ⟨d - 1, by omega⟩
  exact hd₀ d (by omega)

end Ends

end LinEngine
