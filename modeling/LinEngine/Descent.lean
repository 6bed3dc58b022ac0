import LinEngine.Lambda

/-!
# Runs of one length

A relation whose two steps from one state close in one step each, up to an equivalence that
steps respect. One run that comes to an end then bounds every other: whatever was done, what
is left to do is fixed, and so is the end, up to the equivalence.
-/
namespace LinEngine.Descent

open Lambda

variable {α : Type*} {r e : α → α → Prop}

/-- No step leaves the state. -/
def Ends (r : α → α → Prop) (a : α) : Prop := ∀ b, ¬ r a b

/-- Steps respect the equivalence, and two steps from one state lead to equivalent states or close
in one step each. -/
structure Closing (r e : α → α → Prop) : Prop where
  equiv : Equivalence e
  match_step : ∀ {a b a'}, e a b → r a a' → ∃ b', r b b' ∧ e a' b'
  close : ∀ {a b c}, r a b → r a c → e b c ∨ ∃ d d', r b d ∧ r c d' ∧ e d d'

/-! ## Counted runs, first step first -/

lemma InSteps.head {a b c : α} {k : ℕ} (h : r a b) (hrun : InSteps r b k c) : InSteps r a (k + 1) c := by
  induction hrun with
  | refl => exact .tail .refl h
  | tail _ hstep ih => exact .tail ih hstep

lemma InSteps.exists_head {a c : α} {k : ℕ} (hrun : InSteps r a (k + 1) c) : ∃ b, r a b ∧ InSteps r b k c := by
  generalize hj : k + 1 = j at hrun
  induction hrun generalizing k with
  | refl => omega
  | @tail i b c hrun hstep ih =>
    obtain rfl : k = i := by omega
    cases k with
    | zero =>
      cases hrun
      exact ⟨c, hstep, .refl⟩
    | succ k =>
      obtain ⟨d, hd, hrest⟩ := ih rfl
      exact ⟨d, hd, .tail hrest hstep⟩

lemma InSteps.eq_of_zero {a b : α} (h : InSteps r a 0 b) : b = a := by
  cases h
  rfl

namespace Closing

variable (h : Closing r e) {a b c : α} {j k : ℕ}

include h

/-- Equivalent states have matching runs. -/
lemma match_run {a' : α} (he : e a b) (hrun : InSteps r a k a') : ∃ b', InSteps r b k b' ∧ e a' b' := by
  induction hrun with
  | refl => exact ⟨b, .refl, he⟩
  | tail _ hstep ih =>
    obtain ⟨b₁, hrun₁, he₁⟩ := ih
    obtain ⟨b₂, hstep₂, he₂⟩ := h.match_step he₁ hstep
    exact ⟨b₂, .tail hrun₁ hstep₂, he₂⟩

lemma ends (he : e a b) (ha : Ends r a) : Ends r b := by
  intro b' hstep
  obtain ⟨a', hstep', -⟩ := h.match_step (h.equiv.symm he) hstep
  exact ha a' hstep'

/-- One step of any kind takes one off the steps that are left. -/
lemma step (hrun : InSteps r a k c) (hend : Ends r c) (hstep : r a b) :
    ∃ j c', k = j + 1 ∧ InSteps r b j c' ∧ e c c' := by
  induction k generalizing a b c with
  | zero =>
    obtain rfl := InSteps.eq_of_zero hrun
    exact absurd hstep (hend b)
  | succ k ih =>
    obtain ⟨a₁, hfirst, hrest⟩ := InSteps.exists_head hrun
    rcases h.close hfirst hstep with he | ⟨d, d', hd, hd', he⟩
    · obtain ⟨c', hrun', hc⟩ := h.match_run he hrest
      exact ⟨k, c', rfl, hrun', hc⟩
    · obtain ⟨j, c₁, rfl, hrun₁, hc₁⟩ := ih hrest hend hd
      obtain ⟨c₂, hrun₂, hc₂⟩ := h.match_run he hrun₁
      exact ⟨j + 1, c₂, rfl, InSteps.head hd' hrun₂, h.equiv.trans hc₁ hc₂⟩

/-- After `j` steps of any kind the rest of the `k` steps are left. -/
theorem run (hrun : InSteps r a k c) (hend : Ends r c) (hother : InSteps r a j b) :
    ∃ i c', k = j + i ∧ InSteps r b i c' ∧ e c c' := by
  induction hother with
  | refl => exact ⟨k, c, by omega, hrun, h.equiv.refl c⟩
  | tail _ hstep ih =>
    obtain ⟨i, c₁, hk, hrun₁, hc₁⟩ := ih
    obtain ⟨i', c₂, rfl, hrun₂, hc₂⟩ := h.step hrun₁ (h.ends hc₁ hend) hstep
    exact ⟨i', c₂, by omega, hrun₂, h.equiv.trans hc₁ hc₂⟩

/-- Runs that come to an end are of one length and end alike. -/
theorem run_ends (hrun : InSteps r a k c) (hend : Ends r c) (hother : InSteps r a j b) (hend' : Ends r b) :
    k = j ∧ e c b := by
  obtain ⟨i, c', rfl, hrest, hc⟩ := h.run hrun hend hother
  cases i with
  | zero => exact ⟨rfl, InSteps.eq_of_zero hrest ▸ hc⟩
  | succ i =>
    obtain ⟨d, hd, -⟩ := InSteps.exists_head hrest
    exact absurd hd (hend' d)

end Closing

end LinEngine.Descent
