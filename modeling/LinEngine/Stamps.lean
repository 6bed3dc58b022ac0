import Mathlib

/-!
# Marks with the number of a round

A mark is the number of the round that set it, and the marks of the present round count. To
forget all marks it is enough to count one round on. The counter has `w` bits: when it wraps
to zero the marks are cleared and the count begins at one, so no mark of an earlier round
has the number of a later one.
-/
namespace LinEngine.Stamps

variable {ι : Type*} {w now : ℕ} {mark : ι → ℕ}

/-- No mark is of a round to come. -/
structure Past (w : ℕ) (mark : ι → ℕ) (now : ℕ) : Prop where
  lt : now < 2 ^ w
  le : ∀ i, mark i ≤ now

/-- The next round, and the marks in it. -/
def advance (w : ℕ) (mark : ι → ℕ) (now : ℕ) : (ι → ℕ) × ℕ :=
  if (now + 1) % 2 ^ w = 0 then (fun _ => 0, 1) else (mark, (now + 1) % 2 ^ w)

lemma advance_snd_pos : 0 < (advance w mark now).2 := by
  unfold advance
  split_ifs with hwrap
  · exact one_pos
  · exact Nat.pos_of_ne_zero hwrap

/-- No mark counts in the new round. -/
lemma Past.advance_fresh (h : Past w mark now) (i : ι) : (advance w mark now).1 i < (advance w mark now).2 := by
  unfold advance
  split_ifs with hwrap
  · exact one_pos
  · have hne : now + 1 ≠ 2 ^ w := fun he => hwrap (by rw [he, Nat.mod_self])
    have hlt := h.lt
    rw [Nat.mod_eq_of_lt (by omega)]
    exact Nat.lt_succ_of_le (h.le i)

lemma Past.advance (h : Past w mark now) (hw : 0 < w) : Past w (advance w mark now).1 (Stamps.advance w mark now).2 := by
  refine ⟨?_, fun i => (h.advance_fresh i).le⟩
  unfold Stamps.advance
  split_ifs with hwrap
  · exact Nat.one_lt_two_pow hw.ne'
  · exact Nat.mod_lt _ (Nat.two_pow_pos w)

/-- Marks of this round are set and marks are taken away. -/
lemma Past.update {mark' : ι → ℕ} (h : Past w mark now) (h' : ∀ i, mark' i ≤ now) : Past w mark' now := ⟨h.lt, h'⟩

end LinEngine.Stamps
