import LinEngine.Arithmetic
import LinEngine.Queue

/-!
# Reading integers

`str_parse_int` of `std/string.lin` over lists of character codes, which are numerals. The
first code is tested, and the recursion takes every later one for a digit.
-/
namespace LinEngine.Numeral

open Queue (isEmpty tail first)

/-- The code of the character `0`. -/
def zeroCode : List Bool := literal 48

def strIsDigit (c : List Bool) : Bool := pgeq c zeroCode && pleq c (literal 57)

def strParseIntHelp (s : List (List Bool)) (n : List Bool) : List Bool :=
  if _ : isEmpty s = true then n
  else strParseIntHelp (tail s) (padd (pmul n (literal 10)) (psub (first s) zeroCode))
termination_by s.length
decreasing_by
  cases s with
  | nil => exact absurd rfl ‹_›
  | cons c s => exact Nat.lt_succ_self s.length

def strParseInt (s : List (List Bool)) : List Bool :=
  if isEmpty s then literal 0
  else if strIsDigit (first s) then strParseIntHelp s (literal 0)
  else literal 0

/-! ## What a string denotes -/

def IsDigit (c : ℕ) : Prop := 48 ≤ c ∧ c ≤ 57

instance : DecidablePred IsDigit := fun c => inferInstanceAs (Decidable (48 ≤ c ∧ c ≤ 57))

/-- The number of a string of digits, the most significant one first. -/
def decimalValue (s : List ℕ) : ℕ := Nat.ofDigits 10 (s.map (· - 48)).reverse

/-- Zero stands for what is no number. -/
def denoted (s : List ℕ) : ℕ := if s ≠ [] ∧ ∀ c ∈ s, IsDigit c then decimalValue s else 0

/-! ## The recursion -/

lemma chainVal_zeroCode : chainVal zeroCode = 48 := (chainVal_literal 48).mpr (by decide)

lemma strIsDigit_iff (c : List Bool) : strIsDigit c = true ↔ IsDigit (chainVal c) := by
  have h57 : chainVal (literal 57) = 57 := (chainVal_literal 57).mpr (by decide)
  simp only [strIsDigit, pgeq, pleq, plt_eq, chainVal_zeroCode, h57, IsDigit, Bool.and_eq_true, Bool.not_eq_true',
    decide_eq_false_iff_not, not_lt]

/-- One more digit. -/
def shift (n c : ℕ) : ℕ := n * 10 + (c - 48)

lemma chainVal_strParseIntHelp (s : List (List Bool)) (n : List Bool) :
    chainVal (strParseIntHelp s n) = (s.map chainVal).foldl shift (chainVal n) := by
  have h10 : chainVal (literal 10) = 10 := (chainVal_literal 10).mpr (by decide)
  induction s generalizing n with
  | nil => rw [strParseIntHelp, dif_pos (show isEmpty _ = true from rfl), List.map_nil, List.foldl_nil]
  | cons c s ih =>
    rw [strParseIntHelp, dif_neg (by simp [isEmpty])]
    change chainVal (strParseIntHelp s (padd (pmul n (literal 10)) (psub c zeroCode))) = _
    rw [ih, chainVal_padd, chainVal_pmul, chainVal_psub, h10, chainVal_zeroCode]
    rfl

lemma chainVal_strParseInt (c : List Bool) (s : List (List Bool)) :
    chainVal (strParseInt (c :: s)) =
      if IsDigit (chainVal c) then ((c :: s).map chainVal).foldl shift 0 else 0 := by
  have hrun := chainVal_strParseIntHelp (c :: s) (literal 0)
  rw [chainVal_zero] at hrun
  rw [← hrun, ← chainVal_zero, ← apply_ite chainVal]
  refine congrArg chainVal ((if_neg (by simp [isEmpty])).trans ?_)
  exact if_congr (strIsDigit_iff c) rfl rfl

lemma foldl_shift (s : List ℕ) (n : ℕ) : s.foldl shift n = n * 10 ^ s.length + decimalValue s := by
  induction s generalizing n with
  | nil => simp [decimalValue]
  | cons c s ih =>
    have hvalue : decimalValue (c :: s) = (c - 48) * 10 ^ s.length + decimalValue s := by
      simp only [decimalValue, List.map_cons, List.reverse_cons, Nat.ofDigits_append, List.length_reverse, List.length_map,
        Nat.ofDigits_singleton]
      ring
    rw [List.foldl_cons, ih, hvalue, shift, List.length_cons, pow_succ]
    ring

/-- Codes up to that of `0` add nothing, any other one adds something. -/
lemma decimalValue_eq_zero (s : List ℕ) : decimalValue s = 0 ↔ ∀ c ∈ s, c ≤ 48 := by
  induction s with
  | nil => simp [decimalValue]
  | cons c s ih =>
    have hstep := foldl_shift (c :: s) 0
    have htail := foldl_shift s (shift 0 c)
    rw [Nat.zero_mul, Nat.zero_add, List.foldl_cons] at hstep
    rw [← hstep, htail, List.forall_mem_cons, ← ih, Nat.add_eq_zero_iff, Nat.mul_eq_zero]
    simp [shift, Nat.sub_eq_zero_iff_le]

/-- The integer of a string is the number it denotes exactly when the string has digits only, or no digit in front, or no
code above that of `0`. -/
theorem strParseInt_denotes (s : List (List Bool)) :
    chainVal (strParseInt s) = denoted (s.map chainVal) ↔
      (∀ c ∈ s.map chainVal, IsDigit c) ∨ (∀ c ∈ (s.map chainVal).head?, ¬ IsDigit c) ∨
        ∀ c ∈ s.map chainVal, c ≤ 48 := by
  cases s with
  | nil => simp [strParseInt, isEmpty, denoted, chainVal_zero]
  | cons c s =>
    rw [chainVal_strParseInt, foldl_shift, Nat.zero_mul, Nat.zero_add, denoted]
    have hne : (c :: s).map chainVal ≠ [] := by simp
    by_cases hall : ∀ k ∈ (c :: s).map chainVal, IsDigit k
    · have hfirst : IsDigit (chainVal c) := hall _ (by simp)
      rw [if_pos hfirst, if_pos ⟨hne, hall⟩]
      exact iff_of_true rfl (Or.inl hall)
    · have hnone : ¬ ((c :: s).map chainVal ≠ [] ∧ ∀ k ∈ (c :: s).map chainVal, IsDigit k) := fun h => hall h.2
      rw [if_neg hnone]
      by_cases hfirst : IsDigit (chainVal c)
      · rw [if_pos hfirst, decimalValue_eq_zero]
        refine ⟨fun hlow => Or.inr (Or.inr hlow), ?_⟩
        rintro (h | h | hlow)
        · exact absurd h hall
        · exact absurd hfirst (h _ rfl)
        · exact hlow
      · rw [if_neg hfirst]
        exact iff_of_true rfl (Or.inr (Or.inl (by simpa using hfirst)))

/-- `1a` reads as 59. -/
theorem strParseInt_absorbs : ¬ ∀ s : List (List Bool), chainVal (strParseInt s) = denoted (s.map chainVal) := by
  intro h
  have h49 : chainVal (literal 49) = 49 := (chainVal_literal 49).mpr (by decide)
  have h97 : chainVal (literal 97) = 97 := (chainVal_literal 97).mpr (by decide)
  have hrun := h [literal 49, literal 97]
  rw [chainVal_strParseInt] at hrun
  simp only [List.map_cons, List.map_nil, h49, h97] at hrun
  exact absurd hrun (by decide)

end LinEngine.Numeral
