import Mathlib

/-!
# Numerals as bit chains

The functions of `std/num.lin` on chains of booleans, least significant first, and the
chain that the core builds for a literal. `pred` keeps the bits that become zero at the
high end, and stops its borrow at the last bit of the chain.
-/
namespace LinEngine.Numeral

/-- The number of a chain. -/
def chainVal : List Bool → ℕ
  | [] => 0
  | b :: n => b.toNat + 2 * chainVal n

def succ : List Bool → List Bool
  | [] => [true]
  | true :: n => false :: succ n
  | false :: n => true :: n

def pred : List Bool → List Bool
  | [] => []
  | true :: n => false :: n
  | false :: n => if n.isEmpty then false :: n else true :: pred n

def isZero : List Bool → Bool
  | [] => true
  | true :: _ => false
  | false :: n => isZero n

/-! ## Literals -/

/-- From `w` on, the first number of bits that leaves nothing of `k`, with `f` trials. -/
def widthFrom (k : ℕ) : ℕ → ℕ → ℕ
  | 0, w => w
  | f + 1, w => if k >>> w ≠ 0 then widthFrom k f (w + 1) else w

/-- The chain of `alloc_scott`, of at most 62 bits. -/
def allocScott (k : ℕ) : List Bool := (List.range (widthFrom k 61 1)).map k.testBit

/-- `atol` stops at the largest `long`. -/
def literal (k : ℕ) : List Bool := allocScott (min k (2 ^ 63 - 1))

/-! ## Steps -/

inductive Op
  | succ
  | pred
  deriving DecidableEq, Repr

def Op.onChain : Op → List Bool → List Bool
  | .succ => Numeral.succ
  | .pred => Numeral.pred

def Op.onNat : Op → ℕ → ℕ
  | .succ => (· + 1)
  | .pred => (· - 1)

def runChain (ops : List Op) (n : List Bool) : List Bool := ops.foldl (fun n o => o.onChain n) n

def runNat (ops : List Op) (k : ℕ) : ℕ := ops.foldl (fun k o => o.onNat k) k

lemma chainVal_succ (n : List Bool) : chainVal (succ n) = chainVal n + 1 := by
  induction n with
  | nil => rfl
  | cons b n ih =>
    cases b with
    | true =>
      simp only [succ, chainVal, ih, Bool.toNat_true, Bool.toNat_false]
      omega
    | false =>
      simp only [succ, chainVal, Bool.toNat_true, Bool.toNat_false]
      omega

lemma isZero_iff (n : List Bool) : isZero n = true ↔ chainVal n = 0 := by
  induction n with
  | nil => simp [isZero, chainVal]
  | cons b n ih => cases b <;> simp [isZero, chainVal, ih]

/-- The borrow of a zero chain of two bits or more ends in ones. -/
lemma chainVal_pred_pos {n : List Bool} (hn : chainVal n = 0) (hlen : 2 ≤ n.length) : 0 < chainVal (pred n) := by
  match n with
  | true :: _ => simp [chainVal] at hn
  | [false] => simp at hlen
  | false :: b :: n =>
    simp only [pred, List.isEmpty_cons, Bool.false_eq_true, if_false, chainVal, Bool.toNat_true]
    omega

lemma chainVal_pred {n : List Bool} (hn : chainVal n = 0 → n.length ≤ 1) : chainVal (pred n) = chainVal n - 1 := by
  induction n with
  | nil => rfl
  | cons b n ih =>
    cases b with
    | true => simp [pred, chainVal]
    | false =>
      cases n with
      | nil => rfl
      | cons c n =>
        have hpos : chainVal (c :: n) ≠ 0 := by
          intro h
          have := hn (by simp [chainVal] at h ⊢; omega)
          simp at this
        have hrest := ih (fun h => absurd h hpos)
        simp only [pred, List.isEmpty_cons, Bool.false_eq_true, if_false, chainVal.eq_2 true, chainVal.eq_2 false,
          hrest, Bool.toNat_true, Bool.toNat_false]
        omega

/-- `pred` takes one away except from a zero of two bits or more. -/
lemma chainVal_pred_iff (n : List Bool) :
    chainVal (pred n) = chainVal n - 1 ↔ (chainVal n = 0 → n.length ≤ 1) := by
  refine ⟨fun h hn => ?_, chainVal_pred⟩
  by_contra hlen
  have := chainVal_pred_pos hn (by omega)
  omega

/-! ## What a literal denotes -/

lemma chainVal_lt (n : List Bool) : chainVal n < 2 ^ n.length := by
  induction n with
  | nil => simp [chainVal]
  | cons b n ih =>
    have := b.toNat_lt
    rw [chainVal, List.length_cons, Nat.pow_succ]
    omega

lemma chainVal_bits (k w : ℕ) : chainVal ((List.range w).map k.testBit) = k % 2 ^ w := by
  induction w generalizing k with
  | zero => simp [chainVal, Nat.mod_one]
  | succ w ih =>
    have htail : (List.map Nat.succ (List.range w)).map k.testBit = (List.range w).map (k / 2).testBit := by
      simp [Function.comp_def, Nat.testBit_succ]
    rw [List.range_succ_eq_map, List.map_cons, chainVal, htail, ih, Nat.toNat_testBit, Nat.pow_succ, Nat.pow_zero,
      Nat.div_one, Nat.mul_comm (2 ^ w), Nat.mod_mul]

lemma widthFrom_le (k f w : ℕ) : widthFrom k f w ≤ w + f := by
  induction f generalizing w with
  | zero => exact le_rfl
  | succ f ih =>
    unfold widthFrom
    split_ifs
    · have := ih (w + 1)
      omega
    · omega

lemma lt_widthFrom {k f w : ℕ} (hk : k < 2 ^ (w + f)) : k < 2 ^ widthFrom k f w := by
  induction f generalizing w with
  | zero => exact hk
  | succ f ih =>
    unfold widthFrom
    split_ifs with h
    · exact ih (by rwa [Nat.add_assoc, Nat.add_comm 1])
    · rw [not_not, Nat.shiftRight_eq_div_pow, Nat.div_eq_zero_iff] at h
      exact h.resolve_left (by positivity)

/-- A literal of at most 62 bits denotes itself, a longer one does not. -/
lemma chainVal_literal (k : ℕ) : chainVal (literal k) = k ↔ k < 2 ^ 62 := by
  constructor
  · intro h
    have hlt := chainVal_lt (literal k)
    have hlen : (literal k).length ≤ 62 := by
      rw [literal, allocScott, List.length_map, List.length_range]
      exact widthFrom_le _ _ _
    exact h ▸ hlt.trans_le (Nat.pow_le_pow_right (by omega) hlen)
  · intro h
    have hmin : min k (2 ^ 63 - 1) = k := by omega
    rw [literal, hmin, allocScott, chainVal_bits, Nat.mod_eq_of_lt (lt_widthFrom h)]

/-! ## Runs -/

/-- The borrow of the step stops in time. -/
def Op.Borrows (o : Op) (n : List Bool) : Prop := o = .pred → chainVal n = 0 → n.length ≤ 1

lemma chainVal_onChain (o : Op) (n : List Bool) :
    chainVal (o.onChain n) = o.onNat (chainVal n) ↔ o.Borrows n := by
  cases o with
  | succ => simp [Op.onChain, Op.onNat, Op.Borrows, chainVal_succ]
  | pred => simp [Op.onChain, Op.onNat, Op.Borrows, chainVal_pred_iff]

/-- In a run that starts with a number the chains denote what the numbers are as long
as each borrow stops in time. -/
lemma runChain_iff (ops : List Op) {n : List Bool} {k : ℕ} (hk : chainVal n = k) :
    (∀ p, p <+: ops → chainVal (runChain p n) = runNat p k) ↔
      ∀ p o, p ++ [o] <+: ops → o.Borrows (runChain p n) := by
  subst hk
  have hsnoc : ∀ p o, runChain (p ++ [o]) n = o.onChain (runChain p n) := fun p o => by simp [runChain]
  have hsnoc' : ∀ p o k, runNat (p ++ [o]) k = o.onNat (runNat p k) := fun p o k => by simp [runNat]
  constructor
  · intro h p o hp
    have hbefore := h p ((List.prefix_append p [o]).trans hp)
    have hafter := h _ hp
    rw [hsnoc, hsnoc', ← hbefore] at hafter
    exact (chainVal_onChain o _).mp hafter
  · intro h p
    induction p using List.reverseRecOn with
    | nil => exact fun _ => rfl
    | append_singleton p o ih =>
      intro hp
      have hbefore := ih ((List.prefix_append p [o]).trans hp)
      rw [hsnoc, hsnoc', ← hbefore]
      exact (chainVal_onChain o _).mpr (h p o hp)

/-- `succ` and `is_zero` are right on every chain, `pred` on all but the zeros of two
bits or more, and a run of steps on a literal exactly when it fits and meets no such zero. -/
theorem numeral_arithmetic (n : List Bool) (k : ℕ) (ops : List Op) :
    (chainVal (succ n) = chainVal n + 1 ∧ (isZero n = true ↔ chainVal n = 0) ∧
      (chainVal (pred n) = chainVal n - 1 ↔ (chainVal n = 0 → n.length ≤ 1))) ∧
    ((∀ p, p <+: ops → chainVal (runChain p (literal k)) = runNat p k) ↔
      k < 2 ^ 62 ∧ ∀ p o, p ++ [o] <+: ops → o.Borrows (runChain p (literal k))) := by
  refine ⟨⟨chainVal_succ n, isZero_iff n, chainVal_pred_iff n⟩, ?_⟩
  constructor
  · intro h
    have hk := h [] List.nil_prefix
    exact ⟨(chainVal_literal k).mp hk, (runChain_iff ops hk).mp h⟩
  · rintro ⟨hk, h⟩
    exact (runChain_iff ops ((chainVal_literal k).mpr hk)).mpr h

/-- Three steps down from 2 end at 1. -/
theorem pred_borrows : ¬ ∀ (k : ℕ) (ops : List Op), chainVal (runChain ops (literal k)) = runNat ops k :=
  fun h => absurd (h 2 [.pred, .pred, .pred]) (by decide)

end LinEngine.Numeral
