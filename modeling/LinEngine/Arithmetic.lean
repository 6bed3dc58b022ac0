import LinEngine.Numeral

/-!
# Native arithmetic against the pure bodies

The bodies of `std/num.lin` recurse over chains of bits of any length. The scalar table
computes on C longs, and what it returns is written back as a chain of at most 62 bits. A
signed overflow has no result, as in C.
-/
namespace LinEngine.Numeral

/-! ## The pure bodies -/

lemma chainVal_pred_of {n : List Bool} (h : ¬isZero n = true) : chainVal (pred n) + 1 = chainVal n := by
  rw [isZero_iff] at h
  rw [chainVal_pred fun h0 => absurd h0 h]
  omega

lemma chainVal_zero : chainVal (literal 0) = 0 := by decide

lemma chainVal_one : chainVal (literal 1) = 1 := by decide

def padd (n m : List Bool) : List Bool :=
  if _ : isZero n = true then m else succ (padd (pred n) m)
termination_by chainVal n
decreasing_by have := chainVal_pred_of ‹_›; omega

def psub (n m : List Bool) : List Bool :=
  if _ : isZero m = true then n else if isZero n then literal 0 else psub (pred n) (pred m)
termination_by chainVal m
decreasing_by have := chainVal_pred_of (n := m) ‹_›; omega

def pmul (n m : List Bool) : List Bool :=
  if _ : isZero n = true then literal 0 else padd m (pmul (pred n) m)
termination_by chainVal n
decreasing_by have := chainVal_pred_of ‹_›; omega

def peq (n m : List Bool) : Bool :=
  if _ : isZero n = true then isZero m else if isZero m then false else peq (pred n) (pred m)
termination_by chainVal n
decreasing_by have := chainVal_pred_of (n := n) ‹_›; omega

def plt (n m : List Bool) : Bool :=
  if _ : isZero n = true then !isZero m else if isZero m then false else plt (pred n) (pred m)
termination_by chainVal n
decreasing_by have := chainVal_pred_of (n := n) ‹_›; omega

def pgt (n m : List Bool) : Bool := plt m n

def pleq (n m : List Bool) : Bool := !plt m n

def pgeq (n m : List Bool) : Bool := !plt n m

lemma chainVal_padd (n m : List Bool) : chainVal (padd n m) = chainVal n + chainVal m := by
  fun_induction padd n m with
  | case1 n h => rw [(isZero_iff n).mp h, Nat.zero_add]
  | case2 n h ih =>
    rw [chainVal_succ, ih, ← chainVal_pred_of h]
    omega

lemma chainVal_psub (n m : List Bool) : chainVal (psub n m) = chainVal n - chainVal m := by
  fun_induction psub n m with
  | case1 n m h => rw [(isZero_iff m).mp h, Nat.sub_zero]
  | case2 n m _ h => rw [(isZero_iff n).mp h, Nat.zero_sub, chainVal_zero]
  | case3 n m hm hn ih =>
    rw [ih, ← chainVal_pred_of hm, ← chainVal_pred_of hn]
    omega

lemma chainVal_pmul (n m : List Bool) : chainVal (pmul n m) = chainVal n * chainVal m := by
  fun_induction pmul n m with
  | case1 n h => rw [(isZero_iff n).mp h, Nat.zero_mul, chainVal_zero]
  | case2 n h ih => rw [chainVal_padd, ih, ← chainVal_pred_of h, Nat.add_mul, Nat.one_mul, Nat.add_comm]

lemma peq_eq (n m : List Bool) : peq n m = decide (chainVal n = chainVal m) := by
  fun_induction peq n m with
  | case1 n m h =>
    rw [(isZero_iff n).mp h, Bool.eq_iff_iff, isZero_iff, decide_eq_true_iff, eq_comm]
  | case2 n m hn hm =>
    rw [(isZero_iff m).mp hm, ← chainVal_pred_of hn]
    simp
  | case3 n m hn hm ih =>
    rw [ih, ← chainVal_pred_of hn, ← chainVal_pred_of hm]
    simp

lemma plt_eq (n m : List Bool) : plt n m = decide (chainVal n < chainVal m) := by
  fun_induction plt n m with
  | case1 n m h =>
    rw [(isZero_iff n).mp h, Bool.eq_iff_iff, Bool.not_eq_true', ← Bool.not_eq_true, isZero_iff, decide_eq_true_iff,
      Nat.pos_iff_ne_zero]
  | case2 n m hn hm =>
    rw [(isZero_iff m).mp hm]
    simp
  | case3 n m hn hm ih =>
    rw [ih, ← chainVal_pred_of hn, ← chainVal_pred_of hm]
    simp

lemma chainVal_psub_lt {n m : List Bool} (hn : ¬isZero n = true) (hm : ¬isZero m = true) :
    chainVal (psub n m) < chainVal n := by
  have := chainVal_pred_of hn
  have := chainVal_pred_of hm
  rw [chainVal_psub]
  omega

def pdiv (n m : List Bool) : List Bool :=
  if _ : isZero n = true then literal 0
  else if _ : isZero m = true then literal 0
  else if plt n m then literal 0 else succ (pdiv (psub n m) m)
termination_by chainVal n
decreasing_by exact chainVal_psub_lt ‹_› ‹_›

def pmod (n m : List Bool) : List Bool :=
  if _ : isZero n = true then literal 0
  else if _ : isZero m = true then literal 0
  else if plt n m then n else pmod (psub n m) m
termination_by chainVal n
decreasing_by exact chainVal_psub_lt ‹_› ‹_›

def ppow (n m : List Bool) : List Bool :=
  if _ : isZero m = true then literal 1 else pmul n (ppow n (pred m))
termination_by chainVal m
decreasing_by have := chainVal_pred_of ‹_›; omega

lemma chainVal_pdiv (n m : List Bool) : chainVal (pdiv n m) = chainVal n / chainVal m := by
  fun_induction pdiv n m with
  | case1 n h => rw [(isZero_iff n).mp h, Nat.zero_div, chainVal_zero]
  | case2 n _ h => rw [(isZero_iff m).mp h, Nat.div_zero, chainVal_zero]
  | case3 n _ _ h =>
    rw [plt_eq, decide_eq_true_iff] at h
    rw [Nat.div_eq_of_lt h, chainVal_zero]
  | case4 n hn hm h ih =>
    have hpos := chainVal_pred_of hm
    rw [plt_eq, decide_eq_true_iff, not_lt] at h
    rw [chainVal_succ, ih, chainVal_psub, ← Nat.div_eq_sub_div (by omega) h]

lemma chainVal_pmod (n m : List Bool) :
    chainVal (pmod n m) = if chainVal m = 0 then 0 else chainVal n % chainVal m := by
  fun_induction pmod n m with
  | case1 n h => rw [(isZero_iff n).mp h, Nat.zero_mod, chainVal_zero, ite_self]
  | case2 n _ h => rw [(isZero_iff m).mp h, if_pos rfl, chainVal_zero]
  | case3 n _ hm h =>
    have hpos := chainVal_pred_of hm
    rw [plt_eq, decide_eq_true_iff] at h
    rw [if_neg (by omega), Nat.mod_eq_of_lt h]
  | case4 n hn hm h ih =>
    have hpos := chainVal_pred_of hm
    rw [plt_eq, decide_eq_true_iff, not_lt] at h
    rw [ih, chainVal_psub, if_neg (by omega), if_neg (by omega), ← Nat.mod_eq_sub_mod h]

lemma chainVal_ppow (n m : List Bool) : chainVal (ppow n m) = chainVal n ^ chainVal m := by
  fun_induction ppow n m with
  | case1 m h => rw [(isZero_iff m).mp h, Nat.pow_zero, chainVal_one]
  | case2 m h ih => rw [chainVal_pmul, ih, ← chainVal_pred_of h, Nat.pow_succ, Nat.mul_comm]

/-! ## The scalar table -/

/-- The operators, in the order of `LIN_OP_*`. -/
inductive ArithOp
  | add
  | mul
  | sub
  | eq
  | lt
  | leq
  | gt
  | geq
  | div
  | mod
  | pow
  deriving DecidableEq, Repr

/-- A result of the table: `outkind` 1 or 3. -/
inductive Val
  | num (k : ℕ)
  | bool (b : Bool)
  deriving DecidableEq, Repr

/-- The value a body denotes. -/
def ArithOp.body (o : ArithOp) (n m : List Bool) : Val :=
  match o with
  | .add => .num (chainVal (padd n m))
  | .mul => .num (chainVal (pmul n m))
  | .sub => .num (chainVal (psub n m))
  | .eq => .bool (peq n m)
  | .lt => .bool (plt n m)
  | .leq => .bool (pleq n m)
  | .gt => .bool (pgt n m)
  | .geq => .bool (pgeq n m)
  | .div => .num (chainVal (pdiv n m))
  | .mod => .num (chainVal (pmod n m))
  | .pow => .num (chainVal (ppow n m))

/-- The operation on naturals. -/
def ArithOp.onNat (o : ArithOp) (a b : ℕ) : Val :=
  match o with
  | .add => .num (a + b)
  | .mul => .num (a * b)
  | .sub => .num (a - b)
  | .eq => .bool (a = b)
  | .lt => .bool (a < b)
  | .leq => .bool (a ≤ b)
  | .gt => .bool (b < a)
  | .geq => .bool (b ≤ a)
  | .div => .num (a / b)
  | .mod => .num (if b = 0 then 0 else a % b)
  | .pow => .num (a ^ b)

/-- A natural in a C `long`. -/
def long (x : ℕ) : Option ℕ := if x < 2 ^ 63 then some x else none

/-- The loop of `lin_pow`: `r` collects the product, and `b` is squared once a bit of `e`. -/
def powLoop : ℕ → ℕ → ℕ → ℕ → Option ℕ
  | 0, _, _, _ => none
  | f + 1, b, e, r =>
    if e = 0 then some r
    else do
      let r ← if e % 2 = 1 then long (r * b) else some r
      powLoop f (← long (b * b)) (e / 2) r

/-- The integer rows of `lin_arith_scalar`, on two operands that were read as numbers. -/
def linArithScalar (o : ArithOp) (a b : ℕ) : Option Val :=
  match o with
  | .add => (long (a + b)).map .num
  | .sub => some (.num (if b ≤ a then a - b else 0))
  | .mul => (long (a * b)).map .num
  | .div => some (.num (if b ≠ 0 then a / b else 0))
  | .mod => some (.num (if b ≠ 0 then a % b else 0))
  | .pow => (powLoop 64 a b 1).map .num
  | .eq => some (.bool (a = b))
  | .lt => some (.bool (a < b))
  | .leq => some (.bool (a ≤ b))
  | .gt => some (.bool (b < a))
  | .geq => some (.bool (b ≤ a))

/-- The loop of `net_read_bits` on a chain of `k` bits read and the rest: no number without
a bit, and no shift past the sign. -/
def readBitsLoop : ℕ → ℕ → List Bool → Option ℕ
  | k, a, [] => if k = 0 then none else some a
  | k, a, b :: n => if 64 ≤ k ∨ k = 63 ∧ b = true then none else readBitsLoop (k + 1) (a ||| b.toNat <<< k) n

def readBits (n : List Bool) : Option ℕ := readBitsLoop 0 0 n

/-- Write the value with `net_alloc_scott` or `net_alloc_bool`, and read it again. -/
def Val.writeBack (v : Val) : Option Val :=
  match v with
  | .num k => (readBits (allocScott k)).map .num
  | .bool b => some (.bool b)

/-- Read the operands, compute, write back and read. -/
def ArithOp.native (o : ArithOp) (n m : List Bool) : Option Val := do
  let a ← readBits n
  let b ← readBits m
  (← linArithScalar o a b).writeBack

/-! ## Agreement -/

/-- A chain that reads as a nonnegative `long`. -/
def Readable (n : List Bool) : Prop := n ≠ [] ∧ n.length ≤ 64 ∧ chainVal n < 2 ^ 63

/-- The operands are read, a number as the result has at most 62 bits, and the squares of a
power stay in range, the last one included. -/
def ArithOp.Fits (o : ArithOp) (n m : List Bool) : Prop :=
  Readable n ∧ Readable m ∧ (∀ k, o.onNat (chainVal n) (chainVal m) = .num k → k < 2 ^ 62) ∧
    (o = .pow → chainVal n ^ 2 ^ Nat.size (chainVal m) < 2 ^ 63)

/-- The bodies compute the operations. -/
lemma ArithOp.body_eq (o : ArithOp) (n m : List Bool) : o.body n m = o.onNat (chainVal n) (chainVal m) := by
  cases o with
  | add => exact congrArg Val.num (chainVal_padd n m)
  | mul => exact congrArg Val.num (chainVal_pmul n m)
  | sub => exact congrArg Val.num (chainVal_psub n m)
  | eq => exact congrArg Val.bool (peq_eq n m)
  | lt => exact congrArg Val.bool (plt_eq n m)
  | leq =>
    refine congrArg Val.bool ?_
    rw [pleq, plt_eq, Bool.eq_iff_iff]
    simp
  | gt => exact congrArg Val.bool (plt_eq m n)
  | geq =>
    refine congrArg Val.bool ?_
    rw [pgeq, plt_eq, Bool.eq_iff_iff]
    simp
  | div => exact congrArg Val.num (chainVal_pdiv n m)
  | mod => exact congrArg Val.num (chainVal_pmod n m)
  | pow => exact congrArg Val.num (chainVal_ppow n m)

lemma or_shiftLeft {k a : ℕ} (ha : a < 2 ^ k) (b : Bool) : a ||| b.toNat <<< k = a + 2 ^ k * b.toNat := by
  rw [Nat.shiftLeft_eq, Nat.mul_comm, Nat.add_comm, Nat.two_pow_add_eq_or_of_lt ha, Nat.or_comm]

lemma add_bit_lt {k a : ℕ} (ha : a < 2 ^ k) (b : Bool) : a + 2 ^ k * b.toNat < 2 ^ (k + 1) := by
  cases b <;> simp [Nat.pow_succ] <;> omega

lemma readBitsLoop_eq {k a : ℕ} {n : List Bool} {v : ℕ} (ha : a < 2 ^ k) (hk : k ≤ 64) (ha' : a < 2 ^ 63) :
    readBitsLoop k a n = some v ↔
      (k = 0 → n ≠ []) ∧ k + n.length ≤ 64 ∧ a + 2 ^ k * chainVal n < 2 ^ 63 ∧ v = a + 2 ^ k * chainVal n := by
  induction n generalizing k a with
  | nil =>
    rw [readBitsLoop, chainVal, Nat.mul_zero, Nat.add_zero]
    split_ifs with h0
    · simp [h0]
    · rw [Option.some_inj, eq_comm]
      exact ⟨fun h => ⟨fun hk0 => absurd hk0 h0, hk, ha', h⟩, fun h => h.2.2.2⟩
  | cons b n ih =>
    have hval : a + 2 ^ k * chainVal (b :: n) = a + 2 ^ k * b.toNat + 2 ^ (k + 1) * chainVal n := by
      rw [chainVal, Nat.pow_succ]
      ring
    rw [readBitsLoop, or_shiftLeft ha, hval]
    split_ifs with h
    · -- past the last bit of a `long`
      simp only [false_iff]
      rintro ⟨-, hlen, hlt, -⟩
      rw [List.length_cons] at hlen
      rcases h with h | ⟨rfl, rfl⟩
      · omega
      · simp only [Bool.toNat_true] at hlt
        omega
    · rw [not_or, not_and, Bool.not_eq_true] at h
      have hlt : a + 2 ^ k * b.toNat < 2 ^ 63 := by
        by_cases hk63 : k = 63
        · rw [h.2 hk63]
          simpa using ha'
        · exact (add_bit_lt ha b).trans_le (Nat.pow_le_pow_right (by omega) (by omega))
      rw [ih (add_bit_lt ha b) (by omega) hlt, List.length_cons, Nat.add_assoc k 1, Nat.add_comm 1]
      simp

lemma readBits_eq_some {n : List Bool} {v : ℕ} : readBits n = some v ↔ Readable n ∧ v = chainVal n := by
  rw [readBits, readBitsLoop_eq (by norm_num) (by norm_num) (by norm_num), Readable]
  simp [and_assoc]

lemma long_bind {α : Type} {x : ℕ} {g : ℕ → Option α} {v : α} :
    (long x >>= g) = some v ↔ x < 2 ^ 63 ∧ g x = some v := by
  unfold long
  split_ifs with h
  · exact ⟨fun hg => ⟨h, hg⟩, fun hg => hg.2⟩
  · exact ⟨fun hg => absurd hg (by simp), fun hg => absurd hg.1 h⟩

lemma size_half {e : ℕ} (h : e ≠ 0) : Nat.size e = Nat.size (e / 2) + 1 := by
  have hb := Nat.size_bit (b := e.bodd) (n := e.div2) (by rwa [Nat.bit_bodd_div2])
  rwa [Nat.bit_bodd_div2, Nat.div2_val] at hb

lemma le_pow_pos {b k : ℕ} (hk : k ≠ 0) : b ≤ b ^ k := by
  rcases Nat.eq_zero_or_pos b with rfl | hb
  · exact Nat.zero_le _
  · exact Nat.le_self_pow hk b

/-- One turn: the product takes the low bit of the exponent, the square the rest of it. -/
lemma mul_square_pow (r b e : ℕ) : r * b ^ (e % 2) * (b * b) ^ (e / 2) = r * b ^ e := by
  rw [← Nat.pow_two, ← Nat.pow_mul, Nat.mul_assoc, ← Nat.pow_add, Nat.mod_add_div]

lemma powLoop_step {f b e r v : ℕ} (h : e ≠ 0) :
    powLoop (f + 1) b e r = some v ↔
      (e % 2 = 1 → r * b < 2 ^ 63) ∧ b * b < 2 ^ 63 ∧ powLoop f (b * b) (e / 2) (r * b ^ (e % 2)) = some v := by
  rw [powLoop, if_neg h]
  rcases Nat.mod_two_eq_zero_or_one e with hc | hc
  · simp only [hc, Nat.zero_ne_one, if_false, Option.bind_eq_bind, Option.bind_some, pow_zero, mul_one, false_imp_iff,
      true_and]
    exact long_bind
  · simp only [hc, if_true, pow_one, true_imp_iff]
    rw [long_bind, long_bind]

/-- The loop makes the power unless a product or a square leaves the range: the last square
is the largest of them. -/
lemma powLoop_eq {f b e r v : ℕ} (hf : e < 2 ^ f) :
    powLoop (f + 1) b e r = some v ↔
      (e ≠ 0 → b ^ 2 ^ Nat.size e < 2 ^ 63 ∧ r * b ^ e < 2 ^ 63) ∧ v = r * b ^ e := by
  induction f generalizing b e r with
  | zero =>
    obtain rfl : e = 0 := by omega
    simp [powLoop, eq_comm]
  | succ f ih =>
    by_cases he : e = 0
    · simp [powLoop, he, eq_comm]
    have hhalf : e / 2 < 2 ^ f := by omega
    have hsquare : b * b = b ^ 2 ^ 1 := by rw [pow_one, Nat.pow_two]
    have hlast : (b * b) ^ 2 ^ Nat.size (e / 2) = b ^ 2 ^ Nat.size e := by
      rw [hsquare, ← Nat.pow_mul, ← Nat.pow_add, size_half he, Nat.add_comm]
    rw [powLoop_step he, ih hhalf, mul_square_pow, hlast]
    constructor
    · rintro ⟨hprod, hsq, hrest, hv⟩
      refine ⟨fun _ => ?_, hv⟩
      by_cases hone : e / 2 = 0
      · obtain rfl : e = 1 := by omega
        rw [Nat.size_one, ← hsquare, pow_one]
        exact ⟨hsq, hprod rfl⟩
      · exact hrest hone
    · rintro ⟨h, hv⟩
      obtain ⟨hsq, hprod⟩ := h he
      refine ⟨fun _ => ?_, ?_, fun _ => ⟨hsq, hprod⟩, hv⟩
      · exact (Nat.mul_le_mul_left r (le_pow_pos he)).trans_lt hprod
      · rw [← hlast] at hsq
        exact (le_pow_pos (by positivity)).trans_lt hsq

lemma widthFrom_ge (k f w : ℕ) : w ≤ widthFrom k f w := by
  induction f generalizing w with
  | zero => exact le_rfl
  | succ f ih =>
    unfold widthFrom
    split_ifs
    · have := ih (w + 1)
      omega
    · exact le_rfl

lemma length_allocScott (k : ℕ) : 1 ≤ (allocScott k).length ∧ (allocScott k).length ≤ 62 := by
  rw [allocScott, List.length_map, List.length_range]
  exact ⟨widthFrom_ge k 61 1, widthFrom_le k 61 1⟩

/-- What is written back is the number when it has at most 62 bits. -/
lemma readBits_allocScott {k : ℕ} (hk : k < 2 ^ 63) : readBits (allocScott k) = some k ↔ k < 2 ^ 62 := by
  have hmin : literal k = allocScott k := by rw [literal, min_eq_left (by omega)]
  have hlen := length_allocScott k
  rw [readBits_eq_some, ← chainVal_literal k, hmin]
  constructor
  · rintro ⟨-, h⟩
    exact h.symm
  · intro h
    refine ⟨⟨?_, by omega, by rwa [h]⟩, h.symm⟩
    rw [← List.length_pos_iff]
    exact hlen.1

lemma Val.writeBack_eq {v : Val} (h : ∀ k, v = .num k → k < 2 ^ 63) :
    v.writeBack = some v ↔ ∀ k, v = .num k → k < 2 ^ 62 := by
  cases v with
  | bool b => simp [Val.writeBack]
  | num k =>
    rw [Val.writeBack, Option.map_eq_some_iff]
    constructor
    · rintro ⟨w, hw, hwk⟩ j hj
      cases hwk
      cases hj
      exact (readBits_allocScott (h k rfl)).mp hw
    · exact fun hk => ⟨k, (readBits_allocScott (h k rfl)).mpr (hk k rfl), rfl⟩

lemma forall_num {x : ℕ} {p : ℕ → Prop} : (∀ k, Val.num x = .num k → p k) ↔ p x :=
  ⟨fun h => h x rfl, fun h k hk => by cases hk; exact h⟩

lemma long_map {x : ℕ} {v : Val} : (long x).map Val.num = some v ↔ x < 2 ^ 63 ∧ v = .num x := by
  unfold long
  split_ifs with h
  · rw [Option.map_some, Option.some_inj, eq_comm, and_iff_right h]
  · rw [Option.map_none]
    exact ⟨fun hv => absurd hv (by simp), fun hv => absurd hv.1 h⟩

/-- The power, its last square included. -/
lemma powLoop_map {a b : ℕ} {v : Val} (ha : a < 2 ^ 63) (hb : b < 2 ^ 63) :
    (powLoop 64 a b 1).map Val.num = some v ↔ (a ^ b < 2 ^ 63 ∧ a ^ 2 ^ Nat.size b < 2 ^ 63) ∧ v = .num (a ^ b) := by
  rw [Option.map_eq_some_iff]
  simp only [powLoop_eq hb, Nat.one_mul]
  constructor
  · rintro ⟨_, ⟨h, rfl⟩, rfl⟩
    refine ⟨?_, rfl⟩
    by_cases h0 : b = 0
    · subst h0
      rw [Nat.size_zero, pow_zero, pow_zero, pow_one]
      exact ⟨by norm_num, ha⟩
    · exact (h h0).symm
  · rintro ⟨h, rfl⟩
    exact ⟨_, ⟨fun _ => h.symm, rfl⟩, rfl⟩

/-- The table computes the operations on what it can represent. -/
lemma linArithScalar_eq {o : ArithOp} {a b : ℕ} {v : Val} (ha : a < 2 ^ 63) (hb : b < 2 ^ 63) :
    linArithScalar o a b = some v ↔
      ((∀ k, o.onNat a b = .num k → k < 2 ^ 63) ∧ (o = .pow → a ^ 2 ^ Nat.size b < 2 ^ 63)) ∧ v = o.onNat a b := by
  cases o with
  | add => simpa [linArithScalar, ArithOp.onNat] using long_map
  | mul => simpa [linArithScalar, ArithOp.onNat] using long_map
  | sub =>
    have hsat : (if b ≤ a then a - b else 0) = a - b := by split_ifs <;> omega
    have hlt : a - b < 2 ^ 63 := by omega
    simp only [linArithScalar, ArithOp.onNat, hsat, forall_num, hlt, Option.some_inj]
    simp [eq_comm]
  | div =>
    have hzero : (if b ≠ 0 then a / b else 0) = a / b := by
      split_ifs with h
      · rfl
      · rw [not_not.mp h, Nat.div_zero]
    have hlt : a / b < 2 ^ 63 := (Nat.div_le_self a b).trans_lt ha
    simp only [linArithScalar, ArithOp.onNat, hzero, forall_num, hlt, Option.some_inj]
    simp [eq_comm]
  | mod =>
    have hlt : (if b ≠ 0 then a % b else 0) < 2 ^ 63 := by
      split_ifs
      · exact (Nat.mod_le a b).trans_lt ha
      · norm_num
    rw [ite_not] at hlt
    simp only [linArithScalar, ArithOp.onNat, ite_not, forall_num, hlt, Option.some_inj]
    simp [eq_comm]
  | pow => simpa only [linArithScalar, ArithOp.onNat, forall_num, true_imp_iff] using powLoop_map ha hb
  | _ => simp [linArithScalar, ArithOp.onNat, eq_comm]

/-- The table agrees with the bodies on operands that it reads, exactly when the result
has at most 62 bits and no square of a power leaves the range. -/
theorem native_eq_body_iff (o : ArithOp) (n m : List Bool) :
    o.native n m = some (o.body n m) ↔ o.Fits n m := by
  have hnum : ∀ v : Val, (∀ k, v = .num k → k < 2 ^ 62) → ∀ k, v = .num k → k < 2 ^ 63 := fun v h k hk =>
    (h k hk).trans (by norm_num)
  rw [ArithOp.body_eq, ArithOp.native, ArithOp.Fits]
  constructor
  · intro h
    obtain ⟨a, ha, h⟩ := Option.bind_eq_some_iff.mp h
    obtain ⟨b, hb, h⟩ := Option.bind_eq_some_iff.mp h
    obtain ⟨v, hv, h⟩ := Option.bind_eq_some_iff.mp h
    obtain ⟨hn, rfl⟩ := readBits_eq_some.mp ha
    obtain ⟨hm, rfl⟩ := readBits_eq_some.mp hb
    obtain ⟨⟨hlt, hpow⟩, rfl⟩ := (linArithScalar_eq hn.2.2 hm.2.2).mp hv
    exact ⟨hn, hm, (Val.writeBack_eq hlt).mp h, hpow⟩
  · rintro ⟨hn, hm, hlt, hpow⟩
    have hscalar := (linArithScalar_eq (v := o.onNat _ _) hn.2.2 hm.2.2).mpr ⟨⟨hnum _ hlt, hpow⟩, rfl⟩
    have hback := (Val.writeBack_eq (hnum _ hlt)).mpr hlt
    have hreadn := readBits_eq_some.mpr ⟨hn, rfl⟩
    have hreadm := readBits_eq_some.mpr ⟨hm, rfl⟩
    simp [hreadn, hreadm, hscalar, hback]

/-- Twice 2⁶¹ is written with 62 bits, as zero. -/
theorem add_truncated :
    ¬ ∀ (o : ArithOp) (a b : ℕ), o.native (literal a) (literal b) = some (o.body (literal a) (literal b)) := by
  intro h
  have hsum := h .add (2 ^ 61) (2 ^ 61)
  rw [native_eq_body_iff] at hsum
  have hlit := (chainVal_literal (2 ^ 61)).mpr (by norm_num)
  have hlt := hsum.2.2.1 (2 ^ 62) (by rw [hlit]; rfl)
  omega

end LinEngine.Numeral
