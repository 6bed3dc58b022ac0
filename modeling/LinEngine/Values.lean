import Mathlib

/-!
# The table of floats

`values.c` keeps the floats of all nets in one table. `f_box` appends to it and `f_load`
writes the entries of an artifact at the places they had when it was saved. What one of
the two promised is kept in a run exactly when no load finds another value in its place.
-/
namespace LinEngine.Values

/-! ## `values.c` -/

/-- The line that `f_load` writes to `stderr`, once in a process. -/
structure Conflict where
  index : ℕ
  wanted : BitVec 64
  held : BitVec 64
  deriving DecidableEq, Repr

/-- The entries from `ntab` on have not been written. -/
structure Store where
  tab : ℕ → BitVec 64 := fun _ => 0
  ntab : ℕ := 0
  ctab : ℕ := 0
  warned : Option Conflict := none

def isNaN (d : BitVec 64) : Bool := (d >>> 52) &&& 0x7ff#64 == 0x7ff#64 && d &&& 0xfffffffffffff#64 != 0

/-- `!=` on doubles. -/
def doubleNe (a b : BitVec 64) : Bool := isNaN a || isNaN b || (a != b && (a ||| b) <<< 1 != 0)

/-- The doubling loop of `reserve`. -/
def grow : ℕ → ℕ → ℕ → ℕ
  | 0, c, _ => c
  | fuel + 1, c, need => if c < need then grow fuel (c * 2) need else c

/-- `mem` says whether `malloc` finds a block if it is asked for one. -/
def reserve (mem : Bool) (need : ℕ) (st : Store) : Bool × Store :=
  if need ≤ st.ctab then (true, st)
  else if mem then (true, { st with ctab := grow need (if st.ctab = 0 then 64 else st.ctab) need })
  else (false, st)

def append (mem : Bool) (d : List (BitVec 64)) (st : Store) : Option ℕ × Store :=
  if d.length = 0 then (some st.ntab, st)
  else
    let r := reserve mem (st.ntab + d.length) st
    if r.1 then
      (some st.ntab, { r.2 with
        tab := fun i => if st.ntab ≤ i then (d[i - st.ntab]?).getD (r.2.tab i) else r.2.tab i
        ntab := st.ntab + d.length })
    else (none, r.2)

/-- The index that `f_box` puts into its box. -/
def fBox (mem : Bool) (v : BitVec 64) (st : Store) : Option ℕ × Store := append mem [v] st

/-- What `f_unbox` reads for the index of a box. -/
def fUnbox (idx : ℤ) (st : Store) : Option (BitVec 64) :=
  if idx < 0 ∨ (st.ntab : ℤ) ≤ idx then none else some (st.tab idx.toNat)

/-- `(int)(len / sizeof(double))` for a blob of so many doubles. -/
def blobCount (blob : List (BitVec 64)) : ℤ := Int.bmod blob.length (2 ^ 32)

def Store.warn (i : ℕ) (d : BitVec 64) (st : Store) : Store :=
  if i < st.ntab ∧ doubleNe (st.tab i) d ∧ st.warned = none then { st with warned := some ⟨i, d, st.tab i⟩ } else st

/-- The loop of `f_load`. -/
def loadEntries : ℕ → List (BitVec 64) → Store → Store
  | _, [], st => st
  | i, d :: ds, st =>
    let st := st.warn i d
    loadEntries (i + 1) ds { st with tab := Function.update st.tab i d }

/-- `f_load` of a positive count. -/
def loadFirst (mem : Bool) (count : ℕ) (blob : List (BitVec 64)) (st : Store) : Bool × Store :=
  let r := reserve mem count st
  if r.1 then
    let st := loadEntries 0 (blob.take count) r.2
    (true, if st.ntab < count then { st with ntab := count } else st)
  else (false, r.2)

def fLoad (mem : Bool) (blob : List (BitVec 64)) (st : Store) : Bool × Store :=
  if blobCount blob ≤ 0 then (true, st) else loadFirst mem (blobCount blob).toNat blob st

/-! ## Runs -/

inductive Call
  | box (v : BitVec 64) (mem : Bool)
  | load (blob : List (BitVec 64)) (mem : Bool)
  deriving DecidableEq, Repr

/-- The table and what has been promised of it: the value of an index that `f_box` returned, and the values that an
artifact saved for its indices. -/
structure Process where
  st : Store := {}
  promised : List (BitVec 64 × ℕ) := []

def Call.apply (p : Process) : Call → Process
  | .box v mem =>
    let r := fBox mem v p.st
    ⟨r.2, p.promised ++ (r.1.map fun i => (v, i)).toList⟩
  | .load blob mem =>
    let r := fLoad mem blob p.st
    ⟨r.2, if r.1 then p.promised ++ blob.zipIdx else p.promised⟩

def run (calls : List Call) : Process := calls.foldl Call.apply {}

/-- Every index that has been promised a value denotes it. -/
def Process.Kept (p : Process) : Prop := ∀ x ∈ p.promised, fUnbox x.2 p.st = some x.1

/-- The blob is no longer than a count of type `int` can say, or than the table, and holds the values of the table. -/
def Store.Admits (blob : List (BitVec 64)) (st : Store) : Prop :=
  (blob.length < 2 ^ 31 ∨ blob.length ≤ st.ntab) ∧
    ∀ i < blob.length, i < st.ntab → blob[i]? = some (st.tab i)

/-- The load does not get the memory it needs. -/
def Store.Short (mem : Bool) (blob : List (BitVec 64)) (st : Store) : Prop :=
  mem = false ∧ 0 < blobCount blob ∧ (st.ctab : ℤ) < blobCount blob

/-- A load that gets its memory is one that the table admits. -/
def Process.Safe (p : Process) : Call → Prop
  | .box _ _ => True
  | .load blob mem => p.st.Short mem blob ∨ p.st.Admits blob

/-! ## What a call does -/

variable {st : Store} {p : Process} {c : Call} {mem : Bool} {v : BitVec 64} {blob : List (BitVec 64)} {i : ℕ}

lemma reserve_tab (mem : Bool) (need : ℕ) (st : Store) : (reserve mem need st).2.tab = st.tab := by
  unfold reserve
  split_ifs <;> rfl

lemma reserve_ntab (mem : Bool) (need : ℕ) (st : Store) : (reserve mem need st).2.ntab = st.ntab := by
  unfold reserve
  split_ifs <;> rfl

lemma reserve_fails {need : ℕ} : (reserve mem need st).1 = false ↔ mem = false ∧ st.ctab < need := by
  unfold reserve
  split_ifs with h1 h2
  · simp [h1]
  · simp [h2]
  · simp only [Bool.not_eq_true] at h2
    simp only [h2, true_and, true_iff]
    omega

/-- Without the memory it asks for, `reserve` leaves the table as it is. -/
lemma reserve_of_fails {need : ℕ} (h : (reserve mem need st).1 = false) : reserve mem need st = (false, st) := by
  obtain ⟨hmem, hlt⟩ := reserve_fails.1 h
  rw [reserve, if_neg (by omega), hmem]
  rfl

lemma fUnbox_eq_some {i : ℕ} {d : BitVec 64} : fUnbox i st = some d ↔ i < st.ntab ∧ st.tab i = d := by
  unfold fUnbox
  split_ifs with h
  · simp only [false_iff, not_and]
    omega
  · simp only [Int.toNat_natCast, Option.some.injEq, iff_and_self]
    omega

lemma Store.warn_tab (i : ℕ) (d : BitVec 64) (st : Store) : (st.warn i d).tab = st.tab := by
  unfold Store.warn
  split_ifs <;> rfl

lemma Store.warn_ntab (i : ℕ) (d : BitVec 64) (st : Store) : (st.warn i d).ntab = st.ntab := by
  unfold Store.warn
  split_ifs <;> rfl

lemma loadEntries_ntab (k : ℕ) (ds : List (BitVec 64)) (st : Store) : (loadEntries k ds st).ntab = st.ntab := by
  induction ds generalizing k st with
  | nil => rfl
  | cons d ds ih => rw [loadEntries, ih, Store.warn_ntab]

lemma loadEntries_tab (k : ℕ) (ds : List (BitVec 64)) (st : Store) (i : ℕ) :
    (loadEntries k ds st).tab i = if k ≤ i then (ds[i - k]?).getD (st.tab i) else st.tab i := by
  induction ds generalizing k st with
  | nil => simp [loadEntries]
  | cons d ds ih =>
    rw [loadEntries, ih]
    simp only [Store.warn_tab]
    rcases Nat.lt_trichotomy i k with h | rfl | h
    · rw [if_neg (by omega), if_neg (by omega), Function.update_of_ne (by omega)]
    · rw [if_neg (by omega), if_pos (by omega), Function.update_self]
      simp
    · rw [if_pos (by omega), if_pos (by omega), Function.update_of_ne (by omega), show i - k = i - (k + 1) + 1 by omega,
        List.getElem?_cons_succ]

lemma blobCount_of_lt (h : blob.length < 2 ^ 31) : blobCount blob = blob.length :=
  Int.bmod_eq_of_le (by omega) (by omega)

lemma blobCount_lt (blob : List (BitVec 64)) : blobCount blob < 2 ^ 31 := by
  have := Int.bmod_lt (x := blob.length) (m := 2 ^ 32) (by omega)
  unfold blobCount
  omega

lemma blobCount_le (blob : List (BitVec 64)) : blobCount blob ≤ blob.length := by
  unfold blobCount
  rw [Int.bmod_def]
  split_ifs <;> omega

lemma fBox_spec (mem : Bool) (v : BitVec 64) (st : Store) : fBox mem v st = (none, st) ∨
    (fBox mem v st).1 = some st.ntab ∧ (fBox mem v st).2.ntab = st.ntab + 1 ∧
      ∀ i, (fBox mem v st).2.tab i = if i = st.ntab then v else st.tab i := by
  rw [fBox, append, if_neg (by simp)]
  cases hr : (reserve mem (st.ntab + 1) st).1 with
  | false => exact .inl (by simp only [List.length_singleton, reserve_of_fails hr, Bool.false_eq_true, if_false])
  | true =>
    refine .inr ?_
    simp only [List.length_singleton, hr, if_true, reserve_tab]
    refine ⟨trivial, trivial, fun i => ?_⟩
    rcases Nat.lt_trichotomy i st.ntab with h | rfl | h
    · rw [if_neg (by omega), if_neg (by omega)]
    · simp
    · rw [if_pos (by omega), if_neg (by omega), List.getElem?_eq_none (by simp; omega)]
      rfl

lemma loadFirst_spec {count : ℕ} (hr : (reserve mem count st).1 = true) : (loadFirst mem count blob st).1 = true ∧
    (loadFirst mem count blob st).2.ntab = max st.ntab count ∧
      ∀ i, (loadFirst mem count blob st).2.tab i = ((blob.take count)[i]?).getD (st.tab i) := by
  have hntab := (loadEntries_ntab 0 (blob.take count) (reserve mem count st).2).trans (reserve_ntab mem count st)
  have htab := loadEntries_tab 0 (blob.take count) (reserve mem count st).2
  rw [reserve_tab] at htab
  simp only [loadFirst, hr, if_true, hntab]
  refine ⟨trivial, ?_, fun i => ?_⟩
  · split_ifs with hlt
    · exact (Nat.max_eq_right (Nat.le_of_lt hlt)).symm
    · exact hntab.trans (Nat.max_eq_left (Nat.le_of_not_lt hlt)).symm
  · split_ifs <;> exact (htab i).trans (if_pos (Nat.zero_le i))

lemma fLoad_of_short (h : st.Short mem blob) : fLoad mem blob st = (false, st) := by
  obtain ⟨hmem, hcount, hlt⟩ := h
  have hr : (reserve mem (blobCount blob).toNat st).1 = false := reserve_fails.2 ⟨hmem, by omega⟩
  rw [fLoad, if_neg (by omega), loadFirst, reserve_of_fails hr]
  exact if_neg Bool.false_ne_true

/-- The entries that a load writes. -/
lemma fLoad_spec (h : ¬ st.Short mem blob) : (fLoad mem blob st).1 = true ∧
    (fLoad mem blob st).2.ntab = max st.ntab (blobCount blob).toNat ∧
      ∀ i, (fLoad mem blob st).2.tab i = ((blob.take (blobCount blob).toNat)[i]?).getD (st.tab i) := by
  by_cases hcount : blobCount blob ≤ 0
  · rw [fLoad, if_pos hcount, Int.toNat_eq_zero.2 hcount]
    exact ⟨rfl, (Nat.max_zero _).symm, fun i => rfl⟩
  · have hr : (reserve mem (blobCount blob).toNat st).1 = true := by
      rw [← Bool.not_eq_false, reserve_fails]
      exact fun ⟨hmem, hlt⟩ => h ⟨hmem, by omega, by omega⟩
    rw [fLoad, if_neg hcount]
    exact loadFirst_spec hr

/-- A load that gets its memory writes the entries of its count, which are all unless it exceeds an `int`. -/
lemma Call.apply_load (h : ¬ p.st.Short mem blob) : ∃ st' count, count ≤ blob.length ∧ count < 2 ^ 31 ∧
    (blob.length < 2 ^ 31 → count = blob.length) ∧ (Call.load blob mem).apply p = ⟨st', p.promised ++ blob.zipIdx⟩ ∧
      st'.ntab = max p.st.ntab count ∧ ∀ i, st'.tab i = ((blob.take count)[i]?).getD (p.st.tab i) := by
  have hspec := fLoad_spec h
  have hle := blobCount_le blob
  have hlt := blobCount_lt blob
  have heq : blob.length < 2 ^ 31 → blobCount blob = blob.length := blobCount_of_lt
  rw [Call.apply]
  generalize blobCount blob = count at hspec hle hlt heq
  obtain ⟨hok, hntab, htab⟩ := hspec
  have hsmall : count.toNat < 2 ^ 31 := by omega
  refine ⟨(fLoad mem blob p.st).2, count.toNat, by omega, hsmall, fun hlen => ?_, ?_, hntab, htab⟩
  swap
  · simp only [hok, if_true]
  have := heq hlen
  omega

/-! ## What a call keeps -/

/-- Every entry of the table has been promised. -/
def Process.Covered (p : Process) : Prop := ∀ i < p.st.ntab, ∃ d, (d, i) ∈ p.promised

lemma Call.apply_covered (h : p.Covered) : (c.apply p).Covered := by
  cases c with
  | box v mem =>
    intro i hi
    rcases fBox_spec mem v p.st with hnone | ⟨hsome, hntab, -⟩
    · simp only [Call.apply, hnone] at hi ⊢
      obtain ⟨d, hd⟩ := h i hi
      exact ⟨d, List.mem_append_left _ hd⟩
    · simp only [Call.apply, hsome, hntab] at hi ⊢
      rcases Nat.lt_succ_iff_lt_or_eq.1 hi with hlt | rfl
      · obtain ⟨d, hd⟩ := h i hlt
        exact ⟨d, List.mem_append_left _ hd⟩
      · exact ⟨v, by simp⟩
  | load blob mem =>
    intro i hi
    by_cases hshort : p.st.Short mem blob
    · simp only [Call.apply, fLoad_of_short hshort] at hi ⊢
      exact h i hi
    · obtain ⟨st', count, hle, -, -, happly, hntab, -⟩ := Call.apply_load hshort
      simp only [happly, hntab] at hi ⊢
      by_cases hlt : i < p.st.ntab
      · obtain ⟨d, hd⟩ := h i hlt
        exact ⟨d, List.mem_append_left _ hd⟩
      · have hlen : i < blob.length := by omega
        exact ⟨blob[i], List.mem_append_right _ (List.mk_mem_zipIdx_iff_getElem?.2 (List.getElem?_eq_getElem hlen))⟩

lemma Process.kept_iff : p.Kept ↔ ∀ d i, (d, i) ∈ p.promised → i < p.st.ntab ∧ p.st.tab i = d :=
  ⟨fun h d i hx => fUnbox_eq_some.1 (h (d, i) hx), fun h ⟨d, i⟩ hx => fUnbox_eq_some.2 (h d i hx)⟩

lemma box_kept (h : p.Kept) : ((Call.box v mem).apply p).Kept := by
  rw [Process.kept_iff] at h ⊢
  intro d i hx
  rcases fBox_spec mem v p.st with hnone | ⟨hsome, hntab, htab⟩
  · simp only [Call.apply, hnone, Option.map_none, Option.toList_none, List.append_nil] at hx ⊢
    exact h d i hx
  · simp only [Call.apply, hsome, hntab, htab, Option.map_some, Option.toList_some, List.mem_append, List.mem_singleton,
      Prod.mk.injEq] at hx ⊢
    rcases hx with hx | ⟨rfl, rfl⟩
    · obtain ⟨hi, hd⟩ := h d i hx
      exact ⟨by omega, by rw [if_neg (by omega), hd]⟩
    · exact ⟨by omega, if_pos rfl⟩

/-- A load that gets its memory keeps all promises exactly when the table admits the blob. -/
lemma load_kept_iff (hcov : p.Covered) (h : p.Kept) (hshort : ¬ p.st.Short mem blob) :
    ((Call.load blob mem).apply p).Kept ↔ p.st.Admits blob := by
  obtain ⟨st', count, hle, hlt, hall, happly, hntab, htab⟩ := Call.apply_load hshort
  rw [Process.kept_iff] at h ⊢
  simp only [happly, hntab, htab, List.mem_append, List.mk_mem_zipIdx_iff_getElem?]
  constructor
  · intro hkept
    constructor
    · by_contra hlong
      have hpos : blob.length - 1 < blob.length := by omega
      have := (hkept _ _ (.inr (List.getElem?_eq_getElem hpos))).1
      omega
    · intro i hi hin
      -- the entry has been promised before, and the load promises its own
      obtain ⟨d, hd⟩ := hcov i hin
      have hnew := (hkept _ _ (.inr (List.getElem?_eq_getElem hi))).2
      have hold := (hkept d i (.inl hd)).2
      rw [List.getElem?_eq_getElem hi, ← hnew, hold, (h d i hd).2]
  · rintro ⟨hlen, hsame⟩ d i hx
    have hkeep : i < p.st.ntab → ((blob.take count)[i]?).getD (p.st.tab i) = p.st.tab i := by
      intro hin
      rw [List.getElem?_take]
      split_ifs with hic
      · rw [hsame i (by omega) hin, Option.getD_some]
      · rfl
    rcases hx with hx | hx
    · obtain ⟨hin, hd⟩ := h d i hx
      exact ⟨by omega, (hkeep hin).trans hd⟩
    · obtain ⟨hi, -⟩ := List.getElem?_eq_some_iff.1 hx
      by_cases hin : i < p.st.ntab
      · have hd : some d = some (p.st.tab i) := hx.symm.trans (hsame i hi hin)
        exact ⟨by omega, (hkeep hin).trans (Option.some.inj hd).symm⟩
      · have hcount := hall (by omega)
        exact ⟨by omega, by rw [List.getElem?_take, if_pos (by omega), hx, Option.getD_some]⟩

/-- A call keeps all promises exactly when it is safe. -/
lemma Call.apply_kept_iff (hcov : p.Covered) (h : p.Kept) : (c.apply p).Kept ↔ p.Safe c := by
  cases c with
  | box v mem => exact ⟨fun _ => trivial, fun _ => box_kept h⟩
  | load blob mem =>
    by_cases hshort : p.st.Short mem blob
    · have hsame : (Call.load blob mem).apply p = p := by
        rw [Call.apply, fLoad_of_short hshort]
        rfl
      rw [hsame]
      exact ⟨fun _ => .inl hshort, fun _ => h⟩
    · rw [load_kept_iff hcov h hshort]
      exact ⟨.inr, fun hsafe => hsafe.resolve_left hshort⟩

lemma run_concat (calls : List Call) (c : Call) : run (calls ++ [c]) = c.apply (run calls) := by
  rw [run, List.foldl_append]
  rfl

lemma run_covered (calls : List Call) : (run calls).Covered := by
  induction calls using List.reverseRecOn with
  | nil => exact fun i hi => absurd hi (Nat.not_lt_zero i)
  | append_singleton calls c ih =>
    rw [run_concat]
    exact c.apply_covered ih

end LinEngine.Values
