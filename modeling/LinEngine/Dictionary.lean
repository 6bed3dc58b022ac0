import LinEngine.Shelf

/-!
# `tree.lin`, `map.lin` and `set.lin`

The search trees of the standard library. A Scott tree is an inductive type, `pair` and
`maybe` are `×` and `Option`, and `eq` and `lt` are the comparisons on numbers. Insertion
and lookup are unrolled for three levels, so both are the bounded search tree of depth
two, and an insertion at the third level loses the entry that was there.
-/
namespace LinEngine.Dictionary

open Shelf

/-! ## `tree.lin` -/

section Tree

variable {α : Type*}

def isLeaf : BinTree α → Bool
  | .leaf => true
  | .node _ _ _ => false

def isNode : BinTree α → Bool
  | .leaf => false
  | .node _ _ _ => true

/-- Of a leaf the source takes the numeral 0, which no branch that is selected reads. -/
def treeVal [Inhabited α] : BinTree α → α
  | .leaf => default
  | .node v _ _ => v

def treeLeft : BinTree α → BinTree α
  | .leaf => .leaf
  | .node _ l _ => l

def treeRight : BinTree α → BinTree α
  | .leaf => .leaf
  | .node _ _ r => r

def treeHasLeft (t : BinTree α) : Bool := isNode (treeLeft t)

def treeHasRight (t : BinTree α) : Bool := isNode (treeRight t)

def treeValLeft [Inhabited α] (t : BinTree α) : α := treeVal (treeLeft t)

def treeValRight [Inhabited α] (t : BinTree α) : α := treeVal (treeRight t)

end Tree

/-! ## `map.lin` -/

section Map

variable {V : Type*} [Inhabited V]

def emptyMap : BinTree (ℕ × V) := .leaf

def mapSingleton (k : ℕ) (v : V) : BinTree (ℕ × V) := .node (k, v) .leaf .leaf

def rechildLeft (m nl : BinTree (ℕ × V)) : BinTree (ℕ × V) := .node (treeVal m) nl (treeRight m)

def rechildRight (m nr : BinTree (ℕ × V)) : BinTree (ℕ × V) := .node (treeVal m) (treeLeft m) nr

def mapInsertLeft (k : ℕ) (v : V) (m : BinTree (ℕ × V)) : BinTree (ℕ × V) :=
  if isLeaf (treeLeft m) then rechildLeft m (mapSingleton k v)
  else if k = (treeValLeft m).1 then
    rechildLeft m (.node (k, v) (treeLeft (treeLeft m)) (treeRight (treeLeft m)))
  else if k < (treeValLeft m).1 then
    rechildLeft m (.node (treeValLeft m) (mapSingleton k v) (treeRight (treeLeft m)))
  else rechildLeft m (.node (treeValLeft m) (treeLeft (treeLeft m)) (mapSingleton k v))

def mapInsertRight (k : ℕ) (v : V) (m : BinTree (ℕ × V)) : BinTree (ℕ × V) :=
  if isLeaf (treeRight m) then rechildRight m (mapSingleton k v)
  else if k = (treeValRight m).1 then
    rechildRight m (.node (k, v) (treeLeft (treeRight m)) (treeRight (treeRight m)))
  else if k < (treeValRight m).1 then
    rechildRight m (.node (treeValRight m) (mapSingleton k v) (treeRight (treeRight m)))
  else rechildRight m (.node (treeValRight m) (treeLeft (treeRight m)) (mapSingleton k v))

def mapInsert (k : ℕ) (v : V) (m : BinTree (ℕ × V)) : BinTree (ℕ × V) :=
  if isLeaf m then mapSingleton k v
  else if k = (treeVal m).1 then .node (k, v) (treeLeft m) (treeRight m)
  else if k < (treeVal m).1 then mapInsertLeft k v m
  else mapInsertRight k v m

def mapLookupSub (k : ℕ) (m : BinTree (ℕ × V)) : Option V :=
  if isLeaf m then none
  else if k = (treeVal m).1 then some (treeVal m).2
  else if k < (treeVal m).1 then
    if treeHasLeft m then if k = (treeValLeft m).1 then some (treeValLeft m).2 else none else none
  else
    if treeHasRight m then if k = (treeValRight m).1 then some (treeValRight m).2 else none else none

def mapGet (k : ℕ) (m : BinTree (ℕ × V)) : Option V :=
  if isLeaf m then none
  else if k = (treeVal m).1 then some (treeVal m).2
  else if k < (treeVal m).1 then mapLookupSub k (treeLeft m)
  else mapLookupSub k (treeRight m)

/-- The map after a run of insertions. -/
def mapInserts (kvs : List (ℕ × V)) : BinTree (ℕ × V) := kvs.foldl (fun m kv => mapInsert kv.1 kv.2 m) emptyMap

/-- The value of the last insertion with the key. -/
def lastValue (kvs : List (ℕ × V)) (k : ℕ) : Option V := (latest Prod.fst kvs k).map (·.2)

/-! The source's cases are those of the bounded tree. -/

lemma mapInsertLeft_eq (k : ℕ) (v : V) (b : ℕ × V) (l r : BinTree (ℕ × V)) :
    mapInsertLeft k v (.node b l r) = .node b (put Prod.fst 1 (k, v) l) r := by
  cases l with
  | leaf => rfl
  | node c ll lr =>
    simp only [mapInsertLeft, treeLeft, isLeaf, treeValLeft, treeVal, treeRight, rechildLeft, mapSingleton, put, single,
      Bool.false_eq_true, if_false]
    by_cases heq : k = c.1 <;> by_cases hlt : k < c.1 <;> simp [heq, hlt]

lemma mapInsertRight_eq (k : ℕ) (v : V) (b : ℕ × V) (l r : BinTree (ℕ × V)) :
    mapInsertRight k v (.node b l r) = .node b l (put Prod.fst 1 (k, v) r) := by
  cases r with
  | leaf => rfl
  | node c rl rr =>
    simp only [mapInsertRight, treeLeft, isLeaf, treeValRight, treeVal, treeRight, rechildRight, mapSingleton, put, single,
      Bool.false_eq_true, if_false]
    by_cases heq : k = c.1 <;> by_cases hlt : k < c.1 <;> simp [heq, hlt]

lemma mapInsert_eq (k : ℕ) (v : V) (m : BinTree (ℕ × V)) : mapInsert k v m = put Prod.fst 2 (k, v) m := by
  cases m with
  | leaf => rfl
  | node b l r =>
    simp only [mapInsert, isLeaf, Bool.false_eq_true, if_false, treeVal, treeLeft, treeRight, mapInsertLeft_eq,
      mapInsertRight_eq]
    rfl

lemma mapLookupSub_eq (k : ℕ) (m : BinTree (ℕ × V)) : mapLookupSub k m = (find Prod.fst 1 k m).map (·.2) := by
  cases m with
  | leaf => rfl
  | node b l r =>
    cases l <;> cases r <;>
      simp only [mapLookupSub, isLeaf, treeVal, treeHasLeft, treeHasRight, treeValLeft, treeValRight, treeLeft, treeRight, isNode,
        find, Bool.false_eq_true, if_false, if_true] <;> split_ifs <;> simp [*]

lemma mapGet_eq (k : ℕ) (m : BinTree (ℕ × V)) : mapGet k m = (find Prod.fst 2 k m).map (·.2) := by
  cases m with
  | leaf => rfl
  | node b l r =>
    simp only [mapGet, isLeaf, Bool.false_eq_true, if_false, treeVal, treeLeft, treeRight, mapLookupSub_eq]
    rw [find]
    split_ifs <;> rfl

lemma mapInserts_eq (kvs : List (ℕ × V)) : mapInserts kvs = puts Prod.fst 2 .leaf kvs := by
  simp only [mapInserts, mapInsert_eq]
  rfl

/-- A map built by insertions returns the last value of every key exactly when, besides the first key and the first
below and above it, each of the four gaps between them gets one key at most. -/
theorem mapInserts_latest_iff (kvs : List (ℕ × V)) :
    (∀ k, mapGet k (mapInserts kvs) = lastValue kvs k) ↔ Fits 2 (kvs.map Prod.fst) := by
  rw [← find_puts_iff, ← mapInserts_eq]
  refine forall_congr' fun k => ⟨fun h => ?_, fun h => by rw [mapGet_eq, h, lastValue]⟩
  rw [mapGet_eq, lastValue] at h
  -- the two entries have the same key too
  cases hf : find Prod.fst 2 k (mapInserts kvs) with
  | none => rw [hf, Option.map_none, eq_comm, Option.map_eq_none_iff] at h; exact h.symm
  | some kv =>
    rw [hf, Option.map_some, eq_comm, Option.map_eq_some_iff] at h
    obtain ⟨kv', hl, hv⟩ := h
    rw [hl, Prod.ext ((key_of_find hf).trans (key_of_latest hl).symm) hv.symm]

/-- The insertion of 0 puts it where 1 was. -/
theorem mapInserts_loses : ¬ ∀ (kvs : List (ℕ × ℕ)) (k : ℕ), mapGet k (mapInserts kvs) = lastValue kvs k :=
  fun h => absurd (h [(4, 40), (2, 20), (1, 10), (0, 0)] 1) (by decide)

end Map

/-! ## `set.lin` -/

section Set

def emptySet : BinTree ℕ := .leaf

def setSingleton (x : ℕ) : BinTree ℕ := .node x .leaf .leaf

def leftRebuild (s nl : BinTree ℕ) : BinTree ℕ := .node (treeVal s) nl (treeRight s)

def rightRebuild (s nr : BinTree ℕ) : BinTree ℕ := .node (treeVal s) (treeLeft s) nr

def setInsertLeft (x : ℕ) (s : BinTree ℕ) : BinTree ℕ :=
  if isLeaf (treeLeft s) then leftRebuild s (setSingleton x)
  else if x = treeValLeft s then s
  else if x < treeValLeft s then
    leftRebuild s (.node (treeValLeft s) (setSingleton x) (treeRight (treeLeft s)))
  else leftRebuild s (.node (treeValLeft s) (treeLeft (treeLeft s)) (setSingleton x))

def setInsertRight (x : ℕ) (s : BinTree ℕ) : BinTree ℕ :=
  if isLeaf (treeRight s) then rightRebuild s (setSingleton x)
  else if x = treeValRight s then s
  else if x < treeValRight s then
    rightRebuild s (.node (treeValRight s) (setSingleton x) (treeRight (treeRight s)))
  else rightRebuild s (.node (treeValRight s) (treeLeft (treeRight s)) (setSingleton x))

def setInsert (x : ℕ) (s : BinTree ℕ) : BinTree ℕ :=
  if isLeaf s then setSingleton x
  else if x = treeVal s then s
  else if x < treeVal s then setInsertLeft x s
  else setInsertRight x s

def setLookupSub (x : ℕ) (s : BinTree ℕ) : Bool :=
  if isLeaf s then false
  else if x = treeVal s then true
  else if x < treeVal s then if treeHasLeft s then decide (x = treeValLeft s) else false
  else if treeHasRight s then decide (x = treeValRight s) else false

def setMember (x : ℕ) (s : BinTree ℕ) : Bool :=
  if isLeaf s then false
  else if x = treeVal s then true
  else if x < treeVal s then setLookupSub x (treeLeft s)
  else setLookupSub x (treeRight s)

/-- The set after a run of insertions. -/
def setInserts (xs : List ℕ) : BinTree ℕ := xs.foldl (fun s x => setInsert x s) emptySet

lemma setInsertLeft_eq (x b : ℕ) (l r : BinTree ℕ) : setInsertLeft x (.node b l r) = .node b (put id 1 x l) r := by
  cases l with
  | leaf => rfl
  | node c ll lr =>
    simp only [setInsertLeft, treeLeft, isLeaf, treeValLeft, treeVal, treeRight, leftRebuild, setSingleton, put, single,
      Bool.false_eq_true, if_false, id]
    by_cases heq : x = c <;> by_cases hlt : x < c <;> simp [heq, hlt]

lemma setInsertRight_eq (x b : ℕ) (l r : BinTree ℕ) : setInsertRight x (.node b l r) = .node b l (put id 1 x r) := by
  cases r with
  | leaf => rfl
  | node c rl rr =>
    simp only [setInsertRight, treeLeft, isLeaf, treeValRight, treeVal, treeRight, rightRebuild, setSingleton, put, single,
      Bool.false_eq_true, if_false, id]
    by_cases heq : x = c <;> by_cases hlt : x < c <;> simp [heq, hlt]

lemma setInsert_eq (x : ℕ) (s : BinTree ℕ) : setInsert x s = put id 2 x s := by
  cases s with
  | leaf => rfl
  | node b l r =>
    simp only [setInsert, isLeaf, Bool.false_eq_true, if_false, treeVal, setInsertLeft_eq, setInsertRight_eq, put, id]
    by_cases heq : x = b <;> simp [heq]

lemma setLookupSub_eq (x : ℕ) (s : BinTree ℕ) : setLookupSub x s = (find id 1 x s).isSome := by
  cases s with
  | leaf => rfl
  | node b l r =>
    cases l <;> cases r <;>
      simp only [setLookupSub, isLeaf, treeVal, treeHasLeft, treeHasRight, treeValLeft, treeValRight, treeLeft, treeRight, isNode,
        find, Bool.false_eq_true, if_false, if_true, id] <;> split_ifs <;> simp [*]

lemma setMember_eq (x : ℕ) (s : BinTree ℕ) : setMember x s = (find id 2 x s).isSome := by
  cases s with
  | leaf => rfl
  | node b l r =>
    simp only [setMember, isLeaf, Bool.false_eq_true, if_false, treeVal, treeLeft, treeRight, setLookupSub_eq]
    rw [find, id]
    by_cases heq : x = b <;> by_cases hlt : x < b <;> simp [heq, hlt]

lemma setInserts_eq (xs : List ℕ) : setInserts xs = puts id 2 .leaf xs := by
  simp only [setInserts, setInsert_eq]
  rfl

/-- The members of a set built by insertions are the elements inserted exactly when, besides the first element and the
first below and above it, each of the four gaps between them gets one element at most. -/
theorem setInserts_member_iff (xs : List ℕ) : (∀ y, setMember y (setInserts xs) = true ↔ y ∈ xs) ↔ Fits 2 xs := by
  have hlatest : ∀ y, (latest id xs y).isSome = true ↔ y ∈ xs := by
    intro y
    rw [Option.isSome_iff_ne_none, Ne, latest_eq_none]
    simp
  rw [← List.map_id xs, ← find_puts_iff, ← setInserts_eq, List.map_id]
  refine forall_congr' fun y => ?_
  rw [setMember_eq, ← hlatest]
  constructor
  · intro h
    -- an entry is its own key
    cases hf : find id 2 y (setInserts xs) with
    | none =>
      have hnone := mt h.2 (by rw [hf]; exact Bool.false_ne_true)
      exact (Option.not_isSome_iff_eq_none.1 hnone).symm
    | some x =>
      obtain ⟨x', hl⟩ := Option.isSome_iff_exists.1 (h.1 (by rw [hf]; rfl))
      rw [hl]
      exact congrArg some ((key_of_find hf).trans (key_of_latest hl).symm)
  · intro h
    rw [h]

/-- The insertion of 0 puts it where 1 was. -/
theorem setInserts_loses : ¬ ∀ (xs : List ℕ) (y : ℕ), setMember y (setInserts xs) = true ↔ y ∈ xs :=
  fun h => absurd ((h [4, 2, 1, 0] 1).2 (by decide)) (by decide)

end Set

end LinEngine.Dictionary
