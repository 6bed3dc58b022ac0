import Mathlib

/-!
# Growable tables

A table is a C array together with its growth: a read past the end gives the
fill value, and a write past the end grows the table with fill values. Read and
write then obey the array laws with no side condition, and a table is finite
data that can be evaluated and compared.
-/
namespace LinEngine

structure Table (α : Type*) (fill : α) where
  cells : List α
  deriving DecidableEq, Repr

namespace Table

variable {α : Type*} {fill : α}

/-- Overwrite entry `i`, growing the list with `d` when it is too short. -/
def write (d : α) : List α → ℕ → α → List α
  | [], 0, x => [x]
  | [], i + 1, x => d :: write d [] i x
  | _ :: ys, 0, x => x :: ys
  | y :: ys, i + 1, x => y :: write d ys i x

def get (t : Table α fill) (i : ℕ) : α := t.cells.getD i fill

def set (t : Table α fill) (i : ℕ) (x : α) : Table α fill := ⟨write fill t.cells i x⟩

/-- The empty table: every entry reads as the fill value. -/
def empty : Table α fill := ⟨[]⟩

@[simp] theorem get_empty (i : ℕ) : (empty : Table α fill).get i = fill := by simp [get, empty]

lemma getD_write (d : α) (xs : List α) (i j : ℕ) (x : α) :
    (write d xs i x).getD j d = if i = j then x else xs.getD j d := by
  induction xs, i, x using write.induct generalizing j with
  | case1 x => cases j <;> simp [write]
  | case2 i x ih =>
    cases j with
    | zero => simp [write]
    | succ j => simpa [write] using ih j
  | case3 y ys x => cases j <;> simp [write]
  | case4 y ys i x ih =>
    cases j with
    | zero => simp [write]
    | succ j => simpa [write] using ih j

@[simp] theorem get_set (t : Table α fill) (i j : ℕ) (x : α) :
    (t.set i x).get j = if i = j then x else t.get j := by
  simp only [get, set, getD_write]

theorem get_set_self (t : Table α fill) (i : ℕ) (x : α) : (t.set i x).get i = x := by simp

theorem get_set_ne (t : Table α fill) {i j : ℕ} (h : i ≠ j) (x : α) :
    (t.set i x).get j = t.get j := by simp [h]

end Table

end LinEngine
