import Mathlib.Data.List.Induction
import Mathlib.Data.List.Basic

/-!
# `queue.lin`

The queue of two lists. Elements leave at the front list and enter at the back list, which
is turned round when the front list runs out. The turn is unrolled for five elements and
forgets the oldest of more, so the queue is first in, first out in the runs whose turns
find at most five.
-/
namespace LinEngine.Queue

section Source

variable {α : Type*} [Inhabited α]

/-! ## `list.lin` -/

/-- Of `nil` the source takes `bool.true`, which no branch that is selected reads. -/
def head : List α → α
  | [] => default
  | h :: _ => h

/-- Of `nil` the source takes `bool.true` here too. -/
def tail : List α → List α
  | [] => []
  | _ :: t => t

def isEmpty : List α → Bool
  | [] => true
  | _ :: _ => false

def nth : ℕ → List α → α
  | 0, l => head l
  | i + 1, l => nth i (tail l)

def first (l : List α) : α := nth 0 l

def second (l : List α) : α := nth 1 l

def third (l : List α) : α := nth 2 l

def fourth (l : List α) : α := nth 3 l

def fifth (l : List α) : α := nth 4 l

/-! ## `queue.lin` -/

def rev (l : List α) : List α :=
  if isEmpty l then []
  else if isEmpty (tail l) then l
  else if isEmpty (tail (tail l)) then [second l, first l]
  else if isEmpty (tail (tail (tail l))) then [third l, second l, first l]
  else if isEmpty (tail (tail (tail (tail l)))) then [fourth l, third l, second l, first l]
  else [fifth l, fourth l, third l, second l, first l]

def emptyQueue : List α × List α := ([], [])

def isEmptyQueue (q : List α × List α) : Bool := isEmpty q.1 && isEmpty q.2

def queuePush (x : α) (q : List α × List α) : List α × List α :=
  if isEmpty q.2 then (q.1, [x]) else (x :: q.1, q.2)

def queuePeek (q : List α × List α) : α := head q.2

def queuePop (q : List α × List α) : List α × List α :=
  if isEmpty (tail q.2) then ([], rev q.1) else (q.1, tail q.2)

end Source

/-! ## Runs -/

inductive Op (α : Type*)
  | push (x : α)
  | pop
  deriving DecidableEq, Repr

section Runs

variable {α : Type*} [Inhabited α]

def Op.apply (q : List α × List α) : Op α → List α × List α
  | .push x => queuePush x q
  | .pop => queuePop q

/-- The queue after the operations. -/
def run (ops : List (Op α)) : List α × List α := ops.foldl Op.apply emptyQueue

/-- What `queue_peek` returns before each pop. -/
def peeks (q : List α × List α) : List (Op α) → List α
  | [] => []
  | .push x :: ops => peeks (queuePush x q) ops
  | .pop :: ops => queuePeek q :: peeks (queuePop q) ops

def pushed : List (Op α) → List α
  | [] => []
  | .push x :: ops => x :: pushed ops
  | .pop :: ops => pushed ops

def pops : List (Op α) → ℕ
  | [] => 0
  | .push _ :: ops => pops ops
  | .pop :: ops => pops ops + 1

/-- Each pop of the run comes after operations that have the property. -/
def AtPops (P : List (Op α) → Prop) (ops : List (Op α)) : Prop :=
  ∀ n < ops.length, ops[n]? = some .pop → P (ops.take n)

/-- No pop is applied to an empty queue. -/
def Legal (ops : List (Op α)) : Prop := AtPops (fun pre => pops pre < (pushed pre).length) ops

/-- A pop that turns the back list round finds at most five elements there. -/
def Roomy (ops : List (Op α)) : Prop :=
  AtPops (fun pre => isEmpty (tail (run pre).2) = true → (run pre).1.length ≤ 5) ops

/-! ## The queue as one list -/

/-- The elements, the oldest first. -/
def contents (q : List α × List α) : List α := q.2 ++ q.1.reverse

/-- The front list does not run out before the back list. -/
def Fronted (q : List α × List α) : Prop := q.2 = [] → q.1 = []

variable {q : List α × List α} {ops : List (Op α)}

lemma rev_eq (l : List α) : rev l = (l.take 5).reverse := by
  rcases l with _ | ⟨a, _ | ⟨b, _ | ⟨c, _ | ⟨d, _ | ⟨e, l⟩⟩⟩⟩⟩ <;> rfl

omit [Inhabited α] in
lemma queuePush_spec (x : α) (h : Fronted q) :
    contents (queuePush x q) = contents q ++ [x] ∧ Fronted (queuePush x q) := by
  obtain ⟨back, front⟩ := q
  cases front with
  | nil =>
    obtain rfl : back = [] := h rfl
    exact ⟨rfl, fun he => absurd he (List.cons_ne_nil x [])⟩
  | cons a front => exact ⟨by simp [contents, queuePush, isEmpty], fun he => absurd he (List.cons_ne_nil a front)⟩

lemma queuePop_spec (h : Fronted q) (hne : contents q ≠ []) (hroom : isEmpty (tail q.2) = true → q.1.length ≤ 5) :
    contents q = queuePeek q :: contents (queuePop q) ∧ Fronted (queuePop q) := by
  obtain ⟨back, front⟩ := q
  rcases front with _ | ⟨a, _ | ⟨b, front⟩⟩
  · obtain rfl : back = [] := h rfl
    exact absurd rfl hne
  · -- the back list is turned round whole
    have hrev : rev back = back.reverse := by rw [rev_eq, List.take_of_length_le (hroom rfl)]
    have hpop : queuePop (back, [a]) = ([], back.reverse) := congrArg (Prod.mk []) hrev
    rw [hpop]
    exact ⟨by simp [contents, queuePeek, head], fun _ => rfl⟩
  · exact ⟨rfl, fun he => absurd he (List.cons_ne_nil b front)⟩

omit [Inhabited α] in
lemma isEmptyQueue_iff (q : List α × List α) : isEmptyQueue q = true ↔ contents q = [] := by
  obtain ⟨_ | ⟨a, back⟩, _ | ⟨b, front⟩⟩ := q <;> simp [isEmptyQueue, isEmpty, contents]

/-! ## A run, operation by operation -/

lemma run_concat (ops : List (Op α)) (o : Op α) : run (ops ++ [o]) = o.apply (run ops) := by
  rw [run, List.foldl_append]
  rfl

lemma peeks_append (q : List α × List α) (ops ops' : List (Op α)) :
    peeks q (ops ++ ops') = peeks q ops ++ peeks (ops.foldl Op.apply q) ops' := by
  induction ops generalizing q with
  | nil => rfl
  | cons o ops ih =>
    cases o with
    | push x => exact ih _
    | pop => exact congrArg (queuePeek q :: ·) (ih _)

omit [Inhabited α] in
lemma pushed_append (ops ops' : List (Op α)) : pushed (ops ++ ops') = pushed ops ++ pushed ops' := by
  induction ops with
  | nil => rfl
  | cons o ops ih => cases o <;> simp [pushed, ih]

lemma peeks_length (q : List α × List α) (ops : List (Op α)) : (peeks q ops).length = pops ops := by
  induction ops generalizing q with
  | nil => rfl
  | cons o ops ih => cases o <;> simp [peeks, pops, ih]

omit [Inhabited α] in
lemma AtPops.concat {P : List (Op α) → Prop} {o : Op α} (h : AtPops P (ops ++ [o])) :
    AtPops P ops ∧ (o = .pop → P ops) := by
  constructor
  · intro n hn hpop
    have := h n (by rw [List.length_append]; omega) (by rwa [List.getElem?_append_left hn])
    rwa [List.take_append_of_le_length (Nat.le_of_lt hn)] at this
  · rintro rfl
    have := h ops.length (by simp) (by simp)
    rwa [List.take_left] at this

/-- What was pushed has been peeked at or is still there, in this order. -/
lemma pushed_eq (hlegal : Legal ops) (hroom : Roomy ops) :
    pushed ops = peeks emptyQueue ops ++ contents (run ops) ∧ Fronted (run ops) := by
  induction ops using List.reverseRecOn with
  | nil => exact ⟨rfl, fun _ => rfl⟩
  | append_singleton ops o ih =>
    obtain ⟨hlegal, hlast⟩ := hlegal.concat
    obtain ⟨hroom, hturn⟩ := hroom.concat
    obtain ⟨heq, hfront⟩ := ih hlegal hroom
    rw [run_concat, pushed_append, peeks_append]
    cases o with
    | push x =>
      obtain ⟨hpush, hfront'⟩ := queuePush_spec x hfront
      refine ⟨?_, hfront'⟩
      calc pushed ops ++ [x] = peeks emptyQueue ops ++ (contents (run ops) ++ [x]) := by rw [heq, List.append_assoc]
        _ = peeks emptyQueue ops ++ [] ++ contents (queuePush x (run ops)) := by rw [hpush, List.append_nil]
    | pop =>
      have hne : contents (run ops) ≠ [] := by
        intro hnil
        have hlt := hlast rfl
        rw [heq, hnil, List.append_nil, peeks_length] at hlt
        exact Nat.lt_irrefl _ hlt
      obtain ⟨hpop, hfront'⟩ := queuePop_spec hfront hne (hturn rfl)
      refine ⟨?_, hfront'⟩
      calc pushed ops ++ [] = peeks emptyQueue ops ++ contents (run ops) := by rw [heq, List.append_nil]
        _ = peeks emptyQueue ops ++ [queuePeek (run ops)] ++ contents (queuePop (run ops)) := by
          rw [hpop, List.append_assoc]; rfl

/-- In a run whose turns find at most five elements, the elements leave in the order of their entry, and the queue is
empty when all have left. -/
theorem run_fifo (ops : List (Op α)) (hlegal : Legal ops) (hroom : Roomy ops) :
    peeks emptyQueue ops = (pushed ops).take (pops ops) ∧
      (isEmptyQueue (run ops) = true ↔ pops ops = (pushed ops).length) := by
  obtain ⟨heq, -⟩ := pushed_eq hlegal hroom
  have hlen := peeks_length emptyQueue ops
  constructor
  · rw [heq, ← hlen, List.take_left]
  · rw [isEmptyQueue_iff, heq, List.length_append, hlen, ← List.length_eq_zero_iff]
    omega

/-- Five elements wait behind the first one when it leaves. -/
theorem run_fifo_six :
    let ops : List (Op ℕ) := [.push 0, .push 1, .push 2, .push 3, .push 4, .push 5, .pop, .pop]
    Legal ops ∧ Roomy ops ∧ peeks emptyQueue ops = (pushed ops).take (pops ops) ∧
      (isEmptyQueue (run ops) = true ↔ pops ops = (pushed ops).length) := by
  intro ops
  have hlegal : Legal ops := by unfold Legal AtPops; decide
  have hroom : Roomy ops := by unfold Roomy AtPops; decide
  exact ⟨hlegal, hroom, run_fifo ops hlegal hroom⟩

/-- With six waiting, the second element is lost. -/
theorem rev_loses : ¬ ∀ ops : List (Op ℕ), Legal ops → peeks emptyQueue ops = (pushed ops).take (pops ops) ∧
    (isEmptyQueue (run ops) = true ↔ pops ops = (pushed ops).length) := by
  intro h
  have hlegal : Legal ([.push 0, .push 1, .push 2, .push 3, .push 4, .push 5, .push 6, .pop, .pop] : List (Op ℕ)) := by
    unfold Legal AtPops; decide
  exact absurd (h _ hlegal).1 (by decide)

end Runs

end LinEngine.Queue
