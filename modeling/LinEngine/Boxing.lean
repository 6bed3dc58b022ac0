import LinEngine.Forcing
import LinEngine.Types

/-!
# The build-time pass of `arith`

`arith_aot` puts the result of a program of type `num` or `bool` into a box that states
its domain. The test that the result is a value of the domain is switched off in the
source, so a box is right exactly when the evaluated root happens to be one.
-/
namespace LinEngine

inductive BoxDom
  | num
  | bool
  deriving DecidableEq, Repr

def BoxDom.enc : BoxDom → Enc
  | .num => .num
  | .bool => .bool

/-- The cell at the end of the links; there is none when they go round. -/
def skipLinks (h : Heap) : ℕ → ℕ → Option ℕ
  | 0, _ => none
  | fuel + 1, t =>
    match h.cell t with
    | .link a => skipLinks h fuel a
    | _ => some t

/-- The domain that the scheme names. -/
def boxDomain (h : Heap) (sch : Option Scheme) : Option BoxDom := do
  let t ← skipLinks h (h.size + 1) (← sch).t
  match h.cell t with
  | .nom name _ => if name = "num" then some .num else if name = "bool" then some .bool else none
  | _ => none

/-- `\a.\b.\c.(a (b (c v)))` for a number and `\a.\b.\c.(a (c (b v)))` for a boolean. -/
def linPatBoxBuild (g : Globals) (n : Net) (v : Option Port) (dom : BoxDom) : Port × Net :=
  let a := netAlloc g n .lam 0
  let b := netAlloc g a.2 .lam 0
  let c := netAlloc g b.2 .lam 0
  let o := netAlloc g c.2 .app 0
  let m := netAlloc g o.2 .app 0
  let q := netAlloc g m.2 .app 0
  let f1 := if dom = .bool then c.1 else b.1
  let f2 := if dom = .bool then b.1 else c.1
  let n := netLink g q.2 (some ⟨a.1, 2⟩) (some ⟨b.1, 0⟩) false
  let n := netLink g n (some ⟨b.1, 2⟩) (some ⟨c.1, 0⟩) false
  let n := netLink g n (some ⟨c.1, 2⟩) (some ⟨o.1, 1⟩) false
  let n := netLink g n (some ⟨o.1, 0⟩) (some ⟨a.1, 1⟩) false
  let n := netLink g n (some ⟨o.1, 2⟩) (some ⟨m.1, 1⟩) false
  let n := netLink g n (some ⟨m.1, 0⟩) (some ⟨f1, 1⟩) false
  let n := netLink g n (some ⟨m.1, 2⟩) (some ⟨q.1, 1⟩) false
  let n := netLink g n (some ⟨q.1, 0⟩) (some ⟨f2, 1⟩) false
  (⟨a.1, 0⟩, netLink g n (some ⟨q.1, 2⟩) v false)

section Pass

variable (g : Globals) (reduce : ℕ → Net → Net) (force : Net → Port → Net)

/-- The compiler built the term at the very port that ROOT is wired to. -/
def observes (n : Net) (t : Term) (nodeOf : Term → Option Port) : Bool :=
  (nodeOf t).any fun v => decide (v.node < n.nn) && n.wireAt ⟨0, 0⟩ == some v

/-- The program evaluated at build time, `reduce` and `force` being those of the core with its drivers. -/
def evaluated (n : Net) : Net := force (reduce (n.steps + forceSteps) n) ⟨0, 0⟩

/-- The test `0 && net_read_int(..) < 0` that would decline between the two steps never holds. -/
def arithAot (h : Heap) (n : Net) (t : Term) (sch : Option Scheme) (nodeOf : Term → Option Port) : Bool × Net :=
  match boxDomain h sch with
  | none => (false, n)
  | some dom =>
    if !observes n t nodeOf then (false, n)
    else
      let m := evaluated reduce force n
      let b := linPatBoxBuild g m (m.wireAt ⟨0, 0⟩) dom
      (true, netLink g b.2 (some ⟨0, 0⟩) (some b.1) false)

/-- What ROOT is wired to reads as a value of the domain. -/
def ReadsValue (m : Net) (dom : BoxDom) : Prop :=
  ∃ fuel r m', netReadInt force fuel dom.enc (m.wireAt ⟨0, 0⟩) m = some (r, m') ∧ 0 ≤ r

/-- A box is put around a value of the scheme's domain only, and without one ROOT stays wired as it was. -/
structure BoxesValues (h : Heap) (n : Net) (t : Term) (sch : Option Scheme) (nodeOf : Term → Option Port) : Prop where
  boxed : (arithAot g reduce force h n t sch nodeOf).1 = true →
    ∃ dom, boxDomain h sch = some dom ∧ ReadsValue force (evaluated reduce force n) dom
  declined : (¬∃ dom, boxDomain h sch = some dom ∧ ReadsValue force (evaluated reduce force n) dom) →
    (arithAot g reduce force h n t sch nodeOf).1 = false ∧
      ((arithAot g reduce force h n t sch nodeOf).2.wireAt ⟨0, 0⟩ = n.wireAt ⟨0, 0⟩ ∨
        (arithAot g reduce force h n t sch nodeOf).2.wireAt ⟨0, 0⟩ = (evaluated reduce force n).wireAt ⟨0, 0⟩)

variable {g reduce force} {h : Heap} {n : Net} {t : Term} {sch : Option Scheme} {nodeOf : Term → Option Port}

lemma arithAot_boxes_iff : (arithAot g reduce force h n t sch nodeOf).1 = true ↔
    (∃ dom, boxDomain h sch = some dom) ∧ observes n t nodeOf = true := by
  unfold arithAot
  cases hd : boxDomain h sch with
  | none => simp
  | some dom => cases ho : observes n t nodeOf <;> simp

lemma arithAot_declines (hno : (arithAot g reduce force h n t sch nodeOf).1 = false) :
    (arithAot g reduce force h n t sch nodeOf).2 = n := by
  unfold arithAot at hno ⊢
  cases hd : boxDomain h sch with
  | none => rfl
  | some dom =>
    rw [hd] at hno
    cases ho : observes n t nodeOf with
    | false => simp
    | true => simp [ho] at hno

end Pass

/-- A definition `(define! main num (\a a))`: its annotation is the scheme, its net is no number. -/
def annotatedNet : Net := (compile (.lam "a" (.var "a"))).toOption.getD netInit

end LinEngine
