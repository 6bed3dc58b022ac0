import LinEngine.Table

/-!
# The interaction net and its four rules

The bottom layer: the net record of `lin.h` and the functions of `net.c` that the
rules are made of, with the state passed explicitly. A port is a node index and
one of three ports; the port value `{-1,0}` is `none`. Node storage is a growable
table, so reserving room is not modelled. The level trie is a list whose entry
`l - 1` is level `l`; its hash index only speeds up the lookup and is not part of
this layer. No driver is registered.
-/
namespace LinEngine

/-! Port numbers are literals of `Fin 3`, the auxiliaries and the ports of a pair those of
`Fin 4` and `Fin 6`; a named instance keeps such a literal one term in every module. -/

instance neZeroTwo : NeZero 2 := ⟨by decide⟩
instance neZeroThree : NeZero 3 := ⟨by decide⟩
instance neZeroFour : NeZero 4 := ⟨by decide⟩
instance neZeroSix : NeZero 6 := ⟨by decide⟩
instance lawfulFour : LawfulBEq (Fin 4) := inferInstance

inductive Tag
  | lam | app | dup | era | root
  deriving DecidableEq, Repr

/-- The enumeration order, which is the order the rules sort a pair in. -/
def Tag.rank : Tag → ℕ
  | lam => 0
  | app => 1
  | dup => 2
  | era => 3
  | root => 4

structure Port where
  node : ℕ
  port : Fin 3
  deriving DecidableEq, Repr

/-- A level of the trie: the edge into it, and its distance from the root level. -/
structure Level where
  parent : ℕ
  bit : ℕ
  depth : ℕ
  deriving DecidableEq, Repr

structure Net where
  nn : ℕ
  tag : Table Tag .era
  wire : Table (Option Port) none
  scope : Table ℕ 0
  dead : Table Bool false
  act : Table Port ⟨0, 0⟩
  atop : ℕ
  actOf : Table (Option ℕ) none
  levels : List Level
  root : List Port
  freeHead : Option ℕ
  nfree : ℤ
  pendHead : Option ℕ
  pins : ℕ
  dem : Table ℕ 0
  demStamp : ℕ
  vport : Table ℕ 0
  tact : Table (List (Port × Port)) []
  steps : ℕ
  deriving DecidableEq, Repr

/-- The file-level variables of `net.c` that the rules consult. -/
structure Globals where
  inParallel : Bool
  reduceDepth : ℕ
  noret : Bool
  myTid : ℕ

/-- The engine between two waves: serial, not nested, retiring what it consumes. -/
def Globals.serial : Globals := ⟨false, 0, false, 0⟩

namespace Net

/-- The macro `WIRE(n, p)`. -/
def wireAt (n : Net) (p : Port) : Option Port := n.wire.get (p.node * 3 + p.port)

def setWire (n : Net) (p : Port) (w : Option Port) : Net :=
  { n with wire := n.wire.set (p.node * 3 + p.port) w }

def inNet (n : Net) (v : ℕ) : Bool := decide (v < n.nn)

/-- A node in the net that no rule has consumed and no collection freed. -/
def live (n : Net) (v : ℕ) : Bool := n.inNet v && !n.dead.get v

end Net

def portsOf (v : ℕ) : List Port := [⟨v, 0⟩, ⟨v, 1⟩, ⟨v, 2⟩]

/-! ## The level trie -/

def lvDepth (n : Net) (l : ℕ) : ℕ := if l = 0 then 0 else (n.levels[l - 1]?.map (·.depth)).getD 0

def lvUp (n : Net) (l : ℕ) : ℕ := if l = 0 then 0 else (n.levels[l - 1]?.map (·.parent)).getD 0

def lvBit (n : Net) (l : ℕ) : ℕ := if l = 0 then 0 else (n.levels[l - 1]?.map (·.bit)).getD 0

/-- The level one edge below `parent`; a new edge gets the next id. -/
def lvIntern (n : Net) (parent bit : ℕ) : ℕ × Net :=
  let i := n.levels.findIdx (fun l => l.parent == parent && l.bit == bit)
  if i < n.levels.length then (i + 1, n)
  else (n.levels.length + 1, { n with levels := n.levels ++ [⟨parent, bit,
    if parent = 0 then 1 else lvDepth n parent + 1⟩] })

def scopeApp (n : Net) (s bit : ℕ) : ℕ × Net := lvIntern n s (bit % 2)

/-- The last `d` edges of the path from the root level down to `l`. -/
def lvlPathLoop (n : Net) : ℕ → ℕ → List ℕ
  | 0, _ => []
  | d + 1, l => lvlPathLoop n d (lvUp n l) ++ [lvBit n l]

def lvlPath (n : Net) (s : ℕ) : List ℕ := lvlPathLoop n (lvDepth n s) s

/-- Intern a path edge by edge below `cur`. -/
def lvInternPath (n : Net) (cur : ℕ) : List ℕ → ℕ × Net
  | [] => (cur, n)
  | b :: bs =>
    let r := lvIntern n cur b
    lvInternPath r.2 r.1 bs

/-- The commutation label: the path `gen`, then the path of `a`, then that of `b`. -/
def lvlPrefix2 (n : Net) (gen a b : ℕ) : ℕ × Net :=
  let r := lvIntern n 0 gen
  lvInternPath r.2 r.1 (lvlPath n a ++ lvlPath n b)

/-! ## Allocation and the active queue -/

/-- Hand out a node: a reclaimed slot outside a threaded wave, otherwise a new one. -/
def netAlloc (g : Globals) (n : Net) (tag : Tag) (sc : ℕ) : ℕ × Net :=
  let r : ℕ × Net :=
    match g.inParallel, n.freeHead with
    | false, some id => (id, { n with
        freeHead := (n.wireAt ⟨id, 0⟩).map (·.node), nfree := n.nfree - 1,
        dem := n.dem.set id 0, vport := n.vport.set id 0 })
    | _, _ => (n.nn, { n with nn := n.nn + 1 })
  let id := r.1
  let n := { r.2 with
    tag := r.2.tag.set id tag, dead := r.2.dead.set id false, scope := r.2.scope.set id sc }
  (id, ((n.setWire ⟨id, 0⟩ none).setWire ⟨id, 1⟩ none).setWire ⟨id, 2⟩ none)

/-- Queue a pair unless one of its ends is queued already. -/
def actPush (n : Net) (a b : Port) : Net :=
  if (n.actOf.get a.node).isSome || (n.actOf.get b.node).isSome then n
  else { n with
    act := (n.act.set n.atop a).set (n.atop + 1) b
    atop := n.atop + 2
    actOf := (n.actOf.set b.node (some n.atop)).set a.node (some n.atop) }

/-- Take the pair of node `v` out of the queue: the last pair moves into the hole. -/
def actDrop (g : Globals) (n : Net) (v : ℕ) : Net :=
  match n.actOf.get v with
  | none => n
  | some i =>
    if g.inParallel then n
    else
      let p := if (n.act.get i).node = v then i + 1 else i
      let actOf := (n.actOf.set (n.act.get p).node none).set v none
      let last := n.atop - 2
      if i = last then { n with actOf := actOf, atop := last }
      else
        let act := (n.act.set i (n.act.get last)).set (i + 1) (n.act.get (last + 1))
        { n with
          act := act
          actOf := (actOf.set (act.get (i + 1)).node (some i)).set (act.get i).node (some i)
          atop := last }

/-! ## Wiring and reclamation -/

def netLink (g : Globals) (n : Net) (a b : Option Port) (enqueue : Bool) : Net :=
  match a, b with
  | some a, some b =>
    let n := (n.setWire a (some b)).setWire b (some a)
    if enqueue && a.port == 0 && b.port == 0 then
      if g.inParallel then { n with tact := n.tact.set g.myTid (n.tact.get g.myTid ++ [(a, b)]) }
      else actPush n a b
    else n
  | _, _ => n

/-- How many ports of `v` lead to a live node. -/
def degLive (n : Net) (v : ℕ) : ℕ :=
  (portsOf v).countP (fun p => (n.wireAt p).any (fun w => n.live w.node))

/-- No live node is still wired to `v`. -/
def unowned (n : Net) (v : ℕ) : Bool :=
  (portsOf v).all (fun p => (n.wireAt p).all (fun w => !n.live w.node || n.wireAt w != some p))

/-- Cut one port of a node being freed; a partner left with no live wire joins the worklist. -/
def releasePort (s : Net × List ℕ) (p : Port) : Net × List ℕ :=
  let n := s.1.setWire p none
  match s.1.wireAt p with
  | none => (n, s.2)
  | some w =>
    if n.inNet w.node then
      let n := if n.wireAt w = some p then n.setWire w none else n
      if !n.dead.get w.node && degLive n w.node == 0 then
        ({ n with dead := n.dead.set w.node true }, w.node :: s.2)
      else (n, s.2)
    else (n, s.2)

/-- Put a freed slot on the pending list, threaded through its port 0. -/
def pendPush (n : Net) (u : ℕ) : Net :=
  let n := { n with tag := n.tag.set u .era }
  let n := n.setWire ⟨u, 0⟩ (n.pendHead.map (⟨·, 0⟩))
  { n with pendHead := some u, nfree := n.nfree + 1 }

def releaseLoop : ℕ → List ℕ → Net → Net
  | 0, _, n => n
  | _ + 1, [], n => n
  | fuel + 1, u :: st, n =>
    let s := (portsOf u).foldl releasePort (n, st)
    releaseLoop fuel s.2 (pendPush s.1 u)

/-- Free `v`, which the caller has marked dead, and all that loses its last live wire with it.
Every node enters the worklist at most once, when it is marked dead. -/
def releaseNow (n : Net) (v : ℕ) : Net := releaseLoop (n.nn + 2) [v] n

def netRelease (g : Globals) (n : Net) (v : ℕ) : Net :=
  if !n.live v then n
  else if !unowned n v then n
  else if g.inParallel || n.pins != 0 then n
  else releaseNow (actDrop g { n with dead := n.dead.set v true } v) v

/-- Cut the wire at `p` at both ends and free an end that has no live wire left. -/
def netSever (g : Globals) (n : Net) (p : Port) : Net :=
  if !n.inNet p.node then n
  else
    let w := n.wireAt p
    let n := n.setWire p none
    match w with
    | none => if degLive n p.node = 0 then netRelease g n p.node else n
    | some w =>
      let n := if n.inNet w.node && n.wireAt w == some p then n.setWire w none else n
      let n := if degLive n p.node = 0 then netRelease g n p.node else n
      if n.inNet w.node && degLive n w.node == 0 then netRelease g n w.node else n

/-- Retire the two nodes a rule consumed, and the demand roots that named them. -/
def retire (g : Globals) (n : Net) (a b : ℕ) : Net :=
  let n := { n with dead := (n.dead.set a true).set b true }
  let n := actDrop g (actDrop g n a) b
  let n := { n with root := n.root.filter (fun p => p.node != a && p.node != b) }
  if decide (1 < g.reduceDepth) || n.pins != 0 || g.inParallel || g.noret then n
  else releaseNow (releaseNow n a) b

/-! ## The boundary of a pair

The pair's six ports are numbered 0 to 5; the union-find of the source runs on
those six numbers. -/

def pfind (u : List ℕ) : ℕ → ℕ → ℕ × List ℕ
  | 0, x => (x, u)
  | fuel + 1, x =>
    if u.getD x x = x then (x, u)
    else
      let u := u.set x (u.getD (u.getD x x) x)
      pfind u fuel (u.getD x x)

def punion (u : List ℕ) (a b : ℕ) : List ℕ :=
  let ra := pfind u 6 a
  let rb := pfind ra.2 6 b
  if ra.1 = rb.1 then rb.2 else rb.2.set rb.1 ra.1

/-- Port `i` of the pair `n1`, `n2`. -/
def pairPort (n1 n2 : ℕ) (i : Fin 6) : Port :=
  match i with
  | 0 => ⟨n1, 0⟩
  | 1 => ⟨n1, 1⟩
  | 2 => ⟨n1, 2⟩
  | 3 => ⟨n2, 0⟩
  | 4 => ⟨n2, 1⟩
  | 5 => ⟨n2, 2⟩

/-- Which of the pair's ports a wire leads to, if it stays inside the pair. -/
def insidePair (n1 n2 : ℕ) (w : Option Port) : Option ℕ :=
  match w with
  | none => none
  | some w => if w.node = n1 then some w.port else if w.node = n2 then some (3 + w.port) else none

/-- The classes of the six ports under the inside wires `inner` and the rule's
correspondence, each in ascending order and listed by representative. -/
def pairClasses (inner : Fin 6 → Option ℕ) (cor : List (ℕ × ℕ)) : List (List (Fin 6)) :=
  let u := (List.finRange 6).foldl
    (fun u i => match inner i with | none => u | some j => punion u i j) (List.range 6)
  let u := cor.foldl (fun u c => punion u c.1 c.2) u
  (List.finRange 6).filterMap fun i =>
    if (pfind u 6 i).1 = i then
      some ((List.finRange 6).filter (fun j => (pfind u 6 j).1 == (i : ℕ)))
    else none

/-- Join the two outside ends of a class, or cut its only one. -/
def joinClass (g : Globals) (n1 n2 : ℕ) (n : Net) (cls : List (Fin 6)) : Net :=
  let ends := cls.filterMap fun j =>
    let w := n.wireAt (pairPort n1 n2 j)
    if (insidePair n1 n2 w).isSome then none else w
  match ends with
  | [e] => netSever g n e
  | [e, e'] => netLink g n (some e) (some e') true
  | _ => n

/-- Every caller passes `link = 1` and no target array. -/
def pairBoundary (g : Globals) (n : Net) (n1 n2 : ℕ) (cor : List (ℕ × ℕ)) : Net :=
  let inner := fun i => insidePair n1 n2 (n.wireAt (pairPort n1 n2 i))
  (pairClasses inner cor).foldl (joinClass g n1 n2) n

/-! ## The rules -/

/-- The four nodes a duplication rule makes. -/
structure Copies where
  m1 : ℕ
  m2 : ℕ
  d1 : ℕ
  d2 : ℕ
  deriving DecidableEq, Repr

def split2 (g : Globals) (n : Net) (t1 : Tag) (s1a s1b : ℕ) (t2 : Tag) (s2 : ℕ) : Copies × Net :=
  let r1 := netAlloc g n t1 s1a
  let r2 := netAlloc g r1.2 t1 s1b
  let r3 := netAlloc g r2.2 t2 s2
  let r4 := netAlloc g r3.2 t2 s2
  let (m1, m2, d1, d2) := (r1.1, r2.1, r3.1, r4.1)
  let n := netLink g r4.2 (some ⟨d1, 1⟩) (some ⟨m1, 1⟩) false
  let n := netLink g n (some ⟨d1, 2⟩) (some ⟨m2, 1⟩) false
  let n := netLink g n (some ⟨d2, 1⟩) (some ⟨m1, 2⟩) false
  let n := netLink g n (some ⟨d2, 2⟩) (some ⟨m2, 2⟩) false
  (⟨m1, m2, d1, d2⟩, n)

/-- The auxiliary of the pair a target names, numbered 0 to 3. -/
def auxIndex (n1 n2 : ℕ) (t : Option Port) : Option (Fin 4) :=
  match t with
  | none => none
  | some t =>
    if t.node = n1 then (if t.port = 1 then some 0 else some 1)
    else if t.node = n2 then (if t.port = 1 then some 2 else some 3)
    else none

/-- Hand the auxiliaries `t` of the pair to the copies `cp`: two that are shorted
to each other become one wire between their copies. -/
def linkCopies (g : Globals) (n : Net) (n1 n2 : ℕ) (t : Fin 4 → Option Port)
    (cp : Fin 4 → ℕ) : Net :=
  let s := (List.finRange 4).foldl (fun (s : Net × List (Fin 4)) k =>
    match auxIndex n1 n2 (t k) with
    | none => s
    | some m =>
      if m ≤ k ∨ k ∈ s.2 then s
      else (netLink g s.1 (some ⟨cp k, 0⟩) (some ⟨cp m, 0⟩) true, k :: m :: s.2)) (n, [])
  (List.finRange 4).foldl (fun n k =>
    if k ∈ s.2 then n else netLink g n (some ⟨cp k, 0⟩) (t k) true) s.1

/-- What the four auxiliaries of the pair are wired to before a duplication rule. -/
def auxTargets (n : Net) (n1 n2 : ℕ) (k : Fin 4) : Option Port :=
  match k with
  | 0 => n.wireAt ⟨n1, 1⟩
  | 1 => n.wireAt ⟨n1, 2⟩
  | 2 => n.wireAt ⟨n2, 1⟩
  | 3 => n.wireAt ⟨n2, 2⟩

/-- The copy that takes the place of each auxiliary. -/
def Copies.at (c : Copies) (k : Fin 4) : ℕ :=
  match k with
  | 0 => c.d1
  | 1 => c.d2
  | 2 => c.m1
  | 3 => c.m2

/-- The rule for the pair `n1`, `n2` in tag order; the flag is the C return value. -/
def interactSorted (g : Globals) (n : Net) (n1 n2 : ℕ) : Bool × Net :=
  match n.tag.get n1, n.tag.get n2 with
  | .lam, .app => (true, retire g (pairBoundary g n n1 n2 [(1, 5), (2, 4)]) n1 n2)
  | .dup, .dup =>
    let (sa, sb) := (n.scope.get n1, n.scope.get n2)
    if sa = sb then (true, retire g (pairBoundary g n n1 n2 [(1, 4), (2, 5)]) n1 n2)
    else
      let r := split2 g n .dup sa sa .dup sb
      (true, retire g (linkCopies g r.2 n1 n2 (auxTargets n n1 n2) r.1.at) n1 n2)
  | t1, .dup =>
    if t1 = .lam ∨ t1 = .app then
      let (sn, sd) := (n.scope.get n1, n.scope.get n2)
      let l1 := lvlPrefix2 n 1 sn sd
      let l2 := lvlPrefix2 l1.2 2 sn sd
      let r := split2 g l2.2 t1 l1.1 l2.1 .dup sd
      (true, retire g (linkCopies g r.2 n1 n2 (auxTargets n n1 n2) r.1.at) n1 n2)
    else (false, n)
  | _, _ => (false, n)

/-- Fire the pair, sorted by tag; an inert pair is left alone. -/
def netInteract (g : Globals) (n : Net) (p1 p2 : Port) : Bool × Net :=
  if (n.tag.get p2.node).rank < (n.tag.get p1.node).rank then
    interactSorted g n p2.node p1.node
  else interactSorted g n p1.node p2.node

/-- Both ends alive and still wired principal to principal. -/
def redexLive (n : Net) (p1 p2 : Port) : Bool :=
  n.live p1.node && n.live p2.node && p1.port == 0 && p2.port == 0 &&
    n.wireAt p1 == some p2 && n.wireAt p2 == some p1

/-! ## A fresh net -/

/-- The record before its ROOT node exists. -/
def Net.blank : Net where
  nn := 0
  tag := .empty
  wire := .empty
  scope := .empty
  dead := .empty
  act := .empty
  atop := 0
  actOf := .empty
  levels := []
  root := []
  freeHead := none
  nfree := 0
  pendHead := none
  pins := 0
  dem := .empty
  demStamp := 0
  vport := .empty
  tact := .empty
  steps := 0

def netInit : Net := (netAlloc .serial .blank .root 0).2

end LinEngine
