import LinEngine.Net
import LinEngine.Term

/-!
# Compilation of terms to nets

`ct_in` of `compile.c`, one definition for each case: a case takes the compiled
parts as functions, so that a recursive let, which compiles a term built from its
own value, needs no other recursion. The stack of variables and the current level
are passed explicitly. The compile-time position map is not modelled, and a float
or a reference without a body is not compiled here.
-/
namespace LinEngine

/-- A variable in scope: its first use is wired to `bind`, the others to placeholders. -/
structure CVar where
  name : String
  bind : Port
  count : ℕ
  extra : List Port
  deriving DecidableEq, Repr

/-- The file-level variables of `compile.c`; the innermost variable is first. -/
structure CState where
  net : Net
  cstack : List CVar
  curLvl : ℕ
  deriving DecidableEq, Repr

inductive CompileError
  | unbound (name : String)
  | noProvider
  deriving DecidableEq, Repr

abbrev CT := CState → Except CompileError (Port × CState)

def CState.alloc (s : CState) (tag : Tag) (sc : ℕ) : ℕ × CState :=
  let r := netAlloc .serial s.net tag sc
  (r.1, { s with net := r.2 })

def CState.link (s : CState) (a b : Option Port) (enqueue : Bool) : CState :=
  { s with net := netLink .serial s.net a b enqueue }

/-- Step the current level one edge down from `lvl`. -/
def CState.enter (s : CState) (lvl bit : ℕ) : CState :=
  let r := scopeApp s.net lvl bit
  { s with net := r.2, curLvl := r.1 }

def pushVar (s : CState) (name : String) (bind : Port) : CState :=
  { s with cstack := ⟨name, bind, 0, []⟩ :: s.cstack }

def CState.popVar (s : CState) : CState := { s with cstack := s.cstack.tail }

/-- A left-leaning fan tree over the ports `ts`; its root principal port. -/
def dupTreeLoop (g : Globals) (n : Net) (cur : Port) (sc : ℕ) : List (Option Port) → Port × Net
  | [] => (cur, n)
  | t :: ts =>
    let d := netAlloc g n .dup sc
    let n := netLink g d.2 (some ⟨d.1, 1⟩) (some cur) false
    let n := netLink g n (some ⟨d.1, 2⟩) t false
    dupTreeLoop g n ⟨d.1, 0⟩ sc ts

/-- Callers pass two ports or more. -/
def dupTree (g : Globals) (n : Net) (ts : List (Option Port)) (sc : ℕ) : Option Port × Net :=
  match ts with
  | [] => (none, n)
  | [t] => (t, n)
  | t0 :: t1 :: ts =>
    let d := netAlloc g n .dup sc
    let n := netLink g d.2 (some ⟨d.1, 1⟩) t0 false
    let n := netLink g n (some ⟨d.1, 2⟩) t1 false
    let r := dupTreeLoop g n ⟨d.1, 0⟩ sc ts
    (some r.1, r.2)

/-- Spend a placeholder: where its port 1 led. -/
def spendExtra (n : Net) (p : Port) : Option Port × Net :=
  (n.wireAt ⟨p.node, 1⟩,
    ({ n with dead := n.dead.set p.node true }).setWire ⟨p.node, 1⟩ none)

def spendExtras (n : Net) : List Port → List (Option Port) × Net
  | [] => ([], n)
  | p :: ps =>
    let r := spendExtra n p
    let rs := spendExtras r.2 ps
    (r.1 :: rs.1, rs.2)

/-- Where a variable's uses went: the first through its bind port, then the placeholders. -/
def usePorts (n : Net) (e : CVar) (bind : Port) : List (Option Port) × Net :=
  let rs := spendExtras n e.extra
  (n.wireAt bind :: rs.1, rs.2)

/-! ## Numerals -/

def netAllocBool (g : Globals) (n : Net) (val : Bool) : Port × Net :=
  let bt := netAlloc g n .lam 0
  let bf := netAlloc g bt.2 .lam 0
  let n := netLink g bf.2 (some ⟨bt.1, 2⟩) (some ⟨bf.1, 0⟩) false
  let n := netLink g n (some ⟨bf.1, 2⟩) (some ⟨if val then bt.1 else bf.1, 1⟩) false
  (⟨bt.1, 0⟩, n)

/-- How many bits of `k` the builder writes: at least one, at most 62. -/
def scottWidthLoop (k : ℕ) : ℕ → ℕ → ℕ
  | 0, w => w
  | fuel + 1, w => if k / 2 ^ w ≠ 0 ∧ w < 62 then scottWidthLoop k fuel (w + 1) else w

def scottWidth (k : ℕ) : ℕ := scottWidthLoop k 62 1

/-- One cell of a bit chain in front of `cur`. -/
def scottCell (g : Globals) (n : Net) (lvl : ℕ) (bit : Bool) (cur : Port) : Port × Net :=
  let f := scopeApp n lvl 1
  let a := scopeApp f.2 lvl 2
  let b := netAllocBool g a.2 bit
  let c := netAlloc g b.2 .lam f.1
  let s := scopeApp c.2 f.1 1
  let nn := netAlloc g s.2 .lam s.1
  let i := netAlloc g nn.2 .app f.1
  let ou := netAlloc g i.2 .app a.1
  let n := netLink g ou.2 (some ⟨c.1, 2⟩) (some ⟨nn.1, 0⟩) false
  let n := netLink g n (some ⟨nn.1, 2⟩) (some ⟨ou.1, 1⟩) false
  let n := netLink g n (some ⟨ou.1, 0⟩) (some ⟨i.1, 1⟩) false
  let n := netLink g n (some ⟨ou.1, 2⟩) (some cur) false
  let n := netLink g n (some ⟨i.1, 0⟩) (some ⟨c.1, 1⟩) false
  let n := netLink g n (some ⟨i.1, 2⟩) (some b.1) false
  (⟨c.1, 0⟩, n)

/-- The cells for the lowest `w` bits of `k`, the highest one built first. -/
def scottCells (g : Globals) (lvl k : ℕ) : ℕ → Port × Net → Port × Net
  | 0, s => s
  | w + 1, s => scottCells g lvl k w (scottCell g s.2 lvl (k.testBit w) s.1)

/-- A numeral as a chain of bits; `k` is never negative where the compiler calls it. -/
def allocScott (g : Globals) (n : Net) (k lvl : ℕ) : Port × Net :=
  let bl := scopeApp n lvl 1
  let nl := netAlloc g bl.2 .lam lvl
  let n2 := netAlloc g nl.2 .lam bl.1
  let n := netLink g n2.2 (some ⟨nl.1, 2⟩) (some ⟨n2.1, 0⟩) false
  let t := netAllocBool g n true
  let n := netLink g t.2 (some ⟨n2.1, 2⟩) (some t.1) false
  scottCells g lvl k (scottWidth k) (⟨nl.1, 0⟩, n)

/-- `LONG_MAX`, to which `atol` clamps. -/
def longMax : ℕ := 2 ^ 63 - 1

/-! ## The cases of `ct_in` -/

/-- The first use of a variable is its bind port; another one makes a placeholder. -/
def useVar (s : CState) (pre : List CVar) (e : CVar) (post : List CVar) : Port × CState :=
  if e.count = 0 then
    (e.bind, { s with cstack := pre ++ { e with count := 1 } :: post })
  else
    let ph := s.alloc .era 0
    (⟨ph.1, 1⟩, { ph.2 with
      cstack := pre ++ { e with count := e.count + 1, extra := e.extra ++ [⟨ph.1, 1⟩] } :: post })

/-- Search the stack from the innermost variable outwards. -/
def ctVarLoop (s : CState) (name : String) (pre : List CVar) :
    List CVar → Except CompileError (Port × CState)
  | [] => .error (.unbound name)
  | e :: post =>
    if e.name = name then .ok (useVar s pre e post) else ctVarLoop s name (pre ++ [e]) post

def ctVar (name : String) : CT := fun s => ctVarLoop s name [] s.cstack

def ctNum (value : ℕ) : CT := fun s =>
  let r := allocScott .serial s.net (min value longMax) s.curLvl
  .ok (r.1, { s with net := r.2 })

/-- Wire a binder that is used more than once to a fan tree over its uses. -/
def fanOut (s : CState) (self lvl : ℕ) : CState :=
  match s.cstack with
  | [] => s
  | e :: _ =>
    if 1 < e.count then
      let ts := usePorts s.net e ⟨self, 1⟩
      let d := dupTree .serial ts.2 ts.1 lvl
      { s with net := netLink .serial d.2 (some ⟨self, 1⟩) d.1 false }
    else s

def ctLam (name : String) (body : CT) : CT := fun s => do
  let self := s.alloc .lam s.curLvl
  let lvl := scopeApp self.2.net s.curLvl 1
  let s1 := pushVar { self.2 with net := lvl.2 } name ⟨self.1, 1⟩
  let b ← body (s1.enter s.curLvl 1)
  let s2 := { b.2 with curLvl := s.curLvl }.link (some ⟨self.1, 2⟩) (some b.1) false
  .ok (⟨self.1, 0⟩, (fanOut s2 self.1 lvl.1).popVar)

def ctApp (f a : CT) : CT := fun s => do
  let self := s.alloc .app s.curLvl
  let l ← f (self.2.enter s.curLvl 1)
  let r ← a ((l.2.link (some ⟨self.1, 0⟩) (some l.1) true).enter s.curLvl 2)
  .ok (⟨self.1, 1⟩, { r.2.link (some ⟨self.1, 2⟩) (some r.1) true with curLvl := s.curLvl })

/-- The compiled `\_fix_x._fix_h (_fix_x _fix_x)`. -/
def ctFixLam : CT :=
  ctLam "_fix_x" (ctApp (ctVar "_fix_h") (ctApp (ctVar "_fix_x") (ctVar "_fix_x")))

/-- The compiled fixpoint of `\name.v`. -/
def ctFix (name : String) (v : CT) : CT :=
  ctApp (ctLam "_fix_h" (ctApp ctFixLam ctFixLam)) (ctLam name v)

/-- Tie the uses of a let's name, collected on the placeholder `ph`, to its value. -/
def tieLet (s : CState) (save ph : ℕ) (val body : Port) : Port × CState :=
  match s.cstack with
  | [] => (body, s)
  | e :: _ =>
    if e.count = 1 then
      if body = ⟨ph, 1⟩ then (val, s)
      else
        match s.net.wireAt ⟨ph, 1⟩ with
        | none => (body, s)
        | some use0 =>
          if use0 ≠ val then (body, s.link (some use0) (some val) true) else (body, s)
    else if 1 < e.count then
      let ts := usePorts s.net e ⟨ph, 1⟩
      let lvl := scopeApp ts.2 save 2
      let d := dupTree .serial lvl.2 ts.1 lvl.1
      (body, { s with net := netLink .serial d.2 d.1 (some val) true })
    else (body, s)

/-- Spend the placeholder of a let. -/
def CState.spend (s : CState) (ph : ℕ) : CState :=
  { s with net := ({ s.net with dead := s.net.dead.set ph true }).setWire ⟨ph, 1⟩ none }

/-- Whether a let ties the value `v` into a fixpoint: the name is not in scope and the
value refers to it. -/
def letFix (s : CState) (name : String) (v : Term) : Bool :=
  !s.cstack.any (·.name == name) && termRefs name v

/-- The value is compiled before the let's own name is pushed, except where the name
is neither in scope nor referred to. -/
def ctLet (name : String) (v : Term) (value body : CT) : CT := fun s => do
  let outer := s.cstack.any (·.name == name)
  let fix := letFix s name v
  let compileVal := if fix then ctFix name value else value
  if outer || fix then
    let v ← compileVal (s.enter s.curLvl 2)
    let ph := v.2.alloc .era 0
    let b ← body ((pushVar ph.2 name ⟨ph.1, 1⟩).enter s.curLvl 1)
    let r := tieLet { b.2 with curLvl := s.curLvl } s.curLvl ph.1 v.1 b.1
    .ok (r.1, (r.2.spend ph.1).popVar)
  else
    let ph := s.alloc .era 0
    let v ← value ((pushVar ph.2 name ⟨ph.1, 1⟩).enter s.curLvl 2)
    let b ← body (v.2.enter s.curLvl 1)
    let r := tieLet { b.2 with curLvl := s.curLvl } s.curLvl ph.1 v.1 b.1
    .ok (r.1, (r.2.spend ph.1).popVar)

def ct : Term → CT
  | .var x => ctVar x
  | .lam x b => ctLam x (ct b)
  | .app f a => ctApp (ct f) (ct a)
  | .tlet x v b => ctLet x v (ct v) (ct b)
  | .num k => ctNum k
  | .defn _ b => ct b
  | .float _ => fun _ => .error .noProvider
  | .ref _ => fun _ => .error .noProvider

/-- The net of a term, or why it has none. -/
def compile (t : Term) : Except CompileError Net := do
  let r ← ct t ⟨netInit, [], 0⟩
  .ok (netLink .serial r.2.net (some ⟨0, 0⟩) (some r.1) false)

/-- The fixpoint is compiled as the term `termFix` builds. -/
theorem ct_termFix (name : String) (v : Term) : ct (termFix name v) = ctFix name (ct v) := rfl

end LinEngine
