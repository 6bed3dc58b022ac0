import LinEngine.Wp
import LinEngine.Table

/-!
# The e-graph of a build

The optimizer of `compile.c`: a term is put into an e-graph, the rewrite rules unite
classes of it, and the cheapest term of the root's class is read back. The hash table
over the nodes only finds an equal node, and is a search here; the counters of the rules
are only printed and are left out. Costs are exact.

Every version of the graph is recorded, and so is a recursion that is cut off at its depth
limit. The other loops and recursions have no limit in the source; they stop here with
an error once they are longer than there are classes.
-/
namespace LinEngine

/-- The kinds that have no children in the graph. -/
inductive EgOpaque
  | tdef
  | tdefx
  | tfloat
  | tnum
  deriving DecidableEq, Repr

/-- The expanded terms as the pass reads them. A directive has no type, so none gets here. -/
inductive ETerm
  | var (name : String)
  | lam (name : String) (l : ETerm)
  | app (l r : ETerm)
  | tlet (name : String) (l r : ETerm)
  | leaf (kind : EgOpaque) (name : String)
  deriving DecidableEq, Repr

/-- A node; its children are classes. -/
inductive ENode
  | var (name : String)
  | lam (name : String) (l : ℕ)
  | app (l r : ℕ)
  | tlet (name : String) (l r : ℕ)
  | leaf (kind : EgOpaque) (name : String)
  deriving DecidableEq, Repr, Inhabited

structure EClass where
  parent : ℕ
  bestNode : ℕ
  cost : ℕ
  deriving DecidableEq, Repr

structure EGraph where
  nodes : Table ENode (.var "")
  nn : ℕ
  classes : Table EClass ⟨0, 0, 0⟩
  nc : ℕ
  nodeCls : Table ℕ 0
  capture : Bool
  deriving DecidableEq, Repr

namespace EGraph

def parent (g : EGraph) (c : ℕ) : ℕ := (g.classes.get c).parent

def cost (g : EGraph) (c : ℕ) : ℕ := (g.classes.get c).cost

/-- The node that extraction takes for a class. -/
def best (g : EGraph) (c : ℕ) : ENode := g.nodes.get (g.classes.get c).bestNode

def setParent (g : EGraph) (c p : ℕ) : EGraph :=
  { g with classes := g.classes.set c { g.classes.get c with parent := p } }

/-- The node `i` becomes the best one of the class `c`. -/
def setBest (g : EGraph) (c i cost : ℕ) : EGraph :=
  { g with classes := g.classes.set c { g.classes.get c with bestNode := i, cost := cost } }

/-- A class of its own for a new node. -/
def addClass (g : EGraph) (n : ENode) (cost : ℕ) : EGraph :=
  { g with
    nodes := g.nodes.set g.nn n
    nn := g.nn + 1
    nodeCls := g.nodeCls.set g.nn g.nc
    classes := g.classes.set g.nc ⟨g.nc, g.nn, cost⟩
    nc := g.nc + 1 }

/-- `EGraph g = {0}`. -/
def empty : EGraph := ⟨.empty, 0, .empty, 0, .empty, false⟩

end EGraph

/-- The graph, every version it has had, and whether a recursion was cut off. -/
structure EgRun where
  graph : EGraph
  points : List EGraph
  cut : Bool

/-- A loop or a recursion is longer than there are classes. -/
inductive Overrun
  | overrun
  deriving DecidableEq, Repr

abbrev EgM := EStateM Overrun EgRun

def theGraph : EgM EGraph := do return (← get).graph

def putGraph (g : EGraph) : EgM Unit := modify fun s => { s with graph := g, points := g :: s.points }

def cutOff : EgM Unit := modify fun s => { s with cut := true }

def setCapture (b : Bool) : EgM Unit := do putGraph { (← theGraph) with capture := b }

/-! ## Classes -/

def egFindLoop : ℕ → ℕ → EgM ℕ
  | 0, _ => throw .overrun
  | fuel + 1, c => do
    let g ← theGraph
    if g.parent c = c then return c
    else do
      putGraph (g.setParent c (g.parent (g.parent c)))
      egFindLoop fuel (g.parent (g.parent c))

def egFind (c : ℕ) : EgM ℕ := do egFindLoop (← theGraph).nc c

def egUnion (c1 c2 : ℕ) : EgM Unit := do
  let c1 ← egFind c1
  let c2 ← egFind c2
  if c1 = c2 then return ()
  else do
    let g ← theGraph
    if g.cost c1 ≤ g.cost c2 then putGraph (g.setParent c2 c1) else putGraph (g.setParent c1 c2)

/-- Cost of a form: what the extracted term will weigh. -/
def egCost : ENode → EgM ℕ
  | .var _ => return 1
  | .leaf _ _ => return 1
  | .lam _ l => do
    let l ← egFind l
    return 2 + (← theGraph).cost l
  | .app l r => do
    let l ← egFind l
    let cl := (← theGraph).cost l
    let r ← egFind r
    return 3 + cl + (← theGraph).cost r
  | .tlet _ l r => do
    let l ← egFind l
    let cl := (← theGraph).cost l
    let r ← egFind r
    return 3 + cl + (← theGraph).cost r

/-- The node with its children found. -/
def egCanon : ENode → EgM ENode
  | .var x => return .var x
  | .leaf k x => return .leaf k x
  | .lam x l => do return .lam x (← egFind l)
  | .app l r => do
    let l ← egFind l
    return .app l (← egFind r)
  | .tlet x l r => do
    let l ← egFind l
    return .tlet x l (← egFind r)

def egLookup (g : EGraph) (n : ENode) : Option ℕ := (List.range g.nn).find? fun i => g.nodes.get i == n

def egAdd (n : ENode) : EgM ℕ := do
  let n ← egCanon n
  let g ← theGraph
  match egLookup g n with
  | some hit => egFind (g.nodeCls.get hit)
  | none => do
    let cost ← egCost n
    let g ← theGraph
    putGraph (g.addClass n cost)
    return g.nc

/-! ## Terms -/

/-- Two arguments of a call, in the order the compiler takes them. -/
def egArgs {α β : Type} (rightFirst : Bool) (l : EgM α) (r : EgM β) : EgM (α × β) :=
  if rightFirst then do
    let b ← r
    return (← l, b)
  else do
    let a ← l
    return (a, ← r)

def egAddTerm (rightFirst : Bool) : ETerm → EgM ℕ
  | .var x => egAdd (.var x)
  | .lam x l => do egAdd (.lam x (← egAddTerm rightFirst l))
  | .app l r => do
    let (l, r) ← egArgs rightFirst (egAddTerm rightFirst l) (egAddTerm rightFirst r)
    egAdd (.app l r)
  | .tlet x l r => do
    let (l, r) ← egArgs rightFirst (egAddTerm rightFirst l) (egAddTerm rightFirst r)
    egAdd (.tlet x l r)
  | .leaf k x => egAdd (.leaf k x)

/-- The best node of a class. -/
def egBest (c : ℕ) : EgM ENode := do return (← theGraph).best c

def egHasVarLoop (name : String) : ℕ → ℕ → EgM Bool
  | 0, _ => throw .overrun
  | fuel + 1, c => do
    match ← egBest (← egFind c) with
    | .var x => return x == name
    | .lam x l => if x == name then return false else egHasVarLoop name fuel l
    | .app l r => do if ← egHasVarLoop name fuel l then return true else egHasVarLoop name fuel r
    | .tlet _ _ _ => return true
    | .leaf _ _ => return false

def egHasVar (c : ℕ) (name : String) : EgM Bool := do egHasVarLoop name (← theGraph).nc c

/-- Substitute `arg` for `name`; `left` is how many levels the limit leaves, `lim + 1 - d`. -/
def egSubst (rightFirst : Bool) (name : String) (arg : ℕ) : ℕ → ℕ → EgM ℕ
  | 0, c => do
    cutOff
    setCapture true
    return c
  | left + 1, c => do
    let c ← egFind c
    match ← egBest c with
    | .var x => return if x == name then arg else c
    | .lam x l =>
      if x == name then return c
      else do
        if ← egHasVar arg x then
          -- the binder would capture a variable of the argument
          setCapture true
          return c
        else egAdd (.lam x (← egSubst rightFirst name arg left l))
    | .app l r => do
      let (l, r) ← egArgs rightFirst (egSubst rightFirst name arg left l) (egSubst rightFirst name arg left r)
      egAdd (.app l r)
    | .tlet _ _ _ => do
      setCapture true
      return c
    | .leaf _ _ => return c

/-! ## Rules -/

inductive EgKind
  | beta
  | eta
  deriving DecidableEq, Repr

structure EgRule where
  kind : EgKind
  param : ℕ
  on : Bool

/-- The table of rules; the second one is on when `LIN_EGRULES` names it. -/
def egRules (eta : Bool) : List EgRule := [⟨.beta, 64, true⟩, ⟨.eta, 0, eta⟩]

/-- A function applied, with a body that is cheap enough. -/
def egBeta (rightFirst : Bool) (param cls l r : ℕ) : EgM Unit := do
  let fnCls ← egFind l
  match ← egBest fnCls with
  | .lam vn body => do
    let bl ← egFind body
    if (← theGraph).cost bl ≤ param then do
      let _ ← egFind cls
      setCapture false
      let sub ← egSubst rightFirst vn r ((← theGraph).nc + 1) body
      if (← theGraph).capture then return ()
      else do
        egUnion cls sub
        let _ ← egFind cls
    else return ()
  | _ => return ()

/-- A function that only passes its variable on. -/
def egEta (cls : ℕ) (name : String) (l : ℕ) : EgM Unit := do
  let bodyCls ← egFind l
  match ← egBest bodyCls with
  | .app fl fr => do
    match ← egBest (← egFind fr) with
    | .var x =>
      if x == name then do
        if ← egHasVar fl name then return ()
        else do
          let _ ← egFind cls
          egUnion cls fl
          let _ ← egFind cls
      else return ()
    | _ => return ()
  | _ => return ()

/-- A rule at the node `n` of the class `cls`. -/
def egRule (rightFirst : Bool) (rule : EgRule) (n : ENode) (cls : ℕ) : EgM Unit :=
  match rule.kind, n with
  | .beta, .app l r => egBeta rightFirst rule.param cls l r
  | .eta, .lam x l => egEta cls x l
  | _, _ => return ()

def egRewrite (rightFirst : Bool) (n : ENode) (cls : ℕ) : List EgRule → EgM Unit
  | [] => return ()
  | rule :: rules => do
    if rule.on then egRule rightFirst rule n cls
    egRewrite rightFirst n cls rules

/-- The cap on the number of nodes. -/
def egCap : ℕ := 32768

def egPass (rightFirst eta : Bool) : List ℕ → EgM Unit
  | [] => return ()
  | i :: is => do
    let g ← theGraph
    if g.nn < egCap then do
      let cls ← egFind (g.nodeCls.get i)
      egRewrite rightFirst (g.nodes.get i) cls (egRules eta)
      egPass rightFirst eta is
    else return ()

/-- The pass that refreshes the costs and the best nodes. -/
def egRecost : List ℕ → EgM Unit
  | [] => return ()
  | i :: is => do
    let g ← theGraph
    let c ← egFind (g.nodeCls.get i)
    let cost ← egCost (g.nodes.get i)
    let g ← theGraph
    if cost < g.cost c then putGraph (g.setBest c i cost)
    egRecost is

def egSaturate (rightFirst eta : Bool) : ℕ → EgM Unit
  | 0 => return ()
  | rounds + 1 => do
    egPass rightFirst eta (List.range (← theGraph).nn)
    egRecost (List.range (← theGraph).nn)
    egSaturate rightFirst eta rounds

/-! ## Extraction -/

/-- Has the class a variable that is not among those bound? -/
def egHasFree : ℕ → List String → ℕ → EgM Bool
  | 0, _, _ => do
    cutOff
    return true
  | left + 1, b, c => do
    match ← egBest (← egFind c) with
    | .var x => return !b.contains x
    | .leaf _ _ => return false
    | .lam x l => egHasFree left (x :: b) l
    | .app l r => do if ← egHasFree left b l then return true else egHasFree left b r
    | .tlet x l r => do if ← egHasFree left (x :: b) l then return true else egHasFree left (x :: b) r

/-- How often a class is used, and whether it has been visited. -/
structure EgUses where
  uses : Table ℕ 0
  vis : Table Bool false

def egCountUses : ℕ → ℕ → EgUses → EgM EgUses
  | 0, _, u => do
    cutOff
    return u
  | left + 1, c, u => do
    let c ← egFind c
    let seen := u.vis.get c
    let u := { u with uses := u.uses.set c (u.uses.get c + 1) }
    if seen then return u
    else do
      let u := { u with vis := u.vis.set c true }
      match ← egBest c with
      | .var _ => return u
      | .leaf _ _ => return u
      | .lam _ l => egCountUses left l u
      | .app l r => do egCountUses left r (← egCountUses left l u)
      | .tlet _ l r => do egCountUses left r (← egCountUses left l u)

def cseName (c : ℕ) : String := "_cse" ++ toString c

/-- The term of a class; `none` is `NULL`. The classes of `cse` are named instead. -/
def egExtract (cse : Table Bool false) : ℕ → ℕ → EgM (Option ETerm)
  | 0, _ => do
    cutOff
    return none
  | left + 1, c => do
    let c ← egFind c
    if cse.get c then return some (.var (cseName c))
    else do
      match ← egBest c with
      | .var x => return some (.var x)
      | .leaf k x => return some (.leaf k x)
      | .lam x l => do return (← egExtract cse left l).map (.lam x)
      | .app l r => do
        let l ← egExtract cse left l
        let r ← egExtract cse left r
        return l.bind fun l => r.map fun r => .app l r
      | .tlet x l r => do
        let l ← egExtract cse left l
        let r ← egExtract cse left r
        return l.bind fun l => r.map fun r => .tlet x l r

/-- Is the class used often enough to be named? -/
def egShared (u : EgUses) (root c : ℕ) : EgM Bool := do
  if c = root then return false
  else if (← egFind c) ≠ c then return false
  else do
    let g ← theGraph
    if u.uses.get c < 2 || g.cost c < 4 then return false
    else match g.best c with
      | .app _ _ => do return !(← egHasFree (g.nc + 1) [] c)
      | _ => return false

def egMarkShared (u : EgUses) (root : ℕ) : List ℕ → Table Bool false → EgM (Table Bool false)
  | [], cse => return cse
  | c :: cs, cse => do egMarkShared u root cs (if ← egShared u root c then cse.set c true else cse)

/-- The terms of the named classes, in the order of their numbers. -/
def egValues : List ℕ → Table Bool false → List (ℕ × ETerm) → EgM (Table Bool false × List (ℕ × ETerm))
  | [], cse, vals => return (cse, vals)
  | c :: cs, cse, vals => do
    if cse.get c then do
      match ← egExtract .empty ((← theGraph).nc + 1) c with
      | some v => egValues cs cse (vals ++ [(c, v)])
      | none => egValues cs (cse.set c false) vals
    else egValues cs cse vals

/-- What the environment asks of the pass, and the order of evaluation. -/
structure EgOptions where
  noEgraph : Bool
  noCse : Bool
  eta : Bool
  rightFirst : Bool

def egShare (noCse : Bool) (root : ℕ) : EgM (Table Bool false × List (ℕ × ETerm)) := do
  if noCse then return (.empty, [])
  else do
    let nc := (← theGraph).nc
    let u ← egCountUses (nc + 1) root ⟨.empty, .empty⟩
    let cse ← egMarkShared u root (List.range nc) .empty
    egValues (List.range nc) cse []

def egraphOptimize (o : EgOptions) (t : ETerm) : EgM ETerm := do
  if o.noEgraph then return t
  else do
    let root ← egAddTerm o.rightFirst t
    egSaturate o.rightFirst o.eta 4
    let root ← egFind root
    let (cse, vals) ← egShare o.noCse root
    let res ← egExtract cse ((← theGraph).nc + 1) root
    return (res.map fun t => vals.foldr (fun v t => .tlet (cseName v.1) v.2 t) t).getD t

/-- Before the pass. -/
def EgRun.start : EgRun := ⟨.empty, [.empty], false⟩

end LinEngine
