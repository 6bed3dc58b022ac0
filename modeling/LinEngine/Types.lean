import LinEngine.Defs
import LinEngine.Table
import LinEngine.TypeGraph

/-!
# Type inference

The functions of `type.c`, with the file-level variables passed explicitly. A stop
keeps the state, as `longjmp` does. Recursion over the graph and over the definitions
that are typed on their first reference is bounded by fuel, and running out of it is a
stop of its own: a run that needs more fuel than any is a run that does not end. Two
fields no function reads record the run: the heaps it had, and its unchecked bindings.
-/
namespace LinEngine

inductive Stop
  | error (msg : String)
  | noType
  | fuel
  deriving DecidableEq, Repr

/-- A binding of a variable to a nominal, in the heap before it. -/
structure Binding where
  heap : Heap
  var : ℕ
  type : ℕ
  deriving DecidableEq, Repr

/-- The innermost binder is the first of `env`; `past` and `bound` begin with the latest. -/
structure TypeState where
  heap : Heap
  nextId : ℕ
  env : List (String × Scheme)
  envrc : Table ℕ 0
  regN : ℕ
  prog : Defs
  printed : List String
  past : List Heap
  bound : List Binding
  deriving DecidableEq, Repr

/-- Before the first check. -/
def startState : TypeState := ⟨⟨[]⟩, 0, [], .empty, 0, ⟨[], "", []⟩, [], [], []⟩

abbrev TM := EStateM Stop TypeState

def tfail {α : Type} (msg : String) : TM α := throw (.error msg)

def cellAt (a : ℕ) : TM Cell := do return (← get).heap.cell a

def setHeap (h : Heap) : TM Unit := modify fun s => { s with heap := h, past := s.heap :: s.past }

/-- A new cell; its address. -/
def newCell (c : Cell) : TM ℕ := do
  let h := (← get).heap
  setHeap (h.push c)
  return h.size

def tvar : TM ℕ := do
  let id := (← get).nextId
  modify fun s => { s with nextId := id + 1 }
  newCell (.tvr id)

def relink (t a : ℕ) : TM Unit := do setHeap ((← get).heap.write t (.link a))

/-- The cell at the end of the links, whose path is halved on the way. -/
def find : ℕ → ℕ → TM ℕ
  | 0, _ => throw .fuel
  | d + 1, t => do
    match ← cellAt t with
    | .link a =>
      match ← cellAt a with
      | .link b => do relink t b; find d b
      | _ => find d a
    | _ => return t

/-- Does the variable `v` occur in the type `t`? -/
def occurs (v : ℕ) : ℕ → ℕ → TM Bool
  | 0, _ => throw .fuel
  | d + 1, t => do
    let t ← find d t
    if t = v then return true
    match ← cellAt t with
    | .arrow a b => do if ← occurs v d a then return true else occurs v d b
    | .nom _ (some args) => occurs v d args
    | .arg a (some next) => do if ← occurs v d a then return true else occurs v d next
    | .arg a none => occurs v d a
    | _ => return false

/-- Bind a variable to a nominal. -/
def bindNominal (v t : ℕ) : TM Unit := do
  modify fun s => { s with bound := ⟨s.heap, v, t⟩ :: s.bound }
  relink v t

/-- Bind a variable that does not occur in the type. -/
def bindChecked (d v t : ℕ) : TM Unit := do
  if ← occurs v d t then tfail "infinite type" else relink v t

def isContainer (name : String) : Bool := name == "list" || name == "string"

mutual

def unify : ℕ → ℕ → ℕ → TM Unit
  | 0, _, _ => throw .fuel
  | d + 1, x, y => do
    let x ← find d x
    let y ← find d y
    if x = y then return
    match ← cellAt x, ← cellAt y with
    | .arrow a b, .arrow a' b' => do unify d a a'; unify d b b'
    | .nom n xs, .nom n' ys => do
      if n ≠ n' then tfail "type mismatch" else unifyArgs d xs ys
    | .tvr _, .nom _ _ => bindNominal x y
    | .nom _ _, .tvr _ => bindNominal y x
    -- a nominal can be applied as its dispatch, a container cannot
    | .arrow _ _, .nom n _ => if isContainer n then tfail "type mismatch" else return
    | .nom n _, .arrow _ _ => if isContainer n then tfail "type mismatch" else return
    | .tvr _, _ => bindChecked d x y
    | _, .tvr _ => bindChecked d y x
    | _, _ => tfail "type mismatch"

/-- Two chains of arguments, pairwise up to the end of the shorter one. -/
def unifyArgs : ℕ → Option ℕ → Option ℕ → TM Unit
  | 0, _, _ => throw .fuel
  | d + 1, some xa, some ya => do
    match ← cellAt xa, ← cellAt ya with
    | .arg a xs, .arg b ys => do unify d a b; unifyArgs d xs ys
    | _, _ => return
  | _, _, _ => return

end

/-- The free variables of a type, each once, after those of `f`. -/
def fv : ℕ → ℕ → List ℕ → TM (List ℕ)
  | 0, _, _ => throw .fuel
  | d + 1, t, f => do
    let t ← find d t
    match ← cellAt t with
    | .tvr id => return if id ∈ f then f else f ++ [id]
    | .arrow a b => do fv d b (← fv d a f)
    | .nom _ (some args) => fv d args f
    | .arg a (some next) => do fv d next (← fv d a f)
    | .arg a none => fv d a f
    | _ => return f

/-- A copy of a type with its variables renamed by `m`. The source appends to a chain of
arguments in place; here a chain is built from its end. -/
def instRec (m : List (ℕ × ℕ)) : ℕ → ℕ → TM ℕ
  | 0, _ => throw .fuel
  | d + 1, t => do
    let t ← find d t
    match ← cellAt t with
    | .tvr id => return (m.lookup id).getD t
    | .arrow a b => do
      let a ← instRec m d a
      newCell (.arrow a (← instRec m d b))
    | .arg a (some next) => do
      let a ← instRec m d a
      newCell (.arg a (some (← instRec m d next)))
    | .arg a none => do newCell (.arg (← instRec m d a) none)
    | .nom n (some args) => do newCell (.nom n (some (← instRec m d args)))
    | .nom n none => newCell (.nom n none)
    | _ => return t

/-- Fresh variables for the quantified ones. -/
def freshVars : List ℕ → TM (List (ℕ × ℕ))
  | [] => return []
  | id :: ids => do
    let v ← tvar
    return (id, v) :: (← freshVars ids)

def instantiate (d : ℕ) (s : Scheme) : TM ℕ := do instRec (← freshVars s.q) d s.t

/-- The free variables of the binders on the stack, the outermost first. -/
def envVars (d : ℕ) : List (String × Scheme) → List ℕ → TM (List ℕ)
  | [], dyn => return dyn
  | e :: es, dyn => do
    let u ← find d e.2.t
    match ← cellAt u with
    | .tvr id => envVars d es (dyn ++ [id])
    | _ => do envVars d es (← fv d e.2.t dyn)

def generalize (d t : ℕ) : TM Scheme := do
  let f ← fv d t []
  let dyn ← envVars d (← get).env.reverse []
  let envrc := (← get).envrc
  return ⟨f.filter fun id => !(0 < envrc.get id || id ∈ dyn), t⟩

def envPush (name : String) (s : Scheme) : TM Unit :=
  modify fun st => { st with env := (name, s) :: st.env }

def envPop : TM Unit := modify fun st => { st with env := st.env.tail }

/-- The type of a term; `look` finds the scheme of a name. -/
def infer (look : String → TM (Option Scheme)) (d : ℕ) : Term → TM ℕ
  | .var x => do
    match ← look x with
    | none => tfail ("unbound variable '" ++ x ++ "'")
    | some s => instantiate d s
  | .lam x b => do
    let a ← tvar
    envPush x ⟨[], a⟩
    let b ← infer look d b
    envPop
    newCell (.arrow a b)
  | .app (.lam x b) a => do
    let a ← infer look d a
    envPush x (← generalize d a)
    let b ← infer look d b
    envPop
    return b
  | .app f a => do
    let f ← infer look d f
    let x ← infer look d a
    let r ← tvar
    unify d f (← newCell (.arrow x r))
    return r
  | .tlet x v b => do
    match ← look x with
    | some _ => do
      let v ← infer look d v
      envPush x (← generalize d v)
      let b ← infer look d b
      envPop
      return b
    | none => do
      let a ← tvar
      envPush x ⟨[], a⟩
      unify d a (← infer look d v)
      envPop
      envPush x (← generalize d a)
      let b ← infer look d b
      envPop
      return b
  | .num _ => tvar
  | .float _ => tvar
  | .ref _ => throw .noType
  | .defn _ _ => throw .noType

/-- Count the variables of a definition's type, the quantified ones among them. -/
def countFree (d : ℕ) (s : Scheme) : TM Unit := do
  let f ← fv d s.t []
  modify fun st => { st with envrc := f.foldl (fun rc id => rc.set id (rc.get id + 1)) st.envrc }

def countDefs (d : ℕ) : List Def → TM Unit
  | [] => return
  | e :: es => do
    match e.sch with
    | some s => countFree d s
    | none => pure ()
    countDefs d es

/-- Count the definitions that came with a type since the last check; only the
outermost check empties the stack of binders. -/
def envLoadDefs (d : ℕ) (top : Bool) : TM Unit := do
  let s ← get
  countDefs d (s.prog.defs.drop s.regN)
  modify fun st => { st with regN := st.prog.defs.length, env := if top then [] else st.env }

/-- A check that returns the message of its own stop. -/
def guarded (m : TM Scheme) : TM (Except String Scheme) :=
  tryCatch (do return .ok (← m)) fun
    | .error msg => return .error msg
    | e => throw e

def typeCheck (look : String → TM (Option Scheme)) (d : ℕ) (top : Bool) (t : Term) :
    TM (Except String Scheme) :=
  guarded do
    envLoadDefs d top
    generalize d (← infer look d t)

def typeCheckRec (look : String → TM (Option Scheme)) (d : ℕ) (top : Bool) (name : String)
    (body : Term) : TM (Except String Scheme) :=
  guarded do
    envLoadDefs d top
    let a ← tvar
    envPush name ⟨[], a⟩
    unify d a (← infer look d body)
    envPop
    generalize d a

/-- Store the scheme of definition `i`. -/
def setScheme (i : ℕ) (s : Scheme) : TM Unit :=
  modify fun st => { st with prog := { st.prog with
    defs := st.prog.defs.modify i fun e => { e with sch := some s } } }

/-- The check of a definition: a recursive one is in scope of its own body. -/
def checkDef (look : String → TM (Option Scheme)) (d : ℕ) (e : Def) : TM (Except String Scheme) :=
  match e.raw with
  | some raw => typeCheckRec look d false (Defs.lastPart e.name) raw
  | none => typeCheck look d false e.term

/-- Type a definition on its first reference, on the stack of the term that refers to it. -/
def defType (look : String → TM (Option Scheme)) (d i : ℕ) (e : Def) : TM Unit := do
  let env := (← get).env
  let r ← checkDef look d e
  modify fun st => { st with env := env }
  match r with
  | .error msg => modify fun st => { st with printed := ("error: " ++ msg) :: st.printed }
  | .ok s => do
    setScheme i s
    countFree d s

/-- The scheme of a name: the innermost binder, or the definition it resolves to, which
`typeDef` types when it has none. -/
def envFindWith (typeDef : ℕ → Def → TM Unit) (name : String) : TM (Option Scheme) := do
  match (← get).env.lookup name with
  | some s => return some s
  | none =>
    match (← get).prog.defFind name with
    | none => return none
    | some i =>
      match (← get).prog.defs[i]? with
      | none => return none
      | some e =>
        match e.sch with
        | some s => return some s
        | none => do
          typeDef i e
          return ((← get).prog.defs[i]?).bind (·.sch)

/-- At most `k` definitions are being typed at a time. -/
def envFind (d : ℕ) : ℕ → String → TM (Option Scheme)
  | 0 => envFindWith fun _ _ => throw .fuel
  | k + 1 => envFindWith (defType (envFind d k) d)

/-- The outermost check of a term. -/
def checkTerm (d k : ℕ) (t : Term) : TM (Except String Scheme) := typeCheck (envFind d k) d true t

end LinEngine
