import LinEngine.Types

/-!
# Top-level forms

The forms of a program and what each does to the definitions: `process_def`, `expand`
and the dispatch of `main.c`. A datatype is a sequence of typed definitions, and a file
that is loaded is the sequence of its forms. An expression is checked and expanded; what
is then compiled and run does not change the definitions. One field no function reads
records each definition whose expansion begins.
-/
namespace LinEngine

mutual

/-- A written type over the variables of its annotation. -/
inductive TyExp
  | var (i : ℕ)
  | arrow (a b : TyExp)
  | nom (name : String) (args : TyArgs)

inductive TyArgs
  | nil
  | cons (a : TyExp) (rest : TyArgs)

end

mutual

def TyExp.build (vars : List ℕ) : TyExp → TM ℕ
  | .var i =>
    match vars[i]? with
    | some a => return a
    | none => tvar
  | .arrow a b => do
    let a ← a.build vars
    newCell (.arrow a (← b.build vars))
  | .nom n args => do newCell (.nom n (← args.build vars))

def TyArgs.build (vars : List ℕ) : TyArgs → TM (Option ℕ)
  | .nil => return none
  | .cons a rest => do
    let a ← a.build vars
    return some (← newCell (.arg a (← rest.build vars)))

end

/-- An annotation names its variables by position. -/
structure Annot where
  vars : ℕ
  type : TyExp

/-- The scheme of an annotation quantifies all its variables. -/
def Annot.scheme (d : ℕ) (a : Annot) : TM Scheme := do
  let vars ← freshVars (List.range a.vars)
  let t ← a.type.build (vars.map (·.2))
  return ⟨← fv d t [], t⟩

inductive Form
  | ns (name : String)
  | openNs (name : String)
  | exportNs (name : String)
  | define (name : String) (body : Term)
  | defineTyped (name : String) (body : Term) (annot : Annot)
  | load (forms : List Form)
  | eval (t : Term)

/-! ## Definitions -/

namespace Defs

def setNamespace (D : Defs) (name : String) : Defs :=
  { D with currNs := if name = "_" ∨ name = "root" then "" else name }

def openNamespace (D : Defs) (name : String) : Defs :=
  if name = "" ∨ name ∈ D.openNs then D else { D with openNs := D.openNs ++ [name] }

/-- Give the free names that the current namespace defines their full names; only
functions are binders here. -/
def qualifyFree (D : Defs) (bound : List String) : Term → Term
  | .var x =>
    if !dotted x && x ∉ bound && D.currNs != "" && (D.lookupRaw (qualified D.currNs x)).isSome then
      .var (qualified D.currNs x)
    else .var x
  | .lam x b => .lam x (qualifyFree D (x :: bound) b)
  | .app f a => .app (qualifyFree D bound f) (qualifyFree D bound a)
  | .tlet x v b => .tlet x (qualifyFree D bound v) (qualifyFree D bound b)
  | .defn x b => .defn x (qualifyFree D bound b)
  | t => t

/-- A body that refers to its own name becomes a fixpoint. -/
def newDef (D : Defs) (name : String) (body : Term) (sch : Option Scheme) : Def :=
  let recursive := termRefs name body
  let body := D.qualifyFree [] body
  { name := if D.currNs ≠ "" ∧ !dotted name then qualified D.currNs name else name
    term := if recursive then termFix name body else body
    raw := if recursive then some body else none
    sch := sch
    expanded := none }

def processDef (D : Defs) (name : String) (body : Term) (sch : Option Scheme) : Defs :=
  { D with defs := D.defs ++ [D.newDef name body sch] }

/-- The public members of a namespace: direct ones without a leading underscore. -/
def members (D : Defs) (ns : String) : List String :=
  let pre := (ns ++ ".").toList
  D.defs.filterMap fun e =>
    let rest := e.name.toList.drop pre.length
    if pre.isPrefixOf e.name.toList ∧ rest ≠ [] ∧ !rest.contains '.' ∧ rest.head? ≠ some '_' then
      some (String.ofList rest)
    else none

/-- Define each member under its own name in the current namespace. -/
def exportNamespace (D : Defs) (ns : String) : Defs :=
  if ns = "" then D
  else (D.members ns).foldl (fun D x => D.processDef x (.var (qualified ns x)) none) D

/-- Back to the namespaces there were before a load. -/
def restore (D before : Defs) : Defs :=
  { D with currNs := before.currNs, openNs := D.openNs.take before.openNs.length }

def setExpanded (D : Defs) (i : ℕ) (t : Term) : Defs :=
  { D with defs := D.defs.modify i fun e => { e with expanded := some t } }

end Defs

/-! ## Expansion -/

/-- A definition whose expansion begins, with the names guarded in its body. -/
structure Opening where
  prog : Defs
  idx : ℕ
  guard : List String
  deriving DecidableEq, Repr

structure Session where
  types : TypeState
  opened : List Opening
  deriving DecidableEq, Repr

abbrev SM := EStateM Stop Session

def typing {α : Type} (m : TM α) : SM α := fun s =>
  match m s.types with
  | .ok a t => .ok a { s with types := t }
  | .error e t => .error e { s with types := t }

def getProg : SM Defs := do return (← get).types.prog

def setProg (D : Defs) : SM Unit := modify fun s => { s with types := { s.types with prog := D } }

/-- Put the expansions of the definitions in place of their names. A name is left alone
where it is bound and inside the expansion of a definition of that name. A let binds
its name in its value and not in its body. -/
def expand : ℕ → List String → Term → SM Term
  | 0, _, _ => throw .fuel
  | d + 1, g, .var x => do
    if x ∈ g then return .var x
    let D ← getProg
    match D.defFind x with
    | none => return .var x
    | some i =>
      match D.defs[i]? with
      | none => return .var x
      | some e =>
        match e.expanded with
        | some t => return t
        | none => do
          modify fun s => { s with opened := ⟨D, i, e.name :: g⟩ :: s.opened }
          let t ← expand d (e.name :: g) e.term
          setProg ((← getProg).setExpanded i t)
          return t
  | d + 1, g, .lam x b => do return .lam x (← expand d (x :: g) b)
  | d + 1, g, .app f a => do
    let f ← expand d g f
    return .app f (← expand d g a)
  | d + 1, g, .tlet x v b => do
    let v ← expand d (x :: g) v
    return .tlet x v (← expand d g b)
  | d + 1, g, .defn x b => do return .defn x (← expand d (x :: g) b)
  | _ + 1, _, t => return t

def expandDefs (d : ℕ) (t : Term) : SM Term := expand d [] t

/-- The expansion that definition `i` has. -/
def Session.expansion (s : Session) (i : ℕ) : Option Term :=
  s.types.prog.defs[i]?.bind (·.expanded)

/-- Nothing is defined yet. -/
def startSession : Session := ⟨startState, []⟩

/-! ## Runs of forms -/

/-- Check an expression and expand it. -/
def evalForm (d : ℕ) (t : Term) : SM Unit := do
  match ← typing (checkTerm d d t) with
  | .error msg =>
    typing (modify fun s => { s with printed := ("error: " ++ msg) :: s.printed })
  | .ok _ => do
    let _ ← expandDefs d t

mutual

def runForm (d : ℕ) : Form → SM Unit
  | .ns name => do setProg ((← getProg).setNamespace name)
  | .openNs name => do setProg ((← getProg).openNamespace name)
  | .exportNs name => do setProg ((← getProg).exportNamespace name)
  | .define name body => do setProg ((← getProg).processDef name body none)
  | .defineTyped name body annot => do
    let sch ← typing (annot.scheme d)
    setProg ((← getProg).processDef name body (some sch))
  | .load forms => do
    let before ← getProg
    runForms d forms
    setProg ((← getProg).restore before)
  | .eval t => evalForm d t

def runForms (d : ℕ) : List Form → SM Unit
  | [] => return
  | f :: fs => do
    runForm d f
    runForms d fs

end

end LinEngine
