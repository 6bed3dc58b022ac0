import LinEngine.Term

/-!
# Definitions and namespaces

The table of definitions of `main.c` and the lookup of a name in it. A definition
keeps its scheme once it has been typed and its expansion once it has been expanded.
Caching of reduced nets is off by default and not modelled.
-/
namespace LinEngine

/-- A type with the variables that an instance renames. -/
structure Scheme where
  q : List ℕ
  t : ℕ
  deriving DecidableEq, Repr

/-- `sch` is there once the definition is typed; `raw` is the body of a recursive one. -/
structure Def where
  name : String
  term : Term
  raw : Option Term
  sch : Option Scheme
  expanded : Option Term
  deriving DecidableEq, Repr

/-- The file-level variables of `main.c`; the first definition is the oldest, the first
namespace the one opened first. -/
structure Defs where
  defs : List Def
  currNs : String
  openNs : List String
  deriving DecidableEq, Repr

namespace Defs

/-- The latest definition of that very name. -/
def lookupRaw (D : Defs) (s : String) : Option ℕ :=
  ((List.range D.defs.length).filter fun i => (D.defs[i]?.map (·.name)) == some s).getLast?

def dotted (s : String) : Bool := s.toList.contains '.'

def qualified (ns name : String) : String := ns ++ "." ++ name

/-- A dotted name means itself. Any other one is looked for in the current namespace, in
the open ones, the latest first, and at the top. -/
def defFind (D : Defs) (name : String) : Option ℕ :=
  if dotted name then D.lookupRaw name
  else
    (if D.currNs = "" then none else D.lookupRaw (qualified D.currNs name)) <|>
    (D.openNs.reverse.findSome? fun ns => D.lookupRaw (qualified ns name)) <|>
    D.lookupRaw name

/-- The part of a name after its last dot. -/
def lastPart (s : String) : String := String.ofList ((s.toList.reverse.takeWhile (· != '.')).reverse)

end Defs

end LinEngine
