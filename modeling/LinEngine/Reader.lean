import LinEngine.Fuel
import LinEngine.Table

/-!
# The reader

`parse.c` with its file-level variables passed explicitly. A text is the bytes before its
NUL, and the position in it is what is left of it. An error keeps the tables, as
`longjmp` does. Each call in the recursive functions spends one unit of fuel, and running out of it
is a stop of its own.
-/
namespace LinEngine.Reader

abbrev Bytes := List UInt8

/-- An ASCII character, or one of the bytes above them. -/
def ch (c : Char) : UInt8 := c.toNat.toUInt8

def lit (s : String) : Bytes := s.toList.map ch

def isspace (c : UInt8) : Bool := c == 32 || (9 ≤ c && c ≤ 13)

def isdigit (c : UInt8) : Bool := ch '0' ≤ c && c ≤ ch '9'

def isxdigit (c : UInt8) : Bool := isdigit c || (ch 'a' ≤ c && c ≤ ch 'f') || (ch 'A' ≤ c && c ≤ ch 'F')

/-- What a name goes on with. -/
def symChar (c : UInt8) : Bool := !isspace c && c != ch '(' && c != ch ')'

/-- Over blanks and comments; the flag says that a comment has begun. -/
def skipFrom : Bool → Bytes → Bytes
  | _, [] => []
  | true, c :: cs => skipFrom (c != ch '\n') cs
  | false, c :: cs =>
    if isspace c then skipFrom false cs
    else if c = ch ';' then skipFrom true cs
    else c :: cs

def skipws (s : Bytes) : Bytes := skipFrom false s

/-- A name and what follows it; a backslash and a lambda are names of their own. -/
def sym : Bytes → Option (Bytes × Bytes)
  | 0x5c :: cs => some ([0x5c], cs)
  | 0xce :: 0xbb :: cs => some ([0xce, 0xbb], cs)
  | s => if s.takeWhile symChar = [] then none else some (s.takeWhile symChar, s.dropWhile symChar)

def islambda (s : Bytes) : Bool := s == lit "\\" || s == lit "lambda" || s == lit "lam" || s == [0xce, 0xbb]

def isnum (s : Bytes) : Bool := s != [] && s.all isdigit

/-- Digits with a point or an exponent, after a sign. -/
def isfloat (s : Bytes) : Bool :=
  let p := match s with
    | c :: cs => if c == ch '-' || c == ch '+' then cs else s
    | [] => []
  (p.head?.map isdigit).getD false && p.any (fun c => c ∈ lit ".eE") && p.all fun c => isdigit c || c ∈ lit ".eE"

/-! ## Terms and types -/

/-- A type of an annotation; the arguments of a nominal are a chain. -/
inductive RType
  | var (id : ℕ)
  | param (i : ℕ)
  | arrow (a b : RType)
  | nom (name : Bytes) (args : RType)
  | arg (a next : RType)
  | none
  deriving DecidableEq, Repr

/-- A field of a constructor, with its type if it has one. -/
structure Field where
  name : Bytes
  type : Option RType
  deriving DecidableEq, Repr

structure Ctor where
  name : Bytes
  fields : List Field
  deriving DecidableEq, Repr

/-- What the reader makes; a definition may have an annotation. -/
inductive RTerm
  | var (name : Bytes)
  | lam (name : Bytes) (body : RTerm)
  | app (f a : RTerm)
  | tlet (name : Bytes) (v body : RTerm)
  | num (text : Bytes)
  | float (text : Bytes)
  | defn (name : Bytes) (v : RTerm)
  | defx (name : Bytes) (type : RType) (v : RTerm)
  | load (path : Bytes)
  | ns (name : Bytes)
  | openNs (name : Bytes)
  | exportNs (name : Bytes)
  | datatype (name : Bytes) (arity : ℕ) (ctors : List Ctor)
  deriving DecidableEq, Repr

/-- The names of type variables of the last annotation, the next variable, the nominal types with their
arities, and the parameters of the datatype whose fields are read. -/
structure Tables where
  tvs : List (Bytes × ℕ)
  nextId : ℕ
  noms : List (Bytes × ℕ)
  dtIn : Bool
  dtNp : ℕ
  params : Table Bytes []
  deriving DecidableEq, Repr

/-- After `lin_domains_init`. -/
def Tables.start : Tables :=
  ⟨[], 0, [(lit "bool", 0), (lit "num", 0), (lit "float", 0), (lit "list", 1)], false, 0, .empty⟩

structure State where
  rest : Bytes
  tab : Tables
  deriving DecidableEq, Repr

inductive Stop
  | fail (msg : String)
  | fuel
  deriving DecidableEq, Repr

abbrev RM := EStateM Stop State

def pfail {α : Type} (msg : String) : RM α := throw (.fail msg)

/-! ## Steps of the reader -/

def sees (c : Char) : RM Bool := do return (← get).rest.head? == some (ch c)

def atEnd : RM Bool := do return (← get).rest == []

def step : RM Unit := modify fun s => { s with rest := s.rest.tail }

def skip : RM Unit := modify fun s => { s with rest := skipws s.rest }

/-- A name, or an error. -/
def name (msg : String) : RM Bytes := do
  let s ← get
  match sym s.rest with
  | none => pfail msg
  | some r => do
    set { s with rest := r.2 }
    return r.1

/-- A character, or an error. -/
def expect (c : Char) (msg : String) : RM Unit := do
  if ← sees c then step else pfail msg

def seesArrow : RM Bool := do return (lit "->").isPrefixOf (← get).rest

def tables : RM Tables := do return (← get).tab

def setTables (f : Tables → Tables) : RM Unit := modify fun s => { s with tab := f s.tab }

def nominalArity (t : Tables) (n : Bytes) : Option ℕ := t.noms.lookup n

def nominalRegister (n : Bytes) (arity : ℕ) (t : Tables) : Tables :=
  if (nominalArity t n).isSome then t else { t with noms := t.noms ++ [(n, arity)] }

/-- The type variable of a name, a new one at its first use. -/
def typeVar (n : Bytes) : RM RType := do
  match (← tables).tvs.lookup n with
  | some id => return .var id
  | none => do
    let id := (← tables).nextId
    setTables fun t => { t with tvs := t.tvs ++ [(n, id)], nextId := id + 1 }
    return .var id

/-! ## Annotations -/

/-- The place of a name among the parameters of the datatype. -/
def paramIndex (t : Tables) (n : Bytes) : Option ℕ :=
  if t.dtIn then (List.range t.dtNp).find? fun i => t.params.get i == n else none

mutual

def typeAtom : ℕ → RM RType
  | 0 => throw .fuel
  | d + 1 => do
    skip
    if ← sees '(' then
      step
      let t ← parseType d
      skip
      expect ')' "type: missing ')'"
      return t
    else
      let n ← name "type: expected name"
      match nominalArity (← tables) n with
      | some arity => return .nom n (← typeArgs d arity)
      | none =>
        match paramIndex (← tables) n with
        | some i => return .param i
        | none => typeVar n

def typeArgs : ℕ → ℕ → RM RType
  | 0, _ => throw .fuel
  | _ + 1, 0 => return .none
  | d + 1, k + 1 => do
    let a ← typeAtom d
    return .arg a (← typeArgs d k)

def parseType : ℕ → RM RType
  | 0 => throw .fuel
  | d + 1 => do
    let a ← typeAtom d
    skip
    if ← seesArrow then
      step
      step
      return .arrow a (← parseType d)
    else return a

end

def typeTop (d : ℕ) : RM RType := do
  setTables fun t => { t with tvs := [] }
  parseType d

/-! ## Literals -/

/-- The byte that follows a backslash stands for, and what is left. -/
def escape (c : UInt8) (cs : Bytes) : UInt8 × Bytes :=
  if c = ch 'n' then (10, cs)
  else if c = ch 't' then (9, cs)
  else if c = ch 'r' then (13, cs)
  else if c = ch 'e' then (27, cs)
  else if c = ch '0' then
    match cs with
    | a :: b :: cs' =>
      if ch '0' ≤ a ∧ a ≤ ch '7' ∧ ch '0' ≤ b ∧ b ≤ ch '7' then ((a - ch '0') * 8 + (b - ch '0'), cs') else (0, cs)
    | _ => (0, cs)
  else if c = ch 'x' then
    match cs with
    | a :: b :: cs' => if isxdigit a ∧ isxdigit b then (hex a * 16 + hex b, cs') else (c, cs)
    | _ => (c, cs)
  else (c, cs)
where
  /-- The value of a hexadecimal digit. -/
  hex (c : UInt8) : UInt8 :=
    if isdigit c then c - ch '0' else if ch 'a' ≤ c then c - ch 'a' + 10 else c - ch 'A' + 10

/-- The size of the buffer `dec`. -/
def decSize : ℕ := 4096

/-- The next byte of a string literal, and what is left. -/
def nextByte (c : UInt8) (cs : Bytes) : UInt8 × Bytes :=
  match cs with
  | e :: cs' => if c = ch '\\' then escape e cs' else (c, cs)
  | [] => (c, cs)

/-- The body of a string literal up to its closing quote or the end; bytes that find no room are dropped. -/
def decodeLoop : ℕ → Bytes → Bytes → Bytes × Bytes
  | 0, dec, s => (dec, s)
  | _ + 1, dec, [] => (dec, [])
  | d + 1, dec, c :: cs =>
    if c = ch '"' then (dec, c :: cs)
    else
      let r := nextByte c cs
      decodeLoop d (if dec.length < decSize then dec ++ [r.1] else dec) r.2

/-- `snprintf` of a byte. -/
def decimal (c : UInt8) : Bytes := lit (toString c.toNat)

/-- `list.cons b1 (list.cons b2 ... list.nil)`. -/
def chain : Bytes → RTerm
  | [] => .var (lit "list.nil")
  | c :: cs => .app (.app (.var (lit "list.cons")) (.num (decimal c))) (chain cs)

def stringBody : RM Bytes := do
  let s ← get
  let r := decodeLoop s.rest.length [] s.rest
  set { s with rest := r.2 }
  return r.1

def stringLiteral : RM RTerm := do
  step
  let dec ← stringBody
  expect '"' "unterminated string literal"
  return chain dec

/-- Up to the closing quote of a path, or the end. -/
def pathBody : Bytes → Bytes × Bytes
  | [] => ([], [])
  | c :: cs =>
    if c = ch '"' then ([], c :: cs)
    else
      match cs with
      | e :: cs' =>
        if c = ch '\\' then
          let r := pathBody cs'
          (c :: e :: r.1, r.2)
        else
          let r := pathBody (e :: cs')
          (c :: r.1, r.2)
      | [] => ([c], [])

def parseAtom (kw : Bytes) : RTerm := if isnum kw then .num kw else if isfloat kw then .float kw else .var kw

/-! ## Forms without terms in them -/

/-- The end of a directive with one name. -/
def directive (k : Bytes → RTerm) : RM RTerm := do
  skip
  let n ← name "expected name"
  skip
  expect ')' "expected ')'"
  return k n

def path : RM Bytes := do
  let s ← get
  let r := pathBody s.rest
  set { s with rest := r.2 }
  return r.1

def loadForm : RM RTerm := do
  skip
  expect '"' "load: expected string path"
  let p ← path
  expect '"' "load: unterminated path"
  skip
  expect ')' "load: expected ')'"
  return .load p

/-- The names of a pattern's fields, and its closing parenthesis. -/
def fieldNames : ℕ → RM (List Bytes)
  | 0 => throw .fuel
  | d + 1 => do
    skip
    if ← sees ')' then
      step
      return []
    else
      let n ← name "match: bad field"
      return n :: (← fieldNames d)

/-- A pattern; one that is a lone name binds nothing. -/
def pattern (d : ℕ) : RM (List Bytes) := do
  if ← sees '(' then
    step
    skip
    let _ ← name "match: bad pattern"
    fieldNames d
  else
    let _ ← name "match: bad pattern"
    return []

/-- The parameters of a datatype, from its `i`-th on; how many it has. -/
def typeParams : ℕ → ℕ → RM ℕ
  | 0, _ => throw .fuel
  | d + 1, i => do
    if ← sees ')' then return i
    else
      let n ← name "datatype: bad type param"
      setTables fun t => { t with params := t.params.set i n }
      skip
      typeParams d (i + 1)

/-- The head of a datatype: its name and arity. -/
def datatypeHead (d : ℕ) : RM (Bytes × ℕ) := do
  if ← sees '(' then
    step
    skip
    let n ← name "datatype: expected name"
    skip
    let arity ← typeParams d 0
    step
    return (n, arity)
  else
    let n ← name "datatype: expected name"
    return (n, 0)

def fields : ℕ → RM (List Field)
  | 0 => throw .fuel
  | d + 1 => do
    if ← sees ')' then return []
    else if ← sees '(' then
      step
      skip
      let n ← name "datatype: bad field"
      skip
      let t ← parseType d
      skip
      expect ')' "datatype: bad field type"
      skip
      return ⟨n, some t⟩ :: (← fields d)
    else
      let n ← name "datatype: expected field"
      skip
      return ⟨n, none⟩ :: (← fields d)

def ctors : ℕ → RM (List Ctor)
  | 0 => throw .fuel
  | d + 1 => do
    if ← sees '(' then
      step
      skip
      if ← sees ')' then
        step
        ctors d
      else
        let n ← name "datatype: expected constructor"
        skip
        let fs ← fields d
        step
        skip
        return ⟨n, fs⟩ :: (← ctors d)
    else return []

/-- The closing parenthesis of a form, if it is there. -/
def closeIf : RM Unit := do
  skip
  if ← sees ')' then step else pure ()

def datatypeForm (d : ℕ) : RM RTerm := do
  skip
  let h ← datatypeHead d
  setTables (nominalRegister h.1 h.2)
  let prev ← tables
  setTables fun t => { t with dtIn := 0 < h.2, dtNp := h.2 }
  skip
  let cs ← ctors d
  setTables fun t => { t with dtIn := prev.dtIn, dtNp := prev.dtNp }
  closeIf
  return .datatype h.1 h.2 cs

/-! ## Terms -/

mutual

def parseTerm : ℕ → RM RTerm
  | 0 => throw .fuel
  | d + 1 => do
    skip
    if ← atEnd then pfail "unexpected end of input"
    else if ← sees ')' then pfail "unexpected ')'"
    else if ← sees '"' then stringLiteral
    else if ← sees '(' then
      step
      skip
      group d
    else
      let kw ← name "unexpected character"
      return parseAtom kw

/-- What follows an opening parenthesis. -/
def group : ℕ → RM RTerm
  | 0 => throw .fuel
  | d + 1 => do
    if ← sees '(' then
      let f ← parseTerm d
      parseTail d f
    else
      let kw ← name "empty '('"
      if islambda kw then
        skip
        let var ← name "lambda: expected binder"
        let body ← parseTerm d
        return .lam var (← parseTail d body)
      else if kw = lit "define" then
        skip
        let n ← name "define: expected name"
        let v ← parseTerm d
        skip
        expect ')' "define: expected ')'"
        return .defn n v
      else if kw = lit "define!" then
        skip
        let n ← name "define: expected name"
        let t ← typeTop d
        let v ← parseTerm d
        skip
        expect ')' "define: expected ')'"
        return .defx n t v
      else if kw = lit "load" then loadForm
      else if kw = lit "namespace" ∨ kw = lit "ns" ∨ kw = lit "module" then directive .ns
      else if kw = lit "open" ∨ kw = lit "use" then directive .openNs
      else if kw = lit "export" then directive .exportNs
      else if kw = lit "match" then
        let scrut ← parseTerm d
        skip
        let app ← cases d scrut
        closeIf
        return app
      else if kw = lit "datatype" ∨ kw = lit "data" then datatypeForm d
      else if kw = lit "let" then
        skip
        expect '(' "let: expected '('"
        let bs ← bindings d
        let body ← parseTerm d
        let body ← parseTail d body
        return bs.foldr (fun b t => .tlet b.1 b.2 t) body
      else parseTail d (parseAtom kw)

/-- Operands up to the closing parenthesis. -/
def parseTail : ℕ → RTerm → RM RTerm
  | 0, _ => throw .fuel
  | d + 1, f => do
    skip
    if ← sees ')' then
      step
      return f
    else if ← atEnd then pfail "missing ')'"
    else
      let a ← parseTerm d
      parseTail d (.app f a)

/-- The cases of a match, applied to what it matches. -/
def cases : ℕ → RTerm → RM RTerm
  | 0, _ => throw .fuel
  | d + 1, app => do
    if ← sees '(' then
      step
      skip
      if ← sees ')' then
        step
        return app
      else
        let vs ← pattern d
        let body ← parseTerm d
        let body ← parseTail d body
        skip
        cases d (.app app (vs.foldr .lam body))
    else return app

/-- The bindings of a let, and the parenthesis that closes them. -/
def bindings : ℕ → RM (List (Bytes × RTerm))
  | 0 => throw .fuel
  | d + 1 => do
    skip
    if ← sees ')' then
      step
      return []
    else
      expect '(' "let: expected binding"
      skip
      let n ← name "let: bad binding"
      let v ← parseTerm d
      skip
      expect ')' "let: missing ')' in binding"
      return (n, v) :: (← bindings d)

end

/-! ## Forms -/

/-- Where the reader goes on after an error: behind the form that begins here, as a scan of its own finds it. -/
def resyncFrom : Bool → ℕ → Bytes → Bytes
  | _, _, [] => []
  | true, depth, c :: cs => resyncFrom (c != ch '\n') depth cs
  | false, depth, c :: cs =>
    if c = ch ';' then resyncFrom true depth cs
    else if c = ch '(' then resyncFrom false (depth + 1) cs
    else if c = ch ')' then if depth ≤ 1 then cs else resyncFrom false (depth - 1) cs
    else if depth = 0 ∧ !isspace c then (c :: cs).dropWhile symChar
    else resyncFrom false depth cs

def resync (start : Bytes) : Bytes := resyncFrom false 0 start

/-- What the callback gets: a form, or the message of an error. -/
abbrev Delivery := Except String RTerm

/-- One form of a text that is not at its end, with `d` units of fuel. -/
def readForm (d : ℕ) (s : State) : Option (Delivery × State) :=
  match parseTerm d s with
  | .ok t s' => some (.ok t, s')
  | .error (.fail msg) s' => some (.error ("parse error: " ++ msg), { s' with rest := resync s.rest })
  | .error .fuel _ => none

/-- A callback with its data; it may change the tables. -/
abbrev FormFn (σ : Type) := Delivery → σ → Tables → σ × Tables

/-- The loop of `parse_forms`. `none` is a run that needs more fuel. -/
def formsLoop {σ : Type} (fn : FormFn σ) (d : ℕ) : ℕ → σ → State → Option (List Delivery × σ × Tables)
  | 0, _, _ => none
  | k + 1, ud, s =>
    let s := { s with rest := skipws s.rest }
    if s.rest = [] then some ([], ud, s.tab)
    else do
      let r ← readForm d s
      let after := fn r.1 ud r.2.tab
      let rs ← formsLoop fn d k after.1 { r.2 with tab := after.2 }
      return (r.1 :: rs.1, rs.2)

def parseForms {σ : Type} (fn : FormFn σ) (d : ℕ) (ud : σ) (tab : Tables) (src : Bytes) :
    Option (List Delivery × σ × Tables) :=
  formsLoop fn d d ud ⟨src, tab⟩

end LinEngine.Reader
