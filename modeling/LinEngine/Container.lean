import LinEngine.Format
import LinEngine.Table

/-!
# The `.line` container

The loader of a saved net, over all sequences of bytes. What it builds holds the machine words of
the file as they stand, so it is a net of bytes and words and not the net of the rules. Storage that
grows is not modelled but for the bounds that decide whether an index from the file stays inside it; a
section is handed to its driver, which keeps it apart from the net.
-/
namespace LinEngine.Container

open Format

/-! ## Words of the file -/

/-- A word as an `int`. -/
def toInt (w : ℕ) : ℤ := if w < 2 ^ 31 then w else w - 2 ^ 32

/-- The bit fields of a `Port`: a signed node of 30 bits below, the port in the two above. -/
def nodeOf (w : ℕ) : ℤ := if w % 2 ^ 30 < 2 ^ 29 then w % 2 ^ 30 else w % 2 ^ 30 - 2 ^ 30
def portOf (w : ℕ) : ℕ := w / 2 ^ 30

/-- The word of `(Port){-1, 0}`. -/
def noneWord : ℕ := 2 ^ 30 - 1

/-! ## Sections -/

/-- The words behind the magic. -/
structure Header where
  ver : ℕ
  nn : ℕ
  nlv : ℕ
  nnamed : ℕ
  deriving DecidableEq, Repr

/-- The level trie's size; a count that is not positive leaves it empty. -/
def Header.levels (h : Header) : ℕ := (toInt h.nlv).toNat

/-- The sections that the header sizes; a name is skipped whatever it is. -/
structure Front where
  tag : List UInt8
  dead : List UInt8
  wire : List ℕ
  scope : List ℕ
  names : List (List UInt8 × List UInt8)
  parent : List ℕ
  bit : List UInt8
  deriving DecidableEq, Repr

/-- The sections that depend on the version, up to the count of the drivers' own. -/
structure Back where
  root : List ℕ
  floats : List (List UInt8)
  count : ℕ
  deriving DecidableEq, Repr

/-- `LINE`. -/
def lineMagic : List UInt8 := [76, 73, 78, 69]

/-- The line behind `#!`, up to its end. -/
def skipShebang (file : List UInt8) : List UInt8 :=
  match file with
  | 35 :: 33 :: f => (f.dropWhile (· != 10)).tail
  | f => f

def readHeader : Reader Header := do
  let magic ← fread 4
  let ver ← word
  let nn ← word
  let nlv ← word
  let nnamed ← word
  if magic = lineMagic ∧ 3 ≤ ver ∧ ver ≤ 7 then pure ⟨ver, nn, nlv, nnamed⟩ else failure

/-- An id, the length of a name, and the name. -/
def readName : Reader (List UInt8 × List UInt8) := do
  let id ← fread 4
  let len ← fread 1
  let name ← fread (ofBytes len)
  pure (id, name)

def readFront (h : Header) : Reader Front := do
  let tag ← fread h.nn
  let dead ← fread h.nn
  let wire ← times word (3 * h.nn)
  let scope ← times word h.nn
  let names ← times readName h.nnamed
  let parent ← times word h.levels
  let bit ← fread h.levels
  pure ⟨tag, dead, wire, scope, names, parent, bit⟩

def readRoots (ver : ℕ) : Reader (List ℕ) := if 7 ≤ ver then counted word else pure []
def readFloats (ver : ℕ) : Reader (List (List UInt8)) := if ver = 4 then counted (fread 8) else pure []
def readCount (ver : ℕ) : Reader ℕ := if 5 ≤ ver then word else pure 0

def readBack (ver : ℕ) : Reader Back := do
  let root ← readRoots ver
  let floats ← readFloats ver
  let count ← readCount ver
  pure ⟨root, floats, count⟩

/-- `lin_driver_carry_read`: the names and blobs of the sections that are there in full. -/
def carryRead : ℕ → List UInt8 → List (List UInt8 × List UInt8)
  | 0, _ => []
  | k + 1, f =>
    match (do
      let nl ← fread 1
      let name ← fread (ofBytes nl)
      let len ← word
      let blob ← fread len
      pure (name, blob) : Reader (List UInt8 × List UInt8)) f with
    | none => []
    | some (s, f) => s :: carryRead k f

/-! ## The net -/

/-- What is loaded. A port is a word; entry `l - 1` of the trie is level `l`, and a depth that
nothing has set is `none`. -/
structure RawNet where
  cap : ℕ
  nn : ℕ
  tag : List UInt8
  dead : List UInt8
  wire : List ℕ
  scope : List ℕ
  parent : List ℤ
  bit : List UInt8
  depth : List (Option ℤ)
  root : List ℕ
  act : List (ℕ × ℕ)
  actOf : Table (Option ℕ) none
  floats : List (List UInt8)
  carried : List (List UInt8 × List UInt8)
  deriving DecidableEq, Repr

/-- How loading ends: `net_load_line` returns 0, or it leaves the C that is defined, or it returns 1 and the net. -/
inductive Load
  | refused
  | undefined
  | loaded (n : RawNet)
  deriving DecidableEq, Repr

/-- The depths `net_level_set` gives, in id order. -/
def levelDepths (parent : List ℤ) : List (Option ℤ) :=
  parent.foldl (fun ds (p : ℤ) => ds ++ [if p = 0 then some 1
    else if 0 < p ∧ p ≤ ds.length then (ds.getD (p.toNat - 1) none).map (· + 1) else none]) []

/-- The room `lv_ensure` makes for the trie: 256 entries, doubled as long as they do not do. -/
def lvCap (need : ℕ) : ℕ := max 256 (2 ^ Nat.clog 2 need)

/-- The roots `lin_demand` keeps: a node of the net, and each once. -/
def demand (nn : ℕ) (roots : List ℕ) (p : ℕ) : List ℕ :=
  if nodeOf p < 0 ∨ nn ≤ nodeOf p ∨ p ∈ roots then roots else roots ++ [p]

/-- `act_push` of two ports, the first of a node of the net. -/
def actPush (n : RawNet) (a b : ℕ) : Option RawNet :=
  if (n.actOf.get (nodeOf a).toNat).isSome then some n
  else if nodeOf b < 0 ∨ n.cap ≤ nodeOf b then none
  else if (n.actOf.get (nodeOf b).toNat).isSome then some n
  else
    let i := 2 * n.act.length
    some { n with act := n.act ++ [(a, b)], actOf := (n.actOf.set (nodeOf a).toNat (some i)).set (nodeOf b).toNat (some i) }

/-- Queue the pair of a node whose principal faces a later one. -/
def seedNode (n : RawNet) (i : ℕ) : Option RawNet :=
  let w := n.wire.getD (3 * i) noneWord
  if portOf w = 0 ∧ i < nodeOf w then actPush n i w else some n

/-- The queue of a loaded net is not in the file but found again. -/
def seed (n : RawNet) : Option RawNet := (List.range n.nn).foldlM seedNode n

/-- The net of what was read. -/
def install (h : Header) (front : Front) (back : Back) (f : List UInt8) : RawNet where
  cap := h.nn + 16
  nn := h.nn
  tag := front.tag
  dead := front.dead
  wire := front.wire
  scope := front.scope
  parent := front.parent.map toInt
  bit := front.bit
  depth := levelDepths (front.parent.map toInt)
  root := back.root.foldl (demand h.nn) []
  act := []
  actOf := .empty
  floats := back.floats
  carried := carryRead back.count f

/-- What `net_init` and the first read make of a count: `none` if it is good. A negative count makes `fread` take all
the bytes there are, `left` of them, into a buffer that has room for fewer than 16 nodes, or for the 256 that no room grows to. -/
def countFault (nn : ℕ) (left : ℕ) : Option Load :=
  let k := toInt nn
  if 0 ≤ k then if (k + 16) * 3 < 2 ^ 31 then none else some .undefined
  else if -16 ≤ k ∧ (left : ℤ) ≤ (if k = -16 then 256 else k + 16) then some .refused
  else some .undefined

/-- A count of levels past what the growth of the trie can reach, or a parent outside its room. -/
def TrieFault (h : Header) (front : Front) : Prop :=
  2 ^ 30 ≤ h.levels + 1 ∨ ∃ p ∈ front.parent, toInt p < 0 ∨ lvCap (h.levels + 1) ≤ toInt p

instance (h : Header) (front : Front) : Decidable (TrieFault h front) := inferInstanceAs (Decidable (_ ∨ _))

/-- From the activation queue on. -/
def loadQueue (h : Header) (front : Front) (back : Back) (f : List UInt8) : Load :=
  match seed (install h front back f) with
  | none => .undefined
  | some n => .loaded n

/-- From `net_level_set` on. -/
def loadBack (h : Header) (front : Front) (f : List UInt8) : Load :=
  if TrieFault h front then .undefined
  else
    match readBack h.ver f with
    | none => .refused
    | some (back, f) => loadQueue h front back f

/-- From `net_init` on. -/
def loadFront (h : Header) (f : List UInt8) : Load :=
  match countFault h.nn f.length with
  | some l => l
  | none =>
    match readFront h f with
    | none => .refused
    | some (front, f) => loadBack h front f

/-- `net_load_line`, from the bytes of the file. -/
def netLoadLine (file : List UInt8) : Load :=
  match readHeader (skipShebang file) with
  | none => .refused
  | some (h, f) => loadFront h f

/-! ## What a file holds -/

/-- A known version, and words. -/
def Header.Fits (h : Header) : Prop := (3 ≤ h.ver ∧ h.ver ≤ 7) ∧ h.ver < 2 ^ 32 ∧ h.nn < 2 ^ 32 ∧ h.nlv < 2 ^ 32 ∧ h.nnamed < 2 ^ 32

def Header.bytes (h : Header) : List UInt8 :=
  lineMagic ++ (wordBytes h.ver ++ (wordBytes h.nn ++ (wordBytes h.nlv ++ wordBytes h.nnamed)))

lemma parses_header : Parses readHeader Header.Fits Header.bytes := by
  unfold readHeader
  refine ((parses_fread 4).bind (fun magic => parses_word.bind (fun ver => parses_word.bind (fun nn => parses_word.bind
    (fun nlv => parses_word.bind (fun nnamed => parses_when (parses_pure _)) Header.nnamed ?_) Header.nlv ?_) Header.nn ?_)
    Header.ver ?_) (fun _ => lineMagic) ?_).congr (fun h => ?_) fun h _ => ?_
  · exact fun _ _ _ hc => congrArg Header.nnamed hc.2
  · exact fun _ _ _ hc => congrArg Header.nlv hc.2.2
  · exact fun _ _ _ hc => congrArg Header.nn hc.2.2.2
  · exact fun _ _ _ hc => congrArg Header.ver hc.2.2.2.2
  · exact fun _ _ _ hc => hc.2.2.2.2.1.1.symm
  · constructor
    · rintro ⟨hver, hwords⟩
      exact ⟨rfl, hwords.1, hwords.2.1, hwords.2.2.1, hwords.2.2.2, ⟨rfl, hver⟩, rfl⟩
    · rintro ⟨-, h₁, h₂, h₃, h₄, ⟨-, hver⟩, -⟩
      exact ⟨hver, h₁, h₂, h₃, h₄⟩
  · rw [Header.bytes, List.append_nil]
    rfl

def nameBytes (name : List UInt8 × List UInt8) : List UInt8 := name.1 ++ (UInt8.ofNat name.2.length :: name.2)

lemma parses_name : Parses readName (fun name => name.1.length = 4 ∧ name.2.length < 256) nameBytes := by
  unfold readName
  refine ((parses_fread 4).bind (fun id => (parses_fread 1).bind (fun len => (parses_fread (ofBytes len)).bind
    (fun name => parses_pure _) Prod.snd ?_) (fun c => [UInt8.ofNat c.2.length]) ?_) Prod.fst ?_).congr (fun c => ?_) fun c _ => ?_
  · exact fun _ _ _ hc => congrArg Prod.snd hc
  · rintro len c hone ⟨hlen, -⟩
    obtain ⟨x, rfl⟩ := List.length_eq_one_iff.mp hone
    have hx : c.2.length = x.toNat := by rw [hlen]; simp [ofBytes]
    rw [hx, UInt8.ofNat_toNat]
  · exact fun _ _ _ hc => congrArg Prod.fst hc.2.2
  · have hbyte (k : ℕ) : k = ofBytes [UInt8.ofNat k] ↔ k < 256 := by
      simp only [ofBytes, List.foldr, UInt8.toNat_ofNat']
      omega
    simp only [List.length_singleton, ← hbyte, true_and, and_true]
  · rw [nameBytes]
    simp

/-- As many of each as the header says. -/
structure Front.Fits (h : Header) (front : Front) : Prop where
  tag : front.tag.length = h.nn
  dead : front.dead.length = h.nn
  wire : front.wire.length = 3 * h.nn ∧ ∀ w ∈ front.wire, w < 2 ^ 32
  scope : front.scope.length = h.nn ∧ ∀ w ∈ front.scope, w < 2 ^ 32
  names : front.names.length = h.nnamed ∧ ∀ name ∈ front.names, name.1.length = 4 ∧ name.2.length < 256
  parent : front.parent.length = h.levels ∧ ∀ w ∈ front.parent, w < 2 ^ 32
  bit : front.bit.length = h.levels

def Front.bytes (front : Front) : List UInt8 :=
  front.tag ++ (front.dead ++ (front.wire.flatMap wordBytes ++ (front.scope.flatMap wordBytes ++ (front.names.flatMap nameBytes ++
    (front.parent.flatMap wordBytes ++ front.bit)))))

lemma parses_front (h : Header) : Parses (readFront h) (Front.Fits h) Front.bytes := by
  unfold readFront
  refine ((parses_fread h.nn).bind (fun tag => (parses_fread h.nn).bind (fun dead => (parses_word.times _).bind
    (fun wire => (parses_word.times _).bind (fun scope => (parses_name.times _).bind (fun names => (parses_word.times _).bind
    (fun parent => (parses_fread _).bind (fun bit => parses_pure _) Front.bit ?_) Front.parent ?_) Front.names ?_)
    Front.scope ?_) Front.wire ?_) Front.dead ?_) Front.tag ?_).congr (fun front => ?_) fun front _ => ?_
  · exact fun _ _ _ hc => congrArg Front.bit hc
  · exact fun _ _ _ hc => congrArg Front.parent hc.2
  · exact fun _ _ _ hc => congrArg Front.names hc.2.2
  · exact fun _ _ _ hc => congrArg Front.scope hc.2.2.2
  · exact fun _ _ _ hc => congrArg Front.wire hc.2.2.2.2
  · exact fun _ _ _ hc => congrArg Front.dead hc.2.2.2.2.2
  · exact fun _ _ _ hc => congrArg Front.tag hc.2.2.2.2.2.2
  · constructor
    · rintro ⟨htag, hdead, hwire, hscope, hnames, hparent, hbit⟩
      exact ⟨htag, hdead, hwire, hscope, hnames, hparent, hbit, rfl⟩
    · rintro ⟨htag, hdead, hwire, hscope, hnames, hparent, hbit, -⟩
      exact ⟨htag, hdead, hwire, hscope, hnames, hparent, hbit⟩
  · rw [Front.bytes, List.append_nil]
    rfl

/-- What the version has. -/
structure Back.Fits (ver : ℕ) (back : Back) : Prop where
  root : if 7 ≤ ver then back.root.length < 2 ^ 32 ∧ ∀ w ∈ back.root, w < 2 ^ 32 else back.root = []
  floats : if ver = 4 then back.floats.length < 2 ^ 32 ∧ ∀ x ∈ back.floats, x.length = 8 else back.floats = []
  count : if 5 ≤ ver then back.count < 2 ^ 32 else back.count = 0

def Back.bytes (ver : ℕ) (back : Back) : List UInt8 :=
  (if 7 ≤ ver then wordBytes back.root.length ++ back.root.flatMap wordBytes else []) ++
    ((if ver = 4 then wordBytes back.floats.length ++ back.floats.flatMap id else []) ++
      if 5 ≤ ver then wordBytes back.count else [])

lemma parses_back (ver : ℕ) : Parses (readBack ver) (Back.Fits ver) (Back.bytes ver) := by
  unfold readBack readRoots readFloats readCount
  refine ((parses_ite (c := 7 ≤ ver) parses_word.counted (parses_pure _)).bind (fun root => (parses_ite (c := ver = 4) (parses_fread 8).counted
    (parses_pure _)).bind (fun floats => (parses_ite (c := 5 ≤ ver) parses_word (parses_pure _)).bind (fun count => parses_pure _)
    Back.count ?_) Back.floats ?_) Back.root ?_).congr (fun back => ?_) fun back _ => ?_
  · exact fun _ _ _ hc => congrArg Back.count hc
  · exact fun _ _ _ hc => congrArg Back.floats hc.2
  · exact fun _ _ _ hc => congrArg Back.root hc.2.2
  · constructor
    · rintro ⟨hroot, hfloats, hcount⟩
      exact ⟨hroot, hfloats, hcount, rfl⟩
    · rintro ⟨hroot, hfloats, hcount, -⟩
      exact ⟨hroot, hfloats, hcount⟩
  · rw [Back.bytes, List.append_nil]

end LinEngine.Container
