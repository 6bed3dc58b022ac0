import LinEngine.Compile
import LinEngine.Interning
import LinEngine.Raised

/-!
# The gauges of a compiled net

The whole of `ct_in`, with the copies of precompiled definitions and the boxes of floats.
The compiler logs the nodes that it allocates for the fan tree of a binder or a let, and
for the copy of a net. A gauge is the path to a position of the term, so that the gauges of
two entries are apart.
-/
namespace LinEngine

/-! ## Copies of precompiled nets -/

/-- The path of `s` in the source, below the level `lvl`. -/
def scopeRebase (n src : Net) (lvl s : ℕ) : ℕ × Net := lvInternPath n lvl (lvlPath src s)

/-- A node for each of the source's, dead ones included, and where each has gone. -/
def spliceNodes (src : Net) (lvl : ℕ) : List ℕ → Net → List ℕ × Net
  | [], n => ([], n)
  | i :: is, n =>
    let sc := scopeRebase n src lvl (src.scope.get i)
    let v := netAlloc .serial sc.2 (src.tag.get i) sc.1
    let r := spliceNodes src lvl is v.2
    (v.1 :: r.1, r.2)

/-- The wire of a port, unless it is the clamp between ROOT and the value. -/
def spliceWire (src : Net) (map : List ℕ) (val : Port) (n : Net) (p : Port) : Net :=
  match src.wireAt p with
  | none => n
  | some w =>
    if p = ⟨0, 0⟩ ∨ p = val then n
    else netLink .serial n (some ⟨map.getD p.node 0, p.port⟩) (some ⟨map.getD w.node 0, w.port⟩) true

def spliceNode (src : Net) (map : List ℕ) (val : Port) (n : Net) (i : ℕ) : Net :=
  if src.dead.get i then n else (portsOf i).foldl (spliceWire src map val) n

/-- `ct_splice`; a net whose ROOT has no wire is no precompiled value. -/
def ctSplice (src : Net) : CT := fun s =>
  match src.wireAt ⟨0, 0⟩ with
  | none => .error .noProvider
  | some val =>
    let r := spliceNodes src s.curLvl (List.range src.nn) s.net
    .ok (⟨r.1.getD val.node 0, val.port⟩,
      { s with net := (List.range src.nn).foldl (spliceNode src r.1 val) r.2 })

/-! ## Floats -/

/-- `\b0.\b1.(b0 (b1 i))`. -/
def netBoxIndex (g : Globals) (n : Net) (i : ℕ) : Port × Net :=
  let a := netAlloc g n .lam 0
  let b := netAlloc g a.2 .lam 0
  let ia := netAlloc g b.2 .app 0
  let oa := netAlloc g ia.2 .app 0
  let idx := allocScott g oa.2 i 0
  let n := netLink g idx.2 (some ⟨a.1, 2⟩) (some ⟨b.1, 0⟩) false
  let n := netLink g n (some ⟨b.1, 2⟩) (some ⟨oa.1, 1⟩) false
  let n := netLink g n (some ⟨oa.1, 0⟩) (some ⟨a.1, 1⟩) false
  let n := netLink g n (some ⟨oa.1, 2⟩) (some ⟨ia.1, 1⟩) false
  let n := netLink g n (some ⟨ia.1, 0⟩) (some ⟨b.1, 1⟩) false
  let n := netLink g n (some ⟨ia.1, 2⟩) (some idx.1) false
  (⟨a.1, 0⟩, n)

/-- What the process gives the compiler: the index that the float table has for a literal
when it is compiled, if there is a provider, and the precompiled net of a definition. -/
structure Library where
  index : String → Net → Option ℕ
  compiled : String → Option Net

/-- The box that the provider makes of a literal. -/
def ctFloat (L : Library) (x : String) : CT := fun s =>
  match L.index x s.net with
  | none => .error .noProvider
  | some i =>
    let r := netBoxIndex .serial s.net i
    .ok (r.1, { s with net := r.2 })

/-! ## The compiler with its log -/

inductive SiteKind
  | fan
  | splice
  deriving DecidableEq, Repr

/-- The nodes from `lo` up to `hi`, allocated by one call of `dup_tree` or of `ct_splice`. -/
structure Site where
  kind : SiteKind
  lo : ℕ
  hi : ℕ
  deriving DecidableEq, Repr

def Site.has (x : Site) (v : ℕ) : Prop := x.lo ≤ v ∧ v < x.hi

/-- The compiler's state, and the log, which no step reads. -/
structure Trace where
  st : CState
  sites : List Site
  deriving DecidableEq, Repr

abbrev TT := Trace → Except CompileError (Port × Trace)

def traceOnly (c : CT) : TT := fun s => do
  let r ← c s.st
  .ok (r.1, ⟨r.2, s.sites⟩)

def traceSplice (src : Net) : TT := fun s => do
  let r ← ctSplice src s.st
  .ok (r.1, ⟨r.2, s.sites ++ [⟨.splice, s.st.net.nn, r.2.net.nn⟩]⟩)

def traceLam (name : String) (body : TT) : TT := fun s => do
  let self := s.st.alloc .lam s.st.curLvl
  let lvl := scopeApp self.2.net s.st.curLvl 1
  let s1 := pushVar { self.2 with net := lvl.2 } name ⟨self.1, 1⟩
  let b ← body ⟨s1.enter s.st.curLvl 1, s.sites⟩
  let s2 := { b.2.st with curLvl := s.st.curLvl }.link (some ⟨self.1, 2⟩) (some b.1) false
  let s3 := fanOut s2 self.1 lvl.1
  .ok (⟨self.1, 0⟩, ⟨s3.popVar, b.2.sites ++ [⟨.fan, s2.net.nn, s3.net.nn⟩]⟩)

def traceApp (f a : TT) : TT := fun s => do
  let self := s.st.alloc .app s.st.curLvl
  let l ← f ⟨self.2.enter s.st.curLvl 1, s.sites⟩
  let r ← a ⟨(l.2.st.link (some ⟨self.1, 0⟩) (some l.1) true).enter s.st.curLvl 2, l.2.sites⟩
  .ok (⟨self.1, 1⟩, ⟨{ r.2.st.link (some ⟨self.1, 2⟩) (some r.1) true with curLvl := s.st.curLvl }, r.2.sites⟩)

def traceFixLam : TT :=
  traceLam "_fix_x" (traceApp (traceOnly (ctVar "_fix_h"))
    (traceApp (traceOnly (ctVar "_fix_x")) (traceOnly (ctVar "_fix_x"))))

def traceFix (name : String) (v : TT) : TT :=
  traceApp (traceLam "_fix_h" (traceApp traceFixLam traceFixLam)) (traceLam name v)

/-- The end of a let whose value is at `val`: tie the uses of the name and spend the placeholder. -/
def closeTrace (save ph : ℕ) (val body : Port) (s : Trace) : Port × Trace :=
  let s2 := { s.st with curLvl := save }
  let r := tieLet s2 save ph val body
  (r.1, ⟨(r.2.spend ph).popVar, s.sites ++ [⟨.fan, s2.net.nn, r.2.net.nn⟩]⟩)

def traceLet (name : String) (v : Term) (value body : TT) : TT := fun s => do
  let outer := s.st.cstack.any (·.name == name)
  let fix := letFix s.st name v
  let compileVal := if fix then traceFix name value else value
  if outer || fix then
    let v ← compileVal ⟨s.st.enter s.st.curLvl 2, s.sites⟩
    let ph := v.2.st.alloc .era 0
    let b ← body ⟨(pushVar ph.2 name ⟨ph.1, 1⟩).enter s.st.curLvl 1, v.2.sites⟩
    .ok (closeTrace s.st.curLvl ph.1 v.1 b.1 b.2)
  else
    let ph := s.st.alloc .era 0
    let v ← value ⟨(pushVar ph.2 name ⟨ph.1, 1⟩).enter s.st.curLvl 2, s.sites⟩
    let b ← body ⟨v.2.st.enter s.st.curLvl 1, v.2.sites⟩
    .ok (closeTrace s.st.curLvl ph.1 v.1 b.1 b.2)

def trace (L : Library) : Term → TT
  | .var x => traceOnly (ctVar x)
  | .lam x b => traceLam x (trace L b)
  | .app f a => traceApp (trace L f) (trace L a)
  | .tlet x v b => traceLet x v (trace L v) (trace L b)
  | .num k => traceOnly (ctNum k)
  | .defn _ b => trace L b
  | .float x => traceOnly (ctFloat L x)
  | .ref x =>
    match L.compiled x with
    | some src => traceSplice src
    | none => fun _ => .error .noProvider

/-- The net of a term, with the log. -/
def compileTrace (L : Library) (t : Term) : Except CompileError (Net × List Site) := do
  let r ← trace L t ⟨⟨netInit, [], 0⟩, []⟩
  .ok (netLink .serial r.2.st.net (some ⟨0, 0⟩) (some r.1) false, r.2.sites)

/-! ## Without a library -/

/-- The trace computes what the compiler does. -/
def Traces (c : TT) (d : CT) : Prop := ∀ s, (c s).map (fun r => (r.1, r.2.st)) = d s.st

lemma traces_only (c : CT) : Traces (traceOnly c) c := by
  intro s
  simp only [traceOnly]
  cases c s.st <;> rfl

lemma Traces.bind {c : TT} {d : CT} (h : Traces c d) {α β : Type} {e : α → β} {s : Trace}
    {k : Port × Trace → Except CompileError α} {k' : Port × CState → Except CompileError β}
    (hk : ∀ r, (k r).map e = k' (r.1, r.2.st)) : (c s >>= k).map e = d s.st >>= k' := by
  rw [← h s]
  cases c s with
  | error err => rfl
  | ok r => exact hk r

lemma Traces.lam {b : TT} {b' : CT} (h : Traces b b') (x : String) : Traces (traceLam x b) (ctLam x b') :=
  fun _ => h.bind fun _ => rfl

lemma Traces.app {f a : TT} {f' a' : CT} (hf : Traces f f') (ha : Traces a a') : Traces (traceApp f a) (ctApp f' a') :=
  fun _ => hf.bind fun _ => ha.bind fun _ => rfl

lemma Traces.fix {v : TT} {v' : CT} (h : Traces v v') (x : String) : Traces (traceFix x v) (ctFix x v') := by
  have hself : Traces traceFixLam ctFixLam :=
    .lam (.app (traces_only _) (.app (traces_only _) (traces_only _))) "_fix_x"
  exact .app (.lam (.app hself hself) "_fix_h") (h.lam x)

lemma Traces.tlet {value body : TT} {value' body' : CT} (hv : Traces value value') (hb : Traces body body') (x : String)
    (v : Term) : Traces (traceLet x v value body) (ctLet x v value' body') := by
  intro s
  have hval : Traces (if letFix s.st x v then traceFix x value else value) (if letFix s.st x v then ctFix x value' else value') := by
    split_ifs
    · exact hv.fix x
    · exact hv
  unfold traceLet ctLet
  dsimp only
  generalize (if letFix s.st x v then traceFix x value else value) = compileVal at hval ⊢
  generalize (if letFix s.st x v then ctFix x value' else value') = compileVal' at hval ⊢
  split_ifs
  · refine hval.bind (s := ⟨s.st.enter s.st.curLvl 2, s.sites⟩) fun v => ?_
    exact hb.bind (s := ⟨_, v.2.sites⟩) fun r => rfl
  · refine hv.bind (s := ⟨_, s.sites⟩) fun v => ?_
    exact hb.bind (s := ⟨_, v.2.sites⟩) fun r => rfl

/-- A process without floats and without precompiled definitions. -/
def Library.empty : Library := ⟨fun _ _ => none, fun _ => none⟩

lemma trace_traces (t : Term) : Traces (trace .empty t) (ct t) := by
  induction t with
  | var x => exact traces_only _
  | lam x b ih => exact ih.lam x
  | app f a ihf iha => exact ihf.app iha
  | tlet x v b ihv ihb => exact ihv.tlet ihb x v
  | num k => exact traces_only _
  | defn x b ih => exact ih
  | float x => exact traces_only _
  | ref x => exact fun _ => rfl

/-- There the nets are those of `compile`. -/
theorem compileTrace_empty (t : Term) : (compileTrace .empty t).map (·.1) = compile t :=
  (trace_traces t).bind fun _ => rfl

/-! ## Extensions of a net -/

/-- New nodes come at the end. -/
structure Fresh (n : Net) : Prop where
  trie : TrieOk n
  free : n.freeHead = none

/-- The nodes and levels of `n` are as they were, and the new nodes as `P` says. -/
structure Extended (P : Tag → ℕ → Prop) (n m : Net) : Prop where
  fresh : Fresh m
  nn : n.nn ≤ m.nn
  levels : n.levels <+: m.levels
  old : ∀ v < n.nn, m.tag.get v = n.tag.get v ∧ m.scope.get v = n.scope.get v
  new : ∀ v, n.nn ≤ v → v < m.nn → P (m.tag.get v) (m.scope.get v)
  beyond : ∀ v, m.nn ≤ v → m.tag.get v = n.tag.get v

/-- No fan is new. -/
abbrev Plain : Net → Net → Prop := Extended fun t _ => t ≠ .dup

namespace Extended

variable {P Q : Tag → ℕ → Prop} {n m k : Net}

lemma refl (h : Fresh n) : Extended P n n :=
  ⟨h, le_rfl, List.prefix_rfl, fun _ _ => ⟨rfl, rfl⟩, fun _ hv hlt => absurd hlt (not_lt.2 hv), fun _ _ => rfl⟩

lemma trans (h : Extended P n m) (h' : Extended P m k) : Extended P n k := by
  refine ⟨h'.fresh, h.nn.trans h'.nn, h.levels.trans h'.levels, fun v hv => ?_, fun v hv hlt => ?_,
    fun v hv => (h'.beyond v hv).trans (h.beyond v (h'.nn.trans hv))⟩
  · have hm := h'.old v (hv.trans_le h.nn)
    exact ⟨hm.1.trans (h.old v hv).1, hm.2.trans (h.old v hv).2⟩
  · by_cases hvm : v < m.nn
    · have hm := h'.old v hvm
      rw [hm.1, hm.2]
      exact h.new v hv hvm
    · exact h'.new v (not_lt.1 hvm) hlt

lemma mono (h : Extended P n m) (hPQ : ∀ t s, P t s → Q t s) : Extended Q n m :=
  ⟨h.fresh, h.nn, h.levels, h.old, fun v hv hlt => hPQ _ _ (h.new v hv hlt), h.beyond⟩

/-- No node is new. -/
lemma still (h : Fresh n) (hnn : m.nn = n.nn) (hlevels : m.levels = n.levels) (htag : m.tag = n.tag)
    (hscope : m.scope = n.scope) (hfree : m.freeHead = n.freeHead) : Extended P n m :=
  ⟨⟨h.trie.congr hlevels, hfree.trans h.free⟩, hnn.ge, by rw [hlevels], fun v _ => ⟨by rw [htag], by rw [hscope]⟩,
    fun v hv hlt => absurd (hnn ▸ hlt) (not_lt.2 hv), fun v _ => by rw [htag]⟩

lemma link (h : Fresh n) (g : Globals) (a b : Option Port) (e : Bool) : Extended P n (netLink g n a b e) := by
  have hl := netLink_linked g n a b e
  exact still h hl.nn hl.levels hl.tag hl.scope hl.freeHead

lemma interned {path : List ℕ} {r : ℕ × Net} (h : Fresh n) (hr : Interned n path r) : Extended P n r.2 := by
  have hsame := hr.grown.same
  refine ⟨⟨hr.trieOk, ?_⟩, ?_, hr.grown.grown, fun v _ => ?_, fun v hv hlt => ?_, fun v _ => ?_⟩
  · rw [hsame]
    exact h.free
  · rw [hsame]
  · rw [hsame]
    exact ⟨rfl, rfl⟩
  · rw [hsame] at hlt
    exact absurd hlt (not_lt.2 hv)
  · rw [hsame]

lemma alloc (h : Fresh n) {t : Tag} {s : ℕ} (hP : P t s) :
    Extended P n (netAlloc .serial n t s).2 ∧ (netAlloc .serial n t s).1 = n.nn := by
  have he : netAlloc .serial n t s = (n.nn, initNode { n with nn := n.nn + 1 } n.nn t s) := by
    simp [netAlloc, Globals.serial, h.free, initNode]
  rw [he]
  refine ⟨⟨⟨h.trie.congr rfl, h.free⟩, Nat.le_succ _, List.prefix_rfl, fun v hv => ?_, fun v hv hlt => ?_,
    fun v hv => Table.get_set_ne _ (Nat.ne_of_lt hv) _⟩, rfl⟩
  · exact ⟨Table.get_set_ne _ (by omega) _, Table.get_set_ne _ (by omega) _⟩
  · obtain rfl : v = n.nn := le_antisymm (Nat.lt_succ_iff.1 hlt) hv
    show P ((n.tag.set n.nn t).get n.nn) ((n.scope.set n.nn s).get n.nn)
    rw [Table.get_set_self, Table.get_set_self]
    exact hP

/-- A level that is there keeps its path. -/
lemma lvlPath (h : Extended P n m) (hn : TrieOk n) {l : ℕ} (hl : l ≤ n.levels.length) : lvlPath m l = lvlPath n l := by
  have hg : Grown n { n with levels := m.levels } := ⟨rfl, h.levels⟩
  rw [← hg.lvlPath hn hl]
  refine lvlPath_congr ?_ l
  rfl

lemma thenLink (h : Extended P n m) (g : Globals) (a b : Option Port) (e : Bool) : Extended P n (netLink g m a b e) :=
  h.trans (link h.fresh g a b e)

lemma thenAlloc (h : Extended P n m) {t : Tag} {s : ℕ} (hP : P t s) : Extended P n (netAlloc .serial m t s).2 :=
  h.trans (alloc h.fresh hP).1

/-- A level one edge down. -/
lemma thenScope (h : Extended P n m) {l : ℕ} (hl : l ≤ m.levels.length) (bit : ℕ) :
    Extended P n (scopeApp m l bit).2 ∧ (scopeApp m l bit).1 ≤ (scopeApp m l bit).2.levels.length := by
  have hi : Interned m _ (scopeApp m l bit) := lvIntern_spec h.fresh.trie hl (bit % 2)
  exact ⟨h.trans (interned h.fresh hi), hi.le⟩

end Extended

/-! ## Numbers and floats -/

section Numbers

variable {n m : Net}

lemma Extended.thenBool (h : Plain n m) (val : Bool) : Plain n (netAllocBool .serial m val).2 := by
  unfold netAllocBool
  extract_lets bt bf n1 n2
  have hbt : Plain n bt.2 := h.thenAlloc (by decide)
  have hbf : Plain n bf.2 := hbt.thenAlloc (by decide)
  have hn1 : Plain n n1 := hbf.thenLink _ _ _ _
  have hn2 : Plain n n2 := hn1.thenLink _ _ _ _
  exact hn2

lemma Extended.thenCell (h : Plain n m) {l : ℕ} (hl : l ≤ n.levels.length) (bit : Bool) (cur : Port) :
    Plain n (scottCell .serial m l bit cur).2 := by
  unfold scottCell
  extract_lets f a b c s nn i ou n1 n2 n3 n4 n5 n6
  have hf := h.thenScope (hl.trans h.levels.length_le) 1
  have ha := hf.1.thenScope (hl.trans hf.1.levels.length_le) 2
  have hb : Plain n b.2 := ha.1.thenBool bit
  have hc : Plain n c.2 := hb.thenAlloc (by decide)
  have hfc : f.2.levels <+: c.2.levels := by
    have hfa := (Extended.refl (P := fun t _ => t ≠ .dup) hf.1.fresh).thenScope (l := l) (hl.trans hf.1.levels.length_le) 2
    exact ((hfa.1.thenBool bit).thenAlloc (by decide)).levels
  have hs := hc.thenScope (hf.2.trans hfc.length_le) 1
  have hnn : Plain n nn.2 := hs.1.thenAlloc (by decide)
  have hi : Plain n i.2 := hnn.thenAlloc (by decide)
  have hou : Plain n ou.2 := hi.thenAlloc (by decide)
  have hn1 : Plain n n1 := hou.thenLink _ _ _ _
  have hn2 : Plain n n2 := hn1.thenLink _ _ _ _
  have hn3 : Plain n n3 := hn2.thenLink _ _ _ _
  have hn4 : Plain n n4 := hn3.thenLink _ _ _ _
  have hn5 : Plain n n5 := hn4.thenLink _ _ _ _
  have hn6 : Plain n n6 := hn5.thenLink _ _ _ _
  exact hn6

lemma Extended.thenCells {l : ℕ} (hl : l ≤ n.levels.length) (k w : ℕ) {s : Port × Net} (h : Plain n s.2) :
    Plain n (scottCells .serial l k w s).2 := by
  induction w generalizing s with
  | zero => exact h
  | succ w ih => exact ih (h.thenCell hl _ _)

lemma Extended.thenScott (h : Plain n m) (k : ℕ) {l : ℕ} (hl : l ≤ n.levels.length) :
    Plain n (allocScott .serial m k l).2 := by
  unfold allocScott
  extract_lets bl nl n2 n3 t n4
  have hbl := h.thenScope (hl.trans h.levels.length_le) 1
  have hnl : Plain n nl.2 := hbl.1.thenAlloc (by decide)
  have hn2 : Plain n n2.2 := hnl.thenAlloc (by decide)
  have hn3 : Plain n n3 := hn2.thenLink _ _ _ _
  have ht : Plain n t.2 := hn3.thenBool true
  have hn4 : Plain n n4 := ht.thenLink _ _ _ _
  exact Extended.thenCells hl k _ hn4

lemma Extended.thenBox (h : Plain n m) (i : ℕ) : Plain n (netBoxIndex .serial m i).2 := by
  unfold netBoxIndex
  extract_lets a b ia oa idx n1 n2 n3 n4 n5 n6
  have ha : Plain n a.2 := h.thenAlloc (by decide)
  have hb : Plain n b.2 := ha.thenAlloc (by decide)
  have hia : Plain n ia.2 := hb.thenAlloc (by decide)
  have hoa : Plain n oa.2 := hia.thenAlloc (by decide)
  have hidx : Plain n idx.2 := hoa.thenScott i (Nat.zero_le _)
  have hn1 : Plain n n1 := hidx.thenLink _ _ _ _
  have hn2 : Plain n n2 := hn1.thenLink _ _ _ _
  have hn3 : Plain n n3 := hn2.thenLink _ _ _ _
  have hn4 : Plain n n4 := hn3.thenLink _ _ _ _
  have hn5 : Plain n n5 := hn4.thenLink _ _ _ _
  have hn6 : Plain n n6 := hn5.thenLink _ _ _ _
  exact hn6

end Numbers

/-! ## Positions and what is below them -/

/-- The compiler is at the position `π` of the term. -/
structure At (π : List ℕ) (s : CState) : Prop where
  fresh : Fresh s.net
  le : s.curLvl ≤ s.net.levels.length
  path : lvlPath s.net s.curLvl = π

/-- The paths properly below `π`. -/
def zone (π : List ℕ) : Set (List ℕ) := {q | ∃ r, r ≠ [] ∧ q = π ++ r}

lemma zone_step (π : List ℕ) (b : ℕ) : zone (π ++ [b]) ⊆ zone π := by
  rintro _ ⟨r, -, rfl⟩
  exact ⟨[b] ++ r, by simp, List.append_assoc _ _ _⟩

lemma edge_zone (π : List ℕ) (b : ℕ) : {π ++ [b]} ⊆ zone π := by
  rintro _ rfl
  exact ⟨[b], by simp, rfl⟩

/-- What is below one edge is apart from what is below the other. -/
lemma zone_disjoint (π : List ℕ) {b c : ℕ} (h : b ≠ c) : Disjoint (zone (π ++ [b])) (zone (π ++ [c])) := by
  rw [Set.disjoint_left]
  rintro _ ⟨r, -, rfl⟩ ⟨r', -, hr'⟩
  rw [List.append_assoc, List.append_assoc] at hr'
  have hcons := List.append_cancel_left hr'
  simp only [List.singleton_append, List.cons.injEq] at hcons
  exact h hcons.1

/-- The end of an edge is not below an edge. -/
lemma zone_edge (π : List ℕ) (b c : ℕ) : Disjoint (zone (π ++ [b])) {π ++ [c]} := by
  rw [Set.disjoint_singleton_right]
  rintro ⟨r, hr, he⟩
  have hlen := congrArg List.length he
  simp only [List.length_append, List.length_singleton] at hlen
  exact hr (List.eq_nil_of_length_eq_zero (by omega))

/-! ## What an entry of the log says -/

/-- The new fans have gauges in `S`. -/
structure FansAt (S : Set (List ℕ)) (n m : Net) : Prop where
  ext : Extended (fun _ _ => True) n m
  fan : ∀ v, n.nn ≤ v → v < m.nn → m.tag.get v = .dup →
    m.scope.get v ≤ m.levels.length ∧ lvlPath m (m.scope.get v) ∈ S

namespace FansAt

variable {S : Set (List ℕ)} {n m k : Net}

lemma plain (h : Plain n m) : FansAt S n m :=
  ⟨h.mono fun _ _ _ => trivial, fun v hv hlt hd => absurd hd (h.new v hv hlt)⟩

/-- The new fans have one gauge, that of a level which was there. -/
lemma single {sc : ℕ} (hn : TrieOk n) (hle : sc ≤ n.levels.length)
    (h : Extended (fun t s => t = .dup → s = sc ∧ lvlPath n sc ∈ S) n m) : FansAt S n m := by
  refine ⟨h.mono fun _ _ _ => trivial, fun v hv hlt hd => ?_⟩
  obtain ⟨hs, hS⟩ := h.new v hv hlt hd
  rw [hs, h.lvlPath hn hle]
  exact ⟨hle.trans h.levels.length_le, hS⟩

lemma trans (h : FansAt S n m) (h' : FansAt S m k) : FansAt S n k := by
  refine ⟨h.ext.trans h'.ext, fun v hv hlt hd => ?_⟩
  by_cases hvm : v < m.nn
  · have hold := h'.ext.old v hvm
    rw [hold.1] at hd
    rw [hold.2]
    have hfan := h.fan v hv hvm hd
    rw [h'.ext.lvlPath h.ext.fresh.trie hfan.1]
    exact ⟨hfan.1.trans h'.ext.levels.length_le, hfan.2⟩
  · exact h'.fan v (not_lt.1 hvm) hlt hd

end FansAt

/-! ## The gauges of a copy -/

section Copies

variable {src n : Net} {π : List ℕ} {lvl : ℕ}

/-- The copies of a node's fans are gauged below the position of the copy. -/
lemma spliceNodes_fans (hsrc : Raised src) (is : List ℕ) (hn : Fresh n) (hl : lvl ≤ n.levels.length)
    (hπ : lvlPath n lvl = π) : FansAt (zone π) n (spliceNodes src lvl is n).2 := by
  induction is generalizing n with
  | nil => exact .plain (.refl hn)
  | cons i is ih =>
    rw [spliceNodes]
    set sc := scopeRebase n src lvl (src.scope.get i)
    set v := netAlloc .serial sc.2 (src.tag.get i) sc.1
    have hsc : Interned n (lvlPath n lvl ++ lvlPath src (src.scope.get i)) sc := lvInternPath_spec hn.trie hl _
    have hgrown : Plain n sc.2 := .interned hn hsc
    have hv : FansAt (zone π) sc.2 v.2 := by
      refine .single hsc.trieOk hsc.le ((Extended.refl hgrown.fresh).thenAlloc fun hd => ⟨rfl, ?_⟩)
      rw [hsc.path, hπ]
      refine ⟨_, fun hnil => ?_, rfl⟩
      have hdepth := hsrc.fan i hd
      have hlen := congrArg List.length hnil
      rw [lvlPath_length] at hlen
      exact absurd hlen hdepth.ne'
    have hnv := (FansAt.plain hgrown).trans hv
    exact hnv.trans (ih hnv.ext.fresh (hl.trans hnv.ext.levels.length_le) ((hnv.ext.lvlPath hn.trie hl).trans hπ))

lemma Extended.thenWires {P : Tag → ℕ → Prop} {m : Net} (src : Net) (map : List ℕ) (val : Port) (is : List ℕ)
    (h : Extended P n m) : Extended P n (is.foldl (spliceNode src map val) m) := by
  have hwire : ∀ (ps : List Port) {k : Net}, Extended P n k → Extended P n (ps.foldl (spliceWire src map val) k) := by
    intro ps
    induction ps with
    | nil => exact fun hk => hk
    | cons p ps ih =>
      intro k hk
      refine ih ?_
      unfold spliceWire
      split
      · exact hk
      · split_ifs
        · exact hk
        · exact hk.thenLink _ _ _ _
  induction is generalizing m with
  | nil => exact h
  | cons i is ih =>
    refine ih ?_
    unfold spliceNode
    split_ifs
    · exact h
    · exact hwire _ h

lemma ctSplice_fans (hsrc : Raised src) {s : CState} (hs : At π s) {r : Port × CState} (hr : ctSplice src s = .ok r) :
    r.2.curLvl = s.curLvl ∧ FansAt (zone π) s.net r.2.net := by
  unfold ctSplice at hr
  split at hr
  · exact absurd hr (by simp)
  · rename_i val hval
    obtain rfl := Except.ok.inj hr
    have hnodes := spliceNodes_fans hsrc (List.range src.nn) hs.fresh hs.le hs.path
    exact ⟨rfl, hnodes.trans (.plain ((Extended.refl hnodes.ext.fresh).thenWires _ _ _ _))⟩

end Copies

/-- The fans of the entry `x` have gauges in `S`, and those of a fan tree one gauge. -/
structure Marks (n : Net) (x : Site) (S : Set (List ℕ)) : Prop where
  hi : x.hi ≤ n.nn
  fan : ∀ v, x.has v → n.tag.get v = .dup → n.scope.get v ≤ n.levels.length ∧ lvlPath n (n.scope.get v) ∈ S
  tree : x.kind = .fan → ∃ sc, ∀ v, x.has v → n.tag.get v = .dup ∧ n.scope.get v = sc

lemma Marks.later {P : Tag → ℕ → Prop} {n m : Net} {x : Site} {S : Set (List ℕ)} (h : Marks n x S) (hn : TrieOk n)
    (he : Extended P n m) : Marks m x S := by
  have hold : ∀ v, x.has v → m.tag.get v = n.tag.get v ∧ m.scope.get v = n.scope.get v :=
    fun v hv => he.old v (hv.2.trans_le h.hi)
  refine ⟨h.hi.trans he.nn, fun v hv hd => ?_, fun hk => ?_⟩
  · rw [(hold v hv).1] at hd
    rw [(hold v hv).2]
    have hfan := h.fan v hv hd
    rw [he.lvlPath hn hfan.1]
    exact ⟨hfan.1.trans he.levels.length_le, hfan.2⟩
  · obtain ⟨sc, hsc⟩ := h.tree hk
    refine ⟨sc, fun v hv => ?_⟩
    rw [(hold v hv).1, (hold v hv).2]
    exact hsc v hv

/-- The fans between `n` and `m` are logged in `new`, with sets of gauges in `Z` that are apart. -/
structure Logged (Z : Set (List ℕ)) (n m : Net) (new : List (Site × Set (List ℕ))) : Prop where
  ext : Extended (fun _ _ => True) n m
  within : ∀ x ∈ new, x.2 ⊆ Z
  marks : ∀ x ∈ new, Marks m x.1 x.2
  apart : new.Pairwise fun x y => Disjoint x.2 y.2
  covers : ∀ v, n.nn ≤ v → v < m.nn → m.tag.get v = .dup → ∃ x ∈ new, x.1.has v

namespace Logged

variable {Y Z : Set (List ℕ)} {n m k : Net} {a b : List (Site × Set (List ℕ))}

lemma plain (h : Plain n m) : Logged ∅ n m [] where
  ext := h.mono fun _ _ _ => trivial
  within := fun _ hx => absurd hx List.not_mem_nil
  marks := fun _ hx => absurd hx List.not_mem_nil
  apart := .nil
  covers := fun v hv hlt hd => absurd hd (h.new v hv hlt)

/-- One entry for all that is new. -/
lemma entry {x : Site} (h : FansAt Z n m) (hlo : x.lo = n.nn) (hhi : x.hi = m.nn)
    (htree : x.kind = .fan → ∃ sc, ∀ v, x.has v → m.tag.get v = .dup ∧ m.scope.get v = sc) : Logged Z n m [(x, Z)] where
  ext := h.ext
  within := by
    intro y hy
    rw [List.mem_singleton.1 hy]
  marks := by
    intro y hy
    rw [List.mem_singleton.1 hy]
    exact ⟨hhi.le, fun v hv => h.fan v (hlo ▸ hv.1) (hhi ▸ hv.2), htree⟩
  apart := List.pairwise_singleton _ _
  covers := fun v hv hlt _ => ⟨_, List.mem_singleton_self _, hlo ▸ hv, hhi ▸ hlt⟩

lemma trans (h : Logged Y n m a) (h' : Logged Z m k b) (hYZ : Disjoint Y Z) : Logged (Y ∪ Z) n k (a ++ b) where
  ext := h.ext.trans h'.ext
  within := by
    intro x hx
    rcases List.mem_append.1 hx with hx | hx
    · exact (h.within x hx).trans Set.subset_union_left
    · exact (h'.within x hx).trans Set.subset_union_right
  marks := by
    intro x hx
    rcases List.mem_append.1 hx with hx | hx
    · exact (h.marks x hx).later h.ext.fresh.trie h'.ext
    · exact h'.marks x hx
  apart := by
    refine List.pairwise_append.2 ⟨h.apart, h'.apart, fun x hx y hy => ?_⟩
    exact hYZ.mono (h.within x hx) (h'.within y hy)
  covers := by
    intro v hv hlt hd
    by_cases hvm : v < m.nn
    · rw [(h'.ext.old v hvm).1] at hd
      obtain ⟨x, hx, hxv⟩ := h.covers v hv hvm hd
      exact ⟨x, List.mem_append_left _ hx, hxv⟩
    · obtain ⟨x, hx, hxv⟩ := h'.covers v (not_lt.1 hvm) hlt hd
      exact ⟨x, List.mem_append_right _ hx, hxv⟩

lemma mono (h : Logged Y n m a) (hYZ : Y ⊆ Z) : Logged Z n m a :=
  ⟨h.ext, fun x hx => (h.within x hx).trans hYZ, h.marks, h.apart, h.covers⟩

lemma thenPlain (h : Logged Z n m a) (h' : Plain m k) : Logged Z n k a := by
  have ht := h.trans (plain h') (Set.disjoint_empty Z)
  rwa [Set.union_empty, List.append_nil] at ht

lemma afterPlain (h : Plain n m) (h' : Logged Z m k b) : Logged Z n k b := by
  have ht := (plain h).trans h' (Set.empty_disjoint Z)
  rwa [Set.empty_union, List.nil_append] at ht

/-- Two entries have their gauges apart. -/
lemma disjoint (h : Logged Z n m a) {i j : ℕ} (hij : i < j) {x y : Site × Set (List ℕ)} (hx : a[i]? = some x)
    (hy : a[j]? = some y) : Disjoint x.2 y.2 := by
  obtain ⟨hi, rfl⟩ := List.getElem?_eq_some_iff.1 hx
  obtain ⟨hj, rfl⟩ := List.getElem?_eq_some_iff.1 hy
  exact List.pairwise_iff_getElem.1 h.apart i j hi hj hij

end Logged

/-! ## Fan trees -/

/-- No node is new. -/
abbrev Still : Net → Net → Prop := Extended fun _ _ => False

/-- The new nodes are fans with one gauge, whose path is `q`. -/
def TreeAt (q : List ℕ) (n m : Net) : Prop :=
  ∃ sc, Extended (fun t s => t = .dup ∧ s = sc) n m ∧ (n.nn < m.nn → sc ≤ m.levels.length ∧ lvlPath m sc = q)

namespace TreeAt

variable {q : List ℕ} {n m k : Net}

lemma still (h : Still n m) : TreeAt q n m := by
  refine ⟨0, h.mono fun _ _ hf => hf.elim, fun hlt => ?_⟩
  exact (h.new n.nn le_rfl hlt).elim

lemma trans (h : TreeAt q n m) (h' : Still m k) : TreeAt q n k := by
  obtain ⟨sc, he, hq⟩ := h
  refine ⟨sc, he.trans (h'.mono fun _ _ hf => hf.elim), fun hlt => ?_⟩
  have hlt' : n.nn < m.nn := by
    by_contra hge
    exact h'.new n.nn (not_lt.1 hge) hlt
  rw [h'.lvlPath he.fresh.trie (hq hlt').1]
  exact ⟨(hq hlt').1.trans h'.levels.length_le, (hq hlt').2⟩

lemma after (h : Still n m) (h' : TreeAt q m k) : TreeAt q n k := by
  obtain ⟨sc, he, hq⟩ := h'
  refine ⟨sc, (h.mono fun _ _ hf => hf.elim).trans he, fun hlt => hq ?_⟩
  by_contra hge
  exact h.new n.nn le_rfl (hlt.trans_le (not_lt.1 hge))

/-- The log of a fan tree. -/
lemma logged (h : TreeAt q n m) : Logged {q} n m [(⟨.fan, n.nn, m.nn⟩, {q})] := by
  obtain ⟨sc, he, hq⟩ := h
  refine .entry ⟨he.mono fun _ _ _ => trivial, fun v hv hlt _ => ?_⟩ rfl rfl fun _ => ⟨sc, fun v hv => he.new v hv.1 hv.2⟩
  rw [(he.new v hv hlt).2]
  exact hq (hv.trans_lt hlt)

end TreeAt

section Trees

variable {n m : Net}

lemma Extended.thenTreeLoop {P : Tag → ℕ → Prop} {sc : ℕ} (hP : P .dup sc) (ts : List (Option Port)) {cur : Port}
    (h : Extended P n m) : Extended P n (dupTreeLoop .serial m cur sc ts).2 := by
  induction ts generalizing m cur with
  | nil => exact h
  | cons t ts ih =>
    have hd := h.thenAlloc hP
    exact ih ((hd.thenLink _ _ _ _).thenLink _ _ _ _)

lemma Extended.thenTree {P : Tag → ℕ → Prop} {sc : ℕ} (hP : P .dup sc) (ts : List (Option Port))
    (h : Extended P n m) : Extended P n (dupTree .serial m ts sc).2 := by
  unfold dupTree
  split
  · exact h
  · exact h
  · have hd := h.thenAlloc hP
    exact ((hd.thenLink _ _ _ _).thenLink _ _ _ _).thenTreeLoop hP _

lemma Extended.spent (h : Fresh n) (v : ℕ) : Still n (({ n with dead := n.dead.set v true }).setWire ⟨v, 1⟩ none) :=
  .still h rfl rfl rfl rfl rfl

lemma usePorts_still (h : Fresh n) (e : CVar) (bind : Port) : Still n (usePorts n e bind).2 := by
  have hspend : ∀ (ps : List Port) {n : Net}, Fresh n → Still n (spendExtras n ps).2 := by
    intro ps
    induction ps with
    | nil => exact fun hn => .refl hn
    | cons p ps ih =>
      intro n hn
      have hp := Extended.spent hn p.node
      exact hp.trans (ih hp.fresh)
  exact hspend e.extra h

lemma dupTree_tree {q : List ℕ} (h : Fresh n) (ts : List (Option Port)) {sc : ℕ} (hle : sc ≤ n.levels.length)
    (hq : lvlPath n sc = q) : TreeAt q n (dupTree .serial n ts sc).2 := by
  have htree := (Extended.refl h).thenTree (P := fun t s => t = .dup ∧ s = sc) ⟨rfl, rfl⟩ ts
  refine ⟨sc, htree, fun _ => ?_⟩
  rw [htree.lvlPath h.trie hle]
  exact ⟨hle.trans htree.levels.length_le, hq⟩

lemma TreeAt.thenLink {q : List ℕ} (h : TreeAt q n m) (a b : Option Port) (e : Bool) :
    TreeAt q n (netLink .serial m a b e) := by
  obtain ⟨sc, he, hq⟩ := h
  exact TreeAt.trans ⟨sc, he, hq⟩ (.link he.fresh _ _ _ _)

variable {q : List ℕ} {s : CState}

/-- The fan tree of a binder. -/
lemma fanOut_tree (h : Fresh s.net) (self : ℕ) {sc : ℕ} (hle : sc ≤ s.net.levels.length) (hq : lvlPath s.net sc = q) :
    (fanOut s self sc).curLvl = s.curLvl ∧ TreeAt q s.net (fanOut s self sc).net := by
  unfold fanOut
  split
  · exact ⟨rfl, .still (.refl h)⟩
  rename_i e _ _
  split_ifs
  · have huse := usePorts_still h e ⟨self, 1⟩
    have htree := dupTree_tree huse.fresh (usePorts s.net e ⟨self, 1⟩).1 (hle.trans huse.levels.length_le)
      ((huse.lvlPath h.trie hle).trans hq)
    exact ⟨rfl, .after huse (htree.thenLink _ _ _)⟩
  · exact ⟨rfl, .still (.refl h)⟩

/-- The fan tree of a let. -/
lemma tieLet_tree (h : Fresh s.net) {save : ℕ} (hle : save ≤ s.net.levels.length) (hq : lvlPath s.net save = q) (ph : ℕ)
    (val body : Port) :
    (tieLet s save ph val body).2.curLvl = s.curLvl ∧ TreeAt (q ++ [0]) s.net (tieLet s save ph val body).2.net := by
  have hstill : TreeAt (q ++ [0]) s.net s.net := .still (.refl h)
  unfold tieLet
  split
  · exact ⟨rfl, hstill⟩
  rename_i e _ _
  split_ifs
  · exact ⟨rfl, hstill⟩
  · split
    · exact ⟨rfl, hstill⟩
    · rename_i use0 _
      split_ifs
      · exact ⟨rfl, hstill.thenLink (some use0) (some val) true⟩
      · exact ⟨rfl, hstill⟩
  · have huse := usePorts_still h e ⟨ph, 1⟩
    have hi : Interned _ _ (scopeApp (usePorts s.net e ⟨ph, 1⟩).2 save 2) :=
      lvIntern_spec huse.fresh.trie (hle.trans huse.levels.length_le) (2 % 2)
    have hlvl : Still s.net _ := huse.trans (.interned huse.fresh hi)
    have htree := dupTree_tree hlvl.fresh (usePorts s.net e ⟨ph, 1⟩).1 hi.le hi.path
    rw [huse.lvlPath h.trie hle, hq] at htree
    exact ⟨rfl, .after hlvl (htree.thenLink _ _ _)⟩
  · exact ⟨rfl, hstill⟩

end Trees

/-! ## The parts of the compiler -/

section Parts

variable {π : List ℕ} {s : CState}

lemma At.later {P : Tag → ℕ → Prop} (h : At π s) {s' : CState} (he : Extended P s.net s'.net) (hc : s'.curLvl = s.curLvl) :
    At π s' := by
  refine ⟨he.fresh, ?_, ?_⟩
  · rw [hc]
    exact h.le.trans he.levels.length_le
  · rw [hc, he.lvlPath h.fresh.trie h.le]
    exact h.path

lemma At.enter (h : At π s) (bit : ℕ) : At (π ++ [bit % 2]) (s.enter s.curLvl bit) ∧ Plain s.net (s.enter s.curLvl bit).net := by
  have hi : Interned s.net _ (scopeApp s.net s.curLvl bit) := lvIntern_spec h.fresh.trie h.le (bit % 2)
  have hp : Plain s.net (s.enter s.curLvl bit).net := .interned h.fresh hi
  rw [h.path] at hi
  exact ⟨⟨hp.fresh, hi.le, hi.path⟩, hp⟩

lemma Extended.stateLink {P : Tag → ℕ → Prop} (h : Fresh s.net) (a b : Option Port) (e : Bool) :
    Extended P s.net (s.link a b e).net := .link h .serial a b e

lemma except_bind {ε α β : Type} {x : Except ε α} {k : α → Except ε β} {b : β} (h : x >>= k = .ok b) :
    ∃ a, x = .ok a ∧ k a = .ok b := by
  cases x with
  | error e => exact absurd h (by simp [bind, Except.bind])
  | ok a => exact ⟨a, rfl, h⟩

/-- At `π` a part logs its fans, and they are gauged below `π`. -/
def Logs (c : TT) : Prop := ∀ (π : List ℕ) (s : Trace) (r : Port × Trace), At π s.st → c s = .ok r →
  r.2.st.curLvl = s.st.curLvl ∧
    ∃ new, r.2.sites = s.sites ++ new.map Prod.fst ∧ Logged (zone π) s.st.net r.2.st.net new

/-- A part without fans. -/
def Fanless (c : CT) : Prop := ∀ (π : List ℕ) (s : CState) (r : Port × CState), At π s → c s = .ok r →
  r.2.curLvl = s.curLvl ∧ Plain s.net r.2.net

lemma Fanless.logs {c : CT} (h : Fanless c) : Logs (traceOnly c) := by
  intro π s r hs hr
  obtain ⟨a, ha, hr⟩ := except_bind hr
  obtain rfl := Except.ok.inj hr
  obtain ⟨hcur, hplain⟩ := h π s.st a hs ha
  exact ⟨hcur, [], (List.append_nil _).symm, (Logged.plain hplain).mono (Set.empty_subset _)⟩

lemma fanless_var (x : String) : Fanless (ctVar x) := by
  intro π s r hs hr
  have huse : ∀ pre e post, (useVar s pre e post).2.curLvl = s.curLvl ∧ Plain s.net (useVar s pre e post).2.net := by
    intro pre e post
    unfold useVar
    split_ifs
    · exact ⟨rfl, .refl hs.fresh⟩
    · exact ⟨rfl, (Extended.alloc hs.fresh (by decide)).1⟩
  have hloop : ∀ (es pre : List CVar), ctVarLoop s x pre es = .ok r → r.2.curLvl = s.curLvl ∧ Plain s.net r.2.net := by
    intro es
    induction es with
    | nil => intro pre he; exact absurd he (by simp [ctVarLoop])
    | cons e es ih =>
      intro pre he
      unfold ctVarLoop at he
      split_ifs at he
      · obtain rfl := Except.ok.inj he
        exact huse pre e es
      · exact ih _ he
  exact hloop s.cstack [] hr

lemma fanless_num (k : ℕ) : Fanless (ctNum k) := by
  intro π s r hs hr
  obtain rfl := Except.ok.inj hr
  exact ⟨rfl, (Extended.refl hs.fresh).thenScott _ hs.le⟩

lemma fanless_float (L : Library) (x : String) : Fanless (ctFloat L x) := by
  intro π s r hs hr
  unfold ctFloat at hr
  split at hr
  · exact absurd hr (by simp)
  · obtain rfl := Except.ok.inj hr
    exact ⟨rfl, (Extended.refl hs.fresh).thenBox _⟩

lemma logs_splice {src : Net} (hsrc : Raised src) : Logs (traceSplice src) := by
  intro π s r hs hr
  obtain ⟨a, ha, hr⟩ := except_bind hr
  obtain rfl := Except.ok.inj hr
  obtain ⟨hcur, hfans⟩ := ctSplice_fans hsrc hs ha
  exact ⟨hcur, _, rfl, .entry hfans rfl rfl (by simp)⟩

lemma logs_lam {body : TT} (h : Logs body) (x : String) : Logs (traceLam x body) := by
  intro π s r hs hr
  obtain ⟨b, hb, hr⟩ := except_bind hr
  obtain rfl := Except.ok.inj hr
  set self := s.st.alloc .lam s.st.curLvl
  set lvl := scopeApp self.2.net s.st.curLvl 1
  set s1 := pushVar { self.2 with net := lvl.2 } x ⟨self.1, 1⟩
  set s2 := CState.link { b.2.st with curLvl := s.st.curLvl } (some ⟨self.1, 2⟩) (some b.1) false
  have hself : Plain s.st.net self.2.net := (Extended.alloc hs.fresh (by decide)).1
  have hi : Interned self.2.net _ lvl := lvIntern_spec hself.fresh.trie (hs.le.trans hself.levels.length_le) (1 % 2)
  have hlvl : Plain s.st.net s1.net := hself.trans (.interned hself.fresh hi)
  have hin := (hs.later hlvl rfl).enter 1
  obtain ⟨-, new, hsites, hlog⟩ := h _ _ b hin.1 hb
  have hlink : Plain b.2.st.net s2.net := .stateLink hlog.ext.fresh _ _ _
  -- The level of the tree was interned before the body.
  have hlater : Extended (fun _ _ => True) lvl.2 s2.net :=
    (hin.2.mono fun _ _ _ => trivial).trans (hlog.ext.trans (hlink.mono fun _ _ _ => trivial))
  have hpath : lvlPath s2.net lvl.1 = π ++ [1] := by
    rw [hlater.lvlPath hi.trieOk hi.le, hi.path, hself.lvlPath hs.fresh.trie hs.le, hs.path]
  obtain ⟨hcur, htree⟩ := fanOut_tree hlink.fresh self.1 (hi.le.trans hlater.levels.length_le) hpath
  have hbody : Logged (zone (π ++ [1])) s.st.net s2.net new := ((hlog.thenPlain hlink).afterPlain (hlvl.trans hin.2))
  have hall := hbody.trans htree.logged (zone_edge π 1 1)
  refine ⟨hcur, _, ?_, hall.mono (Set.union_subset (zone_step π 1) (edge_zone π 1))⟩
  rw [hsites, List.map_append, List.append_assoc]
  rfl

lemma logs_app {f a : TT} (hf : Logs f) (ha : Logs a) : Logs (traceApp f a) := by
  intro π s r hs hr
  obtain ⟨l, hl, hr⟩ := except_bind hr
  obtain ⟨t, ht, hr⟩ := except_bind hr
  obtain rfl := Except.ok.inj hr
  set self := s.st.alloc .app s.st.curLvl
  set s1 := l.2.st.link (some ⟨self.1, 0⟩) (some l.1) true
  have hself : Plain s.st.net self.2.net := (Extended.alloc hs.fresh (by decide)).1
  have hself' : At π self.2 := hs.later hself rfl
  have hin := hself'.enter 1
  obtain ⟨-, new, hsites, hlog⟩ := hf _ _ l hin.1 hl
  have hlink : Plain l.2.st.net s1.net := .stateLink hlog.ext.fresh _ _ _
  have hf : Logged (zone (π ++ [1])) s.st.net s1.net new := (hlog.thenPlain hlink).afterPlain (hself.trans hin.2)
  have hs1 : At π { s1 with curLvl := s.st.curLvl } := hs.later hf.ext rfl
  have hin' := hs1.enter 2
  obtain ⟨-, new', hsites', hlog'⟩ := ha _ _ t hin'.1 ht
  have hlink' := Extended.link (P := fun t _ => t ≠ .dup) hlog'.ext.fresh .serial (some ⟨self.1, 2⟩) (some t.1) true
  have hall := hf.trans ((hlog'.thenPlain hlink').afterPlain hin'.2) (zone_disjoint π (by decide))
  refine ⟨rfl, _, ?_, hall.mono (Set.union_subset (zone_step π 1) (zone_step π 0))⟩
  rw [hsites', hsites, List.map_append, List.append_assoc]

lemma logs_fix {v : TT} (h : Logs v) (x : String) : Logs (traceFix x v) := by
  have hvar : ∀ x, Logs (traceOnly (ctVar x)) := fun x => (fanless_var x).logs
  have hself : Logs traceFixLam := logs_lam (logs_app (hvar _) (logs_app (hvar _) (hvar _))) _
  exact logs_app (logs_lam (logs_app hself hself) _) (logs_lam h x)

/-- The end of a let logs the tree over the uses of its name. -/
lemma closeTrace_logged {s : Trace} {save : ℕ} (h : Fresh s.st.net) (hle : save ≤ s.st.net.levels.length)
    (hq : lvlPath s.st.net save = π) (ph : ℕ) (val body : Port) :
    (closeTrace save ph val body s).2.st.curLvl = save ∧ ∃ x, (closeTrace save ph val body s).2.sites = s.sites ++ [x] ∧
      Logged {π ++ [0]} s.st.net (closeTrace save ph val body s).2.st.net [(x, {π ++ [0]})] := by
  obtain ⟨hcur, htree⟩ := tieLet_tree (s := { s.st with curLvl := save }) h hle hq ph val body
  have hlog := htree.logged
  have hspent : Plain _ (closeTrace save ph val body s).2.st.net :=
    (Extended.spent hlog.ext.fresh ph).mono fun _ _ hf => hf.elim
  exact ⟨hcur, _, rfl, hlog.thenPlain hspent⟩

/-- A value, a body and the end of a let. -/
lemma logs_tied {value body : TT} (hv : Logs value) (hb : Logs body) {s s1 : CState} (hs : At π s) (h1 : Plain s.net s1.net)
    (hc1 : s1.curLvl = s.curLvl) {sites : List Site} {v b r : Port × Trace} {t : CState} {ph : ℕ}
    (hvr : value ⟨s1.enter s.curLvl 2, sites⟩ = .ok v) (ht : Plain v.2.st.net t.net) (hbr : body ⟨t.enter s.curLvl 1, v.2.sites⟩ = .ok b)
    (hr : closeTrace s.curLvl ph v.1 b.1 b.2 = r) :
    r.2.st.curLvl = s.curLvl ∧ ∃ new, r.2.sites = sites ++ new.map Prod.fst ∧ Logged (zone π) s.net r.2.st.net new := by
  have hs1 : At π s1 := hs.later h1 hc1
  have hin := hs1.enter 2
  rw [hc1] at hin
  obtain ⟨-, new, hsites, hlog⟩ := hv _ _ v hin.1 hvr
  have hvalue : Logged (zone (π ++ [0])) s.net t.net new := (hlog.thenPlain ht).afterPlain (h1.trans hin.2)
  have ht' : At π { t with curLvl := s.curLvl } := hs.later hvalue.ext rfl
  have hin' := ht'.enter 1
  obtain ⟨-, new', hsites', hlog'⟩ := hb _ _ b hin'.1 hbr
  have hbody : Logged (zone (π ++ [0]) ∪ zone (π ++ [1])) s.net b.2.st.net (new ++ new') :=
    hvalue.trans (hlog'.afterPlain hin'.2) (zone_disjoint π (by decide))
  obtain ⟨hcur, x, hx, htree⟩ := closeTrace_logged hbody.ext.fresh (hs.le.trans hbody.ext.levels.length_le)
    ((hbody.ext.lvlPath hs.fresh.trie hs.le).trans hs.path) ph v.1 b.1
  rw [hr] at hcur hx htree
  have hall := hbody.trans htree (Set.disjoint_union_left.2 ⟨zone_edge π 0 0, zone_edge π 1 0⟩)
  refine ⟨hcur, _, ?_, hall.mono ?_⟩
  · rw [hx, hsites', hsites]
    simp
  · exact Set.union_subset (Set.union_subset (zone_step π 0) (zone_step π 1)) (edge_zone π 0)

lemma logs_let {value body : TT} (hv : Logs value) (hb : Logs body) (x : String) (v : Term) :
    Logs (traceLet x v value body) := by
  intro π s r hs hr
  have hval : Logs (if letFix s.st x v then traceFix x value else value) := by
    split_ifs
    · exact logs_fix hv x
    · exact hv
  unfold traceLet at hr
  dsimp only at hr
  generalize (if letFix s.st x v then traceFix x value else value) = compileVal at hval hr
  split_ifs at hr
  · obtain ⟨c, hc, hr⟩ := except_bind hr
    obtain ⟨b, hbr, hr⟩ := except_bind hr
    obtain rfl := Except.ok.inj hr
    have hfresh : Fresh c.2.st.net := by
      obtain ⟨-, new, -, hlog⟩ := hval _ _ c (hs.enter 2).1 hc
      exact hlog.ext.fresh
    exact logs_tied hval hb hs (.refl hs.fresh) rfl hc (Extended.alloc hfresh (by decide)).1 hbr rfl
  · obtain ⟨c, hc, hr⟩ := except_bind hr
    obtain ⟨b, hbr, hr⟩ := except_bind hr
    obtain rfl := Except.ok.inj hr
    set s1 := pushVar (s.st.alloc .era 0).2 x ⟨(s.st.alloc .era 0).1, 1⟩
    have hph : Plain s.st.net s1.net := (Extended.alloc hs.fresh (by decide)).1
    have hs1 : At π s1 := hs.later hph rfl
    have hfresh : Fresh c.2.st.net := by
      obtain ⟨-, new, -, hlog⟩ := hv _ _ c (hs1.enter 2).1 hc
      exact hlog.ext.fresh
    exact logs_tied hv hb hs hph rfl hc (.refl hfresh) hbr rfl

/-- The compiler gauges its fans by the positions of the term. -/
theorem trace_logs {L : Library} (hL : ∀ x src, L.compiled x = some src → Raised src) (t : Term) : Logs (trace L t) := by
  induction t with
  | var x => exact (fanless_var x).logs
  | lam x b ih => exact logs_lam ih x
  | app f a ihf iha => exact logs_app ihf iha
  | tlet x v b ihv ihb => exact logs_let ihv ihb x v
  | num k => exact (fanless_num k).logs
  | defn x b ih => exact ih
  | float x => exact (fanless_float L x).logs
  | ref x =>
    rw [trace]
    cases hx : L.compiled x with
    | some src => exact logs_splice (hL x src hx)
    | none => exact fun _ _ _ _ hr => absurd hr (by simp)

end Parts

/-! ## Precompiled definitions -/

/-- `net_level_set`: the depths follow from the parents. -/
def levelSet (table : List (ℕ × ℕ)) : List Level :=
  table.foldl (fun ls e => ls ++ [⟨e.1, e.2, if e.1 = 0 then 1 else (ls[e.1 - 1]?.map (·.depth)).getD 0 + 1⟩]) []

/-- `net_copy`: neither pairs nor roots nor free slots of its own. -/
def netCopy (n : Net) : Net :=
  { n with
    levels := levelSet (n.levels.map fun l => (l.parent, l.bit))
    dem := .empty, demStamp := 0, vport := .empty, act := .empty, atop := 0, steps := 0, actOf := .empty, root := []
    freeHead := none, nfree := 0, pendHead := none, pins := 0 }

/-- What a driver may do to the fans: it allocates none, and gives none a gauge. -/
structure NoFans (n m : Net) : Prop where
  taller : Taller n m
  fan : ∀ v, m.tag.get v = .dup → ∃ u, n.tag.get u = .dup ∧ n.scope.get u = m.scope.get v

/-- What becomes of `n` before it is stored: the core reduces and forces, a driver may fire pairs. -/
inductive Evaluated (n : Net) : Net → Prop
  | start : Evaluated n n
  | reduce {m : Net} (g : Globals) (gcenv : Option ℕ) (limit : ℕ) : Evaluated n m → Evaluated n (netReduce g gcenv limit m)
  | force {m : Net} (g : Globals) (gcenv : Option ℕ) (p : Port) : Evaluated n m → Evaluated n (netForce g gcenv m p)
  | fire {m : Net} (g : Globals) (p q : Port) : Evaluated n m → Evaluated n (netInteract g m p q).2
  | driver {m k : Net} : Evaluated n m → NoFans m k → Evaluated n k

/-- The tables of precompiled nets that a process can have: each is the copy of a net that the compiler
made when the others were there. -/
inductive Baked : (String → Option Net) → Prop
  | none : Baked fun _ => .none
  | bake {compiled : String → Option Net} {index : String → Net → Option ℕ} {t : Term} {n m : Net} {sites : List Site}
      (x : String) : Baked compiled → compileTrace ⟨index, compiled⟩ t = .ok (n, sites) → Evaluated n m →
      Baked (Function.update compiled x (some (netCopy m)))
  | drop {compiled : String → Option Net} (x : String) : Baked compiled → Baked (Function.update compiled x .none)

/-- What the log of a whole run says of the net. -/
lemma compileTrace_logged {L : Library} (hL : ∀ x src, L.compiled x = some src → Raised src) {t : Term} {n : Net}
    {sites : List Site} (h : compileTrace L t = .ok (n, sites)) :
    ∃ new, sites = new.map Prod.fst ∧ Logged (zone []) netInit n new := by
  obtain ⟨r, hr, h⟩ := except_bind h
  obtain ⟨rfl, rfl⟩ := Prod.mk.inj (Except.ok.inj h)
  have hinit : At [] ⟨netInit, [], 0⟩ := by
    refine ⟨⟨⟨fun i l hl => ?_, fun i l hl => ?_⟩, rfl⟩, le_rfl, rfl⟩
    · exact absurd hl (by simp [netInit, netAlloc, Net.blank])
    · exact absurd hl (by simp [netInit, netAlloc, Net.blank])
  obtain ⟨-, new, hsites, hlog⟩ := trace_logs hL t _ _ r hinit hr
  rw [List.nil_append] at hsites
  exact ⟨new, hsites, hlog.thenPlain (.link hlog.ext.fresh _ _ _ _)⟩

lemma compileTrace_raised {L : Library} (hL : ∀ x src, L.compiled x = some src → Raised src) {t : Term} {n : Net}
    {sites : List Site} (h : compileTrace L t = .ok (n, sites)) : Raised n := by
  obtain ⟨new, -, hlog⟩ := compileTrace_logged hL h
  have hinit : ∀ v, netInit.tag.get v ≠ .dup := by
    intro v
    have htag : netInit.tag = (Table.empty.set 0 .root) := rfl
    rw [htag, Table.get_set]
    split_ifs
    · decide
    · rw [Table.get_empty]
      decide
  refine ⟨hlog.ext.fresh.trie, fun v hv => ?_⟩
  by_cases hlt : v < n.nn
  · by_cases hold : v < netInit.nn
    · rw [(hlog.ext.old v hold).1] at hv
      exact absurd hv (hinit v)
    obtain ⟨x, hx, hxv⟩ := hlog.covers v (not_lt.1 hold) hlt hv
    obtain ⟨p, hp, hpath⟩ := hlog.within x hx ((hlog.marks x hx).fan v hxv hv).2
    rw [← lvlPath_length, hpath]
    exact List.length_pos_iff.2 (by simpa using hp)
  · rw [hlog.ext.beyond v (not_lt.1 hlt)] at hv
    exact absurd hv (hinit v)

lemma Evaluated.raised {n m : Net} (h : Evaluated n m) (hn : Raised n) : Raised m := by
  induction h with
  | start => exact hn
  | reduce g gcenv limit _ ih => exact ih.netReduce g gcenv limit
  | force g gcenv p _ ih => exact ih.netForce g gcenv p
  | fire g p q _ ih => exact ih.netInteract g p q
  | driver _ hd ih => exact ih.later hd.taller hd.fan

/-- The trie of a copy is the trie that was there. -/
lemma levelSet_map {n : Net} (hn : TrieOk n) : levelSet (n.levels.map fun l => (l.parent, l.bit)) = n.levels := by
  generalize hls : n.levels = ls
  induction ls using List.reverseRecOn generalizing n with
  | nil => rfl
  | append_singleton ls l ih =>
    have hlast : n.levels[ls.length]? = some l := by rw [hls]; simp
    have hg : Grown { n with levels := ls } n := ⟨rfl, by rw [hls]; exact List.prefix_append _ _⟩
    have hle := hn.parent _ l hlast
    have hprefix : TrieOk { n with levels := ls } := by
      refine ⟨fun i k hk => ?_, fun i k hk => ?_⟩
      · have hi := (List.getElem?_eq_some_iff.1 hk).1
        exact hn.parent i k ((hg.entry hi).trans hk)
      · have hi : i < ls.length := (List.getElem?_eq_some_iff.1 hk).1
        have hk' := (hg.entry hi).trans hk
        rw [hn.depth i k hk', hg.lvDepth ((hn.parent i k hk').trans hi.le)]
    have hdepth := hn.depth _ l hlast
    rw [hg.lvDepth hle] at hdepth
    have hbelow := ih hprefix rfl
    unfold levelSet at hbelow ⊢
    rw [List.map_append, List.foldl_append, hbelow]
    have hl : (if l.parent = 0 then 1 else (ls[l.parent - 1]?.map (·.depth)).getD 0 + 1) = l.depth := by
      rw [hdepth]
      unfold lvDepth
      split_ifs <;> rfl
    simp only [List.map_cons, List.map_nil, List.foldl_cons, List.foldl_nil, hl]

lemma netCopy_raised {n : Net} (h : Raised n) : Raised (netCopy n) := by
  have hlevels : (netCopy n).levels = n.levels := levelSet_map h.trie
  exact h.later (.of_eq hlevels) fun v hv => ⟨v, hv, rfl⟩

/-- A precompiled net has no fan at the root level. -/
theorem Baked.raised {compiled : String → Option Net} (h : Baked compiled) :
    ∀ x src, compiled x = some src → Raised src := by
  induction h with
  | none => exact fun x src hx => absurd hx (by simp)
  | bake x hb hc hm ih =>
    intro y src hy
    by_cases hyx : y = x
    · subst hyx
      rw [Function.update_self] at hy
      obtain rfl := Option.some.inj hy
      exact netCopy_raised (hm.raised (compileTrace_raised ih hc))
    · rw [Function.update_of_ne hyx] at hy
      exact ih y src hy
  | drop x hb ih =>
    intro y src hy
    by_cases hyx : y = x
    · subst hyx
      rw [Function.update_self] at hy
      exact absurd hy (by simp)
    · rw [Function.update_of_ne hyx] at hy
      exact ih y src hy

/-- In the net of a term each fan is in an entry of the log. The fans of two trees have one gauge if they are
of the same binder or let, and only then; a fan of a copy has the gauge of no fan outside that copy. -/
theorem compileTrace_gauges {index : String → Net → Option ℕ} {compiled : String → Option Net} (hb : Baked compiled)
    {t : Term} {n : Net} {sites : List Site} (h : compileTrace ⟨index, compiled⟩ t = .ok (n, sites)) :
    (∀ v < n.nn, n.tag.get v = .dup → ∃ x ∈ sites, x.has v) ∧
      ∀ (i j : ℕ) (x y : Site), sites[i]? = some x → sites[j]? = some y → ∀ v w, x.has v → n.tag.get v = .dup → y.has w →
        n.tag.get w = .dup →
          (x.kind = .fan → y.kind = .fan → (n.scope.get v = n.scope.get w ↔ i = j)) ∧
          (x.kind = .splice ∨ y.kind = .splice → i ≠ j → n.scope.get v ≠ n.scope.get w) := by
  obtain ⟨new, rfl, hlog⟩ := compileTrace_logged hb.raised h
  have hentry : ∀ {i : ℕ} {x : Site}, (new.map Prod.fst)[i]? = some x → ∃ S, new[i]? = some (x, S) := by
    intro i x hx
    rw [List.getElem?_map, Option.map_eq_some_iff] at hx
    obtain ⟨⟨y, S⟩, hy, rfl⟩ := hx
    exact ⟨S, hy⟩
  refine ⟨fun v hv hd => ?_, fun i j x y hx hy v w hv hvd hw hwd => ?_⟩
  · have hnew : netInit.nn ≤ v := by
      by_contra hold
      obtain rfl : v = 0 := Nat.lt_one_iff.1 (not_le.1 hold)
      rw [(hlog.ext.old 0 (by decide)).1] at hd
      exact absurd hd (by decide)
    obtain ⟨e, he, hev⟩ := hlog.covers v hnew hv hd
    exact ⟨e.1, List.mem_map_of_mem he, hev⟩
  obtain ⟨S, hS⟩ := hentry hx
  obtain ⟨T, hT⟩ := hentry hy
  have hxm := hlog.marks _ (List.mem_of_getElem? hS)
  have hym := hlog.marks _ (List.mem_of_getElem? hT)
  have hapart : i ≠ j → n.scope.get v ≠ n.scope.get w := by
    intro hij hsame
    have hdisjoint : Disjoint S T := by
      rcases lt_or_gt_of_ne hij with hlt | hlt
      · exact hlog.disjoint hlt hS hT
      · exact (hlog.disjoint hlt hT hS).symm
    have hvS := (hxm.fan v hv hvd).2
    rw [hsame] at hvS
    exact Set.disjoint_left.1 hdisjoint hvS (hym.fan w hw hwd).2
  refine ⟨fun hxk _ => ⟨fun hsame => ?_, fun hij => ?_⟩, fun _ => hapart⟩
  · by_contra hij
    exact hapart hij hsame
  · subst hij
    obtain ⟨sc, hsc⟩ := hxm.tree hxk
    obtain rfl : x = y := Option.some.inj (hx.symm.trans hy)
    rw [(hsc v hv).2, (hsc w hw).2]

/-! Two copies of `\x.x x`, below a binder that is used twice. -/

def shareTerm : Term := .lam "x" (.app (.var "x") (.var "x"))

def shareRun : Net × List Site := (compileTrace .empty shareTerm).toOption.getD (netInit, [])

def shareNet : Net := netCopy (netForce .serial none (netReduce .serial none 1000 shareRun.1) ⟨0, 0⟩)

def shareCompiled : String → Option Net := Function.update (fun _ => none) "self" (some shareNet)

lemma shareCompiled_baked : Baked shareCompiled := by
  have hrun : compileTrace .empty shareTerm = .ok (shareRun.1, shareRun.2) := by decide +kernel
  exact .bake "self" .none hrun (.force .serial none ⟨0, 0⟩ (.reduce .serial none 1000 .start))

def copiesTerm : Term := .lam "f" (.app (.app (.var "f") (.ref "self")) (.app (.var "f") (.ref "self")))

def copiesRun : Net × List Site := (compileTrace ⟨fun _ _ => none, shareCompiled⟩ copiesTerm).toOption.getD (netInit, [])

/-- Of the three fans, one in each copy and one of the binder, no two have one gauge. -/
theorem copies_gauges : copiesRun.1.scope.get 8 ≠ copiesRun.1.scope.get 15 ∧ copiesRun.1.scope.get 8 ≠ copiesRun.1.scope.get 16 := by
  have hrun : compileTrace ⟨fun _ _ => none, shareCompiled⟩ copiesTerm = .ok (copiesRun.1, copiesRun.2) := by decide +kernel
  have hsites : copiesRun.2 = [⟨.splice, 4, 9⟩, ⟨.splice, 11, 16⟩, ⟨.fan, 16, 17⟩] := by decide +kernel
  have hfans : copiesRun.1.tag.get 8 = .dup ∧ copiesRun.1.tag.get 15 = .dup ∧ copiesRun.1.tag.get 16 = .dup := by decide +kernel
  obtain ⟨-, hapart⟩ := compileTrace_gauges shareCompiled_baked hrun
  rw [hsites] at hapart
  constructor
  · exact (hapart 0 1 _ _ rfl rfl 8 15 ⟨by decide, by decide⟩ hfans.1 ⟨by decide, by decide⟩ hfans.2.1).2 (.inl rfl) (by decide)
  · exact (hapart 0 2 _ _ rfl rfl 8 16 ⟨by decide, by decide⟩ hfans.1 ⟨by decide, by decide⟩ hfans.2.2).2 (.inl rfl) (by decide)

end LinEngine
