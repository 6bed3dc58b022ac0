import LinEngine.FoldShape
import LinEngine.PairEnds
import LinEngine.Regauge

/-!
# The device kernel

The compute kernel of the GPU driver on one pair, between the upload of the net to the device
buffers and the commit of the buffers to the net, beside the driver's claim. The kernel lists
the ways in which the wires of a pair can stay inside it by hand, and the host joins the classes
of the six ports; the two agree on the nets where no join of the kernel meets a loose or
inner end alone.
-/
namespace LinEngine

open Splice

/-! ## The buffers -/

/-- `NODE_MASK`, which is also the node of the word for no port. -/
def nodeMask : ℕ := 0x3FFFFFFF

/-- A port as a word: the node in the low 30 bits. -/
def packPort (w : Option Port) : ℕ :=
  match w with
  | none => nodeMask
  | some p => p.node % 2 ^ 30 + p.port * 2 ^ 30

def unpackPort (w : ℕ) : Option Port :=
  if w = nodeMask then none else some ⟨w % 2 ^ 30, Fin.ofNat 3 (w / 2 ^ 30)⟩

/-- The storage buffers of a dispatch. -/
structure Device where
  tags : Table ℕ 0
  wires : Table ℕ 0
  deads : Table ℕ 0
  scopes : Table (ℕ × ℕ) (0, 0)

/-- Copy entries `0` to `k - 1`. -/
def fillTable {α : Type} {d : α} (t : Table α d) (k : ℕ) (f : ℕ → α) : Table α d :=
  (List.range k).foldl (fun t i => t.set i (f i)) t

/-- What `gpu_reduce` writes to the mapped buffers. -/
def upload (n : Net) : Device where
  tags := fillTable .empty n.nn fun i => (n.tag.get i).rank
  wires := fillTable .empty (n.nn * 3) fun i => packPort (n.wire.get i)
  deads := fillTable .empty n.nn fun i => if n.dead.get i then 1 else 0
  scopes := fillTable .empty n.nn fun i => (n.scope.get i % 2 ^ 32, n.scope.get i / 2 ^ 32 % 2 ^ 32)

/-- What `gpu_reduce` reads back. -/
def commit (n : Net) (d : Device) : Net :=
  { n with
    dead := fillTable n.dead n.nn fun i => d.deads.get i != 0
    wire := fillTable n.wire (n.nn * 3) fun i => unpackPort (d.wires.get i) }

/-! ## The kernel -/

namespace Device

def wread (d : Device) (n p : ℕ) : ℕ := d.wires.get (n * 3 + p)

def wwrite (d : Device) (n p v : ℕ) : Device := { d with wires := d.wires.set (n * 3 + p) v }

def kill (d : Device) (n1 n2 : ℕ) : Device := { d with deads := (d.deads.set n1 1).set n2 1 }

def linkP (d : Device) (a b : ℕ) : Device :=
  if a % 2 ^ 30 = nodeMask ∨ b % 2 ^ 30 = nodeMask then d
  else (d.wwrite (a % 2 ^ 30) (a / 2 ^ 30) b).wwrite (b % 2 ^ 30) (b / 2 ^ 30) a

/-- The word names port `p` of node `n`. -/
def names (w n p : ℕ) : Bool := w % 2 ^ 30 == n && w / 2 ^ 30 == p

def beta (d : Device) (n1 n2 : ℕ) : Device :=
  let lv := d.wread n1 1
  let lb := d.wread n1 2
  let ar := d.wread n2 1
  let aa := d.wread n2 2
  let d := d.kill n1 n2
  if names lv n1 2 && names lb n1 1 then d.linkP aa ar
  else (d.linkP lv aa).linkP lb ar

def annihilate (d : Device) (n1 n2 : ℕ) : Device :=
  let s1 := d.scopes.get n1
  let s2 := d.scopes.get n2
  if s1.1 % 2 ≠ 0 ∨ s2.1 % 2 ≠ 0 then d
  else if s1.1 ≠ s2.1 ∨ s1.2 ≠ s2.2 then d
  else
    let a1 := d.wread n1 1
    let a2 := d.wread n1 2
    let b1 := d.wread n2 1
    let b2 := d.wread n2 2
    let d := d.kill n1 n2
    if names a1 n2 1 then d.linkP a2 b2
    else if names a2 n2 2 then d.linkP a1 b1
    else if names a1 n2 2 then d.linkP a2 b1
    else if names a2 n2 1 then d.linkP a1 b2
    else (d.linkP a1 b1).linkP a2 b2

/-- One invocation, for the pair of the two words. -/
def main (d : Device) (pa pb : ℕ) : Device :=
  let n1 := pa % 2 ^ 30
  let n2 := pb % 2 ^ 30
  if n1 = nodeMask ∨ n2 = nodeMask then d
  else
    let (n1, n2) := if d.tags.get n2 < d.tags.get n1 then (n2, n1) else (n1, n2)
    if d.tags.get n1 = 0 ∧ d.tags.get n2 = 1 then d.beta n1 n2
    else if d.tags.get n1 = 2 ∧ d.tags.get n2 = 2 then d.annihilate n1 n2
    else d

end Device

/-- A dispatch of one pair. -/
def gpuDispatch (n : Net) (p1 p2 : Port) : Net :=
  commit n ((upload n).main (packPort (some p1)) (packPort (some p2)))

/-! ## The claim -/

/-- A head the host folds. -/
def gpuFoldableHead (n : Net) (node : ℕ) : Bool :=
  n.inNet node && !n.dead.get node && n.tag.get node == .lam && (headIsFfi n node || linPatOpHead n ⟨node, 0⟩)

/-- The argument of the application is a head the host folds, or the application of one. -/
def gpuFoldableArg (n : Net) (app : ℕ) : Bool :=
  (n.wireAt ⟨app, 2⟩).any fun aa => n.inNet aa.node && !n.dead.get aa.node &&
    match n.tag.get aa.node with
    | .lam => gpuFoldableHead n aa.node
    | .app => (n.wireAt ⟨aa.node, 0⟩).any fun h =>
        n.inNet h.node && !n.dead.get h.node && n.tag.get h.node == .lam && gpuFoldableHead n h.node
    | _ => false

/-- `ready` is `gpu_ready && pipe_ready`. -/
def gpuClaim (ready : Bool) (n : Net) (p1 p2 : Port) : Bool :=
  ready && !n.dead.get p1.node && !n.dead.get p2.node && p1.port == 0 && p2.port == 0 && mutuallyWired n p1 p2 &&
    let (n1, n2) := sortPair (n.tag.get p1.node) (n.tag.get p2.node) p1.node p2.node
    match n.tag.get n1, n.tag.get n2 with
    | .lam, .app => !gpuFoldableHead n n1 && !gpuFoldableArg n n2
    | .dup, .dup => n.scope.get n1 == n.scope.get n2
    | _, _ => false

/-! ## The joins of the kernel -/

/-- The pairs of ports whose far ends the kernel links. -/
def kernelLinks (n : Net) (n1 n2 : ℕ) : List (Fin 6 × Fin 6) :=
  let w := fun j => n.wireAt (pairPort n1 n2 j)
  if n.tag.get n1 = .lam then
    if w 1 = some ⟨n1, 2⟩ ∧ w 2 = some ⟨n1, 1⟩ then [(5, 4)] else [(1, 5), (2, 4)]
  else if w 1 = some ⟨n2, 1⟩ then [(2, 5)]
  else if w 2 = some ⟨n2, 2⟩ then [(1, 4)]
  else if w 1 = some ⟨n2, 2⟩ then [(2, 4)]
  else if w 2 = some ⟨n2, 1⟩ then [(1, 5)]
  else [(1, 4), (2, 5)]

/-- The two ends of each link lead out of the pair both or not at all, and two fans have an even gauge. -/
structure KernelExact (n : Net) (n1 n2 : ℕ) : Prop where
  gauge : n.tag.get n1 = .dup → n.scope.get n1 % 2 = 0
  ends : ∀ l ∈ kernelLinks n n1 n2, (endAt n n1 n2 l.1).isSome = (endAt n n1 n2 l.2).isSome

/-- The dead flags and the wires of the nodes that the rule leaves alive. -/
structure KernelAgrees (g : Globals) (n : Net) (p1 p2 : Port) : Prop where
  dead : ∀ v < n.nn, (gpuDispatch n p1 p2).dead.get v = (netInteract g n p1 p2).2.dead.get v
  wire : ∀ p : Port, (netInteract g n p1 p2).2.live p.node = true →
    (gpuDispatch n p1 p2).wireAt p = (netInteract g n p1 p2).2.wireAt p

/-- Link two far ends, when both are there. -/
def joinWire (W : Port → Option Port) (a b : Option Port) : Port → Option Port :=
  match a, b with
  | some a, some b => fun p => if b = p then some a else if a = p then some b else W p
  | _, _ => W

/-- The wires the kernel leaves. -/
def kernelWire (n : Net) (n1 n2 : ℕ) : Port → Option Port :=
  (kernelLinks n n1 n2).foldl
    (fun W l => joinWire W (n.wireAt (pairPort n1 n2 l.1)) (n.wireAt (pairPort n1 n2 l.2))) n.wireAt

/-! ## From words to ports -/

section Words

lemma get_fillTable {α : Type} {d : α} (t : Table α d) (k : ℕ) (f : ℕ → α) (i : ℕ) :
    (fillTable t k f).get i = if i < k then f i else t.get i := by
  induction k with
  | zero => simp [fillTable]
  | succ k ih =>
    rw [fillTable, List.range_succ, List.foldl_append, List.foldl_cons, List.foldl_nil, Table.get_set]
    change (if k = i then f k else (fillTable t k f).get i) = _
    rw [ih]
    by_cases hki : k = i
    · subst hki
      simp
    · have hlt : i < k + 1 ↔ i < k := by omega
      simp [hki, hlt]

lemma slot_lt {n : Net} {p : Port} (hp : p.node < n.nn) : p.node * 3 + (p.port : ℕ) < n.nn * 3 := by
  have := p.port.isLt
  omega

variable {p : Port}

lemma packPort_node (hp : p.node < nodeMask) : packPort (some p) % 2 ^ 30 = p.node := by
  have hlt : p.node < 2 ^ 30 := hp.trans (by decide)
  simp only [packPort]
  omega

lemma packPort_port (hp : p.node < nodeMask) : packPort (some p) / 2 ^ 30 = p.port := by
  have hlt : p.node < 2 ^ 30 := hp.trans (by decide)
  simp only [packPort]
  omega

lemma packPort_none : packPort none % 2 ^ 30 = nodeMask := by decide

lemma unpackPort_packPort (w : Option Port) (hw : ∀ q, w = some q → q.node < nodeMask) :
    unpackPort (packPort w) = w := by
  cases w with
  | none => rfl
  | some q =>
    have hq := hw q rfl
    have hne : packPort (some q) ≠ nodeMask := by
      intro he
      have hnode := packPort_node hq
      rw [he] at hnode
      have hm : nodeMask % 2 ^ 30 = nodeMask := by decide
      omega
    rw [unpackPort, if_neg hne, packPort_node hq, packPort_port hq]
    simp

/-- The word names the port that is packed in it. -/
lemma names_packPort (w : Option Port) (hw : ∀ q, w = some q → q.node < nodeMask) {v : ℕ} (hv : v < nodeMask)
    (k : Fin 3) : Device.names (packPort w) v k = decide (w = some ⟨v, k⟩) := by
  cases w with
  | none =>
    have hne : (packPort none % 2 ^ 30 == v) = false := by
      rw [packPort_none, beq_eq_false_iff_ne]
      omega
    rw [Device.names, hne, Bool.false_and]
    simp
  | some q =>
    have hq := hw q rfl
    obtain ⟨u, l⟩ := q
    simp only [Device.names, packPort_node hq, packPort_port hq, Option.some.injEq, Port.mk.injEq, Fin.ext_iff,
      Bool.decide_and]
    rfl

end Words

/-- The buffers hold the wires `W` and the flags `D`, for a net of the size of `n`. -/
structure Shows (n : Net) (W : Port → Option Port) (D : ℕ → Bool) (d : Device) : Prop where
  wires : ∀ p : Port, p.node < n.nn → d.wires.get (p.node * 3 + p.port) = packPort (W p)
  deads : ∀ v < n.nn, d.deads.get v = if D v then 1 else 0

section Shows

variable {n : Net} {W : Port → Option Port} {D : ℕ → Bool} {d : Device}

lemma shows_upload (n : Net) : Shows n n.wireAt n.dead.get (upload n) where
  wires p hp := by
    simp only [upload, get_fillTable]
    rw [if_pos (slot_lt hp)]
    rfl
  deads v hv := by
    simp only [upload, get_fillTable]
    rw [if_pos hv]

lemma Shows.wread (h : Shows n W D d) {v : ℕ} (hv : v < n.nn) (k : Fin 3) : d.wread v k = packPort (W ⟨v, k⟩) :=
  h.wires ⟨v, k⟩ hv

lemma Shows.kill (h : Shows n W D d) (n1 n2 : ℕ) : Shows n W (fun v => D v || v == n1 || v == n2) (d.kill n1 n2) where
  wires := h.wires
  deads v hv := by
    simp only [Device.kill, Table.get_set, h.deads v hv]
    by_cases h2 : n2 = v
    · simp [h2]
    by_cases h1 : n1 = v
    · simp [h1]
    have h1' : (v == n1) = false := beq_eq_false_iff_ne.mpr (Ne.symm h1)
    have h2' : (v == n2) = false := beq_eq_false_iff_ne.mpr (Ne.symm h2)
    simp only [h1, h2, h1', h2', if_false, Bool.or_false]

/-- A link of words is a link of ports. -/
lemma Shows.linkP (h : Shows n W D d) (hnn : n.nn ≤ nodeMask) {a b : Option Port} (ha : ∀ q, a = some q → q.node < n.nn)
    (hb : ∀ q, b = some q → q.node < n.nn) : Shows n (joinWire W a b) D (d.linkP (packPort a) (packPort b)) := by
  cases a with
  | none =>
    have hskip : d.linkP (packPort none) (packPort b) = d := if_pos (.inl packPort_none)
    rw [hskip]
    cases b <;> exact h
  | some a =>
    cases b with
    | none =>
      have hskip : d.linkP (packPort (some a)) (packPort none) = d := if_pos (.inr packPort_none)
      rw [hskip]
      exact h
    | some b =>
      have hla := (ha a rfl).trans_le hnn
      have hlb := (hb b rfl).trans_le hnn
      have hgo : ¬ (packPort (some a) % 2 ^ 30 = nodeMask ∨ packPort (some b) % 2 ^ 30 = nodeMask) := by
        rw [packPort_node hla, packPort_node hlb]
        omega
      rw [Device.linkP, if_neg hgo, packPort_node hla, packPort_node hlb, packPort_port hla, packPort_port hlb]
      refine ⟨fun p hp => ?_, h.deads⟩
      simp only [Device.wwrite, Table.get_set, Net.slot_inj, joinWire]
      by_cases h2 : b = p
      · simp [h2]
      by_cases h1 : a = p
      · simp [h1, h2]
      simp only [h1, h2, if_false]
      exact h.wires p hp

lemma Shows.commit_dead (h : Shows n W D d) {v : ℕ} (hv : v < n.nn) : (commit n d).dead.get v = D v := by
  simp only [commit, get_fillTable, if_pos hv, h.deads v hv]
  cases D v <;> rfl

lemma Shows.commit_wire (h : Shows n W D d) (hnn : n.nn ≤ nodeMask) {p : Port} (hp : p.node < n.nn)
    (hW : ∀ q, W p = some q → q.node < n.nn) : (commit n d).wireAt p = W p := by
  have hread : (commit n d).wireAt p = unpackPort (d.wires.get (p.node * 3 + p.port)) := by
    simp only [Net.wireAt, commit, get_fillTable, if_pos (slot_lt hp)]
  rw [hread, h.wires p hp]
  exact unpackPort_packPort _ fun q hq => (hW q hq).trans_le hnn

end Shows

/-! ## What one invocation writes -/

section Invocation

variable {n : Net} {n1 n2 : ℕ}

/-- The flags after both nodes of the pair are marked. -/
def deadAfter (n : Net) (n1 n2 v : ℕ) : Bool := n.dead.get v || v == n1 || v == n2

lemma pair_inNet (hf : n.graph.Facing n1 n2) : n1 < n.nn ∧ n2 < n.nn :=
  ⟨((Net.live_iff n1).mp hf.liveL).1, ((Net.live_iff n2).mp hf.liveR).1⟩

/-- The wires of the pair lead into the net. -/
lemma pairWire_inNet (hn : SymmetricWires n) (hf : n.graph.Facing n1 n2) (j : Fin 6) {q : Port}
    (hq : n.wireAt (pairPort n1 n2 j) = some q) : q.node < n.nn :=
  ((Net.live_iff q.node).mp (hn _ _ (live_pairPort hf j) hq).1).1

/-- Link the far ends of two ports of the pair, as the buffers name them. -/
def linkWords (n : Net) (n1 n2 : ℕ) (d : Device) (l : Fin 6 × Fin 6) : Device :=
  d.linkP (packPort (n.wireAt (pairPort n1 n2 l.1))) (packPort (n.wireAt (pairPort n1 n2 l.2)))

/-- Links of words, one after the other, are links of ports. -/
lemma Shows.links (hn : SymmetricWires n) (hf : n.graph.Facing n1 n2) (hnn : n.nn ≤ nodeMask) {W : Port → Option Port}
    {D : ℕ → Bool} {d : Device} (h : Shows n W D d) (L : List (Fin 6 × Fin 6)) :
    Shows n (L.foldl (fun W l => joinWire W (n.wireAt (pairPort n1 n2 l.1)) (n.wireAt (pairPort n1 n2 l.2))) W) D
      (L.foldl (linkWords n n1 n2) d) := by
  induction L generalizing W d with
  | nil => exact h
  | cons l L ih => exact ih (h.linkP hnn (fun _ => pairWire_inNet hn hf l.1) fun _ => pairWire_inNet hn hf l.2)

lemma shows_rule (hn : SymmetricWires n) (hf : n.graph.Facing n1 n2) (hnn : n.nn ≤ nodeMask) :
    Shows n (kernelWire n n1 n2) (deadAfter n n1 n2)
      ((kernelLinks n n1 n2).foldl (linkWords n n1 n2) ((upload n).kill n1 n2)) :=
  ((shows_upload n).kill n1 n2).links hn hf hnn _

lemma upload_wread (hf : n.graph.Facing n1 n2) (k : Fin 3) :
    (upload n).wread n1 k = packPort (n.wireAt ⟨n1, k⟩) ∧ (upload n).wread n2 k = packPort (n.wireAt ⟨n2, k⟩) :=
  ⟨(shows_upload n).wread (pair_inNet hf).1 k, (shows_upload n).wread (pair_inNet hf).2 k⟩

lemma upload_tags {v : ℕ} (hv : v < n.nn) : (upload n).tags.get v = (n.tag.get v).rank := by
  simp only [upload, get_fillTable, if_pos hv]

lemma beta_eq (hn : SymmetricWires n) (hf : n.graph.Facing n1 n2) (hnn : n.nn ≤ nodeMask) (hlam : n.tag.get n1 = .lam) :
    (upload n).beta n1 n2 = (kernelLinks n n1 n2).foldl (linkWords n n1 n2) ((upload n).kill n1 n2) := by
  have hread := upload_wread hf
  have hsmall : ∀ (j : Fin 6) (q : Port), n.wireAt (pairPort n1 n2 j) = some q → q.node < nodeMask := fun j q hq =>
    (pairWire_inNet hn hf j hq).trans_le hnn
  have h1 := (pair_inNet hf).1.trans_le hnn
  have hr1 : (upload n).wread n1 1 = packPort (n.wireAt ⟨n1, 1⟩) := (hread 1).1
  have hr2 : (upload n).wread n1 2 = packPort (n.wireAt ⟨n1, 2⟩) := (hread 2).1
  have hr4 : (upload n).wread n2 1 = packPort (n.wireAt ⟨n2, 1⟩) := (hread 1).2
  have hr5 : (upload n).wread n2 2 = packPort (n.wireAt ⟨n2, 2⟩) := (hread 2).2
  have hlv := names_packPort (n.wireAt ⟨n1, 1⟩) (hsmall 1) h1 2
  have hlb := names_packPort (n.wireAt ⟨n1, 2⟩) (hsmall 2) h1 1
  simp only [Fin.val_one, Fin.val_two] at hlv hlb
  rw [Device.beta, hr1, hr2, hr4, hr5, hlv, hlb, ← Bool.decide_and, kernelLinks, if_pos hlam]
  by_cases hid : n.wireAt ⟨n1, 1⟩ = some ⟨n1, 2⟩ ∧ n.wireAt ⟨n1, 2⟩ = some ⟨n1, 1⟩
  · simp only [hid, pairPort, and_self, decide_true, if_true]
    rfl
  · simp only [pairPort, hid, decide_false, Bool.false_eq_true, if_false]
    rfl

lemma annihilate_eq (hn : SymmetricWires n) (hf : n.graph.Facing n1 n2) (hnn : n.nn ≤ nodeMask) (hdup : n.tag.get n1 = .dup)
    (hgauge : n.scope.get n1 = n.scope.get n2) (heven : n.scope.get n1 % 2 = 0) :
    (upload n).annihilate n1 n2 = (kernelLinks n n1 n2).foldl (linkWords n n1 n2) ((upload n).kill n1 n2) := by
  have hread := upload_wread hf
  have hsmall : ∀ (j : Fin 6) (q : Port), n.wireAt (pairPort n1 n2 j) = some q → q.node < nodeMask := fun j q hq =>
    (pairWire_inNet hn hf j hq).trans_le hnn
  have h2 := (pair_inNet hf).2.trans_le hnn
  have hr1 : (upload n).wread n1 1 = packPort (n.wireAt ⟨n1, 1⟩) := (hread 1).1
  have hr2 : (upload n).wread n1 2 = packPort (n.wireAt ⟨n1, 2⟩) := (hread 2).1
  have hr4 : (upload n).wread n2 1 = packPort (n.wireAt ⟨n2, 1⟩) := (hread 1).2
  have hr5 : (upload n).wread n2 2 = packPort (n.wireAt ⟨n2, 2⟩) := (hread 2).2
  have h11 := names_packPort (n.wireAt ⟨n1, 1⟩) (hsmall 1) h2 1
  have h22 := names_packPort (n.wireAt ⟨n1, 2⟩) (hsmall 2) h2 2
  have h12 := names_packPort (n.wireAt ⟨n1, 1⟩) (hsmall 1) h2 2
  have h21 := names_packPort (n.wireAt ⟨n1, 2⟩) (hsmall 2) h2 1
  simp only [Fin.val_one, Fin.val_two] at h11 h22 h12 h21
  have hs1 : (upload n).scopes.get n1 = (n.scope.get n1 % 2 ^ 32, n.scope.get n1 / 2 ^ 32 % 2 ^ 32) := by
    simp only [upload, get_fillTable, if_pos (pair_inNet hf).1]
  have hs2 : (upload n).scopes.get n2 = (n.scope.get n1 % 2 ^ 32, n.scope.get n1 / 2 ^ 32 % 2 ^ 32) := by
    simp only [upload, get_fillTable, if_pos (pair_inNet hf).2, hgauge]
  have hodd : ¬ (n.scope.get n1 % 2 ^ 32 % 2 ≠ 0 ∨ n.scope.get n1 % 2 ^ 32 % 2 ≠ 0) := by omega
  simp only [Device.annihilate, hs1, hs2, hr1, hr2, hr4, hr5, h11, h22, h12, h21, hodd, if_false, ne_eq, not_true, or_self,
    decide_eq_true_eq]
  have hlam : ¬ n.tag.get n1 = .lam := by
    rw [hdup]
    decide
  by_cases c11 : n.wireAt ⟨n1, 1⟩ = some ⟨n2, 1⟩
  · have hlinks : kernelLinks n n1 n2 = [(2, 5)] := by simp [kernelLinks, hlam, pairPort, c11]
    rw [hlinks, if_pos c11]
    rfl
  by_cases c22 : n.wireAt ⟨n1, 2⟩ = some ⟨n2, 2⟩
  · have hlinks : kernelLinks n n1 n2 = [(1, 4)] := by simp [kernelLinks, hlam, pairPort, c11, c22]
    rw [hlinks, if_neg c11, if_pos c22]
    rfl
  by_cases c12 : n.wireAt ⟨n1, 1⟩ = some ⟨n2, 2⟩
  · have hlinks : kernelLinks n n1 n2 = [(2, 4)] := by simp [kernelLinks, hlam, pairPort, c22, c12]
    rw [hlinks, if_neg c11, if_neg c22, if_pos c12]
    rfl
  by_cases c21 : n.wireAt ⟨n1, 2⟩ = some ⟨n2, 1⟩
  · have hlinks : kernelLinks n n1 n2 = [(1, 5)] := by simp [kernelLinks, hlam, pairPort, c11, c12, c21]
    rw [hlinks, if_neg c11, if_neg c22, if_neg c12, if_pos c21]
    rfl
  · have hlinks : kernelLinks n n1 n2 = [(1, 4), (2, 5)] := by simp [kernelLinks, hlam, pairPort, c11, c22, c12, c21]
    rw [hlinks, if_neg c11, if_neg c22, if_neg c12, if_neg c21]
    rfl

lemma annihilate_odd (hf : n.graph.Facing n1 n2) (hodd : n.scope.get n1 % 2 ≠ 0) :
    (upload n).annihilate n1 n2 = upload n := by
  have hs1 : (upload n).scopes.get n1 = (n.scope.get n1 % 2 ^ 32, n.scope.get n1 / 2 ^ 32 % 2 ^ 32) := by
    simp only [upload, get_fillTable, if_pos (pair_inNet hf).1]
  have hlow : n.scope.get n1 % 2 ^ 32 % 2 ≠ 0 := by omega
  rw [Device.annihilate, hs1, if_pos (.inl hlow)]

end Invocation

/-! ## The wires after the links -/

section Links

variable {W : Port → Option Port} {a b : Option Port} {p q : Port}

lemma joinWire_skip (ha : a = some p → b = none) (hb : b = some p → a = none) : joinWire W a b p = W p := by
  cases a with
  | none => cases b <;> rfl
  | some a =>
    cases b with
    | none => rfl
    | some b =>
      have hap : a ≠ p := fun h => Option.some_ne_none b (ha (congrArg some h))
      have hbp : b ≠ p := fun h => Option.some_ne_none a (hb (congrArg some h))
      simp only [joinWire, hap, hbp, if_false]

lemma joinWire_left (ha : a = some p) : joinWire W a b p = b.or (W p) := by
  subst ha
  cases b with
  | none => rfl
  | some q =>
    simp only [joinWire, if_true]
    split_ifs with h
    · rw [h]
      rfl
    · rfl

lemma joinWire_right (hb : b = some p) : joinWire W a b p = a.or (W p) := by
  subst hb
  cases a with
  | none => rfl
  | some q =>
    simp only [joinWire, if_true]
    rfl

/-- The ports that a list of links names. -/
def linkPorts (L : List (Fin 6 × Fin 6)) : List (Fin 6) := L.flatMap fun l => [l.1, l.2]

lemma mem_linkPorts {L : List (Fin 6 × Fin 6)} {j : Fin 6} : j ∈ linkPorts L ↔ ∃ l ∈ L, j = l.1 ∨ j = l.2 := by
  simp [linkPorts]

variable {w : Fin 6 → Option Port} {L : List (Fin 6 × Fin 6)}

lemma joins_skip (h : ∀ l ∈ L, (w l.1 = some p → w l.2 = none) ∧ (w l.2 = some p → w l.1 = none)) :
    L.foldl (fun W l => joinWire W (w l.1) (w l.2)) W p = W p := by
  induction L generalizing W with
  | nil => rfl
  | cons l L ih =>
    obtain ⟨h1, h2⟩ := h l List.mem_cons_self
    rw [List.foldl_cons, ih fun l' hl' => h l' (List.mem_cons_of_mem l hl'), joinWire_skip h1 h2]

/-- The far end of a port that is linked gets the far end of the other, if there is one. -/
lemma joins_take (hd : (linkPorts L).Nodup) {i j : Fin 6} (hinj : ∀ k, w k = some p → k = i)
    (hij : (i, j) ∈ L ∨ (j, i) ∈ L) (hi : w i = some p) :
    L.foldl (fun W l => joinWire W (w l.1) (w l.2)) W p = (w j).or (W p) := by
  induction L generalizing W with
  | nil => simp at hij
  | cons l L ih =>
    have hd' : l.1 ∉ linkPorts L ∧ l.2 ∉ linkPorts L ∧ (linkPorts L).Nodup := by
      have hsplit : linkPorts (l :: L) = l.1 :: l.2 :: linkPorts L := rfl
      rw [hsplit, List.nodup_cons, List.nodup_cons] at hd
      exact ⟨fun h => hd.1 (List.mem_cons_of_mem _ h), hd.2.1, hd.2.2⟩
    have hlast : i ∉ linkPorts L → ∀ l' ∈ L, (w l'.1 = some p → w l'.2 = none) ∧ (w l'.2 = some p → w l'.1 = none) :=
      fun hnot l' hl' =>
        ⟨fun h => absurd (mem_linkPorts.mpr ⟨l', hl', .inl (hinj _ h).symm⟩) hnot,
          fun h => absurd (mem_linkPorts.mpr ⟨l', hl', .inr (hinj _ h).symm⟩) hnot⟩
    have hkeep : i ∈ linkPorts L → joinWire W (w l.1) (w l.2) p = W p := fun hmem => by
      refine joinWire_skip (fun h => ?_) fun h => ?_
      · exact absurd (hinj _ h ▸ hmem) hd'.1
      · exact absurd (hinj _ h ▸ hmem) hd'.2.1
    rw [List.foldl_cons]
    rcases hij with hij | hij
    · rcases List.mem_cons.mp hij with rfl | hij
      · rw [joins_skip (hlast hd'.1), joinWire_left hi]
      · rw [ih hd'.2.2 (.inl hij), hkeep (mem_linkPorts.mpr ⟨_, hij, .inl rfl⟩)]
    · rcases List.mem_cons.mp hij with rfl | hij
      · rw [joins_skip (hlast hd'.2.1), joinWire_right hi]
      · rw [ih hd'.2.2 (.inr hij), hkeep (mem_linkPorts.mpr ⟨_, hij, .inr rfl⟩)]

end Links

section KernelLinks

variable {n : Net} {n1 n2 : ℕ} {s : Fin 3 → Fin 3} {cor : List (ℕ × ℕ)}

lemma kernelLinks_nodup (n : Net) (n1 n2 : ℕ) : (linkPorts (kernelLinks n n1 n2)).Nodup := by
  simp only [kernelLinks]
  split_ifs <;> decide

/-- Every port of the pair that leads out is linked. -/
lemma kernelLinks_covers (hn : SymmetricWires n) (hf : n.graph.Facing n1 n2) {j : Fin 6} {e : Port}
    (he : endAt n n1 n2 j = some e) : ∃ i, (i, j) ∈ kernelLinks n n1 n2 ∨ (j, i) ∈ kernelLinks n n1 n2 := by
  obtain ⟨hw, ho⟩ := endAt_eq_some.mp he
  have hinside : ∀ k, n.wireAt (pairPort n1 n2 j) ≠ some (pairPort n1 n2 k) := by
    intro k hk
    rw [hw, Option.some_inj] at hk
    exact pairPort_not_outside n1 n2 k (hk ▸ ho)
  have hback : ∀ i k, n.wireAt (pairPort n1 n2 i) = some (pairPort n1 n2 k) → j ≠ i ∧ j ≠ k := by
    intro i k hik
    refine ⟨fun hji => hinside k (hji ▸ hik), fun hjk => hinside i ?_⟩
    rw [hjk]
    exact (hn _ _ (live_pairPort hf i) hik).2
  have h03 := hback 0 3 hf.wireL
  simp only [kernelLinks]
  split_ifs with hlam hid h11 h22 h12 h21
  · have h := hback 1 2 hid.1
    fin_cases j <;> simp_all
  · fin_cases j <;> simp_all
  · have h := hback 1 4 h11
    fin_cases j <;> simp_all
  · have h := hback 2 5 h22
    fin_cases j <;> simp_all
  · have h := hback 1 5 h12
    fin_cases j <;> simp_all
  · have h := hback 2 4 h21
    fin_cases j <;> simp_all
  · fin_cases j <;> simp_all

/-- The kernel links ports of one class only. -/
lemma kernelLinks_connected (hn : SymmetricWires n) (hf : n.graph.Facing n1 n2) (hrule : joining n n1 n2 = some (cor, s))
    {l : Fin 6 × Fin 6} (hl : l ∈ kernelLinks n n1 n2) : Relation.ReflTransGen (Adjoins n n1 n2 s) l.1 l.2 := by
  have hwire : ∀ {i k : Fin 6}, n.wireAt (pairPort n1 n2 i) = some (pairPort n1 n2 k) →
      Adjoins n n1 n2 s i k ∧ Adjoins n n1 n2 s k i := fun hik =>
    ⟨.inl hik, .inl (hn _ _ (live_pairPort hf _) hik).2⟩
  unfold joining at hrule
  split at hrule
  · rename_i h1 h2
    obtain ⟨rfl, rfl⟩ := Prod.mk.inj (Option.some.inj hrule)
    have hcross : ∀ j, Adjoins n n1 n2 swapped j (acrossSwapped j) := fun j =>
      .inr (corresponds_swapped.crossing n1 n2 hf.ne j)
    simp only [kernelLinks, h1, if_true] at hl
    split_ifs at hl with hid
    · obtain rfl := List.mem_singleton.mp hl
      exact .tail (.tail (.single (hcross 5)) (hwire hid.1).1) (hcross 2)
    · rcases List.mem_pair.mp hl with rfl | rfl
      · exact .single (hcross 1)
      · exact .single (hcross 2)
  · rename_i h1 h2
    split_ifs at hrule with hgauge
    obtain ⟨rfl, rfl⟩ := Prod.mk.inj (Option.some.inj hrule)
    have hcross : ∀ j, Adjoins n n1 n2 straight j (acrossStraight j) := fun j =>
      .inr (corresponds_straight.crossing n1 n2 hf.ne j)
    simp only [kernelLinks, h1, reduceCtorEq, if_false] at hl
    split_ifs at hl with h11 h22 h12 h21
    · obtain rfl := List.mem_singleton.mp hl
      exact .single (hcross 2)
    · obtain rfl := List.mem_singleton.mp hl
      exact .single (hcross 1)
    · obtain rfl := List.mem_singleton.mp hl
      exact .tail (.tail (.single (hcross 2)) (hwire h12).2) (hcross 1)
    · obtain rfl := List.mem_singleton.mp hl
      exact .tail (.tail (.single (hcross 1)) (hwire h21).2) (hcross 2)
    · rcases List.mem_pair.mp hl with rfl | rfl
      · exact .single (hcross 1)
      · exact .single (hcross 2)
  · exact absurd hrule.symm (Option.some_ne_none _)

end KernelLinks

/-! ## What the host leaves -/

section Host

variable {n m : Net} {n1 n2 : ℕ} {L rest : List (List (Fin 6))} {cls : List (Fin 6)} {cor : List (ℕ × ℕ)}
  {x : Fin 6 → Fin 6} {s : Fin 3 → Fin 3}

/-- A wire that still leads out of the pair is an old one, and its class, if it was handled, was joined. -/
def Loosened (n : Net) (n1 n2 : ℕ) (L : List (List (Fin 6))) (m : Net) : Prop :=
  ∀ j w, m.wireAt (pairPort n1 n2 j) = some w → Outside n1 n2 w → n.wireAt (pairPort n1 n2 j) = some w ∧
    ∀ cls ∈ L, j ∈ cls → (endsOf n n1 n2 cls).length = 2

/-- The wires of the pair after an end is cut. -/
lemma Partway.cut_pair (h : Partway n n1 n2 L (cls :: rest) m) (hn : SymmetricWires n) (hf : n.graph.Facing n1 n2)
    (hd : (L ++ cls :: rest).flatten.Nodup) (g : Globals) {e : Port} {i : Fin 6} (he : EndOf m n1 n2 cls e i) (j : Fin 6) :
    (netSever g m e).wireAt (pairPort n1 n2 j) = if j = i then none else m.wireAt (pairPort n1 n2 j) := by
  rw [List.flatten_append, List.nodup_append] at hd
  have hnode : ∀ k, (pairPort n1 n2 k).node ≠ e.node := fun k heq =>
    pairPort_not_outside n1 n2 k ⟨fun h1 => he.outside.1 (heq.symm.trans h1), fun h2 => he.outside.2 (heq.symm.trans h2)⟩
  obtain ⟨-, -, hkeep⟩ := facing_principal h.facing he.outside (pairPort_not_outside n1 n2 i) he.back
  have hcut : Cut e (pairPort n1 n2 i) m (netSever g m e) := by
    refine netSever_cut g he.live (live_pairPort h.facing i) he.wire he.back (hnode i) (fun p hp w hw => ?_) hkeep
    exact h.live_target hn hf hd.1 (hp ▸ he.live) ⟨hp ▸ he.outside.1, hp ▸ he.outside.2⟩ hw
  rw [hcut.keep _ (hnode j)]
  by_cases hji : j = i
  · rw [hji, if_pos rfl, if_pos rfl]
  · rw [if_neg fun heq => hji (pairPort_inj hf.ne heq), if_neg hji]

lemma Partway.loosened (h : Partway n n1 n2 L (cls :: rest) m) (hl : Loosened n n1 n2 L m) (hn : SymmetricWires n)
    (hf : n.graph.Facing n1 n2) (hd : (L ++ cls :: rest).flatten.Nodup) (g : Globals)
    (hlen : (LinEngine.endsOf n n1 n2 cls).length ≤ 2) : Loosened n n1 n2 (L ++ [cls]) (joinClass g n1 n2 m cls) := by
  have hends : ∀ {j w}, j ∈ cls → n.wireAt (pairPort n1 n2 j) = some w → Outside n1 n2 w →
      w ∈ LinEngine.endsOf n n1 n2 cls := fun hj hw ho => mem_endsOf.mpr ⟨_, hj, hw, ho⟩
  have hsame : ∀ {m' : Net}, (∀ j w, m'.wireAt (pairPort n1 n2 j) = some w → Outside n1 n2 w →
      m.wireAt (pairPort n1 n2 j) = some w ∧ (j ∈ cls → (LinEngine.endsOf n n1 n2 cls).length = 2)) →
      Loosened n n1 n2 (L ++ [cls]) m' := by
    intro m' hm' j w hw ho
    obtain ⟨hold, hcls⟩ := hm' j w hw ho
    obtain ⟨hstart, hL⟩ := hl j w hold ho
    refine ⟨hstart, fun c hc hj => ?_⟩
    rcases List.mem_append.mp hc with hc | hc
    · exact hL c hc hj
    · rw [List.mem_singleton] at hc
      subst hc
      exact hcls hj
  obtain ⟨h0, h1, h2⟩ := joinClass_eq g n1 n2 m cls
  rw [h.endsOf] at h0 h1 h2
  rcases hcase : LinEngine.endsOf n n1 n2 cls with _ | ⟨e, _ | ⟨e', _ | ⟨e'', es⟩⟩⟩
  · rw [h0 hcase]
    refine hsame fun j w hw ho => ⟨hw, fun hj => ?_⟩
    have hmem := hends hj (hl j w hw ho).1 ho
    rw [hcase] at hmem
    exact absurd hmem List.not_mem_nil
  · obtain ⟨i, he⟩ := endOf_of_mem hn hf (show e ∈ LinEngine.endsOf n n1 n2 cls by simp [hcase])
    rw [h1 e hcase]
    refine hsame fun j w hw ho => ?_
    rw [h.cut_pair hn hf hd g (h.live_end hf hd he)] at hw
    split_ifs at hw with hji
    refine ⟨hw, fun hj => ?_⟩
    have hstart := (hl j w hw ho).1
    have hmem := hends hj hstart ho
    rw [hcase, List.mem_singleton] at hmem
    subst hmem
    have hback := (hn _ _ (live_pairPort hf j) hstart).2
    exact absurd (pairPort_inj hf.ne (Option.some.inj (hback.symm.trans he.wire))) hji
  · rw [h2 e e' hcase]
    refine hsame fun j w hw ho => ⟨?_, fun _ => by rw [hcase]; rfl⟩
    have hout : ∀ f ∈ [e, e'], f ≠ pairPort n1 n2 j := by
      intro f hfe heq
      obtain ⟨i, hi⟩ := endOf_of_mem hn hf (show f ∈ LinEngine.endsOf n n1 n2 cls by rw [hcase]; exact hfe)
      exact pairPort_not_outside n1 n2 j (heq ▸ hi.outside)
    rw [netLink_wireAt] at hw
    simpa [hout e (by simp), hout e' (by simp)] using hw
  · simp [hcase] at hlen

lemma Partway.loosened_run (h : Partway n n1 n2 L rest m) (hl : Loosened n n1 n2 L m) (hn : SymmetricWires n)
    (hf : n.graph.Facing n1 n2) (hd : (L ++ rest).flatten.Nodup) (g : Globals)
    (hlen : ∀ cls ∈ rest, (LinEngine.endsOf n n1 n2 cls).length ≤ 2) :
    Loosened n n1 n2 (L ++ rest) (rest.foldl (joinClass g n1 n2) m) := by
  induction rest generalizing L m with
  | nil => simpa using hl
  | cons cls rest ih =>
    have hstep := h.step hn hf hd g (hlen cls List.mem_cons_self)
    have hlstep := h.loosened hl hn hf hd g (hlen cls List.mem_cons_self)
    have hassoc : L ++ cls :: rest = L ++ [cls] ++ rest := by simp
    rw [hassoc] at hd ⊢
    exact ih hstep hlstep hd fun c hc => hlen c (List.mem_cons_of_mem cls hc)

lemma pairBoundary_loosened (g : Globals) (hn : SymmetricWires n) (hf : n.graph.Facing n1 n2) (hg : Corresponds cor x s) :
    Loosened n n1 n2 (pairClasses (fun i => insidePair n1 n2 (n.wireAt (pairPort n1 n2 i))) cor)
      (pairBoundary g n n1 n2 cor) := by
  have hclasses : (fun i => insidePair n1 n2 (n.wireAt (pairPort n1 n2 i))) = fun i => (pairShape n n1 n2 i).map Fin.val :=
    funext fun i => insidePair_eq hf.ne _
  rw [pairBoundary_eq g hf.ne, hclasses]
  have hs := hg.parted _ (pairShape_inside hn hf)
  have hstart : Loosened n n1 n2 [] n := fun j w hw _ => ⟨hw, fun cls hc => absurd hc List.not_mem_nil⟩
  exact (partway_start hf _).loosened_run hstart hn hf hs.1 g fun cls hc => hs.endsOf_length hc

/-- Retiring the pair leaves the rest of what the joins left. -/
lemma joined_retired (g : Globals) (hf : n.graph.Facing n1 n2) (hj : EndsJoined n n1 n2 s L m) (hl : Loosened n n1 n2 L m) :
    Retired n1 n2 m (retire g m n1 n2) := by
  have hdead : ∀ v, v ≠ n1 → v ≠ n2 → (markPair m n1 n2).live v = m.live v := by
    intro v h1 h2
    have h1' : (v == n1) = false := beq_eq_false_iff_ne.mpr h1
    have h2' : (v == n2) = false := beq_eq_false_iff_ne.mpr h2
    have hmark := markPair_dead m n1 n2 v
    rw [h1', h2', Bool.or_false, Bool.or_false] at hmark
    simp only [Net.live, hmark]
    rfl
  refine retire_spec g hf.ne fun p hp w hw h1 h2 => ?_
  obtain ⟨j, rfl⟩ := exists_pairPort (fun ho : Outside n1 n2 p => hp.elim ho.1 ho.2)
  have ho : Outside n1 n2 w := ⟨h1, h2⟩
  obtain ⟨hstart, htwo⟩ := hl j w hw ho
  obtain ⟨cls, hc, hjc⟩ := List.mem_flatten.mp (hj.parted.2 j)
  have hmem : w ∈ endsOf n n1 n2 cls := mem_endsOf.mpr ⟨j, hjc, hstart, ho⟩
  obtain ⟨e, e', hends⟩ := List.length_eq_two.mp (htwo cls hc hjc)
  obtain ⟨hle, hle', hwe, hwe', -, -⟩ := hj.two cls hc e e' hends
  have hout : ∀ f ∈ endsOf n n1 n2 cls, Outside n1 n2 f := fun f hf' => by
    obtain ⟨k, -, -, hof⟩ := mem_endsOf.mp hf'
    exact hof
  -- whichever end it is, its wire leads to the other one, which is alive
  have hother : ∃ f, m.wireAt w = some f ∧ m.live f.node = true ∧ Outside n1 n2 f := by
    rw [hends] at hmem
    rcases List.mem_pair.mp hmem with rfl | rfl
    · exact ⟨e', hwe, hle', hout e' (by simp [hends])⟩
    · exact ⟨e, hwe', hle, hout e (by simp [hends])⟩
  obtain ⟨f, hwf, hlf, hof⟩ := hother
  have hwf' : (markPair m n1 n2).wireAt w = some f := hwf
  refine ⟨fun hback => ?_, fun _ hzero => ?_⟩
  · rw [hwf', Option.some_inj] at hback
    exact pairPort_not_outside n1 n2 j (hback ▸ hof)
  · have hf' := degLive_eq_zero.mp hzero w rfl f hwf'
    rw [hdead f.node hof.1 hof.2, hlf] at hf'
    exact absurd hf' (by decide)

end Host

/-! ## Kernel and host -/

section Agreement

variable {g : Globals} {n m : Net} {n1 n2 : ℕ} {p1 p2 : Port} {L : List (List (Fin 6))} {s : Fin 3 → Fin 3}
  {cor : List (ℕ × ℕ)}

/-- The wire of the far end of a linked port is that of the other, or as it was. -/
lemma kernelWire_linked (hn : SymmetricWires n) (hf : n.graph.Facing n1 n2) {i j : Fin 6} {e : Port}
    (hij : (i, j) ∈ kernelLinks n n1 n2 ∨ (j, i) ∈ kernelLinks n n1 n2) (he : n.wireAt (pairPort n1 n2 i) = some e) :
    kernelWire n n1 n2 e = (n.wireAt (pairPort n1 n2 j)).or (some (pairPort n1 n2 i)) := by
  have hback : ∀ k, n.wireAt (pairPort n1 n2 k) = some e → n.wireAt e = some (pairPort n1 n2 k) := fun k hk =>
    (hn _ _ (live_pairPort hf k) hk).2
  rw [← hback i he]
  refine joins_take (w := fun j => n.wireAt (pairPort n1 n2 j)) (kernelLinks_nodup n n1 n2) (fun k hk => ?_) hij he
  exact pairPort_inj hf.ne (Option.some.inj ((hback k hk).symm.trans (hback i he)))

lemma linked_ne {i j : Fin 6} (hij : (i, j) ∈ kernelLinks n n1 n2 ∨ (j, i) ∈ kernelLinks n n1 n2) : i ≠ j := by
  have hd := kernelLinks_nodup n n1 n2
  rintro rfl
  rw [linkPorts, List.nodup_flatMap] at hd
  have hpair := hd.1 (i, i) (hij.elim id id)
  simp at hpair

/-- A port that the pair is not wired to keeps its wire. -/
lemma kernelWire_other (hn : SymmetricWires n) (hf : n.graph.Facing n1 n2) {p : Port}
    (hp : ∀ i, n.wireAt p ≠ some (pairPort n1 n2 i)) : kernelWire n n1 n2 p = n.wireAt p := by
  have hloose : ∀ i, n.wireAt (pairPort n1 n2 i) ≠ some p := fun i hi => hp i (hn _ _ (live_pairPort hf i) hi).2
  exact joins_skip (w := fun j => n.wireAt (pairPort n1 n2 j)) fun l _ =>
    ⟨fun h => absurd h (hloose l.1), fun h => absurd h (hloose l.2)⟩

lemma kernelWire_inNet (hn : SymmetricWires n) (hf : n.graph.Facing n1 n2) {p q : Port} (hp : n.live p.node = true)
    (ho : Outside n1 n2 p) (hq : kernelWire n n1 n2 p = some q) : q.node < n.nn := by
  by_cases hin : ∃ i, n.wireAt p = some (pairPort n1 n2 i)
  · obtain ⟨i, hi⟩ := hin
    have hwi := (hn p _ hp hi).2
    obtain ⟨j, hij⟩ := kernelLinks_covers hn hf (endAt_eq_some.mpr ⟨hwi, ho⟩)
    rw [kernelWire_linked hn hf hij.symm hwi, Option.or_eq_some_iff, Option.some_inj] at hq
    rcases hq with hq | ⟨-, rfl⟩
    · exact pairWire_inNet hn hf j hq
    · exact ((Net.live_iff _).mp (live_pairPort hf i)).1
  · rw [kernelWire_other hn hf fun i hi => hin ⟨i, hi⟩] at hq
    exact ((Net.live_iff _).mp (hn p q hp hq).1).1

/-- Two linked ports are of one class. -/
lemma linked_class (hn : SymmetricWires n) (hf : n.graph.Facing n1 n2) (hrule : joining n n1 n2 = some (cor, s))
    (hj : EndsJoined n n1 n2 s L m) {cls : List (Fin 6)} (hc : cls ∈ L) {i j : Fin 6} (hi : i ∈ cls)
    (hij : (i, j) ∈ kernelLinks n n1 n2 ∨ (j, i) ∈ kernelLinks n n1 n2) : j ∈ cls := by
  rcases hij with hij | hij
  · exact (hj.connected cls hc i hi j).mpr (kernelLinks_connected hn hf hrule hij)
  · by_contra hno
    obtain ⟨c, hc', hjc⟩ := List.mem_flatten.mp (hj.parted.2 j)
    have hic := (hj.connected c hc' j hjc i).mpr (kernelLinks_connected hn hf hrule hij)
    have hdis : Std.Symm (List.Disjoint (α := Fin 6)) := ⟨fun _ _ hxy => hxy.symm⟩
    have hne : cls ≠ c := fun he => hno (he ▸ hjc)
    exact ((List.nodup_flatten.mp hj.parted.1).2.forall hc hc' hne) hi hic

/-- Both ends of each link lead out, or neither: then every outside end is joined as the kernel does it. -/
lemma kernelWire_exact (hn : SymmetricWires n) (hf : n.graph.Facing n1 n2) (hrule : joining n n1 n2 = some (cor, s))
    (hj : EndsJoined n n1 n2 s L m)
    (hends : ∀ l ∈ kernelLinks n n1 n2, (endAt n n1 n2 l.1).isSome = (endAt n n1 n2 l.2).isSome) :
    (∀ v, n.live v = true → m.live v = true) ∧
      ∀ p : Port, n.live p.node = true → Outside n1 n2 p → m.wireAt p = kernelWire n n1 n2 p := by
  -- an outside end of a port has another one in its class
  have hmate : ∀ i e, endAt n n1 n2 i = some e → ∃ j f, ((i, j) ∈ kernelLinks n n1 n2 ∨ (j, i) ∈ kernelLinks n n1 n2) ∧
      endAt n n1 n2 j = some f ∧ e ≠ f ∧ ∀ cls ∈ L, i ∈ cls → f ∈ endsOf n n1 n2 cls := by
    intro i e he
    obtain ⟨j, hij⟩ := kernelLinks_covers hn hf he
    have hij' : (i, j) ∈ kernelLinks n n1 n2 ∨ (j, i) ∈ kernelLinks n n1 n2 := hij.symm
    have hsome : (endAt n n1 n2 j).isSome = true := by
      rcases hij with h | h
      · rw [hends _ h, he]; rfl
      · rw [← hends _ h, he]; rfl
    obtain ⟨f, hfj⟩ := Option.isSome_iff_exists.mp hsome
    obtain ⟨hwi, -⟩ := endAt_eq_some.mp he
    obtain ⟨hwj, hof⟩ := endAt_eq_some.mp hfj
    refine ⟨j, f, hij', hfj, ?_, fun cls hc hi => mem_endsOf.mpr ⟨j, linked_class hn hf hrule hj hc hi hij', hwj, hof⟩⟩
    rintro rfl
    have h1 := (hn _ _ (live_pairPort hf i) hwi).2
    have h2 := (hn _ _ (live_pairPort hf j) hwj).2
    exact linked_ne hij' (pairPort_inj hf.ne (Option.some.inj (h1.symm.trans h2)))
  have hall : ∀ v, n.live v = true → m.live v = true := by
    intro v hv
    by_contra hdead
    obtain ⟨⟨cls, hc, e, hone, -⟩, -⟩ := hj.freed v hv (Bool.eq_false_iff.mpr hdead)
    obtain ⟨i, hi, hw, ho⟩ := mem_endsOf.mp (hone ▸ List.mem_singleton_self e)
    obtain ⟨j, f, -, -, hef, hmem⟩ := hmate i e (endAt_eq_some.mpr ⟨hw, ho⟩)
    have hfc := hmem cls hc hi
    rw [hone, List.mem_singleton] at hfc
    exact hef hfc.symm
  refine ⟨hall, fun p hp ho => ?_⟩
  by_cases hin : ∃ i, n.wireAt p = some (pairPort n1 n2 i)
  · obtain ⟨i, hi⟩ := hin
    have hwi := (hn p _ hp hi).2
    obtain ⟨cls, hc, hic⟩ := List.mem_flatten.mp (hj.parted.2 i)
    obtain ⟨j, f, hij, hfj, hef, hmem⟩ := hmate i p (endAt_eq_some.mpr ⟨hwi, ho⟩)
    rw [kernelWire_linked hn hf hij hwi, (endAt_eq_some.mp hfj).1]
    have hpc : p ∈ endsOf n n1 n2 cls := mem_endsOf.mpr ⟨i, hic, hwi, ho⟩
    have hfc := hmem cls hc hic
    have hfew := hj.few cls hc
    rcases hcase : endsOf n n1 n2 cls with _ | ⟨e, _ | ⟨e', _ | ⟨e'', es⟩⟩⟩
    · rw [hcase] at hpc
      exact absurd hpc List.not_mem_nil
    · rw [hcase, List.mem_singleton] at hpc hfc
      exact absurd (hpc.trans hfc.symm) hef
    · obtain ⟨-, -, hw, hw', -, -⟩ := hj.two cls hc e e' hcase
      rw [hcase] at hpc hfc
      rcases List.mem_pair.mp hpc with rfl | rfl <;> rcases List.mem_pair.mp hfc with rfl | rfl
      · exact absurd rfl hef
      · exact hw
      · exact hw'
      · exact absurd rfl hef
    · simp [hcase] at hfew
  · have hno : ∀ i, n.wireAt p ≠ some (pairPort n1 n2 i) := fun i hi => hin ⟨i, hi⟩
    rw [hj.other p ho hno (hall _ hp)]
    exact (kernelWire_other hn hf hno).symm

/-- A port that leads out, linked with one that does not: its far end keeps a wire to the pair on the device. -/
lemma kernelWire_stale (hn : SymmetricWires n) (hf : n.graph.Facing n1 n2) {i j : Fin 6} {e : Port}
    (hij : (i, j) ∈ kernelLinks n n1 n2 ∨ (j, i) ∈ kernelLinks n n1 n2) (he : endAt n n1 n2 i = some e)
    (hnone : endAt n n1 n2 j = none) : ∃ k, kernelWire n n1 n2 e = some (pairPort n1 n2 k) := by
  obtain ⟨hwi, -⟩ := endAt_eq_some.mp he
  rw [kernelWire_linked hn hf hij hwi]
  cases hwj : n.wireAt (pairPort n1 n2 j) with
  | none => exact ⟨i, rfl⟩
  | some q =>
    have hq : ¬ Outside n1 n2 q := fun ho => by
      rw [endAt_eq_some.mpr ⟨hwj, ho⟩] at hnone
      exact Option.some_ne_none q hnone
    obtain ⟨k, rfl⟩ := exists_pairPort hq
    exact ⟨k, rfl⟩

/-- The host leaves no wire of a live node to the pair. -/
lemma joined_not_pair (hj : EndsJoined n n1 n2 s L m) {i : Fin 6} {e : Port} (he : endAt n n1 n2 i = some e)
    (hl : m.live e.node = true) (k : Fin 6) : m.wireAt e ≠ some (pairPort n1 n2 k) := by
  obtain ⟨hwi, ho⟩ := endAt_eq_some.mp he
  obtain ⟨cls, hc, hic⟩ := List.mem_flatten.mp (hj.parted.2 i)
  have hec : e ∈ endsOf n n1 n2 cls := mem_endsOf.mpr ⟨i, hic, hwi, ho⟩
  have hout : ∀ f ∈ endsOf n n1 n2 cls, f ≠ pairPort n1 n2 k := by
    rintro f hfc rfl
    obtain ⟨-, -, -, hof⟩ := mem_endsOf.mp hfc
    exact pairPort_not_outside n1 n2 k hof
  have hfew := hj.few cls hc
  intro hbad
  rcases hcase : endsOf n n1 n2 cls with _ | ⟨a, _ | ⟨b, _ | ⟨c, es⟩⟩⟩
  · rw [hcase] at hec
    exact absurd hec List.not_mem_nil
  · rw [hcase, List.mem_singleton] at hec
    subst hec
    rw [hj.one cls hc e hcase hl] at hbad
    exact Option.some_ne_none _ hbad.symm
  · obtain ⟨-, -, hw, hw', -, -⟩ := hj.two cls hc a b hcase
    rw [hcase] at hec
    rcases List.mem_pair.mp hec with rfl | rfl
    · rw [hw, Option.some_inj] at hbad
      exact hout b (by simp [hcase]) hbad
    · rw [hw', Option.some_inj] at hbad
      exact hout a (by simp [hcase]) hbad
  · simp [hcase] at hfew

/-- A function applied, or two fans on one gauge. -/
def JoinsEnds (n : Net) (r : ℕ × ℕ) : Prop :=
  (n.tag.get r.1 = .lam ∧ n.tag.get r.2 = .app) ∨
    n.tag.get r.1 = .dup ∧ n.tag.get r.2 = .dup ∧ n.scope.get r.1 = n.scope.get r.2

lemma joinsEnds_of_claim (hclaim : gpuClaim true n p1 p2 = true) :
    JoinsEnds n (sortPair (n.tag.get p1.node) (n.tag.get p2.node) p1.node p2.node) := by
  simp only [gpuClaim, Bool.and_eq_true] at hclaim
  have hrule := hclaim.2
  split at hrule
  · rename_i h1 h2
    exact .inl ⟨h1, h2⟩
  · rename_i h1 h2
    exact .inr ⟨h1, h2, eq_of_beq hrule⟩
  · exact absurd hrule Bool.false_ne_true

/-- The invocation for a redex is the rule for its sorted pair. -/
lemma main_eq (hf : n.graph.Facing p1.node p2.node) (hnn : n.nn ≤ nodeMask) {n1 n2 : ℕ}
    (hsort : sortPair (n.tag.get p1.node) (n.tag.get p2.node) p1.node p2.node = (n1, n2)) :
    (upload n).main (packPort (some p1)) (packPort (some p2)) =
      if (n.tag.get n1).rank = 0 ∧ (n.tag.get n2).rank = 1 then (upload n).beta n1 n2
      else if (n.tag.get n1).rank = 2 ∧ (n.tag.get n2).rank = 2 then (upload n).annihilate n1 n2
      else upload n := by
  obtain ⟨h1, h2⟩ := pair_inNet hf
  have hn1 := packPort_node (h1.trans_le hnn)
  have hn2 := packPort_node (h2.trans_le hnn)
  have hgo : ¬ (p1.node = nodeMask ∨ p2.node = nodeMask) := by omega
  have hpair : (if (upload n).tags.get p2.node < (upload n).tags.get p1.node then (p2.node, p1.node)
      else (p1.node, p2.node)) =
      (n1, n2) := by
    rw [upload_tags h1, upload_tags h2, ← hsort]
    rfl
  have hmem : (n1 = p1.node ∨ n1 = p2.node) ∧ (n2 = p1.node ∨ n2 = p2.node) := by
    rw [sortPair] at hsort
    split_ifs at hsort <;> obtain ⟨rfl, rfl⟩ := Prod.mk.inj hsort <;> simp
  have ht1 : (upload n).tags.get n1 = (n.tag.get n1).rank := by
    rcases hmem.1 with h | h <;> rw [h]
    · exact upload_tags h1
    · exact upload_tags h2
  have ht2 : (upload n).tags.get n2 = (n.tag.get n2).rank := by
    rcases hmem.2 with h | h <;> rw [h]
    · exact upload_tags h1
    · exact upload_tags h2
  simp only [Device.main, hn1, hn2, hgo, if_false, hpair, ht1, ht2]

/-- For a pair whose rule joins its ends. -/
lemma kernelAgrees_of_joins (g : Globals) (hn : SymmetricWires n) (hnn : n.nn ≤ nodeMask)
    (hf : n.graph.Facing p1.node p2.node)
    (htags : JoinsEnds n (sortPair (n.tag.get p1.node) (n.tag.get p2.node) p1.node p2.node)) :
    KernelAgrees g n p1 p2 ↔
      KernelExact n (sortPair (n.tag.get p1.node) (n.tag.get p2.node) p1.node p2.node).1
        (sortPair (n.tag.get p1.node) (n.tag.get p2.node) p1.node p2.node).2 := by
  have hface := hf.sortPair (n.tag.get p1.node) (n.tag.get p2.node)
  have hhost : netInteract g n p1 p2 = interactSorted g n
      (sortPair (n.tag.get p1.node) (n.tag.get p2.node) p1.node p2.node).1
      (sortPair (n.tag.get p1.node) (n.tag.get p2.node) p1.node p2.node).2 := by
    simp only [netInteract, sortPair]
    split_ifs <;> rfl
  generalize hsort : sortPair (n.tag.get p1.node) (n.tag.get p2.node) p1.node p2.node = r at hface htags hhost ⊢
  obtain ⟨n1, n2⟩ := r
  have hmain := main_eq hf hnn hsort
  simp only at hface htags hhost ⊢
  obtain ⟨cor, s, hrule⟩ : ∃ cor s, joining n n1 n2 = some (cor, s) := by
    rcases htags with ⟨h1, h2⟩ | ⟨h1, h2, hgauge⟩
    · exact ⟨_, _, by simp only [joining, h1, h2]; rfl⟩
    · exact ⟨_, _, by simp only [joining, h1, h2, hgauge, if_true]; rfl⟩
  have hfire : interactSorted g n n1 n2 = (true, retire g (pairBoundary g n n1 n2 cor) n1 n2) := by
    rcases htags with ⟨h1, h2⟩ | ⟨h1, h2, hgauge⟩
    · simp only [joining, h1, h2, Option.some.injEq, Prod.mk.injEq] at hrule
      simp only [interactSorted, h1, h2, ← hrule.1]
    · simp only [joining, h1, h2, hgauge, if_true, Option.some.injEq, Prod.mk.injEq] at hrule
      simp only [interactSorted, h1, h2, hgauge, if_true, ← hrule.1]
  have hcor : ∃ x, Corresponds cor x s := by
    unfold joining at hrule
    split at hrule
    · obtain ⟨rfl, rfl⟩ := Prod.mk.inj (Option.some.inj hrule)
      exact ⟨_, corresponds_swapped⟩
    · split_ifs at hrule
      obtain ⟨rfl, rfl⟩ := Prod.mk.inj (Option.some.inj hrule)
      exact ⟨_, corresponds_straight⟩
    · exact absurd hrule.symm (Option.some_ne_none _)
  obtain ⟨x, hcor⟩ := hcor
  have hj := pairBoundary_endsJoined g hn hface hcor
  have hret := joined_retired g hface hj (pairBoundary_loosened g hn hface hcor)
  have hwane : Waning n (pairBoundary g n n1 n2 cor) := (Waning.linking g).pairBoundary n n1 n2 cor
  generalize pairBoundary g n n1 n2 cor = m at hfire hj hret hwane
  generalize pairClasses (fun i => insidePair n1 n2 (n.wireAt (pairPort n1 n2 i))) cor = L at hj
  have hhost : (netInteract g n p1 p2).2 = retire g m n1 n2 := by rw [hhost, hfire]
  have hin := pair_inNet hface
  -- the dispatch, but for two fans on an odd gauge
  have hdispatch : (n.tag.get n1 = .dup → n.scope.get n1 % 2 = 0) → ∃ d, gpuDispatch n p1 p2 = commit n d ∧
      Shows n (kernelWire n n1 n2) (deadAfter n n1 n2) d := by
    intro heven
    refine ⟨_, rfl, ?_⟩
    rw [hmain]
    rcases htags with ⟨h1, h2⟩ | ⟨h1, h2, hgauge⟩
    · rw [if_pos (by simp [h1, h2, Tag.rank]), beta_eq hn hface hnn h1]
      exact shows_rule hn hface hnn
    · rw [if_neg (by simp [h1, Tag.rank]), if_pos (by simp [h1, h2, Tag.rank]),
        annihilate_eq hn hface hnn h1 hgauge (heven h1)]
      exact shows_rule hn hface hnn
  constructor
  · intro hagree
    have heven : n.tag.get n1 = .dup → n.scope.get n1 % 2 = 0 := by
      intro hdup
      by_contra hodd
      have hsame : gpuDispatch n p1 p2 = commit n (upload n) := by
        have h2 : n.tag.get n2 = .dup := by
          rcases htags with ⟨h1, -⟩ | ⟨-, h2, -⟩
          · simp [hdup] at h1
          · exact h2
        rw [gpuDispatch, hmain, if_neg (by simp [hdup, Tag.rank]), if_pos (by simp [hdup, h2, Tag.rank]),
          annihilate_odd hface hodd]
      have hdead := hagree.dead n1 hin.1
      rw [hsame, (shows_upload n).commit_dead hin.1, hhost, hret.dead, ((Net.live_iff n1).mp hface.liveL).2] at hdead
      simp at hdead
    obtain ⟨d, hd, hshows⟩ := hdispatch heven
    have hmixed : ∀ {i j : Fin 6}, ((i, j) ∈ kernelLinks n n1 n2 ∨ (j, i) ∈ kernelLinks n n1 n2) →
        (endAt n n1 n2 i).isSome = true → (endAt n n1 n2 j).isSome = true := by
      intro i j hij hi
      obtain ⟨e, he⟩ := Option.isSome_iff_exists.mp hi
      by_contra hnone
      obtain ⟨hwi, ho⟩ := endAt_eq_some.mp he
      have hle := (hn _ _ (live_pairPort hface i) hwi).1
      obtain ⟨hlt, halive⟩ := (Net.live_iff e.node).mp hle
      obtain ⟨k, hk⟩ := kernelWire_stale hn hface hij he (Option.not_isSome_iff_eq_none.mp hnone)
      by_cases hlm : m.live e.node = true
      · have hlive : (retire g m n1 n2).live e.node = true := (hret.live e.node).mpr ⟨hlm, ho.1, ho.2⟩
        have hw := hagree.wire e (hhost ▸ hlive)
        rw [hd, hhost, hret.wire e ho.1 ho.2, hshows.commit_wire hnn hlt, hk] at hw
        · exact joined_not_pair hj he hlm k hw.symm
        · intro q hq
          rw [hk, Option.some_inj] at hq
          rcases pairPort_node n1 n2 k with hk' | hk' <;> rw [← hq, hk']
          · exact hin.1
          · exact hin.2
      · have hdead := hagree.dead e.node hlt
        have hdm : m.dead.get e.node = true := by
          by_contra hno
          exact hlm ((Net.live_iff e.node).mpr ⟨hwane.nn ▸ hlt, Bool.eq_false_iff.mpr hno⟩)
        have h1 : (e.node == n1) = false := beq_eq_false_iff_ne.mpr ho.1
        have h2 : (e.node == n2) = false := beq_eq_false_iff_ne.mpr ho.2
        rw [hd, hshows.commit_dead hlt, hhost, hret.dead, hdm, deadAfter, halive, h1, h2] at hdead
        exact absurd hdead (by decide)
    refine ⟨heven, fun l hl => ?_⟩
    rw [Bool.eq_iff_iff]
    exact ⟨hmixed (.inl hl), hmixed (.inr hl)⟩
  · rintro ⟨heven, hends⟩
    obtain ⟨d, hd, hshows⟩ := hdispatch heven
    obtain ⟨hall, hwires⟩ := kernelWire_exact hn hface hrule hj hends
    constructor
    · intro v hv
      rw [hd, hshows.commit_dead hv, hhost, hret.dead, deadAfter]
      have hsame : m.dead.get v = n.dead.get v := by
        cases hdv : n.dead.get v with
        | true => exact hwane.dead hdv
        | false => exact ((Net.live_iff v).mp (hall v ((Net.live_iff v).mpr ⟨hv, hdv⟩))).2
      rw [hsame]
    · intro p hp
      rw [hhost] at hp ⊢
      obtain ⟨hlm, h1, h2⟩ := (hret.live p.node).mp hp
      have hl := hj.alive _ hlm
      have hlt := ((Net.live_iff p.node).mp hl).1
      rw [hd, hret.wire p h1 h2, hwires p hl ⟨h1, h2⟩]
      exact hshows.commit_wire hnn hlt fun q hq => kernelWire_inNet hn hface hl ⟨h1, h2⟩ hq

/-- The kernel and the host leave the same wires and flags for a redex that the driver claims, exactly when no
link of the kernel joins an end that leads out of the pair with one that does not, and two fans have an even gauge. -/
theorem kernel_agrees_iff (g : Globals) (hn : SymmetricWires n) (hnn : n.nn ≤ nodeMask)
    (hf : n.graph.Facing p1.node p2.node) (hclaim : gpuClaim true n p1 p2 = true) :
    KernelAgrees g n p1 p2 ↔
      KernelExact n (sortPair (n.tag.get p1.node) (n.tag.get p2.node) p1.node p2.node).1
        (sortPair (n.tag.get p1.node) (n.tag.get p2.node) p1.node p2.node).2 :=
  kernelAgrees_of_joins g hn hnn hf (joinsEnds_of_claim hclaim)

theorem kernel_agrees_identity : KernelAgrees .serial identityNet ⟨2, 0⟩ ⟨1, 0⟩ :=
  (@kernel_agrees_iff identityNet ⟨2, 0⟩ ⟨1, 0⟩ .serial (wired_of_check (by decide)).symmetricWires (by decide)
    identityNet_facing (by decide +kernel)).mpr
    ⟨by decide +kernel, by decide +kernel⟩

end Agreement

end LinEngine
