import LinEngine.Net

/-!
# What the primitives of the net change

Read-after-write laws for the accessors, then one statement for each primitive of
`net.c` that the rules use: which wires it changes, and that the rest stays. The
wiring invariant `Wired` and the free-list invariant `FreeOk` are stated here.
-/
namespace LinEngine

namespace Net

variable {n : Net}

lemma slot_inj (p q : Port) : p.node * 3 + (p.port : ℕ) = q.node * 3 + (q.port : ℕ) ↔ p = q := by
  obtain ⟨v, k⟩ := p
  obtain ⟨u, l⟩ := q
  have := k.isLt
  have := l.isLt
  simp only [Port.mk.injEq, Fin.ext_iff]
  omega

@[simp] theorem wireAt_setWire (p q : Port) (w : Option Port) :
    (n.setWire p w).wireAt q = if p = q then w else n.wireAt q := by
  simp only [wireAt, setWire, Table.get_set, slot_inj]

@[simp] theorem nn_setWire (p : Port) (w : Option Port) : (n.setWire p w).nn = n.nn := rfl
@[simp] theorem tag_setWire (p : Port) (w : Option Port) : (n.setWire p w).tag = n.tag := rfl
@[simp] theorem dead_setWire (p : Port) (w : Option Port) : (n.setWire p w).dead = n.dead := rfl
@[simp] theorem scope_setWire (p : Port) (w : Option Port) : (n.setWire p w).scope = n.scope := rfl
@[simp] theorem levels_setWire (p : Port) (w : Option Port) :
    (n.setWire p w).levels = n.levels := rfl
@[simp] theorem freeHead_setWire (p : Port) (w : Option Port) :
    (n.setWire p w).freeHead = n.freeHead := rfl
@[simp] theorem pendHead_setWire (p : Port) (w : Option Port) :
    (n.setWire p w).pendHead = n.pendHead := rfl
@[simp] theorem pins_setWire (p : Port) (w : Option Port) : (n.setWire p w).pins = n.pins := rfl
@[simp] theorem live_setWire (p : Port) (w : Option Port) (v : ℕ) :
    (n.setWire p w).live v = n.live v := rfl
@[simp] theorem inNet_setWire (p : Port) (w : Option Port) (v : ℕ) :
    (n.setWire p w).inNet v = n.inNet v := rfl

lemma live_iff (v : ℕ) : n.live v = true ↔ v < n.nn ∧ n.dead.get v = false := by
  simp [live, inNet]

end Net

/-! ## Parts of the net a primitive leaves alone -/

/-- The graph part of two nets agrees: only the queue and the bookkeeping differ. -/
structure SameGraph (n n' : Net) : Prop where
  nn : n'.nn = n.nn
  tag : n'.tag = n.tag
  wire : n'.wire = n.wire
  scope : n'.scope = n.scope
  dead : n'.dead = n.dead
  levels : n'.levels = n.levels
  freeHead : n'.freeHead = n.freeHead
  pendHead : n'.pendHead = n.pendHead
  pins : n'.pins = n.pins

namespace SameGraph

variable {n n' n'' : Net}

lemma refl (n : Net) : SameGraph n n := ⟨rfl, rfl, rfl, rfl, rfl, rfl, rfl, rfl, rfl⟩

lemma trans (h : SameGraph n n') (h' : SameGraph n' n'') : SameGraph n n'' :=
  ⟨h'.nn.trans h.nn, h'.tag.trans h.tag, h'.wire.trans h.wire, h'.scope.trans h.scope,
    h'.dead.trans h.dead, h'.levels.trans h.levels, h'.freeHead.trans h.freeHead,
    h'.pendHead.trans h.pendHead, h'.pins.trans h.pins⟩

lemma wireAt (h : SameGraph n n') (p : Port) : n'.wireAt p = n.wireAt p := by
  simp only [Net.wireAt, h.wire]

lemma live (h : SameGraph n n') (v : ℕ) : n'.live v = n.live v := by
  simp only [Net.live, Net.inNet, h.nn, h.dead]

lemma degLive (h : SameGraph n n') (v : ℕ) : degLive n' v = degLive n v := by
  simp only [LinEngine.degLive, h.wireAt, h.live]

end SameGraph

lemma actPush_same (n : Net) (a b : Port) : SameGraph n (actPush n a b) := by
  unfold actPush
  split
  · exact .refl n
  · exact ⟨rfl, rfl, rfl, rfl, rfl, rfl, rfl, rfl, rfl⟩

lemma actDrop_same (g : Globals) (n : Net) (v : ℕ) : SameGraph n (actDrop g n v) := by
  unfold actDrop
  split
  · exact .refl n
  · dsimp only
    split_ifs <;> exact ⟨rfl, rfl, rfl, rfl, rfl, rfl, rfl, rfl, rfl⟩

lemma actPush_nfree (n : Net) (a b : Port) : (actPush n a b).nfree = n.nfree := by
  unfold actPush
  split_ifs <;> rfl

lemma actDrop_nfree (g : Globals) (n : Net) (v : ℕ) : (actDrop g n v).nfree = n.nfree := by
  unfold actDrop
  split
  · rfl
  · dsimp only
    split_ifs <;> rfl

/-- What every step of a rule leaves alone: the store of levels and gauges, the
free list, and every wire of a node that was dead before. -/
structure Frame (n n' : Net) : Prop where
  nn : n'.nn = n.nn
  scope : n'.scope = n.scope
  levels : n'.levels = n.levels
  freeHead : n'.freeHead = n.freeHead
  pins : n'.pins = n.pins
  dead : ∀ v, n.dead.get v = true → n'.dead.get v = true
  deadWire : ∀ p : Port, n.dead.get p.node = true → n'.wireAt p = n.wireAt p
  tag : ∀ v, n'.live v = true → n'.tag.get v = n.tag.get v

namespace Frame

variable {n n' n'' : Net}

lemma refl (n : Net) : Frame n n :=
  ⟨rfl, rfl, rfl, rfl, rfl, fun _ h => h, fun _ _ => rfl, fun _ _ => rfl⟩

lemma live_of (h : Frame n n') {v : ℕ} (hv : n'.live v = true) : n.live v = true := by
  rw [Net.live_iff] at hv ⊢
  refine ⟨h.nn ▸ hv.1, ?_⟩
  by_contra hd
  have := h.dead v (by simpa using hd)
  simp [hv.2] at this

lemma trans (h : Frame n n') (h' : Frame n' n'') : Frame n n'' where
  nn := h'.nn.trans h.nn
  scope := h'.scope.trans h.scope
  levels := h'.levels.trans h.levels
  freeHead := h'.freeHead.trans h.freeHead
  pins := h'.pins.trans h.pins
  dead v hv := h'.dead v (h.dead v hv)
  deadWire p hp := (h'.deadWire p (h.dead _ hp)).trans (h.deadWire p hp)
  tag v hv := by rw [h'.tag v hv, h.tag v (h'.live_of hv)]

end Frame

/-! ## The invariants -/

/-- Every wire of a live node joins two different ports of live nodes, both ways. -/
def Wired (n : Net) : Prop :=
  ∀ p q : Port, n.live p.node = true → n.wireAt p = some q →
    n.live q.node = true ∧ n.wireAt q = some p ∧ q ≠ p

/-- The slots threaded through port 0 from `head` on. -/
inductive FreeChain (n : Net) : Option ℕ → List ℕ → Prop
  | nil : FreeChain n none []
  | cons {v : ℕ} {l : List ℕ} : v < n.nn → n.dead.get v = true → v ∉ l →
      FreeChain n ((n.wireAt ⟨v, 0⟩).map (·.node)) l → FreeChain n (some v) (v :: l)

/-- The free list is a finite chain of distinct dead slots of the net. -/
def FreeOk (n : Net) : Prop := ∃ l, FreeChain n n.freeHead l

lemma FreeChain.dead_of_mem {n : Net} {h : Option ℕ} {l : List ℕ} (hc : FreeChain n h l)
    {v : ℕ} (hv : v ∈ l) : v < n.nn ∧ n.dead.get v = true := by
  induction hc with
  | nil => simp at hv
  | cons hlt hd _ _ ih =>
    rcases List.mem_cons.mp hv with rfl | hv
    · exact ⟨hlt, hd⟩
    · exact ih hv

/-- A chain survives any change that keeps its slots dead and their port 0 as it is. -/
lemma FreeChain.mono {n n' : Net} {h : Option ℕ} {l : List ℕ} (hc : FreeChain n h l)
    (hnn : n.nn ≤ n'.nn) (hd : ∀ v ∈ l, n'.dead.get v = true)
    (hw : ∀ v ∈ l, n'.wireAt ⟨v, 0⟩ = n.wireAt ⟨v, 0⟩) : FreeChain n' h l := by
  induction hc with
  | nil => exact .nil
  | @cons v l hlt _ hnot _ ih =>
    refine .cons (lt_of_lt_of_le hlt hnn) (hd v (by simp)) hnot ?_
    rw [hw v (by simp)]
    exact ih (fun u hu => hd u (by simp [hu])) (fun u hu => hw u (by simp [hu]))

lemma FreeOk.frame {n n' : Net} (h : FreeOk n) (hf : Frame n n') : FreeOk n' := by
  obtain ⟨l, hl⟩ := h
  refine ⟨l, ?_⟩
  rw [hf.freeHead]
  exact hl.mono hf.nn.ge (fun v hv => hf.dead v (hl.dead_of_mem hv).2)
    (fun v hv => hf.deadWire ⟨v, 0⟩ (hl.dead_of_mem hv).2)

/-! ## Allocation -/

/-- What `netAlloc` hands out is not live before, and all it changes is that node. -/
structure Allocated (n : Net) (tag : Tag) (sc id : ℕ) (n' : Net) : Prop where
  fresh : n.live id = false
  isLive : n'.live id = true
  liveOther : ∀ v, v ≠ id → n'.live v = n.live v
  tagNew : n'.tag.get id = tag
  scopeNew : n'.scope.get id = sc
  tagOther : ∀ v, v ≠ id → n'.tag.get v = n.tag.get v
  scopeOther : ∀ v, v ≠ id → n'.scope.get v = n.scope.get v
  wireNew : ∀ k, n'.wireAt ⟨id, k⟩ = none
  wireOther : ∀ p : Port, p.node ≠ id → n'.wireAt p = n.wireAt p
  levels : n'.levels = n.levels
  pins : n'.pins = n.pins
  freeOk : FreeOk n'

/-- The node record `netAlloc` writes into slot `id`. -/
def initNode (n : Net) (id : ℕ) (tag : Tag) (sc : ℕ) : Net :=
  let n := { n with
    tag := n.tag.set id tag, dead := n.dead.set id false, scope := n.scope.set id sc }
  ((n.setWire ⟨id, 0⟩ none).setWire ⟨id, 1⟩ none).setWire ⟨id, 2⟩ none

lemma initNode_wireAt (n : Net) (id : ℕ) (tag : Tag) (sc : ℕ) (p : Port) :
    (initNode n id tag sc).wireAt p = if p.node = id then none else n.wireAt p := by
  obtain ⟨v, k⟩ := p
  simp only [initNode, Net.wireAt_setWire, Port.mk.injEq]
  by_cases h : v = id
  · subst h
    fin_cases k <;> simp
  · simp only [Ne.symm h, false_and, if_false, h]
    rfl

lemma initNode_live (n : Net) (id : ℕ) (tag : Tag) (sc v : ℕ) (hid : id < n.nn) :
    (initNode n id tag sc).live v = (n.live v || decide (v = id)) := by
  simp only [initNode, Net.live, Net.inNet, Net.nn_setWire, Net.dead_setWire, Table.get_set]
  by_cases h : id = v
  · subst h
    simp [hid]
  · simp only [h, Ne.symm h, if_false, decide_false, Bool.or_false]
    rfl

lemma allocated_initNode {n m : Net} {tag : Tag} {sc id : ℕ} (hid : id < m.nn)
    (hfresh : n.live id = false) (hlive : ∀ v, v ≠ id → m.live v = n.live v)
    (htag : m.tag = n.tag) (hscope : m.scope = n.scope) (hwire : m.wire = n.wire)
    (hlevels : m.levels = n.levels) (hpins : m.pins = n.pins)
    (hfree : FreeOk (initNode m id tag sc)) : Allocated n tag sc id (initNode m id tag sc) where
  fresh := hfresh
  isLive := by rw [initNode_live m id tag sc id hid]; simp
  liveOther v hv := by rw [initNode_live m id tag sc v hid, hlive v hv]; simp [hv]
  tagNew := by simp [initNode]
  scopeNew := by simp [initNode]
  tagOther v hv := by simp [initNode, htag, Ne.symm hv]
  scopeOther v hv := by simp [initNode, hscope, Ne.symm hv]
  wireNew k := by rw [initNode_wireAt]; simp
  wireOther p hp := by rw [initNode_wireAt, if_neg hp]; simp [Net.wireAt, hwire]
  levels := hlevels
  pins := hpins
  freeOk := hfree

theorem netAlloc_spec {g : Globals} (hg : g.inParallel = false) {n : Net} (hn : FreeOk n)
    (tag : Tag) (sc : ℕ) :
    Allocated n tag sc (netAlloc g n tag sc).1 (netAlloc g n tag sc).2 := by
  obtain ⟨l, hl⟩ := hn
  cases hl' : n.freeHead with
  | none =>
    have he : netAlloc g n tag sc =
        (n.nn, initNode { n with nn := n.nn + 1 } n.nn tag sc) := by
      simp [netAlloc, hg, hl', initNode]
    rw [he]
    refine allocated_initNode (by simp) (by simp [Net.live, Net.inNet]) ?_ rfl rfl rfl rfl rfl
      ⟨[], ?_⟩
    · intro v hv
      simp only [Net.live, Net.inNet]
      congr 1
      exact decide_eq_decide.mpr (by omega)
    · have hh : (initNode { n with nn := n.nn + 1 } n.nn tag sc).freeHead = none := hl'
      rw [hh]
      exact .nil
  | some id =>
    rw [hl'] at hl
    cases hl with
    | @cons _ l hlt hdead hnot hrest =>
      let m : Net := { n with
        freeHead := (n.wireAt ⟨id, 0⟩).map (·.node), nfree := n.nfree - 1,
        dem := n.dem.set id 0, vport := n.vport.set id 0 }
      have he : netAlloc g n tag sc = (id, initNode m id tag sc) := by
        simp [netAlloc, hg, hl', initNode, m]
      rw [he]
      refine allocated_initNode hlt (by simp [Net.live, hdead]) (fun v _ => rfl) rfl rfl rfl rfl
        rfl ⟨l, ?_⟩
      refine hrest.mono le_rfl ?_ ?_
      · intro v hv
        have hne : id ≠ v := fun h => hnot (h ▸ hv)
        simpa [initNode, hne, m] using (hrest.dead_of_mem hv).2
      · intro v hv
        have hne : v ≠ id := fun h => hnot (h ▸ hv)
        rw [initNode_wireAt, if_neg hne]
        rfl

/-! ## Linking -/

lemma netLink_wireAt (g : Globals) (n : Net) (a b q : Port) (e : Bool) :
    (netLink g n (some a) (some b) e).wireAt q =
      if b = q then some a else if a = q then some b else n.wireAt q := by
  have key : ((n.setWire a (some b)).setWire b (some a)).wireAt q =
      if b = q then some a else if a = q then some b else n.wireAt q := by simp
  rw [← key]
  simp only [netLink]
  split_ifs
  · rfl
  · exact (actPush_same _ a b).wireAt q
  · rfl

/-- A link changes the wires of its two ports only. -/
structure Linked (n n' : Net) : Prop where
  nn : n'.nn = n.nn
  tag : n'.tag = n.tag
  scope : n'.scope = n.scope
  dead : n'.dead = n.dead
  levels : n'.levels = n.levels
  freeHead : n'.freeHead = n.freeHead
  pins : n'.pins = n.pins

lemma netLink_linked (g : Globals) (n : Net) (a b : Option Port) (e : Bool) :
    Linked n (netLink g n a b e) := by
  unfold netLink
  split
  · dsimp only
    split_ifs
    · exact ⟨rfl, rfl, rfl, rfl, rfl, rfl, rfl⟩
    · rename_i a b _ _
      have h := actPush_same ((n.setWire a (some b)).setWire b (some a)) a b
      exact ⟨h.nn, h.tag, h.scope, h.dead, h.levels, h.freeHead, h.pins⟩
    · exact ⟨rfl, rfl, rfl, rfl, rfl, rfl, rfl⟩
  · exact ⟨rfl, rfl, rfl, rfl, rfl, rfl, rfl⟩

lemma Linked.trans {n n' n'' : Net} (h : Linked n n') (h' : Linked n' n'') : Linked n n'' :=
  ⟨h'.nn.trans h.nn, h'.tag.trans h.tag, h'.scope.trans h.scope, h'.dead.trans h.dead,
    h'.levels.trans h.levels, h'.freeHead.trans h.freeHead, h'.pins.trans h.pins⟩

lemma Linked.live {n n' : Net} (h : Linked n n') (v : ℕ) : n'.live v = n.live v := by
  simp only [Net.live, Net.inNet, h.nn, h.dead]

lemma netLink_none (g : Globals) (n : Net) (a : Option Port) (e : Bool) :
    netLink g n a none e = n := by
  cases a <;> rfl

/-! ## Releasing -/

lemma mem_portsOf {v : ℕ} {p : Port} : p ∈ portsOf v ↔ p.node = v := by
  obtain ⟨u, k⟩ := p
  simp only [portsOf, List.mem_cons, Port.mk.injEq, List.not_mem_nil, or_false]
  fin_cases k <;> simp

lemma degLive_eq_zero {n : Net} {v : ℕ} :
    degLive n v = 0 ↔ ∀ p : Port, p.node = v → ∀ w, n.wireAt p = some w → n.live w.node = false := by
  simp only [degLive, List.countP_eq_zero, mem_portsOf, Option.any_eq_true_iff_get]
  constructor
  · intro h p hp w hw
    by_contra hl
    exact h p hp ⟨by simp [hw], by simpa [hw] using hl⟩
  · rintro h p hp ⟨hs, hl⟩
    obtain ⟨w, hw⟩ := Option.isSome_iff_exists.mp hs
    have := h p hp w hw
    simp [hw, this] at hl

/-- Two nets that agree outside the nodes `a` and `b`, and on which nodes are dead. -/
structure OffPair (a b : ℕ) (n n' : Net) : Prop where
  nn : n'.nn = n.nn
  scope : n'.scope = n.scope
  levels : n'.levels = n.levels
  freeHead : n'.freeHead = n.freeHead
  pins : n'.pins = n.pins
  dead : n'.dead = n.dead
  wire : ∀ p : Port, p.node ≠ a → p.node ≠ b → n'.wireAt p = n.wireAt p
  tag : ∀ v, v ≠ a → v ≠ b → n'.tag.get v = n.tag.get v

namespace OffPair

variable {a b : ℕ} {n n' n'' : Net}

lemma trans (h : OffPair a b n n') (h' : OffPair a b n' n'') : OffPair a b n n'' where
  nn := h'.nn.trans h.nn
  scope := h'.scope.trans h.scope
  levels := h'.levels.trans h.levels
  freeHead := h'.freeHead.trans h.freeHead
  pins := h'.pins.trans h.pins
  dead := h'.dead.trans h.dead
  wire p ha hb := (h'.wire p ha hb).trans (h.wire p ha hb)
  tag v ha hb := (h'.tag v ha hb).trans (h.tag v ha hb)

lemma live (h : OffPair a b n n') (v : ℕ) : n'.live v = n.live v := by
  simp only [Net.live, Net.inNet, h.nn, h.dead]

lemma degLive (h : OffPair a b n n') {v : ℕ} (ha : v ≠ a) (hb : v ≠ b) :
    degLive n' v = degLive n v := by
  simp only [LinEngine.degLive]
  refine List.countP_congr fun p hp => ?_
  rw [mem_portsOf] at hp
  rw [h.wire p (hp ▸ ha) (hp ▸ hb)]
  simp only [h.live]

lemma refl (a b : ℕ) (n : Net) : OffPair a b n n :=
  ⟨rfl, rfl, rfl, rfl, rfl, rfl, fun _ _ _ => rfl, fun _ _ _ => rfl⟩

lemma setWire {p : Port} (hp : p.node = a ∨ p.node = b) (w : Option Port) :
    OffPair a b n (n.setWire p w) where
  nn := rfl
  scope := rfl
  levels := rfl
  freeHead := rfl
  pins := rfl
  dead := rfl
  wire q ha hb := by
    have hne : p ≠ q := by
      rintro rfl
      rcases hp with h | h
      · exact ha h
      · exact hb h
    simp [hne]
  tag _ _ _ := rfl

end OffPair

/-- An outside partner of a node being freed: it no longer points back, and it
keeps a live wire of its own if it is alive. -/
def KeepsPartner (a b : ℕ) (n : Net) (p : Port) : Prop :=
  ∀ w, n.wireAt p = some w → w.node ≠ a → w.node ≠ b →
    n.wireAt w ≠ some p ∧ (n.live w.node = true → degLive n w.node ≠ 0)

lemma KeepsPartner.offPair {a b : ℕ} {n n' : Net} (h : OffPair a b n n') {p : Port}
    (hp : KeepsPartner a b n p) (hw : n'.wireAt p = n.wireAt p ∨ n'.wireAt p = none) :
    KeepsPartner a b n' p := by
  intro w hpw ha hb
  rcases hw with hw | hw
  · rw [hw] at hpw
    obtain ⟨h1, h2⟩ := hp w hpw ha hb
    refine ⟨by rw [h.wire w ha hb]; exact h1, fun hl => ?_⟩
    rw [h.degLive ha hb]
    exact h2 (by rw [← h.live]; exact hl)
  · rw [hw] at hpw
    exact absurd hpw (by simp)

/-- Cutting one port of a freed pair changes nothing outside the pair and frees nothing more. -/
lemma releasePort_spec {a b : ℕ} {n : Net} (st : List ℕ) {p : Port}
    (hp : p.node = a ∨ p.node = b) (ha : n.dead.get a = true) (hb : n.dead.get b = true)
    (hk : KeepsPartner a b n p) :
    (releasePort (n, st) p).2 = st ∧ OffPair a b n (releasePort (n, st) p).1 ∧
      ∀ q, (releasePort (n, st) p).1.wireAt q = n.wireAt q ∨
        (releasePort (n, st) p).1.wireAt q = none := by
  have h0 : OffPair a b n (n.setWire p none) := .setWire hp none
  have hw0 : ∀ q, (n.setWire p none).wireAt q = n.wireAt q ∨
      (n.setWire p none).wireAt q = none := by
    intro q
    by_cases h : p = q <;> simp [h]
  simp only [releasePort]
  cases hw : n.wireAt p with
  | none => exact ⟨rfl, h0, hw0⟩
  | some w =>
    by_cases hin : n.inNet w.node = true
    · simp only [Net.inNet_setWire, hin, if_true]
      by_cases hpair : w.node = a ∨ w.node = b
      · have hdead : n.dead.get w.node = true := by rcases hpair with h | h <;> rw [h] <;> assumption
        split_ifs with hback hdeg hdeg
        · simp [hdead] at hdeg
        · refine ⟨rfl, h0.trans (.setWire hpair none), fun q => ?_⟩
          by_cases h : w = q
          · simp [h]
          · simpa [h] using hw0 q
        · simp [hdead] at hdeg
        · exact ⟨rfl, h0, hw0⟩
      · obtain ⟨hna, hnb⟩ := not_or.mp hpair
        obtain ⟨hback, hdeg⟩ := hk w hw hna hnb
        have hne : p ≠ w := by
          rintro rfl
          exact hpair hp
        have hback' : ¬ (n.setWire p none).wireAt w = some p := by simpa [hne] using hback
        rw [if_neg hback']
        split_ifs with hfree
        · exfalso
          simp only [Net.dead_setWire, Bool.and_eq_true, Bool.not_eq_true', beq_iff_eq] at hfree
          have hl : n.live w.node = true := by simp [Net.live, hin, hfree.1]
          exact hdeg hl (by rw [← h0.degLive hna hnb]; exact hfree.2)
        · exact ⟨rfl, h0, hw0⟩
    · simp only [Net.inNet_setWire, hin, Bool.false_eq_true, if_false]
      exact ⟨trivial, h0, hw0⟩

lemma releasePorts_spec {a b : ℕ} (st : List ℕ) (ps : List Port) {n : Net}
    (hps : ∀ p ∈ ps, p.node = a ∨ p.node = b) (ha : n.dead.get a = true)
    (hb : n.dead.get b = true) (hk : ∀ p ∈ ps, KeepsPartner a b n p) :
    (ps.foldl releasePort (n, st)).2 = st ∧ OffPair a b n (ps.foldl releasePort (n, st)).1 ∧
      ∀ q, (ps.foldl releasePort (n, st)).1.wireAt q = n.wireAt q ∨
        (ps.foldl releasePort (n, st)).1.wireAt q = none := by
  induction ps generalizing n with
  | nil => exact ⟨rfl, .refl a b n, fun _ => Or.inl rfl⟩
  | cons p ps ih =>
    obtain ⟨h1, h2, h3⟩ := releasePort_spec st (hps p (by simp)) ha hb (hk p (by simp))
    have hpair : releasePort (n, st) p = ((releasePort (n, st) p).1, st) := Prod.ext rfl h1
    rw [List.foldl_cons, hpair]
    obtain ⟨i1, i2, i3⟩ := ih (n := (releasePort (n, st) p).1)
      (fun q hq => hps q (by simp [hq])) (by rw [h2.dead]; exact ha) (by rw [h2.dead]; exact hb)
      (fun q hq => (hk q (by simp [hq])).offPair h2 (h3 q))
    refine ⟨i1, h2.trans i2, fun q => ?_⟩
    rcases i3 q with h | h
    · rcases h3 q with h' | h'
      · exact Or.inl (h.trans h')
      · exact Or.inr (h.trans h')
    · exact Or.inr h

/-- Freeing one node of a dead pair whose outside partners are all kept. -/
lemma releaseNow_spec {a b u : ℕ} (hu : u = a ∨ u = b) {n : Net} (ha : n.dead.get a = true)
    (hb : n.dead.get b = true) (hk : ∀ p : Port, p.node = u → KeepsPartner a b n p) :
    OffPair a b n (releaseNow n u) ∧
      ∀ q : Port, q ≠ ⟨u, 0⟩ →
        (releaseNow n u).wireAt q = n.wireAt q ∨ (releaseNow n u).wireAt q = none := by
  obtain ⟨h1, h2, h3⟩ := releasePorts_spec [] (portsOf u) (n := n)
    (fun p hp => by rw [mem_portsOf] at hp; rw [hp]; exact hu) ha hb
    (fun p hp => hk p (mem_portsOf.mp hp))
  have he : releaseNow n u = pendPush ((portsOf u).foldl releasePort (n, [])).1 u := by
    rw [releaseNow, releaseLoop, h1]
    cases n.nn <;> rfl
  rw [he]
  set m := ((portsOf u).foldl releasePort (n, [])).1
  have hp : OffPair a b m (pendPush m u) := by
    have hs : OffPair a b m (({ m with tag := m.tag.set u .era }).setWire ⟨u, 0⟩
        (m.pendHead.map (⟨·, 0⟩))) := by
      have htag : OffPair a b m { m with tag := m.tag.set u .era } := by
        refine ⟨rfl, rfl, rfl, rfl, rfl, rfl, fun _ _ _ => rfl, fun v hva hvb => ?_⟩
        have hne : u ≠ v := by
          rintro rfl
          rcases hu with h | h
          · exact hva h
          · exact hvb h
        simp [hne]
      exact htag.trans (.setWire hu _)
    exact ⟨hs.nn, hs.scope, hs.levels, hs.freeHead, hs.pins, hs.dead, hs.wire, hs.tag⟩
  refine ⟨h2.trans hp, fun q hq => ?_⟩
  have hqw : (pendPush m u).wireAt q = m.wireAt q := by
    have : (pendPush m u).wireAt q = (({ m with tag := m.tag.set u .era }).setWire ⟨u, 0⟩
        (m.pendHead.map (⟨·, 0⟩))).wireAt q := rfl
    rw [this, Net.wireAt_setWire, if_neg (Ne.symm hq)]
    rfl
  rw [hqw]
  exact h3 q

/-- What `retire` leaves: the pair is dead and nothing outside it has changed. -/
structure Retired (a b : ℕ) (n n' : Net) : Prop where
  nn : n'.nn = n.nn
  scope : n'.scope = n.scope
  levels : n'.levels = n.levels
  freeHead : n'.freeHead = n.freeHead
  pins : n'.pins = n.pins
  live : ∀ v, n'.live v = true ↔ n.live v = true ∧ v ≠ a ∧ v ≠ b
  dead : ∀ v, n'.dead.get v = (n.dead.get v || v == a || v == b)
  wire : ∀ p : Port, p.node ≠ a → p.node ≠ b → n'.wireAt p = n.wireAt p
  tag : ∀ v, v ≠ a → v ≠ b → n'.tag.get v = n.tag.get v

/-- The net in which the pair `a`, `b` is marked dead. -/
def markPair (n : Net) (a b : ℕ) : Net := { n with dead := (n.dead.set a true).set b true }

lemma markPair_dead (n : Net) (a b v : ℕ) :
    (markPair n a b).dead.get v = (n.dead.get v || v == a || v == b) := by
  simp only [markPair, Table.get_set]
  by_cases h1 : b = v
  · simp [h1]
  · by_cases h2 : a = v
    · simp [h1, h2]
    · have ha : (v == a) = false := beq_eq_false_iff_ne.mpr (Ne.symm h2)
      have hb : (v == b) = false := beq_eq_false_iff_ne.mpr (Ne.symm h1)
      simp [h1, h2, ha, hb]

lemma Retired.ofOffPair {a b : ℕ} {n n' : Net} {d : Table Bool false}
    (hd : ∀ v, d.get v = (n.dead.get v || v == a || v == b))
    (h : OffPair a b { n with dead := d } n') : Retired a b n n' where
  nn := h.nn
  scope := h.scope
  levels := h.levels
  freeHead := h.freeHead
  pins := h.pins
  live v := by
    rw [h.live, Net.live_iff, Net.live_iff]
    simp [hd, and_assoc]
  dead v := by rw [h.dead, hd]
  wire p ha hb := h.wire p ha hb
  tag v ha hb := h.tag v ha hb

lemma OffPair.ofSame {a b : ℕ} {n n' : Net} (h : SameGraph n n') : OffPair a b n n' :=
  ⟨h.nn, h.scope, h.levels, h.freeHead, h.pins, h.dead, fun p _ _ => h.wireAt p,
    fun v _ _ => by rw [h.tag]⟩

theorem retire_spec (g : Globals) {n : Net} {a b : ℕ} (hab : a ≠ b)
    (hk : ∀ p : Port, p.node = a ∨ p.node = b → KeepsPartner a b (markPair n a b) p) :
    Retired a b n (retire g n a b) := by
  let m := actDrop g (actDrop g (markPair n a b) a) b
  let r : Net := { m with root := m.root.filter (fun p => p.node != a && p.node != b) }
  have hm : SameGraph (markPair n a b) r := by
    have h := (actDrop_same g (markPair n a b) a).trans (actDrop_same g _ b)
    exact ⟨h.nn, h.tag, h.wire, h.scope, h.dead, h.levels, h.freeHead, h.pendHead, h.pins⟩
  have hoff : OffPair a b (markPair n a b) r := .ofSame hm
  have he : retire g n a b = if decide (1 < g.reduceDepth) || r.pins != 0 || g.inParallel ||
      g.noret then r else releaseNow (releaseNow r a) b := rfl
  rw [he]
  split_ifs
  · exact .ofOffPair (markPair_dead n a b) hoff
  · have hda : r.dead.get a = true := by rw [hm.dead, markPair_dead]; simp
    have hdb : r.dead.get b = true := by rw [hm.dead, markPair_dead]; simp
    have hkr : ∀ p : Port, p.node = a ∨ p.node = b → KeepsPartner a b r p :=
      fun p hp => (hk p hp).offPair hoff (Or.inl (hm.wireAt p))
    obtain ⟨h1, hw1⟩ := releaseNow_spec (Or.inl rfl) hda hdb (fun p hp => hkr p (Or.inl hp))
    have hk1 : ∀ p : Port, p.node = b → KeepsPartner a b (releaseNow r a) p := by
      intro p hp
      refine (hkr p (Or.inr hp)).offPair h1 (hw1 p ?_)
      rintro rfl
      exact hab hp
    obtain ⟨h2, _⟩ := releaseNow_spec (Or.inr rfl) (by rw [h1.dead]; exact hda)
      (by rw [h1.dead]; exact hdb) hk1
    exact .ofOffPair (markPair_dead n a b) (hoff.trans (h1.trans h2))

/-! ## Severing -/

/-- Releasing a node with no wires at all changes that node only. -/
lemma netRelease_isolated {g : Globals} (hg : g.inParallel = false) {n : Net} {v : ℕ}
    (hpins : n.pins = 0) (hlive : n.live v = true)
    (hiso : ∀ p : Port, p.node = v → n.wireAt p = none) :
    Retired v v n (netRelease g n v) := by
  let m := actDrop g { n with dead := n.dead.set v true } v
  have hm : SameGraph { n with dead := n.dead.set v true } m := actDrop_same g _ v
  have hun : unowned n v = true := by
    simp only [unowned, List.all_eq_true, mem_portsOf]
    intro p hp
    simp [hiso p hp]
  have he : netRelease g n v = releaseNow m v := by
    simp [netRelease, hlive, hun, hg, hpins, m]
  have hdead : m.dead.get v = true := by simp [hm.dead]
  have hk : ∀ p : Port, p.node = v → KeepsPartner v v m p := by
    intro p hp w hw
    have hn : m.wireAt p = none := (hm.wireAt p).trans (hiso p hp)
    rw [hn] at hw
    exact absurd hw (by simp)
  rw [he]
  refine .ofOffPair (d := n.dead.set v true) (fun u => ?_)
    ((OffPair.ofSame hm).trans (releaseNow_spec (Or.inl rfl) hdead hdead hk).1)
  by_cases h : v = u
  · simp [h]
  · simp [h, Ne.symm h]

/-- The two ports of a cut wire are disconnected, and the outer end's node is freed
when that was its last wire. -/
structure Severed (e x : Port) (n n' : Net) : Prop where
  nn : n'.nn = n.nn
  scope : n'.scope = n.scope
  levels : n'.levels = n.levels
  freeHead : n'.freeHead = n.freeHead
  pins : n'.pins = n.pins
  live : ∀ v, n'.live v = true ↔ n.live v = true ∧
    ¬ (v = e.node ∧ ∀ p : Port, p.node = v → p ≠ e → n.wireAt p = none)
  deadOther : ∀ v, v ≠ e.node → n'.dead.get v = n.dead.get v
  wire : ∀ p : Port, n'.live p.node = true →
    n'.wireAt p = if p = e ∨ p = x then none else n.wireAt p
  wireOther : ∀ p : Port, p.node ≠ e.node →
    n'.wireAt p = if p = x then none else n.wireAt p
  tag : ∀ v, n'.live v = true → n'.tag.get v = n.tag.get v

/-- Cutting a wire whose far end `x` sits on a node that keeps another live wire. -/
theorem netSever_spec {g : Globals} (hg : g.inParallel = false) {n : Net} {e x : Port}
    (hpins : n.pins = 0) (he : n.live e.node = true) (hx : n.live x.node = true)
    (hwe : n.wireAt e = some x) (hwx : n.wireAt x = some e) (hne : x.node ≠ e.node)
    (hlive : ∀ p : Port, p.node = e.node → ∀ w, n.wireAt p = some w → n.live w.node = true)
    (hkeep : ∃ p w : Port, p.node = x.node ∧ p ≠ x ∧ n.wireAt p = some w ∧
      n.live w.node = true ∧ w.node ≠ e.node) :
    Severed e x n (netSever g n e) := by
  let m := (n.setWire e none).setWire x none
  have hex : e ≠ x := by
    rintro rfl
    exact hne rfl
  have hinx : n.inNet x.node = true := by
    rw [Net.live_iff] at hx
    simpa [Net.inNet] using hx.1
  have hine : n.inNet e.node = true := by
    rw [Net.live_iff] at he
    simpa [Net.inNet] using he.1
  have hm : ∀ p, m.wireAt p = if p = e ∨ p = x then none else n.wireAt p := by
    intro p
    simp only [m, Net.wireAt_setWire]
    by_cases h1 : x = p
    · simp [h1]
    · by_cases h2 : e = p
      · simp [h2]
      · simp [h1, h2, Ne.symm h1, Ne.symm h2]
  -- the far node keeps a live wire, so only the outer end can be freed
  have hstay : ∀ n' : Net, (∀ p : Port, p.node ≠ e.node → n'.wireAt p = m.wireAt p) →
      (∀ v, v ≠ e.node → n'.live v = n.live v) → degLive n' x.node ≠ 0 := by
    intro n' hw hl h0
    obtain ⟨p, w, hp, hpx, hpw, hwl, hwe'⟩ := hkeep
    have hpe : p.node ≠ e.node := by rw [hp]; exact hne
    have hp' : p ≠ e := by
      rintro rfl
      exact hpe rfl
    have h1 := degLive_eq_zero.mp h0 p hp w (by rw [hw p hpe, hm]; simp [hp', hpx, hpw])
    rw [hl w.node hwe', hwl] at h1
    exact absurd h1 (by simp)
  have hback : (n.inNet x.node && (n.setWire e none).wireAt x == some e) = true := by
    simp [hinx, hex, hwx]
  have hunfold : netSever g n e =
      let r := if degLive m e.node = 0 then netRelease g m e.node else m
      if r.inNet x.node && degLive r x.node == 0 then netRelease g r x.node else r := by
    simp only [netSever, hine, hwe, Net.inNet_setWire, hback, Bool.not_true, Bool.false_eq_true,
      if_false, if_true]
    rfl
  rw [hunfold]
  by_cases hdeg : degLive m e.node = 0
  · have hiso : ∀ p : Port, p.node = e.node → m.wireAt p = none := by
      intro p hp
      cases hw : m.wireAt p with
      | none => rfl
      | some w =>
        have hpw : n.wireAt p = some w := by
          rw [hm] at hw
          split_ifs at hw with h
          exact hw
        have h1 := degLive_eq_zero.mp hdeg p hp w hw
        have h2 : m.live w.node = true := hlive p hp w hpw
        rw [h2] at h1
        exact absurd h1 (by simp)
    have hr := netRelease_isolated hg (n := m) hpins he hiso
    have hrx : degLive (netRelease g m e.node) x.node ≠ 0 := by
      refine hstay _ (fun p hp => hr.wire p hp hp) (fun v hv => ?_)
      have h := hr.live v
      rw [Bool.eq_iff_iff, h]
      simp only [hv, ne_eq, not_false_eq_true, and_self, and_true]
      rfl
    have hcond : ((netRelease g m e.node).inNet x.node &&
        degLive (netRelease g m e.node) x.node == 0) = false := by simp [hrx]
    simp only [hdeg, if_true, hcond, Bool.false_eq_true, if_false]
    have hall : ∀ p : Port, p.node = e.node → p ≠ e → n.wireAt p = none := by
      intro p hp hpe
      have hpx : p ≠ x := by
        rintro rfl
        exact hne hp
      have := hiso p hp
      rwa [hm, if_neg (by simp [hpe, hpx])] at this
    refine ⟨hr.nn, hr.scope, hr.levels, hr.freeHead, hr.pins, fun v => ?_, fun v hv => ?_,
      fun p hp => ?_, fun p hp => ?_, fun v hv => ?_⟩
    · rw [hr.live]
      by_cases hv : v = e.node
      · subst hv
        simp only [ne_eq, not_true_eq_false, and_false, true_and, false_iff, not_and, not_not]
        exact fun _ => hall
      · simp only [hv, ne_eq, not_false_eq_true, and_self, and_true, false_and]
        rfl
    · rw [hr.dead]
      simp [hv, m]
    · have hpe := ((hr.live p.node).mp hp).2.1
      rw [hr.wire p hpe hpe, hm]
    · have hpe : p ≠ e := by
        rintro rfl
        exact hp rfl
      rw [hr.wire p hp hp, hm]
      simp [hpe]
    · have hve := ((hr.live v).mp hv).2.1
      rw [hr.tag v hve hve]
      rfl
  · have hrx : degLive m x.node ≠ 0 := hstay m (fun _ _ => rfl) (fun _ _ => rfl)
    have hcond : (m.inNet x.node && degLive m x.node == 0) = false := by simp [hrx]
    simp only [hdeg, if_false, hcond, Bool.false_eq_true]
    refine ⟨rfl, rfl, rfl, rfl, rfl, fun v => ?_, fun v hv => rfl, fun p hp => hm p,
      fun p hp => ?_, fun v hv => rfl⟩
    · have hnot : ¬ ∀ p : Port, p.node = e.node → p ≠ e → n.wireAt p = none := by
        intro hall
        refine hdeg (degLive_eq_zero.mpr fun p hp w hw => ?_)
        rw [hm] at hw
        split_ifs at hw with h
        exact absurd hw (by rw [hall p hp (fun h' => h (Or.inl h'))]; simp)
      have hmv : m.live v = n.live v := rfl
      rw [hmv]
      constructor
      · intro h
        refine ⟨h, ?_⟩
        rintro ⟨rfl, hall⟩
        exact hnot hall
      · exact fun h => h.1
    · have hpe : p ≠ e := by
        rintro rfl
        exact hp rfl
      rw [hm]
      simp [hpe]

end LinEngine
