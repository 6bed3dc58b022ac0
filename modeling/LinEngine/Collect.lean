import LinEngine.Search
import LinEngine.Wiring

/-!
# Collection and the free list

The functions of `net.c` that publish and reclaim slots: `net_flush_free`, `net_gc`, and
`lin_demand`, which registers an anchor of the collection. A collection frees the live
nodes that no anchor reaches, and leaves the others where they are.
-/
namespace LinEngine

open Relation

/-- Register a demand root. -/
def linDemand (n : Net) (p : Port) : Net :=
  if !n.inNet p.node then n else if p ∈ n.root then n else { n with root := n.root ++ [p] }

/-- Move the pending slots to the free list, front to front. -/
def flushLoop : ℕ → Net → Net
  | 0, n => n
  | fuel + 1, n =>
    match n.pendHead with
    | none => n
    | some v =>
      let n : Net := { n with pendHead := (n.wireAt ⟨v, 0⟩).map (·.node) }
      flushLoop fuel { n.setWire ⟨v, 0⟩ (n.freeHead.map (⟨·, 0⟩)) with freeHead := some v }

/-- A nested reduction does not publish. -/
def netFlushFree (g : Globals) (n : Net) : Net := if 1 < g.reduceDepth then n else flushLoop n.nn n

/-- The pairs in the first `c` places of a queue. -/
def pairsOf (t : Table Port ⟨0, 0⟩) (c : ℕ) : List (Port × Port) :=
  (List.range c).map fun k => (t.get (2 * k), t.get (2 * k + 1))

/-- The queued pairs. -/
def Net.queue (n : Net) : List (Port × Port) := pairsOf n.act (n.atop / 2)

/-- The nodes that the wires of `u` lead to. -/
def Net.neighbours (n : Net) (u : ℕ) : List ℕ := (portsOf u).filterMap fun p => (n.wireAt p).map (·.node)

/-- Where the mark starts: ROOT, the demand roots and the ends of the queued pairs. -/
def anchors (n : Net) : List ℕ := 0 :: n.root.map (·.node) ++ n.queue.flatMap fun a => [a.1.node, a.2.node]

/-- The marked nodes, in the order of the queue. -/
def reach (n : Net) : List ℕ :=
  Search.search n.live n.neighbours n.nn 0 ((anchors n).foldl (Search.visit n.live) [])

/-- Both ends of a pair are alive. -/
def bothAlive (n : Net) (a : Port × Port) : Bool := !n.dead.get a.1.node && !n.dead.get a.2.node

/-- Keep the pair in place `k` if both its ends are alive, in the next place of the result. -/
def compactStep (n : Net) (s : Table Port ⟨0, 0⟩ × ℕ) (k : ℕ) : Table Port ⟨0, 0⟩ × ℕ :=
  let a := (s.1.get (2 * k), s.1.get (2 * k + 1))
  if bothAlive n a then ((s.1.set s.2 a.1).set (s.2 + 1) a.2, s.2 + 2) else s

def compact (n : Net) (c : ℕ) : Table Port ⟨0, 0⟩ × ℕ := (List.range c).foldl (compactStep n) (n.act, 0)

/-- The index from nodes to the places of their pairs. -/
def reindex (act : Table Port ⟨0, 0⟩) (c : ℕ) : Table (Option ℕ) none :=
  (List.range c).foldl
    (fun t k => (t.set (act.get (2 * k + 1)).node (some (2 * k))).set (act.get (2 * k)).node (some (2 * k))) .empty

/-- A node without wires, in front of the free list. -/
def freeSlot (n : Net) (v : ℕ) : Net :=
  let n := { n with dead := n.dead.set v true, tag := n.tag.set v .era }
  let n := ((n.setWire ⟨v, 0⟩ none).setWire ⟨v, 1⟩ none).setWire ⟨v, 2⟩ none
  { n.setWire ⟨v, 0⟩ (n.freeHead.map (⟨·, 0⟩)) with freeHead := some v, nfree := n.nfree + 1 }

/-- Free `v` unless it is dead or marked. -/
def sweepStep (marked : List ℕ) (n : Net) (v : ℕ) : Net :=
  if n.dead.get v = true ∨ v ∈ marked then n else freeSlot n v

def netGc (n : Net) : Net :=
  if n.nn ≤ 1 then n
  else
    let c := compact n (n.atop / 2)
    let m := { n with
      root := n.root.filter fun p => !n.dead.get p.node
      act := c.1
      atop := c.2
      actOf := reindex c.1 (c.2 / 2) }
    (List.range' 1 (n.nn - 1)).foldl (sweepStep (reach n)) m

/-! ## The mark -/

/-- A live node that a wire of `u` leads to. -/
def Net.Wire (n : Net) (u v : ℕ) : Prop := n.live v = true ∧ ∃ p q : Port, p.node = u ∧ n.wireAt p = some q ∧ q.node = v

/-- A live anchor reaches `v` along wires between live nodes. -/
def Reachable (n : Net) (v : ℕ) : Prop := ∃ u ∈ anchors n, n.live u = true ∧ ReflTransGen n.Wire u v

lemma mem_neighbours {n : Net} {u v : ℕ} : v ∈ n.neighbours u ↔ ∃ p q : Port, p.node = u ∧ n.wireAt p = some q ∧ q.node = v := by
  simp only [Net.neighbours, List.mem_filterMap, Option.map_eq_some_iff, mem_portsOf]
  constructor
  · rintro ⟨p, hp, q, hq, rfl⟩
    exact ⟨p, q, hp, hq, rfl⟩
  · rintro ⟨p, q, hp, hq, rfl⟩
    exact ⟨p, hp, q, hq, rfl⟩

lemma mem_reach (n : Net) (v : ℕ) : v ∈ reach n ↔ Reachable n v := by
  have hstep : Search.Step n.live n.neighbours = n.Wire := by
    funext u v
    exact propext (by rw [Search.Step, Net.Wire, mem_neighbours, and_comm])
  rw [reach, Search.mem_search_iff (Finset.range n.nn)
    (fun v hv => Finset.mem_range.2 ((Net.live_iff v).1 hv).1) (by rw [Finset.card_range]), hstep]
  rfl

/-! ## The queue -/

lemma pairsOf_succ (t : Table Port ⟨0, 0⟩) (c : ℕ) :
    pairsOf t (c + 1) = pairsOf t c ++ [(t.get (2 * c), t.get (2 * c + 1))] := by
  rw [pairsOf, List.range_succ, List.map_append]
  rfl

lemma pairsOf_congr {t t' : Table Port ⟨0, 0⟩} {c : ℕ} (h : ∀ j < 2 * c, t.get j = t'.get j) : pairsOf t c = pairsOf t' c := by
  refine List.map_congr_left fun k hk => ?_
  rw [List.mem_range] at hk
  rw [h (2 * k) (by omega), h (2 * k + 1) (by omega)]

lemma compact_spec (n : Net) (c : ℕ) : ∃ d, d ≤ c ∧ (compact n c).2 = 2 * d ∧
    pairsOf (compact n c).1 d = (pairsOf n.act c).filter (bothAlive n) ∧
    ∀ j, 2 * c ≤ j → (compact n c).1.get j = n.act.get j := by
  induction c with
  | zero => exact ⟨0, le_rfl, rfl, rfl, fun _ _ => rfl⟩
  | succ c ih =>
    obtain ⟨d, hd, hlen, hpairs, hrest⟩ := ih
    have hstep : compact n (c + 1) = compactStep n (compact n c) c := by
      rw [compact, List.range_succ, List.foldl_append]
      rfl
    have ha := hrest (2 * c) le_rfl
    have hb := hrest (2 * c + 1) (by omega)
    rw [hstep, compactStep, ha, hb, pairsOf_succ, List.filter_append, ← hpairs]
    split_ifs with hkeep
    · refine ⟨d + 1, by omega, by rw [hlen]; ring, ?_, fun j hj => ?_⟩
      · rw [pairsOf_succ, List.filter_cons_of_pos hkeep, List.filter_nil, hlen]
        congr 1
        · refine pairsOf_congr fun j hj => ?_
          rw [Table.get_set_ne _ (by omega), Table.get_set_ne _ (by omega)]
        · simp
      · rw [hlen, Table.get_set_ne _ (by omega), Table.get_set_ne _ (by omega), hrest j (by omega)]
    · refine ⟨d, by omega, hlen, ?_, fun j hj => hrest j (by omega)⟩
      rw [List.filter_cons_of_neg hkeep, List.filter_nil, List.append_nil]

/-- The index names the last pair of a node. -/
lemma reindex_eq_some (act : Table Port ⟨0, 0⟩) (c v i : ℕ) : (reindex act c).get v = some i ↔
    ∃ k < c, i = 2 * k ∧ ((act.get (2 * k)).node = v ∨ (act.get (2 * k + 1)).node = v) ∧
      ∀ j < c, k < j → (act.get (2 * j)).node ≠ v ∧ (act.get (2 * j + 1)).node ≠ v := by
  induction c with
  | zero => simp [reindex]
  | succ c ih =>
    have hstep : (reindex act (c + 1)).get v =
        if (act.get (2 * c)).node = v ∨ (act.get (2 * c + 1)).node = v then some (2 * c) else (reindex act c).get v := by
      rw [reindex, List.range_succ, List.foldl_append, List.foldl_cons, List.foldl_nil, Table.get_set, Table.get_set]
      by_cases ha : (act.get (2 * c)).node = v
      · simp [ha]
      · by_cases hb : (act.get (2 * c + 1)).node = v
        · simp [ha, hb]
        · simp [ha, hb, reindex]
    rw [hstep]
    split_ifs with hv
    · constructor
      · rintro ⟨⟩
        exact ⟨c, by omega, rfl, hv, fun j hj hcj => by omega⟩
      · rintro ⟨k, hk, rfl, -, hlast⟩
        by_cases hkc : k = c
        · rw [hkc]
        · have hnot := hlast c (by omega) (by omega)
          exact absurd hv (not_or.2 hnot)
    · rw [ih]
      constructor
      · rintro ⟨k, hk, rfl, hkv, hlast⟩
        refine ⟨k, by omega, rfl, hkv, fun j hj hkj => ?_⟩
        by_cases hjc : j = c
        · rw [hjc]
          exact not_or.1 hv
        · exact hlast j (by omega) hkj
      · rintro ⟨k, hk, rfl, hkv, hlast⟩
        have hkc : k ≠ c := by
          rintro rfl
          exact hv hkv
        exact ⟨k, by omega, rfl, hkv, fun j hj hkj => hlast j (by omega) hkj⟩

/-! ## The sweep -/

/-- The nodes `l` have been freed, the last one first on the free list. -/
structure Swept (n m : Net) (l : List ℕ) : Prop where
  frame : m = { n with dead := m.dead, tag := m.tag, wire := m.wire, freeHead := m.freeHead, nfree := m.nfree }
  dead : ∀ v, m.dead.get v = (n.dead.get v || decide (v ∈ l))
  tag : ∀ v, v ∉ l → m.tag.get v = n.tag.get v
  wire : ∀ p : Port, p.node ∉ l → m.wireAt p = n.wireAt p
  count : m.nfree = n.nfree + l.length
  chain : ∀ c, FreeChain n n.freeHead c → FreeChain m m.freeHead (l.reverse ++ c)

lemma Swept.refl (n : Net) : Swept n n [] := by
  refine ⟨rfl, fun v => ?_, fun _ _ => rfl, fun _ _ => rfl, by simp, fun c hc => hc⟩
  simp

lemma Swept.trans {n m k : Net} {l l' : List ℕ} (h : Swept n m l) (h' : Swept m k l') : Swept n k (l ++ l') := by
  refine ⟨?_, fun v => ?_, fun v hv => ?_, fun p hp => ?_, ?_, fun c hc => ?_⟩
  · rw [h'.frame, h.frame]
  · rw [h'.dead, h.dead, Bool.or_assoc, ← Bool.decide_or]
    simp only [List.mem_append]
  · rw [List.mem_append, not_or] at hv
    rw [h'.tag v hv.2, h.tag v hv.1]
  · rw [List.mem_append, not_or] at hp
    rw [h'.wire p hp.2, h.wire p hp.1]
  · rw [h'.count, h.count, List.length_append]
    push_cast
    ring
  · rw [List.reverse_append, List.append_assoc]
    exact h'.chain _ (h.chain c hc)

/-- The nodes among `vs` that are to be freed. -/
def doomed (marked : List ℕ) (n : Net) (vs : List ℕ) : List ℕ :=
  vs.filter fun v => !n.dead.get v && !decide (v ∈ marked)

lemma freeSlot_wireAt (n : Net) (v : ℕ) (p : Port) :
    (freeSlot n v).wireAt p =
      if p.node = v then (if p.port = 0 then n.freeHead.map (⟨·, 0⟩) else none) else n.wireAt p := by
  have hframe : (freeSlot n v).wireAt p = (((((n.setWire ⟨v, 0⟩ none).setWire ⟨v, 1⟩ none).setWire ⟨v, 2⟩ none).setWire
      ⟨v, 0⟩ (n.freeHead.map (⟨·, 0⟩))).wireAt p) := rfl
  obtain ⟨u, k⟩ := p
  rw [hframe]
  simp only [Net.wireAt_setWire, Port.mk.injEq]
  by_cases huv : u = v
  · subst huv
    fin_cases k <;> simp
  · simp only [Ne.symm huv, false_and, if_false, huv]

lemma freeSlot_swept {n : Net} {v : ℕ} (hv : v < n.nn) (hlive : n.dead.get v = false) : Swept n (freeSlot n v) [v] := by
  have hwire : ∀ p : Port, p.node ≠ v → (freeSlot n v).wireAt p = n.wireAt p := fun p hp => by
    rw [freeSlot_wireAt, if_neg hp]
  have hdead : ∀ u, (freeSlot n v).dead.get u = (n.dead.get u || decide (u ∈ [v])) := fun u => by
    have : (freeSlot n v).dead.get u = (n.dead.set v true).get u := rfl
    rw [this, Table.get_set]
    by_cases huv : v = u
    · simp [huv]
    · simp [huv, Ne.symm huv]
  refine ⟨rfl, hdead, fun u hu => ?_, fun p hp => hwire p (by simpa using hp), rfl, fun c hc => ?_⟩
  · have : (freeSlot n v).tag.get u = (n.tag.set v .era).get u := rfl
    rw [this, Table.get_set, if_neg]
    rintro rfl
    exact hu (by simp)
  · have hvc : v ∉ c := fun hm => by
      have := (hc.dead_of_mem hm).2
      rw [hlive] at this
      cases this
    have hhead : ((freeSlot n v).wireAt ⟨v, 0⟩).map (·.node) = n.freeHead := by
      rw [freeSlot_wireAt, if_pos rfl, if_pos rfl, Option.map_map]
      exact Option.map_id'
    refine .cons hv (by simp [hdead]) hvc ?_
    rw [hhead]
    exact hc.mono le_rfl (fun u hu => by simp [hdead, (hc.dead_of_mem hu).2])
      fun u hu => hwire ⟨u, 0⟩ fun he => hvc (he ▸ hu)

lemma sweepStep_swept (marked : List ℕ) (n : Net) {v : ℕ} (hv : v < n.nn) :
    Swept n (sweepStep marked n v) (doomed marked n [v]) := by
  unfold sweepStep
  split_ifs with h
  · have hkeep : doomed marked n [v] = [] := by
      rcases h with h | h <;> simp [doomed, h]
    rw [hkeep]
    exact .refl n
  · rw [not_or, Bool.not_eq_true] at h
    have hdrop : doomed marked n [v] = [v] := by simp [doomed, h.1, h.2]
    rw [hdrop]
    exact freeSlot_swept hv h.1

lemma sweep_swept (marked : List ℕ) (n : Net) (vs : List ℕ) (hvs : vs.Nodup) (hlt : ∀ v ∈ vs, v < n.nn) :
    Swept n (vs.foldl (sweepStep marked) n) (doomed marked n vs) := by
  induction vs generalizing n with
  | nil => exact .refl n
  | cons v vs ih =>
    rw [List.nodup_cons] at hvs
    have hstep := sweepStep_swept marked n (hlt v (by simp))
    have hnn : (sweepStep marked n v).nn = n.nn := by rw [hstep.frame]
    have hrest := ih (sweepStep marked n v) hvs.2 fun u hu => by
      rw [hnn]
      exact hlt u (by simp [hu])
    have hsame : doomed marked (sweepStep marked n v) vs = doomed marked n vs := by
      refine List.filter_congr fun u hu => ?_
      have hu' : u ∉ doomed marked n [v] := fun hm => by
        have := List.mem_singleton.1 (List.mem_filter.1 hm).1
        exact hvs.1 (this ▸ hu)
      rw [hstep.dead, decide_eq_false hu', Bool.or_false]
    have happ : doomed marked n (v :: vs) = doomed marked n [v] ++ doomed marked n vs := by
      rw [doomed, ← List.singleton_append, List.filter_append]
      rfl
    rw [happ, ← hsame]
    exact hstep.trans hrest

/-! ## What a collection does -/

/-- What a collection of `n` leaves. The freed nodes `l` are in front of the free list. -/
structure Collected (n m : Net) : Prop where
  kept : ∀ v, Reachable n v → m.tag.get v = n.tag.get v ∧ m.scope.get v = n.scope.get v ∧
    m.dead.get v = n.dead.get v ∧ ∀ k, m.wireAt ⟨v, k⟩ = n.wireAt ⟨v, k⟩
  freed : ∃ l : List ℕ, l.Nodup ∧ (∀ v, v ∈ l ↔ v ≠ 0 ∧ n.live v = true ∧ ¬Reachable n v) ∧
    (∀ v, m.dead.get v = (n.dead.get v || decide (v ∈ l))) ∧ m.nfree = n.nfree + l.length ∧
    ∀ c, FreeChain n n.freeHead c → FreeChain m m.freeHead (l ++ c)
  roots : m.root = n.root.filter fun p => !n.dead.get p.node
  queue : m.queue = n.queue.filter (bothAlive n)
  actOf : ∀ v i, m.actOf.get v = some i ↔ ∃ k a, i = 2 * k ∧ m.queue[k]? = some a ∧ (a.1.node = v ∨ a.2.node = v) ∧
    ∀ j b, k < j → m.queue[j]? = some b → b.1.node ≠ v ∧ b.2.node ≠ v

lemma pairsOf_getElem? {t : Table Port ⟨0, 0⟩} {c k : ℕ} {a : Port × Port} :
    (pairsOf t c)[k]? = some a ↔ k < c ∧ a = (t.get (2 * k), t.get (2 * k + 1)) := by
  rw [pairsOf, List.getElem?_map]
  by_cases hk : k < c
  · rw [List.getElem?_range hk]
    simp [hk, eq_comm]
  · rw [List.getElem?_eq_none (by simpa using hk)]
    simp [hk]

lemma mem_doomed {n : Net} {v : ℕ} :
    v ∈ doomed (reach n) n (List.range' 1 (n.nn - 1)) ↔ v ≠ 0 ∧ n.live v = true ∧ ¬Reachable n v := by
  simp only [doomed, List.mem_filter, List.mem_range'_1, Bool.and_eq_true, Bool.not_eq_true', decide_eq_false_iff_not,
    Net.live_iff, mem_reach]
  constructor
  · rintro ⟨⟨hv, hlt⟩, hdead, hmark⟩
    exact ⟨by omega, ⟨by omega, hdead⟩, hmark⟩
  · rintro ⟨hv, ⟨hlt, hdead⟩, hmark⟩
    exact ⟨⟨by omega, by omega⟩, hdead, hmark⟩

/-- The net that a collection sweeps: dead roots dropped, the queue compacted and indexed. -/
def gcReady (n : Net) : Net := { n with
  root := n.root.filter fun p => !n.dead.get p.node
  act := (compact n (n.atop / 2)).1
  atop := (compact n (n.atop / 2)).2
  actOf := reindex (compact n (n.atop / 2)).1 ((compact n (n.atop / 2)).2 / 2) }

lemma netGc_swept {n : Net} (hnn : 1 < n.nn) :
    Swept (gcReady n) (netGc n) (doomed (reach n) n (List.range' 1 (n.nn - 1))) := by
  have hgc : netGc n = (List.range' 1 (n.nn - 1)).foldl (sweepStep (reach n)) (gcReady n) := by
    rw [netGc, if_neg (by omega)]
    rfl
  have hdoomed : doomed (reach n) (gcReady n) (List.range' 1 (n.nn - 1)) =
      doomed (reach n) n (List.range' 1 (n.nn - 1)) := rfl
  rw [hgc, ← hdoomed]
  refine sweep_swept (reach n) (gcReady n) (List.range' 1 (n.nn - 1)) List.nodup_range' fun v hv => ?_
  rw [List.mem_range'_1] at hv
  show v < n.nn
  omega

lemma netGc_collected {n : Net} (hnn : 1 < n.nn) : Collected n (netGc n) := by
  obtain ⟨d, -, hlen, hpairs, -⟩ := compact_spec n (n.atop / 2)
  have hswept := netGc_swept hnn
  set m : Net := gcReady n with hm
  set l := doomed (reach n) n (List.range' 1 (n.nn - 1)) with hl
  have hmem : ∀ v, v ∈ l ↔ v ≠ 0 ∧ n.live v = true ∧ ¬Reachable n v := fun v => mem_doomed
  have hact : (netGc n).act = m.act ∧ (netGc n).atop = m.atop ∧ (netGc n).actOf = m.actOf ∧ (netGc n).root = m.root ∧
      (netGc n).scope = m.scope := by
    rw [hswept.frame]
    exact ⟨rfl, rfl, rfl, rfl, rfl⟩
  have hcount : m.atop / 2 = d := by
    have : m.atop = 2 * d := hlen
    omega
  have hqueue : (netGc n).queue = pairsOf m.act d := by
    rw [Net.queue, hact.1, hact.2.1, hcount]
  refine ⟨fun v hv => ?_, ⟨l.reverse, ?_, fun v => by rw [List.mem_reverse, hmem], fun v => ?_, ?_, fun c hc => ?_⟩,
    hact.2.2.2.1, ?_, fun v i => ?_⟩
  · have hvl : v ∉ l := fun h => ((hmem v).1 h).2.2 hv
    refine ⟨hswept.tag v hvl, ?_, ?_, fun k => hswept.wire ⟨v, k⟩ hvl⟩
    · rw [hact.2.2.2.2]
      rfl
    · rw [hswept.dead, decide_eq_false hvl, Bool.or_false]
      rfl
  · exact List.nodup_reverse.2 (List.Nodup.filter _ List.nodup_range')
  · rw [hswept.dead]
    simp only [List.mem_reverse]
    rfl
  · rw [hswept.count, List.length_reverse]
    rfl
  · exact hswept.chain c (hc.mono le_rfl (fun v hv => (hc.dead_of_mem hv).2) fun _ _ => rfl)
  · rw [hqueue]
    exact hpairs
  · have hidx : (netGc n).actOf.get v = (reindex m.act d).get v := by
      rw [hact.2.2.1, ← hcount]
      rfl
    rw [hidx, reindex_eq_some, hqueue]
    constructor
    · rintro ⟨k, hk, rfl, hv, hlast⟩
      refine ⟨k, _, rfl, pairsOf_getElem?.2 ⟨hk, rfl⟩, hv, fun j b hj hb => ?_⟩
      obtain ⟨hjd, rfl⟩ := pairsOf_getElem?.1 hb
      exact hlast j hjd hj
    · rintro ⟨k, a, rfl, ha, hv, hlast⟩
      obtain ⟨hk, rfl⟩ := pairsOf_getElem?.1 ha
      exact ⟨k, hk, rfl, hv, fun j hj hkj => hlast j _ hkj (pairsOf_getElem?.2 ⟨hj, rfl⟩)⟩

/-- A sweep only frees slots. -/
lemma sweep_frame (marked vs : List ℕ) (n : Net) : ∃ dead tag wire freeHead nfree,
    vs.foldl (sweepStep marked) n =
      { n with dead := dead, tag := tag, wire := wire, freeHead := freeHead, nfree := nfree } := by
  induction vs generalizing n with
  | nil => exact ⟨_, _, _, _, _, rfl⟩
  | cons v vs ih =>
    obtain ⟨dead, tag, wire, freeHead, nfree, h⟩ := ih (sweepStep marked n v)
    refine ⟨dead, tag, wire, freeHead, nfree, ?_⟩
    rw [List.foldl_cons, h]
    unfold sweepStep
    split_ifs <;> rfl

/-- The fields that a collection leaves alone. -/
lemma netGc_frame (n : Net) : (netGc n).nn = n.nn ∧ (netGc n).steps = n.steps ∧ (netGc n).pendHead = n.pendHead ∧
    (netGc n).pins = n.pins ∧ (netGc n).levels = n.levels ∧ (n.atop = 0 → (netGc n).atop = 0) := by
  unfold netGc
  split_ifs
  · exact ⟨rfl, rfl, rfl, rfl, rfl, id⟩
  · obtain ⟨dead, tag, wire, freeHead, nfree, h⟩ := sweep_frame (reach n) (List.range' 1 (n.nn - 1)) { n with
      root := n.root.filter fun p => !n.dead.get p.node
      act := (compact n (n.atop / 2)).1
      atop := (compact n (n.atop / 2)).2
      actOf := reindex (compact n (n.atop / 2)).1 ((compact n (n.atop / 2)).2 / 2) }
    dsimp only
    rw [h]
    refine ⟨rfl, rfl, rfl, rfl, rfl, fun hidle => ?_⟩
    show (compact n (n.atop / 2)).2 = 0
    rw [hidle]
    rfl

/-- A collection of two slots or more frees the live nodes off slot 0 that no live anchor
reaches, each once, leaves the other nodes as they are, and compacts roots, queue and index.
A net of one slot is left alone. -/
theorem netGc_exact (n : Net) : (n.nn ≤ 1 → netGc n = n) ∧ (1 < n.nn → Collected n (netGc n)) :=
  ⟨fun hnn => by rw [netGc, if_pos hnn], netGc_collected⟩

/-- A binder that nothing is wired to is freed. -/
theorem netGc_exact_binder :
    Collected (netAlloc .serial netInit .lam 0).2 (netGc (netAlloc .serial netInit .lam 0).2) ∧
      (netGc (netAlloc .serial netInit .lam 0).2).freeHead = some 1 :=
  ⟨(netGc_exact (netAlloc .serial netInit .lam 0).2).2 (by decide), by decide⟩

/-- ROOT alone, registered as a demand root and then severed. -/
def loneRoot : Net := netSever .serial (linDemand netInit ⟨0, 0⟩) ⟨0, 0⟩

/-- The dead ROOT stays among the demand roots. -/
theorem netGc_lone : ¬∀ n, Collected n (netGc n) := by
  intro h
  have hroots := (h loneRoot).roots
  revert hroots
  decide

end LinEngine
