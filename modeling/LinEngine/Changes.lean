import LinEngine.Sealed

/-!
# The changes that rules are made of

A rule links ports, cuts wires, allocates, and frees what it consumed. Each of these is a
change of a stage: the net, the ports of the consumed pair whose far ends have been wired
to other places, and the dead nodes that are not on a list yet. What holds of the net
between two rules holds, off those ports and nodes, at each stage. The wiring may have dead
ends: a live port may be wired to the binder port of a spent placeholder of the compiler.
-/
namespace LinEngine

/-- A net in the middle of a rule. -/
structure Stage where
  net : Net
  loose : Set Port
  limbo : Set ℕ

/-- Where the wire of a live port may lead: to a live node, or to a spent placeholder. -/
def Landing (S : Set ℕ) (n : Net) (q : Port) : Prop := n.live q.node = true ∨ q.node ∈ S ∧ q.port = 1

/-- The principal port of `v` is wired with that of a live node. -/
def Faces (n : Net) (v : ℕ) : Prop :=
  ∃ u, n.live u = true ∧ n.wireAt ⟨v, 0⟩ = some ⟨u, 0⟩ ∧ n.wireAt ⟨u, 0⟩ = some ⟨v, 0⟩

/-- The free list `l` and the pending list `l'`. The principal wire of a dead node on
neither of them leads to such a node, mutually. -/
structure Slots (S U : Set ℕ) (n : Net) (l l' : List ℕ) : Prop where
  free : FreeChain n n.freeHead l
  pend : FreeChain n n.pendHead l'
  disjoint : ∀ v ∈ l, v ∉ l'
  count : n.nfree = l.length + l'.length
  off : ∀ v, v ∈ l ∨ v ∈ l' → v ∉ S ∧ v ∉ U
  prin : ∀ v q, v < n.nn → n.dead.get v = true → v ∉ l → v ∉ l' → n.wireAt ⟨v, 0⟩ = some q →
    q.node < n.nn ∧ n.dead.get q.node = true ∧ q.node ∉ l ∧ q.node ∉ l' ∧ n.wireAt q = some ⟨v, 0⟩

/-- What holds at a stage when the placeholders are `S`. -/
structure Tied (S : Set ℕ) (s : Stage) : Prop where
  wire : ∀ p q, s.net.live p.node = true → p ∉ s.loose → s.net.wireAt p = some q →
    Landing S s.net q ∧ q ∉ s.loose ∧ s.net.wireAt q = some p ∧ q ≠ p
  loose : ∀ p ∈ s.loose, s.net.live p.node = true ∧ p.port ≠ 0 ∧ Faces s.net p.node
  stub : ∀ v ∈ S, v < s.net.nn ∧ s.net.dead.get v = true
  limbo : ∀ v ∈ s.limbo, v < s.net.nn ∧ s.net.dead.get v = true ∧ v ∉ S
  slots : ∃ l l', Slots S s.limbo s.net l l'

/-- Cut the wire of `p`, and that of its partner if it leads back. -/
def unhook (n : Net) (p : Port) : Net :=
  match n.wireAt p with
  | none => n.setWire p none
  | some w =>
    if n.inNet w.node && (n.setWire p none).wireAt w == some p then (n.setWire p none).setWire w none
    else n.setWire p none

/-- The pair a rule consumed leaves the queue and the demand roots. -/
def buryPair (g : Globals) (n : Net) (a b : ℕ) : Net :=
  let n := actDrop g (actDrop g (markPair n a b) a) b
  { n with root := n.root.filter (fun p => p.node != a && p.node != b) }

/-- One change. A link never touches the wire of a pair that is left facing, and joins two
principal ports only where it queues them. -/
inductive Change (S : Set ℕ) (g : Globals) : Stage → Stage → Prop
  | link (s : Stage) (a b : Port) (e : Bool) (X : Set Port) : a ≠ b → Landing S s.net a → Landing S s.net b →
      a ∉ s.loose → b ∉ s.loose →
      (∀ x, s.net.live x.node = true → x ≠ a → x ≠ b → s.net.wireAt x = some a ∨ s.net.wireAt x = some b →
        x ∈ s.loose ∪ X) →
      (∀ x ∈ X, x ≠ a ∧ x ≠ b ∧ x.port ≠ 0 ∧ s.net.live x.node = true ∧ Faces s.net x.node ∧
        (s.net.wireAt x = some a ∨ s.net.wireAt x = some b)) →
      (∀ q, s.net.wireAt a = some q ∨ s.net.wireAt b = some q → q.port ≠ 0) →
      (e = true ∨ a.port ≠ 0 ∨ b.port ≠ 0) →
      Change S g s ⟨netLink g s.net (some a) (some b) e, s.loose ∪ X, s.limbo⟩
  | cut (s : Stage) (p w : Port) : s.net.wireAt p = some w → s.net.wireAt w = some p →
      s.net.live p.node = true ∨ s.net.live w.node = true → p ∉ s.loose → w ∉ s.loose →
      s.loose = ∅ ∨ p.port ≠ 0 ∨ w.port ≠ 0 →
      s.net.actOf.get p.node = none ∨ p.port ≠ 0 ∨ w.port ≠ 0 →
      Change S g s ⟨(s.net.setWire p none).setWire w none, s.loose, s.limbo⟩
  | blank (s : Stage) (p : Port) : s.net.wireAt p = none → Change S g s ⟨s.net.setWire p none, s.loose, s.limbo⟩
  | kill (s : Stage) (v : ℕ) (m : Net) : s.net.live v = true →
      (∀ p q : Port, p.node = v → s.net.wireAt p = some q → s.net.live q.node = false) →
      m = { s.net with dead := s.net.dead.set v true } ∨
        m = actDrop g { s.net with dead := s.net.dead.set v true } v →
      Change S g s ⟨m, s.loose, insert v s.limbo⟩
  | unhook (s : Stage) (p : Port) : p.node ∈ s.limbo → Change S g s ⟨unhook s.net p, s.loose, s.limbo⟩
  | pend (s : Stage) (u : ℕ) : u ∈ s.limbo → (∀ k, s.net.wireAt ⟨u, k⟩ = none) →
      Change S g s ⟨pendPush s.net u, s.loose, s.limbo \ {u}⟩
  | alloc (s : Stage) (t : Tag) (sc : ℕ) : Change S g s ⟨(netAlloc g s.net t sc).2, s.loose, s.limbo⟩
  | grow (s : Stage) (m : Net) : Grown s.net m → Change S g s ⟨m, s.loose, s.limbo⟩
  | bury (s : Stage) (a b : ℕ) : s.net.live a = true → s.net.live b = true → a ≠ b →
      s.net.wireAt ⟨a, 0⟩ = some ⟨b, 0⟩ → s.net.wireAt ⟨b, 0⟩ = some ⟨a, 0⟩ →
      (∀ p ∈ s.loose, p.node = a ∨ p.node = b) →
      (∀ p q, s.net.live p.node = true → p.node ≠ a → p.node ≠ b → s.net.wireAt p = some q →
        q.node ≠ a ∧ q.node ≠ b) →
      Change S g s ⟨buryPair g s.net a b, ∅, s.limbo ∪ {a, b}⟩
  | forget (s : Stage) (U : Set ℕ) : U ⊆ s.limbo → Change S g s ⟨s.net, s.loose, U⟩

/-- The free list only shrinks, the pending list only grows at its front, and what is dead
and not free stays so. -/
structure Onward (S : Set ℕ) (s s' : Stage) : Prop where
  nn : s.net.nn ≤ s'.net.nn
  lists : ∀ l l', Slots S s.limbo s.net l l' → ∃ k k', Slots S s'.limbo s'.net k k' ∧ k ⊆ l ∧ l' <:+ k' ∧
    ∀ v < s.net.nn, s.net.dead.get v = true → v ∉ l → s'.net.dead.get v = true

/-! ## Lists of slots -/

section Slots

variable {S U : Set ℕ} {n m : Net} {l l' : List ℕ}

lemma FreeChain.next_mem {h : Option ℕ} (hc : FreeChain n h l) {v : ℕ} (hv : v ∈ l) {q : Port}
    (hw : n.wireAt ⟨v, 0⟩ = some q) : q.node ∈ l := by
  induction hc with
  | nil => simp at hv
  | @cons u l _ _ _ hrest ih =>
    rcases List.mem_cons.1 hv with rfl | hv
    · rw [hw, Option.map_some] at hrest
      cases hrest with
      | cons => simp
    · exact List.mem_cons_of_mem _ (ih hv)

/-- The lists only depend on the principal wires of the dead and on what leads back to them. -/
lemma Slots.frame (h : Slots S U n l l') (hnn : m.nn = n.nn) (hfree : m.freeHead = n.freeHead)
    (hpend : m.pendHead = n.pendHead) (hnfree : m.nfree = n.nfree)
    (hdead : ∀ v, m.dead.get v = n.dead.get v)
    (hw : ∀ v, n.dead.get v = true → m.wireAt ⟨v, 0⟩ = n.wireAt ⟨v, 0⟩)
    (hback : ∀ v q, n.dead.get v = true → n.wireAt ⟨v, 0⟩ = some q → n.wireAt q = some ⟨v, 0⟩ → m.wireAt q = some ⟨v, 0⟩) :
    Slots S U m l l' where
  free := by
    rw [hfree]
    exact h.free.mono hnn.ge (fun v hv => by rw [hdead, (h.free.dead_of_mem hv).2])
      fun v hv => hw v (h.free.dead_of_mem hv).2
  pend := by
    rw [hpend]
    exact h.pend.mono hnn.ge (fun v hv => by rw [hdead, (h.pend.dead_of_mem hv).2])
      fun v hv => hw v (h.pend.dead_of_mem hv).2
  disjoint := h.disjoint
  count := hnfree.trans h.count
  off := h.off
  prin v q hv hd hl hl' hq := by
    rw [hnn] at hv ⊢
    rw [hdead] at hd ⊢
    rw [hw v hd] at hq
    obtain ⟨hlt, hdq, hql, hql', hqv⟩ := h.prin v q hv hd hl hl' hq
    exact ⟨hlt, hdq, hql, hql', hback v q hd hq hqv⟩

lemma markDead_dead {n : Net} {v u : ℕ} (hu : n.dead.get u = true) : (n.dead.set v true).get u = true := by
  rw [Table.get_set]
  split_ifs
  · rfl
  · exact hu

/-- A node without a live neighbour dies. -/
lemma Slots.kill (h : Slots S U n l l') {v : ℕ} (hv : n.live v = true) (hv' : ∀ q, n.wireAt ⟨v, 0⟩ = some q →
    q.node < n.nn ∧ n.dead.get q.node = true ∧ q.node ∈ S ∧ n.wireAt q = some ⟨v, 0⟩) :
    Slots S (insert v U) { n with dead := n.dead.set v true } l l' := by
  have hlive := (Net.live_iff v).1 hv
  have hdead : ∀ u, n.dead.get u = true → (n.dead.set v true).get u = true := fun _ hu => markDead_dead hu
  have hne : ∀ u, u ∈ l ∨ u ∈ l' → u ≠ v := by
    rintro u (hu | hu) rfl
    · exact absurd (h.free.dead_of_mem hu).2 (by simp [hlive.2])
    · exact absurd (h.pend.dead_of_mem hu).2 (by simp [hlive.2])
  refine ⟨h.free.mono le_rfl (fun u hu => hdead u (h.free.dead_of_mem hu).2) fun _ _ => rfl,
    h.pend.mono le_rfl (fun u hu => hdead u (h.pend.dead_of_mem hu).2) fun _ _ => rfl, h.disjoint, h.count,
    fun u hu => ?_, fun u q hu hd hl hl' hq => ?_⟩
  · obtain ⟨hoff, hU⟩ := h.off u hu
    refine ⟨hoff, ?_⟩
    rintro (rfl | hmem)
    · exact hne u hu rfl
    · exact hU hmem
  · by_cases huv : u = v
    · subst huv
      obtain ⟨hlt, hdq, hqS, hback⟩ := hv' q hq
      exact ⟨hlt, hdead _ hdq, fun hm => (h.off _ (.inl hm)).1 hqS, fun hm => (h.off _ (.inr hm)).1 hqS, hback⟩
    · have hd' : n.dead.get u = true := by simpa [Ne.symm huv] using hd
      obtain ⟨hlt, hdq, hql, hql', hback⟩ := h.prin u q hu hd' hl hl' hq
      exact ⟨hlt, hdead _ hdq, hql, hql', hback⟩

/-- Whatever is on a list is dead. -/
lemma Slots.off_live (h : Slots S U n l l') {v : ℕ} (hv : n.live v = true) : v ∉ l ∧ v ∉ l' := by
  have hd := ((Net.live_iff v).1 hv).2
  exact ⟨fun hm => by simp [(h.free.dead_of_mem hm).2] at hd, fun hm => by simp [(h.pend.dead_of_mem hm).2] at hd⟩

lemma unhook_cases (n : Net) (p : Port) :
    unhook n p = n.setWire p none ∨
      ∃ w, n.wireAt p = some w ∧ n.wireAt w = some p ∧ w ≠ p ∧ unhook n p = (n.setWire p none).setWire w none := by
  unfold LinEngine.unhook
  split
  · exact .inl rfl
  · rename_i w hw
    split_ifs with h
    · rw [Bool.and_eq_true, beq_iff_eq, Net.wireAt_setWire] at h
      obtain ⟨-, hback⟩ := h
      split_ifs at hback with hpw
      exact .inr ⟨w, hw, hback, Ne.symm hpw, rfl⟩
    · exact .inl rfl

/-- The rest of the net after unhooking. -/
lemma unhook_frame (n : Net) (p : Port) : unhook n p = { n with wire := (unhook n p).wire } := by
  rcases unhook_cases n p with h | ⟨w, -, -, -, h⟩ <;> rw [h] <;> rfl

lemma unhook_wireAt_self (n : Net) (p : Port) : (unhook n p).wireAt p = none := by
  rcases unhook_cases n p with h | ⟨w, -, -, -, h⟩ <;> rw [h] <;> simp

/-- Another port keeps its wire unless it was wired with `p`. -/
lemma unhook_wireAt {n : Net} {p q : Port} (hq : q ≠ p) :
    (unhook n p).wireAt q = n.wireAt q ∨ (unhook n p).wireAt q = none ∧ n.wireAt p = some q ∧ n.wireAt q = some p := by
  rcases unhook_cases n p with h | ⟨w, hw, hback, -, h⟩
  · rw [h, Net.wireAt_setWire, if_neg (Ne.symm hq)]
    exact .inl rfl
  · by_cases hqw : w = q
    · subst hqw
      rw [h]
      exact .inr ⟨by simp, hw, hback⟩
    · rw [h, Net.wireAt_setWire, if_neg hqw, Net.wireAt_setWire, if_neg (Ne.symm hq)]
      exact .inl rfl

lemma unhook_partner {p w : Port} (hw : n.wireAt p = some w) (hback : n.wireAt w = some p) (hne : w ≠ p)
    (hlt : w.node < n.nn) : (unhook n p).wireAt w = none := by
  have hin : n.inNet w.node = true := by simpa [Net.inNet] using hlt
  have hset : (n.setWire p none).wireAt w = some p := by rw [Net.wireAt_setWire, if_neg (Ne.symm hne), hback]
  simp [LinEngine.unhook, hw, hin, hset]

lemma Slots.unhook (h : Slots S U n l l') {p : Port} (hp : p.node ∈ U) : Slots S U (unhook n p) l l' := by
  have hchain : ∀ {hd : Option ℕ} {c : List ℕ}, FreeChain n hd c → (∀ v ∈ c, v ∉ U) → FreeChain (LinEngine.unhook n p) hd c := by
    intro hd c hc hoff
    have hsame := unhook_frame n p
    refine hc.mono (by rw [hsame]) (fun v hv => by rw [hsame]; exact (hc.dead_of_mem hv).2) fun v hv => ?_
    have hne : (⟨v, 0⟩ : Port) ≠ p := fun he => hoff v hv (by rwa [← he] at hp)
    rcases unhook_wireAt hne with hw | ⟨-, -, hw⟩
    · exact hw
    · exact absurd hp (hoff _ (hc.next_mem hv hw))
  have hsame := unhook_frame n p
  refine ⟨?_, ?_, h.disjoint, by rw [hsame]; exact h.count, h.off, fun v q hv hd hl hl' hq => ?_⟩
  · have hhead : (LinEngine.unhook n p).freeHead = n.freeHead := by rw [hsame]
    rw [hhead]
    exact hchain h.free fun v hv => (h.off v (.inl hv)).2
  · have hhead : (LinEngine.unhook n p).pendHead = n.pendHead := by rw [hsame]
    rw [hhead]
    exact hchain h.pend fun v hv => (h.off v (.inr hv)).2
  · have hvp : (⟨v, 0⟩ : Port) ≠ p := by
      rintro rfl
      rw [unhook_wireAt_self] at hq
      cases hq
    have hold : n.wireAt ⟨v, 0⟩ = some q := by
      rcases unhook_wireAt hvp with hw | ⟨hw, -⟩
      · rwa [← hw]
      · rw [hw] at hq
        cases hq
    have hv' : v < n.nn := by rwa [hsame] at hv
    have hd' : n.dead.get v = true := by rwa [hsame] at hd
    obtain ⟨hlt, hdq, hql, hql', hback⟩ := h.prin v q hv' hd' hl hl' hold
    refine ⟨by rwa [hsame], by rwa [hsame], hql, hql', ?_⟩
    have hqp : q ≠ p := by
      rintro rfl
      rw [unhook_partner hback hold hvp hv'] at hq
      cases hq
    rcases unhook_wireAt hqp with hw | ⟨-, -, hw⟩
    · rw [hw, hback]
    · rw [hw] at hback
      exact absurd (Option.some.inj hback).symm hvp

lemma pendPush_wireAt (n : Net) (u : ℕ) (p : Port) :
    (pendPush n u).wireAt p = if (⟨u, 0⟩ : Port) = p then n.pendHead.map (⟨·, 0⟩) else n.wireAt p := by
  have h : (pendPush n u).wireAt p = (({ n with tag := n.tag.set u .era }).setWire ⟨u, 0⟩
      (n.pendHead.map (⟨·, 0⟩))).wireAt p := rfl
  rw [h, Net.wireAt_setWire]
  rfl

lemma Slots.pendPush (h : Slots S U n l l') {u : ℕ} (hu : u ∈ U) (hlt : u < n.nn) (hdead : n.dead.get u = true)
    (hS : u ∉ S) (hnone : ∀ k, n.wireAt ⟨u, k⟩ = none) : Slots S (U \ {u}) (pendPush n u) l (u :: l') := by
  have hl : u ∉ l := fun hm => (h.off u (.inl hm)).2 hu
  have hl' : u ∉ l' := fun hm => (h.off u (.inr hm)).2 hu
  have hother : ∀ v, v ≠ u → (LinEngine.pendPush n u).wireAt ⟨v, 0⟩ = n.wireAt ⟨v, 0⟩ := fun v hv => by
    rw [pendPush_wireAt, if_neg fun he => hv (congrArg Port.node he).symm]
  refine ⟨h.free.mono le_rfl (fun v hv => (h.free.dead_of_mem hv).2) fun v hv => hother v fun he => hl (he ▸ hv),
    .cons hlt hdead hl' ?_, fun v hv hm => ?_, ?_, fun v hv => ?_, fun v q hv hd hvl hvl' hq => ?_⟩
  · have hhead : ((LinEngine.pendPush n u).wireAt ⟨u, 0⟩).map (·.node) = n.pendHead := by
      rw [pendPush_wireAt, if_pos rfl, Option.map_map]
      simp [Function.comp_def]
    rw [hhead]
    exact h.pend.mono le_rfl (fun v hv => (h.pend.dead_of_mem hv).2) fun v hv => hother v fun he => hl' (he ▸ hv)
  · rcases List.mem_cons.1 hm with rfl | hm
    · exact hl hv
    · exact h.disjoint v hv hm
  · have hn : (LinEngine.pendPush n u).nfree = n.nfree + 1 := rfl
    rw [hn, h.count, List.length_cons]
    push_cast
    ring
  · rcases hv with hv | hv
    · exact ⟨(h.off v (.inl hv)).1, fun hm => (h.off v (.inl hv)).2 hm.1⟩
    · rcases List.mem_cons.1 hv with rfl | hv
      · exact ⟨hS, fun hm => hm.2 rfl⟩
      · exact ⟨(h.off v (.inr hv)).1, fun hm => (h.off v (.inr hv)).2 hm.1⟩
  · rw [List.mem_cons, not_or] at hvl'
    rw [hother v hvl'.1] at hq
    obtain ⟨hqlt, hqd, hql, hql', hback⟩ := h.prin v q hv hd hvl hvl'.2 hq
    have hqu : q.node ≠ u := by
      rintro rfl
      rw [hnone q.port] at hback
      cases hback
    refine ⟨hqlt, hqd, hql, ?_, ?_⟩
    · rw [List.mem_cons, not_or]
      exact ⟨hqu, hql'⟩
    · rw [pendPush_wireAt, if_neg fun he => hqu (congrArg Port.node he).symm, hback]

lemma netLink_pendHead (g : Globals) (n : Net) (a b : Option Port) (e : Bool) :
    (netLink g n a b e).pendHead = n.pendHead := by
  unfold netLink
  split
  · dsimp only
    split_ifs
    · rfl
    · exact (actPush_same _ _ _).pendHead
    · rfl
  · rfl

lemma netLink_nfree (g : Globals) (n : Net) (a b : Option Port) (e : Bool) :
    (netLink g n a b e).nfree = n.nfree := by
  unfold netLink
  split
  · dsimp only
    split_ifs
    · rfl
    · exact actPush_nfree _ _ _
    · rfl
  · rfl

/-- A new slot, or the first of the free list. -/
lemma netAlloc_cases (g : Globals) (n : Net) (t : Tag) (sc : ℕ) :
    netAlloc g n t sc = (n.nn, initNode { n with nn := n.nn + 1 } n.nn t sc) ∨
      ∃ id, g.inParallel = false ∧ n.freeHead = some id ∧ netAlloc g n t sc = (id, initNode { n with
        freeHead := (n.wireAt ⟨id, 0⟩).map (·.node), nfree := n.nfree - 1,
        dem := n.dem.set id 0, vport := n.vport.set id 0 } id t sc) := by
  cases hg : g.inParallel with
  | true => exact .inl (by simp [netAlloc, hg, initNode])
  | false =>
    cases hf : n.freeHead with
    | none => exact .inl (by simp [netAlloc, hg, hf, initNode])
    | some id => exact .inr ⟨id, rfl, rfl, by simp [netAlloc, hg, hf, initNode]⟩

lemma Slots.initNode {m : Net} (h : Slots S U n l l') {id : ℕ} {c : List ℕ} {t : Tag} {sc : ℕ} (hnn : n.nn ≤ m.nn)
    (hlt : ∀ v, v < m.nn → v ≠ id → v < n.nn) (hdead : m.dead = n.dead) (hwire : m.wire = n.wire)
    (hfree : m.freeHead = (initNode m id t sc).freeHead) (hpend : m.pendHead = n.pendHead)
    (hc : FreeChain n m.freeHead c) (hsub : ∀ v, v ∈ l → v = id ∨ v ∈ c) (hsub' : ∀ v ∈ c, v ∈ l) (hid : id ∉ c)
    (hid' : id ∉ l') (hnfree : m.nfree = c.length + l'.length) (hold : ∀ v q, v < n.nn → n.dead.get v = true → v ∉ l → v ∉ l' → n.wireAt ⟨v, 0⟩ = some q → q.node ≠ id) :
    Slots S U (initNode m id t sc) c l' := by
  have hdead' : ∀ v, v ≠ id → (LinEngine.initNode m id t sc).dead.get v = n.dead.get v := fun v hv => by
    simp [LinEngine.initNode, Ne.symm hv, hdead]
  have hwire' : ∀ p : Port, p.node ≠ id → (LinEngine.initNode m id t sc).wireAt p = n.wireAt p := fun p hp => by
    rw [initNode_wireAt, if_neg hp]
    simp [Net.wireAt, hwire]
  refine ⟨?_, ?_, fun v hv => h.disjoint v (hsub' v hv), hnfree, fun v hv => h.off v (hv.imp_left (hsub' v)),
    fun v q hv hd hl hl' hq => ?_⟩
  · rw [← hfree]
    refine hc.mono hnn (fun v hv => ?_) fun v hv => hwire' _ fun he => hid (he ▸ hv)
    rw [hdead' v fun he => hid (he ▸ hv), (hc.dead_of_mem hv).2]
  · have hhead : (LinEngine.initNode m id t sc).pendHead = n.pendHead := hpend
    rw [hhead]
    refine h.pend.mono hnn (fun v hv => ?_) fun v hv => hwire' _ fun he => hid' (he ▸ hv)
    rw [hdead' v fun he => hid' (he ▸ hv), (h.pend.dead_of_mem hv).2]
  · have hvid : v ≠ id := by
      rintro rfl
      simp [LinEngine.initNode] at hd
    rw [hdead' v hvid] at hd
    rw [hwire' _ hvid] at hq
    have hvn : v < n.nn := hlt v hv hvid
    have hvl : v ∉ l := fun hm => (hsub v hm).elim hvid hl
    obtain ⟨hqlt, hqd, hql, hql', hback⟩ := h.prin v q hvn hd hvl hl' hq
    have hqid := hold v q hvn hd hvl hl' hq
    exact ⟨hqlt.trans_le hnn, by rw [hdead' _ hqid, hqd], fun hm => hql (hsub' _ hm), hql', by rw [hwire' _ hqid, hback]⟩

/-- An allocated slot is no placeholder and waits for nothing. -/
lemma Slots.alloc (h : Slots S U n l l') (g : Globals) (t : Tag) (sc : ℕ) (hS : ∀ v ∈ S, v < n.nn)
    (hU : ∀ v ∈ U, v < n.nn) :
    (∃ c, Slots S U (netAlloc g n t sc).2 c l' ∧ c ⊆ l ∧ ((netAlloc g n t sc).1 ∈ l ∨ n.nn ≤ (netAlloc g n t sc).1)) ∧
      (netAlloc g n t sc).1 ∉ S ∧ (netAlloc g n t sc).1 ∉ U ∧
      n.nn ≤ (netAlloc g n t sc).2.nn := by
  rcases netAlloc_cases g n t sc with he | ⟨id, -, hf, he⟩
  · rw [he]
    refine ⟨⟨l, h.initNode (Nat.le_succ _) (fun v hv hne => ?_) rfl rfl rfl rfl h.free (fun v hv => .inr hv)
      (fun v hv => hv) ?_ ?_ h.count fun v q hv hd hl hl' hq => (h.prin v q hv hd hl hl' hq).1.ne, List.Subset.refl l,
      .inr le_rfl⟩,
      fun hm => ?_, fun hm => ?_, Nat.le_succ _⟩
    · have hv' : v < n.nn + 1 := hv
      omega
    · exact fun hm => (h.free.dead_of_mem hm).1.ne rfl
    · exact fun hm => (h.pend.dead_of_mem hm).1.ne rfl
    · exact (hS _ hm).ne rfl
    · exact (hU _ hm).ne rfl
  · rw [he]
    have hfree := h.free
    rw [hf] at hfree
    obtain _ | ⟨hlt, hdead, hnot, hrest⟩ := hfree
    rename_i c
    refine ⟨⟨c, h.initNode le_rfl (fun v hv _ => hv) rfl rfl rfl rfl hrest (fun v hv => by simpa using hv)
      (fun v hv => List.mem_cons_of_mem _ hv) hnot (h.disjoint id (by simp)) ?_ fun v q hv hd hl hl' hq he => ?_,
      List.subset_cons_self _ _, .inl (by simp)⟩, (h.off id (by simp)).1, (h.off id (by simp)).2, le_rfl⟩
    · have hcount := h.count
      rw [List.length_cons] at hcount
      push_cast at hcount
      change n.nfree - 1 = _
      rw [hcount]
      ring
    · exact (h.prin v q hv hd hl hl' hq).2.2.1 (by simp [he])

end Slots

/-! ## What the changes do to the lists -/

section Onward

variable {S U : Set ℕ} {g : Globals} {s : Stage} {m : Net} {L : Set Port}

lemma Landing.mono {n m : Net} {q : Port} (h : Landing S n q) (hl : n.live q.node = true → m.live q.node = true) :
    Landing S m q := h.imp_left hl

/-- A wire lands at no principal port of a dead node. -/
lemma Landing.ne_dead {n : Net} {q : Port} (h : Landing S n q) {v : ℕ} (hv : n.dead.get v = true) : (⟨v, 0⟩ : Port) ≠ q := by
  rintro rfl
  rcases h with hl | ⟨-, hport⟩
  · rw [((Net.live_iff _).1 hl).2] at hv
    cases hv
  · cases hport

lemma Onward.slots {s' : Stage} (h : Onward S s s') (hs : ∃ l l', Slots S s.limbo s.net l l') :
    ∃ l l', Slots S s'.limbo s'.net l l' := by
  obtain ⟨l, l', hs⟩ := hs
  obtain ⟨k, k', hk, -⟩ := h.lists l l' hs
  exact ⟨k, k', hk⟩

lemma Onward.refl (s : Stage) : Onward S s s :=
  ⟨le_rfl, fun l l' hs => ⟨l, l', hs, List.Subset.refl l, List.suffix_rfl, fun _ _ hv _ => hv⟩⟩

lemma Onward.trans {s' s'' : Stage} (h : Onward S s s') (h' : Onward S s' s'') : Onward S s s'' := by
  refine ⟨h.nn.trans h'.nn, fun l l' hs => ?_⟩
  obtain ⟨k, k', hk, hkl, hkl', hdead⟩ := h.lists l l' hs
  obtain ⟨c, c', hc, hck, hck', hdead'⟩ := h'.lists k k' hk
  exact ⟨c, c', hc, List.Subset.trans hck hkl, hkl'.trans hck', fun v hv hd hvl =>
    hdead' v (hv.trans_le h.nn) (hdead v hv hd hvl) fun hm => hvl (hkl hm)⟩

/-- A change that leaves both lists as they are. -/
lemma onward_same (hnn : s.net.nn ≤ m.nn) (hdead : ∀ v, s.net.dead.get v = true → m.dead.get v = true)
    (hs : ∀ l l', Slots S s.limbo s.net l l' → Slots S U m l l') : Onward S s ⟨m, L, U⟩ :=
  ⟨hnn, fun l l' h => ⟨l, l', hs l l' h, List.Subset.refl l, List.suffix_rfl, fun v _ hv _ => hdead v hv⟩⟩

lemma onward_link {a b : Port} {e : Bool} (ha : Landing S s.net a) (hb : Landing S s.net b)
    (hold : ∀ q, s.net.wireAt a = some q ∨ s.net.wireAt b = some q → q.port ≠ 0) :
    Onward S s ⟨netLink g s.net (some a) (some b) e, L, s.limbo⟩ := by
  have hlink := netLink_linked g s.net (some a) (some b) e
  have hpend : (netLink g s.net (some a) (some b) e).pendHead = s.net.pendHead := netLink_pendHead _ _ _ _ _
  have hnfree : (netLink g s.net (some a) (some b) e).nfree = s.net.nfree := netLink_nfree _ _ _ _ _
  have hsame : ∀ {q : Port}, q ≠ a → q ≠ b → (netLink g s.net (some a) (some b) e).wireAt q = s.net.wireAt q :=
    fun hqa hqb => by rw [netLink_wireAt, if_neg (Ne.symm hqb), if_neg (Ne.symm hqa)]
  refine onward_same hlink.nn.ge (fun v hv => by rw [hlink.dead, hv]) fun l l' hs => ?_
  refine hs.frame hlink.nn hlink.freeHead hpend hnfree (fun v => by rw [hlink.dead])
    (fun v hv => hsame (ha.ne_dead hv) (hb.ne_dead hv)) fun v q hv _ hq => ?_
  rw [hsame (fun he => hold _ (.inl (he ▸ hq)) rfl) fun he => hold _ (.inr (he ▸ hq)) rfl, hq]

lemma cut_wireAt (n : Net) (p w q : Port) :
    ((n.setWire p none).setWire w none).wireAt q = if q = p ∨ q = w then none else n.wireAt q := by
  by_cases hw : w = q
  · simp [hw]
  · by_cases hp : p = q
    · simp [hp]
    · simp [hw, hp, Ne.symm hw, Ne.symm hp]

lemma onward_cut {p w : Port} (hp : Landing S s.net p) (hw : Landing S s.net w) (hpw : s.net.wireAt p = some w)
    (hwp : s.net.wireAt w = some p) : Onward S s ⟨(s.net.setWire p none).setWire w none, L, s.limbo⟩ := by
  refine onward_same le_rfl (fun v hv => hv) fun l l' hs =>
    hs.frame rfl rfl rfl rfl (fun _ => rfl) (fun v hv => ?_) fun v q hv _ hq => ?_
  · rw [cut_wireAt, if_neg (not_or.2 ⟨hp.ne_dead hv, hw.ne_dead hv⟩)]
  · rw [cut_wireAt, if_neg, hq]
    rintro (rfl | rfl)
    · rw [hpw] at hq
      exact hw.ne_dead hv (Option.some.inj hq).symm
    · rw [hwp] at hq
      exact hp.ne_dead hv (Option.some.inj hq).symm

lemma onward_sameGraph (hm : SameGraph s.net m) (hnfree : m.nfree = s.net.nfree) : Onward S s ⟨m, L, s.limbo⟩ :=
  onward_same hm.nn.ge (fun v hv => by rw [hm.dead, hv]) fun _ _ hs =>
    hs.frame hm.nn hm.freeHead hm.pendHead hnfree (fun v => by rw [hm.dead]) (fun _ _ => hm.wireAt _)
      fun _ q _ _ hq => (hm.wireAt q).trans hq

lemma blank_wireAt {n : Net} {p : Port} (hp : n.wireAt p = none) (q : Port) : (n.setWire p none).wireAt q = n.wireAt q := by
  rw [Net.wireAt_setWire]
  split_ifs with hq
  · rw [← hq, hp]
  · rfl

lemma onward_blank {p : Port} (hp : s.net.wireAt p = none) : Onward S s ⟨s.net.setWire p none, L, s.limbo⟩ :=
  onward_same le_rfl (fun _ hv => hv) fun _ _ hs =>
    hs.frame rfl rfl rfl rfl (fun _ => rfl) (fun _ _ => blank_wireAt hp _) fun _ q _ _ hq => (blank_wireAt hp q).trans hq

lemma onward_unhook {p : Port} (hp : p.node ∈ s.limbo) : Onward S s ⟨unhook s.net p, L, s.limbo⟩ := by
  have hsame := unhook_frame s.net p
  exact onward_same (by rw [hsame]) (fun v hv => by rwa [hsame]) fun _ _ hs => hs.unhook hp

lemma onward_grow (hm : Grown s.net m) : Onward S s ⟨m, L, s.limbo⟩ := by
  rw [hm.same]
  exact onward_same le_rfl (fun _ hv => hv) fun _ _ hs =>
    hs.frame rfl rfl rfl rfl (fun _ => rfl) (fun _ _ => rfl) fun _ _ _ _ hq => hq

lemma onward_forget (hU : U ⊆ s.limbo) : Onward S s ⟨s.net, L, U⟩ :=
  onward_same le_rfl (fun _ hv => hv) fun _ _ hs => ⟨hs.free, hs.pend, hs.disjoint, hs.count,
    fun v hv => ⟨(hs.off v hv).1, fun hm => (hs.off v hv).2 (hU hm)⟩, hs.prin⟩

lemma onward_pendPush {u : ℕ} (hu : u ∈ s.limbo) (hlt : u < s.net.nn) (hdead : s.net.dead.get u = true) (hS : u ∉ S)
    (hnone : ∀ k, s.net.wireAt ⟨u, k⟩ = none) : Onward S s ⟨pendPush s.net u, L, s.limbo \ {u}⟩ :=
  ⟨le_rfl, fun l l' hs => ⟨l, u :: l', hs.pendPush hu hlt hdead hS hnone, List.Subset.refl l, List.suffix_cons u l',
    fun _ _ hv _ => hv⟩⟩

end Onward

/-! ## Every change keeps the stage tied -/

section Tied

variable {S : Set ℕ} {g : Globals} {s s' : Stage}

lemma Tied.stub_dead (h : Tied S s) {v : ℕ} (hv : v ∈ S) : s.net.live v = false := by
  simp [Net.live, (h.stub v hv).2]

lemma Tied.link (h : Tied S s) {a b : Port} {e : Bool} {X : Set Port} (hab : a ≠ b) (ha : Landing S s.net a)
    (hb : Landing S s.net b) (hla : a ∉ s.loose) (hlb : b ∉ s.loose)
    (hback : ∀ x, s.net.live x.node = true → x ≠ a → x ≠ b → s.net.wireAt x = some a ∨ s.net.wireAt x = some b →
      x ∈ s.loose ∪ X)
    (hX : ∀ x ∈ X, x ≠ a ∧ x ≠ b ∧ x.port ≠ 0 ∧ s.net.live x.node = true ∧ Faces s.net x.node ∧
      (s.net.wireAt x = some a ∨ s.net.wireAt x = some b))
    (hold : ∀ q, s.net.wireAt a = some q ∨ s.net.wireAt b = some q → q.port ≠ 0) :
    Tied S ⟨netLink g s.net (some a) (some b) e, s.loose ∪ X, s.limbo⟩ := by
  have hlink := netLink_linked g s.net (some a) (some b) e
  have hlive : ∀ v, (netLink g s.net (some a) (some b) e).live v = s.net.live v := hlink.live
  have hland : ∀ {q}, Landing S s.net q → Landing S (netLink g s.net (some a) (some b) e) q := fun hq =>
    hq.mono fun hl => by rw [hlive, hl]
  have hout : ∀ c, c = a ∨ c = b → c ∉ s.loose ∪ X := by
    rintro c hc (hm | hm)
    · rcases hc with rfl | rfl
      · exact hla hm
      · exact hlb hm
    · rcases hc with rfl | rfl
      · exact (hX _ hm).1 rfl
      · exact (hX _ hm).2.1 rfl
  have hsame : ∀ {q : Port}, q ≠ a → q ≠ b → (netLink g s.net (some a) (some b) e).wireAt q = s.net.wireAt q :=
    fun hqa hqb => by rw [netLink_wireAt, if_neg (Ne.symm hqb), if_neg (Ne.symm hqa)]
  have hfaces : ∀ {v}, Faces s.net v → Faces (netLink g s.net (some a) (some b) e) v := by
    rintro v ⟨u, hu, hvu, huv⟩
    have hne : ∀ {x y : ℕ}, s.net.wireAt ⟨x, 0⟩ = some ⟨y, 0⟩ → (⟨x, 0⟩ : Port) ≠ a ∧ (⟨x, 0⟩ : Port) ≠ b := by
      intro x y hxy
      exact ⟨fun he => hold _ (.inl (he ▸ hxy)) rfl, fun he => hold _ (.inr (he ▸ hxy)) rfl⟩
    refine ⟨u, by rw [hlive, hu], ?_, ?_⟩
    · rw [hsame (hne hvu).1 (hne hvu).2, hvu]
    · rw [hsame (hne huv).1 (hne huv).2, huv]
  refine ⟨fun p q hp hpX hw => ?_, fun p hp => ?_, fun v hv => ?_, fun v hv => ?_, ?_⟩
  · rw [hlive] at hp
    by_cases hpb : p = b
    · subst hpb
      rw [netLink_wireAt, if_pos rfl, Option.some_inj] at hw
      subst hw
      exact ⟨hland ha, hout a (.inl rfl), by rw [netLink_wireAt, if_neg (Ne.symm hab), if_pos rfl], hab⟩
    · by_cases hpa : p = a
      · subst hpa
        rw [netLink_wireAt, if_neg (Ne.symm hab), if_pos rfl, Option.some_inj] at hw
        subst hw
        exact ⟨hland hb, hout b (.inr rfl), by rw [netLink_wireAt, if_pos rfl], Ne.symm hab⟩
      · rw [hsame hpa hpb] at hw
        obtain ⟨hq, hqD, hqp, hne⟩ := h.wire p q hp (fun hm => hpX (.inl hm)) hw
        have hqa : q ≠ a := fun he => hpX (hback p hp hpa hpb (.inl (he ▸ hw)))
        have hqb : q ≠ b := fun he => hpX (hback p hp hpa hpb (.inr (he ▸ hw)))
        refine ⟨hland hq, ?_, by rw [hsame hqa hqb, hqp], hne⟩
        rintro (hm | hm)
        · exact hqD hm
        · rcases (hX q hm).2.2.2.2.2 with hx | hx
          · exact hpa (Option.some.inj (hqp.symm.trans hx))
          · exact hpb (Option.some.inj (hqp.symm.trans hx))
  · rcases hp with hp | hp
    · obtain ⟨h1, h2, h3⟩ := h.loose p hp
      exact ⟨by rw [hlive, h1], h2, hfaces h3⟩
    · obtain ⟨-, -, h1, h2, h3, -⟩ := hX p hp
      exact ⟨by rw [hlive, h2], h1, hfaces h3⟩
  · rw [hlink.nn, hlink.dead]
    exact h.stub v hv
  · rw [hlink.nn, hlink.dead]
    exact h.limbo v hv
  · exact (onward_link (L := ∅) ha hb hold).slots h.slots

lemma Tied.cut_landing (h : Tied S s) {p w : Port} (hpw : s.net.wireAt p = some w) (hwp : s.net.wireAt w = some p)
    (hlive : s.net.live p.node = true ∨ s.net.live w.node = true) (hp : p ∉ s.loose) (hw : w ∉ s.loose) :
    Landing S s.net p ∧ Landing S s.net w := by
  rcases hlive with hl | hl
  · exact ⟨.inl hl, (h.wire p w hl hp hpw).1⟩
  · exact ⟨(h.wire w p hl hw hwp).1, .inl hl⟩

lemma Tied.cut (h : Tied S s) {p w : Port} (hpw : s.net.wireAt p = some w) (hwp : s.net.wireAt w = some p)
    (hlive : s.net.live p.node = true ∨ s.net.live w.node = true) (hp : p ∉ s.loose) (hw : w ∉ s.loose)
    (hprin : s.loose = ∅ ∨ p.port ≠ 0 ∨ w.port ≠ 0) :
    Tied S ⟨(s.net.setWire p none).setWire w none, s.loose, s.limbo⟩ := by
  have hland := h.cut_landing hpw hwp hlive hp hw
  refine ⟨fun x q hx hxl hq => ?_, fun x hx => ?_, h.stub, h.limbo, ?_⟩
  · rw [cut_wireAt] at hq
    split_ifs at hq with hcut
    obtain ⟨hq1, hq2, hq3, hq4⟩ := h.wire x q hx hxl hq
    refine ⟨hq1, hq2, ?_, hq4⟩
    rw [cut_wireAt, if_neg, hq3]
    rintro (rfl | rfl)
    · rw [hpw] at hq3
      exact hcut (.inr (Option.some.inj hq3).symm)
    · rw [hwp] at hq3
      exact hcut (.inl (Option.some.inj hq3).symm)
  · obtain ⟨h1, h2, u, hu, hxu, hux⟩ := h.loose x hx
    refine ⟨h1, h2, u, hu, ?_⟩
    -- the cut wire is not one between two principal ports
    have hne : ∀ y z : ℕ, s.net.wireAt ⟨y, 0⟩ = some ⟨z, 0⟩ → ¬((⟨y, 0⟩ : Port) = p ∨ (⟨y, 0⟩ : Port) = w) := by
      intro y z hyz hor
      rcases hprin with hD | hprin
      · rw [hD] at hx
        exact hx
      · rcases hor with rfl | rfl
        · rw [hpw] at hyz
          rcases hprin with hp0 | hw0
          · exact hp0 rfl
          · exact hw0 (by rw [Option.some.inj hyz])
        · rw [hwp] at hyz
          rcases hprin with hp0 | hw0
          · exact hp0 (by rw [Option.some.inj hyz])
          · exact hw0 rfl
    exact ⟨by rw [cut_wireAt, if_neg (hne _ _ hxu), hxu], by rw [cut_wireAt, if_neg (hne _ _ hux), hux]⟩
  · exact (onward_cut (L := ∅) hland.1 hland.2 hpw hwp).slots h.slots

/-- A stage is tied by its graph alone. -/
lemma Tied.sameGraph (h : Tied S s) {m : Net} (hm : SameGraph s.net m) (hnfree : m.nfree = s.net.nfree) : Tied S ⟨m, s.loose, s.limbo⟩ := by
  have hland : ∀ {q}, Landing S s.net q → Landing S m q := fun hq => hq.mono fun hl => by rw [hm.live, hl]
  have hfaces : ∀ {v}, Faces s.net v → Faces m v := by
    rintro v ⟨u, hu, hvu, huv⟩
    exact ⟨u, by rw [hm.live, hu], by rw [hm.wireAt, hvu], by rw [hm.wireAt, huv]⟩
  refine ⟨fun p q hp hl hw => ?_, fun p hp => ?_, fun v hv => ?_, fun v hv => ?_, ?_⟩
  · rw [hm.live] at hp
    rw [hm.wireAt] at hw
    obtain ⟨h1, h2, h3, h4⟩ := h.wire p q hp hl hw
    exact ⟨hland h1, h2, by rw [hm.wireAt, h3], h4⟩
  · obtain ⟨h1, h2, h3⟩ := h.loose p hp
    exact ⟨by rw [hm.live, h1], h2, hfaces h3⟩
  · rw [hm.nn, hm.dead]
    exact h.stub v hv
  · rw [hm.nn, hm.dead]
    exact h.limbo v hv
  · exact (onward_sameGraph (L := ∅) hm hnfree).slots h.slots

lemma Tied.blank (h : Tied S s) {p : Port} (hp : s.net.wireAt p = none) :
    Tied S ⟨s.net.setWire p none, s.loose, s.limbo⟩ := by
  have hw := blank_wireAt hp
  refine ⟨fun x q hx hl hq => ?_, fun x hx => ?_, h.stub, h.limbo, ?_⟩
  · rw [hw] at hq
    obtain ⟨h1, h2, h3, h4⟩ := h.wire x q hx hl hq
    exact ⟨h1, h2, (hw q).trans h3, h4⟩
  · obtain ⟨h1, h2, u, hu, hxu, hux⟩ := h.loose x hx
    exact ⟨h1, h2, u, hu, (hw _).trans hxu, (hw _).trans hux⟩
  · exact (onward_blank (L := ∅) hp).slots h.slots

lemma markDead_live (n : Net) (v u : ℕ) :
    ({ n with dead := n.dead.set v true } : Net).live u = true ↔ n.live u = true ∧ u ≠ v := by
  rw [Net.live_iff, Net.live_iff]
  by_cases huv : v = u
  · simp [huv]
  · simp [huv, Ne.symm huv]

/-- A node without a live neighbour has no loose port. -/
lemma Tied.loose_ne (h : Tied S s) {v : ℕ}
    (halone : ∀ p q : Port, p.node = v → s.net.wireAt p = some q → s.net.live q.node = false) {p : Port} (hp : p ∈ s.loose) :
    p.node ≠ v := by
  rintro rfl
  obtain ⟨-, -, u, hu, hpu, -⟩ := h.loose p hp
  rw [halone ⟨p.node, 0⟩ _ rfl hpu] at hu
  cases hu

lemma Tied.onward_markDead (h : Tied S s) {v : ℕ} {L : Set Port} (hv : s.net.live v = true)
    (halone : ∀ p q : Port, p.node = v → s.net.wireAt p = some q → s.net.live q.node = false) :
    Onward S s ⟨{ s.net with dead := s.net.dead.set v true }, L, insert v s.limbo⟩ := by
  refine onward_same le_rfl (fun _ hu => markDead_dead hu) fun _ _ hs => hs.kill hv fun q hq => ?_
  obtain ⟨hland, -, hback, -⟩ := h.wire ⟨v, 0⟩ q hv (fun hm => h.loose_ne halone hm rfl) hq
  rcases hland with hl | ⟨hS, -⟩
  · rw [halone _ _ rfl hq] at hl
    cases hl
  · exact ⟨(h.stub _ hS).1, (h.stub _ hS).2, hS, hback⟩

lemma Tied.markDead (h : Tied S s) {v : ℕ} (hv : s.net.live v = true)
    (halone : ∀ p q : Port, p.node = v → s.net.wireAt p = some q → s.net.live q.node = false) :
    Tied S ⟨{ s.net with dead := s.net.dead.set v true }, s.loose, insert v s.limbo⟩ := by
  have hlive := markDead_live s.net v
  have hvS : v ∉ S := fun hS => by
    rw [h.stub_dead hS] at hv
    cases hv
  refine ⟨fun p q hp hl hw => ?_, fun p hp => ?_, fun u hu => ?_, fun u hu => ?_, ?_⟩
  · obtain ⟨hp', hpv⟩ := (hlive _).1 hp
    obtain ⟨h1, h2, h3, h4⟩ := h.wire p q hp' hl hw
    refine ⟨h1.mono fun hq => (hlive _).2 ⟨hq, ?_⟩, h2, h3, h4⟩
    rintro rfl
    rw [halone _ _ rfl h3] at hp'
    cases hp'
  · obtain ⟨h1, h2, u, hu, hpu, hup⟩ := h.loose p hp
    refine ⟨(hlive _).2 ⟨h1, h.loose_ne halone hp⟩, h2, u, (hlive _).2 ⟨hu, ?_⟩, hpu, hup⟩
    rintro rfl
    rw [halone _ _ rfl hup] at h1
    cases h1
  · exact ⟨(h.stub u hu).1, markDead_dead (h.stub u hu).2⟩
  · rcases hu with rfl | hu
    · exact ⟨((Net.live_iff _).1 hv).1, by simp, hvS⟩
    · obtain ⟨h1, h2, h3⟩ := h.limbo u hu
      exact ⟨h1, markDead_dead h2, h3⟩
  · exact (h.onward_markDead (L := ∅) hv halone).slots h.slots

lemma Tied.unhook (h : Tied S s) {p : Port} (hp : p.node ∈ s.limbo) :
    Tied S ⟨unhook s.net p, s.loose, s.limbo⟩ := by
  have hsame := unhook_frame s.net p
  have hlive : ∀ v, (LinEngine.unhook s.net p).live v = s.net.live v := fun v => by rw [hsame]; rfl
  obtain ⟨-, hpd, hpS⟩ := h.limbo _ hp
  have hdead : s.net.live p.node = false := by simp [Net.live, hpd]
  -- no live wire leads to the dead node
  have hkeep : ∀ x q, s.net.live x.node = true → x ∉ s.loose → s.net.wireAt x = some q →
      (LinEngine.unhook s.net p).wireAt x = some q ∧ (LinEngine.unhook s.net p).wireAt q = some x := by
    intro x q hx hl hw
    obtain ⟨h1, h2, h3, h4⟩ := h.wire x q hx hl hw
    have hxp : x ≠ p := by
      rintro rfl
      rw [hdead] at hx
      cases hx
    have hqp : q ≠ p := by
      rintro rfl
      rcases h1 with h1 | ⟨h1, -⟩
      · rw [hdead] at h1
        cases h1
      · exact hpS h1
    constructor
    · rcases unhook_wireAt hxp with he | ⟨-, -, he⟩
      · rw [he, hw]
      · rw [hw] at he
        exact absurd (Option.some.inj he) hqp
    · rcases unhook_wireAt hqp with he | ⟨-, -, he⟩
      · rw [he, h3]
      · rw [h3] at he
        exact absurd (Option.some.inj he) hxp
  refine ⟨fun x q hx hl hw => ?_, fun x hx => ?_, fun v hv => ?_, fun v hv => ?_, ?_⟩
  · rw [hlive] at hx
    have hold : s.net.wireAt x = some q := by
      by_cases hxp : x = p
      · rw [hxp, unhook_wireAt_self] at hw
        cases hw
      · rcases unhook_wireAt hxp with he | ⟨he, -⟩
        · rwa [← he]
        · rw [he] at hw
          cases hw
    obtain ⟨h1, h2, -, h4⟩ := h.wire x q hx hl hold
    exact ⟨h1.mono fun hq => by rw [hlive, hq], h2, (hkeep x q hx hl hold).2, h4⟩
  · obtain ⟨h1, h2, u, hu, hxu, hux⟩ := h.loose x hx
    have hprin : ∀ y : ℕ, (⟨y, 0⟩ : Port) ∉ s.loose := fun y hm => (h.loose _ hm).2.1 rfl
    exact ⟨by rw [hlive, h1], h2, u, by rw [hlive, hu], (hkeep ⟨x.node, 0⟩ _ h1 (hprin _) hxu).1,
      (hkeep ⟨u, 0⟩ _ hu (hprin _) hux).1⟩
  · rw [hsame]
    exact h.stub v hv
  · rw [hsame]
    exact h.limbo v hv
  · exact (onward_unhook (L := ∅) hp).slots h.slots

lemma Tied.pendPush (h : Tied S s) {u : ℕ} (hu : u ∈ s.limbo) (hnone : ∀ k, s.net.wireAt ⟨u, k⟩ = none) :
    Tied S ⟨pendPush s.net u, s.loose, s.limbo \ {u}⟩ := by
  obtain ⟨hlt, hd, hS⟩ := h.limbo u hu
  have hdead : s.net.live u = false := by simp [Net.live, hd]
  have hlive : ∀ v, (LinEngine.pendPush s.net u).live v = s.net.live v := fun v => rfl
  have hother : ∀ p : Port, p.node ≠ u → (LinEngine.pendPush s.net u).wireAt p = s.net.wireAt p := fun p hp => by
    rw [pendPush_wireAt, if_neg fun he => hp (congrArg Port.node he).symm]
  have hlne : ∀ v, s.net.live v = true → v ≠ u := by
    rintro v hv rfl
    rw [hdead] at hv
    cases hv
  refine ⟨fun x q hx hl hw => ?_, fun x hx => ?_, h.stub, fun v hv => h.limbo v hv.1, ?_⟩
  · rw [hother x (hlne _ hx)] at hw
    obtain ⟨h1, h2, h3, h4⟩ := h.wire x q hx hl hw
    have hqu : q.node ≠ u := by
      rcases h1 with h1 | ⟨h1, -⟩
      · exact hlne _ h1
      · exact fun he => hS (he ▸ h1)
    exact ⟨h1, h2, by rw [hother q hqu, h3], h4⟩
  · obtain ⟨h1, h2, v, hv, hxv, hvx⟩ := h.loose x hx
    exact ⟨h1, h2, v, hv, (hother ⟨x.node, 0⟩ (hlne _ h1)).trans hxv, (hother ⟨v, 0⟩ (hlne _ hv)).trans hvx⟩
  · exact (onward_pendPush (L := ∅) hu hlt hd hS hnone).slots h.slots

lemma Tied.allocated (h : Tied S s) (t : Tag) (sc : ℕ) :
    Allocated s.net t sc (netAlloc g s.net t sc).1 (netAlloc g s.net t sc).2 := by
  obtain ⟨l, l', hs⟩ := h.slots
  exact netAlloc_allocated g ⟨l, hs.free⟩ t sc

lemma Allocated.dead_other {n m : Net} {t : Tag} {sc id v : ℕ} (h : Allocated n t sc id m) (hnn : n.nn ≤ m.nn)
    (hv : v < n.nn) (hd : n.dead.get v = true) (hne : v ≠ id) : m.dead.get v = true := by
  have hl : m.live v = false := by
    rw [h.liveOther v hne]
    simp [Net.live, hd]
  by_contra hd'
  rw [(Net.live_iff v).2 ⟨hv.trans_le hnn, by simpa using hd'⟩] at hl
  cases hl

lemma Tied.onward_alloc (h : Tied S s) {L : Set Port} (t : Tag) (sc : ℕ) :
    Onward S s ⟨(netAlloc g s.net t sc).2, L, s.limbo⟩ := by
  have ha := h.allocated (g := g) t sc
  have hspec := fun l l' (hs : Slots S s.limbo s.net l l') =>
    hs.alloc g t sc (fun v hv => (h.stub v hv).1) fun v hv => (h.limbo v hv).1
  obtain ⟨l, l', hs⟩ := h.slots
  have hnn := (hspec l l' hs).2.2.2
  refine ⟨hnn, fun l l' hs => ?_⟩
  obtain ⟨⟨c, hc, hcl, hid⟩, -⟩ := hspec l l' hs
  refine ⟨c, l', hc, hcl, List.suffix_rfl, fun v hv hd hvl => ha.dead_other hnn hv hd ?_⟩
  rintro rfl
  rcases hid with hid | hid
  · exact hvl hid
  · omega

lemma Tied.alloc (h : Tied S s) (t : Tag) (sc : ℕ) : Tied S ⟨(netAlloc g s.net t sc).2, s.loose, s.limbo⟩ := by
  have ha := h.allocated (g := g) t sc
  obtain ⟨l, l', hs⟩ := h.slots
  obtain ⟨⟨c, hc, -, -⟩, hidS, hidU, hnn⟩ := hs.alloc g t sc (fun v hv => (h.stub v hv).1) fun v hv => (h.limbo v hv).1
  revert ha hc hidS hidU hnn
  generalize netAlloc g s.net t sc = r
  intro ha hc hidS hidU hnn
  have hlne : ∀ v, s.net.live v = true → v ≠ r.1 := by
    rintro v hv rfl
    rw [ha.fresh] at hv
    cases hv
  have hland : ∀ {q}, Landing S s.net q → Landing S r.2 q ∧ q.node ≠ r.1 := by
    rintro q (hq | ⟨hq, hq1⟩)
    · exact ⟨.inl (by rw [ha.liveOther _ (hlne _ hq), hq]), hlne _ hq⟩
    · exact ⟨.inr ⟨hq, hq1⟩, fun he => hidS (he ▸ hq)⟩
  have hdead : ∀ v, v < s.net.nn → s.net.dead.get v = true → v ≠ r.1 → v < r.2.nn ∧ r.2.dead.get v = true :=
    fun v hv hd hne => ⟨hv.trans_le hnn, ha.dead_other hnn hv hd hne⟩
  refine ⟨fun x q hx hl hw => ?_, fun x hx => ?_, fun v hv => ?_, fun v hv => ?_, c, l', hc⟩
  · by_cases hxr : x.node = r.1
    · obtain ⟨v, k⟩ := x
      rw [show v = r.1 from hxr, ha.wireNew k] at hw
      cases hw
    · rw [ha.liveOther _ hxr] at hx
      rw [ha.wireOther x hxr] at hw
      obtain ⟨h1, h2, h3, h4⟩ := h.wire x q hx hl hw
      exact ⟨(hland h1).1, h2, by rw [ha.wireOther q (hland h1).2, h3], h4⟩
  · obtain ⟨h1, h2, v, hv, hxv, hvx⟩ := h.loose x hx
    refine ⟨by rw [ha.liveOther _ (hlne _ h1), h1], h2, v, by rw [ha.liveOther _ (hlne _ hv), hv], ?_, ?_⟩
    · rw [ha.wireOther ⟨x.node, 0⟩ (hlne _ h1), hxv]
    · rw [ha.wireOther ⟨v, 0⟩ (hlne _ hv), hvx]
  · exact hdead v (h.stub v hv).1 (h.stub v hv).2 fun he => hidS (he ▸ hv)
  · obtain ⟨h1, h2, h3⟩ := h.limbo v hv
    obtain ⟨h4, h5⟩ := hdead v h1 h2 fun he => hidU (he ▸ hv)
    exact ⟨h4, h5, h3⟩

lemma Tied.grow (h : Tied S s) {m : Net} (hm : Grown s.net m) : Tied S ⟨m, s.loose, s.limbo⟩ := by
  have hslots := (onward_grow (L := s.loose) hm).slots h.slots
  rw [hm.same] at hslots ⊢
  exact ⟨h.wire, h.loose, h.stub, h.limbo, hslots⟩

lemma onward_bury {a b : ℕ} {L : Set Port} (ha : s.net.live a = true) (hb : s.net.live b = true)
    (hab : s.net.wireAt ⟨a, 0⟩ = some ⟨b, 0⟩) (hba : s.net.wireAt ⟨b, 0⟩ = some ⟨a, 0⟩) :
    Onward S s ⟨markPair s.net a b, L, s.limbo ∪ {a, b}⟩ := by
  have hdead := markPair_dead s.net a b
  have hkeep : ∀ v, s.net.dead.get v = true → (markPair s.net a b).dead.get v = true := fun v hv => by
    simp [hdead, hv]
  have hpair : ∀ v, v = a ∨ v = b → s.net.live v = true ∧ (markPair s.net a b).dead.get v = true := by
    rintro v (rfl | rfl)
    · exact ⟨ha, by simp [hdead]⟩
    · exact ⟨hb, by simp [hdead]⟩
  refine onward_same le_rfl hkeep fun l l' hs => ?_
  refine ⟨hs.free.mono le_rfl (fun v hv => hkeep v (hs.free.dead_of_mem hv).2) fun _ _ => rfl,
    hs.pend.mono le_rfl (fun v hv => hkeep v (hs.pend.dead_of_mem hv).2) fun _ _ => rfl, hs.disjoint, hs.count,
    fun v hv => ⟨(hs.off v hv).1, ?_⟩, fun v q hv hd hl hl' hq => ?_⟩
  · rintro (hm | hm)
    · exact (hs.off v hv).2 hm
    · obtain ⟨h1, h2⟩ := hs.off_live (hpair v hm).1
      exact hv.elim h1 h2
  · have hface : ∀ x y : ℕ, s.net.wireAt ⟨x, 0⟩ = some ⟨y, 0⟩ → s.net.wireAt ⟨y, 0⟩ = some ⟨x, 0⟩ → (y = a ∨ y = b) →
        v = x → q.node < s.net.nn ∧ (markPair s.net a b).dead.get q.node = true ∧ q.node ∉ l ∧ q.node ∉ l' ∧
          s.net.wireAt q = some ⟨v, 0⟩ := by
      rintro x y hxy hyx hy rfl
      obtain rfl : (⟨y, 0⟩ : Port) = q := Option.some.inj (hxy.symm.trans hq)
      obtain ⟨hlive, hmark⟩ := hpair y hy
      exact ⟨((Net.live_iff y).1 hlive).1, hmark, (hs.off_live hlive).1, (hs.off_live hlive).2, hyx⟩
    by_cases hva : v = a
    · exact hface a b hab hba (.inr rfl) hva
    · by_cases hvb : v = b
      · exact hface b a hba hab (.inl rfl) hvb
      · have hd' : s.net.dead.get v = true := by simpa [hdead, hva, hvb] using hd
        obtain ⟨h1, h2, h3⟩ := hs.prin v q hv hd' hl hl' hq
        exact ⟨h1, hkeep _ h2, h3⟩

lemma Tied.bury (h : Tied S s) {a b : ℕ} (ha : s.net.live a = true) (hb : s.net.live b = true)
    (hab : s.net.wireAt ⟨a, 0⟩ = some ⟨b, 0⟩) (hba : s.net.wireAt ⟨b, 0⟩ = some ⟨a, 0⟩)
    (hloose : ∀ p ∈ s.loose, p.node = a ∨ p.node = b)
    (hout : ∀ p q, s.net.live p.node = true → p.node ≠ a → p.node ≠ b → s.net.wireAt p = some q →
      q.node ≠ a ∧ q.node ≠ b) :
    Tied S ⟨markPair s.net a b, ∅, s.limbo ∪ {a, b}⟩ := by
  have hdead := markPair_dead s.net a b
  have hlive : ∀ v, (markPair s.net a b).live v = true ↔ s.net.live v = true ∧ v ≠ a ∧ v ≠ b := by
    intro v
    rw [Net.live_iff, Net.live_iff, hdead]
    have hnn : (markPair s.net a b).nn = s.net.nn := rfl
    rw [hnn]
    by_cases hva : v = a
    · simp [hva]
    · by_cases hvb : v = b
      · simp [hvb]
      · simp [hva, hvb]
  have hkeep : ∀ v, s.net.dead.get v = true → (markPair s.net a b).dead.get v = true := fun v hv => by
    simp [hdead, hv]
  have hpair : ∀ v, v = a ∨ v = b → v < s.net.nn ∧ v ∉ S ∧ (markPair s.net a b).dead.get v = true := by
    rintro v hv
    have hl : s.net.live v = true := by
      rcases hv with rfl | rfl
      · exact ha
      · exact hb
    refine ⟨((Net.live_iff v).1 hl).1, fun hS => ?_, by rcases hv with rfl | rfl <;> simp [hdead]⟩
    rw [h.stub_dead hS] at hl
    cases hl
  refine ⟨fun p q hp _ hw => ?_, fun p hp => absurd hp (by simp), fun v hv => ?_, fun v hv => ?_, ?_⟩
  · obtain ⟨hp', hpa, hpb⟩ := (hlive _).1 hp
    have hpl : p ∉ s.loose := fun hm => (hloose p hm).elim hpa hpb
    obtain ⟨h1, -, h3, h4⟩ := h.wire p q hp' hpl hw
    exact ⟨h1.mono fun hq => (hlive _).2 ⟨hq, hout p q hp' hpa hpb hw⟩, by simp, h3, h4⟩
  · exact ⟨(h.stub v hv).1, hkeep v (h.stub v hv).2⟩
  · rcases hv with hv | hv
    · obtain ⟨h1, h2, h3⟩ := h.limbo v hv
      exact ⟨h1, hkeep v h2, h3⟩
    · obtain ⟨h1, h2, h3⟩ := hpair v hv
      exact ⟨h1, h3, h2⟩
  · exact (onward_bury (L := ∅) ha hb hab hba).slots h.slots

lemma Tied.forget (h : Tied S s) {U : Set ℕ} (hU : U ⊆ s.limbo) : Tied S ⟨s.net, s.loose, U⟩ := by
  exact ⟨h.wire, h.loose, h.stub, fun v hv => h.limbo v (hU hv), (onward_forget (L := ∅) hU).slots h.slots⟩

lemma buryPair_same (g : Globals) (n : Net) (a b : ℕ) : SameGraph (markPair n a b) (buryPair g n a b) := by
  have h := (actDrop_same g (markPair n a b) a).trans (actDrop_same g _ b)
  exact ⟨h.nn, h.tag, h.wire, h.scope, h.dead, h.levels, h.freeHead, h.pendHead, h.pins⟩

/-- A change keeps the stage tied. -/
theorem Change.tied (h : Tied S s) (hc : Change S g s s') : Tied S s' := by
  cases hc with
  | link a b e X hab ha hb hla hlb hback hX hold _ => exact h.link hab ha hb hla hlb hback hX hold
  | cut p w hpw hwp hl hp hw hprin _ => exact h.cut hpw hwp hl hp hw hprin
  | blank p hp => exact h.blank hp
  | kill v m hv halone hm =>
    have hdead := h.markDead hv halone
    rcases hm with rfl | rfl
    · exact hdead
    · exact hdead.sameGraph (actDrop_same g _ v) (actDrop_nfree g _ v)
  | unhook p hp => exact h.unhook hp
  | pend u hu hnone => exact h.pendPush hu hnone
  | alloc t sc => exact h.alloc t sc
  | grow m hm => exact h.grow hm
  | bury a b ha hb _ hab hba hloose hout =>
    exact (h.bury ha hb hab hba hloose hout).sameGraph (buryPair_same g _ a b)
      ((actDrop_nfree g _ b).trans (actDrop_nfree g _ a))
  | forget U hU => exact h.forget hU

/-- A change of the stage takes its lists onward. -/
theorem Change.onward (h : Tied S s) (hc : Change S g s s') : Onward S s s' := by
  cases hc with
  | link a b e X _ ha hb _ _ _ _ hold _ => exact onward_link ha hb hold
  | cut p w hpw hwp hl hp hw _ _ => exact onward_cut (h.cut_landing hpw hwp hl hp hw).1 (h.cut_landing hpw hwp hl hp hw).2 hpw hwp
  | blank p hp => exact onward_blank hp
  | kill v m hv halone hm =>
    have hdead := h.onward_markDead (L := s.loose) hv halone
    rcases hm with rfl | rfl
    · exact hdead
    · exact hdead.trans (onward_sameGraph (actDrop_same g _ v) (actDrop_nfree g _ v))
  | unhook p hp => exact onward_unhook hp
  | pend u hu hnone =>
    obtain ⟨hlt, hd, hS⟩ := h.limbo u hu
    exact onward_pendPush hu hlt hd hS hnone
  | alloc t sc => exact h.onward_alloc t sc
  | grow m hm => exact onward_grow hm
  | bury a b ha hb _ hab hba _ _ =>
    exact (onward_bury (L := ∅) ha hb hab hba).trans (onward_sameGraph (buryPair_same g _ a b)
      ((actDrop_nfree g _ b).trans (actDrop_nfree g _ a)))
  | forget U hU => exact onward_forget hU

end Tied

end LinEngine
