import LinEngine.Collect
import LinEngine.Firing

/-!
# The free list and the pending list

Runs of `net_alloc`, `net_interact`, `net_sever`, `net_flush_free` and `net_gc` on a net.
As long as no call of `net_sever` names the port that threads a reclaimed slot to the next
one, both lists stay as they should be: chains of different dead slots, counted by `nfree`.
-/
namespace LinEngine

/-- The wires of the live nodes are mutual, but those to binders of spent placeholders, and
the two lists are sound. -/
def Orderly (n : Net) : Prop := ∃ S, Tied S ⟨n, ∅, ∅⟩

/-- The free list is `l` and the pending list is `l'`. -/
structure Lists (n : Net) (l l' : List ℕ) : Prop where
  free : FreeChain n n.freeHead l
  pend : FreeChain n n.pendHead l'
  disjoint : ∀ v ∈ l, v ∉ l'
  count : n.nfree = l.length + l'.length

/-- The slot is on one of the lists. -/
def Listed (n : Net) (v : ℕ) : Prop := ∃ l l', Lists n l l' ∧ (v ∈ l ∨ v ∈ l')

section Keep

variable {S : Set ℕ} {g : Globals} {n m : Net}

lemma Tied.lists (h : Tied S ⟨n, ∅, ∅⟩) : ∃ l l', Lists n l l' ∧ Slots S ∅ n l l' := by
  obtain ⟨l, l', hs⟩ := h.slots
  exact ⟨l, l', ⟨hs.free, hs.pend, hs.disjoint, hs.count⟩, hs⟩

lemma FreeChain.unique {h : Option ℕ} {l l' : List ℕ} (hl : FreeChain n h l) (hl' : FreeChain n h l') : l = l' := by
  induction hl generalizing l' with
  | nil =>
    cases hl'
    rfl
  | cons _ _ _ _ ih =>
    obtain _ | ⟨_, _, _, hrest⟩ := hl'
    rw [ih hrest]

lemma Lists.unique {l l' k k' : List ℕ} (h : Lists n l l') (h' : Lists n k k') : l = k ∧ l' = k' :=
  ⟨h.free.unique h'.free, h.pend.unique h'.pend⟩

/-! ## Cutting -/

lemma unhook_none {p : Port} (hw : n.wireAt p = none) : unhook n p = n.setWire p none := by
  simp only [unhook, hw]

/-- Cutting at a dead node off the lists. -/
lemma unhook_tied_dead (h : Tied S ⟨n, ∅, ∅⟩) {p : Port} (hp : n.live p.node = false)
    (hoff : ∀ l l', Lists n l l' → p.node ∉ l ∧ p.node ∉ l') : Tied S ⟨unhook n p, ∅, ∅⟩ := by
  have hsame := unhook_frame n p
  have hlive : ∀ v, (unhook n p).live v = n.live v := fun v => by rw [hsame]; rfl
  obtain ⟨l, l', hlists, hs⟩ := h.lists
  obtain ⟨hl, hl'⟩ := hoff l l' hlists
  have hkeep : ∀ {c : List ℕ} {i : Option ℕ}, FreeChain n i c → p.node ∉ c → ∀ v ∈ c,
      (unhook n p).wireAt ⟨v, 0⟩ = n.wireAt ⟨v, 0⟩ := by
    intro c i hc hpc v hv
    have hvp : (⟨v, 0⟩ : Port) ≠ p := by
      rintro rfl
      exact hpc hv
    rcases unhook_wireAt hvp with he | ⟨-, -, he⟩
    · exact he
    · exact absurd (hc.next_mem hv he) hpc
  have hchain : ∀ {c : List ℕ} {i : Option ℕ}, FreeChain n i c → p.node ∉ c → FreeChain (unhook n p) i c := by
    intro c i hc hpc
    refine hc.mono (by rw [hsame]) (fun v hv => ?_) (hkeep hc hpc)
    rw [hsame]
    exact (hc.dead_of_mem hv).2
  -- a wire that is still there was there before
  have hold : ∀ {x q : Port}, (unhook n p).wireAt x = some q → x ≠ p ∧ n.wireAt x = some q := by
    intro x q hw
    have hxp : x ≠ p := by
      rintro rfl
      rw [unhook_wireAt_self] at hw
      cases hw
    rcases unhook_wireAt hxp with he | ⟨he, -⟩
    · exact ⟨hxp, by rwa [← he]⟩
    · rw [he] at hw
      cases hw
  -- and so was its way back
  have hback : ∀ {x q : Port}, (unhook n p).wireAt x = some q → x.node < n.nn → n.wireAt q = some x →
      (unhook n p).wireAt q = some x := by
    intro x q hw hx hq
    obtain ⟨hxp, hxq⟩ := hold hw
    have hqp : q ≠ p := by
      rintro rfl
      rw [unhook_partner hq hxq hxp hx] at hw
      cases hw
    rcases unhook_wireAt hqp with he | ⟨-, -, he⟩
    · rw [he, hq]
    · rw [hq] at he
      exact absurd (Option.some.inj he) hxp
  refine ⟨fun x q hx _ hw => ?_, fun x hx => absurd hx (Set.notMem_empty x), fun v hv => ?_,
    fun v hv => absurd hv (Set.notMem_empty v), l, l', ?_, ?_, hs.disjoint, ?_, hs.off, fun v q hv hd hvl hvl' hw => ?_⟩
  · rw [hlive] at hx
    obtain ⟨-, hxq⟩ := hold hw
    obtain ⟨h1, -, h3, h4⟩ := h.wire x q hx (Set.notMem_empty x) hxq
    exact ⟨h1.mono fun hq => by rw [hlive, hq], Set.notMem_empty q, hback hw ((Net.live_iff _).1 hx).1 h3, h4⟩
  · rw [hsame]
    exact h.stub v hv
  · have hhead : (unhook n p).freeHead = n.freeHead := by rw [hsame]
    rw [hhead]
    exact hchain hs.free hl
  · have hhead : (unhook n p).pendHead = n.pendHead := by rw [hsame]
    rw [hhead]
    exact hchain hs.pend hl'
  · rw [hsame]
    exact hs.count
  · have hv' : v < n.nn := by rwa [hsame] at hv
    have hd' : n.dead.get v = true := by rwa [hsame] at hd
    obtain ⟨hlt, hdq, hql, hql', hq⟩ := hs.prin v q hv' hd' hvl hvl' (hold hw).2
    exact ⟨by rwa [hsame], by rwa [hsame], hql, hql', hback hw hv' hq⟩

/-- Cutting at a live node. -/
lemma unhook_tied_live (h : Tied S ⟨n, ∅, ∅⟩) {p w : Port} (hp : n.live p.node = true) (hw : n.wireAt p = some w) :
    Tied S ⟨unhook n p, ∅, ∅⟩ := by
  obtain ⟨hland, -, hback, hne⟩ := h.wire p w hp (Set.notMem_empty p) hw
  rw [unhook_mutual hw hback hne (h.landing_lt hland)]
  exact h.cut hw hback (.inl hp) (Set.notMem_empty p) (Set.notMem_empty w) (.inl rfl)

lemma reap_tied (h : Tied S ⟨n, ∅, ∅⟩) (v : ℕ) : Tied S ⟨reap g n v, ∅, ∅⟩ := by
  obtain ⟨U, hc, -⟩ := reap_changes (g := g) h v
  exact (hc.tied h).forget (Set.empty_subset _)

/-- Cutting at any port that is not a wired port of a reclaimed slot. -/
lemma netSever_tied (h : Tied S ⟨n, ∅, ∅⟩) {p : Port} (hp : Listed n p.node → n.wireAt p = none) :
    Tied S ⟨netSever g n p, ∅, ∅⟩ := by
  by_cases hin : p.node < n.nn
  · have hun : Tied S ⟨unhook n p, ∅, ∅⟩ := by
      cases hw : n.wireAt p with
      | none =>
        rw [unhook_none hw]
        exact h.blank hw
      | some w =>
        cases hl : n.live p.node with
        | true => exact unhook_tied_live h hl hw
        | false =>
          refine unhook_tied_dead h hl fun l l' hlists => not_or.1 fun hmem => ?_
          rw [hp ⟨l, l', hlists, hmem⟩] at hw
          cases hw
    have hnear := reap_tied (g := g) hun p.node
    rw [netSever_eq g hin]
    cases n.wireAt p with
    | none => exact hnear
    | some w =>
      dsimp only
      split_ifs
      · exact reap_tied hnear w.node
      · exact hnear
  · have hout : n.inNet p.node = false := by simpa [Net.inNet] using hin
    have he : netSever g n p = n := by simp [netSever, hout]
    rw [he]
    exact h

/-! ## Publishing -/

/-- The first pending slot moves to the front of the free list. -/
def publish (n : Net) (v : ℕ) : Net :=
  { ({ n with pendHead := (n.wireAt ⟨v, 0⟩).map (·.node) } : Net).setWire ⟨v, 0⟩ (n.freeHead.map (⟨·, 0⟩)) with
    freeHead := some v }

lemma publish_wireAt (n : Net) (v : ℕ) (p : Port) :
    (publish n v).wireAt p = if (⟨v, 0⟩ : Port) = p then n.freeHead.map (⟨·, 0⟩) else n.wireAt p := by
  have h : (publish n v).wireAt p = (n.setWire ⟨v, 0⟩ (n.freeHead.map (⟨·, 0⟩))).wireAt p := rfl
  rw [h, Net.wireAt_setWire]

lemma publish_lists {v : ℕ} {l l' : List ℕ} (h : Lists n l (v :: l')) : Lists (publish n v) (v :: l) l' := by
  have hpend := h.pend
  generalize hhead : n.pendHead = i at hpend
  obtain _ | ⟨hlt, hdead, hnot, hrest⟩ := hpend
  have hvl : v ∉ l := fun hm => h.disjoint v hm (by simp)
  have hkeep : ∀ u, u ≠ v → (publish n v).wireAt ⟨u, 0⟩ = n.wireAt ⟨u, 0⟩ := fun u hu => by
    rw [publish_wireAt, if_neg fun he => hu (congrArg Port.node he).symm]
  refine ⟨.cons hlt hdead hvl ?_, ?_, fun u hu hm => ?_, ?_⟩
  · have hnext : ((publish n v).wireAt ⟨v, 0⟩).map (·.node) = n.freeHead := by
      rw [publish_wireAt, if_pos rfl, Option.map_map]
      exact Option.map_id'
    rw [hnext]
    exact h.free.mono le_rfl (fun u hu => (h.free.dead_of_mem hu).2) fun u hu => hkeep u fun he => hvl (he ▸ hu)
  · exact hrest.mono le_rfl (fun u hu => (hrest.dead_of_mem hu).2) fun u hu => hkeep u fun he => hnot (he ▸ hu)
  · rcases List.mem_cons.1 hu with rfl | hu
    · exact hnot hm
    · exact h.disjoint u hu (List.mem_cons_of_mem _ hm)
  · have hcount : (publish n v).nfree = n.nfree := rfl
    rw [hcount, h.count, List.length_cons, List.length_cons]
    push_cast
    ring

/-- What publishing leaves alone: all but the links of the pending slots. -/
structure Published (n m : Net) (l' : List ℕ) : Prop where
  wire : ∀ p : Port, p.node ∉ l' → m.wireAt p = n.wireAt p
  dead : ∀ v, m.dead.get v = n.dead.get v
  nn : m.nn = n.nn

lemma flushLoop_lists (fuel : ℕ) {n : Net} {l l' : List ℕ} (h : Lists n l l') (hfuel : l'.length ≤ fuel) :
    Lists (flushLoop fuel n) (l'.reverse ++ l) [] ∧ Published n (flushLoop fuel n) l' := by
  induction fuel generalizing n l l' with
  | zero =>
    obtain rfl := List.length_eq_zero_iff.1 (Nat.le_zero.1 hfuel)
    exact ⟨h, fun _ _ => rfl, fun _ => rfl, rfl⟩
  | succ fuel ih =>
    cases l' with
    | nil =>
      have hhead : n.pendHead = none := by
        have hpend := h.pend
        generalize n.pendHead = i at hpend
        cases hpend
        rfl
      simp only [flushLoop, hhead]
      exact ⟨h, fun _ _ => rfl, fun _ => rfl, rfl⟩
    | cons v l' =>
      have hhead : n.pendHead = some v := by
        have hpend := h.pend
        generalize n.pendHead = i at hpend
        cases hpend
        rfl
      have he : flushLoop (fuel + 1) n = flushLoop fuel (publish n v) := by
        simp only [flushLoop, hhead]
        rfl
      obtain ⟨hlists, hpub⟩ := ih (publish_lists h) (Nat.le_of_succ_le_succ hfuel)
      rw [he]
      refine ⟨by simpa using hlists, fun p hp => ?_, hpub.dead, hpub.nn⟩
      rw [List.mem_cons, not_or] at hp
      rw [hpub.wire p hp.2, publish_wireAt, if_neg fun he => hp.1 (congrArg Port.node he).symm]

lemma FreeChain.nodup {i : Option ℕ} {l : List ℕ} (h : FreeChain n i l) : l.Nodup := by
  induction h with
  | nil => exact List.nodup_nil
  | cons _ _ hnot _ ih => exact List.nodup_cons.2 ⟨hnot, ih⟩

lemma FreeChain.length_le {i : Option ℕ} {l : List ℕ} (h : FreeChain n i l) : l.length ≤ n.nn := by
  have hsub : l ⊆ List.range n.nn := fun v hv => List.mem_range.2 (h.dead_of_mem hv).1
  have hle := (List.subperm_of_subset h.nodup hsub).length_le
  rwa [List.length_range] at hle

lemma netFlushFree_tied (h : Tied S ⟨n, ∅, ∅⟩) : Tied S ⟨netFlushFree g n, ∅, ∅⟩ := by
  unfold netFlushFree
  split_ifs
  · exact h
  · obtain ⟨l, l', hlists, hs⟩ := h.lists
    obtain ⟨hout, hpub⟩ := flushLoop_lists n.nn hlists hlists.pend.length_le
    generalize flushLoop n.nn n = m at hout hpub ⊢
    have hlive : ∀ v, m.live v = n.live v := fun v => by
      simp only [Net.live, Net.inNet, hpub.nn, hpub.dead]
    have hoff : ∀ {q : Port}, Landing S n q → q.node ∉ l' := by
      rintro q (hq | ⟨hq, -⟩) hm
      · have hd := (hlists.pend.dead_of_mem hm).2
        rw [((Net.live_iff _).1 hq).2] at hd
        cases hd
      · exact (hs.off _ (.inr hm)).1 hq
    have hmem : ∀ v, v ∈ l'.reverse ++ l ↔ v ∈ l ∨ v ∈ l' := fun v => by
      rw [List.mem_append, List.mem_reverse, or_comm]
    refine ⟨fun x q hx _ hw => ?_, fun x hx => absurd hx (Set.notMem_empty x), fun v hv => ?_,
      fun v hv => absurd hv (Set.notMem_empty v), l'.reverse ++ l, [], hout.free, hout.pend, hout.disjoint, hout.count,
      fun v hv => ?_, fun v q hv hd hvl _ hw => ?_⟩
    · rw [hlive] at hx
      rw [hpub.wire x (hoff (.inl hx))] at hw
      obtain ⟨h1, h2, h3, h4⟩ := h.wire x q hx (Set.notMem_empty x) hw
      exact ⟨h1.mono fun hq => by rw [hlive, hq], h2, by rw [hpub.wire q (hoff h1), h3], h4⟩
    · rw [hpub.nn, hpub.dead]
      exact h.stub v hv
    · refine hs.off v ?_
      rcases hv with hv | hv
      · exact (hmem v).1 hv
      · cases hv
    · rw [hmem, not_or] at hvl
      rw [hpub.nn] at hv ⊢
      rw [hpub.dead] at hd ⊢
      rw [hpub.wire ⟨v, 0⟩ hvl.2] at hw
      obtain ⟨h1, h2, h3, h4, h5⟩ := hs.prin v q hv hd hvl.1 hvl.2 hw
      refine ⟨h1, h2, fun hm => ?_, List.not_mem_nil, by rw [hpub.wire q h4, h5]⟩
      exact ((hmem _).1 hm).elim h3 h4

/-! ## Collecting -/

lemma netGc_tied (h : Tied S ⟨n, ∅, ∅⟩) : Tied S ⟨netGc n, ∅, ∅⟩ := by
  by_cases hnn : n.nn ≤ 1
  · rw [netGc, if_pos hnn]
    exact h
  · have hswept := netGc_swept (Nat.lt_of_not_le hnn)
    generalize hl : doomed (reach n) n (List.range' 1 (n.nn - 1)) = d at hswept
    have hmem : ∀ v, v ∈ d ↔ v ≠ 0 ∧ n.live v = true ∧ ¬Reachable n v := fun v => hl ▸ mem_doomed
    obtain ⟨l, l', hlists, hs⟩ := h.lists
    generalize netGc n = m at hswept ⊢
    have hnn : m.nn = n.nn := by
      rw [hswept.frame]
      rfl
    have hpend : m.pendHead = n.pendHead := by
      rw [hswept.frame]
      rfl
    have hwire : ∀ p : Port, p.node ∉ d → m.wireAt p = n.wireAt p := fun p hp => hswept.wire p hp
    have hdead : ∀ v, m.dead.get v = (n.dead.get v || decide (v ∈ d)) := hswept.dead
    have hoff : ∀ v, n.dead.get v = true → v ∉ d := fun v hv hm => by
      have hlive := ((Net.live_iff v).1 ((hmem v).1 hm).2.1).2
      rw [hv] at hlive
      cases hlive
    have hstay : ∀ v, n.dead.get v = true → m.dead.get v = true := fun v hv => by rw [hdead, hv, Bool.true_or]
    have hlive : ∀ v, m.live v = true ↔ n.live v = true ∧ v ∉ d := fun v => by
      rw [Net.live_iff, Net.live_iff, hnn, hdead]
      simp [and_assoc]
    -- what a live anchor reaches stays, and so does what it is wired to
    have hreach : ∀ v, n.live v = true → v ∉ d → Reachable n v := by
      intro v hv hvd
      by_contra hno
      by_cases h0 : v = 0
      · subst h0
        exact hno ⟨0, by simp [anchors], hv, .refl⟩
      · exact hvd ((hmem v).2 ⟨h0, hv, hno⟩)
    have hnext : ∀ p q : Port, Reachable n p.node → n.wireAt p = some q → q.node ∉ d := by
      intro p q hp hq hm
      obtain ⟨u, hu, hul, hpath⟩ := hp
      obtain ⟨-, hql, hno⟩ := (hmem _).1 hm
      exact hno ⟨u, hu, hul, hpath.tail ⟨hql, p, q, rfl, hq, rfl⟩⟩
    have hfree := hswept.chain l (hlists.free.mono le_rfl (fun v hv => (hlists.free.dead_of_mem hv).2) fun _ _ => rfl)
    refine ⟨fun x q hx _ hw => ?_, fun x hx => absurd hx (Set.notMem_empty x), fun v hv => ?_,
      fun v hv => absurd hv (Set.notMem_empty v), d.reverse ++ l, l', hfree, ?_, fun v hv => ?_, ?_, fun v hv => ?_,
      fun v q hv hd hvl hvl' hw => ?_⟩
    · obtain ⟨hx, hxd⟩ := (hlive _).1 hx
      rw [hwire x hxd] at hw
      obtain ⟨h1, h2, h3, h4⟩ := h.wire x q hx (Set.notMem_empty x) hw
      have hqd := hnext x q (hreach _ hx hxd) hw
      exact ⟨h1.mono fun hq => (hlive _).2 ⟨hq, hqd⟩, h2, by rw [hwire q hqd, h3], h4⟩
    · rw [hnn]
      exact ⟨(h.stub v hv).1, hstay v (h.stub v hv).2⟩
    · rw [hpend]
      exact hlists.pend.mono hnn.ge (fun v hv => hstay v (hlists.pend.dead_of_mem hv).2)
        fun v hv => hwire _ (hoff v (hlists.pend.dead_of_mem hv).2)
    · rcases List.mem_append.1 hv with hv | hv
      · exact fun hm => hoff v (hlists.pend.dead_of_mem hm).2 (List.mem_reverse.1 hv)
      · exact hlists.disjoint v hv
    · have hcount : m.nfree = n.nfree + d.length := hswept.count
      rw [hcount, hlists.count, List.length_append, List.length_reverse]
      push_cast
      ring
    · rcases hv with hv | hv
      · rcases List.mem_append.1 hv with hv | hv
        · exact ⟨fun hS => hoff v (h.stub v hS).2 (List.mem_reverse.1 hv), Set.notMem_empty v⟩
        · exact hs.off v (.inl hv)
      · exact hs.off v (.inr hv)
    · rw [List.mem_append, List.mem_reverse, not_or] at hvl
      rw [hnn] at hv ⊢
      have hd' : n.dead.get v = true := by
        rw [hdead, decide_eq_false hvl.1, Bool.or_false] at hd
        exact hd
      rw [hwire ⟨v, 0⟩ hvl.1] at hw
      obtain ⟨h1, h2, h3, h4, h5⟩ := hs.prin v q hv hd' hvl.2 hvl' hw
      have hqd := hoff _ h2
      refine ⟨h1, hstay _ h2, fun hm => ?_, h4, by rw [hwire q hqd, h5]⟩
      rcases List.mem_append.1 hm with hm | hm
      · exact hqd (List.mem_reverse.1 hm)
      · exact h3 hm

/-! ## Runs -/

/-- A call on the net. Each may be made at its own nesting depth and thread mode, and the
net may be pinned or released in between. -/
inductive SlotCall
  | alloc (g : Globals) (t : Tag) (sc : ℕ)
  | interact (g : Globals) (p q : Port)
  | sever (g : Globals) (p : Port)
  | flush (g : Globals)
  | gc
  | pin (k : ℕ)

def SlotCall.run (n : Net) : SlotCall → Net
  | .alloc g t sc => (netAlloc g n t sc).2
  | .interact g p q => (netInteract g n p q).2
  | .sever g p => netSever g n p
  | .flush g => netFlushFree g n
  | .gc => netGc n
  | .pin k => { n with pins := k }

/-- Only live redexes are fired. -/
def SlotCall.Proper (n : Net) : SlotCall → Prop
  | .interact _ p q => redexLive n p q = true
  | _ => True

/-- The port to cut is not a wired port of a reclaimed slot. -/
def SlotCall.Safe (n : Net) : SlotCall → Prop
  | .sever _ p => Listed n p.node → n.wireAt p = none
  | _ => True

/-- The nets that proper calls reach from `n`, each call made where `P` allows it. -/
inductive Calls (P : Net → SlotCall → Prop) (n : Net) : Net → Prop
  | refl : Calls P n n
  | step {m : Net} {c : SlotCall} : Calls P n m → c.Proper m → P m c → Calls P n (c.run m)

lemma SlotCall.run_tied (h : Tied S ⟨n, ∅, ∅⟩) {c : SlotCall} (hc : c.Proper n) (hsafe : c.Safe n) :
    Tied S ⟨c.run n, ∅, ∅⟩ := by
  cases c with
  | alloc g t sc => exact h.alloc t sc
  | interact g p q => exact (netInteract_changes h hc).tied h
  | sever g p => exact netSever_tied h hsafe
  | flush g => exact netFlushFree_tied h
  | gc => exact netGc_tied h
  | pin k =>
    obtain ⟨l, l', hs⟩ := h.slots
    exact ⟨h.wire, h.loose, h.stub, h.limbo, l, l', hs.frame rfl rfl rfl rfl (fun _ => rfl) (fun _ _ => rfl) fun _ _ _ _ hq => hq⟩

lemma Calls.tied (h : Tied S ⟨n, ∅, ∅⟩) (hm : Calls (fun m c => c.Safe m) n m) : Tied S ⟨m, ∅, ∅⟩ := by
  induction hm with
  | refl => exact h
  | step _ hc hsafe ih => exact SlotCall.run_tied ih hc hsafe

/-- Both lists are sound, and an allocated slot was neither live nor pending and is on
neither list then. -/
structure SlotsSound (n : Net) : Prop where
  lists : ∃ l l', Lists n l l'
  alloc : ∀ (g : Globals) (t : Tag) (sc : ℕ) (l l' : List ℕ), Lists n l l' →
    n.live (netAlloc g n t sc).1 = false ∧ (netAlloc g n t sc).1 ∉ l' ∧
      ∃ k, Lists (netAlloc g n t sc).2 k l' ∧ (netAlloc g n t sc).1 ∉ k

lemma Tied.slotsSound (h : Tied S ⟨n, ∅, ∅⟩) : SlotsSound n := by
  obtain ⟨l, l', hlists, hs⟩ := h.lists
  refine ⟨⟨l, l', hlists⟩, fun g t sc k k' hk => ?_⟩
  obtain ⟨rfl, rfl⟩ := hlists.unique hk
  have ha := h.allocated (g := g) t sc
  obtain ⟨⟨c, hc, -, -⟩, -⟩ := hs.alloc g t sc (fun v hv => (h.stub v hv).1) fun v hv => absurd hv (Set.notMem_empty v)
  -- the new slot is live, and whatever is on a list is dead
  have hoff : ∀ {i : Option ℕ} {k : List ℕ}, FreeChain (netAlloc g n t sc).2 i k → (netAlloc g n t sc).1 ∉ k := by
    intro i k hk hm
    have hlive := ((Net.live_iff _).1 ha.isLive).2
    rw [(hk.dead_of_mem hm).2] at hlive
    cases hlive
  exact ⟨ha.fresh, hoff hc.pend, c, ⟨hc.free, hc.pend, hc.disjoint, hc.count⟩, hoff hc.free⟩

/-- In a run that cuts no wired port of a reclaimed slot the lists are sound throughout. -/
theorem freeLists_sound (h : Orderly n) (hm : Calls (fun m c => c.Safe m) n m) : SlotsSound m := by
  obtain ⟨S, h⟩ := h
  exact (hm.tied h).slotsSound

lemma blank_orderly : Orderly .blank := by
  refine ⟨∅, fun x q hx => ?_, fun x hx => absurd hx (Set.notMem_empty x), fun v hv => absurd hv (Set.notMem_empty v),
    fun v hv => absurd hv (Set.notMem_empty v), [], [], .nil, .nil, fun v hv => absurd hv List.not_mem_nil, rfl,
    fun v hv => ?_, fun v q hv => absurd hv (Nat.not_lt_zero v)⟩
  · exact absurd ((Net.live_iff x.node).1 hx).1 (Nat.not_lt_zero _)
  · exact ⟨Set.notMem_empty v, Set.notMem_empty v⟩

lemma netInit_orderly : Orderly netInit := by
  obtain ⟨S, h⟩ := blank_orderly
  exact ⟨S, h.alloc (g := .serial) .root 0⟩

/-- ROOT and two binders, which a collection then frees. -/
def twoFreed : Net := netGc (netAlloc .serial (netAlloc .serial netInit .lam 0).2 .lam 0).2

lemma twoFreed_calls (P : Net → SlotCall → Prop) (h : ∀ m c, (∀ g p, c ≠ .sever g p) → P m c) :
    Calls P netInit twoFreed := by
  refine .step (c := .gc) (.step (c := .alloc .serial .lam 0) (.step (c := .alloc .serial .lam 0) .refl trivial ?_) trivial ?_)
    trivial ?_ <;> exact h _ _ fun _ _ he => SlotCall.noConfusion he

theorem freeLists_sound_two : SlotsSound twoFreed :=
  freeLists_sound netInit_orderly <| twoFreed_calls _ fun m c hc => by
    cases c <;> first | trivial | exact absurd rfl (hc _ _)

/-- Cutting port 0 of the first free slot loses the second one. -/
theorem sever_truncates_free :
    ¬∀ n m, Orderly n → Calls (fun _ _ => True) n m → SlotsSound m := by
  intro h
  have hrun : Calls (fun _ _ => True) netInit (netSever .serial twoFreed ⟨2, 0⟩) :=
    .step (c := .sever .serial ⟨2, 0⟩) (twoFreed_calls _ fun _ _ _ => trivial) trivial trivial
  obtain ⟨l, l', hlists⟩ := (h _ _ netInit_orderly hrun).lists
  have hfree : FreeChain (netSever .serial twoFreed ⟨2, 0⟩) (some 2) [2] := .cons (by decide) (by decide) (by decide) .nil
  have hpend : (netSever .serial twoFreed ⟨2, 0⟩).pendHead = none := by decide
  have hcount : (netSever .serial twoFreed ⟨2, 0⟩).nfree = 2 := by decide
  obtain rfl : l = [2] := hlists.free.unique hfree
  obtain rfl : l' = [] := hlists.pend.unique (hpend ▸ .nil)
  rw [hlists.count] at hcount
  cases hcount

end Keep

end LinEngine
