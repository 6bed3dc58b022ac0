import LinEngine.Polarity
import LinEngine.Readers
import LinEngine.Reduce

/-!
# Forcing a value in place

While the net is pinned, or inside a reduction, no slot that a rule consumes is handed out
again. A wire between two nodes that survive such a reduction is therefore still there
after it, and `net_force_val` can find the value again through the consumer's end.
-/
namespace LinEngine

/-! ## Nothing is reclaimed -/

/-- The reduction runs inside another one, or on a pinned net. -/
def Sheltered (g : Globals) (n : Net) : Prop := 1 < g.reduceDepth ∨ n.pins ≠ 0

/-- A dead slot that is not handed out: off the free list, and off the pending list where
that is about to be published. -/
structure Spent (g : Globals) (n : Net) (v : ℕ) : Prop where
  lt : v < n.nn
  dead : n.dead.get v = true
  free : ∀ l, FreeChain n n.freeHead l → v ∉ l
  pend : g.reduceDepth ≤ 1 → ∀ l, FreeChain n n.pendHead l → v ∉ l

/-- Spent slots stay spent, a node that does not stay is spent, and wires between nodes that
stay are kept. -/
structure Lasting (g : Globals) (n m : Net) : Prop where
  spent : ∀ v, Spent g n v → Spent g m v
  gone : ∀ v, n.live v = true → m.live v = true ∨ Spent g m v
  wire : ∀ p q, n.live p.node = true → n.live q.node = true → n.wireAt p = some q → n.wireAt q = some p →
    m.live p.node = true → m.live q.node = true → m.wireAt p = some q

section Lasting

variable {S : Set ℕ} {g : Globals} {n m k : Net}

lemma Spent.not_live {v : ℕ} (h : Spent g n v) : n.live v ≠ true := fun hl =>
  Bool.false_ne_true (((Net.live_iff v).1 hl).2.symm.trans h.dead)

lemma Lasting.trans (h : Lasting g n m) (h' : Lasting g m k) : Lasting g n k := by
  have hstay : ∀ v, n.live v = true → k.live v = true → m.live v = true := fun v hn hk =>
    (h.gone v hn).resolve_right fun hs => (h'.spent v hs).not_live hk
  refine ⟨fun v hv => h'.spent v (h.spent v hv), fun v hv => ?_, fun p q hp hq hpq hqp hp' hq' => ?_⟩
  · rcases h.gone v hv with hl | hs
    · exact h'.gone v hl
    · exact .inr (h'.spent v hs)
  · have hpm := hstay _ hp hp'
    have hqm := hstay _ hq hq'
    exact h'.wire p q hpm hqm (h.wire p q hp hq hpq hqp hpm hqm) (h.wire q p hq hp hqp hpq hqm hpm) hp' hq'

lemma Lasting.sameGraph (h : SameGraph n m) : Lasting g n m := by
  have hchain : ∀ {i : Option ℕ} {l : List ℕ}, FreeChain m i l → FreeChain n i l := fun hl =>
    hl.mono h.nn.le (fun v hv => by rw [← h.dead, (hl.dead_of_mem hv).2]) fun v _ => (h.wireAt _).symm
  refine ⟨fun v hv => ⟨h.nn.ge.trans_lt' hv.lt, by rw [h.dead, hv.dead], fun l hl => hv.free l ?_, fun hg l hl => hv.pend hg l ?_⟩,
    fun v hv => .inl (by rw [h.live, hv]), fun p q _ _ hpq _ _ _ => by rw [h.wireAt, hpq]⟩
  · exact h.freeHead ▸ hchain hl
  · exact h.pendHead ▸ hchain hl

/-- A chain from the same head that ends in the other one is the other one. -/
lemma FreeChain.eq_of_suffix {i : Option ℕ} {l l' : List ℕ} (h : FreeChain n i l) (h' : FreeChain m i l') (hs : l <:+ l') :
    l = l' := by
  cases h with
  | nil =>
    cases h'
    rfl
  | cons _ _ _ _ =>
    obtain _ | ⟨_, _, hnot, _⟩ := h'
    rcases List.suffix_cons_iff.1 hs with he | he
    · exact he
    · exact absurd (he.subset (by simp)) hnot

/-- What goes onward with the pending list as it was, where that is published. -/
lemma Onward.lasting (h : Onward S ⟨n, ∅, ∅⟩ ⟨m, ∅, ∅⟩) (hn : Tied S ⟨n, ∅, ∅⟩)
    (hpend : g.reduceDepth ≤ 1 → m.pendHead = n.pendHead)
    (hwire : ∀ p q, n.live p.node = true → n.live q.node = true → n.wireAt p = some q → n.wireAt q = some p →
      m.live p.node = true → m.live q.node = true → m.wireAt p = some q) : Lasting g n m := by
  obtain ⟨l, l', hs⟩ := hn.slots
  obtain ⟨k, k', hk, hkl, hkl', hdead⟩ := h.lists l l' hs
  have hk' : g.reduceDepth ≤ 1 → k' = l' := fun hg =>
    (hs.pend.eq_of_suffix (hpend hg ▸ hk.pend) hkl').symm
  have hspent : ∀ v, v < n.nn → m.dead.get v = true → v ∉ l → (g.reduceDepth ≤ 1 → v ∉ l') → Spent g m v := by
    refine fun v hv hd hvl hvl' => ⟨hv.trans_le h.nn, hd, fun c hc hm => ?_, fun hg c hc hm => ?_⟩
    · rw [hc.unique hk.free] at hm
      exact hvl (hkl hm)
    · rw [hc.unique hk.pend, hk' hg] at hm
      exact hvl' hg hm
  refine ⟨fun v hv => ?_, fun v hv => ?_, hwire⟩
  · have hvl := hv.free l hs.free
    exact hspent v hv.lt (hdead v hv.lt hv.dead hvl) hvl fun hg => hv.pend hg l' hs.pend
  · obtain ⟨hvl, hvl'⟩ := hs.off_live hv
    have hlt := ((Net.live_iff v).1 hv).1
    cases hd : m.dead.get v with
    | false => exact .inl ((Net.live_iff v).2 ⟨hlt.trans_le h.nn, hd⟩)
    | true => exact .inr (hspent v hlt hd hvl fun _ => hvl')

lemma releaseLoop_live (fuel : ℕ) (st : List ℕ) (n : Net) {v : ℕ} (h : (releaseLoop fuel st n).live v = true) :
    n.live v = true := by
  induction fuel generalizing st n with
  | zero => exact h
  | succ fuel ih =>
    cases st with
    | nil => exact h
    | cons u st =>
      have hports : ∀ (ps : List Port) (s : Net × List ℕ), (ps.foldl releasePort s).1.live v = true → s.1.live v = true := by
        intro ps
        induction ps with
        | nil => exact fun _ h => h
        | cons p ps ihp => exact fun s h => (releasePort_clears s.1 s.2 p).live v (ihp _ h)
      rw [releaseLoop] at h
      have hpend := ih _ _ h
      rw [show (pendPush ((portsOf u).foldl releasePort (n, st)).1 u).live v =
        ((portsOf u).foldl releasePort (n, st)).1.live v from rfl] at hpend
      exact hports (portsOf u) (n, st) hpend

lemma retire_eq (g : Globals) (n : Net) (a b : ℕ) : retire g n a b =
    if decide (1 < g.reduceDepth) || (buryPair g n a b).pins != 0 || g.inParallel || g.noret then buryPair g n a b
    else releaseNow (releaseNow (buryPair g n a b) a) b := rfl

/-- The pair of a rule is dead when the rule is done. -/
lemma retire_live (g : Globals) (n : Net) (a b : ℕ) {v : ℕ} (h : (retire g n a b).live v = true) : v ≠ a ∧ v ≠ b := by
  have hbury : (buryPair g n a b).live v = true := by
    rw [retire_eq] at h
    split_ifs at h
    · exact h
    · exact releaseLoop_live _ _ _ (releaseLoop_live _ _ _ h)
  rw [(buryPair_same g n a b).live, Net.live_iff, markPair_dead] at hbury
  simp only [Bool.or_eq_false_iff, beq_eq_false_iff_ne] at hbury
  exact ⟨hbury.2.1.2, hbury.2.2⟩

lemma netInteract_live (g : Globals) (n : Net) (p q : Port) :
    (netInteract g n p q).2 = n ∨ ∀ v, (netInteract g n p q).2.live v = true → v ≠ p.node ∧ v ≠ q.node := by
  have htrivial : Primitive g fun _ _ => True := ⟨⟨fun _ => trivial, fun _ _ => trivial, fun _ _ _ => trivial,
    fun _ _ _ => trivial, fun _ _ => trivial, fun _ _ => trivial⟩, fun _ _ _ => trivial, fun _ _ => trivial⟩
  rcases htrivial.netInteract_cases n p q with h | ⟨m, a, b, -, hab, h⟩
  · exact .inl (by rw [h])
  · refine .inr fun v hv => ?_
    rw [h] at hv
    have hne := retire_live g m a b hv
    rcases hab with ⟨rfl, rfl⟩ | ⟨rfl, rfl⟩
    · exact hne
    · exact hne.symm

/-- On a pinned net nothing is freed, so the pending list stays. -/
lemma pinned_primitive (g : Globals) : Primitive g fun n m => n.pins ≠ 0 → m.pins = n.pins ∧ m.pendHead = n.pendHead where
  refl _ _ := ⟨rfl, rfl⟩
  trans h h' hp := by
    obtain ⟨h1, h2⟩ := h hp
    obtain ⟨h3, h4⟩ := h' (h1 ▸ hp)
    exact ⟨h3.trans h1, h4.trans h2⟩
  wire _ _ _ _ := ⟨rfl, rfl⟩
  push n a b _ := ⟨(actPush_same n a b).pins, (actPush_same n a b).pendHead⟩
  thread _ _ _ := ⟨rfl, rfl⟩
  alloc n t sc _ := by
    rcases netAlloc_cases g n t sc with h | ⟨id, -, -, h⟩ <;> rw [h] <;> exact ⟨rfl, rfl⟩
  release n v hp := by
    unfold netRelease
    split_ifs with h1 h2 h3
    · exact ⟨rfl, rfl⟩
    · exact ⟨rfl, rfl⟩
    · exact ⟨rfl, rfl⟩
    · simp [hp] at h3
  levels _ _ _ := ⟨rfl, rfl⟩

lemma netInteract_pinned (g : Globals) (n : Net) (p q : Port) (hp : n.pins ≠ 0) :
    (netInteract g n p q).2.pendHead = n.pendHead := by
  rcases (pinned_primitive g).netInteract_cases n p q with h | ⟨m, a, b, hm, -, h⟩
  · rw [h]
  · obtain ⟨hpins, hpend⟩ := hm hp
    have hbury := buryPair_same g m a b
    have hstay : (buryPair g m a b).pins ≠ 0 := by
      rw [hbury.pins]
      exact hpins ▸ hp
    rw [h, retire_eq, if_pos (by simp [hstay]), hbury.pendHead]
    exact hpend

end Lasting

/-! ## Reductions -/

/-- A tied net that the reduction from `n` has come to, with all that it keeps. -/
structure Going (S : Set ℕ) (g : Globals) (n m : Net) : Prop where
  tied : Tied S ⟨m, ∅, ∅⟩
  lasting : Lasting g n m
  pins : m.pins = n.pins

section Going

variable {S : Set ℕ} {g : Globals} {n m k : Net} {r : Run}

lemma Going.trans (h : Going S g n m) (h' : Going S g m k) : Going S g n k :=
  ⟨h'.tied, h.lasting.trans h'.lasting, h'.pins.trans h.pins⟩

lemma going_sameGraph (hn : Tied S ⟨n, ∅, ∅⟩) (h : SameGraph n m) (hnfree : m.nfree = n.nfree) : Going S g n m :=
  ⟨hn.sameGraph h hnfree, .sameGraph h, h.pins⟩

lemma Going.refl (hn : Tied S ⟨n, ∅, ∅⟩) : Going S g n n := going_sameGraph hn (.refl n) rfl

lemma Going.sheltered (h : Going S g n m) (hg : Sheltered g n) : Sheltered g m := hg.imp_right fun hp => h.pins ▸ hp

lemma going_interact (hn : Tied S ⟨n, ∅, ∅⟩) (hg : Sheltered g n) {p q : Port} (hr : redexLive n p q = true) :
    Going S g n (netInteract g n p q).2 := by
  have hc := netInteract_changes (g := g) hn hr
  refine ⟨hc.tied hn, (hc.onward hn).lasting hn (fun hdepth => netInteract_pinned g n p q (hg.resolve_left (by omega)))
    fun x y hx hy hxy hyx hx' hy' => ?_, (netInteract_roots g n p q).2.1⟩
  rcases netInteract_live g n p q with he | hfired
  · rw [he, hxy]
  · have hpair : Mated {x, y} n := by
      rintro z (rfl | rfl)
      · exact ⟨y, by simp, hxy, hyx⟩
      · exact ⟨x, by simp, hyx, hxy⟩
    obtain ⟨l, l', hs⟩ := hn.slots
    have hsealed := netInteract_sealed (g := g) (fun a b ha hw => (hn.wire a b ha (Set.notMem_empty a) hw).2.2.1) ⟨l, hs.free⟩
      hpair (by rintro z (rfl | rfl) <;> assumption) hr fun z hz => by
        rcases hz with rfl | rfl
        · exact hfired _ hx'
        · exact hfired _ hy'
    rw [hsealed.wire x (by simp), hxy]

/-- On a pinned net the slots that were pending are published. -/
lemma going_flush (hn : Tied S ⟨n, ∅, ∅⟩) : Going S g n (netFlushFree g n) := by
  refine ⟨netFlushFree_tied hn, ?_, (roots_netFlushFree g n).pins⟩
  unfold netFlushFree
  split_ifs with hdepth
  · exact (Going.refl hn).lasting
  · obtain ⟨l, l', hlists, hs⟩ := hn.lists
    obtain ⟨hout, hpub⟩ := flushLoop_lists n.nn hlists hlists.pend.length_le
    generalize flushLoop n.nn n = m at hout hpub ⊢
    have hlive : ∀ v, m.live v = n.live v := fun v => by
      simp only [Net.live, Net.inNet, hpub.nn, hpub.dead]
    refine ⟨fun v hv => ⟨hpub.nn ▸ hv.lt, by rw [hpub.dead, hv.dead], fun c hc hm => ?_, fun _ c hc hm => ?_⟩,
      fun v hv => .inl (by rw [hlive, hv]), fun p q hp _ hpq _ _ _ => ?_⟩
    · rw [hc.unique hout.free, List.mem_append, List.mem_reverse] at hm
      rcases hm with hm | hm
      · exact hv.pend (by omega) l' hlists.pend hm
      · exact hv.free l hlists.free hm
    · rw [hc.unique hout.pend] at hm
      cases hm
    · rw [hpub.wire p (hs.off_live hp).2, hpq]

lemma fireStep_going (hr : Tied S ⟨r.net, ∅, ∅⟩) (hg : Sheltered g r.net) (a : Port × Port) :
    Going S g r.net (fireStep g r a).net := by
  unfold fireStep
  by_cases hlive : redexLive r.net a.1 a.2 = true
  swap
  · rw [if_pos (by simpa using hlive)]
    exact .refl hr
  rw [if_neg (by simpa using hlive)]
  have hfire := going_interact hr hg hlive
  dsimp only
  generalize netInteract g r.net a.1 a.2 = i at hfire ⊢
  have hqueue : SameGraph i.2 (if i.1 then i.2 else if bothAlive i.2 a then actPush i.2 a.1 a.2 else i.2) ∧
      (if i.1 then i.2 else if bothAlive i.2 a then actPush i.2 a.1 a.2 else i.2).nfree = i.2.nfree := by
    split_ifs
    · exact ⟨.refl _, rfl⟩
    · exact ⟨actPush_same _ _ _, actPush_nfree _ _ _⟩
    · exact ⟨.refl _, rfl⟩
  refine hfire.trans ((going_sameGraph hfire.tied hqueue.1 hqueue.2).trans ?_)
  exact going_sameGraph (hfire.tied.sameGraph hqueue.1 hqueue.2) ⟨rfl, rfl, rfl, rfl, rfl, rfl, rfl, rfl, rfl⟩ rfl

lemma fireAll_going (as : List (Port × Port)) (hr : Tied S ⟨r.net, ∅, ∅⟩) (hg : Sheltered g r.net) :
    Going S g r.net (as.foldl (fireStep g) r).net := by
  induction as generalizing r with
  | nil => exact .refl hr
  | cons a as ih =>
    have hstep := fireStep_going hr hg a
    exact hstep.trans (ih hstep.tied (hstep.sheltered hg))

lemma reduceWave_going (hr : Tied S ⟨r.net, ∅, ∅⟩) (hg : Sheltered g r.net) : Going S g r.net (reduceWave g r).net := by
  have hmark := netMarkDemand_marked g r.net
  have hstart := going_sameGraph (g := g) hr hmark.graph hmark.nfree
  unfold reduceWave
  dsimp only
  generalize netMarkDemand g r.net = d at hstart ⊢
  have hfire := fireAll_going (r := ⟨d.1, r.changed, r.gone⟩)
    (d.2.filter fun a => d.1.dem.get a.1.node == d.1.demStamp && d.1.dem.get a.2.node == d.1.demStamp)
    hstart.tied (hstart.sheltered hg)
  exact (hstart.trans hfire).trans (going_flush hfire.tied)

lemma reduceWaves_going (limit fuel : ℕ) (hr : Tied S ⟨r.net, ∅, ∅⟩) (hg : Sheltered g r.net) :
    Going S g r.net (reduceWaves g limit fuel r).net := by
  induction fuel generalizing r with
  | zero => exact .refl hr
  | succ fuel ih =>
    have hwave := reduceWave_going hr hg
    unfold reduceWaves
    split_ifs
    · extract_lets w
      split_ifs
      · exact hwave
      · exact hwave.trans (ih hwave.tied (hwave.sheltered hg))
    · exact .refl hr

/-- The safepoint is for the outermost reduction on a net that is not pinned. -/
lemma Sheltered.collects (hg : Sheltered g n) (mark : ℤ) : collects g mark n = false := by
  rcases hg with hdepth | hpins
  · have hne : (g.reduceDepth == 1) = false := beq_eq_false_iff_ne.2 (by omega)
    simp [LinEngine.collects, hne]
  · have hne : (n.pins == 0) = false := beq_eq_false_iff_ne.2 hpins
    simp [LinEngine.collects, hne]

lemma reduceLoop_going (limit fuel : ℕ) (mark : ℤ) (hr : Tied S ⟨r.net, ∅, ∅⟩) (hg : Sheltered g r.net) :
    Going S g r.net (reduceLoop g limit fuel mark r).net := by
  induction fuel generalizing mark r with
  | zero => exact .refl hr
  | succ fuel ih =>
    unfold reduceLoop
    split_ifs with hlimit
    · have hwaves := reduceWaves_going (r := { r with changed := 0 }) limit (limit - r.net.steps) hr hg
      have hgc := (hwaves.sheltered hg).collects mark
      extract_lets w gc w' mark'
      have hw' : w' = w := by
        have hfalse : gc = false := hgc
        simp only [w', hfalse, Bool.false_eq_true, if_false]
      rw [hw']
      split_ifs
      · exact hwaves
      · exact hwaves.trans (ih _ hwaves.tied (hwaves.sheltered hg))
    · exact .refl hr

/-- A force from inside a reduction, or on a pinned net. -/
lemma netForce_going (hn : Tied S ⟨n, ∅, ∅⟩) (hg : 0 < g.reduceDepth ∨ n.pins ≠ 0) (gcenv : Option ℕ) (p : Port) :
    Going S { g with reduceDepth := g.reduceDepth + 1 } n (netForce g gcenv n p) := by
  unfold netForce
  split_ifs
  · exact .refl hn
  · have hroot : SameGraph n (linDemand n p) ∧ (linDemand n p).nfree = n.nfree := by
      unfold linDemand
      split_ifs
      · exact ⟨.refl n, rfl⟩
      · exact ⟨.refl n, rfl⟩
      · exact ⟨⟨rfl, rfl, rfl, rfl, rfl, rfl, rfl, rfl, rfl⟩, rfl⟩
    have hstart := going_sameGraph (g := { g with reduceDepth := g.reduceDepth + 1 }) hn hroot.1 hroot.2
    have hshelter : Sheltered { g with reduceDepth := g.reduceDepth + 1 } n := hg.imp_left Nat.succ_lt_succ
    have hloop := reduceLoop_going (r := ⟨linDemand n p, 0, []⟩) (n.steps + forceSteps)
      (n.steps + forceSteps - (linDemand n p).steps) (firstMark gcenv (linDemand n p)) hstart.tied
      (hstart.sheltered hshelter)
    have hrun : Going S { g with reduceDepth := g.reduceDepth + 1 } n (forceRun g gcenv n p).net :=
      (hstart.trans hloop).trans (going_flush hloop.tied)
    exact hrun.trans (going_sameGraph hrun.tied ⟨rfl, rfl, rfl, rfl, rfl, rfl, rfl, rfl, rfl⟩ rfl)

end Going

/-! ## Re-aiming through the consumer -/

section Names

variable {S : Set ℕ} {g : Globals} {n m : Net}

/-- Where no live port is wired to a dead node, no placeholder matters. -/
lemma Tied.noStub (h : Tied S ⟨n, ∅, ∅⟩) (hw : ∀ p q, n.live p.node = true → n.wireAt p = some q → n.live q.node = true) :
    Tied ∅ ⟨n, ∅, ∅⟩ := by
  obtain ⟨l, l', hs⟩ := h.slots
  refine ⟨fun p q hp hl hq => ?_, h.loose, fun v hv => absurd hv (Set.notMem_empty v), fun v hv => absurd hv (Set.notMem_empty v),
    l, l', hs.free, hs.pend, hs.disjoint, hs.count, fun v hv => ⟨Set.notMem_empty v, Set.notMem_empty v⟩, hs.prin⟩
  obtain ⟨-, h2, h3, h4⟩ := h.wire p q hp hl hq
  exact ⟨.inl (hw p q hp hq), h2, h3, h4⟩

/-- The loop keeps aiming at what the consumer `s` holds. -/
lemma netForceVal_spec (gcenv : Option ℕ) (fuel i : ℕ) {n : Net} {p s : Port} {q : Option Port}
    (hn : Tied ∅ ⟨n, ∅, ∅⟩) (hg : 0 < g.reduceDepth ∨ n.pins ≠ 0) (hs : n.live s.node = true) (hsp : n.wireAt s = some p)
    (hrun : netForceVal (netForce g gcenv) fuel i (some p) n = some (q, m)) (hsm : m.live s.node = true)
    (hwm : m.wireAt s ≠ none) : ∃ x, q = some x ∧ m.live x.node = true ∧ m.wireAt s = some x := by
  induction fuel generalizing i n p with
  | zero => cases hrun
  | succ fuel ih =>
    obtain ⟨hland, -, hps, hne⟩ := hn.wire s p hs (Set.notMem_empty s) hsp
    have hp : n.live p.node = true := hland.resolve_right fun h => Set.notMem_empty _ h.1
    obtain ⟨hplt, hpd⟩ := (Net.live_iff _).1 hp
    have hstop : ∀ {k : Net}, some (some p, k) = some (q, m) → k.live p.node = true → k.wireAt s = some p →
        ∃ x, q = some x ∧ m.live x.node = true ∧ m.wireAt s = some x := by
      intro k he hl hw
      obtain ⟨rfl, rfl⟩ := Prod.mk.inj (Option.some.inj he)
      exact ⟨p, rfl, hl, hw⟩
    simp only [netForceVal, Read.bind_eq, Read.get_eq, Option.bind_some] at hrun
    by_cases hend : n.nn ≤ i ∨ n.nn ≤ p.node
    · rw [if_pos hend] at hrun
      exact hstop hrun hp hsp
    · rw [if_neg hend] at hrun
      simp only [hpd, Bool.false_eq_true, if_false, Read.bind_eq, Read.set_eq, Option.bind_some, hps] at hrun
      have hforce := netForce_going hn hg gcenv p
      generalize netForce g gcenv n p = k at hrun hforce
      cases hpk : k.dead.get p.node with
      | false =>
        simp only [hpk, Bool.not_false, if_true] at hrun
        obtain rfl : k = m := (Prod.mk.inj (Option.some.inj hrun)).2
        have hpl : k.live p.node = true := by
          rcases hforce.lasting.gone p.node hp with hl | hspent
          · exact hl
          · rw [hspent.dead] at hpk
            cases hpk
        exact hstop hrun hpl (hforce.lasting.wire s p hs hp hsp hps hsm hpl)
      | true =>
        have hpdead : k.live p.node = false := by simp [Net.live, hpk]
        simp only [hpk, Bool.not_true, Bool.false_eq_true, if_false] at hrun
        cases hsk : k.live s.node with
        | false =>
          simp only [hsk, Bool.false_eq_true, if_false, Option.any_none, Bool.not_false, true_or, if_true] at hrun
          obtain rfl : k = m := (Prod.mk.inj (Option.some.inj hrun)).2
          rw [hsk] at hsm
          cases hsm
        | true =>
          simp only [hsk, if_true] at hrun
          cases hwk : k.wireAt s with
          | none =>
            simp only [hwk, Option.any_none, Bool.not_false, true_or, if_true] at hrun
            obtain rfl : k = m := (Prod.mk.inj (Option.some.inj hrun)).2
            exact absurd hwk hwm
          | some x =>
            have hx : k.live x.node = true :=
              (hforce.tied.wire s x hsk (Set.notMem_empty s) hwk).1.resolve_right fun h => Set.notMem_empty _ h.1
            have hxp : x ≠ p := by
              rintro rfl
              rw [hpdead] at hx
              cases hx
            have hgo : ¬((!Option.any (fun v => k.live v.node) (some x)) = true ∨ some x = some p) := by simp [hx, hxp]
            rw [hwk, if_neg hgo] at hrun
            exact ih (i + 1) hforce.tied (hg.imp_right fun hpins => hforce.pins ▸ hpins) hsk hwk hrun

/-- After a force of any port that a live port `s` holds, the result is what `s` then holds, if `s` is
live and connected. -/
def Names (force : Net → Port → Net) (n : Net) : Prop :=
  ∀ (fuel : ℕ) (p s : Port) (q : Option Port) (m : Net), n.wireAt p = some s → n.wireAt s = some p → n.live s.node = true →
    netForceVal force fuel 0 (some p) n = some (q, m) → m.live s.node = true → m.wireAt s ≠ none →
    ∃ x, q = some x ∧ m.live x.node = true ∧ m.wireAt s = some x

/-- A net that the core comes to from a compiled net with mutual wires: by calls of the net's
operations but cuts, and by anything that only touches the queue, the demand or the counters. -/
inductive FromCompile : Net → Prop
  | compile {t : Term} {n : Net} : compile t = .ok n → Symmetric n → FromCompile n
  | call {n : Net} {c : SlotCall} : FromCompile n → c.Proper n → (∀ g p, c ≠ .sever g p) → FromCompile (c.run n)
  | marks {n m : Net} : FromCompile n → SameGraph n m → m.nfree = n.nfree → FromCompile m

lemma FromCompile.orderly (h : FromCompile n) : Orderly n := by
  induction h with
  | compile hc hs => exact (compile_polar hc).orderly hs
  | @call n c _ hc hno ih =>
    obtain ⟨S, hn⟩ := ih
    refine ⟨S, SlotCall.run_tied hn hc ?_⟩
    cases c with
    | sever g p => exact absurd rfl (hno g p)
    | _ => trivial
  | marks _ hm hnfree ih =>
    obtain ⟨S, hn⟩ := ih
    exact ⟨S, hn.sameGraph hm hnfree⟩

/-- Inside a reduction, or on a pinned net, forced values are named through the consumer's end
exactly when no live port is wired to a dead node. -/
theorem netForceVal_names_iff (h : FromCompile n) (hg : 0 < g.reduceDepth ∨ n.pins ≠ 0) (gcenv : Option ℕ) :
    Names (netForce g gcenv) n ↔ ∀ p q, n.live p.node = true → n.wireAt p = some q → n.live q.node = true := by
  obtain ⟨S, hn⟩ := h.orderly
  constructor
  · intro hnames p q hp hq
    obtain ⟨hland, -, hback, -⟩ := hn.wire p q hp (Set.notMem_empty p) hq
    have hlt : q.node < n.nn := hn.landing_lt hland
    cases hd : n.dead.get q.node with
    | false => exact (Net.live_iff _).2 ⟨hlt, hd⟩
    | true =>
      have hdead : n.live q.node = false := by simp [Net.live, hd]
      have hpos : 0 < n.nn := Nat.zero_lt_of_lt hlt
      have hrun : netForceVal (netForce g gcenv) 1 0 (some q) n = some (some q, n) := by
        simp only [netForceVal, Read.bind_eq, Read.get_eq, Option.bind_some]
        rw [if_neg (by omega)]
        simp [Read.bind_eq, Read.set_eq, Read.pure_eq, hd, hback, hp, hq, hdead]
      obtain ⟨x, hx, hlive, -⟩ := hnames 1 q p (some q) n hback hq hp hrun hp (by rw [hq]; exact Option.some_ne_none q)
      obtain rfl := Option.some.inj hx
      exact hlive
  · intro hlive fuel p s q m _ hsp hs hrun hsm hwm
    exact netForceVal_spec gcenv fuel 0 (hn.noStub hlive) hg hs hsp hrun hsm hwm

/-- Every wire of a live port leads back. -/
def symmetricCheck (n : Net) : Bool :=
  (List.range n.nn).all fun v => !n.live v || (portsOf v).all fun p =>
    match n.wireAt p with
    | none => true
    | some q => n.wireAt q == some p

lemma symmetric_of_check {n : Net} (h : symmetricCheck n = true) : Symmetric n := by
  intro p q hl hw
  have hv : p.node < n.nn := ((Net.live_iff _).mp hl).1
  rw [symmetricCheck, List.all_eq_true] at h
  have h1 := h p.node (List.mem_range.mpr hv)
  rw [hl, Bool.not_true, Bool.false_or, List.all_eq_true] at h1
  have h2 := h1 p (mem_portsOf.mpr rfl)
  simpa only [hw, beq_iff_eq] using h2

lemma fromCompile_of_check (t : Term) (ht : (compile t).toOption.isSome = true)
    (h : symmetricCheck ((compile t).toOption.getD netInit) = true) : FromCompile ((compile t).toOption.getD netInit) := by
  refine .compile (t := t) ?_ (symmetric_of_check h)
  cases hc : compile t with
  | error e =>
    rw [hc] at ht
    cases ht
  | ok n => rfl

end Names

/-- The engine inside a reduction. -/
def Globals.nested : Globals := { Globals.serial with reduceDepth := 1 }

theorem netForceVal_names_identity : Names (netForce .nested none) identityNet :=
  (netForceVal_names_iff (n := identityNet) (fromCompile_of_check identityTwice (by decide +kernel) (by decide +kernel))
    (.inl (by decide)) none).2 (fun p q hp hq => (wired_of_check (n := identityNet) (by decide) p q hp hq).1)

/-- `((\x.x) (let ((f (\y.y))) (let ((h f)) f)))`: the argument is a use of `f` that the
enclosing let counts as its second one. -/
def stubTerm : Term := .app (.lam "x" (.var "x")) (.tlet "f" (.lam "y" (.var "y")) (.tlet "h" (.var "f") (.var "f")))

def stubNet : Net := (compile stubTerm).toOption.getD netInit

/-- The application ends with ROOT wired to the placeholder, and its result is not re-aimed. -/
theorem netForceVal_stub : FromCompile stubNet ∧ ¬Names (netForce .nested none) stubNet := by
  refine ⟨fromCompile_of_check stubTerm (by decide +kernel) (by decide +kernel), fun h => ?_⟩
  have hrun : ((netForceVal (netForce .nested none) 2 0 (some ⟨1, 1⟩) stubNet).map fun r =>
      (r.1, r.2.live 0, r.2.live 1, r.2.wireAt ⟨0, 0⟩)) = some (some ⟨1, 1⟩, true, false, some ⟨6, 1⟩) := by
    decide +kernel
  cases hr : netForceVal (netForce .nested none) 2 0 (some ⟨1, 1⟩) stubNet with
  | none =>
    rw [hr] at hrun
    cases hrun
  | some r =>
    rw [hr, Option.map_some, Option.some_inj] at hrun
    simp only [Prod.mk.injEq] at hrun
    obtain ⟨hq, hs, hp, hw⟩ := hrun
    obtain ⟨x, hx, hlive, -⟩ := h 2 ⟨1, 1⟩ ⟨0, 0⟩ r.1 r.2 (by decide +kernel) (by decide +kernel) (by decide +kernel) hr hs
      (by rw [hw]; exact Option.some_ne_none _)
    obtain rfl := Option.some.inj (hx.symm.trans hq)
    rw [hp] at hlive
    cases hlive

end LinEngine
