import LinEngine.Commute

/-!
# What firing leaves of a sealed set of wires

A set of ports is mated when every one of them is wired with another of the set. Each
primitive of `net.c` that is asked about ports outside the set leaves its wires and its
nodes alone: a cut is guarded by the wire back, a node is freed only when its last live
wire is gone, and an allocated slot was not live. So does a rule on a pair outside. The
trie, the queue, the pins and the thread mode do not matter.
-/
namespace LinEngine

/-- Every port of the set is wired both ways with a port of the set. -/
def Mated (I : Set Port) (n : Net) : Prop := ∀ p ∈ I, ∃ q ∈ I, n.wireAt p = some q ∧ n.wireAt q = some p

/-- The nodes of a set of ports. -/
def nodesOf (I : Set Port) : Set ℕ := {v | ∃ p ∈ I, p.node = v}

/-- `n'` has the nodes and the wires that `I` has in `n`, and no other port of these nodes
leads into `I`. -/
structure Sealed (I : Set Port) (n n' : Net) : Prop where
  live : ∀ v ∈ nodesOf I, n'.live v = true
  tag : ∀ v ∈ nodesOf I, n'.tag.get v = n.tag.get v
  wire : ∀ p ∈ I, n'.wireAt p = n.wireAt p
  away : ∀ p q, p.node ∈ nodesOf I → p ∉ I → n'.wireAt p = some q → q ∉ I

section Primitives

variable {I : Set Port} {g : Globals} {n m : Net}

lemma mem_nodesOf {p : Port} (h : p ∈ I) : p.node ∈ nodesOf I := ⟨p, h, rfl⟩

lemma not_mem_of_node {p : Port} (h : p.node ∉ nodesOf I) : p ∉ I := fun hp => h (mem_nodesOf hp)

/-- A port that is wired back to a port outside the set is outside. -/
lemma Sealed.back (h : Sealed I n m) (hI : Mated I n) {p w : Port} (hp : p ∉ I)
    (hw : m.wireAt w = some p) : w ∉ I := by
  intro hmem
  rcases hI w hmem with ⟨q, hq, hwq, -⟩
  rw [h.wire w hmem, hwq] at hw
  exact hp (Option.some.inj hw ▸ hq)

lemma Sealed.degLive_ne (h : Sealed I n m) (hI : Mated I n) {v : ℕ} (hv : v ∈ nodesOf I) : degLive m v ≠ 0 := by
  rcases hv with ⟨p, hp, rfl⟩
  rcases hI p hp with ⟨q, hq, hpq, -⟩
  intro hzero
  have hdead := degLive_eq_zero.1 hzero p rfl q (by rw [h.wire p hp, hpq])
  rw [h.live _ (mem_nodesOf hq)] at hdead
  cases hdead

lemma Sealed.sameGraph (h : Sealed I n m) {m' : Net} (hs : SameGraph m m') : Sealed I n m' where
  live v hv := by rw [hs.live, h.live v hv]
  tag v hv := by rw [hs.tag, h.tag v hv]
  wire p hp := by rw [hs.wireAt, h.wire p hp]
  away p q hv hp hw := h.away p q hv hp (by rwa [hs.wireAt] at hw)

/-- Writing the wire of a port outside the set; a node of the set is not made to lead into it. -/
lemma Sealed.setWire (h : Sealed I n m) {p : Port} (hp : p ∉ I) {w : Option Port}
    (hw : p.node ∈ nodesOf I → ∀ q, w = some q → q ∉ I) : Sealed I n (m.setWire p w) where
  live v hv := h.live v hv
  tag v hv := h.tag v hv
  wire q hq := by
    have hne : p ≠ q := fun he => hp (he ▸ hq)
    rw [Net.wireAt_setWire, if_neg hne, h.wire q hq]
  away q x hv hq hx := by
    rw [Net.wireAt_setWire] at hx
    split_ifs at hx with he
    · exact hw (he ▸ hv) x hx
    · exact h.away q x hv hq hx

lemma Sealed.cut (h : Sealed I n m) {p : Port} (hp : p ∉ I) : Sealed I n (m.setWire p none) :=
  h.setWire hp fun _ q hq => by cases hq

lemma Sealed.netLink (h : Sealed I n m) {a b : Option Port} (ha : ∀ p, a = some p → p ∉ I)
    (hb : ∀ p, b = some p → p ∉ I) (e : Bool) : Sealed I n (netLink g m a b e) := by
  cases a with
  | none => exact h
  | some a =>
    cases b with
    | none => exact h
    | some b =>
      have hset : Sealed I n ((m.setWire a (some b)).setWire b (some a)) :=
        (h.setWire (ha a rfl) fun _ => hb).setWire (hb b rfl) fun _ => ha
      simp only [LinEngine.netLink]
      split_ifs
      · exact ⟨hset.live, hset.tag, hset.wire, hset.away⟩
      · exact hset.sameGraph (actPush_same _ a b)
      · exact hset

/-- Marking a node outside the set dead. -/
lemma Sealed.markDead (h : Sealed I n m) {v : ℕ} (hv : v ∉ nodesOf I) :
    Sealed I n { m with dead := m.dead.set v true } where
  live u hu := by
    have hne : v ≠ u := fun he => hv (he ▸ hu)
    have hlive := (Net.live_iff u).1 (h.live u hu)
    exact (Net.live_iff u).2 ⟨hlive.1, by simpa [hne] using hlive.2⟩
  tag u hu := h.tag u hu
  wire p hp := h.wire p hp
  away p q hu hp hw := h.away p q hu hp hw

lemma Sealed.releasePort (h : Sealed I n m) (hI : Mated I n) {st : List ℕ} (hst : ∀ v ∈ st, v ∉ nodesOf I)
    {p : Port} (hp : p.node ∉ nodesOf I) :
    Sealed I n (releasePort (m, st) p).1 ∧ ∀ v ∈ (releasePort (m, st) p).2, v ∉ nodesOf I := by
  have hcut := h.cut (not_mem_of_node hp)
  simp only [LinEngine.releasePort]
  cases hw : m.wireAt p with
  | none => exact ⟨hcut, hst⟩
  | some w =>
    dsimp only
    split_ifs with hin hback hfree hfree
    · have hcut' := hcut.cut (hcut.back hI (not_mem_of_node hp) hback)
      have hv : w.node ∉ nodesOf I := fun hv =>
        hcut'.degLive_ne hI hv (beq_iff_eq.1 (Bool.and_eq_true_iff.1 hfree).2)
      exact ⟨hcut'.markDead hv, List.forall_mem_cons.2 ⟨hv, hst⟩⟩
    · exact ⟨hcut.cut (hcut.back hI (not_mem_of_node hp) hback), hst⟩
    · have hv : w.node ∉ nodesOf I := fun hv =>
        hcut.degLive_ne hI hv (beq_iff_eq.1 (Bool.and_eq_true_iff.1 hfree).2)
      exact ⟨hcut.markDead hv, List.forall_mem_cons.2 ⟨hv, hst⟩⟩
    · exact ⟨hcut, hst⟩
    · exact ⟨hcut, hst⟩

lemma Sealed.releasePorts (hI : Mated I n) (ps : List Port) (hps : ∀ p ∈ ps, p.node ∉ nodesOf I)
    {s : Net × List ℕ} (h : Sealed I n s.1) (hst : ∀ v ∈ s.2, v ∉ nodesOf I) :
    Sealed I n (ps.foldl LinEngine.releasePort s).1 ∧ ∀ v ∈ (ps.foldl LinEngine.releasePort s).2, v ∉ nodesOf I := by
  induction ps generalizing s with
  | nil => exact ⟨h, hst⟩
  | cons p ps ih =>
    rw [List.forall_mem_cons] at hps
    have hstep := h.releasePort hI hst hps.1
    exact ih hps.2 hstep.1 hstep.2

lemma Sealed.pendPush (h : Sealed I n m) {v : ℕ} (hv : v ∉ nodesOf I) : Sealed I n (pendPush m v) := by
  have htag : Sealed I n { m with tag := m.tag.set v .era } :=
    ⟨h.live, fun u hu => by
      have hne : v ≠ u := fun he => hv (he ▸ hu)
      simpa [hne] using h.tag u hu, h.wire, h.away⟩
  have hset := htag.setWire (p := ⟨v, 0⟩) (w := m.pendHead.map (⟨·, 0⟩)) (not_mem_of_node hv)
    fun hmem => absurd hmem hv
  exact ⟨hset.live, hset.tag, hset.wire, hset.away⟩

lemma Sealed.releaseLoop (hI : Mated I n) (fuel : ℕ) (st : List ℕ) (hst : ∀ v ∈ st, v ∉ nodesOf I)
    (h : Sealed I n m) : Sealed I n (releaseLoop fuel st m) := by
  induction fuel, st, m using LinEngine.releaseLoop.induct with
  | case1 => exact h
  | case2 => exact h
  | case3 fuel u st m s ih =>
    rw [List.forall_mem_cons] at hst
    have hout : ∀ p ∈ portsOf u, p.node ∉ nodesOf I := fun p hp => mem_portsOf.1 hp ▸ hst.1
    have hports := Sealed.releasePorts (s := (m, st)) hI (portsOf u) hout h hst.2
    exact ih hports.2 (hports.1.pendPush hst.1)

lemma Sealed.releaseNow (h : Sealed I n m) (hI : Mated I n) {v : ℕ} (hv : v ∉ nodesOf I) :
    Sealed I n (releaseNow m v) :=
  Sealed.releaseLoop hI _ [v] (by simpa using hv) h

lemma Sealed.netRelease (h : Sealed I n m) (hI : Mated I n) {v : ℕ} (hv : v ∉ nodesOf I) :
    Sealed I n (netRelease g m v) := by
  unfold LinEngine.netRelease
  split_ifs
  · exact h
  · exact h
  · exact h
  · exact ((h.markDead hv).sameGraph (actDrop_same g _ v)).releaseNow hI hv

lemma Sealed.netSever (h : Sealed I n m) (hI : Mated I n) {p : Port} (hp : p ∉ I) :
    Sealed I n (netSever g m p) := by
  have release : ∀ {m' : Net} {v : ℕ}, Sealed I n m' → degLive m' v = 0 → Sealed I n (LinEngine.netRelease g m' v) :=
    fun h' hzero => h'.netRelease hI fun hv => h'.degLive_ne hI hv hzero
  have hcut := h.cut hp
  unfold LinEngine.netSever
  split_ifs
  · exact h
  · cases hw : m.wireAt p with
    | none =>
      dsimp only
      split_ifs with hzero
      · exact release hcut hzero
      · exact hcut
    | some w =>
      dsimp only
      have hback : Sealed I n (if (m.setWire p none).inNet w.node && (m.setWire p none).wireAt w == some p then
          (m.setWire p none).setWire w none else m.setWire p none) := by
        split_ifs with hmut
        · exact hcut.cut (hcut.back hI hp (beq_iff_eq.1 (Bool.and_eq_true_iff.1 hmut).2))
        · exact hcut
      revert hback
      generalize (if (m.setWire p none).inNet w.node && (m.setWire p none).wireAt w == some p then
          (m.setWire p none).setWire w none else m.setWire p none) = m'
      intro hback
      have hnear : Sealed I n (if degLive m' p.node = 0 then LinEngine.netRelease g m' p.node else m') := by
        split_ifs with hzero
        · exact release hback hzero
        · exact hback
      revert hnear
      generalize (if degLive m' p.node = 0 then LinEngine.netRelease g m' p.node else m') = m''
      intro hnear
      split_ifs with hzero
      · exact release hnear (beq_iff_eq.1 (Bool.and_eq_true_iff.1 hzero).2)
      · exact hnear

lemma Sealed.retire (h : Sealed I n m) (hI : Mated I n) {a b : ℕ} (ha : a ∉ nodesOf I) (hb : b ∉ nodesOf I) :
    Sealed I n (retire g m a b) := by
  have hmark : Sealed I n { m with dead := (m.dead.set a true).set b true } := (h.markDead ha).markDead hb
  have hdrop := (hmark.sameGraph (actDrop_same g _ a)).sameGraph (actDrop_same g _ b)
  unfold LinEngine.retire
  dsimp only
  split_ifs
  · exact ⟨hdrop.live, hdrop.tag, hdrop.wire, hdrop.away⟩
  · refine (Sealed.releaseNow ?_ hI ha).releaseNow hI hb
    exact ⟨hdrop.live, hdrop.tag, hdrop.wire, hdrop.away⟩

end Primitives

/-! ## Allocation -/

section Allocation

variable {I : Set Port} {g : Globals} {n m : Net}

lemma lvIntern_grown (n : Net) (p b : ℕ) : Grown n (lvIntern n p b).2 := by
  simp only [lvIntern]
  by_cases h : n.levels.findIdx (fun l => l.parent == p && l.bit == b) < n.levels.length
  · rw [if_pos h]
    exact .refl n
  · rw [if_neg h]
    exact ⟨rfl, List.prefix_append _ _⟩

lemma lvInternPath_grown (n : Net) (cur : ℕ) (path : List ℕ) : Grown n (lvInternPath n cur path).2 := by
  induction path generalizing n cur with
  | nil => exact .refl n
  | cons b bs ih => exact (lvIntern_grown n cur b).trans (ih _ _)

lemma lvlPrefix2_grown (n : Net) (gen a b : ℕ) : Grown n (lvlPrefix2 n gen a b).2 :=
  (lvIntern_grown n 0 gen).trans (lvInternPath_grown _ _ _)

lemma Sealed.grown (h : Sealed I n m) {m' : Net} (hg : Grown m m') : Sealed I n m' where
  live v hv := by rw [hg.live, h.live v hv]
  tag v hv := by rw [← h.tag v hv, hg.same]
  wire p hp := by rw [hg.wireAt, h.wire p hp]
  away p q hv hp hw := h.away p q hv hp (by rwa [hg.wireAt] at hw)

lemma FreeOk.grown (h : FreeOk n) (hg : Grown n m) : FreeOk m := by
  rcases h with ⟨l, hl⟩
  rw [hg.same]
  exact ⟨l, hl.mono le_rfl (fun v hv => (hl.dead_of_mem hv).2) fun v _ => rfl⟩

/-- In a threaded wave every slot is new. -/
lemma netAlloc_threaded (hg : g.inParallel = true) (hn : FreeOk n) (t : Tag) (s : ℕ) :
    Allocated n t s (netAlloc g n t s).1 (netAlloc g n t s).2 := by
  rcases hn with ⟨l, hl⟩
  have he : netAlloc g n t s = (n.nn, initNode { n with nn := n.nn + 1 } n.nn t s) := by
    simp [netAlloc, hg, initNode]
  rw [he]
  refine allocated_initNode (by simp) (by simp [Net.live, Net.inNet]) ?_ rfl rfl rfl rfl rfl ⟨l, ?_⟩
  · intro v hv
    simp only [Net.live, Net.inNet]
    congr 1
    exact decide_eq_decide.mpr (by omega)
  · refine hl.mono (Nat.le_succ _) (fun v hv => ?_) fun v hv => ?_
    · have hne : n.nn ≠ v := (hl.dead_of_mem hv).1.ne'
      simpa [initNode, hne] using (hl.dead_of_mem hv).2
    · rw [initNode_wireAt, if_neg (hl.dead_of_mem hv).1.ne]
      rfl

lemma netAlloc_allocated (g : Globals) (hn : FreeOk n) (t : Tag) (s : ℕ) :
    Allocated n t s (netAlloc g n t s).1 (netAlloc g n t s).2 := by
  cases hg : g.inParallel with
  | false => exact netAlloc_spec hg hn t s
  | true => exact netAlloc_threaded hg hn t s

/-- An allocated slot was not live, so it is no node of the set. -/
lemma Sealed.alloc (h : Sealed I n m) {t : Tag} {s v : ℕ} {m' : Net} (ha : Allocated m t s v m') :
    Sealed I n m' ∧ v ∉ nodesOf I := by
  have hv : v ∉ nodesOf I := fun hmem => by
    have hlive := h.live v hmem
    rw [ha.fresh] at hlive
    cases hlive
  have hother : ∀ u ∈ nodesOf I, u ≠ v := fun u hu he => hv (he ▸ hu)
  exact ⟨⟨fun u hu => by rw [ha.liveOther u (hother u hu), h.live u hu],
    fun u hu => by rw [ha.tagOther u (hother u hu), h.tag u hu],
    fun p hp => by rw [ha.wireOther p (hother _ (mem_nodesOf hp)), h.wire p hp],
    fun p q hu hp hw => h.away p q hu hp (by rwa [ha.wireOther p (hother _ hu)] at hw)⟩, hv⟩

/-- The four copies of a duplication are new nodes, and their inner wires touch nothing else. -/
lemma Sealed.split2 (h : Sealed I n m) (hm : FreeOk m) (t1 : Tag) (s1a s1b : ℕ) (t2 : Tag) (s2 : ℕ) :
    Sealed I n (split2 g m t1 s1a s1b t2 s2).2 ∧ ∀ k, (split2 g m t1 s1a s1b t2 s2).1.at k ∉ nodesOf I := by
  have a1 := netAlloc_allocated g hm t1 s1a
  have a2 := netAlloc_allocated g a1.freeOk t1 s1b
  have a3 := netAlloc_allocated g a2.freeOk t2 s2
  have a4 := netAlloc_allocated g a3.freeOk t2 s2
  rcases h.alloc a1 with ⟨h1, n1⟩
  rcases h1.alloc a2 with ⟨h2, n2⟩
  rcases h2.alloc a3 with ⟨h3, n3⟩
  rcases h3.alloc a4 with ⟨h4, n4⟩
  have link : ∀ {u v : ℕ} {j k : Fin 3} {m' : Net}, u ∉ nodesOf I → v ∉ nodesOf I → Sealed I n m' →
      Sealed I n (LinEngine.netLink g m' (some ⟨u, j⟩) (some ⟨v, k⟩) false) := by
    intro u v j k m' hu hv h'
    refine h'.netLink ?_ ?_ false
    · rintro p ⟨⟩
      exact not_mem_of_node hu
    · rintro p ⟨⟩
      exact not_mem_of_node hv
  refine ⟨link n4 n2 (link n4 n1 (link n3 n2 (link n3 n1 h4))), fun k => ?_⟩
  match k with
  | 0 => exact n3
  | 1 => exact n4
  | 2 => exact n1
  | 3 => exact n2

end Allocation

/-! ## The rules -/

section Rules

variable {I : Set Port} {g : Globals} {n m : Net} {a b : ℕ}

lemma Sealed.linkCopies (h : Sealed I n m) {t : Fin 4 → Option Port} {cp : Fin 4 → ℕ}
    (ht : ∀ k p, t k = some p → p ∉ I) (hcp : ∀ k, cp k ∉ nodesOf I) :
    Sealed I n (linkCopies g m a b t cp) := by
  have hcopy : ∀ k p, some (⟨cp k, 0⟩ : Port) = some p → p ∉ I := by
    rintro k p ⟨⟩
    exact not_mem_of_node (hcp k)
  have short : ∀ (ks : List (Fin 4)) (s : Net × List (Fin 4)), Sealed I n s.1 →
      Sealed I n (ks.foldl (shortStep g (fun k => auxIndex a b (t k)) cp) s).1 := by
    intro ks
    induction ks with
    | nil => exact fun s hs => hs
    | cons k ks ih =>
      intro s hs
      refine ih _ ?_
      unfold shortStep
      split
      · exact hs
      · split_ifs
        · exact hs
        · exact hs.netLink (hcopy k) (hcopy _) true
  have loose : ∀ (done : List (Fin 4)) (ks : List (Fin 4)) (s : Net), Sealed I n s →
      Sealed I n (ks.foldl (looseStep g t cp done) s) := by
    intro done ks
    induction ks with
    | nil => exact fun s hs => hs
    | cons k ks ih =>
      intro s hs
      refine ih _ ?_
      unfold looseStep
      split_ifs
      · exact hs
      · exact hs.netLink (hcopy k) (ht k) true
  rw [linkCopies_eq]
  exact loose _ _ _ (short _ (m, []) h)

/-- A class with more than two outside ends is left alone. -/
lemma joinClass_many {cls : List (Fin 6)} {e e' e'' : Port} {ends : List Port}
    (h : endsOf m a b cls = e :: e' :: e'' :: ends) : joinClass g a b m cls = m := by
  have hends : (cls.filterMap fun j =>
      if (insidePair a b (m.wireAt (pairPort a b j))).isSome then none
      else m.wireAt (pairPort a b j)) = endsOf m a b cls := rfl
  simp only [joinClass, hends, h]

lemma Sealed.joinClass (h : Sealed I n m) (hI : Mated I n) {cls : List (Fin 6)}
    (hends : ∀ e ∈ endsOf m a b cls, e ∉ I) : Sealed I n (joinClass g a b m cls) := by
  have link : ∀ {e : Port}, e ∉ I → ∀ p, some e = some p → p ∉ I := by
    rintro e he p ⟨⟩
    exact he
  rcases joinClass_eq g a b m cls with ⟨hnone, hone, htwo⟩
  rcases hl : endsOf m a b cls with _ | ⟨e, _ | ⟨e', _ | ⟨e'', ends⟩⟩⟩
  all_goals rw [hl] at hends
  · rw [hnone hl]
    exact h
  · rw [hone e hl]
    exact h.netSever hI (hends e (by simp))
  · rw [htwo e e' hl]
    exact h.netLink (link (hends e (by simp))) (link (hends e' (by simp))) true
  · rw [joinClass_many hl]
    exact h

/-- While the principal wire of the pair is part of the set, the far ends of the pair's other wires are not. -/
lemma Sealed.pairBoundary (h : Sealed I n m) (hI : Mated I n) (ha : ⟨a, 0⟩ ∈ I) (hb : ⟨b, 0⟩ ∈ I)
    (hpair : ∀ p ∈ I, p.node = a ∨ p.node = b → n.wireAt p = some ⟨a, 0⟩ ∨ n.wireAt p = some ⟨b, 0⟩)
    (cor : List (ℕ × ℕ)) : Sealed I n (pairBoundary g m a b cor) := by
  have hout : ∀ {m' : Net} {cls : List (Fin 6)}, Sealed I n m' → ∀ e ∈ endsOf m' a b cls, e ∉ I := by
    intro m' cls h' e he
    rcases mem_endsOf.1 he with ⟨j, -, hw, hoa, hob⟩
    have hnode : (pairPort a b j).node = a ∨ (pairPort a b j).node = b := pairPort_node a b j
    have hmem : (pairPort a b j).node ∈ nodesOf I := by
      rcases hnode with h | h
      · exact ⟨_, ha, h.symm⟩
      · exact ⟨_, hb, h.symm⟩
    by_cases hin : pairPort a b j ∈ I
    · exfalso
      rcases hpair _ hin hnode with hp | hp
      all_goals
        rw [h'.wire _ hin, hp] at hw
        obtain rfl := Option.some.inj hw
      · exact hoa rfl
      · exact hob rfl
    · exact h'.away _ _ hmem hin hw
  have classes : ∀ (L : List (List (Fin 6))) (m' : Net), Sealed I n m' →
      Sealed I n (L.foldl (LinEngine.joinClass g a b) m') := by
    intro L
    induction L with
    | nil => exact fun m' h' => h'
    | cons cls L ih => exact fun m' h' => ih _ (h'.joinClass hI (hout h'))
  exact classes _ m h

/-- A set of wires without the nodes `a` and `b`, and the same set with their principal wire. -/
lemma Sealed.drop (hout : ∀ p ∈ I, p.node ≠ a ∧ p.node ≠ b)
    (h : Sealed (I ∪ {⟨a, 0⟩, ⟨b, 0⟩}) n m) : Sealed I n m := by
  have hsub : ∀ v ∈ nodesOf I, v ∈ nodesOf (I ∪ {⟨a, 0⟩, ⟨b, 0⟩}) := fun v ⟨p, hp, hv⟩ => ⟨p, Or.inl hp, hv⟩
  refine ⟨fun v hv => h.live v (hsub v hv), fun v hv => h.tag v (hsub v hv), fun p hp => h.wire p (Or.inl hp),
    fun p q hv hp hw hq => h.away p q (hsub _ hv) ?_ hw (Or.inl hq)⟩
  rintro (hmem | rfl | rfl)
  · exact hp hmem
  · rcases hv with ⟨q, hq, hqa⟩
    exact (hout q hq).1 hqa
  · rcases hv with ⟨q, hq, hqb⟩
    exact (hout q hq).2 hqb

/-- A mated set of live wires is sealed in its own net, if the wires at its nodes are mutual. -/
lemma Sealed.refl (hI : Mated I n) (hlive : ∀ p ∈ I, n.live p.node = true)
    (hsym : ∀ p q, p.node ∈ nodesOf I → n.wireAt p = some q → n.wireAt q = some p) : Sealed I n n where
  live := by
    rintro v ⟨p, hp, rfl⟩
    exact hlive p hp
  tag _ _ := rfl
  wire _ _ := rfl
  away p q hv hp hw hq := by
    rcases hI q hq with ⟨p', hp', hqp', -⟩
    rw [hsym p q hv hw] at hqp'
    exact hp (Option.some.inj hqp' ▸ hp')

/-- Every wire of a live node is mutual. -/
def Symmetric (n : Net) : Prop := ∀ p q : Port, n.live p.node = true → n.wireAt p = some q → n.wireAt q = some p

lemma Wired.symmetric (h : Wired n) : Symmetric n := fun p q hl hw => (h p q hl hw).2.1

section Fire

variable (hsym : Symmetric n) (hI : Mated I n) (hlive : ∀ p ∈ I, n.live p.node = true)
  (hla : n.live a = true) (hlb : n.live b = true) (hout : ∀ p ∈ I, p.node ≠ a ∧ p.node ≠ b)

include hsym hI hlive hla hlb hout

lemma sealed_glue (hwa : n.wireAt ⟨a, 0⟩ = some ⟨b, 0⟩) (hwb : n.wireAt ⟨b, 0⟩ = some ⟨a, 0⟩)
    (cor : List (ℕ × ℕ)) : Sealed I n (retire g (pairBoundary g n a b cor) a b) := by
  have hJ : Mated (I ∪ {⟨a, 0⟩, ⟨b, 0⟩}) n := by
    rintro p (hp | rfl | rfl)
    · rcases hI p hp with ⟨q, hq, hw⟩
      exact ⟨q, Or.inl hq, hw⟩
    · exact ⟨⟨b, 0⟩, by simp, hwa, hwb⟩
    · exact ⟨⟨a, 0⟩, by simp, hwb, hwa⟩
  have hJlive : ∀ p ∈ I ∪ {⟨a, 0⟩, ⟨b, 0⟩}, n.live p.node = true := by
    rintro p (hp | rfl | rfl)
    exacts [hlive p hp, hla, hlb]
  have hpair : ∀ p ∈ I ∪ {⟨a, 0⟩, ⟨b, 0⟩}, p.node = a ∨ p.node = b →
      n.wireAt p = some ⟨a, 0⟩ ∨ n.wireAt p = some ⟨b, 0⟩ := by
    rintro p (hp | rfl | rfl) hn
    · exact absurd hn (not_or.2 (hout p hp))
    · exact Or.inr hwa
    · exact Or.inl hwb
  have hstart := Sealed.refl hJ hJlive fun p q hv hw => hsym p q (by
    rcases hv with ⟨x, hx, hxp⟩
    exact hxp ▸ hJlive x hx) hw
  have hjoined := (hstart.pairBoundary (g := g) hJ (by simp) (by simp) hpair cor).drop hout
  exact hjoined.retire hI (fun ⟨p, hp, h⟩ => (hout p hp).1 h) fun ⟨p, hp, h⟩ => (hout p hp).2 h

lemma sealed_copy {n0 : Net} (hfree : FreeOk n) (hgrown : Grown n n0) (t1 : Tag) (s1a s1b : ℕ) (t2 : Tag) (s2 : ℕ) :
    Sealed I n (retire g (linkCopies g (split2 g n0 t1 s1a s1b t2 s2).2 a b (auxTargets n a b)
      (split2 g n0 t1 s1a s1b t2 s2).1.at) a b) := by
  have hnode : ∀ {p q : Port}, (p.node = a ∨ p.node = b) → n.wireAt p = some q → q ∉ I := by
    intro p q hp hw hq
    have hl : n.live p.node = true := by
      rcases hp with h | h
      · exact h ▸ hla
      · exact h ▸ hlb
    rcases hI q hq with ⟨p', hp', hqp', -⟩
    rw [hsym p q hl hw] at hqp'
    rcases hp with h | h
    · exact (hout p' hp').1 (Option.some.inj hqp' ▸ h)
    · exact (hout p' hp').2 (Option.some.inj hqp' ▸ h)
  have htargets : ∀ k p, auxTargets n a b k = some p → p ∉ I := by
    intro k p hk
    rw [auxTargets_eq] at hk
    exact hnode (auxOf_node a b k) hk
  have hstart := Sealed.refl hI hlive fun p q hv hw => hsym p q (by
    rcases hv with ⟨x, hx, hxp⟩
    exact hxp ▸ hlive x hx) hw
  rcases (hstart.grown hgrown).split2 (g := g) (hfree.grown hgrown) t1 s1a s1b t2 s2 with ⟨hsplit, hcopies⟩
  have hlinked := hsplit.linkCopies (g := g) (a := a) (b := b) htargets hcopies
  exact hlinked.retire hI (fun ⟨p, hp, h⟩ => (hout p hp).1 h) fun ⟨p, hp, h⟩ => (hout p hp).2 h

end Fire

lemma interactSorted_sealed (hsym : Symmetric n) (hfree : FreeOk n) (hI : Mated I n)
    (hlive : ∀ p ∈ I, n.live p.node = true) (hla : n.live a = true) (hlb : n.live b = true)
    (hwa : n.wireAt ⟨a, 0⟩ = some ⟨b, 0⟩) (hwb : n.wireAt ⟨b, 0⟩ = some ⟨a, 0⟩)
    (hout : ∀ p ∈ I, p.node ≠ a ∧ p.node ≠ b) : Sealed I n (interactSorted g n a b).2 := by
  have hstart := Sealed.refl hI hlive fun p q hv hw => hsym p q (by
    rcases hv with ⟨x, hx, hxp⟩
    exact hxp ▸ hlive x hx) hw
  have hgrown : ∀ sa sb, Grown n (lvlPrefix2 (lvlPrefix2 n 1 sa sb).2 2 sa sb).2 :=
    fun sa sb => (lvlPrefix2_grown n 1 sa sb).trans (lvlPrefix2_grown _ 2 sa sb)
  unfold interactSorted
  split
  · exact sealed_glue hsym hI hlive hla hlb hout hwa hwb _
  · dsimp only
    split_ifs
    · exact sealed_glue hsym hI hlive hla hlb hout hwa hwb _
    · exact sealed_copy hsym hI hlive hla hlb hout hfree (.refl n) _ _ _ _ _
  · split_ifs
    · exact sealed_copy hsym hI hlive hla hlb hout hfree (hgrown _ _) _ _ _ _ _
    · exact hstart
  · exact hstart

/-- A call on a live redex keeps every mated set of live wires it has no node of. -/
theorem netInteract_sealed (hsym : Symmetric n) (hfree : FreeOk n) (hI : Mated I n)
    (hlive : ∀ p ∈ I, n.live p.node = true) {p q : Port} (hredex : redexLive n p q = true)
    (hout : ∀ x ∈ I, x.node ≠ p.node ∧ x.node ≠ q.node) : Sealed I n (netInteract g n p q).2 := by
  rcases p with ⟨a, j⟩
  rcases q with ⟨b, k⟩
  simp only [redexLive, Bool.and_eq_true, beq_iff_eq] at hredex
  obtain ⟨⟨⟨⟨⟨hla, hlb⟩, rfl⟩, rfl⟩, hwa⟩, hwb⟩ := hredex
  unfold netInteract
  split_ifs
  · exact interactSorted_sealed hsym hfree hI hlive hlb hla hwb hwa fun x hx => (hout x hx).symm
  · exact interactSorted_sealed hsym hfree hI hlive hla hlb hwa hwb hout

end Rules

end LinEngine
