import LinEngine.Demand
import LinEngine.Forcing

/-!
# The queue of active pairs over runs

A pair joins the queue where two principal ports are linked, and leaves it where a rule consumes it or
the demand walk hands it to the wave. Between two calls the queue is exact: what is queued is a live
redex, and every live redex without ROOT is queued.
-/
namespace LinEngine

open Stamps (Past)

/-- What is queued is a redex, and every redex without ROOT is queued or among the pairs `W` of the wave. -/
structure QueueExact (W : List (Port × Port)) (n : Net) : Prop where
  queued : Queued n
  sound : ∀ a ∈ n.queue, redexLive n a.1 a.2 = true
  full : ∀ p q, redexLive n p q = true → n.tag.get p.node ≠ .root → n.tag.get q.node ≠ .root →
    (p, q) ∈ n.queue ++ W ∨ (q, p) ∈ n.queue ++ W

section Exact

variable {W : List (Port × Port)} {S : Set ℕ} {g : Globals} {n m : Net} {s s' : Stage}

lemma port_ext {p q : Port} (hnode : p.node = q.node) (hport : p.port = q.port) : p = q := by
  cases p
  cases q
  simp_all

lemma redexLive_iff {p q : Port} : redexLive n p q = true ↔ n.live p.node = true ∧ n.live q.node = true ∧
    p.port = 0 ∧ q.port = 0 ∧ n.wireAt p = some q ∧ n.wireAt q = some p := by
  simp [redexLive, and_assoc]

lemma redexLive_symm {p q : Port} (h : redexLive n p q = true) : redexLive n q p = true := by
  obtain ⟨hp, hq, hp0, hq0, hpq, hqp⟩ := redexLive_iff.mp h
  exact redexLive_iff.mpr ⟨hq, hp, hq0, hp0, hqp, hpq⟩

/-- The redexes at a node only depend on its wires and those of its partner. -/
lemma redexLive_of_same {p q : Port} (h : redexLive n p q = true) (hp : m.live p.node = true) (hq : m.live q.node = true)
    (hwp : m.wireAt p = n.wireAt p) (hwq : m.wireAt q = n.wireAt q) : redexLive m p q = true := by
  obtain ⟨-, -, hp0, hq0, hpq, hqp⟩ := redexLive_iff.mp h
  exact redexLive_iff.mpr ⟨hp, hq, hp0, hq0, hwp.trans hpq, hwq.trans hqp⟩

lemma SameGraph.redexLive (h : SameGraph n m) (p q : Port) : redexLive m p q = redexLive n p q := by
  simp only [LinEngine.redexLive, h.live, h.wireAt]

lemma Net.queue_congr (hact : m.act = n.act) (htop : m.atop = n.atop) : m.queue = n.queue := by
  rw [Net.queue, Net.queue, hact, htop]

/-- The queue stays as it is, and so do its redexes and all others. -/
lemma QueueExact.keep (h : QueueExact W n) (hact : m.act = n.act) (htop : m.atop = n.atop) (hof : m.actOf = n.actOf)
    (hstay : ∀ p q, (p, q) ∈ n.queue → redexLive n p q = true → redexLive m p q = true)
    (hback : ∀ p q, redexLive m p q = true → m.tag.get p.node ≠ .root → m.tag.get q.node ≠ .root → redexLive n p q = true)
    (htag : ∀ v, n.live v = true → m.tag.get v = n.tag.get v) : QueueExact W m := by
  have hqueue := Net.queue_congr hact htop
  refine ⟨h.queued.congr hact htop hof, fun a ha => ?_, fun p q hr hp hq => ?_⟩
  · rw [hqueue] at ha
    exact hstay a.1 a.2 ha (h.sound a ha)
  · have hold := hback p q hr hp hq
    obtain ⟨hlp, hlq, -⟩ := redexLive_iff.mp hold
    rw [htag _ hlp] at hp
    rw [htag _ hlq] at hq
    rw [hqueue]
    exact h.full p q hold hp hq

/-- Only wires that no redex has an end at change. -/
lemma QueueExact.rewire (h : QueueExact W n) (hact : m.act = n.act) (htop : m.atop = n.atop) (hof : m.actOf = n.actOf)
    (hlive : ∀ v, m.live v = n.live v) (hwire : ∀ p : Port, p.port = 0 → n.live p.node = true → m.wireAt p = n.wireAt p)
    (htag : ∀ v, n.live v = true → m.tag.get v = n.tag.get v) : QueueExact W m := by
  refine h.keep hact htop hof (fun p q _ hr => ?_) (fun p q hr _ _ => ?_) htag
  · obtain ⟨hlp, hlq, hp0, hq0, -⟩ := redexLive_iff.mp hr
    exact redexLive_of_same hr (by rw [hlive, hlp]) (by rw [hlive, hlq]) (hwire p hp0 hlp) (hwire q hq0 hlq)
  · obtain ⟨hlp, hlq, hp0, hq0, -⟩ := redexLive_iff.mp hr
    rw [hlive] at hlp hlq
    exact redexLive_of_same hr hlp hlq (hwire p hp0 hlp).symm (hwire q hq0 hlq).symm

/-- The queued pair of a node is that of its principal port and what this is wired to. -/
lemma QueueExact.meets (h : QueueExact W n) {z : Port × Port} (hz : z ∈ n.queue) {c : Port} (hc : c.port = 0)
    (ht : Touches z c.node) : ∃ d, d.port = 0 ∧ n.wireAt c = some d ∧ (z = (c, d) ∨ z = (d, c)) := by
  obtain ⟨p, q⟩ := z
  obtain ⟨-, -, hp0, hq0, hpq, hqp⟩ := redexLive_iff.mp (h.sound _ hz)
  rcases ht with hv | hv
  · obtain rfl : p = c := port_ext hv (hp0.trans hc.symm)
    exact ⟨q, hq0, hpq, .inl rfl⟩
  · obtain rfl : q = c := port_ext hv (hq0.trans hc.symm)
    exact ⟨p, hp0, hqp, .inr rfl⟩

/-- What the queue loses when the pair of `v` is dropped. -/
lemma Queued.actDrop_mem (h : Queued n) (hg : g.inParallel = false) (v : ℕ) :
    Queued (LinEngine.actDrop g n v) ∧ ∀ a, a ∈ (LinEngine.actDrop g n v).queue ↔ a ∈ n.queue ∧ ¬ Touches a v := by
  cases hv : n.actOf.get v with
  | none =>
    have he : LinEngine.actDrop g n v = n := by rw [LinEngine.actDrop, hv]
    rw [he]
    exact ⟨h, fun a => ⟨fun ha => ⟨ha, (h.none_iff v).mp hv a ha⟩, And.left⟩⟩
  | some i =>
    obtain ⟨k, -, z, hz, hzv⟩ := (h.index v i).mp hv
    have hdrop := h.actDrop hg hz hzv
    refine ⟨hdrop.queued, fun a => ⟨fun ha => ⟨hdrop.perm.subset (List.mem_cons_of_mem _ ha), hdrop.gone a ha⟩, ?_⟩⟩
    rintro ⟨ha, hav⟩
    rcases List.mem_cons.mp (hdrop.perm.symm.subset ha) with rfl | ha
    · exact absurd hzv hav
    · exact ha

/-! ## Changes -/

/-- A link joins the queue, when it joins two principal ports. Only that of ROOT need not be asked to. -/
lemma QueueExact.link (h : QueueExact W n) (hg : g.inParallel = false) {a b : Port} {e : Bool} (hab : a ≠ b)
    (ha : a.port = 0 → n.live a.node = true) (hb : b.port = 0 → n.live b.node = true)
    (hold : ∀ q, n.wireAt a = some q ∨ n.wireAt b = some q → q.port ≠ 0)
    (he : e = true ∨ a.port ≠ 0 ∨ b.port ≠ 0 ∨ n.tag.get a.node = .root) : QueueExact W (netLink g n (some a) (some b) e) := by
  have hlinked := netLink_linked g n (some a) (some b) e
  have hwire := fun p => netLink_wireAt g n a b p e
  have hlive := hlinked.live
  -- no redex has an end here before
  have hends : ∀ {p q}, redexLive n p q = true → p ≠ a ∧ p ≠ b := by
    intro p q hr
    obtain ⟨-, -, -, hq0, hpq, -⟩ := redexLive_iff.mp hr
    exact ⟨fun hpa => hold q (.inl (hpa ▸ hpq)) hq0, fun hpb => hold q (.inr (hpb ▸ hpq)) hq0⟩
  have hstay : ∀ p q, redexLive n p q = true → redexLive (netLink g n (some a) (some b) e) p q = true := by
    intro p q hr
    obtain ⟨hpa, hpb⟩ := hends hr
    obtain ⟨hqa, hqb⟩ := hends (redexLive_symm hr)
    obtain ⟨hlp, hlq, -⟩ := redexLive_iff.mp hr
    refine redexLive_of_same hr (by rw [hlive, hlp]) (by rw [hlive, hlq]) ?_ ?_
    · rw [hwire, if_neg (Ne.symm hpb), if_neg (Ne.symm hpa)]
    · rw [hwire, if_neg (Ne.symm hqb), if_neg (Ne.symm hqa)]
  have hnew : ∀ p q, redexLive (netLink g n (some a) (some b) e) p q = true →
      redexLive n p q = true ∨ p = a ∧ q = b ∨ p = b ∧ q = a := by
    intro p q hr
    obtain ⟨hlp, hlq, hp0, hq0, hpq, hqp⟩ := redexLive_iff.mp hr
    by_cases hpa : p = a
    · subst hpa
      rw [hwire, if_neg hab.symm, if_pos rfl] at hpq
      exact .inr (.inl ⟨rfl, (Option.some.inj hpq).symm⟩)
    by_cases hpb : p = b
    · subst hpb
      rw [hwire, if_pos rfl] at hpq
      exact .inr (.inr ⟨rfl, (Option.some.inj hpq).symm⟩)
    have hqa : q ≠ a := by
      rintro rfl
      rw [hwire, if_neg hab.symm, if_pos rfl] at hqp
      exact hpb (Option.some.inj hqp).symm
    have hqb : q ≠ b := by
      rintro rfl
      rw [hwire, if_pos rfl] at hqp
      exact hpa (Option.some.inj hqp).symm
    rw [hlive] at hlp hlq
    refine .inl (redexLive_of_same hr hlp hlq ?_ ?_)
    · rw [hwire, if_neg (Ne.symm hpb), if_neg (Ne.symm hpa)]
    · rw [hwire, if_neg (Ne.symm hqb), if_neg (Ne.symm hqa)]
  by_cases hpush : e = true ∧ a.port = 0 ∧ b.port = 0
  · obtain ⟨rfl, hprin⟩ := hpush
    have hnet : netLink g n (some a) (some b) true = actPush ((n.setWire a (some b)).setWire b (some a)) a b := by
      simp [netLink, hprin, hg]
    have hfree : ∀ c, c = a ∨ c = b → c.port = 0 → n.actOf.get c.node = none := by
      refine fun c hc hc0 => (h.queued.none_iff _).mpr fun z hz ht => ?_
      obtain ⟨d, hd0, hcd, -⟩ := h.meets hz hc0 ht
      refine hold d ?_ hd0
      rcases hc with rfl | rfl
      · exact .inl hcd
      · exact .inr hcd
    have hwired : Queued ((n.setWire a (some b)).setWire b (some a)) := h.queued.congr rfl rfl rfl
    have hnode : a.node ≠ b.node := fun he => hab (port_ext he (hprin.1.trans hprin.2.symm))
    obtain ⟨hqueued, hqueue⟩ := hwired.actPush hnode
    have hqueue : (netLink g n (some a) (some b) true).queue = n.queue ++ [(a, b)] := by
      rw [hnet, hqueue, if_neg]
      · rfl
      · change ¬ ((n.actOf.get a.node).isSome || (n.actOf.get b.node).isSome) = true
        rw [hfree a (.inl rfl) hprin.1, hfree b (.inr rfl) hprin.2]
        decide
    refine ⟨hnet ▸ hqueued, fun z hz => ?_, fun p q hr hp hq => ?_⟩
    · rw [hqueue, List.mem_append, List.mem_singleton] at hz
      rcases hz with hz | rfl
      · exact hstay _ _ (h.sound z hz)
      · refine redexLive_iff.mpr ⟨by rw [hlive, ha hprin.1], by rw [hlive, hb hprin.2], hprin.1, hprin.2, ?_, ?_⟩
        · rw [hwire, if_neg hab.symm, if_pos rfl]
        · rw [hwire, if_pos rfl]
    · rw [hlinked.tag] at hp hq
      rw [hqueue]
      rcases hnew p q hr with hr | ⟨rfl, rfl⟩ | ⟨rfl, rfl⟩
      · have hfull := h.full p q hr hp hq
        simp only [List.mem_append] at hfull ⊢
        tauto
      · exact .inl (by simp)
      · exact .inr (by simp)
  · have hnet : netLink g n (some a) (some b) e = (n.setWire a (some b)).setWire b (some a) := by
      have hno : ¬ (e && a.port == 0 && b.port == 0) = true := by
        simpa [and_assoc] using hpush
      rw [netLink]
      exact if_neg hno
    refine h.keep (by rw [hnet]; rfl) (by rw [hnet]; rfl) (by rw [hnet]; rfl) (fun p q _ => hstay p q)
      (fun p q hr hp hq => ?_) fun v _ => by rw [hlinked.tag]
    rw [hlinked.tag] at hp hq
    obtain ⟨-, -, hp0, hq0, -⟩ := redexLive_iff.mp hr
    refine (hnew p q hr).resolve_right ?_
    rintro (⟨rfl, rfl⟩ | ⟨rfl, rfl⟩)
    · rcases he with he | he | he | he
      · exact hpush ⟨he, hp0, hq0⟩
      · exact he hp0
      · exact he hq0
      · exact hp he
    · rcases he with he | he | he | he
      · exact hpush ⟨he, hq0, hp0⟩
      · exact he hq0
      · exact he hp0
      · exact hq he

lemma QueueExact.sameGraph (h : QueueExact W n) (hsame : SameGraph n m) (hact : m.act = n.act) (htop : m.atop = n.atop)
    (hof : m.actOf = n.actOf) : QueueExact W m :=
  h.rewire hact htop hof hsame.live (fun p _ _ => hsame.wireAt p) fun v _ => by rw [hsame.tag]

/-- A wire is cut, which is not that of a queued pair. -/
lemma QueueExact.cut (h : QueueExact W n) {p w : Port} (hpw : n.wireAt p = some w) (hwp : n.wireAt w = some p)
    (hfree : n.actOf.get p.node = none ∨ p.port ≠ 0 ∨ w.port ≠ 0) :
    QueueExact W ((n.setWire p none).setWire w none) := by
  refine h.keep rfl rfl rfl (fun x y hxy hr => ?_) (fun x y hr _ _ => ?_) fun v _ => rfl
  · obtain ⟨hlx, hly, hx0, hy0, hwx, hwy⟩ := redexLive_iff.mp hr
    -- the wire that is cut is not that of the pair
    have hp : ¬ (x = p ∨ y = p) := by
      intro hc
      have htouched : n.actOf.get p.node ≠ none := fun hnone =>
        (h.queued.none_iff _).mp hnone _ hxy (hc.imp (congrArg Port.node) (congrArg Port.node))
      have hports : p.port = 0 ∧ w.port = 0 := by
        rcases hc with rfl | rfl
        · rw [hwx] at hpw
          exact ⟨hx0, Option.some.inj hpw ▸ hy0⟩
        · rw [hwy] at hpw
          exact ⟨hy0, Option.some.inj hpw ▸ hx0⟩
      rcases hfree with hnone | hne | hne
      · exact htouched hnone
      · exact hne hports.1
      · exact hne hports.2
    obtain ⟨hxp, hyp⟩ := not_or.mp hp
    have hxw : x ≠ w := by
      rintro rfl
      rw [hwx] at hwp
      exact hyp (Option.some.inj hwp)
    have hyw : y ≠ w := by
      rintro rfl
      rw [hwy] at hwp
      exact hxp (Option.some.inj hwp)
    refine redexLive_of_same hr hlx hly ?_ ?_
    · rw [cut_wireAt, if_neg (not_or.mpr ⟨hxp, hxw⟩)]
    · rw [cut_wireAt, if_neg (not_or.mpr ⟨hyp, hyw⟩)]
  · obtain ⟨hlx, hly, hx0, hy0, hwx, hwy⟩ := redexLive_iff.mp hr
    rw [cut_wireAt] at hwx hwy
    split_ifs at hwx hwy
    exact redexLive_iff.mpr ⟨hlx, hly, hx0, hy0, hwx, hwy⟩

/-- Nodes die that no queued pair has as an end, and leave the queue. -/
lemma QueueExact.shrink (h : QueueExact W n) (hq : Queued m) (hlive : ∀ v, m.live v = true → n.live v = true)
    (hwire : ∀ p : Port, m.live p.node = true → m.wireAt p = n.wireAt p) (htag : ∀ v, m.live v = true → m.tag.get v = n.tag.get v)
    (hmem : ∀ a, a ∈ m.queue ↔ a ∈ n.queue ∧ m.live a.1.node = true ∧ m.live a.2.node = true) : QueueExact W m := by
  refine ⟨hq, fun a ha => ?_, fun p q hr hp hq => ?_⟩
  · obtain ⟨ha, hl1, hl2⟩ := (hmem a).mp ha
    exact redexLive_of_same (h.sound a ha) hl1 hl2 (hwire _ hl1) (hwire _ hl2)
  · obtain ⟨hlp, hlq, -⟩ := redexLive_iff.mp hr
    have hold := redexLive_of_same hr (hlive _ hlp) (hlive _ hlq) (hwire p hlp).symm (hwire q hlq).symm
    rw [htag _ hlp] at hp
    rw [htag _ hlq] at hq
    simp only [List.mem_append, hmem, hlp, hlq, and_self, and_true]
    simpa only [List.mem_append] using h.full p q hold hp hq

/-- A node without a live partner dies. It is not queued. -/
lemma QueueExact.kill (h : QueueExact W n) {v : ℕ}
    (halone : ∀ p q : Port, p.node = v → n.wireAt p = some q → n.live q.node = false)
    (hm : m = { n with dead := n.dead.set v true } ∨ m = actDrop g { n with dead := n.dead.set v true } v) :
    QueueExact W m := by
  have hfree : ∀ a ∈ n.queue, ¬ Touches a v := by
    intro a ha hav
    obtain ⟨h1, h2, -, -, h12, h21⟩ := redexLive_iff.mp (h.sound a ha)
    rcases hav with hav | hav
    · rw [halone _ _ hav h12] at h2
      exact Bool.false_ne_true h2
    · rw [halone _ _ hav h21] at h1
      exact Bool.false_ne_true h1
  have hdead : m = { n with dead := n.dead.set v true } := by
    rcases hm with rfl | rfl
    · rfl
    · simp only [actDrop, (h.queued.none_iff v).mpr hfree]
  subst hdead
  have hlive := markDead_live n v
  refine h.shrink (h.queued.congr rfl rfl rfl) (fun u hu => ((hlive u).mp hu).1) (fun _ _ => rfl) (fun _ _ => rfl) fun a => ?_
  change a ∈ n.queue ↔ _
  refine ⟨fun ha => ?_, And.left⟩
  obtain ⟨h1, h2, -⟩ := redexLive_iff.mp (h.sound a ha)
  exact ⟨ha, (hlive _).mpr ⟨h1, fun he => hfree a ha (.inl he)⟩, (hlive _).mpr ⟨h2, fun he => hfree a ha (.inr he)⟩⟩

/-- The pair of a rule dies, and leaves the queue if it was there. -/
lemma QueueExact.bury (h : QueueExact W n) (hg : g.inParallel = false) (a b : ℕ) : QueueExact W (buryPair g n a b) := by
  have hmark : Queued (markPair n a b) := h.queued.congr rfl rfl rfl
  obtain ⟨hqa, hma⟩ := hmark.actDrop_mem hg a
  obtain ⟨hqb, hmb⟩ := hqa.actDrop_mem hg b
  have hsame := buryPair_same g n a b
  have hlive : ∀ v, (buryPair g n a b).live v = true ↔ n.live v = true ∧ v ≠ a ∧ v ≠ b := by
    intro v
    rw [hsame.live, Net.live_iff, Net.live_iff, markPair_dead]
    simp [and_assoc, markPair]
  refine h.shrink (hqb.congr rfl rfl rfl) (fun v hv => ((hlive v).mp hv).1) (fun p _ => hsame.wireAt p)
    (fun v _ => by rw [hsame.tag]; rfl) fun z => ?_
  have hqueue : (buryPair g n a b).queue = (actDrop g (actDrop g (markPair n a b) a) b).queue := rfl
  rw [hqueue, hmb, hma, hlive, hlive]
  have hstart : (markPair n a b).queue = n.queue := rfl
  rw [hstart]
  constructor
  · rintro ⟨⟨hz, hza⟩, hzb⟩
    obtain ⟨h1, h2, -⟩ := redexLive_iff.mp (h.sound z hz)
    rw [Touches, not_or] at hza hzb
    exact ⟨hz, ⟨h1, hza.1, hzb.1⟩, h2, hza.2, hzb.2⟩
  · rintro ⟨hz, ⟨-, h1a, h1b⟩, -, h2a, h2b⟩
    exact ⟨⟨hz, not_or.mpr ⟨h1a, h2a⟩⟩, not_or.mpr ⟨h1b, h2b⟩⟩

/-- A wire of a dead node is cut. No live principal port is wired to it. -/
lemma QueueExact.unhook (h : QueueExact W s.net) (ht : Tied S s) {p : Port} (hp : p.node ∈ s.limbo) :
    QueueExact W (unhook s.net p) := by
  have hframe := unhook_frame s.net p
  obtain ⟨-, hdead, hpS⟩ := ht.limbo _ hp
  have hoff : s.net.live p.node = false := by simp [Net.live, hdead]
  refine h.rewire (by rw [hframe]) (by rw [hframe]) (by rw [hframe]) (fun v => by rw [hframe]; rfl) (fun q hq0 hq => ?_)
    fun v _ => by rw [hframe]
  have hqp : q ≠ p := by
    rintro rfl
    rw [hoff] at hq
    exact Bool.false_ne_true hq
  refine (unhook_wireAt hqp).resolve_right fun hcut => ?_
  have hloose : q ∉ s.loose := fun hm => (ht.loose q hm).2.1 hq0
  rcases (ht.wire q p hq hloose hcut.2.2).1 with hl | ⟨hS, -⟩
  · rw [hoff] at hl
    exact Bool.false_ne_true hl
  · exact hpS hS

/-- A node that is allocated has no wires yet. -/
lemma QueueExact.alloc (h : QueueExact W n) (t : Tag) (sc : ℕ)
    (ha : Allocated n t sc (netAlloc g n t sc).1 (netAlloc g n t sc).2) : QueueExact W (netAlloc g n t sc).2 := by
  have hframe : (netAlloc g n t sc).2.act = n.act ∧ (netAlloc g n t sc).2.atop = n.atop ∧
      (netAlloc g n t sc).2.actOf = n.actOf := by
    rcases netAlloc_cases g n t sc with he | ⟨id, -, -, he⟩ <;> rw [he] <;> exact ⟨rfl, rfl, rfl⟩
  have hold : ∀ v, n.live v = true → v ≠ (netAlloc g n t sc).1 := by
    rintro v hv rfl
    rw [ha.fresh] at hv
    exact Bool.false_ne_true hv
  have hwired : ∀ {p q : Port}, (netAlloc g n t sc).2.wireAt p = some q → p.node ≠ (netAlloc g n t sc).1 := by
    rintro ⟨v, k⟩ q hw rfl
    rw [ha.wireNew] at hw
    exact Option.some_ne_none q hw.symm
  refine h.keep hframe.1 hframe.2.1 hframe.2.2 (fun p q _ hr => ?_) (fun p q hr _ _ => ?_) fun v hv => ha.tagOther v (hold v hv)
  · obtain ⟨hlp, hlq, -⟩ := redexLive_iff.mp hr
    have hp := hold _ hlp
    have hq := hold _ hlq
    exact redexLive_of_same hr (by rw [ha.liveOther _ hp, hlp]) (by rw [ha.liveOther _ hq, hlq]) (ha.wireOther p hp)
      (ha.wireOther q hq)
  · obtain ⟨hlp, hlq, -, -, hpq, hqp⟩ := redexLive_iff.mp hr
    have hp := hwired hpq
    have hq := hwired hqp
    rw [ha.liveOther _ hp] at hlp
    rw [ha.liveOther _ hq] at hlq
    exact redexLive_of_same hr hlp hlq (ha.wireOther p hp).symm (ha.wireOther q hq).symm

/-- Every change keeps the queue exact. -/
theorem Change.queueExact (hg : g.inParallel = false) (ht : Tied S s) (h : QueueExact W s.net) (hc : Change S g s s') :
    QueueExact W s'.net := by
  have hland : ∀ {q : Port}, Landing S s.net q → q.port = 0 → s.net.live q.node = true := by
    rintro q (hl | ⟨-, h1⟩) h0
    · exact hl
    · rw [h0] at h1
      exact absurd h1 (by decide)
  cases hc with
  | link a b e X hab ha hb _ _ _ _ hold he => exact h.link hg hab (hland ha) (hland hb) hold (he.imp_right fun he => he.imp_right .inl)
  | cut p w hpw hwp _ _ _ _ hfree => exact h.cut hpw hwp hfree
  | blank p hp => exact h.rewire rfl rfl rfl (fun _ => rfl) (fun q _ _ => blank_wireAt hp q) fun _ _ => rfl
  | kill v m _ halone hm => exact h.kill halone hm
  | unhook p hp => exact h.unhook ht hp
  | pend u hu _ =>
    have hdead : s.net.live u = false := by simp [Net.live, (ht.limbo u hu).2.1]
    have hne : ∀ v, s.net.live v = true → u ≠ v := by
      rintro v hv rfl
      rw [hdead] at hv
      exact Bool.false_ne_true hv
    refine h.rewire rfl rfl rfl (fun _ => rfl) (fun q _ hq => ?_) fun v hv => ?_
    · rw [pendPush_wireAt, if_neg fun he => hne _ hq (congrArg Port.node he)]
    · change (s.net.tag.set u .era).get v = _
      rw [Table.get_set, if_neg (hne v hv)]
  | alloc t sc => exact h.alloc t sc (ht.allocated t sc)
  | grow m hm =>
    rw [hm.same]
    exact h.rewire rfl rfl rfl (fun _ => rfl) (fun _ _ _ => rfl) fun _ _ => rfl
  | bury a b => exact h.bury hg a b
  | forget U _ => exact h

lemma Changes.queueExact (hg : g.inParallel = false) (hc : Changes S g s s') (ht : Tied S s) (h : QueueExact W s.net) :
    QueueExact W s'.net := by
  induction hc with
  | refl => exact h
  | tail hrun hlast ih => exact hlast.queueExact hg (Changes.tied hrun ht) ih

/-- No change marks a node for the round of the demand walk that is to come. -/
lemma Change.past (h : Past 32 s.net.dem.get s.net.demStamp) (hc : Change S g s s') :
    Past 32 s'.net.dem.get s'.net.demStamp := by
  have hlink : ∀ a b e, (netLink g s.net a b e).dem = s.net.dem ∧ (netLink g s.net a b e).demStamp = s.net.demStamp := by
    intro a b e
    unfold netLink actPush
    split
    · dsimp only
      split_ifs <;> exact ⟨rfl, rfl⟩
    · exact ⟨rfl, rfl⟩
  cases hc with
  | link a b e X =>
    obtain ⟨hdem, hstamp⟩ := hlink (some a) (some b) e
    rwa [hdem, hstamp]
  | cut | blank | pend | forget => exact h
  | kill v m _ _ hm =>
    rcases hm with rfl | rfl
    · exact h
    · obtain ⟨hdem, hstamp, -⟩ := actDrop_marks g { s.net with dead := s.net.dead.set v true } v
      rwa [hdem, hstamp]
  | unhook p =>
    dsimp only
    rwa [unhook_frame]
  | alloc t sc => exact netAlloc_past h g t sc
  | grow m hm =>
    dsimp only
    rwa [hm.same]
  | bury a b =>
    obtain ⟨hdem, hstamp, -⟩ := actDrop_marks g (markPair s.net a b) a
    obtain ⟨hdem', hstamp', -⟩ := actDrop_marks g (actDrop g (markPair s.net a b) a) b
    change Past 32 (actDrop g (actDrop g (markPair s.net a b) a) b).dem.get (actDrop g (actDrop g (markPair s.net a b) a) b).demStamp
    rwa [hdem', hstamp', hdem, hstamp]

lemma Changes.past (hc : Changes S g s s') (h : Past 32 s.net.dem.get s.net.demStamp) :
    Past 32 s'.net.dem.get s'.net.demStamp := by
  induction hc with
  | refl => exact h
  | tail _ hlast ih => exact hlast.past ih

/-! ## Calls -/

/-- A net between two calls: its slots, its queue, and the marks of its demand walks. -/
structure Poised (W : List (Port × Port)) (n : Net) : Prop where
  orderly : Orderly n
  queue : QueueExact W n
  past : Past 32 n.dem.get n.demStamp

lemma Poised.fire (h : Poised W n) (hg : g.inParallel = false) {p q : Port} (hr : redexLive n p q = true) :
    Poised W (netInteract g n p q).2 := by
  obtain ⟨S, hS⟩ := h.orderly
  have hc := netInteract_changes (g := g) hS hr
  exact ⟨⟨S, hc.tied hS⟩, hc.queueExact hg hS h.queue, hc.past h.past⟩

/-- Only the roots, the step count and the like change. -/
lemma Poised.aside (h : Poised W n) (hsame : SameGraph n m) (hnfree : m.nfree = n.nfree)
    (hqueue : m.act = n.act ∧ m.atop = n.atop ∧ m.actOf = n.actOf) (hmarks : m.dem = n.dem ∧ m.demStamp = n.demStamp) :
    Poised W m := by
  obtain ⟨S, hS⟩ := h.orderly
  refine ⟨⟨S, hS.sameGraph hsame hnfree⟩, h.queue.sameGraph hsame hqueue.1 hqueue.2.1 hqueue.2.2, ?_⟩
  rw [hmarks.1, hmarks.2]
  exact h.past

/-- A pair of the wave that is no redex any more need not be fired. -/
lemma QueueExact.skip {a : Port × Port} (h : QueueExact (a :: W) n) (ha : redexLive n a.1 a.2 ≠ true) : QueueExact W n := by
  refine ⟨h.queued, h.sound, fun p q hr hp hq => ?_⟩
  have hne : (p, q) ≠ a ∧ (q, p) ≠ a := by
    constructor
    · rintro rfl
      exact ha hr
    · rintro rfl
      exact ha (redexLive_symm hr)
  have hfull := h.full p q hr hp hq
  simp only [List.mem_append, List.mem_cons, hne.1, hne.2, false_or] at hfull ⊢
  exact hfull

/-- A pair of the wave whose rule declines is queued again. -/
lemma QueueExact.requeue {a : Port × Port} (h : QueueExact (a :: W) n) (ha : redexLive n a.1 a.2 = true)
    (hne : a.1.node ≠ a.2.node) : QueueExact W (actPush n a.1 a.2) := by
  obtain ⟨p, q⟩ := a
  dsimp only at ha hne ⊢
  obtain ⟨-, -, hp0, hq0, hpq, hqp⟩ := redexLive_iff.mp ha
  have hsame := actPush_same n p q
  obtain ⟨hqueued, hqueue⟩ := h.queued.actPush hne
  have hold : ∀ z ∈ n.queue, z ∈ (actPush n p q).queue := by
    intro z hz
    rw [hqueue]
    split_ifs
    · exact hz
    · exact List.mem_append_left _ hz
  have hnew : ∀ z ∈ (actPush n p q).queue, z ∈ n.queue ∨ z = (p, q) := by
    intro z hz
    rw [hqueue] at hz
    split_ifs at hz
    · exact .inl hz
    · simpa using hz
  have hin : (p, q) ∈ (actPush n p q).queue ∨ (q, p) ∈ (actPush n p q).queue := by
    by_cases htouched : ∃ z ∈ n.queue, Touches z p.node ∨ Touches z q.node
    · -- what is queued for one of the ends is this pair
      obtain ⟨z, hz, ht⟩ := htouched
      have hpair : z = (p, q) ∨ z = (q, p) := by
        rcases ht with ht | ht
        · obtain ⟨d, -, hd, hzd⟩ := h.meets hz hp0 ht
          obtain rfl := Option.some.inj (hpq.symm.trans hd)
          exact hzd
        · obtain ⟨d, -, hd, hzd⟩ := h.meets hz hq0 ht
          obtain rfl := Option.some.inj (hqp.symm.trans hd)
          exact hzd.symm
      rcases hpair with rfl | rfl
      · exact .inl (hold _ hz)
      · exact .inr (hold _ hz)
    · have hfree : n.actOf.get p.node = none ∧ n.actOf.get q.node = none :=
        ⟨(h.queued.none_iff _).mpr fun z hz ht => htouched ⟨z, hz, .inl ht⟩,
          (h.queued.none_iff _).mpr fun z hz ht => htouched ⟨z, hz, .inr ht⟩⟩
      rw [hqueue, hfree.1, hfree.2]
      exact .inl (by simp)
  refine ⟨hqueued, fun z hz => ?_, fun x y hr hx hy => ?_⟩
  · rw [hsame.redexLive]
    rcases hnew z hz with hz | rfl
    · exact h.sound z hz
    · exact ha
  · rw [hsame.redexLive] at hr
    rw [hsame.tag] at hx hy
    have hfull := h.full x y hr hx hy
    simp only [List.mem_append, List.mem_cons, Prod.mk.injEq] at hfull ⊢
    rcases hfull with (hq | ⟨rfl, rfl⟩ | hw) | (hq | ⟨rfl, rfl⟩ | hw)
    · exact .inl (.inl (hold _ hq))
    · exact hin.imp .inl .inl
    · exact .inl (.inr hw)
    · exact .inr (.inl (hold _ hq))
    · exact hin.symm.imp .inl .inl
    · exact .inr (.inr hw)

/-- A rule that fires consumes its pair. -/
lemma netInteract_consumes {p q : Port} (hf : (netInteract g n p q).1 = true) {v : ℕ}
    (hv : (netInteract g n p q).2.live v = true) : v ≠ p.node ∧ v ≠ q.node := by
  have htrivial : Primitive g fun _ _ => True := ⟨⟨fun _ => trivial, fun _ _ => trivial, fun _ _ _ => trivial,
    fun _ _ _ => trivial, fun _ _ => trivial, fun _ _ => trivial⟩, fun _ _ _ => trivial, fun _ _ => trivial⟩
  rcases htrivial.netInteract_cases n p q with h | ⟨m, a, b, -, hab, h⟩
  · rw [h] at hf
    exact absurd hf Bool.false_ne_true
  · rw [h] at hv
    have hne := retire_live g m a b hv
    rcases hab with ⟨rfl, rfl⟩ | ⟨rfl, rfl⟩
    · exact hne
    · exact hne.symm

lemma Poised.apart (h : Poised W n) {p q : Port} (hr : redexLive n p q = true) : p.node ≠ q.node := by
  obtain ⟨S, hS⟩ := h.orderly
  obtain ⟨hlp, -, hp0, hq0, hpq, -⟩ := redexLive_iff.mp hr
  exact fun he => (hS.wire p q hlp (Set.notMem_empty p) hpq).2.2.2 (port_ext he.symm (hq0.trans hp0.symm))

/-- One pair of the wave: it is no redex any more, or its rule fires, or it is queued again. -/
lemma Poised.step {r : Run} {a : Port × Port} (h : Poised (a :: W) r.net) (hg : g.inParallel = false) :
    Poised W (fireStep g r a).net := by
  unfold fireStep
  by_cases hr : redexLive r.net a.1 a.2 = true
  swap
  · rw [if_pos (by simpa using hr)]
    exact { h with queue := h.queue.skip hr }
  rw [if_neg (by simpa using hr)]
  cases hf : (netInteract g r.net a.1 a.2).1 with
  | true =>
    have hfire := h.fire hg hr
    have hgone : redexLive (netInteract g r.net a.1 a.2).2 a.1 a.2 ≠ true := fun hl =>
      (netInteract_consumes hf (redexLive_iff.mp hl).1).1 rfl
    have hrest : Poised W (netInteract g r.net a.1 a.2).2 := { hfire with queue := hfire.queue.skip hgone }
    simp only [hf, if_true]
    exact hrest.aside ⟨rfl, rfl, rfl, rfl, rfl, rfl, rfl, rfl, rfl⟩ rfl ⟨rfl, rfl, rfl⟩ ⟨rfl, rfl⟩
  | false =>
    have halive : bothAlive r.net a = true := by
      obtain ⟨h1, h2, -⟩ := redexLive_iff.mp hr
      simp [bothAlive, ((Net.live_iff _).mp h1).2, ((Net.live_iff _).mp h2).2]
    have hrest : Poised W (actPush r.net a.1 a.2) := by
      obtain ⟨S, hS⟩ := h.orderly
      have hsame := actPush_same r.net a.1 a.2
      refine ⟨⟨S, hS.sameGraph hsame (actPush_nfree _ _ _)⟩, h.queue.requeue hr (h.apart hr), ?_⟩
      have hmarks : (actPush r.net a.1 a.2).dem = r.net.dem ∧ (actPush r.net a.1 a.2).demStamp = r.net.demStamp := by
        unfold actPush
        split_ifs <;> exact ⟨rfl, rfl⟩
      rw [hmarks.1, hmarks.2]
      exact h.past
    simp only [hf, Bool.false_eq_true, if_false, netInteract_inert hf, halive, if_true]
    exact hrest.aside ⟨rfl, rfl, rfl, rfl, rfl, rfl, rfl, rfl, rfl⟩ rfl ⟨rfl, rfl, rfl⟩ ⟨rfl, rfl⟩

/-- The pairs of the wave, one after the other. -/
lemma Poised.steps (hg : g.inParallel = false) {as : List (Port × Port)} {r : Run} (h : Poised as r.net) :
    Poised [] (as.foldl (fireStep g) r).net := by
  induction as generalizing r with
  | nil => exact h
  | cons a as ih => exact ih (h.step hg)

/-- What the demand walk has emitted and what it has marked. -/
lemma netMarkDemand_walked (hg : g.inParallel = false) (hq : Queued n) (hpast : Past 32 n.dem.get n.demStamp) :
    Demanding (nextStamp n) (netMarkDemand g n) none ∧ ∀ v, OnDemandPath n v → (netMarkDemand g n).1.Demanded v := by
  have hroot : (nextStamp n).root = n.root := (nextStamp_marked n).roots.root
  have hroots : ∀ p ∈ ⟨0, 0⟩ :: (nextStamp n).root, DemandPath (nextStamp n) p := fun p hp => .root hp
  obtain ⟨-, hwalk, -, hall⟩ := (walking_start hq hpast).runAll hg hroots
  exact ⟨hwalk, fun v hv => (hwalk.complete hall v).mpr ((nextStamp_back n).onDemandPath hv)⟩

/-- The wave takes out of the queue what the walk has emitted, and nothing else. -/
lemma Poised.mark (h : Poised [] n) (hg : g.inParallel = false) :
    Poised (netMarkDemand g n).2 (netMarkDemand g n).1 ∧ ∀ a ∈ (netMarkDemand g n).2, BothDemanded (netMarkDemand g n).1 a := by
  obtain ⟨S, hS⟩ := h.orderly
  obtain ⟨hwalk, -⟩ := netMarkDemand_walked hg h.queue.queued h.past
  have hmark := netMarkDemand_marked g n
  have hstart : (nextStamp n).queue = n.queue := by
    obtain ⟨hact, htop, -⟩ := nextStamp_queue n
    exact Net.queue_congr hact htop
  have hperm := hwalk.drained.perm
  rw [hstart] at hperm
  refine ⟨⟨⟨S, hS.sameGraph hmark.graph hmark.nfree⟩, ⟨hwalk.drained.queued, fun a ha => ?_, fun p q hr hp hq => ?_⟩,
    hwalk.past⟩, hwalk.drained.out⟩
  · rw [hmark.graph.redexLive]
    exact h.queue.sound a (hperm.subset (List.mem_append_right _ ha))
  · rw [hmark.graph.redexLive] at hr
    rw [hmark.graph.tag] at hp hq
    have hmem : ∀ z, z ∈ n.queue ++ [] → z ∈ (netMarkDemand g n).1.queue ++ (netMarkDemand g n).2 := fun z hz => by
      rw [List.append_nil] at hz
      exact List.perm_append_comm.subset (hperm.symm.subset hz)
    exact (h.queue.full p q hr hp hq).imp (hmem _) (hmem _)

lemma flushLoop_rest (fuel : ℕ) (n : Net) : (flushLoop fuel n).act = n.act ∧ (flushLoop fuel n).atop = n.atop ∧
    (flushLoop fuel n).actOf = n.actOf ∧ (flushLoop fuel n).dem = n.dem ∧ (flushLoop fuel n).demStamp = n.demStamp ∧
    (flushLoop fuel n).tag = n.tag := by
  induction fuel generalizing n with
  | zero => exact ⟨rfl, rfl, rfl, rfl, rfl, rfl⟩
  | succ fuel ih =>
    unfold flushLoop
    split
    · exact ⟨rfl, rfl, rfl, rfl, rfl, rfl⟩
    · exact ih _

lemma Poised.flush (h : Poised W n) : Poised W (netFlushFree g n) := by
  obtain ⟨S, hS⟩ := h.orderly
  have htied := netFlushFree_tied (g := g) hS
  unfold netFlushFree at htied ⊢
  split_ifs at htied ⊢
  · exact h
  · obtain ⟨l, l', hlists, hs⟩ := hS.lists
    obtain ⟨-, hpub⟩ := flushLoop_lists n.nn hlists hlists.pend.length_le
    obtain ⟨hact, htop, hof, hdem, hstamp, htag⟩ := flushLoop_rest n.nn n
    refine ⟨⟨S, htied⟩, h.queue.rewire hact htop hof (fun v => ?_) (fun p _ hp => hpub.wire p (hs.off_live hp).2)
      fun v _ => by rw [htag], ?_⟩
    · simp only [Net.live, Net.inNet, hpub.nn, hpub.dead]
    · rw [hdem, hstamp]
      exact h.past

lemma Poised.collect (h : Poised [] n) : Poised [] (netGc n) := by
  obtain ⟨S, hS⟩ := h.orderly
  by_cases hnn : n.nn ≤ 1
  · rw [netGc, if_pos hnn]
    exact h
  · have hlt : 1 < n.nn := Nat.lt_of_not_le hnn
    have hswept := netGc_swept hlt
    have hgc := netGc_collected hlt
    have hdead := hswept.dead
    have hmem : ∀ v, v ∈ doomed (reach n) n (List.range' 1 (n.nn - 1)) ↔ v ≠ 0 ∧ n.live v = true ∧ ¬Reachable n v :=
      fun v => mem_doomed
    have hlive : ∀ v, (netGc n).live v = true ↔ n.live v = true ∧ v ∉ doomed (reach n) n (List.range' 1 (n.nn - 1)) := by
      intro v
      rw [Net.live_iff, Net.live_iff, (netGc_frame n).1, hdead]
      simp [and_assoc, gcReady]
    have hmarks : (netGc n).dem = n.dem ∧ (netGc n).demStamp = n.demStamp := by
      rw [hswept.frame]
      exact ⟨rfl, rfl⟩
    -- what is queued is an anchor of the mark
    have hkept : ∀ a ∈ n.queue, ∀ v, Touches a v → (netGc n).live v = true := by
      intro a ha v hv
      obtain ⟨h1, h2, -⟩ := redexLive_iff.mp (h.queue.sound a ha)
      have hl : n.live v = true := hv.elim (fun he => he ▸ h1) fun he => he ▸ h2
      refine (hlive v).mpr ⟨hl, fun hd => ((hmem v).mp hd).2.2 ⟨v, ?_, hl, .refl⟩⟩
      rw [anchors, List.mem_append, List.mem_flatMap]
      exact .inr ⟨a, ha, by simpa [Touches, eq_comm] using hv⟩
    refine ⟨⟨S, netGc_tied hS⟩, h.queue.shrink (netGc_queued h.queue.queued) (fun v hv => ((hlive v).mp hv).1)
      (fun p hp => hswept.wire p ((hlive _).mp hp).2) (fun v hv => hswept.tag v ((hlive v).mp hv).2) fun a => ?_, ?_⟩
    · rw [hgc.queue, List.mem_filter]
      constructor
      · rintro ⟨ha, -⟩
        exact ⟨ha, hkept a ha _ (.inl rfl), hkept a ha _ (.inr rfl)⟩
      · rintro ⟨ha, -, -⟩
        obtain ⟨h1, h2, -⟩ := redexLive_iff.mp (h.queue.sound a ha)
        exact ⟨ha, by simp [bothAlive, ((Net.live_iff _).mp h1).2, ((Net.live_iff _).mp h2).2]⟩
    · rw [hmarks.1, hmarks.2]
      exact h.past

/-! ## Reductions -/

/-- No emitted pair fails the check of the marks. -/
lemma Poised.wave_eq {r : Run} (h : Poised [] r.net) (hg : g.inParallel = false) :
    let w := (netMarkDemand g r.net).2.foldl (fireStep g) ⟨(netMarkDemand g r.net).1, r.changed, r.gone⟩
    reduceWave g r = { w with net := netFlushFree g w.net } := by
  have hbase : ((netMarkDemand g r.net).2.filter fun a =>
      (netMarkDemand g r.net).1.dem.get a.1.node == (netMarkDemand g r.net).1.demStamp &&
        (netMarkDemand g r.net).1.dem.get a.2.node == (netMarkDemand g r.net).1.demStamp) = (netMarkDemand g r.net).2 :=
    List.filter_eq_self.mpr fun a ha => by
      obtain ⟨h1, h2⟩ := (h.mark hg).2 a ha
      rw [Bool.and_eq_true, beq_iff_eq, beq_iff_eq]
      exact ⟨h1, h2⟩
  rw [reduceWave]
  dsimp only
  rw [hbase]

/-- The net of the wave before its slots are published. -/
lemma Poised.fired {r : Run} (h : Poised [] r.net) (hg : g.inParallel = false) :
    Poised [] ((netMarkDemand g r.net).2.foldl (fireStep g) ⟨(netMarkDemand g r.net).1, r.changed, r.gone⟩).net :=
  Poised.steps hg (r := ⟨(netMarkDemand g r.net).1, r.changed, r.gone⟩) (h.mark hg).1

lemma Poised.wave {r : Run} (h : Poised [] r.net) (hg : g.inParallel = false) : Poised [] (reduceWave g r).net := by
  rw [h.wave_eq hg]
  exact (h.fired hg).flush

lemma Poised.waves (hg : g.inParallel = false) (limit fuel : ℕ) {r : Run} (h : Poised [] r.net) :
    Poised [] (reduceWaves g limit fuel r).net := by
  induction fuel generalizing r with
  | zero => exact h
  | succ fuel ih =>
    have hwave := h.wave hg
    unfold reduceWaves
    split_ifs
    · extract_lets w
      split_ifs
      · exact hwave
      · exact ih hwave
    · exact h

lemma Poised.loop (hg : g.inParallel = false) (limit fuel : ℕ) (mark : ℤ) {r : Run} (h : Poised [] r.net) :
    Poised [] (reduceLoop g limit fuel mark r).net := by
  induction fuel generalizing mark r with
  | zero => exact h
  | succ fuel ih =>
    unfold reduceLoop
    split_ifs
    · have hwaves := Poised.waves hg limit (limit - r.net.steps) (r := { r with changed := 0 }) h
      extract_lets w gc w' mark'
      have hw' : Poised [] w'.net := by
        cases hgc : gc with
        | true =>
          have he : w'.net = netGc w.net := by simp only [w', hgc, if_true]
          rw [he]
          exact hwaves.collect
        | false =>
          have he : w' = w := by simp only [w', hgc, Bool.false_eq_true, if_false]
          rw [he]
          exact hwaves
      split_ifs
      · exact hw'
      · exact ih _ hw'
    · exact h

lemma Poised.reduce (h : Poised [] n) (hg : g.inParallel = false) (gcenv : Option ℕ) (limit : ℕ) :
    Poised [] (netReduce g gcenv limit n) :=
  (Poised.loop (g := { g with reduceDepth := g.reduceDepth + 1 }) hg limit _ _ (r := ⟨n, 0, []⟩) h).flush

lemma Poised.demand (h : Poised W n) (p : Port) : Poised W (linDemand n p) := by
  unfold linDemand
  split_ifs
  · exact h
  · exact h
  · exact h.aside ⟨rfl, rfl, rfl, rfl, rfl, rfl, rfl, rfl, rfl⟩ rfl ⟨rfl, rfl, rfl⟩ ⟨rfl, rfl⟩

lemma Poised.force (h : Poised [] n) (hg : g.inParallel = false) (gcenv : Option ℕ) (p : Port) :
    Poised [] (netForce g gcenv n p) := by
  unfold netForce
  split_ifs
  · exact h
  · have hrun : Poised [] (forceRun g gcenv n p).net := (h.demand p).reduce hg gcenv _
    exact hrun.aside ⟨rfl, rfl, rfl, rfl, rfl, rfl, rfl, rfl, rfl⟩ rfl ⟨rfl, rfl, rfl⟩ ⟨rfl, rfl⟩

/-! ## Runs -/

/-- A call on the net, at its own nesting depth. A net may be pinned or released in between. -/
inductive EngineCall
  | interact (g : Globals) (p q : Port)
  | reduce (g : Globals) (gcenv : Option ℕ) (limit : ℕ)
  | force (g : Globals) (gcenv : Option ℕ) (p : Port)
  | sever (g : Globals) (p : Port)
  | alloc (g : Globals) (t : Tag) (sc : ℕ)
  | demand (p : Port)
  | flush (g : Globals)
  | gc
  | pin (k : ℕ)

def EngineCall.run (n : Net) : EngineCall → Net
  | .interact g p q => (netInteract g n p q).2
  | .reduce g gcenv limit => netReduce g gcenv limit n
  | .force g gcenv p => netForce g gcenv n p
  | .sever g p => netSever g n p
  | .alloc g t sc => (netAlloc g n t sc).2
  | .demand p => linDemand n p
  | .flush g => netFlushFree g n
  | .gc => netGc n
  | .pin k => { n with pins := k }

/-- One thread calls; it fires live redexes, and cuts wires of live nodes that no queued pair has. -/
def EngineCall.Proper (n : Net) : EngineCall → Prop
  | .interact g p q => g.inParallel = false ∧ redexLive n p q = true
  | .reduce g _ _ | .force g _ _ => g.inParallel = false
  | .sever g p => g.inParallel = false ∧ n.live p.node = true ∧
      (p.port ≠ 0 ∨ n.actOf.get p.node = none)
  | _ => True

/-- The nets that proper calls reach from `n`. -/
inductive EngineRuns (n : Net) : Net → Prop
  | refl : EngineRuns n n
  | step {m : Net} {c : EngineCall} : EngineRuns n m → c.Proper m → EngineRuns n (c.run m)

/-- Cutting a wire that is not that of a queued pair. -/
lemma Poised.sever (h : Poised W n) (hg : g.inParallel = false) {p : Port} (hp : n.live p.node = true)
    (hfree : p.port ≠ 0 ∨ n.actOf.get p.node = none) : Poised W (netSever g n p) := by
  obtain ⟨S, hS⟩ := h.orderly
  have hcut : Change S g ⟨n, ∅, ∅⟩ ⟨unhook n p, ∅, ∅⟩ := by
    cases hw : n.wireAt p with
    | none =>
      rw [unhook_none hw]
      exact .blank ⟨n, ∅, ∅⟩ p hw
    | some w =>
      obtain ⟨hland, -, hback, hne⟩ := hS.wire p w hp (Set.notMem_empty p) hw
      rw [unhook_mutual hw hback hne (hS.landing_lt hland)]
      exact .cut ⟨n, ∅, ∅⟩ p w hw hback (.inl hp) (Set.notMem_empty p) (Set.notMem_empty w) (.inl rfl)
        (hfree.symm.imp_right .inl)
  obtain ⟨U, hc, -⟩ := netSever_changes hS (Net.live_iff _ |>.mp hp).1 hcut
  exact ⟨⟨S, (hc.tied hS).forget (Set.empty_subset _)⟩, hc.queueExact hg hS h.queue, hc.past h.past⟩

lemma Poised.call (h : Poised [] n) {c : EngineCall} (hc : c.Proper n) : Poised [] (c.run n) := by
  cases c with
  | interact g p q => exact h.fire hc.1 hc.2
  | reduce g gcenv limit => exact h.reduce hc gcenv limit
  | force g gcenv p => exact h.force hc gcenv p
  | sever g p => exact h.sever hc.1 hc.2.1 hc.2.2
  | alloc g t sc =>
    obtain ⟨S, hS⟩ := h.orderly
    have hchange : Change S g ⟨n, ∅, ∅⟩ ⟨(netAlloc g n t sc).2, ∅, ∅⟩ := .alloc ⟨n, ∅, ∅⟩ t sc
    exact ⟨⟨S, hchange.tied hS⟩, h.queue.alloc t sc (hS.allocated t sc), hchange.past h.past⟩
  | demand p => exact h.demand p
  | flush g => exact h.flush
  | gc => exact h.collect
  | pin k =>
    obtain ⟨S, hS⟩ := h.orderly
    obtain ⟨l, l', hs⟩ := hS.slots
    refine ⟨⟨S, hS.wire, hS.loose, hS.stub, hS.limbo, l, l', ?_⟩, ?_, h.past⟩
    · exact hs.frame rfl rfl rfl rfl (fun _ => rfl) (fun _ _ => rfl) fun _ _ _ _ hq => hq
    · exact h.queue.rewire rfl rfl rfl (fun _ => rfl) (fun _ _ _ => rfl) fun _ _ => rfl

lemma EngineRuns.poised (hm : EngineRuns n m) (h : Poised [] n) : Poised [] m := by
  induction hm with
  | refl => exact h
  | step _ hc ih => exact ih.call hc

/-- In every net that a run reaches, the queue is the list of the live redexes, each once, but for those of ROOT. -/
theorem activation_exact (h : Poised [] n) (hm : EngineRuns n m) : m.queue.Nodup ∧
    (∀ a ∈ m.queue, redexLive m a.1 a.2 = true) ∧
    (∀ p q, redexLive m p q = true → m.tag.get p.node ≠ .root → m.tag.get q.node ≠ .root →
      (p, q) ∈ m.queue ∨ (q, p) ∈ m.queue) ∧
    ∀ v i, m.actOf.get v = some i ↔ ∃ k, i = 2 * k ∧ StandsAt m.queue k v := by
  have hqueue := (hm.poised h).queue
  refine ⟨hqueue.queued.nodup, hqueue.sound, fun p q hr hp hq => ?_, hqueue.queued.index⟩
  simpa using hqueue.full p q hr hp hq

end Exact

end LinEngine
