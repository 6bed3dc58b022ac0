import LinEngine.Activation
import LinEngine.Compiled

/-!
# Where a reduction stops

A reduction that does not run into its limit stops after a wave that fires nothing, or with an empty
queue. As the queue is exact, no redex is left then that a demand path reaches.
-/
namespace LinEngine

open Stamps (Past)

/-- The rules can fire no redex that is demanded at both ends. -/
def Idle (n : Net) : Prop :=
  ∀ p q, redexLive n p q = true → OnDemandPath n p.node → OnDemandPath n q.node →
    fireable (n.tag.get p.node) (n.tag.get q.node) = false

/-- What is live in `m` was live in `n`, with the same tag and wires, and the roots were roots. -/
structure Remains (n m : Net) : Prop where
  live : ∀ v, m.live v = true → n.live v = true
  tag : ∀ v, m.live v = true → m.tag.get v = n.tag.get v
  wire : ∀ p : Port, m.live p.node = true → m.wireAt p = n.wireAt p
  root : ∀ p ∈ m.root, p ∈ n.root

section Remains

variable {n m k : Net} {g : Globals}

lemma Remains.refl (n : Net) : Remains n n := ⟨fun _ h => h, fun _ _ => rfl, fun _ _ => rfl, fun _ h => h⟩

lemma Remains.trans (h : Remains n m) (h' : Remains m k) : Remains n k where
  live v hv := h.live v (h'.live v hv)
  tag v hv := (h'.tag v hv).trans (h.tag v (h'.live v hv))
  wire p hp := (h'.wire p hp).trans (h.wire p (h'.live _ hp))
  root p hp := h.root p (h'.root p hp)

lemma Remains.same (hsame : SameGraph n m) (hroot : m.root = n.root) : Remains n m where
  live v hv := by rwa [← hsame.live]
  tag v _ := by rw [hsame.tag]
  wire p _ := hsame.wireAt p
  root p hp := hroot ▸ hp

lemma Remains.demandNext (h : Remains n m) {p : Port} (hp : m.live p.node = true) : demandNext m p = demandNext n p := by
  simp only [LinEngine.demandNext, hp, h.live _ hp, h.tag _ hp, h.wire p hp, h.wire ⟨p.node, 0⟩ hp]

/-- Demand paths are not longer than they were. -/
lemma Remains.demandPath (h : Remains n m) {p : Port} (hp : DemandPath m p) : DemandPath n p := by
  induction hp with
  | root hp =>
    rcases List.mem_cons.mp hp with rfl | hp
    · exact .root List.mem_cons_self
    · exact .root (List.mem_cons_of_mem _ (h.root _ hp))
  | next _ hq ih => exact .next ih (h.demandNext (demandNext_live hq) ▸ hq)

lemma Remains.facesAt (h : Remains n m) {p : Port} {v : ℕ} (hf : FacesAt m p v) : FacesAt n p v := by
  obtain ⟨hl, hroot, hera, hp0, q, hq, hqv, hq0, hv, hface⟩ := hf
  rw [h.tag _ hl] at hroot hera
  rw [h.wire p hl] at hq
  rw [h.tag _ hl, h.tag _ hv] at hface
  exact ⟨h.live _ hl, hroot, hera, hp0, q, hq, hqv, hq0, h.live _ hv, hface⟩

lemma Remains.onDemandPath (h : Remains n m) {v : ℕ} (hv : OnDemandPath m v) : OnDemandPath n v := by
  obtain ⟨p, hp, hon⟩ := hv
  exact ⟨p, h.demandPath hp, hon.imp (fun ⟨he, hl⟩ => ⟨he, h.live _ hl⟩) h.facesAt⟩

lemma Remains.redexLive (h : Remains n m) {p q : Port} (hr : redexLive m p q = true) : redexLive n p q = true := by
  obtain ⟨hp, hq, -⟩ := redexLive_iff.mp hr
  exact redexLive_of_same hr (h.live _ hp) (h.live _ hq) (h.wire p hp).symm (h.wire q hq).symm

lemma Idle.remains (hn : Idle n) (h : Remains n m) : Idle m := by
  intro p q hr hp hq
  obtain ⟨hlp, hlq, -⟩ := redexLive_iff.mp hr
  rw [h.tag _ hlp, h.tag _ hlq]
  exact hn p q (h.redexLive hr) (h.onDemandPath hp) (h.onDemandPath hq)

lemma remains_flush (h : Orderly n) : Remains n (netFlushFree g n) := by
  obtain ⟨S, hS⟩ := h
  have hroots := roots_netFlushFree g n
  unfold netFlushFree at hroots ⊢
  split_ifs at hroots ⊢
  · exact .refl n
  · obtain ⟨l, l', hlists, hs⟩ := hS.lists
    obtain ⟨-, hpub⟩ := flushLoop_lists n.nn hlists hlists.pend.length_le
    have hlive : ∀ v, (flushLoop n.nn n).live v = n.live v := fun v => by
      simp only [Net.live, Net.inNet, hpub.nn, hpub.dead]
    refine ⟨fun v hv => by rwa [← hlive], fun v _ => by rw [(flushLoop_rest n.nn n).2.2.2.2.2], fun p hp => ?_,
      fun p hp => hroots.root ▸ hp⟩
    rw [hlive] at hp
    exact hpub.wire p (hs.off_live hp).2

lemma remains_gc (n : Net) : Remains n (netGc n) := by
  by_cases hnn : n.nn ≤ 1
  · rw [netGc, if_pos hnn]
    exact .refl n
  · have hlt : 1 < n.nn := Nat.lt_of_not_le hnn
    have hswept := netGc_swept hlt
    have hlive : ∀ v, (netGc n).live v = true → n.live v = true ∧ v ∉ doomed (reach n) n (List.range' 1 (n.nn - 1)) := by
      intro v hv
      rw [Net.live_iff, (netGc_frame n).1, hswept.dead] at hv
      rw [Net.live_iff]
      simpa [and_assoc, gcReady] using hv
    refine ⟨fun v hv => (hlive v hv).1, fun v hv => hswept.tag v (hlive v hv).2, fun p hp => hswept.wire p (hlive _ hp).2,
      fun p hp => ?_⟩
    rw [(netGc_collected hlt).roots] at hp
    exact List.mem_of_mem_filter hp

end Remains

/-! ## Waves -/

section Waves

lemma fireable_comm (t t' : Tag) : fireable t t' = fireable t' t := by
  cases t <;> cases t' <;> rfl

variable {n m : Net} {g : Globals} {r : Run}

lemma fireStep_idle {a : Port × Port} (h : (fireStep g r a).changed = r.changed) :
    SameGraph r.net (fireStep g r a).net ∧ (fireStep g r a).net.root = r.net.root ∧
      (redexLive r.net a.1 a.2 = true → fireable (r.net.tag.get a.1.node) (r.net.tag.get a.2.node) = false) := by
  unfold fireStep at h ⊢
  by_cases hr : redexLive r.net a.1 a.2 = true
  swap
  · rw [if_pos (by simpa using hr)]
    exact ⟨.refl _, rfl, fun hl => absurd hl hr⟩
  rw [if_neg (by simpa using hr)] at h ⊢
  cases hf : (netInteract g r.net a.1 a.2).1 with
  | true =>
    simp only [hf, if_true] at h
    omega
  | false =>
    have hsame : SameGraph r.net (if bothAlive r.net a = true then actPush r.net a.1 a.2 else r.net) ∧
        SameRoots r.net (if bothAlive r.net a = true then actPush r.net a.1 a.2 else r.net) := by
      split_ifs
      · exact ⟨actPush_same _ _ _, roots_actPush _ _ _⟩
      · exact ⟨.refl _, .refl _⟩
    simp only [hf, Bool.false_eq_true, if_false, netInteract_inert hf]
    refine ⟨hsame.1.trans ⟨rfl, rfl, rfl, rfl, rfl, rfl, rfl, rfl, rfl⟩, hsame.2.root, fun _ => ?_⟩
    rw [← netInteract_fst g, hf]

/-- A wave that fires nothing leaves the net as it was, and none of its pairs can fire. -/
lemma fireAll_idle (as : List (Port × Port)) (h : (as.foldl (fireStep g) r).changed = r.changed) :
    SameGraph r.net (as.foldl (fireStep g) r).net ∧ (as.foldl (fireStep g) r).net.root = r.net.root ∧
      ∀ a ∈ as, redexLive r.net a.1 a.2 = true → fireable (r.net.tag.get a.1.node) (r.net.tag.get a.2.node) = false := by
  induction as generalizing r with
  | nil => exact ⟨.refl _, rfl, fun a ha => absurd ha List.not_mem_nil⟩
  | cons a as ih =>
    rw [List.foldl_cons] at h ⊢
    have hfirst := (fireStep_extends g r a).changed
    have hrest := (fireAll_extends g as (fireStep g r a)).changed
    obtain ⟨hsame, hroot, ha⟩ := fireStep_idle (g := g) (r := r) (a := a) (by omega)
    obtain ⟨hsame', hroot', has⟩ := ih (r := fireStep g r a) (by omega)
    refine ⟨hsame.trans hsame', hroot'.trans hroot, fun z hz hr => ?_⟩
    rcases List.mem_cons.mp hz with rfl | hz
    · exact ha hr
    · have hz := has z hz
      rw [hsame.redexLive, hsame.tag] at hz
      exact hz hr

/-- All redexes that are demanded at both ends are in the wave. -/
lemma Poised.wave_idle (h : Poised [] r.net) (hg : g.inParallel = false) (hw : (reduceWave g r).changed = r.changed) :
    Idle (reduceWave g r).net := by
  obtain ⟨hwalk, hdemanded⟩ := netMarkDemand_walked hg h.queue.queued h.past
  have hmarked := netMarkDemand_marked g r.net
  have hfired := h.fired hg
  rw [h.wave_eq hg] at hw ⊢
  obtain ⟨hsame, hroot, hall⟩ := fireAll_idle (netMarkDemand g r.net).2 hw
  have hperm := hwalk.drained.perm
  have hstart : (nextStamp r.net).queue = r.net.queue := by
    obtain ⟨hact, htop, -⟩ := nextStamp_queue r.net
    exact Net.queue_congr hact htop
  rw [hstart] at hperm
  have hout : ∀ p q, (p, q) ∈ r.net.queue → OnDemandPath r.net p.node → OnDemandPath r.net q.node →
      fireable (r.net.tag.get p.node) (r.net.tag.get q.node) = false := by
    intro p q hpq hp hq
    have hboth : BothDemanded (netMarkDemand g r.net).1 (p, q) := ⟨hdemanded _ hp, hdemanded _ hq⟩
    have hmem : (p, q) ∈ (netMarkDemand g r.net).2 :=
      (List.mem_append.mp (hperm.symm.subset hpq)).resolve_right fun hrest => hwalk.drained.rest _ hrest hboth
    have hinert := hall (p, q) hmem
    rw [hmarked.graph.redexLive, hmarked.graph.tag] at hinert
    exact hinert (h.queue.sound _ hpq)
  have hidle : Idle r.net := by
    intro p q hr hp hq
    by_cases hproot : r.net.tag.get p.node = .root
    · rw [hproot]
      rfl
    by_cases hqroot : r.net.tag.get q.node = .root
    · rw [hqroot]
      cases r.net.tag.get p.node <;> rfl
    rcases h.queue.full p q hr hproot hqroot with hpq | hqp
    · exact hout p q (by simpa using hpq) hp hq
    · rw [fireable_comm]
      exact hout q p (by simpa using hqp) hq hp
  exact hidle.remains (((Remains.same hmarked.graph hmarked.roots.root).trans (.same hsame hroot)).trans
    (remains_flush hfired.orderly))

/-- With an empty queue no rule can fire. -/
lemma Poised.empty_idle (h : Poised [] n) (htop : n.atop = 0) : Idle n := by
  intro p q hr _ _
  have hnil : n.queue = [] := by
    rw [Net.queue, htop]
    rfl
  by_contra hfire
  have hproot : n.tag.get p.node ≠ .root := fun he => hfire (by rw [he]; rfl)
  have hqroot : n.tag.get q.node ≠ .root := fun he => hfire (by rw [he]; cases n.tag.get p.node <;> rfl)
  have hfull := h.queue.full p q hr hproot hqroot
  rw [hnil] at hfull
  simp at hfull

/-- The waves stop at the limit, or where nothing is left to fire. -/
lemma Poised.waves_idle (hg : g.inParallel = false) {limit fuel : ℕ} (h : Poised [] r.net) (hfuel : limit ≤ r.net.steps + fuel)
    (hlimit : (reduceWaves g limit fuel r).net.steps < limit) : Idle (reduceWaves g limit fuel r).net := by
  induction fuel generalizing r with
  | zero =>
    rw [reduceWaves] at hlimit
    omega
  | succ fuel ih =>
    have hextends := reduceWave_extends g r
    have hchanged := hextends.changed
    have hsteps := hextends.steps
    unfold reduceWaves at hlimit ⊢
    split_ifs at hlimit ⊢ with hgo
    · extract_lets w at hlimit ⊢
      change r.changed ≤ w.changed at hchanged
      change r.net.steps + w.changed ≤ w.net.steps + r.changed at hsteps
      split_ifs at hlimit ⊢ with hsame
      · exact h.wave_idle hg hsame
      · exact ih (h.wave hg) (by omega) hlimit
    · exact h.empty_idle (by omega)

lemma Poised.loop_idle (hg : g.inParallel = false) {limit fuel : ℕ} (mark : ℤ) (h : Poised [] r.net)
    (hfuel : limit ≤ r.net.steps + fuel) (hlimit : (reduceLoop g limit fuel mark r).net.steps < limit) :
    Idle (reduceLoop g limit fuel mark r).net := by
  induction fuel generalizing mark r with
  | zero =>
    rw [reduceLoop] at hlimit
    omega
  | succ fuel ih =>
    have hpoised := Poised.waves hg limit (limit - r.net.steps) (r := { r with changed := 0 }) h
    have hfuel' : limit ≤ { r with changed := 0 }.net.steps + (limit - r.net.steps) := by
      dsimp only
      omega
    have hidle := Poised.waves_idle (r := { r with changed := 0 }) hg h hfuel'
    have hsteps := (reduceWaves_extends g limit (limit - r.net.steps) { r with changed := 0 }).steps
    unfold reduceLoop at hlimit ⊢
    split_ifs at hlimit ⊢
    · extract_lets w gc w' mark' at hlimit ⊢
      change r.net.steps + w.changed ≤ w.net.steps + 0 at hsteps
      have hw' : Poised [] w'.net ∧ Remains w.net w'.net ∧ w'.net.steps = w.net.steps := by
        cases hgc : gc with
        | true =>
          have he : w'.net = netGc w.net := by simp only [w', hgc, if_true]
          rw [he]
          exact ⟨hpoised.collect, remains_gc w.net, (netGc_frame w.net).2.1⟩
        | false =>
          have he : w' = w := by simp only [w', hgc, Bool.false_eq_true, if_false]
          rw [he]
          exact ⟨hpoised, .refl _, rfl⟩
      obtain ⟨hpoised', hremains, hsame⟩ := hw'
      split_ifs at hlimit ⊢
      · exact (hidle (hsame ▸ hlimit)).remains hremains
      · exact ih mark' hpoised' (by omega) hlimit
    · omega

/-- A reduction below its limit leaves no redex that is demanded at both ends. -/
lemma Poised.reduce_idle (h : Poised [] n) (hg : g.inParallel = false) {gcenv : Option ℕ} {limit : ℕ}
    (hlimit : (netReduce g gcenv limit n).steps < limit) : Idle (netReduce g gcenv limit n) := by
  have hsteps := (roots_netFlushFree { g with reduceDepth := g.reduceDepth + 1 } (reduceLoop
    { g with reduceDepth := g.reduceDepth + 1 } limit (limit - n.steps) (firstMark gcenv n) ⟨n, 0, []⟩).net).steps
  have hpoised := Poised.loop (g := { g with reduceDepth := g.reduceDepth + 1 }) hg limit (limit - n.steps)
    (firstMark gcenv n) (r := ⟨n, 0, []⟩) h
  have hfuel : limit ≤ (⟨n, 0, []⟩ : Run).net.steps + (limit - n.steps) := by
    dsimp only
    omega
  have hidle := Poised.loop_idle (g := { g with reduceDepth := g.reduceDepth + 1 }) hg (firstMark gcenv n) h hfuel
  unfold netReduce reduceRun at hlimit ⊢
  dsimp only at hlimit ⊢
  rw [hsteps] at hlimit
  exact (hidle hlimit).remains (remains_flush hpoised.orderly)

end Waves

/-! ## Compiled nets -/

/-- A net of the compiler whose queue is exact so far. -/
structure Primed (n : Net) : Prop where
  queue : QueueExact [] n
  past : Past 32 n.dem.get n.demStamp

/-- What the compiler does besides linking principal ports. -/
structure Aloof (n m : Net) : Prop where
  act : m.act = n.act
  atop : m.atop = n.atop
  actOf : m.actOf = n.actOf
  past : Past 32 n.dem.get n.demStamp → Past 32 m.dem.get m.demStamp

section Compile

variable {n m k : Net} {s s' : CState}

lemma Aloof.refl (n : Net) : Aloof n n := ⟨rfl, rfl, rfl, id⟩

lemma Aloof.trans (h : Aloof n m) (h' : Aloof m k) : Aloof n k :=
  ⟨h'.act.trans h.act, h'.atop.trans h.atop, h'.actOf.trans h.actOf, fun hp => h'.past (h.past hp)⟩

lemma aloof_alloc (g : Globals) (n : Net) (t : Tag) (sc : ℕ) : Aloof n (netAlloc g n t sc).2 := by
  refine ⟨?_, ?_, ?_, fun h => netAlloc_past h g t sc⟩ <;>
    rcases netAlloc_cases g n t sc with he | ⟨id, -, -, he⟩ <;> rw [he] <;> rfl

/-- A link that queues nothing. -/
lemma aloof_link (g : Globals) (n : Net) (a b : Option Port) : Aloof n (netLink g n a b false) := by
  cases a <;> cases b <;> exact ⟨rfl, rfl, rfl, id⟩

lemma aloof_spendExtras (n : Net) (ps : List Port) : Aloof n (spendExtras n ps).2 := by
  induction ps generalizing n with
  | nil => exact .refl n
  | cons p ps ih =>
    have hfirst : Aloof n (spendExtra n p).2 := ⟨rfl, rfl, rfl, id⟩
    exact hfirst.trans (ih (spendExtra n p).2)

lemma aloof_dupTree (g : Globals) (n : Net) (ts : List (Option Port)) (sc : ℕ) : Aloof n (dupTree g n ts sc).2 := by
  have hfan : ∀ (n : Net) (a b : Option Port), Aloof n (netLink g (netLink g (netAlloc g n .dup sc).2
      (some ⟨(netAlloc g n .dup sc).1, 1⟩) a false) (some ⟨(netAlloc g n .dup sc).1, 2⟩) b false) := fun n a b =>
    ((aloof_alloc g n .dup sc).trans (aloof_link g _ _ _)).trans (aloof_link g _ _ _)
  have hloop : ∀ (ts : List (Option Port)) (n : Net) (cur : Port), Aloof n (dupTreeLoop g n cur sc ts).2 := by
    intro ts
    induction ts with
    | nil => exact fun n _ => .refl n
    | cons t ts ih => exact fun n cur => (hfan n (some cur) t).trans (ih _ _)
  match ts with
  | [] => exact .refl n
  | [_] => exact .refl n
  | t0 :: t1 :: ts => exact (hfan n t0 t1).trans (hloop ts _ _)

/-- Tying the uses of a variable to a fan tree queues nothing. -/
lemma aloof_fanOut (s : CState) (v lvl : ℕ) : Aloof s.net (fanOut s v lvl).net := by
  unfold fanOut
  split
  · exact .refl _
  · split_ifs
    · exact ((aloof_spendExtras s.net _).trans (aloof_dupTree .serial _ _ lvl)).trans (aloof_link .serial _ _ _)
    · exact .refl _

lemma Primed.alloc (h : Primed n) {D : Set Port} (hn : Good n D) (t : Tag) (sc : ℕ) : Primed (netAlloc .serial n t sc).2 :=
  ⟨h.queue.alloc t sc (netAlloc_allocated .serial ⟨[], hn.free ▸ .nil⟩ t sc), (aloof_alloc .serial n t sc).past h.past⟩

lemma Primed.grown (h : Primed n) (hg : Grown n m) : Primed m := by
  rw [hg.same]
  exact ⟨h.queue.rewire rfl rfl rfl (fun _ => rfl) (fun _ _ _ => rfl) fun _ _ => rfl, h.past⟩

/-- Two loose ports are linked. -/
lemma Primed.link (h : Primed n) {a b : Port} {e : Bool} (hab : a ≠ b) (ha : n.live a.node = true) (hb : n.live b.node = true)
    (hwa : n.wireAt a = none) (hwb : n.wireAt b = none)
    (he : e = true ∨ a.port ≠ 0 ∨ b.port ≠ 0 ∨ n.tag.get a.node = .root) :
    Primed (netLink .serial n (some a) (some b) e) := by
  refine ⟨h.queue.link rfl hab (fun _ => ha) (fun _ => hb) (fun q hq => ?_) he, ?_⟩
  · rw [hwa, hwb] at hq
    rcases hq with hq | hq <;> exact absurd hq.symm (Option.some_ne_none q)
  · have hmarks : (netLink .serial n (some a) (some b) e).dem = n.dem ∧
        (netLink .serial n (some a) (some b) e).demStamp = n.demStamp := by
      unfold netLink actPush
      dsimp only
      split_ifs <;> exact ⟨rfl, rfl⟩
    rw [hmarks.1, hmarks.2]
    exact h.past

/-- Run from an orderly state in the scope `Γ`, the case keeps the queue exact. -/
def Priming (Γ : List String) (c : CT) : Prop :=
  ∀ s r s', CInv s → s.names = Γ → Primed s.net → c s = .ok (r, s') → Primed s'.net

lemma ctVar_priming {Γ : List String} {x : String} (hx : x ∈ Γ) : Priming Γ (ctVar x) := by
  rintro s r s' hs rfl hp hok
  obtain ⟨pre, e, post, -, hres⟩ := exists_resolved hx
  rw [hres] at hok
  have hs' : s' = (useVar s pre e post).2 := (congrArg Prod.snd (Except.ok.inj hok)).symm
  rw [hs', useVar]
  split_ifs
  · exact hp
  · exact hp.alloc hs.good .era 0

lemma Primed.enter (hp : Primed s.net) (hs : CInv s) {l : ℕ} (hl : l ≤ s.net.levels.length) (bit : ℕ) :
    Primed (s.enter l bit).net := hp.grown (scopeApp_spec hs.good.trie hl bit).grown

lemma ctApp_priming {Γ : List String} {f a : Term} {cf ca : CT} (hf : Correct Γ f cf) (ha : Correct Γ a ca)
    (hpf : Priming Γ cf) (hpa : Priming Γ ca) : Priming Γ (ctApp cf ca) := by
  rintro s r s' hs rfl hp hok
  have hid := alloc_fst hs .app s.curLvl
  have hm := made_enter hs .app 1
  have hp1 : Primed ((s.alloc .app s.curLvl).2.enter s.curLvl 1).net :=
    Primed.enter (hp.alloc hs.good .app s.curLvl) (alloc_inv hs .app hs.lvl) (alloc_inv hs .app hs.lvl).lvl 1
  set s1 := (s.alloc .app s.curLvl).2.enter s.curLvl 1 with hs1
  have hlv : s.net.nn < s1.net.nn := by
    have := hm.nn
    omega
  have hnames : s1.names = s.names := by
    rw [CState.names, hm.quiet.stack]
    rfl
  -- the function, linked to port 0
  obtain ⟨u, rf, nf, lf, s2, hokf, hcf⟩ := hf s1 hm.inv hnames
  have hp2 := hpf s1 rf s2 hm.inv hnames hp1 hokf
  have hlk := hcf.linkable hm.inv (a := ⟨s.net.nn, 0⟩) hm.isLive (hm.loose 0) (by simp) (by simp [hm.tag])
  have h3 := hcf.attach hm.inv (a := ⟨s.net.nn, 0⟩) hm.isLive (hm.loose 0) (by simp) (by simp [hm.tag]) true
  have hp3 := hp2.link hlk.ne hlk.liveL hlk.liveR hlk.looseL hlk.looseR (e := true) (.inl rfl)
  change Primed (s2.link (some ⟨s.net.nn, 0⟩) (some rf) true).net at hp3
  set s3 := s2.link (some ⟨s.net.nn, 0⟩) (some rf) true with hs3
  have hlvl : s.curLvl ≤ s3.net.levels.length :=
    hs.lvl.trans (hm.quiet.later.trans h3.keeps.later).levels.length_le
  have hq := enter_quiet h3.inv hlvl 2
  have hi4 := enter_inv h3.inv hlvl 2
  have hp4 := hp3.enter h3.inv hlvl 2
  set s4 := s3.enter s.curLvl 2 with hs4
  have hlv3 : s.net.nn < s3.net.nn := hlv.trans_le h3.keeps.later.nn
  have hnames4 : s4.names = s.names := by
    rw [CState.names, hq.stack]
    exact h3.names.trans hnames
  -- the operand, linked to port 2
  obtain ⟨u', ra, na, la, s5, hoka, hca⟩ := ha s4 hi4 hnames4
  have hp5 := hpa s4 ra s5 hi4 hnames4 hp4 hoka
  have hw4 : s4.net.wireAt ⟨s.net.nn, 2⟩ = none := by
    rw [hq.wires _ hlv3, h3.other _ hlv (by simp) (hm.apart 2)]
    exact hm.loose 2
  have hl4 : s4.net.live s.net.nn = true := ((h3.keeps.trans hq.keeps).later.live _ hlv).trans hm.isLive
  have ht4 : s4.net.tag.get s.net.nn = .app := ((h3.keeps.trans hq.keeps).later.tag _ hlv).trans hm.tag
  have hlk' := hca.linkable hi4 (a := ⟨s.net.nn, 2⟩) hl4 hw4 (by simp) (by simp [ht4])
  have hp6 := hp5.link hlk'.ne hlk'.liveL hlk'.liveR hlk'.looseL hlk'.looseR (e := true) (.inl rfl)
  have hres : ctApp cf ca s =
      .ok (⟨s.net.nn, 1⟩, { s5.link (some ⟨s.net.nn, 2⟩) (some ra) true with curLvl := s.curLvl }) := by
    simp only [ctApp, hid, ← hs1, hokf, bind, Except.bind, ← hs3, ← hs4, hoka]
  rw [hres] at hok
  obtain ⟨-, rfl⟩ := Prod.mk.inj (Except.ok.inj hok)
  exact hp6

/-- The fan tree of a variable faces no principal port, and neither does what it was hung between. -/
lemma fanOut_priming {e : CVar} {rest : List CVar} (hs : CInv s) (hst : s.cstack = e :: rest) {v lvl : ℕ}
    (hb : e.bind = ⟨v, 1⟩) (hlvl : lvl ≤ s.net.levels.length) (hp : Primed s.net) : Primed (fanOut s v lvl).net := by
  have haloof := aloof_fanOut s v lvl
  have he : e ∈ s.cstack := by simp [hst]
  by_cases h1 : 1 < e.count
  swap
  · have hsame : fanOut s v lvl = s := by simp only [fanOut, hst, h1, if_false]
    rwa [hsame]
  obtain ⟨hf, -, -⟩ := fanOut_spec hs hst hb h1 hlvl
  generalize (fanOut s v lvl).net = m at haloof hf
  have hlen : 2 ≤ e.held.length := by
    have := hs.count e he
    simp only [CVar.held, List.length_cons]
    omega
  have hport : ∀ p : Port, p.port = 0 → p ∉ e.held := fun p h0 hm => by
    have := hs.port p (CVar.mem_held he hm)
    rw [h0] at this
    exact absurd this (by decide)
  -- a port that is wired is none of a placeholder but its port 1
  have hheld : ∀ {p q : Port}, p.port = 0 → s.net.wireAt p = some q → ∀ x ∈ e.held.tail, p.node ≠ x.node := by
    intro p q h0 hw x hx hpx
    have hidle := (hs.idle e he x hx).1
    have hpx' : p = ⟨x.node, 0⟩ := port_ext hpx h0
    rw [← hpx', hw] at hidle
    exact Option.some_ne_none q hidle
  have hold : ∀ {p q : Port}, m.live p.node = true → p.port = 0 → m.wireAt p = some q → q.port = 0 →
      s.net.live p.node = true ∧ s.net.wireAt p = some q := by
    intro p q hl h0 hw hq0
    have hlt : p.node < s.net.nn := by
      by_contra hge
      obtain ⟨i, hi⟩ : ∃ i, p.node = s.net.nn + i := ⟨_, (Nat.add_sub_of_le (not_lt.mp hge)).symm⟩
      have hin := Net.live_lt hl
      rw [hf.nn] at hin
      have hpi : p = ⟨s.net.nn + i, 0⟩ := port_ext hi h0
      rw [hpi] at hw
      by_cases hlast : i + 1 < e.held.length - 1
      · rw [hf.inner i hlast] at hw
        obtain rfl := Option.some.inj hw
        simp at hq0
      · have hi' : i = e.held.length - 2 := by omega
        rw [hi', hf.wireTop] at hw
        obtain rfl := Option.some.inj hw
        rw [hb] at hq0
        simp at hq0
    obtain ⟨hlold, htail⟩ := (hf.live _ hlt).mp hl
    refine ⟨hlold, ?_⟩
    cases hwold : s.net.wireAt p with
    | none =>
      have hnone := hf.other p hlt htail (fun hpb => hport p h0 (hpb ▸ List.mem_cons_self))
        fun u hu => hs.not_consumer hwold u (CVar.mem_held he hu)
      rw [hnone, hwold] at hw
      exact absurd hw.symm (Option.some_ne_none q)
    | some q' =>
      have hmoved := hf.moved p q' hlold (hport p h0) hwold
      rw [hw] at hmoved
      have hq' : q' ∉ e.held := by
        intro hmem
        have hfan := Option.some.inj hmoved
        rw [fanMap, if_pos hmem] at hfan
        rw [hfan] at hq0
        exact fanPort_port _ _ hq0
      rw [fanMap_off hq'] at hmoved
      rw [Option.some.inj hmoved]
  have hkeep : ∀ {p q : Port}, s.net.live p.node = true → p.port = 0 → s.net.wireAt p = some q → q.port = 0 →
      m.live p.node = true ∧ m.wireAt p = some q := by
    intro p q hl h0 hw hq0
    refine ⟨(hf.live _ (Net.live_lt hl)).mpr ⟨hl, hheld h0 hw⟩, ?_⟩
    rw [hf.moved p q hl (hport p h0) hw, fanMap_off (hport q hq0)]
  refine ⟨hp.queue.keep haloof.act haloof.atop haloof.actOf (fun p q _ hr => ?_) (fun p q hr _ _ => ?_)
    fun v hv => hf.tag v (Net.live_lt hv), haloof.past hp.past⟩
  · obtain ⟨hlp, hlq, hp0, hq0, hpq, hqp⟩ := redexLive_iff.mp hr
    have h1 := hkeep hlp hp0 hpq hq0
    have h2 := hkeep hlq hq0 hqp hp0
    exact redexLive_iff.mpr ⟨h1.1, h2.1, hp0, hq0, h1.2, h2.2⟩
  · obtain ⟨hlp, hlq, hp0, hq0, hpq, hqp⟩ := redexLive_iff.mp hr
    have h1 := hold hlp hp0 hpq hq0
    have h2 := hold hlq hq0 hqp hp0
    exact redexLive_iff.mpr ⟨h1.1, h2.1, hp0, hq0, h1.2, h2.2⟩

lemma ctLam_priming {Γ : List String} {x : String} {b : Term} {cb : CT} (hb : Correct (x :: Γ) b cb)
    (hpb : Priming (x :: Γ) cb) : Priming Γ (ctLam x cb) := by
  rintro s r s' hs rfl hp hok
  have hid := alloc_fst hs .lam s.curLvl
  obtain ⟨hi1, hq1, hnn1, hl1, ht1, hw1, hlvl1⟩ := made_lam hs x
  have hs0 := alloc_inv hs .lam hs.lvl
  set lvl := scopeApp (s.alloc .lam s.curLvl).2.net s.curLvl 1 with hlvl
  have hp0 : Primed lvl.2 :=
    Primed.grown (hp.alloc hs.good .lam s.curLvl) (scopeApp_spec hs0.good.trie (l := s.curLvl) hs0.lvl 1).grown
  set s1 := (pushVar { (s.alloc .lam s.curLvl).2 with net := lvl.2 } x ⟨s.net.nn, 1⟩).enter
    s.curLvl 1 with hs1
  have hin := scopeApp_spec hs0.good.trie (l := s.curLvl) hs0.lvl 1
  have hp1 : Primed s1.net := hp0.grown (scopeApp_spec hin.trieOk (hs0.lvl.trans hin.grown.length_le) 1).grown
  have hst1 : s1.cstack = ⟨x, ⟨s.net.nn, 1⟩, 0, []⟩ :: s.cstack := hq1.stack
  obtain ⟨u, rb, nb, lb, sb, hok', hcb⟩ := hb s1 hi1 (by rw [CState.names, hst1]; rfl)
  have hpb' := hpb s1 rb sb hi1 (by rw [CState.names, hst1]; rfl) hp1 hok'
  have hlk := hcb.linkable hi1 (a := ⟨s.net.nn, 2⟩) hl1 (hw1 2) (by simp) (by simp [ht1])
  have h2 := hcb.attach hi1 (a := ⟨s.net.nn, 2⟩) hl1 (hw1 2) (by simp) (by simp [ht1]) false
  have hp2 := hpb'.link hlk.ne hlk.liveL hlk.liveR hlk.looseL hlk.looseR (e := false) (.inr (.inl (by simp)))
  change Primed ({ sb with curLvl := s.curLvl }.link (some ⟨s.net.nn, 2⟩) (some rb) false).net at hp2
  set s2 : CState := { sb with curLvl := s.curLvl }.link (some ⟨s.net.nn, 2⟩) (some rb) false with hs2
  have hi2 : CInv s2 := h2.inv.relevel (hs.lvl.trans (hq1.later.trans h2.keeps.later).levels.length_le)
  obtain ⟨e, rest, hst2, hbind⟩ : ∃ e rest, s2.cstack = e :: rest ∧ e.bind = ⟨s.net.nn, 1⟩ := by
    obtain ⟨e, he, -, hb, -⟩ := h2.stack.entry 0 ⟨x, ⟨s.net.nn, 1⟩, 0, []⟩ (by rw [hst1]; rfl)
    have he' : s2.cstack[0]? = some e := he
    cases hc : s2.cstack with
    | nil => simp [hc] at he'
    | cons e' rest =>
      rw [hc, List.getElem?_cons_zero, Option.some.injEq] at he'
      subst he'
      exact ⟨e', rest, rfl, hb⟩
  have hp3 := fanOut_priming hi2 hst2 hbind (hlvl1.trans h2.keeps.later.levels.length_le) hp2
  have hres : ctLam x cb s = .ok (⟨s.net.nn, 0⟩, (fanOut s2 s.net.nn lvl.1).popVar) := by
    simp only [ctLam, hid, ← hlvl, ← hs1, hok', bind, Except.bind, ← hs2]
  rw [hres] at hok
  obtain ⟨-, rfl⟩ := Prod.mk.inj (Except.ok.inj hok)
  exact hp3

lemma ct_priming {Γ : List String} {t : Term} (h : t.PureIn Γ) : Priming Γ (ct t) := by
  induction t generalizing Γ with
  | var x => exact ctVar_priming h
  | lam x b ih => exact ctLam_priming (ct_pure (t := b) h) (ih h)
  | app f a ihf iha => exact ctApp_priming (ct_pure h.1) (ct_pure h.2) (ihf h.1) (iha h.2)
  | _ => exact h.elim

lemma netInit_primed : Primed netInit := by
  have hblank : Primed .blank := by
    have hnil : Net.blank.queue = [] := rfl
    refine ⟨⟨queued_empty rfl rfl, fun a ha => ?_, fun p q hr => ?_⟩, ⟨by decide, fun v => ?_⟩⟩
    · rw [hnil] at ha
      exact absurd ha List.not_mem_nil
    · have hl := (redexLive_iff.mp hr).1
      simp [Net.live, Net.inNet, Net.blank] at hl
    · exact (Table.get_empty v).le
  exact hblank.alloc cinv_blank.good .root 0

/-- The queue of a compiled net is exact: the redex of ROOT, if there is one, is not queued. -/
theorem compile_poised {t : Term} {n : Net} (ht : t.PureIn []) (hc : compile t = .ok n) : Poised [] n := by
  have hal := cinv_blank.good.alloc_spec .root 0
  have hinit : CInv ⟨netInit, [], 0⟩ := alloc_inv cinv_blank .root (Nat.zero_le _)
  obtain ⟨u, r, ns, ls, s', hok, hcs⟩ := ct_pure ht _ hinit rfl
  obtain ⟨n', _, _, _, hcn, hnet⟩ := compile_correct (ct_pure ht)
  obtain rfl : n' = n := Except.ok.inj (hcn.symm.trans hc)
  have hroot : netInit.live 0 = true := hal.isLive
  have htag : netInit.tag.get 0 = .root := hal.tagNew
  have hlk := hcs.linkable hinit (a := ⟨0, 0⟩) hroot (hal.wireNew 0) (by simp) (by simp [htag])
  have hp := ct_priming ht _ _ _ hinit rfl netInit_primed hok
  have hlt : 0 < netInit.nn := Net.live_lt hroot
  have hprimed := hp.link hlk.ne hlk.liveL hlk.liveR hlk.looseL hlk.looseR (e := false)
    (.inr (.inr (.inr ((hcs.ext.later.tag 0 hlt).trans htag))))
  have hn : n' = netLink .serial s'.net (some ⟨0, 0⟩) (some r) false := by
    simp only [compile, hok, bind, Except.bind] at hc
    exact (Except.ok.inj hc).symm
  rw [← hn] at hprimed
  exact ⟨(compile_polar hc).orderly hnet.good.toWired.symmetric, hprimed.queue, hprimed.past⟩

end Compile

/-! ## Runs from compiled terms -/

/-- No demand path ends at a redex. -/
lemma Idle.no_facing {n : Net} (h : Idle n) (ho : Orderly n) {p : Port} (hp : DemandPath n p) (v : ℕ) : ¬ FacesAt n p v := by
  intro hf
  obtain ⟨hl, hroot, hera, hp0, q, hq, rfl, hq0, hv, hface⟩ := hf
  obtain ⟨S, hS⟩ := ho
  have hback := (hS.wire p q hl (Set.notMem_empty p) hq).2.2.1
  have hinert := h p q (redexLive_iff.mpr ⟨hl, hv, hp0, hq0, hq, hback⟩) ⟨p, hp, .inl ⟨rfl, hl⟩⟩
    ⟨p, hp, .inr ⟨hl, hroot, hera, hp0, q, hq, rfl, hq0, hv, hface⟩⟩
  revert hinert hroot hera hface
  cases n.tag.get p.node <;> cases n.tag.get q.node <;> simp [fireable, facesRedex]

/-- From the net of a closed term, after any calls: a reduction that ends below its limit leaves no fireable redex
that is demanded at both ends, and no demand path that ends at a redex. -/
theorem netReduce_settles {t : Term} {n m : Net} (ht : t.PureIn []) (hc : compile t = .ok n) (hm : EngineRuns n m)
    {g : Globals} (hg : g.inParallel = false) {gcenv : Option ℕ} {limit : ℕ}
    (hlimit : (netReduce g gcenv limit m).steps < limit) :
    Idle (netReduce g gcenv limit m) ∧
      ∀ p v, DemandPath (netReduce g gcenv limit m) p → ¬ FacesAt (netReduce g gcenv limit m) p v := by
  have hpoised := hm.poised (compile_poised ht hc)
  have hidle := hpoised.reduce_idle hg hlimit
  exact ⟨hidle, fun p v hp => hidle.no_facing (hpoised.reduce hg gcenv limit).orderly hp v⟩

lemma identityNet_compiled : compile identityTwice = .ok identityNet := rfl

/-- After the reduction of a net that was collected before. -/
theorem netReduce_settles_identity : Idle (netReduce .serial none 100 (netGc identityNet)) ∧
    ∀ p v, DemandPath (netReduce .serial none 100 (netGc identityNet)) p →
      ¬ FacesAt (netReduce .serial none 100 (netGc identityNet)) p v :=
  netReduce_settles (by simp [identityTwice, Term.PureIn]) identityNet_compiled
    (.step (c := .gc) .refl trivial) rfl (by decide +kernel)

/-- The queue of the same net: what is left in it is the redex of ROOT. -/
theorem activation_exact_identity :
    let m := netReduce .serial none 100 identityNet
    m.queue.Nodup ∧ (∀ a ∈ m.queue, redexLive m a.1 a.2 = true) ∧
      (∀ p q, redexLive m p q = true → m.tag.get p.node ≠ .root → m.tag.get q.node ≠ .root →
        (p, q) ∈ m.queue ∨ (q, p) ∈ m.queue) ∧
      ∀ v i, m.actOf.get v = some i ↔ ∃ k, i = 2 * k ∧ StandsAt m.queue k v :=
  activation_exact (compile_poised (by simp [identityTwice, Term.PureIn]) identityNet_compiled)
    (.step (c := .reduce .serial none 100) .refl rfl)

end LinEngine
