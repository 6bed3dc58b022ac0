import LinEngine.Confluence
import LinEngine.Descent
import LinEngine.Encoding
import LinEngine.Interning
import LinEngine.Regauge

/-!
# One outcome

A renaming of the agents carries every firing along, so that nets are compared up to one. By
strong confluence all runs of a net that come to an end are then of one length and of one
outcome, and no other run is longer.
-/
namespace LinEngine

open Splice Lambda

/-! ## Firings along a renaming -/

section Carry

variable {G H G1 H1 : Graph} {f : ℕ → ℕ} {a b : ℕ} {s : Fin 3 → Fin 3} {c c' : Copies}

lemma Iso.refl (G : Graph) : Iso id G G :=
  ⟨fun _ h => h, fun _ _ _ _ h => h, fun v h => ⟨v, h, rfl⟩, fun _ _ => rfl, fun _ _ => rfl,
    fun p _ => by cases h : G.wire p <;> simpa [Port.mapNode] using h, fun _ _ _ => rfl⟩

lemma Iso.trans {K : Graph} {f' : ℕ → ℕ} (h : Iso f G H) (h' : Iso f' H K) : Iso (f' ∘ f) G K := by
  refine ⟨fun v hv => h'.live _ (h.live v hv), fun u v hu hv he => ?_, fun w hw => ?_, fun v hv => ?_, fun v hv => ?_,
    fun p hp => ?_, fun v hv ht => ?_⟩
  · exact h.inj u v hu hv (h'.inj _ _ (h.live u hu) (h.live v hv) he)
  · obtain ⟨v, hv, rfl⟩ := h'.surj w hw
    obtain ⟨u, hu, rfl⟩ := h.surj v hv
    exact ⟨u, hu, rfl⟩
  · exact (h'.tag _ (h.live v hv)).trans (h.tag v hv)
  · exact (h'.path _ (h.live v hv)).trans (h.path v hv)
  · have hw := h'.wire (p.mapNode f) (h.live _ hp)
    rw [h.wire p hp, Option.map_map] at hw
    exact hw
  · have hroot := h.root v hv ht
    have ht' : H.tag (f v) = .root := (h.tag v hv).trans ht
    exact (h'.root _ (h.live v hv) ht').trans hroot

lemma Iso.eq_iff (h : Iso f G H) {u v : ℕ} (hu : G.live u) (hv : G.live v) : f u = f v ↔ u = v :=
  ⟨h.inj u v hu hv, congrArg f⟩

lemma Iso.ne_iff (h : Iso f G H) {u v : ℕ} (hu : G.live u) (hv : G.live v) : f u ≠ f v ↔ u ≠ v :=
  not_congr (h.eq_iff hu hv)

lemma Iso.facing (h : Iso f G H) (hf : G.Facing a b) : H.Facing (f a) (f b) := by
  refine ⟨fun he => hf.ne (h.inj _ _ hf.liveL hf.liveR he), h.live a hf.liveL, h.live b hf.liveR, ?_, ?_⟩
  · have hw := h.wire ⟨a, 0⟩ hf.liveL
    rwa [hf.wireL] at hw
  · have hw := h.wire ⟨b, 0⟩ hf.liveR
    rwa [hf.wireR] at hw

lemma Iso.crossing (h : Iso f G H) (hf : G.Facing a b) {p : Port} (hp : G.live p.node) :
    crossing (f a) (f b) s (p.mapNode f) = (crossing a b s p).map (Port.mapNode f) := by
  have ha := h.eq_iff hp hf.liveL
  have hb := h.eq_iff hp hf.liveR
  simp only [LinEngine.crossing, Port.mapNode, ha, hb]
  split_ifs <;> rfl

/-- A path across the pair is carried along. -/
lemma Iso.exits (h : Iso f G H) (hG : G.Wired) (hf : G.Facing a b) {p : Port} (hp : G.live p.node) {z : Option Port}
    (hz : Exits G.wire (LinEngine.crossing a b s) (G.wire p) z) :
    Exits H.wire (LinEngine.crossing (f a) (f b) s) (H.wire (p.mapNode f)) (z.map (Port.mapNode f)) := by
  have hlive : ∀ {q r : Port}, LinEngine.crossing a b s q = some r → G.live r.node := by
    intro q r hqr
    rcases crossing_node hqr with hr | hr <;> rw [hr]
    · exact hf.liveL
    · exact hf.liveR
  rw [h.wire p hp]
  refine hz.rename (Port.mapNode f) (fun q => G.live q.node) (fun q hq => (hG p q hp hq).1)
    (fun q hq => h.crossing hf hq) (fun q r _ hqr => h.wire r (hlive hqr)) fun q r t _ hqr hrt => (hG r t (hlive hqr) hrt).1

lemma Iso.annihilates (h : Iso f G H) (hG : G.Wired) (hf : G.Facing a b) (h1 : Annihilates s a b G G1)
    (h2 : Annihilates s (f a) (f b) H H1) : Iso f G1 H1 := by
  have hold : ∀ v, G1.live v → G.live v := fun v hv => ((h1.live v).mp hv).1
  have hlive : ∀ v, G.live v → (G1.live v ↔ H1.live (f v)) := by
    intro v hv
    have hwire : ∀ k, H.wire ⟨f v, k⟩ = (G.wire ⟨v, k⟩).map (Port.mapNode f) := fun k => h.wire ⟨v, k⟩ hv
    rw [h1.live, h2.live, h.ne_iff hv hf.liveL, h.ne_iff hv hf.liveR]
    constructor
    · rintro ⟨-, ha, hb, hor⟩
      refine ⟨h.live v hv, ha, hb, hor.imp (fun hn k => by rw [hwire, hn k]; rfl) ?_⟩
      rintro ⟨k, x, hx⟩
      exact ⟨k, _, h.exits (p := ⟨v, k⟩) hG hf hv hx⟩
    · rintro ⟨-, ha, hb, hor⟩
      refine ⟨hv, ha, hb, ?_⟩
      rcases hor with hn | ⟨k, x, hx⟩
      · exact .inl fun k => Option.map_eq_none_iff.mp ((hwire k).symm.trans (hn k))
      · obtain ⟨z, hz⟩ := h1.exits ⟨v, k⟩ hv ha hb
        have heq := (h.exits hG hf hv hz).unique hx
        cases z with
        | none => cases heq
        | some z => exact .inr ⟨k, z, hz⟩
  refine ⟨fun v hv => (hlive v (hold v hv)).mp hv, fun u v hu hv he => h.inj u v (hold u hu) (hold v hv) he,
    fun w hw => ?_, fun v hv => ?_, fun v hv => ?_, fun p hp => ?_, fun v hv ht => ?_⟩
  · obtain ⟨v, hv, rfl⟩ := h.surj w ((h2.live w).mp hw).1
    exact ⟨v, (hlive v hv).mpr hw, rfl⟩
  · rw [h2.tag _ ((hlive v (hold v hv)).mp hv), h.tag v (hold v hv), h1.tag v hv]
  · rw [h2.path _ ((hlive v (hold v hv)).mp hv), h.path v (hold v hv), h1.path v hv]
  · exact (h2.wire _ ((hlive _ (hold _ hp)).mp hp)).unique (h.exits hG hf (hold _ hp) (h1.wire p hp))
  · exact h.root v (hold v hv) ((h1.tag v hv).symm.trans ht)

/-- The old agents keep their match, and each copy is matched with the copy in its place. -/
def carryCopies (f : ℕ → ℕ) (c c' : Copies) (v : ℕ) : ℕ := if c.has v then c.transfer c' v else f v

lemma Iso.commutes (h : Iso f G H) (hG : G.Wired) (hf : G.Facing a b) (h1 : CopyStep c a b G G1)
    (h2 : CopyStep c' (f a) (f b) H H1) : Iso (carryCopies f c c') G1 H1 := by
  have hroot := fun v => h1.copy_tag (v := v)
  obtain ⟨k1, htL, htR, hp1⟩ := h1
  obtain ⟨k2, -, -, hp2⟩ := h2
  have hf' := h.facing hf
  set φ := carryCopies f c c' with hφ
  have hcopy : ∀ v, c.has v → φ v = c.transfer c' v := fun v hv => by simp [hφ, carryCopies, hv]
  have hmain : ∀ i, φ (c.main i) = c'.main i := fun i => (hcopy _ (has_main c i)).trans (transfer_main k1.nodup i)
  have hfan : ∀ i, φ (c.fan i) = c'.fan i := fun i => (hcopy _ (has_fan c i)).trans (transfer_fan k1.nodup i)
  have hold : ∀ v, G.live v → φ v = f v := fun v hv => by simp [hφ, carryCopies, k1.old_not_has hv]
  have hoff : ∀ v, G.live v → (f v ≠ f a ↔ v ≠ a) ∧ (f v ≠ f b ↔ v ≠ b) := fun v hv =>
    ⟨h.ne_iff hv hf.liveL, h.ne_iff hv hf.liveR⟩
  have hport : ∀ x, Commutes.Keeps G a b x → Commutes.Keeps H (f a) (f b) (x.mapNode f) ∧
      (c.rename a b x).mapNode φ = c'.rename (f a) (f b) (x.mapNode f) := by
    intro x hx
    have hkeep : Commutes.Keeps H (f a) (f b) (x.mapNode f) := by
      refine ⟨h.live _ hx.1, fun he => hx.2.1 ?_, fun he => hx.2.2 ?_⟩
      · have hnode := (h.eq_iff hx.1 hf.liveL).mp (congrArg Port.node he)
        have hport : x.port = 0 := congrArg Port.port he
        obtain ⟨v, k⟩ := x
        simp only at hnode hport
        rw [hnode, hport]
      · have hnode := (h.eq_iff hx.1 hf.liveR).mp (congrArg Port.node he)
        have hport : x.port = 0 := congrArg Port.port he
        obtain ⟨v, k⟩ := x
        simp only at hnode hport
        rw [hnode, hport]
    refine ⟨hkeep, ?_⟩
    rcases hx.cases with ⟨k, rfl⟩ | ⟨ha, hb⟩
    · have haux : (auxOf a b k).mapNode f = auxOf (f a) (f b) k := by fin_cases k <;> rfl
      rw [haux, rename_auxOf hf.ne, rename_auxOf hf'.ne, Port.mapNode, hcopy _ (has_at c k), transfer_at k1.nodup]
    · have hne := hoff _ hx.1
      rw [rename_other ha hb, rename_other (p := x.mapNode f) (hne.1.mpr ha) (hne.2.mpr hb), Port.mapNode, hold _ hx.1]
      rfl
  refine ⟨fun v hv => ?_, fun u v hu hv he => ?_, fun w hw => ?_, fun v hv => ?_, fun v hv => ?_, fun p hp => ?_,
    fun v hv ht => ?_⟩
  · rw [k2.live]
    rcases (k1.live v).mp hv with ⟨hv, ha, hb⟩ | hv
    · rw [hold v hv]
      exact .inl ⟨h.live v hv, (hoff v hv).1.mpr ha, (hoff v hv).2.mpr hb⟩
    · rw [hcopy v hv]
      exact .inr (transfer_has k1.nodup hv)
  · rcases (k1.live u).mp hu with ⟨hu, -, -⟩ | hu <;> rcases (k1.live v).mp hv with ⟨hv, -, -⟩ | hv
    · rw [hold u hu, hold v hv] at he
      exact h.inj u v hu hv he
    · rw [hold u hu, hcopy v hv] at he
      exact absurd (he ▸ transfer_has k1.nodup hv) (k2.old_not_has (h.live u hu))
    · rw [hold v hv, hcopy u hu] at he
      exact absurd (he.symm ▸ transfer_has k1.nodup hu) (k2.old_not_has (h.live v hv))
    · rw [hcopy u hu, hcopy v hv] at he
      exact transfer_inj k1.nodup k2.nodup hu hv he
  · rcases (k2.live w).mp hw with ⟨hw, ha, hb⟩ | hw
    · obtain ⟨v, hv, rfl⟩ := h.surj w hw
      exact ⟨v, (k1.live v).mpr (.inl ⟨hv, (hoff v hv).1.mp ha, (hoff v hv).2.mp hb⟩), hold v hv⟩
    · obtain ⟨k, rfl⟩ := exists_at hw
      exact ⟨c.at k, (k1.live _).mpr (.inr (has_at c k)), (hcopy _ (has_at c k)).trans (transfer_at k1.nodup k)⟩
  · rcases (k1.live v).mp hv with ⟨hv, ha, hb⟩ | hv
    · rw [hold v hv, k2.tag _ (h.live v hv) ((hoff v hv).1.mpr ha) ((hoff v hv).2.mpr hb), h.tag v hv,
        k1.tag v hv ha hb]
    · rcases has_cases hv with ⟨i, rfl⟩ | ⟨i, rfl⟩
      · rw [hmain, k2.tagMain, k1.tagMain, h.tag a hf.liveL]
      · rw [hfan, k2.tagFan, k1.tagFan, h.tag b hf.liveR]
  · rcases (k1.live v).mp hv with ⟨hv, ha, hb⟩ | hv
    · rw [hold v hv, k2.path _ (h.live v hv) ((hoff v hv).1.mpr ha) ((hoff v hv).2.mpr hb), h.path v hv,
        k1.path v hv ha hb]
    · rcases has_cases hv with ⟨i, rfl⟩ | ⟨i, rfl⟩
      · rw [hmain, hp2, hp1, h.tag a hf.liveL, h.path a hf.liveL, h.path b hf.liveR]
      · rw [hfan, k2.pathFan, k1.pathFan, h.path b hf.liveR]
  · rcases k1.port_cases hf hp with ⟨x, hx, rfl⟩ | ⟨i, j, rfl⟩ | ⟨i, j, rfl⟩
    · obtain ⟨hx', hname⟩ := hport x hx
      rw [hname, k2.outer _ hx'.1 hx'.2.1 hx'.2.2, k1.outer x hx.1 hx.2.1 hx.2.2, h.wire x hx.1]
      cases hw : G.wire x with
      | none => rfl
      | some y => simp only [Option.map_some, (hport y (hx.wire hf hG hw).1).2]
    · rw [k1.innerMain]
      simp only [Port.mapNode, Option.map_some, hmain, hfan]
      exact k2.innerMain i j
    · rw [k1.innerFan]
      simp only [Port.mapNode, Option.map_some, hmain, hfan]
      exact k2.innerFan i j
  · rcases (k1.live v).mp hv with ⟨hv, ha, hb⟩ | hv
    · rw [hold v hv]
      exact h.root v hv ((k1.tag v hv ha hb).symm.trans ht)
    · exact absurd ht (hroot v hv)

/-- Two firings of one pair, each in its own graph, keep the graphs alike. -/
lemma Iso.fires (h : Iso f G H) (hG : G.Wired) (hf : G.Facing a b)
    (hgauge : G.gauge a = G.gauge b ↔ H.gauge (f a) = H.gauge (f b)) (h1 : Fires a b G G1)
    (h2 : Fires (f a) (f b) H H1) : ∃ f', Iso f' G1 H1 := by
  have hglue : glueOf (H.tag (f a)) (H.tag (f b)) (H.gauge (f a)) (H.gauge (f b)) =
      glueOf (G.tag a) (G.tag b) (G.gauge a) (G.gauge b) := by
    rw [h.tag a hf.liveL, h.tag b hf.liveR]
    cases G.tag a <;> cases G.tag b <;> simp [glueOf, hgauge]
  rcases h1.cases with ⟨s, hs, h1⟩ | ⟨hs, c, h1⟩ <;> rcases h2.cases with ⟨s', hs', h2⟩ | ⟨hs', c', h2⟩ <;>
    rw [hglue] at hs' <;> simp_all only [Option.some.injEq, reduceCtorEq]
  · exact ⟨f, h.annihilates hG hf h1 h2⟩
  · exact ⟨_, h.commutes hG hf h1 h2⟩

/-- The two copies of each fan, seen from the other side. -/
def Copies.flip (c : Copies) : Copies := ⟨c.d1, c.d2, c.m1, c.m2⟩

lemma flip_main (c : Copies) (i : Fin 2) : c.flip.main i = c.fan i := by fin_cases i <;> rfl

lemma flip_fan (c : Copies) (i : Fin 2) : c.flip.fan i = c.main i := by fin_cases i <;> rfl

lemma flip_rename (hab : a ≠ b) (c : Copies) (p : Port) : c.flip.rename b a p = c.rename a b p := by
  obtain ⟨v, k⟩ := p
  by_cases hin : v = a ∨ v = b
  · rcases hin with rfl | rfl <;> fin_cases k <;> simp [Copies.rename, Copies.flip, hab, Ne.symm hab]
  · obtain ⟨ha, hb⟩ := not_or.mp hin
    rw [rename_other (p := ⟨v, k⟩) hb ha, rename_other (p := ⟨v, k⟩) ha hb]

lemma crossing_swap (hab : a ≠ b) (s : Fin 3 → Fin 3) : crossing b a s = crossing a b s := by
  funext p
  simp only [crossing]
  split_ifs with h1 h2
  · exact absurd (h2.symm.trans h1) hab
  · rfl
  · rfl
  · rfl

lemma Annihilates.swap (hab : a ≠ b) (h : Annihilates s a b G G1) : Annihilates s b a G G1 := by
  refine ⟨fun p hp hb ha => ?_, fun v => ?_, fun p hp => ?_, h.irrefl, h.tag, h.gauge, h.path⟩
  · rw [crossing_swap hab]
    exact h.exits p hp ha hb
  · rw [crossing_swap hab, h.live]
    tauto
  · rw [crossing_swap hab]
    exact h.wire p hp

lemma Commutes.swap (hab : a ≠ b) (h : Commutes c a b G G1) (hmain : ∀ i, G1.gauge (c.main i) = G.gauge a)
    (hpath : ∀ i, G1.path (c.main i) = G.path a) : Commutes c.flip b a G G1 where
  nodup := by
    have hd := h.nodup
    simp only [Copies.flip, List.nodup_cons, List.mem_cons, List.not_mem_nil, or_false, not_or] at hd ⊢
    tauto
  fresh v hv := h.fresh v (by simp only [Copies.has, Copies.flip] at hv ⊢; tauto)
  live v := by
    rw [h.live]
    simp only [Copies.has, Copies.flip]
    tauto
  outer p hp hb ha := by
    have hname : c.flip.rename b a = c.rename a b := funext (flip_rename hab c)
    rw [hname]
    exact h.outer p hp ha hb
  innerMain i j := by
    rw [flip_main, flip_fan]
    exact h.innerFan j i
  innerFan i j := by
    rw [flip_main, flip_fan]
    exact h.innerMain j i
  tag v hv hb ha := h.tag v hv ha hb
  gauge v hv hb ha := h.gauge v hv ha hb
  path v hv hb ha := h.path v hv ha hb
  tagMain i := by
    rw [flip_main]
    exact h.tagFan i
  tagFan i := by
    rw [flip_fan]
    exact h.tagMain i
  gaugeFan i := by
    rw [flip_fan]
    exact hmain i
  pathFan i := by
    rw [flip_fan]
    exact hpath i

/-- Two fans have no order. -/
lemma Fires.swap (hab : a ≠ b) (ha : G.tag a = .dup) (hb : G.tag b = .dup) (h : Fires a b G G1) : Fires b a G G1 := by
  cases h with
  | beta hlam _ _ => simp [ha] at hlam
  | annihilate _ _ hg h => exact .annihilate hb ha hg.symm (h.swap hab)
  | commute c hta _ h hp hg =>
    have hne : G.gauge a ≠ G.gauge b := by
      rcases hta with hta | hta | ⟨-, hne⟩
      · simp [ha] at hta
      · simp [ha] at hta
      · exact hne
    have hpath : ∀ i, G1.path (c.main i) = G.path a := fun i => by rw [hp, copyPath, if_pos ha]
    refine .commute c.flip (.inr (.inr ⟨hb, hne.symm⟩)) ha (h.swap hab (hg ha) hpath) (fun i => ?_) fun _ i => ?_
    · rw [flip_main, h.pathFan, copyPath, if_pos hb]
    · rw [flip_main]
      exact h.gaugeFan i

end Carry

/-! ## Nets with one level for each path -/

instance (n : Net) : Decidable (Distinct n) := inferInstanceAs (Decidable (List.Nodup _))

/-- A sound net whose level trie holds no path twice. -/
structure Regular (n : Net) : Prop where
  sound : Sound n
  distinct : Distinct n

section Regular

variable {n m : Net} {g : Globals}

lemma Distinct.of_eq (hd : Distinct n) (h : m.levels = n.levels) : Distinct m := by rwa [Distinct, h]

lemma Distinct.lvIntern (hd : Distinct n) (parent bit : ℕ) : Distinct (lvIntern n parent bit).2 := by
  by_cases hex : ∃ l ∈ n.levels, l.parent = parent ∧ l.bit = bit
  · obtain ⟨l, hl, rfl, rfl⟩ := hex
    obtain ⟨i, hi⟩ := List.mem_iff_getElem?.mp hl
    rw [LvNet.lvIntern_there hd hi]
    exact hd
  · have hnew : ∀ l ∈ n.levels, ¬ (l.parent = parent ∧ l.bit = bit) := fun l hl h => hex ⟨l, hl, h⟩
    rw [LvNet.lvIntern_new hnew]
    exact LvNet.distinct_entered hd hnew

lemma Distinct.lvlPrefix2 (hd : Distinct n) (gen a b : ℕ) : Distinct (lvlPrefix2 n gen a b).2 := by
  have hpath : ∀ (bs : List ℕ) (n : Net) (cur : ℕ), Distinct n → Distinct (lvInternPath n cur bs).2 := by
    intro bs
    induction bs with
    | nil => exact fun n cur hd => hd
    | cons b bs ih => exact fun n cur hd => ih _ _ (hd.lvIntern cur b)
  exact hpath _ _ _ (hd.lvIntern 0 gen)

lemma split2_levels (g : Globals) (n : Net) (t1 : Tag) (sa sb : ℕ) (t2 : Tag) (s2 : ℕ) :
    (split2 g n t1 sa sb t2 s2).2.levels = n.levels := by
  have halloc : ∀ n t s, (netAlloc g n t s).2.levels = n.levels := by
    intro n t s
    unfold netAlloc
    split <;> rfl
  have hlink : ∀ n a b e, (netLink g n a b e).levels = n.levels := fun n a b e =>
    ((Waning.linking g).netLink n a b e).levels
  simp only [split2, hlink, halloc]

lemma Distinct.copies (hd : Distinct n) (g : Globals) (t1 : Tag) (sa sb : ℕ) (t2 : Tag) (s2 a b : ℕ)
    (t : Fin 4 → Option Port) (cp : Copies → Fin 4 → ℕ) :
    let r := split2 g n t1 sa sb t2 s2
    Distinct (retire g (linkCopies g r.2 a b t (cp r.1)) a b) := by
  refine hd.of_eq ?_
  rw [(Waning.retire g _ a b).levels, ((Waning.linking g).linkCopies _ a b _ _).levels, split2_levels]

lemma Distinct.interactSorted (hd : Distinct n) (g : Globals) (a b : ℕ) : Distinct (interactSorted g n a b).2 := by
  have hglue : ∀ cor, Distinct (retire g (pairBoundary g n a b cor) a b) := fun cor =>
    hd.of_eq ((Waning.retire g _ a b).levels.trans ((Waning.linking g).pairBoundary n a b cor).levels)
  rw [interactSorted_eq]
  cases ruleOf n a b with
  | beta => exact hglue _
  | annihilate => exact hglue _
  | copyFan => exact hd.copies g _ _ _ _ _ a b _ Copies.at
  | copyValue => exact ((hd.lvlPrefix2 1 _ _).lvlPrefix2 2 _ _).copies g _ _ _ _ _ a b _ Copies.at
  | inert => exact hd

lemma Regular.gauge_iff (h : Regular n) {a b : ℕ} (ha : n.live a = true) (hb : n.live b = true) :
    n.graph.gauge a = n.graph.gauge b ↔ n.graph.path a = n.graph.path b := by
  refine ⟨fun he => congrArg (lvlPath n) he, fun he => ?_⟩
  have hp := h.sound.trieOk.pathOf (h.sound.scopes a ha)
  have hq := h.sound.trieOk.pathOf (h.sound.scopes b hb)
  have he : lvlPath n (n.scope.get a) = lvlPath n (n.scope.get b) := he
  rw [he] at hp
  exact h.distinct.inj hp hq

lemma Regular.fired (h : Regular n) (hser : g.inParallel = false) (hf : Fired g n m) : Regular m := by
  refine ⟨hf.sound hser h.sound, ?_⟩
  obtain ⟨p, q, -, -⟩ := hf
  unfold netInteract
  split_ifs
  · exact h.distinct.interactSorted g _ _
  · exact h.distinct.interactSorted g _ _

end Regular

/-! ## All runs of a net -/

/-- Equal up to a renaming of the live nodes. -/
def Isomorphic (n m : Net) : Prop := ∃ f, Iso f n.graph m.graph

section Runs

variable {g : Globals} {n m : Net} {p q p' q' : Port} {f : ℕ → ℕ}

lemma sortPair_map (t t' : Tag) (a b : ℕ) (f : ℕ → ℕ) :
    sortPair t t' (f a) (f b) = (f (sortPair t t' a b).1, f (sortPair t t' a b).2) := by
  simp only [sortPair]
  split_ifs <;> rfl

/-- What fires in a net fires in every net like it, and leaves nets that are alike. -/
lemma Iso.netInteract (h : Iso f n.graph m.graph) (hser : g.inParallel = false) (hn : Regular n) (hm : Regular m)
    (hl : redexLive n p q = true) (hfire : fireable (n.tag.get p.node) (n.tag.get q.node) = true) :
    redexLive m (p.mapNode f) (q.mapNode f) = true ∧
      fireable (m.tag.get (f p.node)) (m.tag.get (f q.node)) = true ∧
        Isomorphic (netInteract g n p q).2 (netInteract g m (p.mapNode f) (q.mapNode f)).2 := by
  obtain ⟨hf, hp, hq⟩ := redexLive_facing hn.sound.wired hl
  have htp : m.tag.get (f p.node) = n.tag.get p.node := h.tag _ hf.liveL
  have htq : m.tag.get (f q.node) = n.tag.get q.node := h.tag _ hf.liveR
  have hl' : redexLive m (p.mapNode f) (q.mapNode f) = true := by
    refine redexLive_of_facing (h.facing hf) ?_ ?_
    · rw [hp]; rfl
    · rw [hq]; rfl
  have hfire' : fireable (m.tag.get (f p.node)) (m.tag.get (f q.node)) = true := by rwa [htp, htq]
  refine ⟨hl', hfire', ?_⟩
  have h1 := (netInteract_spec hser hn.sound hl (by rwa [netInteract_fst])).1
  have h2 := (netInteract_spec hser hm.sound hl' (by rw [netInteract_fst]; exact hfire')).1
  have hsort := hf.sortPair (n.tag.get p.node) (n.tag.get q.node)
  have hpair : sortPair (m.tag.get (p.mapNode f).node) (m.tag.get (q.mapNode f).node) (p.mapNode f).node
        (q.mapNode f).node =
      (f (sortPair (n.tag.get p.node) (n.tag.get q.node) p.node q.node).1,
        f (sortPair (n.tag.get p.node) (n.tag.get q.node) p.node q.node).2) := by
    rw [← sortPair_map]
    simp only [Port.mapNode, htp, htq]
  rw [hpair] at h2
  refine h.fires hn.sound.wired hsort ?_ h1 h2
  have hsort' := h.facing hsort
  rw [hn.gauge_iff hsort.liveL hsort.liveR, hm.gauge_iff hsort'.liveL hsort'.liveR, h.path _ hsort.liveL,
    h.path _ hsort.liveR]

/-- A pair has no order. -/
lemma netInteract_swap (hser : g.inParallel = false) (hn : Regular n) (hl : redexLive n p q = true)
    (hfire : fireable (n.tag.get p.node) (n.tag.get q.node) = true) :
    Isomorphic (netInteract g n p q).2 (netInteract g n q p).2 := by
  obtain ⟨hf, hp, hq⟩ := redexLive_facing hn.sound.wired hl
  rcases lt_trichotomy (n.tag.get p.node).rank (n.tag.get q.node).rank with hlt | heq | hlt
  · have hsame : LinEngine.netInteract g n q p = LinEngine.netInteract g n p q := by
      simp [LinEngine.netInteract, hlt, hlt.not_gt]
    exact ⟨id, hsame ▸ Iso.refl _⟩
  · have hdup : n.tag.get p.node = .dup ∧ n.tag.get q.node = .dup := by
      cases htp : n.tag.get p.node <;> cases htq : n.tag.get q.node <;>
        simp [htp, htq, fireable, Tag.rank] at hfire heq ⊢
    have hl' : redexLive n q p = true := redexLive_of_facing hf.symm hq hp
    have h1 := (netInteract_spec hser hn.sound hl (by rwa [netInteract_fst])).1
    have h2 := (netInteract_spec hser hn.sound hl' (by rw [netInteract_fst, hdup.1, hdup.2]; rfl)).1
    have hpq : ∀ a b : ℕ, sortPair .dup .dup a b = (a, b) := fun a b => by simp [sortPair]
    rw [hdup.1, hdup.2, hpq] at h1 h2
    exact (Iso.refl n.graph).fires hn.sound.wired hf Iff.rfl h1 (h2.swap hf.ne.symm hdup.2 hdup.1)
  · have hsame : LinEngine.netInteract g n q p = LinEngine.netInteract g n p q := by
      simp [LinEngine.netInteract, hlt, hlt.not_gt]
    exact ⟨id, hsame ▸ Iso.refl _⟩

/-- Two live pairs have no node in common, or are one pair. -/
lemma redex_apart (hn : Wired n) (hl : redexLive n p q = true) (hl' : redexLive n p' q' = true) :
    Apart p.node q.node p'.node q'.node ∨ (p' = p ∧ q' = q) ∨ p' = q ∧ q' = p := by
  obtain ⟨hf, hp, hq⟩ := redexLive_facing hn hl
  obtain ⟨hf', hp', hq'⟩ := redexLive_facing hn hl'
  have hfar : ∀ {u v w : ℕ}, n.graph.wire ⟨u, 0⟩ = some ⟨v, 0⟩ → n.graph.wire ⟨u, 0⟩ = some ⟨w, 0⟩ → v = w :=
    fun h1 h2 => congrArg Port.node (Option.some.inj (h1.symm.trans h2))
  by_cases h1 : p.node = p'.node
  · have h2 := hfar hf.wireL (h1 ▸ hf'.wireL)
    exact .inr (.inl ⟨by rw [hp', hp, h1], by rw [hq', hq, h2]⟩)
  by_cases h2 : p.node = q'.node
  · have h3 := hfar hf.wireL (h2 ▸ hf'.wireR)
    exact .inr (.inr ⟨by rw [hp', hq, h3], by rw [hq', hp, h2]⟩)
  by_cases h3 : q.node = p'.node
  · have h4 := hfar hf.wireR (h3 ▸ hf'.wireL)
    exact absurd h4 h2
  by_cases h4 : q.node = q'.node
  · have h5 := hfar hf.wireR (h4 ▸ hf'.wireR)
    exact absurd h5 h1
  · exact .inl ⟨h1, h2, h3, h4⟩

/-- Firing, on regular nets. -/
def RegularStep (g : Globals) (n m : {n : Net // Regular n}) : Prop := Fired g n.1 m.1

lemma isomorphic_equivalence : Equivalence fun n m : {n : Net // Regular n} => Isomorphic n.1 m.1 where
  refl n := ⟨id, Iso.refl _⟩
  symm {n m} := by
    rintro ⟨f, h⟩
    exact h.symm n.2.sound.wired
  trans := by
    rintro n m k ⟨f, h⟩ ⟨f', h'⟩
    exact ⟨f' ∘ f, h.trans h'⟩

/-- Two redexes apart fire in both orders, to one net. -/
lemma fired_square (hser : g.inParallel = false) (hn : Sound n) (hl : redexLive n p q = true) (hl' : redexLive n p' q' = true)
    (hfire : fireable (n.tag.get p.node) (n.tag.get q.node) = true)
    (hfire' : fireable (n.tag.get p'.node) (n.tag.get q'.node) = true) (hd : Apart p.node q.node p'.node q'.node) :
    ∃ m m', Fired g (netInteract g n p q).2 m ∧ Fired g (netInteract g n p' q').2 m' ∧ Isomorphic m m' := by
  obtain ⟨hl1, ht1, ht1'⟩ := other_redex hser hn hl hl' hfire hd
  obtain ⟨hl2, ht2, ht2'⟩ := other_redex hser hn hl' hl hfire' hd.symm
  have hfire1 : fireable ((netInteract g n p q).2.tag.get p'.node) ((netInteract g n p q).2.tag.get q'.node) = true := by
    rwa [ht1, ht1']
  have hfire2 : fireable ((netInteract g n p' q').2.tag.get p.node) ((netInteract g n p' q').2.tag.get q.node) = true := by
    rwa [ht2, ht2']
  refine ⟨_, _, .fire _ _ hl1 hfire1, .fire _ _ hl2 hfire2, ?_⟩
  obtain ⟨hF1, hn1⟩ := netInteract_spec hser hn hl (by rwa [netInteract_fst])
  obtain ⟨hF2, hn2⟩ := netInteract_spec hser hn hl' (by rwa [netInteract_fst])
  have hF12 := (netInteract_spec hser hn1 hl1 (by rwa [netInteract_fst])).1
  have hF21 := (netInteract_spec hser hn2 hl2 (by rwa [netInteract_fst])).1
  rw [ht1, ht1'] at hF12
  rw [ht2, ht2'] at hF21
  exact fires_diamond (G := n.graph) hn.wired (hd.sortPair _ _ _ _) ((redexLive_facing hn.wired hl).1.sortPair _ _)
    ((redexLive_facing hn.wired hl').1.sortPair _ _) hF1 hF12 hF2 hF21

lemma closing (hser : g.inParallel = false) :
    Descent.Closing (RegularStep g) fun n m : {n : Net // Regular n} => Isomorphic n.1 m.1 where
  equiv := isomorphic_equivalence
  match_step := by
    rintro ⟨n, hn⟩ ⟨m, hm⟩ ⟨n', hn'⟩ ⟨f, h⟩ hstep
    change Fired g n n' at hstep
    obtain ⟨p, q, hl, hfire⟩ := hstep
    obtain ⟨hl', hfire', hiso⟩ := h.netInteract hser hn hm hl hfire
    have hstep' : Fired g m (netInteract g m (p.mapNode f) (q.mapNode f)).2 := .fire _ _ hl' hfire'
    exact ⟨⟨_, hm.fired hser hstep'⟩, hstep', hiso⟩
  close := by
    rintro ⟨n, hn⟩ ⟨n1, hn1⟩ ⟨n2, hn2⟩ hstep1 hstep2
    change Fired g n n1 at hstep1
    change Fired g n n2 at hstep2
    obtain ⟨p, q, hl, hfire⟩ := hstep1
    obtain ⟨p', q', hl', hfire'⟩ := hstep2
    rcases redex_apart hn.sound.wired hl hl' with hd | ⟨rfl, rfl⟩ | ⟨rfl, rfl⟩
    · right
      obtain ⟨m, m', h1, h2, hiso⟩ := fired_square hser hn.sound hl hl' hfire hfire' hd
      exact ⟨⟨m, hn1.fired hser h1⟩, ⟨m', hn2.fired hser h2⟩, h1, h2, hiso⟩
    · exact .inl ⟨id, Iso.refl _⟩
    · exact .inl (netInteract_swap hser hn hl hfire)

lemma regular_run (hser : g.inParallel = false) (hn : Regular n) {k : ℕ} (hrun : InSteps (Fired g) n k m) :
    ∃ hm : Regular m, InSteps (RegularStep g) ⟨n, hn⟩ k ⟨m, hm⟩ := by
  induction hrun with
  | refl => exact ⟨hn, .refl⟩
  | tail _ hstep ih =>
    obtain ⟨hm, hrun⟩ := ih
    exact ⟨hm.fired hser hstep, .tail hrun hstep⟩

lemma run_of_regular {a b : {n : Net // Regular n}} {k : ℕ} (hrun : InSteps (RegularStep g) a k b) :
    InSteps (Fired g) a.1 k b.1 := by
  induction hrun with
  | refl => exact .refl
  | tail _ hstep ih => exact .tail ih hstep

lemma halted_iff (hser : g.inParallel = false) (hm : Regular m) : Halted m ↔ Descent.Ends (RegularStep g) ⟨m, hm⟩ := by
  constructor
  · rintro hend ⟨m', hm'⟩ hstep
    change Fired g m m' at hstep
    obtain ⟨p, q, hl, hfire⟩ := hstep
    rw [hend p q hl] at hfire
    exact Bool.false_ne_true hfire
  · intro hend p q hl
    by_contra hfire
    have hstep : Fired g m (netInteract g m p q).2 := .fire p q hl (by simpa using hfire)
    exact hend ⟨_, hm.fired hser hstep⟩ hstep

/-- One run to the end settles all runs: after any `j` firings, in any order, exactly `k - j` are left, and
they lead to the same net up to a renaming of its live nodes; a run that comes to an end took `k` firings. -/
theorem fired_outcome (hser : g.inParallel = false) (hn : Regular n) {h m : Net} {j k : ℕ}
    (hrun : InSteps (Fired g) n k h) (hend : Halted h) (hother : InSteps (Fired g) n j m) :
    (∃ i h', k = j + i ∧ InSteps (Fired g) m i h' ∧ Halted h' ∧ Isomorphic h h') ∧
      (Halted m → k = j ∧ Isomorphic h m) := by
  obtain ⟨hh, hrun⟩ := regular_run hser hn hrun
  obtain ⟨hm, hother⟩ := regular_run hser hn hother
  have hc := closing hser
  have hend := (halted_iff hser hh).mp hend
  constructor
  · obtain ⟨i, ⟨h', hh'⟩, hk, hrest, hiso⟩ := hc.run hrun hend hother
    exact ⟨i, h', hk, run_of_regular hrest, (halted_iff hser hh').mpr (hc.ends hiso hend), hiso⟩
  · intro hm'
    exact hc.run_ends hrun hend hother ((halted_iff hser hm).mp hm')

/-- Fire the principal ports of the listed pairs, one after the other. -/
def fireNodes (g : Globals) (n : Net) (pairs : List (ℕ × ℕ)) : Net :=
  pairs.foldl (fun n v => (netInteract g n ⟨v.1, 0⟩ ⟨v.2, 0⟩).2) n

/-- Each pair is a live redex when it is its turn. -/
def firesAll (g : Globals) (n : Net) : List (ℕ × ℕ) → Bool
  | [] => true
  | v :: pairs => redexLive n ⟨v.1, 0⟩ ⟨v.2, 0⟩ && fireable (n.tag.get v.1) (n.tag.get v.2) &&
      firesAll g (netInteract g n ⟨v.1, 0⟩ ⟨v.2, 0⟩).2 pairs

lemma fireNodes_run (pairs : List (ℕ × ℕ)) (h : firesAll g n pairs = true) :
    InSteps (Fired g) n pairs.length (fireNodes g n pairs) := by
  induction pairs generalizing n with
  | nil => exact .refl
  | cons v pairs ih =>
    simp only [firesAll, Bool.and_eq_true] at h
    exact Descent.InSteps.head (.fire ⟨v.1, 0⟩ ⟨v.2, 0⟩ h.1.1 h.1.2) (ih h.2)

/-- Five firings end the run; after the pair that was third there, four are left. -/
theorem fired_outcome_shared :
    ∃ i h', 5 = 1 + i ∧ InSteps (Fired .serial) (fireNodes .serial sharedAndAppliedNet [(6, 7)]) i h' ∧ Halted h' ∧
      Isomorphic (fireNodes .serial sharedAndAppliedNet [(2, 9), (4, 10), (6, 7), (12, 13), (3, 11)]) h' :=
  (fired_outcome (g := .serial) rfl (n := sharedAndAppliedNet) ⟨sound_of_check (by decide +kernel), by decide +kernel⟩
    (fireNodes_run [(2, 9), (4, 10), (6, 7), (12, 13), (3, 11)] (by decide +kernel))
    (halted_of_check (by decide +kernel)) (fireNodes_run [(6, 7)] (by decide +kernel))).1

end Runs

end LinEngine
