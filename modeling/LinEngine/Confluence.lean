import LinEngine.Runs

/-!
# Strong confluence

Two facing pairs with no agent in common are fired in either order. Two
annihilations commute because both orders glue the ports of both pairs. Where a
pair is copied the results agree up to the choice of fresh agents, so each copy of
one order is matched with the copy in the same place of the other.
-/
namespace LinEngine

open Splice

/-- Rename the agent of a port. -/
def Port.mapNode (f : ℕ → ℕ) (p : Port) : Port := ⟨f p.node, p.port⟩

/-- `f` matches the live agents of `G` with those of `H`, with their tags, level paths
and wires, and leaves ROOT in place. -/
structure Iso (f : ℕ → ℕ) (G H : Graph) : Prop where
  live : ∀ v, G.live v → H.live (f v)
  inj : ∀ u v, G.live u → G.live v → f u = f v → u = v
  surj : ∀ v, H.live v → ∃ u, G.live u ∧ f u = v
  tag : ∀ v, G.live v → H.tag (f v) = G.tag v
  path : ∀ v, G.live v → H.path (f v) = G.path v
  wire : ∀ p : Port, G.live p.node → H.wire (p.mapNode f) = (G.wire p).map (Port.mapNode f)
  root : ∀ v, G.live v → G.tag v = .root → f v = v

/-- The inverse matching. -/
theorem Iso.symm {f : ℕ → ℕ} {G H : Graph} (hG : G.Wired) (h : Iso f G H) :
    ∃ f', Iso f' H G := by
  classical
  choose! u hu using h.surj
  have hfu : ∀ v, G.live v → u (f v) = v := fun v hv =>
    h.inj _ _ (hu _ (h.live v hv)).1 hv (hu _ (h.live v hv)).2
  refine ⟨u, fun v hv => (hu v hv).1, fun v w hv hw he => ?_, fun v hv => ⟨f v, h.live v hv, hfu v hv⟩,
    fun v hv => ?_, fun v hv => ?_, fun p hp => ?_, fun v hv ht => ?_⟩
  · rw [← (hu v hv).2, he, (hu w hw).2]
  · rw [← h.tag _ (hu v hv).1, (hu v hv).2]
  · rw [← h.path _ (hu v hv).1, (hu v hv).2]
  · have hw := h.wire (p.mapNode u) (hu _ hp).1
    have hp' : (p.mapNode u).mapNode f = p := by
      obtain ⟨v, k⟩ := p
      simp only [Port.mapNode, (hu v hp).2]
    rw [hp'] at hw
    rw [hw]
    cases hq : G.wire (p.mapNode u) with
    | none => rfl
    | some q =>
      have hlq := (hG _ q (hu _ hp).1 hq).1
      obtain ⟨v, k⟩ := q
      simp only [Option.map_some, Port.mapNode, hfu v hlq]
  · have htu : G.tag (u v) = .root := by rw [← h.tag _ (hu v hv).1, (hu v hv).2, ht]
    exact (h.root _ (hu v hv).1 htu).symm.trans (hu v hv).2

/-- The pairs have no agent in common. -/
def Apart (a b a' b' : ℕ) : Prop := a ≠ a' ∧ a ≠ b' ∧ b ≠ a' ∧ b ≠ b'

lemma Apart.symm {a b a' b' : ℕ} (h : Apart a b a' b') : Apart a' b' a b :=
  ⟨h.1.symm, h.2.2.1.symm, h.2.1.symm, h.2.2.2.symm⟩

section Survive

variable {G G' : Graph} {a b a' b' : ℕ} {s : Fin 3 → Fin 3} {c : Copies}

/-- What the other pair keeps when one pair fires. -/
structure Survives (G G' : Graph) (a' b' : ℕ) : Prop where
  facing : G'.Facing a' b'
  tagL : G'.tag a' = G.tag a'
  tagR : G'.tag b' = G.tag b'
  gaugeL : G'.gauge a' = G.gauge a'
  gaugeR : G'.gauge b' = G.gauge b'
  pathL : G'.path a' = G.path a'
  pathR : G'.path b' = G.path b'

lemma Annihilates.survives (h : Annihilates s a b G G') (hd : Apart a b a' b')
    (hf : G.Facing a' b') : Survives G G' a' b' := by
  have hcl : crossing a b s ⟨b', 0⟩ = none := crossing_eq_none.mpr ⟨hd.2.1.symm, hd.2.2.2.symm⟩
  have hcr : crossing a b s ⟨a', 0⟩ = none := crossing_eq_none.mpr ⟨hd.1.symm, hd.2.2.1.symm⟩
  have hl : G'.live a' := (h.live _).mpr ⟨hf.liveL, hd.1.symm, hd.2.2.1.symm,
    Or.inr ⟨0, ⟨b', 0⟩, by rw [hf.wireL]; exact .out hcl⟩⟩
  have hr : G'.live b' := (h.live _).mpr ⟨hf.liveR, hd.2.1.symm, hd.2.2.2.symm,
    Or.inr ⟨0, ⟨a', 0⟩, by rw [hf.wireR]; exact .out hcr⟩⟩
  refine ⟨⟨hf.ne, hl, hr, ?_, ?_⟩, h.tag _ hl, h.tag _ hr, h.gauge _ hl, h.gauge _ hr, h.path _ hl,
    h.path _ hr⟩
  · have := h.wire ⟨a', 0⟩ hl
    rwa [hf.wireL, exits_some_iff hcl] at this
  · have := h.wire ⟨b', 0⟩ hr
    rwa [hf.wireR, exits_some_iff hcr] at this

lemma Commutes.survives (h : Commutes c a b G G') (hd : Apart a b a' b')
    (hf : G.Facing a' b') : Survives G G' a' b' := by
  have hl : ∀ v, G.live v → v ≠ a → v ≠ b → G'.live v := fun v hv ha hb =>
    (h.live v).mpr (Or.inl ⟨hv, ha, hb⟩)
  have hw : ∀ u v, G.live u → u ≠ a → u ≠ b → v ≠ a → v ≠ b → G.wire ⟨u, 0⟩ = some ⟨v, 0⟩ →
      G'.wire ⟨u, 0⟩ = some ⟨v, 0⟩ := by
    intro u v hu hua hub hva hvb huv
    have := h.outer ⟨u, 0⟩ hu (fun h => hua (congrArg Port.node h))
      fun h => hub (congrArg Port.node h)
    rwa [rename_other hua hub, huv, Option.map_some, rename_other hva hvb] at this
  obtain ⟨h1, h2, h3, h4⟩ := hd
  exact ⟨⟨hf.ne, hl _ hf.liveL h1.symm h3.symm, hl _ hf.liveR h2.symm h4.symm,
    hw _ _ hf.liveL h1.symm h3.symm h2.symm h4.symm hf.wireL,
    hw _ _ hf.liveR h2.symm h4.symm h1.symm h3.symm hf.wireR⟩,
    h.tag _ hf.liveL h1.symm h3.symm, h.tag _ hf.liveR h2.symm h4.symm,
    h.gauge _ hf.liveL h1.symm h3.symm, h.gauge _ hf.liveR h2.symm h4.symm,
    h.path _ hf.liveL h1.symm h3.symm, h.path _ hf.liveR h2.symm h4.symm⟩

end Survive

/-- How a pair with these tags and gauges is glued, if it annihilates. -/
def glueOf (ta tb : Tag) (ga gb : ℕ) : Option (Fin 3 → Fin 3) :=
  match ta, tb with
  | .lam, .app => some swapped
  | .dup, .dup => if ga = gb then some straight else none
  | _, _ => none

/-- A firing that copies, with the labels of the copies. -/
structure CopyStep (c : Copies) (a b : ℕ) (G G' : Graph) : Prop where
  commutes : Commutes c a b G G'
  tagL : G.tag a ≠ .root
  tagR : G.tag b = .dup
  pathMain : ∀ i, G'.path (c.main i) = copyPath (G.tag a) i (G.path a) (G.path b)

/-- A firing annihilates or copies, as the tags and gauges of the pair say. -/
lemma Fires.cases {a b : ℕ} {G G' : Graph} (h : Fires a b G G') :
    (∃ s, glueOf (G.tag a) (G.tag b) (G.gauge a) (G.gauge b) = some s ∧ Annihilates s a b G G') ∨
      glueOf (G.tag a) (G.tag b) (G.gauge a) (G.gauge b) = none ∧ ∃ c, CopyStep c a b G G' := by
  cases h with
  | beta ha hb h => exact Or.inl ⟨swapped, by simp [glueOf, ha, hb], h⟩
  | annihilate ha hb hg h => exact Or.inl ⟨straight, by simp [glueOf, ha, hb, hg], h⟩
  | commute c ha hb h hp _ =>
    refine Or.inr ⟨?_, c, h, ?_, hb, hp⟩
    · rcases ha with ha | ha | ⟨ha, hg⟩ <;> simp [glueOf, ha, hb]
      exact hg
    · rcases ha with ha | ha | ⟨ha, _⟩ <;> simp [ha]

/-! ## Two annihilations -/

section TwoAnnihilations

variable {G G1 G2 G12 G21 : Graph} {a b a' b' : ℕ} {s s' : Fin 3 → Fin 3}

/-- Two annihilations in a row, as one removal of both pairs. -/
structure GluesBoth (s s' : Fin 3 → Fin 3) (a b a' b' : ℕ) (G G' : Graph) : Prop where
  live : ∀ v, G'.live v ↔ G.live v ∧ (v ≠ a ∧ v ≠ b ∧ v ≠ a' ∧ v ≠ b') ∧
    ((∀ k, G.wire ⟨v, k⟩ = none) ∨ ∃ k x,
      Exits G.wire (both (crossing a b s) (crossing a' b' s')) (G.wire ⟨v, k⟩) (some x))
  wire : ∀ p : Port, G'.live p.node →
    Exits G.wire (both (crossing a b s) (crossing a' b' s')) (G.wire p) (G'.wire p)
  tag : ∀ v, G'.live v → G'.tag v = G.tag v
  path : ∀ v, G'.live v → G'.path v = G.path v

lemma Annihilates.both (h : Annihilates s a b G G1) (h' : Annihilates s' a' b' G1 G12)
    (hf : G1.Facing a' b') : GluesBoth s s' a b a' b' G G12 := by
  have hlive : ∀ q : Port, q.node = a' ∨ q.node = b' → G1.live q.node := by
    rintro q (hq | hq) <;> rw [hq]
    exacts [hf.liveL, hf.liveR]
  have hboth := fun x z => exits_both_iff G.wire G1.wire (crossing a b s) (crossing a' b' s')
    (x := x) (z := z) fun p q _ hq => h.wire q (hlive q (crossing_node hq))
  refine ⟨fun v => ?_, fun p hp => ?_, fun v hv => ?_, fun v hv => ?_⟩
  · rw [h'.live]
    constructor
    · rintro ⟨hv1, ha', hb', hor⟩
      obtain ⟨hv, ha, hb, hiso⟩ := (h.live v).mp hv1
      refine ⟨hv, ⟨ha, hb, ha', hb'⟩, ?_⟩
      rcases hor with hn | ⟨k, x, hx⟩
      · refine Or.inl (hiso.resolve_right ?_)
        rintro ⟨k, x, hx⟩
        have := (h.wire ⟨v, k⟩ hv1).unique hx
        rw [hn k] at this
        cases this
      · exact Or.inr ⟨k, x, (hboth _ _).mpr ⟨_, h.wire ⟨v, k⟩ hv1, hx⟩⟩
    · rintro ⟨hv, ⟨ha, hb, ha', hb'⟩, hor⟩
      rcases hor with hn | ⟨k, x, hx⟩
      · have hv1 : G1.live v := (h.live v).mpr ⟨hv, ha, hb, Or.inl hn⟩
        refine ⟨hv1, ha', hb', Or.inl fun k => ?_⟩
        have := h.wire ⟨v, k⟩ hv1
        rwa [hn k, exits_none_iff] at this
      · obtain ⟨y, hy, hxy⟩ := (hboth _ _).mp hx
        cases y with
        | none => cases hxy
        | some y =>
          have hv1 : G1.live v := (h.live v).mpr ⟨hv, ha, hb, Or.inr ⟨k, y, hy⟩⟩
          refine ⟨hv1, ha', hb', Or.inr ⟨k, x, ?_⟩⟩
          rwa [(h.wire ⟨v, k⟩ hv1).unique hy]
  · exact (hboth _ _).mpr ⟨_, h.wire p ((h'.live _).mp hp).1, h'.wire p hp⟩
  · rw [h'.tag v hv, h.tag v ((h'.live v).mp hv).1]
  · rw [h'.path v hv, h.path v ((h'.live v).mp hv).1]

lemma iso_annihilates (hd : Apart a b a' b') (h1 : Annihilates s a b G G1)
    (h12 : Annihilates s' a' b' G1 G12) (h2 : Annihilates s' a' b' G G2)
    (h21 : Annihilates s a b G2 G21) (hf1 : G1.Facing a' b') (hf2 : G2.Facing a b) :
    Iso id G12 G21 := by
  have hA := h1.both h12 hf1
  have hB := h2.both h21 hf2
  obtain ⟨d1, d2, d3, d4⟩ := hd
  have hcomm : both (crossing a' b' s') (crossing a b s) =
      both (crossing a b s) (crossing a' b' s') := by
    refine both_comm fun p => ?_
    by_cases h : p.node = a ∨ p.node = b
    · left
      rw [crossing_eq_none]
      rcases h with h | h <;> rw [h]
      exacts [⟨d1, d2⟩, ⟨d3, d4⟩]
    · exact Or.inr (crossing_eq_none.mpr (not_or.mp h))
  have hlive : ∀ v, G12.live v ↔ G21.live v := by
    intro v
    rw [hA.live, hB.live, hcomm]
    tauto
  refine ⟨fun v hv => (hlive v).mp hv, fun _ _ _ _ h => h, fun v hv => ⟨v, (hlive v).mpr hv, rfl⟩,
    fun v hv => ?_, fun v hv => ?_, fun p hp => ?_, fun _ _ _ => rfl⟩
  · rw [id, hB.tag v ((hlive v).mp hv), hA.tag v hv]
  · rw [id, hB.path v ((hlive v).mp hv), hA.path v hv]
  · have hp' := hB.wire p ((hlive _).mp hp)
    rw [hcomm] at hp'
    have hid : Port.mapNode id = id := rfl
    rw [hid, id, Option.map_id, id]
    exact hp'.unique (hA.wire p hp)

end TwoAnnihilations

/-! ## A copy and another firing -/

/-- Match the copies of one order with those of the other. -/
def Copies.transfer (c c' : Copies) (v : ℕ) : ℕ :=
  if v = c.m1 then c'.m1
  else if v = c.m2 then c'.m2
  else if v = c.d1 then c'.d1
  else if v = c.d2 then c'.d2
  else v

section Transfer

variable {c c' : Copies}

lemma transfer_other {v : ℕ} (h : ¬ c.has v) : c.transfer c' v = v := by
  simp only [Copies.has, not_or] at h
  simp [Copies.transfer, h.1, h.2.1, h.2.2.1, h.2.2.2]

lemma transfer_at (hc : [c.m1, c.m2, c.d1, c.d2].Nodup) (k : Fin 4) :
    c.transfer c' (c.at k) = c'.at k := by
  obtain ⟨m1, m2, d1, d2⟩ := c
  simp only [List.nodup_cons, List.mem_cons, List.not_mem_nil, or_false, not_or, not_false_eq_true,
    List.nodup_nil, and_true] at hc
  obtain ⟨⟨h12, h1d, h1e⟩, ⟨h2d, h2e⟩, hde⟩ := hc
  fin_cases k <;>
    simp [Copies.transfer, Copies.at, Ne.symm h12, Ne.symm h1d, Ne.symm h1e, Ne.symm h2d,
      Ne.symm h2e, Ne.symm hde]

lemma transfer_main (hc : [c.m1, c.m2, c.d1, c.d2].Nodup) (i : Fin 2) :
    c.transfer c' (c.main i) = c'.main i := by
  match i with
  | 0 => exact transfer_at hc 2
  | 1 => exact transfer_at hc 3

lemma transfer_fan (hc : [c.m1, c.m2, c.d1, c.d2].Nodup) (i : Fin 2) :
    c.transfer c' (c.fan i) = c'.fan i := by
  match i with
  | 0 => exact transfer_at hc 0
  | 1 => exact transfer_at hc 1

lemma has_cases {v : ℕ} (h : c.has v) : (∃ i, v = c.main i) ∨ ∃ i, v = c.fan i := by
  rcases h with rfl | rfl | rfl | rfl
  exacts [Or.inl ⟨0, rfl⟩, Or.inl ⟨1, rfl⟩, Or.inr ⟨0, rfl⟩, Or.inr ⟨1, rfl⟩]

lemma transfer_has (hc : [c.m1, c.m2, c.d1, c.d2].Nodup) {v : ℕ} (h : c.has v) :
    c'.has (c.transfer c' v) := by
  obtain ⟨k, rfl⟩ := exists_at h
  rw [transfer_at hc]
  exact has_at c' k

lemma transfer_inj (hc : [c.m1, c.m2, c.d1, c.d2].Nodup)
    (hc' : [c'.m1, c'.m2, c'.d1, c'.d2].Nodup) {u v : ℕ} (hu : c.has u) (hv : c.has v)
    (h : c.transfer c' u = c.transfer c' v) : u = v := by
  obtain ⟨k, rfl⟩ := exists_at hu
  obtain ⟨l, rfl⟩ := exists_at hv
  rw [transfer_at hc, transfer_at hc] at h
  rw [at_inj hc' h]

end Transfer

lemma copy_off {G : Graph} {a b a' b' v : ℕ} {c : Copies} {G' : Graph} (h : Commutes c a' b' G G')
    (hf : G.Facing a b) (hv : c.has v) : v ≠ a ∧ v ≠ b :=
  ⟨fun he => h.fresh v hv (he ▸ hf.liveL), fun he => h.fresh v hv (he ▸ hf.liveR)⟩

/-- A copy is never ROOT. -/
lemma CopyStep.copy_tag {c : Copies} {a b v : ℕ} {G G' : Graph} (h : CopyStep c a b G G')
    (hv : c.has v) : G'.tag v ≠ .root := by
  rcases has_cases hv with ⟨i, rfl⟩ | ⟨i, rfl⟩
  · rw [h.commutes.tagMain]
    exact h.tagL
  · rw [h.commutes.tagFan, h.tagR]
    simp

section AnnihilateCopy

variable {G G1 G2 G12 G21 : Graph} {a b a' b' : ℕ} {s : Fin 3 → Fin 3} {c c' : Copies}

/-- A path across one pair is renamed by the copying of another. -/
lemma Commutes.exits (hG : G.Wired) (hd : Apart a b a' b') (hf : G.Facing a b)
    (hf' : G.Facing a' b') (h2 : Commutes c a' b' G G2) {p : Port} {z : Option Port}
    (hp : Commutes.Keeps G a' b' p) (h : Exits G.wire (crossing a b s) (G.wire p) z) :
    Exits G2.wire (crossing a b s) (G2.wire (c.rename a' b' p)) (z.map (c.rename a' b')) := by
  obtain ⟨d1, d2, d3, d4⟩ := hd
  have hpair : ∀ q : Port, q.node = a ∨ q.node = b →
      Commutes.Keeps G a' b' q ∧ c.rename a' b' q = q := by
    intro q hq
    have hne : q.node ≠ a' ∧ q.node ≠ b' := by
      rcases hq with hq | hq <;> rw [hq]
      exacts [⟨d1, d2⟩, ⟨d3, d4⟩]
    refine ⟨⟨?_, fun h => hne.1 (congrArg Port.node h), fun h => hne.2 (congrArg Port.node h)⟩,
      rename_other hne.1 hne.2⟩
    rcases hq with hq | hq <;> rw [hq]
    exacts [hf.liveL, hf.liveR]
  rw [h2.outer p hp.1 hp.2.1 hp.2.2]
  refine h.rename (c.rename a' b') (Commutes.Keeps G a' b') (fun q hq => (hp.wire hf' hG hq).1)
    (fun q hq => ?_) (fun q r _ hqr => ?_) fun q r t _ hqr hrt => ?_
  · by_cases hin : q.node = a ∨ q.node = b
    · rw [(hpair q hin).2]
      have hs : ∀ t, crossing a b s q = some t → c.rename a' b' t = t :=
        fun t ht => (hpair t (crossing_node ht)).2
      cases hq : crossing a b s q with
      | none => rfl
      | some t => rw [Option.map_some, hs t hq]
    · have hnone : crossing a b s q = none := crossing_eq_none.mpr (not_or.mp hin)
      rw [hnone, Option.map_none, crossing_eq_none]
      rcases hq.cases with ⟨k, rfl⟩ | ⟨ha, hb⟩
      · rw [rename_auxOf hf'.ne]
        exact copy_off h2 hf (has_at c k)
      · rw [rename_other ha hb]
        exact not_or.mp hin
  · obtain ⟨hk, -⟩ := hpair r (crossing_node hqr)
    exact h2.outer r hk.1 hk.2.1 hk.2.2
  · exact ((hpair r (crossing_node hqr)).1.wire hf' hG hrt).1

lemma iso_annihilate_copy (hG : G.Wired) (hd : Apart a b a' b') (hf : G.Facing a b)
    (hf' : G.Facing a' b') (h1 : Annihilates s a b G G1) (h12 : CopyStep c a' b' G1 G12)
    (h2 : CopyStep c' a' b' G G2) (h21 : Annihilates s a b G2 G21) (hs : Survives G G1 a' b')
    (hW1 : G1.Wired) : Iso (c.transfer c') G12 G21 := by
  have hroot := fun v => h12.copy_tag (v := v)
  obtain ⟨hc, -, -, hp1⟩ := h12
  obtain ⟨hc', -, -, hp2⟩ := h2
  have hf1 := hs.facing
  have hlive1 : ∀ v, G1.live v → G.live v ∧ v ≠ a ∧ v ≠ b := fun v hv =>
    ⟨((h1.live v).mp hv).1, ((h1.live v).mp hv).2.1, ((h1.live v).mp hv).2.2.1⟩
  have hexits := fun p z => Commutes.exits (s := s) (p := p) (z := z) hG hd hf hf' hc'
  have hold : ∀ v, G1.live v → c.transfer c' v = v := fun v hv => transfer_other (hc.old_not_has hv)
  have hkeep : ∀ v k, G.live v → v ≠ a' → v ≠ b' → Commutes.Keeps G a' b' ⟨v, k⟩ :=
    fun v k hv ha hb => ⟨hv, fun h => ha (congrArg Port.node h), fun h => hb (congrArg Port.node h)⟩
  -- the copies survive the annihilation: their inner wires stay
  have hcopy : ∀ v, c'.has v → G21.live v := by
    intro v hv
    have hoff := copy_off hc' hf hv
    refine (h21.live v).mpr ⟨(hc'.live v).mpr (Or.inr hv), hoff.1, hoff.2, Or.inr ?_⟩
    rcases has_cases hv with ⟨i, rfl⟩ | ⟨i, rfl⟩
    · refine ⟨auxPort 0, ⟨c'.fan 0, auxPort i⟩, ?_⟩
      rw [hc'.innerMain]
      exact .out (crossing_eq_none.mpr (copy_off hc' hf (has_fan c' 0)))
    · refine ⟨auxPort 0, ⟨c'.main 0, auxPort i⟩, ?_⟩
      rw [hc'.innerFan]
      exact .out (crossing_eq_none.mpr (copy_off hc' hf (has_main c' 0)))
  -- a node outside both pairs survives in the one order as in the other
  have hsurv : ∀ v, G.live v → v ≠ a' → v ≠ b' → (G1.live v ↔ G21.live v) := by
    intro v hv ha' hb'
    have hw2 : ∀ k, G2.wire ⟨v, k⟩ = (G.wire ⟨v, k⟩).map (c'.rename a' b') := fun k => by
      have hk := hkeep v k hv ha' hb'
      have := hc'.outer ⟨v, k⟩ hk.1 hk.2.1 hk.2.2
      rwa [rename_other ha' hb'] at this
    rw [h1.live, h21.live, hc'.live]
    constructor
    · rintro ⟨-, ha, hb, hor⟩
      refine ⟨Or.inl ⟨hv, ha', hb'⟩, ha, hb, ?_⟩
      rcases hor with hn | ⟨k, x, hx⟩
      · exact Or.inl fun k => by rw [hw2, hn k]; rfl
      · refine Or.inr ⟨k, c'.rename a' b' x, ?_⟩
        have := hexits ⟨v, k⟩ _ (hkeep v k hv ha' hb') hx
        rwa [rename_other ha' hb'] at this
    · rintro ⟨-, ha, hb, hor⟩
      refine ⟨hv, ha, hb, ?_⟩
      rcases hor with hn | ⟨k, x, hx⟩
      · refine Or.inl fun k => ?_
        have := hn k
        rwa [hw2, Option.map_eq_none_iff] at this
      · obtain ⟨z, hz⟩ := h1.exits ⟨v, k⟩ hv ha hb
        have := hexits ⟨v, k⟩ _ (hkeep v k hv ha' hb') hz
        rw [rename_other ha' hb'] at this
        have hzx := this.unique hx
        cases z with
        | none => cases hzx
        | some z => exact Or.inr ⟨k, z, hz⟩
  have hmap : ∀ x, Commutes.Keeps G1 a' b' x →
      (c.rename a' b' x).mapNode (c.transfer c') = c'.rename a' b' x := by
    intro x hx
    rcases hx.cases with ⟨k, rfl⟩ | ⟨ha, hb⟩
    · rw [rename_auxOf hf'.ne, rename_auxOf hf'.ne, Port.mapNode, transfer_at hc.nodup]
    · rw [rename_other ha hb, rename_other ha hb, Port.mapNode, hold _ hx.1]
  refine ⟨fun v hv => ?_, fun u v hu hv he => ?_, fun v hv => ?_, fun v hv => ?_, fun v hv => ?_,
    fun p hp => ?_, fun v hv ht => ?_⟩
  · rcases (hc.live v).mp hv with ⟨hv1, ha', hb'⟩ | hv
    · rw [hold v hv1]
      exact (hsurv v (hlive1 v hv1).1 ha' hb').mp hv1
    · exact hcopy _ (transfer_has hc.nodup hv)
  · rcases (hc.live u).mp hu with ⟨hu1, -, -⟩ | hu <;> rcases (hc.live v).mp hv with ⟨hv1, -, -⟩ | hv
    · rwa [hold u hu1, hold v hv1] at he
    · rw [hold u hu1] at he
      exact absurd (he ▸ transfer_has hc.nodup hv) (hc'.old_not_has (hlive1 u hu1).1)
    · rw [hold v hv1] at he
      exact absurd (he.symm ▸ transfer_has hc.nodup hu) (hc'.old_not_has (hlive1 v hv1).1)
    · exact transfer_inj hc.nodup hc'.nodup hu hv he
  · have hv2 := ((h21.live v).mp hv).1
    rcases (hc'.live v).mp hv2 with ⟨hv0, ha', hb'⟩ | hv'
    · have hv1 := (hsurv v hv0 ha' hb').mpr hv
      exact ⟨v, (hc.live v).mpr (Or.inl ⟨hv1, ha', hb'⟩), hold v hv1⟩
    · obtain ⟨k, rfl⟩ := exists_at hv'
      exact ⟨c.at k, (hc.live _).mpr (Or.inr (has_at c k)), transfer_at hc.nodup k⟩
  · rcases (hc.live v).mp hv with ⟨hv1, ha', hb'⟩ | hv
    · have hv0 := (hlive1 v hv1).1
      have hv21 := (hsurv v hv0 ha' hb').mp hv1
      rw [hold v hv1, h21.tag v hv21, hc'.tag v hv0 ha' hb', hc.tag v hv1 ha' hb', h1.tag v hv1]
    · rcases has_cases hv with ⟨i, rfl⟩ | ⟨i, rfl⟩
      · rw [transfer_main hc.nodup, h21.tag _ (hcopy _ (has_main c' i)), hc'.tagMain, hc.tagMain,
          hs.tagL]
      · rw [transfer_fan hc.nodup, h21.tag _ (hcopy _ (has_fan c' i)), hc'.tagFan, hc.tagFan,
          hs.tagR]
  · rcases (hc.live v).mp hv with ⟨hv1, ha', hb'⟩ | hv
    · have hv0 := (hlive1 v hv1).1
      have hv21 := (hsurv v hv0 ha' hb').mp hv1
      rw [hold v hv1, h21.path v hv21, hc'.path v hv0 ha' hb', hc.path v hv1 ha' hb', h1.path v hv1]
    · rcases has_cases hv with ⟨i, rfl⟩ | ⟨i, rfl⟩
      · rw [transfer_main hc.nodup, h21.path _ (hcopy _ (has_main c' i)), hp2, hp1, hs.tagL,
          hs.pathL, hs.pathR]
      · rw [transfer_fan hc.nodup, h21.path _ (hcopy _ (has_fan c' i)), hc'.pathFan, hc.pathFan,
          hs.pathR]
  · have hinner : ∀ u k q, c'.has u → c'.has q.node → G2.wire ⟨u, k⟩ = some q →
        G21.wire ⟨u, k⟩ = some q := by
      intro u k q hu hq hw
      have := h21.wire ⟨u, k⟩ (hcopy u hu)
      rwa [hw, exits_some_iff (crossing_eq_none.mpr (copy_off hc' hf hq))] at this
    rcases hc.port_cases hf1 hp with ⟨x, hx, rfl⟩ | ⟨i, j, rfl⟩ | ⟨i, j, rfl⟩
    · obtain ⟨hx0, hxa, hxb⟩ := hlive1 _ hx.1
      have hk : Commutes.Keeps G a' b' x := ⟨hx0, hx.2.1, hx.2.2⟩
      have hw := hexits x _ hk (h1.wire x hx.1)
      have hl21 : G21.live (c'.rename a' b' x).node := by
        rcases hk.cases with ⟨k, rfl⟩ | ⟨ha, hb⟩
        · rw [rename_auxOf hf'.ne]
          exact hcopy _ (has_at c' k)
        · rw [rename_other ha hb]
          exact (hsurv _ hx0 ha hb).mp hx.1
      rw [hmap x hx, (h21.wire _ hl21).unique hw, hc.outer x hx.1 hx.2.1 hx.2.2]
      cases hy : G1.wire x with
      | none => rfl
      | some y =>
        simp only [Option.map_some, hmap y (hx.wire hf1 hW1 hy).1]
    · rw [hc.innerMain]
      simp only [Port.mapNode, Option.map_some, transfer_main hc.nodup, transfer_fan hc.nodup]
      exact hinner _ _ _ (has_main c' i) (has_fan c' j) (hc'.innerMain i j)
    · rw [hc.innerFan]
      simp only [Port.mapNode, Option.map_some, transfer_main hc.nodup, transfer_fan hc.nodup]
      exact hinner _ _ _ (has_fan c' j) (has_main c' i) (hc'.innerFan i j)
  · rcases (hc.live v).mp hv with ⟨hv1, -, -⟩ | hv
    · exact hold v hv1
    · exact absurd ht (hroot v hv)

end AnnihilateCopy

section TwoCopies

variable {G G1 G2 G12 G21 : Graph} {a b a' b' : ℕ} {c1 c12 c2 c21 : Copies}

/-- The match between the copies of both pairs in the one order and in the other. -/
def transferBoth (c1 c12 c2 c21 : Copies) (v : ℕ) : ℕ :=
  if c12.has v then c12.transfer c2 v else c1.transfer c21 v

/-- The inner wires of the first copies stay when another pair is copied. -/
lemma inner_stays (k1 : Commutes c1 a b G G1) (k12 : Commutes c12 a' b' G1 G12)
    (hf' : G.Facing a' b') (i j : Fin 2) :
    G12.wire ⟨c1.main i, auxPort j⟩ = some ⟨c1.fan j, auxPort i⟩ ∧
      G12.wire ⟨c1.fan j, auxPort i⟩ = some ⟨c1.main i, auxPort j⟩ := by
  have hw : ∀ u v k l, c1.has u → c1.has v → G1.wire ⟨u, k⟩ = some ⟨v, l⟩ →
      G12.wire ⟨u, k⟩ = some ⟨v, l⟩ := by
    intro u v k l hu hv huv
    obtain ⟨ha, hb⟩ := copy_off k1 hf' hu
    obtain ⟨ha', hb'⟩ := copy_off k1 hf' hv
    have := k12.outer ⟨u, k⟩ ((k1.live u).mpr (Or.inr hu)) (fun h => ha (congrArg Port.node h))
      fun h => hb (congrArg Port.node h)
    rwa [rename_other ha hb, huv, Option.map_some, rename_other ha' hb'] at this
  exact ⟨hw _ _ _ _ (has_main c1 i) (has_fan c1 j) (k1.innerMain i j),
    hw _ _ _ _ (has_fan c1 j) (has_main c1 i) (k1.innerFan i j)⟩

lemma iso_copies (hG : G.Wired) (hd : Apart a b a' b') (hf : G.Facing a b)
    (hf' : G.Facing a' b') (h1 : CopyStep c1 a b G G1) (h12 : CopyStep c12 a' b' G1 G12)
    (h2 : CopyStep c2 a' b' G G2) (h21 : CopyStep c21 a b G2 G21) (hs : Survives G G1 a' b')
    (hs' : Survives G G2 a b) : Iso (transferBoth c1 c12 c2 c21) G12 G21 := by
  have hroot1 := fun v => h1.copy_tag (v := v)
  have hroot12 := fun v => h12.copy_tag (v := v)
  obtain ⟨k1, -, -, hp1⟩ := h1
  obtain ⟨k12, -, -, hp12⟩ := h12
  obtain ⟨k2, -, -, hp2⟩ := h2
  obtain ⟨k21, -, -, hp21⟩ := h21
  have hf1 := hs.facing
  have hf2 := hs'.facing
  set f := transferBoth c1 c12 c2 c21 with hfdef
  obtain ⟨d1, d2, d3, d4⟩ := hd
  have hlive12 : ∀ v, G12.live v ↔ ((G.live v ∧ v ≠ a ∧ v ≠ b) ∧ v ≠ a' ∧ v ≠ b') ∨ c1.has v ∨
      c12.has v := by
    intro v
    rw [k12.live, k1.live]
    have := fun h => copy_off k1 hf' (v := v) h
    tauto
  have hlive21 : ∀ v, G21.live v ↔ ((G.live v ∧ v ≠ a ∧ v ≠ b) ∧ v ≠ a' ∧ v ≠ b') ∨ c21.has v ∨
      c2.has v := by
    intro v
    rw [k21.live, k2.live]
    have := fun h => copy_off k2 hf (v := v) h
    tauto
  have hlive1 : ∀ v, c1.has v → G1.live v := fun v hv => (k1.live v).mpr (Or.inr hv)
  have hlive2 : ∀ v, c2.has v → G2.live v := fun v hv => (k2.live v).mpr (Or.inr hv)
  have hdisj : ∀ v, c1.has v → ¬ c12.has v := fun v h1 h => k12.fresh v h (hlive1 v h1)
  have hdisj' : ∀ v, c2.has v → ¬ c21.has v := fun v h2 h => k21.fresh v h (hlive2 v h2)
  have hf12 : ∀ v, c12.has v → f v = c12.transfer c2 v := fun v h => by simp [hfdef, transferBoth, h]
  have hfc1 : ∀ v, c1.has v → f v = c1.transfer c21 v := fun v h => by
    simp [hfdef, transferBoth, hdisj v h]
  have hfold : ∀ v, G.live v → v ≠ a → v ≠ b → f v = v := by
    intro v hv ha hb
    have h12 : ¬ c12.has v := k12.old_not_has ((k1.live v).mpr (Or.inl ⟨hv, ha, hb⟩))
    simp only [hfdef, transferBoth, h12, if_false]
    exact transfer_other (k1.old_not_has hv)
  -- ports that keep a place in both orders
  have hA : ∀ x, Commutes.Keeps G a b x → Commutes.Keeps G a' b' x →
      Commutes.Keeps G1 a' b' (c1.rename a b x) := by
    intro x hx hx'
    rcases hx.cases with ⟨k, rfl⟩ | ⟨ha, hb⟩
    · have hoff := copy_off k1 hf' (has_at c1 k)
      rw [rename_auxOf hf.ne]
      exact ⟨hlive1 _ (has_at c1 k), fun h => hoff.1 (congrArg Port.node h),
        fun h => hoff.2 (congrArg Port.node h)⟩
    · rw [rename_other ha hb]
      exact ⟨(k1.live _).mpr (Or.inl ⟨hx.1, ha, hb⟩), hx'.2.1, hx'.2.2⟩
  have hA' : ∀ x, Commutes.Keeps G a b x → Commutes.Keeps G a' b' x →
      Commutes.Keeps G2 a b (c2.rename a' b' x) := by
    intro x hx hx'
    rcases hx'.cases with ⟨k, rfl⟩ | ⟨ha, hb⟩
    · have hoff := copy_off k2 hf (has_at c2 k)
      rw [rename_auxOf hf'.ne]
      exact ⟨hlive2 _ (has_at c2 k), fun h => hoff.1 (congrArg Port.node h),
        fun h => hoff.2 (congrArg Port.node h)⟩
    · rw [rename_other ha hb]
      exact ⟨(k2.live _).mpr (Or.inl ⟨hx'.1, ha, hb⟩), hx.2.1, hx.2.2⟩
  have hB : ∀ x, Commutes.Keeps G a b x → Commutes.Keeps G a' b' x →
      (c12.rename a' b' (c1.rename a b x)).mapNode f =
        c21.rename a b (c2.rename a' b' x) := by
    intro x hx hx'
    rcases hx.cases with ⟨k, rfl⟩ | ⟨ha, hb⟩
    · have hoff := copy_off k1 hf' (has_at c1 k)
      have hne : (auxOf a b k).node ≠ a' ∧ (auxOf a b k).node ≠ b' := by
        rcases auxOf_node a b k with h | h <;> rw [h]
        exacts [⟨d1, d2⟩, ⟨d3, d4⟩]
      rw [rename_auxOf hf.ne, rename_other hoff.1 hoff.2, rename_other hne.1 hne.2,
        rename_auxOf hf.ne, Port.mapNode, hfc1 _ (has_at c1 k), transfer_at k1.nodup]
    · rw [rename_other ha hb]
      rcases hx'.cases with ⟨k, rfl⟩ | ⟨ha', hb'⟩
      · have hoff := copy_off k2 hf (has_at c2 k)
        rw [rename_auxOf hf'.ne, rename_auxOf hf'.ne, rename_other hoff.1 hoff.2, Port.mapNode,
          hf12 _ (has_at c12 k), transfer_at k12.nodup]
      · rw [rename_other ha' hb', rename_other ha' hb', rename_other ha hb, Port.mapNode,
          hfold _ hx.1 ha hb]
  refine ⟨fun v hv => ?_, fun u v hu hv he => ?_, fun v hv => ?_, fun v hv => ?_, fun v hv => ?_,
    fun p hp => ?_, fun v hv ht => ?_⟩
  · rw [hlive21]
    rcases (hlive12 v).mp hv with ⟨⟨hv, ha, hb⟩, h'⟩ | hv | hv
    · rw [hfold v hv ha hb]
      exact Or.inl ⟨⟨hv, ha, hb⟩, h'⟩
    · rw [hfc1 v hv]
      exact Or.inr (Or.inl (transfer_has k1.nodup hv))
    · rw [hf12 v hv]
      exact Or.inr (Or.inr (transfer_has k12.nodup hv))
  · have hout : ∀ v, G.live v → v ≠ a' → v ≠ b' → ¬ c2.has v ∧ ¬ c21.has v := fun v hv ha' hb' =>
      ⟨k2.old_not_has hv, k21.old_not_has ((k2.live v).mpr (Or.inl ⟨hv, ha', hb'⟩))⟩
    rcases (hlive12 u).mp hu with ⟨⟨hu, ha, hb⟩, ha', hb'⟩ | hu | hu
    · rw [hfold u hu ha hb] at he
      obtain ⟨hn2, hn21⟩ := hout u hu ha' hb'
      rcases (hlive12 v).mp hv with ⟨⟨hv, va, vb⟩, -⟩ | hv | hv
      · rwa [hfold v hv va vb] at he
      · rw [hfc1 v hv] at he
        exact absurd (he ▸ transfer_has k1.nodup hv) hn21
      · rw [hf12 v hv] at he
        exact absurd (he ▸ transfer_has k12.nodup hv) hn2
    · rw [hfc1 u hu] at he
      have hu' : c21.has (c1.transfer c21 u) := transfer_has k1.nodup hu
      rcases (hlive12 v).mp hv with ⟨⟨hv, va, vb⟩, va', vb'⟩ | hv | hv
      · rw [hfold v hv va vb] at he
        exact absurd (he ▸ hu') (hout v hv va' vb').2
      · rw [hfc1 v hv] at he
        exact transfer_inj k1.nodup k21.nodup hu hv he
      · rw [hf12 v hv] at he
        exact absurd (he ▸ hu') (hdisj' _ (transfer_has k12.nodup hv))
    · rw [hf12 u hu] at he
      have hu' : c2.has (c12.transfer c2 u) := transfer_has k12.nodup hu
      rcases (hlive12 v).mp hv with ⟨⟨hv, va, vb⟩, va', vb'⟩ | hv | hv
      · rw [hfold v hv va vb] at he
        exact absurd (he ▸ hu') (hout v hv va' vb').1
      · rw [hfc1 v hv] at he
        exact absurd (transfer_has k1.nodup hv) (hdisj' _ (he ▸ hu'))
      · rw [hf12 v hv] at he
        exact transfer_inj k12.nodup k2.nodup hu hv he
  · rcases (hlive21 v).mp hv with ⟨⟨hv, ha, hb⟩, h'⟩ | hv | hv
    · exact ⟨v, (hlive12 v).mpr (Or.inl ⟨⟨hv, ha, hb⟩, h'⟩), hfold v hv ha hb⟩
    · obtain ⟨k, rfl⟩ := exists_at hv
      exact ⟨c1.at k, (hlive12 _).mpr (Or.inr (Or.inl (has_at c1 k))),
        by rw [hfc1 _ (has_at c1 k), transfer_at k1.nodup]⟩
    · obtain ⟨k, rfl⟩ := exists_at hv
      exact ⟨c12.at k, (hlive12 _).mpr (Or.inr (Or.inr (has_at c12 k))),
        by rw [hf12 _ (has_at c12 k), transfer_at k12.nodup]⟩
  · rcases (hlive12 v).mp hv with ⟨⟨hv, ha, hb⟩, ha', hb'⟩ | hv | hv
    · rw [hfold v hv ha hb, k21.tag v ((k2.live v).mpr (Or.inl ⟨hv, ha', hb'⟩)) ha hb,
        k2.tag v hv ha' hb', k12.tag v ((k1.live v).mpr (Or.inl ⟨hv, ha, hb⟩)) ha' hb',
        k1.tag v hv ha hb]
    · obtain ⟨ha', hb'⟩ := copy_off k1 hf' hv
      rw [hfc1 v hv, k12.tag v (hlive1 v hv) ha' hb']
      rcases has_cases hv with ⟨i, rfl⟩ | ⟨i, rfl⟩
      · rw [transfer_main k1.nodup, k21.tagMain, k1.tagMain, hs'.tagL]
      · rw [transfer_fan k1.nodup, k21.tagFan, k1.tagFan, hs'.tagR]
    · rw [hf12 v hv]
      rcases has_cases hv with ⟨i, rfl⟩ | ⟨i, rfl⟩
      · obtain ⟨ha, hb⟩ := copy_off k2 hf (has_main c2 i)
        rw [transfer_main k12.nodup, k21.tag _ (hlive2 _ (has_main c2 i)) ha hb, k2.tagMain,
          k12.tagMain, hs.tagL]
      · obtain ⟨ha, hb⟩ := copy_off k2 hf (has_fan c2 i)
        rw [transfer_fan k12.nodup, k21.tag _ (hlive2 _ (has_fan c2 i)) ha hb, k2.tagFan,
          k12.tagFan, hs.tagR]
  · rcases (hlive12 v).mp hv with ⟨⟨hv, ha, hb⟩, ha', hb'⟩ | hv | hv
    · rw [hfold v hv ha hb, k21.path v ((k2.live v).mpr (Or.inl ⟨hv, ha', hb'⟩)) ha hb,
        k2.path v hv ha' hb', k12.path v ((k1.live v).mpr (Or.inl ⟨hv, ha, hb⟩)) ha' hb',
        k1.path v hv ha hb]
    · obtain ⟨ha', hb'⟩ := copy_off k1 hf' hv
      rw [hfc1 v hv, k12.path v (hlive1 v hv) ha' hb']
      rcases has_cases hv with ⟨i, rfl⟩ | ⟨i, rfl⟩
      · rw [transfer_main k1.nodup, hp21, hp1, hs'.tagL, hs'.pathL, hs'.pathR]
      · rw [transfer_fan k1.nodup, k21.pathFan, k1.pathFan, hs'.pathR]
    · rw [hf12 v hv]
      rcases has_cases hv with ⟨i, rfl⟩ | ⟨i, rfl⟩
      · obtain ⟨ha, hb⟩ := copy_off k2 hf (has_main c2 i)
        rw [transfer_main k12.nodup, k21.path _ (hlive2 _ (has_main c2 i)) ha hb, hp2, hp12, hs.tagL,
          hs.pathL, hs.pathR]
      · obtain ⟨ha, hb⟩ := copy_off k2 hf (has_fan c2 i)
        rw [transfer_fan k12.nodup, k21.path _ (hlive2 _ (has_fan c2 i)) ha hb, k2.pathFan,
          k12.pathFan, hs.pathR]
  · rcases k12.port_cases hf1 hp with ⟨y, hy, rfl⟩ | ⟨i, j, rfl⟩ | ⟨i, j, rfl⟩
    · rcases k1.port_cases hf hy.1 with ⟨x, hx, rfl⟩ | ⟨i, j, rfl⟩ | ⟨i, j, rfl⟩
      · have hx' : Commutes.Keeps G a' b' x := by
          refine ⟨hx.1, fun h => hy.2.1 ?_, fun h => hy.2.2 ?_⟩
          · rw [h, rename_other d1.symm d3.symm]
          · rw [h, rename_other d2.symm d4.symm]
        have h12w := k12.outer _ hy.1 hy.2.1 hy.2.2
        have hx2 := hA' x hx hx'
        have h21w := k21.outer _ hx2.1 hx2.2.1 hx2.2.2
        rw [k1.outer x hx.1 hx.2.1 hx.2.2] at h12w
        rw [k2.outer x hx'.1 hx'.2.1 hx'.2.2] at h21w
        rw [hB x hx hx', h12w, h21w]
        cases hw : G.wire x with
        | none => rfl
        | some z =>
          simp only [Option.map_some, hB z (hx.wire hf hG hw).1 (hx'.wire hf' hG hw).1]
      · have hoff := copy_off k1 hf' (has_main c1 i)
        rw [rename_other hoff.1 hoff.2, (inner_stays k1 k12 hf' i j).1, Option.map_some]
        simp only [Port.mapNode, hfc1 _ (has_main c1 i), hfc1 _ (has_fan c1 j),
          transfer_main k1.nodup, transfer_fan k1.nodup]
        exact k21.innerMain i j
      · have hoff := copy_off k1 hf' (has_fan c1 j)
        rw [rename_other hoff.1 hoff.2, (inner_stays k1 k12 hf' i j).2, Option.map_some]
        simp only [Port.mapNode, hfc1 _ (has_main c1 i), hfc1 _ (has_fan c1 j),
          transfer_main k1.nodup, transfer_fan k1.nodup]
        exact k21.innerFan i j
    · rw [k12.innerMain]
      simp only [Port.mapNode, Option.map_some, hf12 _ (has_main c12 i), hf12 _ (has_fan c12 j),
        transfer_main k12.nodup, transfer_fan k12.nodup]
      exact (inner_stays k2 k21 hf i j).1
    · rw [k12.innerFan]
      simp only [Port.mapNode, Option.map_some, hf12 _ (has_main c12 i), hf12 _ (has_fan c12 j),
        transfer_main k12.nodup, transfer_fan k12.nodup]
      exact (inner_stays k2 k21 hf i j).2
  · rcases (hlive12 v).mp hv with ⟨⟨hv, ha, hb⟩, h'⟩ | hv | hv
    · exact hfold v hv ha hb
    · obtain ⟨ha', hb'⟩ := copy_off k1 hf' hv
      rw [k12.tag v (hlive1 v hv) ha' hb'] at ht
      exact absurd ht (hroot1 v hv)
    · exact absurd ht (hroot12 v hv)

end TwoCopies

/-! ## Confluence of the graph -/

section Diamond

variable {G G1 G2 G12 G21 : Graph} {a b a' b' : ℕ}

lemma Fires.survives (h : Fires a b G G1) (hd : Apart a b a' b') (hf' : G.Facing a' b') :
    Survives G G1 a' b' := by
  rcases h.cases with ⟨s, -, h⟩ | ⟨-, c, h⟩
  · exact h.survives hd hf'
  · exact h.commutes.survives hd hf'

lemma Survives.glueOf (h : Survives G G1 a b) :
    glueOf (G1.tag a) (G1.tag b) (G1.gauge a) (G1.gauge b) =
      glueOf (G.tag a) (G.tag b) (G.gauge a) (G.gauge b) := by
  rw [h.tagL, h.tagR, h.gaugeL, h.gaugeR]

/-- Two facing pairs without a common agent: both orders give one graph up to renaming. -/
theorem fires_diamond (hG : G.Wired) (hd : Apart a b a' b') (hf : G.Facing a b)
    (hf' : G.Facing a' b') (h1 : Fires a b G G1) (h12 : Fires a' b' G1 G12)
    (h2 : Fires a' b' G G2) (h21 : Fires a b G2 G21) : ∃ f, Iso f G12 G21 := by
  have hs := h1.survives hd hf'
  have hs' := h2.survives hd.symm hf
  have hW1 := h1.wired hf hG
  have hW2 := h2.wired hf' hG
  have hW21 := h21.wired hs'.facing hW2
  have hg := hs.glueOf
  have hg' := hs'.glueOf
  rcases h1.cases with ⟨s, hs1, h1⟩ | ⟨hs1, c1, h1⟩ <;>
    rcases h2.cases with ⟨s', hs2, h2⟩ | ⟨hs2, c2, h2⟩ <;>
    rcases h12.cases with ⟨s12, hs12, h12⟩ | ⟨hs12, c12, h12⟩ <;>
    rcases h21.cases with ⟨s21, hs21, h21⟩ | ⟨hs21, c21, h21⟩ <;>
    rw [hg] at hs12 <;> rw [hg'] at hs21 <;> simp_all only [Option.some.injEq, reduceCtorEq]
  · exact ⟨id, iso_annihilates hd h1 h12 h2 h21 hs.facing hs'.facing⟩
  · exact ⟨_, iso_annihilate_copy hG hd hf hf' h1 h12 h2 h21 hs hW1⟩
  · have hiso := iso_annihilate_copy hG hd.symm hf' hf h2 h21 h1 h12 hs' hW2
    exact hiso.symm hW21
  · exact ⟨_, iso_copies hG hd hf hf' h1 h12 h2 h21 hs hs'⟩

end Diamond

/-! ## Confluence of the engine -/

section Engine

variable {g : Globals} {n : Net} {p q p' q' : Port}

lemma Apart.sortPair {a b a' b' : ℕ} (h : Apart a b a' b') (t1 t2 t1' t2' : Tag) :
    Apart (sortPair t1 t2 a b).1 (sortPair t1 t2 a b).2 (sortPair t1' t2' a' b').1
      (sortPair t1' t2' a' b').2 := by
  obtain ⟨h1, h2, h3, h4⟩ := h
  simp only [LinEngine.sortPair]
  split_ifs <;> exact ⟨by assumption, by assumption, by assumption, by assumption⟩

lemma Survives.sortPair {G G' : Graph} {a b : ℕ} {t t' : Tag}
    (h : Survives G G' (sortPair t t' a b).1 (sortPair t t' a b).2) :
    G'.Facing a b ∧ G'.tag a = G.tag a ∧ G'.tag b = G.tag b := by
  simp only [LinEngine.sortPair] at h
  split_ifs at h
  · exact ⟨h.facing.symm, h.tagR, h.tagL⟩
  · exact ⟨h.facing, h.tagL, h.tagR⟩

/-- One firing leaves the other redex live and as fireable as it was. -/
lemma other_redex (hser : g.inParallel = false) (hn : Sound n)
    (hr : redexLive n p q = true) (hr' : redexLive n p' q' = true)
    (hf : fireable (n.tag.get p.node) (n.tag.get q.node) = true)
    (hd : Apart p.node q.node p'.node q'.node) :
    redexLive (netInteract g n p q).2 p' q' = true ∧
      (netInteract g n p q).2.tag.get p'.node = n.tag.get p'.node ∧
      (netInteract g n p q).2.tag.get q'.node = n.tag.get q'.node := by
  obtain ⟨hface', hp', hq'⟩ := redexLive_facing hn.wired hr'
  have hspec := (netInteract_spec hser hn hr (by rwa [netInteract_fst])).1
  have hs := hspec.survives (hd.sortPair _ _ (n.tag.get p'.node) (n.tag.get q'.node))
    (hface'.sortPair _ _)
  obtain ⟨hf1, ht, ht'⟩ := hs.sortPair
  exact ⟨redexLive_of_facing hf1 hp' hq', ht, ht'⟩

/-- Strong confluence: of two live fireable redexes with no node in common, each is
still a live redex after the other has fired, and both orders give one net up to a
renaming of the live nodes that keeps tags, wires and level paths and fixes ROOT. -/
theorem netInteract_confluent (hser : g.inParallel = false) (hn : Sound n)
    (hr : redexLive n p q = true) (hr' : redexLive n p' q' = true)
    (hf : fireable (n.tag.get p.node) (n.tag.get q.node) = true)
    (hf' : fireable (n.tag.get p'.node) (n.tag.get q'.node) = true)
    (hd : Apart p.node q.node p'.node q'.node) :
    redexLive (netInteract g n p q).2 p' q' = true ∧
      redexLive (netInteract g n p' q').2 p q = true ∧
      ∃ f, Iso f (netInteract g (netInteract g n p q).2 p' q').2.graph
        (netInteract g (netInteract g n p' q').2 p q).2.graph := by
  obtain ⟨hl1, ht1, ht1'⟩ := other_redex hser hn hr hr' hf hd
  obtain ⟨hl2, ht2, ht2'⟩ := other_redex hser hn hr' hr hf' hd.symm
  obtain ⟨hF1, hn1⟩ := netInteract_spec hser hn hr (by rwa [netInteract_fst])
  obtain ⟨hF2, hn2⟩ := netInteract_spec hser hn hr' (by rwa [netInteract_fst])
  have hF12 := (netInteract_spec hser hn1 hl1 (by rwa [netInteract_fst, ht1, ht1'])).1
  have hF21 := (netInteract_spec hser hn2 hl2 (by rwa [netInteract_fst, ht2, ht2'])).1
  rw [ht1, ht1'] at hF12
  rw [ht2, ht2'] at hF21
  refine ⟨hl1, hl2, fires_diamond (G := n.graph) hn.wired (hd.sortPair _ _ _ _) ?_ ?_ hF1 hF12 hF2 hF21⟩
  · exact (redexLive_facing hn.wired hr).1.sortPair _ _
  · exact (redexLive_facing hn.wired hr').1.sortPair _ _

/-- `let x = \y.y in (x x) ((\z.z) (\w.w))`: a shared value and an application. -/
def sharedAndApplied : Term :=
  .tlet "x" (.lam "y" (.var "y")) (.app (.app (.var "x") (.var "x"))
    (.app (.lam "z" (.var "z")) (.lam "w" (.var "w"))))

def sharedAndAppliedNet : Net := (compile sharedAndApplied).toOption.getD netInit

theorem netInteract_confluent_shared :
    ∃ f, Iso f
      (netInteract .serial (netInteract .serial sharedAndAppliedNet ⟨2, 0⟩ ⟨9, 0⟩).2
        ⟨6, 0⟩ ⟨7, 0⟩).2.graph
      (netInteract .serial (netInteract .serial sharedAndAppliedNet ⟨6, 0⟩ ⟨7, 0⟩).2
        ⟨2, 0⟩ ⟨9, 0⟩).2.graph :=
  (netInteract_confluent rfl (n := sharedAndAppliedNet) (sound_of_check (by decide +kernel))
    (by decide +kernel) (by decide +kernel) (by decide +kernel) (by decide +kernel)
    ⟨by decide, by decide, by decide, by decide⟩).2.2

end Engine

end LinEngine
