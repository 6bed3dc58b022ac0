import LinEngine.Annihilate
import LinEngine.Levels

/-!
# Commutation

A duplication rule makes four nodes with `split2`, hands them the auxiliaries of
the pair with `linkCopies` and retires the pair. The links are made one by one, two
passes over the auxiliaries; whatever their order, each sets its two ports to their
wires in the graph the rule is meant to produce.
-/
namespace LinEngine

/-! ## The four copies -/

lemma FreeOk.netLink {n : Net} (h : FreeOk n) (g : Globals) {a b : Port} (e : Bool)
    (ha : n.live a.node = true) (hb : n.live b.node = true) :
    FreeOk (netLink g n (some a) (some b) e) := by
  obtain ⟨l, hl⟩ := h
  have hk := netLink_linked g n (some a) (some b) e
  have hnot : ∀ u : Port, n.live u.node = true → ∀ v, n.dead.get v = true → u ≠ ⟨v, 0⟩ := by
    rintro u hu v hv rfl
    rw [Net.live_iff] at hu
    simp [hu.2] at hv
  refine ⟨l, ?_⟩
  rw [hk.freeHead]
  refine hl.mono hk.nn.ge (fun v hv => ?_) fun v hv => ?_
  · rw [hk.dead]
    exact (hl.dead_of_mem hv).2
  · have hd := (hl.dead_of_mem hv).2
    rw [netLink_wireAt, if_neg (hnot b hb v hd), if_neg (hnot a ha v hd)]

/-- What `split2` makes: four fresh nodes wired to each other through their
auxiliaries, their principal ports loose. -/
structure Split (n : Net) (t1 : Tag) (s1 : Fin 2 → ℕ) (t2 : Tag) (s2 : ℕ) (c : Copies)
    (n' : Net) : Prop where
  nodup : [c.m1, c.m2, c.d1, c.d2].Nodup
  fresh : ∀ v, c.has v → n.live v = false
  live : ∀ v, n'.live v = true ↔ n.live v = true ∨ c.has v
  wire : ∀ p : Port, ¬ c.has p.node → n'.wireAt p = n.wireAt p
  principal : ∀ v, c.has v → n'.wireAt ⟨v, 0⟩ = none
  innerMain : ∀ i j, n'.wireAt ⟨c.main i, auxPort j⟩ = some ⟨c.fan j, auxPort i⟩
  innerFan : ∀ i j, n'.wireAt ⟨c.fan j, auxPort i⟩ = some ⟨c.main i, auxPort j⟩
  tag : ∀ v, ¬ c.has v → n'.tag.get v = n.tag.get v
  scope : ∀ v, ¬ c.has v → n'.scope.get v = n.scope.get v
  tagMain : ∀ i, n'.tag.get (c.main i) = t1
  tagFan : ∀ i, n'.tag.get (c.fan i) = t2
  scopeMain : ∀ i, n'.scope.get (c.main i) = s1 i
  scopeFan : ∀ i, n'.scope.get (c.fan i) = s2
  levels : n'.levels = n.levels
  pins : n'.pins = n.pins
  freeOk : FreeOk n'

section Split

variable {n n1 n2 n3 n4 : Net} {t1 t2 : Tag} {s1 : Fin 2 → ℕ} {s2 m1 m2 d1 d2 : ℕ}

lemma Allocated.live_iff {n n' : Net} {t : Tag} {s u v : ℕ} (h : Allocated n t s u n') :
    n'.live v = true ↔ n.live v = true ∨ v = u := by
  by_cases hv : v = u
  · simp [hv, h.isLive]
  · simp [h.liveOther v hv, hv]

lemma Allocated.not_live {n n' : Net} {t : Tag} {s u : ℕ} (h : Allocated n t s u n') :
    ¬ n.live u = true := by
  simp [h.fresh]

/-- The four inner links of `split2`. -/
def innerLinks (g : Globals) (n : Net) (c : Copies) : Net :=
  let n := netLink g n (some ⟨c.d1, 1⟩) (some ⟨c.m1, 1⟩) false
  let n := netLink g n (some ⟨c.d1, 2⟩) (some ⟨c.m2, 1⟩) false
  let n := netLink g n (some ⟨c.d2, 1⟩) (some ⟨c.m1, 2⟩) false
  netLink g n (some ⟨c.d2, 2⟩) (some ⟨c.m2, 2⟩) false

lemma innerLinks_linked (g : Globals) (n : Net) (c : Copies) : Linked n (innerLinks g n c) := by
  have h1 := netLink_linked g n (some ⟨c.d1, 1⟩) (some ⟨c.m1, 1⟩) false
  have h2 := h1.trans (netLink_linked g _ (some ⟨c.d1, 2⟩) (some ⟨c.m2, 1⟩) false)
  have h3 := h2.trans (netLink_linked g _ (some ⟨c.d2, 1⟩) (some ⟨c.m1, 2⟩) false)
  exact h3.trans (netLink_linked g _ (some ⟨c.d2, 2⟩) (some ⟨c.m2, 2⟩) false)

lemma innerLinks_freeOk (g : Globals) {n : Net} {c : Copies} (hn : FreeOk n)
    (hl : ∀ v, c.has v → n.live v = true) : FreeOk (innerLinks g n c) := by
  have step := fun (m : Net) (hm : Linked n m) (hf : FreeOk m) (u v : ℕ) (i j : Fin 3)
      (hu : c.has u) (hv : c.has v) =>
    hf.netLink g (a := ⟨u, i⟩) (b := ⟨v, j⟩) false ((hm.live u).trans (hl u hu))
      ((hm.live v).trans (hl v hv))
  have h1 := netLink_linked g n (some ⟨c.d1, 1⟩) (some ⟨c.m1, 1⟩) false
  have h2 := h1.trans (netLink_linked g _ (some ⟨c.d1, 2⟩) (some ⟨c.m2, 1⟩) false)
  have h3 := h2.trans (netLink_linked g _ (some ⟨c.d2, 1⟩) (some ⟨c.m1, 2⟩) false)
  have f0 : FreeOk n := hn
  have f1 := step n ⟨rfl, rfl, rfl, rfl, rfl, rfl, rfl⟩ f0 c.d1 c.m1 1 1
    (by simp [Copies.has]) (by simp [Copies.has])
  have f2 := step _ h1 f1 c.d1 c.m2 2 1 (by simp [Copies.has]) (by simp [Copies.has])
  have f3 := step _ h2 f2 c.d2 c.m1 1 2 (by simp [Copies.has]) (by simp [Copies.has])
  exact step _ h3 f3 c.d2 c.m2 2 2 (by simp [Copies.has]) (by simp [Copies.has])

lemma innerLinks_wireAt (g : Globals) (n : Net) (c : Copies) (p : Port) :
    (innerLinks g n c).wireAt p =
      if p = ⟨c.m2, 2⟩ then some ⟨c.d2, 2⟩ else if p = ⟨c.d2, 2⟩ then some ⟨c.m2, 2⟩ else
      if p = ⟨c.m1, 2⟩ then some ⟨c.d2, 1⟩ else if p = ⟨c.d2, 1⟩ then some ⟨c.m1, 2⟩ else
      if p = ⟨c.m2, 1⟩ then some ⟨c.d1, 2⟩ else if p = ⟨c.d1, 2⟩ then some ⟨c.m2, 1⟩ else
      if p = ⟨c.m1, 1⟩ then some ⟨c.d1, 1⟩ else if p = ⟨c.d1, 1⟩ then some ⟨c.m1, 1⟩ else
      n.wireAt p := by
  simp only [innerLinks, netLink_wireAt, eq_comm (b := p)]

lemma innerLinks_inner (g : Globals) (n : Net) {c : Copies}
    (hc : [c.m1, c.m2, c.d1, c.d2].Nodup) (i j : Fin 2) :
    (innerLinks g n c).wireAt ⟨c.main i, auxPort j⟩ = some ⟨c.fan j, auxPort i⟩ ∧
      (innerLinks g n c).wireAt ⟨c.fan j, auxPort i⟩ = some ⟨c.main i, auxPort j⟩ := by
  obtain ⟨m1, m2, d1, d2⟩ := c
  simp only [List.nodup_cons, List.mem_cons, List.not_mem_nil, or_false, not_or, not_false_eq_true,
    List.nodup_nil, and_true] at hc
  obtain ⟨⟨h12, h1d, h1e⟩, ⟨h2d, h2e⟩, hde⟩ := hc
  rw [innerLinks_wireAt, innerLinks_wireAt]
  fin_cases i <;> fin_cases j <;>
    simp [Copies.main, Copies.fan, auxPort, h12, h1d, h1e, h2e, hde, Ne.symm h12, Ne.symm h1d,
      Ne.symm h1e, Ne.symm h2d, Ne.symm h2e]

lemma split_of_allocated (g : Globals) (h1 : Allocated n t1 (s1 0) m1 n1)
    (h2 : Allocated n1 t1 (s1 1) m2 n2) (h3 : Allocated n2 t2 s2 d1 n3)
    (h4 : Allocated n3 t2 s2 d2 n4) :
    Split n t1 s1 t2 s2 ⟨m1, m2, d1, d2⟩ (innerLinks g n4 ⟨m1, m2, d1, d2⟩) := by
  have hm12 : m1 ≠ m2 := fun h => h2.not_live (h ▸ h1.isLive)
  have hm1 : n2.live m1 = true := h2.live_iff.mpr (Or.inl h1.isLive)
  have hm1' : n3.live m1 = true := h3.live_iff.mpr (Or.inl hm1)
  have hm2' : n3.live m2 = true := h3.live_iff.mpr (Or.inl h2.isLive)
  have hm1d1 : m1 ≠ d1 := fun h => h3.not_live (h ▸ hm1)
  have hm2d1 : m2 ≠ d1 := fun h => h3.not_live (h ▸ h2.isLive)
  have hm1d2 : m1 ≠ d2 := fun h => h4.not_live (h ▸ hm1')
  have hm2d2 : m2 ≠ d2 := fun h => h4.not_live (h ▸ hm2')
  have hd12 : d1 ≠ d2 := fun h => h4.not_live (h ▸ h3.isLive)
  have hnodup : [m1, m2, d1, d2].Nodup := by simp [hm12, hm1d1, hm1d2, hm2d1, hm2d2, hd12]
  set c : Copies := ⟨m1, m2, d1, d2⟩ with hc
  have hk := innerLinks_linked g n4 c
  have hlive : ∀ v, n4.live v = true ↔ n.live v = true ∨ c.has v := by
    intro v
    rw [h4.live_iff, h3.live_iff, h2.live_iff, h1.live_iff]
    simp only [Copies.has, hc]
    tauto
  have hother : ∀ v, ¬ c.has v → v ≠ m1 ∧ v ≠ m2 ∧ v ≠ d1 ∧ v ≠ d2 := by
    intro v hv
    simpa [Copies.has, hc] using hv
  have hw := innerLinks_wireAt g n4 c
  have hw4 : ∀ p : Port, ¬ c.has p.node → n4.wireAt p = n.wireAt p := by
    intro p hp
    obtain ⟨ha, hb, hc, hd⟩ := hother _ hp
    rw [h4.wireOther p hd, h3.wireOther p hc, h2.wireOther p hb, h1.wireOther p ha]
  have hfresh : ∀ v, c.has v → n.live v = false := by
    intro v hv
    rw [← Bool.not_eq_true]
    intro hl
    have hl1 := h1.live_iff.mpr (Or.inl hl)
    have hl2 := h2.live_iff.mpr (Or.inl hl1)
    rcases hv with rfl | rfl | rfl | rfl
    · exact h1.not_live hl
    · exact h2.not_live hl1
    · exact h3.not_live hl2
    · exact h4.not_live (h3.live_iff.mpr (Or.inl hl2))
  refine ⟨hnodup, hfresh, fun v => ?_,
    fun p hp => ?_, fun v hv => ?_, fun i j => ?_, fun i j => ?_, fun v hv => ?_, fun v hv => ?_,
    fun i => ?_, fun i => ?_, fun i => ?_, fun i => ?_, ?_, ?_, ?_⟩
  · rw [hk.live, hlive]
  · obtain ⟨ha, hb, hc', hd⟩ := hother _ hp
    rw [hw, ← hw4 p hp]
    obtain ⟨v, k⟩ := p
    simp [Port.mk.injEq, hc, ha, hb, hc', hd]
  · have hw0 : (innerLinks g n4 c).wireAt ⟨v, 0⟩ = n4.wireAt ⟨v, 0⟩ := by
      rw [hw]
      simp [Port.mk.injEq]
    rw [hw0]
    rcases hv with rfl | rfl | rfl | rfl
    · rw [h4.wireOther _ hm1d2, h3.wireOther _ hm1d1, h2.wireOther _ hm12, h1.wireNew]
    · rw [h4.wireOther _ hm2d2, h3.wireOther _ hm2d1, h2.wireNew]
    · rw [h4.wireOther _ hd12, h3.wireNew]
    · rw [h4.wireNew]
  · exact (innerLinks_inner g n4 hnodup i j).1
  · exact (innerLinks_inner g n4 hnodup i j).2
  · obtain ⟨ha, hb, hc', hd⟩ := hother _ hv
    rw [hk.tag, h4.tagOther v hd, h3.tagOther v hc', h2.tagOther v hb, h1.tagOther v ha]
  · obtain ⟨ha, hb, hc', hd⟩ := hother _ hv
    rw [hk.scope, h4.scopeOther v hd, h3.scopeOther v hc', h2.scopeOther v hb, h1.scopeOther v ha]
  · rw [hk.tag]
    fin_cases i
    · exact (h4.tagOther _ hm1d2).trans <| (h3.tagOther _ hm1d1).trans <|
        (h2.tagOther _ hm12).trans h1.tagNew
    · exact (h4.tagOther _ hm2d2).trans <| (h3.tagOther _ hm2d1).trans h2.tagNew
  · rw [hk.tag]
    fin_cases i
    · exact (h4.tagOther _ hd12).trans h3.tagNew
    · exact h4.tagNew
  · rw [hk.scope]
    fin_cases i
    · exact (h4.scopeOther _ hm1d2).trans <| (h3.scopeOther _ hm1d1).trans <|
        (h2.scopeOther _ hm12).trans h1.scopeNew
    · exact (h4.scopeOther _ hm2d2).trans <| (h3.scopeOther _ hm2d1).trans h2.scopeNew
  · rw [hk.scope]
    fin_cases i
    · exact (h4.scopeOther _ hd12).trans h3.scopeNew
    · exact h4.scopeNew
  · rw [hk.levels, h4.levels, h3.levels, h2.levels, h1.levels]
  · rw [hk.pins, h4.pins, h3.pins, h2.pins, h1.pins]
  · exact innerLinks_freeOk g h4.freeOk fun v hv => (hlive v).mpr (Or.inr hv)

theorem split2_spec {g : Globals} (hg : g.inParallel = false) {n : Net} (hn : FreeOk n)
    (t1 : Tag) (s1 : Fin 2 → ℕ) (t2 : Tag) (s2 : ℕ) :
    Split n t1 s1 t2 s2 (split2 g n t1 (s1 0) (s1 1) t2 s2).1
      (split2 g n t1 (s1 0) (s1 1) t2 s2).2 := by
  have h1 := netAlloc_spec hg hn t1 (s1 0)
  have h2 := netAlloc_spec hg h1.freeOk t1 (s1 1)
  have h3 := netAlloc_spec hg h2.freeOk t2 s2
  exact split_of_allocated g h1 h2 h3 (netAlloc_spec hg h3.freeOk t2 s2)

end Split

/-! ## The outer links -/

/-- Links that agree with the wiring `W`: the ports linked so far have their wire in `W`. -/
structure LinkedAs (W : Port → Option Port) (n n' : Net) : Prop where
  linked : Linked n n'
  wire : ∀ q, n'.wireAt q = n.wireAt q ∨ n'.wireAt q = W q

namespace LinkedAs

variable {W : Port → Option Port} {n n' n'' : Net}

lemma refl (W : Port → Option Port) (n : Net) : LinkedAs W n n :=
  ⟨⟨rfl, rfl, rfl, rfl, rfl, rfl, rfl⟩, fun _ => Or.inl rfl⟩

lemma trans (h : LinkedAs W n n') (h' : LinkedAs W n' n'') : LinkedAs W n n'' := by
  refine ⟨h.linked.trans h'.linked, fun q => ?_⟩
  rcases h'.wire q with hq | hq
  · rw [hq]
    exact h.wire q
  · exact Or.inr hq

/-- A port that has its wire keeps it. -/
lemma keep (h : LinkedAs W n n') {q : Port} (hq : n.wireAt q = W q) : n'.wireAt q = W q := by
  rcases h.wire q with h | h
  · rw [h, hq]
  · exact h

end LinkedAs

lemma linkedAs_netLink (g : Globals) {W : Port → Option Port} (n : Net) {a b : Port}
    (ha : W a = some b) (hb : W b = some a) (e : Bool) :
    LinkedAs W n (netLink g n (some a) (some b) e) ∧
      (netLink g n (some a) (some b) e).wireAt a = W a ∧
      (netLink g n (some a) (some b) e).wireAt b = W b := by
  have hw := fun q => netLink_wireAt g n a b q e
  have hb' : (netLink g n (some a) (some b) e).wireAt b = W b := by rw [hw, if_pos rfl, hb]
  have ha' : (netLink g n (some a) (some b) e).wireAt a = W a := by
    by_cases h : b = a
    · exact h ▸ hb'
    · rw [hw, if_neg h, if_pos rfl, ha]
  refine ⟨⟨netLink_linked g n _ _ e, fun q => ?_⟩, ha', hb'⟩
  by_cases h1 : b = q
  · exact Or.inr (h1 ▸ hb')
  by_cases h2 : a = q
  · exact Or.inr (h2 ▸ ha')
  · rw [hw, if_neg h1, if_neg h2]
    exact Or.inl rfl

section LinkCopies

variable {g : Globals} {n : Net} {f : Fin 4 → Option (Fin 4)} {t : Fin 4 → Option Port}
  {cp : Fin 4 → ℕ} {W : Port → Option Port}

/-- One step of the first pass, for the auxiliary `k`. -/
def shortStep (g : Globals) (f : Fin 4 → Option (Fin 4)) (cp : Fin 4 → ℕ)
    (s : Net × List (Fin 4)) (k : Fin 4) : Net × List (Fin 4) :=
  match f k with
  | none => s
  | some m =>
    if m ≤ k ∨ k ∈ s.2 then s
    else (netLink g s.1 (some ⟨cp k, 0⟩) (some ⟨cp m, 0⟩) true, k :: m :: s.2)

/-- One step of the second pass. -/
def looseStep (g : Globals) (t : Fin 4 → Option Port) (cp : Fin 4 → ℕ) (done : List (Fin 4))
    (n : Net) (k : Fin 4) : Net :=
  if k ∈ done then n else netLink g n (some ⟨cp k, 0⟩) (t k) true

lemma linkCopies_eq (g : Globals) (n : Net) (n1 n2 : ℕ) (t : Fin 4 → Option Port)
    (cp : Fin 4 → ℕ) :
    linkCopies g n n1 n2 t cp =
      let s := (List.finRange 4).foldl
        (shortStep g (fun k => auxIndex n1 n2 (t k)) cp) (n, [])
      (List.finRange 4).foldl (looseStep g t cp s.2) s.1 := rfl

/-- The first pass links the copies of shorted auxiliaries. -/
structure Shorted (f : Fin 4 → Option (Fin 4)) (cp : Fin 4 → ℕ) (W : Port → Option Port)
    (n : Net) (s : Net × List (Fin 4)) : Prop where
  linkedAs : LinkedAs W n s.1
  done : ∀ k ∈ s.2, f k ≠ none ∧ s.1.wireAt ⟨cp k, 0⟩ = W ⟨cp k, 0⟩
  closed : ∀ k ∈ s.2, ∀ m, f k = some m → m ∈ s.2

lemma Shorted.step (hsym : ∀ k m, f k = some m → f m = some k)
    (hin : ∀ k m, f k = some m → W ⟨cp k, 0⟩ = some ⟨cp m, 0⟩) {s : Net × List (Fin 4)}
    (hs : Shorted f cp W n s) (k : Fin 4) :
    Shorted f cp W n (shortStep g f cp s k) ∧ s.2 ⊆ (shortStep g f cp s k).2 ∧
      ∀ m, f k = some m → k < m → k ∈ (shortStep g f cp s k).2 := by
  simp only [shortStep]
  cases hf : f k with
  | none => exact ⟨hs, fun _ h => h, fun m h => by simp at h⟩
  | some m =>
    dsimp only
    split_ifs with hc
    · refine ⟨hs, fun _ h => h, fun m' hm' hlt => ?_⟩
      obtain rfl : m = m' := by simpa using hm'
      exact hc.resolve_left (not_le.mpr hlt)
    · have hfm := hsym k m hf
      obtain ⟨hl, hk, hm⟩ := linkedAs_netLink g s.1 (hin k m hf) (hin m k hfm) true
      refine ⟨⟨hs.linkedAs.trans hl, fun j hj => ?_, fun j hj i hi => ?_⟩,
        fun j hj => by simp [hj], fun _ _ _ => by simp⟩
      · simp only [List.mem_cons] at hj
        rcases hj with rfl | rfl | hj
        · exact ⟨by simp [hf], hk⟩
        · exact ⟨by simp [hfm], hm⟩
        · exact ⟨(hs.done j hj).1, hl.keep (hs.done j hj).2⟩
      · simp only [List.mem_cons] at hj ⊢
        rcases hj with rfl | rfl | hj
        · exact Or.inr (Or.inl (Option.some.inj (hi.symm.trans hf)))
        · exact Or.inl (Option.some.inj (hi.symm.trans hfm))
        · exact Or.inr (Or.inr (hs.closed j hj i hi))

lemma Shorted.pass (hsym : ∀ k m, f k = some m → f m = some k)
    (hin : ∀ k m, f k = some m → W ⟨cp k, 0⟩ = some ⟨cp m, 0⟩) (ks : List (Fin 4))
    {s : Net × List (Fin 4)} (hs : Shorted f cp W n s) :
    Shorted f cp W n (ks.foldl (shortStep g f cp) s) ∧ s.2 ⊆ (ks.foldl (shortStep g f cp) s).2 ∧
      ∀ k ∈ ks, ∀ m, f k = some m → k < m → k ∈ (ks.foldl (shortStep g f cp) s).2 := by
  induction ks generalizing s with
  | nil => exact ⟨hs, fun _ h => h, fun k hk => absurd hk (by simp)⟩
  | cons k ks ih =>
    obtain ⟨h1, h2, h3⟩ := hs.step (g := g) hsym hin k
    obtain ⟨i1, i2, i3⟩ := ih h1
    refine ⟨i1, fun j hj => i2 (h2 hj), fun j hj m hm hlt => ?_⟩
    rcases List.mem_cons.mp hj with rfl | hj
    · exact i2 (h3 m hm hlt)
    · exact i3 j hj m hm hlt

/-- The second pass links the other copies to what the auxiliaries led to. -/
lemma loosePass (done : List (Fin 4)) (ks : List (Fin 4))
    (hout : ∀ k q, k ∉ done → t k = some q → W ⟨cp k, 0⟩ = some q ∧ W q = some ⟨cp k, 0⟩) :
    LinkedAs W n (ks.foldl (looseStep g t cp done) n) ∧
      ∀ k ∈ ks, k ∉ done → ∀ q, t k = some q →
        (ks.foldl (looseStep g t cp done) n).wireAt ⟨cp k, 0⟩ = W ⟨cp k, 0⟩ ∧
          (ks.foldl (looseStep g t cp done) n).wireAt q = W q := by
  induction ks generalizing n with
  | nil => exact ⟨.refl W n, fun k hk => absurd hk (by simp)⟩
  | cons k ks ih =>
    rw [List.foldl_cons]
    obtain ⟨h1, h2⟩ := ih (n := looseStep g t cp done n k)
    by_cases hk : k ∈ done
    · have he : looseStep g t cp done n k = n := by simp [looseStep, hk]
      rw [he] at h1 h2 ⊢
      refine ⟨h1, fun j hj hjd => ?_⟩
      rcases List.mem_cons.mp hj with rfl | hj
      · exact absurd hk hjd
      · exact h2 j hj hjd
    · cases ht : t k with
      | none =>
        have he : looseStep g t cp done n k = n := by simp [looseStep, hk, ht, netLink_none]
        rw [he] at h1 h2 ⊢
        refine ⟨h1, fun j hj hjd q hq => ?_⟩
        rcases List.mem_cons.mp hj with rfl | hj
        · simp [ht] at hq
        · exact h2 j hj hjd q hq
      | some q =>
        have he : looseStep g t cp done n k = netLink g n (some ⟨cp k, 0⟩) (some q) true := by
          simp [looseStep, hk, ht]
        obtain ⟨ha, hb⟩ := hout k q hk ht
        obtain ⟨hl, hlk, hlq⟩ := linkedAs_netLink g n ha hb true
        rw [he] at h1 h2 ⊢
        refine ⟨hl.trans h1, fun j hj hjd q' hq' => ?_⟩
        by_cases hjk : j = k
        · subst hjk
          obtain rfl : q = q' := Option.some.inj (ht.symm.trans hq')
          exact ⟨h1.keep hlk, h1.keep hlq⟩
        · exact h2 j ((List.mem_cons.mp hj).resolve_left hjk) hjd q' hq'

/-- `linkCopies` gives every copy, and every outside port that led to an auxiliary of
the pair, its wire in `W`, and changes no other wire. -/
theorem linkCopies_spec (g : Globals) (n : Net) (n1 n2 : ℕ) (t : Fin 4 → Option Port)
    (cp : Fin 4 → ℕ)
    (hsym : ∀ k m, auxIndex n1 n2 (t k) = some m → auxIndex n1 n2 (t m) = some k ∧ k ≠ m)
    (hin : ∀ k m, auxIndex n1 n2 (t k) = some m → W ⟨cp k, 0⟩ = some ⟨cp m, 0⟩)
    (hout : ∀ k q, auxIndex n1 n2 (t k) = none → t k = some q →
      W ⟨cp k, 0⟩ = some q ∧ W q = some ⟨cp k, 0⟩) :
    LinkedAs W n (linkCopies g n n1 n2 t cp) ∧
      (∀ k, t k ≠ none → (linkCopies g n n1 n2 t cp).wireAt ⟨cp k, 0⟩ = W ⟨cp k, 0⟩) ∧
      ∀ k q, auxIndex n1 n2 (t k) = none → t k = some q →
        (linkCopies g n n1 n2 t cp).wireAt q = W q := by
  rw [linkCopies_eq]
  set f := fun k => auxIndex n1 n2 (t k)
  obtain ⟨h1, -, h3⟩ := Shorted.pass (g := g) (W := W) (n := n) (f := f)
    (fun k m h => (hsym k m h).1) hin (List.finRange 4) (s := (n, []))
    ⟨.refl W n, by simp, by simp⟩
  set s := (List.finRange 4).foldl (shortStep g f cp) (n, [])
  -- after the first pass exactly the shorted auxiliaries are done
  have hdone : ∀ k, k ∈ s.2 ↔ f k ≠ none := by
    refine fun k => ⟨fun h => (h1.done k h).1, fun h => ?_⟩
    obtain ⟨m, hm⟩ := Option.ne_none_iff_exists'.mp h
    obtain ⟨hmk, hne⟩ := hsym k m hm
    rcases lt_or_gt_of_ne hne with hlt | hlt
    · exact h3 k (List.mem_finRange k) m hm hlt
    · exact h1.closed m (h3 m (List.mem_finRange m) k hmk hlt) k hmk
  obtain ⟨i1, i2⟩ := loosePass (g := g) (W := W) (n := s.1) s.2 (List.finRange 4)
    fun k q hk hq => hout k q (by simpa [hdone] using hk) hq
  refine ⟨h1.linkedAs.trans i1, fun k hk => ?_, fun k q hf hq => ?_⟩
  · by_cases hd : k ∈ s.2
    · exact i1.keep (h1.done k hd).2
    · obtain ⟨q, hq⟩ := Option.ne_none_iff_exists'.mp hk
      exact (i2 k (List.mem_finRange k) hd q hq).1
  · exact (i2 k (List.mem_finRange k) (by simpa [hdone] using hf) q hq).2

end LinkCopies

/-! ## The commutation rule -/

/-- Back from the principal ports of the copies to the auxiliaries of the pair. -/
def Copies.unrename (c : Copies) (a b : ℕ) (q : Port) : Port :=
  if q = ⟨c.d1, 0⟩ then ⟨a, 1⟩
  else if q = ⟨c.d2, 0⟩ then ⟨a, 2⟩
  else if q = ⟨c.m1, 0⟩ then ⟨b, 1⟩
  else if q = ⟨c.m2, 0⟩ then ⟨b, 2⟩
  else q

section Rule

variable {a b : ℕ} {c : Copies}

lemma auxTargets_eq (n : Net) (a b : ℕ) (k : Fin 4) : auxTargets n a b k = n.wireAt (auxOf a b k) := by
  fin_cases k <;> rfl

lemma unrename_at (hc : [c.m1, c.m2, c.d1, c.d2].Nodup) (k : Fin 4) :
    c.unrename a b ⟨c.at k, 0⟩ = auxOf a b k := by
  obtain ⟨m1, m2, d1, d2⟩ := c
  simp only [List.nodup_cons, List.mem_cons, List.not_mem_nil, or_false, not_or, not_false_eq_true,
    List.nodup_nil, and_true] at hc
  obtain ⟨⟨h12, h1d, h1e⟩, ⟨h2d, h2e⟩, hde⟩ := hc
  fin_cases k <;>
    simp [Copies.unrename, auxOf, Copies.at, h1d, h1e, h2d, h2e, Ne.symm h12, Ne.symm hde]

lemma unrename_other {q : Port} (h : ¬ c.has q.node) : c.unrename a b q = q := by
  obtain ⟨v, k⟩ := q
  simp only [Copies.has, not_or] at h
  simp [Copies.unrename, h.1, h.2.1, h.2.2.1, h.2.2.2]

lemma auxIndex_auxOf (hab : a ≠ b) (k : Fin 4) : auxIndex a b (some (auxOf a b k)) = some k := by
  fin_cases k <;> simp [auxIndex, auxOf, Ne.symm hab]

lemma auxIndex_outside {q : Port} (ha : q.node ≠ a) (hb : q.node ≠ b) :
    auxIndex a b (some q) = none := by
  simp [auxIndex, ha, hb]

/-- The wiring a commutation produces from the wiring `n` had, given the net `m` with
the copies in it. -/
def copied (n m : Net) (c : Copies) (a b : ℕ) (q : Port) : Option Port :=
  if c.has q.node ∧ q.port = 0 ∨ n.live q.node = true ∧ q.node ≠ a ∧ q.node ≠ b then
    (n.wireAt (c.unrename a b q)).map (c.rename a b)
  else m.wireAt q

/-- The net after the links of a commutation, before the pair is retired. -/
structure CopiesLinked (n m : Net) (c : Copies) (a b : ℕ) (n' : Net) : Prop where
  linked : Linked m n'
  same : ∀ q : Port, ¬ (c.has q.node ∧ q.port = 0) →
    ¬ (n.live q.node = true ∧ q.node ≠ a ∧ q.node ≠ b) → n'.wireAt q = m.wireAt q
  outer : ∀ p : Port, n.live p.node = true → p ≠ ⟨a, 0⟩ → p ≠ ⟨b, 0⟩ →
    n'.wireAt (c.rename a b p) = (n.wireAt p).map (c.rename a b)

lemma linkCopies_copied {n n0 m : Net} (g : Globals) {t1 t2 : Tag} {s1 : Fin 2 → ℕ} {s2 : ℕ}
    (hn : Wired n) (hgrown : Grown n n0) (hf : n.graph.Facing a b)
    (hs : Split n0 t1 s1 t2 s2 c m) :
    CopiesLinked n m c a b (linkCopies g m a b (auxTargets n a b) c.at) := by
  obtain ⟨hab, hla, hlb, hwa, hwb⟩ := hf
  have hfresh : ∀ v, c.has v → n.live v = false := fun v hv => by
    rw [← hgrown.live v]
    exact hs.fresh v hv
  have hold : ∀ v, n.live v = true → ¬ c.has v := fun v hv hc => by simp [hfresh v hc] at hv
  have hpl : ∀ k, n.live (auxOf a b k).node = true := by
    intro k
    rcases auxOf_node a b k with h | h <;> rw [h] <;> assumption
  have hmw : ∀ q : Port, ¬ c.has q.node → m.wireAt q = n.wireAt q := fun q hq =>
    (hs.wire q hq).trans (hgrown.wireAt q)
  -- a wire of an auxiliary does not lead to a principal port of the pair
  have hprin : ∀ k q, n.wireAt (auxOf a b k) = some q → q ≠ ⟨a, 0⟩ ∧ q ≠ ⟨b, 0⟩ := by
    intro k q hq
    have hback := (hn _ q (hpl k) hq).2.1
    constructor
    · rintro rfl
      have := Option.some.inj (hwa.symm.trans hback)
      fin_cases k <;> simp [auxOf] at this
    · rintro rfl
      have := Option.some.inj (hwb.symm.trans hback)
      fin_cases k <;> simp [auxOf] at this
  have htarget : ∀ k q, n.wireAt (auxOf a b k) = some q →
      (∃ i, q = auxOf a b i) ∨ (q.node ≠ a ∧ q.node ≠ b) := by
    intro k q hq
    by_cases hin : q.node = a ∨ q.node = b
    · obtain ⟨ha, hb⟩ := hprin k q hq
      exact Or.inl (exists_auxOf hin ha hb)
    · exact Or.inr (not_or.mp hin)
  have hindex : ∀ k i, auxIndex a b (auxTargets n a b k) = some i →
      n.wireAt (auxOf a b k) = some (auxOf a b i) := by
    intro k i hi
    rw [auxTargets_eq] at hi
    cases hq : n.wireAt (auxOf a b k) with
    | none => simp [hq, auxIndex] at hi
    | some q =>
      rcases htarget k q hq with ⟨j, rfl⟩ | ⟨ha, hb⟩
      · rw [hq, auxIndex_auxOf hab, Option.some.injEq] at hi
        rw [hi]
      · rw [hq, auxIndex_outside ha hb] at hi
        exact absurd hi (by simp)
  have hWat : ∀ k, copied n m c a b ⟨c.at k, 0⟩ =
      (n.wireAt (auxOf a b k)).map (c.rename a b) := by
    intro k
    rw [copied, if_pos (Or.inl ⟨has_at c k, rfl⟩), unrename_at hs.nodup]
  have hWold : ∀ q : Port, n.live q.node = true → q.node ≠ a → q.node ≠ b →
      copied n m c a b q = (n.wireAt q).map (c.rename a b) := by
    intro q hq ha hb
    rw [copied, if_pos (Or.inr ⟨hq, ha, hb⟩), unrename_other (hold _ hq)]
  obtain ⟨hlas, hat, hto⟩ := linkCopies_spec (W := copied n m c a b) g m a b
    (auxTargets n a b) c.at
    (fun k i hi => by
      have hki := hindex k i hi
      obtain ⟨_, hback, hne⟩ := hn _ _ (hpl k) hki
      refine ⟨by rw [auxTargets_eq, hback, auxIndex_auxOf hab], ?_⟩
      rintro rfl
      exact hne rfl)
    (fun k i hi => by rw [hWat, hindex k i hi, Option.map_some, rename_auxOf hab])
    (fun k q hq hkq => by
      rw [auxTargets_eq] at hkq
      rcases htarget k q hkq with ⟨j, rfl⟩ | ⟨ha, hb⟩
      · rw [auxTargets_eq, hkq, auxIndex_auxOf hab] at hq
        exact absurd hq (by simp)
      · obtain ⟨hql, hback, _⟩ := hn _ q (hpl k) hkq
        rw [hWat, hkq, hWold q hql ha hb, hback, Option.map_some, Option.map_some,
          rename_other ha hb, rename_auxOf hab]
        exact ⟨rfl, rfl⟩)
  refine ⟨hlas.linked, fun q h1 h2 => ?_, fun p hl ha hb => ?_⟩
  · rcases hlas.wire q with h | h
    · exact h
    · rw [h, copied, if_neg (by tauto)]
  · by_cases hin : p.node = a ∨ p.node = b
    · obtain ⟨k, rfl⟩ := exists_auxOf hin ha hb
      rw [rename_auxOf hab, ← hWat]
      by_cases hk : auxTargets n a b k = none
      · refine hlas.keep ?_
        rw [hs.principal _ (has_at c k), hWat, ← auxTargets_eq, hk]
        rfl
      · exact hat k hk
    · obtain ⟨hpa, hpb⟩ := not_or.mp hin
      rw [rename_other hpa hpb, ← hWold p hl hpa hpb]
      cases hq : n.wireAt p with
      | none =>
        refine hlas.keep ?_
        rw [hmw p (hold _ hl), hWold p hl hpa hpb, hq]
        rfl
      | some q =>
        obtain ⟨hql, hback, _⟩ := hn _ q hl hq
        by_cases hqin : q.node = a ∨ q.node = b
        · have hqa : q ≠ ⟨a, 0⟩ := by
            rintro rfl
            rw [← Option.some.inj (hwa.symm.trans hback)] at hpb
            exact hpb rfl
          have hqb : q ≠ ⟨b, 0⟩ := by
            rintro rfl
            rw [← Option.some.inj (hwb.symm.trans hback)] at hpa
            exact hpa rfl
          obtain ⟨k, rfl⟩ := exists_auxOf hqin hqa hqb
          refine hto k p ?_ (by rw [auxTargets_eq, hback])
          rw [auxTargets_eq, hback, auxIndex_outside hpa hpb]
        · obtain ⟨hqa, hqb⟩ := not_or.mp hqin
          refine hlas.keep ?_
          rw [hmw p (hold _ hl), hWold p hl hpa hpb, hq, Option.map_some, rename_other hqa hqb]

/-- Retiring the pair after the links leaves the copies and the outside as linked. -/
lemma retire_copied {n n0 m m' : Net} (g : Globals) {t1 t2 : Tag} {s1 : Fin 2 → ℕ} {s2 : ℕ}
    (hn : Wired n) (hgrown : Grown n n0) (hf : n.graph.Facing a b)
    (hs : Split n0 t1 s1 t2 s2 c m) (hc : CopiesLinked n m c a b m') :
    Retired a b m' (retire g m' a b) := by
  obtain ⟨hab, hla, hlb, hwa, hwb⟩ := hf
  have hnot : ∀ v, n.live v = true → ¬ c.has v := fun v hv hc => by
    have := hs.fresh v hc
    rw [hgrown.live, hv] at this
    exact absurd this (by simp)
  refine retire_spec g hab fun p hp w hw ha hb => ?_
  have hpl : n.live p.node = true := by rcases hp with h | h <;> rw [h] <;> assumption
  have hpw : n.wireAt p = some w := by
    have h1 := hc.same p (fun h => hnot _ hpl h.1) (fun h => hp.elim h.2.1 h.2.2)
    rw [← hgrown.wireAt, ← hs.wire p (hnot _ hpl), ← h1]
    exact hw
  obtain ⟨hwl, hback, _⟩ := hn p w hpl hpw
  have hpa : p ≠ ⟨a, 0⟩ := by
    rintro rfl
    exact hb (by rw [← Option.some.inj (hwa.symm.trans hpw)])
  have hpb : p ≠ ⟨b, 0⟩ := by
    rintro rfl
    exact ha (by rw [← Option.some.inj (hwb.symm.trans hpw)])
  obtain ⟨k, rfl⟩ := exists_auxOf hp hpa hpb
  have hwk : m'.wireAt w = some ⟨c.at k, 0⟩ := by
    have h := hc.outer w hwl (fun h => ha (by rw [h])) (fun h => hb (by rw [h]))
    rw [rename_other ha hb, hback, Option.map_some, rename_auxOf hab] at h
    exact h
  have hfresh : c.at k ≠ a ∧ c.at k ≠ b :=
    ⟨fun h => hnot a hla (h ▸ has_at c k), fun h => hnot b hlb (h ▸ has_at c k)⟩
  refine ⟨fun h => ?_, fun _ h0 => ?_⟩
  · have h := Option.some.inj (hwk.symm.trans h)
    exact hnot _ hpl (h ▸ has_at c k)
  · have h := degLive_eq_zero.mp h0 w rfl _ hwk
    have hl : m'.live (c.at k) = true := by
      rw [hc.linked.live, hs.live]
      exact Or.inr (has_at c k)
    rw [← Bool.not_eq_true, Net.live_iff, markPair_dead] at h
    rw [Net.live_iff] at hl
    exact h ⟨hl.1, by simp [hl.2, hfresh.1, hfresh.2]⟩

/-- What a duplication rule does to the store. -/
structure Stored (n0 : Net) (s1 : Fin 2 → ℕ) (s2 : ℕ) (c : Copies) (n' : Net) : Prop where
  levels : n'.levels = n0.levels
  pins : n'.pins = n0.pins
  freeOk : FreeOk n'
  scope : ∀ v, ¬ c.has v → n'.scope.get v = n0.scope.get v
  scopeMain : ∀ i, n'.scope.get (c.main i) = s1 i
  scopeFan : ∀ i, n'.scope.get (c.fan i) = s2

/-- A net in good order: well wired, its free list and its trie sound, every gauge a
level of the trie, and no collection in progress. -/
structure Sound (n : Net) : Prop where
  wired : Wired n
  freeOk : FreeOk n
  trieOk : TrieOk n
  scopes : ∀ v, n.live v = true → n.scope.get v ≤ n.levels.length
  pins : n.pins = 0

/-- Splitting, linking and retiring a facing pair replaces it by copies. -/
theorem commutes_split2 {n n0 m : Net} (g : Globals) {s1 : Fin 2 → ℕ} (hn : Sound n)
    (hgrown : Grown n n0) (hf : n.graph.Facing a b)
    (hs : Split n0 (n.tag.get a) s1 (n.tag.get b) (n.scope.get b) c m) :
    Commutes c a b n.graph (retire g (linkCopies g m a b (auxTargets n a b) c.at) a b).graph ∧
      Stored n0 s1 (n.scope.get b) c
        (retire g (linkCopies g m a b (auxTargets n a b) c.at) a b) := by
  have hc := linkCopies_copied g hn.wired hgrown hf hs
  set m' := linkCopies g m a b (auxTargets n a b) c.at
  have hr := retire_copied g hn.wired hgrown hf hs hc
  set n' := retire g m' a b
  obtain ⟨hab, hla, hlb, hwa, hwb⟩ := hf
  have hfresh : ∀ v, c.has v → n.live v = false := fun v hv => by
    rw [← hgrown.live v]
    exact hs.fresh v hv
  have hnot : ∀ v, n.live v = true → ¬ c.has v := fun v hv hc => by simp [hfresh v hc] at hv
  have hoff : ∀ v, c.has v → v ≠ a ∧ v ≠ b := fun v hv =>
    ⟨fun h => hnot a hla (h ▸ hv), fun h => hnot b hlb (h ▸ hv)⟩
  have hlive : ∀ v, n'.live v = true ↔ (n.live v = true ∧ v ≠ a ∧ v ≠ b) ∨ c.has v := by
    intro v
    rw [hr.live, hc.linked.live, hs.live, hgrown.live]
    constructor
    · rintro ⟨h | h, ha, hb⟩
      · exact Or.inl ⟨h, ha, hb⟩
      · exact Or.inr h
    · rintro (⟨h, ha, hb⟩ | h)
      · exact ⟨Or.inl h, ha, hb⟩
      · exact ⟨Or.inr h, hoff v h⟩
  have hlevels : n'.levels = n0.levels := hr.levels.trans (hc.linked.levels.trans hs.levels)
  have hscope : ∀ v, n'.scope.get v = m.scope.get v := fun v => by rw [hr.scope, hc.linked.scope]
  have hscopeOld : ∀ v, ¬ c.has v → n'.scope.get v = n0.scope.get v := fun v hv =>
    (hscope v).trans (hs.scope v hv)
  have hscope0 : ∀ v, n0.scope.get v = n.scope.get v := fun v => by rw [hgrown.same]
  have htag0 : ∀ v, n0.tag.get v = n.tag.get v := fun v => by rw [hgrown.same]
  have htag : ∀ v, v ≠ a → v ≠ b → n'.tag.get v = m.tag.get v := fun v ha hb => by
    rw [hr.tag v ha hb, hc.linked.tag]
  have hpath : ∀ l, l ≤ n.levels.length → lvlPath n' l = lvlPath n l := fun l hl => by
    rw [lvlPath_congr hlevels, hgrown.lvlPath hn.trieOk hl]
  have hinner : ∀ v, c.has v → ∀ i : Fin 2, n'.wireAt ⟨v, auxPort i⟩ = m.wireAt ⟨v, auxPort i⟩ := by
    intro v hv i
    obtain ⟨ha, hb⟩ := hoff v hv
    rw [hr.wire _ ha hb]
    refine hc.same _ (fun h => ?_) fun h => ?_
    · fin_cases i <;> simp [auxPort] at h
    · exact hnot v h.1 hv
  refine ⟨⟨hs.nodup, fun v hv => by simp [Net.graph, hfresh v hv], hlive, fun p hl ha hb => ?_,
    fun i j => (hinner _ (has_main c i) j).trans (hs.innerMain i j),
    fun i j => (hinner _ (has_fan c j) i).trans (hs.innerFan i j), fun v hv ha hb => ?_,
    fun v hv ha hb => ?_, fun v hv ha hb => ?_, fun i => ?_, fun i => ?_, fun i => ?_, fun i => ?_⟩,
    ⟨hlevels, ?_, ?_, hscopeOld, fun i => (hscope _).trans (hs.scopeMain i),
      fun i => (hscope _).trans (hs.scopeFan i)⟩⟩
  · have hnode : (c.rename a b p).node ≠ a ∧ (c.rename a b p).node ≠ b := by
      by_cases hin : p.node = a ∨ p.node = b
      · obtain ⟨k, rfl⟩ := exists_auxOf hin ha hb
        rw [rename_auxOf hab]
        exact hoff _ (has_at c k)
      · obtain ⟨hpa, hpb⟩ := not_or.mp hin
        rw [rename_other hpa hpb]
        exact ⟨hpa, hpb⟩
    exact (hr.wire _ hnode.1 hnode.2).trans (hc.outer p hl ha hb)
  · exact (htag v ha hb).trans ((hs.tag v (hnot v hv)).trans (htag0 v))
  · exact (hscopeOld v (hnot v hv)).trans (hscope0 v)
  · change lvlPath n' (n'.scope.get v) = lvlPath n (n.scope.get v)
    rw [hscopeOld v (hnot v hv), hscope0, hpath _ (hn.scopes v hv)]
  · obtain ⟨ha, hb⟩ := hoff _ (has_main c i)
    exact (htag _ ha hb).trans (hs.tagMain i)
  · obtain ⟨ha, hb⟩ := hoff _ (has_fan c i)
    exact (htag _ ha hb).trans (hs.tagFan i)
  · exact (hscope _).trans (hs.scopeFan i)
  · change lvlPath n' (n'.scope.get (c.fan i)) = lvlPath n (n.scope.get b)
    rw [hscope, hs.scopeFan, hpath _ (hn.scopes b hlb)]
  · rw [hr.pins, hc.linked.pins, hs.pins]
  · obtain ⟨l, hl⟩ := hs.freeOk
    refine ⟨l, ?_⟩
    rw [hr.freeHead, hc.linked.freeHead]
    refine hl.mono (hr.nn.trans hc.linked.nn).ge (fun v hv => ?_) fun v hv => ?_
    · rw [hr.dead, hc.linked.dead, (hl.dead_of_mem hv).2]
      rfl
    · have hd := (hl.dead_of_mem hv).2
      have hml : m.live v = false := by simp [Net.live, hd]
      have hml' : ¬ (n.live v = true ∨ c.has v) := by
        rw [← hgrown.live, ← hs.live, hml]
        simp
      have hva : v ≠ a := fun h => hml' (Or.inl (h ▸ hla))
      have hvb : v ≠ b := fun h => hml' (Or.inl (h ▸ hlb))
      rw [hr.wire _ hva hvb]
      exact hc.same _ (fun h => hml' (Or.inr h.1)) fun h => hml' (Or.inl h.1)

end Rule

end LinEngine
