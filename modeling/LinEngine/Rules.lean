import LinEngine.Commute

/-!
# The rules refine their graph relations

`netInteract` on a live redex of a sound net fires one of the two graph relations
and leaves the net sound; a run of it therefore keeps every reached net sound.
-/
namespace LinEngine

/-- The tag pairs a rule exists for, in either order. -/
def fireable (t t' : Tag) : Bool :=
  match t, t' with
  | .lam, .app | .app, .lam => true
  | .lam, .dup | .dup, .lam => true
  | .app, .dup | .dup, .app => true
  | .dup, .dup => true
  | _, _ => false

/-- The flag `netInteract` returns. -/
lemma netInteract_fst (g : Globals) (n : Net) (p q : Port) :
    (netInteract g n p q).1 = fireable (n.tag.get p.node) (n.tag.get q.node) := by
  simp only [netInteract, interactSorted]
  cases n.tag.get p.node <;> cases n.tag.get q.node <;> simp [Tag.rank, fireable]
  split_ifs <;> rfl

section Spec

variable {n n0 : Net} {a b : ℕ} {g : Globals}

lemma sound_glue {cor : List (ℕ × ℕ)} {x : Fin 6 → Fin 6} {s : Fin 3 → Fin 3}
    (hser : g.inParallel = false) (hn : Sound n) (hf : n.graph.Facing a b) (hg : Glues cor x s)
    (hs : ∀ k, s (s k) = k) :
    Annihilates s a b n.graph (retire g (pairBoundary g n a b cor) a b).graph ∧
      Sound (retire g (pairBoundary g n a b cor) a b) := by
  obtain ⟨ha, hk⟩ := annihilates_pairBoundary hser hn.wired hn.freeOk hn.pins hf hg
  refine ⟨ha, ha.wired hs hf hn.wired, hk.freeOk, ⟨fun i l hl => ?_, fun i l hl => ?_⟩,
    fun v hv => ?_, hk.pins.trans hn.pins⟩
  · exact hn.trieOk.parent i l (hk.levels ▸ hl)
  · have hd : lvDepth (retire g (pairBoundary g n a b cor) a b) l.parent = lvDepth n l.parent := by
      simp only [lvDepth, hk.levels]
    rw [hd]
    exact hn.trieOk.depth i l (hk.levels ▸ hl)
  · rw [hk.scope, hk.levels]
    exact hn.scopes v ((ha.live v).mp hv).1

lemma sound_copy (s1 : Fin 2 → ℕ) (hser : g.inParallel = false) (hn : Sound n)
    (hgrown : Grown n n0) (htrie : TrieOk n0) (hs1 : ∀ i, s1 i ≤ n0.levels.length)
    (hf : n.graph.Facing a b) :
    let r := split2 g n0 (n.tag.get a) (s1 0) (s1 1) (n.tag.get b) (n.scope.get b)
    let n' := retire g (linkCopies g r.2 a b (auxTargets n a b) r.1.at) a b
    Commutes r.1 a b n.graph n'.graph ∧ Stored n0 s1 (n.scope.get b) r.1 n' ∧ Sound n' := by
  have hfree : FreeOk n0 := by
    obtain ⟨l, hl⟩ := hn.freeOk
    rw [hgrown.same]
    exact ⟨l, hl.mono le_rfl (fun v hv => (hl.dead_of_mem hv).2) fun v _ => rfl⟩
  have hs := split2_spec hser hfree (n.tag.get a) s1 (n.tag.get b) (n.scope.get b)
  obtain ⟨hc, hst⟩ := commutes_split2 g hn hgrown hf hs
  refine ⟨hc, hst, hc.wired hf hn.wired, hst.freeOk, htrie.congr hst.levels, fun v hv => ?_, ?_⟩
  · rw [hst.levels]
    have hle := hgrown.length_le
    rcases (hc.live v).mp hv with ⟨hv, _, _⟩ | hv
    · rw [hst.scope v (hc.old_not_has hv), hgrown.same]
      exact (hn.scopes v hv).trans hle
    · have hb := (hn.scopes b hf.liveR).trans hle
      rcases hv with rfl | rfl | rfl | rfl
      · exact (hst.scopeMain 0).trans_le (hs1 0)
      · exact (hst.scopeMain 1).trans_le (hs1 1)
      · exact (hst.scopeFan 0).trans_le hb
      · exact (hst.scopeFan 1).trans_le hb
  · rw [hst.pins, hgrown.same]
    exact hn.pins

/-- A value or an application meets a fan: both copies are labelled by the path of the
value's own gauge and that of the fan. -/
lemma copyValue_spec (hser : g.inParallel = false) (hn : Sound n) (hf : n.graph.Facing a b)
    (hta : n.tag.get a = .lam ∨ n.tag.get a = .app) (htb : n.tag.get b = .dup) :
    let l1 := lvlPrefix2 n 1 (n.scope.get a) (n.scope.get b)
    let l2 := lvlPrefix2 l1.2 2 (n.scope.get a) (n.scope.get b)
    let r := split2 g l2.2 (n.tag.get a) l1.1 l2.1 .dup (n.scope.get b)
    let n' := retire g (linkCopies g r.2 a b (auxTargets n a b) r.1.at) a b
    Fires a b n.graph n'.graph ∧ Sound n' := by
  intro l1 l2 r n'
  have h1 : Interned n _ l1 := lvlPrefix2_spec hn.trieOk 1 _ _
  have h2 : Interned l1.2 _ l2 := lvlPrefix2_spec h1.trieOk 2 _ _
  have hsa := hn.scopes a hf.liveL
  have hsb := hn.scopes b hf.liveR
  have hle := h2.grown.length_le
  obtain ⟨hc, hst, hn'⟩ := sound_copy ![l1.1, l2.1] hser hn (h1.grown.trans h2.grown)
    h2.trieOk (fun i => by
      fin_cases i
      exacts [h1.le.trans hle, h2.le]) hf
  rw [htb] at hc hst hn'
  have hc : Commutes r.1 a b n.graph n'.graph := hc
  have hst : Stored l2.2 ![l1.1, l2.1] (n.scope.get b) r.1 n' := hst
  have hpath : ∀ i, lvlPath n' (n'.scope.get (r.1.main i)) =
      copyPath (n.tag.get a) i (lvlPath n (n.scope.get a)) (lvlPath n (n.scope.get b)) := by
    intro i
    have hd : n.tag.get a ≠ .dup := by
      rcases hta with h | h <;> simp [h]
    rw [lvlPath_congr hst.levels, hst.scopeMain, copyPath, if_neg hd]
    fin_cases i
    · exact (h2.grown.lvlPath h1.trieOk h1.le).trans h1.path
    · have hpa := h1.grown.lvlPath hn.trieOk hsa
      have hpb := h1.grown.lvlPath hn.trieOk hsb
      exact h2.path.trans (by rw [hpa, hpb])
  refine ⟨.commute r.1 (hta.imp_right Or.inl) htb hc hpath fun hd => ?_, hn'⟩
  have hd : n.tag.get a = .dup := hd
  rcases hta with h | h <;> simp [h] at hd

/-- Two fans on different gauges: every copy keeps its own gauge. -/
lemma copyFan_spec (hser : g.inParallel = false) (hn : Sound n) (hf : n.graph.Facing a b)
    (hta : n.tag.get a = .dup) (htb : n.tag.get b = .dup)
    (hne : n.scope.get a ≠ n.scope.get b) :
    let r := split2 g n .dup (n.scope.get a) (n.scope.get a) .dup (n.scope.get b)
    let n' := retire g (linkCopies g r.2 a b (auxTargets n a b) r.1.at) a b
    Fires a b n.graph n'.graph ∧ Sound n' := by
  intro r n'
  have hsa := hn.scopes a hf.liveL
  obtain ⟨hc, hst, hn'⟩ := sound_copy (fun _ => n.scope.get a) hser hn (.refl n) hn.trieOk
    (fun _ => hsa) hf
  rw [hta, htb] at hc hst hn'
  have hc : Commutes r.1 a b n.graph n'.graph := hc
  have hst : Stored n (fun _ => n.scope.get a) (n.scope.get b) r.1 n' := hst
  refine ⟨.commute r.1 (Or.inr (Or.inr ⟨hta, hne⟩)) htb hc (fun i => ?_) fun _ => hst.scopeMain, hn'⟩
  change lvlPath n' (n'.scope.get (r.1.main i)) = copyPath (n.tag.get a) i _ _
  rw [lvlPath_congr hst.levels, hst.scopeMain, copyPath, if_pos hta]
  rfl

/-- The rule for a pair in tag order. -/
theorem interactSorted_spec (hser : g.inParallel = false) (hn : Sound n)
    (hf : n.graph.Facing a b) (hfire : (interactSorted g n a b).1 = true) :
    Fires a b n.graph (interactSorted g n a b).2.graph ∧ Sound (interactSorted g n a b).2 := by
  cases hta : n.tag.get a with
  | lam =>
    cases htb : n.tag.get b with
    | app =>
      obtain ⟨h, hn'⟩ := sound_glue hser hn hf glues_swapped swapped_swapped
      simp only [interactSorted, hta, htb]
      exact ⟨.beta hta htb h, hn'⟩
    | dup =>
      have h := copyValue_spec hser hn hf (Or.inl hta) htb
      simp only [hta] at h
      simpa only [interactSorted, hta, htb, true_or, if_true] using h
    | _ => simp [interactSorted, hta, htb] at hfire
  | app =>
    cases htb : n.tag.get b with
    | dup =>
      have h := copyValue_spec hser hn hf (Or.inr hta) htb
      simp only [hta] at h
      simpa only [interactSorted, hta, htb, or_true, if_true] using h
    | _ => simp [interactSorted, hta, htb] at hfire
  | dup =>
    cases htb : n.tag.get b with
    | dup =>
      by_cases hs : n.scope.get a = n.scope.get b
      · obtain ⟨h, hn'⟩ := sound_glue hser hn hf glues_straight fun _ => rfl
        simp only [interactSorted, hta, htb, hs, if_true]
        exact ⟨.annihilate hta htb hs h, hn'⟩
      · simpa only [interactSorted, hta, htb, hs, if_false] using copyFan_spec hser hn hf hta htb hs
    | _ => simp [interactSorted, hta, htb] at hfire
  | _ => cases htb : n.tag.get b <;> simp [interactSorted, hta, htb] at hfire

lemma redexLive_facing (hn : Wired n) {p q : Port} (h : redexLive n p q = true) :
    n.graph.Facing p.node q.node ∧ p = ⟨p.node, 0⟩ ∧ q = ⟨q.node, 0⟩ := by
  obtain ⟨u, i⟩ := p
  obtain ⟨v, j⟩ := q
  simp only [redexLive, Bool.and_eq_true, beq_iff_eq] at h
  obtain ⟨⟨⟨⟨⟨hu, hv⟩, rfl⟩, rfl⟩, hw⟩, hw'⟩ := h
  refine ⟨⟨?_, hu, hv, hw, hw'⟩, rfl, rfl⟩
  rintro rfl
  exact (hn _ _ hu hw).2.2 rfl

lemma redexLive_of_facing {p q : Port} (h : n.graph.Facing p.node q.node) (hp : p = ⟨p.node, 0⟩)
    (hq : q = ⟨q.node, 0⟩) : redexLive n p q = true := by
  obtain ⟨_, hlp, hlq, hw, hw'⟩ := h
  have hlp : n.live p.node = true := hlp
  have hlq : n.live q.node = true := hlq
  have hw : n.wireAt ⟨p.node, 0⟩ = some ⟨q.node, 0⟩ := hw
  have hw' : n.wireAt ⟨q.node, 0⟩ = some ⟨p.node, 0⟩ := hw'
  rw [← hp, ← hq] at hw hw'
  have hp0 : p.port = 0 := by rw [hp]
  have hq0 : q.port = 0 := by rw [hq]
  simp [redexLive, hlp, hlq, hp0, hq0, hw, hw']

lemma Graph.Facing.symm {G : Graph} (h : G.Facing a b) : G.Facing b a :=
  ⟨h.ne.symm, h.liveR, h.liveL, h.wireR, h.wireL⟩

/-- A pair in tag order. -/
def sortPair (t t' : Tag) (a b : ℕ) : ℕ × ℕ := if t'.rank < t.rank then (b, a) else (a, b)

lemma Graph.Facing.sortPair {G : Graph} (h : G.Facing a b) (t t' : Tag) :
    G.Facing (sortPair t t' a b).1 (sortPair t t' a b).2 := by
  simp only [LinEngine.sortPair]
  split_ifs
  · exact h.symm
  · exact h

/-- Firing a live redex of a sound net refines a rule of the graph and leaves the net sound. -/
theorem netInteract_spec (hser : g.inParallel = false) (hn : Sound n) {p q : Port}
    (hl : redexLive n p q = true) (hfire : (netInteract g n p q).1 = true) :
    Fires (sortPair (n.tag.get p.node) (n.tag.get q.node) p.node q.node).1
      (sortPair (n.tag.get p.node) (n.tag.get q.node) p.node q.node).2 n.graph
      (netInteract g n p q).2.graph ∧ Sound (netInteract g n p q).2 := by
  obtain ⟨hf, -, -⟩ := redexLive_facing hn.wired hl
  by_cases hr : (n.tag.get q.node).rank < (n.tag.get p.node).rank
  · simp only [netInteract, sortPair, hr, if_true] at hfire ⊢
    exact interactSorted_spec hser hn hf.symm hfire
  · simp only [netInteract, sortPair, hr, if_false] at hfire ⊢
    exact interactSorted_spec hser hn hf hfire

end Spec

end LinEngine
