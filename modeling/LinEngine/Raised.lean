import LinEngine.Regauge

/-!
# Fans above the root level

A fan is never given a new gauge: the rules copy the gauges of the fans they meet, and
nothing else of a reduction touches them. Where no fan of a net has the root level for its
gauge, none has it after a reduction.
-/
namespace LinEngine

/-- No slot that is a fan, alive or dead, has the root level for its gauge. -/
structure Raised (n : Net) : Prop where
  trie : TrieOk n
  fan : ∀ v, n.tag.get v = .dup → 0 < lvDepth n (n.scope.get v)

/-- Levels were only added, to a trie that stayed one. -/
def Taller (n m : Net) : Prop := TrieOk n → TrieOk m ∧ n.levels <+: m.levels

namespace Taller

variable {n m k : Net} {g : Globals}

lemma trans (h : Taller n m) (h' : Taller m k) : Taller n k := fun hn =>
  ⟨(h' (h hn).1).1, (h hn).2.trans (h' (h hn).1).2⟩

lemma of_eq (h : m.levels = n.levels) : Taller n m := fun hn => ⟨hn.congr h, by rw [h]⟩

lemma of_interned {path : List ℕ} {r : ℕ × Net} (h : TrieOk n → Interned n path r) : Taller n r.2 := fun hn =>
  ⟨(h hn).trieOk, (h hn).grown.grown⟩

lemma netAlloc (g : Globals) (n : Net) (t : Tag) (s : ℕ) : Taller n (netAlloc g n t s).2 := by
  refine of_eq ?_
  unfold LinEngine.netAlloc
  split <;> rfl

lemma wane (h : Waning n m) : Taller n m := of_eq h.levels

lemma split2 (g : Globals) (n : Net) (t1 : Tag) (sa sb : ℕ) (t2 : Tag) (s2 : ℕ) :
    Taller n (split2 g n t1 sa sb t2 s2).2 := by
  have hlink := fun n a b e => wane ((Waning.linking g).netLink n a b e)
  unfold LinEngine.split2
  dsimp only
  refine trans ((netAlloc g n t1 sa).trans ((netAlloc g _ t1 sb).trans ((netAlloc g _ t2 s2).trans (netAlloc g _ t2 s2)))) ?_
  exact (hlink _ _ _ _).trans ((hlink _ _ _ _).trans ((hlink _ _ _ _).trans (hlink _ _ _ _)))

lemma retire (g : Globals) (n : Net) (a b : ℕ) : Taller n (retire g n a b) := wane (Waning.retire g n a b)

lemma linkCopies (g : Globals) (n : Net) (a b : ℕ) (t : Fin 4 → Option Port) (cp : Fin 4 → ℕ) :
    Taller n (linkCopies g n a b t cp) := wane ((Waning.linking g).linkCopies n a b t cp)

lemma interactSorted (g : Globals) (n : Net) (a b : ℕ) : Taller n (interactSorted g n a b).2 := by
  rw [interactSorted_eq]
  cases ruleOf n a b with
  | beta => exact (wane ((Waning.linking g).pairBoundary n a b _)).trans (retire g _ a b)
  | annihilate => exact (wane ((Waning.linking g).pairBoundary n a b _)).trans (retire g _ a b)
  | copyFan => exact (split2 g n _ _ _ _ _).trans ((linkCopies g _ a b _ _).trans (retire g _ a b))
  | copyValue =>
    have hlabel : ∀ (n : Net) (gen s s' : ℕ), Taller n (lvlPrefix2 n gen s s').2 := fun n gen s s' =>
      of_interned fun hn => lvlPrefix2_spec hn gen s s'
    exact ((hlabel n 1 _ _).trans (hlabel _ 2 _ _)).trans
      ((split2 g _ _ _ _ _ _).trans ((linkCopies g _ a b _ _).trans (retire g _ a b)))
  | inert => exact of_eq rfl

lemma netInteract (g : Globals) (n : Net) (p q : Port) : Taller n (netInteract g n p q).2 := by
  unfold LinEngine.netInteract
  split_ifs
  · exact interactSorted g n q.node p.node
  · exact interactSorted g n p.node q.node

end Taller

/-- A level that is there stays as deep as it is. -/
lemma lvDepth_prefix {n m : Net} (h : n.levels <+: m.levels) {l : ℕ} (hl : 0 < lvDepth n l) : lvDepth m l = lvDepth n l := by
  unfold lvDepth at hl ⊢
  by_cases h0 : l = 0
  · rw [if_pos h0] at hl
    exact absurd hl (by decide)
  rw [if_neg h0] at hl ⊢
  rw [if_neg h0]
  obtain ⟨t, ht⟩ := h
  cases hget : n.levels[l - 1]? with
  | none => rw [hget] at hl; exact absurd hl (by decide)
  | some e => rw [← ht, List.getElem?_append_left (List.getElem?_eq_some_iff.1 hget).1, hget]

namespace Raised

variable {n m : Net} {g : Globals}

/-- The fans of `m` have the gauges of fans of `n`. -/
lemma later (h : Raised n) (hm : Taller n m)
    (hfan : ∀ v, m.tag.get v = .dup → ∃ u, n.tag.get u = .dup ∧ n.scope.get u = m.scope.get v) : Raised m := by
  refine ⟨(hm h.trie).1, fun v hv => ?_⟩
  obtain ⟨u, hu, hs⟩ := hfan v hv
  have hdepth := h.fan u hu
  rw [← hs, lvDepth_prefix (hm h.trie).2 hdepth]
  exact hdepth

lemma wane (h : Raised n) (hw : Waning n m) : Raised m :=
  h.later (.wane hw) fun v hv => ⟨v, (hw.fan hv).1, (hw.fan hv).2.1.symm⟩

lemma netInteract (h : Raised n) (g : Globals) (p q : Port) : Raised (netInteract g n p q).2 := by
  refine h.later (.netInteract g n p q) fun v hv => ?_
  rcases netInteract_fansFrom g n p q v hv with ⟨ht, hs, -⟩ | ⟨u, -, ht, hs⟩
  · exact ⟨v, ht, hs.symm⟩
  · exact ⟨u, ht, hs⟩

lemma sameGraph (h : Raised n) (hs : SameGraph n m) : Raised m :=
  h.wane (.of_eq hs.nn hs.scope hs.levels hs.tag hs.dead)

lemma fireStep (g : Globals) {r : Run} (h : Raised r.net) (a : Port × Port) : Raised (fireStep g r a).net := by
  unfold LinEngine.fireStep
  split_ifs with hlive
  · exact h
  · have hfired := h.netInteract g a.1 a.2
    have hqueue : Raised (if (LinEngine.netInteract g r.net a.1 a.2).1 then (LinEngine.netInteract g r.net a.1 a.2).2 else
        if bothAlive (LinEngine.netInteract g r.net a.1 a.2).2 a then actPush (LinEngine.netInteract g r.net a.1 a.2).2 a.1 a.2
        else (LinEngine.netInteract g r.net a.1 a.2).2) := by
      split_ifs
      · exact hfired
      · exact hfired.wane (Waning.push _ a.1 a.2)
      · exact hfired
    exact hqueue.wane (.of_eq rfl rfl rfl rfl rfl)

lemma netFlushFree (h : Raised n) (g : Globals) : Raised (netFlushFree g n) := by
  have hloop : ∀ (fuel : ℕ) (n : Net), Waning n (flushLoop fuel n) := by
    intro fuel
    induction fuel with
    | zero => exact .refl
    | succ fuel ih =>
      intro n
      unfold flushLoop
      cases n.pendHead with
      | none => exact .refl n
      | some v =>
        refine Waning.trans ?_ (ih _)
        exact .of_eq rfl rfl rfl rfl rfl
  unfold LinEngine.netFlushFree
  split_ifs
  · exact h
  · exact h.wane (hloop _ n)

lemma netGc (h : Raised n) : Raised (netGc n) := by
  have hslot : ∀ (n : Net) (v : ℕ), Waning n (freeSlot n v) := by
    intro n v
    refine ⟨rfl, rfl, rfl, fun u => ?_⟩
    by_cases hu : v = u
    · subst hu
      exact .inr ⟨Table.get_set_self _ _ _, Table.get_set_self _ _ _⟩
    · refine .inl ⟨Table.get_set_ne _ hu _, fun hd => ?_⟩
      exact (Table.get_set_ne _ hu _).trans hd
  have hsweep : ∀ (marked vs : List ℕ) (n : Net), Waning n (vs.foldl (sweepStep marked) n) := by
    intro marked vs
    induction vs with
    | nil => exact .refl
    | cons v vs ih =>
      intro n
      refine Waning.trans ?_ (ih _)
      unfold sweepStep
      split_ifs
      · exact .refl n
      · exact hslot n v
  unfold LinEngine.netGc
  split_ifs
  · exact h
  · refine h.wane (Waning.trans ?_ (hsweep _ _ _))
    exact .of_eq rfl rfl rfl rfl rfl

lemma reduceWave {r : Run} (h : Raised r.net) (g : Globals) : Raised (reduceWave g r).net := by
  have hfire : ∀ (as : List (Port × Port)) (r : Run), Raised r.net → Raised (as.foldl (LinEngine.fireStep g) r).net := by
    intro as
    induction as with
    | nil => exact fun r hr => hr
    | cons a as ih => exact fun r hr => ih _ (fireStep g hr a)
  unfold LinEngine.reduceWave
  dsimp only
  exact (hfire _ _ (h.sameGraph (netMarkDemand_marked g r.net).graph)).netFlushFree g

lemma reduceWaves {r : Run} (h : Raised r.net) (g : Globals) (limit fuel : ℕ) : Raised (reduceWaves g limit fuel r).net := by
  induction fuel generalizing r with
  | zero => exact h
  | succ fuel ih =>
    unfold LinEngine.reduceWaves
    split_ifs
    · dsimp only
      split_ifs
      · exact h.reduceWave g
      · exact ih (h.reduceWave g)
    · exact h

lemma reduceLoop {r : Run} (h : Raised r.net) (g : Globals) (limit fuel : ℕ) (mark : ℤ) :
    Raised (reduceLoop g limit fuel mark r).net := by
  induction fuel generalizing r mark with
  | zero => exact h
  | succ fuel ih =>
    unfold LinEngine.reduceLoop
    split_ifs with hlimit
    · extract_lets w gc w' mark'
      have hw : Raised w.net := reduceWaves (r := { r with changed := 0 }) h g limit _
      have hw' : Raised w'.net := by
        simp only [w']
        split_ifs
        · exact hw.netGc
        · exact hw
      split_ifs
      · exact hw'
      · exact ih hw' _
    · exact h

lemma netReduce (h : Raised n) (g : Globals) (gcenv : Option ℕ) (limit : ℕ) : Raised (netReduce g gcenv limit n) := by
  unfold LinEngine.netReduce reduceRun
  exact (reduceLoop (r := ⟨n, 0, []⟩) h _ limit _ _).netFlushFree _

lemma netForce (h : Raised n) (g : Globals) (gcenv : Option ℕ) (p : Port) : Raised (netForce g gcenv n p) := by
  have hdem : Raised (linDemand n p) := by
    unfold linDemand
    split_ifs
    · exact h
    · exact h
    · exact h.wane (.of_eq rfl rfl rfl rfl rfl)
  unfold LinEngine.netForce
  split_ifs
  · exact h
  · refine Raised.wane (n := (forceRun g gcenv n p).net) ?_ (.of_eq rfl rfl rfl rfl rfl)
    exact hdem.netReduce g gcenv _

end Raised

end LinEngine
