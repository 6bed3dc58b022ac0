import LinEngine.Wiring

/-!
# Joining the boundary of a pair

`pairBoundary` handles the classes of the pair's ports one after the other on a
net that it changes as it goes. Here the result is read off the net before the
first change: each outside port that led into the pair is wired to the other end
of its class, or disconnected when there is none.
-/
namespace LinEngine

/-- Outside the pair. -/
def Outside (n1 n2 : ℕ) (p : Port) : Prop := p.node ≠ n1 ∧ p.node ≠ n2

/-- The port a pair port leads to outside the pair. -/
def endAt (n : Net) (n1 n2 : ℕ) (j : Fin 6) : Option Port :=
  let w := n.wireAt (pairPort n1 n2 j)
  if (insidePair n1 n2 w).isSome then none else w

def endsOf (n : Net) (n1 n2 : ℕ) (cls : List (Fin 6)) : List Port := cls.filterMap (endAt n n1 n2)

/-- The end a class joins `p` to. -/
def partner (ends : List Port) (p : Port) : Option Port :=
  match ends with
  | [e, e'] => if p = e then some e' else some e
  | _ => none

def inClass (n1 n2 : ℕ) (q : Port) (cls : List (Fin 6)) : Bool :=
  cls.any (fun j => decide (pairPort n1 n2 j = q))

/-- The wire of `p` once the classes `L` are joined, read off the net before. -/
def newWire (n : Net) (n1 n2 : ℕ) (L : List (List (Fin 6))) (p : Port) : Option Port :=
  match n.wireAt p with
  | none => none
  | some q =>
    match L.find? (inClass n1 n2 q) with
    | none => some q
    | some cls => partner (endsOf n n1 n2 cls) p

lemma pairPort_node (n1 n2 : ℕ) (j : Fin 6) :
    (pairPort n1 n2 j).node = n1 ∨ (pairPort n1 n2 j).node = n2 := by
  fin_cases j <;> simp [pairPort]

lemma pairPort_not_outside (n1 n2 : ℕ) (j : Fin 6) : ¬ Outside n1 n2 (pairPort n1 n2 j) := by
  rcases pairPort_node n1 n2 j with h | h <;> simp [Outside, h]

lemma exists_pairPort {n1 n2 : ℕ} {p : Port} (h : ¬ Outside n1 n2 p) :
    ∃ j, p = pairPort n1 n2 j := by
  obtain ⟨v, k⟩ := p
  have hv : v = n1 ∨ v = n2 := by
    by_contra hn
    exact h ⟨fun h' => hn (Or.inl h'), fun h' => hn (Or.inr h')⟩
  rcases hv with rfl | rfl
  · fin_cases k
    exacts [⟨0, rfl⟩, ⟨1, rfl⟩, ⟨2, rfl⟩]
  · fin_cases k
    exacts [⟨3, rfl⟩, ⟨4, rfl⟩, ⟨5, rfl⟩]

lemma pairPort_inj {n1 n2 : ℕ} (h : n1 ≠ n2) {i j : Fin 6}
    (he : pairPort n1 n2 i = pairPort n1 n2 j) : i = j := by
  fin_cases i <;> fin_cases j <;> simp [pairPort, h, Ne.symm h] at he ⊢

lemma insidePair_none {n1 n2 : ℕ} {q : Port} :
    insidePair n1 n2 (some q) = none ↔ Outside n1 n2 q := by
  simp only [insidePair, Outside]
  split_ifs <;> simp_all

lemma endAt_eq_some {n : Net} {n1 n2 : ℕ} {j : Fin 6} {q : Port} :
    endAt n n1 n2 j = some q ↔ n.wireAt (pairPort n1 n2 j) = some q ∧ Outside n1 n2 q := by
  simp only [endAt]
  cases hw : n.wireAt (pairPort n1 n2 j) with
  | none => simp [insidePair]
  | some w =>
    by_cases ho : Outside n1 n2 w
    · simp only [insidePair_none.mpr ho, Option.isSome_none, Bool.false_eq_true, if_false,
        Option.some.injEq]
      constructor
      · rintro rfl
        exact ⟨rfl, ho⟩
      · exact fun h => h.1
    · have hs : (insidePair n1 n2 (some w)).isSome = true := by
        rw [← Option.ne_none_iff_isSome]
        exact fun h => ho (insidePair_none.mp h)
      simp only [hs, if_true, Option.some.injEq]
      constructor
      · intro h
        exact absurd h (by simp)
      · rintro ⟨rfl, h⟩
        exact absurd h ho

lemma mem_endsOf {n : Net} {n1 n2 : ℕ} {cls : List (Fin 6)} {q : Port} :
    q ∈ endsOf n n1 n2 cls ↔
      ∃ j ∈ cls, n.wireAt (pairPort n1 n2 j) = some q ∧ Outside n1 n2 q := by
  simp only [endsOf, List.mem_filterMap, endAt_eq_some]

/-- The net between two classes: the pair is alive, and the wires between the outside
and the ports of the classes `L` still to come are as a well-wired net has them. -/
structure Midway (n1 n2 : ℕ) (L : List (List (Fin 6))) (n : Net) : Prop where
  pins : n.pins = 0
  ne : n1 ≠ n2
  live1 : n.live n1 = true
  live2 : n.live n2 = true
  prin1 : n.wireAt ⟨n1, 0⟩ = some ⟨n2, 0⟩
  prin2 : n.wireAt ⟨n2, 0⟩ = some ⟨n1, 0⟩
  outside : ∀ p q, n.live p.node = true → Outside n1 n2 p → n.wireAt p = some q →
    n.live q.node = true ∧ n.wireAt q = some p ∧ q ≠ p ∧
      (¬ Outside n1 n2 q → ∃ j ∈ L.flatten, q = pairPort n1 n2 j)
  inward : ∀ j ∈ L.flatten, ∀ q, Outside n1 n2 q → n.wireAt (pairPort n1 n2 j) = some q →
    n.live q.node = true ∧ n.wireAt q = some (pairPort n1 n2 j)

lemma wired_midway {n : Net} (hn : Wired n) {n1 n2 : ℕ} (hpins : n.pins = 0) (hne : n1 ≠ n2)
    (h1 : n.live n1 = true) (h2 : n.live n2 = true) (hp : n.wireAt ⟨n1, 0⟩ = some ⟨n2, 0⟩)
    {L : List (List (Fin 6))} (hL : ∀ j, j ∈ L.flatten) : Midway n1 n2 L n where
  pins := hpins
  ne := hne
  live1 := h1
  live2 := h2
  prin1 := hp
  prin2 := (hn _ _ h1 hp).2.1
  outside p q hl _ hw := by
    obtain ⟨ha, hb, hc⟩ := hn p q hl hw
    refine ⟨ha, hb, hc, fun ho => ?_⟩
    obtain ⟨j, hj⟩ := exists_pairPort ho
    exact ⟨j, hL j, hj⟩
  inward j _ q _ hw := by
    have hl : n.live (pairPort n1 n2 j).node = true := by
      rcases pairPort_node n1 n2 j with h | h <;> rw [h] <;> assumption
    obtain ⟨ha, hb, _⟩ := hn _ q hl hw
    exact ⟨ha, hb⟩

/-- What joining the classes `L` does, stated on the net before. -/
structure Joined (n1 n2 : ℕ) (L : List (List (Fin 6))) (n n' : Net) : Prop where
  frame : Frame n n'
  live : ∀ v, n'.live v = true ↔ n.live v = true ∧ (v = n1 ∨ v = n2 ∨
    (∀ p : Port, p.node = v → n.wireAt p = none) ∨
      ∃ p : Port, p.node = v ∧ newWire n n1 n2 L p ≠ none)
  wire : ∀ p : Port, n'.live p.node = true → Outside n1 n2 p →
    n'.wireAt p = newWire n n1 n2 L p
  pair : ∀ p : Port, ¬ Outside n1 n2 p → n'.wireAt p = n.wireAt p ∨ n'.wireAt p = none
  keep : ∀ p : Port, ¬ Outside n1 n2 p → (∀ j ∈ L.flatten, p ≠ pairPort n1 n2 j) →
    n'.wireAt p = n.wireAt p
  cut : ∀ j ∈ L.flatten, ∀ q, n'.wireAt (pairPort n1 n2 j) = some q → Outside n1 n2 q →
    n'.live q.node = true ∧ ∃ r, n'.wireAt q = some r ∧ Outside n1 n2 r ∧ n'.live r.node = true

section Classes

variable {n1 n2 : ℕ} {cls : List (Fin 6)} {L : List (List (Fin 6))} {n n' : Net}

lemma inClass_iff {q : Port} : inClass n1 n2 q cls = true ↔ ∃ j ∈ cls, pairPort n1 n2 j = q := by
  simp [inClass]

lemma inClass_outside {q : Port} (h : Outside n1 n2 q) : inClass n1 n2 q cls = false := by
  rw [Bool.eq_false_iff, ne_eq, inClass_iff]
  rintro ⟨j, _, rfl⟩
  exact pairPort_not_outside n1 n2 j h

lemma newWire_none {p : Port} (h : n.wireAt p = none) : newWire n n1 n2 L p = none := by
  simp [newWire, h]

lemma newWire_outside {p q : Port} (h : n.wireAt p = some q) (hq : Outside n1 n2 q) :
    newWire n n1 n2 L p = some q := by
  have : L.find? (inClass n1 n2 q) = none := by
    rw [List.find?_eq_none]
    intro cls _
    simp [inClass_outside hq]
  simp [newWire, h, this]

lemma newWire_head {p : Port} {j : Fin 6} (hj : j ∈ cls)
    (h : n.wireAt p = some (pairPort n1 n2 j)) :
    newWire n n1 n2 (cls :: L) p = partner (endsOf n n1 n2 cls) p := by
  have : inClass n1 n2 (pairPort n1 n2 j) cls = true := inClass_iff.mpr ⟨j, hj, rfl⟩
  simp [newWire, h, this]

lemma endsOf_congr (h : ∀ j ∈ cls, n'.wireAt (pairPort n1 n2 j) = n.wireAt (pairPort n1 n2 j)) :
    endsOf n' n1 n2 cls = endsOf n n1 n2 cls := by
  refine List.filterMap_congr fun j hj => ?_
  simp only [endAt, h j hj]

/-- A port the first class leaves alone reads the same off the later net. -/
lemma newWire_tail {p : Port} (hp : n'.wireAt p = n.wireAt p)
    (hnot : ∀ j ∈ cls, n.wireAt p ≠ some (pairPort n1 n2 j))
    (hL : ∀ j ∈ L.flatten, n'.wireAt (pairPort n1 n2 j) = n.wireAt (pairPort n1 n2 j)) :
    newWire n' n1 n2 L p = newWire n n1 n2 (cls :: L) p := by
  simp only [newWire, hp]
  cases hw : n.wireAt p with
  | none => rfl
  | some q =>
    have hq : inClass n1 n2 q cls = false := by
      rw [Bool.eq_false_iff, ne_eq, inClass_iff]
      rintro ⟨j, hj, rfl⟩
      exact hnot j hj hw
    simp only [List.find?_cons, hq]
    cases hf : L.find? (inClass n1 n2 q) with
    | none => rfl
    | some c =>
      have hc : c ∈ L := List.mem_of_find?_eq_some hf
      have : endsOf n' n1 n2 c = endsOf n n1 n2 c :=
        endsOf_congr fun j hj => hL j (List.mem_flatten.mpr ⟨c, hc, hj⟩)
      simp only [this]

/-- A port led into the class is one of the ends of the class. -/
lemma Midway.mem_endsOf (hm : Midway n1 n2 (cls :: L) n) {p : Port} {j : Fin 6} (hj : j ∈ cls)
    (hl : n.live p.node = true) (ho : Outside n1 n2 p)
    (hw : n.wireAt p = some (pairPort n1 n2 j)) : p ∈ endsOf n n1 n2 cls :=
  LinEngine.mem_endsOf.mpr ⟨j, hj, (hm.outside p _ hl ho hw).2.1, ho⟩

lemma Midway.of_mem_endsOf (hm : Midway n1 n2 (cls :: L) n) {e : Port}
    (he : e ∈ endsOf n n1 n2 cls) : Outside n1 n2 e ∧ n.live e.node = true ∧
      ∃ j ∈ cls, n.wireAt e = some (pairPort n1 n2 j) ∧ n.wireAt (pairPort n1 n2 j) = some e := by
  obtain ⟨j, hj, hw, ho⟩ := LinEngine.mem_endsOf.mp he
  obtain ⟨hl, hb⟩ := hm.inward j (by simp [hj]) e ho hw
  exact ⟨ho, hl, j, hj, hb, hw⟩

lemma Midway.endsOf_nodup (hm : Midway n1 n2 (cls :: L) n) (hc : cls.Nodup) :
    (endsOf n n1 n2 cls).Nodup := by
  rw [endsOf, List.Nodup, List.pairwise_filterMap]
  refine hc.imp_of_mem fun {i j} hi hj hij e he e' he' hee => hij ?_
  subst hee
  obtain ⟨hwi, ho⟩ := endAt_eq_some.mp he
  obtain ⟨hwj, _⟩ := endAt_eq_some.mp he'
  have hbi := (hm.inward i (by simp [hi]) e ho hwi).2
  have hbj := (hm.inward j (by simp [hj]) e ho hwj).2
  exact pairPort_inj hm.ne (Option.some.inj (hbi.symm.trans hbj))

/-! ### One class -/

/-- The wire of an outside port after the class with these ends is handled. -/
def rewire (ends : List Port) (n : Net) (p : Port) : Option Port :=
  if p ∈ ends then partner ends p else n.wireAt p

/-- What handling the class with these ends does. -/
structure ClassStep (n1 n2 : ℕ) (ends : List Port) (n n' : Net) : Prop where
  frame : Frame n n'
  live : ∀ v, n'.live v = true ↔ n.live v = true ∧ (v = n1 ∨ v = n2 ∨
    (∀ p : Port, p.node = v → n.wireAt p = none) ∨
      ∃ p : Port, p.node = v ∧ rewire ends n p ≠ none)
  wire : ∀ p : Port, n'.live p.node = true → Outside n1 n2 p → n'.wireAt p = rewire ends n p
  keep : ∀ p : Port, ¬ Outside n1 n2 p → (∀ e ∈ ends, n.wireAt e ≠ some p) →
    n'.wireAt p = n.wireAt p
  cut : ∀ p : Port, ¬ Outside n1 n2 p → ∀ e ∈ ends, n.wireAt e = some p →
    n'.wireAt p = n.wireAt p ∧ partner ends e ≠ none ∨ n'.wireAt p = none

lemma partner_mem {ends : List Port} {p q : Port} (h : partner ends p = some q) : q ∈ ends := by
  unfold partner at h
  split at h
  · split_ifs at h <;> simp_all
  · exact absurd h (by simp)

lemma partner_comm {ends : List Port} (hd : ends.Nodup) {p q : Port} (hp : p ∈ ends)
    (h : partner ends p = some q) : partner ends q = some p ∧ q ≠ p := by
  unfold partner at h ⊢
  split at h
  · rename_i e e'
    simp only [List.nodup_cons, List.mem_cons, List.not_mem_nil, or_false] at hd hp
    have hne : e ≠ e' := hd.1
    rcases hp with rfl | rfl
    · have hq : e' = q := by simpa using h
      simp [← hq, Ne.symm hne]
    · have hq : e = q := by simpa [Ne.symm hne] using h
      simp [← hq, hne]
  · exact absurd h (by simp)

lemma newWire_single (hm : Midway n1 n2 (cls :: L) n) {p : Port} (hl : n.live p.node = true)
    (ho : Outside n1 n2 p) :
    newWire n n1 n2 [cls] p = rewire (endsOf n n1 n2 cls) n p := by
  by_cases hp : p ∈ endsOf n n1 n2 cls
  · obtain ⟨_, _, j, hj, hw, _⟩ := hm.of_mem_endsOf hp
    rw [newWire_head hj hw, rewire, if_pos hp]
  · rw [rewire, if_neg hp, newWire]
    cases hw : n.wireAt p with
    | none => rfl
    | some q =>
      have hq : inClass n1 n2 q cls = false := by
        rw [Bool.eq_false_iff, ne_eq, inClass_iff]
        rintro ⟨j, hj, rfl⟩
        exact hp (hm.mem_endsOf hj hl ho hw)
      simp [hq]

lemma ClassStep.live_outside (hs : ClassStep n1 n2 (endsOf n n1 n2 cls) n n') {p q : Port}
    (hl : n.live p.node = true) (hw : rewire (endsOf n n1 n2 cls) n p = some q) :
    n'.live p.node = true :=
  (hs.live _).mpr ⟨hl, Or.inr (Or.inr (Or.inr ⟨p, rfl, by rw [hw]; simp⟩))⟩

/-- After a class, the net is as before with the remaining classes. -/
lemma ClassStep.midway (hm : Midway n1 n2 (cls :: L) n) (hd : (cls :: L).flatten.Nodup)
    (hs : ClassStep n1 n2 (endsOf n n1 n2 cls) n n') : Midway n1 n2 L n' := by
  rw [List.flatten_cons, List.nodup_append] at hd
  have hends := hm.endsOf_nodup hd.1
  have hprin : ∀ k k', ¬ Outside n1 n2 ⟨k', 0⟩ → n.wireAt ⟨k, 0⟩ = some ⟨k', 0⟩ →
      ∀ e ∈ endsOf n n1 n2 cls, n.wireAt e ≠ some ⟨k, 0⟩ := by
    intro k k' hk hw e he h
    obtain ⟨heo, _, j, _, hwe, hback⟩ := hm.of_mem_endsOf he
    rw [← Option.some.inj (h.symm.trans hwe), hw, Option.some.injEq] at hback
    exact hk (hback ▸ heo)
  refine ⟨hs.frame.pins.trans hm.pins, hm.ne, (hs.live n1).mpr ⟨hm.live1, by simp⟩,
    (hs.live n2).mpr ⟨hm.live2, by simp⟩, ?_, ?_, fun p q hl ho hw => ?_, fun j hj q ho hw => ?_⟩
  · rw [hs.keep _ (by simp [Outside]) (hprin n1 n2 (by simp [Outside]) hm.prin1), hm.prin1]
  · rw [hs.keep _ (by simp [Outside]) (hprin n2 n1 (by simp [Outside]) hm.prin2), hm.prin2]
  · have hpl := hs.frame.live_of hl
    rw [hs.wire p hl ho] at hw
    by_cases hp : p ∈ endsOf n n1 n2 cls
    · rw [rewire, if_pos hp] at hw
      have hq := partner_mem hw
      obtain ⟨hback, hqp⟩ := partner_comm hends hp hw
      obtain ⟨hqo, hql, _⟩ := hm.of_mem_endsOf hq
      have hre : rewire (endsOf n n1 n2 cls) n q = some p := by rw [rewire, if_pos hq, hback]
      have hql' := hs.live_outside hql hre
      exact ⟨hql', by rw [hs.wire q hql' hqo, hre], hqp, fun h => absurd hqo h⟩
    · rw [rewire, if_neg hp] at hw
      obtain ⟨hql, hback, hqp, hin⟩ := hm.outside p q hpl ho hw
      by_cases hqo : Outside n1 n2 q
      · have hq : q ∉ endsOf n n1 n2 cls := by
          intro hq
          obtain ⟨_, _, j, _, hj, _⟩ := hm.of_mem_endsOf hq
          rw [hback, Option.some.injEq] at hj
          exact pairPort_not_outside n1 n2 j (hj ▸ ho)
        have hre : rewire (endsOf n n1 n2 cls) n q = some p := by rw [rewire, if_neg hq, hback]
        have hql' := hs.live_outside hql hre
        exact ⟨hql', by rw [hs.wire q hql' hqo, hre], hqp, fun h => absurd hqo h⟩
      · obtain ⟨j, hj, rfl⟩ := hin hqo
        rw [List.flatten_cons, List.mem_append] at hj
        have hjL : j ∈ L.flatten := hj.resolve_left fun h => hp (hm.mem_endsOf h hpl ho hw)
        refine ⟨(hs.live _).mpr ⟨hql, ?_⟩, ?_, hqp, fun _ => ⟨j, hjL, rfl⟩⟩
        · rcases pairPort_node n1 n2 j with h | h
          · exact Or.inl h
          · exact Or.inr (Or.inl h)
        · rw [hs.keep _ hqo ?_, hback]
          intro e he h
          obtain ⟨_, _, i, _, hwe, hie⟩ := hm.of_mem_endsOf he
          rw [← Option.some.inj (h.symm.trans hwe), hback, Option.some.injEq] at hie
          exact hp (hie ▸ he)
  · have hjo := pairPort_not_outside n1 n2 j
    have hne : ∀ e ∈ endsOf n n1 n2 cls, n.wireAt e ≠ some (pairPort n1 n2 j) := by
      intro e he h
      obtain ⟨_, _, i, hi, hwe, _⟩ := hm.of_mem_endsOf he
      exact hd.2.2 i hi j hj (pairPort_inj hm.ne (Option.some.inj (hwe.symm.trans h)))
    rw [hs.keep _ hjo hne] at hw
    obtain ⟨hql, hback⟩ := hm.inward j
      (by simp only [List.flatten_cons, List.mem_append]; exact Or.inr hj) q ho hw
    have hq : q ∉ endsOf n n1 n2 cls := fun h => hne q h hback
    have hre : rewire (endsOf n n1 n2 cls) n q = some (pairPort n1 n2 j) := by
      rw [rewire, if_neg hq, hback]
    have hql' := hs.live_outside hql hre
    exact ⟨hql', by rw [hs.wire q hql' ho, hre]⟩

lemma ClassStep.joined (hm : Midway n1 n2 (cls :: L) n) (hc : cls.Nodup)
    (hs : ClassStep n1 n2 (endsOf n n1 n2 cls) n n') : Joined n1 n2 [cls] n n' := by
  have hends := hm.endsOf_nodup hc
  have hpair : ∀ p : Port, ¬ Outside n1 n2 p → n'.wireAt p = n.wireAt p ∨ n'.wireAt p = none := by
    intro p hp
    by_cases he : ∃ e ∈ endsOf n n1 n2 cls, n.wireAt e = some p
    · obtain ⟨e, he, hw⟩ := he
      exact (hs.cut p hp e he hw).imp_left And.left
    · exact Or.inl (hs.keep p hp fun e h hw => he ⟨e, h, hw⟩)
  refine ⟨hs.frame, fun v => ?_, fun p hl ho => ?_, hpair, fun p hp hnot => ?_,
    fun j hj q hw ho => ?_⟩
  · rw [hs.live]
    refine and_congr_right fun hv => ?_
    by_cases h1 : v = n1
    · simp [h1]
    by_cases h2 : v = n2
    · simp [h2]
    refine or_congr_right (or_congr_right (or_congr_right (exists_congr fun p => ?_)))
    refine and_congr_right fun hp => ?_
    subst hp
    rw [newWire_single hm hv ⟨h1, h2⟩]
  · rw [hs.wire p hl ho, newWire_single hm (hs.frame.live_of hl) ho]
  · refine hs.keep p hp fun e he hw => ?_
    obtain ⟨_, _, j, hj, hwe, _⟩ := hm.of_mem_endsOf he
    exact hnot j (by simpa using hj) (Option.some.inj (hw.symm.trans hwe))
  · have hjo := pairPort_not_outside n1 n2 j
    have hwn : n.wireAt (pairPort n1 n2 j) = some q := by
      rcases hpair _ hjo with h | h
      · rw [← h, hw]
      · rw [hw] at h
        exact absurd h (by simp)
    have hq : q ∈ endsOf n n1 n2 cls := LinEngine.mem_endsOf.mpr ⟨j, by simpa using hj, hwn, ho⟩
    have hback := (hm.inward j (by simpa using Or.inl (by simpa using hj)) q ho hwn).2
    rcases hs.cut _ hjo q hq hback with ⟨_, hr⟩ | h
    · obtain ⟨r, hr⟩ := Option.ne_none_iff_exists'.mp hr
      obtain ⟨hback, _⟩ := partner_comm hends hq hr
      have hrm := partner_mem hr
      obtain ⟨hqo, hql, _⟩ := hm.of_mem_endsOf hq
      obtain ⟨hro, hrl, _⟩ := hm.of_mem_endsOf hrm
      have h1 : rewire (endsOf n n1 n2 cls) n q = some r := by rw [rewire, if_pos hq, hr]
      have h2 : rewire (endsOf n n1 n2 cls) n r = some q := by rw [rewire, if_pos hrm, hback]
      have hql' := hs.live_outside hql h1
      exact ⟨hql', r, by rw [hs.wire q hql' hqo, h1], hro, hs.live_outside hrl h2⟩
    · rw [hw] at h
      exact absurd h (by simp)

/-- The pair port that a severed end leads to keeps its node: the principal wire stays. -/
lemma Midway.principal (hm : Midway n1 n2 L n) {e x : Port} (he : Outside n1 n2 e)
    (hx : ¬ Outside n1 n2 x) (hw : n.wireAt x = some e) :
    n.live x.node = true ∧ x.node ≠ e.node ∧ ∃ p w : Port, p.node = x.node ∧ p ≠ x ∧
      n.wireAt p = some w ∧ n.live w.node = true ∧ w.node ≠ e.node := by
  have hnode : x.node = n1 ∨ x.node = n2 := by
    by_contra h
    exact hx ⟨fun h' => h (Or.inl h'), fun h' => h (Or.inr h')⟩
  rcases hnode with h | h
  · refine ⟨h ▸ hm.live1, h ▸ he.1.symm, ⟨n1, 0⟩, ⟨n2, 0⟩, h.symm, ?_, hm.prin1, hm.live2,
      he.2.symm⟩
    rintro rfl
    rw [hm.prin1, Option.some.injEq] at hw
    exact he.2 (hw ▸ rfl)
  · refine ⟨h ▸ hm.live2, h ▸ he.2.symm, ⟨n2, 0⟩, ⟨n1, 0⟩, h.symm, ?_, hm.prin2, hm.live1,
      he.1.symm⟩
    rintro rfl
    rw [hm.prin2, Option.some.injEq] at hw
    exact he.1 (hw ▸ rfl)

lemma classStep_nil (n1 n2 : ℕ) (n : Net) : ClassStep n1 n2 [] n n where
  frame := .refl n
  live v := by
    refine ⟨fun h => ⟨h, Or.inr (Or.inr ?_)⟩, And.left⟩
    by_cases hall : ∀ p : Port, p.node = v → n.wireAt p = none
    · exact Or.inl hall
    · push Not at hall
      exact Or.inr (by simpa [rewire] using hall)
  wire p _ _ := by simp [rewire]
  keep _ _ _ := rfl
  cut p _ e he := absurd he (by simp)

/-- A class with one outside end disconnects it. -/
lemma Midway.classStep_one (hm : Midway n1 n2 L n) {g : Globals} (hg : g.inParallel = false)
    {e x : Port} (ho : Outside n1 n2 e) (hl : n.live e.node = true) (hxo : ¬ Outside n1 n2 x)
    (hwe : n.wireAt e = some x) (hwx : n.wireAt x = some e) :
    ClassStep n1 n2 [e] n (netSever g n e) := by
  obtain ⟨hxl, hxe, hkeep⟩ := hm.principal ho hxo hwx
  have hs : Severed e x n (netSever g n e) := by
    refine netSever_spec hg hm.pins hl hxl hwe hwx hxe (fun p hp w hw => ?_) hkeep
    exact (hm.outside p w (hp ▸ hl) (by simpa [Outside, hp] using ho) hw).1
  have hre : ∀ p, rewire [e] n p = if p = e then none else n.wireAt p := by
    intro p
    simp [rewire, partner]
  have hdead : ∀ v, n.dead.get v = true → v ≠ e.node := by
    rintro v hv rfl
    rw [Net.live_iff] at hl
    simp [hl.2] at hv
  refine ⟨⟨hs.nn, hs.scope, hs.levels, hs.freeHead, hs.pins, fun v hv => ?_, fun p hp => ?_,
    hs.tag⟩, fun v => ?_, fun p hp hpo => ?_, fun p hp hne => ?_, fun p _ e' he' hw => ?_⟩
  · rw [hs.deadOther v (hdead v hv), hv]
  · rw [hs.wireOther p (hdead _ hp), if_neg]
    rintro rfl
    rw [Net.live_iff] at hxl
    simp [hxl.2] at hp
  · rw [hs.live]
    refine and_congr_right fun hv => ⟨fun hnot => ?_, ?_⟩
    · by_cases hall : ∀ p : Port, p.node = v → n.wireAt p = none
      · exact Or.inr (Or.inr (Or.inl hall))
      · refine Or.inr (Or.inr (Or.inr ?_))
        by_cases hve : v = e.node
        · have : ∃ p : Port, p.node = v ∧ p ≠ e ∧ n.wireAt p ≠ none := by
            by_contra hno
            push Not at hno
            exact hnot ⟨hve, hno⟩
          obtain ⟨p, hp, hpe, hw⟩ := this
          exact ⟨p, hp, by simpa [hre, hpe] using hw⟩
        · push Not at hall
          obtain ⟨p, hp, hw⟩ := hall
          have hpe : p ≠ e := by
            rintro rfl
            exact hve hp.symm
          exact ⟨p, hp, by simpa [hre, hpe] using hw⟩
    · rintro (h | h | h | ⟨p, hp, hw⟩) ⟨rfl, hall⟩
      · exact ho.1 h
      · exact ho.2 h
      · rw [h e rfl] at hwe
        exact absurd hwe (by simp)
      · by_cases hpe : p = e
        · simp [hre, hpe] at hw
        · simp [hre, hpe, hall p hp hpe] at hw
  · have hpx : p ≠ x := fun h => hxo (h ▸ hpo)
    rw [hs.wire p hp, hre]
    simp [hpx]
  · have hpn : p.node ≠ e.node := by
      intro h
      exact hp (by simpa [Outside, h] using ho)
    rw [hs.wireOther p hpn, if_neg]
    rintro rfl
    exact hne e (by simp) hwe
  · rw [List.mem_singleton] at he'
    subst he'
    rw [hwe, Option.some.injEq] at hw
    subst hw
    exact Or.inr (by rw [hs.wireOther x hxe, if_pos rfl])

/-- A class with two outside ends wires them to each other. -/
lemma classStep_two (g : Globals) {e e' : Port} (ho : Outside n1 n2 e) (ho' : Outside n1 n2 e')
    (hl : n.live e.node = true) (hl' : n.live e'.node = true) (hne : e ≠ e') :
    ClassStep n1 n2 [e, e'] n (netLink g n (some e) (some e') true) := by
  have hk := netLink_linked g n (some e) (some e') true
  have hw : ∀ p, (netLink g n (some e) (some e') true).wireAt p = rewire [e, e'] n p := by
    intro p
    rw [netLink_wireAt]
    by_cases h1 : e' = p
    · simp [rewire, partner, ← h1, Ne.symm hne]
    · by_cases h2 : e = p
      · simp [rewire, partner, ← h2, Ne.symm hne]
      · simp [rewire, h1, h2, Ne.symm h1, Ne.symm h2]
  have hself : ∀ p, p ≠ e → p ≠ e' → rewire [e, e'] n p = n.wireAt p := by
    intro p h h'
    simp [rewire, h, h']
  have hdead : ∀ u : Port, n.live u.node = true → ∀ p : Port, n.dead.get p.node = true → p ≠ u := by
    rintro u hu p hp rfl
    rw [Net.live_iff] at hu
    simp [hu.2] at hp
  have hin : ∀ p, ¬ Outside n1 n2 p → rewire [e, e'] n p = n.wireAt p := by
    refine fun p hp => hself p ?_ ?_
    · rintro rfl
      exact hp ho
    · rintro rfl
      exact hp ho'
  refine ⟨⟨hk.nn, hk.scope, hk.levels, hk.freeHead, hk.pins, fun v hv => by rw [hk.dead, hv],
    fun p hp => ?_, fun v _ => by rw [hk.tag]⟩, fun v => ?_, fun p _ _ => hw p,
    fun p hp _ => by rw [hw, hin p hp], fun p hp q hq _ => Or.inl ⟨by rw [hw, hin p hp], ?_⟩⟩
  · rw [hw, hself p (hdead e hl p hp) (hdead e' hl' p hp)]
  · rw [hk.live]
    refine ⟨fun h => ⟨h, Or.inr (Or.inr ?_)⟩, And.left⟩
    by_cases hall : ∀ p : Port, p.node = v → n.wireAt p = none
    · exact Or.inl hall
    · push Not at hall
      obtain ⟨p, hp, hpw⟩ := hall
      refine Or.inr ⟨p, hp, ?_⟩
      by_cases h1 : p = e
      · simp [rewire, partner, h1]
      · by_cases h2 : p = e'
        · simp [rewire, partner, h2, Ne.symm hne]
        · rwa [hself p h1 h2]
  · rcases List.mem_pair.mp hq with rfl | rfl
    · simp [partner]
    · simp [partner, Ne.symm hne]

lemma joinClass_eq (g : Globals) (n1 n2 : ℕ) (n : Net) (cls : List (Fin 6)) :
    (endsOf n n1 n2 cls = [] → joinClass g n1 n2 n cls = n) ∧
      (∀ e, endsOf n n1 n2 cls = [e] → joinClass g n1 n2 n cls = netSever g n e) ∧
      ∀ e e', endsOf n n1 n2 cls = [e, e'] →
        joinClass g n1 n2 n cls = netLink g n (some e) (some e') true := by
  have hends : (cls.filterMap fun j =>
      if (insidePair n1 n2 (n.wireAt (pairPort n1 n2 j))).isSome then none
      else n.wireAt (pairPort n1 n2 j)) = endsOf n n1 n2 cls := rfl
  refine ⟨fun h => ?_, fun e h => ?_, fun e e' h => ?_⟩ <;> simp only [joinClass, hends, h]

lemma Midway.classStep (hm : Midway n1 n2 (cls :: L) n) (hc : cls.Nodup) {g : Globals}
    (hg : g.inParallel = false) (hlen : (endsOf n n1 n2 cls).length ≤ 2) :
    ClassStep n1 n2 (endsOf n n1 n2 cls) n (joinClass g n1 n2 n cls) := by
  have hd := hm.endsOf_nodup hc
  have hmem := fun e (he : e ∈ endsOf n n1 n2 cls) => hm.of_mem_endsOf he
  obtain ⟨h0, h1, h2⟩ := joinClass_eq g n1 n2 n cls
  rcases hends : endsOf n n1 n2 cls with _ | ⟨e, _ | ⟨e', _ | ⟨e'', es⟩⟩⟩
  · rw [h0 hends]
    exact classStep_nil n1 n2 n
  · obtain ⟨ho, hl, j, _, hwe, hwx⟩ := hmem e (by simp [hends])
    rw [h1 e hends]
    exact hm.classStep_one hg ho hl (pairPort_not_outside n1 n2 j) hwe hwx
  · obtain ⟨ho, hl, _⟩ := hmem e (by simp [hends])
    obtain ⟨ho', hl', _⟩ := hmem e' (by simp [hends])
    rw [h2 e e' hends]
    exact classStep_two g ho ho' hl hl' (by simpa [hends] using hd)
  · simp [hends] at hlen

/-! ### All classes -/

lemma newWire_later (hm : Midway n1 n2 (cls :: L) n) (h1 : Joined n1 n2 [cls] n n')
    (hd : (cls :: L).flatten.Nodup) {p : Port} (hl : n'.live p.node = true)
    (ho : Outside n1 n2 p) : newWire n' n1 n2 L p = newWire n n1 n2 (cls :: L) p := by
  rw [List.flatten_cons, List.nodup_append] at hd
  have hpl := h1.frame.live_of hl
  have hw := h1.wire p hl ho
  by_cases hin : ∃ j ∈ cls, n.wireAt p = some (pairPort n1 n2 j)
  · obtain ⟨j, hj, hwj⟩ := hin
    rw [newWire_head hj hwj] at hw ⊢
    cases hp : partner (endsOf n n1 n2 cls) p with
    | none => rw [newWire_none (hw.trans hp)]
    | some q => rw [newWire_outside (hw.trans hp) (hm.of_mem_endsOf (partner_mem hp)).1]
  · have hnot : ∀ j ∈ cls, n.wireAt p ≠ some (pairPort n1 n2 j) := fun j hj h => hin ⟨j, hj, h⟩
    refine newWire_tail ?_ hnot fun j hj => ?_
    · rw [hw, newWire_single hm hpl ho, rewire, if_neg]
      intro he
      obtain ⟨_, _, j, hj, hwj, _⟩ := hm.of_mem_endsOf he
      exact hnot j hj hwj
    · refine h1.keep _ (pairPort_not_outside n1 n2 j) fun i hi h => ?_
      exact hd.2.2 i (by simpa using hi) j hj (pairPort_inj hm.ne h).symm

lemma Joined.keep_later (hm : Midway n1 n2 (cls :: L) n) (h1 : Joined n1 n2 [cls] n n')
    (hd : (cls :: L).flatten.Nodup) {j : Fin 6} (hj : j ∈ L.flatten) :
    n'.wireAt (pairPort n1 n2 j) = n.wireAt (pairPort n1 n2 j) := by
  rw [List.flatten_cons, List.nodup_append] at hd
  refine h1.keep _ (pairPort_not_outside n1 n2 j) fun i hi h => ?_
  exact hd.2.2 i (by simpa using hi) j hj (pairPort_inj hm.ne h).symm

/-- Handling one class and then the others is handling all of them. -/
lemma Joined.cons {n'' : Net} (hm : Midway n1 n2 (cls :: L) n) (hm' : Midway n1 n2 L n')
    (hd : (cls :: L).flatten.Nodup) (h1 : Joined n1 n2 [cls] n n')
    (h2 : Joined n1 n2 L n' n'') : Joined n1 n2 (cls :: L) n n'' := by
  have hlater := fun p hl ho => newWire_later hm h1 hd (p := p) hl ho
  -- a wire that the later classes see was already there
  have hback : ∀ p, newWire n n1 n2 (cls :: L) p ≠ none → newWire n n1 n2 [cls] p ≠ none := by
    intro p h
    by_cases hin : ∃ j ∈ cls, n.wireAt p = some (pairPort n1 n2 j)
    · obtain ⟨j, hj, hw⟩ := hin
      rwa [newWire_head hj hw] at h ⊢
    · cases hw : n.wireAt p with
      | none => exact absurd (newWire_none hw) h
      | some q =>
        have hq : inClass n1 n2 q cls = false := by
          rw [Bool.eq_false_iff, ne_eq, inClass_iff]
          rintro ⟨j, hj, rfl⟩
          exact hin ⟨j, hj, hw⟩
        simp [newWire, hw, hq]
  refine ⟨h1.frame.trans h2.frame, fun v => ?_, fun p hl ho => ?_, fun p hp => ?_,
    fun p hp hnot => ?_, fun j hj q hw ho => ?_⟩
  · rw [h2.live]
    constructor
    · rintro ⟨hv, hor⟩
      refine ⟨h1.frame.live_of hv, ?_⟩
      by_cases hv1 : v = n1
      · exact Or.inl hv1
      by_cases hv2 : v = n2
      · exact Or.inr (Or.inl hv2)
      rcases hor with h | h | h | ⟨p, rfl, hp⟩
      · exact Or.inl h
      · exact Or.inr (Or.inl h)
      · rcases ((h1.live v).mp hv).2 with h' | h' | h' | ⟨p, rfl, hp⟩
        · exact Or.inl h'
        · exact Or.inr (Or.inl h')
        · exact Or.inr (Or.inr (Or.inl h'))
        · rw [← h1.wire p hv ⟨hv1, hv2⟩] at hp
          exact absurd (h p rfl) hp
      · exact Or.inr (Or.inr (Or.inr ⟨p, rfl, by rwa [← hlater p hv ⟨hv1, hv2⟩]⟩))
    · rintro ⟨hv, hor⟩
      have hv' : n'.live v = true := by
        refine (h1.live v).mpr ⟨hv, ?_⟩
        rcases hor with h | h | h | ⟨p, hpv, hp⟩
        · exact Or.inl h
        · exact Or.inr (Or.inl h)
        · exact Or.inr (Or.inr (Or.inl h))
        · exact Or.inr (Or.inr (Or.inr ⟨p, hpv, hback p hp⟩))
      refine ⟨hv', ?_⟩
      by_cases hv1 : v = n1
      · exact Or.inl hv1
      by_cases hv2 : v = n2
      · exact Or.inr (Or.inl hv2)
      rcases hor with h | h | h | ⟨p, rfl, hp⟩
      · exact Or.inl h
      · exact Or.inr (Or.inl h)
      · refine Or.inr (Or.inr (Or.inl fun p hp => ?_))
        subst hp
        rw [h1.wire p hv' ⟨hv1, hv2⟩, newWire_none (h p rfl)]
      · exact Or.inr (Or.inr (Or.inr ⟨p, rfl, by rwa [hlater p hv' ⟨hv1, hv2⟩]⟩))
  · rw [h2.wire p hl ho, hlater p (h2.frame.live_of hl) ho]
  · rcases h2.pair p hp with h | h
    · rw [h]
      exact h1.pair p hp
    · exact Or.inr h
  · have hcls : ∀ j ∈ [cls].flatten, p ≠ pairPort n1 n2 j :=
      fun j hj => hnot j (by simp only [List.flatten_cons, List.mem_append]; simp_all)
    rw [h2.keep p hp fun j hj => hnot j (by simp only [List.flatten_cons, List.mem_append]
                                            exact Or.inr hj), h1.keep p hp hcls]
  · rw [List.flatten_cons, List.mem_append] at hj
    rcases hj with hj | hj
    · have hw' : n'.wireAt (pairPort n1 n2 j) = some q := by
        rcases h2.pair _ (pairPort_not_outside n1 n2 j) with h | h
        · rw [← h, hw]
        · rw [hw] at h
          exact absurd h (by simp)
      obtain ⟨hql, r, hr, hro, hrl⟩ := h1.cut j (by simpa using hj) q hw' ho
      -- both ends of an outside wire stay
      have hstay : ∀ p p', n'.live p.node = true → Outside n1 n2 p' → n'.wireAt p = some p' →
          n''.live p.node = true := by
        intro p p' hl ho' hw
        refine (h2.live _).mpr ⟨hl, Or.inr (Or.inr (Or.inr ⟨p, rfl, ?_⟩))⟩
        rw [newWire_outside hw ho']
        simp
      have hql' := hstay q r hql hro hr
      obtain ⟨_, hback', _⟩ := hm'.outside q r hql ho hr
      exact ⟨hql', r, by rw [h2.wire q hql' ho, newWire_outside hr hro], hro,
        hstay r q hrl ho hback'⟩
    · exact h2.cut j hj q hw ho

lemma joined_nil (n1 n2 : ℕ) (n : Net) : Joined n1 n2 [] n n where
  frame := .refl n
  live v := by
    have hnil : ∀ p, newWire n n1 n2 [] p = n.wireAt p := by
      intro p
      cases hw : n.wireAt p <;> simp [newWire, hw]
    refine ⟨fun h => ⟨h, Or.inr (Or.inr ?_)⟩, And.left⟩
    by_cases hall : ∀ p : Port, p.node = v → n.wireAt p = none
    · exact Or.inl hall
    · push Not at hall
      exact Or.inr (by simpa [hnil] using hall)
  wire p _ _ := by cases hw : n.wireAt p <;> simp [newWire, hw]
  pair _ _ := Or.inl rfl
  keep _ _ _ := rfl
  cut j hj := absurd hj (by simp)

/-- Joining all classes of a pair, each with at most two outside ends. -/
theorem Midway.joined {g : Globals} (hg : g.inParallel = false) (hm : Midway n1 n2 L n)
    (hd : L.flatten.Nodup) (hlen : ∀ cls ∈ L, (endsOf n n1 n2 cls).length ≤ 2) :
    Joined n1 n2 L n (L.foldl (joinClass g n1 n2) n) := by
  induction L generalizing n with
  | nil => exact joined_nil n1 n2 n
  | cons cls L ih =>
    have hdc := hd
    rw [List.flatten_cons, List.nodup_append] at hdc
    have hs := hm.classStep hdc.1 hg (hlen cls (by simp))
    have hm' := hs.midway hm hd
    have h1 := hs.joined hm hdc.1
    refine h1.cons hm hm' hd (ih hm' hdc.2.1 fun c hc => ?_)
    have he : endsOf (joinClass g n1 n2 n cls) n1 n2 c = endsOf n n1 n2 c :=
      endsOf_congr fun j hj => h1.keep_later hm hd (List.mem_flatten.mpr ⟨c, hc, hj⟩)
    rw [he]
    exact hlen c (by simp [hc])

end Classes

end LinEngine
