import LinEngine.Boundary
import LinEngine.Graph

/-!
# Annihilation

The union-find of `pairBoundary` runs on the six ports of the pair, so only the
shape of the wires inside the pair matters: which of the six lead to which. For
the shapes a well-wired net can have, the classes are checked by computation. The
rest of the file reads the joined net as the old wires followed across the pair.
-/
namespace LinEngine

open Splice

/-! ## Shapes -/

/-- The index of the pair port glued to `j`: a function applied. -/
def acrossSwapped (j : Fin 6) : Fin 6 :=
  match j with
  | 0 => 3
  | 1 => 5
  | 2 => 4
  | 3 => 0
  | 4 => 2
  | 5 => 1

/-- The index of the pair port glued to `j`: two fans on one gauge. -/
def acrossStraight (j : Fin 6) : Fin 6 :=
  match j with
  | 0 => 3
  | 1 => 4
  | 2 => 5
  | 3 => 0
  | 4 => 1
  | 5 => 2

/-- Where a path that enters at `j` leaves the pair. -/
def exitIdx (x : Fin 6 → Fin 6) (f : Fin 6 → Option (Fin 6)) (j : Fin 6) : Fin 6 :=
  match f (x j) with
  | none => x j
  | some k => x k

/-- The inside wires of a facing pair: mutual, and the principal ports joined. -/
def Shape (f : Fin 6 → Option (Fin 6)) : Prop :=
  f 0 = some 3 ∧ f 3 = some 0 ∧ ∀ i, ∀ j ∈ f i, f j = some i ∧ i ≠ j

instance (f : Fin 6 → Option (Fin 6)) : Decidable (Shape f) := inferInstanceAs (Decidable (_ ∧ _))

/-- The classes part the six ports, and the ports of a class whose wire does not stay
inside are the two ends of one path. -/
def Sorted (cor : List (ℕ × ℕ)) (x : Fin 6 → Fin 6) (f : Fin 6 → Option (Fin 6)) : Prop :=
  let L := pairClasses (fun i => (f i).map Fin.val) cor
  L.flatten.Nodup ∧ (∀ j, j ∈ L.flatten) ∧ ∀ cls ∈ L, ∀ j ∈ cls, f j = none →
    cls.filter (fun i => f i = none) = [j, exitIdx x f j] ∨
      cls.filter (fun i => f i = none) = [exitIdx x f j, j]

instance (cor : List (ℕ × ℕ)) (x : Fin 6 → Fin 6) (f : Fin 6 → Option (Fin 6)) :
    Decidable (Sorted cor x f) := inferInstanceAs (Decidable (_ ∧ _))

/-- The shape with the given wires at the four auxiliaries. -/
def shapeOf (a b c d : Option (Fin 6)) (j : Fin 6) : Option (Fin 6) :=
  match j with
  | 0 => some 3
  | 1 => a
  | 2 => b
  | 3 => some 0
  | 4 => c
  | 5 => d

/-- What the wire of auxiliary `i` can do inside the pair. -/
def auxChoices (i : Fin 6) : List (Option (Fin 6)) :=
  none :: (([1, 2, 4, 5] : List (Fin 6)).filter (· ≠ i)).map some

lemma Shape.mem_choices {f : Fin 6 → Option (Fin 6)} (hf : Shape f) {i : Fin 6} (h0 : i ≠ 0)
    (h3 : i ≠ 3) : f i ∈ auxChoices i := by
  obtain ⟨hf0, hf3, hf⟩ := hf
  cases hi : f i with
  | none => simp [auxChoices]
  | some j =>
    obtain ⟨hj, hne⟩ := hf i j hi
    have hj0 : j ≠ 0 := by
      rintro rfl
      exact h3 (Option.some.inj (hj.symm.trans hf0))
    have hj3 : j ≠ 3 := by
      rintro rfl
      exact h0 (Option.some.inj (hj.symm.trans hf3))
    have hj : j = 1 ∨ j = 2 ∨ j = 4 ∨ j = 5 := by omega
    simpa [auxChoices, Ne.symm hne] using hj

set_option maxRecDepth 100000 in
lemma sorted_swapped : ∀ a ∈ auxChoices 1, ∀ b ∈ auxChoices 2, ∀ c ∈ auxChoices 4,
    ∀ d ∈ auxChoices 5, Shape (shapeOf a b c d) →
      Sorted [(1, 5), (2, 4)] acrossSwapped (shapeOf a b c d) := by
  decide +kernel

set_option maxRecDepth 100000 in
lemma sorted_straight : ∀ a ∈ auxChoices 1, ∀ b ∈ auxChoices 2, ∀ c ∈ auxChoices 4,
    ∀ d ∈ auxChoices 5, Shape (shapeOf a b c d) →
      Sorted [(1, 4), (2, 5)] acrossStraight (shapeOf a b c d) := by
  decide +kernel

lemma Shape.eq_shapeOf {f : Fin 6 → Option (Fin 6)} (hf : Shape f) :
    f = shapeOf (f 1) (f 2) (f 4) (f 5) := by
  funext j
  fin_cases j
  exacts [hf.1, rfl, rfl, hf.2.1, rfl, rfl]

/-- A correspondence list of the source and the gluing it stands for. -/
structure Glues (cor : List (ℕ × ℕ)) (x : Fin 6 → Fin 6) (s : Fin 3 → Fin 3) : Prop where
  sorted : ∀ f, Shape f → Sorted cor x f
  crossing : ∀ n1 n2, n1 ≠ n2 → ∀ j, crossing n1 n2 s (pairPort n1 n2 j) = some (pairPort n1 n2 (x j))

lemma glues_swapped : Glues [(1, 5), (2, 4)] acrossSwapped swapped where
  sorted f hf := by
    have h := hf.eq_shapeOf
    rw [h]
    exact sorted_swapped _ (hf.mem_choices (by simp) (by simp)) _ (hf.mem_choices (by simp) (by simp))
      _ (hf.mem_choices (by simp) (by simp)) _ (hf.mem_choices (by simp) (by simp)) (h ▸ hf)
  crossing n1 n2 h j := by
    fin_cases j <;> simp [LinEngine.crossing, pairPort, acrossSwapped, swapped, Ne.symm h]

lemma glues_straight : Glues [(1, 4), (2, 5)] acrossStraight straight where
  sorted f hf := by
    have h := hf.eq_shapeOf
    rw [h]
    exact sorted_straight _ (hf.mem_choices (by simp) (by simp)) _ (hf.mem_choices (by simp) (by simp))
      _ (hf.mem_choices (by simp) (by simp)) _ (hf.mem_choices (by simp) (by simp)) (h ▸ hf)
  crossing n1 n2 h j := by
    fin_cases j <;> simp [LinEngine.crossing, pairPort, acrossStraight, straight, Ne.symm h]

/-! ## The shape of a pair in a net -/

/-- Which pair port a wire leads to, if it stays inside the pair. -/
def insideIdx (n1 n2 : ℕ) (w : Option Port) : Option (Fin 6) :=
  (List.finRange 6).find? (fun j => w = some (pairPort n1 n2 j))

section Pair

variable {n : Net} {n1 n2 : ℕ}

lemma insideIdx_eq_some (h : n1 ≠ n2) {w : Option Port} {j : Fin 6} :
    insideIdx n1 n2 w = some j ↔ w = some (pairPort n1 n2 j) := by
  constructor
  · intro hj
    simpa using List.find?_some hj
  · rintro rfl
    cases hf : insideIdx n1 n2 (some (pairPort n1 n2 j)) with
    | none =>
      have := List.find?_eq_none.mp hf j (List.mem_finRange j)
      simp at this
    | some k =>
      have : some (pairPort n1 n2 j) = some (pairPort n1 n2 k) := by simpa using List.find?_some hf
      rw [pairPort_inj h (Option.some.inj this)]

lemma insideIdx_eq_none {w : Option Port} :
    insideIdx n1 n2 w = none ↔ ∀ q, w = some q → Outside n1 n2 q := by
  rw [insideIdx, List.find?_eq_none]
  constructor
  · rintro h q rfl
    by_contra ho
    obtain ⟨j, rfl⟩ := exists_pairPort ho
    exact h j (List.mem_finRange j) (by simp)
  · intro h j _ hj
    exact pairPort_not_outside n1 n2 j (h _ (by simpa using hj))

lemma insidePair_eq (h : n1 ≠ n2) (w : Option Port) :
    insidePair n1 n2 w = (insideIdx n1 n2 w).map Fin.val := by
  cases hw : insideIdx n1 n2 w with
  | none =>
    cases w with
    | none => rfl
    | some q => exact insidePair_none.mpr (insideIdx_eq_none.mp hw q rfl)
  | some j =>
    rw [insideIdx_eq_some h] at hw
    subst hw
    fin_cases j <;> simp [insidePair, pairPort, Ne.symm h]

/-- The inside wires of the pair `n1`, `n2`. -/
def pairShape (n : Net) (n1 n2 : ℕ) (j : Fin 6) : Option (Fin 6) :=
  insideIdx n1 n2 (n.wireAt (pairPort n1 n2 j))

lemma pairShape_shape (hn : Wired n) (hf : n1 ≠ n2) (h1 : n.live n1 = true)
    (h2 : n.live n2 = true) (hw : n.wireAt ⟨n1, 0⟩ = some ⟨n2, 0⟩) :
    Shape (pairShape n n1 n2) := by
  have hw' := (hn _ _ h1 hw).2.1
  refine ⟨(insideIdx_eq_some hf).mpr hw, (insideIdx_eq_some hf).mpr hw', fun i j hij => ?_⟩
  have hl : n.live (pairPort n1 n2 i).node = true := by
    rcases pairPort_node n1 n2 i with h | h <;> rw [h] <;> assumption
  obtain ⟨_, hb, hne⟩ := hn _ _ hl ((insideIdx_eq_some hf).mp hij)
  refine ⟨(insideIdx_eq_some hf).mpr hb, ?_⟩
  rintro rfl
  exact hne rfl

/-- The classes `pairBoundary` joins, from the shape of the pair. -/
lemma pairBoundary_eq (g : Globals) (h : n1 ≠ n2) (cor : List (ℕ × ℕ)) :
    pairBoundary g n n1 n2 cor =
      (pairClasses (fun i => (pairShape n n1 n2 i).map Fin.val) cor).foldl
        (joinClass g n1 n2) n := by
  have : (fun i => insidePair n1 n2 (n.wireAt (pairPort n1 n2 i))) =
      fun i => (pairShape n n1 n2 i).map Fin.val := by
    funext i
    exact insidePair_eq h _
  simp only [pairBoundary, this]

/-- Only the two path ends of a class can lead outside. -/
lemma endsOf_eq (cls : List (Fin 6)) :
    endsOf n n1 n2 cls =
      (cls.filter (fun i => pairShape n n1 n2 i = none)).filterMap (endAt n n1 n2) := by
  rw [endsOf, List.filterMap_filter]
  refine List.filterMap_congr fun i _ => ?_
  by_cases hi : pairShape n n1 n2 i = none
  · simp [hi]
  · simp only [hi, decide_false, Bool.false_eq_true, if_false]
    cases he : endAt n n1 n2 i with
    | none => rfl
    | some q =>
      obtain ⟨hw, ho⟩ := endAt_eq_some.mp he
      refine absurd (insideIdx_eq_none.mpr fun q' hq => ?_) hi
      rw [hw, Option.some.injEq] at hq
      exact hq ▸ ho

variable {cor : List (ℕ × ℕ)} {x : Fin 6 → Fin 6} {s : Fin 3 → Fin 3}

lemma endAt_of_shape_none {j : Fin 6} (hj : pairShape n n1 n2 j = none) :
    endAt n n1 n2 j = n.wireAt (pairPort n1 n2 j) := by
  cases hw : n.wireAt (pairPort n1 n2 j) with
  | none => simp [endAt, hw, insidePair]
  | some q => exact endAt_eq_some.mpr ⟨hw, insideIdx_eq_none.mp hj q hw⟩

lemma endsOf_length (hs : Sorted cor x (pairShape n n1 n2)) {cls : List (Fin 6)}
    (hc : cls ∈ pairClasses (fun i => (pairShape n n1 n2 i).map Fin.val) cor) :
    (endsOf n n1 n2 cls).length ≤ 2 := by
  rw [endsOf_eq]
  refine (List.length_filterMap_le _ _).trans ?_
  by_cases hex : ∃ j ∈ cls, pairShape n n1 n2 j = none
  · obtain ⟨j, hj, hnone⟩ := hex
    rcases hs.2.2 cls hc j hj hnone with h | h <;> simp [h]
  · have : cls.filter (fun i => pairShape n n1 n2 i = none) = [] := by
      rw [List.filter_eq_nil_iff]
      exact fun j hj h => hex ⟨j, hj, by simpa using h⟩
    simp [this]

lemma Sorted.exit_free {f : Fin 6 → Option (Fin 6)} (hs : Sorted cor x f) {j : Fin 6}
    (hj : f j = none) : f (exitIdx x f j) = none := by
  obtain ⟨cls, hc, hjc⟩ := List.mem_flatten.mp (hs.2.1 j)
  have : exitIdx x f j ∈ cls.filter (fun i => f i = none) := by
    rcases hs.2.2 cls hc j hjc hj with h | h <;> simp [h]
  simpa using (List.mem_filter.mp this).2

lemma Sorted.exit_ne {f : Fin 6 → Option (Fin 6)} (hs : Sorted cor x f) {j : Fin 6}
    (hj : f j = none) : exitIdx x f j ≠ j := by
  obtain ⟨cls, hc, hjc⟩ := List.mem_flatten.mp (hs.2.1 j)
  have hd : (cls.filter (fun i => f i = none)).Nodup :=
    ((List.nodup_flatten.mp hs.1).1 cls hc).filter _
  intro he
  rcases hs.2.2 cls hc j hjc hj with h | h <;> simp [h, he] at hd

/-- The partner of a port led into the pair is what the far end of its path leads to. -/
lemma newWire_exit (h : n1 ≠ n2) (hs : Sorted cor x (pairShape n n1 n2)) {p : Port} {j : Fin 6}
    (ho : Outside n1 n2 p) (hw : n.wireAt p = some (pairPort n1 n2 j))
    (hb : n.wireAt (pairPort n1 n2 j) = some p) :
    newWire n n1 n2 (pairClasses (fun i => (pairShape n n1 n2 i).map Fin.val) cor) p =
      n.wireAt (pairPort n1 n2 (exitIdx x (pairShape n n1 n2) j)) := by
  set L := pairClasses (fun i => (pairShape n n1 n2 i).map Fin.val) cor
  have hj : pairShape n n1 n2 j = none :=
    insideIdx_eq_none.mpr fun q hq => Option.some.inj (hb.symm.trans hq) ▸ ho
  cases hfind : L.find? (inClass n1 n2 (pairPort n1 n2 j)) with
  | none =>
    obtain ⟨cls, hc, hjc⟩ := List.mem_flatten.mp (hs.2.1 j)
    exact absurd (inClass_iff.mpr ⟨j, hjc, rfl⟩) (List.find?_eq_none.mp hfind cls hc)
  | some cls =>
    have hc := List.mem_of_find?_eq_some hfind
    obtain ⟨i, hi, hij⟩ := inClass_iff.mp (List.find?_some hfind)
    rw [pairPort_inj h hij] at hi
    set k := exitIdx x (pairShape n n1 n2) j
    have hp : endAt n n1 n2 j = some p := (endAt_of_shape_none hj).trans hb
    have hke := endAt_of_shape_none (hs.exit_free hj)
    have hnew : newWire n n1 n2 L p = partner (endsOf n n1 n2 cls) p := by
      simp [newWire, hw, hfind]
    rw [hnew, endsOf_eq, ← hke]
    rcases hs.2.2 cls hc j hi hj with hcls | hcls
    · cases he : endAt n n1 n2 k with
      | none => simp [hcls, hp, k, he, partner]
      | some e => simp [hcls, hp, k, he, partner]
    · cases he : endAt n n1 n2 k with
      | none => simp [hcls, hp, k, he, partner]
      | some e =>
        by_cases hpe : p = e <;> simp [hcls, hp, k, he, partner, hpe]

/-- The joined wire of an outside port is its old wire followed across the pair. -/
lemma newWire_exits (hn : Wired n) (hg : Glues cor x s) (h : n1 ≠ n2) (h1 : n.live n1 = true)
    (h2 : n.live n2 = true) (hpp : n.wireAt ⟨n1, 0⟩ = some ⟨n2, 0⟩) {p : Port}
    (hl : n.live p.node = true) (ho : Outside n1 n2 p) :
    Exits n.wireAt (crossing n1 n2 s) (n.wireAt p)
      (newWire n n1 n2 (pairClasses (fun i => (pairShape n n1 n2 i).map Fin.val) cor) p) := by
  have hs := hg.sorted _ (pairShape_shape hn h h1 h2 hpp)
  cases hw : n.wireAt p with
  | none =>
    rw [newWire_none hw]
    exact .loose
  | some q =>
    obtain ⟨_, hb, _⟩ := hn p q hl hw
    by_cases hq : Outside n1 n2 q
    · rw [newWire_outside hw hq]
      exact .out (crossing_eq_none.mpr hq)
    · obtain ⟨j, rfl⟩ := exists_pairPort hq
      rw [newWire_exit h hs ho hw hb]
      -- the first crossing leads to `x j`, whose wire may turn back into the pair once
      refine .thru (hg.crossing n1 n2 h j) ?_
      cases hk : pairShape n n1 n2 (x j) with
      | none =>
        have he : exitIdx x (pairShape n n1 n2) j = x j := by simp [exitIdx, hk]
        rw [he]
        cases hwk : n.wireAt (pairPort n1 n2 (x j)) with
        | none => exact .loose
        | some e => exact .out (crossing_eq_none.mpr (insideIdx_eq_none.mp hk e hwk))
      | some i =>
        have he : exitIdx x (pairShape n n1 n2) j = x i := by simp [exitIdx, hk]
        have hj : pairShape n n1 n2 j = none :=
          insideIdx_eq_none.mpr fun q hq => Option.some.inj (hb.symm.trans hq) ▸ ho
        have hx := hs.exit_free hj
        rw [he] at hx
        rw [(insideIdx_eq_some h).mp hk, he]
        refine .thru (hg.crossing n1 n2 h i) ?_
        cases hwi : n.wireAt (pairPort n1 n2 (x i)) with
        | none => exact .loose
        | some e => exact .out (crossing_eq_none.mpr (insideIdx_eq_none.mp hx e hwi))

/-- A port is never joined to itself: the two ends of a path are different ports. -/
lemma newWire_ne (hn : Wired n) (hg : Glues cor x s) (h : n1 ≠ n2) (h1 : n.live n1 = true)
    (h2 : n.live n2 = true) (hpp : n.wireAt ⟨n1, 0⟩ = some ⟨n2, 0⟩) {p : Port}
    (hl : n.live p.node = true) (ho : Outside n1 n2 p) :
    newWire n n1 n2 (pairClasses (fun i => (pairShape n n1 n2 i).map Fin.val) cor) p ≠ some p := by
  have hs := hg.sorted _ (pairShape_shape hn h h1 h2 hpp)
  cases hw : n.wireAt p with
  | none => simp [newWire_none hw]
  | some q =>
    obtain ⟨_, hb, hne⟩ := hn p q hl hw
    by_cases hq : Outside n1 n2 q
    · rw [newWire_outside hw hq]
      simpa using hne
    · obtain ⟨j, rfl⟩ := exists_pairPort hq
      rw [newWire_exit h hs ho hw hb]
      intro he
      have hj : pairShape n n1 n2 j = none :=
        insideIdx_eq_none.mpr fun q hq => Option.some.inj (hb.symm.trans hq) ▸ ho
      have hk : n.live (pairPort n1 n2 (exitIdx x (pairShape n n1 n2) j)).node = true := by
        rcases pairPort_node n1 n2 (exitIdx x (pairShape n n1 n2) j) with h | h <;> rw [h] <;>
          assumption
      have hback := (hn _ p hk he).2.1
      exact hs.exit_ne hj (pairPort_inj h (Option.some.inj (hback.symm.trans hw)))

/-! ## The annihilation rules -/

/-- The abstract graph of a net. -/
def Net.graph (n : Net) : Graph where
  live v := n.live v = true
  tag := n.tag.get
  gauge := n.scope.get
  path v := lvlPath n (n.scope.get v)
  wire := n.wireAt

lemma lvlPath_congr {n n' : Net} (h : n'.levels = n.levels) (l : ℕ) : lvlPath n' l = lvlPath n l := by
  have hd : lvDepth n' l = lvDepth n l := by simp only [lvDepth, h]
  have hloop : ∀ d l, lvlPathLoop n' d l = lvlPathLoop n d l := by
    intro d
    induction d with
    | zero => exact fun _ => rfl
    | succ d ih =>
      intro l
      simp only [lvlPathLoop, lvUp, lvBit, h]
      rw [ih]
  rw [lvlPath, lvlPath, hd, hloop]

/-- What a rule keeps of the store: levels, gauges and the free list. -/
structure Kept (n n' : Net) : Prop where
  nn : n'.nn = n.nn
  scope : n'.scope = n.scope
  levels : n'.levels = n.levels
  pins : n'.pins = n.pins
  freeOk : FreeOk n'

/-- Joining the boundary of a facing pair and retiring the pair removes it and glues
its ports. -/
theorem annihilates_pairBoundary {g : Globals} (hser : g.inParallel = false) (hn : Wired n)
    (hfree : FreeOk n) (hpins : n.pins = 0) (hf : n.graph.Facing n1 n2) (hg : Glues cor x s) :
    Annihilates s n1 n2 n.graph (retire g (pairBoundary g n n1 n2 cor) n1 n2).graph ∧
      Kept n (retire g (pairBoundary g n n1 n2 cor) n1 n2) := by
  obtain ⟨hne, h1, h2, hpp, -⟩ := hf
  have hs := hg.sorted _ (pairShape_shape hn hne h1 h2 hpp)
  have hexits := fun p => newWire_exits hn hg hne h1 h2 hpp (p := p)
  rw [pairBoundary_eq g hne]
  set L := pairClasses (fun i => (pairShape n n1 n2 i).map Fin.val) cor
  set m := L.foldl (joinClass g n1 n2) n
  have hj : Joined n1 n2 L n m :=
    (wired_midway hn hpins hne h1 h2 hpp hs.2.1).joined hser hs.1 fun cls hc => endsOf_length hs hc
  have hr : Retired n1 n2 m (retire g m n1 n2) := by
    refine retire_spec g hne fun p hp w hw ha hb => ?_
    have hpo : ¬ Outside n1 n2 p := by
      rintro ⟨h1, h2⟩
      exact hp.elim h1 h2
    obtain ⟨j, rfl⟩ := exists_pairPort hpo
    obtain ⟨_, r, hr, hro, hrl⟩ := hj.cut j (hs.2.1 j) w hw ⟨ha, hb⟩
    refine ⟨fun h => ?_, fun _ h0 => ?_⟩
    · rw [← Option.some.inj (hr.symm.trans h)] at hpo
      exact hpo hro
    · have := degLive_eq_zero.mp h0 w rfl r hr
      rw [← Bool.not_eq_true, Net.live_iff, markPair_dead] at this
      rw [Net.live_iff] at hrl
      exact this ⟨hrl.1, by simp [hrl.2, hro.1, hro.2]⟩
  set n' := retire g m n1 n2
  have hlive : ∀ v, n'.live v = true → m.live v = true ∧ Outside n1 n2 ⟨v, 0⟩ :=
    fun v hv => (hr.live v).mp hv
  have hwire : ∀ p : Port, n'.live p.node = true → n'.wireAt p = newWire n n1 n2 L p := by
    intro p hl
    obtain ⟨hm, ho⟩ := hlive _ hl
    rw [hr.wire p ho.1 ho.2, hj.wire p hm ho]
  have hscope : n'.scope = n.scope := hr.scope.trans hj.frame.scope
  have hlevels : n'.levels = n.levels := hr.levels.trans hj.frame.levels
  refine ⟨⟨fun p hl ha hb => ⟨_, hexits p hl ⟨ha, hb⟩⟩, fun v => ?_, fun p hl => ?_, fun p hl h => ?_,
    fun v hv => ?_, fun v _ => ?_, fun v _ => ?_⟩, ⟨hr.nn.trans hj.frame.nn, hscope, hlevels,
    hr.pins.trans hj.frame.pins, ?_⟩⟩
  · change n'.live v = true ↔ n.live v = true ∧ _
    rw [hr.live, hj.live]
    constructor
    · rintro ⟨⟨hv, hor⟩, ha, hb⟩
      refine ⟨hv, ha, hb, ?_⟩
      rcases hor with h | h | h | ⟨p, rfl, hp⟩
      · exact absurd h ha
      · exact absurd h hb
      · exact Or.inl fun k => h ⟨v, k⟩ rfl
      · obtain ⟨e, he⟩ := Option.ne_none_iff_exists'.mp hp
        exact Or.inr ⟨p.port, e, he ▸ hexits p hv ⟨ha, hb⟩⟩
    · rintro ⟨hv, ha, hb, hor⟩
      refine ⟨⟨hv, Or.inr (Or.inr ?_)⟩, ha, hb⟩
      rcases hor with h | ⟨k, e, he⟩
      · refine Or.inl fun p hp => ?_
        subst hp
        exact h p.port
      · refine Or.inr ⟨⟨v, k⟩, rfl, ?_⟩
        rw [(hexits ⟨v, k⟩ hv ⟨ha, hb⟩).unique he]
        simp
  · obtain ⟨hm, ho⟩ := hlive _ hl
    change Exits n.wireAt _ (n.wireAt p) (n'.wireAt p)
    rw [hwire p hl]
    exact hexits p (hj.frame.live_of hm) ho
  · obtain ⟨hm, ho⟩ := hlive _ hl
    exact newWire_ne hn hg hne h1 h2 hpp (hj.frame.live_of hm) ho (hwire p hl ▸ h)
  · obtain ⟨hm, ho⟩ := hlive _ hv
    exact (hr.tag v ho.1 ho.2).trans (hj.frame.tag v hm)
  · change n'.scope.get v = n.scope.get v
    rw [hscope]
  · change lvlPath n' (n'.scope.get v) = lvlPath n (n.scope.get v)
    rw [hscope, lvlPath_congr hlevels]
  · obtain ⟨l, hl⟩ := hfree
    refine ⟨l, ?_⟩
    rw [hr.freeHead, hj.frame.freeHead]
    refine hl.mono (hr.nn.trans hj.frame.nn).ge (fun v hv => ?_) fun v hv => ?_
    · rw [hr.dead, hj.frame.dead v (hl.dead_of_mem hv).2]
      rfl
    · have hd := (hl.dead_of_mem hv).2
      have hnot : ∀ u, n.live u = true → v ≠ u := by
        rintro u hu rfl
        rw [Net.live_iff] at hu
        simp [hu.2] at hd
      rw [hr.wire _ (hnot _ h1) (hnot _ h2), hj.frame.deadWire ⟨v, 0⟩ hd]

end Pair

end LinEngine
