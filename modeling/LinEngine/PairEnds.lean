import LinEngine.Annihilate
import LinEngine.Runs

/-!
# The ends that a pair joins

`pair_boundary` on any net with symmetric wires, whether or not its ports are wired to
themselves, and whether or not a disconnection frees: the classes of the six ports have at most
two outside ends, two ends are linked, one is disconnected, and nothing else is.
-/
namespace LinEngine

open Splice

/-- Every wire of a live node leads to a live node, and back. -/
def SymmetricWires (n : Net) : Prop :=
  ∀ p q : Port, n.live p.node = true → n.wireAt p = some q → n.live q.node = true ∧ n.wireAt q = some p

/-! ## Paths across the pair -/

/-- The inside wires of a facing pair: mutual, and the principal ports joined. -/
def Inside (f : Fin 6 → Option (Fin 6)) : Prop :=
  f 0 = some 3 ∧ f 3 = some 0 ∧ ∀ i, ∀ j ∈ f i, f j = some i

instance (f : Fin 6 → Option (Fin 6)) : Decidable (Inside f) := inferInstanceAs (Decidable (_ ∧ _))

/-- Where a path that enters at `j` leaves the pair, after as many turns inside as it takes. -/
def leaves (x : Fin 6 → Fin 6) (f : Fin 6 → Option (Fin 6)) : ℕ → Fin 6 → Fin 6
  | 0, j => x j
  | turns + 1, j =>
    match f (x j) with
    | none => x j
    | some k => leaves x f turns k

/-- What is at most three steps from `j`, by correspondences and inside wires in turn. -/
def within (x : Fin 6 → Fin 6) (f : Fin 6 → Option (Fin 6)) (j : Fin 6) : List (Option (Fin 6)) :=
  [some j, some (x j), f (x j), (f (x j)).map x, f j, (f j).map x, ((f j).map x).bind f]

/-- A class is what `j` is connected to. -/
def Connects (x : Fin 6 → Fin 6) (f : Fin 6 → Option (Fin 6)) (cls : List (Fin 6)) (j : Fin 6) : Prop :=
  (x j ∈ cls ∧ ∀ k ∈ f j, k ∈ cls) ∧ ∀ i ∈ cls, some i ∈ within x f j

instance (x : Fin 6 → Fin 6) (f : Fin 6 → Option (Fin 6)) (cls : List (Fin 6)) (j : Fin 6) :
    Decidable (Connects x f cls j) := inferInstanceAs (Decidable (_ ∧ _))

/-- The classes part the six ports into what wires and correspondences connect, and the ports of a class
whose wire does not stay inside are the ends of one path. -/
def Parted (cor : List (ℕ × ℕ)) (x : Fin 6 → Fin 6) (f : Fin 6 → Option (Fin 6)) : Prop :=
  let L := pairClasses (fun i => (f i).map Fin.val) cor
  L.flatten.Nodup ∧ (∀ j, j ∈ L.flatten) ∧ ∀ cls ∈ L, ∀ j ∈ cls, Connects x f cls j ∧
    (f j = none → f (leaves x f 4 j) = none ∧ ∀ i ∈ cls, f i = none → i = j ∨ i = leaves x f 4 j)

instance (cor : List (ℕ × ℕ)) (x : Fin 6 → Fin 6) (f : Fin 6 → Option (Fin 6)) :
    Decidable (Parted cor x f) := inferInstanceAs (Decidable (_ ∧ _))

/-- The wires of an auxiliary port, as far as they stay inside. -/
def auxWires : List (Option (Fin 6)) := [none, some 1, some 2, some 4, some 5]

set_option maxRecDepth 100000 in
lemma parted_swapped : ∀ a ∈ auxWires, ∀ b ∈ auxWires, ∀ c ∈ auxWires, ∀ d ∈ auxWires,
    Inside (shapeOf a b c d) → Parted [(1, 5), (2, 4)] acrossSwapped (shapeOf a b c d) := by
  decide +kernel

set_option maxRecDepth 100000 in
lemma parted_straight : ∀ a ∈ auxWires, ∀ b ∈ auxWires, ∀ c ∈ auxWires, ∀ d ∈ auxWires,
    Inside (shapeOf a b c d) → Parted [(1, 4), (2, 5)] acrossStraight (shapeOf a b c d) := by
  decide +kernel

lemma Inside.mem_auxWires {f : Fin 6 → Option (Fin 6)} (hf : Inside f) {i : Fin 6} (h0 : i ≠ 0) (h3 : i ≠ 3) :
    f i ∈ auxWires := by
  obtain ⟨hf0, hf3, hf⟩ := hf
  cases hi : f i with
  | none => simp [auxWires]
  | some j =>
    have hj := hf i j hi
    have hj0 : j ≠ 0 := by
      rintro rfl
      exact h3 (Option.some.inj (hj.symm.trans hf0))
    have hj3 : j ≠ 3 := by
      rintro rfl
      exact h0 (Option.some.inj (hj.symm.trans hf3))
    have hj : j = 1 ∨ j = 2 ∨ j = 4 ∨ j = 5 := by omega
    simpa [auxWires] using hj

lemma Inside.eq_shapeOf {f : Fin 6 → Option (Fin 6)} (hf : Inside f) : f = shapeOf (f 1) (f 2) (f 4) (f 5) := by
  funext j
  fin_cases j
  exacts [hf.1, rfl, rfl, hf.2.1, rfl, rfl]

/-- A correspondence list of the source and the gluing it stands for. -/
structure Corresponds (cor : List (ℕ × ℕ)) (x : Fin 6 → Fin 6) (s : Fin 3 → Fin 3) : Prop where
  parted : ∀ f, Inside f → Parted cor x f
  crossing : ∀ n1 n2, n1 ≠ n2 → ∀ j, crossing n1 n2 s (pairPort n1 n2 j) = some (pairPort n1 n2 (x j))

lemma corresponds_swapped : Corresponds [(1, 5), (2, 4)] acrossSwapped swapped where
  parted f hf := by
    have h := hf.eq_shapeOf
    rw [h]
    exact parted_swapped _ (hf.mem_auxWires (by simp) (by simp)) _ (hf.mem_auxWires (by simp) (by simp))
      _ (hf.mem_auxWires (by simp) (by simp)) _ (hf.mem_auxWires (by simp) (by simp)) (h ▸ hf)
  crossing := glues_swapped.crossing

lemma corresponds_straight : Corresponds [(1, 4), (2, 5)] acrossStraight straight where
  parted f hf := by
    have h := hf.eq_shapeOf
    rw [h]
    exact parted_straight _ (hf.mem_auxWires (by simp) (by simp)) _ (hf.mem_auxWires (by simp) (by simp))
      _ (hf.mem_auxWires (by simp) (by simp)) _ (hf.mem_auxWires (by simp) (by simp)) (h ▸ hf)
  crossing := glues_straight.crossing

section Pair

variable {n : Net} {n1 n2 : ℕ} {cor : List (ℕ × ℕ)} {x : Fin 6 → Fin 6} {s : Fin 3 → Fin 3} {cls : List (Fin 6)}

/-- The wires from a live node keep to live nodes, also in the middle of a rule. -/
lemma live_pairPort (hf : n.graph.Facing n1 n2) (j : Fin 6) : n.live (pairPort n1 n2 j).node = true := by
  rcases pairPort_node n1 n2 j with h | h <;> rw [h]
  · exact hf.liveL
  · exact hf.liveR

lemma pairShape_inside (hn : SymmetricWires n) (hf : n.graph.Facing n1 n2) : Inside (pairShape n n1 n2) := by
  refine ⟨(insideIdx_eq_some hf.ne).mpr hf.wireL, (insideIdx_eq_some hf.ne).mpr hf.wireR, fun i j hij => ?_⟩
  exact (insideIdx_eq_some hf.ne).mpr (hn _ _ (live_pairPort hf i) ((insideIdx_eq_some hf.ne).mp hij)).2

/-- An outside end of a class is live, and wired to a port of the class. -/
structure EndOf (n : Net) (n1 n2 : ℕ) (cls : List (Fin 6)) (e : Port) (j : Fin 6) : Prop where
  mem : j ∈ cls
  outside : Outside n1 n2 e
  live : n.live e.node = true
  wire : n.wireAt e = some (pairPort n1 n2 j)
  back : n.wireAt (pairPort n1 n2 j) = some e

lemma endOf_of_mem (hn : SymmetricWires n) (hf : n.graph.Facing n1 n2) {e : Port} (he : e ∈ endsOf n n1 n2 cls) :
    ∃ j, EndOf n n1 n2 cls e j := by
  obtain ⟨j, hj, hw, ho⟩ := mem_endsOf.mp he
  obtain ⟨hl, hb⟩ := hn _ _ (live_pairPort hf j) hw
  exact ⟨j, hj, ho, hl, hb, hw⟩

lemma EndOf.free {e : Port} {j : Fin 6} (he : EndOf n n1 n2 cls e j) : pairShape n n1 n2 j = none :=
  insideIdx_eq_none.mpr fun _ hq => Option.some.inj (he.back.symm.trans hq) ▸ he.outside

lemma mem_endsOf_of_wire (hn : SymmetricWires n) {p : Port} {j : Fin 6} (hj : j ∈ cls) (hl : n.live p.node = true)
    (ho : Outside n1 n2 p) (hw : n.wireAt p = some (pairPort n1 n2 j)) : p ∈ endsOf n n1 n2 cls :=
  mem_endsOf.mpr ⟨j, hj, (hn _ _ hl hw).2, ho⟩

lemma symmetric_endsOf_nodup (hn : SymmetricWires n) (hf : n.graph.Facing n1 n2) (hc : cls.Nodup) : (endsOf n n1 n2 cls).Nodup := by
  rw [endsOf, List.Nodup, List.pairwise_filterMap]
  refine hc.imp fun {i j} hij e he e' he' hee => hij ?_
  subst hee
  have hwi := (hn _ _ (live_pairPort hf i) (endAt_eq_some.mp he).1).2
  have hwj := (hn _ _ (live_pairPort hf j) (endAt_eq_some.mp he').1).2
  exact pairPort_inj hf.ne (Option.some.inj (hwi.symm.trans hwj))

/-- The wire that enters at `j` ends where its path leaves the pair. -/
lemma exits_leaves (hc : Corresponds cor x s) (h : n1 ≠ n2) (turns : ℕ) (j : Fin 6)
    (hfree : pairShape n n1 n2 (leaves x (pairShape n n1 n2) turns j) = none) :
    Exits n.wireAt (crossing n1 n2 s) (some (pairPort n1 n2 j))
      (n.wireAt (pairPort n1 n2 (leaves x (pairShape n n1 n2) turns j))) := by
  have hout : ∀ i, pairShape n n1 n2 i = none →
      Exits n.wireAt (crossing n1 n2 s) (n.wireAt (pairPort n1 n2 i)) (n.wireAt (pairPort n1 n2 i)) := by
    intro i hi
    cases hw : n.wireAt (pairPort n1 n2 i) with
    | none => exact .loose
    | some e => exact .out (crossing_eq_none.mpr (insideIdx_eq_none.mp hi e hw))
  induction turns generalizing j with
  | zero => exact .thru (hc.crossing n1 n2 h j) (hout _ hfree)
  | succ turns ih =>
    refine .thru (hc.crossing n1 n2 h j) ?_
    cases hk : pairShape n n1 n2 (x j) with
    | none =>
      have hleaves : leaves x (pairShape n n1 n2) (turns + 1) j = x j := by rw [leaves, hk]
      rw [hleaves]
      exact hout _ hk
    | some k =>
      have hleaves : leaves x (pairShape n n1 n2) (turns + 1) j = leaves x (pairShape n n1 n2) turns k := by
        rw [leaves, hk]
      rw [hleaves] at hfree ⊢
      rw [(insideIdx_eq_some h).mp hk]
      exact ih k hfree

/-- A class has at most two outside ends. -/
lemma Parted.endsOf_length (hs : Parted cor x (pairShape n n1 n2))
    (hc : cls ∈ pairClasses (fun i => (pairShape n n1 n2 i).map Fin.val) cor) : (endsOf n n1 n2 cls).length ≤ 2 := by
  rw [endsOf_eq]
  refine (List.length_filterMap_le _ _).trans ?_
  have hnodup : (cls.filter fun i => pairShape n n1 n2 i = none).Nodup :=
    ((List.nodup_flatten.mp hs.1).1 cls hc).filter _
  by_cases hex : ∃ j ∈ cls, pairShape n n1 n2 j = none
  · obtain ⟨j, hj, hnone⟩ := hex
    have hsub : cls.filter (fun i => pairShape n n1 n2 i = none) ⊆ [j, leaves x (pairShape n n1 n2) 4 j] := by
      intro i hi
      obtain ⟨hic, hin⟩ := List.mem_filter.mp hi
      have := ((hs.2.2 cls hc j hj).2 hnone).2 i hic (of_decide_eq_true hin)
      simpa using this
    exact (hnodup.subperm hsub).length_le
  · have hnil : cls.filter (fun i => pairShape n n1 n2 i = none) = [] := by
      rw [List.filter_eq_nil_iff]
      exact fun j hj h => hex ⟨j, hj, by simpa using h⟩
    simp [hnil]

/-- Two ends of a class are the two ends of one path. -/
lemma Parted.exits (hs : Parted cor x (pairShape n n1 n2)) (hg : Corresponds cor x s) (hf : n.graph.Facing n1 n2)
    (hc : cls ∈ pairClasses (fun i => (pairShape n n1 n2 i).map Fin.val) cor) {e e' : Port} {i j : Fin 6} (hne : e ≠ e')
    (he : EndOf n n1 n2 cls e i) (he' : EndOf n n1 n2 cls e' j) :
    Exits n.wireAt (crossing n1 n2 s) (n.wireAt e) (some e') := by
  obtain ⟨hfree, honly⟩ := (hs.2.2 cls hc i he.mem).2 he.free
  have hij : j ≠ i := by
    rintro rfl
    exact hne (Option.some.inj (he.back.symm.trans he'.back))
  have hj := (honly j he'.mem he'.free).resolve_left hij
  have hpath := exits_leaves hg hf.ne 4 i hfree
  rw [← hj] at hpath
  rwa [he.wire, ← he'.back]

end Pair

/-! ## Cutting one end -/

/-- The two ports of a cut wire are disconnected, and the node of the outer end may be freed when
that was its last wire. -/
structure Cut (e x : Port) (n m : Net) : Prop where
  wire : ∀ p : Port, m.live p.node = true → m.wireAt p = if p = e ∨ p = x then none else n.wireAt p
  keep : ∀ p : Port, p.node ≠ e.node → m.wireAt p = if p = x then none else n.wireAt p
  alive : ∀ v, m.live v = true → n.live v = true
  freed : ∀ v, n.live v = true → m.live v = false → v = e.node ∧ ∀ p : Port, p.node = v → p ≠ e → n.wireAt p = none

lemma netRelease_declined {g : Globals} {n : Net} (h : (g.inParallel || n.pins != 0) = true) (v : ℕ) : netRelease g n v = n := by
  unfold netRelease
  split_ifs <;> rfl

/-- Without the leave to free, a cut only takes the wire away. -/
lemma netSever_declined {g : Globals} {n : Net} {e x : Port} (h : (g.inParallel || n.pins != 0) = true)
    (he : n.live e.node = true) (hx : n.live x.node = true) (hwe : n.wireAt e = some x) (hwx : n.wireAt x = some e)
    (hne : x.node ≠ e.node) : netSever g n e = (n.setWire e none).setWire x none := by
  have hinx : n.inNet x.node = true := by
    rw [Net.live_iff] at hx
    simpa [Net.inNet] using hx.1
  have hine : n.inNet e.node = true := by
    rw [Net.live_iff] at he
    simpa [Net.inNet] using he.1
  have hex : e ≠ x := fun heq => hne (heq ▸ rfl)
  have hback : (n.inNet x.node && (n.setWire e none).wireAt x == some e) = true := by simp [hinx, hex, hwx]
  have hrelease : ∀ v, netRelease g ((n.setWire e none).setWire x none) v = (n.setWire e none).setWire x none :=
    netRelease_declined (n := (n.setWire e none).setWire x none) h
  simp only [netSever, hine, hwe, Net.inNet_setWire, hback, Bool.not_true, Bool.false_eq_true, if_false, if_true, hrelease,
    ite_self]

lemma netSever_cut (g : Globals) {n : Net} {e x : Port} (he : n.live e.node = true) (hx : n.live x.node = true)
    (hwe : n.wireAt e = some x) (hwx : n.wireAt x = some e) (hne : x.node ≠ e.node)
    (hlive : ∀ p : Port, p.node = e.node → ∀ w, n.wireAt p = some w → n.live w.node = true)
    (hkeep : ∃ p w : Port, p.node = x.node ∧ p ≠ x ∧ n.wireAt p = some w ∧ n.live w.node = true ∧ w.node ≠ e.node) :
    Cut e x n (netSever g n e) := by
  by_cases hfrees : (g.inParallel || n.pins != 0) = true
  · rw [netSever_declined hfrees he hx hwe hwx hne]
    have hwire : ∀ p, ((n.setWire e none).setWire x none).wireAt p = if p = e ∨ p = x then none else n.wireAt p := by
      intro p
      simp only [Net.wireAt_setWire]
      by_cases h1 : x = p
      · simp [h1]
      · by_cases h2 : e = p
        · simp [h2]
        · simp [h1, h2, Ne.symm h1, Ne.symm h2]
    refine ⟨fun p _ => hwire p, fun p hp => ?_, fun v hv => hv, fun v hv hdead => ?_⟩
    · have hpe : p ≠ e := fun heq => hp (heq ▸ rfl)
      rw [hwire]
      simp [hpe]
    · exact absurd (hdead.symm.trans hv) Bool.false_ne_true
  · rw [Bool.not_eq_true, Bool.or_eq_false_iff] at hfrees
    have hs := netSever_spec hfrees.1 (by simpa using hfrees.2) he hx hwe hwx hne hlive hkeep
    refine ⟨hs.wire, hs.wireOther, fun v hv => ((hs.live v).mp hv).1, fun v hv hdead => ?_⟩
    by_contra hno
    exact absurd (hdead.symm.trans ((hs.live v).mpr ⟨hv, hno⟩)) Bool.false_ne_true

/-! ## One class after the other -/

section Classes

variable {n m : Net} {n1 n2 : ℕ} {L rest : List (List (Fin 6))} {cls : List (Fin 6)}

/-- The net `m` between two classes, seen from the net `n` at the start: the classes `L` are
handled, and the ports of `rest` are as they were. -/
structure Partway (n : Net) (n1 n2 : ℕ) (L rest : List (List (Fin 6))) (m : Net) : Prop where
  wire : ∀ p : Port, m.live p.node = true → Outside n1 n2 p → m.wireAt p = newWire n n1 n2 L p
  inner : ∀ j ∈ rest.flatten, m.wireAt (pairPort n1 n2 j) = n.wireAt (pairPort n1 n2 j)
  facing : m.graph.Facing n1 n2
  alive : ∀ v, m.live v = true → n.live v = true
  freed : ∀ v, n.live v = true → m.live v = false → v ≠ n1 ∧ v ≠ n2 ∧
    (∃ cls ∈ L, ∃ e, endsOf n n1 n2 cls = [e] ∧ e.node = v) ∧ ∀ p : Port, p.node = v → newWire n n1 n2 L p = none

lemma partway_start (hf : n.graph.Facing n1 n2) (L : List (List (Fin 6))) : Partway n n1 n2 [] L n where
  wire p _ _ := by cases hw : n.wireAt p <;> simp [newWire, hw]
  inner _ _ := rfl
  facing := hf
  alive _ hv := hv
  freed _ hv hdead := absurd (hdead.symm.trans hv) Bool.false_ne_true

/-- The wire of an end whose class is yet to come is as it was. -/
lemma newWire_ahead {p : Port} {j : Fin 6} (h : n1 ≠ n2) (hd : (L ++ cls :: rest).flatten.Nodup) (hj : j ∈ cls)
    (hw : n.wireAt p = some (pairPort n1 n2 j)) : newWire n n1 n2 L p = some (pairPort n1 n2 j) := by
  have hfind : L.find? (inClass n1 n2 (pairPort n1 n2 j)) = none := by
    rw [List.find?_eq_none]
    intro c hc hin
    obtain ⟨i, hi, hij⟩ := inClass_iff.mp hin
    rw [pairPort_inj h hij] at hi
    rw [List.flatten_append, List.nodup_append] at hd
    exact hd.2.2 j (List.mem_flatten.mpr ⟨c, hc, hi⟩) j (by simp [hj]) rfl
  simp [newWire, hw, hfind]

/-- An end is joined to the other end of its class. -/
lemma newWire_end {p : Port} {j : Fin 6} (h : n1 ≠ n2) (hd : L.flatten.Nodup) (hc : cls ∈ L) (hj : j ∈ cls)
    (hw : n.wireAt p = some (pairPort n1 n2 j)) : newWire n n1 n2 L p = partner (endsOf n n1 n2 cls) p := by
  cases hfind : L.find? (inClass n1 n2 (pairPort n1 n2 j)) with
  | none => exact absurd (inClass_iff.mpr ⟨j, hj, rfl⟩) (List.find?_eq_none.mp hfind cls hc)
  | some c =>
    obtain ⟨i, hi, hij⟩ := inClass_iff.mp (List.find?_some hfind)
    rw [pairPort_inj h hij] at hi
    have hcc : c = cls := by
      by_contra hne
      have : Std.Symm (List.Disjoint (α := Fin 6)) := ⟨fun _ _ hxy => hxy.symm⟩
      exact ((List.nodup_flatten.mp hd).2.forall (List.mem_of_find?_eq_some hfind) hc hne) hi hj
    simp [newWire, hw, hfind, hcc]

/-- One class more only changes the wires of its ends. -/
lemma newWire_snoc (hn : SymmetricWires n) (hf : n.graph.Facing n1 n2) (hd : (L ++ cls :: rest).flatten.Nodup) {p : Port}
    (hl : n.live p.node = true) (ho : Outside n1 n2 p) : newWire n n1 n2 (L ++ [cls]) p =
      if p ∈ endsOf n n1 n2 cls then partner (endsOf n n1 n2 cls) p else newWire n n1 n2 L p := by
  have hd' : (L ++ [cls]).flatten.Nodup := by
    rw [List.flatten_append, List.nodup_append] at hd ⊢
    rw [List.flatten_cons, List.nodup_append] at hd
    refine ⟨hd.1, by simpa using hd.2.1.1, fun a ha b hb => hd.2.2 a ha b ?_⟩
    exact List.mem_append_left _ (by simpa using hb)
  split_ifs with hp
  · obtain ⟨j, he⟩ := endOf_of_mem hn hf hp
    exact newWire_end hf.ne hd' (by simp) he.mem he.wire
  · cases hw : n.wireAt p with
    | none => rw [newWire_none hw, newWire_none hw]
    | some q =>
      have hq : inClass n1 n2 q cls = false := by
        rw [Bool.eq_false_iff, ne_eq, inClass_iff]
        rintro ⟨j, hj, rfl⟩
        exact hp (mem_endsOf_of_wire hn hj hl ho hw)
      simp [newWire, hw, List.find?_append, hq]

/-- A joined wire of a live port leads to a live node, whose port leads back. -/
lemma newWire_back (hn : SymmetricWires n) (hf : n.graph.Facing n1 n2) (hd : L.flatten.Nodup) {p q : Port}
    (hl : n.live p.node = true) (ho : Outside n1 n2 p) (hw : newWire n n1 n2 L p = some q) :
    n.live q.node = true ∧ (Outside n1 n2 q → newWire n n1 n2 L q = some p) := by
  cases hp : n.wireAt p with
  | none =>
    rw [newWire_none hp] at hw
    exact absurd hw.symm (Option.some_ne_none q)
  | some r =>
    obtain ⟨hrl, hrb⟩ := hn p r hl hp
    by_cases hro : Outside n1 n2 r
    · rw [newWire_outside hp hro, Option.some_inj] at hw
      subst hw
      exact ⟨hrl, fun _ => newWire_outside hrb ho⟩
    · obtain ⟨j, rfl⟩ := exists_pairPort hro
      cases hfind : L.find? (inClass n1 n2 (pairPort n1 n2 j)) with
      | none =>
        have hsame : newWire n n1 n2 L p = some (pairPort n1 n2 j) := by simp [newWire, hp, hfind]
        rw [hsame, Option.some_inj] at hw
        subst hw
        exact ⟨hrl, fun ho' => absurd ho' (pairPort_not_outside n1 n2 j)⟩
      | some c =>
        have hc := List.mem_of_find?_eq_some hfind
        have hnew : newWire n n1 n2 L p = partner (endsOf n n1 n2 c) p := by simp [newWire, hp, hfind]
        obtain ⟨i, hi, hij⟩ := inClass_iff.mp (List.find?_some hfind)
        have hpe : p ∈ endsOf n n1 n2 c := mem_endsOf_of_wire hn hi hl ho (by rw [hij, hp])
        rw [hnew] at hw
        obtain ⟨hback, -⟩ := partner_comm (symmetric_endsOf_nodup hn hf ((List.nodup_flatten.mp hd).1 c hc)) hpe hw
        obtain ⟨k, hk⟩ := endOf_of_mem hn hf (partner_mem hw)
        exact ⟨hk.live, fun _ => by rw [newWire_end hf.ne hd hc hk.mem hk.wire, hback]⟩

lemma Partway.endsOf (h : Partway n n1 n2 L (cls :: rest) m) : endsOf m n1 n2 cls = endsOf n n1 n2 cls :=
  endsOf_congr fun j hj => h.inner j (by simp [hj])

/-- An end whose class is yet to come is live, and wired as it was. -/
lemma Partway.live_end (h : Partway n n1 n2 L (cls :: rest) m) (hf : n.graph.Facing n1 n2)
    (hd : (L ++ cls :: rest).flatten.Nodup) {e : Port} {j : Fin 6} (he : EndOf n n1 n2 cls e j) : EndOf m n1 n2 cls e j := by
  have hnew := newWire_ahead hf.ne hd he.mem he.wire
  have hlive : m.live e.node = true := by
    by_contra hdead
    obtain ⟨-, -, -, hnone⟩ := h.freed e.node he.live (Bool.eq_false_iff.mpr hdead)
    exact absurd (hnew.symm.trans (hnone e rfl)) (Option.some_ne_none _)
  refine ⟨he.mem, he.outside, hlive, (h.wire e hlive he.outside).trans hnew, ?_⟩
  rw [h.inner j (by simp [he.mem]), he.back]

/-- What handling a class with the given ends does to the net at that moment. -/
structure Handled (n1 n2 : ℕ) (ends : List Port) (rest : List (List (Fin 6))) (m m' : Net) : Prop where
  wire : ∀ p : Port, m'.live p.node = true → Outside n1 n2 p →
    m'.wireAt p = if p ∈ ends then partner ends p else m.wireAt p
  inner : ∀ j ∈ rest.flatten, m'.wireAt (pairPort n1 n2 j) = m.wireAt (pairPort n1 n2 j)
  facing : m'.graph.Facing n1 n2
  alive : ∀ v, m'.live v = true → m.live v = true
  freed : ∀ v, m.live v = true → m'.live v = false → v ≠ n1 ∧ v ≠ n2 ∧
    ∃ e, ends = [e] ∧ e.node = v ∧ ∀ p : Port, p.node = v → p ≠ e → m.wireAt p = none

lemma Partway.snoc (h : Partway n n1 n2 L (cls :: rest) m) (hn : SymmetricWires n) (hf : n.graph.Facing n1 n2)
    (hd : (L ++ cls :: rest).flatten.Nodup) {m' : Net} (hs : Handled n1 n2 (LinEngine.endsOf n n1 n2 cls) rest m m') :
    Partway n n1 n2 (L ++ [cls]) rest m' where
  wire p hl ho := by
    have hm := hs.alive _ hl
    rw [hs.wire p hl ho, newWire_snoc hn hf hd (h.alive _ hm) ho, h.wire p hm ho]
  inner j hj := by rw [hs.inner j hj, h.inner j (by simp only [List.flatten_cons, List.mem_append]; exact .inr hj)]
  facing := hs.facing
  alive v hv := h.alive v (hs.alive v hv)
  freed v hv hdead := by
    by_cases hm : m.live v = true
    · obtain ⟨h1, h2, e, he, rfl, hnone⟩ := hs.freed v hm hdead
      refine ⟨h1, h2, ⟨cls, by simp, e, he, rfl⟩, fun p hp => ?_⟩
      have ho : Outside n1 n2 p := ⟨hp ▸ h1, hp ▸ h2⟩
      rw [newWire_snoc hn hf hd (hp ▸ hv) ho, he]
      split_ifs with hpe
      · rfl
      · rw [← h.wire p (hp ▸ hm) ho]
        exact hnone p hp fun heq => hpe (heq ▸ List.mem_singleton_self p)
    · obtain ⟨h1, h2, ⟨c, hc, hce⟩, hnone⟩ := h.freed v hv (Bool.eq_false_iff.mpr hm)
      refine ⟨h1, h2, ⟨c, List.mem_append_left _ hc, hce⟩, fun p hp => ?_⟩
      have ho : Outside n1 n2 p := ⟨hp ▸ h1, hp ▸ h2⟩
      rw [newWire_snoc hn hf hd (hp ▸ hv) ho, hnone p hp]
      refine if_neg fun hpe => ?_
      obtain ⟨j, he⟩ := endOf_of_mem hn hf hpe
      exact hm (hp ▸ (h.live_end hf hd he).live)

/-- A class with two ends. -/
lemma Partway.link (h : Partway n n1 n2 L (cls :: rest) m) (g : Globals) {e e' : Port} {i j : Fin 6} (hne : e ≠ e')
    (he : EndOf m n1 n2 cls e i) (he' : EndOf m n1 n2 cls e' j) :
    Handled n1 n2 [e, e'] rest m (netLink g m (some e) (some e') true) := by
  have hk := netLink_linked g m (some e) (some e') true
  have hw : ∀ p, (netLink g m (some e) (some e') true).wireAt p = if p ∈ [e, e'] then partner [e, e'] p else m.wireAt p := by
    intro p
    rw [netLink_wireAt]
    by_cases h1 : e' = p
    · simp [partner, ← h1, Ne.symm hne]
    · by_cases h2 : e = p
      · simp [partner, ← h2, Ne.symm hne]
      · simp [h1, h2, Ne.symm h1, Ne.symm h2]
  have hpair : ∀ p, ¬ Outside n1 n2 p → (netLink g m (some e) (some e') true).wireAt p = m.wireAt p := by
    intro p hp
    rw [hw]
    refine if_neg fun hpe => hp ?_
    rcases List.mem_pair.mp hpe with rfl | rfl
    · exact he.outside
    · exact he'.outside
  refine ⟨fun p _ _ => hw p, fun k _ => hpair _ (pairPort_not_outside n1 n2 k), ?_, fun v hv => ?_, fun v hv hdead => ?_⟩
  · refine ⟨h.facing.ne, ?_, ?_, ?_, ?_⟩
    · exact (hk.live n1).trans h.facing.liveL
    · exact (hk.live n2).trans h.facing.liveR
    · exact (hpair ⟨n1, 0⟩ (by simp [Outside])).trans h.facing.wireL
    · exact (hpair ⟨n2, 0⟩ (by simp [Outside])).trans h.facing.wireR
  · rwa [hk.live] at hv
  · rw [hk.live, hv] at hdead
    exact absurd hdead.symm Bool.false_ne_true

/-- The wires of the outside lead to live nodes, also between two classes. -/
lemma Partway.live_target (h : Partway n n1 n2 L rest m) (hn : SymmetricWires n) (hf : n.graph.Facing n1 n2)
    (hd : L.flatten.Nodup) {p w : Port} (hl : m.live p.node = true) (ho : Outside n1 n2 p) (hw : m.wireAt p = some w) :
    m.live w.node = true := by
  rw [h.wire p hl ho] at hw
  obtain ⟨hwl, hback⟩ := newWire_back hn hf hd (h.alive _ hl) ho hw
  by_contra hdead
  obtain ⟨h1, h2, -, hnone⟩ := h.freed w.node hwl (Bool.eq_false_iff.mpr hdead)
  exact absurd ((hback ⟨h1, h2⟩).symm.trans (hnone w rfl)) (Option.some_ne_none p)

/-- The principal wire of a pair port that leads outside. -/
lemma facing_principal (hf : m.graph.Facing n1 n2) {e x : Port} (he : Outside n1 n2 e) (hx : ¬ Outside n1 n2 x)
    (hw : m.wireAt x = some e) : x ≠ ⟨n1, 0⟩ ∧ x ≠ ⟨n2, 0⟩ ∧ ∃ p w : Port, p.node = x.node ∧ p ≠ x ∧
      m.wireAt p = some w ∧ m.live w.node = true ∧ w.node ≠ e.node := by
  have h1 : x ≠ ⟨n1, 0⟩ := by
    rintro rfl
    exact he.2 (congrArg Port.node (Option.some.inj (hw.symm.trans hf.wireL)))
  have h2 : x ≠ ⟨n2, 0⟩ := by
    rintro rfl
    exact he.1 (congrArg Port.node (Option.some.inj (hw.symm.trans hf.wireR)))
  refine ⟨h1, h2, ?_⟩
  have hnode : x.node = n1 ∨ x.node = n2 := by
    by_contra hno
    exact hx (not_or.mp hno)
  rcases hnode with h | h
  · exact ⟨⟨n1, 0⟩, ⟨n2, 0⟩, h.symm, h1.symm, hf.wireL, hf.liveR, he.2.symm⟩
  · exact ⟨⟨n2, 0⟩, ⟨n1, 0⟩, h.symm, h2.symm, hf.wireR, hf.liveL, he.1.symm⟩

/-- A class with one end. -/
lemma Partway.cut (h : Partway n n1 n2 L (cls :: rest) m) (hn : SymmetricWires n) (hf : n.graph.Facing n1 n2)
    (hd : (L ++ cls :: rest).flatten.Nodup) (g : Globals) {e : Port} {i : Fin 6} (he : EndOf m n1 n2 cls e i) :
    Handled n1 n2 [e] rest m (netSever g m e) := by
  rw [List.flatten_append, List.nodup_append] at hd
  have hxo := pairPort_not_outside n1 n2 i
  have hxe : (pairPort n1 n2 i).node ≠ e.node := fun heq =>
    hxo ⟨fun h1 => he.outside.1 (heq.symm.trans h1), fun h2 => he.outside.2 (heq.symm.trans h2)⟩
  obtain ⟨hx1, hx2, hkeep⟩ := facing_principal h.facing he.outside hxo he.back
  have hcut : Cut e (pairPort n1 n2 i) m (netSever g m e) := by
    refine netSever_cut g he.live (live_pairPort h.facing i) he.wire he.back hxe (fun p hp w hw => ?_) hkeep
    exact h.live_target hn hf hd.1 (hp ▸ he.live) ⟨hp ▸ he.outside.1, hp ▸ he.outside.2⟩ hw
  have hlive : ∀ v, v ≠ e.node → m.live v = true → (netSever g m e).live v = true := by
    intro v hv hl
    by_contra hdead
    exact hv (hcut.freed v hl (Bool.eq_false_iff.mpr hdead)).1
  have hpair : ∀ p, ¬ Outside n1 n2 p → p ≠ pairPort n1 n2 i → (netSever g m e).wireAt p = m.wireAt p := by
    intro p hp hpx
    rw [hcut.keep p fun hpe => hp ⟨hpe ▸ he.outside.1, hpe ▸ he.outside.2⟩, if_neg hpx]
  refine ⟨fun p hl ho => ?_, fun j hj => ?_, ?_, hcut.alive, fun v hv hdead => ?_⟩
  · have hpx : p ≠ pairPort n1 n2 i := fun heq => hxo (heq ▸ ho)
    rw [hcut.wire p hl]
    by_cases hpe : p = e
    · simp [hpe, partner]
    · simp [hpe, hpx]
  · refine hpair _ (pairPort_not_outside n1 n2 j) fun heq => ?_
    have hlater := hd.2.1
    rw [List.flatten_cons, List.nodup_append] at hlater
    exact hlater.2.2 i he.mem j hj (pairPort_inj hf.ne heq).symm
  · refine ⟨h.facing.ne, ?_, ?_, ?_, ?_⟩
    · exact hlive n1 he.outside.1.symm h.facing.liveL
    · exact hlive n2 he.outside.2.symm h.facing.liveR
    · exact (hpair ⟨n1, 0⟩ (by simp [Outside]) hx1.symm).trans h.facing.wireL
    · exact (hpair ⟨n2, 0⟩ (by simp [Outside]) hx2.symm).trans h.facing.wireR
  · obtain ⟨rfl, hnone⟩ := hcut.freed v hv hdead
    exact ⟨he.outside.1, he.outside.2, e, rfl, rfl, hnone⟩

lemma Partway.step (h : Partway n n1 n2 L (cls :: rest) m) (hn : SymmetricWires n) (hf : n.graph.Facing n1 n2)
    (hd : (L ++ cls :: rest).flatten.Nodup) (g : Globals) (hlen : (LinEngine.endsOf n n1 n2 cls).length ≤ 2) :
    Partway n n1 n2 (L ++ [cls]) rest (joinClass g n1 n2 m cls) := by
  refine h.snoc hn hf hd ?_
  have hcls : cls.Nodup := (List.nodup_flatten.mp hd).1 cls (by simp)
  have hnodup := symmetric_endsOf_nodup hn hf hcls
  have hend : ∀ e ∈ LinEngine.endsOf n n1 n2 cls, ∃ j, EndOf m n1 n2 cls e j := fun e he => by
    obtain ⟨j, hj⟩ := endOf_of_mem hn hf he
    exact ⟨j, h.live_end hf hd hj⟩
  obtain ⟨h0, h1, h2⟩ := joinClass_eq g n1 n2 m cls
  rw [h.endsOf] at h0 h1 h2
  rcases hends : LinEngine.endsOf n n1 n2 cls with _ | ⟨e, _ | ⟨e', _ | ⟨e'', es⟩⟩⟩
  · rw [h0 hends]
    refine ⟨fun p _ _ => by simp, fun j _ => rfl, h.facing, fun v hv => hv, fun v hv hdead => ?_⟩
    exact absurd (hdead.symm.trans hv) Bool.false_ne_true
  · obtain ⟨i, he⟩ := hend e (by simp [hends])
    rw [h1 e hends]
    exact h.cut hn hf hd g he
  · obtain ⟨i, he⟩ := hend e (by simp [hends])
    obtain ⟨j, he'⟩ := hend e' (by simp [hends])
    rw [h2 e e' hends]
    exact h.link g (by simpa [hends] using hnodup) he he'
  · simp [hends] at hlen

/-- All classes, each with at most two outside ends. -/
lemma Partway.run (h : Partway n n1 n2 L rest m) (hn : SymmetricWires n) (hf : n.graph.Facing n1 n2)
    (hd : (L ++ rest).flatten.Nodup) (g : Globals) (hlen : ∀ cls ∈ rest, (LinEngine.endsOf n n1 n2 cls).length ≤ 2) :
    Partway n n1 n2 (L ++ rest) [] (rest.foldl (joinClass g n1 n2) m) := by
  induction rest generalizing L m with
  | nil => simpa using h
  | cons cls rest ih =>
    have hstep := h.step hn hf hd g (hlen cls List.mem_cons_self)
    have hassoc : L ++ cls :: rest = L ++ [cls] ++ rest := by simp
    rw [hassoc] at hd ⊢
    exact ih hstep hd fun c hc => hlen c (List.mem_cons_of_mem cls hc)

end Classes

/-! ## The two rules that join -/

/-- The correspondence of the rule for two nodes, and the gluing of ports that it means. -/
def joining (n : Net) (n1 n2 : ℕ) : Option (List (ℕ × ℕ) × (Fin 3 → Fin 3)) :=
  match n.tag.get n1, n.tag.get n2 with
  | .lam, .app => some ([(1, 5), (2, 4)], swapped)
  | .dup, .dup => if n.scope.get n1 = n.scope.get n2 then some ([(1, 4), (2, 5)], straight) else none
  | _, _ => none

/-- Two of the six ports are one step apart: by a wire, or by the correspondence. -/
def Adjoins (n : Net) (n1 n2 : ℕ) (s : Fin 3 → Fin 3) (i j : Fin 6) : Prop :=
  n.wireAt (pairPort n1 n2 i) = some (pairPort n1 n2 j) ∨
    crossing n1 n2 s (pairPort n1 n2 i) = some (pairPort n1 n2 j)

/-- What `pair_boundary` leaves of `n`, for the classes `L` of the six ports and the gluing `s`. -/
structure EndsJoined (n : Net) (n1 n2 : ℕ) (s : Fin 3 → Fin 3) (L : List (List (Fin 6))) (m : Net) : Prop where
  parted : L.flatten.Nodup ∧ ∀ j, j ∈ L.flatten
  connected : ∀ cls ∈ L, ∀ i ∈ cls, ∀ j, j ∈ cls ↔ Relation.ReflTransGen (Adjoins n n1 n2 s) i j
  few : ∀ cls ∈ L, (endsOf n n1 n2 cls).length ≤ 2
  two : ∀ cls ∈ L, ∀ e e', endsOf n n1 n2 cls = [e, e'] →
    m.live e.node = true ∧ m.live e'.node = true ∧ m.wireAt e = some e' ∧ m.wireAt e' = some e ∧
      Exits n.wireAt (crossing n1 n2 s) (n.wireAt e) (some e') ∧ Exits n.wireAt (crossing n1 n2 s) (n.wireAt e') (some e)
  one : ∀ cls ∈ L, ∀ e, endsOf n n1 n2 cls = [e] → m.live e.node = true → m.wireAt e = none
  other : ∀ p : Port, Outside n1 n2 p → (∀ j, n.wireAt p ≠ some (pairPort n1 n2 j)) → m.live p.node = true →
    m.wireAt p = n.wireAt p
  alive : ∀ v, m.live v = true → n.live v = true
  freed : ∀ v, n.live v = true → m.live v = false → (∃ cls ∈ L, ∃ e, endsOf n n1 n2 cls = [e] ∧ e.node = v) ∧
    ∀ p : Port, p.node = v → n.wireAt p = none ∨ ∃ cls ∈ L, endsOf n n1 n2 cls = [p]

section Rules

variable {n m : Net} {n1 n2 : ℕ} {cor : List (ℕ × ℕ)} {x : Fin 6 → Fin 6} {s : Fin 3 → Fin 3}

/-- A class is all that its ports are connected to. -/
lemma Connects.mem_iff (hg : Corresponds cor x s) (h : n1 ≠ n2) {cls : List (Fin 6)}
    (hcls : ∀ j ∈ cls, Connects x (pairShape n n1 n2) cls j) {i : Fin 6} (hi : i ∈ cls) (j : Fin 6) :
    j ∈ cls ↔ Relation.ReflTransGen (Adjoins n n1 n2 s) i j := by
  have hcross : ∀ k, Adjoins n n1 n2 s k (x k) := fun k => .inr (hg.crossing n1 n2 h k)
  have hwire : ∀ k l, pairShape n n1 n2 k = some l → Adjoins n n1 n2 s k l := fun k l hkl => .inl ((insideIdx_eq_some h).mp hkl)
  constructor
  · intro hj
    have hnear := (hcls i hi).2 j hj
    simp only [within, List.mem_cons, List.not_mem_nil, or_false, Option.some.injEq, eq_comm (a := some j),
      Option.map_eq_some_iff, Option.bind_eq_some_iff] at hnear
    rcases hnear with rfl | rfl | h1 | ⟨k, h1, rfl⟩ | h1 | ⟨k, h1, rfl⟩ | ⟨l, ⟨k, h1, rfl⟩, h2⟩
    · exact .refl
    · exact .single (hcross i)
    · exact .tail (.single (hcross i)) (hwire _ _ h1)
    · exact .tail (.tail (.single (hcross i)) (hwire _ _ h1)) (hcross k)
    · exact .single (hwire _ _ h1)
    · exact .tail (.single (hwire _ _ h1)) (hcross k)
    · exact .tail (.tail (.single (hwire _ _ h1)) (hcross k)) (hwire _ _ h2)
  · intro hij
    induction hij with
    | refl => exact hi
    | @tail k l _ hstep ih =>
      rcases hstep with hw | hx
      · exact (hcls k ih).1.2 l ((insideIdx_eq_some h).mpr hw)
      · rw [hg.crossing n1 n2 h k, Option.some_inj] at hx
        rw [← pairPort_inj h hx]
        exact (hcls k ih).1.1

/-- An outside port that is joined to nothing was connected to nothing, or is the only end of its class. -/
lemma newWire_eq_none (hn : SymmetricWires n) (hf : n.graph.Facing n1 n2) {L : List (List (Fin 6))}
    (hlen : ∀ cls ∈ L, (endsOf n n1 n2 cls).length ≤ 2) (hall : ∀ j, j ∈ L.flatten) (hd : L.flatten.Nodup) {p : Port}
    (hl : n.live p.node = true) (ho : Outside n1 n2 p) (hnone : newWire n n1 n2 L p = none) :
    n.wireAt p = none ∨ ∃ cls ∈ L, endsOf n n1 n2 cls = [p] := by
  cases hw : n.wireAt p with
  | none => exact .inl rfl
  | some q =>
    right
    by_cases hq : Outside n1 n2 q
    · rw [newWire_outside hw hq] at hnone
      exact absurd hnone (Option.some_ne_none q)
    · obtain ⟨j, rfl⟩ := exists_pairPort hq
      obtain ⟨cls, hc, hj⟩ := List.mem_flatten.mp (hall j)
      have hpe := mem_endsOf_of_wire hn hj hl ho hw
      rw [newWire_end hf.ne hd hc hj hw] at hnone
      have hfew := hlen cls hc
      refine ⟨cls, hc, ?_⟩
      rcases hends : endsOf n n1 n2 cls with _ | ⟨e, _ | ⟨e', _ | ⟨e'', es⟩⟩⟩
      · rw [hends] at hpe
        exact absurd hpe List.not_mem_nil
      · rw [hends, List.mem_singleton] at hpe
        rw [hpe]
      · rw [hends, partner] at hnone
        split_ifs at hnone
      · simp [hends] at hfew

lemma pairBoundary_endsJoined (g : Globals) (hn : SymmetricWires n) (hf : n.graph.Facing n1 n2) (hg : Corresponds cor x s) :
    EndsJoined n n1 n2 s (pairClasses (fun i => insidePair n1 n2 (n.wireAt (pairPort n1 n2 i))) cor)
      (pairBoundary g n n1 n2 cor) := by
  have hclasses : (fun i => insidePair n1 n2 (n.wireAt (pairPort n1 n2 i))) = fun i => (pairShape n n1 n2 i).map Fin.val :=
    funext fun i => insidePair_eq hf.ne _
  rw [pairBoundary_eq g hf.ne, hclasses]
  have hs := hg.parted _ (pairShape_inside hn hf)
  set L := pairClasses (fun i => (pairShape n n1 n2 i).map Fin.val) cor with hL
  have hlen : ∀ cls ∈ L, (endsOf n n1 n2 cls).length ≤ 2 := fun cls hc => hs.endsOf_length hc
  have hrun := (partway_start hf L).run hn hf hs.1 g hlen
  rw [List.nil_append] at hrun
  have hends : ∀ cls ∈ L, ∀ e ∈ endsOf n n1 n2 cls, ∃ j, EndOf n n1 n2 cls e j ∧
      newWire n n1 n2 L e = partner (endsOf n n1 n2 cls) e := by
    intro cls hc e he
    obtain ⟨j, hj⟩ := endOf_of_mem hn hf he
    exact ⟨j, hj, newWire_end hf.ne hs.1 hc hj.mem hj.wire⟩
  refine ⟨⟨hs.1, hs.2.1⟩, fun cls hc i hi j => ?_, hlen, fun cls hc e e' hee => ?_, fun cls hc e he hl => ?_,
    fun p ho hno hl => ?_, hrun.alive, fun v hv hdead => ?_⟩
  · exact Connects.mem_iff hg hf.ne (fun k hk => (hs.2.2 cls hc k hk).1) hi j
  · obtain ⟨i, he, hnew⟩ := hends cls hc e (by simp [hee])
    obtain ⟨j, he', hnew'⟩ := hends cls hc e' (by simp [hee])
    have hne : e ≠ e' := by
      have := symmetric_endsOf_nodup hn hf ((List.nodup_flatten.mp hs.1).1 cls hc)
      simpa [hee] using this
    rw [hee] at hnew hnew'
    have hw : newWire n n1 n2 L e = some e' := by simpa [partner] using hnew
    have hw' : newWire n n1 n2 L e' = some e := by simpa [partner, Ne.symm hne] using hnew'
    have hstay : ∀ u w, n.live u.node = true → newWire n n1 n2 L u = some w → (L.foldl (joinClass g n1 n2) n).live u.node = true := by
      intro u w hu huw
      by_contra hdead
      have hnone := (hrun.freed u.node hu (Bool.eq_false_iff.mpr hdead)).2.2.2 u rfl
      exact absurd (huw.symm.trans hnone) (Option.some_ne_none w)
    have hl := hstay e e' he.live hw
    have hl' := hstay e' e he'.live hw'
    exact ⟨hl, hl', (hrun.wire e hl he.outside).trans hw, (hrun.wire e' hl' he'.outside).trans hw',
      hs.exits hg hf hc hne he he', hs.exits hg hf hc hne.symm he' he⟩
  · obtain ⟨i, hi, hnew⟩ := hends cls hc e (by simp [he])
    rw [hrun.wire e hl hi.outside, hnew, he]
    rfl
  · rw [hrun.wire p hl ho]
    cases hw : n.wireAt p with
    | none => exact newWire_none hw
    | some q =>
      refine newWire_outside hw ?_
      by_contra hq
      obtain ⟨j, rfl⟩ := exists_pairPort hq
      exact hno j hw
  · obtain ⟨h1, h2, hone, hnone⟩ := hrun.freed v hv hdead
    refine ⟨hone, fun p hp => ?_⟩
    exact newWire_eq_none hn hf hlen hs.2.1 hs.1 (hp ▸ hv) ⟨hp ▸ h1, hp ▸ h2⟩ (hnone p hp)

/-- The two rules that join run `pair_boundary` on the pair and then retire it, and every class of the six ports
is joined as its ends are. -/
theorem pairBoundary_joins (g : Globals) (n : Net) (n1 n2 : ℕ) (cor : List (ℕ × ℕ)) (s : Fin 3 → Fin 3)
    (hn : SymmetricWires n) (hf : n.graph.Facing n1 n2) (hrule : joining n n1 n2 = some (cor, s)) :
    interactSorted g n n1 n2 = (true, retire g (pairBoundary g n n1 n2 cor) n1 n2) ∧
      EndsJoined n n1 n2 s (pairClasses (fun i => insidePair n1 n2 (n.wireAt (pairPort n1 n2 i))) cor)
        (pairBoundary g n n1 n2 cor) := by
  unfold joining at hrule
  unfold interactSorted
  split at hrule
  · rename_i h1 h2
    obtain ⟨rfl, rfl⟩ := Prod.mk.inj (Option.some.inj hrule)
    rw [h1, h2]
    exact ⟨rfl, pairBoundary_endsJoined g hn hf corresponds_swapped⟩
  · rename_i h1 h2
    split_ifs at hrule with hgauge
    obtain ⟨rfl, rfl⟩ := Prod.mk.inj (Option.some.inj hrule)
    rw [h1, h2]
    refine ⟨?_, pairBoundary_endsJoined g hn hf corresponds_straight⟩
    dsimp only
    rw [if_pos hgauge]
  · exact absurd hrule.symm (Option.some_ne_none _)

end Rules

lemma Wired.symmetricWires {n : Net} (h : Wired n) : SymmetricWires n := fun p q hl hw =>
  ⟨(h p q hl hw).1, (h p q hl hw).2.1⟩

lemma identityNet_facing : identityNet.graph.Facing 2 1 := by
  have h1 : identityNet.live 1 = true := by decide
  have h2 : identityNet.live 2 = true := by decide
  exact ⟨by decide, h2, h1, by decide, by decide⟩

/-- The function is the identity, so the class of its two auxiliaries is crossed inside the pair. -/
theorem pairBoundary_joins_identity :
    interactSorted .serial identityNet 2 1 =
        (true, retire .serial (pairBoundary .serial identityNet 2 1 [(1, 5), (2, 4)]) 2 1) ∧
      EndsJoined identityNet 2 1 swapped
        (pairClasses (fun i => insidePair 2 1 (identityNet.wireAt (pairPort 2 1 i))) [(1, 5), (2, 4)])
        (pairBoundary .serial identityNet 2 1 [(1, 5), (2, 4)]) :=
  pairBoundary_joins .serial identityNet 2 1 [(1, 5), (2, 4)] swapped (wired_of_check (by decide)).symmetricWires
    identityNet_facing rfl

end LinEngine
