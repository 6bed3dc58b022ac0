import LinEngine.Net
import LinEngine.Orbits

/-!
# The determinant of the execution

`goi_det` of `goi.c` marks the ports trail by trail. A trail that meets its own number has closed a
cycle, one that ends or meets an earlier mark has not. Each loop spends fuel, and `none` is a
run that had too little.
-/
namespace LinEngine

def goiMod : ℤ := 1000000007

def modpowLoop (r a : ℤ) (e : ℕ) : ℤ :=
  if e = 0 then r else modpowLoop (if e % 2 = 1 then r * a % goiMod else r) (a * a % goiMod) (e / 2)
termination_by e

def modpow (a : ℤ) (e : ℕ) : ℤ := modpowLoop 1 a e

/-- The macro `NXT(y)` on port numbers. -/
def nxt (n : Net) (y : ℕ) : Option ℕ := (n.wire.get y).map fun w => w.node * 3 + w.port

/-- Give the unmarked ports from `x` on the number of the trail, and count them. -/
def trail (n : Net) (tid : ℤ) : ℕ → Table ℤ 0 → ℕ → Option ℕ → Option (Table ℤ 0 × ℕ × Option ℕ)
  | 0, _, _, _ => none
  | _ + 1, mark, k, none => some (mark, k, none)
  | d + 1, mark, k, some x =>
    if mark.get x = 0 then trail n tid d (mark.set x tid) (k + 1) (nxt n x) else some (mark, k, some x)

/-- The ports from `y` on up to `x`, added to `c`. -/
def cycleLength (n : Net) (x : ℕ) : ℕ → ℕ → Option ℕ → Option ℕ
  | 0, _, _ => none
  | _ + 1, _, none => none
  | d + 1, c, some y => if y = x then some c else cycleLength n x d (c + 1) (nxt n y)

/-- The marks of a cycle that has been counted. -/
def countOff (n : Net) (x : ℕ) : ℕ → Table ℤ 0 → Option ℕ → Option (Table ℤ 0)
  | 0, _, _ => none
  | _ + 1, _, none => none
  | d + 1, mark, some y =>
    if nxt n y = some x then some (mark.set y (-1)) else countOff n x d (mark.set y (-1)) (nxt n y)

structure Goi where
  mark : Table ℤ 0
  det : ℤ
  tid : ℤ
  deriving DecidableEq, Repr

/-- The trail has met its own number. -/
def closes (mark : Table ℤ 0) (tid : ℤ) (x : Option ℕ) : Bool := x.any fun x => mark.get x == tid

/-- A trail of `k` ports that meets itself at `x`. -/
def goiCycle (n : Net) (d : ℕ) (det tid : ℤ) (mark : Table ℤ 0) (k x : ℕ) : Option Goi := do
  let c ← cycleLength n x d 1 (nxt n x)
  let mark ← countOff n x d mark (some x)
  return ⟨mark, det * modpow 2 (k - c) % goiMod * ((modpow 2 c - 1 + goiMod) % goiMod) % goiMod, tid⟩

def goiStep (n : Net) (d : ℕ) (s : Goi) (i : ℕ) : Option Goi :=
  if s.mark.get i ≠ 0 then some s
  else
    (trail n (s.tid + 1) d s.mark 0 (some i)).bind fun r =>
      if closes r.1 (s.tid + 1) r.2.2 then r.2.2.bind (goiCycle n d s.det (s.tid + 1) r.1 r.2.1)
      else some ⟨r.1, s.det * modpow 2 r.2.1 % goiMod, s.tid + 1⟩

def goiDet (d : ℕ) (n : Net) : Option ℤ :=
  ((List.range (n.nn * 3)).foldlM (goiStep n d) ⟨.empty, 1, 0⟩).map (·.det)

/-! ## Powers -/

lemma modpowLoop_eq (r a : ℤ) (e : ℕ) (hr : 0 ≤ r ∧ r < goiMod) : modpowLoop r a e = r * a ^ e % goiMod := by
  induction e using Nat.strong_induction_on generalizing r a with
  | _ e ih =>
    unfold modpowLoop
    split_ifs with he hodd
    · rw [he, pow_zero, mul_one, Int.emod_eq_of_lt hr.1 hr.2]
    · have hpos : (0 : ℤ) < goiMod := by decide
      rw [ih (e / 2) (by omega) _ _ ⟨Int.emod_nonneg _ hpos.ne', Int.emod_lt_of_pos _ hpos⟩]
      have hsplit : r * a ^ e = r * a * (a * a) ^ (e / 2) := by
        conv_lhs => rw [← Nat.div_add_mod e 2, hodd, pow_succ, pow_mul]
        ring
      rw [hsplit]
      exact ((Int.mod_modEq _ _).mul ((Int.mod_modEq _ _).pow _))
    · rw [ih (e / 2) (by omega) _ _ hr]
      have hsplit : r * a ^ e = r * (a * a) ^ (e / 2) := by
        conv_lhs => rw [← Nat.div_add_mod e 2, show e % 2 = 0 by omega, add_zero, pow_mul]
        ring
      rw [hsplit]
      exact (Int.ModEq.refl r).mul ((Int.mod_modEq _ _).pow _)

lemma modpow_eq (a : ℤ) (e : ℕ) : modpow a e = a ^ e % goiMod := by
  rw [modpow, modpowLoop_eq 1 a e (by decide), one_mul]

/-! ## The three walks -/

open Orbits (Leads Closed weight)

section

variable {n : Net} {D : Finset ℕ} {mark : Table ℤ 0} {tid : ℤ} {d k c : ℕ} {x s : Option ℕ} {l : List ℕ}

/-- How many ports have no mark. -/
def unmarked (D : Finset ℕ) (mark : Table ℤ 0) : ℕ := (D.filter fun y => mark.get y = 0).card

lemma unmarked_set {y : ℕ} (hy : y ∈ D) (h : mark.get y = 0) (htid : tid ≠ 0) :
    unmarked D (mark.set y tid) < unmarked D mark := by
  refine Finset.card_lt_card (Finset.ssubset_iff_of_subset (fun z hz => ?_) |>.mpr ⟨y, ?_, ?_⟩)
  · simp only [Finset.mem_filter, Table.get_set] at hz ⊢
    refine ⟨hz.1, ?_⟩
    by_cases hyz : y = z
    · exact hyz ▸ h
    · simpa [hyz] using hz.2
  · exact Finset.mem_filter.mpr ⟨hy, h⟩
  · simp [htid]

/-- The ports of a trail. -/
structure Trails (n : Net) (mark : Table ℤ 0) (tid : ℤ) (x : Option ℕ) (l : List ℕ) (mark' : Table ℤ 0) (x' : Option ℕ) :
    Prop where
  leads : Leads (nxt n) x l x'
  nodup : l.Nodup
  new : ∀ y ∈ l, mark.get y = 0
  marks : ∀ y, mark'.get y = if y ∈ l then tid else mark.get y
  ends : ∀ y, x' = some y → mark'.get y ≠ 0

lemma trail_spec (hD : Closed (nxt n) D) (htid : tid ≠ 0) (hx : ∀ y, x = some y → y ∈ D) (hd : unmarked D mark < d) :
    ∃ l mark' x', trail n tid d mark k x = some (mark', k + l.length, x') ∧ Trails n mark tid x l mark' x' := by
  induction d generalizing mark k x with
  | zero => omega
  | succ d ih =>
    cases x with
    | none =>
      exact ⟨[], mark, none, rfl, rfl, .nil, fun y hy => absurd hy List.not_mem_nil, fun y => rfl, fun y hy => (by cases hy)⟩
    | some a =>
      have ha := hx a rfl
      by_cases hmark : mark.get a = 0
      · have hless := unmarked_set ha hmark htid
        obtain ⟨l, mark', x', hrun, ht⟩ := @ih (mark.set a tid) (k + 1) _ (fun y hy => hD a ha y hy) (by omega)
        have hal : a ∉ l := by
          intro hmem
          have hzero := ht.new a hmem
          rw [Table.get_set_self] at hzero
          exact htid hzero
        refine ⟨a :: l, mark', x', ?_, ⟨rfl, ht.leads⟩, List.nodup_cons.mpr ⟨hal, ht.nodup⟩, fun y hy => ?_, fun y => ?_, ht.ends⟩
        · rw [trail, if_pos hmark, hrun, List.length_cons]
          congr 3
          omega
        · rcases List.mem_cons.mp hy with rfl | hy
          · exact hmark
          · have hne : a ≠ y := fun h => hal (h ▸ hy)
            have hzero := ht.new y hy
            rwa [Table.get_set_ne _ hne] at hzero
        · rw [ht.marks y, Table.get_set]
          by_cases hay : a = y
          · subst hay
            simp [hal]
          · by_cases hyl : y ∈ l <;> simp [hyl, hay, Ne.symm hay]
      · refine ⟨[], mark, some a, ?_, rfl, .nil, fun y hy => absurd hy List.not_mem_nil, fun y => rfl, fun y hy => ?_⟩
        · rw [trail, if_neg hmark]
          rfl
        · cases hy
          exact hmark

lemma cycleLength_spec {a : ℕ} (h : Leads (nxt n) x l (some a)) (ha : a ∉ l) (hd : l.length < d) :
    cycleLength n a d c x = some (c + l.length) := by
  induction l generalizing x d c with
  | nil =>
    obtain rfl : x = some a := h
    obtain ⟨d, rfl⟩ : ∃ e, d = e + 1 := ⟨d - 1, by omega⟩
    exact if_pos rfl
  | cons b l ih =>
    obtain ⟨rfl, hrest⟩ := h
    rw [List.length_cons] at hd ⊢
    obtain ⟨d, rfl⟩ : ∃ e, d = e + 1 := ⟨d - 1, by omega⟩
    have hba : b ≠ a := fun h => ha (h ▸ List.mem_cons_self)
    rw [cycleLength, if_neg hba, ih hrest (fun h => ha (List.mem_cons_of_mem b h)) (by omega)]
    congr 1
    omega

variable (mark) in
lemma countOff_spec {a b : ℕ} (h : Leads (nxt n) (some b) (b :: l) (some a)) (ha : a ∉ l) (hd : l.length < d) :
    ∃ mark', countOff n a d mark (some b) = some mark' ∧ ∀ y, mark'.get y = if y ∈ b :: l then -1 else mark.get y := by
  induction l generalizing b d mark with
  | nil =>
    obtain ⟨d, rfl⟩ : ∃ e, d = e + 1 := ⟨d - 1, by omega⟩
    have hnext : nxt n b = some a := h.2
    refine ⟨mark.set b (-1), by rw [countOff, if_pos hnext], fun y => ?_⟩
    simp [eq_comm]
  | cons e l ih =>
    rw [List.length_cons] at hd
    obtain ⟨d, rfl⟩ : ∃ e, d = e + 1 := ⟨d - 1, by omega⟩
    have hnext : nxt n b = some e := h.2.1
    have hea : e ≠ a := fun h => ha (h ▸ List.mem_cons_self)
    obtain ⟨mark', hrun, hmark⟩ := @ih (mark.set b (-1)) d e ⟨rfl, h.2.2⟩
      (fun h => ha (List.mem_cons_of_mem e h)) (by omega)
    refine ⟨mark', ?_, fun y => ?_⟩
    · rw [countOff, if_neg (by rw [hnext]; simpa using hea), hnext, hrun]
    · rw [hmark y, Table.get_set]
      by_cases hby : b = y
      · subst hby
        simp
      · simp [hby, Ne.symm hby]

/-! ## The loop over the ports -/

/-- What has been counted when the ports of `M` have marks. -/
structure Counted (n : Net) (D M : Finset ℕ) (s : Goi) : Prop where
  subset : M ⊆ D
  closed : Closed (nxt n) M
  marked : ∀ y, s.mark.get y ≠ 0 ↔ y ∈ M
  below : ∀ y, s.mark.get y ≤ s.tid
  tid : 0 ≤ s.tid
  det : s.det = weight (nxt n) M % goiMod

lemma det_chain {w : ℤ} {k : ℕ} : w % goiMod * modpow 2 k % goiMod = w * 2 ^ k % goiMod := by
  rw [modpow_eq]
  exact (Int.mod_modEq _ _).mul (Int.mod_modEq _ _)

lemma det_cycle {w : ℤ} {k c : ℕ} :
    w % goiMod * modpow 2 k % goiMod * ((modpow 2 c - 1 + goiMod) % goiMod) % goiMod =
      w * (2 ^ c - 1) * 2 ^ k % goiMod := by
  have hone : (modpow 2 c - 1 + goiMod) % goiMod = (2 ^ c - 1) % goiMod := by
    rw [modpow_eq, Int.add_emod_right]
    exact (Int.mod_modEq _ _).sub_right 1
  have hswap : w * (2 ^ c - 1) * 2 ^ k = w * 2 ^ k * (2 ^ c - 1) := by ring
  rw [det_chain, hone, hswap]
  exact (Int.mod_modEq _ _).mul (Int.mod_modEq _ _)

/-- One port adds its trail to what has been counted. -/
lemma goiStep_spec {M : Finset ℕ} {g : Goi} {i : ℕ} (hD : Closed (nxt n) D) (hc : Counted n D M g) (hi : i ∈ D)
    (hd : D.card < d) : ∃ g' M', goiStep n d g i = some g' ∧ Counted n D M' g' ∧ M ⊆ M' ∧ i ∈ M' := by
  unfold goiStep
  by_cases hmark : g.mark.get i = 0
  swap
  · exact ⟨g, M, if_pos hmark, hc, Finset.Subset.refl M, (hc.marked i).mp hmark⟩
  rw [if_neg (not_not.mpr hmark)]
  have htid : g.tid + 1 ≠ 0 := by have := hc.tid; omega
  have hfuel : unmarked D g.mark < d := (Finset.card_filter_le D _).trans_lt hd
  obtain ⟨l, mark', x', hrun, ht⟩ := trail_spec (k := 0) hD htid (x := some i) (fun y hy => Option.some.inj hy ▸ hi) hfuel
  rw [Nat.zero_add] at hrun
  have hnew : ∀ y ∈ l, y ∉ M := fun y hy hM => (hc.marked y).mpr hM (ht.new y hy)
  have hdisj : Disjoint M l.toFinset := Finset.disjoint_right.mpr fun y hy => hnew y (List.mem_toFinset.mp hy)
  have hlD : l.toFinset ⊆ D := by
    intro y hy
    have hreach := (ht.leads.reach y (List.mem_toFinset.mp hy)).1 i rfl
    exact hD.reach hi hreach
  have hlen : l.length ≤ D.card := by
    rw [← List.toFinset_card_of_nodup ht.nodup]
    exact Finset.card_le_card hlD
  have hsub : M ∪ l.toFinset ⊆ D := Finset.union_subset hc.subset hlD
  rw [hrun, Option.bind_some]
  by_cases hclose : closes mark' (g.tid + 1) x' = true
  · -- the trail has met itself: the ports from there on are a cycle, and the others lead into it
    rw [if_pos hclose]
    obtain ⟨x, rfl, hx⟩ : ∃ x, x' = some x ∧ mark'.get x = g.tid + 1 := by
      cases x' with
      | none => cases hclose
      | some x => exact ⟨x, rfl, by simpa [closes] using hclose⟩
    have hmem : x ∈ l := by
      by_contra hxl
      have hold := ht.marks x
      rw [if_neg hxl, hx] at hold
      have := hc.below x
      omega
    obtain ⟨p, q, rfl⟩ := List.append_of_mem hmem
    obtain ⟨m, hp, hq⟩ := Orbits.leads_append.mp ht.leads
    obtain rfl : m = some x := hq.1
    obtain ⟨-, hnodup, hpq⟩ := List.nodup_append'.mp ht.nodup
    have hxq := (List.nodup_cons.mp hnodup).1
    have hlong : q.length < d := by
      rw [List.length_append, List.length_cons] at hlen
      omega
    obtain ⟨mark'', hoff, hmarks⟩ := countOff_spec mark' hq hxq hlong
    have hcount := cycleLength_spec (c := 1) hq.2 hxq hlong
    have hcycle := hq.cyclic
    have hdisjC : Disjoint M (x :: q).toFinset :=
      Finset.disjoint_right.mpr fun y hy => hnew y (List.mem_append_right p (List.mem_toFinset.mp hy))
    have hset : M ∪ (p ++ x :: q).toFinset = M ∪ (x :: q).toFinset ∪ p.toFinset := by
      rw [List.toFinset_append, Finset.union_assoc, Finset.union_comm p.toFinset]
    obtain ⟨hclosed, hweight, hstart⟩ := (hc.closed.union hcycle.closed).weight_path hp
      (fun b hb => Finset.mem_union_right _ (Option.some.inj hb ▸ by simp)) (ht.nodup.sublist (List.sublist_append_left p _))
      fun y hy hmem => (Finset.mem_union.mp hmem).elim (hnew y (List.mem_append_left _ hy)) fun hy' =>
        hpq hy (List.mem_toFinset.mp hy')
    rw [hc.closed.weight_union hcycle hdisjC, List.toFinset_card_of_nodup hnodup] at hweight
    have hrun' : goiCycle n d g.det (g.tid + 1) mark' (p ++ x :: q).length x = some
        ⟨mark'', g.det * modpow 2 ((p ++ x :: q).length - (1 + q.length)) % goiMod *
          ((modpow 2 (1 + q.length) - 1 + goiMod) % goiMod) % goiMod, g.tid + 1⟩ := by
      simp only [goiCycle, hcount, hoff, Option.bind_eq_bind, Option.bind_some, Option.pure_def]
    refine ⟨_, M ∪ (p ++ x :: q).toFinset, hrun', ⟨hsub, hset ▸ hclosed, fun y => ?_, fun y => ?_, ?_, ?_⟩,
      Finset.subset_union_left, hset ▸ hstart i rfl⟩
    · rw [hmarks y, ht.marks y, Finset.mem_union, List.mem_toFinset, ← hc.marked]
      by_cases hyq : y ∈ x :: q
      · simp [hyq]
      · by_cases hyl : y ∈ p ++ x :: q <;> simp [hyq, hyl, htid]
    · have := hc.below y
      have := hc.tid
      rw [hmarks y, ht.marks y]
      split_ifs <;> simp only <;> omega
    · have := hc.tid
      simp only
      omega
    · have hk : (p ++ x :: q).length - (1 + q.length) = p.length := by
        rw [List.length_append, List.length_cons]
        omega
      rw [hset, hweight, hc.det, hk, List.length_cons, Nat.add_comm 1]
      exact det_cycle
  · rw [if_neg hclose]
    have hinto : ∀ b, x' = some b → b ∈ M := by
      rintro b rfl
      have hne : mark'.get b ≠ g.tid + 1 := by simpa [closes] using hclose
      have hold := ht.marks b
      by_cases hbl : b ∈ l
      · exact absurd (by rw [hold, if_pos hbl]) hne
      · rw [if_neg hbl] at hold
        exact (hc.marked b).mp (hold ▸ ht.ends b rfl)
    obtain ⟨hclosed, hweight, hstart⟩ := hc.closed.weight_path ht.leads hinto ht.nodup hnew
    refine ⟨_, M ∪ l.toFinset, rfl, ⟨hsub, hclosed, fun y => ?_, fun y => ?_, ?_, ?_⟩, Finset.subset_union_left, hstart i rfl⟩
    · rw [ht.marks y, Finset.mem_union, List.mem_toFinset, ← hc.marked]
      by_cases hyl : y ∈ l <;> simp [hyl, htid]
    · have := hc.below y
      rw [ht.marks y]
      split_ifs <;> simp only <;> omega
    · have := hc.tid
      simp only
      omega
    · rw [hweight, hc.det]
      exact det_chain

lemma goiLoop_spec {M : Finset ℕ} {g : Goi} (hD : Closed (nxt n) D) (hc : Counted n D M g) (hd : D.card < d) (is : List ℕ)
    (his : ∀ i ∈ is, i ∈ D) :
    ∃ g' M', is.foldlM (goiStep n d) g = some g' ∧ Counted n D M' g' ∧ M ⊆ M' ∧ ∀ i ∈ is, i ∈ M' := by
  induction is generalizing M g with
  | nil => exact ⟨g, M, rfl, hc, Finset.Subset.refl M, fun i hi => absurd hi List.not_mem_nil⟩
  | cons i is ih =>
    obtain ⟨g₁, M₁, hstep, hc₁, hsub₁, hi⟩ := goiStep_spec hD hc (his i List.mem_cons_self) hd
    obtain ⟨g₂, M₂, hloop, hc₂, hsub₂, his'⟩ := ih hc₁ fun j hj => his j (List.mem_cons_of_mem i hj)
    refine ⟨g₂, M₂, ?_, hc₂, hsub₁.trans hsub₂, fun j hj => ?_⟩
    · rw [List.foldlM_cons, hstep]
      exact hloop
    · rcases List.mem_cons.mp hj with rfl | hj
      · exact hsub₂ hi
      · exact his' j hj

end

/-- On a net whose wires lead to its ports the loops end, and the determinant is the product of `2 ^ length - 1` over the
cycles of the wires, times two for every port on no cycle. -/
theorem goiDet_eq (n : Net) (h : ∀ y < n.nn * 3, ∀ p, n.wire.get y = some p → p.node < n.nn) (d : ℕ) (hd : n.nn * 3 < d) :
    goiDet d n = some (weight (nxt n) (Finset.range (n.nn * 3)) % goiMod) := by
  have hD : Closed (nxt n) (Finset.range (n.nn * 3)) := by
    intro y hy z hz
    obtain ⟨p, hp, rfl⟩ := Option.map_eq_some_iff.mp hz
    have hnode := h y (Finset.mem_range.mp hy) p hp
    have hport := p.port.isLt
    exact Finset.mem_range.mpr (by omega)
  have hstart : Counted n (Finset.range (n.nn * 3)) ∅ ⟨.empty, 1, 0⟩ := by
    refine ⟨Finset.empty_subset _, fun a ha => absurd ha (Finset.notMem_empty a), fun y => by simp, fun y => by simp, le_rfl, ?_⟩
    rw [Orbits.weight_empty]
    decide
  obtain ⟨g, M, hloop, hc, -, hall⟩ := goiLoop_spec hD hstart (d := d) (by simpa using hd) (List.range (n.nn * 3))
    fun i hi => Finset.mem_range.mpr (List.mem_range.mp hi)
  have hM : M = Finset.range (n.nn * 3) :=
    Finset.Subset.antisymm hc.subset fun i hi => hall i (List.mem_range.mpr (Finset.mem_range.mp hi))
  rw [goiDet, hloop, Option.map_some, hc.det, hM]

/-- A wire of two ports and a third port that leads into it. -/
def ringNet : Net := ((netInit.setWire ⟨0, 0⟩ (some ⟨0, 1⟩)).setWire ⟨0, 1⟩ (some ⟨0, 0⟩)).setWire ⟨0, 2⟩ (some ⟨0, 0⟩)

theorem goiDet_eq_ring : (∀ y < ringNet.nn * 3, ∀ p, ringNet.wire.get y = some p → p.node < ringNet.nn) ∧ ringNet.nn * 3 < 4 ∧
    goiDet 4 ringNet = some (weight (nxt ringNet) (Finset.range (ringNet.nn * 3)) % goiMod) :=
  have hwires : ∀ y < ringNet.nn * 3, ∀ p, ringNet.wire.get y = some p → p.node < ringNet.nn := by
    have hall : ∀ y < ringNet.nn * 3, ∀ p ∈ ringNet.wire.get y, p.node < ringNet.nn := by decide +kernel
    exact hall
  ⟨hwires, by decide +kernel, goiDet_eq ringNet hwires 4 (by decide +kernel)⟩

end LinEngine
