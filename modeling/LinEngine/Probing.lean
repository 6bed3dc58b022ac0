import Mathlib

/-!
# Open addressing

A table of cells in which one value marks the cells that are free. A key starts at its
home and moves on by `next`, which runs through all the cells, until the cell it is at
says stop. Every cell is reached from the home of its content over cells in use, so the
search for a key that is there cannot end at a free cell before it.
-/
namespace Probing

variable {α : Type*}

/-- Move on until `stop`, for at most `fuel` cells. -/
def probe (next : ℕ → ℕ) (stop : ℕ → Bool) : ℕ → ℕ → Option ℕ
  | 0, _ => none
  | fuel + 1, h => if stop h = true then some h else probe next stop fuel (next h)

/-- Moving on stays in the table, and comes to every cell of it. -/
structure Cycle (cap : ℕ) (next : ℕ → ℕ) : Prop where
  lt : ∀ h < cap, next h < cap
  reach : ∀ h < cap, ∀ i < cap, ∃ k < cap, next^[k] h = i

/-- The walk from `h` stops after `k` moves, and not before. -/
structure Stops (next : ℕ → ℕ) (stop : ℕ → Bool) (h k : ℕ) : Prop where
  here : stop (next^[k] h) = true
  before : ∀ j < k, stop (next^[j] h) = false

section Probe

variable {next : ℕ → ℕ} {stop : ℕ → Bool} {cap h k : ℕ}

lemma Stops.probe (hs : Stops next stop h k) {fuel : ℕ} (hk : k < fuel) :
    probe next stop fuel h = some (next^[k] h) := by
  induction fuel generalizing h k with
  | zero => exact absurd hk (Nat.not_lt_zero k)
  | succ fuel ih =>
    cases k with
    | zero =>
      have h0 : stop h = true := hs.here
      simp [Probing.probe, h0]
    | succ k =>
      have h0 : stop h = false := hs.before 0 k.succ_pos
      have hn : Stops next stop (next h) k :=
        ⟨hs.here, fun j hj => hs.before (j + 1) (Nat.succ_lt_succ hj)⟩
      simp only [Probing.probe, h0, Bool.false_eq_true, if_false]
      exact ih hn (Nat.lt_of_succ_lt_succ hk)

lemma Cycle.iterate_lt (hc : Cycle cap next) (hh : h < cap) (j : ℕ) : next^[j] h < cap := by
  induction j with
  | zero => exact hh
  | succ j ih =>
    rw [Function.iterate_succ_apply']
    exact hc.lt _ ih

/-- A walk stops as soon as there is a cell to stop at. -/
lemma Cycle.stops (hc : Cycle cap next) (stop : ℕ → Bool) (hh : h < cap) {i : ℕ} (hi : i < cap)
    (hstop : stop i = true) : ∃ k < cap, Stops next stop h k := by
  obtain ⟨m, hm, rfl⟩ := hc.reach h hh i hi
  have hex : ∃ k, stop (next^[k] h) = true := ⟨m, hstop⟩
  refine ⟨Nat.find hex, lt_of_le_of_lt (Nat.find_min' hex hstop) hm, Nat.find_spec hex, ?_⟩
  intro j hj
  exact Bool.eq_false_iff.mpr (Nat.find_min hex hj)

/-- One cell further, round the end. -/
lemma cycle_mod (hcap : 0 < cap) : Cycle cap (fun h => (h + 1) % cap) := by
  have hiter : ∀ j h, h < cap → (fun h => (h + 1) % cap)^[j] h = (h + j) % cap := by
    intro j
    induction j with
    | zero => exact fun h hh => (Nat.mod_eq_of_lt hh).symm
    | succ j ih =>
      intro h hh
      rw [Function.iterate_succ_apply', ih h hh, Nat.mod_add_mod, Nat.add_assoc]
  refine ⟨fun h _ => Nat.mod_lt _ hcap, fun h hh i hi => ?_⟩
  refine ⟨(i + (cap - h)) % cap, Nat.mod_lt _ hcap, ?_⟩
  rw [hiter _ h hh, Nat.add_mod_mod]
  have hsum : h + (i + (cap - h)) = i + cap := by omega
  rw [hsum, Nat.add_mod_right, Nat.mod_eq_of_lt hi]

/-- One cell further in a table of a power of two of cells. -/
lemma cycle_mask (k : ℕ) : Cycle (2 ^ k) (fun h => (h + 1) &&& (2 ^ k - 1)) := by
  have hmod : (fun h => (h + 1) &&& (2 ^ k - 1)) = fun h => (h + 1) % 2 ^ k := by
    funext h
    exact Nat.and_two_pow_sub_one_eq_mod _ k
  rw [hmod]
  exact cycle_mod (Nat.two_pow_pos k)

end Probe

/-- Content other than the mark `e` is reached from its home over cells in use. -/
def Clustered (next : ℕ → ℕ) (e : α) (home : α → ℕ) (tab : List α) : Prop :=
  ∀ i x, tab[i]? = some x → x ≠ e →
    ∃ k, next^[k] (home x) = i ∧ ∀ j < k, tab.getD (next^[j] (home x)) e ≠ e

section Clustered

variable [DecidableEq α] {next : ℕ → ℕ} {e : α} {home : α → ℕ} {tab : List α}

/-- Put `x` into the first free cell from its home. -/
def place (next : ℕ → ℕ) (e : α) (home : α → ℕ) (tab : List α) (x : α) : Option (List α) :=
  (probe next (fun i => decide (tab.getD i e = e)) tab.length (home x)).map (fun i => tab.set i x)

omit [DecidableEq α] in
lemma clustered_replicate (home : α → ℕ) (cap : ℕ) : Clustered next e home (List.replicate cap e) := by
  intro i x hx hne
  rw [List.getElem?_replicate] at hx
  split_ifs at hx
  exact absurd (Option.some.inj hx).symm hne

omit [DecidableEq α] in
lemma Clustered.congr (hs : Clustered next e home tab) {home' : α → ℕ}
    (h : ∀ x ∈ tab, x ≠ e → home' x = home x) : Clustered next e home' tab := by
  intro i x hx hne
  rw [h x (List.mem_of_getElem? hx) hne]
  exact hs i x hx hne

omit [DecidableEq α] in
/-- A cell that was free takes `x`: nothing in use becomes free, so no way is cut. -/
lemma Clustered.set (hs : Clustered next e home tab) {x : α} (hx : x ≠ e) {k : ℕ}
    (hlt : next^[k] (home x) < tab.length)
    (hway : ∀ j < k, tab.getD (next^[j] (home x)) e ≠ e) :
    Clustered next e home (tab.set (next^[k] (home x)) x) := by
  have hkeep : ∀ i, tab.getD i e ≠ e → (tab.set (next^[k] (home x)) x).getD i e ≠ e := by
    intro i hi
    rw [List.getD_eq_getElem?_getD, List.getElem?_set]
    split_ifs with h1
    · simpa using hx
    · rwa [List.getD_eq_getElem?_getD] at hi
  intro i y hy hne
  rw [List.getElem?_set] at hy
  split_ifs at hy with h1
  · rw [← Option.some.inj hy]
    exact ⟨k, h1, fun j hj => hkeep _ (hway j hj)⟩
  · obtain ⟨m, hm, hrest⟩ := hs i y hy hne
    exact ⟨m, hm, fun j hj => hkeep _ (hrest j hj)⟩

/-- A walk for something that is in the table stops in front of it or at it, and never at
a free cell. -/
lemma Clustered.hit (hs : Clustered next e home tab) (hit : α → Bool) {x : α} (hx : x ∈ tab)
    (hne : x ≠ e) (hhit : hit x = true) {k : ℕ}
    (hk : Stops next (fun i => decide (tab.getD i e = e) || hit (tab.getD i e)) (home x) k) :
    tab.getD (next^[k] (home x)) e ≠ e := by
  obtain ⟨i, hi, rfl⟩ := List.mem_iff_getElem.mp hx
  obtain ⟨m, hm, hway⟩ := hs i _ (List.getElem?_eq_getElem hi) hne
  have hcell : tab.getD (next^[m] (home tab[i])) e = tab[i] := by
    rw [hm, List.getD_eq_getElem tab e hi]
  rcases lt_trichotomy k m with hlt | rfl | hlt
  · exact hway k hlt
  · rw [hcell]
    exact hne
  · have hb := hk.before m hlt
    simp only [hcell, hhit, Bool.or_true] at hb
    exact absurd hb.symm Bool.false_ne_true

lemma exists_free (e : α) (tab : List α) (h : 0 < tab.count e) : ∃ i < tab.length, tab.getD i e = e := by
  obtain ⟨i, hi, he⟩ := List.mem_iff_getElem.mp (List.count_pos_iff.mp h)
  exact ⟨i, hi, by rw [List.getD_eq_getElem tab e hi, he]⟩

lemma count_free (e : α) (cap : ℕ) : (List.replicate cap e).count e = cap :=
  List.count_replicate_self

/-- A cell is free or in use. -/
lemma count_add_used (e : α) (tab : List α) :
    tab.count e + (tab.filter (fun x => decide (x ≠ e))).length = tab.length := by
  induction tab with
  | nil => rfl
  | cons x tab ih =>
    by_cases hx : x = e
    · subst hx
      rw [List.count_cons_self, List.filter_cons_of_neg (by simp), List.length_cons]
      omega
    · rw [List.count_cons_of_ne hx, List.filter_cons_of_pos (by simpa using hx), List.length_cons,
        List.length_cons]
      omega

/-- The free cell that `x` was put into is used up, and the rest is what it was. -/
structure Placed (e : α) (tab : List α) (x : α) (tab' : List α) : Prop where
  length : tab'.length = tab.length
  free : tab'.count e + 1 = tab.count e
  mem : ∀ y, y ≠ e → (y ∈ tab' ↔ y = x ∨ y ∈ tab)

lemma placed_set {x : α} (hx : x ≠ e) {i : ℕ} (hi : i < tab.length) (hfree : tab.getD i e = e) :
    Placed e tab x (tab.set i x) := by
  rw [List.getD_eq_getElem tab e hi] at hfree
  refine ⟨List.length_set, ?_, fun y hy => ?_⟩
  · have hpos : 0 < tab.count e := List.count_pos_iff.mpr (hfree ▸ List.getElem_mem hi)
    rw [List.count_set hi]
    simp only [hfree, beq_self_eq_true, if_true, beq_iff_eq, hx, if_false]
    omega
  · constructor
    · intro hmem
      exact (List.mem_or_eq_of_mem_set hmem).symm
    · rintro (rfl | hmem)
      · exact List.mem_set hi y
      · obtain ⟨j, hj, rfl⟩ := List.mem_iff_getElem.mp hmem
        have hij : i ≠ j := by
          rintro rfl
          exact hy hfree
        refine List.mem_iff_getElem.mpr ⟨j, by simpa using hj, ?_⟩
        rw [List.getElem_set_ne hij]

lemma place_spec (hc : Cycle tab.length next) (hs : Clustered next e home tab)
    (hroom : 0 < tab.count e) {x : α} (hx : x ≠ e) (hh : home x < tab.length) :
    ∃ tab', place next e home tab x = some tab' ∧ Clustered next e home tab' ∧ Placed e tab x tab' := by
  obtain ⟨i, hi, hfree⟩ := exists_free e tab hroom
  obtain ⟨k, hk, hstops⟩ := hc.stops (fun i => decide (tab.getD i e = e)) hh hi (by simpa using hfree)
  have hlt := hc.iterate_lt hh k
  refine ⟨_, by rw [place, hstops.probe hk, Option.map_some], hs.set hx hlt ?_, placed_set hx hlt ?_⟩
  · exact fun j hj => of_decide_eq_false (hstops.before j hj)
  · exact of_decide_eq_true hstops.here

/-- Put a list of contents into a table that has room for them, one after the other. -/
lemma placeAll_spec (hc : Cycle tab.length next) (hs : Clustered next e home tab) (xs : List α)
    (hroom : xs.length < tab.count e) (hx : ∀ x ∈ xs, x ≠ e ∧ home x < tab.length) :
    ∃ tab', xs.foldlM (place next e home) tab = some tab' ∧ Clustered next e home tab' ∧
      tab'.length = tab.length ∧ tab'.count e + xs.length = tab.count e ∧
      ∀ y, y ≠ e → (y ∈ tab' ↔ y ∈ xs ∨ y ∈ tab) := by
  induction xs generalizing tab with
  | nil => exact ⟨tab, rfl, hs, rfl, rfl, fun y _ => by simp⟩
  | cons x xs ih =>
    rw [List.length_cons] at hroom
    obtain ⟨hne, hh⟩ := hx x List.mem_cons_self
    obtain ⟨tab₁, hplace, hs₁, hp⟩ := place_spec hc hs (by omega) hne hh
    have hfree := hp.free
    obtain ⟨tab₂, hfold, hs₂, hlen, hcount, hmem⟩ := @ih tab₁ (hp.length ▸ hc) hs₁ (by omega)
      (fun y hy => hp.length ▸ hx y (List.mem_cons_of_mem x hy))
    refine ⟨tab₂, ?_, hs₂, hlen.trans hp.length, ?_, fun y hy => ?_⟩
    · rw [List.foldlM_cons, hplace]
      exact hfold
    · rw [List.length_cons]
      omega
    · rw [hmem y hy, hp.mem y hy, List.mem_cons]
      tauto

/-- What a search from `h` ends with: a cell with something it looks for, or a free cell when the table has no such thing. -/
structure Found (next : ℕ → ℕ) (e : α) (hit : α → Bool) (tab : List α) (h i : ℕ) : Prop where
  lt : i < tab.length
  here : tab.getD i e ≠ e → hit (tab.getD i e) = true
  absent : tab.getD i e = e → ∀ x ∈ tab, x ≠ e → hit x = false
  way : tab.getD i e = e → ∃ k, next^[k] h = i ∧ ∀ j < k, tab.getD (next^[j] h) e ≠ e

/-- A search ends in a table that has a free cell, if all it looks for has its home where the search begins. -/
lemma Clustered.search (hs : Clustered next e home tab) (hc : Cycle tab.length next) (hroom : 0 < tab.count e)
    (hit : α → Bool) {h : ℕ} (hh : h < tab.length) (hhome : ∀ x ∈ tab, x ≠ e → hit x = true → home x = h) :
    ∃ i, probe next (fun i => decide (tab.getD i e = e) || hit (tab.getD i e)) tab.length h = some i ∧
      Found next e hit tab h i := by
  obtain ⟨j, hj, hfree⟩ := exists_free e tab hroom
  obtain ⟨k, hk, hstops⟩ := hc.stops (fun i => decide (tab.getD i e = e) || hit (tab.getD i e)) hh hj
    (by simp only [hfree, decide_true, Bool.true_or])
  refine ⟨_, hstops.probe hk, hc.iterate_lt hh k, fun hne => ?_, fun heq x hx hxe => ?_, fun _ => ⟨k, rfl, fun j hj => ?_⟩⟩
  · exact (Bool.or_eq_true_iff.mp hstops.here).resolve_left (by simpa using hne)
  · by_contra hhit
    rw [Bool.not_eq_false] at hhit
    obtain rfl := hhome x hx hxe hhit
    exact hs.hit hit hx hxe hhit hstops heq
  · have hgo := (Bool.or_eq_false_iff.mp (hstops.before j hj)).1
    exact of_decide_eq_false hgo

end Clustered

end Probing
