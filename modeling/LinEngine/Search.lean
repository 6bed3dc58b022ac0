import Mathlib

/-!
# Breadth-first search

A queue that is its own set of visited points: entries before the cursor have been
expanded, and a point is appended once. With room for all the points that are admitted the
search visits what can be reached from the seeds, and nothing else.
-/
namespace Search

open Relation

variable {α : Type*} [DecidableEq α]

/-- Append a point that is admitted and not there yet. -/
def visit (ok : α → Bool) (q : List α) (v : α) : List α := if ok v = true ∧ v ∉ q then q ++ [v] else q

/-- Expand the entries from `i` on. -/
def search (ok : α → Bool) (next : α → List α) : ℕ → ℕ → List α → List α
  | 0, _, q => q
  | fuel + 1, i, q =>
    match q[i]? with
    | none => q
    | some u => search ok next fuel (i + 1) ((next u).foldl (visit ok) q)

/-- A step to an admitted point. -/
def Step (ok : α → Bool) (next : α → List α) (u v : α) : Prop := v ∈ next u ∧ ok v = true

section Visit

variable {ok : α → Bool} {q : List α} {vs : List α}

lemma mem_visit {v w : α} : w ∈ visit ok q v ↔ w ∈ q ∨ w = v ∧ ok v = true := by
  unfold visit
  split_ifs with h
  · simp [h.1]
  · rw [not_and, not_not] at h
    constructor
    · exact Or.inl
    · rintro (hw | ⟨rfl, hv⟩)
      · exact hw
      · exact h hv

lemma mem_visits {w : α} : w ∈ vs.foldl (visit ok) q ↔ w ∈ q ∨ w ∈ vs ∧ ok w = true := by
  induction vs generalizing q with
  | nil => simp
  | cons v vs ih =>
    rw [List.foldl_cons, ih, mem_visit, List.mem_cons]
    constructor
    · rintro ((hw | ⟨rfl, hv⟩) | ⟨hw, hok⟩)
      · exact .inl hw
      · exact .inr ⟨.inl rfl, hv⟩
      · exact .inr ⟨.inr hw, hok⟩
    · rintro (hw | ⟨rfl | hw, hok⟩)
      · exact .inl (.inl hw)
      · exact .inl (.inr ⟨rfl, hok⟩)
      · exact .inr ⟨hw, hok⟩

lemma prefix_visits : q <+: vs.foldl (visit ok) q := by
  induction vs generalizing q with
  | nil => exact List.prefix_rfl
  | cons v vs ih =>
    refine List.IsPrefix.trans ?_ (ih (q := visit ok q v))
    unfold visit
    split_ifs
    · exact List.prefix_append q [v]
    · exact List.prefix_rfl

lemma nodup_visits (hq : q.Nodup) : (vs.foldl (visit ok) q).Nodup := by
  induction vs generalizing q with
  | nil => exact hq
  | cons v vs ih =>
    refine ih ?_
    unfold visit
    split_ifs with h
    · exact List.nodup_append.2 ⟨hq, List.nodup_singleton v, by
        rintro a ha b hb rfl
        exact h.2 (List.mem_singleton.1 hb ▸ ha)⟩
    · exact hq

end Visit

variable {ok : α → Bool} {next : α → List α}

/-- A queue whose entries before `i` have been expanded. -/
structure Walked (ok : α → Bool) (next : α → List α) (i : ℕ) (q : List α) : Prop where
  nodup : q.Nodup
  done : ∀ j u v, j < i → q[j]? = some u → Step ok next u v → v ∈ q

lemma Walked.step {i : ℕ} {q : List α} {u : α} (h : Walked ok next i q) (hu : q[i]? = some u) :
    Walked ok next (i + 1) ((next u).foldl (visit ok) q) := by
  refine ⟨nodup_visits h.nodup, fun j w v hj hw hv => ?_⟩
  have hi := (List.getElem?_eq_some_iff.1 hu).1
  have hold : q[j]? = some w := by
    obtain ⟨t, ht⟩ := @prefix_visits _ _ ok q (next u)
    rwa [← ht, List.getElem?_append_left (by omega)] at hw
  rcases Nat.lt_succ_iff_lt_or_eq.1 hj with hlt | rfl
  · exact mem_visits.2 (.inl (h.done j w v hlt hold hv))
  · obtain rfl := Option.some_inj.1 (hu.symm.trans hold)
    exact mem_visits.2 (.inr hv)

/-- With fuel for as many points as there are, the search ends closed under steps. -/
lemma search_walked (s : Finset α) (hs : ∀ v, ok v = true → v ∈ s) (fuel i : ℕ) {q : List α}
    (h : Walked ok next i q) (hq : ∀ v ∈ q, ok v = true) (hfuel : s.card ≤ fuel + i) :
    (∀ u ∈ search ok next fuel i q, ∀ v, Step ok next u v → v ∈ search ok next fuel i q) ∧
      (search ok next fuel i q).Nodup := by
  have hall : ∀ {i : ℕ} {q : List α}, Walked ok next i q → q.length ≤ i →
      ∀ u ∈ q, ∀ v, Step ok next u v → v ∈ q := fun h hle u hu v hv => by
    obtain ⟨j, hj⟩ := List.mem_iff_getElem?.1 hu
    have := (List.getElem?_eq_some_iff.1 hj).1
    exact h.done j u v (by omega) hj hv
  induction fuel generalizing i q with
  | zero =>
    have hlen : q.length ≤ s.card := by
      rw [← List.toFinset_card_of_nodup h.nodup]
      exact Finset.card_le_card fun v hv => hs v (hq v (List.mem_toFinset.1 hv))
    rw [search]
    exact ⟨hall h (by omega), h.nodup⟩
  | succ fuel ih =>
    rw [search]
    cases hu : q[i]? with
    | none => exact ⟨hall h (List.getElem?_eq_none_iff.1 hu), h.nodup⟩
    | some u =>
      refine ih (i + 1) (h.step hu) (fun v hv => ?_) (by omega)
      rcases mem_visits.1 hv with hv | hv
      · exact hq v hv
      · exact hv.2

lemma prefix_search (fuel i : ℕ) (q : List α) : q <+: search ok next fuel i q := by
  induction fuel generalizing i q with
  | zero => exact List.prefix_rfl
  | succ fuel ih =>
    rw [search]
    cases hu : q[i]? with
    | none => exact List.prefix_rfl
    | some u => exact prefix_visits.trans (ih (i + 1) _)

/-- What the search adds is reached from what was there. -/
lemma search_sound (fuel i : ℕ) {q : List α} {v : α} (hv : v ∈ search ok next fuel i q) :
    ∃ u ∈ q, ReflTransGen (Step ok next) u v := by
  induction fuel generalizing i q with
  | zero => exact ⟨v, hv, .refl⟩
  | succ fuel ih =>
    rw [search] at hv
    cases hu : q[i]? with
    | none =>
      rw [hu] at hv
      exact ⟨v, hv, .refl⟩
    | some u =>
      rw [hu] at hv
      obtain ⟨w, hw, hwv⟩ := ih (i + 1) hv
      rcases mem_visits.1 hw with hw | hw
      · exact ⟨w, hw, hwv⟩
      · exact ⟨u, List.mem_of_getElem? hu, .head hw hwv⟩

/-- The search from the admitted seeds visits what the admitted seeds reach. -/
theorem mem_search_iff (s : Finset α) (hs : ∀ v, ok v = true → v ∈ s) {fuel : ℕ} (hfuel : s.card ≤ fuel) (seeds : List α)
    (v : α) : v ∈ search ok next fuel 0 (seeds.foldl (visit ok) []) ↔
      ∃ u ∈ seeds, ok u = true ∧ ReflTransGen (Step ok next) u v := by
  have hseed : ∀ u, u ∈ seeds.foldl (visit ok) [] ↔ u ∈ seeds ∧ ok u = true := fun u => by
    rw [mem_visits]
    simp
  have hwalk : Walked ok next 0 (seeds.foldl (visit ok) []) := ⟨nodup_visits List.nodup_nil, fun j _ _ hj => by omega⟩
  constructor
  · intro hv
    obtain ⟨u, hu, huv⟩ := search_sound fuel 0 hv
    exact ⟨u, ((hseed u).1 hu).1, ((hseed u).1 hu).2, huv⟩
  · rintro ⟨u, hu, hok, huv⟩
    have hclosed := (search_walked s hs fuel 0 hwalk (fun w hw => ((hseed w).1 hw).2) (by omega)).1
    induction huv with
    | refl => exact (prefix_search fuel 0 _).subset ((hseed u).2 ⟨hu, hok⟩)
    | tail _ hstep ih => exact hclosed _ ih _ hstep

end Search
