import Mathlib

/-!
# Acyclic relations

A relation is acyclic when nothing reaches itself. Shortcuts along existing paths
keep it so, and a new edge does exactly when its end does not reach its start. Over
a finite set of targets an acyclic relation has a rank, which bounds every walk.
-/
namespace LinEngine

open Relation

variable {α : Type*} {r r' : α → α → Prop} {v t : α}

def Acyclic (r : α → α → Prop) : Prop := ∀ a, ¬ TransGen r a a

lemma transGen_of_shortcuts (h : ∀ a b, r' a b → TransGen r a b) {a b : α} (hab : TransGen r' a b) :
    TransGen r a b := by
  induction hab with
  | single hab => exact h _ _ hab
  | tail _ hbc ih => exact ih.trans (h _ _ hbc)

theorem Acyclic.of_shortcuts (h : ∀ a b, r' a b → TransGen r a b) (hr : Acyclic r) : Acyclic r' :=
  fun a ha => hr a (transGen_of_shortcuts h ha)

/-- A path that uses the edge from `v` to `t` goes through it last without meeting `v` again. -/
lemma transGen_insert (hv : ¬ ReflTransGen r t v) (h : ∀ a b, r' a b → r a b ∨ a = v ∧ b = t) {a b : α}
    (hab : TransGen r' a b) : TransGen r a b ∨ ReflTransGen r a v ∧ ReflTransGen r t b := by
  induction hab with
  | single hab =>
    rcases h _ _ hab with hab | ⟨rfl, rfl⟩
    · exact Or.inl (.single hab)
    · exact Or.inr ⟨.refl, .refl⟩
  | tail _ hbc ih =>
    rcases h _ _ hbc with hbc | ⟨rfl, rfl⟩
    · exact ih.imp (·.tail hbc) fun h => ⟨h.1, h.2.tail hbc⟩
    · rcases ih with ih | ih
      · exact Or.inr ⟨ih.to_reflTransGen, .refl⟩
      · exact absurd ih.2 hv

theorem Acyclic.insert (hr : Acyclic r) (hv : ¬ ReflTransGen r t v)
    (h : ∀ a b, r' a b → r a b ∨ a = v ∧ b = t) : Acyclic r' := by
  intro a ha
  rcases transGen_insert hv h ha with ha | ⟨h₁, h₂⟩
  · exact hr a ha
  · exact hv (h₂.trans h₁)

/-- A new edge out of a sink closes a cycle when its end reaches its start. -/
theorem not_acyclic_of_insert (hsink : ∀ b, ¬ r v b) (hv : ReflTransGen r t v)
    (h : ∀ a b, a ≠ v → r a b → r' a b) (hnew : r' v t) : ¬ Acyclic r' := by
  intro hr
  have hpath : ReflTransGen r' t v := by
    refine ReflTransGen.head_induction_on hv .refl fun {a c} hac _ ih => ?_
    refine .head (h a c ?_ hac) ih
    rintro rfl
    exact hsink c hac
  exact hr v (TransGen.head' hnew hpath)

/-- A relation that descends is acyclic. -/
theorem Acyclic.of_lt {r : ℕ → ℕ → Prop} (h : ∀ a b, r a b → b < a) : Acyclic r := by
  have hlt : ∀ a b, TransGen r a b → b < a := by
    intro a b hab
    induction hab with
    | single hab => exact h _ _ hab
    | tail _ hbc ih => exact (h _ _ hbc).trans ih
  exact fun a ha => lt_irrefl a (hlt a a ha)

section Rank

variable {s : Finset α}

open Classical in
/-- How many elements of `s` are reached from `a`. -/
noncomputable def rank (r : α → α → Prop) (s : Finset α) (a : α) : ℕ :=
  (s.filter fun b => TransGen r a b).card

lemma rank_le {s' : Finset α} {a a' : α}
    (h : ∀ b ∈ s', TransGen r' a' b → b ∈ s ∧ TransGen r a b) : rank r' s' a' ≤ rank r s a := by
  classical
  refine Finset.card_le_card fun b hb => ?_
  rw [Finset.mem_filter] at hb ⊢
  exact h b hb.1 hb.2

theorem rank_lt (hr : Acyclic r) {a b : α} (hab : r a b) (hb : b ∈ s) : rank r s b < rank r s a := by
  classical
  refine Finset.card_lt_card ((Finset.ssubset_iff_of_subset fun c hc => ?_).mpr ⟨b, ?_, ?_⟩)
  · rw [Finset.mem_filter] at hc ⊢
    exact ⟨hc.1, .head hab hc.2⟩
  · exact Finset.mem_filter.mpr ⟨hb, .single hab⟩
  · rw [Finset.mem_filter]
    exact fun h => hr b h.2

lemma rank_le_card {a : α} : rank r s a ≤ s.card := by
  classical
  exact Finset.card_filter_le _ _

end Rank

end LinEngine
