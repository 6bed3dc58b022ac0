import Mathlib

/-!
# Forests of parents

A union-find structure seen from its parent pointers. An element that is its own parent
is a root; the element leads to the root at the end of its parents, and a set of elements
is a forest when each of them leads to one. Halving a path, hanging a root under another
and adding a root keep a forest, and what each does to the roots is stated here.
-/
namespace LinEngine.Forest

variable {α : Type*} {parent : α → α} {k k' : ℕ} {x y r r' c d : α} {s : Finset α}

/-- The root `r` is met `k` parents above `x`. -/
inductive Climbs (parent : α → α) : ℕ → α → α → Prop
  | root {x : α} (h : parent x = x) : Climbs parent 0 x x
  | step {k : ℕ} {x r : α} (h : parent x ≠ x) (hr : Climbs parent k (parent x) r) : Climbs parent (k + 1) x r

namespace Climbs

lemma unique (h : Climbs parent k x r) (h' : Climbs parent k' x r') : k = k' ∧ r = r' := by
  induction h generalizing k' with
  | root hx =>
    cases h' with
    | root => exact ⟨rfl, rfl⟩
    | step hne => exact absurd hx hne
  | step hne _ ih =>
    cases h' with
    | root hx => exact absurd hx hne
    | step _ h' =>
      obtain ⟨rfl, rfl⟩ := ih h'
      exact ⟨rfl, rfl⟩

lemma root_eq (h : Climbs parent k x r) : parent r = r := by
  induction h with
  | root hx => exact hx
  | step _ _ ih => exact ih

lemma mem (hs : ∀ y ∈ s, parent y ∈ s) (h : Climbs parent k x r) (hx : x ∈ s) : r ∈ s := by
  induction h with
  | root _ => exact hx
  | step _ _ ih => exact ih (hs _ hx)

/-- Every shorter distance occurs on the way. -/
lemma exists_of_le (hs : ∀ y ∈ s, parent y ∈ s) (h : Climbs parent k x r) (hx : x ∈ s) {j : ℕ} (hj : j ≤ k) :
    ∃ y ∈ s, Climbs parent j y r := by
  induction h with
  | root hr =>
    obtain rfl : j = 0 := Nat.le_zero.mp hj
    exact ⟨_, hx, .root hr⟩
  | step hne hr ih =>
    rcases Nat.le_or_eq_of_le_succ hj with hj | rfl
    · exact ih (hs _ hx) hj
    · exact ⟨_, hx, .step hne hr⟩

/-- A way up is shorter than there are elements. -/
theorem lt_card (hs : ∀ y ∈ s, parent y ∈ s) (h : Climbs parent k x r) (hx : x ∈ s) : k < s.card := by
  choose f hf hleads using fun j : Fin (k + 1) => exists_of_le hs h hx (Nat.lt_succ_iff.mp j.isLt)
  have hinj : Function.Injective f := by
    intro i j hij
    exact Fin.ext ((hleads i).unique (hij ▸ hleads j)).1
  have hcard := Finset.card_le_card_of_injOn f (fun j _ => hf j) (hinj.injOn (s := (Finset.univ : Finset (Fin (k + 1)))))
  rwa [Finset.card_univ, Fintype.card_fin] at hcard

variable [DecidableEq α]

/-- Halving a path leads everywhere it led before, by a way that is no longer. -/
theorem halve (h : Climbs parent k x r) (c : α) :
    ∃ k' ≤ k, Climbs (Function.update parent c (parent (parent c))) k' x r := by
  induction h with
  | @root x hx =>
    refine ⟨0, le_rfl, .root ?_⟩
    by_cases hxc : x = c
    · rw [← hxc, Function.update_self, hx, hx]
    · rw [Function.update_of_ne hxc, hx]
  | @step k x r hne hr ih =>
    by_cases hxc : x = c
    · subst hxc
      by_cases hp : parent (parent x) = parent x
      · rw [hp] at ih ⊢
        obtain ⟨j, hj, hup⟩ := ih
        refine ⟨j + 1, Nat.succ_le_succ hj, .step ?_ ?_⟩
        · rwa [Function.update_self]
        · rwa [Function.update_self]
      · -- the parent is passed over
        obtain ⟨j, hj, hup⟩ := ih
        have hup' : ∃ i ≤ j, Climbs (Function.update parent x (parent (parent x))) i (parent (parent x)) r := by
          cases hup with
          | root hroot =>
            rw [Function.update_of_ne hne] at hroot
            exact absurd hroot hp
          | @step i _ _ _ hup =>
            rw [Function.update_of_ne hne] at hup
            exact ⟨i, Nat.le_succ i, hup⟩
        obtain ⟨i, hi, hup⟩ := hup'
        by_cases hback : parent (parent x) = x
        · rw [hback] at hup ⊢
          exact ⟨i, hi.trans (hj.trans (Nat.le_succ k)), hup⟩
        · refine ⟨i + 1, Nat.succ_le_succ (hi.trans hj), .step ?_ ?_⟩
          · rw [Function.update_self]
            exact hback
          · rw [Function.update_self]
            exact hup
    · obtain ⟨j, hj, hup⟩ := ih
      refine ⟨j + 1, Nat.succ_le_succ hj, .step ?_ ?_⟩
      · rw [Function.update_of_ne hxc]
        exact hne
      · rw [Function.update_of_ne hxc]
        exact hup

/-- With the root `d` under the root `c`, what led to `d` leads to `c`. -/
theorem hang (h : Climbs parent k x r) (hc : parent c = c) (hd : parent d = d) (hcd : c ≠ d) :
    ∃ k', Climbs (Function.update parent d c) k' x (if r = d then c else r) := by
  induction h with
  | @root x hx =>
    by_cases hxd : x = d
    · subst hxd
      rw [if_pos rfl]
      refine ⟨1, .step ?_ ?_⟩
      · rwa [Function.update_self]
      · rw [Function.update_self]
        exact .root (by rw [Function.update_of_ne hcd, hc])
    · rw [if_neg hxd]
      exact ⟨0, .root (by rw [Function.update_of_ne hxd, hx])⟩
  | @step k x r hne hr ih =>
    obtain ⟨k', hup⟩ := ih
    have hxd : x ≠ d := by
      rintro rfl
      exact hne hd
    refine ⟨k' + 1, .step ?_ ?_⟩
    · rwa [Function.update_of_ne hxd]
    · rwa [Function.update_of_ne hxd]

omit [DecidableEq α] in
/-- Parents elsewhere do not matter. -/
lemma congr {parent' : α → α} (hs : ∀ y ∈ s, parent y ∈ s) (heq : ∀ y ∈ s, parent' y = parent y)
    (h : Climbs parent k x r) (hx : x ∈ s) : Climbs parent' k x r := by
  induction h with
  | root hr => exact .root ((heq _ hx).trans hr)
  | step hne _ ih =>
    refine .step ?_ ?_
    · rwa [heq _ hx]
    · rw [heq _ hx]
      exact ih (hs _ hx)

end Climbs

open Classical in
/-- The root an element leads to. -/
noncomputable def top (parent : α → α) (x : α) : α :=
  if h : ∃ r k, Climbs parent k x r then h.choose else x

lemma Climbs.top_eq (h : Climbs parent k x r) : top parent x = r := by
  have hex : ∃ r k, Climbs parent k x r := ⟨r, k, h⟩
  rw [top, dif_pos hex]
  exact (hex.choose_spec.choose_spec.unique h).2

lemma top_of_root (hx : parent x = x) : top parent x = x := (Climbs.root hx).top_eq

/-- The elements of `s` have their parents there and lead to roots. -/
structure Rooted (parent : α → α) (s : Finset α) : Prop where
  closed : ∀ y ∈ s, parent y ∈ s
  leads : ∀ y ∈ s, ∃ r k, Climbs parent k y r

namespace Rooted

variable (h : Rooted parent s)

include h

lemma leads_top (hx : x ∈ s) : ∃ k, k < s.card ∧ Climbs parent k x (top parent x) := by
  obtain ⟨r, k, hup⟩ := h.leads x hx
  rw [hup.top_eq]
  exact ⟨k, hup.lt_card h.closed hx, hup⟩

lemma top_mem (hx : x ∈ s) : top parent x ∈ s := by
  obtain ⟨k, -, hup⟩ := h.leads_top hx
  exact hup.mem h.closed hx

lemma parent_top (hx : x ∈ s) : parent (top parent x) = top parent x := by
  obtain ⟨k, -, hup⟩ := h.leads_top hx
  exact hup.root_eq

lemma congr {parent' : α → α} (heq : ∀ y ∈ s, parent' y = parent y) :
    Rooted parent' s ∧ ∀ y ∈ s, top parent' y = top parent y := by
  have hup : ∀ y ∈ s, ∃ k, Climbs parent' k y (top parent y) := fun y hy =>
    let ⟨k, _, hup⟩ := h.leads_top hy
    ⟨k, hup.congr h.closed heq hy⟩
  refine ⟨⟨fun y hy => ?_, fun y hy => ⟨_, hup y hy⟩⟩, fun y hy => ?_⟩
  · rw [heq y hy]
    exact h.closed y hy
  · obtain ⟨k, hup⟩ := hup y hy
    exact hup.top_eq

/-- A new root. -/
lemma insert [DecidableEq α] {z : α} (hz : parent z = z) : Rooted parent (insert z s) where
  closed := by
    intro y hy
    rcases Finset.mem_insert.mp hy with rfl | hy
    · rwa [hz]
    · exact Finset.mem_insert_of_mem (h.closed y hy)
  leads := by
    intro y hy
    rcases Finset.mem_insert.mp hy with rfl | hy
    · exact ⟨_, 0, .root hz⟩
    · exact h.leads y hy

variable [DecidableEq α]

theorem halve (hc : c ∈ s) : Rooted (Function.update parent c (parent (parent c))) s ∧
    ∀ y ∈ s, top (Function.update parent c (parent (parent c))) y = top parent y := by
  have hup : ∀ y ∈ s, ∃ k, Climbs (Function.update parent c (parent (parent c))) k y (top parent y) := fun y hy =>
    let ⟨_, _, hup⟩ := h.leads_top hy
    let ⟨k, _, hup⟩ := hup.halve c
    ⟨k, hup⟩
  refine ⟨⟨fun y hy => ?_, fun y hy => ⟨_, hup y hy⟩⟩, fun y hy => ?_⟩
  · by_cases hyc : y = c
    · rw [hyc, Function.update_self]
      exact h.closed _ (h.closed c hc)
    · rw [Function.update_of_ne hyc]
      exact h.closed y hy
  · obtain ⟨k, hup⟩ := hup y hy
    exact hup.top_eq

theorem hang (hcs : c ∈ s) (hc : parent c = c) (hd : parent d = d) (hcd : c ≠ d) :
    Rooted (Function.update parent d c) s ∧
      ∀ y ∈ s, top (Function.update parent d c) y = if top parent y = d then c else top parent y := by
  have hup : ∀ y ∈ s, ∃ k, Climbs (Function.update parent d c) k y (if top parent y = d then c else top parent y) :=
    fun y hy =>
      let ⟨_, _, hup⟩ := h.leads_top hy
      hup.hang hc hd hcd
  refine ⟨⟨fun y hy => ?_, fun y hy => ⟨_, hup y hy⟩⟩, fun y hy => ?_⟩
  · by_cases hyd : y = d
    · rwa [hyd, Function.update_self]
    · rw [Function.update_of_ne hyd]
      exact h.closed y hy
  · obtain ⟨k, hup⟩ := hup y hy
    exact hup.top_eq

end Rooted

end LinEngine.Forest
