import LinEngine.EgCosts

/-!
# Runs of the optimizer

A run is safe when every version of its graph is sound and no recursion has been cut off.
`Meets g m Q` says that the program `m` keeps a run with the graph `g` safe, does not go
on for too long and ends as `Q` says. A recursion through best nodes goes to ever cheaper
classes, so it is over before it has passed as many levels as there are classes.
-/
namespace LinEngine

open EGraph Forest

structure Safe (s : EgRun) : Prop where
  uncut : s.cut = false
  graph : s.graph.Sound
  points : ∀ g ∈ s.points, g.Sound

def Meets {α : Type} (g : EGraph) (m : EgM α) (Q : α → EGraph → Prop) : Prop :=
  ∀ s, Safe s → s.graph = g → wp m (fun a s' => Safe s' ∧ Q a s'.graph) (fun _ _ => False) s

variable {α β : Type} {g g' g₀ : EGraph} {m : EgM α} {Q Q' : α → EGraph → Prop} {R : β → EGraph → Prop}
  {a c d x i fuel : ℕ} {n : ENode} {name : String} {rightFirst : Bool}

namespace Meets

lemma pure {a : α} (h : Q a g) : Meets g (pure a) Q := by
  rintro s hs rfl
  exact ⟨hs, h⟩

lemma bind {f : α → EgM β} (h : Meets g m Q) (hf : ∀ a g', g'.Sound → Q a g' → Meets g' (f a) R) :
    Meets g (m >>= f) R := by
  intro s hs hg
  rw [wp_bind]
  exact wp_mono (h s hs hg) (fun a s' ⟨hs', hq⟩ => hf a s'.graph hs'.graph hq s' hs' rfl) fun _ _ he => he

lemma mono (h : Meets g m Q) (hQ : ∀ a g', Q a g' → Q' a g') : Meets g m Q' := fun s hs hg =>
  wp_mono (h s hs hg) (fun a s' ⟨hs', hq⟩ => ⟨hs', hQ a s'.graph hq⟩) fun _ _ he => he

/-- A read of the graph. -/
lemma theGraph {f : EGraph → EgM β} (h : Meets g (f g) R) : Meets g (LinEngine.theGraph >>= f) R := by
  rintro s hs rfl
  exact h s hs rfl

lemma putGraph {Q : Unit → EGraph → Prop} (hg : g'.Sound) (h : Q () g') : Meets g (LinEngine.putGraph g') Q := by
  rintro s hs rfl
  refine ⟨⟨hs.uncut, hg, fun p hp => ?_⟩, h⟩
  rcases List.mem_cons.mp hp with rfl | hp
  · exact hg
  · exact hs.points p hp

/-- What a program says of its own graph it says of the graph of the run. -/
lemma of_sound (h : g.Sound → Meets g m Q) : Meets g m Q := by
  rintro s hs rfl
  exact h hs.graph s hs rfl

lemma ite {p : Prop} [Decidable p] {m' : EgM α} (h : p → Meets g m Q) (h' : ¬ p → Meets g m' Q) :
    Meets g (if p then m else m') Q := by
  split_ifs with hp
  · exact h hp
  · exact h' hp

end Meets

lemma meets_setCapture (b : Bool) : Meets g (setCapture b) (fun _ g' => Enlarged g g') := by
  refine .of_sound fun hg => .theGraph ?_
  have henl : Enlarged g { g with capture := b } :=
    ⟨le_rfl, le_rfl, fun _ _ => rfl, fun _ _ => rfl, fun _ _ => rfl, fun _ _ => rfl, fun _ _ => rfl⟩
  exact .putGraph (henl.sound hg rfl rfl hg.rooted) henl

/-! ## Classes -/

/-- The loop follows the parents, at most as far as they lead. -/
lemma meets_egFindLoop (hc : c < g.nc) {k r : ℕ} (hl : Climbs g.parent k c r) (hk : k < fuel) :
    Meets g (egFindLoop fuel c) (fun a g' => Enlarged g g' ∧ a = r) := by
  induction fuel generalizing g c k with
  | zero => exact absurd hk (Nat.not_lt_zero k)
  | succ fuel ih =>
    refine .of_sound fun hg => ?_
    unfold egFindLoop
    refine .theGraph (.ite (fun hroot => .pure ⟨.refl g, ?_⟩) fun hne => ?_)
    · exact ((Climbs.root hroot).unique hl).2
    · obtain ⟨hsound, henl⟩ := hg.halve hc
      refine .bind (Q := fun _ g' => g' = g.setParent c (g.parent (g.parent c))) (.putGraph hsound rfl) ?_
      rintro - - - rfl
      have hlead : ∃ j, j < fuel ∧ Climbs g.parent j (g.parent (g.parent c)) r := by
        cases hl with
        | root hroot => exact absurd hroot hne
        | @step j _ _ _ hl =>
          cases hl with
          | root hroot => exact ⟨0, by omega, by rw [hroot]; exact .root hroot⟩
          | @step i _ _ _ hl => exact ⟨i, by omega, hl⟩
      obtain ⟨j, hj, hl⟩ := hlead
      obtain ⟨i, hi, hl⟩ := hl.halve c
      rw [← parent_setParent] at hl
      have hlt : g.parent (g.parent c) < (g.setParent c (g.parent (g.parent c))).nc := hg.parent_lt (hg.parent_lt hc)
      refine (ih hlt hl (hi.trans_lt hj)).mono ?_
      rintro a g' ⟨hg', ha⟩
      exact ⟨henl.trans hg', ha⟩

theorem meets_egFind (hc : c < g.nc) : Meets g (egFind c) (fun a g' => Enlarged g g' ∧ a = g.top c) := by
  refine .of_sound fun hg => .theGraph ?_
  obtain ⟨k, hk, hl⟩ := hg.rooted.leads_top (Finset.mem_range.mpr hc)
  rw [Finset.card_range] at hk
  exact meets_egFindLoop hc hl hk

/-- There are no fewer nodes and classes than before. -/
structure Wider (g g' : EGraph) : Prop where
  nn : g.nn ≤ g'.nn
  nc : g.nc ≤ g'.nc

lemma EGraph.Enlarged.wider (h : Enlarged g g') : Wider g g' := ⟨h.nn, h.nc⟩

@[refl] lemma Wider.refl (g : EGraph) : Wider g g := ⟨le_rfl, le_rfl⟩

lemma Wider.trans {g'' : EGraph} (h : Wider g g') (h' : Wider g' g'') : Wider g g'' :=
  ⟨h.nn.trans h'.nn, h.nc.trans h'.nc⟩

theorem meets_egUnion (hc : c < g.nc) (hd : d < g.nc) : Meets g (egUnion c d) (fun _ g' => Wider g g') := by
  refine .of_sound fun hg => ?_
  unfold egUnion
  refine .bind (meets_egFind hc) ?_
  rintro _ g₁ hg₁ ⟨h₁, rfl⟩
  refine .bind (meets_egFind (hd.trans_le h₁.nc)) ?_
  rintro _ g₂ hg₂ ⟨h₂, rfl⟩
  have hwide : Wider g g₂ := (h₁.trans h₂).wider
  have hct : g.top c < g₂.nc := (hg.top_lt hc).trans_le hwide.nc
  have hdt : g₁.top d < g₂.nc := (hg₁.top_lt (hd.trans_le h₁.nc)).trans_le h₂.nc
  have hcr : g₂.parent (g.top c) = g.top c := by
    rw [← (h₁.trans h₂).top c hc]
    exact hg₂.parent_top (hc.trans_le hwide.nc)
  have hdr : g₂.parent (g₁.top d) = g₁.top d := by
    rw [← h₂.top d (hd.trans_le h₁.nc)]
    exact hg₂.parent_top (hd.trans_le hwide.nc)
  refine .ite (fun _ => .pure hwide) fun hne => .theGraph (.ite (fun hle => ?_) fun hlt => ?_)
  · exact .putGraph (hg₂.hang hct hcr hdr hne hle) ⟨hwide.nn, hwide.nc⟩
  · exact .putGraph (hg₂.hang hdt hdr hcr (Ne.symm hne) (Nat.le_of_not_le hlt)) ⟨hwide.nn, hwide.nc⟩

/-- The cost of one child. -/
lemma meets_kidCost {f : ℕ → EgM β} (hx : x < g.nc)
    (hf : ∀ g', g'.Sound → Enlarged g g' → Meets g' (f (g.cost (g.top x))) R) :
    Meets g (egFind x >>= fun r => theGraph >>= fun g' => f (g'.cost r)) R := by
  refine .of_sound fun hg => .bind (meets_egFind hx) ?_
  rintro _ g₁ hg₁ ⟨h₁, rfl⟩
  refine .theGraph ?_
  rw [h₁.cost _ (hg.top_lt hx)]
  exact hf g₁ hg₁ h₁

lemma meets_kidCosts {l r : ℕ} (hl : l < g.nc) (hr : r < g.nc) :
    Meets g (egFind l >>= fun l => theGraph >>= fun g₁ => egFind r >>= fun r => theGraph >>= fun g₂ =>
      Pure.pure (3 + g₁.cost l + g₂.cost r)) (fun a g' => Enlarged g g' ∧ a = 3 + g.cost (g.top l) + g.cost (g.top r)) := by
  refine .of_sound fun hg => ?_
  refine meets_kidCost (f := fun k => egFind r >>= fun r => theGraph >>= fun g₂ => Pure.pure (3 + k + g₂.cost r)) hl ?_
  intro g₁ hg₁ h₁
  refine meets_kidCost (f := fun k => Pure.pure (3 + g.cost (g.top l) + k)) (hr.trans_le h₁.nc) ?_
  intro g₂ hg₂ h₂
  refine .pure ⟨h₁.trans h₂, ?_⟩
  rw [h₁.top r hr, h₁.cost _ (hg.top_lt hr)]

theorem meets_egCost (hn : ∀ x ∈ n.kids, x < g.nc) :
    Meets g (egCost n) (fun a g' => Enlarged g g' ∧ a = g.price n) := by
  cases n with
  | var x => exact .pure ⟨.refl g, rfl⟩
  | leaf k x => exact .pure ⟨.refl g, rfl⟩
  | lam x l =>
    refine meets_kidCost (f := fun k => Pure.pure (2 + k)) (hn l (by simp [ENode.kids])) fun g₁ hg₁ h₁ => .pure ⟨h₁, ?_⟩
    simp [EGraph.price, ENode.own, ENode.kids]
  | app l r =>
    refine (meets_kidCosts (hn l (by simp [ENode.kids])) (hn r (by simp [ENode.kids]))).mono ?_
    rintro a g' ⟨hg', rfl⟩
    exact ⟨hg', by simp [EGraph.price, ENode.own, ENode.kids, Nat.add_assoc]⟩
  | tlet x l r =>
    refine (meets_kidCosts (hn l (by simp [ENode.kids])) (hn r (by simp [ENode.kids]))).mono ?_
    rintro a g' ⟨hg', rfl⟩
    exact ⟨hg', by simp [EGraph.price, ENode.own, ENode.kids, Nat.add_assoc]⟩

lemma meets_egFind_lt (hc : c < g.nc) : Meets g (egFind c) (fun a g' => Enlarged g g' ∧ a < g'.nc) := by
  refine .of_sound fun hg => (meets_egFind hc).mono ?_
  rintro a g' ⟨hg', rfl⟩
  exact ⟨hg', (hg.top_lt hc).trans_le hg'.nc⟩

lemma meets_egFind_two {l r : ℕ} {f : ℕ → ℕ → α} (hl : l < g.nc) (hr : r < g.nc)
    (h : ∀ l r g', Enlarged g g' → l < g'.nc → r < g'.nc → Q (f l r) g') :
    Meets g (egFind l >>= fun l => egFind r >>= fun r => Pure.pure (f l r)) Q := by
  refine .bind (meets_egFind_lt hl) ?_
  rintro l' g₁ - ⟨h₁, hl'⟩
  refine .bind (meets_egFind_lt (hr.trans_le h₁.nc)) ?_
  rintro r' g₂ - ⟨h₂, hr'⟩
  exact .pure (h l' r' g₂ (h₁.trans h₂) (hl'.trans_le h₂.nc) hr')

theorem meets_egCanon (hn : ∀ x ∈ n.kids, x < g.nc) :
    Meets g (egCanon n) (fun n' g' => Enlarged g g' ∧ ∀ x ∈ n'.kids, x < g'.nc) := by
  cases n with
  | var x => exact .pure ⟨.refl g, hn⟩
  | leaf k x => exact .pure ⟨.refl g, hn⟩
  | lam x l =>
    refine .bind (meets_egFind_lt (hn l (by simp [ENode.kids]))) ?_
    rintro l' g₁ - ⟨h₁, hl'⟩
    exact .pure ⟨h₁, by simpa [ENode.kids] using hl'⟩
  | app l r =>
    refine meets_egFind_two (hn l (by simp [ENode.kids])) (hn r (by simp [ENode.kids])) fun l' r' g' hg' hl' hr' => ?_
    exact ⟨hg', by simpa [ENode.kids] using ⟨hl', hr'⟩⟩
  | tlet x l r =>
    refine meets_egFind_two (hn l (by simp [ENode.kids])) (hn r (by simp [ENode.kids])) fun l' r' g' hg' hl' hr' => ?_
    exact ⟨hg', by simpa [ENode.kids] using ⟨hl', hr'⟩⟩

lemma egLookup_lt (h : egLookup g n = some i) : i < g.nn := List.mem_range.mp (List.mem_of_find?_eq_some h)

theorem meets_egAdd (hn : ∀ x ∈ n.kids, x < g.nc) : Meets g (egAdd n) (fun a g' => Enlarged g g' ∧ a < g'.nc) := by
  unfold egAdd
  refine .bind (meets_egCanon hn) ?_
  rintro n' g₁ hg₁ ⟨h₁, hn'⟩
  refine .theGraph ?_
  cases hlook : egLookup g₁ n' with
  | some hit =>
    refine (meets_egFind_lt (hg₁.nodeCls hit (egLookup_lt hlook))).mono ?_
    rintro a g' ⟨hg', ha⟩
    exact ⟨h₁.trans hg', ha⟩
  | none =>
    refine .bind (meets_egCost hn') ?_
    rintro _ g₂ hg₂ ⟨h₂, rfl⟩
    have hn₂ : ∀ x ∈ n'.kids, x < g₂.nc := fun x hx => (hn' x hx).trans_le h₂.nc
    rw [← h₂.price hg₁ hn']
    refine .theGraph (.bind (Q := fun _ g' => g' = g₂.addClass n' (g₂.price n')) (.putGraph (hg₂.addClass hn₂) rfl) ?_)
    rintro - _ - rfl
    exact .pure ⟨(h₁.trans h₂).trans hg₂.enlarged_addClass, Nat.lt_succ_self _⟩

/-! ## Terms -/

/-- A program that only adds to the graph and returns one of its classes. -/
abbrev Adds (g : EGraph) (m : EgM ℕ) : Prop := Meets g m fun a g' => Enlarged g g' ∧ a < g'.nc

/-- Both arguments, in either order. -/
lemma meets_egArgs {l r : EgM ℕ} (hl : ∀ g', Enlarged g g' → Adds g' l) (hr : ∀ g', Enlarged g g' → Adds g' r) :
    Meets g (egArgs rightFirst l r) (fun a g' => Enlarged g g' ∧ a.1 < g'.nc ∧ a.2 < g'.nc) := by
  unfold egArgs
  refine .ite (fun _ => .bind (hr g (.refl g)) ?_) fun _ => .bind (hl g (.refl g)) ?_
  · rintro b g₁ - ⟨h₁, hb⟩
    refine .bind (hl g₁ h₁) ?_
    rintro a g₂ - ⟨h₂, ha⟩
    exact .pure ⟨h₁.trans h₂, ha, hb.trans_le h₂.nc⟩
  · rintro a g₁ - ⟨h₁, ha⟩
    refine .bind (hr g₁ h₁) ?_
    rintro b g₂ - ⟨h₂, hb⟩
    exact .pure ⟨h₁.trans h₂, ha.trans_le h₂.nc, hb⟩

/-- A node over two arguments. -/
lemma adds_two {l r : EgM ℕ} {f : ℕ → ℕ → ENode} (hf : ∀ a b, (f a b).kids = [a, b])
    (hl : ∀ g', Enlarged g g' → Adds g' l) (hr : ∀ g', Enlarged g g' → Adds g' r) :
    Adds g (egArgs rightFirst l r >>= fun a => egAdd (f a.1 a.2)) := by
  refine .bind (meets_egArgs hl hr) ?_
  rintro ⟨a, b⟩ g₁ - ⟨h₁, ha, hb⟩
  refine (meets_egAdd (n := f a b) (by rw [hf]; simpa using ⟨ha, hb⟩)).mono ?_
  rintro c g' ⟨hg', hc⟩
  exact ⟨h₁.trans hg', hc⟩

lemma adds_lam {l : EgM ℕ} (hl : Adds g l) : Adds g (l >>= fun a => egAdd (.lam name a)) := by
  refine .bind hl ?_
  rintro a g₁ - ⟨h₁, ha⟩
  refine (meets_egAdd (n := .lam name a) (by simpa [ENode.kids] using ha)).mono ?_
  rintro c g' ⟨hg', hc⟩
  exact ⟨h₁.trans hg', hc⟩

theorem meets_egAddTerm (t : ETerm) (g : EGraph) : Adds g (egAddTerm rightFirst t) := by
  induction t generalizing g with
  | var x => exact meets_egAdd (by simp [ENode.kids])
  | lam x l ih => exact adds_lam (ih g)
  | app l r ihl ihr => exact adds_two (f := .app) (fun _ _ => rfl) (fun g' _ => ihl g') fun g' _ => ihr g'
  | tlet x l r ihl ihr => exact adds_two (f := .tlet x) (fun _ _ => rfl) (fun g' _ => ihl g') fun g' _ => ihr g'
  | leaf k x => exact meets_egAdd (by simp [ENode.kids])

/-! ## Descents -/

namespace EGraph

/-- How many classes cost less than the class of `c`. -/
noncomputable def under (g : EGraph) (c : ℕ) : ℕ := ((Finset.range g.nc).filter fun d => g.cost d < g.cost (g.top c)).card

variable (hg : g.Sound)

include hg

lemma Sound.under_lt (hc : c < g.nc) : g.under c < g.nc := by
  have hlt : g.under c < (Finset.range g.nc).card := by
    refine Finset.card_lt_card ((Finset.filter_ssubset).mpr ⟨g.top c, ?_, lt_irrefl _⟩)
    exact Finset.mem_range.mpr (hg.top_lt hc)
  rwa [Finset.card_range] at hlt

/-- One level down through a best node. -/
theorem Sound.under_kid (hc : c < g.nc) (hx : x ∈ (g.best (g.top c)).kids) : x < g.nc ∧ g.under x < g.under c := by
  have htop := hg.top_lt hc
  have hlt := hg.best_kids htop hx
  have hcheap := hg.kid_cheaper htop hx
  refine ⟨hlt, Finset.card_lt_card ((Finset.ssubset_iff_of_subset fun d hd => ?_).mpr ⟨g.top x, ?_, ?_⟩)⟩
  · rw [Finset.mem_filter] at hd ⊢
    exact ⟨hd.1, hd.2.trans hcheap⟩
  · exact Finset.mem_filter.mpr ⟨Finset.mem_range.mpr (hg.top_lt hlt), hcheap⟩
  · rw [Finset.mem_filter]
    exact fun h => lt_irrefl _ h.2

end EGraph

section

variable (hgr : Enlarged g₀ g) (hc : c < g₀.nc)

include hgr hc

/-- A recursion finds the roots of the graph it began in. -/
lemma meets_root {f : ℕ → EgM β} (hf : ∀ g', g'.Sound → Enlarged g g' → Meets g' (f (g₀.top c)) R) :
    Meets g (egFind c >>= f) R := by
  refine .bind (meets_egFind (hc.trans_le hgr.nc)) ?_
  rintro _ g₁ hg₁ ⟨h₁, rfl⟩
  rw [hgr.top c hc]
  exact hf g₁ hg₁ h₁

/-- It finds their best nodes, too, and the children of these are closer to the end. -/
lemma meets_best {f : ENode → EgM β} (hg₀ : g₀.Sound)
    (hf : (∀ x ∈ (g₀.best (g₀.top c)).kids, x < g₀.nc ∧ g₀.under x < g₀.under c) →
      Meets g (f (g₀.best (g₀.top c))) R) :
    Meets g (egBest (g₀.top c) >>= f) R := by
  refine .bind (Q := fun n g' => g' = g ∧ n = g.best (g₀.top c)) (.theGraph (.pure ⟨rfl, rfl⟩)) ?_
  rintro _ _ - ⟨rfl, rfl⟩
  rw [hgr.best hg₀ (hg₀.top_lt hc)]
  exact hf fun x hx => hg₀.under_kid hc hx

lemma meets_descend {f : ℕ → ENode → EgM β} (hg₀ : g₀.Sound)
    (hf : ∀ g', g'.Sound → Enlarged g g' → (∀ x ∈ (g₀.best (g₀.top c)).kids, x < g₀.nc ∧ g₀.under x < g₀.under c) →
      Meets g' (f (g₀.top c) (g₀.best (g₀.top c))) R) :
    Meets g (egFind c >>= fun a => egBest a >>= f a) R :=
  meets_root hgr hc fun g₁ hg₁ h₁ => meets_best (hgr.trans h₁) hc hg₀ fun hkids => hf g₁ hg₁ h₁ hkids

end

lemma meets_egHasVarLoop (hg₀ : g₀.Sound) (hgr : Enlarged g₀ g) (hc : c < g₀.nc) (hf : g₀.under c < fuel) :
    Meets g (egHasVarLoop name fuel c) (fun _ g' => Enlarged g g') := by
  induction fuel generalizing g c with
  | zero => exact absurd hf (Nat.not_lt_zero _)
  | succ fuel ih =>
    unfold egHasVarLoop
    refine meets_descend hgr hc hg₀ fun g₁ hg₁ h₁ hkids => ?_
    have hkid : ∀ g' x, Enlarged g₁ g' → x ∈ (g₀.best (g₀.top c)).kids →
        Meets g' (egHasVarLoop name fuel x) (fun _ g'' => Enlarged g' g'') := fun g' x hg' hx =>
      ih (hgr.trans (h₁.trans hg')) (hkids x hx).1 (by have := (hkids x hx).2; omega)
    generalize g₀.best (g₀.top c) = n at hkid
    cases n with
    | var x => exact .pure h₁
    | leaf k x => exact .pure h₁
    | tlet x l r => exact .pure h₁
    | lam x l =>
      refine .ite (fun _ => .pure h₁) fun _ => ?_
      exact (hkid g₁ l (.refl _) (by simp [ENode.kids])).mono fun _ _ h => h₁.trans h
    | app l r =>
      refine .bind (hkid g₁ l (.refl _) (by simp [ENode.kids])) ?_
      rintro a g₂ - h₂
      refine .ite (fun _ => .pure (h₁.trans h₂)) fun _ => ?_
      exact (hkid g₂ r h₂ (by simp [ENode.kids])).mono fun _ _ h => (h₁.trans h₂).trans h

theorem meets_egHasVar (hc : c < g.nc) : Meets g (egHasVar c name) (fun _ g' => Enlarged g g') :=
  .of_sound fun hg => .theGraph (meets_egHasVarLoop hg (.refl g) hc (hg.under_lt hc))

/-- A rewrite that is declined. -/
lemma adds_declined (hc : c < g.nc) : Adds g (setCapture true >>= fun _ => Pure.pure c) := by
  refine .bind (meets_setCapture true) ?_
  rintro - g₁ - h₁
  exact .pure ⟨h₁, hc.trans_le h₁.nc⟩

theorem meets_egSubst (hg₀ : g₀.Sound) (hgr : Enlarged g₀ g) (ha : a < g₀.nc) (hc : c < g₀.nc) {left : ℕ}
    (hf : g₀.under c < left) : Adds g (egSubst rightFirst name a left c) := by
  induction left generalizing g c with
  | zero => exact absurd hf (Nat.not_lt_zero _)
  | succ left ih =>
    unfold egSubst
    refine meets_descend hgr hc hg₀ fun g₁ hg₁ h₁ hkids => ?_
    have hgr₁ := hgr.trans h₁
    have htop : g₀.top c < g₁.nc := (hg₀.top_lt hc).trans_le hgr₁.nc
    have hkid : ∀ g' x, Enlarged g₁ g' → x ∈ (g₀.best (g₀.top c)).kids → Adds g' (egSubst rightFirst name a left x) :=
      fun g' x hg' hx => ih (hgr₁.trans hg') (hkids x hx).1 (by have := (hkids x hx).2; omega)
    refine Meets.mono (Q := fun b g' => Enlarged g₁ g' ∧ b < g'.nc) ?_ fun b g' ⟨hg', hb⟩ => ⟨h₁.trans hg', hb⟩
    generalize g₀.best (g₀.top c) = n at hkid
    cases n with
    | var x =>
      refine .pure ⟨.refl g₁, ?_⟩
      split_ifs
      · exact ha.trans_le hgr₁.nc
      · exact htop
    | leaf k x => exact .pure ⟨.refl g₁, htop⟩
    | tlet x l r => exact adds_declined htop
    | lam x l =>
      refine .ite (fun _ => .pure ⟨.refl g₁, htop⟩) fun _ => .bind (meets_egHasVar (ha.trans_le hgr₁.nc)) ?_
      rintro b g₂ - h₂
      refine Meets.mono (Q := fun b g' => Enlarged g₂ g' ∧ b < g'.nc) ?_ fun b g' ⟨hg', hb⟩ => ⟨h₂.trans hg', hb⟩
      refine .ite (fun _ => adds_declined (htop.trans_le h₂.nc)) fun _ => ?_
      exact adds_lam (hkid g₂ l h₂ (by simp [ENode.kids]))
    | app l r =>
      refine adds_two (f := .app) (fun _ _ => rfl) (fun g' hg' => ?_) fun g' hg' => ?_
      · exact hkid g' l hg' (by simp [ENode.kids])
      · exact hkid g' r hg' (by simp [ENode.kids])

/-! ## Rules -/

/-- A program that takes away no node and no class. -/
abbrev Widens (g : EGraph) (m : EgM Unit) : Prop := Meets g m fun _ g' => Wider g g'

lemma Meets.widens {f : α → EgM Unit} (h : Meets g m Q) (hw : ∀ a g', Q a g' → Wider g g')
    (hf : ∀ a g', g'.Sound → Q a g' → Widens g' (f a)) : Widens g (m >>= f) :=
  .bind h fun a g' hg' hq => (hf a g' hg' hq).mono fun _ _ h => (hw a g' hq).trans h

lemma widens_find {f : ℕ → EgM Unit} (hc : c < g.nc)
    (hf : ∀ a g', g'.Sound → Enlarged g g' → a < g'.nc → Widens g' (f a)) : Widens g (egFind c >>= f) :=
  (meets_egFind_lt hc).widens (fun _ _ h => h.1.wider) fun a g' hg' h => hf a g' hg' h.1 h.2

/-- The best node of a class, whose children are classes. -/
lemma widens_best {f : ENode → EgM Unit} (hg : g.Sound) (hc : c < g.nc)
    (hf : (∀ x ∈ (g.best c).kids, x < g.nc) → Widens g (f (g.best c))) : Widens g (egBest c >>= f) := by
  refine .bind (Q := fun n g' => g' = g ∧ n = g.best c) (.theGraph (.pure ⟨rfl, rfl⟩)) ?_
  rintro _ _ - ⟨rfl, rfl⟩
  exact hf fun x hx => hg.best_kids hc hx

/-- The union of a rule; the class is found again for the counter. -/
lemma widens_union (hc : c < g.nc) (hd : d < g.nc) :
    Widens g (egUnion c d >>= fun _ => egFind c >>= fun _ => Pure.pure ()) :=
  (meets_egUnion hc hd).widens (fun _ _ h => h) fun _ g₁ _ h₁ =>
    widens_find (hc.trans_le h₁.nc) fun _ g₂ _ _ _ => .pure (.refl g₂)

lemma widens_egBeta {param cls l r : ℕ} (hcls : cls < g.nc) (hl : l < g.nc) (hr : r < g.nc) :
    Widens g (egBeta rightFirst param cls l r) := by
  unfold egBeta
  refine widens_find hl fun fnCls g₁ hg₁ h₁ hfn => widens_best hg₁ hfn fun hkids => ?_
  generalize g₁.best fnCls = n at hkids
  cases n with
  | lam vn body =>
    refine widens_find (hkids body (by simp [ENode.kids])) fun bl g₂ hg₂ h₂ _ => ?_
    refine .theGraph (.ite (fun _ => ?_) fun _ => .pure (.refl g₂))
    refine widens_find (hcls.trans_le (h₁.trans h₂).nc) fun _ g₃ hg₃ h₃ _ => ?_
    refine (meets_setCapture false).widens (fun _ _ h => h.wider) fun _ g₄ hg₄ h₄ => ?_
    have hgr := ((h₁.trans h₂).trans h₃).trans h₄
    have hbody : body < g₄.nc := (hkids body (by simp [ENode.kids])).trans_le ((h₂.trans h₃).trans h₄).nc
    refine .theGraph ?_
    have hsub : Adds g₄ (egSubst rightFirst vn r (g₄.nc + 1) body) :=
      meets_egSubst hg₄ (.refl g₄) (hr.trans_le hgr.nc) hbody ((hg₄.under_lt hbody).trans (Nat.lt_succ_self _))
    refine hsub.widens (fun _ _ h => h.1.wider) fun sub g₅ hg₅ h₅ => ?_
    refine .theGraph (.ite (fun _ => .pure (.refl g₅)) fun _ => ?_)
    exact widens_union (hcls.trans_le (hgr.trans h₅.1).nc) h₅.2
  | var x => exact .pure (.refl g₁)
  | leaf k x => exact .pure (.refl g₁)
  | app l r => exact .pure (.refl g₁)
  | tlet x l r => exact .pure (.refl g₁)

lemma widens_egEta {cls l : ℕ} (hcls : cls < g.nc) (hl : l < g.nc) : Widens g (egEta cls name l) := by
  unfold egEta
  refine widens_find hl fun bodyCls g₁ hg₁ h₁ hbody => widens_best hg₁ hbody fun hkids => ?_
  generalize g₁.best bodyCls = n at hkids
  cases n with
  | app fl fr =>
    have hfl : fl < g₁.nc := hkids fl (by simp [ENode.kids])
    refine widens_find (hkids fr (by simp [ENode.kids])) fun an g₂ hg₂ h₂ han => widens_best hg₂ han fun _ => ?_
    generalize g₂.best an = n
    cases n with
    | var x =>
      refine .ite (fun _ => ?_) fun _ => .pure (.refl g₂)
      refine (meets_egHasVar (hfl.trans_le h₂.nc)).widens (fun _ _ h => h.wider) fun b g₃ _ h₃ => ?_
      refine .ite (fun _ => .pure (.refl g₃)) fun _ => ?_
      refine widens_find (hcls.trans_le ((h₁.trans h₂).trans h₃).nc) fun _ g₄ _ h₄ _ => ?_
      exact widens_union (hcls.trans_le (((h₁.trans h₂).trans h₃).trans h₄).nc) (hfl.trans_le ((h₂.trans h₃).trans h₄).nc)
    | leaf k x => exact .pure (.refl g₂)
    | lam x l => exact .pure (.refl g₂)
    | app l r => exact .pure (.refl g₂)
    | tlet x l r => exact .pure (.refl g₂)
  | var x => exact .pure (.refl g₁)
  | leaf k x => exact .pure (.refl g₁)
  | lam x l => exact .pure (.refl g₁)
  | tlet x l r => exact .pure (.refl g₁)

lemma widens_egRule {cls : ℕ} (hcls : cls < g.nc) (hn : ∀ x ∈ n.kids, x < g.nc) (rule : EgRule) :
    Widens g (egRule rightFirst rule n cls) := by
  obtain ⟨kind, param, on⟩ := rule
  cases kind <;> cases n
  case beta.app l r => exact widens_egBeta hcls (hn l (by simp [ENode.kids])) (hn r (by simp [ENode.kids]))
  case eta.lam x l => exact widens_egEta hcls (hn l (by simp [ENode.kids]))
  all_goals exact .pure (.refl g)

lemma widens_egRewrite {cls : ℕ} (hcls : cls < g.nc) (hn : ∀ x ∈ n.kids, x < g.nc) (rules : List EgRule) :
    Widens g (egRewrite rightFirst n cls rules) := by
  induction rules generalizing g with
  | nil => exact .pure (.refl g)
  | cons rule rules ih =>
    refine .ite (fun _ => ?_) fun _ => ih hcls hn
    refine (widens_egRule hcls hn rule).widens (fun _ _ h => h) fun _ g' _ h => ?_
    exact ih (hcls.trans_le h.nc) fun x hx => (hn x hx).trans_le h.nc

lemma widens_egPass {eta : Bool} (is : List ℕ) (his : ∀ i ∈ is, i < g.nn) : Widens g (egPass rightFirst eta is) := by
  induction is generalizing g with
  | nil => exact .pure (.refl g)
  | cons i is ih =>
    refine .of_sound fun hg => .theGraph (.ite (fun _ => ?_) fun _ => .pure (.refl g))
    have hi : i < g.nn := his i List.mem_cons_self
    refine widens_find (hg.nodeCls i hi) fun cls g₁ hg₁ h₁ hcls => ?_
    have hkids : ∀ x ∈ (g.nodes.get i).kids, x < g₁.nc := fun x hx => (hg.kids i hi x hx).trans_le h₁.nc
    refine (widens_egRewrite hcls hkids (egRules eta)).widens (fun _ _ h => h) fun _ g₂ _ h₂ => ?_
    exact ih fun j hj => (his j (List.mem_cons_of_mem i hj)).trans_le (h₁.wider.trans h₂).nn

/-- Refreshing lowers a cost to what a node of the class weighs. -/
lemma widens_egRecost (is : List ℕ) (his : ∀ i ∈ is, i < g.nn) : Widens g (egRecost is) := by
  induction is generalizing g with
  | nil => exact .pure (.refl g)
  | cons i is ih =>
    have hi : i < g.nn := his i List.mem_cons_self
    refine .of_sound fun hg => .theGraph (widens_find (hg.nodeCls i hi) fun c g₁ hg₁ h₁ _ => ?_)
    rw [← h₁.node i hi]
    refine (meets_egCost (hg₁.kids i (hi.trans_le h₁.nn))).widens (fun _ _ h => h.1.wider) ?_
    rintro _ g₂ hg₂ ⟨h₂, rfl⟩
    have hi₂ : i < g₂.nn := hi.trans_le (h₁.trans h₂).nn
    rw [← h₂.price hg₁ (hg₁.kids i (hi.trans_le h₁.nn)), ← h₂.node i (hi.trans_le h₁.nn)]
    refine .theGraph ?_
    have hrest : ∀ g₃, Wider g₂ g₃ → Widens g₃ (egRecost is) := fun g₃ h₃ =>
      ih fun j hj => (his j (List.mem_cons_of_mem i hj)).trans_le ((h₁.trans h₂).wider.trans h₃).nn
    refine .ite (fun hlt => ?_) fun _ => hrest g₂ (.refl g₂)
    have hset : Widens g₂ (putGraph (g₂.setBest c i (g₂.price (g₂.nodes.get i)))) :=
      .putGraph (hg₂.setBest hi₂ hlt) ⟨le_rfl, le_rfl⟩
    exact hset.widens (fun _ _ h => h) fun _ g₃ _ h₃ => hrest g₃ h₃

theorem widens_egSaturate {eta : Bool} (rounds : ℕ) (g : EGraph) : Widens g (egSaturate rightFirst eta rounds) := by
  induction rounds generalizing g with
  | zero => exact .pure (.refl g)
  | succ rounds ih =>
    refine .theGraph ?_
    refine (widens_egPass (List.range g.nn) fun i hi => List.mem_range.mp hi).widens (fun _ _ h => h) fun _ g₁ _ _ => ?_
    refine .theGraph ?_
    refine (widens_egRecost (List.range g₁.nn) fun i hi => List.mem_range.mp hi).widens (fun _ _ h => h) fun _ g₂ _ _ => ?_
    exact ih g₂

end LinEngine
