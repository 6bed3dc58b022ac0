import LinEngine.EgRuns

/-!
# Extraction from the e-graph

What reads the graph after saturation only finds classes in it, so each recursion
descends through the best nodes of one graph. It is over within the limit and a term is
extracted for every class.
-/
namespace LinEngine

open EGraph Forest

variable {α β : Type} {g g₀ : EGraph} {m : EgM α} {c root left : ℕ} {rightFirst : Bool} {cse : Table Bool false}

/-! ## Recursions with a limit -/

lemma meets_egHasFree {b : List String} (hg₀ : g₀.Sound) (hgr : Enlarged g₀ g) (hc : c < g₀.nc)
    (hf : g₀.under c < left) : Meets g (egHasFree left b c) (fun _ g' => Enlarged g g') := by
  induction left generalizing g c b with
  | zero => exact absurd hf (Nat.not_lt_zero _)
  | succ left ih =>
    unfold egHasFree
    refine meets_descend hgr hc hg₀ fun g₁ hg₁ h₁ hkids => ?_
    have hkid : ∀ g' b x, Enlarged g₁ g' → x ∈ (g₀.best (g₀.top c)).kids →
        Meets g' (egHasFree left b x) (fun _ g'' => Enlarged g' g'') := fun g' b x hg' hx =>
      ih (hgr.trans (h₁.trans hg')) (hkids x hx).1 (by have := (hkids x hx).2; omega)
    have htwo : ∀ b l r, l ∈ (g₀.best (g₀.top c)).kids → r ∈ (g₀.best (g₀.top c)).kids →
        Meets g₁ (do if ← egHasFree left b l then return true else egHasFree left b r) (fun _ g' => Enlarged g g') := by
      intro b l r hl hr
      refine .bind (hkid g₁ b l (.refl _) hl) ?_
      rintro a g₂ - h₂
      refine .ite (fun _ => .pure (h₁.trans h₂)) fun _ => ?_
      exact (hkid g₂ b r h₂ hr).mono fun _ _ h => (h₁.trans h₂).trans h
    generalize g₀.best (g₀.top c) = n at hkid htwo
    cases n with
    | var x => exact .pure h₁
    | leaf k x => exact .pure h₁
    | lam x l => exact (hkid g₁ (x :: b) l (.refl _) (by simp [ENode.kids])).mono fun _ _ h => h₁.trans h
    | app l r => exact htwo b l r (by simp [ENode.kids]) (by simp [ENode.kids])
    | tlet x l r => exact htwo (x :: b) l r (by simp [ENode.kids]) (by simp [ENode.kids])

lemma meets_egCountUses {u : EgUses} (hg₀ : g₀.Sound) (hgr : Enlarged g₀ g) (hc : c < g₀.nc)
    (hf : g₀.under c < left) : Meets g (egCountUses left c u) (fun _ g' => Enlarged g g') := by
  induction left generalizing g c u with
  | zero => exact absurd hf (Nat.not_lt_zero _)
  | succ left ih =>
    unfold egCountUses
    refine meets_root hgr hc fun g₁ hg₁ h₁ => .ite (fun _ => .pure h₁) fun _ => ?_
    refine meets_best (hgr.trans h₁) hc hg₀ fun hkids => ?_
    have hkid : ∀ g' u x, Enlarged g₁ g' → x ∈ (g₀.best (g₀.top c)).kids →
        Meets g' (egCountUses left x u) (fun _ g'' => Enlarged g' g'') := fun g' u x hg' hx =>
      ih (hgr.trans (h₁.trans hg')) (hkids x hx).1 (by have := (hkids x hx).2; omega)
    have htwo : ∀ u l r, l ∈ (g₀.best (g₀.top c)).kids → r ∈ (g₀.best (g₀.top c)).kids →
        Meets g₁ (do egCountUses left r (← egCountUses left l u)) (fun _ g' => Enlarged g g') := by
      intro u l r hl hr
      refine .bind (hkid g₁ u l (.refl _) hl) ?_
      rintro u' g₂ - h₂
      exact (hkid g₂ u' r h₂ hr).mono fun _ _ h => (h₁.trans h₂).trans h
    generalize g₀.best (g₀.top c) = n at hkid htwo
    cases n with
    | var x => exact .pure h₁
    | leaf k x => exact .pure h₁
    | lam x l => exact (hkid g₁ _ l (.refl _) (by simp [ENode.kids])).mono fun _ _ h => h₁.trans h
    | app l r => exact htwo _ l r (by simp [ENode.kids]) (by simp [ENode.kids])
    | tlet x l r => exact htwo _ l r (by simp [ENode.kids]) (by simp [ENode.kids])

/-- Every class has a term. -/
theorem meets_egExtract (hg₀ : g₀.Sound) (hgr : Enlarged g₀ g) (hc : c < g₀.nc) (hf : g₀.under c < left) :
    Meets g (egExtract cse left c) (fun t g' => Enlarged g g' ∧ t.isSome) := by
  induction left generalizing g c with
  | zero => exact absurd hf (Nat.not_lt_zero _)
  | succ left ih =>
    unfold egExtract
    refine meets_root hgr hc fun g₁ hg₁ h₁ => .ite (fun _ => .pure ⟨h₁, rfl⟩) fun _ => ?_
    refine meets_best (hgr.trans h₁) hc hg₀ fun hkids => ?_
    have hkid : ∀ g' x, Enlarged g₁ g' → x ∈ (g₀.best (g₀.top c)).kids →
        Meets g' (egExtract cse left x) (fun t g'' => Enlarged g' g'' ∧ t.isSome) := fun g' x hg' hx =>
      ih (hgr.trans (h₁.trans hg')) (hkids x hx).1 (by have := (hkids x hx).2; omega)
    have htwo : ∀ (f : ETerm → ETerm → ETerm) l r, l ∈ (g₀.best (g₀.top c)).kids → r ∈ (g₀.best (g₀.top c)).kids →
        Meets g₁ (do
          let l ← egExtract cse left l
          let r ← egExtract cse left r
          return l.bind fun l => r.map fun r => f l r) (fun t g' => Enlarged g g' ∧ t.isSome) := by
      intro f l r hl hr
      refine .bind (hkid g₁ l (.refl _) hl) ?_
      rintro tl g₂ - ⟨h₂, hsl⟩
      refine .bind (hkid g₂ r h₂ hr) ?_
      rintro tr g₃ - ⟨h₃, hsr⟩
      obtain ⟨tl, rfl⟩ := Option.isSome_iff_exists.mp hsl
      obtain ⟨tr, rfl⟩ := Option.isSome_iff_exists.mp hsr
      exact .pure ⟨(h₁.trans h₂).trans h₃, rfl⟩
    generalize g₀.best (g₀.top c) = n at hkid htwo
    cases n with
    | var x => exact .pure ⟨h₁, rfl⟩
    | leaf k x => exact .pure ⟨h₁, rfl⟩
    | lam x l =>
      refine .bind (hkid g₁ l (.refl _) (by simp [ENode.kids])) ?_
      rintro tl g₂ - ⟨h₂, hsl⟩
      obtain ⟨tl, rfl⟩ := Option.isSome_iff_exists.mp hsl
      exact .pure ⟨h₁.trans h₂, rfl⟩
    | app l r => exact htwo .app l r (by simp [ENode.kids]) (by simp [ENode.kids])
    | tlet x l r => exact htwo (.tlet x) l r (by simp [ENode.kids]) (by simp [ENode.kids])

/-- Extraction with the limit of the source. -/
lemma meets_egExtract_top (hc : c < g.nc) :
    Meets g (egExtract cse (g.nc + 1) c) (fun t g' => Enlarged g g' ∧ t.isSome) :=
  .of_sound fun hg => meets_egExtract hg (.refl g) hc ((hg.under_lt hc).trans (Nat.lt_succ_self _))

/-! ## The whole pass -/

/-- A program that only looks at the graph. -/
abbrev Looks (g : EGraph) (m : EgM α) : Prop := Meets g m fun _ g' => Enlarged g g'

lemma Meets.looks {f : α → EgM β} (h : Looks g m) (hf : ∀ a g', g'.Sound → Enlarged g g' → Looks g' (f a)) :
    Looks g (m >>= f) :=
  .bind h fun a g' hg' hq => (hf a g' hg' hq).mono fun _ _ h => hq.trans h

lemma looks_egShared {u : EgUses} (hc : c < g.nc) : Looks g (egShared u root c) := by
  unfold egShared
  refine .ite (fun _ => .pure (.refl g)) fun _ => ?_
  refine Meets.looks ((meets_egFind hc).mono fun _ _ h => h.1) fun r g₁ hg₁ h₁ => ?_
  refine .ite (fun _ => .pure (.refl g₁)) fun _ => .theGraph (.ite (fun _ => .pure (.refl g₁)) fun _ => ?_)
  have hc₁ := hc.trans_le h₁.nc
  cases g₁.best c with
  | app l r =>
    have hfree := meets_egHasFree (b := []) hg₁ (.refl g₁) hc₁ ((hg₁.under_lt hc₁).trans (Nat.lt_succ_self _))
    exact hfree.looks fun _ g₂ _ _ => .pure (.refl g₂)
  | var x => exact .pure (.refl g₁)
  | leaf k x => exact .pure (.refl g₁)
  | lam x l => exact .pure (.refl g₁)
  | tlet x l r => exact .pure (.refl g₁)

lemma looks_egMarkShared {u : EgUses} (cs : List ℕ) (hcs : ∀ c ∈ cs, c < g.nc) :
    Looks g (egMarkShared u root cs cse) := by
  induction cs generalizing g cse with
  | nil => exact .pure (.refl g)
  | cons c cs ih =>
    refine (looks_egShared (hcs c List.mem_cons_self)).looks fun shared g₁ _ h₁ => ?_
    exact ih fun d hd => (hcs d (List.mem_cons_of_mem c hd)).trans_le h₁.nc

lemma looks_egValues {vals : List (ℕ × ETerm)} (cs : List ℕ) (hcs : ∀ c ∈ cs, c < g.nc) :
    Looks g (egValues cs cse vals) := by
  induction cs generalizing g cse vals with
  | nil => exact .pure (.refl g)
  | cons c cs ih =>
    have hrest : ∀ g' cse vals, Enlarged g g' → Looks g' (egValues cs cse vals) := fun g' cse vals h =>
      ih fun d hd => (hcs d (List.mem_cons_of_mem c hd)).trans_le h.nc
    refine .ite (fun _ => .theGraph ?_) fun _ => hrest g cse vals (.refl g)
    have hc := hcs c List.mem_cons_self
    have hext : Looks g (egExtract .empty (g.nc + 1) c) := (meets_egExtract_top hc).mono fun _ _ h => h.1
    refine hext.looks fun t g₁ _ h₁ => ?_
    cases t with
    | some v => exact hrest g₁ _ _ h₁
    | none => exact hrest g₁ _ _ h₁

lemma looks_egShare {noCse : Bool} (hroot : root < g.nc) : Looks g (egShare noCse root) := by
  refine .of_sound fun hg => ?_
  unfold egShare
  refine .ite (fun _ => .pure (.refl g)) fun _ => .theGraph ?_
  have hcs : ∀ g', Enlarged g g' → ∀ c ∈ List.range g.nc, c < g'.nc := fun g' h c hc =>
    (List.mem_range.mp hc).trans_le h.nc
  have huses := meets_egCountUses (u := ⟨.empty, .empty⟩) hg (.refl g) hroot ((hg.under_lt hroot).trans (Nat.lt_succ_self _))
  refine huses.looks fun u g₁ _ h₁ => ?_
  refine (looks_egMarkShared (List.range g.nc) (hcs g₁ h₁)).looks fun cse g₂ _ h₂ => ?_
  exact looks_egValues (List.range g.nc) (hcs g₂ (h₁.trans h₂))

lemma meets_egraphOptimize (o : EgOptions) (t : ETerm) : Meets g (egraphOptimize o t) (fun _ _ => True) := by
  unfold egraphOptimize
  refine .ite (fun _ => .pure trivial) fun _ => ?_
  refine .bind (meets_egAddTerm t g) ?_
  rintro root g₁ - ⟨-, hroot⟩
  refine .bind (widens_egSaturate 4 g₁) ?_
  rintro - g₂ - h₂
  refine .bind (meets_egFind_lt (hroot.trans_le h₂.nc)) ?_
  rintro root g₃ - ⟨-, hroot⟩
  refine .bind (looks_egShare hroot) ?_
  rintro ⟨cse, vals⟩ g₄ - h₄
  refine .theGraph (.bind (meets_egExtract_top (hroot.trans_le h₄.nc)) ?_)
  rintro res g₅ - -
  exact .pure trivial

/-! ## Every version of the graph -/

/-- From the graph `g` the program ends with no recursion cut off, and returns what satisfies `P`. -/
def Uncut (g : EGraph) (m : EgM α) (P : α → Prop) : Prop :=
  wp m (fun a s => s.cut = false ∧ P a) (fun _ _ => False) ⟨g, [], false⟩

/-- The children of a best node are found cheaper, and no recursion over best nodes comes to its limit:
from every class there is one, and extraction gets a term. -/
structure EGraph.Descends (g : EGraph) : Prop where
  cheaper : ∀ c < g.nc, ∀ x ∈ (g.best c).kids, ∃ r k, Climbs g.parent k x r ∧ g.cost r < g.cost c
  hasVar : ∀ c < g.nc, ∀ name, Uncut g (egHasVar c name) fun _ => True
  subst : ∀ rightFirst name, ∀ a < g.nc, ∀ c < g.nc, Uncut g (egSubst rightFirst name a (g.nc + 1) c) fun _ => True
  hasFree : ∀ c < g.nc, ∀ b, Uncut g (egHasFree (g.nc + 1) b c) fun _ => True
  extract : ∀ c < g.nc, ∀ cse, Uncut g (egExtract cse (g.nc + 1) c) fun t => t.isSome

lemma Meets.uncut {Q : α → EGraph → Prop} {P : α → Prop} (hg : g.Sound) (h : Meets g m Q) (hP : ∀ a g', Q a g' → P a) :
    Uncut g m P :=
  wp_mono (h ⟨g, [], false⟩ ⟨rfl, hg, by simp⟩ rfl) (fun a s ⟨hs, hq⟩ => ⟨hs.uncut, hP a s.graph hq⟩) fun _ _ he => he

theorem EGraph.Sound.descends (hg : g.Sound) : g.Descends where
  cheaper := by
    intro c hc x hx
    obtain ⟨k, -, hl⟩ := hg.rooted.leads_top (Finset.mem_range.mpr (hg.best_kids hc hx))
    exact ⟨g.top x, k, hl, hg.kid_cheaper hc hx⟩
  hasVar := fun c hc name => (meets_egHasVar hc).uncut hg fun _ _ _ => trivial
  subst := fun rightFirst name a ha c hc =>
    (meets_egSubst hg (.refl g) ha hc ((hg.under_lt hc).trans (Nat.lt_succ_self _))).uncut hg fun _ _ _ => trivial
  hasFree := fun c hc b =>
    (meets_egHasFree hg (.refl g) hc ((hg.under_lt hc).trans (Nat.lt_succ_self _))).uncut hg fun _ _ _ => trivial
  extract := fun c hc cse => (meets_egExtract_top hc).uncut hg fun _ _ h => h.2

lemma sound_empty : EGraph.empty.Sound where
  rooted := ⟨fun _ h => absurd (Finset.mem_range.mp h) (Nat.not_lt_zero _), fun _ h =>
    absurd (Finset.mem_range.mp h) (Nat.not_lt_zero _)⟩
  bestNode := fun _ h => absurd h (Nat.not_lt_zero _)
  kids := fun _ h => absurd h (Nat.not_lt_zero _)
  nodeCls := fun _ h => absurd h (Nat.not_lt_zero _)
  price := fun _ h => absurd h (Nat.not_lt_zero _)

/-- The identity applied is united with its operand. -/
example : wp (egraphOptimize ⟨false, false, false, false⟩ (.app (.lam "x" (.var "x")) (.leaf .tnum "5")))
    (fun t s => t = .leaf .tnum "5" ∧ s.graph.nc = 4) (fun _ _ => False) EgRun.start := by
  decide +kernel

end LinEngine
