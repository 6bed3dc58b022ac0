import LinEngine.EgSame

/-!
# Rewriting keeps the meaning

Each program of the optimizer keeps a faithful graph faithful. A class that it makes for
a term means that term; after a substitution that was not declined this is the body
with the argument in place of the variable, so that a rule unites classes of one meaning.
-/
namespace LinEngine

open EGraph ETerm Forest

variable {α β : Type} {r : Reading} {η : Bool} {L : ENode → Prop} {g g' g₀ : EGraph} {m m' : EgM α} {a c d x i fuel left : ℕ}
  {n : ENode} {name : String} {rightFirst : Bool} {Q : α → EGraph → Prop} {R : β → EGraph → Prop} {P P' : ETerm → Prop}

/-! ## What a program leaves as it is -/

/-- Where the program ends, `f` reads what it read before. -/
def Leaves {γ : Type} (f : EGraph → γ) (m : EgM α) : Prop :=
  ∀ s, wp m (fun _ s' => f s'.graph = f s.graph) (fun _ _ => True) s

namespace Leaves

variable {γ : Type} {f : EGraph → γ}

lemma pure (a : α) : Leaves f (pure a) := fun _ => rfl

lemma bind {k : α → EgM β} (h : Leaves f m) (hk : ∀ a, Leaves f (k a)) : Leaves f (m >>= k) := by
  intro s
  rw [wp_bind]
  exact wp_mono (h s) (fun a s' hs' => wp_mono (hk a s') (fun _ _ h => h.trans hs') fun _ _ _ => trivial) fun _ _ _ => trivial

lemma theGraph : Leaves f theGraph := fun _ => rfl

lemma then_putGraph {k : EGraph → EgM β} {e : EGraph → EGraph} (he : ∀ g, f (e g) = f g) (hk : ∀ g, Leaves f (k g)) :
    Leaves f (LinEngine.theGraph >>= fun g => putGraph (e g) >>= fun _ => k g) := by
  intro s
  exact wp_mono (hk s.graph { s with graph := e s.graph, points := e s.graph :: s.points })
    (fun _ _ h => h.trans (he s.graph)) fun _ _ _ => trivial

lemma comp {δ : Type} (h : Leaves f m) (k : γ → δ) : Leaves (fun g => k (f g)) m := fun s =>
  wp_mono (h s) (fun _ _ hs => congrArg k hs) fun _ _ _ => trivial

end Leaves

/-- How much there is in the graph, and whether a capture was met. -/
def EGraph.extent (g : EGraph) : ℕ × ℕ × Bool := (g.nn, g.nc, g.capture)

lemma leaves_egFindLoop (fuel c : ℕ) : Leaves EGraph.extent (egFindLoop fuel c) := by
  induction fuel generalizing c with
  | zero => exact fun _ => trivial
  | succ fuel ih =>
    intro s
    unfold egFindLoop
    simp only [theGraph, wp_bind, wp_get, wp_pure]
    split_ifs
    · rfl
    · simp only [putGraph, wp_bind, wp_modify]
      exact ih _ _

lemma leaves_egFind (c : ℕ) : Leaves EGraph.extent (egFind c) := .bind .theGraph fun _ => leaves_egFindLoop _ c

lemma leaves_egCost (n : ENode) : Leaves EGraph.extent (egCost n) := by
  cases n with
  | var x => exact .pure _
  | leaf k x => exact .pure _
  | lam x l => exact .bind (leaves_egFind l) fun _ => .bind .theGraph fun _ => .pure _
  | app l r =>
    exact .bind (leaves_egFind l) fun _ => .bind .theGraph fun _ => .bind (leaves_egFind r) fun _ =>
      .bind .theGraph fun _ => .pure _
  | tlet x l r =>
    exact .bind (leaves_egFind l) fun _ => .bind .theGraph fun _ => .bind (leaves_egFind r) fun _ =>
      .bind .theGraph fun _ => .pure _

lemma leaves_egCanon (n : ENode) : Leaves EGraph.extent (egCanon n) := by
  cases n with
  | var x => exact .pure _
  | leaf k x => exact .pure _
  | lam x l => exact .bind (leaves_egFind l) fun _ => .pure _
  | app l r => exact .bind (leaves_egFind l) fun _ => .bind (leaves_egFind r) fun _ => .pure _
  | tlet x l r => exact .bind (leaves_egFind l) fun _ => .bind (leaves_egFind r) fun _ => .pure _

lemma leaves_egAdd (n : ENode) : Leaves EGraph.capture (egAdd n) := by
  refine .bind ((leaves_egCanon n).comp (·.2.2)) fun n' => .bind .theGraph fun g => ?_
  cases egLookup g n' with
  | some hit => exact (leaves_egFind _).comp (·.2.2)
  | none => exact .bind ((leaves_egCost n').comp (·.2.2)) fun cost => .then_putGraph (fun _ => rfl) fun g => .pure _

lemma leaves_egArgs {l r : EgM ℕ} (hl : Leaves EGraph.capture l) (hr : Leaves EGraph.capture r) :
    Leaves EGraph.capture (egArgs rightFirst l r) := by
  unfold egArgs
  split_ifs
  · exact .bind hr fun _ => .bind hl fun _ => .pure _
  · exact .bind hl fun _ => .bind hr fun _ => .pure _

/-- Only a substitution meets a capture. -/
lemma leaves_egAddTerm (t : ETerm) : Leaves EGraph.capture (egAddTerm rightFirst t) := by
  induction t with
  | var x => exact leaves_egAdd _
  | lam x l ih => exact .bind ih fun _ => leaves_egAdd _
  | app l r ihl ihr => exact .bind (leaves_egArgs ihl ihr) fun _ => leaves_egAdd _
  | tlet x l r ihl ihr => exact .bind (leaves_egArgs ihl ihr) fun _ => leaves_egAdd _
  | leaf k x => exact leaves_egAdd _

lemma Meets.mono_sound {Q' : α → EGraph → Prop} (h : Meets g m Q) (hQ : ∀ a g', g'.Sound → Q a g' → Q' a g') : Meets g m Q' :=
  fun s hs hg => wp_mono (h s hs hg) (fun a s' ⟨hs', hq⟩ => ⟨hs', hQ a s'.graph hs'.graph hq⟩) fun _ _ he => he

lemma Meets.unmoved (h : Meets g m fun a g' => Enlarged g g' ∧ Q a g') (hm : Leaves EGraph.extent m) :
    Meets g m fun a g' => Unmoved g g' ∧ Q a g' := by
  rintro s hs rfl
  refine wp_mono (wp_and (h s hs rfl) (hm s)) ?_ fun _ _ he => he.1
  rintro a s' ⟨⟨hs', henl, hq⟩, hext⟩
  simp only [EGraph.extent, Prod.mk.injEq] at hext
  exact ⟨hs', ⟨henl, hext.1, hext.2.1, hext.2.2⟩, hq⟩

lemma meets_find (hc : c < g.nc) : Meets g (egFind c) fun a g' => Unmoved g g' ∧ a = g.top c :=
  (meets_egFind hc).unmoved (leaves_egFind c)

lemma meets_cost (hn : ∀ x ∈ n.kids, x < g.nc) : Meets g (egCost n) fun a g' => Unmoved g g' ∧ a = g.price n :=
  (meets_egCost hn).unmoved (leaves_egCost n)

/-! ## Nodes -/

/-- The children found are in the classes of the children. -/
lemma meets_canon (hf : g.Faithful r η L) (hn : ∀ x ∈ n.kids, x < g.nc) :
    Meets g (egCanon n) fun n' g' => Unmoved g g' ∧ n'.label = n.label ∧ (∀ x ∈ n'.kids, x < g.nc) ∧
      Same r η (n'.term g.origin) (n.term g.origin) := by
  refine .of_sound fun hg => ?_
  cases n with
  | var x => exact .pure ⟨.refl g, rfl, hn, .refl _⟩
  | leaf k x => exact .pure ⟨.refl g, rfl, hn, .refl _⟩
  | lam x l =>
    have hl : l < g.nc := hn l (by simp [ENode.kids])
    refine .bind (meets_find hl) ?_
    rintro _ g₁ - ⟨h₁, rfl⟩
    exact .pure ⟨h₁, rfl, by simpa [ENode.kids] using hg.top_lt hl, .lam x (hf.top l hl)⟩
  | app l r =>
    have hl : l < g.nc := hn l (by simp [ENode.kids])
    have hr : r < g.nc := hn r (by simp [ENode.kids])
    refine .bind (meets_find hl) ?_
    rintro _ g₁ - ⟨h₁, rfl⟩
    refine .bind (meets_find (hr.trans_le h₁.enlarged.nc)) ?_
    rintro _ g₂ - ⟨h₂, rfl⟩
    rw [h₁.enlarged.top r hr]
    exact .pure ⟨h₁.trans h₂, rfl, by simpa [ENode.kids] using ⟨hg.top_lt hl, hg.top_lt hr⟩,
      .app (hf.top l hl) (hf.top r hr)⟩
  | tlet x l r =>
    have hl : l < g.nc := hn l (by simp [ENode.kids])
    have hr : r < g.nc := hn r (by simp [ENode.kids])
    refine .bind (meets_find hl) ?_
    rintro _ g₁ - ⟨h₁, rfl⟩
    refine .bind (meets_find (hr.trans_le h₁.enlarged.nc)) ?_
    rintro _ g₂ - ⟨h₂, rfl⟩
    rw [h₁.enlarged.top r hr]
    exact .pure ⟨h₁.trans h₂, rfl, by simpa [ENode.kids] using ⟨hg.top_lt hl, hg.top_lt hr⟩,
      .tlet x (hf.top l hl) (hf.top r hr)⟩

lemma egLookup_node (h : egLookup g n = some i) : g.nodes.get i = n := by
  simpa using List.find?_some h

/-- The class of a node means what the node means. -/
theorem meets_add (hf : g.Faithful r η L) (hn : ∀ x ∈ n.kids, x < g.nc) (hL : L n.label) :
    Meets g (egAdd n) fun a g' => Enlarged g g' ∧ a < g'.nc ∧ g'.Faithful r η L ∧ g'.capture = g.capture ∧
      Same r η (g'.origin a) (n.term g.origin) := by
  refine .of_sound fun hg => .bind (meets_canon hf hn) ?_
  rintro n' g₁ hg₁ ⟨h₁, hlabel, hn', hsame⟩
  have hf₁ : g₁.Faithful r η L := h₁.faithful hg hg₁ hf
  have hn₁ : ∀ x ∈ n'.kids, x < g₁.nc := fun x hx => (hn' x hx).trans_le h₁.enlarged.nc
  refine .theGraph ?_
  cases hlook : egLookup g₁ n' with
  | some hit =>
    have hhit : hit < g₁.nc := (egLookup_lt hlook).trans_eq hf₁.aligned.symm
    have hfind : Meets g₁ (egFind (g₁.nodeCls.get hit)) fun a g' => Unmoved g₁ g' ∧ a = g₁.top hit := by
      rw [hf₁.nodeCls hit (egLookup_lt hlook)]
      exact meets_find hhit
    refine hfind.mono_sound ?_
    rintro _ g₂ hg₂ ⟨h₂, rfl⟩
    refine ⟨(h₁.trans h₂).enlarged, (hg₁.top_lt hhit).trans_le h₂.enlarged.nc, h₂.faithful hg₁ hg₂ hf₁,
      (h₁.trans h₂).capture, ?_⟩
    rw [h₂.enlarged.retains.origin hf₁ (hg₁.top_lt hhit)]
    refine (hf₁.top hit hhit).trans ?_
    rw [hf₁.origin_eq hhit, egLookup_node hlook, h₁.enlarged.retains.term hf hn']
    exact hsame
  | none =>
    refine .bind (meets_cost hn₁) ?_
    rintro _ g₂ hg₂ ⟨h₂, rfl⟩
    have hf₂ : g₂.Faithful r η L := h₂.faithful hg₁ hg₂ hf₁
    have hn₂ : ∀ x ∈ n'.kids, x < g₂.nc := fun x hx => (hn₁ x hx).trans_le h₂.enlarged.nc
    have henl : Enlarged g g₂ := (h₁.trans h₂).enlarged
    rw [← h₂.enlarged.price hg₁ hn₁]
    refine .theGraph (.bind (Q := fun _ g' => g' = g₂.addClass n' (g₂.price n')) (.putGraph (hg₂.addClass hn₂) rfl) ?_)
    rintro - _ - rfl
    obtain ⟨hfaith, horigin⟩ := hf₂.addClass (k := g₂.price n') hg₂ hn₂ (hlabel ▸ hL)
    have hadd : Enlarged g₂ (g₂.addClass n' (g₂.price n')) := hg₂.enlarged_addClass
    refine .pure ⟨henl.trans hadd, Nat.lt_succ_self _, hfaith, (h₁.trans h₂).capture, ?_⟩
    rw [horigin, (henl.trans hadd).retains.term hf hn']
    exact hsame

end LinEngine
