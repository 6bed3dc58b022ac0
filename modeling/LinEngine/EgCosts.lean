import LinEngine.EGraph
import LinEngine.Forest

/-!
# Costs of classes

The cost of a class is at least what its best node weighs at the costs its children have
now. Uniting two classes keeps the root of the smaller cost, so what a node finds below
it never rises; a new node is entered at its own weight, and the refreshing pass only
lowers a cost, to the weight of the node it makes the best one.
-/
namespace LinEngine

open Forest

def ENode.kids : ENode → List ℕ
  | .var _ => []
  | .lam _ l => [l]
  | .app l r => [l, r]
  | .tlet _ l r => [l, r]
  | .leaf _ _ => []

/-- What a node weighs without its children. -/
def ENode.own : ENode → ℕ
  | .var _ => 1
  | .lam _ _ => 2
  | .app _ _ => 3
  | .tlet _ _ _ => 3
  | .leaf _ _ => 1

lemma ENode.own_pos (n : ENode) : 0 < n.own := by cases n <;> exact Nat.succ_pos _

namespace EGraph

variable {g g' g'' : EGraph} {c d p x i : ℕ} {n : ENode}

noncomputable def top (g : EGraph) (c : ℕ) : ℕ := Forest.top g.parent c

/-- What a node weighs at the present costs. -/
noncomputable def price (g : EGraph) (n : ENode) : ℕ := n.own + (n.kids.map fun x => g.cost (g.top x)).sum

structure Sound (g : EGraph) : Prop where
  rooted : Rooted g.parent (Finset.range g.nc)
  bestNode : ∀ c < g.nc, (g.classes.get c).bestNode < g.nn
  kids : ∀ i < g.nn, ∀ x ∈ (g.nodes.get i).kids, x < g.nc
  nodeCls : ∀ i < g.nn, g.nodeCls.get i < g.nc
  price : ∀ c < g.nc, g.price (g.best c) ≤ g.cost c

namespace Sound

variable (hg : g.Sound)

include hg

lemma top_lt (hc : c < g.nc) : g.top c < g.nc :=
  Finset.mem_range.mp (hg.rooted.top_mem (Finset.mem_range.mpr hc))

lemma parent_lt (hc : c < g.nc) : g.parent c < g.nc :=
  Finset.mem_range.mp (hg.rooted.closed c (Finset.mem_range.mpr hc))

lemma parent_top (hc : c < g.nc) : g.parent (g.top c) = g.top c :=
  hg.rooted.parent_top (Finset.mem_range.mpr hc)

lemma best_kids (hc : c < g.nc) (hx : x ∈ (g.best c).kids) : x < g.nc :=
  hg.kids _ (hg.bestNode c hc) x hx

/-- The children of a best node have cheaper classes. -/
theorem kid_cheaper (hc : c < g.nc) (hx : x ∈ (g.best c).kids) : g.cost (g.top x) < g.cost c := by
  have hle : g.cost (g.top x) ≤ ((g.best c).kids.map fun x => g.cost (g.top x)).sum :=
    List.single_le_sum (by simp) _ (List.mem_map_of_mem hx)
  have hprice := hg.price c hc
  have hown := (g.best c).own_pos
  rw [EGraph.price] at hprice
  omega

end Sound

/-! ### Graphs that only grow -/

/-- What there was is there still: the nodes, and for each class its root, its cost and its best node. -/
structure Enlarged (g g' : EGraph) : Prop where
  nn : g.nn ≤ g'.nn
  nc : g.nc ≤ g'.nc
  node : ∀ i < g.nn, g'.nodes.get i = g.nodes.get i
  nodeCls : ∀ i < g.nn, g'.nodeCls.get i = g.nodeCls.get i
  top : ∀ c < g.nc, g'.top c = g.top c
  cost : ∀ c < g.nc, g'.cost c = g.cost c
  bestNode : ∀ c < g.nc, (g'.classes.get c).bestNode = (g.classes.get c).bestNode

namespace Enlarged

@[refl] lemma refl (g : EGraph) : Enlarged g g :=
  ⟨le_rfl, le_rfl, fun _ _ => rfl, fun _ _ => rfl, fun _ _ => rfl, fun _ _ => rfl, fun _ _ => rfl⟩

lemma trans (h : Enlarged g g') (h' : Enlarged g' g'') : Enlarged g g'' where
  nn := h.nn.trans h'.nn
  nc := h.nc.trans h'.nc
  node := fun i hi => (h'.node i (hi.trans_le h.nn)).trans (h.node i hi)
  nodeCls := fun i hi => (h'.nodeCls i (hi.trans_le h.nn)).trans (h.nodeCls i hi)
  top := fun c hc => (h'.top c (hc.trans_le h.nc)).trans (h.top c hc)
  cost := fun c hc => (h'.cost c (hc.trans_le h.nc)).trans (h.cost c hc)
  bestNode := fun c hc => (h'.bestNode c (hc.trans_le h.nc)).trans (h.bestNode c hc)

lemma best (h : Enlarged g g') (hg : g.Sound) (hc : c < g.nc) : g'.best c = g.best c := by
  rw [EGraph.best, EGraph.best, h.bestNode c hc]
  exact h.node _ (hg.bestNode c hc)

lemma price (h : Enlarged g g') (hg : g.Sound) (hn : ∀ x ∈ n.kids, x < g.nc) : g'.price n = g.price n := by
  have hkids : (n.kids.map fun x => g'.cost (g'.top x)) = n.kids.map fun x => g.cost (g.top x) := by
    refine List.map_congr_left fun x hx => ?_
    rw [h.top x (hn x hx), h.cost _ (hg.top_lt (hn x hx))]
  rw [EGraph.price, EGraph.price, hkids]

/-- The same nodes and classes, under a forest still. -/
lemma sound (h : Enlarged g g') (hg : g.Sound) (hnn : g'.nn = g.nn) (hnc : g'.nc = g.nc)
    (hf : Rooted g'.parent (Finset.range g.nc)) : g'.Sound where
  rooted := by rwa [hnc]
  bestNode := by
    intro c hc
    rw [hnc] at hc
    rw [h.bestNode c hc, hnn]
    exact hg.bestNode c hc
  kids := by
    intro i hi x hx
    rw [hnn] at hi
    rw [h.node i hi] at hx
    rw [hnc]
    exact hg.kids i hi x hx
  nodeCls := by
    intro i hi
    rw [hnn] at hi
    rw [h.nodeCls i hi, hnc]
    exact hg.nodeCls i hi
  price := by
    intro c hc
    rw [hnc] at hc
    rw [h.best hg hc, h.price hg fun x hx => hg.best_kids hc hx, h.cost c hc]
    exact hg.price c hc

end Enlarged

/-! ### Writing a parent -/

@[simp] lemma parent_setParent : (g.setParent c p).parent = Function.update g.parent c p := by
  funext x
  by_cases hx : c = x
  · subst hx
    simp [EGraph.parent, setParent]
  · rw [Function.update_of_ne (Ne.symm hx)]
    simp [EGraph.parent, setParent, hx]

@[simp] lemma cost_setParent : (g.setParent c p).cost x = g.cost x := by
  by_cases hx : c = x
  · subst hx
    simp [EGraph.cost, setParent]
  · simp [EGraph.cost, setParent, hx]

@[simp] lemma bestNode_setParent : ((g.setParent c p).classes.get x).bestNode = (g.classes.get x).bestNode := by
  by_cases hx : c = x
  · subst hx
    simp [setParent]
  · simp [setParent, hx]

lemma best_setParent : (g.setParent c p).best x = g.best x := by
  rw [EGraph.best, EGraph.best, bestNode_setParent]
  rfl

/-- Halving a path. -/
theorem Sound.halve (hg : g.Sound) (hc : c < g.nc) :
    (g.setParent c (g.parent (g.parent c))).Sound ∧ Enlarged g (g.setParent c (g.parent (g.parent c))) := by
  obtain ⟨hf, htop⟩ := hg.rooted.halve (Finset.mem_range.mpr hc)
  rw [← parent_setParent] at hf htop
  have henl : Enlarged g (g.setParent c (g.parent (g.parent c))) :=
    ⟨le_rfl, le_rfl, fun _ _ => rfl, fun _ _ => rfl, fun x hx => htop x (Finset.mem_range.mpr hx),
      fun _ _ => cost_setParent, fun _ _ => bestNode_setParent⟩
  exact ⟨henl.sound hg rfl rfl hf, henl⟩

/-- Hanging a root under one that costs no more. -/
theorem Sound.hang (hg : g.Sound) (hc : c < g.nc) (hcr : g.parent c = c) (hdr : g.parent d = d) (hcd : c ≠ d)
    (hle : g.cost c ≤ g.cost d) : (g.setParent d c).Sound := by
  obtain ⟨hf, htop⟩ := hg.rooted.hang (Finset.mem_range.mpr hc) hcr hdr hcd
  rw [← parent_setParent] at hf htop
  have hfinds : ∀ x < g.nc, g.cost ((g.setParent d c).top x) ≤ g.cost (g.top x) := by
    intro x hx
    have hx := htop x (Finset.mem_range.mpr hx)
    rw [EGraph.top, hx, EGraph.top]
    split_ifs with hxd
    · rwa [hxd]
    · exact le_rfl
  refine ⟨hf, fun x hx => ?_, hg.kids, hg.nodeCls, fun x hx => ?_⟩
  · rw [bestNode_setParent]
    exact hg.bestNode x hx
  · refine le_trans ?_ ((hg.price x hx).trans_eq cost_setParent.symm)
    rw [best_setParent, EGraph.price, EGraph.price]
    refine Nat.add_le_add_left (List.sum_le_sum fun y hy => ?_) _
    rw [cost_setParent]
    exact hfinds y (hg.best_kids hx hy)

/-! ### A new best node -/

@[simp] lemma parent_setBest {k : ℕ} : (g.setBest c i k).parent = g.parent := by
  funext x
  by_cases hx : c = x
  · subst hx
    simp [EGraph.parent, setBest]
  · simp [EGraph.parent, setBest, hx]

lemma top_setBest {k : ℕ} : (g.setBest c i k).top x = g.top x := by
  rw [EGraph.top, EGraph.top, parent_setBest]

lemma cost_setBest {k : ℕ} : (g.setBest c i k).cost x = if c = x then k else g.cost x := by
  by_cases hx : c = x
  · simp [EGraph.cost, setBest, hx]
  · simp [EGraph.cost, setBest, hx]

lemma bestNode_setBest {k : ℕ} :
    ((g.setBest c i k).classes.get x).bestNode = if c = x then i else (g.classes.get x).bestNode := by
  by_cases hx : c = x
  · simp [setBest, hx]
  · simp [setBest, hx]

/-- A node that weighs less than its class costs. -/
theorem Sound.setBest (hg : g.Sound) (hi : i < g.nn) (hlt : g.price (g.nodes.get i) < g.cost c) :
    (g.setBest c i (g.price (g.nodes.get i))).Sound := by
  have hcost : ∀ x, (g.setBest c i (g.price (g.nodes.get i))).cost x ≤ g.cost x := by
    intro x
    rw [cost_setBest]
    split_ifs with hx
    · exact hx ▸ hlt.le
    · exact le_rfl
  have hprice : ∀ n, (g.setBest c i (g.price (g.nodes.get i))).price n ≤ g.price n := by
    intro n
    rw [EGraph.price, EGraph.price]
    refine Nat.add_le_add_left (List.sum_le_sum fun y _ => ?_) _
    rw [top_setBest]
    exact hcost _
  refine ⟨by rw [parent_setBest]; exact hg.rooted, fun x hx => ?_, hg.kids, hg.nodeCls, fun x hx => ?_⟩
  · rw [bestNode_setBest]
    split_ifs
    · exact hi
    · exact hg.bestNode x hx
  · refine (hprice _).trans ?_
    rw [EGraph.best, bestNode_setBest, cost_setBest]
    split_ifs
    · exact le_rfl
    · exact hg.price x hx

/-! ### A new class -/

section

variable {k : ℕ}

lemma class_addClass (hc : c < g.nc) : (g.addClass n k).classes.get c = g.classes.get c :=
  Table.get_set_ne _ hc.ne' _

lemma class_addClass_new : (g.addClass n k).classes.get g.nc = ⟨g.nc, g.nn, k⟩ := Table.get_set_self _ _ _

lemma node_addClass_new : (g.addClass n k).nodes.get g.nn = n := Table.get_set_self _ _ _

lemma nodeCls_addClass_new : (g.addClass n k).nodeCls.get g.nn = g.nc := Table.get_set_self _ _ _

lemma Sound.rooted_addClass (hg : g.Sound) : Rooted (g.addClass n k).parent (Finset.range g.nc) ∧
    ∀ c < g.nc, (g.addClass n k).top c = g.top c := by
  have hparent : ∀ c ∈ Finset.range g.nc, (g.addClass n k).parent c = g.parent c := by
    intro c hc
    rw [EGraph.parent, EGraph.parent, class_addClass (Finset.mem_range.mp hc)]
  obtain ⟨hf, htop⟩ := hg.rooted.congr hparent
  exact ⟨hf, fun c hc => htop c (Finset.mem_range.mpr hc)⟩

lemma Sound.enlarged_addClass (hg : g.Sound) : Enlarged g (g.addClass n k) where
  nn := Nat.le_succ _
  nc := Nat.le_succ _
  node := fun _ hi => Table.get_set_ne _ (Nat.ne_of_gt hi) _
  nodeCls := fun _ hi => Table.get_set_ne _ (Nat.ne_of_gt hi) _
  top := hg.rooted_addClass.2
  cost := fun c hc => by rw [EGraph.cost, EGraph.cost, class_addClass hc]
  bestNode := fun c hc => by rw [class_addClass hc]

end

/-- A node entered at its own weight. -/
theorem Sound.addClass (hg : g.Sound) (hn : ∀ x ∈ n.kids, x < g.nc) : (g.addClass n (g.price n)).Sound := by
  have henl : Enlarged g (g.addClass n (g.price n)) := hg.enlarged_addClass
  refine ⟨?_, fun c hc => ?_, fun i hi x hx => ?_, fun i hi => ?_, fun c hc => ?_⟩
  · have hroot : (g.addClass n (g.price n)).parent g.nc = g.nc := by rw [EGraph.parent, class_addClass_new]
    change Rooted _ (Finset.range (g.nc + 1))
    rw [Finset.range_add_one]
    exact hg.rooted_addClass.1.insert hroot
  · rcases Nat.lt_succ_iff_lt_or_eq.mp hc with hc | rfl
    · rw [class_addClass hc]
      exact (hg.bestNode c hc).trans (Nat.lt_succ_self _)
    · rw [class_addClass_new]
      exact Nat.lt_succ_self _
  · rcases Nat.lt_succ_iff_lt_or_eq.mp hi with hi | rfl
    · rw [henl.node i hi] at hx
      exact (hg.kids i hi x hx).trans (Nat.lt_succ_self _)
    · rw [node_addClass_new] at hx
      exact (hn x hx).trans (Nat.lt_succ_self _)
  · rcases Nat.lt_succ_iff_lt_or_eq.mp hi with hi | rfl
    · rw [henl.nodeCls i hi]
      exact (hg.nodeCls i hi).trans (Nat.lt_succ_self _)
    · rw [nodeCls_addClass_new]
      exact Nat.lt_succ_self _
  · rcases Nat.lt_succ_iff_lt_or_eq.mp hc with hc | rfl
    · rw [henl.best hg hc, henl.price hg fun x hx => hg.best_kids hc hx, henl.cost c hc]
      exact hg.price c hc
    · have hbest : (g.addClass n (g.price n)).best g.nc = n := by
        rw [EGraph.best, class_addClass_new, node_addClass_new]
      rw [hbest, henl.price hg hn, EGraph.cost, class_addClass_new]

end EGraph

end LinEngine
