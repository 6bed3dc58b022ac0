import LinEngine.EgMeaning
import LinEngine.EgRuns

/-!
# Classes of one meaning

A class is made together with its first node, so that node `c` still tells which term the
class `c` was made for. The graph is faithful when this term means what the terms
of its root and of its best node mean. Looking at a graph, adding a node and uniting
two classes of one meaning keep it faithful.
-/
namespace LinEngine

open EGraph ETerm Forest

namespace ENode

/-- The term of a node over terms of its children. -/
def term (D : ℕ → ETerm) : ENode → ETerm
  | .var x => .var x
  | .lam x l => .lam x (D l)
  | .app l r => .app (D l) (D r)
  | .tlet x l r => .tlet x (D l) (D r)
  | .leaf k x => .leaf k x

/-- A node without its children. -/
def label : ENode → ENode
  | .var x => .var x
  | .lam x _ => .lam x 0
  | .app _ _ => .app 0 0
  | .tlet x _ _ => .tlet x 0 0
  | .leaf k x => .leaf k x

variable {D D' : ℕ → ETerm} {n : ENode} {r : Reading} {η : Bool}

lemma term_congr (h : ∀ x ∈ n.kids, D x = D' x) : n.term D = n.term D' := by
  cases n <;> simp_all [term, kids]

lemma term_same (h : ∀ x ∈ n.kids, Same r η (D x) (D' x)) : Same r η (n.term D) (n.term D') := by
  cases n with
  | var x => exact .refl _
  | leaf k x => exact .refl _
  | lam x l => exact .lam x (h l (by simp [kids]))
  | app l r => exact .app (h l (by simp [kids])) (h r (by simp [kids]))
  | tlet x l r => exact .tlet x (h l (by simp [kids])) (h r (by simp [kids]))

end ENode

variable {r : Reading} {η : Bool} {L : ENode → Prop} {g g' g'' : EGraph} {c d i k : ℕ} {n : ENode}

namespace EGraph

/-! ### The term a class was made for -/

def originWithin (g : EGraph) : ℕ → ℕ → ETerm
  | 0, _ => .var ""
  | k + 1, c => (g.nodes.get c).term (g.originWithin k)

def origin (g : EGraph) (c : ℕ) : ETerm := g.originWithin (c + 1) c

/-- The first `n` nodes have children of smaller numbers. -/
def Ordered (g : EGraph) (n : ℕ) : Prop := ∀ i < n, ∀ x ∈ (g.nodes.get i).kids, x < i

lemma originWithin_congr {m : ℕ} (hg : g.Ordered m) (hnode : ∀ i < m, g'.nodes.get i = g.nodes.get i) {j : ℕ}
    (hc : c < m) (hj : c < j) (hk : c < k) : g'.originWithin k c = g.originWithin j c := by
  induction c using Nat.strong_induction_on generalizing j k with
  | _ c ih =>
    obtain ⟨j, rfl⟩ := Nat.exists_eq_add_of_lt hj
    obtain ⟨k, rfl⟩ := Nat.exists_eq_add_of_lt hk
    rw [originWithin, originWithin, hnode c hc]
    refine ENode.term_congr fun x hx => ?_
    have hxc := hg c hc x hx
    exact ih x hxc (hxc.trans hc) (by omega) (by omega)

lemma origin_congr {m : ℕ} (hg : g.Ordered m) (hnode : ∀ i < m, g'.nodes.get i = g.nodes.get i) (hc : c < m) :
    g'.origin c = g.origin c :=
  originWithin_congr hg hnode hc (Nat.lt_succ_self c) (Nat.lt_succ_self c)

lemma origin_eq {m : ℕ} (hg : g.Ordered m) (hc : c < m) : g.origin c = (g.nodes.get c).term g.origin := by
  rw [origin, originWithin]
  refine ENode.term_congr fun x hx => ?_
  have hxc := hg c hc x hx
  exact originWithin_congr hg (fun _ _ => rfl) (hxc.trans hc) (Nat.lt_succ_self x) hxc

/-! ### Faithful graphs -/

/-- Every node has the label `L` and every class means one thing. -/
structure Faithful (r : Reading) (η : Bool) (L : ENode → Prop) (g : EGraph) : Prop where
  aligned : g.nc = g.nn
  nodeCls : ∀ i < g.nn, g.nodeCls.get i = i
  ordered : g.Ordered g.nn
  label : ∀ i < g.nn, L (g.nodes.get i).label
  top : ∀ c < g.nc, Same r η (g.origin (g.top c)) (g.origin c)
  best : ∀ c < g.nc, Same r η (g.origin c) ((g.best c).term g.origin)

namespace Faithful

variable (hf : g.Faithful r η L)

include hf

lemma origin_eq (hc : c < g.nc) : g.origin c = (g.nodes.get c).term g.origin :=
  EGraph.origin_eq hf.ordered (hc.trans_eq hf.aligned)

/-- The best node of the root of a class. -/
lemma found (hg : g.Sound) (hc : c < g.nc) : Same r η (g.origin c) ((g.best (g.top c)).term g.origin) :=
  (hf.top c hc).symm.trans (hf.best _ (hg.top_lt hc))

lemma best_label (hg : g.Sound) (hc : c < g.nc) : L (g.best c).label := hf.label _ (hg.bestNode c hc)

end Faithful

/-! ### Graphs with the same nodes -/

/-- The nodes there were are there still. -/
structure Retains (g g' : EGraph) : Prop where
  nn : g.nn ≤ g'.nn
  nc : g.nc ≤ g'.nc
  node : ∀ i < g.nn, g'.nodes.get i = g.nodes.get i

namespace Retains

@[refl] lemma refl (g : EGraph) : Retains g g := ⟨le_rfl, le_rfl, fun _ _ => rfl⟩

lemma trans (h : Retains g g') (h' : Retains g' g'') : Retains g g'' :=
  ⟨h.nn.trans h'.nn, h.nc.trans h'.nc, fun i hi => (h'.node i (hi.trans_le h.nn)).trans (h.node i hi)⟩

lemma origin (h : Retains g g') (hf : g.Faithful r η L) (hc : c < g.nc) : g'.origin c = g.origin c :=
  origin_congr hf.ordered h.node (hc.trans_eq hf.aligned)

lemma term (h : Retains g g') (hf : g.Faithful r η L) (hn : ∀ x ∈ n.kids, x < g.nc) :
    n.term g'.origin = n.term g.origin :=
  ENode.term_congr fun x hx => h.origin hf (hn x hx)

end Retains

lemma Enlarged.retains (h : Enlarged g g') : Retains g g' := ⟨h.nn, h.nc, h.node⟩

/-- Only the way to the roots is another one. -/
structure Unmoved (g g' : EGraph) : Prop where
  enlarged : Enlarged g g'
  nn : g'.nn = g.nn
  nc : g'.nc = g.nc
  capture : g'.capture = g.capture

namespace Unmoved

@[refl] lemma refl (g : EGraph) : Unmoved g g := ⟨.refl g, rfl, rfl, rfl⟩

lemma trans (h : Unmoved g g') (h' : Unmoved g' g'') : Unmoved g g'' :=
  ⟨h.enlarged.trans h'.enlarged, h'.nn.trans h.nn, h'.nc.trans h.nc, h'.capture.trans h.capture⟩

end Unmoved

/-- No node is new, and the roots and the best nodes mean what they should. -/
lemma Faithful.retained (hf : g.Faithful r η L) (h : Retains g g') (hg' : g'.Sound) (hnn : g'.nn = g.nn) (hnc : g'.nc = g.nc)
    (hcls : ∀ i < g.nn, g'.nodeCls.get i = g.nodeCls.get i)
    (htop : ∀ c < g.nc, Same r η (g.origin (g'.top c)) (g.origin c))
    (hbest : ∀ c < g.nc, Same r η (g.origin c) ((g'.best c).term g.origin)) : g'.Faithful r η L where
  aligned := by rw [hnn, hnc, hf.aligned]
  nodeCls := by
    intro i hi
    rw [hnn] at hi
    rw [hcls i hi, hf.nodeCls i hi]
  ordered := by
    intro i hi x hx
    rw [hnn] at hi
    rw [h.node i hi] at hx
    exact hf.ordered i hi x hx
  label := by
    intro i hi
    rw [hnn] at hi
    rw [h.node i hi]
    exact hf.label i hi
  top := by
    intro c hc
    have htop' := hg'.top_lt hc
    rw [hnc] at hc htop'
    rw [h.origin hf hc, h.origin hf htop']
    exact htop c hc
  best := by
    intro c hc
    have hkids : ∀ x ∈ (g'.best c).kids, x < g.nc := fun x hx => (hg'.best_kids hc hx).trans_eq hnc
    rw [hnc] at hc
    rw [h.origin hf hc, h.term hf hkids]
    exact hbest c hc

lemma Unmoved.faithful (h : Unmoved g g') (hg : g.Sound) (hg' : g'.Sound) (hf : g.Faithful r η L) : g'.Faithful r η L := by
  refine hf.retained h.enlarged.retains hg' h.nn h.nc h.enlarged.nodeCls (fun c hc => ?_) fun c hc => ?_
  · rw [h.enlarged.top c hc]
    exact hf.top c hc
  · rw [h.enlarged.best hg hc]
    exact hf.best c hc

/-- A new node in a class of its own. -/
theorem Faithful.addClass (hf : g.Faithful r η L) (hg : g.Sound) (hn : ∀ x ∈ n.kids, x < g.nc) (hL : L n.label) :
    (g.addClass n k).Faithful r η L ∧ (g.addClass n k).origin g.nc = n.term (g.addClass n k).origin := by
  have hr : Retains g (g.addClass n k) := hg.enlarged_addClass.retains
  have hroot : (g.addClass n k).top g.nc = g.nc := Forest.top_of_root (by rw [EGraph.parent, class_addClass_new])
  have hbest : (g.addClass n k).best g.nc = n := by rw [EGraph.best, class_addClass_new, node_addClass_new]
  have hord : (g.addClass n k).Ordered (g.nn + 1) := by
    intro i hi x hx
    rcases Nat.lt_succ_iff_lt_or_eq.mp hi with hi | rfl
    · rw [hr.node i hi] at hx
      exact hf.ordered i hi x hx
    · rw [node_addClass_new] at hx
      exact (hn x hx).trans_eq hf.aligned
  have hnew : (g.addClass n k).origin g.nc = n.term (g.addClass n k).origin := by
    rw [EGraph.origin_eq hord (by rw [hf.aligned]; exact Nat.lt_succ_self _), hf.aligned, node_addClass_new]
  refine ⟨⟨congrArg (· + 1) hf.aligned, fun i hi => ?_, hord, fun i hi => ?_, fun c hc => ?_, fun c hc => ?_⟩, hnew⟩
  · rcases Nat.lt_succ_iff_lt_or_eq.mp hi with hi | rfl
    · rw [hg.enlarged_addClass.nodeCls i hi, hf.nodeCls i hi]
    · rw [nodeCls_addClass_new, hf.aligned]
  · rcases Nat.lt_succ_iff_lt_or_eq.mp hi with hi | rfl
    · rw [hr.node i hi]
      exact hf.label i hi
    · rw [node_addClass_new]
      exact hL
  · rcases Nat.lt_succ_iff_lt_or_eq.mp hc with hc | rfl
    · rw [hg.enlarged_addClass.top c hc, hr.origin hf hc, hr.origin hf (hg.top_lt hc)]
      exact hf.top c hc
    · rw [hroot]
      exact .refl _
  · rcases Nat.lt_succ_iff_lt_or_eq.mp hc with hc | rfl
    · rw [hg.enlarged_addClass.best hg hc, hr.origin hf hc, hr.term hf fun x hx => hg.best_kids hc hx]
      exact hf.best c hc
    · rw [hbest, hnew]
      exact .refl _

/-- A root hung under a root of the same meaning. -/
theorem Faithful.hang (hf : g.Faithful r η L) (hg : g.Sound) (hg' : (g.setParent d c).Sound) (hc : c < g.nc)
    (hcr : g.parent c = c) (hdr : g.parent d = d) (hcd : c ≠ d) (hsame : Same r η (g.origin c) (g.origin d)) :
    (g.setParent d c).Faithful r η L := by
  obtain ⟨-, htop⟩ := hg.rooted.hang (Finset.mem_range.mpr hc) hcr hdr hcd
  rw [← parent_setParent] at htop
  refine hf.retained ⟨le_rfl, le_rfl, fun _ _ => rfl⟩ hg' rfl rfl (fun _ _ => rfl) (fun x hx => ?_) fun x hx => ?_
  · have hxtop := hf.top x hx
    rw [EGraph.top, htop x (Finset.mem_range.mpr hx)]
    split_ifs with hxd
    · rw [EGraph.top, hxd] at hxtop
      exact hsame.trans hxtop
    · exact hxtop
  · rw [best_setParent]
    exact hf.best x hx

/-- A best node of the same meaning. -/
theorem Faithful.setBest (hf : g.Faithful r η L) (hg' : (g.setBest c i k).Sound)
    (hsame : Same r η (g.origin c) ((g.nodes.get i).term g.origin)) : (g.setBest c i k).Faithful r η L := by
  refine hf.retained ⟨le_rfl, le_rfl, fun _ _ => rfl⟩ hg' rfl rfl (fun _ _ => rfl) (fun x hx => ?_) fun x hx => ?_
  · rw [top_setBest]
    exact hf.top x hx
  · rw [EGraph.best, bestNode_setBest]
    split_ifs with hcx
    · exact hcx ▸ hsame
    · exact hf.best x hx

end EGraph

end LinEngine
