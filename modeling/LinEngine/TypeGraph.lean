import LinEngine.Reach

/-!
# The graph of type cells

Types are cells that refer to one another: a variable, a link that a binding put in
its place, an arrow, a nominal with a chain of arguments, a cell of such a chain, and
a reference to a type parameter. Cells are never freed, so an address is a position
in the list of all cells. Three writes are made: a new cell, the halving of a path of
links, and the binding of a variable.
-/
namespace LinEngine

open Relation

inductive Cell
  | tvr (id : ℕ)
  | arrow (a b : ℕ)
  | link (a : ℕ)
  | nom (name : String) (args : Option ℕ)
  | arg (a : ℕ) (next : Option ℕ)
  | param (idx : ℕ)
  deriving DecidableEq, Repr

/-- The cells a cell refers to. -/
def Cell.kids : Cell → List ℕ
  | tvr _ => []
  | arrow a b => [a, b]
  | link a => [a]
  | nom _ args => args.toList
  | arg a next => a :: next.toList
  | param _ => []

structure Heap where
  cells : List Cell
  deriving DecidableEq, Repr

namespace Heap

def size (h : Heap) : ℕ := h.cells.length

/-- What is at an address; no reference leads past the end. -/
def cell (h : Heap) (a : ℕ) : Cell := h.cells.getD a (.param 0)

def push (h : Heap) (c : Cell) : Heap := ⟨h.cells ++ [c]⟩

def write (h : Heap) (a : ℕ) (c : Cell) : Heap := ⟨h.cells.set a c⟩

section Cells

variable {h : Heap} {a b : ℕ} {c : Cell}

@[simp] lemma size_push : (h.push c).size = h.size + 1 := by simp [push, size]

@[simp] lemma size_write : (h.write a c).size = h.size := by simp [write, size]

@[simp] lemma cell_push_size : (h.push c).cell h.size = c := by simp [push, size, cell]

lemma cell_push_lt (ha : a < h.size) : (h.push c).cell a = h.cell a := by
  simp only [push, cell, List.getD_eq_getElem?_getD, List.getElem?_append_left (show a < h.cells.length from ha)]

lemma cell_write_self (ha : a < h.size) : (h.write a c).cell a = c := by
  simp [write, cell, List.getElem?_set_self (show a < h.cells.length from ha)]

lemma cell_write_ne (hb : b ≠ a) : (h.write a c).cell b = h.cell b := by
  simp [write, cell, List.getElem?_set_ne hb.symm]

/-- Past the end there is no cell that refers anywhere. -/
lemma kids_of_le (ha : h.size ≤ a) : (h.cell a).kids = [] := by
  have : h.cells[a]? = none := List.getElem?_eq_none ha
  simp [cell, this, Cell.kids]

end Cells

/-- One cell refers to another. -/
def Edge (h : Heap) (a b : ℕ) : Prop := b ∈ (h.cell a).kids

/-- Every reference leads to a cell. -/
def Closed (h : Heap) : Prop := ∀ a b, h.Edge a b → b < h.size

/-- Following references from the first address arrives at the second. -/
abbrev Reaches (h : Heap) : ℕ → ℕ → Prop := ReflTransGen h.Edge

section Writes

variable {h : Heap} {a b v t : ℕ} {c : Cell}

lemma Edge.lt (hab : h.Edge a b) : a < h.size := by
  by_contra ha
  rw [Edge, kids_of_le (not_lt.mp ha)] at hab
  simp at hab

lemma Reaches.lt (hc : h.Closed) (hab : h.Reaches a b) (ha : a < h.size) : b < h.size := by
  cases hab with
  | refl => exact ha
  | tail _ hbc => exact hc _ _ hbc

/-! ### A new cell -/

lemma edge_push (hab : (h.push c).Edge a b) : h.Edge a b ∨ a = h.size ∧ b ∈ c.kids := by
  rcases lt_trichotomy a h.size with ha | rfl | ha
  · rw [Edge, cell_push_lt ha] at hab
    exact Or.inl hab
  · rw [Edge, cell_push_size] at hab
    exact Or.inr ⟨rfl, hab⟩
  · rw [Edge, kids_of_le (by rw [size_push]; omega)] at hab
    simp at hab

lemma edge_push_of (hab : h.Edge a b) : (h.push c).Edge a b := by
  rw [Edge, cell_push_lt hab.lt]
  exact hab

theorem Closed.push (hc : h.Closed) (hk : ∀ k ∈ c.kids, k < h.size) : (h.push c).Closed := by
  intro a b hab
  rw [size_push]
  rcases edge_push hab with hab | ⟨-, hb⟩
  · exact (hc a b hab).trans (Nat.lt_succ_self _)
  · exact (hk b hb).trans (Nat.lt_succ_self _)

/-- What an old cell reaches it reached before. -/
lemma transGen_push (hc : h.Closed) (ha : a < h.size) (hab : TransGen (h.push c).Edge a b) :
    TransGen h.Edge a b := by
  induction hab with
  | single hab =>
    rcases edge_push hab with hab | ⟨rfl, -⟩
    · exact .single hab
    · exact absurd ha (lt_irrefl _)
  | tail _ hbc ih =>
    rcases edge_push hbc with hbc | ⟨rfl, -⟩
    · exact ih.tail hbc
    · exact absurd (Reaches.lt hc ih.to_reflTransGen ha) (lt_irrefl _)

lemma reaches_push (hc : h.Closed) (ha : a < h.size) : (h.push c).Reaches a b ↔ h.Reaches a b := by
  simp only [Reaches, reflTransGen_iff_eq_or_transGen]
  exact or_congr_right ⟨transGen_push hc ha, TransGen.mono (fun _ _ => edge_push_of) _ _⟩

theorem acyclic_push (hc : h.Closed) (hk : ∀ k ∈ c.kids, k < h.size) (hr : Acyclic h.Edge) :
    Acyclic (h.push c).Edge := by
  intro a haa
  by_cases ha : a < h.size
  · exact hr a (transGen_push hc ha haa)
  · -- the new cell leads to old cells only
    obtain ⟨b, hab, hba⟩ := TransGen.head'_iff.mp haa
    have hb : b < h.size := by
      rcases edge_push hab with hab | ⟨-, hb⟩
      · exact hc _ _ hab
      · exact hk b hb
    exact ha (Reaches.lt hc ((reaches_push hc hb).mp hba) hb)

/-! ### A binding -/

lemma edge_bind (hv : (h.cell v).kids = []) (hab : (h.write v (.link t)).Edge a b) :
    h.Edge a b ∨ a = v ∧ b = t := by
  by_cases ha : a = v
  · subst ha
    by_cases hlt : a < h.size
    · rw [Edge, cell_write_self hlt, Cell.kids, List.mem_singleton] at hab
      exact Or.inr ⟨rfl, hab⟩
    · rw [Edge, kids_of_le (by rw [size_write]; omega)] at hab
      simp at hab
  · rw [Edge, cell_write_ne ha] at hab
    exact Or.inl hab

lemma edge_bind_ne (ha : a ≠ v) : (h.write v c).Edge a b ↔ h.Edge a b := by
  rw [Edge, Edge, cell_write_ne ha]

theorem Closed.bind (hc : h.Closed) (hv : (h.cell v).kids = []) (ht : t < h.size) :
    (h.write v (.link t)).Closed := by
  intro a b hab
  rw [size_write]
  rcases edge_bind hv hab with hab | ⟨-, rfl⟩
  · exact hc a b hab
  · exact ht

theorem acyclic_bind (hv : (h.cell v).kids = []) (ht : ¬ h.Reaches t v) (hr : Acyclic h.Edge) :
    Acyclic (h.write v (.link t)).Edge :=
  hr.insert ht fun _ _ => edge_bind hv

/-- Binding a variable to a type it occurs in closes a cycle. -/
theorem not_acyclic_bind (hlt : v < h.size) (hv : (h.cell v).kids = []) (ht : h.Reaches t v) :
    ¬ Acyclic (h.write v (.link t)).Edge := by
  refine not_acyclic_of_insert (fun b hb => ?_) ht (fun a b ha hab => (edge_bind_ne ha).mpr hab) ?_
  · rw [Edge, hv] at hb
    simp at hb
  · rw [Edge, cell_write_self hlt]
    exact List.mem_singleton.mpr rfl

/-! ### Halving a path of links -/

/-- A link to a link is led to where the second one leads. -/
structure Halves (h : Heap) (t b : ℕ) (h' : Heap) : Prop where
  mid : ∃ m, h.cell t = .link m ∧ h.cell m = .link b
  after : h' = h.write t (.link b)

lemma lt_of_link (ha : h.cell a = .link b) : a < h.size :=
  Edge.lt (b := b) (by rw [Edge, ha]; exact List.mem_singleton.mpr rfl)

/-- Paths of links have been halved. -/
abbrev Halvings : Heap → Heap → Prop := ReflTransGen fun h h' => ∃ t b, Halves h t b h'

section Halves

variable {h' : Heap} (hh : Halves h t b h')

include hh

lemma Halves.edge {x y : ℕ} (hxy : h'.Edge x y) : TransGen h.Edge x y := by
  obtain ⟨⟨m, ht, hm⟩, rfl⟩ := hh
  by_cases hx : x = t
  · subst hx
    rw [Edge, cell_write_self (lt_of_link ht), Cell.kids, List.mem_singleton] at hxy
    subst hxy
    refine .head (b := m) ?_ (.single ?_)
    · rw [Edge, ht]; exact List.mem_singleton.mpr rfl
    · rw [Edge, hm]; exact List.mem_singleton.mpr rfl
  · exact .single ((edge_bind_ne hx).mp hxy)

lemma Halves.cell_eq {x : ℕ} (hx : ∀ y, h.cell x ≠ .link y) : h'.cell x = h.cell x := by
  obtain ⟨⟨m, ht, -⟩, rfl⟩ := hh
  refine cell_write_ne ?_
  rintro rfl
  exact hx m ht

lemma Halves.isLink {x y : ℕ} (hx : h.cell x = .link y) : ∃ z, h'.cell x = .link z := by
  obtain ⟨⟨m, ht, -⟩, rfl⟩ := hh
  by_cases hxt : x = t
  · exact ⟨b, by rw [hxt, cell_write_self (lt_of_link ht)]⟩
  · exact ⟨y, by rw [cell_write_ne hxt, hx]⟩

/-- A link of the new heap leads along links of the old one. -/
lemma Halves.links {x y : ℕ} (hxy : h'.cell x = .link y) :
    ReflTransGen (fun a b => h.cell a = .link b) x y := by
  obtain ⟨⟨m, ht, hm⟩, rfl⟩ := hh
  by_cases hxt : x = t
  · subst hxt
    rw [cell_write_self (lt_of_link ht)] at hxy
    obtain rfl := Cell.link.inj hxy
    exact .tail (.single ht) hm
  · rw [cell_write_ne hxt] at hxy
    exact .single hxy

/-- A cell that is not a link is reached as before. -/
lemma Halves.reaches {x y : ℕ} (hy : ∀ z, h.cell y ≠ .link z) : h'.Reaches x y ↔ h.Reaches x y := by
  constructor
  · clear hy
    intro hxy
    induction hxy with
    | refl => exact .refl
    | tail _ hbc ih => exact ih.trans (hh.edge hbc).to_reflTransGen
  · intro hxy
    obtain ⟨⟨m, ht, hm⟩, rfl⟩ := hh
    have hlt := lt_of_link ht
    induction hxy using ReflTransGen.head_induction_on with
    | refl => exact .refl
    | @head x c hxc _ ih =>
      by_cases hx : x = t
      · subst hx
        rw [Edge, ht, Cell.kids, List.mem_singleton] at hxc
        subst hxc
        -- the path went on through the second link
        by_cases hmx : c = x
        · exact hmx ▸ ih
        · rcases ih.cases_head with rfl | ⟨e, hce, hey⟩
          · exact absurd hm (hy _)
          · rw [edge_bind_ne hmx, Edge, hm, Cell.kids, List.mem_singleton] at hce
            subst hce
            refine .head ?_ hey
            rw [Edge, cell_write_self hlt]
            exact List.mem_singleton.mpr rfl
      · exact .head ((edge_bind_ne hx).mpr hxc) ih

theorem Halves.closed (hc : h.Closed) : h'.Closed := by
  intro x y hxy
  have hsize : h'.size = h.size := by rw [hh.after, size_write]
  rw [hsize]
  exact Reaches.lt hc (hh.edge hxy).to_reflTransGen
    (Edge.lt (TransGen.head'_iff.mp (hh.edge hxy)).choose_spec.1)

theorem Halves.acyclic (hr : Acyclic h.Edge) : Acyclic h'.Edge :=
  hr.of_shortcuts fun _ _ => hh.edge

end Halves

/-! ### Heaps whose cells refer to earlier ones -/

def ordered (h : Heap) : Bool :=
  (List.range h.size).all fun a => (h.cell a).kids.all fun b => decide (b < a)

lemma lt_of_ordered (ho : h.ordered = true) (hab : h.Edge a b) : b < a := by
  simp only [ordered, List.all_eq_true, List.mem_range, decide_eq_true_eq] at ho
  exact ho a hab.lt b hab

theorem closed_of_ordered (ho : h.ordered = true) : h.Closed :=
  fun _ _ hab => (lt_of_ordered ho hab).trans hab.lt

theorem acyclic_of_ordered (ho : h.ordered = true) : Acyclic h.Edge :=
  .of_lt fun _ _ hab => lt_of_ordered ho hab

/-! ### Ranks -/

/-- How many cells are reached from an address. -/
noncomputable def rank (h : Heap) (a : ℕ) : ℕ := LinEngine.rank h.Edge (Finset.range h.size) a

lemma rank_le_size : h.rank a ≤ h.size := by
  have := rank_le_card (r := h.Edge) (s := Finset.range h.size) (a := a)
  rwa [Finset.card_range] at this

lemma rank_lt_of_edge (hc : h.Closed) (hr : Acyclic h.Edge) (hab : h.Edge a b) : h.rank b < h.rank a :=
  rank_lt hr hab (Finset.mem_range.mpr (hc a b hab))

/-- The old cells of a later heap refer where they reached before. -/
structure Tamer (h h' : Heap) : Prop where
  size : h.size ≤ h'.size
  edge : ∀ a < h.size, ∀ b, h'.Edge a b → TransGen h.Edge a b

lemma Tamer.refl (h : Heap) : Tamer h h := ⟨le_rfl, fun _ _ _ hab => .single hab⟩

section Tamer

variable {h' h'' : Heap}

lemma Tamer.transGen (hc : h.Closed) (ht : Tamer h h') (ha : a < h.size) (hab : TransGen h'.Edge a b) :
    TransGen h.Edge a b := by
  induction hab with
  | single hab => exact ht.edge _ ha _ hab
  | tail _ hbc ih => exact ih.trans (ht.edge _ (Reaches.lt hc ih.to_reflTransGen ha) _ hbc)

lemma Tamer.trans (hc : h.Closed) (h₁ : Tamer h h') (h₂ : Tamer h' h'') : Tamer h h'' :=
  ⟨h₁.size.trans h₂.size, fun a ha b hab =>
    h₁.transGen hc ha (h₂.edge a (ha.trans_le h₁.size) b hab)⟩

lemma Tamer.rank_le (hc : h.Closed) (ht : Tamer h h') (ha : a < h.size) : h'.rank a ≤ h.rank a := by
  refine LinEngine.rank_le (fun b hb hab => ?_)
  have hab := ht.transGen hc ha hab
  exact ⟨Finset.mem_range.mpr (Reaches.lt hc hab.to_reflTransGen ha), hab⟩

lemma Tamer.push (hc : h.Closed) : Tamer h (h.push c) :=
  ⟨by simp, fun _ ha _ hab => transGen_push hc ha (.single hab)⟩

lemma Halves.tamer (hh : Halves h t b h') : Tamer h h' :=
  ⟨by rw [hh.after, size_write], fun _ _ _ hxy => hh.edge hxy⟩

end Tamer

end Writes

end Heap

end LinEngine
