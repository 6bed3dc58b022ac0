import LinEngine.HindleyMilner
import LinEngine.TypeRuns

/-!
# Solutions of a type graph

A solution gives every cell a type, a link the type it leads to and an arrow the arrow
of its parts. On an acyclic heap of variables, links and arrows the variables can be
given any types, and they determine the rest. What a program does to a heap is then
what it does to the solutions: halving keeps them, and a binding keeps those that give
both sides one type.
-/
namespace LinEngine

open Relation

namespace Heap

/-- What a cell asks of its own type. -/
def Holds (ρ : ℕ → Ty) (τ : Ty) : Cell → Prop
  | .link b => τ = ρ b
  | .arrow b c => τ = .arrow (ρ b) (ρ c)
  | _ => True

def Sol (h : Heap) (ρ : ℕ → Ty) : Prop := ∀ a, Holds ρ (ρ a) (h.cell a)

/-- An acyclic heap of variables, arrows and links, its variables told apart by their ids. -/
structure Plain (h : Heap) : Prop where
  closed : h.Closed
  acyclic : Acyclic h.Edge
  pure : ∀ a < h.size, (∃ id, h.cell a = .tvr id) ∨ (∃ b c, h.cell a = .arrow b c) ∨ ∃ b, h.cell a = .link b
  inj : ∀ v w id, h.cell v = .tvr id → h.cell w = .tvr id → v = w

/-- The variable stays, and nothing comes to reach it. -/
structure Frame (v : ℕ) (h h' : Heap) : Prop where
  cell : h'.cell v = h.cell v
  reaches : ∀ c, h'.Reaches c v → h.Reaches c v

lemma Frame.refl (v : ℕ) (h : Heap) : Frame v h h := ⟨rfl, fun _ => id⟩

lemma Frame.trans {v : ℕ} {h h' h'' : Heap} (h₁ : Frame v h h') (h₂ : Frame v h' h'') : Frame v h h'' :=
  ⟨h₂.cell.trans h₁.cell, fun c hc => h₁.reaches c (h₂.reaches c hc)⟩

section Writes

variable {h h' : Heap} {ρ ρ' : ℕ → Ty} {a b c t v : ℕ}

lemma cell_of_le (ha : h.size ≤ a) : h.cell a = .param 0 := by
  have : h.cells[a]? = none := List.getElem?_eq_none ha
  simp [cell, this]

lemma lt_of_tvr {id : ℕ} (hv : h.cell v = .tvr id) : v < h.size := by
  by_contra hlt
  rw [cell_of_le (not_lt.mp hlt)] at hv
  cases hv

lemma sol_push {c : Cell} : (h.push c).Sol ρ ↔ h.Sol ρ ∧ Holds ρ (ρ h.size) c := by
  constructor
  · refine fun hs => ⟨fun a => ?_, by simpa using hs h.size⟩
    by_cases ha : a < h.size
    · rw [← cell_push_lt ha]
      exact hs a
    · rw [cell_of_le (not_lt.mp ha)]
      trivial
  · rintro ⟨hs, hc⟩ a
    rcases lt_trichotomy a h.size with ha | rfl | ha
    · rw [cell_push_lt ha]
      exact hs a
    · rwa [cell_push_size]
    · rw [cell_of_le (by rw [size_push]; omega)]
      trivial

lemma sol_bind {id : ℕ} (hv : h.cell v = .tvr id) :
    (h.write v (.link t)).Sol ρ ↔ h.Sol ρ ∧ ρ v = ρ t := by
  have hlt := lt_of_tvr hv
  constructor
  · refine fun hs => ⟨fun a => ?_, by simpa [cell_write_self hlt, Holds] using hs v⟩
    by_cases ha : a = v
    · rw [ha, hv]
      trivial
    · rw [← cell_write_ne ha]
      exact hs a
  · rintro ⟨hs, he⟩ a
    by_cases ha : a = v
    · rw [ha, cell_write_self hlt]
      exact he
    · rw [cell_write_ne ha]
      exact hs a

lemma Halves.sol (hh : h.Halves t b h') : h'.Sol ρ ↔ h.Sol ρ := by
  obtain ⟨⟨m, ht, hm⟩, rfl⟩ := hh
  have hlt := lt_of_link ht
  have hmid : h.Sol ρ → ρ t = ρ b := fun hs => by
    have h1 := hs t
    have h2 := hs m
    rw [ht] at h1
    rw [hm] at h2
    exact h1.trans h2
  constructor
  · intro hs a
    by_cases ha : a = t
    · subst ha
      rw [ht]
      -- the link in the middle is as it was, or the cell was a link to itself
      have h1 : ρ a = ρ b := by simpa [cell_write_self hlt, Holds] using hs a
      by_cases hma : m = a
      · exact congrArg ρ hma.symm
      · have h2 := hs m
        rw [cell_write_ne hma, hm] at h2
        exact h1.trans h2.symm
    · rw [← cell_write_ne ha]
      exact hs a
  · intro hs a
    by_cases ha : a = t
    · rw [ha, cell_write_self hlt]
      exact hmid hs
    · rw [cell_write_ne ha]
      exact hs a

lemma reaches_insert {w : ℕ} (hE : ∀ a b, h'.Edge a b → h.Edge a b ∨ a = w ∧ b = t)
    (hcv : h'.Reaches c v) : h.Reaches c v ∨ h.Reaches t v := by
  induction hcv using ReflTransGen.head_induction_on with
  | refl => exact Or.inl .refl
  | head hab _ ih =>
    rcases hE _ _ hab with hab | ⟨rfl, rfl⟩
    · exact ih.imp_left (.head hab)
    · exact Or.inr (ih.elim id id)

lemma Frame.bind {w : ℕ} (hw : (h.cell w).kids = []) (hwv : ¬ h.Reaches w v) (htv : ¬ h.Reaches t v) :
    Frame v h (h.write w (.link t)) := by
  refine ⟨cell_write_ne ?_, fun c hc => ?_⟩
  · rintro rfl
    exact hwv .refl
  · exact (reaches_insert (fun _ _ => edge_bind hw) hc).resolve_right htv

lemma Frame.push {c : Cell} (hv : v < h.size) (hc : ∀ k ∈ c.kids, ¬ h.Reaches k v) :
    Frame v h (h.push c) := by
  refine ⟨cell_push_lt hv, fun a ha => ?_⟩
  induction ha using ReflTransGen.head_induction_on with
  | refl => exact .refl
  | head hab _ ih =>
    rcases edge_push hab with hab | ⟨-, hk⟩
    · exact .head hab ih
    · exact absurd ih (hc _ hk)

lemma Halvings.sol (hh : h.Halvings h') : h'.Sol ρ ↔ h.Sol ρ := by
  induction hh with
  | refl => exact Iff.rfl
  | tail _ hstep ih =>
    obtain ⟨_, _, hstep⟩ := hstep
    exact hstep.sol.trans ih

lemma Halvings.frame (hh : h.Halvings h') (hv : ∀ y, h.cell v ≠ .link y) : Frame v h h' :=
  ⟨hh.halved.cell v hv, fun c => (hh.halved.reaches c v hv).mp⟩

lemma Halvings.tvr_iff (hh : h.Halvings h') {id : ℕ} : h'.cell v = .tvr id ↔ h.cell v = .tvr id := by
  constructor
  · intro hv
    rw [← hh.halved.cell v (hh.halved.was (by simp [hv])), hv]
  · intro hv
    rw [hh.halved.cell v (by simp [hv]), hv]

lemma Halvings.tame (hh : h.Halvings h') (hc : h.Closed) (hr : Acyclic h.Edge) :
    h'.Closed ∧ Acyclic h'.Edge := by
  induction hh with
  | refl => exact ⟨hc, hr⟩
  | tail _ hstep ih =>
    obtain ⟨_, _, hstep⟩ := hstep
    exact ⟨hstep.closed ih.1, hstep.acyclic ih.2⟩

theorem Halvings.plain (hh : h.Halvings h') (hp : h.Plain) : h'.Plain where
  closed := (hh.tame hp.closed hp.acyclic).1
  acyclic := (hh.tame hp.closed hp.acyclic).2
  pure := fun a ha => by
    by_cases hl : ∃ y, h.cell a = .link y
    · obtain ⟨y, hy⟩ := hl
      exact Or.inr (Or.inr (hh.halved.link a y hy))
    · push Not at hl
      rw [hh.halved.cell a hl]
      exact hp.pure a (hh.halved.size ▸ ha)
  inj := fun v w id hv hw => hp.inj v w id (hh.tvr_iff.mp hv) (hh.tvr_iff.mp hw)

theorem Plain.bind {id : ℕ} (hp : h.Plain) (hv : h.cell v = .tvr id) (ht : t < h.size)
    (hreach : ¬ h.Reaches t v) : (h.write v (.link t)).Plain where
  closed := hp.closed.bind (by rw [hv]; rfl) ht
  acyclic := acyclic_bind (by rw [hv]; rfl) hreach hp.acyclic
  pure := fun a ha => by
    by_cases hav : a = v
    · exact Or.inr (Or.inr ⟨t, by rw [hav, cell_write_self (lt_of_tvr hv)]⟩)
    · rw [cell_write_ne hav]
      exact hp.pure a (by simpa using ha)
  inj := fun x y i hx hy => by
    have hne : ∀ z, (h.write v (.link t)).cell z = .tvr i → z ≠ v := by
      rintro z hz rfl
      rw [cell_write_self (lt_of_tvr hv)] at hz
      cases hz
    rw [cell_write_ne (hne x hx)] at hx
    rw [cell_write_ne (hne y hy)] at hy
    exact hp.inj x y i hx hy

theorem Plain.push {c : Cell} (hp : h.Plain) (hk : ∀ k ∈ c.kids, k < h.size)
    (hc : (∃ id, c = .tvr id ∧ ∀ v, h.cell v ≠ .tvr id) ∨ ∃ a b, c = .arrow a b) : (h.push c).Plain where
  closed := hp.closed.push hk
  acyclic := acyclic_push hp.closed hk hp.acyclic
  pure := fun a ha => by
    rcases Nat.lt_succ_iff_lt_or_eq.mp (size_push ▸ ha) with ha | rfl
    · rw [cell_push_lt ha]
      exact hp.pure a ha
    · rw [cell_push_size]
      rcases hc with ⟨id, rfl, -⟩ | ⟨a, b, rfl⟩
      · exact Or.inl ⟨id, rfl⟩
      · exact Or.inr (Or.inl ⟨a, b, rfl⟩)
  inj := fun x y i hx hy => by
    have hcases : ∀ z, (h.push c).cell z = .tvr i → h.cell z = .tvr i ∨ z = h.size ∧ c = .tvr i := by
      intro z hz
      rcases Nat.lt_succ_iff_lt_or_eq.mp (size_push ▸ lt_of_tvr hz) with hlt | rfl
      · rw [cell_push_lt hlt] at hz
        exact Or.inl hz
      · rw [cell_push_size] at hz
        exact Or.inr ⟨rfl, hz⟩
    have hfresh : c = .tvr i → ∀ v, h.cell v ≠ .tvr i := by
      rintro rfl
      rcases hc with ⟨id, he, hid⟩ | ⟨a, b, he⟩
      · cases he
        exact hid
      · cases he
    rcases hcases x hx with hx | ⟨rfl, hcx⟩ <;> rcases hcases y hy with hy | ⟨rfl, hcy⟩
    · exact hp.inj x y i hx hy
    · exact absurd hx (hfresh hcy x)
    · exact absurd hy (hfresh hcx y)
    · rfl

end Writes

/-! ## Solutions exist and are determined by the variables -/

/-- The type of a cell when the variables have the types of `f`. -/
def readFrom (h : Heap) (f : ℕ → Ty) : ℕ → ℕ → Ty
  | 0, a => f a
  | n + 1, a =>
    match h.cell a with
    | .link b => readFrom h f n b
    | .arrow b c => .arrow (readFrom h f n b) (readFrom h f n c)
    | _ => f a

def read (h : Heap) (f : ℕ → Ty) (a : ℕ) : Ty := h.readFrom f (h.size + 1) a

section Solve

variable {h : Heap} {f ρ ρ' : ℕ → Ty} {a b c t v : ℕ}

lemma readFrom_enough (hc : h.Closed) (hr : Acyclic h.Edge) {n m : ℕ} (hn : h.rank a < n)
    (hm : h.rank a < m) : h.readFrom f n a = h.readFrom f m a := by
  induction n generalizing a m with
  | zero => omega
  | succ n ih =>
    obtain ⟨m, rfl⟩ : ∃ k, m = k + 1 := ⟨m - 1, by omega⟩
    have hkid : ∀ k ∈ (h.cell a).kids, h.rank k < n ∧ h.rank k < m := fun k hk => by
      have := rank_lt_of_edge hc hr (show h.Edge a k from hk)
      omega
    rw [readFrom, readFrom]
    cases hcell : h.cell a with
    | link b =>
      have hb := hkid b (by simp [hcell, Cell.kids])
      exact ih hb.1 hb.2
    | arrow b c =>
      have hb := hkid b (by simp [hcell, Cell.kids])
      have hc := hkid c (by simp [hcell, Cell.kids])
      exact congrArg₂ Ty.arrow (ih hb.1 hb.2) (ih hc.1 hc.2)
    | _ => rfl

theorem sol_read (hc : h.Closed) (hr : Acyclic h.Edge) (f : ℕ → Ty) : h.Sol (h.read f) := by
  intro a
  have hkid : ∀ k ∈ (h.cell a).kids, h.readFrom f h.size k = h.read f k := fun k hk => by
    have h1 := rank_lt_of_edge hc hr (show h.Edge a k from hk)
    have h2 : h.rank a ≤ h.size := rank_le_size
    exact readFrom_enough hc hr (by omega) (by omega)
  rw [read, readFrom]
  cases hcell : h.cell a with
  | link b => exact hkid b (by simp [hcell, Cell.kids])
  | arrow b c =>
    exact congrArg₂ Ty.arrow (hkid b (by simp [hcell, Cell.kids])) (hkid c (by simp [hcell, Cell.kids]))
  | _ => trivial

lemma read_tvr {id : ℕ} (hv : h.cell v = .tvr id) : h.read f v = f v := by
  rw [read, readFrom, hv]

/-- Two solutions agree where the variables they come to do. -/
theorem Plain.determined (hp : h.Plain) (hs : h.Sol ρ) (hs' : h.Sol ρ') (ha : a < h.size)
    (hv : ∀ v id, h.Reaches a v → h.cell v = .tvr id → ρ v = ρ' v) : ρ a = ρ' a := by
  induction hn : h.rank a using Nat.strong_induction_on generalizing a with
  | _ n ih =>
    subst hn
    have hkid : ∀ k, h.Edge a k → ρ k = ρ' k := fun k hk =>
      ih _ (rank_lt_of_edge hp.closed hp.acyclic hk) (hp.closed a k hk)
        (fun v id hkv hid => hv v id (.head hk hkv) hid) rfl
    have h1 := hs a
    have h2 := hs' a
    rcases hp.pure a ha with ⟨id, hc⟩ | ⟨b, c, hc⟩ | ⟨b, hc⟩
    · exact hv a id .refl hc
    · rw [hc] at h1 h2
      rw [show ρ a = _ from h1, show ρ' a = _ from h2, hkid b (by simp [Edge, hc, Cell.kids]),
        hkid c (by simp [Edge, hc, Cell.kids])]
    · rw [hc] at h1 h2
      rw [show ρ a = _ from h1, show ρ' a = _ from h2, hkid b (by simp [Edge, hc, Cell.kids])]

/-- Two solutions that agree on a cell agree on what it reaches. -/
lemma Plain.agree_below (hp : h.Plain) (hs : h.Sol ρ) (hs' : h.Sol ρ') (ha : ρ a = ρ' a)
    (hav : h.Reaches a v) : ρ v = ρ' v := by
  induction hav with
  | refl => exact ha
  | @tail b c _ hbc ih =>
    have h1 := hs b
    have h2 := hs' b
    rcases hp.pure b hbc.lt with ⟨id, hb⟩ | ⟨x, y, hb⟩ | ⟨x, hb⟩
    · simp [Edge, hb, Cell.kids] at hbc
    · rw [hb] at h1 h2
      have he : Ty.arrow (ρ x) (ρ y) = .arrow (ρ' x) (ρ' y) := (show ρ b = _ from h1).symm.trans
        (ih.trans (show ρ' b = _ from h2))
      obtain ⟨hx, hy⟩ := Ty.arrow.inj he
      simp only [Edge, hb, Cell.kids, List.mem_cons, List.not_mem_nil, or_false] at hbc
      rcases hbc with rfl | rfl
      · exact hx
      · exact hy
    · rw [hb] at h1 h2
      simp only [Edge, hb, Cell.kids, List.mem_singleton] at hbc
      subst hbc
      exact (show ρ b = _ from h1).symm.trans (ih.trans (show ρ' b = _ from h2))

/-- A part is no larger than the whole. -/
lemma Plain.size_le (hp : h.Plain) (hs : h.Sol ρ) (hav : h.Reaches a v) : (ρ v).size ≤ (ρ a).size := by
  induction hav with
  | refl => exact le_rfl
  | @tail b c _ hbc ih =>
    refine le_trans ?_ ih
    have h1 := hs b
    rcases hp.pure b hbc.lt with ⟨id, hb⟩ | ⟨x, y, hb⟩ | ⟨x, hb⟩
    · simp [Edge, hb, Cell.kids] at hbc
    · rw [hb] at h1
      rw [show ρ b = _ from h1, Ty.size]
      simp only [Edge, hb, Cell.kids, List.mem_cons, List.not_mem_nil, or_false] at hbc
      rcases hbc with rfl | rfl <;> omega
    · rw [hb] at h1
      simp only [Edge, hb, Cell.kids, List.mem_singleton] at hbc
      rw [hbc, show ρ b = _ from h1]

/-- A variable that occurs in an arrow cannot have its type. -/
lemma Plain.ne_of_occurs (hp : h.Plain) (hs : h.Sol ρ) (ha : h.cell a = .arrow b c) (hne : a ≠ v)
    (hav : h.Reaches a v) : ρ v ≠ ρ a := by
  rcases hav.cases_head with he | ⟨k, hak, hkv⟩
  · exact absurd he hne
  · have h1 := hs a
    rw [ha] at h1
    have hle := hp.size_le hs hkv
    have hlt : (ρ k).size < (ρ a).size := by
      rw [show ρ a = _ from h1, Ty.size]
      simp only [Edge, ha, Cell.kids, List.mem_cons, List.not_mem_nil, or_false] at hak
      rcases hak with rfl | rfl <;> omega
    intro he
    rw [he] at hle
    omega

end Solve

end Heap

end LinEngine
