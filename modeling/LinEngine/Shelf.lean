import Mathlib

/-!
# Search trees of bounded depth

A search tree in which an insertion goes at most `d` levels below the root. There it puts
a tree of one entry in place of what the slot held. A lookup goes `d` levels below the
root too, so every entry is found exactly when no slot at the bottom is asked to hold two
keys, and that can be read off the keys in the order of their insertion.
-/
namespace Shelf

/-- Binary trees with an entry at each node. -/
inductive BinTree (α : Type*)
  | leaf
  | node (val : α) (left right : BinTree α)
  deriving DecidableEq, Repr

/-- A tree of one entry. -/
def single {α : Type*} (a : α) : BinTree α := .node a .leaf .leaf

section Defs

variable {α κ : Type*} [LinearOrder κ] (key : α → κ)

def put : ℕ → α → BinTree α → BinTree α
  | 0, a, _ => single a
  | _ + 1, a, .leaf => single a
  | d + 1, a, .node b l r =>
    if key a = key b then .node a l r
    else if key a < key b then .node b (put d a l) r
    else .node b l (put d a r)

def find : ℕ → κ → BinTree α → Option α
  | _, _, .leaf => none
  | 0, k, .node b _ _ => if k = key b then some b else none
  | d + 1, k, .node b l r => if k = key b then some b else if k < key b then find d k l else find d k r

/-- The tree after a run of insertions. -/
def puts (d : ℕ) (t : BinTree α) (as : List α) : BinTree α := as.foldl (fun t a => put key d a t) t

/-- The last entry of the run with the key. -/
def latest (as : List α) (k : κ) : Option α := as.reverse.find? fun a => decide (key a = k)

/-- The first key goes to the root and divides the rest, and a slot at the bottom gets one key at most. -/
def Fits : ℕ → List κ → Prop
  | 0, ks => ∀ x ∈ ks, ∀ y ∈ ks, x = y
  | _ + 1, [] => True
  | d + 1, k :: ks => Fits d (ks.filter (· < k)) ∧ Fits d (ks.filter (k < ·))

instance Fits.decidable : (d : ℕ) → (ks : List κ) → Decidable (Fits d ks)
  | 0, ks => inferInstanceAs (Decidable (∀ x ∈ ks, ∀ y ∈ ks, x = y))
  | _ + 1, [] => isTrue trivial
  | d + 1, k :: ks =>
    letI := Fits.decidable d (ks.filter (· < k))
    letI := Fits.decidable d (ks.filter (k < ·))
    inferInstanceAs (Decidable (Fits d (ks.filter (· < k)) ∧ Fits d (ks.filter (k < ·))))

end Defs

section Laws

variable {α κ : Type*} [LinearOrder κ] {key : α → κ} {d : ℕ} {t l r : BinTree α} {a b : α} {as : List α} {k : κ}

lemma find_single (d : ℕ) (k : κ) (a : α) : find key d k (single a) = if k = key a then some a else none := by
  cases d <;> simp [single, find]

lemma find_top (h : k = key b) : find key (d + 1) k (.node b l r) = some b := by
  rw [find, if_pos h]

lemma find_left (h : k < key b) : find key (d + 1) k (.node b l r) = find key d k l := by
  rw [find, if_neg h.ne, if_pos h]

lemma find_right (h : key b < k) : find key (d + 1) k (.node b l r) = find key d k r := by
  rw [find, if_neg h.ne', if_neg h.not_gt]

lemma put_left (h : key a < key b) : put key (d + 1) a (.node b l r) = .node b (put key d a l) r := by
  rw [put, if_neg h.ne, if_pos h]

lemma put_right (h : key b < key a) : put key (d + 1) a (.node b l r) = .node b l (put key d a r) := by
  rw [put, if_neg h.ne', if_neg h.not_gt]

/-- A lookup returns an entry of its key. -/
lemma key_of_find (h : find key d k t = some a) : key a = k := by
  induction d generalizing t with
  | zero =>
    cases t with
    | leaf => cases h
    | node b l r =>
      unfold find at h
      split_ifs at h with hk
      exact Option.some.inj h ▸ hk.symm
  | succ d ih =>
    cases t with
    | leaf => cases h
    | node b l r =>
      rcases lt_trichotomy k (key b) with hk | hk | hk
      · rw [find_left hk] at h
        exact ih h
      · rw [find_top hk] at h
        exact Option.some.inj h ▸ hk.symm
      · rw [find_right hk] at h
        exact ih h

lemma find_put_of_ne (hk : k ≠ key a) (h : find key d k t = none) : find key d k (put key d a t) = none := by
  induction d generalizing t with
  | zero => rw [put, find_single, if_neg hk]
  | succ d ih =>
    cases t with
    | leaf => rw [put, find_single, if_neg hk]
    | node b l r =>
      have hb : k ≠ key b := fun he => by simp [find_top he] at h
      rcases lt_trichotomy (key a) (key b) with hab | hab | hab
      · rw [put_left hab]
        rcases lt_or_gt_of_ne hb with hlt | hgt
        · rw [find_left hlt] at h ⊢
          exact ih h
        · rwa [find_right hgt] at h ⊢
      · rw [put, if_pos hab]
        rcases lt_or_gt_of_ne hb with hlt | hgt
        · rw [find_left hlt] at h
          rwa [find_left (hab ▸ hlt)]
        · rw [find_right hgt] at h
          rwa [find_right (hab ▸ hgt)]
      · rw [put_right hab]
        rcases lt_or_gt_of_ne hb with hlt | hgt
        · rwa [find_left hlt] at h ⊢
        · rw [find_right hgt] at h ⊢
          exact ih h

/-- A key that was never inserted is not found. -/
lemma find_puts_of_ne (hk : ∀ a ∈ as, k ≠ key a) (h : find key d k t = none) : find key d k (puts key d t as) = none := by
  induction as generalizing t with
  | nil => exact h
  | cons a as ih =>
    exact ih (fun b hb => hk b (List.mem_cons_of_mem a hb)) (find_put_of_ne (hk a List.mem_cons_self) h)

/-! ## The last entry of a key -/

lemma latest_cons (a : α) (as : List α) (k : κ) :
    latest key (a :: as) k = (latest key as k).or (if key a = k then some a else none) := by
  by_cases h : key a = k <;> simp [latest, List.find?_append, h]

lemma latest_concat (as : List α) (a : α) (k : κ) :
    latest key (as ++ [a]) k = if key a = k then some a else latest key as k := by
  by_cases h : key a = k <;> simp [latest, h]

lemma latest_eq_none : latest key as k = none ↔ ∀ a ∈ as, key a ≠ k := by
  simp [latest]

lemma key_of_latest (h : latest key as k = some a) : key a = k := by
  simpa using List.find?_some h

lemma latest_filter {P : κ → Bool} (h : P k = true) : latest key (as.filter fun a => P (key a)) k = latest key as k := by
  rw [latest, latest, ← List.filter_reverse, List.find?_filter]
  refine congrArg (fun p => List.find? p as.reverse) (funext fun a => ?_)
  by_cases ha : key a = k
  · simp [ha, h]
  · simp [ha]

/-! ## Runs of insertions -/

/-- At a node a run of insertions divides into one for each side. -/
lemma puts_node (d : ℕ) (as : List α) (b : α) (l r : BinTree α) :
    puts key (d + 1) (.node b l r) as = .node ((latest key as (key b)).getD b)
      (puts key d l (as.filter fun a => key a < key b)) (puts key d r (as.filter fun a => key b < key a)) := by
  induction as generalizing b l r with
  | nil => rfl
  | cons a as ih =>
    rw [puts, List.foldl_cons, ← puts, latest_cons]
    rcases lt_trichotomy (key a) (key b) with hab | hab | hab
    · rw [put_left hab, ih, if_neg hab.ne, Option.or_none]
      simp [hab, hab.not_gt, puts]
    · rw [put, if_pos hab, ih, if_pos hab, hab, Option.getD_or, Option.getD_some]
      simp [hab]
    · rw [put_right hab, ih, if_neg hab.ne', Option.or_none]
      simp [hab, hab.not_gt, puts]

lemma find_puts_zero_iff (as : List α) :
    (∀ k, find key 0 k (puts key 0 .leaf as) = latest key as k) ↔ Fits 0 (as.map key) := by
  cases as using List.reverseRecOn with
  | nil => exact ⟨fun _ x hx => absurd hx List.not_mem_nil, fun _ k => rfl⟩
  | append_singleton as a =>
    have hput : puts key 0 .leaf (as ++ [a]) = single a := by rw [puts, List.foldl_append]; rfl
    have hfits : Fits 0 ((as ++ [a]).map key) ↔ ∀ b ∈ as, key b = key a := by
      simp only [Fits, List.map_append, List.map_cons, List.map_nil, List.mem_append, List.mem_map, List.mem_singleton]
      constructor
      · exact fun h b hb => h _ (.inl ⟨b, hb, rfl⟩) _ (.inr rfl)
      · rintro h x (⟨b, hb, rfl⟩ | rfl) y (⟨c, hc, rfl⟩ | rfl)
        · exact (h b hb).trans (h c hc).symm
        · exact h b hb
        · exact (h c hc).symm
        · rfl
    rw [hput, hfits]
    constructor
    · intro h b hb
      by_contra hne
      have hb' := h (key b)
      rw [find_single, if_neg hne, latest_concat, if_neg (Ne.symm hne), eq_comm, latest_eq_none] at hb'
      exact hb' b hb rfl
    · intro h k
      rw [find_single, latest_concat]
      by_cases hk : k = key a
      · rw [if_pos hk, if_pos hk.symm]
      · rw [if_neg hk, if_neg (Ne.symm hk), eq_comm, latest_eq_none]
        exact fun b hb hbk => hk (hbk.symm.trans (h b hb))

/-- A run of insertions leaves the last entry of every key to be found exactly when its keys fit. -/
theorem find_puts_iff (d : ℕ) (as : List α) :
    (∀ k, find key d k (puts key d .leaf as) = latest key as k) ↔ Fits d (as.map key) := by
  induction d generalizing as with
  | zero => exact find_puts_zero_iff as
  | succ d ih =>
    cases as with
    | nil => exact ⟨fun _ => trivial, fun _ k => rfl⟩
    | cons a as =>
      -- a key on the other side of the root is found in neither a side nor its part of the run
      have hside : ∀ {P : κ → Bool} {k : κ}, P k = false →
          find key d k (puts key d .leaf (as.filter fun a => P (key a))) = latest key (as.filter fun a => P (key a)) k := by
        intro P k hk
        have hne : ∀ b ∈ as.filter fun a => P (key a), k ≠ key b := fun b hb he => by
          simp [← he, hk] at hb
        rw [find_puts_of_ne hne (by cases d <;> rfl), eq_comm, latest_eq_none]
        exact fun b hb => (hne b hb).symm
      have hput : puts key (d + 1) .leaf (a :: as) = puts key (d + 1) (.node a .leaf .leaf) as := rfl
      have hroot : key ((latest key as (key a)).getD a) = key a := by
        cases hl : latest key as (key a) with
        | none => rfl
        | some b => exact key_of_latest hl
      have hfits : Fits (d + 1) ((a :: as).map key) ↔
          Fits d ((as.filter fun b => key b < key a).map key) ∧ Fits d ((as.filter fun b => key a < key b).map key) := by
        simp only [Fits, List.map_cons, List.filter_map]
        rfl
      rw [hput, puts_node, hfits, ← ih, ← ih]
      constructor
      · intro h
        constructor
        · intro k
          by_cases hk : k < key a
          · rw [latest_filter (P := fun k => k < key a) (by simpa using hk)]
            have := h k
            rwa [find_left (hroot.symm ▸ hk), latest_cons, if_neg hk.ne', Option.or_none] at this
          · exact hside (P := fun k => k < key a) (by simpa using hk)
        · intro k
          by_cases hk : key a < k
          · rw [latest_filter (P := fun k => key a < k) (by simpa using hk)]
            have := h k
            rwa [find_right (hroot.symm ▸ hk), latest_cons, if_neg hk.ne, Option.or_none] at this
          · exact hside (P := fun k => key a < k) (by simpa using hk)
      · rintro ⟨hl, hr⟩ k
        rw [latest_cons]
        rcases lt_trichotomy k (key a) with hk | rfl | hk
        · rw [find_left (hroot.symm ▸ hk), hl, latest_filter (P := fun k => k < key a) (by simpa using hk), if_neg hk.ne',
            Option.or_none]
        · rw [find_top hroot.symm, if_pos rfl]
          cases latest key as (key a) <;> rfl
        · rw [find_right (hroot.symm ▸ hk), hr, latest_filter (P := fun k => key a < k) (by simpa using hk), if_neg hk.ne,
            Option.or_none]

end Laws

end Shelf
