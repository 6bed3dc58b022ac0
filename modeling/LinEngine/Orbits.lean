import Mathlib

/-!
# Cycles of a partial function

A point of a set that a partial function does not lead out of is on one cycle or on none.
The weight of the set is a product over its cycles times a power for the points off them. It
grows by a factor when a cycle, or a path that leads into the set or ends, is added.
-/
namespace LinEngine.Orbits

open Relation (ReflTransGen TransGen)

variable {α : Type*} [DecidableEq α] {f : α → Option α} {M C : Finset α} {l : List α} {a b : α} {s x : Option α}

/-- `f` leads from `a` to `b`. -/
def Step (f : α → Option α) (a b : α) : Prop := f a = some b

def OnCycle (f : α → Option α) (a : α) : Prop := TransGen (Step f) a a

/-- `f` does not lead out of the set. -/
def Closed (f : α → Option α) (M : Finset α) : Prop := ∀ a ∈ M, ∀ b, f a = some b → b ∈ M

open Classical in
/-- The points of the set that `f` leads to from `a`, which is the cycle of `a` when `a` is on one. -/
noncomputable def orbit (f : α → Option α) (M : Finset α) (a : α) : Finset α := M.filter fun b => ReflTransGen (Step f) a b

open Classical in
noncomputable def cycles (f : α → Option α) (M : Finset α) : Finset (Finset α) :=
  (M.filter fun a => OnCycle f a).image (orbit f M)

open Classical in
/-- The points on no cycle. -/
noncomputable def tails (f : α → Option α) (M : Finset α) : Finset α := M.filter fun a => ¬ OnCycle f a

noncomputable def weight (f : α → Option α) (M : Finset α) : ℤ :=
  (∏ c ∈ cycles f M, (2 ^ c.card - 1)) * 2 ^ (tails f M).card

/-! ## Closed sets -/

omit [DecidableEq α] in
lemma Closed.reach (h : Closed f M) (ha : a ∈ M) (hr : ReflTransGen (Step f) a b) : b ∈ M := by
  induction hr with
  | refl => exact ha
  | tail _ hstep ih => exact h _ ih _ hstep

omit [DecidableEq α] in
/-- A point that leads into a closed set without it is on no cycle. -/
lemma Closed.not_onCycle (h : Closed f M) (ha : a ∉ M) (hinto : ∀ b, f a = some b → b ∈ M) : ¬ OnCycle f a := by
  intro hcycle
  obtain ⟨b, hstep, hback⟩ := TransGen.head'_iff.mp hcycle
  exact ha (h.reach (hinto b hstep) hback)

lemma mem_cycles {c : Finset α} : c ∈ cycles f M ↔ ∃ a ∈ M, OnCycle f a ∧ orbit f M a = c := by
  simp [cycles, and_assoc]

omit [DecidableEq α] in
lemma mem_tails : a ∈ tails f M ↔ a ∈ M ∧ ¬ OnCycle f a := by simp [tails]

omit [DecidableEq α] in
lemma mem_orbit : b ∈ orbit f M a ↔ b ∈ M ∧ ReflTransGen (Step f) a b := by simp [orbit]

lemma weight_empty : weight f ∅ = 1 := by simp [weight, cycles, tails]

/-- What is reached from a closed set does not change when other points are added. -/
lemma Closed.orbit_union (h : Closed f M) (ha : a ∈ M) : orbit f (M ∪ C) a = orbit f M a := by
  ext b
  simp only [mem_orbit, Finset.mem_union]
  exact ⟨fun hb => ⟨h.reach ha hb.2, hb.2⟩, fun hb => ⟨Or.inl hb.1, hb.2⟩⟩

lemma Closed.grow (h : Closed f M) (hinto : ∀ b, f a = some b → b ∈ M) : Closed f (M ∪ {a}) := by
  intro c hc b hb
  rcases Finset.mem_union.mp hc with hc | hc
  · exact Finset.mem_union_left _ (h c hc b hb)
  · rw [Finset.mem_singleton.mp hc] at hb
    exact Finset.mem_union_left _ (hinto b hb)

/-- A point that leads into a closed set doubles its weight. -/
lemma Closed.weight_insert (h : Closed f M) (ha : a ∉ M) (hinto : ∀ b, f a = some b → b ∈ M) :
    weight f (M ∪ {a}) = weight f M * 2 := by
  have hoff := h.not_onCycle ha hinto
  have hcycles : cycles f (M ∪ {a}) = cycles f M := by
    ext c
    simp only [mem_cycles, Finset.mem_union, Finset.mem_singleton]
    constructor
    · rintro ⟨b, hb | rfl, hon, rfl⟩
      · exact ⟨b, hb, hon, (h.orbit_union hb).symm⟩
      · exact absurd hon hoff
    · rintro ⟨b, hb, hon, rfl⟩
      exact ⟨b, Or.inl hb, hon, h.orbit_union hb⟩
  have htails : tails f (M ∪ {a}) = insert a (tails f M) := by
    ext b
    simp only [mem_tails, Finset.mem_union, Finset.mem_singleton, Finset.mem_insert]
    constructor
    · rintro ⟨hb | rfl, hon⟩
      · exact Or.inr ⟨hb, hon⟩
      · exact Or.inl rfl
    · rintro (rfl | ⟨hb, hon⟩)
      · exact ⟨Or.inr rfl, hoff⟩
      · exact ⟨Or.inl hb, hon⟩
  have hnew : a ∉ tails f M := fun hmem => ha (mem_tails.mp hmem).1
  rw [weight, weight, hcycles, htails, Finset.card_insert_of_notMem hnew, pow_succ, mul_assoc]

/-- The points of a cycle, each leading to all of them. -/
structure Cyclic (f : α → Option α) (C : Finset α) : Prop where
  closed : Closed f C
  nonempty : C.Nonempty
  reach : ∀ a ∈ C, ∀ b ∈ C, TransGen (Step f) a b

/-- A cycle is a factor of its own. -/
lemma Closed.weight_union (h : Closed f M) (hC : Cyclic f C) (hdisj : Disjoint M C) :
    weight f (M ∪ C) = weight f M * (2 ^ C.card - 1) := by
  have horbit : ∀ b ∈ C, orbit f (M ∪ C) b = C := by
    intro b hb
    ext c
    simp only [mem_orbit, Finset.mem_union]
    exact ⟨fun hc => hC.closed.reach hb hc.2, fun hc => ⟨Or.inr hc, (hC.reach b hb c hc).to_reflTransGen⟩⟩
  have hcycles : cycles f (M ∪ C) = insert C (cycles f M) := by
    ext c
    simp only [mem_cycles, Finset.mem_union, Finset.mem_insert]
    constructor
    · rintro ⟨b, hb | hb, hon, rfl⟩
      · exact Or.inr ⟨b, hb, hon, (h.orbit_union hb).symm⟩
      · exact Or.inl (horbit b hb)
    · rintro (rfl | ⟨b, hb, hon, rfl⟩)
      · obtain ⟨b, hb⟩ := hC.nonempty
        exact ⟨b, Or.inr hb, hC.reach b hb b hb, horbit b hb⟩
      · exact ⟨b, Or.inl hb, hon, h.orbit_union hb⟩
  have htails : tails f (M ∪ C) = tails f M := by
    ext b
    simp only [mem_tails, Finset.mem_union]
    constructor
    · rintro ⟨hb | hb, hoff⟩
      · exact ⟨hb, hoff⟩
      · exact absurd (hC.reach b hb b hb) hoff
    · exact fun hb => ⟨Or.inl hb.1, hb.2⟩
  have hnew : C ∉ cycles f M := by
    intro hmem
    obtain ⟨a, ha, hon, heq⟩ := mem_cycles.mp hmem
    have hin : a ∈ orbit f M a := mem_orbit.mpr ⟨ha, .refl⟩
    rw [heq] at hin
    exact Finset.disjoint_left.mp hdisj ha hin
  rw [weight, weight, hcycles, htails, Finset.prod_insert hnew]
  ring

/-! ## Paths -/

/-- From `x` on `f` leads along the list to `s`. -/
def Leads (f : α → Option α) : Option α → List α → Option α → Prop
  | x, [], s => x = s
  | x, a :: l, s => x = some a ∧ Leads f (f a) l s

omit [DecidableEq α] in
lemma leads_append {p q : List α} : Leads f x (p ++ q) s ↔ ∃ m, Leads f x p m ∧ Leads f m q s := by
  induction p generalizing x with
  | nil => simp [Leads]
  | cons a p ih => simp [Leads, ih, and_assoc]

omit [DecidableEq α] in
lemma Leads.next (h : Leads f x l s) (ha : a ∈ l) (hb : f a = some b) : b ∈ l ∨ s = some b := by
  induction l generalizing x with
  | nil => cases ha
  | cons c l ih =>
    obtain ⟨-, hrest⟩ := h
    rcases List.mem_cons.mp ha with rfl | ha
    · cases l with
      | nil => exact Or.inr ((show f a = s from hrest) ▸ hb)
      | cons d l =>
        have hd : f a = some d := hrest.1
        rw [hb] at hd
        obtain rfl := Option.some.inj hd
        exact Or.inl (by simp)
    · exact (ih hrest ha).imp_left (List.mem_cons_of_mem c)

omit [DecidableEq α] in
/-- Every point of a path is reached from its start and leads to its end. -/
lemma Leads.reach (h : Leads f x l s) : ∀ a ∈ l,
    (∀ b, x = some b → ReflTransGen (Step f) b a) ∧ ∀ b, s = some b → TransGen (Step f) a b := by
  induction l generalizing x with
  | nil => exact fun a ha => absurd ha List.not_mem_nil
  | cons c l ih =>
    obtain ⟨rfl, hrest⟩ := h
    intro a ha
    cases l with
    | nil =>
      obtain rfl := List.mem_singleton.mp ha
      exact ⟨fun b hb => Option.some.inj hb ▸ .refl, fun b hb => .single ((show f a = s from hrest).trans hb)⟩
    | cons d l =>
      have hstep : Step f c d := hrest.1
      rcases List.mem_cons.mp ha with rfl | ha
      · exact ⟨fun b hb => Option.some.inj hb ▸ .refl, fun b hb => .head hstep ((ih hrest d List.mem_cons_self).2 b hb)⟩
      · obtain ⟨hfrom, hto⟩ := ih hrest a ha
        exact ⟨fun b hb => Option.some.inj hb ▸ .head hstep (hfrom d hrest.1), hto⟩

/-- A path that leads into a closed set, or ends, doubles the weight with each of its points. -/
lemma Closed.weight_path (h : Closed f M) (hl : Leads f x l s) (hs : ∀ b, s = some b → b ∈ M) (hnodup : l.Nodup)
    (hnew : ∀ a ∈ l, a ∉ M) : Closed f (M ∪ l.toFinset) ∧ weight f (M ∪ l.toFinset) = weight f M * 2 ^ l.length ∧
      ∀ b, x = some b → b ∈ M ∪ l.toFinset := by
  induction l generalizing x with
  | nil =>
    obtain rfl : x = s := hl
    simpa using ⟨h, hs⟩
  | cons a l ih =>
    obtain ⟨rfl, hrest⟩ := hl
    obtain ⟨hal, hnodup⟩ := List.nodup_cons.mp hnodup
    obtain ⟨hclosed, hweight, hinto⟩ := ih hrest hnodup fun b hb => hnew b (List.mem_cons_of_mem a hb)
    have hset : M ∪ (a :: l).toFinset = M ∪ l.toFinset ∪ {a} := by
      ext b
      simp only [List.toFinset_cons, Finset.mem_union, Finset.mem_insert, Finset.mem_singleton]
      tauto
    have ha : a ∉ M ∪ l.toFinset := by simp [hal, hnew a List.mem_cons_self]
    rw [hset, hclosed.weight_insert ha hinto, hweight, List.length_cons, pow_succ, mul_assoc]
    exact ⟨hclosed.grow hinto, rfl, fun b hb => by simp [Option.some.inj hb]⟩

omit [DecidableEq α] in
lemma Leads.transGen (h : Leads f (some a) l (some a)) {c d : α} (hc : c ∈ l) (hd : d ∈ l) :
    TransGen (Step f) c d := ((h.reach c hc).2 a rfl).trans_left ((h.reach d hd).1 a rfl)

/-- A path back to its start is a cycle. -/
lemma Leads.cyclic (h : Leads f (some a) (a :: l) (some a)) : Cyclic f (a :: l).toFinset where
  closed c hc b hb := by
    rw [List.mem_toFinset] at hc ⊢
    rcases h.next hc hb with hb | hb
    · exact hb
    · exact Option.some.inj hb ▸ List.mem_cons_self
  nonempty := ⟨a, by simp⟩
  reach c hc d hd := h.transGen (List.mem_toFinset.mp hc) (List.mem_toFinset.mp hd)

lemma Closed.union (h : Closed f M) (hC : Closed f C) : Closed f (M ∪ C) := by
  intro a ha b hb
  rcases Finset.mem_union.mp ha with ha | ha
  · exact Finset.mem_union_left _ (h a ha b hb)
  · exact Finset.mem_union_right _ (hC a ha b hb)

end LinEngine.Orbits
