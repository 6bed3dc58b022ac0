import LinEngine.Lambda

/-!
# Interleaved programs

Programs that read and write one cell of a shared memory at a time, in any interleaving. When
each of them keeps to cells of its own, beside cells that no one writes, its share of the memory
is in the end what it leaves alone from the start, so that there is one end; and it is the
memory of running them one after the other.
-/
namespace LinEngine.Interleave

open Lambda

/-- A program over a shared memory, by its next access. -/
inductive Prog (A V : Type*)
  | done
  | read (a : A) (k : V → Prog A V)
  | write (a : A) (v : V) (k : Prog A V)

variable {A V ι : Type*} [DecidableEq A]

namespace Prog

/-- Run the program alone. -/
def run : Prog A V → (A → V) → A → V
  | done, m => m
  | read a k, m => (k (m a)).run m
  | write a v k, m => k.run (Function.update m a v)

/-- One access. -/
inductive Step : Prog A V × (A → V) → Prog A V × (A → V) → Prop
  | read {a : A} {k : V → Prog A V} {m : A → V} : Step (.read a k, m) (k (m a), m)
  | write {a : A} {v : V} {k : Prog A V} {m : A → V} : Step (.write a v k, m) (k, Function.update m a v)

/-- Alone from `m`, the program writes cells of `own` and reads cells of `own` and `shared`. -/
def Within (own shared : Set A) : Prog A V → (A → V) → Prop
  | done, _ => True
  | read a k, m => (a ∈ own ∨ a ∈ shared) ∧ Within own shared (k (m a)) m
  | write a v k, m => a ∈ own ∧ Within own shared k (Function.update m a v)

/-- At most `b` accesses, whatever is read. -/
inductive Short : ℕ → Prog A V → Prop
  | done {b : ℕ} : Short b done
  | read {b : ℕ} {a : A} {k : V → Prog A V} : (∀ v, Short b (k v)) → Short (b + 1) (.read a k)
  | write {b : ℕ} {a : A} {v : V} {k : Prog A V} : Short b k → Short (b + 1) (.write a v k)

omit [DecidableEq A] in
lemma Short.mono {b : ℕ} {p : Prog A V} (h : Short b p) : Short (b + 1) p := by
  induction h with
  | done => exact .done
  | read _ ih => exact .read ih
  | write _ ih => exact .write ih

section Local

variable {own shared : Set A} {p q : Prog A V} {m m' : A → V}

lemma Within.run_outside (h : p.Within own shared m) {a : A} (ha : a ∉ own) : p.run m a = m a := by
  induction p generalizing m with
  | done => rfl
  | read c k ih => exact ih _ h.2
  | write c v k ih =>
    have hne : a ≠ c := fun heq => ha (heq ▸ h.1)
    exact (ih h.2).trans (Function.update_of_ne hne _ _)

/-- The program sees only its own cells and the shared ones. -/
lemma Within.congr (h : p.Within own shared m) (heq : ∀ a, a ∈ own ∨ a ∈ shared → m a = m' a) :
    p.Within own shared m' ∧ ∀ a ∈ own, p.run m a = p.run m' a := by
  induction p generalizing m m' with
  | done => exact ⟨trivial, fun a ha => heq a (.inl ha)⟩
  | read c k ih =>
    obtain ⟨hc, hk⟩ := h
    obtain ⟨hin, hrun⟩ := ih _ hk heq
    rw [heq c hc] at hin hrun
    refine ⟨⟨hc, hin⟩, fun a ha => ?_⟩
    rw [run, run, heq c hc]
    exact hrun a ha
  | write c v k ih =>
    obtain ⟨hc, hk⟩ := h
    have hupd : ∀ a, a ∈ own ∨ a ∈ shared → Function.update m c v a = Function.update m' c v a := by
      intro a ha
      rcases eq_or_ne a c with rfl | hne
      · rw [Function.update_self, Function.update_self]
      · rw [Function.update_of_ne hne, Function.update_of_ne hne, heq a ha]
    obtain ⟨hin, hrun⟩ := ih hk hupd
    exact ⟨⟨hc, hin⟩, hrun⟩

/-- An access writes no cell of another, and leaves the rest of the program as it was. -/
lemma Step.spec (hstep : Step (p, m) (q, m')) (h : p.Within own shared m) :
    q.Within own shared m' ∧ q.run m' = p.run m ∧ ∀ a, a ∉ own → m' a = m a := by
  cases hstep with
  | read => exact ⟨h.2, rfl, fun _ _ => rfl⟩
  | @write c =>
    refine ⟨h.2, rfl, fun a ha => Function.update_of_ne ?_ _ _⟩
    rintro rfl
    exact ha h.1

lemma Step.short {b : ℕ} (hstep : Step (p, m) (q, m')) (h : Short b p) : ∃ b', b = b' + 1 ∧ Short b' q := by
  cases hstep with
  | read =>
    cases h with
    | read h => exact ⟨_, rfl, h _⟩
  | write =>
    cases h with
    | write h => exact ⟨_, rfl, h⟩

end Local

end Prog

/-! ## Any interleaving -/

section Run

/-- The programs that are left, and the memory. -/
abbrev Config (ι A V : Type*) := (ι → Prog A V) × (A → V)

/-- A configuration where no access is left. -/
def Finished (c : Config ι A V) : Prop := ∀ i, c.1 i = .done

/-- Some program takes its next access. -/
inductive Step [DecidableEq ι] : Config ι A V → Config ι A V → Prop
  | mk {ps : ι → Prog A V} {m m' : A → V} {q : Prog A V} (i : ι) :
      Prog.Step (ps i, m) (q, m') → Step (ps, m) (Function.update ps i q, m')

/-- No program shares a cell of its own, and no one owns a shared cell. -/
structure Partitioned (own : ι → Set A) (shared : Set A) : Prop where
  apart : ∀ {i j a}, a ∈ own i → a ∈ own j → i = j
  readonly : ∀ {i a}, a ∈ own i → a ∉ shared

/-- What is left to do leads each share of the memory to where its program leads it alone. -/
structure Underway (own : ι → Set A) (shared : Set A) (c₀ c : Config ι A V) : Prop where
  within : ∀ i, (c.1 i).Within (own i) shared c.2
  inside : ∀ i, ∀ a ∈ own i, (c.1 i).run c.2 a = (c₀.1 i).run c₀.2 a
  outside : ∀ a, (∀ i, a ∉ own i) → c.2 a = c₀.2 a

variable {own : ι → Set A} {shared : Set A} {c₀ c c' : Config ι A V}

lemma Underway.refl (h : ∀ i, (c.1 i).Within (own i) shared c.2) : Underway own shared c c :=
  ⟨h, fun _ _ _ => rfl, fun _ _ => rfl⟩

/-- In the end each share is what its program leaves alone. -/
lemma Underway.finished (h : Underway own shared c₀ c) (hf : Finished c) :
    (∀ i, ∀ a ∈ own i, c.2 a = (c₀.1 i).run c₀.2 a) ∧ ∀ a, (∀ i, a ∉ own i) → c.2 a = c₀.2 a := by
  refine ⟨fun i a ha => ?_, h.outside⟩
  have hrun := h.inside i a ha
  rw [hf i] at hrun
  exact hrun

variable [DecidableEq ι]

lemma Underway.step (hp : Partitioned own shared) (h : Underway own shared c₀ c) (hstep : Step c c') :
    Underway own shared c₀ c' := by
  obtain ⟨ps, m⟩ := c
  obtain @⟨_, _, m', q, i, haccess⟩ := hstep
  obtain ⟨hin, hrun, hframe⟩ := haccess.spec (h.within i)
  have hother : ∀ {j}, j ≠ i → ∀ a, a ∈ own j ∨ a ∈ shared → m a = m' a := fun hne a ha =>
    (hframe a fun hi => ha.elim (fun hj => hne (hp.apart hj hi)) (hp.readonly hi)).symm
  constructor
  · intro j
    rcases eq_or_ne j i with rfl | hne
    · simpa using hin
    · simpa [Function.update_of_ne hne] using ((h.within j).congr (hother hne)).1
  · intro j a ha
    rcases eq_or_ne j i with rfl | hne
    · simpa [hrun] using h.inside j a ha
    · have hsame := ((h.within j).congr (hother hne)).2 a ha
      simpa [Function.update_of_ne hne, ← hsame] using h.inside j a ha
  · intro a ha
    exact (hframe a (ha i)).trans (h.outside a ha)

theorem Underway.run {k : ℕ} (hp : Partitioned own shared) (h : Underway own shared c₀ c) (hrun : InSteps Step c k c') :
    Underway own shared c₀ c' := by
  induction hrun with
  | refl => exact h
  | tail _ hstep ih => exact ih.step hp hstep

lemma exists_step_of_not_finished (h : ¬ Finished c) : ∃ c', Step c c' := by
  obtain ⟨ps, m⟩ := c
  obtain ⟨i, hi⟩ := not_forall.mp h
  rcases hcase : ps i with _ | ⟨a, k⟩ | ⟨a, v, k⟩
  · exact absurd hcase hi
  · exact ⟨_, .mk i (by rw [hcase]; exact .read)⟩
  · exact ⟨_, .mk i (by rw [hcase]; exact .write)⟩

/-- Every interleaving is short. -/
theorem length_le [Fintype ι] {k b : ℕ} (h : ∀ i, Prog.Short b (c.1 i)) (hrun : InSteps Step c k c') :
    k ≤ Fintype.card ι * b := by
  suffices hleft : ∃ left : ι → ℕ, (∀ i, Prog.Short (left i) (c'.1 i)) ∧ k + ∑ i, left i = Fintype.card ι * b by
    obtain ⟨left, -, hsum⟩ := hleft
    omega
  induction hrun with
  | refl => exact ⟨fun _ => b, h, by simp⟩
  | tail _ hstep ih =>
    obtain ⟨left, hshort, hsum⟩ := ih
    obtain @⟨ps, m, m', q, i, haccess⟩ := hstep
    obtain ⟨b', hb', hq⟩ := haccess.short (hshort i)
    refine ⟨Function.update left i b', fun j => ?_, ?_⟩
    · rcases eq_or_ne j i with rfl | hne
      · simpa using hq
      · simpa [Function.update_of_ne hne] using hshort j
    · have hsplit := Finset.add_sum_erase Finset.univ left (Finset.mem_univ i)
      have hupdate := Finset.sum_update_of_mem (Finset.mem_univ i) left b'
      rw [← Finset.sdiff_singleton_eq_erase] at hsplit
      omega

end Run

/-! ## One after the other -/

section Serial

variable {own : ι → Set A} {shared : Set A} {ps : ι → Prog A V}

/-- Run the programs of the list, each to its end. -/
def serial (ps : ι → Prog A V) (l : List ι) (m : A → V) : A → V := l.foldl (fun m i => (ps i).run m) m

lemma serial_cons (i : ι) (l : List ι) (m : A → V) : serial ps (i :: l) m = serial ps l ((ps i).run m) := rfl

lemma serial_spec (hp : Partitioned own shared) {l : List ι} (hl : l.Nodup) {m : A → V}
    (h : ∀ i ∈ l, (ps i).Within (own i) shared m) :
    (∀ i ∈ l, ∀ a ∈ own i, serial ps l m a = (ps i).run m a) ∧
      ∀ a, (∀ i ∈ l, a ∉ own i) → serial ps l m a = m a := by
  induction l generalizing m with
  | nil => exact ⟨fun i hi => absurd hi List.not_mem_nil, fun _ _ => rfl⟩
  | cons i l ih =>
    obtain ⟨hi, hl⟩ := List.nodup_cons.mp hl
    have hself := h i (List.mem_cons_self ..)
    have hsame : ∀ j ∈ l, ∀ a, a ∈ own j ∨ a ∈ shared → m a = (ps i).run m a := by
      intro j hj a ha
      refine (hself.run_outside fun hown => ?_).symm
      rcases ha with ha | ha
      · exact hi (hp.apart hown ha ▸ hj)
      · exact hp.readonly hown ha
    have hrest : ∀ j ∈ l, (ps j).Within (own j) shared m := fun j hj => h j (List.mem_cons_of_mem i hj)
    obtain ⟨hin, hout⟩ := ih hl fun j hj => ((hrest j hj).congr (hsame j hj)).1
    refine ⟨fun j hj a ha => ?_, fun a ha => ?_⟩
    · rcases List.mem_cons.mp hj with rfl | hj
      · exact hout a fun j' hj' hown => hi (hp.apart ha hown ▸ hj')
      · exact (hin j hj a ha).trans (((hrest j hj).congr (hsame j hj)).2 a ha).symm
    · have hskip := hself.run_outside (ha i (List.mem_cons_self ..))
      exact (hout a fun j hj => ha j (List.mem_cons_of_mem i hj)).trans hskip

/-- Every interleaving ends in the memory of running the programs one after the other, in any order. -/
theorem finished_eq_serial [DecidableEq ι] (hp : Partitioned own shared) {m : A → V}
    (h : ∀ i, (ps i).Within (own i) shared m) {l : List ι} (hl : l.Nodup) (hall : ∀ i, i ∈ l) {k : ℕ}
    {c : Config ι A V} (hrun : InSteps Step (ps, m) k c) (hf : Finished c) : c.2 = serial ps l m := by
  obtain ⟨hin, hout⟩ := ((Underway.refl (c := (ps, m)) h).run hp hrun).finished hf
  obtain ⟨hin', hout'⟩ := serial_spec hp hl fun i _ => h i
  funext a
  by_cases ha : ∃ i, a ∈ own i
  · obtain ⟨i, hi⟩ := ha
    exact (hin i a hi).trans (hin' i (hall i) a hi).symm
  · have hno : ∀ i, a ∉ own i := fun i hi => ha ⟨i, hi⟩
    exact (hout a hno).trans (hout' a fun i _ => hno i).symm

end Serial

end LinEngine.Interleave
