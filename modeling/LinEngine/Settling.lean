import LinEngine.Unified

/-!
# Unification and generalisation end

Every binding takes a variable away, and between two bindings unification descends in
an acyclic heap; so on plain heaps it ends, and with it what inference is made of.
-/
namespace LinEngine

open Relation

/-- With enough fuel the program returns into `Q`, or it stops for another reason and `E` holds. -/
def Settling {α : Type} (m : ℕ → TM α) (s : TypeState) (Q : α → TypeState → Prop) (E : Prop) : Prop :=
  Ends Stop.fuel m s (fun a s' => Clean s' ∧ Q a s') fun _ _ => E

namespace Settling

variable {α β : Type} {s : TypeState} {Q : α → TypeState → Prop} {E : Prop}

lemma pure {a : α} (hs : Clean s) (hQ : Q a s) : Settling (fun _ => pure a) s Q E := Ends.pure ⟨hs, hQ⟩

lemma throw {e : Stop} (he : e ≠ .fuel) (h : E) : Settling (fun _ => (throw e : TM α)) s Q E :=
  Ends.throw he h

lemma bind {m : ℕ → TM β} {f : ℕ → β → TM α} {R : β → TypeState → Prop} (hm : Settling m s R E)
    (hf : ∀ b s', Clean s' → R b s' → Settling (fun d => f d b) s' Q E) :
    Settling (fun d => m d >>= f d) s Q E :=
  Ends.bind hm fun b s' ⟨hs, hR⟩ => hf b s' hs hR

lemma mono {m : ℕ → TM α} {R : α → TypeState → Prop} {E' : Prop} (hm : Settling m s R E')
    (h : ∀ a s', Clean s' → R a s' → Q a s') (hE : E' → E) : Settling m s Q E :=
  Ends.mono hm (fun a s' ⟨hs, hR⟩ => ⟨hs, h a s' hs hR⟩) fun _ _ h => hE h

/-- Only what happens when the program stops is weakened. -/
lemma orElse {m : ℕ → TM α} {E' : Prop} (hm : Settling m s Q E') (hE : E' → E) : Settling m s Q E :=
  hm.mono (fun _ _ _ h => h) hE

lemma cellAt {a : ℕ} {f : ℕ → Cell → TM α} (h : Settling (fun d => f d (s.heap.cell a)) s Q E) :
    Settling (fun d => cellAt a >>= f d) s Q E := Ends.step rfl h

lemma get {f : ℕ → TypeState → TM α} (h : Settling (fun d => f d s) s Q E) :
    Settling (fun d => get >>= f d) s Q E := Ends.step rfl h

lemma envPush {x : String} {sch : Scheme} {f : ℕ → Unit → TM α}
    (h : Settling (fun d => f d ()) { s with env := (x, sch) :: s.env } Q E) :
    Settling (fun d => envPush x sch >>= f d) s Q E := Ends.step rfl h

lemma envPop {f : ℕ → Unit → TM α} (h : Settling (fun d => f d ()) { s with env := s.env.tail } Q E) :
    Settling (fun d => envPop >>= f d) s Q E := Ends.step rfl h

/-- A program that ends, and all of whose runs are as `Q` says. -/
lemma ofSolving {m : ℕ → TM α} {R : α → TypeState → Prop} {F : Stop → TypeState → Prop}
    (hm : Ends Stop.fuel m s R F) (h : ∀ d, Solving (m d) s Q E) : Settling m s Q E :=
  (hm.and_wp h).mono (fun _ _ h => h.2) fun _ _ h => h.2

/-- A program that needs no fuel. -/
lemma const {m : TM α} (hm : ∃ a s', m s = .ok a s') (h : Solving m s Q E) : Settling (fun _ => m) s Q E := by
  obtain ⟨a, s', ha⟩ := hm
  refine ofSolving (R := fun _ _ => True) (F := fun _ _ => True) ⟨_, ⟨0, fun _ _ => ha⟩, trivial⟩ fun _ => h

/-- A walker ends. -/
lemma ofWalker {m : ℕ → TM α} {Q' : α → TypeState → Prop} {d₀ : ℕ}
    (hle : ∀ d, StopLe (m d) (m (d + 1))) (hw : Walking (m d₀) s Q') (h : ∀ d, Solving (m d) s Q E) :
    Settling m s Q E :=
  ofSolving (Ends.of_wp (E := fun _ _ => False) hle (wp_mono hw (fun _ _ h => h) fun _ _ h => h.elim)) h

lemma find {t : ℕ} (hs : Clean s) (ht : t < s.heap.size) :
    Settling (LinEngine.find · t) s (fun r s' => Rest s s' ∧ Found s.heap t r s'.heap) E :=
  ofWalker (find_le · t) (Walking.find hs.tame ht (Nat.lt_succ_self _)) fun _ =>
    (Solving.find hs ht).mono (fun _ _ _ h => h) False.elim

lemma occurs {v t : ℕ} (hs : Clean s) (ht : t < s.heap.size) (hv : ∀ y, s.heap.cell v ≠ .link y) :
    Settling (LinEngine.occurs v · t) s (fun r s' => Rest s s' ∧ Looked s.heap v t r s'.heap) E :=
  ofWalker (occurs_le v · t) (Walking.occurs hs.tame ht le_rfl) fun _ =>
    (Solving.occurs hs ht hv).mono (fun _ _ _ h => h) False.elim

lemma tvar (hs : Clean s) : Settling (fun _ => LinEngine.tvar) s (NewVar s) E :=
  const ⟨_, _, rfl⟩ ((Solving.tvar hs).mono (fun _ _ _ h => h) False.elim)

lemma newArrow {a b : ℕ} (hs : Clean s) (ha : a < s.heap.size) (hb : b < s.heap.size) :
    Settling (fun _ => newCell (.arrow a b)) s (fun c s' => c = s.heap.size ∧
      s'.heap = s.heap.push (.arrow a b) ∧ Rest s s') E :=
  const ⟨_, _, rfl⟩ ((Solving.newArrow hs ha hb).mono (fun _ _ _ h => h) False.elim)

lemma fv {t : ℕ} {f : List ℕ} (hs : Clean s) (ht : t < s.heap.size) :
    Settling (LinEngine.fv · t f) s (fun f' s' => Rest s s' ∧ s.heap.Halvings s'.heap ∧
      ∀ id, id ∈ f' ↔ id ∈ f ∨ s.heap.VarOf t id) E :=
  ofWalker (fv_le · t f) (Walking.fv hs.tame ht le_rfl) fun _ =>
    (Solving.fv hs ht).mono (fun _ _ _ h => h) False.elim

end Settling

/-! ## Unification ends -/

namespace Heap

open Classical in
/-- The variables of a heap. -/
noncomputable def tvrs (h : Heap) : Finset ℕ :=
  (Finset.range h.size).filter fun v => ∃ id, h.cell v = .tvr id

lemma mem_tvrs {h : Heap} {v : ℕ} : v ∈ h.tvrs ↔ ∃ id, h.cell v = .tvr id := by
  classical
  rw [tvrs, Finset.mem_filter, Finset.mem_range]
  exact and_iff_right_of_imp fun ⟨_, hid⟩ => lt_of_tvr hid

/-- What unification does: it halves paths only, or takes a variable away. -/
structure Fewer (h h' : Heap) : Prop where
  size : h'.size = h.size
  tvrs : h'.tvrs ⊆ h.tvrs
  step : h.Halvings h' ∨ h'.tvrs.card < h.tvrs.card

lemma Halvings.tvrs {h h' : Heap} (hh : h.Halvings h') : h'.tvrs = h.tvrs := by
  ext v
  simp only [mem_tvrs, hh.tvr_iff]

lemma Halvings.fewer {h h' : Heap} (hh : h.Halvings h') : Fewer h h' :=
  ⟨hh.halved.size, hh.tvrs.le, Or.inl hh⟩

lemma Fewer.trans {h h' h'' : Heap} (h₁ : Fewer h h') (h₂ : Fewer h' h'') : Fewer h h'' := by
  refine ⟨h₂.size.trans h₁.size, h₂.tvrs.trans h₁.tvrs, ?_⟩
  have hle₁ := Finset.card_le_card h₁.tvrs
  have hle₂ := Finset.card_le_card h₂.tvrs
  rcases h₁.step with hh₁ | hlt₁
  · exact h₂.step.imp (fun hh₂ => hh₁.trans hh₂) fun hlt₂ => by omega
  · exact Or.inr (by omega)

/-- A bound on the calls of unification, in which a variable outweighs all ranks. -/
noncomputable def work (h : Heap) (x y : ℕ) : ℕ :=
  h.tvrs.card * (2 * h.size + 1) + h.rank x + h.rank y

/-- Less work is left where a variable has gone, or lower down. -/
lemma Fewer.work_lt {h h' : Heap} {x y a b : ℕ} (hc : h.Closed) (hf : Fewer h h')
    (ha : a < h.size) (hb : b < h.size) (hax : h.rank a < h.rank x) (hby : h.rank b < h.rank y) :
    h'.work a b < h.work x y := by
  unfold work
  rw [hf.size]
  rcases hf.step with hh | hlt
  · have h1 := (hh.tamer hc).rank_le hc ha
    have h2 := (hh.tamer hc).rank_le hc hb
    rw [hh.tvrs]
    omega
  · have h1 : h'.rank a ≤ h.size := hf.size ▸ rank_le_size
    have h2 : h'.rank b ≤ h.size := hf.size ▸ rank_le_size
    have h3 : (h'.tvrs.card + 1) * (2 * h.size + 1) ≤ h.tvrs.card * (2 * h.size + 1) :=
      Nat.mul_le_mul_right _ hlt
    rw [Nat.add_mul] at h3
    omega

lemma rank_le_of_links {h : Heap} {t r : ℕ} (hp : h.Plain)
    (hl : ReflTransGen (fun a b => h.cell a = .link b) t r) : h.rank r ≤ h.rank t := by
  induction hl with
  | refl => exact le_rfl
  | tail _ hbc ih =>
    refine (rank_lt_of_edge hp.closed hp.acyclic ?_).le.trans ih
    simp [Edge, hbc, Cell.kids]

end Heap

section Unify

variable {s : TypeState} {x y : ℕ}

lemma Heap.fewer_bind {h : Heap} {v t id : ℕ} (hv : h.cell v = .tvr id) :
    Heap.Fewer h (h.write v (.link t)) := by
  have hself : ∀ i, (h.write v (.link t)).cell v ≠ .tvr i := by
    intro i
    simp [Heap.cell_write_self (Heap.lt_of_tvr hv)]
  have hsub : (h.write v (.link t)).tvrs ⊆ h.tvrs := by
    intro w hw
    obtain ⟨i, hi⟩ := Heap.mem_tvrs.mp hw
    have hne : w ≠ v := fun h => hself i (h ▸ hi)
    exact Heap.mem_tvrs.mpr ⟨i, by rwa [Heap.cell_write_ne hne] at hi⟩
  refine ⟨Heap.size_write, hsub, Or.inr (Finset.card_lt_card ⟨hsub, fun hle => ?_⟩)⟩
  obtain ⟨i, hi⟩ := Heap.mem_tvrs.mp (hle (Heap.mem_tvrs.mpr ⟨id, hv⟩))
  exact hself i hi

lemma Ends.bindChecked {v t id : ℕ} (hs : Clean s) (hv : s.heap.cell v = .tvr id) (ht : t < s.heap.size) :
    Ends Stop.fuel (bindChecked · v t) s (fun _ s' => Clean s' ∧ Heap.Fewer s.heap s'.heap)
      fun _ _ => True := by
  have hends : Ends Stop.fuel (LinEngine.bindChecked · v t) s (fun _ s' => Heap.Fewer s.heap s'.heap)
      fun _ _ => True := by
    refine Ends.bind (Settling.occurs (E := True) hs ht (by simp [hv])) fun r s₁ ⟨_, _, hl⟩ => ?_
    cases r with
    | true => exact .throw (by simp) trivial
    | false =>
      refine .of_wp (fun _ => .refl _) (d := 0) ?_
      exact hl.1.fewer.trans (Heap.fewer_bind (hl.1.tvr_iff.mpr hv))
  exact (hends.and_wp fun d => Solving.bindChecked hs hv ht).mono (fun _ _ h => ⟨h.2.1, h.1⟩) fun _ _ _ => trivial

lemma Ends.unify (hs : Clean s) (hx : x < s.heap.size) (hy : y < s.heap.size) :
    Ends Stop.fuel (unify · x y) s (fun _ s' => Clean s' ∧ Heap.Fewer s.heap s'.heap) fun _ _ => True := by
  induction hn : s.heap.work x y using Nat.strong_induction_on generalizing s x y with
  | _ n ih =>
    subst hn
    refine .succ (Ends.bind (Settling.find (E := True) hs hx) fun u s₁ ⟨hs₁, _, hu⟩ => ?_)
    have hy₁ : y < s₁.heap.size := hu.halved.size ▸ hy
    refine Ends.bind (Settling.find (E := True) hs₁ hy₁) fun w s₂ ⟨hs₂, _, hw⟩ => ?_
    have hh : s.heap.Halvings s₂.heap := hu.halvings.trans hw.halvings
    have hult : u < s₂.heap.size := by
      rw [hw.halved.size]
      exact hu.lt
    have hur : (∃ id, s₂.heap.cell u = .tvr id) ∨ ∃ b c, s₂.heap.cell u = .arrow b c := by
      rcases hu.root hs.plain with ⟨id, hid⟩ | ⟨b, c, hbc⟩
      · exact Or.inl ⟨id, hw.halvings.tvr_iff.mpr hid⟩
      · exact Or.inr ⟨b, c, by rw [hw.halved.cell u hu.notLink, hbc]⟩
    split_ifs with huw
    · exact .pure ⟨hs₂, hh.fewer⟩
    refine .step (z := s₂) rfl (.step (z := s₂) rfl ?_)
    have hvar : ∀ a b id, s₂.heap.cell a = .tvr id → b < s₂.heap.size →
        Ends Stop.fuel (fun d => LinEngine.bindChecked d a b) s₂
          (fun _ s' => Clean s' ∧ Heap.Fewer s.heap s'.heap) fun _ _ => True := fun a b id ha hb =>
      (Ends.bindChecked hs₂ ha hb).mono (fun _ _ h => ⟨h.1, hh.fewer.trans h.2⟩) fun _ _ h => h
    rcases hur with ⟨i, hcu⟩ | ⟨a, b, hcu⟩
    · have hb := hvar u w i hcu hw.lt
      rcases hw.root hs₁.plain with ⟨j, hcw⟩ | ⟨a', b', hcw⟩
      · simpa only [hcu, hcw] using hb
      · simpa only [hcu, hcw] using hb
    · rcases hw.root hs₁.plain with ⟨j, hcw⟩ | ⟨a', b', hcw⟩
      · have hb := hvar w u j hcw hult
        simpa only [hcu, hcw] using hb
      · simp only [hcu, hcw]
        -- the parts of the two arrows are lower down, in the first heap and since
        have hbelow : ∀ k k', s₂.heap.Edge u k → s₂.heap.Edge w k' → ∀ s', Clean s' → Heap.Fewer s₂.heap s'.heap →
            Ends Stop.fuel (fun d => LinEngine.unify d k k') s'
              (fun _ s'' => Clean s'' ∧ Heap.Fewer s'.heap s''.heap) fun _ _ => True := by
          intro k k' hk hk' s' hs' hf
          have hklt := hs₂.plain.closed u k hk
          have hklt' := hs₂.plain.closed w k' hk'
          have hru := (hh.tamer hs.plain.closed).rank_le hs.plain.closed (a := u) (hh.halved.size ▸ hult)
          have hrw := (hw.halvings.tamer hs₁.plain.closed).rank_le hs₁.plain.closed (a := w)
            (hw.halved.size ▸ hw.lt)
          have hry := (hu.halvings.tamer hs.plain.closed).rank_le hs.plain.closed hy
          refine ih _ ?_ hs' (hf.size ▸ hklt) (hf.size ▸ hklt') rfl
          refine (hf.work_lt hs₂.plain.closed hklt hklt' (Heap.rank_lt_of_edge hs₂.plain.closed hs₂.plain.acyclic hk)
            (Heap.rank_lt_of_edge hs₂.plain.closed hs₂.plain.acyclic hk')).trans_le ?_
          have hux := Heap.rank_le_of_links hs.plain hu.links
          have hwy := Heap.rank_le_of_links hs₁.plain hw.links
          unfold Heap.work
          rw [hh.tvrs, hh.halved.size]
          omega
        have hku : ∀ k, k = a ∨ k = b → s₂.heap.Edge u k := fun k hk => by simpa [Heap.Edge, hcu, Cell.kids]
        have hkw : ∀ k, k = a' ∨ k = b' → s₂.heap.Edge w k := fun k hk => by simpa [Heap.Edge, hcw, Cell.kids]
        refine Ends.bind (hbelow a a' (hku a (Or.inl rfl)) (hkw a' (Or.inl rfl)) s₂ hs₂ (Heap.Halvings.fewer .refl))
          fun _ s₃ h₃ => ?_
        obtain ⟨hs₃, hf₃⟩ := h₃
        exact (hbelow b b' (hku b (Or.inr rfl)) (hkw b' (Or.inr rfl)) s₃ hs₃ hf₃).mono
          (fun _ s₄ h₄ => ⟨h₄.1, hh.fewer.trans (hf₃.trans h₄.2)⟩) fun _ _ h => h

theorem Settling.unify (hs : Clean s) (hx : x < s.heap.size) (hy : y < s.heap.size) :
    Settling (unify · x y) s (fun _ s' => Rest s s' ∧ Unified s.heap x y s'.heap) (Clash s.heap x y) :=
  .ofSolving (Ends.unify hs hx hy) fun _ => .unify hs hx hy

end Unify

/-! ## Generalisation and instances end -/

section Schemes

variable {s : TypeState} {E : Prop}

lemma Ends.envVars {es : List (String × Scheme)} {dyn : List ℕ} (hs : Clean s)
    (hes : ∀ e ∈ es, e.2.t < s.heap.size) :
    Ends Stop.fuel (envVars · es dyn) s (fun _ s' => Clean s' ∧ s.heap.Halvings s'.heap) fun _ _ => True := by
  induction es generalizing s dyn with
  | nil => exact .pure ⟨hs, .refl⟩
  | cons e es ih =>
    obtain ⟨he, hes⟩ := List.forall_mem_cons.mp hes
    have hrest : ∀ s₁ dyn₁, Clean s₁ → s.heap.Halvings s₁.heap →
        Ends Stop.fuel (fun d => LinEngine.envVars d es dyn₁) s₁
          (fun _ s' => Clean s' ∧ s.heap.Halvings s'.heap) fun _ _ => True := fun s₁ dyn₁ hs₁ hh =>
      (ih hs₁ fun e h => hh.halved.size ▸ hes e h).mono (fun _ _ h => ⟨h.1, hh.trans h.2⟩) fun _ _ h => h
    refine Ends.bind (Settling.find (E := True) hs he) fun u s₁ ⟨hs₁, _, hu⟩ => .step (z := s₁) rfl ?_
    cases hc : s₁.heap.cell u with
    | tvr id => exact hrest s₁ _ hs₁ hu.halvings
    | _ =>
      refine Ends.bind (Settling.fv (E := True) hs₁ (hu.halved.size ▸ he)) fun dyn₁ s₂ ⟨hs₂, _, hh, _⟩ => ?_
      exact hrest s₂ dyn₁ hs₂ (hu.halvings.trans hh)

theorem Settling.generalize {t : ℕ} (hs : Clean s) (ht : t < s.heap.size) (hrc : ∀ id, s.envrc.get id = 0) :
    Settling (generalize · t) s (fun sch s' => Rest s s' ∧ s.heap.Halvings s'.heap ∧ Generalized s t sch) E := by
  refine .ofSolving (R := fun _ _ => True) (F := fun _ _ => True) ?_ fun d =>
    (Solving.generalize hs ht hrc).mono (fun _ _ _ h => h) False.elim
  refine Ends.bind (Settling.fv (E := True) hs ht) fun f s₁ ⟨hs₁, _⟩ => .step (z := s₁) rfl ?_
  refine Ends.bind (Ends.envVars hs₁ fun e he => hs₁.tracked.env e (List.mem_reverse.mp he))
    fun dyn s₂ _ => .step (z := s₂) rfl (.pure trivial)

lemma Ends.freshVars {ids : List ℕ} :
    Ends Stop.fuel (fun _ => freshVars ids) s (fun _ _ => True) fun _ _ => True := by
  induction ids generalizing s with
  | nil => exact .pure trivial
  | cons id ids ih => exact .step rfl (Ends.bind ih fun _ _ _ => .pure trivial)

lemma Settling.freshVars {ids : List ℕ} (hs : Clean s) :
    Settling (fun _ => freshVars ids) s (fun m s' => Freshened s ids m s' ∧ ∀ e ∈ m, e.2 < s'.heap.size) E := by
  refine .ofSolving Ends.freshVars fun _ => ?_
  have hk : Keeping (LinEngine.freshVars ids) s _ := .freshVars hs.tracked
  exact wp_mono (wp_and (Solving.freshVars hs) hk) (fun m s' h => ⟨h.1.1, h.1.2, h.2.2.2⟩)
    fun _ _ h he => (h.1 he).elim

lemma Settling.instRec {m : List (ℕ × ℕ)} {t : ℕ} (hs : Clean s) (ht : t < s.heap.size)
    (hlt : ∀ e ∈ m, e.2 < s.heap.size) (hm : ∀ i w, m.lookup i = some w → ∃ j, s.heap.cell w = .tvr j) :
    Settling (instRec m · t) s (Copied s m t) E :=
  .ofWalker (instRec_le m · t) (Walking.instRec hs.tame ht hlt le_rfl) fun _ =>
    (Solving.instRec hs ht hm).mono (fun _ _ _ h => h) False.elim

/-- A check returns the message it stopped with. -/
lemma Ends.guarded {m : ℕ → TM Scheme} {Q : Scheme → TypeState → Prop} (h : Ends Stop.fuel m s Q fun _ _ => E) :
    Ends Stop.fuel (fun d => guarded (m d)) s
      (fun r s' => (∀ sch, r = .ok sch → Q sch s') ∧ ∀ msg, r = .error msg → E) fun _ _ => E := by
  refine .tryCatch (Q := fun r s' => ∃ sch, r = .ok sch ∧ Q sch s') (E := fun _ _ => E) ?_ ?_ ?_
  · exact Ends.bind h fun sch s' hQ => .pure ⟨sch, rfl, hQ⟩
  · rintro _ s' ⟨sch, rfl, hQ⟩
    exact ⟨fun _ he => Except.ok.inj he ▸ hQ, fun _ he => (by cases he)⟩
  · intro e s' he hE
    cases e with
    | error msg => exact ⟨fun _ he => (by cases he), fun _ _ => hE⟩
    | _ => exact ⟨he, hE⟩

end Schemes

end LinEngine
