import LinEngine.Types
import LinEngine.Wp

/-!
# Acyclic runs of type inference

Every heap of a run is acyclic exactly when no variable was bound to a nominal it
occurs in: new cells refer to old ones, halving only shortens paths, and every other
binding follows a successful occurs check. On an acyclic heap the walkers end.
-/
namespace LinEngine

open Relation

/-- The heaps a run has had, the present one first. -/
def TypeState.heaps (s : TypeState) : List Heap := s.heap :: s.past

/-- The variable does not occur in the nominal it is bound to. -/
def Binding.Avoids (b : Binding) : Prop := ¬ b.heap.Reaches b.type b.var

/-- References lead to cells, and the record of the run is right about cycles. -/
structure Tracked (s : TypeState) : Prop where
  closed : ∀ h ∈ s.heaps, h.Closed
  env : ∀ e ∈ s.env, e.2.t < s.heap.size
  defs : ∀ e ∈ s.prog.defs, ∀ sch ∈ e.sch, sch.t < s.heap.size
  acyclic : (∀ b ∈ s.bound, b.Avoids) → ∀ h ∈ s.heaps, Acyclic h.Edge
  bound : ∀ b ∈ s.bound, b.var < b.heap.size ∧ (b.heap.cell b.var).kids = [] ∧
    b.heap.write b.var (.link b.type) ∈ s.heaps

section Record

variable {s : TypeState} {h : Heap}

lemma Tracked.now (hg : Tracked s) : s.heap.Closed := hg.closed _ List.mem_cons_self

/-- A write that closes no cycle. -/
lemma Tracked.write (hg : Tracked s) (hc : h.Closed) (hs : s.heap.size ≤ h.size)
    (ha : Acyclic s.heap.Edge → Acyclic h.Edge) :
    Tracked { s with heap := h, past := s.heap :: s.past } where
  closed := List.forall_mem_cons.mpr ⟨hc, hg.closed⟩
  env := fun e he => (hg.env e he).trans_le hs
  defs := fun e he sch hsch => (hg.defs e he sch hsch).trans_le hs
  acyclic := fun hb => List.forall_mem_cons.mpr
    ⟨ha (hg.acyclic hb _ List.mem_cons_self), hg.acyclic hb⟩
  bound := fun b hb => ⟨(hg.bound b hb).1, (hg.bound b hb).2.1, List.mem_cons_of_mem _ (hg.bound b hb).2.2⟩

/-- A binding to a nominal, recorded as such. -/
lemma Tracked.bindNominal (hg : Tracked s) {v t : ℕ} (hv : v < s.heap.size)
    (hk : (s.heap.cell v).kids = []) (ht : t < s.heap.size) :
    Tracked { s with
      heap := s.heap.write v (.link t), past := s.heap :: s.past,
      bound := ⟨s.heap, v, t⟩ :: s.bound } where
  closed := List.forall_mem_cons.mpr ⟨hg.now.bind hk ht, hg.closed⟩
  env := fun e he => by simpa using hg.env e he
  defs := fun e he sch hsch => by simpa using hg.defs e he sch hsch
  acyclic := fun hb => by
    obtain ⟨hnew, hold⟩ := List.forall_mem_cons.mp hb
    have hold := hg.acyclic hold
    exact List.forall_mem_cons.mpr ⟨Heap.acyclic_bind hk hnew (hold _ List.mem_cons_self), hold⟩
  bound := List.forall_mem_cons.mpr ⟨⟨hv, hk, List.mem_cons_self⟩, fun b hb =>
    ⟨(hg.bound b hb).1, (hg.bound b hb).2.1, List.mem_cons_of_mem _ (hg.bound b hb).2.2⟩⟩

end Record

/-! ## Runs that keep the invariant -/

/-- From `s` the program keeps the invariant and the cells, and a value it returns satisfies `Q`. -/
def Keeping {α : Type} (m : TM α) (s : TypeState) (Q : α → TypeState → Prop) : Prop :=
  wp m (fun a s' => Tracked s' ∧ s.heap.size ≤ s'.heap.size ∧ Q a s')
    (fun _ s' => Tracked s' ∧ s.heap.size ≤ s'.heap.size) s

section Keeping

variable {α β : Type} {s : TypeState} {Q : α → TypeState → Prop}

lemma Keeping.pure {a : α} (hg : Tracked s) (hQ : Q a s) : Keeping (pure a) s Q := ⟨hg, le_rfl, hQ⟩

lemma Keeping.throw {e : Stop} (hg : Tracked s) : Keeping (throw e : TM α) s Q := ⟨hg, le_rfl⟩

lemma Keeping.bind {m : TM β} {f : β → TM α} {R : β → TypeState → Prop} (hm : Keeping m s R)
    (hf : ∀ b s', Tracked s' → s.heap.size ≤ s'.heap.size → R b s' → Keeping (f b) s' Q) :
    Keeping (m >>= f) s Q := by
  rw [Keeping, wp_bind]
  refine wp_mono hm (fun b s' ⟨hg, hle, hR⟩ => ?_) fun _ _ h => h
  exact wp_mono (hf b s' hg hle hR) (fun a s'' h => ⟨h.1, hle.trans h.2.1, h.2.2⟩)
    fun _ s'' h => ⟨h.1, hle.trans h.2⟩

lemma Keeping.mono {m : TM α} {R : α → TypeState → Prop} (hm : Keeping m s R)
    (h : ∀ a s', Tracked s' → s.heap.size ≤ s'.heap.size → R a s' → Q a s') : Keeping m s Q :=
  wp_mono hm (fun a s' ⟨hg, hle, hR⟩ => ⟨hg, hle, h a s' hg hle hR⟩) fun _ _ h => h

lemma Keeping.cellAt {a : ℕ} {f : Cell → TM α} (h : Keeping (f (s.heap.cell a)) s Q) :
    Keeping (cellAt a >>= f) s Q := h

lemma Keeping.get {f : TypeState → TM α} (h : Keeping (f s) s Q) : Keeping (get >>= f) s Q := h

/-- A change of the state outside the heap and its record. -/
lemma Keeping.modify {g : TypeState → TypeState} {f : PUnit → TM α}
    (hsize : (g s).heap.size = s.heap.size) (h : Keeping (f ()) (g s) Q) :
    Keeping (modify g >>= f) s Q := by
  have h : wp (f ()) _ _ (g s) := h
  rw [hsize] at h
  exact h

end Keeping

/-! ## The walkers and the writes -/

/-- What halving leaves as it was. -/
structure Halved (h h' : Heap) : Prop where
  size : h'.size = h.size
  cell : ∀ x, (∀ y, h.cell x ≠ .link y) → h'.cell x = h.cell x
  link : ∀ x y, h.cell x = .link y → ∃ z, h'.cell x = .link z
  reaches : ∀ x y, (∀ z, h.cell y ≠ .link z) → (h'.Reaches x y ↔ h.Reaches x y)

lemma Halved.refl (h : Heap) : Halved h h :=
  ⟨rfl, fun _ _ => rfl, fun _ y hy => ⟨y, hy⟩, fun _ _ _ => Iff.rfl⟩

lemma Halved.trans {h h' h'' : Heap} (h₁ : Halved h h') (h₂ : Halved h' h'') : Halved h h'' := by
  have hstay : ∀ x, (∀ y, h.cell x ≠ .link y) → ∀ y, h'.cell x ≠ .link y := fun x hx y => by
    rw [h₁.cell x hx]
    exact hx y
  refine ⟨h₂.size.trans h₁.size, fun x hx => (h₂.cell x (hstay x hx)).trans (h₁.cell x hx),
    fun x y hy => ?_, fun x y hy => (h₂.reaches x y (hstay y hy)).trans (h₁.reaches x y hy)⟩
  obtain ⟨z, hz⟩ := h₁.link x y hy
  exact h₂.link x z hz

lemma Halved.was {h h' : Heap} (hh : Halved h h') {x : ℕ} (hx : ∀ y, h'.cell x ≠ .link y) (y : ℕ) :
    h.cell x ≠ .link y := by
  intro hy
  obtain ⟨z, hz⟩ := hh.link x y hy
  exact hx z hz

lemma Heap.Halves.links_of {h h' : Heap} {t b x y : ℕ} (hh : h.Halves t b h')
    (hxy : ReflTransGen (fun a b => h'.cell a = .link b) x y) :
    ReflTransGen (fun a b => h.cell a = .link b) x y := by
  induction hxy with
  | refl => exact .refl
  | tail _ hstep ih => exact ih.trans (hh.links hstep)

lemma Heap.Halves.halved {h h' : Heap} {t b : ℕ} (hh : h.Halves t b h') : Halved h h' :=
  ⟨by rw [hh.after, Heap.size_write], fun _ hx => hh.cell_eq hx, fun _ _ hx => hh.isLink hx,
    fun _ _ hy => hh.reaches hy⟩

lemma Heap.Halvings.halved {h h' : Heap} (hh : h.Halvings h') : Halved h h' := by
  induction hh with
  | refl => exact .refl _
  | tail _ hstep ih =>
    obtain ⟨t, b, hstep⟩ := hstep
    exact ih.trans hstep.halved

section Walkers

variable {α : Type} {s : TypeState} {Q : α → TypeState → Prop}

lemma Keeping.relink {t a : ℕ} {f : PUnit → TM α}
    (h : Keeping (f ()) { s with heap := s.heap.write t (.link a), past := s.heap :: s.past } Q) :
    Keeping (relink t a >>= f) s Q := by
  unfold Keeping at h
  rw [Heap.size_write] at h
  exact h


/-- The end of the links: a cell in place of which nothing was put. -/
structure Found (h : Heap) (t r : ℕ) (h' : Heap) : Prop where
  halvings : h.Halvings h'
  lt : r < h'.size
  notLink : ∀ y, h'.cell r ≠ .link y
  links : ReflTransGen (fun a b => h.cell a = .link b) t r
  reaches : ∀ v, (∀ y, h.cell v ≠ .link y) → (h.Reaches t v ↔ h.Reaches r v)

lemma Found.halved {h h' : Heap} {t r : ℕ} (hf : Found h t r h') : Halved h h' := hf.halvings.halved

lemma Heap.reaches_link {h : Heap} {t a v : ℕ} (ht : h.cell t = .link a)
    (hv : ∀ y, h.cell v ≠ .link y) : h.Reaches t v ↔ h.Reaches a v := by
  have hedge : ∀ c, h.Edge t c ↔ c = a := by simp [Heap.Edge, ht, Cell.kids]
  refine ⟨fun h => ?_, fun h => .head ((hedge a).mpr rfl) h⟩
  rcases h.cases_head with rfl | ⟨c, htc, hcv⟩
  · exact absurd ht (hv a)
  · exact (hedge c).mp htc ▸ hcv

lemma Keeping.find {d t : ℕ} (hg : Tracked s) (ht : t < s.heap.size) :
    Keeping (find d t) s fun r s' => Found s.heap t r s'.heap := by
  induction d generalizing s t with
  | zero => exact .throw hg
  | succ d ih =>
    refine .cellAt ?_
    cases hcell : s.heap.cell t with
    | link a =>
      have hta : a < s.heap.size := hg.now t a (by simp [Heap.Edge, hcell, Cell.kids])
      refine .cellAt ?_
      cases hcell' : s.heap.cell a with
      | link b =>
        have hab : b < s.heap.size := hg.now a b (by simp [Heap.Edge, hcell', Cell.kids])
        have hh : s.heap.Halves t b (s.heap.write t (.link b)) := ⟨⟨a, hcell, hcell'⟩, rfl⟩
        refine .relink ((ih (hg.write (hh.closed hg.now) (by simp) hh.acyclic) (by simpa)).mono
          fun r s' _ _ hR => ⟨.head ⟨t, b, hh⟩ hR.halvings, hR.lt, hR.notLink,
            .head hcell (.head hcell' (hh.links_of hR.links)), fun v hv => ?_⟩)
        have hv' : ∀ y, (s.heap.write t (.link b)).cell v ≠ .link y := fun y => by
          rw [hh.cell_eq hv]
          exact hv y
        rw [Heap.reaches_link hcell hv, Heap.reaches_link hcell' hv, ← hh.reaches hv, ← hh.reaches hv]
        exact hR.reaches v hv'
      | _ =>
        exact (ih hg hta).mono fun r s' _ _ hR => ⟨hR.halvings, hR.lt, hR.notLink, .head hcell hR.links, fun v hv =>
          (Heap.reaches_link hcell hv).trans (hR.reaches v hv)⟩
    | _ =>
      exact .pure hg ⟨.refl, ht, by simp [hcell], .refl, fun _ _ => Iff.rfl⟩

/-- The answer is whether the variable is reached. -/
def Looked (h : Heap) (v t : ℕ) (r : Bool) (h' : Heap) : Prop :=
  h.Halvings h' ∧ (r = true ↔ h.Reaches t v)

lemma Keeping.occurs {d v t : ℕ} (hg : Tracked s) (ht : t < s.heap.size)
    (hv : ∀ y, s.heap.cell v ≠ .link y) :
    Keeping (occurs v d t) s fun r s' => Looked s.heap v t r s'.heap := by
  induction d generalizing s t with
  | zero => exact .throw hg
  | succ d ih =>
    refine .bind (.find hg ht) fun u s₁ hg₁ _ hf => ?_
    have hv₁ : ∀ y, s₁.heap.cell v ≠ .link y := fun y => by
      rw [hf.halved.cell v hv]
      exact hv y
    -- what is reached from `t` is reached from the end `u` of its links
    have hlift : ∀ {r : Bool} {s' : TypeState}, s₁.heap.Halvings s'.heap →
        (r = true ↔ s₁.heap.Reaches u v) → Looked s.heap v t r s'.heap := fun hh hr =>
      ⟨hf.halvings.trans hh, hr.trans ((hf.halved.reaches u v hv).trans (hf.reaches v hv).symm)⟩
    have hkid : ∀ k ∈ (s₁.heap.cell u).kids, k < s₁.heap.size := fun k hk => hg₁.now u k hk
    split_ifs with huv
    · exact .pure hg₁ (hlift .refl ⟨fun _ => huv ▸ .refl, fun _ => rfl⟩)
    refine .cellAt ?_
    have hkids : s₁.heap.Reaches u v ↔ ∃ k ∈ (s₁.heap.cell u).kids, s₁.heap.Reaches k v := by
      refine ⟨fun h => ?_, fun ⟨k, hk, h⟩ => .head hk h⟩
      rcases h.cases_head with rfl | ⟨k, huk, hkv⟩
      · exact absurd rfl huv
      · exact ⟨k, huk, hkv⟩
    -- two children, the second looked at in the heap the first left
    have htwo : ∀ a b, (s₁.heap.cell u).kids = [a, b] →
        Keeping (do if ← LinEngine.occurs v d a then return true else LinEngine.occurs v d b) s₁
          fun r s' => Looked s.heap v t r s'.heap := by
      intro a b hab
      rw [hab] at hkids hkid
      refine .bind (ih hg₁ (hkid a (by simp)) hv₁) fun r s₂ hg₂ hle₂ hr => ?_
      cases r with
      | true => exact .pure hg₂ (hlift hr.1 (by simp [hkids, hr.2.mp rfl]))
      | false =>
        have hv₂ : ∀ y, s₂.heap.cell v ≠ .link y := fun y => by
          rw [hr.1.halved.cell v hv₁]
          exact hv₁ y
        have ha : ¬ s₁.heap.Reaches a v := fun h => by simpa using hr.2.mpr h
        refine (ih hg₂ ((hkid b (by simp)).trans_le hle₂) hv₂).mono fun r' s₃ _ _ hr' =>
          hlift (hr.1.trans hr'.1) ?_
        rw [hr'.2, hr.1.halved.reaches _ v hv₁, hkids]
        simp [ha]
    have hone : ∀ a, (s₁.heap.cell u).kids = [a] →
        Keeping (LinEngine.occurs v d a) s₁ fun r s' => Looked s.heap v t r s'.heap := by
      intro a hab
      rw [hab] at hkids hkid
      refine (ih hg₁ (hkid a (by simp)) hv₁).mono fun r s₂ _ _ hr => hlift hr.1 ?_
      rw [hr.2, hkids]
      simp
    have hnone : (s₁.heap.cell u).kids = [] →
        Keeping (return false) s₁ fun r s' => Looked s.heap v t r s'.heap := by
      intro hab
      rw [hab] at hkids
      exact .pure hg₁ (hlift .refl (by simp [hkids]))
    cases hcell : s₁.heap.cell u with
    | arrow a b => exact htwo a b (by rw [hcell]; rfl)
    | nom n args =>
      cases args with
      | none => exact hnone (by rw [hcell]; rfl)
      | some a => exact hone a (by rw [hcell]; rfl)
    | arg a next =>
      cases next with
      | none => exact hone a (by rw [hcell]; rfl)
      | some b => exact htwo a b (by rw [hcell]; rfl)
    | link a => exact absurd hcell (hf.notLink a)
    | tvr id => exact hnone (by rw [hcell]; rfl)
    | param i => exact hnone (by rw [hcell]; rfl)

lemma Keeping.bindNominal {v t id : ℕ} (hg : Tracked s) (hv : s.heap.cell v = .tvr id)
    (hlt : v < s.heap.size) (ht : t < s.heap.size) :
    Keeping (bindNominal v t) s fun _ _ => True :=
  ⟨hg.bindNominal hlt (by rw [hv]; rfl) ht, by simp, trivial⟩

lemma Keeping.bindChecked {d v t id : ℕ} (hg : Tracked s) (hv : s.heap.cell v = .tvr id)
    (ht : t < s.heap.size) : Keeping (bindChecked d v t) s fun _ _ => True := by
  have hnot : ∀ y, s.heap.cell v ≠ .link y := by simp [hv]
  refine .bind (.occurs hg ht hnot) fun r s₁ hg₁ hle hr => ?_
  cases r with
  | true => exact .throw hg₁
  | false =>
    have hk : (s₁.heap.cell v).kids = [] := by
      rw [hr.1.halved.cell v hnot, hv]
      rfl
    have hreach : ¬ s₁.heap.Reaches t v := fun h => by
      simpa using hr.2.mpr ((hr.1.halved.reaches t v hnot).mp h)
    exact ⟨hg₁.write (hg₁.now.bind hk (ht.trans_le hle)) (by simp) (Heap.acyclic_bind hk hreach),
      by simp, trivial⟩

lemma Keeping.unify_args (d : ℕ) :
    (∀ {s x y}, Tracked s → x < s.heap.size → y < s.heap.size →
      Keeping (unify d x y) s fun _ _ => True) ∧
    (∀ {s xs ys}, Tracked s → (∀ x ∈ xs, x < s.heap.size) → (∀ y ∈ ys, y < s.heap.size) →
      Keeping (unifyArgs d xs ys) s fun _ _ => True) := by
  induction d with
  | zero => exact ⟨fun hg _ _ => .throw hg, fun hg _ _ => .throw hg⟩
  | succ d ih =>
    obtain ⟨ihu, iha⟩ := ih
    constructor
    · intro s x y hg hx hy
      refine .bind (.find hg hx) fun u s₁ hg₁ hle₁ hu => ?_
      refine .bind (.find hg₁ (hy.trans_le hle₁)) fun w s₂ hg₂ hle₂ hw => ?_
      split_ifs with huw
      · exact .pure hg₂ trivial
      refine .cellAt (.cellAt ?_)
      have hult : u < s₂.heap.size := hu.lt.trans_le hle₂
      have hwlt := hw.lt
      have hkid : ∀ z, ∀ k ∈ (s₂.heap.cell z).kids, k < s₂.heap.size := fun z k hk => hg₂.now z k hk
      cases hcu : s₂.heap.cell u with
      | tvr i =>
        cases hcw : s₂.heap.cell w with
        | nom n args => exact .bindNominal hg₂ hcu hult hwlt
        | _ => exact .bindChecked hg₂ hcu hwlt
      | arrow a b =>
        have hab := hkid u
        rw [hcu] at hab
        cases hcw : s₂.heap.cell w with
        | tvr j => exact .bindChecked hg₂ hcw hult
        | arrow a' b' =>
          have hab' := hkid w
          rw [hcw] at hab'
          refine .bind (ihu hg₂ (hab a (by simp [Cell.kids])) (hab' a' (by simp [Cell.kids])))
            fun _ s₃ hg₃ hle₃ _ => ?_
          exact ihu hg₃ ((hab b (by simp [Cell.kids])).trans_le hle₃)
            ((hab' b' (by simp [Cell.kids])).trans_le hle₃)
        | nom n args =>
          dsimp only
          split_ifs
          · exact .throw hg₂
          · exact .pure hg₂ trivial
        | _ => exact .throw hg₂
      | nom n args =>
        have hab := hkid u
        rw [hcu] at hab
        cases hcw : s₂.heap.cell w with
        | tvr j => exact .bindNominal hg₂ hcw hwlt hult
        | arrow a' b' =>
          dsimp only
          split_ifs
          · exact .throw hg₂
          · exact .pure hg₂ trivial
        | nom n' args' =>
          have hab' := hkid w
          rw [hcw] at hab'
          dsimp only
          split_ifs
          · exact .throw hg₂
          · exact iha hg₂ (fun k hk => hab k (by simpa [Cell.kids] using hk))
              (fun k hk => hab' k (by simpa [Cell.kids] using hk))
        | _ => exact .throw hg₂
      | _ =>
        cases hcw : s₂.heap.cell w with
        | tvr j => exact .bindChecked hg₂ hcw hult
        | _ => exact .throw hg₂
    · intro s xs ys hg hxs hys
      cases xs with
      | none => exact .pure hg trivial
      | some x =>
        cases ys with
        | none => exact .pure hg trivial
        | some y =>
          refine .cellAt (.cellAt ?_)
          have hx : ∀ k ∈ (s.heap.cell x).kids, k < s.heap.size := fun k hk => hg.now x k hk
          have hy : ∀ k ∈ (s.heap.cell y).kids, k < s.heap.size := fun k hk => hg.now y k hk
          cases hcx : s.heap.cell x with
          | arg a nx =>
            cases hcy : s.heap.cell y with
            | arg b ny =>
              rw [hcx] at hx
              rw [hcy] at hy
              refine .bind (ihu hg (hx a (by simp [Cell.kids])) (hy b (by simp [Cell.kids])))
                fun _ s₁ hg₁ hle₁ _ => ?_
              exact iha hg₁ (fun k hk => (hx k (by simp_all [Cell.kids])).trans_le hle₁)
                (fun k hk => (hy k (by simp_all [Cell.kids])).trans_le hle₁)
            | _ => exact .pure hg trivial
          | _ => exact .pure hg trivial

lemma Keeping.unify {d x y : ℕ} (hg : Tracked s) (hx : x < s.heap.size) (hy : y < s.heap.size) :
    Keeping (unify d x y) s fun _ _ => True :=
  (Keeping.unify_args d).1 hg hx hy

lemma Keeping.newCell {c : Cell} (hg : Tracked s) (hk : ∀ k ∈ c.kids, k < s.heap.size) :
    Keeping (newCell c) s fun a s' => a < s'.heap.size :=
  ⟨hg.write (hg.now.push hk) (by simp) (Heap.acyclic_push hg.now hk), by simp, by simp⟩

lemma Keeping.tvar (hg : Tracked s) : Keeping tvar s fun a s' => a < s'.heap.size :=
  .get (.modify rfl (.newCell ⟨hg.closed, hg.env, hg.defs, hg.acyclic, hg.bound⟩ (by simp [Cell.kids])))

lemma Keeping.fv {d t : ℕ} {f : List ℕ} (hg : Tracked s) (ht : t < s.heap.size) :
    Keeping (fv d t f) s fun _ _ => True := by
  induction d generalizing s t f with
  | zero => exact .throw hg
  | succ d ih =>
    refine .bind (.find hg ht) fun u s₁ hg₁ _ hu => .cellAt ?_
    have hkid : ∀ k ∈ (s₁.heap.cell u).kids, k < s₁.heap.size := fun k hk => hg₁.now u k hk
    have htwo : ∀ a b, (s₁.heap.cell u).kids = [a, b] →
        Keeping (do LinEngine.fv d b (← LinEngine.fv d a f)) s₁ fun _ _ => True := fun a b hab => by
      rw [hab] at hkid
      exact .bind (ih hg₁ (hkid a (by simp))) fun _ s₂ hg₂ hle₂ _ =>
        ih hg₂ ((hkid b (by simp)).trans_le hle₂)
    cases hcell : s₁.heap.cell u with
    | arrow a b => exact htwo a b (by rw [hcell]; rfl)
    | nom n args =>
      cases args with
      | none => exact .pure hg₁ trivial
      | some a => exact ih hg₁ (hkid a (by simp [hcell, Cell.kids]))
    | arg a next =>
      cases next with
      | none => exact ih hg₁ (hkid a (by simp [hcell, Cell.kids]))
      | some b => exact htwo a b (by rw [hcell]; rfl)
    | _ => exact .pure hg₁ trivial

lemma Keeping.instRec {m : List (ℕ × ℕ)} {d t : ℕ} (hg : Tracked s) (ht : t < s.heap.size)
    (hm : ∀ e ∈ m, e.2 < s.heap.size) :
    Keeping (instRec m d t) s fun a s' => a < s'.heap.size := by
  induction d generalizing s t with
  | zero => exact .throw hg
  | succ d ih =>
    refine .bind (.find hg ht) fun u s₁ hg₁ hle₁ hu => .cellAt ?_
    have hm₁ : ∀ e ∈ m, e.2 < s₁.heap.size := fun e he => (hm e he).trans_le hle₁
    have hkid : ∀ k ∈ (s₁.heap.cell u).kids, k < s₁.heap.size := fun k hk => hg₁.now u k hk
    cases hcell : s₁.heap.cell u with
    | tvr id =>
      refine .pure hg₁ ?_
      cases hl : m.lookup id with
      | none => exact hu.lt
      | some v =>
        obtain ⟨l₁, l₂, rfl, -⟩ := List.lookup_eq_some_iff.mp hl
        exact hm₁ (id, v) (by simp)
    | arrow a b =>
      rw [hcell] at hkid
      refine .bind (ih hg₁ (hkid a (by simp [Cell.kids])) hm₁) fun a' s₂ hg₂ hle₂ ha' => ?_
      refine .bind (ih hg₂ ((hkid b (by simp [Cell.kids])).trans_le hle₂) fun e he =>
        (hm₁ e he).trans_le hle₂) fun b' s₃ hg₃ hle₃ hb' => .newCell hg₃ fun k hk => ?_
      rcases List.mem_pair.mp hk with rfl | rfl
      · exact ha'.trans_le hle₃
      · exact hb'
    | nom n args =>
      rw [hcell] at hkid
      cases args with
      | none => exact .newCell hg₁ (by simp [Cell.kids])
      | some a =>
        refine .bind (ih hg₁ (hkid a (by simp [Cell.kids])) hm₁) fun a' s₂ hg₂ _ ha' =>
          .newCell hg₂ fun k hk => ?_
        obtain rfl : k = a' := by simpa [Cell.kids] using hk
        exact ha'
    | arg a next =>
      rw [hcell] at hkid
      cases next with
      | none =>
        refine .bind (ih hg₁ (hkid a (by simp [Cell.kids])) hm₁) fun a' s₂ hg₂ _ ha' =>
          .newCell hg₂ fun k hk => ?_
        obtain rfl : k = a' := by simpa [Cell.kids] using hk
        exact ha'
      | some b =>
        refine .bind (ih hg₁ (hkid a (by simp [Cell.kids])) hm₁) fun a' s₂ hg₂ hle₂ ha' => ?_
        refine .bind (ih hg₂ ((hkid b (by simp [Cell.kids])).trans_le hle₂) fun e he =>
          (hm₁ e he).trans_le hle₂) fun b' s₃ hg₃ hle₃ hb' => .newCell hg₃ fun k hk => ?_
        obtain rfl | rfl : k = a' ∨ k = b' := by simpa [Cell.kids] using hk
        · exact ha'.trans_le hle₃
        · exact hb'
    | _ => exact .pure hg₁ hu.lt

lemma Keeping.freshVars {ids : List ℕ} (hg : Tracked s) :
    Keeping (freshVars ids) s fun m s' => ∀ e ∈ m, e.2 < s'.heap.size := by
  induction ids generalizing s with
  | nil => exact .pure hg (by simp)
  | cons id ids ih =>
    refine .bind (.tvar hg) fun v s₁ hg₁ _ hv => ?_
    refine .bind (ih hg₁) fun m s₂ hg₂ hle₂ hm => .pure hg₂ ?_
    exact List.forall_mem_cons.mpr ⟨hv.trans_le hle₂, hm⟩

lemma Keeping.instantiate {d : ℕ} {sch : Scheme} (hg : Tracked s) (ht : sch.t < s.heap.size) :
    Keeping (instantiate d sch) s fun a s' => a < s'.heap.size :=
  .bind (.freshVars hg) fun _ _ hg₁ hle₁ hm => .instRec hg₁ (ht.trans_le hle₁) hm

lemma Keeping.envVars {d : ℕ} {es : List (String × Scheme)} {dyn : List ℕ} (hg : Tracked s)
    (hes : ∀ e ∈ es, e.2.t < s.heap.size) : Keeping (envVars d es dyn) s fun _ _ => True := by
  induction es generalizing s dyn with
  | nil => exact .pure hg trivial
  | cons e es ih =>
    obtain ⟨he, hes⟩ := List.forall_mem_cons.mp hes
    refine .bind (.find hg he) fun u s₁ hg₁ hle₁ hu => .cellAt ?_
    have hes₁ : ∀ e ∈ es, e.2.t < s₁.heap.size := fun e h => (hes e h).trans_le hle₁
    have hrest : Keeping (do LinEngine.envVars d es (← LinEngine.fv d e.2.t dyn)) s₁ fun _ _ => True :=
      .bind (.fv hg₁ (he.trans_le hle₁)) fun _ s₂ hg₂ hle₂ _ =>
        ih hg₂ fun e h => (hes₁ e h).trans_le hle₂
    cases s₁.heap.cell u with
    | tvr id => exact ih hg₁ hes₁
    | _ => exact hrest

lemma Keeping.generalize {d t : ℕ} (hg : Tracked s) (ht : t < s.heap.size) :
    Keeping (generalize d t) s fun sch s' => sch.t < s'.heap.size := by
  refine .bind (.fv hg ht) fun f s₁ hg₁ hle₁ _ => .get ?_
  refine .bind (.envVars hg₁ fun e he => hg₁.env e (List.mem_reverse.mp he)) fun dyn s₂ hg₂ hle₂ _ => .get ?_
  exact .pure hg₂ ((ht.trans_le hle₁).trans_le hle₂)

/-- The stack of binders can be changed to any other one of cells. -/
lemma Tracked.withEnv (hg : Tracked s) {env : List (String × Scheme)} (h : ∀ e ∈ env, e.2.t < s.heap.size) :
    Tracked { s with env := env } :=
  ⟨hg.closed, h, hg.defs, hg.acyclic, hg.bound⟩

lemma Keeping.envPush {x : String} {sch : Scheme} {f : PUnit → TM α} (hg : Tracked s)
    (ht : sch.t < s.heap.size)
    (h : Tracked { s with env := (x, sch) :: s.env } → Keeping (f ()) { s with env := (x, sch) :: s.env } Q) :
    Keeping (envPush x sch >>= f) s Q :=
  .modify rfl (h (hg.withEnv (List.forall_mem_cons.mpr ⟨ht, hg.env⟩)))

lemma Keeping.envPop {f : PUnit → TM α} (hg : Tracked s)
    (h : Tracked { s with env := s.env.tail } → Keeping (f ()) { s with env := s.env.tail } Q) :
    Keeping (envPop >>= f) s Q :=
  .modify rfl (h (hg.withEnv fun e he => hg.env e (List.mem_of_mem_tail he)))

/-- The lookup keeps the invariant and finds schemes of cells. -/
def LooksUp (look : String → TM (Option Scheme)) : Prop :=
  ∀ x s, Tracked s → Keeping (look x) s fun r s' => ∀ sch ∈ r, sch.t < s'.heap.size

lemma Keeping.infer {look : String → TM (Option Scheme)} {d : ℕ} {t : Term} (hlook : LooksUp look)
    (hg : Tracked s) : Keeping (infer look d t) s fun a s' => a < s'.heap.size := by
  -- the body of a let, under the scheme of its value
  have hbody : ∀ {x : String} {b : Term} {v : ℕ} {s : TypeState}, Tracked s → v < s.heap.size →
      (∀ s, Tracked s → Keeping (LinEngine.infer look d b) s fun a s' => a < s'.heap.size) →
      Keeping (do
        LinEngine.envPush x (← LinEngine.generalize d v)
        let b ← LinEngine.infer look d b
        LinEngine.envPop
        return b) s fun a s' => a < s'.heap.size := by
    intro x b v s hg hv ih
    refine .bind (.generalize hg hv) fun sch s₁ hg₁ _ hsch => .envPush hg₁ hsch fun hg₁ => ?_
    refine .bind (ih _ hg₁) fun b s₂ hg₂ _ hb => .envPop hg₂ fun hg₂ => ?_
    exact .pure hg₂ hb
  induction t using infer.induct generalizing s with
  | case1 x =>
    refine .bind (hlook x s hg) fun r s₁ hg₁ _ hr => ?_
    cases r with
    | none => exact .throw hg₁
    | some sch => exact .instantiate hg₁ (hr sch rfl)
  | case2 x b ih =>
    refine .bind (.tvar hg) fun a s₁ hg₁ _ ha => .envPush hg₁ ha fun hg₁ => ?_
    refine .bind (ih hg₁) fun b s₂ hg₂ hle₂ hb => .envPop hg₂ fun hg₂ => .newCell hg₂ fun k hk => ?_
    rcases List.mem_pair.mp hk with rfl | rfl
    · exact ha.trans_le hle₂
    · exact hb
  | case3 x b a iha ihb =>
    exact .bind (iha hg) fun v s₁ hg₁ _ hv => hbody hg₁ hv fun s hg => ihb hg
  | case4 f a hf ihf iha =>
    rw [LinEngine.infer]
    · refine .bind (ihf hg) fun f s₁ hg₁ _ hf => .bind (iha hg₁) fun x s₂ hg₂ hle₂ hx => ?_
      refine .bind (.tvar hg₂) fun r s₃ hg₃ hle₃ hr => ?_
      refine .bind (.newCell hg₃ fun k hk => ?_) fun c s₄ hg₄ hle₄ hc => ?_
      · rcases List.mem_pair.mp hk with rfl | rfl
        · exact hx.trans_le hle₃
        · exact hr
      · have hf₄ := hf.trans_le (hle₂.trans (hle₃.trans hle₄))
        exact .bind (.unify hg₄ hf₄ hc) fun _ s₅ hg₅ hle₅ _ => .pure hg₅ ((hr.trans_le hle₄).trans_le hle₅)
    · exact hf
  | case5 x v b ihv ihb =>
    refine .bind (hlook x s hg) fun r s₁ hg₁ _ hr => ?_
    cases r with
    | some _ => exact .bind (ihv hg₁) fun v s₂ hg₂ _ hv => hbody hg₂ hv fun s hg => ihb hg
    | none =>
      refine .bind (.tvar hg₁) fun a s₂ hg₂ _ ha => .envPush hg₂ ha fun hg₂ => ?_
      refine .bind (ihv hg₂) fun v s₃ hg₃ hle₃ hv => ?_
      refine .bind (.unify hg₃ (ha.trans_le hle₃) hv) fun _ s₄ hg₄ hle₄ _ => .envPop hg₄ fun hg₄ => ?_
      exact hbody hg₄ ((ha.trans_le hle₃).trans_le hle₄) fun s hg => ihb hg
  | case6 | case7 => exact .tvar hg
  | case8 | case9 => exact .throw hg

/-! ## Checks and definitions -/

lemma Keeping.countFree {d : ℕ} {sch : Scheme} (hg : Tracked s) (ht : sch.t < s.heap.size) :
    Keeping (countFree d sch) s fun _ _ => True := by
  refine .bind (.fv hg ht) fun f s₁ hg₁ _ _ => ?_
  exact ⟨⟨hg₁.closed, hg₁.env, hg₁.defs, hg₁.acyclic, hg₁.bound⟩, le_rfl, trivial⟩

lemma Keeping.countDefs {d : ℕ} {es : List Def} (hg : Tracked s)
    (hes : ∀ e ∈ es, ∀ sch ∈ e.sch, sch.t < s.heap.size) :
    Keeping (countDefs d es) s fun _ _ => True := by
  induction es generalizing s with
  | nil => exact .pure hg trivial
  | cons e es ih =>
    obtain ⟨he, hes⟩ := List.forall_mem_cons.mp hes
    cases hsch : e.sch with
    | none => simpa only [LinEngine.countDefs, hsch] using ih hg hes
    | some sch =>
      simp only [LinEngine.countDefs, hsch]
      exact .bind (.countFree hg (he sch hsch)) fun _ s₁ hg₁ hle₁ _ => ih hg₁ fun e h sch hs =>
        (hes e h sch hs).trans_le hle₁

lemma Keeping.envLoadDefs {d : ℕ} {top : Bool} (hg : Tracked s) :
    Keeping (envLoadDefs d top) s fun _ _ => True := by
  refine .get (.bind (.countDefs hg fun e he => hg.defs e (List.mem_of_mem_drop he))
    fun _ s₁ hg₁ _ _ => ⟨?_, le_rfl, trivial⟩)
  refine ⟨hg₁.closed, ?_, hg₁.defs, hg₁.acyclic, hg₁.bound⟩
  cases top with
  | true => simp
  | false => exact hg₁.env

/-- A scheme of a cell, when there is one. -/
def Typed (r : Except String Scheme) (s : TypeState) : Prop :=
  ∀ sch, r = .ok sch → sch.t < s.heap.size

lemma Keeping.guarded {m : TM Scheme} (h : Keeping m s fun sch s' => sch.t < s'.heap.size) :
    Keeping (guarded m) s Typed := by
  unfold Keeping LinEngine.guarded
  rw [wp_tryCatch, wp_bind]
  refine wp_mono h (fun sch s' ⟨hg, hle, ht⟩ => ⟨hg, hle, fun _ he => ?_⟩) fun e s' ⟨hg, hle⟩ => ?_
  · obtain rfl := Except.ok.inj he
    exact ht
  · cases e with
    | error msg => exact ⟨hg, hle, fun _ he => by cases he⟩
    | _ => exact ⟨hg, hle⟩

variable {look : String → TM (Option Scheme)} {d : ℕ}

lemma Keeping.typeCheck {top : Bool} {t : Term} (hlook : LooksUp look) (hg : Tracked s) :
    Keeping (typeCheck look d top t) s Typed :=
  .guarded (.bind (.envLoadDefs hg) fun _ _ hg₁ _ _ =>
    .bind (.infer hlook hg₁) fun _ _ hg₂ _ ha => .generalize hg₂ ha)

lemma Keeping.typeCheckRec {top : Bool} {x : String} {b : Term} (hlook : LooksUp look) (hg : Tracked s) :
    Keeping (typeCheckRec look d top x b) s Typed :=
  .guarded (.bind (.envLoadDefs hg) fun _ _ hg₁ _ _ =>
    .bind (.tvar hg₁) fun _ _ hg₂ _ ha => .envPush hg₂ ha fun hg₂ =>
      .bind (.infer hlook hg₂) fun _ _ hg₃ hle₃ hv =>
        .bind (.unify hg₃ (ha.trans_le hle₃) hv) fun _ _ hg₄ hle₄ _ => .envPop hg₄ fun hg₄ =>
          .generalize hg₄ ((ha.trans_le hle₃).trans_le hle₄))

lemma Keeping.checkDef {e : Def} (hlook : LooksUp look) (hg : Tracked s) :
    Keeping (checkDef look d e) s Typed := by
  unfold LinEngine.checkDef
  cases e.raw with
  | none => exact .typeCheck hlook hg
  | some raw => exact .typeCheckRec hlook hg

lemma Keeping.defType {i : ℕ} {e : Def} (hlook : LooksUp look) (hg : Tracked s) :
    Keeping (defType look d i e) s fun _ _ => True := by
  refine .get (.bind (.checkDef hlook hg) fun r s₁ hg₁ hle₁ hr => .modify rfl ?_)
  have hg₂ := hg₁.withEnv fun e he => (hg.env e he).trans_le hle₁
  cases r with
  | error msg => exact ⟨⟨hg₂.closed, hg₂.env, hg₂.defs, hg₂.acyclic, hg₂.bound⟩, le_rfl, trivial⟩
  | ok sch =>
    have hsch := hr sch rfl
    refine .modify rfl (.countFree ⟨hg₂.closed, hg₂.env, fun e' he' => ?_, hg₂.acyclic, hg₂.bound⟩ hsch)
    obtain ⟨j, hj⟩ := List.mem_iff_getElem?.mp he'
    rw [List.getElem?_modify] at hj
    split_ifs at hj with hij
    · obtain ⟨e₀, he₀, rfl⟩ := Option.map_eq_some_iff.mp hj
      rintro _ ⟨⟩
      exact hsch
    · exact hg₂.defs e' (List.mem_of_getElem? (by simpa using hj))

lemma LooksUp.envFindWith {typeDef : ℕ → Def → TM Unit}
    (h : ∀ i e s, Tracked s → Keeping (typeDef i e) s fun _ _ => True) : LooksUp (envFindWith typeDef) := by
  intro x s hg
  refine .get ?_
  cases hl : s.env.lookup x with
  | some sch =>
    refine .pure hg ?_
    rintro _ ⟨⟩
    obtain ⟨l₁, l₂, he, -⟩ := List.lookup_eq_some_iff.mp hl
    exact hg.env (x, sch) (by simp [he])
  | none =>
    refine .get ?_
    cases s.prog.defFind x with
    | none => exact .pure hg (by simp)
    | some i =>
      refine .get ?_
      cases hi : s.prog.defs[i]? with
      | none => exact .pure hg (by simp)
      | some e =>
        cases hsch : e.sch with
        | some sch =>
          simp only [hsch]
          refine .pure hg ?_
          rintro _ ⟨⟩
          exact hg.defs e (List.mem_of_getElem? hi) sch hsch
        | none =>
          simp only [hsch]
          refine .bind (h i e s hg) fun _ s₁ hg₁ _ _ => .get (.pure hg₁ fun sch hs => ?_)
          obtain ⟨e', he', hs⟩ := Option.bind_eq_some_iff.mp hs
          exact hg₁.defs e' (List.mem_of_getElem? he') sch hs

lemma LooksUp.envFind (d k : ℕ) : LooksUp (envFind d k) := by
  induction k with
  | zero => exact .envFindWith fun _ _ _ hg => .throw hg
  | succ k ih => exact .envFindWith fun _ _ _ hg => .defType ih hg

end Walkers

/-! ## The walkers end -/

/-- The graph of the state is acyclic. -/
structure Tame (s : TypeState) : Prop where
  closed : s.heap.Closed
  acyclic : Acyclic s.heap.Edge

/-- The program returns, and what it has done to old cells is halving. -/
def Walking {α : Type} (m : TM α) (s : TypeState) (Q : α → TypeState → Prop) : Prop :=
  wp m (fun a s' => Tame s' ∧ s.heap.Tamer s'.heap ∧ Q a s') (fun _ _ => False) s

section Walking

variable {α β : Type} {s : TypeState} {Q : α → TypeState → Prop}

lemma Walking.pure {a : α} (hs : Tame s) (hQ : Q a s) : Walking (pure a) s Q := ⟨hs, .refl _, hQ⟩

lemma Walking.bind {m : TM β} {f : β → TM α} {R : β → TypeState → Prop} (hs : Tame s)
    (hm : Walking m s R)
    (hf : ∀ b s', Tame s' → s.heap.Tamer s'.heap → R b s' → Walking (f b) s' Q) :
    Walking (m >>= f) s Q := by
  rw [Walking, wp_bind]
  refine wp_mono hm (fun b s' ⟨hs', ht, hR⟩ => ?_) fun _ _ h => h
  exact wp_mono (hf b s' hs' ht hR) (fun a s'' h => ⟨h.1, ht.trans hs.closed h.2.1, h.2.2⟩) fun _ _ h => h

lemma Walking.cellAt {a : ℕ} {f : Cell → TM α} (h : Walking (f (s.heap.cell a)) s Q) :
    Walking (cellAt a >>= f) s Q := h

lemma Walking.returns {m : TM α} (h : Walking m s Q) : ∃ a s', m s = .ok a s' := by
  unfold Walking wp at h
  cases hm : m s with
  | ok a s' => exact ⟨a, s', rfl⟩
  | error e s' =>
    rw [hm] at h
    exact h.elim

lemma Walking.mono {m : TM α} {R : α → TypeState → Prop} (hm : Walking m s R)
    (h : ∀ a s', R a s' → Q a s') : Walking m s Q :=
  wp_mono hm (fun a s' ⟨hs, ht, hR⟩ => ⟨hs, ht, h a s' hR⟩) fun _ _ h => h

lemma Walking.find {d t : ℕ} (hs : Tame s) (ht : t < s.heap.size) (hd : s.heap.rank t < d) :
    Walking (find d t) s fun r s' => r < s'.heap.size ∧ s'.heap.rank r ≤ s.heap.rank t := by
  induction d generalizing s t with
  | zero => exact absurd hd (Nat.not_lt_zero _)
  | succ d ih =>
    refine .cellAt ?_
    cases hcell : s.heap.cell t with
    | link a =>
      have hta : s.heap.Edge t a := by simp [Heap.Edge, hcell, Cell.kids]
      have hra := Heap.rank_lt_of_edge hs.closed hs.acyclic hta
      have ha := hs.closed t a hta
      refine .cellAt ?_
      cases hcell' : s.heap.cell a with
      | link b =>
        have hab : s.heap.Edge a b := by simp [Heap.Edge, hcell', Cell.kids]
        have hrb := Heap.rank_lt_of_edge hs.closed hs.acyclic hab
        have hb := hs.closed a b hab
        have hh : s.heap.Halves t b (s.heap.write t (.link b)) := ⟨⟨a, hcell, hcell'⟩, rfl⟩
        have hs₁ : Tame { s with heap := s.heap.write t (.link b), past := s.heap :: s.past } :=
          ⟨hh.closed hs.closed, hh.acyclic hs.acyclic⟩
        have hle : (s.heap.write t (.link b)).rank b ≤ s.heap.rank b := hh.tamer.rank_le hs.closed hb
        refine .bind (R := fun _ s' => s' = _) hs ⟨hs₁, hh.tamer, rfl⟩ fun _ s₁ _ _ he => ?_
        subst he
        exact (ih hs₁ (by simpa using hb) (show (s.heap.write t (.link b)).rank b < d by omega)).mono
          fun r s' h => ⟨h.1, h.2.trans (hle.trans (hrb.trans hra).le)⟩
      | _ => exact (ih hs ha (by omega)).mono fun r s' h => ⟨h.1, h.2.trans hra.le⟩
    | _ => exact .pure hs ⟨ht, le_rfl⟩

/-- The children of the end of the links can be walked with one unit of fuel less. -/
lemma Walking.kids {d t : ℕ} {f : ℕ → TM α} (hs : Tame s) (ht : t < s.heap.size)
    (hd : s.heap.rank t + 2 ≤ d + 1)
    (hf : ∀ u s', Tame s' → s.heap.Tamer s'.heap → u < s'.heap.size →
      (∀ k ∈ (s'.heap.cell u).kids, k < s'.heap.size ∧ s'.heap.rank k + 2 ≤ d) → Walking (f u) s' Q) :
    Walking (LinEngine.find d t >>= f) s Q := by
  refine .bind hs (.find hs ht (by omega)) fun u s₁ hs₁ ht₁ ⟨hu, hr⟩ => hf u s₁ hs₁ ht₁ hu fun k hk => ?_
  have := Heap.rank_lt_of_edge hs₁.closed hs₁.acyclic (show s₁.heap.Edge u k from hk)
  exact ⟨hs₁.closed u k hk, by omega⟩

/-- One child is walked after another. -/
lemma Walking.later {d k : ℕ} {s' : TypeState} (hs : Tame s) (ht : s.heap.Tamer s'.heap)
    (hk : k < s.heap.size ∧ s.heap.rank k + 2 ≤ d) : k < s'.heap.size ∧ s'.heap.rank k + 2 ≤ d :=
  ⟨hk.1.trans_le ht.size, by
    have := ht.rank_le hs.closed hk.1
    omega⟩

lemma Walking.occurs {v d t : ℕ} (hs : Tame s) (ht : t < s.heap.size) (hd : s.heap.rank t + 2 ≤ d) :
    Walking (occurs v d t) s fun _ _ => True := by
  induction d generalizing s t with
  | zero => omega
  | succ d ih =>
    refine .kids hs ht hd fun u s₁ hs₁ _ _ hk => ?_
    split_ifs
    · exact .pure hs₁ trivial
    refine .cellAt ?_
    have htwo : ∀ a b, (s₁.heap.cell u).kids = [a, b] →
        Walking (do if ← LinEngine.occurs v d a then return true else LinEngine.occurs v d b) s₁
          fun _ _ => True := by
      intro a b hab
      rw [hab] at hk
      refine .bind hs₁ (ih hs₁ (hk a (by simp)).1 (hk a (by simp)).2) fun r s₂ hs₂ ht₂ _ => ?_
      have hb := later hs₁ ht₂ (hk b (by simp))
      cases r with
      | true => exact .pure hs₂ trivial
      | false => exact ih hs₂ hb.1 hb.2
    cases hcell : s₁.heap.cell u with
    | arrow a b => exact htwo a b (by rw [hcell]; rfl)
    | nom n args =>
      cases args with
      | none => exact .pure hs₁ trivial
      | some a =>
        have ha := hk a (by simp [hcell, Cell.kids])
        exact ih hs₁ ha.1 ha.2
    | arg a next =>
      cases next with
      | none =>
        have ha := hk a (by simp [hcell, Cell.kids])
        exact ih hs₁ ha.1 ha.2
      | some b => exact htwo a b (by rw [hcell]; rfl)
    | _ => exact .pure hs₁ trivial

lemma Walking.fv {d t : ℕ} {f : List ℕ} (hs : Tame s) (ht : t < s.heap.size)
    (hd : s.heap.rank t + 2 ≤ d) : Walking (fv d t f) s fun _ _ => True := by
  induction d generalizing s t f with
  | zero => omega
  | succ d ih =>
    refine .kids hs ht hd fun u s₁ hs₁ _ _ hk => .cellAt ?_
    have htwo : ∀ a b, (s₁.heap.cell u).kids = [a, b] →
        Walking (do LinEngine.fv d b (← LinEngine.fv d a f)) s₁ fun _ _ => True := by
      intro a b hab
      rw [hab] at hk
      refine .bind hs₁ (ih hs₁ (hk a (by simp)).1 (hk a (by simp)).2) fun _ s₂ hs₂ ht₂ _ => ?_
      have hb := later hs₁ ht₂ (hk b (by simp))
      exact ih hs₂ hb.1 hb.2
    cases hcell : s₁.heap.cell u with
    | arrow a b => exact htwo a b (by rw [hcell]; rfl)
    | nom n args =>
      cases args with
      | none => exact .pure hs₁ trivial
      | some a =>
        have ha := hk a (by simp [hcell, Cell.kids])
        exact ih hs₁ ha.1 ha.2
    | arg a next =>
      cases next with
      | none =>
        have ha := hk a (by simp [hcell, Cell.kids])
        exact ih hs₁ ha.1 ha.2
      | some b => exact htwo a b (by rw [hcell]; rfl)
    | _ => exact .pure hs₁ trivial

lemma Walking.newCell {c : Cell} (hs : Tame s) (hk : ∀ k ∈ c.kids, k < s.heap.size) :
    Walking (newCell c) s fun a s' => a < s'.heap.size :=
  ⟨⟨hs.closed.push hk, Heap.acyclic_push hs.closed hk hs.acyclic⟩, .push hs.closed, by simp⟩

lemma Walking.instRec {m : List (ℕ × ℕ)} {d t : ℕ} (hs : Tame s) (ht : t < s.heap.size)
    (hm : ∀ e ∈ m, e.2 < s.heap.size) (hd : s.heap.rank t + 2 ≤ d) :
    Walking (instRec m d t) s fun a s' => a < s'.heap.size := by
  induction d generalizing s t with
  | zero => omega
  | succ d ih =>
    refine .kids hs ht hd fun u s₁ hs₁ ht₁ hu hk => .cellAt ?_
    have hm₁ : ∀ e ∈ m, e.2 < s₁.heap.size := fun e he => (hm e he).trans_le ht₁.size
    -- a copy of two children, the second made in the heap the first left
    have htwo : ∀ (c : ℕ → ℕ → Cell) a b, (s₁.heap.cell u).kids = [a, b] →
        (∀ x y, (c x y).kids = [x, y]) →
        Walking (do
          let a ← LinEngine.instRec m d a
          LinEngine.newCell (c a (← LinEngine.instRec m d b))) s₁ fun a s' => a < s'.heap.size := by
      intro c a b hab hc
      rw [hab] at hk
      refine .bind hs₁ (ih hs₁ (hk a (by simp)).1 hm₁ (hk a (by simp)).2) fun a' s₂ hs₂ ht₂ ha' => ?_
      have hb := later hs₁ ht₂ (hk b (by simp))
      refine .bind hs₂ (ih hs₂ hb.1 (fun e he => (hm₁ e he).trans_le ht₂.size) hb.2)
        fun b' s₃ hs₃ ht₃ hb' => .newCell hs₃ fun k hk => ?_
      rw [hc] at hk
      rcases List.mem_pair.mp hk with rfl | rfl
      · exact ha'.trans_le ht₃.size
      · exact hb'
    have hone : ∀ (c : ℕ → Cell) a, (s₁.heap.cell u).kids = [a] → (∀ x, (c x).kids = [x]) →
        Walking (do LinEngine.newCell (c (← LinEngine.instRec m d a))) s₁ fun a s' => a < s'.heap.size := by
      intro c a hab hc
      rw [hab] at hk
      refine .bind hs₁ (ih hs₁ (hk a (by simp)).1 hm₁ (hk a (by simp)).2) fun a' s₂ hs₂ ht₂ ha' => ?_
      exact .newCell hs₂ (by simpa [hc] using ha')
    cases hcell : s₁.heap.cell u with
    | tvr id =>
      refine .pure hs₁ ?_
      cases hl : m.lookup id with
      | none => exact hu
      | some v =>
        obtain ⟨l₁, l₂, rfl, -⟩ := List.lookup_eq_some_iff.mp hl
        exact hm₁ (id, v) (by simp)
    | arrow a b => exact htwo .arrow a b (by rw [hcell]; rfl) fun _ _ => rfl
    | nom n args =>
      cases args with
      | none => exact .newCell hs₁ (by simp [Cell.kids])
      | some a => exact hone (fun a => .nom n (some a)) a (by rw [hcell]; rfl) fun _ => rfl
    | arg a next =>
      cases next with
      | none => exact hone (fun a => .arg a none) a (by rw [hcell]; rfl) fun _ => rfl
      | some b => exact htwo (fun a b => .arg a (some b)) a b (by rw [hcell]; rfl) fun _ _ => rfl
    | _ => exact .pure hs₁ hu

end Walking

/-- From every cell the walkers return. -/
def Heap.Walkable (h : Heap) : Prop :=
  ∃ d₀, ∀ d, d₀ ≤ d → ∀ s : TypeState, s.heap = h → ∀ t < h.size,
    (∃ r s', find d t s = .ok r s') ∧ (∀ v, ∃ r s', occurs v d t s = .ok r s') ∧
    (∀ f, ∃ r s', fv d t f s = .ok r s') ∧
    ∀ m : List (ℕ × ℕ), (∀ e ∈ m, e.2 < h.size) → ∃ r s', instRec m d t s = .ok r s'

theorem Heap.walkable {h : Heap} (hc : h.Closed) (hr : Acyclic h.Edge) : h.Walkable := by
  refine ⟨h.size + 2, fun d hd s hs t ht => ?_⟩
  subst hs
  have hrank : s.heap.rank t ≤ s.heap.size := Heap.rank_le_size
  have htame : Tame s := ⟨hc, hr⟩
  exact ⟨(Walking.find htame ht (by omega)).returns,
    fun v => (Walking.occurs htame ht (by omega)).returns,
    fun f => (Walking.fv htame ht (by omega)).returns,
    fun m hm => (Walking.instRec htame ht hm (by omega)).returns⟩

/-! ## Acyclic type graphs -/

/-- A state a check starts from: whatever is on the stack of binders and whatever
definitions are typed, their types are cells of an acyclic heap. -/
structure Start (s : TypeState) : Prop where
  closed : s.heap.Closed
  acyclic : Acyclic s.heap.Edge
  env : ∀ e ∈ s.env, e.2.t < s.heap.size
  defs : ∀ e ∈ s.prog.defs, ∀ sch ∈ e.sch, sch.t < s.heap.size
  past : s.past = []
  bound : s.bound = []

lemma Start.good {s : TypeState} (hs : Start s) : Tracked s where
  closed := by simpa [TypeState.heaps, hs.past] using hs.closed
  env := hs.env
  defs := hs.defs
  acyclic := fun _ => by simpa [TypeState.heaps, hs.past] using hs.acyclic
  bound := by simp [hs.bound]

/-- The state a program ends in. -/
def stateAfter {α : Type} (m : TM α) (s : TypeState) : TypeState :=
  match m s with
  | .ok _ s' => s'
  | .error _ s' => s'

lemma Tracked.after {s : TypeState} (hg : Tracked s) (d k : ℕ) (t : Term) :
    Tracked (stateAfter (checkTerm d k t) s) := by
  have h : Keeping (checkTerm d k t) s Typed := .typeCheck (LooksUp.envFind d k) hg
  unfold Keeping wp checkTerm at h
  unfold stateAfter checkTerm
  cases hm : typeCheck (envFind d k) d true t s with
  | ok a s' =>
    rw [hm] at h
    exact h.1
  | error e s' =>
    rw [hm] at h
    exact h.1

/-- The constructor of `(datatype (Box a) (MkBox a))` with its scheme. -/
def boxState : TypeState where
  heap := ⟨[.tvr 0, .arg 0 none, .nom "Box" (some 1), .arrow 0 2]⟩
  nextId := 1
  env := []
  envrc := .empty
  regN := 0
  prog := ⟨[⟨"MkBox", .lam "x" (.lam "_d0" (.app (.var "_d0") (.var "x"))), none, some ⟨[0], 3⟩, none⟩],
    "", []⟩
  printed := []
  past := []
  bound := []

lemma boxState_start : Start boxState :=
  ⟨Heap.closed_of_ordered (by decide), Heap.acyclic_of_ordered (by decide), by decide, by decide, rfl, rfl⟩

/-- `\f.\x.\k.(k (f x)) (f (MkBox x))`. -/
def boxTerm : Term :=
  .lam "f" (.lam "x" (.lam "k" (.app (.app (.var "k") (.app (.var "f") (.var "x")))
    (.app (.var "f") (.app (.var "MkBox") (.var "x"))))))

end LinEngine
