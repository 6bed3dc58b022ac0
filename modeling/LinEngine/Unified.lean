import LinEngine.Solutions
import LinEngine.TypeCalm
import LinEngine.TypeFuel

/-!
# What inference does to solutions

On plain heaps: unification keeps the solutions that give both sides one type and
fails when there is none; the free variables of a type are those it reaches; and an
instance has the type that the scheme has with its quantified variables renamed.
-/
namespace LinEngine

open Relation

/-- A state whose types are plain, with ids still to be given. -/
structure Clean (s : TypeState) : Prop where
  tracked : Tracked s
  plain : s.heap.Plain
  fresh : ∀ v id, s.heap.cell v = .tvr id → id < s.nextId

lemma Clean.tame {s : TypeState} (hs : Clean s) : Tame s := ⟨hs.plain.closed, hs.plain.acyclic⟩

/-- From `s` the program returns into `Q`; if it stops for another reason than its fuel, `E` holds. -/
def Solving {α : Type} (m : TM α) (s : TypeState) (Q : α → TypeState → Prop) (E : Prop) : Prop :=
  wp m (fun a s' => Clean s' ∧ Q a s') (fun e _ => e ≠ .fuel → E) s

namespace Solving

variable {α β : Type} {s : TypeState} {Q : α → TypeState → Prop} {E : Prop}

lemma pure {a : α} (hs : Clean s) (hQ : Q a s) : Solving (pure a) s Q E := ⟨hs, hQ⟩

lemma throw {e : Stop} (h : E) : Solving (throw e : TM α) s Q E := fun _ => h

lemma spent : Solving (MonadExcept.throw Stop.fuel : TM α) s Q E := fun h => absurd rfl h

lemma bind {m : TM β} {f : β → TM α} {R : β → TypeState → Prop} (hm : Solving m s R E)
    (hf : ∀ b s', Clean s' → R b s' → Solving (f b) s' Q E) : Solving (m >>= f) s Q E := by
  rw [Solving, wp_bind]
  exact wp_mono hm (fun b s' ⟨hs, hR⟩ => hf b s' hs hR) fun _ _ h => h

lemma mono {m : TM α} {R : α → TypeState → Prop} {E' : Prop} (hm : Solving m s R E')
    (h : ∀ a s', Clean s' → R a s' → Q a s') (hE : E' → E) : Solving m s Q E :=
  wp_mono hm (fun a s' ⟨hs, hR⟩ => ⟨hs, h a s' hs hR⟩) fun _ _ h he => hE (h he)

lemma cellAt {a : ℕ} {f : Cell → TM α} (h : Solving (f (s.heap.cell a)) s Q E) :
    Solving (cellAt a >>= f) s Q E := h

lemma get {f : TypeState → TM α} (h : Solving (f s) s Q E) : Solving (get >>= f) s Q E := h

end Solving

section Walkers

variable {s : TypeState} {h h' : Heap} {ρ : ℕ → Ty}

lemma Heap.Sol.links (hs : h.Sol ρ) {t r : ℕ}
    (hl : ReflTransGen (fun a b => h.cell a = .link b) t r) : ρ t = ρ r := by
  induction hl with
  | refl => rfl
  | @tail b c _ hbc ih =>
    have hb := hs b
    rw [hbc] at hb
    exact ih.trans hb

/-- Halving keeps a state clean. -/
lemma Clean.walked {s' : TypeState} (hs : Clean s) (ht : Tracked s') (hr : Rest s s')
    (hh : s.heap.Halvings s'.heap) : Clean s' :=
  ⟨ht, hh.plain hs.plain, fun v id hv => hr.nextId ▸ hs.fresh v id (hh.tvr_iff.mp hv)⟩

/-- A walker: its result from the invariant of runs, its stops from its end. -/
lemma Solving.ofWalker {α : Type} (m : ℕ → TM α) {d d₀ : ℕ} {R : α → TypeState → Prop} {Q : α → TypeState → Prop}
    (hs : Clean s) (hle : ∀ d, StopLe (m d) (m (d + 1))) (hw : Walking (m d₀) s Q) (hc : Follows Rest (m d))
    (hk : Keeping (m d) s R) (hR : ∀ a s', R a s' → s.heap.Halvings s'.heap) :
    Solving (m d) s (fun a s' => Rest s s' ∧ R a s') False := by
  refine wp_mono (wp_and hk (wp_and (hc s) (hw.onlyFuel hle d))) ?_ fun e s' h he => absurd h.2.2 he
  rintro a s' ⟨⟨ht, -, hR'⟩, hr, -⟩
  exact ⟨hs.walked ht hr (hR a s' hR'), hr, hR'⟩

lemma Solving.find {d t : ℕ} (hs : Clean s) (ht : t < s.heap.size) :
    Solving (find d t) s (fun r s' => Rest s s' ∧ Found s.heap t r s'.heap) False :=
  .ofWalker (LinEngine.find · t) hs (find_le · t) (Walking.find hs.tame ht (Nat.lt_succ_self _)) (.find d t)
    (.find hs.tracked ht) fun _ _ h => h.halvings

lemma Solving.occurs {d v t : ℕ} (hs : Clean s) (ht : t < s.heap.size)
    (hv : ∀ y, s.heap.cell v ≠ .link y) :
    Solving (occurs v d t) s (fun r s' => Rest s s' ∧ Looked s.heap v t r s'.heap) False :=
  .ofWalker (LinEngine.occurs v · t) hs (occurs_le v · t) (Walking.occurs hs.tame ht le_rfl) (.occurs v d t)
    (.occurs hs.tracked ht hv) fun _ _ h => h.1

/-- The end of the links in a plain heap. -/
lemma Found.root {t r : ℕ} (hp : h.Plain) (hf : Found h t r h') :
    (∃ id, h'.cell r = .tvr id) ∨ ∃ b c, h'.cell r = .arrow b c := by
  rcases (hf.halvings.plain hp).pure r hf.lt with h | h | ⟨b, hb⟩
  · exact Or.inl h
  · exact Or.inr h
  · exact absurd hb (hf.notLink b)

end Walkers

/-! ## Unification -/

/-- Both sides have one type, and nothing else has changed. -/
structure Unified (h : Heap) (x y : ℕ) (h' : Heap) : Prop where
  size : h'.size = h.size
  sol : ∀ ρ, h'.Sol ρ ↔ h.Sol ρ ∧ ρ x = ρ y
  frame : ∀ v id, h.cell v = .tvr id → ¬ h.Reaches x v → ¬ h.Reaches y v → Heap.Frame v h h'
  tvr : ∀ v id, h'.cell v = .tvr id → h.cell v = .tvr id

/-- No solution gives both sides one type. -/
def Clash (h : Heap) (x y : ℕ) : Prop := ∀ ρ, h.Sol ρ → ρ x ≠ ρ y

section Unify

variable {s : TypeState} {h h' h'' : Heap} {x y u w : ℕ}

lemma Unified.symm (hu : Unified h x y h') : Unified h y x h' :=
  ⟨hu.size, fun ρ => by rw [hu.sol, eq_comm], fun v id hv hy hx => hu.frame v id hv hx hy, hu.tvr⟩

lemma Unified.ofHalvings (hh : h.Halvings h') (hxy : ∀ ρ, h.Sol ρ → ρ x = ρ y) : Unified h x y h' :=
  ⟨hh.halved.size, fun ρ => hh.sol.trans (iff_self_and.mpr (hxy ρ)),
    fun v id hv _ _ => hh.frame (by simp [hv]), fun _ _ hv => hh.tvr_iff.mp hv⟩

/-- Unifying the ends of the links of the two sides. -/
lemma Unified.ofRoots (hh : h.Halvings h') (hx : ∀ ρ, h.Sol ρ → ρ x = ρ u) (hy : ∀ ρ, h.Sol ρ → ρ y = ρ w)
    (hxr : ∀ v id, h.cell v = .tvr id → h'.Reaches u v → h.Reaches x v)
    (hyr : ∀ v id, h.cell v = .tvr id → h'.Reaches w v → h.Reaches y v)
    (hu : Unified h' u w h'') : Unified h x y h'' where
  size := hu.size.trans hh.halved.size
  sol := fun ρ => by
    rw [hu.sol, hh.sol]
    exact and_congr_right fun hs => by rw [hx ρ hs, hy ρ hs]
  frame := fun v id hv hxv hyv => (hh.frame (by simp [hv])).trans (hu.frame v id (hh.tvr_iff.mpr hv)
    (fun hr => hxv (hxr v id hv hr)) fun hr => hyv (hyr v id hv hr))
  tvr := fun v id hv => hh.tvr_iff.mp (hu.tvr v id hv)

lemma Solving.bindChecked {d v t id : ℕ} (hs : Clean s) (hv : s.heap.cell v = .tvr id)
    (ht : t < s.heap.size) :
    Solving (bindChecked d v t) s (fun _ s' => Rest s s' ∧ Unified s.heap v t s'.heap)
      (s.heap.Reaches t v) := by
  have hnot : ∀ y, s.heap.cell v ≠ .link y := by simp [hv]
  refine .bind (R := fun r s' => (Rest s s' ∧ Looked s.heap v t r s'.heap)) ?_ fun r s₁ hs₁ ⟨hr, hl⟩ => ?_
  · exact (Solving.occurs hs ht hnot).mono (fun _ _ _ h => h) False.elim
  cases r with
  | true => exact .throw (hl.2.mp rfl)
  | false =>
    have hreach : ¬ s.heap.Reaches t v := fun h => by simpa using hl.2.mpr h
    have hv₁ := hl.1.tvr_iff.mpr hv
    have ht₁ : t < s₁.heap.size := hl.1.halved.size ▸ ht
    have hreach₁ : ¬ s₁.heap.Reaches t v := fun h => hreach ((hl.1.halved.reaches t v hnot).mp h)
    have hp := hs₁.plain.bind hv₁ ht₁ hreach₁
    have hk : (s₁.heap.cell v).kids = [] := by rw [hv₁]; rfl
    have htvr : ∀ x i, (s₁.heap.write v (.link t)).cell x = .tvr i → s₁.heap.cell x = .tvr i := by
      intro x i hx
      by_cases hxv : x = v
      · rw [hxv, Heap.cell_write_self (Heap.lt_of_tvr hv₁)] at hx
        cases hx
      · rwa [Heap.cell_write_ne hxv] at hx
    refine ⟨⟨hs₁.tracked.write hp.closed (by simp) fun _ => hp.acyclic, hp, fun x i hx =>
      hs₁.fresh x i (htvr x i hx)⟩, ⟨hr.nextId, hr.env, hr.envrc, hr.regN, hr.prog⟩, ?_⟩
    refine .ofRoots (u := v) (w := t) hl.1 (fun _ _ => rfl) (fun _ _ => rfl)
      (fun x i hx h => (hl.1.halved.reaches v x (by simp [hx])).mp h)
      (fun x i hx h => (hl.1.halved.reaches t x (by simp [hx])).mp h) ⟨by simp, fun ρ => ?_,
        fun x i hx hvx htx => .bind hk hvx htx, htvr⟩
    exact Heap.sol_bind hv₁

lemma Solving.unify {d : ℕ} (hs : Clean s) (hx : x < s.heap.size) (hy : y < s.heap.size) :
    Solving (unify d x y) s (fun _ s' => Rest s s' ∧ Unified s.heap x y s'.heap) (Clash s.heap x y) := by
  induction d generalizing s x y with
  | zero => exact .spent
  | succ d ih =>
    refine .bind ((Solving.find hs hx).mono (fun _ _ _ h => h) False.elim) fun u s₁ hs₁ ⟨hr₁, hu⟩ => ?_
    have hy₁ : y < s₁.heap.size := hu.halved.size ▸ hy
    refine .bind ((Solving.find hs₁ hy₁).mono (fun _ _ _ h => h) False.elim) fun w s₂ hs₂ ⟨hr₂, hw⟩ => ?_
    have hh : s.heap.Halvings s₂.heap := hu.halvings.trans hw.halvings
    have hxu : ∀ ρ, s.heap.Sol ρ → ρ x = ρ u := fun ρ hρ => hρ.links hu.links
    have hyw : ∀ ρ, s.heap.Sol ρ → ρ y = ρ w := fun ρ hρ => (hu.halvings.sol.mpr hρ).links hw.links
    have hr := hr₁.trans hr₂
    split_ifs with huw
    · exact .pure hs₂ ⟨hr, .ofHalvings hh fun ρ hρ => (hxu ρ hρ).trans (huw ▸ (hyw ρ hρ).symm)⟩
    -- the two ends are unified in the heap both walks left
    have hroots : ∀ {h''}, Unified s₂.heap u w h'' → Unified s.heap x y h'' := by
      refine fun hU => .ofRoots hh hxu hyw (fun v id hv hrv => ?_) (fun v id hv hrv => ?_) hU
      · have hn : ∀ l, s.heap.cell v ≠ .link l := by simp [hv]
        exact (hu.reaches v hn).mpr ((hh.halved.reaches u v hn).mp hrv)
      · have hn : ∀ l, s.heap.cell v ≠ .link l := by simp [hv]
        have hn₁ : ∀ l, s₁.heap.cell v ≠ .link l := by simp [hu.halvings.tvr_iff.mpr hv]
        exact (hu.halved.reaches y v hn).mp ((hw.reaches v hn₁).mpr ((hw.halved.reaches w v hn₁).mp hrv))
    have hclash : Clash s₂.heap u w → Clash s.heap x y := fun hc ρ hρ hxy => by
      rw [hxu ρ hρ, hyw ρ hρ] at hxy
      exact hc ρ (hh.sol.mpr hρ) hxy
    have hult : u < s₂.heap.size := by
      rw [hw.halved.size]
      exact hu.lt
    have hur : (∃ id, s₂.heap.cell u = .tvr id) ∨ ∃ b c, s₂.heap.cell u = .arrow b c := by
      rcases hu.root hs.plain with ⟨id, hid⟩ | ⟨b, c, hbc⟩
      · exact Or.inl ⟨id, hw.halvings.tvr_iff.mpr hid⟩
      · exact Or.inr ⟨b, c, by rw [hw.halved.cell u hu.notLink, hbc]⟩
    have hwr := hw.root hs₁.plain
    -- a variable on one side, and what it would mean that it occurs in the other
    have hvar : ∀ a b id, s₂.heap.cell a = .tvr id → b < s₂.heap.size → a ≠ b →
        ((∃ id, s₂.heap.cell b = .tvr id) ∨ ∃ c e, s₂.heap.cell b = .arrow c e) →
        Solving (LinEngine.bindChecked d a b) s₂ (fun _ s' => Rest s₂ s' ∧ Unified s₂.heap a b s'.heap)
          (Clash s₂.heap a b) := by
      intro a b id ha hb hab hroot
      refine (Solving.bindChecked hs₂ ha hb).mono (fun _ _ _ h => h) fun hreach ρ hρ => ?_
      rcases hroot with ⟨j, hj⟩ | ⟨c, e, hce⟩
      · rcases hreach.cases_head with rfl | ⟨k, hbk, -⟩
        · exact absurd rfl hab
        · simp [Heap.Edge, hj, Cell.kids] at hbk
      · exact hs₂.plain.ne_of_occurs hρ hce (Ne.symm hab) hreach
    refine .cellAt (.cellAt ?_)
    rcases hur with ⟨i, hcu⟩ | ⟨a, b, hcu⟩
    · have hb := (hvar u w i hcu hw.lt huw hwr).mono (Q := fun _ s' => Rest s s' ∧ Unified s.heap x y s'.heap)
        (fun _ _ _ h => ⟨hr.trans h.1, hroots h.2⟩) hclash
      rcases hwr with ⟨j, hcw⟩ | ⟨a', b', hcw⟩
      · simpa only [hcu, hcw] using hb
      · simpa only [hcu, hcw] using hb
    · rcases hwr with ⟨j, hcw⟩ | ⟨a', b', hcw⟩
      · have hb := (hvar w u j hcw hult (Ne.symm huw) (Or.inr ⟨a, b, hcu⟩)).mono
          (Q := fun _ s' => Rest s s' ∧ Unified s.heap x y s'.heap)
          (fun _ _ _ h => ⟨hr.trans h.1, hroots h.2.symm⟩)
          fun hc => hclash fun ρ hρ he => hc ρ hρ he.symm
        simpa only [hcu, hcw] using hb
      · simp only [hcu, hcw]
        have hku : ∀ k, k = a ∨ k = b → s₂.heap.Edge u k := fun k hk => by simpa [Heap.Edge, hcu, Cell.kids]
        have hkw : ∀ k, k = a' ∨ k = b' → s₂.heap.Edge w k := fun k hk => by simpa [Heap.Edge, hcw, Cell.kids]
        have hlt : ∀ k, s₂.heap.Edge u k ∨ s₂.heap.Edge w k → k < s₂.heap.size := fun k hk =>
          hk.elim (hs₂.plain.closed u k) (hs₂.plain.closed w k)
        have harrow : ∀ ρ, s₂.heap.Sol ρ → (ρ u = ρ w ↔ ρ a = ρ a' ∧ ρ b = ρ b') := fun ρ hρ => by
          have h1 := hρ u
          have h2 := hρ w
          rw [hcu] at h1
          rw [hcw] at h2
          rw [show ρ u = _ from h1, show ρ w = _ from h2]
          exact ⟨fun h => Ty.arrow.inj h, fun h => congrArg₂ Ty.arrow h.1 h.2⟩
        refine .bind ((ih hs₂ (hlt a (Or.inl (hku a (Or.inl rfl)))) (hlt a' (Or.inr (hkw a' (Or.inl rfl))))).mono
          (fun _ _ _ h => h) fun hc => hclash fun ρ hρ he => hc ρ hρ ((harrow ρ hρ).mp he).1)
          fun _ s₃ hs₃ h₃ => ?_
        obtain ⟨hr₃, h3⟩ := h₃
        refine (ih hs₃ (h3.size ▸ hlt b (Or.inl (hku b (Or.inr rfl))))
          (h3.size ▸ hlt b' (Or.inr (hkw b' (Or.inr rfl))))).mono
          (fun _ s₄ _ h₄ => ⟨hr.trans (hr₃.trans h₄.1), hroots ⟨h₄.2.size.trans h3.size, fun ρ => ?_,
            fun v id hv huv hwv => ?_, fun v id hv => h3.tvr v id (h₄.2.tvr v id hv)⟩⟩)
          fun hc => hclash fun ρ hρ he => ?_
        · rw [h₄.2.sol, h3.sol, and_assoc]
          exact and_congr_right fun hρ => (harrow ρ hρ).symm
        · have hf := h3.frame v id hv (fun h => huv (.head (hku a (Or.inl rfl)) h))
            fun h => hwv (.head (hkw a' (Or.inl rfl)) h)
          exact hf.trans (h₄.2.frame v id (hf.cell.trans hv)
            (fun h => huv (.head (hku b (Or.inr rfl)) (hf.reaches b h)))
            fun h => hwv (.head (hkw b' (Or.inr rfl)) (hf.reaches b' h)))
        · obtain ⟨h1, h2⟩ := (harrow ρ hρ).mp he
          exact hc ρ ((h3.sol ρ).mpr ⟨hρ, h1⟩) h2

end Unify

/-! ## Free variables -/

/-- The type has a variable of that id. -/
def Heap.VarOf (h : Heap) (t id : ℕ) : Prop := ∃ v, h.Reaches t v ∧ h.cell v = .tvr id

section Free

variable {s : TypeState} {h h' : Heap} {t id : ℕ}

lemma Found.varOf {r : ℕ} (hf : Found h t r h') : h.VarOf t id ↔ h'.VarOf r id := by
  constructor
  · rintro ⟨v, hr, hv⟩
    have hn : ∀ l, h.cell v ≠ .link l := by simp [hv]
    exact ⟨v, (hf.halved.reaches r v hn).mpr ((hf.reaches v hn).mp hr), hf.halvings.tvr_iff.mpr hv⟩
  · rintro ⟨v, hr, hv⟩
    have hv := hf.halvings.tvr_iff.mp hv
    have hn : ∀ l, h.cell v ≠ .link l := by simp [hv]
    exact ⟨v, (hf.reaches v hn).mpr ((hf.halved.reaches r v hn).mp hr), hv⟩

lemma Heap.Halvings.varOf (hh : h.Halvings h') : h'.VarOf t id ↔ h.VarOf t id := by
  constructor
  · rintro ⟨v, hr, hv⟩
    have hv := hh.tvr_iff.mp hv
    exact ⟨v, (hh.halved.reaches t v (by simp [hv])).mp hr, hv⟩
  · rintro ⟨v, hr, hv⟩
    exact ⟨v, (hh.halved.reaches t v (by simp [hv])).mpr hr, hh.tvr_iff.mpr hv⟩

lemma Heap.varOf_tvr {i : ℕ} (ht : h.cell t = .tvr i) : h.VarOf t id ↔ id = i := by
  constructor
  · rintro ⟨v, hr, hv⟩
    rcases hr.cases_head with rfl | ⟨k, hk, -⟩
    · rw [ht] at hv
      exact (Cell.tvr.inj hv).symm
    · simp [Heap.Edge, ht, Cell.kids] at hk
  · rintro rfl
    exact ⟨t, .refl, ht⟩

lemma Heap.varOf_arrow {a b : ℕ} (ht : h.cell t = .arrow a b) :
    h.VarOf t id ↔ h.VarOf a id ∨ h.VarOf b id := by
  have hedge : ∀ k, h.Edge t k ↔ k = a ∨ k = b := by simp [Heap.Edge, ht, Cell.kids]
  constructor
  · rintro ⟨v, hr, hv⟩
    rcases hr.cases_head with rfl | ⟨k, hk, hkv⟩
    · rw [ht] at hv
      cases hv
    · rcases (hedge k).mp hk with rfl | rfl
      · exact Or.inl ⟨v, hkv, hv⟩
      · exact Or.inr ⟨v, hkv, hv⟩
  · rintro (⟨v, hr, hv⟩ | ⟨v, hr, hv⟩)
    · exact ⟨v, .head ((hedge a).mpr (Or.inl rfl)) hr, hv⟩
    · exact ⟨v, .head ((hedge b).mpr (Or.inr rfl)) hr, hv⟩

lemma Solving.fv {d : ℕ} {f : List ℕ} (hs : Clean s) (ht : t < s.heap.size) :
    Solving (fv d t f) s (fun f' s' => Rest s s' ∧ s.heap.Halvings s'.heap ∧
      ∀ id, id ∈ f' ↔ id ∈ f ∨ s.heap.VarOf t id) False := by
  induction d generalizing s t f with
  | zero => exact .spent
  | succ d ih =>
    refine .bind (.find hs ht) fun u s₁ hs₁ ⟨hr, hu⟩ => .cellAt ?_
    rcases hu.root hs.plain with ⟨i, hcell⟩ | ⟨a, b, hcell⟩
    · simp only [hcell]
      refine .pure hs₁ ⟨hr, hu.halvings, fun id => ?_⟩
      rw [hu.varOf, Heap.varOf_tvr hcell]
      split_ifs with hi
      · exact ⟨Or.inl, fun h => h.elim (fun h => h) fun h => h ▸ hi⟩
      · simp
    · simp only [hcell]
      have hlt : ∀ k, k = a ∨ k = b → k < s₁.heap.size := fun k hk =>
        hs₁.plain.closed u k (by simpa [Heap.Edge, hcell, Cell.kids])
      refine .bind (ih hs₁ (hlt a (Or.inl rfl))) fun f₁ s₂ hs₂ h₂ => ?_
      obtain ⟨hr₂, hh₂, hf₁⟩ := h₂
      refine (ih hs₂ (hh₂.halved.size ▸ hlt b (Or.inr rfl))).mono
        (fun f₂ s₃ _ h₃ => ⟨hr.trans (hr₂.trans h₃.1), hu.halvings.trans (hh₂.trans h₃.2.1), fun id => ?_⟩) id
      rw [h₃.2.2, hf₁, hh₂.varOf, hu.varOf, Heap.varOf_arrow hcell, or_assoc]

lemma Solving.envVars {d : ℕ} {es : List (String × Scheme)} {dyn : List ℕ} (hs : Clean s)
    (hes : ∀ e ∈ es, e.2.t < s.heap.size) :
    Solving (envVars d es dyn) s (fun dyn' s' => Rest s s' ∧ s.heap.Halvings s'.heap ∧
      ∀ id, id ∈ dyn' ↔ id ∈ dyn ∨ ∃ e ∈ es, s.heap.VarOf e.2.t id) False := by
  induction es generalizing s dyn with
  | nil => exact .pure hs ⟨.refl s, .refl, by simp⟩
  | cons e es ih =>
    obtain ⟨he, hes⟩ := List.forall_mem_cons.mp hes
    refine .bind (.find hs he) fun u s₁ hs₁ ⟨hr, hu⟩ => .cellAt ?_
    have hes₁ : ∀ {s' : TypeState}, s.heap.Halvings s'.heap → ∀ e ∈ es, e.2.t < s'.heap.size := fun hh e h =>
      hh.halved.size ▸ hes e h
    have hrest : ∀ {dyn₁ dyn' : List ℕ} {s₂ : TypeState}, s.heap.Halvings s₂.heap →
        (∀ id, id ∈ dyn₁ ↔ id ∈ dyn ∨ s.heap.VarOf e.2.t id) →
        (∀ id, id ∈ dyn' ↔ id ∈ dyn₁ ∨ ∃ e ∈ es, s₂.heap.VarOf e.2.t id) →
        ∀ id, id ∈ dyn' ↔ id ∈ dyn ∨ ∃ e' ∈ e :: es, s.heap.VarOf e'.2.t id := by
      intro dyn₁ dyn' s₂ hh h1 h2 id
      simp only [h2, h1, hh.varOf, List.mem_cons, exists_eq_or_imp, or_assoc]
    rcases hu.root hs.plain with ⟨i, hcell⟩ | ⟨a, b, hcell⟩
    · simp only [hcell]
      refine (ih hs₁ (hes₁ hu.halvings)).mono (fun dyn' s₂ _ ⟨hr₂, hh₂, hd⟩ =>
        ⟨hr.trans hr₂, hu.halvings.trans hh₂, hrest hu.halvings (fun id => ?_) hd⟩) (fun h => h)
      rw [hu.varOf, Heap.varOf_tvr hcell]
      simp
    · simp only [hcell]
      have he₁ : e.2.t < s₁.heap.size := hu.halved.size ▸ he
      refine .bind (.fv hs₁ he₁) fun dyn₁ s₂ hs₂ ⟨hr₂, hh₂, hd₁⟩ => ?_
      have hh := hu.halvings.trans hh₂
      refine (ih hs₂ (hes₁ hh)).mono (fun dyn' s₃ _ ⟨hr₃, hh₃, hd⟩ =>
        ⟨hr.trans (hr₂.trans hr₃), hh.trans hh₃, hrest hh (fun id => ?_) hd⟩) (fun h => h)
      rw [hd₁, hu.halvings.varOf]

/-- The quantified variables are those of the type that no binder has. -/
structure Generalized (s : TypeState) (t : ℕ) (sch : Scheme) : Prop where
  type : sch.t = t
  q : ∀ id, id ∈ sch.q ↔ s.heap.VarOf t id ∧ ∀ e ∈ s.env, ¬ s.heap.VarOf e.2.t id

lemma Solving.generalize {d : ℕ} (hs : Clean s) (ht : t < s.heap.size)
    (hrc : ∀ id, s.envrc.get id = 0) :
    Solving (generalize d t) s (fun sch s' => Rest s s' ∧ s.heap.Halvings s'.heap ∧
      Generalized s t sch) False := by
  refine .bind (.fv hs ht) fun f s₁ hs₁ ⟨hr₁, hh₁, hf⟩ => .get ?_
  refine .bind (.envVars hs₁ fun e he => hs₁.tracked.env e (List.mem_reverse.mp he))
    fun dyn s₂ hs₂ ⟨hr₂, hh₂, hd⟩ => .get (.pure hs₂ ⟨hr₁.trans hr₂, hh₁.trans hh₂, rfl, fun id => ?_⟩)
  have hrc₂ : s₂.envrc.get id = 0 := by
    rw [(hr₁.trans hr₂).envrc]
    exact hrc id
  simp only [List.mem_filter, hf, hrc₂, List.not_mem_nil, false_or, hd, List.mem_reverse, hr₁.env,
    hh₁.varOf, Nat.lt_irrefl, decide_false, Bool.false_or, Bool.not_eq_true', decide_eq_false_iff_not,
    not_exists, not_and]

end Free

/-! ## Instances -/

namespace Heap

/-- New cells beside the old ones, whose paths of links may have been halved. -/
structure Widened (h h' : Heap) : Prop where
  tamer : h.Tamer h'
  cell : ∀ c < h.size, (∀ l, h.cell c ≠ .link l) → h'.cell c = h.cell c
  reaches : ∀ c < h.size, ∀ v < h.size, (∀ l, h.cell v ≠ .link l) → (h'.Reaches c v ↔ h.Reaches c v)
  sol : ∀ ρ, h'.Sol ρ → h.Sol ρ

section Widened

variable {h h' h'' : Heap} {ρ : ℕ → Ty}

lemma Widened.size (h₁ : Widened h h') : h.size ≤ h'.size := h₁.tamer.size

lemma Widened.refl (h : Heap) : Widened h h :=
  ⟨.refl h, fun _ _ _ => rfl, fun _ _ _ _ _ => Iff.rfl, fun _ h => h⟩

lemma Widened.trans (hc : h.Closed) (h₁ : Widened h h') (h₂ : Widened h' h'') : Widened h h'' := by
  have hstay : ∀ c < h.size, (∀ l, h.cell c ≠ .link l) → ∀ l, h'.cell c ≠ .link l := fun c hc hn l => by
    rw [h₁.cell c hc hn]
    exact hn l
  refine ⟨h₁.tamer.trans hc h₂.tamer, fun c hc hn => ?_, fun c hc v hv hn => ?_,
    fun ρ hρ => h₁.sol ρ (h₂.sol ρ hρ)⟩
  · exact (h₂.cell c (hc.trans_le h₁.size) (hstay c hc hn)).trans (h₁.cell c hc hn)
  · exact (h₂.reaches c (hc.trans_le h₁.size) v (hv.trans_le h₁.size) (hstay v hv hn)).trans
      (h₁.reaches c hc v hv hn)

/-- What an old cell reaches is old. -/
lemma Widened.lt (hc : h.Closed) (h₁ : Widened h h') {c v : ℕ} (hlt : c < h.size)
    (hr : h'.Reaches c v) : v < h.size := by
  rcases reflTransGen_iff_eq_or_transGen.mp hr with rfl | hr
  · exact hlt
  · exact Reaches.lt hc (h₁.tamer.transGen hc hlt hr).to_reflTransGen hlt

lemma Halvings.tamer (hc : h.Closed) (hh : h.Halvings h') : Tamer h h' := by
  induction hh with
  | refl => exact .refl _
  | tail hpre hstep ih =>
    obtain ⟨_, _, hstep⟩ := hstep
    exact ih.trans hc hstep.tamer

lemma Halvings.widened (hc : h.Closed) (hh : h.Halvings h') : Widened h h' :=
  ⟨hh.tamer hc, fun c _ hn => hh.halved.cell c hn, fun c _ v _ hn => hh.halved.reaches c v hn,
    fun _ => hh.sol.mp⟩

lemma widened_push {c : Cell} (hc : h.Closed) : Widened h (h.push c) :=
  ⟨.push hc, fun _ ha _ => cell_push_lt ha, fun _ ha _ _ _ => reaches_push hc ha,
    fun _ hρ => (sol_push.mp hρ).1⟩

/-- A solution extends to the new cells, whatever types the new variables have. -/
theorem Widened.extend (hw : Widened h h') (hp : h.Plain) (hp' : h'.Plain) (hρ : h.Sol ρ) (f : ℕ → Ty) :
    ∃ ρ', h'.Sol ρ' ∧ (∀ c < h.size, ρ' c = ρ c) ∧
      ∀ v id, h.size ≤ v → h'.cell v = .tvr id → ρ' v = f v := by
  set g : ℕ → Ty := fun v => if v < h.size then ρ v else f v with hg
  have hsol : h'.Sol (h'.read g) := sol_read hp'.closed hp'.acyclic g
  refine ⟨h'.read g, hsol, fun c hc => ?_, fun v id hv hid => ?_⟩
  · refine hp.determined (hw.sol _ hsol) hρ hc fun v id _ hid => ?_
    have hlt := lt_of_tvr hid
    rw [read_tvr ((hw.cell v hlt (by simp [hid])).trans hid), hg]
    exact if_pos hlt
  · rw [read_tvr hid, hg]
    exact if_neg (not_lt.mpr hv)

end Widened

end Heap

section Instances

variable {s : TypeState} {m : List (ℕ × ℕ)}

/-- The same binders, counts and definitions. -/
structure SameScope (s s' : TypeState) : Prop where
  env : s'.env = s.env
  envrc : s'.envrc = s.envrc
  prog : s'.prog = s.prog
  nextId : s.nextId ≤ s'.nextId

lemma SameScope.refl (s : TypeState) : SameScope s s := ⟨rfl, rfl, rfl, le_rfl⟩

lemma SameScope.trans {s s' s'' : TypeState} (h : SameScope s s') (h' : SameScope s' s'') : SameScope s s'' :=
  ⟨h'.env.trans h.env, h'.envrc.trans h.envrc, h'.prog.trans h.prog, h.nextId.trans h'.nextId⟩

lemma Rest.sameScope {s s' : TypeState} (h : Rest s s') : SameScope s s' := ⟨h.env, h.envrc, h.prog, h.nextId.ge⟩

/-- One new variable. -/
structure NewVar (s : TypeState) (a : ℕ) (s' : TypeState) : Prop where
  kept : SameScope s s'
  addr : a = s.heap.size
  heap : s'.heap = s.heap.push (.tvr s.nextId)
  nextId : s'.nextId = s.nextId + 1

lemma Solving.tvar (hs : Clean s) : Solving tvar s (NewVar s) False := by
  obtain ⟨ht, -, -⟩ : Keeping LinEngine.tvar s _ := .tvar hs.tracked
  have hp : (s.heap.push (.tvr s.nextId)).Plain :=
    hs.plain.push (by simp [Cell.kids]) (Or.inl ⟨_, rfl, fun v hv => lt_irrefl _ (hs.fresh v _ hv)⟩)
  refine ⟨⟨ht, hp, fun v id hv => ?_⟩, ⟨rfl, rfl, rfl, Nat.le_succ _⟩, rfl, rfl, rfl⟩
  have hv : (s.heap.push (.tvr s.nextId)).cell v = .tvr id := hv
  rcases Nat.lt_succ_iff_lt_or_eq.mp (Heap.size_push ▸ Heap.lt_of_tvr hv) with hlt | rfl
  · rw [Heap.cell_push_lt hlt] at hv
    exact (hs.fresh v id hv).trans (Nat.lt_succ_self _)
  · rw [Heap.cell_push_size] at hv
    exact Cell.tvr.inj hv ▸ Nat.lt_succ_self _

lemma Solving.newArrow {a b : ℕ} (hs : Clean s) (ha : a < s.heap.size) (hb : b < s.heap.size) :
    Solving (newCell (.arrow a b)) s (fun c s' => c = s.heap.size ∧ s'.heap = s.heap.push (.arrow a b) ∧
      Rest s s') False := by
  have hk : ∀ k ∈ (Cell.arrow a b).kids, k < s.heap.size := by simp [Cell.kids, ha, hb]
  obtain ⟨ht, -, -⟩ : Keeping (newCell (.arrow a b)) s _ := .newCell hs.tracked hk
  have hp : (s.heap.push (.arrow a b)).Plain := hs.plain.push hk (Or.inr ⟨a, b, rfl⟩)
  refine ⟨⟨ht, hp, fun v id hv => ?_⟩, rfl, rfl, Follows.newCell _ s⟩
  have hv : (s.heap.push (.arrow a b)).cell v = .tvr id := hv
  rcases Nat.lt_succ_iff_lt_or_eq.mp (Heap.size_push ▸ Heap.lt_of_tvr hv) with hlt | rfl
  · rw [Heap.cell_push_lt hlt] at hv
    exact hs.fresh v id hv
  · rw [Heap.cell_push_size] at hv
    cases hv

/-- A new variable for each id. -/
structure Freshened (s : TypeState) (ids : List ℕ) (m : List (ℕ × ℕ)) (s' : TypeState) : Prop where
  kept : SameScope s s'
  widened : Heap.Widened s.heap s'.heap
  sol : ∀ ρ, s.heap.Sol ρ → s'.heap.Sol ρ
  keys : ∀ id, id ∈ ids ↔ ∃ w, m.lookup id = some w
  target : ∀ id w, m.lookup id = some w → s.heap.size ≤ w ∧ ∃ i, s'.heap.cell w = .tvr i
  inj : ∀ id id' w, m.lookup id = some w → m.lookup id' = some w → id = id'
  frame : ∀ v < s.heap.size, Heap.Frame v s.heap s'.heap

lemma Solving.freshVars {ids : List ℕ} (hs : Clean s) : Solving (freshVars ids) s (Freshened s ids) False := by
  induction ids generalizing s with
  | nil =>
    exact .pure hs ⟨.refl s, .refl _, fun _ h => h, by simp, by simp, by simp, fun v _ => .refl v _⟩
  | cons id ids ih =>
    refine .bind (.tvar hs) fun a s₁ hs₁ hv => .bind (ih hs₁) fun m s₂ hs₂ hm => .pure hs₂ ?_
    obtain ⟨hk, rfl, hheap, -⟩ := hv
    have hsize : s₁.heap.size = s.heap.size + 1 := by rw [hheap, Heap.size_push]
    have hw₁ : Heap.Widened s.heap s₁.heap := hheap ▸ Heap.widened_push hs.plain.closed
    have hlookup : ∀ i w, ((id, s.heap.size) :: m).lookup i = some w ↔
        i = id ∧ w = s.heap.size ∨ i ≠ id ∧ m.lookup i = some w := by
      intro i w
      rw [List.lookup_cons]
      by_cases hi : i = id
      · simp [hi, eq_comm]
      · simp [hi, beq_eq_false_iff_ne.mpr hi]
    refine ⟨hk.trans hm.kept, hw₁.trans hs.plain.closed hm.widened, fun ρ hρ => hm.sol ρ ?_, fun i => ?_, fun i w hw => ?_,
      fun i i' w hw hw' => ?_, fun v hv => ?_⟩
    · rw [hheap]
      exact Heap.sol_push.mpr ⟨hρ, trivial⟩
    · simp only [List.mem_cons, hm.keys, hlookup]
      constructor
      · rintro (rfl | ⟨w, hw⟩)
        · exact ⟨_, Or.inl ⟨rfl, rfl⟩⟩
        · by_cases hi : i = id
          · exact ⟨_, Or.inl ⟨hi, rfl⟩⟩
          · exact ⟨w, Or.inr ⟨hi, hw⟩⟩
      · rintro ⟨w, ⟨rfl, -⟩ | ⟨-, hw⟩⟩
        · exact Or.inl rfl
        · exact Or.inr ⟨w, hw⟩
    · rcases (hlookup i w).mp hw with ⟨-, rfl⟩ | ⟨-, hw⟩
      · have hcell : s₁.heap.cell s.heap.size = .tvr s.nextId := by rw [hheap, Heap.cell_push_size]
        exact ⟨le_rfl, _, (hm.widened.cell _ (by omega) (by simp [hcell])).trans hcell⟩
      · exact ⟨by have := (hm.target i w hw).1; omega, (hm.target i w hw).2⟩
    · rcases (hlookup i w).mp hw with ⟨hi, he⟩ | ⟨-, hm₁⟩ <;>
        rcases (hlookup i' w).mp hw' with ⟨hi', he'⟩ | ⟨-, hm₂⟩
      · rw [hi, hi']
      · have := (hm.target _ _ hm₂).1
        omega
      · have := (hm.target _ _ hm₁).1
        omega
      · exact hm.inj i i' w hm₁ hm₂
    · have hf : Heap.Frame v s.heap s₁.heap := hheap ▸ .push hv (by simp [Cell.kids])
      exact hf.trans (hm.frame v (by omega))

/-- The type of a variable when those with an id in `m` are renamed. -/
def renamed (m : List (ℕ × ℕ)) (ρ : ℕ → Ty) (id v : ℕ) : Ty :=
  match m.lookup id with
  | some w => ρ w
  | none => ρ v

/-- A copy of a type with its variables renamed. -/
structure Copied (s : TypeState) (m : List (ℕ × ℕ)) (t a : ℕ) (s' : TypeState) : Prop where
  rest : Rest s s'
  widened : Heap.Widened s.heap s'.heap
  tvr : ∀ v id, s'.heap.cell v = .tvr id → s.heap.cell v = .tvr id
  lt : a < s'.heap.size
  type : ∀ ρ ρ', s'.heap.Sol ρ → s.heap.Sol ρ' → (∀ v id, s.heap.Reaches t v → s.heap.cell v = .tvr id →
    ρ' v = renamed m ρ id v) → ρ a = ρ' t
  frame : ∀ v id, s.heap.cell v = .tvr id → (∀ i w, m.lookup i = some w → w ≠ v) →
    (s.heap.Reaches t v → ∃ w, m.lookup id = some w) →
    Heap.Frame v s.heap s'.heap ∧ ¬ s'.heap.Reaches a v

lemma Solving.instRec {d t : ℕ} (hs : Clean s) (ht : t < s.heap.size)
    (hm : ∀ i w, m.lookup i = some w → ∃ j, s.heap.cell w = .tvr j) :
    Solving (instRec m d t) s (Copied s m t) False := by
  induction d generalizing s t with
  | zero => exact .spent
  | succ d ih =>
    refine .bind (.find hs ht) fun u s₁ hs₁ ⟨hr, hu⟩ => .cellAt ?_
    have htu : ∀ ρ, s.heap.Sol ρ → ρ t = ρ u := fun ρ hρ => hρ.links hu.links
    have hreach : ∀ v id, s.heap.cell v = .tvr id → (s.heap.Reaches t v ↔ s₁.heap.Reaches u v) :=
      fun v id hv => by
        have hn : ∀ l, s.heap.cell v ≠ .link l := by simp [hv]
        rw [hu.halved.reaches u v hn, hu.reaches v hn]
    rcases hu.root hs.plain with ⟨i, hcell⟩ | ⟨a, b, hcell⟩
    · simp only [hcell]
      have hui := hu.halvings.tvr_iff.mp hcell
      -- a variable reaches itself only
      have hself : ∀ {w v j}, s₁.heap.cell w = .tvr j → s₁.heap.Reaches w v → w = v := by
        intro w v j hw hwv
        rcases hwv.cases_head with rfl | ⟨k, hk, -⟩
        · rfl
        · simp [Heap.Edge, hw, Cell.kids] at hk
      refine .pure hs₁ ⟨hr, hu.halvings.widened hs.plain.closed, fun v id hv => hu.halvings.tvr_iff.mp hv, ?_, ?_, ?_⟩
      · cases hl : m.lookup i with
        | none => exact hu.lt
        | some w =>
          obtain ⟨j, hj⟩ := hm i w hl
          exact hu.halved.size ▸ Heap.lt_of_tvr hj
      · intro ρ ρ' _ hρ' hren
        rw [htu ρ' hρ', hren u i ((hreach u i hui).mpr .refl) hui, renamed]
        cases m.lookup i <;> rfl
      · refine fun v id hv hne hkey => ⟨hu.halvings.frame (by simp [hv]), fun hrv => ?_⟩
        cases hl : m.lookup i with
        | none =>
          rw [hl] at hrv
          obtain rfl := hself hcell hrv
          obtain ⟨w, hw⟩ := hkey ((hreach _ id hv).mpr .refl)
          rw [hui] at hv
          rw [Cell.tvr.inj hv, hw] at hl
          cases hl
        | some w =>
          rw [hl] at hrv
          obtain ⟨j, hj⟩ := hm i w hl
          exact hne i w hl (hself (hu.halvings.tvr_iff.mpr hj) hrv)
    · simp only [hcell]
      have hku : ∀ k, s₁.heap.Edge u k ↔ k = a ∨ k = b := by simp [Heap.Edge, hcell, Cell.kids]
      have hlt : ∀ k, k = a ∨ k = b → k < s₁.heap.size := fun k hk => hs₁.plain.closed u k ((hku k).mpr hk)
      have hm₁ : ∀ i w, m.lookup i = some w → ∃ j, s₁.heap.cell w = .tvr j := fun i w hw =>
        (hm i w hw).imp fun j hj => hu.halvings.tvr_iff.mpr hj
      refine .bind (ih hs₁ (hlt a (Or.inl rfl)) hm₁) fun a' s₂ hs₂ ha => ?_
      have hkeep : ∀ v id, s₁.heap.cell v = .tvr id → s₂.heap.cell v = .tvr id := fun v id hv =>
        (ha.widened.cell v (Heap.lt_of_tvr hv) (by simp [hv])).trans hv
      refine .bind (ih hs₂ ((hlt b (Or.inr rfl)).trans_le ha.widened.size) fun i w hw =>
        (hm₁ i w hw).imp fun j hj => hkeep w j hj) fun b' s₃ hs₃ hb => ?_
      refine (Solving.newArrow hs₃ (ha.lt.trans_le hb.widened.size) hb.lt).mono
        (fun c s₄ hs₄ h₄ => ?_) id
      obtain ⟨hc, hheap, hr₄⟩ := h₄
      subst hc
      have hw₄ : Heap.Widened s₃.heap s₄.heap := hheap ▸ Heap.widened_push hs₃.plain.closed
      have hw : Heap.Widened s.heap s₄.heap :=
        (hu.halvings.widened hs.plain.closed).trans hs.plain.closed
          (ha.widened.trans hs₁.plain.closed (hb.widened.trans hs₂.plain.closed hw₄))
      refine ⟨hr.trans (ha.rest.trans (hb.rest.trans hr₄)), hw, fun v id hv => ?_, ?_, ?_, ?_⟩
      · have hv₃ : s₃.heap.cell v = .tvr id := by
          rw [hheap] at hv
          rcases Nat.lt_succ_iff_lt_or_eq.mp (Heap.size_push ▸ Heap.lt_of_tvr hv) with hlt | rfl
          · rwa [Heap.cell_push_lt hlt] at hv
          · rw [Heap.cell_push_size] at hv
            cases hv
        exact hu.halvings.tvr_iff.mp (ha.tvr v id (hb.tvr v id hv₃))
      · rw [hheap, Heap.size_push]
        exact Nat.lt_succ_self _
      · intro ρ ρ' hρ hρ' hren
        rw [hheap] at hρ
        obtain ⟨hρ₃, hnew⟩ := Heap.sol_push.mp hρ
        have hρ₁ : s₁.heap.Sol ρ' := hu.halvings.sol.mpr hρ'
        have hren₁ : ∀ k, k = a ∨ k = b → ∀ v id, s₁.heap.Reaches k v → s₁.heap.cell v = .tvr id →
            ρ' v = renamed m ρ id v := fun k hk v id hkv hv => by
          have hv := hu.halvings.tvr_iff.mp hv
          exact hren v id ((hreach v id hv).mpr (.head ((hku k).mpr hk) hkv)) hv
        -- the second copy sees the first one's cells
        obtain ⟨ρ'', hρ'', hold, -⟩ := ha.widened.extend hs₁.plain hs₂.plain hρ₁ ρ
        have h1 := ha.type ρ ρ' (hb.widened.sol ρ hρ₃) hρ₁ (hren₁ a (Or.inl rfl))
        have h2 := hb.type ρ ρ'' hρ₃ hρ'' fun v id hbv hv => by
          have hv₁ := ha.tvr v id hv
          have hlt₁ := Heap.lt_of_tvr hv₁
          have hbv₁ := (ha.widened.reaches b (hlt b (Or.inr rfl)) v hlt₁ (by simp [hv₁])).mp hbv
          rw [hold v hlt₁]
          exact hren₁ b (Or.inr rfl) v id hbv₁ hv₁
        have hu' := hρ₁ u
        rw [hcell] at hu'
        rw [htu ρ' hρ', show ρ' u = _ from hu', show ρ s₃.heap.size = _ from hnew, h1, h2,
          hold b (hlt b (Or.inr rfl))]
      · intro v id hv hne hkey
        have hv₁ := hu.halvings.tvr_iff.mpr hv
        have hf₁ : Heap.Frame v s.heap s₁.heap := hu.halvings.frame (by simp [hv])
        have hkey₁ : ∀ k, k = a ∨ k = b → s₁.heap.Reaches k v → ∃ w, m.lookup id = some w := fun k hk hkv =>
          hkey ((hreach v id hv).mpr (.head ((hku k).mpr hk) hkv))
        obtain ⟨hf₂, hav⟩ := ha.frame v id hv₁ hne (hkey₁ a (Or.inl rfl))
        have hv₂ := hf₂.cell.trans hv₁
        obtain ⟨hf₃, hbv⟩ := hb.frame v id hv₂ hne fun hr => hkey₁ b (Or.inr rfl) (hf₂.reaches b hr)
        have hkids : ∀ k ∈ (Cell.arrow a' b').kids, ¬ s₃.heap.Reaches k v := by
          intro k hk
          rcases List.mem_pair.mp hk with rfl | rfl
          · exact fun hr => hav (hf₃.reaches k hr)
          · exact hbv
        have hlt₃ : v < s₃.heap.size := Heap.lt_of_tvr (hf₃.cell.trans hv₂)
        have hf₄ : Heap.Frame v s₃.heap s₄.heap := hheap ▸ .push hlt₃ hkids
        refine ⟨hf₁.trans (hf₂.trans (hf₃.trans hf₄)), fun hr => ?_⟩
        rcases (hf₄.reaches _ hr).cases_head with he | ⟨k, hk, -⟩
        · omega
        · exact absurd hk.lt (lt_irrefl _)

end Instances

end LinEngine
