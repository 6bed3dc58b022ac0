import LinEngine.Readback

/-!
# The pure readers against the forcing ones

Both describe the same encodings, one as patterns, one as walks. On a net at rest the
pattern reads towers where the core reads chains of bits, its nil is a selector where the
core takes any binder, and it follows fans by the plain walk where the core crosses them.
-/
namespace LinEngine

open LinPat

section Layers

variable {n : Net} {p q : Option Port}

lemma tagAt_tag {cross : Bool} {t : Tag} {a : Port} (h : tagAt cross t n p = some a) : n.tag.get a.node = t := by
  simp only [tagAt, Option.filter_eq_some_iff, Bool.and_eq_true, beq_iff_eq] at h
  exact h.2.2

lemma tagAt_walk {cross : Bool} {t : Tag} {a : Port} (h : tagAt cross t n p = some a) : fanWalk cross n p = some a :=
  (Option.filter_eq_some_iff.mp h).1

lemma selAt_eq_some {cross second : Bool} {w : Port} :
    selAt cross second n p = some w ↔ ∃ a, tagAt cross .lam n p = some a ∧
      tagAt cross .lam n (n.wireAt ⟨a.node, 2⟩) = some w ∧
      fanWalk cross n (n.wireAt ⟨w.node, 2⟩) = some ⟨if second then w.node else a.node, 1⟩ := by
  simp only [selAt, bind, Option.bind_eq_some_iff, Option.ite_none_right_eq_some, Option.some_inj]
  constructor
  · rintro ⟨a, ha, _, hw, hbody, rfl⟩
    exact ⟨a, ha, hw, hbody⟩
  · rintro ⟨a, ha, hw, hbody⟩
    exact ⟨a, ha, w, hw, hbody, rfl⟩

lemma bodyAt_eq_some {b : Option Port} :
    bodyAt n p = some b ↔ ∃ a c, tagAt false .lam n p = some a ∧
      tagAt false .lam n (n.wireAt ⟨a.node, 2⟩) = some c ∧ c.port = 0 ∧ n.wireAt ⟨c.node, 2⟩ = b := by
  simp only [bodyAt, bind, Option.bind_eq_some_iff, Option.filter_eq_some_iff, beq_iff_eq, Option.some_inj]
  constructor
  · rintro ⟨a, ha, c, ⟨hc, hport⟩, h⟩
    exact ⟨a, c, ha, hc, hport, h⟩
  · rintro ⟨a, c, ha, hc, hport, h⟩
    exact ⟨a, ha, c, ⟨hc, hport⟩, h⟩

lemma consAt_eq_some {c : Option Port × Option Port} :
    consAt n p = some c ↔ ∃ b body ia, bodyAt n p = some b ∧ tagAt false .app n b = some body ∧
      tagAt false .app n (n.wireAt ⟨body.node, 0⟩) = some ia ∧ c = (n.wireAt ⟨ia.node, 2⟩, n.wireAt ⟨body.node, 2⟩) := by
  simp only [consAt, bind, Option.bind_eq_some_iff, Option.some_inj]
  constructor
  · rintro ⟨b, hb, body, hbody, ia, hia, h⟩
    exact ⟨b, body, ia, hb, hbody, hia, h.symm⟩
  · rintro ⟨b, body, ia, hb, hbody, hia, h⟩
    exact ⟨b, hb, body, hbody, ia, hia, h.symm⟩

/-- What the plain walk finds below two binders is not both a binder and an application. -/
lemma consAt_body {a w : Port} {c : Option Port × Option Port} (hc : consAt n p = some c)
    (ha : tagAt false .lam n p = some a) (hw : tagAt false .lam n (n.wireAt ⟨a.node, 2⟩) = some w) :
    ∃ body ia, tagAt false .app n (n.wireAt ⟨w.node, 2⟩) = some body ∧
      tagAt false .app n (n.wireAt ⟨body.node, 0⟩) = some ia := by
  obtain ⟨b, body, ia, hb, hbody, hia, -⟩ := consAt_eq_some.mp hc
  obtain ⟨a', w', ha', hw', -, rfl⟩ := bodyAt_eq_some.mp hb
  cases ha.symm.trans ha'
  cases hw.symm.trans hw'
  exact ⟨body, ia, hbody, hia⟩

lemma selAt_not_cell {second : Bool} (h : (selAt false second n p).isSome) : consAt n p = none := by
  obtain ⟨w, hsel⟩ := Option.isSome_iff_exists.mp h
  obtain ⟨a, ha, hw, hvar⟩ := selAt_eq_some.mp hsel
  by_contra hcell
  obtain ⟨c, hc⟩ := Option.ne_none_iff_exists'.mp hcell
  obtain ⟨body, ia, hbody, -⟩ := consAt_body hc ha hw
  have happ := tagAt_tag hbody
  cases hvar.symm.trans (tagAt_walk hbody)
  cases second with
  | false => simp [tagAt_tag ha] at happ
  | true => simp [tagAt_tag hw] at happ

lemma succAt_not_cell (h : (succAt n p).isSome) : consAt n p = none := by
  obtain ⟨t, ht⟩ := Option.isSome_iff_exists.mp h
  simp only [succAt, bind, Option.bind_eq_some_iff] at ht
  obtain ⟨a, ha, w, hw, body, hbody, ht⟩ := ht
  split_ifs at ht with hvar
  by_contra hcell
  obtain ⟨c, hc⟩ := Option.ne_none_iff_exists'.mp hcell
  obtain ⟨body', ia, hbody', hia⟩ := consAt_body hc ha hw
  cases hbody.symm.trans hbody'
  have happ := tagAt_tag hia
  cases hvar.symm.trans (tagAt_walk hia)
  simp [tagAt_tag hw] at happ

lemma nilAt_not_cell (h : nilAt n p = true) : consAt n p = none := by
  obtain ⟨b, hb, hlam⟩ : ∃ b, bodyAt n p = some b ∧ (tagAt false .lam n b).isSome := by
    simpa [nilAt, Option.any_eq_true] using h
  obtain ⟨v, hv⟩ := Option.isSome_iff_exists.mp hlam
  by_contra hcell
  obtain ⟨c, hc⟩ := Option.ne_none_iff_exists'.mp hcell
  obtain ⟨b', body, -, hb', hbody, -⟩ := consAt_eq_some.mp hc
  cases hb.symm.trans hb'
  have happ := tagAt_tag hbody
  cases (tagAt_walk hv).symm.trans (tagAt_walk hbody)
  simp [tagAt_tag hv] at happ

lemma consAt_live (hw : Wired n) {c : Option Port × Option Port} (h : consAt n p = some c) :
    LivePort n c.1 ∧ LivePort n c.2 := by
  obtain ⟨b, body, ia, -, hbody, hia, rfl⟩ := consAt_eq_some.mp h
  exact ⟨.wire hw (tagAt_live hia) 2, .wire hw (tagAt_live hbody) 2⟩

end Layers

/-! ## Chains -/

/-- `k` cells lead from one port to the other, each of them as `ok` says. -/
inductive Cells (n : Net) (ok : Option Port × Option Port → Bool) : ℕ → Option Port → Option Port → Prop
  | here (p : Option Port) : Cells n ok 0 p p
  | next {k : ℕ} {p q : Option Port} {c : Option Port × Option Port} (hc : (consAt n p).filter ok = some c)
      (tail : Cells n ok k c.2 q) : Cells n ok (k + 1) p q

/-- `k` successor layers lead from one port to the other. -/
inductive Succs (n : Net) : ℕ → Option Port → Option Port → Prop
  | here (p : Option Port) : Succs n 0 p p
  | next {k : ℕ} {p q t : Option Port}
      (ht : ((succAt n p).filter fun t => t.any fun q => n.live q.node) = some t) (tail : Succs n k t q) :
      Succs n (k + 1) p q

section Chains

variable {n : Net} {p : Option Port}

lemma consAt_filter_all : (consAt n p).filter (fun _ => true) = consAt n p := by cases consAt n p <;> rfl

lemma numNfLoop_cons_iff {enc : Enc} (henc : enc = .cons ∨ enc = .str) (s cnt : ℕ) (v : ℕ) :
    numNfLoop n enc s cnt p = some v ↔
      ∃ k q, k < s ∧ Cells n (wiredCell n) k p q ∧ (selAt false true n q).isSome ∧ v = cnt + k := by
  induction s generalizing cnt p with
  | zero => simp [numNfLoop]
  | succ s ih =>
    rw [numNfLoop_cons henc]
    cases hc : (consAt n p).filter (wiredCell n) with
    | some c =>
      refine (ih (cnt + 1)).trans ⟨?_, ?_⟩
      · rintro ⟨k, q, hk, hcells, hsel, rfl⟩
        exact ⟨k + 1, q, by omega, .next hc hcells, hsel, by omega⟩
      · rintro ⟨k, q, hk, hcells, hsel, rfl⟩
        cases hcells with
        | here =>
          rw [selAt_not_cell hsel] at hc
          exact absurd hc (by simp)
        | @next k _ _ c' hc' tail =>
          cases hc.symm.trans hc'
          exact ⟨k, q, by omega, tail, hsel, by omega⟩
    | none =>
      dsimp only
      constructor
      · intro h
        split_ifs at h with hsel
        cases h
        exact ⟨0, p, by omega, .here p, hsel, rfl⟩
      · rintro ⟨k, q, hk, hcells, hsel, rfl⟩
        cases hcells with
        | here => rw [if_pos hsel]; rfl
        | next hc' => exact absurd (hc.symm.trans hc') (by simp)

lemma selAt_not_succ {second : Bool} (h : (selAt false second n p).isSome) : succAt n p = none := by
  obtain ⟨w, hsel⟩ := Option.isSome_iff_exists.mp h
  obtain ⟨a, ha, hw, hvar⟩ := selAt_eq_some.mp hsel
  by_contra hsucc
  obtain ⟨t, ht⟩ := Option.ne_none_iff_exists'.mp hsucc
  simp only [succAt, bind, Option.bind_eq_some_iff] at ht
  obtain ⟨a', ha', w', hw', body, hbody, -⟩ := ht
  cases ha.symm.trans ha'
  cases hw.symm.trans hw'
  have happ := tagAt_tag hbody
  cases hvar.symm.trans (tagAt_walk hbody)
  cases second with
  | false => simp [tagAt_tag ha] at happ
  | true => simp [tagAt_tag hw] at happ

lemma numNfLoop_num_iff (s cnt : ℕ) (v : ℕ) :
    numNfLoop n .num s cnt p = some v ↔
      ∃ k q, k < s ∧ Succs n k p q ∧ (selAt false false n q).isSome ∧ v = cnt + k := by
  induction s generalizing cnt p with
  | zero => simp [numNfLoop]
  | succ s ih =>
    rw [numNfLoop_num]
    by_cases hsel : (selAt false false n p).isSome
    · rw [if_pos hsel]
      constructor
      · rintro ⟨⟩
        exact ⟨0, p, by omega, .here p, hsel, rfl⟩
      · rintro ⟨k, q, hk, hsuccs, -, rfl⟩
        cases hsuccs with
        | here => rfl
        | next ht =>
          rw [selAt_not_succ hsel] at ht
          exact absurd ht (by simp)
    · rw [if_neg hsel]
      cases ht : (succAt n p).filter fun t => t.any fun q => n.live q.node with
      | none =>
        refine ⟨fun h => absurd h (by simp), ?_⟩
        rintro ⟨k, q, hk, hsuccs, hsel', rfl⟩
        cases hsuccs with
        | here => exact absurd hsel' hsel
        | next ht' => exact absurd (ht.symm.trans ht') (by simp)
      | some t =>
        refine (ih (cnt + 1)).trans ⟨?_, ?_⟩
        · rintro ⟨k, q, hk, hsuccs, hsel', rfl⟩
          exact ⟨k + 1, q, by omega, .next ht hsuccs, hsel', by omega⟩
        · rintro ⟨k, q, hk, hsuccs, hsel', rfl⟩
          cases hsuccs with
          | here => exact absurd hsel' hsel
          | @next k _ _ t' ht' tail =>
            cases ht.symm.trans ht'
            exact ⟨k, q, by omega, tail, hsel', by omega⟩

end Chains

/-! ## The core on a net at rest -/

section Rest

variable {force : Net → Port → Net} {fuel : ℕ} {n : Net} {p : Option Port} {I : Net → Prop} (hw : Wired n)
  (hforce : ∀ m p, SameLive m n → I m → SameLive (force m p) n ∧ I (force m p)) (hfuel : 0 < fuel)

include hw hforce hfuel

/-- The length is the number of cells down to a nil. -/
lemma returns_countLoop (hp : LivePort n p) {f cnt : ℕ} (hcnt : cnt ≤ n.nn) (hf : n.nn < f + cnt) :
    ∃ r, Returns I (countLoop force fuel f cnt p) n r ∧
      ∀ v : ℕ, r = v ↔ ∃ k q, cnt + k < n.nn ∧ Cells n (fun _ => true) k p q ∧ nilAt n q = true ∧ v = cnt + k := by
  induction f generalizing cnt p with
  | zero => omega
  | succ f ih =>
    by_cases hend : n.nn ≤ cnt
    · refine ⟨-1, .get fun m hm hI => ⟨m, by rw [hm.nn, if_pos hend]; rfl, hm, hI⟩, fun v => ?_⟩
      refine ⟨fun h => absurd h (by omega), ?_⟩
      rintro ⟨k, q, hk, -⟩
      omega
    have hlayer := returns_consLayer hw hforce hfuel hp
    cases hc : consAt n p with
    | some c =>
      obtain ⟨r, hr, hv⟩ := @ih c.2 (consAt_live hw hc).2 (cnt + 1) (by omega) (by omega)
      rw [layerAt, hc] at hlayer
      refine ⟨r, fun m hm hI => ?_, fun v => (hv v).trans ⟨?_, ?_⟩⟩
      · obtain ⟨m₁, hrun, hm₁⟩ := hlayer m hm hI
        rw [countLoop_cell (by rw [hm.nn]; omega) hrun]
        exact hr m₁ hm₁.1 hm₁.2
      · rintro ⟨k, q, hk, hcells, hnil, rfl⟩
        exact ⟨k + 1, q, by omega, .next (by simp [hc]) hcells, hnil, by omega⟩
      · rintro ⟨k, q, hk, hcells, hnil, rfl⟩
        cases hcells with
        | here =>
          rw [nilAt_not_cell hnil] at hc
          exact absurd hc (by simp)
        | @next k _ _ c' hc' tail =>
          rw [consAt_filter_all, hc, Option.some_inj] at hc'
          subst hc'
          exact ⟨k, q, by omega, tail, hnil, by omega⟩
    | none =>
      by_cases hnil : nilAt n p = true
      · rw [layerAt, hc] at hlayer
        refine ⟨cnt, fun m hm hI => ?_, fun v => ⟨?_, ?_⟩⟩
        · obtain ⟨m₁, hrun, hm₁⟩ := hlayer m hm hI
          exact ⟨m₁, countLoop_nil (by rw [hm.nn]; omega) (by rwa [if_pos hnil] at hrun), hm₁⟩
        · intro h
          exact ⟨0, p, by omega, .here p, hnil, by omega⟩
        · rintro ⟨k, q, hk, hcells, -, rfl⟩
          cases hcells with
          | here => rfl
          | next hc' => rw [consAt_filter_all, hc] at hc'; exact absurd hc' (by simp)
      · rw [layerAt, hc] at hlayer
        refine ⟨-1, fun m hm hI => ?_, fun v => ⟨fun h => absurd h (by omega), ?_⟩⟩
        · obtain ⟨m₁, hrun, hm₁⟩ := hlayer m hm hI
          exact ⟨m₁, countLoop_none (by rw [hm.nn]; omega) (by rwa [if_neg hnil] at hrun), hm₁⟩
        · rintro ⟨k, q, hk, hcells, hnil', rfl⟩
          cases hcells with
          | here => exact absurd hnil' hnil
          | next hc' => rw [consAt_filter_all, hc] at hc'; exact absurd hc' (by simp)

/-- A chain of bits starts with a cell that has a boolean in it. -/
def bitAt (n : Net) (p : Option Port) : Bool := (consAt n p).any fun c => decide (0 ≤ boolAt n c.1)

omit hw hforce hfuel in
/-- Once a bit is read the loop returns a number. -/
lemma bitsLoop_nonneg {f k a : ℕ} {m m' : Net} {v : ℤ} (hk : k ≠ 0)
    (h : bitsLoop force fuel f k a p m = some (v, m')) : 0 ≤ v := by
  induction f generalizing k a p m with
  | zero => simp [bitsLoop, Read.failure_eq] at h
  | succ f ih =>
    simp only [bitsLoop, Read.bind_eq, Read.get_eq, Option.bind_some, if_neg hk] at h
    split_ifs at h
    · simp only [Read.pure_eq, Option.some_inj, Prod.mk.injEq] at h
      omega
    · rw [Read.bind_eq, Option.bind_eq_some_iff] at h
      obtain ⟨⟨l, m₁⟩, -, h⟩ := h
      obtain _ | _ | ⟨hd, t⟩ := l
      · simp only [Read.pure_eq, Option.some_inj, Prod.mk.injEq] at h
        omega
      · simp only [Read.pure_eq, Option.some_inj, Prod.mk.injEq] at h
        omega
      · simp only [Read.bind_eq, Option.bind_eq_some_iff] at h
        obtain ⟨⟨b, m₂⟩, -, h⟩ := h
        by_cases hb : b < 0
        · simp only [hb, if_true, Read.pure_eq, Option.some_inj, Prod.mk.injEq] at h
          omega
        · simp only [hb, if_false, Read.bind_eq, Option.bind_eq_some_iff] at h
          obtain ⟨⟨a', m₃⟩, -, h⟩ := h
          exact ih (by omega) h

omit hw hforce hfuel in
lemma SameLive.refl (n : Net) : SameLive n n := ⟨rfl, fun _ => rfl, fun _ _ => rfl, fun _ _ => rfl⟩

/-- The number reader on a net at rest. -/
lemma bitsLoop_rest (hI : I n) (hp : LivePort n p) (hnn : 0 < n.nn) (f : ℕ) :
    (bitAt n p = true → ∀ v m', bitsLoop force fuel (f + 1) 0 0 p n = some (v, m') → 0 ≤ v) ∧
      (bitAt n p = false → ∃ m', bitsLoop force fuel (f + 1) 0 0 p n = some (-1, m')) := by
  obtain ⟨n₁, hlayer, hn₁, hI₁⟩ := returns_consLayer hw hforce hfuel hp n (.refl n) hI
  cases hc : consAt n p with
  | none =>
    have hbit : bitAt n p = false := by rw [bitAt, hc]; rfl
    refine ⟨fun h => absurd (hbit.symm.trans h) (by decide), fun _ => ⟨n₁, ?_⟩⟩
    rw [layerAt, hc] at hlayer
    simp only [bitsLoop, Read.bind_eq, Read.get_eq, Option.bind_some, if_neg (not_le.mpr hnn), hlayer]
    by_cases hnil : nilAt n p = true <;> simp [hnil, Read.pure_eq]
  | some c =>
    rw [layerAt, hc] at hlayer
    obtain ⟨n₂, hread, -⟩ := returns_netReadBool hw hforce hfuel (consAt_live hw hc).1 n₁ hn₁ hI₁
    have hbit : bitAt n p = decide (0 ≤ boolAt n c.1) := by rw [bitAt, hc]; rfl
    constructor
    · intro h v m' hrun
      rw [hbit, decide_eq_true_iff] at h
      rw [bitsLoop_cell hnn hlayer hread h, Read.bind_eq, Option.bind_eq_some_iff] at hrun
      obtain ⟨⟨a', n₃⟩, -, hrun⟩ := hrun
      exact bitsLoop_nonneg (by omega) hrun
    · intro h
      rw [hbit, decide_eq_false_iff_not, not_le] at h
      refine ⟨n₂, ?_⟩
      simp only [bitsLoop, Read.bind_eq, Read.get_eq, Option.bind_some, if_neg (not_le.mpr hnn), hlayer, hread, h,
        if_true, Read.pure_eq]

end Rest

/-! ## The two walks through fans -/

/-- A fan entered at its principal port. -/
def fanFront (n : Net) (p : Option Port) : Bool :=
  p.any fun q => n.live q.node && n.tag.get q.node == .dup && q.port == 0

section Fans

variable {n : Net} {p : Option Port} (hw : Wired n) (hh : Halted n)

include hw hh

/-- Behind an auxiliary port no fan is entered at its principal port: that would be a pair. -/
lemma fanFront_behind {q : Port} (hq : n.live q.node = true) (ht : n.tag.get q.node = .dup) :
    fanFront n (n.wireAt ⟨q.node, 0⟩) = false := by
  by_contra hfront
  rw [Bool.not_eq_false, fanFront, Option.any_eq_true] at hfront
  obtain ⟨r, hr, hr'⟩ := hfront
  simp only [Bool.and_eq_true, beq_iff_eq] at hr'
  obtain ⟨⟨hlr, htr⟩, hport⟩ := hr'
  have hback := (hw ⟨q.node, 0⟩ r hq hr).2.1
  have hlive : redexLive n ⟨q.node, 0⟩ r = true := by simp [redexLive, hq, hlr, hport, hr, hback]
  exact absurd (hh _ _ hlive) (by simp [ht, htr, fireable])

lemma dupHop_eq_skipDup (hp : LivePort n p) (hfront : fanFront n p = false) (f : ℕ) : dupHop n f p = skipDup n f p := by
  induction f generalizing p with
  | zero => rfl
  | succ f ih =>
    cases p with
    | none => rfl
    | some q =>
      have hq := hp q rfl
      rw [dupHop, skipDup]
      by_cases ht : n.tag.get q.node = .dup
      · have hport : q.port ≠ 0 := by
          intro h
          simp [fanFront, hq, ht, h] at hfront
        simp only [hq, ht, hport, beq_self_eq_true, Bool.and_self, if_true, if_false]
        exact ih (.wire hw hq 0) (fanFront_behind hw hh hq ht)
      · simp [ht]

/-- The walks part only where the first fan is entered at its principal port. -/
lemma fanWalk_eq (hp : LivePort n p) (hfront : fanFront n p = false) : fanWalk true n p = fanWalk false n p :=
  dupHop_eq_skipDup hw hh hp hfront n.nn

omit hh in
/-- Entered at its principal port a fan sends the plain walk back to where it came from. -/
lemma fanWalk_back {v : ℕ} {k : Fin 3} (hv : n.live v = true) (ht : n.tag.get v = .lam)
    (hfront : fanFront n (n.wireAt ⟨v, k⟩) = true) : fanWalk false n (n.wireAt ⟨v, k⟩) = some ⟨v, k⟩ := by
  rw [fanFront, Option.any_eq_true] at hfront
  obtain ⟨q, hq, hq'⟩ := hfront
  simp only [Bool.and_eq_true, beq_iff_eq] at hq'
  obtain ⟨⟨hlq, htq⟩, hport⟩ := hq'
  have hback := (hw ⟨v, k⟩ q hv hq).2.1
  obtain ⟨f, hf⟩ : ∃ f, n.nn = f + 1 := Nat.exists_eq_succ_of_ne_zero (by
    intro h
    simp [Net.live, Net.inNet, h] at hv)
  have hprincipal : n.wireAt ⟨q.node, 0⟩ = some ⟨v, k⟩ := by rw [← hport]; exact hback
  rw [fanWalk, if_neg (by decide), hq, hf, skipDup]
  simp only [hlq, htq, beq_self_eq_true, Bool.and_self, if_true, hprincipal]
  cases f with
  | zero => rfl
  | succ f => simp [skipDup, ht]

omit hh in
/-- What the plain reading selects lies behind no front of a fan. -/
lemma selAt_plain_front {second : Bool} {a w : Port} (ha : tagAt false .lam n p = some a)
    (hsel : selAt false second n p = some w) :
    fanFront n (n.wireAt ⟨a.node, 2⟩) = false ∧ fanFront n (n.wireAt ⟨w.node, 2⟩) = false := by
  obtain ⟨a', ha', hw', hvar⟩ := selAt_eq_some.mp hsel
  cases ha.symm.trans ha'
  constructor
  · by_contra hfront
    rw [Bool.not_eq_false] at hfront
    have hback := fanWalk_back hw (tagAt_live ha) (tagAt_tag ha) hfront
    cases (tagAt_walk hw').symm.trans hback
    rw [hback] at hvar
    simp at hvar
  · by_contra hfront
    rw [Bool.not_eq_false] at hfront
    rw [fanWalk_back hw (tagAt_live hw') (tagAt_tag hw') hfront] at hvar
    simp at hvar

lemma tagAt_eq (hp : LivePort n p) (hfront : fanFront n p = false) (t : Tag) : tagAt true t n p = tagAt false t n p := by
  rw [tagAt, tagAt, fanWalk_eq hw hh hp hfront]

/-- Without a front below the first binder both readings select the same. -/
lemma selAt_eq (heq : fanWalk true n p = fanWalk false n p) {a w : Port} (ha : tagAt false .lam n p = some a)
    (hw' : tagAt false .lam n (n.wireAt ⟨a.node, 2⟩) = some w) (hfront : fanFront n (n.wireAt ⟨a.node, 2⟩) = false)
    (hfront' : fanFront n (n.wireAt ⟨w.node, 2⟩) = false) (second : Bool) :
    selAt true second n p = selAt false second n p := by
  have hcross : tagAt true .lam n p = some a := by rw [tagAt, heq]; exact ha
  have hcross' : tagAt true .lam n (n.wireAt ⟨a.node, 2⟩) = some w :=
    (tagAt_eq hw hh (.wire hw (tagAt_live ha) 2) hfront .lam).trans hw'
  simp only [selAt, bind, hcross, hcross', ha, hw', Option.bind_some,
    fanWalk_eq hw hh (.wire hw (tagAt_live hw') 2) hfront']

end Fans

/-! ## Agreement -/

/-- The plain reading and the crossing one select the same binder. Where both walks from `p`
end at one port: the plain reading reaches the inner binder at its principal port, and the
crossing one enters no fan at its principal port. -/
def BoolAlike (n : Net) (p : Option Port) : Prop :=
  if fanWalk true n p = fanWalk false n p then
    (∀ second w, selAt false second n p = some w → w.port = 0) ∧
      ∀ second a w, tagAt true .lam n p = some a → selAt true second n p = some w → w.port = 0 →
        fanFront n (n.wireAt ⟨a.node, 2⟩) = false ∧ fanFront n (n.wireAt ⟨w.node, 2⟩) = false
  else
    ((selAt false false n p).isSome ↔ (selAt true false n p).any (·.port == 0) = true) ∧
      ((selAt false false n p).isSome ∨
        ((selAt false true n p).isSome ↔ (selAt true true n p).any (·.port == 0) = true))

section Bool

variable {n : Net} {p : Option Port}

/-- The two readers agree as far as their selections do. -/
lemma bool_values_iff :
    (∀ v : ℕ, (if (selAt false false n p).isSome then some 1 else if (selAt false true n p).isSome then some 0 else none) =
      some v ↔ boolAt n p = v) ↔
      ((selAt false false n p).isSome ↔ (selAt true false n p).any (·.port == 0) = true) ∧
        ((selAt false false n p).isSome ∨
          ((selAt false true n p).isSome ↔ (selAt true true n p).any (·.port == 0) = true)) := by
  unfold boolAt
  generalize (selAt false false n p).isSome = first
  generalize (selAt false true n p).isSome = second
  generalize (selAt true false n p).any (·.port == 0) = first'
  generalize (selAt true true n p).any (·.port == 0) = second'
  constructor
  · intro h
    have h0 := h 0
    have h1 := h 1
    cases first <;> cases second <;> cases first' <;> cases second' <;> simp_all
  · intro h v
    cases first <;> cases second <;> cases first' <;> cases second' <;> simp_all <;> omega

variable (hw : Wired n) (hh : Halted n)

lemma selAt_inner {cross second second' : Bool} {w w' : Port} (h : selAt cross second n p = some w)
    (h' : selAt cross second' n p = some w') : w = w' := by
  obtain ⟨a, ha, hinner, -⟩ := selAt_eq_some.mp h
  obtain ⟨a', ha', hinner', -⟩ := selAt_eq_some.mp h'
  cases ha.symm.trans ha'
  exact Option.some_inj.mp (hinner.symm.trans hinner')

include hw hh

lemma boolAlike_iff :
    (∀ v : ℕ, (if (selAt false false n p).isSome then some 1 else if (selAt false true n p).isSome then some 0 else none) =
      some v ↔ boolAt n p = v) ↔ BoolAlike n p := by
  rw [bool_values_iff, BoolAlike]
  split_ifs with heq
  · have hplain : ∀ second w, selAt false second n p = some w → ∀ second', selAt true second' n p = selAt false second' n p := by
      intro second w hsel
      obtain ⟨a, ha, hinner, -⟩ := selAt_eq_some.mp hsel
      obtain ⟨hfront, hfront'⟩ := selAt_plain_front hw ha hsel
      exact selAt_eq hw hh heq ha hinner hfront hfront'
    constructor
    · intro h
      refine ⟨fun second w hsel => ?_, fun second a w ha hsel hport => ?_⟩
      · by_contra hport
        have hcore : ∀ second', (selAt true second' n p).any (·.port == 0) = false := by
          intro second'
          rw [hplain second w hsel, Option.any_eq_false]
          intro w' hsel'
          rw [← selAt_inner hsel hsel']
          simpa using hport
        rw [hcore, hcore] at h
        cases second with
        | false => simp [hsel] at h
        | true => obtain ⟨h, h' | h'⟩ := h <;> simp_all
      · by_contra hfront
        have hnone : ∀ second', selAt false second' n p = none := by
          intro second'
          by_contra hsome
          obtain ⟨w', hsel'⟩ := Option.ne_none_iff_exists'.mp hsome
          have hinner := selAt_inner hsel ((hplain second' w' hsel' second').trans hsel')
          have ha' : tagAt false .lam n p = some a := by rw [tagAt, ← heq]; exact ha
          exact hfront (hinner ▸ selAt_plain_front hw ha' hsel')
        have hcore : (selAt true second n p).any (·.port == 0) = true := by simp [hsel, hport]
        rw [hnone, hnone] at h
        cases second <;> simp_all
    · rintro ⟨hport, hfronts⟩
      have hboth : ∀ second, (selAt false second n p).isSome ↔ (selAt true second n p).any (·.port == 0) = true := by
        intro second
        constructor
        · intro h
          obtain ⟨w, hsel⟩ := Option.isSome_iff_exists.mp h
          rw [hplain second w hsel, hsel]
          simpa using hport second w hsel
        · intro h
          obtain ⟨w, hsel, h0⟩ := (Option.any_eq_true _ _).mp h
          obtain ⟨a, ha, hinner, -⟩ := selAt_eq_some.mp hsel
          obtain ⟨hfront, hfront'⟩ := hfronts second a w ha hsel (by simpa using h0)
          have ha' : tagAt false .lam n p = some a := by rw [tagAt, ← heq]; exact ha
          have hinner' : tagAt false .lam n (n.wireAt ⟨a.node, 2⟩) = some w := by
            rw [← tagAt_eq hw hh (.wire hw (tagAt_live ha) 2) hfront]
            exact hinner
          rw [← selAt_eq hw hh heq ha' hinner' hfront hfront', hsel]
          rfl
      exact ⟨hboth false, Or.inr (hboth true)⟩
  · rfl

end Bool

section Agreement

variable {n : Net} {p : Option Port}

lemma Cells.all {ok : Option Port × Option Port → Bool} {k : ℕ} {q : Option Port} (h : Cells n ok k p q) :
    Cells n (fun _ => true) k p q := by
  induction h with
  | here p => exact .here p
  | next hc _ ih => exact .next (by rw [consAt_filter_all]; exact (Option.filter_eq_some_iff.mp hc).1) ih

lemma Cells.unique {ok : Option Port × Option Port → Bool} {k : ℕ} {q q' : Option Port} (h : Cells n ok k p q)
    (h' : Cells n ok k p q') : q = q' := by
  induction h with
  | here p => cases h'; rfl
  | next hc _ ih =>
    cases h' with
    | next hc' tail =>
      cases hc.symm.trans hc'
      exact ih tail

/-- The top of a tower is no cell. -/
lemma Succs.not_cell {k : ℕ} {q : Option Port} (h : Succs n k p q) (hsel : (selAt false false n q).isSome) :
    consAt n p = none := by
  cases h with
  | here => exact selAt_not_cell hsel
  | next ht => exact succAt_not_cell (by rw [(Option.filter_eq_some_iff.mp ht).1]; rfl)

/-- The pattern reader has the value `v` exactly if the forcing one returns it. -/
def Agree (force : Net → Port → Net) (fuel : ℕ) (n : Net) (enc : Enc) (p : Option Port) : Prop :=
  ∃ r m, netReadInt force fuel enc p n = some (r, m) ∧ ∀ v : ℕ, linPatEncNumNf n p enc = some v ↔ r = v

/-- Where the readers agree. A number: neither a tower of successors over a selector of the
first binder nor a cell with a boolean in it. A list: cells lead to a selector of the second
binder, with wired payloads, exactly where they lead to a binder under two. -/
def ReadsAlike (n : Net) (enc : Enc) (p : Option Port) : Prop :=
  match enc with
  | .num => (¬∃ k q, k < n.nn ∧ Succs n k p q ∧ (selAt false false n q).isSome) ∧ bitAt n p = false
  | .bool => BoolAlike n p
  | .cons | .str => ∀ k q, k < n.nn →
      (Cells n (wiredCell n) k p q ∧ (selAt false true n q).isSome ↔ Cells n (fun _ => true) k p q ∧ nilAt n q = true)
  | _ => True

/-- The headers are no chains of layers to either reader. -/
lemma agree_header {force : Net → Port → Net} {fuel : ℕ} {enc : Enc} (henc : enc ∈ [Enc.op, .ffi, .eff, .box]) :
    Agree force fuel n enc p ↔ ReadsAlike n enc p := by
  have hnone : linPatEncNumNf n p enc = none := by
    fin_cases henc
    · rfl
    · rfl
    · rw [linPatEncNumNf, if_neg (by decide)]
      cases n.nn <;> rfl
    · rw [linPatEncNumNf, if_neg (by decide)]
      cases n.nn <;> rfl
  have hread : netReadInt force fuel enc p n = some (-1, n) := by fin_cases henc <;> rfl
  have halike : ReadsAlike n enc p := by fin_cases henc <;> trivial
  refine ⟨fun _ => halike, fun _ => ⟨-1, n, hread, fun v => ⟨fun h => ?_, fun h => absurd h (by omega)⟩⟩⟩
  exact absurd (hnone.symm.trans h) (by simp)

variable {force : Net → Port → Net} {fuel : ℕ} (hw : Wired n) (hh : Halted n) (hp : LivePort n p) (hnn : 0 < n.nn)
  (hforce : ∀ m p, SameLive m n → True → SameLive (force m p) n ∧ True) (hfuel : n.nn < fuel)

include hw hp hnn hforce hfuel

lemma agree_num_iff : Agree force fuel n .num p ↔ ReadsAlike n .num p := by
  obtain ⟨f, rfl⟩ : ∃ f, fuel = f + 1 := Nat.exists_eq_succ_of_ne_zero (by omega)
  obtain ⟨hbit, hnobit⟩ := bitsLoop_rest hw hforce (Nat.succ_pos f) trivial hp hnn f
  have hnf : ∀ v, linPatEncNumNf n p .num = some v ↔
      ∃ k q, k < n.nn ∧ Succs n k p q ∧ (selAt false false n q).isSome ∧ v = 0 + k := fun v => numNfLoop_num_iff n.nn 0 v
  have htower : ∀ {k q}, Succs n k p q → (selAt false false n q).isSome → bitAt n p = false := by
    intro k q hsuccs hsel
    rw [bitAt, hsuccs.not_cell hsel]
    rfl
  constructor
  · rintro ⟨r, m, hrun, hagree⟩
    have hno : bitAt n p = false := by
      by_contra hyes
      rw [Bool.not_eq_false] at hyes
      obtain ⟨v, rfl⟩ := Int.eq_ofNat_of_zero_le (hbit hyes r m hrun)
      obtain ⟨k, q, -, hsuccs, hsel, -⟩ := (hnf v).mp ((hagree v).mpr rfl)
      exact absurd (htower hsuccs hsel) (by simp [hyes])
    refine ⟨?_, hno⟩
    rintro ⟨k, q, hk, hsuccs, hsel⟩
    have hr := (hagree k).mp ((hnf k).mpr ⟨k, q, hk, hsuccs, hsel, by omega⟩)
    obtain ⟨m', hrun'⟩ := hnobit hno
    cases hrun.symm.trans hrun'
    omega
  · rintro ⟨hnone, hno⟩
    obtain ⟨m, hrun⟩ := hnobit hno
    refine ⟨-1, m, hrun, fun v => ⟨fun h => ?_, fun h => absurd h (by omega)⟩⟩
    obtain ⟨k, q, hk, hsuccs, hsel, -⟩ := (hnf v).mp h
    exact absurd ⟨k, q, hk, hsuccs, hsel⟩ hnone

include hh in
lemma agree_bool_iff : Agree force fuel n .bool p ↔ ReadsAlike n .bool p := by
  obtain ⟨m, hrun, -⟩ := returns_netReadBool hw hforce (by omega : 0 < fuel) hp n (.refl n) trivial
  obtain ⟨f, hf⟩ : ∃ f, n.nn = f + 1 := Nat.exists_eq_succ_of_ne_zero hnn.ne'
  have hnf : linPatEncNumNf n p .bool = if (selAt false false n p).isSome then some 1
      else if (selAt false true n p).isSome then some 0 else none := by
    rw [linPatEncNumNf, if_neg (by decide), hf, numNfLoop_bool]
  rw [ReadsAlike, ← boolAlike_iff hw hh, Agree, hnf]
  constructor
  · rintro ⟨r, m', hrun', hagree⟩
    cases hrun.symm.trans hrun'
    exact hagree
  · intro hagree
    exact ⟨_, m, hrun, hagree⟩

lemma agree_list_iff {enc : Enc} (henc : enc = .cons ∨ enc = .str) : Agree force fuel n enc p ↔ ReadsAlike n enc p := by
  obtain ⟨r, hr, hcount⟩ := returns_countLoop hw hforce (by omega : 0 < fuel) hp (Nat.zero_le _) (by omega : n.nn < fuel + 0)
  obtain ⟨m, hrun, -⟩ := hr n (.refl n) trivial
  have hread : netReadInt force fuel enc p n = some (r, m) := by rcases henc with rfl | rfl <;> exact hrun
  have hnf : ∀ v, linPatEncNumNf n p enc = some v ↔
      ∃ k q, k < n.nn ∧ Cells n (wiredCell n) k p q ∧ (selAt false true n q).isSome ∧ v = 0 + k := by
    intro v
    rw [linPatEncNumNf, if_neg (by rcases henc with rfl | rfl <;> decide)]
    exact numNfLoop_cons_iff henc n.nn 0 v
  have halike : ReadsAlike n enc p ↔ ∀ k q, k < n.nn →
      (Cells n (wiredCell n) k p q ∧ (selAt false true n q).isSome ↔ Cells n (fun _ => true) k p q ∧ nilAt n q = true) := by
    rcases henc with rfl | rfl <;> rfl
  rw [halike]
  constructor
  · rintro ⟨r', m', hread', hagree⟩
    cases hread.symm.trans hread'
    intro k q hk
    constructor
    · rintro ⟨hcells, hsel⟩
      obtain ⟨k', q', -, hcells', hnil, hk'⟩ :=
        (hcount k).mp ((hagree k).mp ((hnf k).mpr ⟨k, q, hk, hcells, hsel, by omega⟩))
      obtain rfl : k = k' := by omega
      exact ⟨hcells.all, hcells.all.unique hcells' ▸ hnil⟩
    · rintro ⟨hcells, hnil⟩
      obtain ⟨k', q', -, hcells', hsel, hk'⟩ :=
        (hnf k).mp ((hagree k).mpr ((hcount k).mpr ⟨k, q, by omega, hcells, hnil, by omega⟩))
      obtain rfl : k = k' := by omega
      obtain rfl := hcells.unique hcells'.all
      exact ⟨hcells', hsel⟩
  · intro halike
    refine ⟨r, m, hread, fun v => (hnf v).trans (Iff.trans ?_ (hcount v).symm)⟩
    constructor
    · rintro ⟨k, q, hk, hcells, hsel, rfl⟩
      obtain ⟨hcells', hnil⟩ := (halike k q hk).mp ⟨hcells, hsel⟩
      exact ⟨k, q, by omega, hcells', hnil, rfl⟩
    · rintro ⟨k, q, hk, hcells, hnil, rfl⟩
      obtain ⟨hcells', hsel⟩ := (halike k q (by omega)).mpr ⟨hcells, hnil⟩
      exact ⟨k, q, by omega, hcells', hsel, rfl⟩

omit hw hp hnn hforce hfuel

lemma SameLive.trans {l m : Net} (h : SameLive l m) (h' : SameLive m n) : SameLive l n where
  nn := h.nn.trans h'.nn
  dead v := (h.dead v).trans (h'.dead v)
  tag v hv := (h.tag v ((h'.live v).trans hv)).trans (h'.tag v hv)
  wire q hq := (h.wire q ((h'.live q.node).trans hq)).trans (h'.wire q hq)

/-- With the same nodes and wires nothing fires either. -/
lemma SameLive.halted {m : Net} (h : SameLive m n) (hh : Halted n) : Halted m := by
  intro q r hlive
  simp only [redexLive, Bool.and_eq_true, h.live] at hlive
  obtain ⟨⟨⟨⟨⟨hq, hr⟩, hq0⟩, hr0⟩, hqr⟩, hrq⟩ := hlive
  rw [h.wire q hq] at hqr
  rw [h.wire r hr] at hrq
  rw [h.tag _ hq, h.tag _ hr]
  exact hh q r (by simp only [redexLive, hq, hr, hq0, hr0, hqr, hrq, Bool.and_self])

/-- `Halted` by computation. -/
def haltedCheck (n : Net) : Bool :=
  (List.range n.nn).all fun v => (n.wireAt ⟨v, 0⟩).all fun q =>
    !redexLive n ⟨v, 0⟩ q || !fireable (n.tag.get v) (n.tag.get q.node)

lemma halted_of_check (h : haltedCheck n = true) : Halted n := by
  intro q r hlive
  obtain ⟨v, k⟩ := q
  have hlive' := hlive
  simp only [redexLive, Bool.and_eq_true, beq_iff_eq] at hlive'
  obtain ⟨⟨⟨⟨⟨hq, -⟩, rfl⟩, -⟩, hwire⟩, -⟩ := hlive'
  have hv : v < n.nn := by
    simp only [Net.live, Net.inNet, Bool.and_eq_true, decide_eq_true_eq] at hq
    exact hq.1
  have hall := List.all_eq_true.mp h v (List.mem_range.mpr hv)
  rw [hwire] at hall
  simpa [hlive] using hall

/-- TRUE in a net of its own. -/
def trueNet : Port × Net := netAllocBool .serial netInit true

lemma trueNet_alike : BoolAlike trueNet.2 (some trueNet.1) := by
  have hsel : ∀ cross, selAt cross false trueNet.2 (some trueNet.1) = some ⟨2, 0⟩ ∧
      selAt cross true trueNet.2 (some trueNet.1) = none := by decide +kernel
  have hout : tagAt true .lam trueNet.2 (some trueNet.1) = some ⟨1, 0⟩ := by decide +kernel
  rw [BoolAlike, if_pos (by decide +kernel)]
  constructor
  · intro second w h
    cases second with
    | false => cases (hsel false).1.symm.trans h; rfl
    | true => cases (hsel false).2.symm.trans h
  · intro second a w ha h _
    cases hout.symm.trans ha
    cases second with
    | false => cases (hsel true).1.symm.trans h; decide +kernel
    | true => cases (hsel true).2.symm.trans h

end Agreement

end LinEngine
