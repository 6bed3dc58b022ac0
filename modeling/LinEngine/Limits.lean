import LinEngine.Declared

/-!
# The matcher under its limits

The interpreter's record against what has been bound, counted and covered. Up to what stops it,
the interpreter answers as the declared meaning has it.
-/
namespace LinEngine.Matching

/-! ## The record -/

/-- A mask, a table and a counter hold the entries of a list. -/
structure Held (mask : ℕ) (tab : Table Port ⟨0, 0⟩) (count cap : ℕ) (l : List (ℕ × Port)) : Prop where
  bit : ∀ i, mask.testBit i = (l.lookup i).isSome
  entry : ∀ i q, l.lookup i = some q → i < cap ∧ tab.get i = q
  count : count = top l

lemma Held.add {mask count cap i : ℕ} {tab : Table Port ⟨0, 0⟩} {l : List (ℕ × Port)} (h : Held mask tab count cap l)
    (hi : i < cap) (q : Port) : Held (mask ||| 2 ^ i) (tab.set i q) (max count (i + 1)) cap ((i, q) :: l) where
  bit j := by
    rw [Nat.testBit_or, Nat.testBit_two_pow, h.bit]
    by_cases hj : j = i
    · subst hj
      simp
    · rw [lookup_cons_ne hj]
      simp [Ne.symm hj]
  entry j r hr := by
    by_cases hj : j = i
    · subst hj
      rw [lookup_cons_self] at hr
      exact ⟨hi, by rw [Table.get_set_self]; exact Option.some.inj hr⟩
    · rw [lookup_cons_ne hj] at hr
      rw [Table.get_set_ne tab (Ne.symm hj)]
      exact h.entry j r hr
  count := by rw [h.count, top]

lemma Held.at_iff {mask count cap i v : ℕ} {tab : Table Port ⟨0, 0⟩} {l : List (ℕ × Port)} (h : Held mask tab count cap l) :
    (i < cap ∧ mask.testBit i = true ∧ (tab.get i).node = v) ↔ ∃ r ∈ l.lookup i, r.node = v := by
  rw [h.bit]
  constructor
  · rintro ⟨-, hsome, hv⟩
    obtain ⟨r, hr⟩ := Option.isSome_iff_exists.mp hsome
    exact ⟨r, hr, by rwa [← (h.entry i r hr).2]⟩
  · rintro ⟨r, hr, hv⟩
    obtain ⟨hi, hget⟩ := h.entry i r hr
    rw [Option.mem_def] at hr
    exact ⟨hi, by rw [hr]; rfl, by rwa [hget]⟩

/-- What can be read off the record of a match is what has been bound, counted and covered. -/
structure Reports (m : LinMatch) (e : Env) : Prop where
  binds : Held m.bindSet m.bind m.nbind patBinds e.binds
  cycs : Held m.cycSet m.cyc m.ncyc patCycles e.cycs
  nslots : m.nslots = e.slots.length
  slots : ∀ i < patSlots, ∀ x, e.slots[i]? = some x → m.slots.get i = x
  nodes : m.nodes = e.covered.take patNodes
  overflow : m.overflow = decide (patNodes < e.covered.length)

/-- The counters and the flag are those of `e`, whatever the rest of the record has. -/
def Counts (m : LinMatch) (e : Env) : Prop :=
  m.nbind = top e.binds ∧ m.ncyc = top e.cycs ∧ m.overflow = decide (patNodes < e.covered.length)

lemma Reports.counts {m : LinMatch} {e : Env} (h : Reports m e) : Counts m e := ⟨h.binds.count, h.cycs.count, h.overflow⟩

lemma reports_start (b : ℕ) : Reports (.start b) .empty where
  binds := ⟨fun i => by simp [LinMatch.start, Env.empty], fun _ _ h => (nomatch h), rfl⟩
  cycs := ⟨fun i => by simp [LinMatch.start, Env.empty], fun _ _ h => (nomatch h), rfl⟩
  nslots := rfl
  slots := fun _ _ _ h => nomatch h
  nodes := rfl
  overflow := rfl

lemma Reports.spend {m : LinMatch} {e : Env} (h : Reports m e) : Reports m.spend e :=
  ⟨h.binds, h.cycs, h.nslots, h.slots, h.nodes, h.overflow⟩

lemma Reports.coverNode {m : LinMatch} {e : Env} (h : Reports m e) (v : ℕ) : Reports (m.coverNode v) (e.coverNode v) := by
  have hlen : m.nodes.length = min patNodes e.covered.length := by rw [h.nodes, List.length_take]
  unfold LinMatch.coverNode Env.coverNode
  by_cases hm : v ∈ m.nodes
  · have he : v ∈ e.covered := List.mem_of_mem_take (h.nodes ▸ hm)
    rw [if_pos hm, if_pos he]
    exact h
  · rw [if_neg hm]
    by_cases he : v ∈ e.covered
    · have hlong : patNodes < e.covered.length := by
        by_contra hshort
        rw [h.nodes, List.take_of_length_le (Nat.not_lt.mp hshort)] at hm
        exact hm he
      rw [if_pos he, if_pos (by omega)]
      exact ⟨h.binds, h.cycs, h.nslots, h.slots, h.nodes, (decide_eq_true hlong).symm⟩
    · rw [if_neg he]
      by_cases hfull : patNodes ≤ e.covered.length
      · rw [if_pos (by omega)]
        refine ⟨h.binds, h.cycs, h.nslots, h.slots, ?_, ?_⟩
        · rw [List.take_append_of_le_length hfull]
          exact h.nodes
        · rw [List.length_append, List.length_singleton, decide_eq_true (by omega)]
      · rw [if_neg (by omega)]
        refine ⟨h.binds, h.cycs, h.nslots, h.slots, ?_, ?_⟩
        · have hshort : (e.covered ++ [v]).length ≤ patNodes := by
            rw [List.length_append, List.length_singleton]
            omega
          rw [List.take_of_length_le hshort, h.nodes, List.take_of_length_le (by omega)]
        · rw [h.overflow, List.length_append, List.length_singleton, decide_eq_false (by omega), decide_eq_false (by omega)]

lemma Reports.cover {n : Net} {m : LinMatch} {e : Env} (h : Reports m e) (p : Option Port) :
    Reports (m.cover n p) (e.cover n p) := by
  unfold LinMatch.cover Env.cover
  cases p.filter fun q => n.live q.node with
  | none => exact h
  | some q => exact h.coverNode q.node

lemma Reports.openCycle {m : LinMatch} {e : Env} (h : Reports m e) {i : ℕ} (hi : i < patCycles) (q : Port) :
    Reports (m.openCycle i q) (e.openCycle i q) :=
  ⟨h.binds, h.cycs.add hi q, h.nslots, h.slots, h.nodes, h.overflow⟩

lemma Reports.addSlot {m : LinMatch} {e : Env} (h : Reports m e) (p : Option Port) :
    Reports (m.addSlot p) (e.addSlot p) := by
  refine ⟨h.binds, h.cycs, ?_, fun i hi x hx => ?_, h.nodes, h.overflow⟩
  · simp [LinMatch.addSlot, Env.addSlot, h.nslots]
  · rw [Env.addSlot, List.getElem?_append] at hx
    rw [LinMatch.addSlot]
    dsimp only
    split_ifs at hx with hlt
    · have hne : m.nslots ≠ i := by rw [h.nslots]; omega
      split_ifs
      · rw [Table.get_set_ne _ hne]
        exact h.slots i hi x hx
      · exact h.slots i hi x hx
    · rw [List.getElem?_singleton] at hx
      split_ifs at hx with hz
      have hlast : m.nslots = i := by rw [h.nslots]; omega
      rw [if_pos (hlast ▸ hi), hlast, Table.get_set_self]
      exact Option.some.inj hx

lemma Reports.bindSlot {m m' : LinMatch} {e : Env} (h : Reports m e) {i : ℕ} {q : Port} (hb : m.bindSlot i q = some m') :
    i < patBinds ∧ e.binds.lookup i = none ∧ Reports m' (e.bind i q) ∧ m'.budget = m.budget := by
  unfold LinMatch.bindSlot at hb
  split_ifs at hb with hno
  obtain rfl := Option.some.inj hb
  rw [not_or, Nat.not_le, h.binds.bit, Option.not_isSome_iff_eq_none] at hno
  exact ⟨hno.1, hno.2, ⟨h.binds.add hno.1 q, h.cycs, h.nslots, h.slots, h.nodes, h.overflow⟩, rfl⟩

lemma Reports.bindSlot_none {m : LinMatch} {e : Env} (h : Reports m e) {i : ℕ} {q : Port} (hb : m.bindSlot i q = none) :
    ¬(i < patBinds ∧ e.binds.lookup i = none) := by
  unfold LinMatch.bindSlot at hb
  split_ifs at hb with hno
  rw [h.binds.bit] at hno
  rintro ⟨hi, hnone⟩
  rcases hno with hno | hno
  · omega
  · rw [hnone] at hno
    cases hno

/-! ## What a negation rolls back -/

/-- What a record keeps of an earlier one: all that was bound, counted and covered. -/
structure Frame (m m' : LinMatch) : Prop where
  binds : ∀ i, m.bindSet.testBit i = true → m'.bindSet.testBit i = true ∧ m'.bind.get i = m.bind.get i
  cycs : ∀ i, m.cycSet.testBit i = true → m'.cycSet.testBit i = true ∧ m'.cyc.get i = m.cyc.get i
  nslots : m.nslots ≤ m'.nslots
  slots : ∀ i < m.nslots, m'.slots.get i = m.slots.get i
  nodes : m.nodes <+: m'.nodes

lemma keeps_bit {mask i : ℕ} {tab : Table Port ⟨0, 0⟩} {q : Port} (hi : mask.testBit i = false) (j : ℕ)
    (hj : mask.testBit j = true) : (mask ||| 2 ^ i).testBit j = true ∧ (tab.set i q).get j = tab.get j := by
  have hne : i ≠ j := by
    rintro rfl
    rw [hi] at hj
    cases hj
  exact ⟨by rw [Nat.testBit_or, hj, Bool.true_or], Table.get_set_ne tab hne q⟩

lemma tracks_frame (n : Net) : Tracks n Frame where
  refl m := ⟨fun _ h => ⟨h, rfl⟩, fun _ h => ⟨h, rfl⟩, le_rfl, fun _ _ => rfl, List.prefix_rfl⟩
  trans {a b c} h h' := by
    refine ⟨fun i hi => ?_, fun i hi => ?_, h.nslots.trans h'.nslots, fun i hi => ?_, h.nodes.trans h'.nodes⟩
    · obtain ⟨hb, hbind⟩ := h.binds i hi
      obtain ⟨hb', hbind'⟩ := h'.binds i hb
      exact ⟨hb', hbind'.trans hbind⟩
    · obtain ⟨hc, hcyc⟩ := h.cycs i hi
      obtain ⟨hc', hcyc'⟩ := h'.cycs i hc
      exact ⟨hc', hcyc'.trans hcyc⟩
    · exact (h'.slots i (by have := h.nslots; omega)).trans (h.slots i hi)
  spend m := ⟨fun _ h => ⟨h, rfl⟩, fun _ h => ⟨h, rfl⟩, le_rfl, fun _ _ => rfl, List.prefix_rfl⟩
  cover m v _ := by
    unfold LinMatch.coverNode
    split_ifs
    · exact ⟨fun _ h => ⟨h, rfl⟩, fun _ h => ⟨h, rfl⟩, le_rfl, fun _ _ => rfl, List.prefix_rfl⟩
    · exact ⟨fun _ h => ⟨h, rfl⟩, fun _ h => ⟨h, rfl⟩, le_rfl, fun _ _ => rfl, List.prefix_rfl⟩
    · exact ⟨fun _ h => ⟨h, rfl⟩, fun _ h => ⟨h, rfl⟩, le_rfl, fun _ _ => rfl, List.prefix_append _ _⟩
  bind {m m' i q} hb := by
    unfold LinMatch.bindSlot at hb
    split_ifs at hb with hno
    obtain rfl := Option.some.inj hb
    rw [not_or, Bool.not_eq_true] at hno
    exact ⟨keeps_bit hno.2, fun _ h => ⟨h, rfl⟩, le_rfl, fun _ _ => rfl, List.prefix_rfl⟩
  cycle hset := ⟨fun _ h => ⟨h, rfl⟩, keeps_bit hset, le_rfl, fun _ _ => rfl, List.prefix_rfl⟩
  slot m p := by
    refine ⟨fun _ h => ⟨h, rfl⟩, fun _ h => ⟨h, rfl⟩, Nat.le_succ _, fun i hi => ?_, List.prefix_rfl⟩
    rw [LinMatch.addSlot]
    dsimp only
    split_ifs
    · exact Table.get_set_ne _ (by omega) p
    · rfl
  undo {m m'} h := by
    refine ⟨fun i hi => ⟨hi, (h.binds i hi).2⟩, fun i hi => ⟨hi, (h.cycs i hi).2⟩, le_rfl, h.slots, ?_⟩
    exact ⟨[], (List.append_nil _).trans (List.prefix_iff_eq_take.mp h.nodes)⟩

lemma Reports.restore {m m' : LinMatch} {e e' : Env} (h : Reports m e) (hframe : Frame m m') (hcounts : Counts m' e')
    (hmark : ¬Marked e e') : Reports (m.restore m') e := by
  obtain ⟨hbinds, hcycs, hover⟩ := Decidable.of_not_not hmark
  obtain ⟨hnbind, hncyc, hoverflow⟩ := hcounts
  refine ⟨⟨h.binds.bit, fun i q hq => ?_, hnbind.trans hbinds⟩, ⟨h.cycs.bit, fun i q hq => ?_, hncyc.trans hcycs⟩, h.nslots,
    fun i hi x hx => ?_, ?_, hoverflow.trans hover⟩
  · have hbit : m.bindSet.testBit i = true := by rw [h.binds.bit, hq]; rfl
    exact ⟨(h.binds.entry i q hq).1, (hframe.binds i hbit).2.trans (h.binds.entry i q hq).2⟩
  · have hbit : m.cycSet.testBit i = true := by rw [h.cycs.bit, hq]; rfl
    exact ⟨(h.cycs.entry i q hq).1, (hframe.cycs i hbit).2.trans (h.cycs.entry i q hq).2⟩
  · have hlt : i < m.nslots := by
      rw [h.nslots]
      exact (List.getElem?_eq_some_iff.mp hx).1
    exact (hframe.slots i hlt).trans (h.slots i hi x hx)
  · exact (List.prefix_iff_eq_take.mp hframe.nodes).symm.trans h.nodes

/-! ## The interpreter follows -/

/-- What a trial tells of a run of the interpreter. -/
def Follows (t : Trial) (r : Bool × LinMatch) : Prop :=
  match t with
  | .yes e b => r.1 = true ∧ Reports r.2 e ∧ r.2.budget = b
  | .no e b => r.1 = false ∧ Counts r.2 e ∧ r.2.budget = b
  | .out => r.1 = false
  | .spoiled => True

@[simp] lemma cover_budget (n : Net) (m : LinMatch) (p : Option Port) : (m.cover n p).budget = m.budget := by
  unfold LinMatch.cover LinMatch.coverNode
  split
  · rfl
  · split_ifs <;> rfl

lemma follows_no {m : LinMatch} {e : Env} (h : Reports m e) : Follows (.no e m.budget) (false, m) := ⟨rfl, h.counts, rfl⟩

lemma follows_yes {m : LinMatch} {e : Env} {b : ℕ} (h : Reports m e) (hb : m.budget = b) : Follows (.yes e b) (true, m) :=
  ⟨rfl, h, hb⟩

lemma follows_test {c : Prop} [Decidable c] {c' : Bool} {m m' : LinMatch} {e e' : Env} (hc : c' = true ↔ c) (h : Reports m e)
    (h' : Reports m' e') (hb : m'.budget = m.budget) :
    Follows (test c e e' m.budget) (if c' then (true, m') else (false, m)) := by
  unfold test
  by_cases hcond : c
  · rw [if_pos hcond, if_pos (hc.mpr hcond)]
    exact follows_yes h' hb
  · rw [if_neg hcond, if_neg fun h => hcond (hc.mp h)]
    exact follows_no h

lemma follows_bounds {c : Prop} [Decidable c] {c' : Bool} {m : LinMatch} {e : Env} (hc : c' = true ↔ c) (h : Reports m e) :
    Follows (test c e e m.budget) (c', m) := by
  have hpair : (c', m) = if c' then (true, m) else (false, m) := by cases c' <;> rfl
  rw [hpair]
  exact follows_test hc h h rfl

lemma follows_enter {run : ℕ → Option Port → LinMatch → Bool × LinMatch} {try' : ℕ → Option Port → Env → ℕ → Trial}
    (hrun : ∀ nin p m e, Reports m e → Follows (try' nin p e m.budget) (run nin p m)) (nin : ℕ) (p : Option Port)
    {m : LinMatch} {e : Env} (h : Reports m e) : Follows (tryEnter try' nin p e m.budget) (enter run nin p m) := by
  unfold tryEnter enter
  by_cases hb : m.budget = 0
  · rw [if_pos (Or.inl hb), if_pos hb]
    rfl
  · rw [if_neg hb]
    by_cases hd : linPatDepth ≤ nin
    · rw [if_pos (Or.inr hd), if_pos hd]
      rfl
    · rw [if_neg (not_or.mpr ⟨hb, hd⟩), if_neg hd]
      exact hrun (nin + 1) p m.spend e h.spend

/-- One run after another, the second only if the first succeeds. -/
lemma follows_andThen {t : Trial} {k' : Env → ℕ → Trial} {r s : Bool × LinMatch} {k : LinMatch → Bool × LinMatch}
    (h : Follows t r) (hk : ∀ m e, Reports m e → Follows (k' e m.budget) (k m))
    (hs : s = if r.1 then k r.2 else r) : Follows (t.andThen k') s := by
  cases t with
  | yes e b =>
    obtain ⟨hr, hm, rfl⟩ := h
    rw [hs, if_pos hr]
    exact hk r.2 e hm
  | no e b =>
    obtain ⟨hr, hm, rfl⟩ := h
    rw [hs, hr]
    exact ⟨hr, hm, rfl⟩
  | out =>
    have hr : r.1 = false := h
    rw [hs, hr]
    exact hr
  | spoiled => trivial

lemma linPatCell_none {n : Net} {m : LinMatch} {p : Option Port} (hb : m.budget ≠ 0) (hc : cellNodes n p = none) :
    linPatCell n m p = (none, m.spend) := by
  rw [linPatCell, if_neg hb, hc]

lemma linPatCell_some {n : Net} {m : LinMatch} {p : Option Port} {c : Port × Port × Port × Port} {e : Env}
    (hb : m.budget ≠ 0) (hc : cellNodes n p = some c) (h : Reports m e) :
    ∃ m', linPatCell n m p = (some (cellHead n c, cellTail n c), m') ∧ Reports m' (e.coverCell n c) ∧
      m'.budget = m.budget - 1 := by
  rw [linPatCell, if_neg hb, hc]
  refine ⟨_, rfl, (((h.spend.cover _).cover _).cover _).cover _, ?_⟩
  rw [cover_budget, cover_budget, cover_budget, cover_budget, LinMatch.spend]

/-- What the trial of a chain of cells tells of the loop over it. -/
def FollowsSlots (r' : ℕ × Trial) (r : Option ℕ × LinMatch) : Prop :=
  match r' with
  | (k, .yes e b) => r.1 = some k ∧ Reports r.2 e ∧ r.2.budget = b
  | (_, .no e b) => r.1 = none ∧ Counts r.2 e ∧ r.2.budget = b
  | (_, .out) => r.1 = none
  | (_, .spoiled) => True

lemma follows_slots {n : Net} {sub : Option Port → LinMatch → Bool × LinMatch} {sub' : Option Port → Env → ℕ → Trial}
    (hsub : ∀ p m e, Reports m e → Follows (sub' p e m.budget) (sub p m)) (f k : ℕ) (next : Option Port)
    {m : LinMatch} {e : Env} (h : Reports m e) :
    FollowsSlots (trySlots n sub' f k next e m.budget) (spineLoop n sub f k next m) := by
  induction f generalizing k next m e with
  | zero => exact ⟨rfl, h, rfl⟩
  | succ f ih =>
    unfold trySlots spineLoop
    by_cases hb : m.budget = 0
    · rw [if_pos hb, if_pos hb]
      rfl
    rw [if_neg hb, if_neg hb]
    cases hc : cellNodes n next with
    | none =>
      rw [linPatCell_none hb hc]
      exact ⟨rfl, h.spend, rfl⟩
    | some c =>
      obtain ⟨m₁, hcell, h₁, hb₁⟩ := linPatCell_some hb hc h
      have hs := hsub (cellHead n c) m₁ _ h₁
      rw [hcell, ← hb₁]
      dsimp only
      rcases hr : sub (cellHead n c) m₁ with ⟨ok, m₂⟩
      rw [hr] at hs
      cases ht : sub' (cellHead n c) (e.coverCell n c) m₁.budget with
      | yes e₂ b₂ =>
        rw [ht] at hs
        obtain ⟨rfl, h₂, rfl⟩ := hs
        exact ih (k + 1) (cellTail n c) (h₂.addSlot (cellHead n c))
      | no e₂ b₂ =>
        rw [ht] at hs
        obtain ⟨rfl, h₂, rfl⟩ := hs
        exact ⟨rfl, h₂, rfl⟩
      | out =>
        rw [ht] at hs
        obtain rfl : ok = false := hs
        rfl
      | spoiled => trivial

lemma follows_in (n : Net) (pat : LinPat) (nin : ℕ) (p : Option Port) (m : LinMatch) (e : Env) (h : Reports m e) :
    Follows (attempt n pat nin p e m.budget) (linPatAtIn n pat nin p m) := by
  induction pat generalizing nin p m e with
  | pAny => exact follows_test Iff.rfl h (h.cover p) (cover_budget n m p)
  | pTag t =>
    refine follows_test ?_ h (h.cover p) (cover_budget n m p)
    cases p <;> simp
  | pPred f =>
    refine follows_test ?_ h (h.cover p) (cover_budget n m p)
    cases p <;> simp
  | pRef i =>
    refine follows_test ?_ h (h.cover p) (cover_budget n m p)
    cases p with
    | none => simp
    | some q =>
      have hbound : ((some q).any fun q => n.live q.node && m.bound i && (m.bind.get i).node == q.node) = true ↔
          n.live q.node = true ∧ i < patBinds ∧ m.bindSet.testBit i = true ∧ (m.bind.get i).node = q.node := by
        simp [LinMatch.bound, and_assoc]
      rw [hbound, h.binds.at_iff]
      simp
  | pCycleRef i =>
    refine follows_test ?_ h (h.cover p) (cover_budget n m p)
    cases p with
    | none => simp
    | some q =>
      have hset : ((some q).any fun q => decide (i < patCycles) && n.live q.node && m.cycSet.testBit i &&
          (m.cyc.get i).node == q.node) = true ↔
          n.live q.node = true ∧ i < patCycles ∧ m.cycSet.testBit i = true ∧ (m.cyc.get i).node = q.node := by
        simp [and_assoc, and_left_comm]
      rw [hset, h.cycs.at_iff]
      simp
  | pAt k a ih =>
    unfold attempt linPatAtIn
    split_ifs
    · exact follows_enter ih nin p h
    · exact follows_no h
  | pPort k a ih =>
    unfold attempt linPatAtIn
    cases p.filter fun q => n.live q.node with
    | none => exact follows_no h
    | some q =>
      dsimp only
      split_ifs
      · rw [← cover_budget n m p]
        exact follows_enter ih nin _ (h.cover p)
      · exact follows_no h
  | pFan a ih => exact follows_enter ih nin _ h
  | pAll a b iha ihb =>
    refine follows_andThen (follows_enter iha nin p h) (fun m e h => follows_enter ihb nin p h) ?_
    rw [linPatAtIn]
    rcases enter (linPatAtIn n a) nin p m with ⟨_ | _, m'⟩ <;> rfl
  | pBind i =>
    unfold attempt linPatAtIn
    cases p.filter fun q => n.live q.node with
    | none => exact follows_no h
    | some q =>
      dsimp only
      cases hb : m.bindSlot i q with
      | none =>
        rw [test, if_neg (h.bindSlot_none hb)]
        exact follows_no h
      | some m' =>
        obtain ⟨hi, hnone, h', hbudget⟩ := h.bindSlot hb
        rw [test, if_pos ⟨hi, hnone⟩]
        exact follows_yes (h'.cover p) ((cover_budget n m' p).trans hbudget)
  | pNot a ih =>
    have ha := follows_enter ih nin p h
    have hframe := (tracks_frame n).enter ((tracks_frame n).linPatAtIn a) nin p m
    unfold attempt linPatAtIn
    rcases hr : enter (linPatAtIn n a) nin p m with ⟨ok, m'⟩
    rw [hr] at ha hframe
    cases ht : tryEnter (attempt n a) nin p e m.budget with
    | yes e' b' =>
      rw [ht] at ha
      obtain ⟨rfl, h', rfl⟩ := ha
      exact ⟨rfl, h'.counts, rfl⟩
    | no e' b' =>
      rw [ht] at ha
      obtain ⟨rfl, h', rfl⟩ := ha
      dsimp only
      split_ifs with hmark
      · trivial
      · exact follows_yes (h.restore hframe h' hmark) rfl
    | out => trivial
    | spoiled => trivial
  | pCycle i a ih =>
    unfold attempt linPatAtIn
    cases p.filter fun q => n.live q.node with
    | none => exact follows_no h
    | some q =>
      dsimp only
      split_ifs with hi hset hnode
      · exact follows_no h
      · obtain ⟨r, hr, hnode⟩ := h.cycs.at_iff.mp ⟨Nat.not_le.mp hi, hset, hnode⟩
        rw [Option.mem_def.mp hr]
        dsimp only
        rw [test, if_pos hnode]
        exact follows_yes (h.cover p) (cover_budget n m p)
      · obtain ⟨r, hr⟩ := Option.isSome_iff_exists.mp ((h.cycs.bit i).symm.trans hset)
        rw [hr]
        dsimp only
        rw [test, if_neg fun hv => hnode (h.cycs.at_iff.mpr ⟨r, hr, hv⟩).2.2]
        exact follows_no h
      · rw [Bool.not_eq_true, h.cycs.bit, Option.isSome_eq_false_iff, Option.isNone_iff_eq_none] at hset
        rw [hset]
        have hopen := (h.openCycle (Nat.not_le.mp hi) q).cover (n := n) p
        have hrun := follows_enter ih nin p hopen
        rwa [cover_budget] at hrun
  | pSpine min max a ih =>
    unfold attempt linPatAtIn
    simp only [Bool.or_eq_true]
    split_ifs
    · have hs := follows_slots (n := n) (fun q m e => follows_enter ih nin q) n.nn 0 p (h.cover (n := n) (skipDup n n.nn p))
      rw [cover_budget] at hs
      rcases hr : spineLoop n (enter (linPatAtIn n a) nin) n.nn 0 p (m.cover n (skipDup n n.nn p)) with ⟨k', m'⟩
      rcases ht : trySlots n (tryEnter (attempt n a) nin) n.nn 0 p (e.cover n (skipDup n n.nn p)) m.budget with ⟨k, t⟩
      rw [hr, ht] at hs
      cases t with
      | yes e' b' =>
        obtain ⟨rfl, h', rfl⟩ := hs
        refine follows_bounds ?_ h'
        simp [Option.all_eq_true]
      | no e' b' =>
        obtain ⟨rfl, h', rfl⟩ := hs
        exact ⟨rfl, h', rfl⟩
      | out =>
        obtain rfl : k' = none := hs
        rfl
      | spoiled => trivial
    · exact follows_no h
  | pSpineHead a b iha ihb =>
    unfold attempt
    by_cases hb : m.budget = 0
    · rw [if_pos hb, linPatAtIn, linPatCell, if_pos hb]
      rfl
    rw [if_neg hb]
    cases hc : cellNodes n p with
    | none =>
      rw [linPatAtIn, linPatCell_none hb hc]
      exact follows_no h.spend
    | some c =>
      obtain ⟨m₁, hcell, h₁, hb₁⟩ := linPatCell_some hb hc h
      dsimp only
      rw [← hb₁]
      refine follows_andThen (k := fun m => enter (linPatAtIn n b) nin (cellTail n c) (m.addSlot (cellHead n c)))
        (follows_enter iha nin _ h₁) (fun m e h => follows_enter ihb nin _ (h.addSlot (cellHead n c))) ?_
      rw [linPatAtIn, hcell]
      dsimp only
      rcases enter (linPatAtIn n a) nin (cellHead n c) m₁ with ⟨_ | _, m'⟩ <;> rfl

/-- The trial of a whole match. -/
def trial (n : Net) (root : Option Port) (pat : LinPat) (budget : ℤ) : Trial :=
  tryEnter (attempt n pat) 0 root .empty budget.toNat

/-- A match that succeeds has its declared meaning and reports just what the meaning has, if under no
negation it runs out of budget or depth, raises a counter or overflows the covered nodes. -/
theorem linPatMatch_sound {n : Net} {root : Option Port} {pat : LinPat} {budget : ℤ} (hclear : trial n root pat budget ≠ .spoiled)
    {m : LinMatch} (hm : linPatMatch n root pat budget = some m) : ∃ e, Holds n pat root .empty e ∧ Reports m e := by
  have hf : Follows (trial n root pat budget) (enter (linPatAtIn n pat) 0 root (.start budget.toNat)) :=
    follows_enter (follows_in n pat) 0 root (reports_start budget.toNat)
  have hd : Decides (trial n root pat budget) (Holds n pat root .empty) :=
    decides_enter (decides_attempt n pat) 0 root .empty budget.toNat
  unfold linPatMatch linPatAt at hm
  split_ifs at hm
  rcases hr : enter (linPatAtIn n pat) 0 root (.start budget.toNat) with ⟨_ | _, m'⟩
  · rw [hr] at hm
    cases hm
  · rw [hr] at hm hf
    obtain rfl := Option.some.inj hm
    cases ht : trial n root pat budget with
    | yes e b =>
      rw [ht] at hd hf
      exact ⟨e, hd, hf.2.1⟩
    | no e b =>
      rw [ht] at hf
      cases hf.1
    | out =>
      rw [ht] at hf
      cases hf
    | spoiled => exact absurd ht hclear

/-- A live port that is no sharing node, bound; the node across its principal wire is another. -/
def otherPat : LinPat := .pAll (.pBind 0) (.pAll (.pNot (.pTag .dup)) (.pNot (.pPort 0 (.pRef 0))))

theorem linPatMatch_sound_other : ∃ m e, linPatMatch netInit (some ⟨0, 1⟩) otherPat 20 = some m ∧
    Holds netInit otherPat (some ⟨0, 1⟩) .empty e ∧ Reports m e := by
  have hclear : trial netInit (some ⟨0, 1⟩) otherPat 20 ≠ .spoiled := by decide +kernel
  obtain ⟨m, hm⟩ : ∃ m, linPatMatch netInit (some ⟨0, 1⟩) otherPat 20 = some m :=
    Option.isSome_iff_exists.mp (by decide +kernel)
  obtain ⟨e, he⟩ := linPatMatch_sound hclear hm
  exact ⟨m, e, hm, he⟩

/-- With one step left a negation accepts what does hold; and a slot bound under it is still counted. -/
theorem linPatMatch_unsound :
    ((linPatMatch netInit (some ⟨0, 1⟩) (.pNot .pAny) 1).isSome = true ∧ ∀ e, ¬Holds netInit (.pNot .pAny) (some ⟨0, 1⟩) .empty e) ∧
    (linPatMatch netInit (some ⟨0, 1⟩) (.pNot (.pAll (.pBind 3) (.pTag .dup))) 20).map (fun m => (m.nbind, m.bindSet)) =
      some (4, 0) :=
  ⟨⟨by decide +kernel, fun _ h => h.2 _ ⟨by decide +kernel, rfl⟩⟩, by decide +kernel⟩

end LinEngine.Matching
