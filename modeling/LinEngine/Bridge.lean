import LinEngine.Claim
import LinEngine.Matcher

/-!
# The claim of a match

The bridge from a match to a claim: the redexes among the covered nodes, and the auxiliary
ports through which they leave the covered set. The core certifies what a walk from the
redexes reaches, which need not be what was covered.
-/
namespace LinEngine.Matching

/-- The auxiliary ports of a covered node that lead to a live node outside. -/
def nodeExits (n : Net) (nodes : List ℕ) (u : ℕ) : List Port :=
  if n.live u then [⟨u, 1⟩, ⟨u, 2⟩].filter fun p => (n.wireAt p).any fun w => n.live w.node && !decide (w.node ∈ nodes)
  else []

/-- `lin_pat_region_exits`, with room for the exits of a claim. -/
def linPatRegionExits (n : Net) (m : LinMatch) : Option (List Port) :=
  let exits := m.nodes.flatMap (nodeExits n m.nodes)
  if m.overflow ∨ claimExits < exits.length then none else some exits

/-- The redex of a covered node whose other end is covered, listed at the end with the smaller index. -/
def nodeRedex (n : Net) (nodes : List ℕ) (u : ℕ) : Option (Port × Port) :=
  if n.live u then
    ((n.wireAt ⟨u, 0⟩).filter fun w => w.port == 0 && n.live w.node && decide (w.node ∈ nodes) && decide (u ≤ w.node) &&
      n.wireAt w == some ⟨u, 0⟩).map fun w => (⟨u, 0⟩, w)
  else none

/-- `lin_pat_claim`; the match is one that succeeded. -/
def linPatClaim (n : Net) (m : LinMatch) (exits : List Port) (region held : Bool) : Option LinClaim :=
  let pairs := m.nodes.filterMap (nodeRedex n m.nodes)
  if m.overflow ∨ m.nodes = [] ∨ claimPairs < pairs.length ∨ pairs = [] then none
  else if region then do
    let own ← linPatRegionExits n m
    if claimExits < own.length + exits.length then none else some ⟨region, held, pairs, own ++ exits, []⟩
  else if exits = [] then some ⟨region, held, pairs, [], []⟩
  else none

/-! ## What a match covers -/

/-- A record whose covered nodes are live. -/
def Covers (n : Net) (m : LinMatch) : Prop := ∀ u ∈ m.nodes, n.live u = true

lemma tracks_covers (n : Net) : Tracks n fun m m' => Covers n m → Covers n m' where
  refl _ := id
  trans h h' := h' ∘ h
  spend _ := id
  cover m v hv h := by
    unfold LinMatch.coverNode
    split_ifs
    · exact h
    · exact h
    · intro u hu
      rcases List.mem_append.mp hu with hu | hu
      · exact h u hu
      · rw [List.mem_singleton.mp hu]
        exact hv
  bind hb h := by
    unfold LinMatch.bindSlot at hb
    split_ifs at hb
    obtain rfl := Option.some.inj hb
    exact h
  cycle _ h := h
  slot _ _ h := h
  undo h hm u hu := h hm u (List.mem_of_mem_take hu)

/-- A match covers live nodes only. -/
lemma match_covers {n : Net} {root : Option Port} {pat : LinPat} {budget : ℤ} {m : LinMatch}
    (h : linPatMatch n root pat budget = some m) : ∀ v ∈ m.nodes, n.live v = true := by
  have hc := (tracks_covers n).enter ((tracks_covers n).linPatAtIn pat) 0 root (.start budget.toNat) fun u hu => nomatch hu
  unfold linPatMatch linPatAt at h
  split_ifs at h
  rcases hr : enter (linPatAtIn n pat) 0 root (.start budget.toNat) with ⟨_ | _, m'⟩
  · rw [hr] at h
    cases h
  · rw [hr] at h hc
    cases h
    exact hc

/-! ## What the core certifies -/

section Region

variable {n : Net} {full : String} {exits : List Port} {nodes nodes' : List ℕ} {P : ℕ → Prop}

/-- What holds of the first nodes, and past every port that is no exit, holds of all that the walk reserves. -/
lemma follow_least (hstep : ∀ (p w : Port), P p.node → p ∉ exits → n.wireAt p = some w → n.live w.node = true → P w.node)
    {p : Port} (hp : P p.node) (h : follow n full exits nodes p = .ok nodes') (hnodes : ∀ v ∈ nodes, P v) :
    ∀ v ∈ nodes', P v := by
  unfold follow at h
  split_ifs at h with hexit
  · obtain rfl := Except.ok.inj h
    exact hnodes
  · cases hw : n.wireAt p with
    | none =>
      rw [hw] at h
      obtain rfl := Except.ok.inj h
      exact hnodes
    | some w =>
      rw [hw] at h
      dsimp only at h
      split_ifs at h with hlive
      · obtain ⟨-, hmem, -⟩ := reserve_ok h
        intro v hv
        rcases (hmem v).mp hv with hold | rfl
        · exact hnodes v hold
        · exact hstep p w hp hexit hw hlive
      · obtain rfl := Except.ok.inj h
        exact hnodes

lemma followAll_least (hstep : ∀ (p w : Port), P p.node → p ∉ exits → n.wireAt p = some w → n.live w.node = true → P w.node)
    (ps : List Port) (hps : ∀ p ∈ ps, P p.node) (h : ps.foldlM (follow n full exits) nodes = .ok nodes')
    (hnodes : ∀ v ∈ nodes, P v) : ∀ v ∈ nodes', P v := by
  induction ps generalizing nodes with
  | nil =>
    obtain rfl := Except.ok.inj h
    exact hnodes
  | cons p ps ih =>
    rw [List.forall_mem_cons] at hps
    rw [List.foldlM_cons] at h
    cases hp : follow n full exits nodes p with
    | error why => rw [hp] at h; cases h
    | ok mid =>
      rw [hp] at h
      exact ih hps.2 h (follow_least hstep hps.1 hp hnodes)

lemma claimWalk_least (hstep : ∀ (p w : Port), P p.node → p ∉ exits → n.wireAt p = some w → n.live w.node = true → P w.node)
    (fuel qi : ℕ) (h : claimWalk n full exits fuel qi nodes = .ok nodes') (hnodes : ∀ v ∈ nodes, P v) :
    ∀ v ∈ nodes', P v := by
  induction fuel generalizing qi nodes with
  | zero =>
    obtain rfl := Except.ok.inj h
    exact hnodes
  | succ fuel ih =>
    rw [claimWalk] at h
    cases hu : nodes[qi]? with
    | none =>
      rw [hu] at h
      obtain rfl := Except.ok.inj h
      exact hnodes
    | some u =>
      rw [hu] at h
      dsimp only at h
      cases hports : (portsOf u).foldlM (follow n full exits) nodes with
      | error why => rw [hports] at h; cases h
      | ok mid =>
        rw [hports] at h
        have hps : ∀ p ∈ portsOf u, P p.node := fun p hp => mem_portsOf.1 hp ▸ hnodes u (List.mem_of_getElem? hu)
        exact ih (qi + 1) h (followAll_least hstep _ hps hports hnodes)

/-- The certified region is the least set that has the claimed redexes and is closed but for the exits. -/
structure Closure (n : Net) (c : LinClaim) (region : List ℕ) : Prop where
  pairs : ∀ pr ∈ c.pairs, pr.1.node ∈ region ∧ pr.2.node ∈ region
  closed : ∀ p : Port, p.node ∈ region → Followed n c.exits region p
  least : ∀ P : ℕ → Prop, (∀ pr ∈ c.pairs, P pr.1.node ∧ P pr.2.node) →
    (∀ (p w : Port), P p.node → p ∉ c.exits → n.wireAt p = some w → n.live w.node = true → P w.node) → ∀ v ∈ region, P v

lemma closure_of_check (hsym : Symmetric n) {c c' : LinClaim} (hregion : c.region = true) (h : linClaimCheck n c = .ok c') :
    Closure n c c'.nodes := by
  rcases linClaimCheck_region hregion h with ⟨hpairs, hnodes, -⟩
  rcases claimRegion_start hpairs hnodes with ⟨start, ⟨hmem, hlen⟩, hanch, -, hwalk⟩
  have hdone : Done n c.exits 0 start := fun i u hi => absurd hi (Nat.not_lt_zero i)
  rcases claimWalk_ok hsym claimNodes 0 rfl hwalk hanch hlen hdone with ⟨hpre, -, hclosed⟩
  refine ⟨fun pr hpr => ⟨?_, ?_⟩, hclosed, fun P hP hstep => claimWalk_least hstep claimNodes 0 hwalk fun v hv => ?_⟩
  · exact hpre.subset ((hmem _).2 ⟨pr, hpr, Or.inl rfl⟩)
  · exact hpre.subset ((hmem _).2 ⟨pr, hpr, Or.inr rfl⟩)
  · rcases (hmem v).1 hv with ⟨pr, hpr, rfl | rfl⟩
    · exact (hP pr hpr).1
    · exact (hP pr hpr).2

end Region

/-! ## The region of a match -/

section Owned

variable {n : Net} {m : LinMatch} {S : List ℕ}

/-- A node on a redex with both ends covered. -/
def OnRedex (n : Net) (S : List ℕ) (v : ℕ) : Prop :=
  v ∈ S ∧ ∃ w : Port, n.wireAt ⟨v, 0⟩ = some w ∧ w.port = 0 ∧ w.node ∈ S ∧ n.wireAt w = some ⟨v, 0⟩

/-- A wire to a live node, other than from an auxiliary port of a covered node to an uncovered one. -/
def Crosses (n : Net) (S : List ℕ) (u v : ℕ) : Prop :=
  ∃ p q : Port, p.node = u ∧ q.node = v ∧ n.wireAt p = some q ∧ n.live v = true ∧ (u ∈ S → v ∉ S → p.port = 0)

/-- What the core makes of a covered set. -/
def Owned (n : Net) (S : List ℕ) (v : ℕ) : Prop := ∃ u, OnRedex n S u ∧ Relation.ReflTransGen (Crosses n S) u v

/-- No principal wire leaves the covered set for a live node. -/
def PrincipalInside (n : Net) (S : List ℕ) : Prop :=
  ∀ v ∈ S, ∀ w, n.wireAt ⟨v, 0⟩ = some w → n.live w.node = true → w.node ∈ S

/-- Wires within the covered set lead from its redexes to every node of it. -/
def Linked (n : Net) (S : List ℕ) : Prop :=
  ∀ v ∈ S, ∃ u, OnRedex n S u ∧
    Relation.ReflTransGen (fun a b => b ∈ S ∧ ∃ p q : Port, p.node = a ∧ q.node = b ∧ n.wireAt p = some q) u v

lemma Owned.next {u v : ℕ} (h : Owned n S u) (hstep : Crosses n S u v) : Owned n S v := by
  obtain ⟨r, hr, hpath⟩ := h
  exact ⟨r, hr, hpath.tail hstep⟩

/-- What is owned is what is covered exactly if no principal wire leaves and every node is linked. -/
lemma owned_iff_covered (hlive : ∀ v ∈ S, n.live v = true) :
    (∀ v, Owned n S v ↔ v ∈ S) ↔ PrincipalInside n S ∧ Linked n S := by
  constructor
  · intro h
    refine ⟨fun v hv w hw hl => ?_, fun v hv => ?_⟩
    · have hnext := ((h v).mpr hv).next ⟨⟨v, 0⟩, w, rfl, rfl, hw, hl, fun _ _ => rfl⟩
      exact (h _).mp hnext
    · obtain ⟨u, hu, hpath⟩ := (h v).mpr hv
      refine ⟨u, hu, ?_⟩
      clear hv
      induction hpath with
      | refl => exact .refl
      | @tail a b hpath hstep ih =>
        have hb : Owned n S b := ⟨u, hu, hpath.tail hstep⟩
        obtain ⟨p, q, hp, hq, hw, -⟩ := hstep
        exact ih.tail ⟨(h b).mp hb, p, q, hp, hq, hw⟩
  · rintro ⟨hprincipal, hlinked⟩ v
    constructor
    · rintro ⟨u, hu, hpath⟩
      induction hpath with
      | refl => exact hu.1
      | @tail a b _ hstep ih =>
        obtain ⟨⟨x, k⟩, q, rfl, rfl, hw, hl, hexit⟩ := hstep
        by_contra hb
        obtain rfl : k = 0 := hexit ih hb
        exact hb (hprincipal x ih q hw hl)
    · intro hv
      obtain ⟨u, hu, hpath⟩ := hlinked v hv
      refine ⟨u, hu, hpath.lift id ?_⟩
      rintro a b ⟨hb, p, q, hp, hq, hw⟩
      exact ⟨p, q, hp, hq, hw, hlive b hb, fun _ hout => absurd hb hout⟩

/-- The claimed pairs have exactly the nodes on covered redexes. -/
lemma mem_pairs_iff (hlive : ∀ v ∈ S, n.live v = true) {v : ℕ} :
    (∃ pr ∈ S.filterMap (nodeRedex n S), v = pr.1.node ∨ v = pr.2.node) ↔ OnRedex n S v := by
  have hpair : ∀ pr, pr ∈ S.filterMap (nodeRedex n S) ↔ ∃ u ∈ S, ∃ w : Port, pr = (⟨u, 0⟩, w) ∧
      n.wireAt ⟨u, 0⟩ = some w ∧ w.port = 0 ∧ w.node ∈ S ∧ u ≤ w.node ∧ n.wireAt w = some ⟨u, 0⟩ := by
    intro pr
    rw [List.mem_filterMap]
    constructor
    · rintro ⟨u, hu, h⟩
      rw [nodeRedex, if_pos (hlive u hu), Option.map_eq_some_iff] at h
      obtain ⟨w, hw, rfl⟩ := h
      rw [Option.filter_eq_some_iff] at hw
      simp only [Bool.and_eq_true, beq_iff_eq, decide_eq_true_eq] at hw
      obtain ⟨hw, ⟨⟨⟨⟨hport, -⟩, hmem⟩, hle⟩, hback⟩⟩ := hw
      exact ⟨u, hu, w, rfl, hw, hport, hmem, hle, hback⟩
    · rintro ⟨u, hu, w, rfl, hw, hport, hmem, hle, hback⟩
      refine ⟨u, hu, ?_⟩
      rw [nodeRedex, if_pos (hlive u hu), hw]
      simp [Option.filter, hport, hlive _ hmem, hmem, hle, hback]
  constructor
  · rintro ⟨pr, hpr, hv⟩
    obtain ⟨u, hu, ⟨x, k⟩, rfl, hw, rfl, hmem, -, hback⟩ := (hpair pr).mp hpr
    rcases hv with rfl | rfl
    · exact ⟨hu, ⟨x, 0⟩, hw, rfl, hmem, hback⟩
    · exact ⟨hmem, ⟨u, 0⟩, hback, rfl, hu, hw⟩
  · rintro ⟨hv, ⟨x, k⟩, hw, rfl, hmem, hback⟩
    rcases Nat.le_total v x with hle | hle
    · exact ⟨_, (hpair _).mpr ⟨v, hv, ⟨x, 0⟩, rfl, hw, rfl, hmem, hle, hback⟩, Or.inl rfl⟩
    · exact ⟨_, (hpair _).mpr ⟨x, hmem, ⟨v, 0⟩, rfl, hback, rfl, hv, hle, hw⟩, Or.inr rfl⟩

/-- The exits are the auxiliary ports of covered nodes with wires to live uncovered ones. -/
lemma mem_exits_iff (hlive : ∀ v ∈ S, n.live v = true) {p w : Port} (hw : n.wireAt p = some w) (hl : n.live w.node = true) :
    p ∈ S.flatMap (nodeExits n S) ↔ p.node ∈ S ∧ p.port ≠ 0 ∧ w.node ∉ S := by
  have haux : p = ⟨p.node, 1⟩ ∨ p = ⟨p.node, 2⟩ ↔ p.port ≠ 0 := by
    rcases p with ⟨x, k⟩
    fin_cases k <;> simp
  rw [List.mem_flatMap]
  constructor
  · rintro ⟨u, hu, h⟩
    rw [nodeExits, if_pos (hlive u hu), List.mem_filter] at h
    obtain ⟨hp, hout⟩ := h
    simp only [hw, Option.any_some, hl, Bool.true_and, Bool.not_eq_true', decide_eq_false_iff_not] at hout
    simp only [List.mem_cons, List.not_mem_nil, or_false] at hp
    have hnode : p.node = u := by rcases hp with rfl | rfl <;> rfl
    exact ⟨hnode ▸ hu, haux.mp (hnode.symm ▸ hp), hout⟩
  · rintro ⟨hp, hport, hout⟩
    refine ⟨p.node, hp, ?_⟩
    rw [nodeExits, if_pos (hlive _ hp), List.mem_filter]
    exact ⟨by simpa using haux.mpr hport, by simp [hw, hl, hout]⟩

end Owned

/-- The region the core certifies for a match is what is owned: all that wires lead to from the covered
redexes, but not through an auxiliary port out of the covered set. It is the covered set exactly if no principal
wire of it leaves for a live node and wires within it link every covered node to a covered redex. -/
theorem linPatClaim_region {n : Net} (hsym : Symmetric n) {root : Option Port} {pat : LinPat} {budget : ℤ} {m : LinMatch}
    (hm : linPatMatch n root pat budget = some m) {held : Bool} {c c' : LinClaim} (hc : linPatClaim n m [] true held = some c)
    (h : linClaimCheck n c = .ok c') :
    (∀ v, v ∈ c'.nodes ↔ Owned n m.nodes v) ∧
      ((∀ v, v ∈ c'.nodes ↔ v ∈ m.nodes) ↔ PrincipalInside n m.nodes ∧ Linked n m.nodes) := by
  have hlive := match_covers hm
  obtain ⟨hregion, hpairs, hexits⟩ : c.region = true ∧ c.pairs = m.nodes.filterMap (nodeRedex n m.nodes) ∧
      c.exits = m.nodes.flatMap (nodeExits n m.nodes) := by
    simp only [linPatClaim, linPatRegionExits, if_true] at hc
    split_ifs at hc
    · cases hc
    · rw [Option.bind_eq_bind, Option.bind_some] at hc
      split_ifs at hc
      obtain rfl := Option.some.inj hc
      exact ⟨rfl, rfl, List.append_nil _⟩
  have hcl := closure_of_check hsym hregion h
  have howned : ∀ v, v ∈ c'.nodes ↔ Owned n m.nodes v := by
    intro v
    constructor
    · intro hv
      refine hcl.least (Owned n m.nodes) (fun pr hpr => ?_) (fun p w hp hexit hw hl => ?_) v hv
      · rw [hpairs] at hpr
        exact ⟨⟨_, (mem_pairs_iff hlive).mp ⟨pr, hpr, Or.inl rfl⟩, .refl⟩, ⟨_, (mem_pairs_iff hlive).mp ⟨pr, hpr, Or.inr rfl⟩, .refl⟩⟩
      · rw [hexits, mem_exits_iff hlive hw hl] at hexit
        refine hp.next ⟨p, w, rfl, rfl, hw, hl, fun hin hout => ?_⟩
        by_contra hport
        exact hexit ⟨hin, hport, hout⟩
    · rintro ⟨u, hu, hpath⟩
      induction hpath with
      | refl =>
        obtain ⟨pr, hpr, rfl | rfl⟩ := (mem_pairs_iff hlive).mpr hu
        · exact (hcl.pairs pr (hpairs ▸ hpr)).1
        · exact (hcl.pairs pr (hpairs ▸ hpr)).2
      | tail _ hstep ih =>
        obtain ⟨p, w, rfl, rfl, hw, hl, hexit⟩ := hstep
        refine hcl.closed p ih ?_ w hw hl
        rw [hexits, mem_exits_iff hlive hw hl]
        rintro ⟨hin, hport, hout⟩
        exact hport (hexit hin hout)
  refine ⟨howned, ?_⟩
  rw [← owned_iff_covered hlive]
  exact forall_congr' fun v => by rw [howned v]

/-- An application at a redex, and the application its result is wired to. -/
def resultPat : LinPat := .pAll (.pTag .app) (.pAll (.pPort 0 (.pTag .lam)) (.pPort 1 (.pTag .app)))

/-- An application at a redex, and its operand through a chain of sharing nodes. -/
def operandPat : LinPat := .pAll (.pTag .app) (.pAll (.pPort 0 (.pTag .lam)) (.pPort 2 (.pFan (.pTag .lam))))

/-- The net of `(\f. (\x.x) f f) (\y.y)` after its first step: the operand of the redex is shared. -/
def sharedNet : Net :=
  (netInteract .serial ((compile (.app (.lam "f" (.app (.app (.lam "x" (.var "x")) (.var "f")) (.var "f")))
    (.lam "y" (.var "y")))).toOption.getD netInit) ⟨1, 0⟩ ⟨2, 0⟩).2

/-- The covered nodes of a match and the region of its claim. -/
def matchRegion (n : Net) (root : Port) (pat : LinPat) (budget : ℤ) : Option (List ℕ × List ℕ) := do
  let m ← linPatMatch n (some root) pat budget
  let c ← linPatClaim n m [] true false
  let c' ← (linClaimCheck n c).toOption
  some (m.nodes, c'.nodes)

def resultMatch : LinMatch := (linPatMatch fourNet (some ⟨2, 0⟩) resultPat 10).getD (.start 0)

def resultClaim : LinClaim := ⟨true, false, [(⟨2, 0⟩, ⟨3, 0⟩)], [⟨2, 2⟩, ⟨1, 1⟩, ⟨1, 2⟩], []⟩

theorem linPatClaim_region_result : PrincipalInside fourNet resultMatch.nodes ∧ Linked fourNet resultMatch.nodes := by
  have hm : linPatMatch fourNet (some ⟨2, 0⟩) resultPat 10 = some resultMatch := by decide +kernel
  have hc : linPatClaim fourNet resultMatch [] true false = some resultClaim := by decide +kernel
  have h : linClaimCheck fourNet resultClaim = .ok { resultClaim with nodes := [2, 3, 1] } := by decide +kernel
  have hnodes : resultMatch.nodes = [2, 3, 1] := by decide +kernel
  exact (linPatClaim_region fourNet_sound.wired.symmetric hm hc h).2.mp fun v => by rw [hnodes]

/-- In the first net an uncovered redex is reserved, in the second the covered operand is left out. -/
theorem linPatClaim_uncovered : (Symmetric fourNet ∧ Symmetric sharedNet) ∧
    matchRegion fourNet ⟨5, 0⟩ resultPat 10 = some ([5, 6, 1], [5, 6, 1, 2, 3, 4]) ∧
    matchRegion sharedNet ⟨4, 0⟩ operandPat 10 = some ([4, 5, 8], [4, 5]) :=
  ⟨⟨fourNet_sound.wired.symmetric, (sound_of_check (n := sharedNet) (by decide +kernel)).wired.symmetric⟩,
    by decide +kernel, by decide +kernel⟩

end LinEngine.Matching
