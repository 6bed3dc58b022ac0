import LinEngine.Sealed
import LinEngine.Runs

/-!
# Claims

A driver's claim is a list of redexes and the exits of the region around them.
`linClaimCheck` validates it by tags, ports and wires only: the region of a claim is what a
walk from the claimed pairs reaches without passing an exit. An accepted region is closed
under everything but its exits, so a redex outside it cannot change it.
-/
namespace LinEngine

/-- The bounds of the claim record: pairs, exits and reserved nodes. -/
def claimPairs : ℕ := 32
def claimExits : ℕ := 16
def claimNodes : ℕ := 128

/-- `region` and `held` are the claim's flags; `nodes` is filled by `linClaimCheck`. -/
structure LinClaim where
  region : Bool
  held : Bool
  pairs : List (Port × Port)
  exits : List Port
  nodes : List ℕ
  deriving DecidableEq, Repr

/-- Both ends of a redex inside the region. -/
def claimCovers (c : LinClaim) (a b : Port) : Bool := decide (a.node ∈ c.nodes) && decide (b.node ∈ c.nodes)

/-! ## The check -/

/-- Reserve a node once. -/
def reserve (full : String) (nodes : List ℕ) (v : ℕ) : Except String (List ℕ) :=
  if v ∈ nodes then .ok nodes
  else if claimNodes ≤ nodes.length then .error full
  else .ok (nodes ++ [v])

/-- Both ends of every claimed pair. -/
def pairNodes (full : String) (pairs : List (Port × Port)) : Except String (List ℕ) :=
  (pairs.flatMap fun pr => [pr.1.node, pr.2.node]).foldlM (reserve full) []

/-- Follow one port of a reserved node, unless it is an exit. -/
def follow (n : Net) (full : String) (exits : List Port) (nodes : List ℕ) (p : Port) : Except String (List ℕ) :=
  if p ∈ exits then .ok nodes
  else
    match n.wireAt p with
    | none => .ok nodes
    | some w => if n.live w.node then reserve full nodes w.node else .ok nodes

/-- The walk over the reserved nodes, from entry `qi` on; there are never more than `claimNodes`. -/
def claimWalk (n : Net) (full : String) (exits : List Port) : ℕ → ℕ → List ℕ → Except String (List ℕ)
  | 0, _, nodes => .ok nodes
  | fuel + 1, qi, nodes =>
    match nodes[qi]? with
    | none => .ok nodes
    | some u =>
      match (portsOf u).foldlM (follow n full exits) nodes with
      | .error why => .error why
      | .ok nodes => claimWalk n full exits fuel (qi + 1) nodes

def pairFault (n : Net) (x : (Port × Port) × ℕ) : Option String :=
  if redexLive n x.1.1 x.1.2 then none
  else
    let i := x.2
    some s!"claimed pair {i} is not a live redex"

def exitFault (n : Net) (x : Port × ℕ) : Option String :=
  let i := x.2
  if x.1.port = 0 then some s!"exit {i} is at a principal port"
  else if n.live x.1.node then none
  else some s!"exit {i} is not live"

def frontierFault (n : Net) (nodes : List ℕ) (x : Port × ℕ) : Option String :=
  let i := x.2
  if x.1.node ∉ nodes then some s!"exit {i} is outside the region"
  else if (n.wireAt x.1).any fun w => n.live w.node && decide (w.node ∈ nodes) then
    some s!"exit {i} is internal: it does not leave the region"
  else none

/-- The region of a claim with exits. -/
def claimRegion (n : Net) (c : LinClaim) : Except String (List ℕ) :=
  let full := s!"region exceeds {claimNodes} nodes"
  match c.exits.zipIdx.findSome? (exitFault n) with
  | some why => .error why
  | none =>
    match pairNodes full c.pairs with
    | .error why => .error why
    | .ok nodes =>
      match claimWalk n full c.exits claimNodes 0 nodes with
      | .error why => .error why
      | .ok nodes =>
        match c.exits.zipIdx.findSome? (frontierFault n nodes) with
        | some why => .error why
        | none => .ok nodes

/-- The claim with its nodes, or why it is refused. -/
def linClaimCheck (n : Net) (c : LinClaim) : Except String LinClaim :=
  let np := c.pairs.length
  let ne := c.exits.length
  if np = 0 ∨ claimPairs < np ∨ claimExits < ne then
    .error s!"claim shape out of range ({np} pairs, {ne} exits)"
  else
    match c.pairs.zipIdx.findSome? (pairFault n) with
    | some why => .error why
    | none =>
      match if c.region then claimRegion n c
        else if ne ≠ 0 then .error "exits declared without LIN_CLAIM_REGION"
        else pairNodes "claim too large" c.pairs with
      | .error why => .error why
      | .ok nodes => .ok { c with nodes := nodes }

/-! ## What the walk reserves -/

section Walk

variable {n : Net} {full : String} {exits : List Port} {nodes nodes' : List ℕ}

lemma reserve_ok {v : ℕ} (h : reserve full nodes v = .ok nodes') :
    nodes <+: nodes' ∧ (∀ u, u ∈ nodes' ↔ u ∈ nodes ∨ u = v) ∧
      (nodes.length ≤ claimNodes → nodes'.length ≤ claimNodes) := by
  unfold reserve at h
  split_ifs at h with hmem hfull
  · obtain rfl := Except.ok.inj h
    refine ⟨List.prefix_rfl, fun u => ⟨Or.inl, ?_⟩, id⟩
    rintro (hu | rfl)
    · exact hu
    · exact hmem
  · obtain rfl := Except.ok.inj h
    refine ⟨List.prefix_append _ _, fun u => by simp, fun _ => ?_⟩
    rw [List.length_append, List.length_singleton]
    omega

lemma reserveAll_ok (vs : List ℕ) (h : vs.foldlM (reserve full) nodes = .ok nodes') :
    (∀ u, u ∈ nodes' ↔ u ∈ nodes ∨ u ∈ vs) ∧ (nodes.length ≤ claimNodes → nodes'.length ≤ claimNodes) := by
  induction vs generalizing nodes with
  | nil =>
    obtain rfl := Except.ok.inj h
    simp
  | cons v vs ih =>
    rw [List.foldlM_cons] at h
    cases hv : reserve full nodes v with
    | error why => rw [hv] at h; cases h
    | ok mid =>
      rw [hv] at h
      rcases reserve_ok hv with ⟨-, hmem, hlen⟩
      rcases ih h with ⟨hmem', hlen'⟩
      refine ⟨fun u => ?_, fun hn => hlen' (hlen hn)⟩
      rw [hmem', hmem, List.mem_cons, or_assoc]

lemma pairNodes_ok {pairs : List (Port × Port)} (h : pairNodes full pairs = .ok nodes) :
    (∀ v, v ∈ nodes ↔ ∃ pr ∈ pairs, v = pr.1.node ∨ v = pr.2.node) ∧ nodes.length ≤ claimNodes := by
  rcases reserveAll_ok _ h with ⟨hmem, hlen⟩
  refine ⟨fun v => ?_, hlen (Nat.zero_le _)⟩
  simp [hmem, List.mem_flatMap]

/-- Every reserved node is alive and has a wire to a reserved node. -/
def Anchored (n : Net) (nodes : List ℕ) : Prop :=
  ∀ v ∈ nodes, n.live v = true ∧ ∃ p q : Port, p.node = v ∧ q.node ∈ nodes ∧ n.wireAt p = some q ∧ n.wireAt q = some p

/-- What a port that is no exit leads to is reserved. -/
def Followed (n : Net) (exits : List Port) (nodes : List ℕ) (p : Port) : Prop :=
  p ∉ exits → ∀ w, n.wireAt p = some w → n.live w.node = true → w.node ∈ nodes

lemma Followed.mono {p : Port} (h : Followed n exits nodes p) (hsub : nodes <+: nodes') : Followed n exits nodes' p :=
  fun hp w hw hl => hsub.subset (h hp w hw hl)

/-- One port of a reserved node. -/
lemma follow_ok (hsym : Symmetric n) {p : Port} (h : follow n full exits nodes p = .ok nodes') (hp : p.node ∈ nodes)
    (hanch : Anchored n nodes) (hlen : nodes.length ≤ claimNodes) :
    nodes <+: nodes' ∧ Followed n exits nodes' p ∧ Anchored n nodes' ∧ nodes'.length ≤ claimNodes := by
  unfold follow at h
  split_ifs at h with hexit
  · obtain rfl := Except.ok.inj h
    exact ⟨List.prefix_rfl, fun hp => absurd hexit hp, hanch, hlen⟩
  · cases hw : n.wireAt p with
    | none =>
      rw [hw] at h
      obtain rfl := Except.ok.inj h
      refine ⟨List.prefix_rfl, ?_, hanch, hlen⟩
      intro _ w hw'
      rw [hw] at hw'
      cases hw'
    | some w =>
      rw [hw] at h
      dsimp only at h
      split_ifs at h with hlive
      · rcases reserve_ok h with ⟨hpre, hmem, hlen'⟩
        refine ⟨hpre, ?_, ?_, hlen' hlen⟩
        · intro _ w' hw' _
          rw [hw] at hw'
          obtain rfl := Option.some.inj hw'
          exact (hmem _).2 (Or.inr rfl)
        · intro v hv
          rcases (hmem v).1 hv with hold | rfl
          · rcases hanch v hold with ⟨hl, x, y, hx, hy, hwires⟩
            exact ⟨hl, x, y, hx, hpre.subset hy, hwires⟩
          · exact ⟨hlive, w, p, rfl, hpre.subset hp, hsym p w (hanch _ hp).1 hw, hw⟩
      · obtain rfl := Except.ok.inj h
        refine ⟨List.prefix_rfl, ?_, hanch, hlen⟩
        intro _ w' hw' hl
        rw [hw] at hw'
        obtain rfl := Option.some.inj hw'
        exact absurd hl hlive

/-- All ports of a reserved node. -/
lemma followAll_ok (hsym : Symmetric n) (ps : List Port) (hps : ∀ p ∈ ps, p.node ∈ nodes)
    (h : ps.foldlM (follow n full exits) nodes = .ok nodes') (hanch : Anchored n nodes)
    (hlen : nodes.length ≤ claimNodes) :
    nodes <+: nodes' ∧ (∀ p ∈ ps, Followed n exits nodes' p) ∧ Anchored n nodes' ∧ nodes'.length ≤ claimNodes := by
  induction ps generalizing nodes with
  | nil =>
    obtain rfl := Except.ok.inj h
    exact ⟨List.prefix_rfl, by simp, hanch, hlen⟩
  | cons p ps ih =>
    rw [List.forall_mem_cons] at hps
    rw [List.foldlM_cons] at h
    cases hp : follow n full exits nodes p with
    | error why => rw [hp] at h; cases h
    | ok mid =>
      rw [hp] at h
      rcases follow_ok hsym hp hps.1 hanch hlen with ⟨hpre, hfol, hanch', hlen'⟩
      rcases ih (fun q hq => hpre.subset (hps.2 q hq)) h hanch' hlen' with ⟨hpre', hfols, hres⟩
      exact ⟨hpre.trans hpre', List.forall_mem_cons.2 ⟨hfol.mono hpre', hfols⟩, hres⟩

/-- The nodes before entry `qi` have been followed. -/
def Done (n : Net) (exits : List Port) (qi : ℕ) (nodes : List ℕ) : Prop :=
  ∀ i u, i < qi → nodes[i]? = some u → ∀ p ∈ portsOf u, Followed n exits nodes p

lemma Done.all {qi : ℕ} (h : Done n exits qi nodes) (hle : nodes.length ≤ qi) (p : Port) (hp : p.node ∈ nodes) :
    Followed n exits nodes p := by
  rcases List.mem_iff_getElem?.1 hp with ⟨i, hi⟩
  have hlt := (List.getElem?_eq_some_iff.1 hi).1
  exact h i p.node (by omega) hi p (mem_portsOf.2 rfl)

lemma Done.step {qi u : ℕ} (h : Done n exits qi nodes) (hu : nodes[qi]? = some u) (hpre : nodes <+: nodes')
    (hfol : ∀ p ∈ portsOf u, Followed n exits nodes' p) : Done n exits (qi + 1) nodes' := by
  intro i v hi hv p hp
  have hqi := (List.getElem?_eq_some_iff.1 hu).1
  have hold : nodes[i]? = some v := by
    rcases hpre with ⟨t, rfl⟩
    rwa [List.getElem?_append_left (by omega)] at hv
  rcases Nat.lt_succ_iff_lt_or_eq.1 hi with hlt | rfl
  · exact (h i v hlt hold p hp).mono hpre
  · rw [hu] at hold
    obtain rfl := Option.some.inj hold
    exact hfol p hp

/-- The walk ends with every reserved node followed. -/
lemma claimWalk_ok (hsym : Symmetric n) (fuel qi : ℕ) (hfuel : fuel + qi = claimNodes)
    (h : claimWalk n full exits fuel qi nodes = .ok nodes') (hanch : Anchored n nodes)
    (hlen : nodes.length ≤ claimNodes) (hdone : Done n exits qi nodes) :
    nodes <+: nodes' ∧ Anchored n nodes' ∧ ∀ p : Port, p.node ∈ nodes' → Followed n exits nodes' p := by
  induction fuel generalizing qi nodes with
  | zero =>
    obtain rfl := Except.ok.inj h
    exact ⟨List.prefix_rfl, hanch, hdone.all (by omega)⟩
  | succ fuel ih =>
    rw [claimWalk] at h
    cases hu : nodes[qi]? with
    | none =>
      rw [hu] at h
      obtain rfl := Except.ok.inj h
      exact ⟨List.prefix_rfl, hanch, hdone.all (List.getElem?_eq_none_iff.1 hu)⟩
    | some u =>
      rw [hu] at h
      dsimp only at h
      cases hports : (portsOf u).foldlM (follow n full exits) nodes with
      | error why => rw [hports] at h; cases h
      | ok mid =>
        rw [hports] at h
        have hps : ∀ p ∈ portsOf u, p.node ∈ nodes := fun p hp => mem_portsOf.1 hp ▸ List.mem_of_getElem? hu
        rcases followAll_ok hsym _ hps hports hanch hlen with ⟨hpre, hfol, hanch', hlen'⟩
        rcases ih (qi + 1) (by omega) h hanch' hlen' (hdone.step hu hpre hfol) with ⟨hpre', hres⟩
        exact ⟨hpre.trans hpre', hres⟩

end Walk

/-! ## Accepted claims -/

section Accepted

variable {n : Net} {c c' : LinClaim}

/-- What an accepted claim with exits has: its exits are auxiliary ports, and its region is anchored and
closed but for them. -/
structure Certified (n : Net) (c c' : LinClaim) : Prop where
  aux : ∀ e ∈ c.exits, e.port ≠ 0
  anchored : Anchored n c'.nodes
  closed : ∀ p : Port, p.node ∈ c'.nodes → Followed n c.exits c'.nodes p

lemma findSome?_zipIdx_none {α : Type} {fault : α × ℕ → Option String} {xs : List α}
    (h : xs.zipIdx.findSome? fault = none) {x : α} (hx : x ∈ xs) : ∃ i, fault (x, i) = none := by
  rcases List.mem_iff_getElem?.1 hx with ⟨i, hi⟩
  exact ⟨i, List.findSome?_eq_none_iff.1 h (x, i) (List.mk_mem_zipIdx_iff_getElem?.2 hi)⟩

/-- The walk of an accepted region starts with the ends of the claimed pairs. -/
lemma claimRegion_start (hpairs : ∀ pr ∈ c.pairs, redexLive n pr.1 pr.2 = true) {nodes : List ℕ}
    (h : claimRegion n c = .ok nodes) :
    ∃ start, ((∀ v, v ∈ start ↔ ∃ pr ∈ c.pairs, v = pr.1.node ∨ v = pr.2.node) ∧ start.length ≤ claimNodes) ∧
      Anchored n start ∧ (∀ e ∈ c.exits, e.port ≠ 0) ∧
      claimWalk n s!"region exceeds {claimNodes} nodes" c.exits claimNodes 0 start = .ok nodes := by
  simp only [claimRegion] at h
  cases hexits : c.exits.zipIdx.findSome? (exitFault n) with
  | some why => rw [hexits] at h; cases h
  | none =>
    rw [hexits] at h
    dsimp only at h
    cases hstart : pairNodes s!"region exceeds {claimNodes} nodes" c.pairs with
    | error why => rw [hstart] at h; cases h
    | ok start =>
      rw [hstart] at h
      dsimp only at h
      cases hwalk : claimWalk n s!"region exceeds {claimNodes} nodes" c.exits claimNodes 0 start with
      | error why => rw [hwalk] at h; cases h
      | ok region =>
        rw [hwalk] at h
        dsimp only at h
        split at h
        · cases h
        · obtain rfl := Except.ok.inj h
          have hmem := (pairNodes_ok hstart).1
          refine ⟨start, pairNodes_ok hstart, ?_, fun e he hport => ?_, hwalk⟩
          · intro v hv
            rcases (hmem v).1 hv with ⟨pr, hpr, hv⟩
            have hredex := hpairs pr hpr
            simp only [redexLive, Bool.and_eq_true, beq_iff_eq] at hredex
            obtain ⟨⟨⟨⟨⟨hl, hl'⟩, -⟩, -⟩, hw⟩, hw'⟩ := hredex
            rcases hv with rfl | rfl
            · exact ⟨hl, pr.1, pr.2, rfl, (hmem _).2 ⟨pr, hpr, Or.inr rfl⟩, hw, hw'⟩
            · exact ⟨hl', pr.2, pr.1, rfl, (hmem _).2 ⟨pr, hpr, Or.inl rfl⟩, hw', hw⟩
          · rcases findSome?_zipIdx_none hexits he with ⟨i, hi⟩
            simp [exitFault, hport] at hi

lemma claimRegion_ok (hsym : Symmetric n) (hpairs : ∀ pr ∈ c.pairs, redexLive n pr.1 pr.2 = true) {nodes : List ℕ}
    (h : claimRegion n c = .ok nodes) : Certified n c { c with nodes := nodes } := by
  rcases claimRegion_start hpairs h with ⟨start, ⟨-, hlen⟩, hanch, haux, hwalk⟩
  have hdone : Done n c.exits 0 start := fun i u hi => absurd hi (Nat.not_lt_zero i)
  rcases claimWalk_ok hsym claimNodes 0 rfl hwalk hanch hlen hdone with ⟨-, hanch', hclosed⟩
  exact ⟨haux, hanch', hclosed⟩

/-- The region of an accepted claim with exits, whose pairs are redexes. -/
lemma linClaimCheck_region (hregion : c.region = true) (h : linClaimCheck n c = .ok c') :
    (∀ pr ∈ c.pairs, redexLive n pr.1 pr.2 = true) ∧ claimRegion n c = .ok c'.nodes ∧ c' = { c with nodes := c'.nodes } := by
  simp only [linClaimCheck] at h
  split_ifs at h
  cases hpairs : c.pairs.zipIdx.findSome? (pairFault n) with
  | some why => rw [hpairs] at h; cases h
  | none =>
    rw [hpairs] at h
    dsimp only at h
    cases hnodes : claimRegion n c with
    | error why => rw [hnodes] at h; cases h
    | ok nodes =>
      rw [hnodes] at h
      obtain rfl := Except.ok.inj h
      refine ⟨fun pr hpr => ?_, rfl, rfl⟩
      rcases findSome?_zipIdx_none hpairs hpr with ⟨i, hi⟩
      by_contra hredex
      simp [pairFault, hredex] at hi

lemma linClaimCheck_ok (hsym : Symmetric n) (hregion : c.region = true) (h : linClaimCheck n c = .ok c') :
    Certified n c c' := by
  rcases linClaimCheck_region hregion h with ⟨hpairs, hnodes, hc'⟩
  rw [hc']
  exact claimRegion_ok hsym hpairs hnodes

/-- The ports whose wires stay inside the region. -/
def innerPorts (n : Net) (nodes : List ℕ) : Set Port :=
  {p | p.node ∈ nodes ∧ ∃ q, n.wireAt p = some q ∧ q.node ∈ nodes}

lemma mated_innerPorts (hsym : Symmetric n) {nodes : List ℕ} (hanch : Anchored n nodes) :
    Mated (innerPorts n nodes) n := by
  rintro p ⟨hp, q, hw, hq⟩
  have hback := hsym p q (hanch _ hp).1 hw
  exact ⟨q, ⟨hq, p, hback, hp⟩, hw, hback⟩

lemma Anchored.mem_nodesOf {nodes : List ℕ} (hanch : Anchored n nodes) {v : ℕ} (hv : v ∈ nodes) :
    v ∈ nodesOf (innerPorts n nodes) := by
  rcases (hanch v hv).2 with ⟨p, q, rfl, hq, hw, -⟩
  exact ⟨p, ⟨hv, q, hw, hq⟩, rfl⟩

/-- An accepted region is isolated: a redex has both ends in it or none, only its exits lead out
of it and they are auxiliary ports, and a call on a redex outside it changes no wire between two of
its ports and no tag or dead flag of its nodes. -/
theorem linClaimCheck_isolated (hsym : Symmetric n) (hfree : FreeOk n) (hregion : c.region = true)
    (h : linClaimCheck n c = .ok c') :
    (∀ p q, redexLive n p q = true → (p.node ∈ c'.nodes ↔ q.node ∈ c'.nodes)) ∧
    (∀ p q : Port, p.node ∈ c'.nodes → q.node ∉ c'.nodes → n.live q.node = true →
      n.wireAt p = some q ∨ n.wireAt q = some p → p ∈ c.exits ∧ p.port ≠ 0) ∧
    ∀ (g : Globals) (p q : Port), redexLive n p q = true → p.node ∉ c'.nodes → q.node ∉ c'.nodes →
      (∀ x y : Port, x.node ∈ c'.nodes → y.node ∈ c'.nodes → n.wireAt x = some y →
        (netInteract g n p q).2.wireAt x = some y) ∧
      ∀ v ∈ c'.nodes, (netInteract g n p q).2.tag.get v = n.tag.get v ∧
        (netInteract g n p q).2.dead.get v = n.dead.get v := by
  have hc := linClaimCheck_ok hsym hregion h
  have hexit : ∀ p q : Port, p.node ∈ c'.nodes → q.node ∉ c'.nodes → n.live q.node = true →
      n.wireAt p = some q → p ∈ c.exits ∧ p.port ≠ 0 := by
    intro p q hp hq hl hw
    by_cases hpe : p ∈ c.exits
    · exact ⟨hpe, hc.aux p hpe⟩
    · exact absurd (hc.closed p hp hpe q hw hl) hq
  have hredex : ∀ p q, redexLive n p q = true → p.node ∈ c'.nodes → q.node ∈ c'.nodes := by
    intro p q hpq hp
    simp only [redexLive, Bool.and_eq_true, beq_iff_eq] at hpq
    obtain ⟨⟨⟨⟨⟨-, hl⟩, hport⟩, -⟩, hw⟩, -⟩ := hpq
    by_contra hq
    exact (hexit p q hp hq hl hw).2 hport
  refine ⟨fun p q hpq => ⟨hredex p q hpq, hredex q p ?_⟩, ?_, ?_⟩
  · simp only [redexLive, Bool.and_eq_true] at hpq ⊢
    tauto
  · rintro p q hp hq hl (hw | hw)
    · exact hexit p q hp hq hl hw
    · exact hexit p q hp hq hl (hsym q p hl hw)
  · intro g p q hpq hp hq
    have hlive : ∀ x ∈ innerPorts n c'.nodes, n.live x.node = true := fun x hx => (hc.anchored _ hx.1).1
    have hs := netInteract_sealed (g := g) hsym hfree (mated_innerPorts hsym hc.anchored) hlive hpq
      fun x hx => ⟨fun he => hp (he ▸ hx.1), fun he => hq (he ▸ hx.1)⟩
    refine ⟨fun x y hx hy hw => ?_, fun v hv => ⟨hs.tag v (hc.anchored.mem_nodesOf hv), ?_⟩⟩
    · rw [hs.wire x ⟨hx, y, hw, hy⟩, hw]
    · have hafter := ((Net.live_iff v).1 (hs.live v (hc.anchored.mem_nodesOf hv))).2
      rw [hafter, ((Net.live_iff v).1 (hc.anchored v hv).1).2]

end Accepted

/-- `((\x.x) (\y.y)) ((\z.z) (\w.w))`. -/
def fourIdentities : Term :=
  .app (.app (.lam "x" (.var "x")) (.lam "y" (.var "y"))) (.app (.lam "z" (.var "z")) (.lam "w" (.var "w")))

/-- The net `compile` makes of it. -/
def fourNet : Net := (compile fourIdentities).toOption.getD netInit

/-- The redex on the left, with the operand and the result of its application as exits. -/
def leftClaim : LinClaim where
  region := true
  held := false
  pairs := [(⟨2, 0⟩, ⟨3, 0⟩)]
  exits := [⟨2, 1⟩, ⟨2, 2⟩]
  nodes := []

lemma fourNet_sound : Sound fourNet := sound_of_check (by decide +kernel)

lemma leftClaim_ok : linClaimCheck fourNet leftClaim = .ok { leftClaim with nodes := [2, 3] } := by
  decide +kernel

theorem linClaimCheck_isolated_left :
    (netInteract .serial fourNet ⟨5, 0⟩ ⟨6, 0⟩).2.wireAt ⟨3, 1⟩ = some ⟨3, 2⟩ :=
  ((linClaimCheck_isolated fourNet_sound.wired.symmetric fourNet_sound.freeOk rfl
    leftClaim_ok).2.2
    .serial ⟨5, 0⟩ ⟨6, 0⟩ (by decide +kernel) (by decide) (by decide)).1 ⟨3, 1⟩ ⟨3, 2⟩ (by decide) (by decide)
    (by decide +kernel)

end LinEngine
