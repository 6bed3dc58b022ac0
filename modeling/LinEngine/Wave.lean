import LinEngine.Claim

/-!
# One wave of the reducer

The demand walk, the claims of the registered drivers and the assignment of the remaining
pairs, up to the calls that act on them. A hook is a function of all the state it is given
and may change all of it: the net, the held claims and the driver's own tables. A driver is
known by its index in `registry`; `drv` lists the pipeline in priority order.
-/
namespace LinEngine

/-! ## Needed order -/

/-- A demanded node whose queued partner is demanded too: the pair leaves the queue. -/
def demPut (g : Globals) (s : Net × List (Port × Port)) (v : ℕ) : Net × List (Port × Port) :=
  match s.1.actOf.get v with
  | none => s
  | some i =>
    let other := if (s.1.act.get i).node = v then s.1.act.get (i + 1) else s.1.act.get i
    if s.1.dem.get other.node ≠ s.1.demStamp then s
    else (actDrop g s.1 v, s.2 ++ [(s.1.act.get i, s.1.act.get (i + 1))])

/-- The pair a principal port faces, if one of the rules exists for the two tags. -/
def facesRedex (t qt : Tag) : Bool :=
  if t = .lam then qt = .app || qt = .dup else qt = .lam || qt = .dup

/-- The walk from one demand root; every port is visited once. -/
def demandWalk (g : Globals) : ℕ → Option Port → Net × List (Port × Port) → Net × List (Port × Port)
  | 0, _, s => s
  | _ + 1, none, s => s
  | fuel + 1, some p, s =>
    let u := p.node
    let bit := 2 ^ (p.port : ℕ)
    if !s.1.live u then s
    else if s.1.dem.get u = s.1.demStamp ∧ (s.1.vport.get u).testBit p.port then s
    else
      let s :=
        if s.1.dem.get u = s.1.demStamp then
          ({ s.1 with vport := s.1.vport.set u (s.1.vport.get u ||| bit) }, s.2)
        else
          demPut g ({ s.1 with dem := s.1.dem.set u s.1.demStamp, vport := s.1.vport.set u bit }, s.2) u
      let t := s.1.tag.get u
      if t = .root then demandWalk g fuel (s.1.wireAt p) s
      else if t = .era ∨ t = .lam ∧ p.port ≠ 0 then s
      else if p.port ≠ 0 then demandWalk g fuel (s.1.wireAt ⟨u, 0⟩) s
      else
        match s.1.wireAt p with
        | none => s
        | some q =>
          if q.port = 0 ∧ s.1.live q.node = true ∧ facesRedex t (s.1.tag.get q.node) = true then
            let s := if s.1.dem.get q.node = s.1.demStamp then s
              else demPut g ({ s.1 with vport := s.1.vport.set q.node 0 }, s.2) q.node
            ({ s.1 with dem := s.1.dem.set q.node s.1.demStamp }, s.2)
          else s

/-- A new stamp unmarks every node. The stamp has 32 bits; when it wraps the marks are cleared. -/
def nextStamp (n : Net) : Net :=
  let stamp := (n.demStamp + 1) % 2 ^ 32
  if stamp = 0 then { n with demStamp := 1, dem := .empty } else { n with demStamp := stamp }

/-- One walk per demand root, ROOT first; the demanded pairs are taken out of the queue. -/
def netMarkDemand (g : Globals) (n : Net) : Net × List (Port × Port) :=
  let n := nextStamp n
  (⟨0, 0⟩ :: n.root).foldl (fun s p => demandWalk g (3 * n.nn + 1) (some p) s) (n, [])

/-! ## Drivers -/

/-- What the hooks see: the net with its held claims, and the drivers' own tables. -/
structure Core (σ : Type) where
  net : Net
  held : Table LinClaim ⟨false, false, [], [], []⟩
  heldDrv : Table ℕ 0
  nheld : ℕ
  tables : σ

/-- How many claims a net can hold. -/
def heldClaims : ℕ := 4

/-- The hooks of a driver that claim; `revalidate` and `releaseClaim` are given a held claim's index. -/
structure Driver (σ : Type) where
  revalidate : Option (Core σ → ℕ → Bool × Core σ)
  releaseClaim : Option (Core σ → ℕ → Core σ)
  matchClaim : Option (Core σ → List (Port × Port) → Option LinClaim × Core σ)
  claim : Option (Core σ → Port → Port → Bool × Core σ)
  fold : Bool

/-- A demanded pair and who owns it: nobody, a held claim (`0`), or entry `i` of the pipeline (`i + 1`). -/
structure Slot where
  p1 : Port
  p2 : Port
  owned : Option ℕ

namespace Slot

def pair (s : Slot) : Port × Port := (s.p1, s.p2)

def covered (c : LinClaim) (s : Slot) : Bool := claimCovers c s.p1 s.p2

end Slot

/-- A claim that passed the check, and the driver in the pipeline that holds or proposes it. -/
structure Proposal where
  pos : ℕ
  held : Bool
  claim : LinClaim

/-- Between two hooks of a wave: `claimed` is the claim each driver will act on, and `proposed`
records the hooks' answers. -/
structure Reserved (σ : Type) where
  core : Core σ
  slots : List Slot
  claimed : ℕ → Option LinClaim
  proposed : List Proposal

/-- Reserve every free pair inside the region. -/
def reserveSlots (c : LinClaim) (k : ℕ) (slots : List Slot) : List Slot :=
  slots.map fun s => if s.owned = none ∧ s.covered c = true then { s with owned := some k } else s

/-- The pairs a held claim reserves stay queued. -/
def requeue (n : Net) (c : LinClaim) (slots : List Slot) : Net :=
  slots.foldl (fun n s => if s.owned = none ∧ s.covered c = true then actPush n s.p1 s.p2 else n) n

section Phases

variable {σ : Type} (registry : ℕ → Driver σ) (drv : List ℕ)

/-- Ask driver `d` whether it keeps held claim `h`; a claim it drops has no pairs. -/
def askRevalidate (d : ℕ) (core : Core σ) (h : ℕ) : Core σ :=
  match (registry d).revalidate with
  | none => core
  | some hook =>
    let r := hook core h
    if r.1 then r.2 else { r.2 with held := r.2.held.set h { r.2.held.get h with pairs := [] } }

/-- Release held claim `h` of driver `d`; the last one takes its place. -/
def dropHeld (d : ℕ) (core : Core σ) (h : ℕ) : Core σ :=
  let core :=
    match (registry d).releaseClaim with
    | none => core
    | some hook => hook core h
  let last := core.nheld - 1
  { core with
    nheld := last
    held := core.held.set h (core.held.get last)
    heldDrv := core.heldDrv.set h (core.heldDrv.get last) }

/-- Keep held claim `h` of driver `d`, whose region is now `c`. -/
def keepHeld (d : ℕ) (r : Reserved σ) (core : Core σ) (h : ℕ) (c : LinClaim) : Reserved σ where
  core := { core with held := core.held.set h c, net := requeue core.net c r.slots }
  slots := reserveSlots c 0 r.slots
  claimed di := if drv[di]? = some d then some c else r.claimed di
  proposed := r.proposed ++ (drv.zipIdx.filter fun x => x.1 = d).map fun x => ⟨x.2, true, c⟩

/-- Held claims first. -/
def heldLoop : ℕ → ℕ → Reserved σ → Option (Reserved σ)
  | 0, _, _ => none
  | fuel + 1, h, r =>
    if r.core.nheld ≤ h then some r
    else
      let d := r.core.heldDrv.get h
      let core := askRevalidate registry d r.core h
      match linClaimCheck core.net (core.held.get h) with
      | .error _ => heldLoop fuel h { r with core := dropHeld registry d core h }
      | .ok c => heldLoop fuel (h + 1) (keepHeld drv d r core h c)

/-- Hold a new claim across waves, if it asks for it and there is room. -/
def hold (core : Core σ) (d : ℕ) (c : LinClaim) : Core σ :=
  if c.held = true ∧ core.nheld < heldClaims then
    { core with held := core.held.set core.nheld c, heldDrv := core.heldDrv.set core.nheld d, nheld := core.nheld + 1 }
  else core

/-- A pair inside the region that is owned already. -/
def clash (c : LinClaim) (slots : List Slot) : Bool := slots.any fun s => s.owned.isSome && s.covered c

/-- One driver is offered the wave's free pairs. -/
def matchStep (view : List (Port × Port)) (r : Reserved σ) (x : ℕ × ℕ) : Reserved σ :=
  match (registry x.1).matchClaim with
  | none => r
  | some hook =>
    match hook r.core view with
    | (none, core) => { r with core := core }
    | (some c, core) =>
      match linClaimCheck core.net c with
      | .error _ => { r with core := core }
      | .ok c =>
        let proposed := r.proposed ++ [⟨x.2, false, c⟩]
        if clash c r.slots then { r with core := core, proposed := proposed }
        else
          { core := hold core x.1 c
            slots := reserveSlots c (x.2 + 1) r.slots
            claimed := Function.update r.claimed x.2 (some c)
            proposed := proposed }

/-- The wave before the claims are acted on: the pairs of each legacy driver and of the base engine. -/
structure Wave (σ : Type) extends Reserved σ where
  slices : ℕ → List (Port × Port)
  base : List (Port × Port)

/-- The first legacy driver of the pipeline that takes the pair. -/
def legacyTake (claimed : ℕ → Option LinClaim) (shape : Bool) (p1 p2 : Port) :
    List (ℕ × ℕ) → Core σ → Option ℕ × Core σ
  | [], core => (none, core)
  | x :: xs, core =>
    if (registry x.1).fold = true ∧ shape = false ∨ (claimed x.2).isSome = true then legacyTake claimed shape p1 p2 xs core
    else
      match (registry x.1).claim with
      | none => legacyTake claimed shape p1 p2 xs core
      | some hook =>
        let r := hook core p1 p2
        if r.1 then (some x.2, r.2) else legacyTake claimed shape p1 p2 xs r.2

/-- One pair that no claim owns goes to a legacy driver or to the base engine. -/
def legacyStep (foldShape : Core σ → Port → Port → Bool) (stamp : ℕ) (w : Wave σ) (s : Slot) : Wave σ :=
  if s.owned.isSome = true ∨ w.core.net.dem.get s.p1.node ≠ stamp ∨ w.core.net.dem.get s.p2.node ≠ stamp then w
  else
    let r := legacyTake registry w.claimed (foldShape w.core s.p1 s.p2) s.p1 s.p2 drv.zipIdx w.core
    match r.1 with
    | some di => { w with core := r.2, slices := Function.update w.slices di (w.slices di ++ [(s.p1, s.p2)]) }
    | none => { w with core := r.2, base := w.base ++ [(s.p1, s.p2)] }

/-- A wave up to the calls of `act`, `reduce` and the base engine. -/
def waveBody (g : Globals) (foldShape : Core σ → Port → Port → Bool) (fuel : ℕ) (core : Core σ) : Option (Wave σ) :=
  let demand := netMarkDemand g core.net
  let stamp := demand.1.demStamp
  let start : Reserved σ :=
    ⟨{ core with net := demand.1 }, demand.2.map fun pr => ⟨pr.1, pr.2, none⟩, fun _ => none, []⟩
  match heldLoop registry drv fuel 0 start with
  | none => none
  | some r =>
    let view := (r.slots.filter fun s => s.owned.isNone).map Slot.pair
    if view = [] ∧ r.core.nheld = 0 then some ⟨r, fun _ => [], []⟩
    else
      let r := drv.zipIdx.foldl (matchStep registry view) r
      some (r.slots.foldl (legacyStep registry drv foldShape stamp) ⟨r, fun _ => [], []⟩)

end Phases

/-! ## Exclusivity -/

/-- No live redex is covered by the claims of two drivers, and no pair a claim covers is also given
to a legacy driver or to the base engine. -/
structure Wave.Exclusive {σ : Type} (w : Wave σ) : Prop where
  apart : ∀ i j c c', i ≠ j → w.claimed i = some c → w.claimed j = some c' →
    ∀ p q, redexLive w.core.net p q = true → claimCovers c p q = true → claimCovers c' p q = false
  once : ∀ i c, w.claimed i = some c → ∀ p q, (p, q) ∈ w.base ∨ (∃ j, (p, q) ∈ w.slices j) → claimCovers c p q = false

/-- Whenever the claims of two drivers share a live redex, they also share a demanded pair, and one
of them is new. -/
def Compatible (n : Net) (pairs : List (Port × Port)) (claims : Set Proposal) : Prop :=
  ∀ x ∈ claims, ∀ y ∈ claims, x.pos ≠ y.pos → ∀ p q, redexLive n p q = true →
    claimCovers x.claim p q = true → claimCovers y.claim p q = true →
      (∃ pr ∈ pairs, claimCovers x.claim pr.1 pr.2 = true ∧ claimCovers y.claim pr.1 pr.2 = true) ∧
        (x.held = false ∨ y.held = false)

/-- The owners of the demanded pairs agree with the claims: a free pair is covered by none, a pair that a
new claim reserved by no other, and a pair that a held claim reserved by held claims only. -/
structure Guarded (slots : List Slot) (claimed : ℕ → Option LinClaim) (proposed : List Proposal) : Prop where
  free : ∀ s ∈ slots, s.owned = none → ∀ i c, claimed i = some c → s.covered c = false
  own : ∀ s ∈ slots, ∀ k, s.owned = some (k + 1) → ∀ i c, claimed i = some c → s.covered c = true → i = k
  held : ∀ s ∈ slots, s.owned = some 0 → ∀ i c, claimed i = some c → s.covered c = true → ⟨i, true, c⟩ ∈ proposed
  known : ∀ i c, claimed i = some c → ∃ b, ⟨i, b, c⟩ ∈ proposed

section Guards

variable {σ : Type} {registry : ℕ → Driver σ} {drv : List ℕ}

lemma pair_reserveSlots (c : LinClaim) (k : ℕ) (slots : List Slot) :
    (reserveSlots c k slots).map Slot.pair = slots.map Slot.pair := by
  unfold reserveSlots
  rw [List.map_map]
  refine List.map_congr_left fun s _ => ?_
  rw [Function.comp_apply]
  split_ifs <;> rfl

lemma mem_reserveSlots {c : LinClaim} {k : ℕ} {slots : List Slot} {s : Slot} (h : s ∈ reserveSlots c k slots) :
    (s ∈ slots ∧ (s.owned = none → s.covered c = false)) ∨
      ∃ s' ∈ slots, s'.owned = none ∧ s'.covered c = true ∧ s = { s' with owned := some k } := by
  rcases List.mem_map.1 h with ⟨s', hs', rfl⟩
  split_ifs with hfree
  · exact Or.inr ⟨s', hs', hfree.1, hfree.2, rfl⟩
  · refine Or.inl ⟨hs', fun hnone => ?_⟩
    rw [not_and] at hfree
    simpa using hfree hnone

/-- Before any driver is offered a pair, only held claims own one. -/
def HeldOnly (slots : List Slot) : Prop := ∀ s ∈ slots, s.owned = none ∨ s.owned = some 0

lemma keepHeld_guarded {r : Reserved σ} (hg : Guarded r.slots r.claimed r.proposed) (hheld : HeldOnly r.slots)
    (d : ℕ) (core : Core σ) (h : ℕ) (c : LinClaim) :
    let r' := keepHeld drv d r core h c
    Guarded r'.slots r'.claimed r'.proposed ∧ HeldOnly r'.slots := by
  have honly : HeldOnly (reserveSlots c 0 r.slots) := by
    intro s hs
    rcases mem_reserveSlots hs with ⟨hold, -⟩ | ⟨s', -, -, -, rfl⟩
    · exact hheld s hold
    · exact Or.inr rfl
  have hclaimed : ∀ {i : ℕ} {c' : LinClaim}, (keepHeld drv d r core h c).claimed i = some c' →
      (c' = c ∧ ⟨i, true, c⟩ ∈ (keepHeld drv d r core h c).proposed) ∨ r.claimed i = some c' := by
    intro i c' hi
    simp only [keepHeld] at hi ⊢
    split_ifs at hi with hd
    · refine Or.inl ⟨(Option.some.inj hi).symm, List.mem_append_right _ (List.mem_map.2 ⟨(d, i), ?_, rfl⟩)⟩
      exact List.mem_filter.2 ⟨List.mk_mem_zipIdx_iff_getElem?.2 hd, by simp⟩
    · exact Or.inr hi
  refine ⟨⟨fun s hs hnone i c' hi => ?_, fun s hs k hk => ?_, fun s hs h0 i c' hi hcov => ?_, fun i c' hi => ?_⟩, honly⟩
  · rcases mem_reserveSlots hs with ⟨hold, hc⟩ | ⟨s', -, -, -, rfl⟩
    · rcases hclaimed hi with ⟨rfl, -⟩ | hi
      · exact hc hnone
      · exact hg.free s hold hnone i c' hi
    · cases hnone
  · rcases honly s hs with h0 | h0
    all_goals
      rw [h0] at hk
      cases hk
  · rcases hclaimed hi with ⟨rfl, hmem⟩ | hi
    · exact hmem
    · refine List.mem_append_left _ ?_
      rcases mem_reserveSlots hs with ⟨hold, -⟩ | ⟨s', hold, hnone, -, rfl⟩
      · exact hg.held s hold h0 i c' hi hcov
      · have hfree : Slot.covered c' s' = false := hg.free s' hold hnone i c' hi
        exact absurd (hfree.symm.trans hcov) (by simp)
  · rcases hclaimed hi with ⟨rfl, hmem⟩ | hi
    · exact ⟨true, hmem⟩
    · rcases hg.known i c' hi with ⟨b, hb⟩
      exact ⟨b, List.mem_append_left _ hb⟩

lemma heldLoop_guarded (fuel h : ℕ) {r r' : Reserved σ} (hrun : heldLoop registry drv fuel h r = some r')
    (hg : Guarded r.slots r.claimed r.proposed) (hheld : HeldOnly r.slots) :
    Guarded r'.slots r'.claimed r'.proposed ∧ r'.slots.map Slot.pair = r.slots.map Slot.pair := by
  induction fuel generalizing h r with
  | zero => cases hrun
  | succ fuel ih =>
    rw [heldLoop] at hrun
    split_ifs at hrun with hend
    · obtain rfl := Option.some.inj hrun
      exact ⟨hg, rfl⟩
    · dsimp only at hrun
      split at hrun
      · set d := r.core.heldDrv.get h
        exact ih h (r := { r with core := dropHeld registry d (askRevalidate registry d r.core h) h }) hrun hg hheld
      · rcases keepHeld_guarded hg hheld _ _ _ _ with ⟨hg', hheld'⟩
        rcases ih (h + 1) hrun hg' hheld' with ⟨hg'', hpairs⟩
        exact ⟨hg'', hpairs.trans (pair_reserveSlots _ 0 r.slots)⟩

lemma Guarded.propose {slots : List Slot} {claimed : ℕ → Option LinClaim} {proposed : List Proposal}
    (hg : Guarded slots claimed proposed) (x : Proposal) : Guarded slots claimed (proposed ++ [x]) where
  free := hg.free
  own := hg.own
  held s hs h0 i c hi hcov := List.mem_append_left _ (hg.held s hs h0 i c hi hcov)
  known i c hi := by
    rcases hg.known i c hi with ⟨b, hb⟩
    exact ⟨b, List.mem_append_left _ hb⟩

/-- A new claim that passes the clash test covers no pair that is owned. -/
lemma Guarded.take {slots : List Slot} {claimed : ℕ → Option LinClaim} {proposed : List Proposal}
    (hg : Guarded slots claimed proposed) {c : LinClaim} (hclash : clash c slots = false) (i : ℕ) :
    Guarded (reserveSlots c (i + 1) slots) (Function.update claimed i (some c)) (proposed ++ [⟨i, false, c⟩]) := by
  have hapart : ∀ s ∈ slots, s.owned ≠ none → s.covered c = false := by
    intro s hs hown
    have hpair := List.any_eq_false.1 hclash s hs
    rw [Bool.and_eq_true, not_and, Bool.not_eq_true] at hpair
    exact hpair (Option.isSome_iff_ne_none.2 hown)
  have hclaimed : ∀ {j : ℕ} {c' : LinClaim}, Function.update claimed i (some c) j = some c' →
      (j = i ∧ c' = c) ∨ claimed j = some c' := by
    intro j c' hj
    rcases eq_or_ne j i with rfl | hji
    · rw [Function.update_self] at hj
      exact Or.inl ⟨rfl, (Option.some.inj hj).symm⟩
    · rw [Function.update_of_ne hji] at hj
      exact Or.inr hj
  refine ⟨fun s hs hnone j c' hj => ?_, fun s hs k hk j c' hj hcov => ?_, fun s hs h0 j c' hj hcov => ?_, fun j c' hj => ?_⟩
  · rcases mem_reserveSlots hs with ⟨hold, hc⟩ | ⟨s', -, -, -, rfl⟩
    · rcases hclaimed hj with ⟨-, rfl⟩ | hj
      · exact hc hnone
      · exact hg.free s hold hnone j c' hj
    · cases hnone
  · rcases mem_reserveSlots hs with ⟨hold, -⟩ | ⟨s', hold, hnone, -, rfl⟩
    · rcases hclaimed hj with ⟨-, rfl⟩ | hj
      · rw [hapart s hold (by simp [hk])] at hcov
        cases hcov
      · exact hg.own s hold k hk j c' hj hcov
    · rcases hclaimed hj with ⟨rfl, -⟩ | hj
      · exact Nat.succ_injective (Option.some.inj hk)
      · have hfree : Slot.covered c' s' = false := hg.free s' hold hnone j c' hj
        exact absurd (hfree.symm.trans hcov) (by simp)
  · refine List.mem_append_left _ ?_
    rcases mem_reserveSlots hs with ⟨hold, -⟩ | ⟨s', -, -, -, rfl⟩
    · rcases hclaimed hj with ⟨-, rfl⟩ | hj
      · rw [hapart s hold (by simp [h0])] at hcov
        cases hcov
      · exact hg.held s hold h0 j c' hj hcov
    · exact absurd (Option.some.inj h0) (Nat.succ_ne_zero i)
  · rcases hclaimed hj with ⟨rfl, rfl⟩ | hj
    · exact ⟨false, List.mem_append_right _ (List.mem_singleton_self _)⟩
    · rcases hg.known j c' hj with ⟨b, hb⟩
      exact ⟨b, List.mem_append_left _ hb⟩

lemma matchStep_guarded (registry : ℕ → Driver σ) (view : List (Port × Port)) {r : Reserved σ} (hg : Guarded r.slots r.claimed r.proposed)
    (x : ℕ × ℕ) :
    let r' := matchStep registry view r x
    Guarded r'.slots r'.claimed r'.proposed ∧ r'.slots.map Slot.pair = r.slots.map Slot.pair := by
  unfold matchStep
  split
  · exact ⟨hg, rfl⟩
  · split
    · exact ⟨hg, rfl⟩
    · split
      · exact ⟨hg, rfl⟩
      · dsimp only
        split_ifs with hclash
        · exact ⟨hg.propose _, rfl⟩
        · exact ⟨hg.take (by simpa using hclash) x.2, pair_reserveSlots _ _ _⟩

lemma matchAll_guarded (registry : ℕ → Driver σ) (view : List (Port × Port)) (xs : List (ℕ × ℕ)) {r : Reserved σ}
    (hg : Guarded r.slots r.claimed r.proposed) :
    let r' := xs.foldl (matchStep registry view) r
    Guarded r'.slots r'.claimed r'.proposed ∧ r'.slots.map Slot.pair = r.slots.map Slot.pair := by
  induction xs generalizing r with
  | nil => exact ⟨hg, rfl⟩
  | cons x xs ih =>
    rcases matchStep_guarded registry view hg x with ⟨hg', hpairs⟩
    rcases ih hg' with ⟨hg'', hpairs'⟩
    exact ⟨hg'', hpairs'.trans hpairs⟩

/-- What the legacy phase has given away: pairs that no claim owns. -/
structure Assigned (pairs : List (Port × Port)) (w : Wave σ) : Prop where
  guarded : Guarded w.slots w.claimed w.proposed
  pairs : w.slots.map Slot.pair = pairs
  free : ∀ p q, (p, q) ∈ w.base ∨ (∃ j, (p, q) ∈ w.slices j) → ∃ s ∈ w.slots, s.owned = none ∧ s.pair = (p, q)

lemma legacyStep_assigned (registry : ℕ → Driver σ) (drv : List ℕ) (foldShape : Core σ → Port → Port → Bool) (stamp : ℕ) {pairs : List (Port × Port)} {w : Wave σ}
    (h : Assigned pairs w) {s : Slot} (hs : s ∈ w.slots) :
    Assigned pairs (legacyStep registry drv foldShape stamp w s) ∧
      (legacyStep registry drv foldShape stamp w s).slots = w.slots := by
  unfold legacyStep
  split_ifs with hskip
  · exact ⟨h, rfl⟩
  · have hfree : s.owned = none := by
      rw [not_or, Option.not_isSome_iff_eq_none] at hskip
      exact hskip.1
    dsimp only
    split
    · rename_i di _
      refine ⟨⟨h.guarded, h.pairs, fun p q hpq => ?_⟩, rfl⟩
      dsimp only at hpq
      rcases hpq with hbase | ⟨j, hj⟩
      · exact h.free p q (Or.inl hbase)
      · rcases eq_or_ne j di with rfl | hne
        · rw [Function.update_self, List.mem_append, List.mem_singleton] at hj
          rcases hj with hj | hj
          · exact h.free p q (Or.inr ⟨j, hj⟩)
          · exact ⟨s, hs, hfree, hj.symm⟩
        · rw [Function.update_of_ne hne] at hj
          exact h.free p q (Or.inr ⟨j, hj⟩)
    · refine ⟨⟨h.guarded, h.pairs, fun p q hpq => ?_⟩, rfl⟩
      rcases hpq with hbase | hslice
      · rw [List.mem_append, List.mem_singleton] at hbase
        rcases hbase with hbase | hbase
        · exact h.free p q (Or.inl hbase)
        · exact ⟨s, hs, hfree, hbase.symm⟩
      · exact h.free p q (Or.inr hslice)

lemma legacyAll_assigned (foldShape : Core σ → Port → Port → Bool) (stamp : ℕ) (todo : List Slot)
    {pairs : List (Port × Port)} {w : Wave σ} (h : Assigned pairs w) (hsub : ∀ s ∈ todo, s ∈ w.slots) :
    Assigned pairs (todo.foldl (legacyStep registry drv foldShape stamp) w) := by
  induction todo generalizing w with
  | nil => exact h
  | cons s todo ih =>
    rw [List.forall_mem_cons] at hsub
    rcases legacyStep_assigned registry drv foldShape stamp h hsub.1 with ⟨h', hslots⟩
    exact ih h' fun s' hs' => hslots ▸ hsub.2 s' hs'

lemma waveBody_assigned {g : Globals} {foldShape : Core σ → Port → Port → Bool} {fuel : ℕ} {core : Core σ} {w : Wave σ}
    (h : waveBody registry drv g foldShape fuel core = some w) : Assigned (netMarkDemand g core.net).2 w := by
  simp only [waveBody] at h
  split at h
  · cases h
  · rename_i r hheld
    have hstart : HeldOnly ((netMarkDemand g core.net).2.map fun pr => ⟨pr.1, pr.2, none⟩) := by
      intro s hs
      rcases List.mem_map.1 hs with ⟨pr, -, rfl⟩
      exact Or.inl rfl
    have hfirst : ((netMarkDemand g core.net).2.map fun pr => (⟨pr.1, pr.2, none⟩ : Slot)).map Slot.pair =
        (netMarkDemand g core.net).2 := by
      rw [List.map_map]
      exact List.map_id _
    have hnone : ∀ slots, Guarded slots (fun _ => none) [] := fun slots =>
      ⟨by simp, by simp, by simp, by simp⟩
    rcases heldLoop_guarded fuel 0 hheld (hnone _) hstart with ⟨hg, hpairs⟩
    split_ifs at h
    · obtain rfl := Option.some.inj h
      exact ⟨hg, hpairs.trans hfirst, by simp⟩
    · obtain rfl := Option.some.inj h
      rcases matchAll_guarded registry ((r.slots.filter fun s => s.owned.isNone).map Slot.pair) drv.zipIdx hg
        with ⟨hg', hpairs'⟩
      exact legacyAll_assigned foldShape _ _ ⟨hg', hpairs'.trans (hpairs.trans hfirst), by simp⟩ fun s hs => hs

/-- A pair covered by two claims that are acted on was reserved by held claims. -/
lemma Assigned.both_held {pairs : List (Port × Port)} {w : Wave σ} (h : Assigned pairs w) {i j : ℕ} {c c' : LinClaim}
    (hij : i ≠ j) (hi : w.claimed i = some c) (hj : w.claimed j = some c') {pr : Port × Port} (hpr : pr ∈ pairs)
    (hc : claimCovers c pr.1 pr.2 = true) (hc' : claimCovers c' pr.1 pr.2 = true) :
    ⟨i, true, c⟩ ∈ w.proposed ∧ ⟨j, true, c'⟩ ∈ w.proposed := by
  rw [← h.pairs, List.mem_map] at hpr
  rcases hpr with ⟨s, hs, rfl⟩
  rcases hown : s.owned with _ | _ | k
  · have hfree := h.guarded.free s hs hown i c hi
    exact absurd (hfree.symm.trans hc) (by simp)
  · exact ⟨h.guarded.held s hs hown i c hi hc, h.guarded.held s hs hown j c' hj hc'⟩
  · have hik := h.guarded.own s hs k hown i c hi hc
    have hjk := h.guarded.own s hs k hown j c' hj hc'
    exact absurd (hik.trans hjk.symm) hij

lemma Assigned.exclusive {pairs : List (Port × Port)} {w : Wave σ} (h : Assigned pairs w)
    (hcomp : Compatible w.core.net pairs {x | x ∈ w.proposed ∧ w.claimed x.pos = some x.claim}) : w.Exclusive where
  apart i j c c' hij hi hj p q hl hc := by
    by_contra hc'
    rw [Bool.not_eq_false] at hc'
    rcases h.guarded.known i c hi with ⟨b, hb⟩
    rcases h.guarded.known j c' hj with ⟨b', hb'⟩
    rcases (hcomp _ ⟨hb, hi⟩ _ ⟨hb', hj⟩ hij p q hl hc hc').1 with ⟨pr, hpr, hcov, hcov'⟩
    rcases h.both_held hij hi hj hpr hcov hcov' with ⟨hheld, hheld'⟩
    rcases (hcomp _ ⟨hheld, hi⟩ _ ⟨hheld', hj⟩ hij p q hl hc hc').2 with hnew | hnew
    · cases hnew
    · cases hnew
  once i c hi p q hpq := by
    rcases h.free p q hpq with ⟨s, hs, hnone, hpair⟩
    obtain ⟨rfl, rfl⟩ := Prod.mk.inj hpair
    exact h.guarded.free s hs hnone i c hi

end Guards

section Main

variable {σ : Type} {registry : ℕ → Driver σ} {drv : List ℕ} {g : Globals} {foldShape : Core σ → Port → Port → Bool}
  {fuel : ℕ} {core : Core σ} {w : Wave σ}

/-- In every wave, whatever the hooks do: if the claims the drivers hold or propose are compatible, those
acted on are exclusive. -/
theorem waveBody_exclusive (h : waveBody registry drv g foldShape fuel core = some w)
    (hcomp : Compatible w.core.net (netMarkDemand g core.net).2 {x | x ∈ w.proposed}) : w.Exclusive :=
  (waveBody_assigned h).exclusive fun x hx y hy => hcomp x hx.1 y hy.1

end Main

/-! ## Two claims on one redex -/

/-- A driver that always proposes `c`. -/
def proposes (c : LinClaim) : Driver Unit where
  revalidate := none
  releaseClaim := none
  matchClaim := some fun core _ => (some c, core)
  claim := none
  fold := false

/-- The whole program but for ROOT. -/
def wholeClaim : LinClaim := { leftClaim with exits := [⟨1, 1⟩] }

/-- The redex on the right, which is queued but not demanded. -/
def rightClaim : LinClaim := { leftClaim with region := false, pairs := [(⟨5, 0⟩, ⟨6, 0⟩)], exits := [] }

def twoDrivers (i : ℕ) : Driver Unit := if i = 0 then proposes wholeClaim else proposes rightClaim

def firstCore : Core Unit := ⟨fourNet, .empty, .empty, 0, ()⟩

/-- The first wave of `fourNet` under the two drivers. -/
def firstWave : Option (Wave Unit) := waveBody twoDrivers [0, 1] .serial (fun _ _ _ => true) 1 firstCore

lemma firstWave_run : firstWave.map (fun w => (w.claimed 0, w.claimed 1, redexLive w.core.net ⟨5, 0⟩ ⟨6, 0⟩)) =
    some (some { wholeClaim with nodes := [2, 3, 1, 4, 5, 6, 7] }, some { rightClaim with nodes := [5, 6] }, true) := by
  decide +kernel

/-- Both claims are acted on, and both cover the live redex on the right. -/
lemma firstWave_claims : ∃ w, firstWave = some w ∧ w.claimed 0 = some { wholeClaim with nodes := [2, 3, 1, 4, 5, 6, 7] } ∧
    w.claimed 1 = some { rightClaim with nodes := [5, 6] } ∧ redexLive w.core.net ⟨5, 0⟩ ⟨6, 0⟩ = true := by
  rcases Option.map_eq_some_iff.1 firstWave_run with ⟨w, hw, hres⟩
  rw [Prod.mk.injEq, Prod.mk.injEq] at hres
  exact ⟨w, hw, hres⟩

lemma firstWave_overlap {w : Wave Unit} (h : firstWave = some w) : ¬ w.Exclusive := by
  rcases firstWave_claims with ⟨w', hw', hwhole, hright, hlive⟩
  obtain rfl := Option.some.inj (hw'.symm.trans h)
  intro he
  have hnot := he.apart 0 1 _ _ (by decide) hwhole hright ⟨5, 0⟩ ⟨6, 0⟩ hlive (by decide)
  exact absurd hnot (by decide)

end LinEngine
