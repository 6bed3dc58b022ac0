import LinEngine.Pattern

/-!
# The structural matcher

The drivers' header in full: every form of a pattern, the record of a match and the
interpreter. A form that fails keeps what it did to the record, which a negation then rolls
back in part. A pattern is a finite tree, so none is met again inside itself and the test for
that is left out; an index below zero fails as one past the end does.
-/
namespace LinEngine.Matching

/-- The `P_` vocabulary. A predicate has its context in it. -/
inductive LinPat
  | pAny
  | pTag (t : Tag)
  | pAt (k : ℕ) (a : LinPat)
  | pPort (k : ℕ) (a : LinPat)
  | pSpine (min : ℕ) (max : Option ℕ) (a : LinPat)
  | pSpineHead (a b : LinPat)
  | pBind (i : ℕ)
  | pRef (i : ℕ)
  | pNot (a : LinPat)
  | pFan (a : LinPat)
  | pCycle (i : ℕ) (a : LinPat)
  | pCycleRef (i : ℕ)
  | pPred (f : Net → Port → Bool)
  | pAll (a b : LinPat)

/-- `LIN_PAT_SLOTS`, `LIN_PAT_BINDS`, `LIN_PAT_CYCLES` and `LIN_PAT_NODES`. -/
def patSlots : ℕ := 8
def patBinds : ℕ := 8
def patCycles : ℕ := 4
def patNodes : ℕ := 64

/-- `nodes` has the first `nnodes` of the covered nodes. -/
structure LinMatch where
  budget : ℕ
  used : ℕ
  nslots : ℕ
  slots : Table (Option Port) none
  nbind : ℕ
  bindSet : ℕ
  bind : Table Port ⟨0, 0⟩
  ncyc : ℕ
  cycSet : ℕ
  cyc : Table Port ⟨0, 0⟩
  nodes : List ℕ
  overflow : Bool
  deriving DecidableEq, Repr

def LinMatch.start (budget : ℕ) : LinMatch := ⟨budget, 0, 0, .empty, 0, 0, .empty, 0, 0, .empty, [], false⟩

namespace LinMatch

def spend (m : LinMatch) : LinMatch := { m with budget := m.budget - 1, used := m.used + 1 }

/-- `lin_pat_cover` of a live node. -/
def coverNode (m : LinMatch) (v : ℕ) : LinMatch :=
  if v ∈ m.nodes then m
  else if patNodes ≤ m.nodes.length then { m with overflow := true }
  else { m with nodes := m.nodes ++ [v] }

/-- `lin_pat_cover`: the node at a port, if it is live. -/
def cover (n : Net) (m : LinMatch) (p : Option Port) : LinMatch :=
  match p.filter fun q => n.live q.node with
  | none => m
  | some q => m.coverNode q.node

def bound (m : LinMatch) (i : ℕ) : Bool := decide (i < patBinds) && m.bindSet.testBit i

/-- A slot is bound once. -/
def bindSlot (m : LinMatch) (i : ℕ) (p : Port) : Option LinMatch :=
  if patBinds ≤ i ∨ m.bindSet.testBit i then none
  else some { m with bind := m.bind.set i p, bindSet := m.bindSet ||| 2 ^ i, nbind := max m.nbind (i + 1) }

/-- The first visit of a fixpoint. -/
def openCycle (m : LinMatch) (i : ℕ) (p : Port) : LinMatch :=
  { m with cyc := m.cyc.set i p, cycSet := m.cycSet ||| 2 ^ i, ncyc := max m.ncyc (i + 1) }

def addSlot (m : LinMatch) (p : Option Port) : LinMatch :=
  { m with slots := if m.nslots < patSlots then m.slots.set m.nslots p else m.slots, nslots := m.nslots + 1 }

/-- What a negation restores: the masks, the count of slots and the count of covered nodes. -/
def restore (m m' : LinMatch) : LinMatch :=
  { m' with bindSet := m.bindSet, cycSet := m.cycSet, nslots := m.nslots, nodes := m'.nodes.take m.nodes.length }

end LinMatch

/-- The number of a port; `NONE` has the number 0. -/
def portNo (p : Option Port) : ℕ := (p.map (·.port.val)).getD 0

def isLive (n : Net) (p : Option Port) : Bool := p.any fun q => n.live q.node

/-- The four nodes of a cell: its two binders, the body and the application of the first binder. -/
def cellNodes (n : Net) (p : Option Port) : Option (Port × Port × Port × Port) := do
  let cur ← tagAt false .lam n p
  let c2 ← (tagAt false .lam n (n.wireAt ⟨cur.node, 2⟩)).filter (·.port == 0)
  let body ← tagAt false .app n (n.wireAt ⟨c2.node, 2⟩)
  let ia ← tagAt false .app n (n.wireAt ⟨body.node, 0⟩)
  some (cur, c2, body, ia)

/-- A cell: the ports of its head and its tail. -/
def linPatCell (n : Net) (m : LinMatch) (p : Option Port) : Option (Option Port × Option Port) × LinMatch :=
  if m.budget = 0 then (none, m)
  else
    let m := m.spend
    match cellNodes n p with
    | none => (none, m)
    | some (cur, c2, body, ia) =>
      (some (n.wireAt ⟨ia.node, 2⟩, n.wireAt ⟨body.node, 2⟩),
        (((m.cover n (some cur)).cover n (some c2)).cover n (some body)).cover n (some ia))

/-- The loop of `lin_pat_spine`; `sub` matches one slot. It returns how many there are. -/
def spineLoop (n : Net) (sub : Option Port → LinMatch → Bool × LinMatch) :
    ℕ → ℕ → Option Port → LinMatch → Option ℕ × LinMatch
  | 0, k, _, m => (some k, m)
  | f + 1, k, next, m =>
    if m.budget = 0 then (none, m)
    else
      match linPatCell n m next with
      | (none, m) => (some k, m)
      | (some (slot, next), m) =>
        match sub slot m with
        | (false, m) => (none, m)
        | (true, m) => spineLoop n sub f (k + 1) next (m.addSlot slot)

/-- `lin_pat_at` around `lin_pat_at_in`, under `nin` patterns that are in progress. -/
def enter (run : ℕ → Option Port → LinMatch → Bool × LinMatch) (nin : ℕ) (p : Option Port) (m : LinMatch) :
    Bool × LinMatch :=
  if m.budget = 0 then (false, m)
  else if linPatDepth ≤ nin then (false, m.spend)
  else run (nin + 1) p m.spend

/-- `lin_pat_at_in`, as one of `nin` patterns in progress. -/
def linPatAtIn (n : Net) : LinPat → ℕ → Option Port → LinMatch → Bool × LinMatch
  | .pAny, _, p, m => if isLive n p then (true, m.cover n p) else (false, m)
  | .pTag t, _, p, m => if p.any fun q => n.live q.node && n.tag.get q.node == t then (true, m.cover n p) else (false, m)
  | .pPred f, _, p, m => if p.any fun q => n.live q.node && f n q then (true, m.cover n p) else (false, m)
  | .pAt k a, nin, p, m => if portNo p = k then enter (linPatAtIn n a) nin p m else (false, m)
  | .pPort k a, nin, p, m =>
    match p.filter fun q => n.live q.node with
    | none => (false, m)
    | some q => if h : k < 3 then enter (linPatAtIn n a) nin (n.wireAt ⟨q.node, ⟨k, h⟩⟩) (m.cover n p) else (false, m)
  | .pFan a, nin, p, m => enter (linPatAtIn n a) nin (skipDup n n.nn p) m
  | .pAll a b, nin, p, m =>
    match enter (linPatAtIn n a) nin p m with
    | (false, m) => (false, m)
    | (true, m) => enter (linPatAtIn n b) nin p m
  | .pBind i, _, p, m =>
    match p.filter fun q => n.live q.node with
    | none => (false, m)
    | some q =>
      match m.bindSlot i q with
      | none => (false, m)
      | some m => (true, m.cover n p)
  | .pRef i, _, p, m =>
    if p.any fun q => n.live q.node && m.bound i && (m.bind.get i).node == q.node then (true, m.cover n p) else (false, m)
  | .pNot a, nin, p, m =>
    let r := enter (linPatAtIn n a) nin p m
    (!r.1, m.restore r.2)
  | .pCycle i a, nin, p, m =>
    match p.filter fun q => n.live q.node with
    | none => (false, m)
    | some q =>
      if patCycles ≤ i then (false, m)
      else if m.cycSet.testBit i then if (m.cyc.get i).node = q.node then (true, m.cover n p) else (false, m)
      else enter (linPatAtIn n a) nin p ((m.openCycle i q).cover n p)
  | .pCycleRef i, _, p, m =>
    if p.any fun q => decide (i < patCycles) && n.live q.node && m.cycSet.testBit i && (m.cyc.get i).node == q.node then
      (true, m.cover n p)
    else (false, m)
  | .pSpine min max a, nin, p, m =>
    let cur := skipDup n n.nn p
    if (consAt n cur).isSome || nilAt n cur then
      match spineLoop n (enter (linPatAtIn n a) nin) n.nn 0 p (m.cover n cur) with
      | (none, m) => (false, m)
      | (some k, m) => (decide (min ≤ k) && max.all fun x => decide (k ≤ x), m)
    else (false, m)
  | .pSpineHead a b, nin, p, m =>
    match linPatCell n m p with
    | (none, m) => (false, m)
    | (some (slot, next), m) =>
      match enter (linPatAtIn n a) nin slot m with
      | (false, m) => (false, m)
      | (true, m) => enter (linPatAtIn n b) nin next (m.addSlot slot)

def linPatAt (n : Net) (pat : LinPat) (nin : ℕ) (p : Option Port) (m : LinMatch) : Bool × LinMatch :=
  enter (linPatAtIn n pat) nin p m

/-- `lin_pat_match`: the record of a match that succeeds. -/
def linPatMatch (n : Net) (root : Option Port) (pat : LinPat) (budget : ℤ) : Option LinMatch :=
  if 0 < budget then
    match linPatAt n pat 0 root (.start budget.toNat) with
    | (true, m) => some m
    | (false, _) => none
  else none

/-! ## What every form keeps -/

/-- A relation from a record to a later one that each operation on the record keeps. -/
structure Tracks (n : Net) (R : LinMatch → LinMatch → Prop) : Prop where
  refl : ∀ m, R m m
  trans : ∀ {a b c}, R a b → R b c → R a c
  spend : ∀ m, R m m.spend
  cover : ∀ m v, n.live v = true → R m (m.coverNode v)
  bind : ∀ {m m' i q}, m.bindSlot i q = some m' → R m m'
  cycle : ∀ {m i q}, m.cycSet.testBit i = false → R m (m.openCycle i q)
  slot : ∀ m p, R m (m.addSlot p)
  undo : ∀ {m m'}, R m m' → R m (m.restore m')

namespace Tracks

variable {n : Net} {R : LinMatch → LinMatch → Prop}

lemma coverPort (hR : Tracks n R) (m : LinMatch) (p : Option Port) : R m (m.cover n p) := by
  unfold LinMatch.cover
  cases hp : p.filter fun q => n.live q.node with
  | none => exact hR.refl m
  | some q => exact hR.cover m q.node (Option.filter_eq_some_iff.mp hp).2

lemma cell (hR : Tracks n R) (m : LinMatch) (p : Option Port) : R m (linPatCell n m p).2 := by
  unfold linPatCell
  split_ifs
  · exact hR.refl m
  · dsimp only
    cases cellNodes n p with
    | none => exact hR.spend m
    | some c =>
      obtain ⟨cur, c2, body, ia⟩ := c
      have hcur := hR.trans (hR.spend m) (hR.coverPort _ (some cur))
      have hc2 := hR.trans hcur (hR.coverPort _ (some c2))
      have hbody := hR.trans hc2 (hR.coverPort _ (some body))
      exact hR.trans hbody (hR.coverPort _ (some ia))

lemma spine (hR : Tracks n R) {sub : Option Port → LinMatch → Bool × LinMatch} (hsub : ∀ p m, R m (sub p m).2)
    (f k : ℕ) (next : Option Port) (m : LinMatch) : R m (spineLoop n sub f k next m).2 := by
  induction f generalizing k next m with
  | zero => exact hR.refl m
  | succ f ih =>
    unfold spineLoop
    split_ifs
    · exact hR.refl m
    · have hcell := hR.cell m next
      rcases hc : linPatCell n m next with ⟨_ | ⟨slot, next'⟩, m'⟩
      · rw [hc] at hcell
        exact hcell
      · rw [hc] at hcell
        have hs := hR.trans hcell (hsub slot m')
        dsimp only
        rcases hr : sub slot m' with ⟨_ | _, m''⟩
        · rw [hr] at hs
          exact hs
        · rw [hr] at hs
          exact hR.trans (hR.trans hs (hR.slot m'' slot)) (ih (k + 1) next' _)

lemma enter (hR : Tracks n R) {run : ℕ → Option Port → LinMatch → Bool × LinMatch}
    (hrun : ∀ nin p m, R m (run nin p m).2) (nin : ℕ) (p : Option Port) (m : LinMatch) : R m (enter run nin p m).2 := by
  unfold Matching.enter
  split_ifs
  · exact hR.refl m
  · exact hR.spend m
  · exact hR.trans (hR.spend m) (hrun _ _ _)

lemma linPatAtIn (hR : Tracks n R) (pat : LinPat) (nin : ℕ) (p : Option Port) (m : LinMatch) :
    R m (linPatAtIn n pat nin p m).2 := by
  induction pat generalizing nin p m with
  | pAny | pTag t | pPred f | pRef i | pCycleRef i =>
    unfold Matching.linPatAtIn
    split_ifs
    · exact hR.coverPort m p
    · exact hR.refl m
  | pAt k a ih =>
    unfold Matching.linPatAtIn
    split_ifs
    · exact hR.enter ih nin p m
    · exact hR.refl m
  | pPort k a ih =>
    unfold Matching.linPatAtIn
    cases p.filter fun q => n.live q.node with
    | none => exact hR.refl m
    | some q =>
      dsimp only
      split_ifs
      · exact hR.trans (hR.coverPort m p) (hR.enter ih nin _ _)
      · exact hR.refl m
  | pFan a ih => exact hR.enter ih nin _ m
  | pAll a b iha ihb =>
    have ha := hR.enter iha nin p m
    unfold Matching.linPatAtIn
    rcases hr : Matching.enter (Matching.linPatAtIn n a) nin p m with ⟨_ | _, m'⟩
    · rw [hr] at ha
      exact ha
    · rw [hr] at ha
      exact hR.trans ha (hR.enter ihb nin p m')
  | pBind i =>
    unfold Matching.linPatAtIn
    cases p.filter fun q => n.live q.node with
    | none => exact hR.refl m
    | some q =>
      dsimp only
      cases hb : m.bindSlot i q with
      | none => exact hR.refl m
      | some m' => exact hR.trans (hR.bind hb) (hR.coverPort m' p)
  | pNot a ih => exact hR.undo (hR.enter ih nin p m)
  | pCycle i a ih =>
    unfold Matching.linPatAtIn
    cases p.filter fun q => n.live q.node with
    | none => exact hR.refl m
    | some q =>
      dsimp only
      split_ifs with _ hset _
      · exact hR.refl m
      · exact hR.coverPort m p
      · exact hR.refl m
      · have hopen := hR.trans (hR.cycle (q := q) (Bool.eq_false_iff.mpr hset)) (hR.coverPort (m.openCycle i q) p)
        exact hR.trans hopen (hR.enter ih nin p _)
  | pSpine min max a ih =>
    unfold Matching.linPatAtIn
    dsimp only
    split_ifs
    · have hs := hR.trans (hR.coverPort m (skipDup n n.nn p)) (hR.spine (fun q => hR.enter ih nin q) n.nn 0 p _)
      rcases hr : spineLoop n (Matching.enter (Matching.linPatAtIn n a) nin) n.nn 0 p (m.cover n (skipDup n n.nn p)) with
        ⟨_ | k, m'⟩
      · rw [hr] at hs
        exact hs
      · rw [hr] at hs
        exact hs
    · exact hR.refl m
  | pSpineHead a b iha ihb =>
    have hc := hR.cell m p
    unfold Matching.linPatAtIn
    rcases hr : linPatCell n m p with ⟨_ | ⟨slot, next⟩, m'⟩
    · rw [hr] at hc
      exact hc
    · rw [hr] at hc
      dsimp only
      have ha := hR.trans hc (hR.enter iha nin slot m')
      rcases hr' : Matching.enter (Matching.linPatAtIn n a) nin slot m' with ⟨_ | _, m''⟩
      · rw [hr'] at ha
        exact ha
      · rw [hr'] at ha
        exact hR.trans (hR.trans ha (hR.slot m'' slot)) (hR.enter ihb nin next _)

end Tracks

end LinEngine.Matching
