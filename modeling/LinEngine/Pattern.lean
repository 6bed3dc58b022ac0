import LinEngine.Readers

/-!
# The encodings as patterns

The pattern language of the drivers' header, as far as the encodings use it, and the
readers built on it. They never force: a layer that is still an application is declined.
The matcher is bounded by a budget and a depth, and neither stops the patterns of the
encodings. Coverage and spines are left out.
-/
namespace LinEngine

/-- The pattern forms of the encodings: `P_TAG`, `P_AT`, `P_PORT`, `P_BIND`, `P_REF`,
`P_FAN` and `P_ALL`. -/
inductive LinPat
  | pTag (t : Tag)
  | pAt (k : Fin 3) (a : LinPat)
  | pPort (k : Fin 3) (a : LinPat)
  | pBind (i : ℕ)
  | pRef (i : ℕ)
  | pFan (a : LinPat)
  | pAll (a b : LinPat)

/-- What is left of the budget, and the ports bound so far. -/
structure LinMatch where
  budget : ℕ
  bind : ℕ → Option Port

/-- `LIN_PAT_DEPTH`. -/
def linPatDepth : ℕ := 48

namespace LinPat

def pAll3 (a b c : LinPat) : LinPat := pAll a (pAll b c)

/-- `lin_pat_at` under `nin` patterns that are in progress. No pattern here is met again
inside itself, so the test for that is left out. -/
def linPatAt (n : Net) : LinPat → ℕ → Option Port → LinMatch → Option LinMatch
  | pat, nin, p, m =>
    if m.budget = 0 ∨ linPatDepth ≤ nin then none
    else
      let m := { m with budget := m.budget - 1 }
      match pat with
      | pTag t => if p.any fun p => n.live p.node && n.tag.get p.node == t then some m else none
      | pAt k a => if p.any (·.port == k) then linPatAt n a (nin + 1) p m else none
      | pPort k a => (p.filter fun p => n.live p.node).bind fun p => linPatAt n a (nin + 1) (n.wireAt ⟨p.node, k⟩) m
      | pBind i => (p.filter fun p => n.live p.node).bind fun p =>
        if m.bind i = none then some { m with bind := Function.update m.bind i (some p) } else none
      | pRef i => (p.filter fun p => n.live p.node).bind fun p =>
        if (m.bind i).any (·.node == p.node) then some m else none
      | pFan a => linPatAt n a (nin + 1) (skipDup n n.nn p) m
      | pAll a b => (linPatAt n a (nin + 1) p m).bind fun m => linPatAt n b (nin + 1) p m

/-- `lin_pat_match` with the budget `LIN_PAT_BUDGET_FOR`. -/
def linPatMatch (n : Net) (root : Option Port) (pat : LinPat) : Option LinMatch :=
  linPatAt n pat 0 root ⟨256 + 16 * n.nn, fun _ => none⟩

/-! ## The patterns of the encodings -/

/-- `\b0.\b1.b0` -/
def linPatEncFirst : LinPat :=
  pFan (pAll3 (pBind 0) (pTag .lam)
    (pPort 2 (pFan (pAll3 (pBind 1) (pTag .lam) (pPort 2 (pFan (pAt 1 (pRef 0))))))))

/-- `\b0.\b1.b1` -/
def linPatEncSecond : LinPat :=
  pFan (pAll3 (pBind 0) (pTag .lam)
    (pPort 2 (pFan (pAll3 (pBind 1) (pTag .lam) (pPort 2 (pFan (pAt 1 (pRef 1))))))))

/-- `\b0.\b1.(b1 tail)` -/
def linPatEncSucc : LinPat :=
  pFan (pAll3 (pBind 0) (pTag .lam)
    (pPort 2 (pFan (pAll3 (pBind 1) (pTag .lam)
      (pPort 2 (pFan (pAll (pBind 2) (pAll (pTag .app)
        (pAll (pPort 0 (pFan (pAt 1 (pRef 1)))) (pPort 2 (pBind 3)))))))))))

def linPatEncCellIa : LinPat := pFan (pAll3 (pBind 3) (pTag .app) (pPort 2 (pBind 4)))

def linPatEncCellBody : LinPat :=
  pFan (pAll (pBind 2) (pAll (pTag .app) (pAll (pPort 0 linPatEncCellIa) (pPort 2 (pBind 5)))))

/-- `\c.\n.((c h) t)` -/
def linPatEncCell : LinPat :=
  pFan (pAll3 (pBind 0) (pTag .lam)
    (pPort 2 (pFan (pAt 0 (pAll3 (pBind 1) (pTag .lam) (pPort 2 linPatEncCellBody))))))

/-! ## The pure readers -/

/-- `LIN_L_TERMINAL`, `LIN_L_INDUCTIVE` and `LIN_L_FALSE`. -/
inductive LinL
  | terminal
  | inductiveLayer
  | falseLayer
  deriving DecidableEq, Repr

/-- The layer of `enc` at `p`, with the bindings of the pattern that matched. -/
def linPatEncLayerOf (n : Net) (p : Option Port) (enc : Enc) : Option (LinL × LinMatch) :=
  let of (l : LinL) (pat : LinPat) := (linPatMatch n p pat).map fun m => (l, m)
  match enc with
  | .num => of .terminal linPatEncFirst <|> of .inductiveLayer linPatEncSucc
  | .bool => of .terminal linPatEncFirst <|> of .falseLayer linPatEncSecond
  | .cons | .str => of .inductiveLayer linPatEncCell <|> of .terminal linPatEncSecond
  | _ => none

/-- The loop of `lin_pat_enc_num_nf`, with `cnt` layers counted. -/
def numNfLoop (n : Net) (enc : Enc) : ℕ → ℕ → Option Port → Option ℕ
  | 0, _, _ => none
  | f + 1, cnt, p => do
    let (l, m) ← linPatEncLayerOf n p enc
    if enc = .bool then some (if l = .terminal then 1 else 0)
    else if l = .inductiveLayer then numNfLoop n enc f (cnt + 1) (m.bind (if enc = .num then 3 else 5))
    else some cnt

def linPatEncNumNf (n : Net) (p : Option Port) (enc : Enc) : Option ℕ :=
  if enc = .op ∨ enc = .ffi then none else numNfLoop n enc n.nn 0 p

/-! ## The bounds of the matcher -/

/-- The meaning of a pattern, without budget and depth. -/
def run (n : Net) : LinPat → Option Port → (ℕ → Option Port) → Option (ℕ → Option Port)
  | pTag t, p, b => if p.any fun p => n.live p.node && n.tag.get p.node == t then some b else none
  | pAt k a, p, b => if p.any (·.port == k) then run n a p b else none
  | pPort k a, p, b => (p.filter fun p => n.live p.node).bind fun p => run n a (n.wireAt ⟨p.node, k⟩) b
  | pBind i, p, b => (p.filter fun p => n.live p.node).bind fun p =>
    if b i = none then some (Function.update b i (some p)) else none
  | pRef i, p, b => (p.filter fun p => n.live p.node).bind fun p =>
    if (b i).any (·.node == p.node) then some b else none
  | pFan a, p, b => run n a (skipDup n n.nn p) b
  | pAll a c, p, b => (run n a p b).bind fun b => run n c p b

/-- The calls of one match, at most. -/
def size : LinPat → ℕ
  | pTag _ | pBind _ | pRef _ => 1
  | pAt _ a | pPort _ a | pFan a => a.size + 1
  | pAll a b => a.size + b.size + 1

def height : LinPat → ℕ
  | pTag _ | pBind _ | pRef _ => 1
  | pAt _ a | pPort _ a | pFan a => a.height + 1
  | pAll a b => max a.height b.height + 1

/-- A match within its bounds does what the pattern means. -/
def Bounded (m : LinMatch) (k : ℕ) (r : Option LinMatch) (b : Option (ℕ → Option Port)) : Prop :=
  r.map (·.bind) = b ∧ ∀ m', r = some m' → m.budget ≤ m'.budget + k

lemma Bounded.none (m : LinMatch) (k : ℕ) : Bounded m k none none := ⟨rfl, by simp⟩

lemma Bounded.some (m : LinMatch) (b : ℕ → Option Port) (k : ℕ) :
    Bounded m k (some { m with bind := b }) (some b) := by
  refine ⟨rfl, ?_⟩
  rintro m' ⟨⟩
  exact Nat.le_add_right _ _

/-- A match that spends one step of its own. -/
lemma Bounded.step {m : LinMatch} {k : ℕ} {r : Option LinMatch} {b : Option (ℕ → Option Port)} (hm : 0 < m.budget)
    (h : Bounded { m with budget := m.budget - 1 } k r b) : Bounded m (k + 1) r b := by
  refine ⟨h.1, fun m' hm' => ?_⟩
  have := h.2 m' hm'
  dsimp only at this
  omega

lemma linPatAt_bounded (n : Net) (pat : LinPat) {nin : ℕ} {p : Option Port} {m : LinMatch}
    (hsize : pat.size ≤ m.budget) (hheight : nin + pat.height ≤ linPatDepth) :
    Bounded m pat.size (linPatAt n pat nin p m) (pat.run n p m.bind) := by
  induction pat generalizing nin p m with
  | pTag t =>
    simp only [size, height] at hsize hheight
    rw [linPatAt, if_neg (by omega), run]
    dsimp only
    refine Bounded.step hsize ?_
    split_ifs
    · exact .some _ _ _
    · exact .none _ _
  | pAt k a ih =>
    simp only [size, height] at hsize hheight
    rw [linPatAt, if_neg (by omega), run]
    dsimp only
    refine Bounded.step (by omega) ?_
    split_ifs
    · exact ih (by dsimp only; omega) (by omega)
    · exact .none _ _
  | pPort k a ih =>
    simp only [size, height] at hsize hheight
    rw [linPatAt, if_neg (by omega), run]
    dsimp only
    refine Bounded.step (by omega) ?_
    cases p.filter fun p => n.live p.node with
    | none => exact .none _ _
    | some q => exact ih (by dsimp only; omega) (by omega)
  | pBind i =>
    simp only [size, height] at hsize hheight
    rw [linPatAt, if_neg (by omega), run]
    dsimp only
    refine Bounded.step hsize ?_
    cases p.filter fun p => n.live p.node with
    | none => exact .none _ _
    | some q =>
      simp only [Option.bind_some]
      split_ifs
      · exact .some _ _ _
      · exact .none _ _
  | pRef i =>
    simp only [size, height] at hsize hheight
    rw [linPatAt, if_neg (by omega), run]
    dsimp only
    refine Bounded.step hsize ?_
    cases p.filter fun p => n.live p.node with
    | none => exact .none _ _
    | some q =>
      simp only [Option.bind_some]
      split_ifs
      · exact .some _ _ _
      · exact .none _ _
  | pFan a ih =>
    simp only [size, height] at hsize hheight
    rw [linPatAt, if_neg (by omega), run]
    dsimp only
    exact Bounded.step (by omega) (ih (by dsimp only; omega) (by omega))
  | pAll a c iha ihc =>
    simp only [size, height] at hsize hheight
    rw [linPatAt, if_neg (by omega), run]
    dsimp only
    refine Bounded.step (by omega) ?_
    have ha := @iha (nin + 1) p { m with budget := m.budget - 1 } (by dsimp only; omega) (by omega)
    cases hr : linPatAt n a (nin + 1) p { m with budget := m.budget - 1 } with
    | none =>
      rw [hr] at ha
      rw [← ha.1]
      exact .none _ _
    | some m' =>
      rw [hr] at ha
      have hspent := ha.2 m' rfl
      dsimp only at hspent
      rw [← ha.1]
      have hc := @ihc (nin + 1) p m' (by omega) (by omega)
      refine ⟨hc.1, fun m'' hm'' => ?_⟩
      have := hc.2 m'' hm''
      dsimp only
      omega

lemma linPatMatch_bind (n : Net) (p : Option Port) {pat : LinPat} (hsize : pat.size ≤ 256)
    (hheight : pat.height ≤ linPatDepth) : (linPatMatch n p pat).map (·.bind) = pat.run n p fun _ => none :=
  (linPatAt_bounded n pat (p := p) (m := ⟨256 + 16 * n.nn, fun _ => none⟩) (by dsimp only; omega)
    (by omega : 0 + pat.height ≤ linPatDepth)).1

end LinPat

/-! ## The layers of a net as it stands -/

/-- The port after the fans, by the crossing walk or by the plain one. -/
def fanWalk (cross : Bool) (n : Net) (p : Option Port) : Option Port :=
  if cross then dupHop n n.nn p else skipDup n n.nn p

/-- The live node of tag `t` after the fans. -/
def tagAt (cross : Bool) (t : Tag) (n : Net) (p : Option Port) : Option Port :=
  (fanWalk cross n p).filter fun q => n.live q.node && n.tag.get q.node == t

lemma tagAt_live {cross : Bool} {t : Tag} {n : Net} {p : Option Port} {q : Port} (h : tagAt cross t n p = some q) :
    n.live q.node = true := by
  simp only [tagAt, Option.filter_eq_some_iff, Bool.and_eq_true] at h
  exact h.2.1

/-- Two binders over a use of the first or of the second: the inner one, as it is reached. -/
def selAt (cross second : Bool) (n : Net) (p : Option Port) : Option Port := do
  let a ← tagAt cross .lam n p
  let w ← tagAt cross .lam n (n.wireAt ⟨a.node, 2⟩)
  if fanWalk cross n (n.wireAt ⟨w.node, 2⟩) = some ⟨if second then w.node else a.node, 1⟩ then some w else none

/-- A successor layer: its tail. -/
def succAt (n : Net) (p : Option Port) : Option (Option Port) := do
  let a ← tagAt false .lam n p
  let w ← tagAt false .lam n (n.wireAt ⟨a.node, 2⟩)
  let body ← tagAt false .app n (n.wireAt ⟨w.node, 2⟩)
  if fanWalk false n (n.wireAt ⟨body.node, 0⟩) = some ⟨w.node, 1⟩ then some (n.wireAt ⟨body.node, 2⟩) else none

/-- The body below two binders, the inner one reached at its principal port. -/
def bodyAt (n : Net) (p : Option Port) : Option (Option Port) := do
  let a ← tagAt false .lam n p
  let c ← (tagAt false .lam n (n.wireAt ⟨a.node, 2⟩)).filter (·.port == 0)
  some (n.wireAt ⟨c.node, 2⟩)

/-- A cell: its head and its tail. -/
def consAt (n : Net) (p : Option Port) : Option (Option Port × Option Port) := do
  let body ← tagAt false .app n (← bodyAt n p)
  let ia ← tagAt false .app n (n.wireAt ⟨body.node, 0⟩)
  some (n.wireAt ⟨ia.node, 2⟩, n.wireAt ⟨body.node, 2⟩)

def nilAt (n : Net) (p : Option Port) : Bool := (bodyAt n p).any fun body => (tagAt false .lam n body).isSome

/-- Both wires of a cell lead somewhere. -/
def wiredCell (n : Net) (c : Option Port × Option Port) : Bool :=
  c.1.any (fun p => n.live p.node) && c.2.any fun p => n.live p.node

namespace LinPat

variable {n : Net} {b : ℕ → Option Port}

lemma run_node {i : ℕ} (hb : b i = none) (t : Tag) (c : LinPat) (p : Option Port) :
    (pFan (pAll (pBind i) (pAll (pTag t) c))).run n p b =
      (tagAt false t n p).bind fun a => c.run n (some a) (Function.update b i (some a)) := by
  simp only [run, tagAt, fanWalk, Bool.false_eq_true, if_false]
  cases skipDup n n.nn p with
  | none => rfl
  | some q =>
    by_cases hlive : n.live q.node = true <;> by_cases htag : n.tag.get q.node = t <;>
      simp [Option.filter, hlive, htag, hb]

lemma run_at_node {i : ℕ} (hb : b i = none) (k : Fin 3) (t : Tag) (c : LinPat) (p : Option Port) :
    (pFan (pAt k (pAll (pBind i) (pAll (pTag t) c)))).run n p b =
      ((tagAt false t n p).filter (·.port == k)).bind fun a => c.run n (some a) (Function.update b i (some a)) := by
  have hnode := run_node (n := n) hb t c p
  rw [run] at hnode ⊢
  rw [run]
  cases hq : skipDup n n.nn p with
  | none => simp [tagAt, fanWalk, hq]
  | some q =>
    rw [hq] at hnode
    by_cases hk : q.port = k
    · rw [if_pos (by simp [hk]), hnode]
      congr 1
      simp only [tagAt, fanWalk, Bool.false_eq_true, if_false, hq, Option.filter]
      split_ifs <;> simp_all
    · rw [if_neg (by simp [hk])]
      simp only [tagAt, fanWalk, Bool.false_eq_true, if_false, hq, Option.filter]
      split_ifs <;> simp_all

lemma run_port {a : Port} (ha : n.live a.node = true) (k : Fin 3) (c : LinPat) :
    (pPort k c).run n (some a) b = c.run n (n.wireAt ⟨a.node, k⟩) b := by
  simp [run, Option.filter, ha]

lemma run_var {i : ℕ} {a : Port} (ha : n.live a.node = true) (hb : b i = some a) (p : Option Port) :
    (pFan (pAt 1 (pRef i))).run n p b = if fanWalk false n p = some ⟨a.node, 1⟩ then some b else none := by
  simp only [run, fanWalk, Bool.false_eq_true, if_false, hb]
  cases skipDup n n.nn p with
  | none => rfl
  | some q =>
    obtain ⟨v, k⟩ := q
    by_cases hk : k = 1 <;> by_cases hv : v = a.node
    · simp [Option.filter, hk, hv, ha]
    · simp [Option.filter, hk, hv, Ne.symm hv]
    · simp [hk]
    · simp [hk]

lemma run_bind_port {i : ℕ} (hb : b i = none) (p : Option Port) :
    (pBind i).run n p b = if p.any (fun p => n.live p.node) then some (Function.update b i p) else none := by
  cases p with
  | none => rfl
  | some q => by_cases hlive : n.live q.node = true <;> simp [run, Option.filter, hlive, hb]

/-- The pattern of two binders over a use of the first or of the second. -/
def encSel (second : Bool) : LinPat := if second then linPatEncSecond else linPatEncFirst

lemma run_sel (second : Bool) (p : Option Port) :
    ((encSel second).run n p fun _ => none).isSome = (selAt false second n p).isSome := by
  have hpat : encSel second = pFan (pAll (pBind 0) (pAll (pTag .lam) (pPort 2 (pFan (pAll (pBind 1) (pAll (pTag .lam)
      (pPort 2 (pFan (pAt 1 (pRef (if second then 1 else 0)))))))))) ) := by cases second <;> rfl
  rw [hpat, run_node rfl, selAt]
  cases ha : tagAt false .lam n p with
  | none => rfl
  | some a =>
    have hla := tagAt_live ha
    simp only [Option.bind_some, bind]
    rw [run_port hla, run_node (by simp)]
    cases hw : tagAt false .lam n (n.wireAt ⟨a.node, 2⟩) with
    | none => rfl
    | some w =>
      have hlw := tagAt_live hw
      simp only [Option.bind_some]
      rw [run_port hlw]
      cases second with
      | false =>
        rw [if_neg (by simp), run_var hla (by simp)]
        simp only [Bool.false_eq_true, if_false]
        split_ifs <;> rfl
      | true =>
        rw [if_pos rfl, run_var hlw (by simp)]
        simp only [if_true]
        split_ifs <;> rfl

lemma run_succ (p : Option Port) :
    ((linPatEncSucc.run n p fun _ => none).map fun b => b 3) =
      (succAt n p).filter fun t => t.any fun q => n.live q.node := by
  rw [linPatEncSucc, pAll3, run_node rfl, succAt]
  cases ha : tagAt false .lam n p with
  | none => rfl
  | some a =>
    have hla := tagAt_live ha
    simp only [Option.bind_some, bind]
    rw [run_port hla, pAll3, run_node (by simp)]
    cases hw : tagAt false .lam n (n.wireAt ⟨a.node, 2⟩) with
    | none => rfl
    | some w =>
      have hlw := tagAt_live hw
      simp only [Option.bind_some]
      rw [run_port hlw, run_node (by simp)]
      cases hbody : tagAt false .app n (n.wireAt ⟨w.node, 2⟩) with
      | none => rfl
      | some body =>
        have hlbody := tagAt_live hbody
        simp only [Option.bind_some]
        rw [run, run_port hlbody, run_var (i := 1) (a := w) hlw (by simp)]
        split_ifs
        · rw [Option.bind_some, run_port hlbody, run_bind_port (by simp)]
          cases n.wireAt ⟨body.node, 2⟩ with
          | none => rfl
          | some t => by_cases ht : n.live t.node = true <;> simp [Option.filter, ht]
        · rfl

lemma run_cell (p : Option Port) :
    ((linPatEncCell.run n p fun _ => none).map fun b => (b 4, b 5)) = (consAt n p).filter (wiredCell n) := by
  rw [linPatEncCell, pAll3, run_node rfl, consAt, bodyAt]
  cases ha : tagAt false .lam n p with
  | none => rfl
  | some a =>
    simp only [Option.bind_some, bind]
    rw [run_port (tagAt_live ha), pAll3, run_at_node (by simp)]
    cases hc : (tagAt false .lam n (n.wireAt ⟨a.node, 2⟩)).filter (·.port == 0) with
    | none => rfl
    | some c =>
      have hlc : n.live c.node = true := tagAt_live (Option.filter_eq_some_iff.mp hc).1
      simp only [Option.bind_some]
      rw [run_port hlc, linPatEncCellBody, run_node (by simp)]
      cases hbody : tagAt false .app n (n.wireAt ⟨c.node, 2⟩) with
      | none => rfl
      | some body =>
        have hlbody := tagAt_live hbody
        simp only [Option.bind_some]
        rw [run, run_port hlbody, linPatEncCellIa, pAll3, run_node (by simp)]
        cases hia : tagAt false .app n (n.wireAt ⟨body.node, 0⟩) with
        | none => rfl
        | some ia =>
          simp only [Option.bind_some]
          rw [run_port (tagAt_live hia), run_bind_port (by simp)]
          cases hh : n.wireAt ⟨ia.node, 2⟩ with
          | none => rfl
          | some h =>
            by_cases hlh : n.live h.node = true
            · rw [if_pos (by simpa using hlh), Option.bind_some, run_port hlbody, run_bind_port (by simp)]
              cases ht : n.wireAt ⟨body.node, 2⟩ with
              | none => simp [wiredCell, Option.filter]
              | some t => by_cases hlt : n.live t.node = true <;> simp [wiredCell, Option.filter, hlh, hlt]
            · rw [if_neg (by simpa using hlh)]
              simp [wiredCell, Option.filter, hlh]

lemma match_sel (second : Bool) (p : Option Port) :
    (linPatMatch n p (encSel second)).isSome = (selAt false second n p).isSome := by
  rw [← run_sel, ← linPatMatch_bind n p (by cases second <;> decide) (by cases second <;> decide), Option.isSome_map]

/-- One round of the loop on booleans. -/
lemma numNfLoop_bool (f cnt : ℕ) (p : Option Port) :
    numNfLoop n .bool (f + 1) cnt p =
      if (selAt false false n p).isSome then some 1 else if (selAt false true n p).isSome then some 0 else none := by
  have hfirst := match_sel (n := n) false p
  have hsecond := match_sel (n := n) true p
  simp only [encSel, Bool.false_eq_true, if_false, if_true] at hfirst hsecond
  rw [← hfirst, ← hsecond, numNfLoop, linPatEncLayerOf]
  dsimp only
  cases linPatMatch n p linPatEncFirst with
  | some m => rfl
  | none => cases linPatMatch n p linPatEncSecond <;> rfl

/-- One round of the loop on towers. -/
lemma numNfLoop_num (f cnt : ℕ) (p : Option Port) :
    numNfLoop n .num (f + 1) cnt p =
      if (selAt false false n p).isSome then some cnt
      else ((succAt n p).filter fun t => t.any fun q => n.live q.node).bind fun t => numNfLoop n .num f (cnt + 1) t := by
  have hfirst := match_sel (n := n) false p
  have hsucc := run_succ (n := n) p
  simp only [encSel, Bool.false_eq_true, if_false] at hfirst
  rw [← linPatMatch_bind n p (by decide) (by decide)] at hsucc
  rw [← hfirst, ← hsucc, numNfLoop, linPatEncLayerOf]
  dsimp only
  cases linPatMatch n p linPatEncFirst with
  | some m => rfl
  | none => cases linPatMatch n p linPatEncSucc <;> rfl

/-- One round of the loop on cells. -/
lemma numNfLoop_cons {enc : Enc} (henc : enc = .cons ∨ enc = .str) (f cnt : ℕ) (p : Option Port) :
    numNfLoop n enc (f + 1) cnt p =
      match (consAt n p).filter (wiredCell n) with
      | some c => numNfLoop n enc f (cnt + 1) c.2
      | none => if (selAt false true n p).isSome then some cnt else none := by
  have hsecond := match_sel (n := n) true p
  have hcell := run_cell (n := n) p
  simp only [encSel, if_true] at hsecond
  rw [← linPatMatch_bind n p (by decide) (by decide)] at hcell
  rw [← hsecond, ← hcell]
  rcases henc with rfl | rfl
  all_goals
    rw [numNfLoop, linPatEncLayerOf]
    dsimp only
    cases linPatMatch n p linPatEncCell with
    | some m => rfl
    | none => cases linPatMatch n p linPatEncSecond <;> rfl

end LinPat

end LinEngine
