import LinEngine.Compile
import LinEngine.Numeral

/-!
# Reading values off the net

The walks of `io.c` over booleans, cells, numerals and strings. A layer is forced before
it is read; `force` stands for `net_force`, whose effect depends on the drivers that are
loaded. A reader has no result when one of its loops outlives `fuel` or its arithmetic is
undefined.
-/
namespace LinEngine

open Numeral (chainVal)

/-- The encodings a caller can expect; the headers are no layer chains. -/
inductive Enc
  | num
  | bool
  | cons
  | str
  | op
  | ffi
  | eff
  | box
  deriving DecidableEq, Repr

/-- One layer of a chain of cells. -/
inductive Layer
  | terminal
  | cell (head tail : Option Port)
  deriving DecidableEq, Repr

abbrev Read (α : Type) := StateT Net Option α

def isLam (n : Net) (p : Option Port) : Bool := p.any fun p => n.live p.node && n.tag.get p.node == .lam

def isApp (n : Net) (p : Option Port) : Bool := p.any fun p => n.live p.node && n.tag.get p.node == .app

/-- The crossing walk through fans: the auxiliary the arriving port implies. -/
def dupHop (n : Net) : ℕ → Option Port → Option Port
  | 0, p => p
  | _ + 1, none => none
  | f + 1, some p =>
    if n.live p.node && n.tag.get p.node == .dup then
      dupHop n f (if p.port = 0 then n.wireAt ⟨p.node, 1⟩ else n.wireAt ⟨p.node, 0⟩)
    else some p

/-- The plain walk through fans. -/
def skipDup (n : Net) : ℕ → Option Port → Option Port
  | 0, p => p
  | _ + 1, none => none
  | f + 1, some p =>
    if n.live p.node && n.tag.get p.node == .dup then skipDup n f (n.wireAt ⟨p.node, 0⟩) else some p

section Readers

variable (force : Net → Port → Net) (fuel : ℕ)

/-- Force the value at `p` and return a port that still names it. -/
def netForceVal : ℕ → ℕ → Option Port → Read (Option Port)
  | 0, _, _ => failure
  | _ + 1, _, none => pure none
  | f + 1, i, some p => do
    let n ← get
    if n.nn ≤ i ∨ n.nn ≤ p.node then return some p
    let s := n.wireAt p
    let n := if n.dead.get p.node then n else force n p
    set n
    if !n.dead.get p.node then return some p
    let v := s.bind fun s => if n.live s.node then n.wireAt s else none
    if !(v.any fun v => n.live v.node) ∨ v = some p then return some p
    netForceVal f (i + 1) v

/-- Force, then walk through the fans. -/
def hop (cross : Bool) (p : Option Port) : Read (Option Port) := do
  let q ← netForceVal force fuel 0 p
  let n ← get
  return if cross then dupHop n n.nn q else skipDup n n.nn q

/-- One step down a spine that has to arrive at a function. -/
def hopLam (cross : Bool) (p : Option Port) : Read (Option Port) := do
  let q ← hop force fuel cross p
  let n ← get
  return if isLam n q then q else none

/-- The wire of port `k`. -/
def below (p : Port) (k : Fin 3) : Read (Option Port) := do
  let n ← get
  return n.wireAt ⟨p.node, k⟩

/-- The inner binder of two nested functions, reached at its principal port. -/
def innerLam (cross : Bool) (a : Port) : Read (Option Port) := do
  let w ← hop force fuel cross (← below a 2)
  let n ← get
  return if isLam n w ∧ w.any (·.port == 0) = true then w else none

/-- The selector of the first binder, or of the second. -/
def selLayer (second : Bool) (p : Option Port) : Read Bool := do
  let some a ← hopLam force fuel true p | return false
  let some w ← innerLam force fuel true a | return false
  let b ← hop force fuel true (← below w 2)
  return b = some ⟨if second then w.node else a.node, 1⟩

/-- One cell: its head and its tail. -/
def cellLayer (p : Option Port) : Read (Option (Option Port × Option Port)) := do
  let some a ← hopLam force fuel false p | return none
  let some c ← innerLam force fuel false a | return none
  let some body ← hop force fuel false (← below c 2) | return none
  if !isApp (← get) (some body) then return none
  let some ia ← hop force fuel false (← below body 0) | return none
  if !isApp (← get) (some ia) then return none
  return some (← below ia 2, ← below body 2)

def nilLayer (p : Option Port) : Read Bool := do
  let some a ← hopLam force fuel false p | return false
  let some c ← innerLam force fuel false a | return false
  let body ← hop force fuel false (← below c 2)
  return isLam (← get) body

def consLayer (p : Option Port) : Read (Option Layer) := do
  match ← cellLayer force fuel p with
  | some (h, t) => return some (.cell h t)
  | none => return if ← nilLayer force fuel p then some .terminal else none

/-- `net_read_int` of a boolean. -/
def netReadBool (p : Option Port) : Read ℤ := do
  if (← get).nn = 0 then return -1
  if ← selLayer force fuel false p then return 1
  if ← selLayer force fuel true p then return 0
  return -1

/-- `a |= (b & 1) << k` on a 64-bit `long`. -/
def orBit (a : ℕ) (b : ℤ) (k : ℕ) : Read ℕ :=
  if 64 ≤ k ∨ k = 63 ∧ b % 2 = 1 then failure else pure (a ||| ((b % 2).toNat <<< k))

/-- The loop of `net_read_bits`, with `k` cells read. -/
def bitsLoop : ℕ → ℕ → ℕ → Option Port → Read ℤ
  | 0, _, _, _ => failure
  | f + 1, k, a, p => do
    let result : ℤ := if k = 0 then -1 else a
    if (← get).nn ≤ k then return result
    let some (.cell h t) ← consLayer force fuel p | return result
    let b ← netReadBool force fuel h
    if b < 0 then return result
    bitsLoop f (k + 1) (← orBit a b k) t

def netReadBits (p : Option Port) : Read ℤ := bitsLoop force fuel fuel 0 0 p

/-- The length of a list, with `count` cells read. -/
def countLoop : ℕ → ℕ → Option Port → Read ℤ
  | 0, _, _ => failure
  | f + 1, count, p => do
    if (← get).nn ≤ count then return -1
    match ← consLayer force fuel p with
    | none => return -1
    | some .terminal => return count
    | some (.cell _ t) => countLoop f (count + 1) t

def netReadInt (enc : Enc) (p : Option Port) : Read ℤ :=
  match enc with
  | .num => netReadBits force fuel p
  | .bool => netReadBool force fuel p
  | .cons | .str => countLoop force fuel fuel 0 p
  | _ => pure (-1)

/-- A payload that goes into the text. -/
def charCode (v : ℤ) : Bool := decide (0 < v) && decide (v < 256)

/-- The loop of `net_read_string_arena`, with `step` cells read: the length, and the text. -/
def stringLoop (payEnc : Enc) : ℕ → ℕ → List ℕ → Option Port → Read (ℤ × List ℕ)
  | 0, _, _, _ => failure
  | f + 1, step, buf, p => do
    let cut : ℤ × List ℕ := if buf = [] then (-1, []) else (buf.length, buf)
    if (← get).nn ≤ step then return cut
    match ← consLayer force fuel p with
    | none => return cut
    | some .terminal => return (buf.length, buf)
    | some (.cell h t) =>
      let ch ← netReadInt force fuel payEnc h
      stringLoop payEnc f (step + 1) (if charCode ch then buf ++ [ch.toNat] else buf) t

def netReadStringArena (payEnc : Enc) (p : Option Port) : Read (ℤ × List ℕ) :=
  stringLoop force fuel payEnc fuel 0 [] p

/-! ## What the walks return -/

/-- A chain of cells all the way to a nil terminal, as the walks force it, with the values
that `read` finds in the cells; `k` cells came before. -/
inductive Chain (read : Option Port → Read ℤ) : ℕ → Net → Option Port → List ℤ → Net → Prop
  | nil {k : ℕ} {n n' : Net} {p : Option Port} (hk : k < n.nn)
      (hlayer : consLayer force fuel p n = some (some .terminal, n')) : Chain read k n p [] n'
  | cell {k : ℕ} {n n₁ n₂ n' : Net} {p h t : Option Port} {v : ℤ} {vs : List ℤ} (hk : k < n.nn)
      (hlayer : consLayer force fuel p n = some (some (.cell h t), n₁))
      (hread : read h n₁ = some (v, n₂)) (tail : Chain read (k + 1) n₂ t vs n') :
      Chain read k n p (v :: vs) n'

/-- The walk of `Chain`: the values, if it ends at a nil terminal. -/
def chainWalk (read : Option Port → Read ℤ) : ℕ → ℕ → Option Port → Read (Option (List ℤ))
  | 0, _, _ => failure
  | f + 1, k, p => do
    if (← get).nn ≤ k then return none
    match ← consLayer force fuel p with
    | none => return none
    | some .terminal => return some []
    | some (.cell h t) =>
      let v ← read h
      return (← chainWalk read f (k + 1) t).map (v :: ·)

variable {force fuel}

lemma Read.bind_eq {α β : Type} (x : Read α) (y : α → Read β) (n : Net) :
    (x >>= y) n = (x n).bind fun r => y r.1 r.2 := rfl

lemma Read.pure_eq {α : Type} (a : α) (n : Net) : (pure a : Read α) n = some (a, n) := rfl

lemma Read.get_eq (n : Net) : (get : Read Net) n = some (n, n) := rfl

lemma Read.set_eq (m n : Net) : (set m : Read PUnit) n = some (⟨⟩, m) := rfl

lemma Read.failure_eq {α : Type} (n : Net) : (failure : Read α) n = none := rfl

lemma chainWalk_chain {read : Option Port → Read ℤ} {f k : ℕ} {n n' : Net} {p : Option Port} {vs : List ℤ}
    (h : chainWalk force fuel read f k p n = some (some vs, n')) : Chain force fuel read k n p vs n' := by
  induction f generalizing k n p vs with
  | zero => exact absurd h (by simp [chainWalk, Read.failure_eq])
  | succ f ih =>
    simp only [chainWalk, Read.bind_eq, Read.get_eq, Option.bind_some] at h
    split_ifs at h with hk
    · simp [Read.pure_eq] at h
    · rw [Read.bind_eq, Option.bind_eq_some_iff] at h
      obtain ⟨⟨l, n₁⟩, hlayer, h⟩ := h
      match l with
      | none => simp [Read.pure_eq] at h
      | some .terminal =>
        simp only [Read.pure_eq, Option.some_inj, Prod.mk.injEq] at h
        obtain ⟨rfl, rfl⟩ := h
        exact .nil (not_le.mp hk) hlayer
      | some (.cell hd tl) =>
        simp only [Read.bind_eq, Option.bind_eq_some_iff] at h
        obtain ⟨⟨v, n₂⟩, hread, ⟨ws, n₃⟩, hwalk, h⟩ := h
        simp only [Read.pure_eq, Option.some_inj, Prod.mk.injEq, Option.map_eq_some_iff] at h
        obtain ⟨⟨ws', rfl, rfl⟩, rfl⟩ := h
        exact .cell (not_le.mp hk) hlayer hread (ih hwalk)

/-- Where the walk gives up there is no chain. -/
lemma chainWalk_broken {read : Option Port → Read ℤ} {f k : ℕ} {n n' n'' : Net} {p : Option Port} {vs : List ℤ}
    (h : chainWalk force fuel read f k p n = some (none, n'')) : ¬Chain force fuel read k n p vs n' := by
  intro hchain
  induction hchain generalizing f with
  | nil hk hlayer =>
    cases f with
    | zero => simp [chainWalk, Read.failure_eq] at h
    | succ f => simp [chainWalk, Read.bind_eq, Read.get_eq, Read.pure_eq, Nat.not_le.mpr hk, hlayer] at h
  | cell hk hlayer hread _ ih =>
    cases f with
    | zero => simp [chainWalk, Read.failure_eq] at h
    | succ f =>
      simp only [chainWalk, Read.bind_eq, Read.get_eq, Option.bind_some, Nat.not_le.mpr hk, if_false, hlayer, hread,
        Option.bind_eq_some_iff] at h
      obtain ⟨⟨ws, n₃⟩, hwalk, h⟩ := h
      simp only [Read.pure_eq, Option.some_inj, Prod.mk.injEq, Option.map_eq_none_iff] at h
      obtain ⟨rfl, rfl⟩ := h
      exact ih hwalk

lemma bitsLoop_cell {f k a : ℕ} {n n₁ n₂ : Net} {p h t : Option Port} {b : ℤ} (hk : k < n.nn)
    (hlayer : consLayer force fuel p n = some (some (.cell h t), n₁))
    (hread : netReadBool force fuel h n₁ = some (b, n₂)) (hb : 0 ≤ b) :
    bitsLoop force fuel (f + 1) k a p n = (orBit a b k >>= fun a => bitsLoop force fuel f (k + 1) a t) n₂ := by
  simp [bitsLoop, Read.bind_eq, Read.get_eq, Nat.not_le.mpr hk, hlayer, hread, Int.not_lt.mpr hb]

lemma bitsLoop_nil {f k a : ℕ} {n n' : Net} {p : Option Port} (hk : k < n.nn)
    (hlayer : consLayer force fuel p n = some (some .terminal, n')) :
    bitsLoop force fuel (f + 1) k a p n = some (if k = 0 then -1 else (a : ℤ), n') := by
  simp [bitsLoop, Read.bind_eq, Read.pure_eq, Read.get_eq, Nat.not_le.mpr hk, hlayer]

lemma countLoop_cell {f k : ℕ} {n n₁ : Net} {p h t : Option Port} (hk : k < n.nn)
    (hlayer : consLayer force fuel p n = some (some (.cell h t), n₁)) :
    countLoop force fuel (f + 1) k p n = countLoop force fuel f (k + 1) t n₁ := by
  simp [countLoop, Read.bind_eq, Read.get_eq, Nat.not_le.mpr hk, hlayer]

lemma countLoop_nil {f k : ℕ} {n n₁ : Net} {p : Option Port} (hk : k < n.nn)
    (hlayer : consLayer force fuel p n = some (some .terminal, n₁)) :
    countLoop force fuel (f + 1) k p n = some ((k : ℤ), n₁) := by
  simp [countLoop, Read.bind_eq, Read.pure_eq, Read.get_eq, Nat.not_le.mpr hk, hlayer]

lemma countLoop_none {f k : ℕ} {n n₁ : Net} {p : Option Port} (hk : k < n.nn)
    (hlayer : consLayer force fuel p n = some (none, n₁)) :
    countLoop force fuel (f + 1) k p n = some (-1, n₁) := by
  simp [countLoop, Read.bind_eq, Read.pure_eq, Read.get_eq, Nat.not_le.mpr hk, hlayer]

lemma netReadBool_mem {n n' : Net} {p : Option Port} {v : ℤ} (h : netReadBool force fuel p n = some (v, n')) :
    v = -1 ∨ v = 0 ∨ v = 1 := by
  simp only [netReadBool, Read.bind_eq, Read.get_eq, Option.bind_some] at h
  split_ifs at h
  · simp_all [Read.pure_eq]
  · rw [Read.bind_eq, Option.bind_eq_some_iff] at h
    obtain ⟨⟨first, n₁⟩, -, h⟩ := h
    cases first with
    | true => simp_all [Read.pure_eq]
    | false =>
      rw [if_neg (by simp), Read.bind_eq, Option.bind_eq_some_iff] at h
      obtain ⟨⟨second, n₂⟩, -, h⟩ := h
      cases second <;> simp_all [Read.pure_eq]

lemma orBit_eq {a k a' : ℕ} {b : ℤ} {n n' : Net} (ha : a < 2 ^ k) (hb : b = 0 ∨ b = 1)
    (h : orBit a b k n = some (a', n')) : a' = a + 2 ^ k * (b == 1).toNat ∧ n' = n := by
  unfold orBit at h
  split_ifs at h
  · simp [Read.failure_eq] at h
  · rw [Read.pure_eq, Option.some_inj, Prod.mk.injEq] at h
    obtain ⟨rfl, rfl⟩ := h
    refine ⟨?_, rfl⟩
    rcases hb with rfl | rfl
    · simp
    · rw [Nat.or_comm, show ((1 : ℤ) % 2).toNat <<< k = 1 <<< k from rfl, ← Nat.shiftLeft_add_eq_or_of_lt ha]
      simp [Nat.shiftLeft_eq, Nat.add_comm]

/-- Over a chain of booleans the loop adds the bits above the ones it has. -/
lemma bitsLoop_chain {f k a : ℕ} {n n' n'' : Net} {p : Option Port} {bs : List ℤ} {v : ℤ}
    (h : Chain force fuel (netReadBool force fuel) k n p bs n') (hbs : ∀ b ∈ bs, 0 ≤ b) (ha : a < 2 ^ k)
    (hrun : bitsLoop force fuel f k a p n = some (v, n'')) :
    n'' = n' ∧ v = if k = 0 ∧ bs = [] then -1 else ((a + 2 ^ k * chainVal (bs.map (· == 1)) : ℕ) : ℤ) := by
  induction h generalizing f a with
  | @nil k n n' p hk hlayer =>
    cases f with
    | zero => exact absurd hrun (by simp [bitsLoop, Read.failure_eq])
    | succ f =>
      rw [bitsLoop_nil hk hlayer, Option.some_inj, Prod.mk.injEq] at hrun
      exact ⟨hrun.2.symm, by simp [← hrun.1, chainVal]⟩
  | @cell k n n₁ n₂ n' p hd tl b bs hk hlayer hread _ ih =>
    cases f with
    | zero => exact absurd hrun (by simp [bitsLoop, Read.failure_eq])
    | succ f =>
      have hb := hbs b List.mem_cons_self
      have hbit : b = 0 ∨ b = 1 := by
        have := netReadBool_mem hread
        omega
      rw [bitsLoop_cell hk hlayer hread hb, Read.bind_eq, Option.bind_eq_some_iff] at hrun
      obtain ⟨⟨a', n₃⟩, hor, hrun⟩ := hrun
      obtain ⟨rfl, rfl⟩ := orBit_eq ha hbit hor
      have hlt : a + 2 ^ k * (b == 1).toNat < 2 ^ (k + 1) := by
        have := Nat.mul_le_mul_left (2 ^ k) (Bool.toNat_le (b == 1))
        rw [Nat.pow_succ]
        omega
      obtain ⟨hnet, hval⟩ := ih (fun c hc => hbs c (List.mem_cons_of_mem b hc)) hlt hrun
      refine ⟨hnet, ?_⟩
      rw [hval, if_neg (by simp), if_neg (by simp), List.map_cons, chainVal, Nat.pow_succ]
      congr 1
      ring

/-- A number is read off a cell with a boolean in it. -/
lemma bitsLoop_first {f : ℕ} {n n' : Net} {p : Option Port} {v : ℤ}
    (hrun : bitsLoop force fuel f 0 0 p n = some (v, n')) (hv : 0 ≤ v) :
    ∃ h t n₁ b n₂, consLayer force fuel p n = some (some (.cell h t), n₁) ∧
      netReadBool force fuel h n₁ = some (b, n₂) ∧ 0 ≤ b := by
  cases f with
  | zero => exact absurd hrun (by simp [bitsLoop, Read.failure_eq])
  | succ f =>
    simp only [bitsLoop, Read.bind_eq, Read.get_eq, Option.bind_some] at hrun
    split_ifs at hrun
    · simp only [Read.pure_eq, Option.some_inj, Prod.mk.injEq] at hrun
      omega
    · rw [Read.bind_eq, Option.bind_eq_some_iff] at hrun
      obtain ⟨⟨l, n₁⟩, hlayer, hrun⟩ := hrun
      match l with
      | none | some .terminal =>
        simp only [Read.pure_eq, Option.some_inj, Prod.mk.injEq] at hrun
        omega
      | some (.cell h t) =>
        simp only [Read.bind_eq, Option.bind_eq_some_iff] at hrun
        obtain ⟨⟨b, n₂⟩, hread, hrun⟩ := hrun
        refine ⟨h, t, n₁, b, n₂, hlayer, hread, ?_⟩
        by_contra hneg
        simp only [not_le.mp hneg, if_true, Read.pure_eq, Option.some_inj, Prod.mk.injEq] at hrun
        omega

/-- The payloads that go into the text. -/
def codes (vs : List ℤ) : List ℕ := (vs.filter charCode).map Int.toNat

lemma stringLoop_cell {payEnc : Enc} {f step : ℕ} {buf : List ℕ} {n n₁ n₂ : Net} {p h t : Option Port} {v : ℤ}
    (hk : step < n.nn) (hlayer : consLayer force fuel p n = some (some (.cell h t), n₁))
    (hread : netReadInt force fuel payEnc h n₁ = some (v, n₂)) :
    stringLoop force fuel payEnc (f + 1) step buf p n =
      stringLoop force fuel payEnc f (step + 1) (buf ++ codes [v]) t n₂ := by
  have hbuf : (if charCode v = true then buf ++ [v.toNat] else buf) = buf ++ codes [v] := by
    cases h : charCode v <;> simp [codes, h]
  simp [stringLoop, Read.bind_eq, Read.get_eq, Nat.not_le.mpr hk, hlayer, hread, hbuf]

lemma stringLoop_nil {payEnc : Enc} {f step : ℕ} {buf : List ℕ} {n n' : Net} {p : Option Port}
    (hk : step < n.nn) (hlayer : consLayer force fuel p n = some (some .terminal, n')) :
    stringLoop force fuel payEnc (f + 1) step buf p n = some (((buf.length : ℤ), buf), n') := by
  simp [stringLoop, Read.bind_eq, Read.pure_eq, Read.get_eq, Nat.not_le.mpr hk, hlayer]

lemma stringLoop_chain {payEnc : Enc} {f step : ℕ} {buf : List ℕ} {n n' n'' : Net} {p : Option Port} {vs : List ℤ}
    {r : ℤ × List ℕ} (h : Chain force fuel (netReadInt force fuel payEnc) step n p vs n')
    (hrun : stringLoop force fuel payEnc f step buf p n = some (r, n'')) :
    n'' = n' ∧ r = (((buf ++ codes vs).length : ℤ), buf ++ codes vs) := by
  induction h generalizing f buf with
  | @nil step n n' p hk hlayer =>
    cases f with
    | zero => exact absurd hrun (by simp [stringLoop, Read.failure_eq])
    | succ f =>
      rw [stringLoop_nil hk hlayer, Option.some_inj, Prod.mk.injEq] at hrun
      exact ⟨hrun.2.symm, by simp [← hrun.1, codes]⟩
  | @cell step n n₁ n₂ n' p hd tl v vs hk hlayer hread _ ih =>
    cases f with
    | zero => exact absurd hrun (by simp [stringLoop, Read.failure_eq])
    | succ f =>
      rw [stringLoop_cell hk hlayer hread] at hrun
      have hcodes : codes (v :: vs) = codes [v] ++ codes vs := by
        simp [codes, List.filter_cons]
        split <;> simp
      rw [hcodes, ← List.append_assoc]
      exact ih hrun

/-- A text is read off a cell or off the nil terminal. -/
lemma stringLoop_first {payEnc : Enc} {f : ℕ} {n n' : Net} {p : Option Port} {r : ℤ × List ℕ}
    (hrun : stringLoop force fuel payEnc f 0 [] p n = some (r, n')) (hlen : 0 ≤ r.1) :
    ∃ l n₁, consLayer force fuel p n = some (some l, n₁) := by
  cases f with
  | zero => exact absurd hrun (by simp [stringLoop, Read.failure_eq])
  | succ f =>
    simp only [stringLoop, Read.bind_eq, Read.get_eq, Option.bind_some, if_true] at hrun
    split_ifs at hrun
    · simp only [Read.pure_eq, Option.some_inj, Prod.mk.injEq] at hrun
      rw [← hrun.1] at hlen
      exact absurd hlen (by decide)
    · rw [Read.bind_eq, Option.bind_eq_some_iff] at hrun
      obtain ⟨⟨l, n₁⟩, hlayer, hrun⟩ := hrun
      match l with
      | some l => exact ⟨l, n₁, hlayer⟩
      | none =>
        simp only [Read.pure_eq, Option.some_inj, Prod.mk.injEq] at hrun
        rw [← hrun.1] at hlen
        exact absurd hlen (by decide)

variable (force fuel) in
/-- A number comes from a cell with a boolean in it, and over a chain of booleans it is the
number of the bits. A text comes from a cell or from nil, and over a chain it is its
payloads that are character codes, in order. -/
theorem readers_exact (payEnc : Enc) (n : Net) (p : Option Port) :
    (∀ v n', netReadInt force fuel .num p n = some (v, n') → 0 ≤ v →
      (∃ h t n₁ b n₂, consLayer force fuel p n = some (some (.cell h t), n₁) ∧
        netReadBool force fuel h n₁ = some (b, n₂) ∧ 0 ≤ b) ∧
      ∀ bs n'', Chain force fuel (netReadBool force fuel) 0 n p bs n'' → (∀ b ∈ bs, 0 ≤ b) →
        v = chainVal (bs.map (· == 1)) ∧ n' = n'') ∧
    ∀ len text n', netReadStringArena force fuel payEnc p n = some ((len, text), n') → 0 ≤ len →
      (∃ l n₁, consLayer force fuel p n = some (some l, n₁)) ∧
      ∀ vs n'', Chain force fuel (netReadInt force fuel payEnc) 0 n p vs n'' →
        text = codes vs ∧ len = text.length ∧ n' = n'' := by
  refine ⟨fun v n' hrun hv => ⟨bitsLoop_first hrun hv, fun bs n'' hchain hbs => ?_⟩,
    fun len text n' hrun hlen => ⟨stringLoop_first hrun hlen, fun vs n'' hchain => ?_⟩⟩
  · obtain ⟨hnet, hval⟩ := bitsLoop_chain hchain hbs (by norm_num) hrun
    split_ifs at hval
    · omega
    · exact ⟨by simpa using hval, hnet⟩
  · obtain ⟨hnet, hval⟩ := stringLoop_chain hchain hrun
    simp only [List.nil_append, Prod.mk.injEq] at hval
    obtain ⟨rfl, rfl⟩ := hval
    exact ⟨rfl, rfl, hnet⟩

/-- The chain of a numeral in a net of its own, which has nothing to force. -/
def scottNet (k : ℕ) : Port × Net := allocScott .serial netInit k 0

/-- No force is needed in a net without a redex. -/
def atRest (n : Net) (_ : Port) : Net := n

lemma result_of_map {α : Type} {x : Read α} {n : Net} {a : α} (h : (x n).map (·.1) = some a) :
    ∃ n', x n = some (a, n') := by
  obtain ⟨⟨_, n'⟩, hrun, rfl⟩ := Option.map_eq_some_iff.mp h
  exact ⟨n', hrun⟩

lemma chain_of_map {read : Option Port → Read ℤ} {f k : ℕ} {n : Net} {p : Option Port} {vs : List ℤ}
    (h : (chainWalk force fuel read f k p n).map (·.1) = some (some vs)) : ∃ n', Chain force fuel read k n p vs n' := by
  obtain ⟨n', hwalk⟩ := result_of_map h
  exact ⟨n', chainWalk_chain hwalk⟩

theorem readers_exact_five :
    (∃ v n', netReadInt atRest 9 .num (some (scottNet 5).1) (scottNet 5).2 = some (v, n') ∧
      v = chainVal [true, false, true]) ∧
    ∃ len text n', netReadStringArena atRest 9 .bool (some (scottNet 5).1) (scottNet 5).2 = some ((len, text), n') ∧
      text = [1, 1] := by
  obtain ⟨n₁, hnum⟩ : ∃ n', Chain atRest 9 (netReadBool atRest 9) 0 (scottNet 5).2 (some (scottNet 5).1) [1, 0, 1] n' :=
    chain_of_map (f := 9) (by decide +kernel)
  obtain ⟨n₂, hstr⟩ : ∃ n', Chain atRest 9 (netReadInt atRest 9 .bool) 0 (scottNet 5).2 (some (scottNet 5).1) [1, 0, 1] n' :=
    chain_of_map (f := 9) (by decide +kernel)
  obtain ⟨n₃, hread⟩ := result_of_map (x := netReadInt atRest 9 .num (some (scottNet 5).1)) (n := (scottNet 5).2)
    (a := 5) (by decide +kernel)
  obtain ⟨n₄, htext⟩ := result_of_map (x := netReadStringArena atRest 9 .bool (some (scottNet 5).1))
    (n := (scottNet 5).2) (a := (2, [1, 1])) (by decide +kernel)
  have h := readers_exact atRest 9 .bool (scottNet 5).2 (some (scottNet 5).1)
  exact ⟨⟨_, _, hread, ((h.1 _ _ hread (by decide)).2 _ _ hnum (by decide)).1⟩,
    ⟨_, _, _, htext, ((h.2 _ _ _ htext (by decide)).2 _ _ hstr).1⟩⟩

/-- The numeral 1 has the payload TRUE, which is no character code, and reads as the empty text. -/
theorem readString_skips :
    (netReadStringArena atRest 9 .num (some (scottNet 1).1) (scottNet 1).2).map (·.1) = some (0, []) ∧
      ∃ n', Chain atRest 9 (netReadInt atRest 9 .num) 0 (scottNet 1).2 (some (scottNet 1).1) [-1] n' :=
  ⟨by decide +kernel, chain_of_map (f := 9) (by decide +kernel)⟩

/-- A cell with TRUE in it, and a tail that is the identity. -/
def brokenNet : Port × Net :=
  let i := netAlloc .serial netInit .lam 0
  scottCell .serial (netLink .serial i.2 (some ⟨i.1, 2⟩) (some ⟨i.1, 1⟩) false) 0 true ⟨i.1, 0⟩

/-- A chain that breaks off still gives the number of its front. -/
theorem readBits_front :
    (netReadInt atRest 9 .num (some brokenNet.1) brokenNet.2).map (·.1) = some 1 ∧
      ∀ bs n', ¬Chain atRest 9 (netReadBool atRest 9) 0 brokenNet.2 (some brokenNet.1) bs n' := by
  refine ⟨by decide +kernel, fun bs n' => ?_⟩
  obtain ⟨n'', hwalk⟩ := result_of_map (x := chainWalk atRest 9 (netReadBool atRest 9) 9 0 (some brokenNet.1))
    (n := brokenNet.2) (a := none) (by decide +kernel)
  exact chainWalk_broken hwalk

end Readers

/-! ## More fuel -/

section More

/-- Where the first reader has a result the second one has the same. -/
def Read.Le {α : Type} (x y : Read α) : Prop := ∀ n r, x n = some r → y n = some r

variable {α β : Type} {force : Net → Port → Net} {fuel fuel' : ℕ} {p : Option Port}

lemma Read.Le.refl (x : Read α) : Read.Le x x := fun _ _ h => h

lemma Read.Le.failure (x : Read α) : Read.Le failure x := fun _ _ h => by cases h

lemma Read.Le.bind {x x' : Read α} {y y' : α → Read β} (hx : Read.Le x x') (hy : ∀ a, Read.Le (y a) (y' a)) :
    Read.Le (x >>= y) (x' >>= y') := by
  intro n r h
  rw [Read.bind_eq, Option.bind_eq_some_iff] at h
  obtain ⟨⟨a, m⟩, hx', hy'⟩ := h
  rw [Read.bind_eq, hx n _ hx']
  exact hy a m r hy'

lemma Read.Le.ite {c : Prop} [Decidable c] {x x' y y' : Read α} (hx : Read.Le x x') (hy : Read.Le y y') :
    Read.Le (if c then x else y) (if c then x' else y') := by
  split_ifs
  · exact hx
  · exact hy

lemma netForceVal_le (h : fuel ≤ fuel') (i : ℕ) (p : Option Port) :
    Read.Le (netForceVal force fuel i p) (netForceVal force fuel' i p) := by
  induction fuel generalizing fuel' i p with
  | zero => exact .failure _
  | succ f ih =>
    obtain ⟨f', rfl⟩ := Nat.exists_eq_succ_of_ne_zero (by omega : fuel' ≠ 0)
    cases p with
    | none => exact .refl _
    | some p =>
      refine .bind (.refl _) fun n => .ite (.refl _) (.bind (.refl _) fun _ => .ite (.refl _) (.ite (.refl _) ?_))
      exact ih (by omega) _ _

variable (h : fuel ≤ fuel')
include h

lemma hop_le (cross : Bool) (p : Option Port) : Read.Le (hop force fuel cross p) (hop force fuel' cross p) :=
  .bind (netForceVal_le h 0 p) fun _ => .refl _

lemma hopLam_le (cross : Bool) (p : Option Port) : Read.Le (hopLam force fuel cross p) (hopLam force fuel' cross p) :=
  .bind (hop_le h cross p) fun _ => .refl _

lemma innerLam_le (cross : Bool) (a : Port) : Read.Le (innerLam force fuel cross a) (innerLam force fuel' cross a) :=
  .bind (.refl _) fun w => .bind (hop_le h cross w) fun _ => .refl _

lemma selLayer_le (second : Bool) (p : Option Port) : Read.Le (selLayer force fuel second p) (selLayer force fuel' second p) := by
  refine .bind (hopLam_le h true p) fun a => ?_
  cases a with
  | none => exact .refl _
  | some a =>
    refine .bind (innerLam_le h true a) fun w => ?_
    cases w with
    | none => exact .refl _
    | some w => exact .bind (.refl _) fun b => .bind (hop_le h true b) fun _ => .refl _

lemma cellLayer_le (p : Option Port) : Read.Le (cellLayer force fuel p) (cellLayer force fuel' p) := by
  refine .bind (hopLam_le h false p) fun a => ?_
  cases a with
  | none => exact .refl _
  | some a =>
    refine .bind (innerLam_le h false a) fun c => ?_
    cases c with
    | none => exact .refl _
    | some c =>
      refine .bind (.refl _) fun b => .bind (hop_le h false b) fun body => ?_
      cases body with
      | none => exact .refl _
      | some body =>
        refine .bind (.refl _) fun n => .ite (.refl _) (.bind (.refl _) fun i => .bind (hop_le h false i) fun ia => ?_)
        cases ia with
        | none => exact .refl _
        | some ia => exact .refl _

lemma nilLayer_le (p : Option Port) : Read.Le (nilLayer force fuel p) (nilLayer force fuel' p) := by
  refine .bind (hopLam_le h false p) fun a => ?_
  cases a with
  | none => exact .refl _
  | some a =>
    refine .bind (innerLam_le h false a) fun c => ?_
    cases c with
    | none => exact .refl _
    | some c => exact .bind (.refl _) fun b => .bind (hop_le h false b) fun _ => .refl _

lemma consLayer_le (p : Option Port) : Read.Le (consLayer force fuel p) (consLayer force fuel' p) := by
  refine .bind (cellLayer_le h p) fun c => ?_
  cases c with
  | some c => exact .refl _
  | none => exact .bind (nilLayer_le h p) fun _ => .refl _

lemma netReadBool_le (p : Option Port) : Read.Le (netReadBool force fuel p) (netReadBool force fuel' p) :=
  .bind (.refl _) fun _ => .ite (.refl _) (.bind (selLayer_le h false p) fun _ => .ite (.refl _)
    (.bind (selLayer_le h true p) fun _ => .refl _))

lemma bitsLoop_le {f f' : ℕ} (hf : f ≤ f') (k a : ℕ) (p : Option Port) :
    Read.Le (bitsLoop force fuel f k a p) (bitsLoop force fuel' f' k a p) := by
  induction f generalizing f' k a p with
  | zero => exact .failure _
  | succ f ih =>
    obtain ⟨f', rfl⟩ := Nat.exists_eq_succ_of_ne_zero (by omega : f' ≠ 0)
    refine .bind (.refl _) fun n => .ite (.refl _) (.bind (consLayer_le h p) fun l => ?_)
    cases l with
    | none => exact .refl _
    | some l =>
      cases l with
      | terminal => exact .refl _
      | cell hd tl =>
        refine .bind (netReadBool_le h hd) fun b => .ite (.refl _) (.bind (.refl _) fun a => ih (by omega) _ _ _)

lemma countLoop_le {f f' : ℕ} (hf : f ≤ f') (k : ℕ) (p : Option Port) :
    Read.Le (countLoop force fuel f k p) (countLoop force fuel' f' k p) := by
  induction f generalizing f' k p with
  | zero => exact .failure _
  | succ f ih =>
    obtain ⟨f', rfl⟩ := Nat.exists_eq_succ_of_ne_zero (by omega : f' ≠ 0)
    refine .bind (.refl _) fun n => .ite (.refl _) (.bind (consLayer_le h p) fun l => ?_)
    cases l with
    | none => exact .refl _
    | some l =>
      cases l with
      | terminal => exact .refl _
      | cell hd tl => exact ih (by omega) _ _

/-- With more fuel a reader returns what it returned. -/
lemma netReadInt_le (enc : Enc) (p : Option Port) : Read.Le (netReadInt force fuel enc p) (netReadInt force fuel' enc p) := by
  cases enc with
  | num => exact bitsLoop_le h h 0 0 p
  | bool => exact netReadBool_le h p
  | cons => exact countLoop_le h h 0 p
  | str => exact countLoop_le h h 0 p
  | op => exact .refl _
  | ffi => exact .refl _
  | eff => exact .refl _
  | box => exact .refl _

end More

end LinEngine
