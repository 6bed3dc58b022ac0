import LinEngine.Pattern

/-!
# The shapes of the fold drivers

What the core asks once for a pair before it offers the pair to a fold driver, and the
claims of the three fold drivers.
-/
namespace LinEngine

open LinPat

/-! ## The predicates of the header -/

/-- The head of a saturated operator: its own binder is the argument of its body, whose function is a LAM. -/
def linPatOpHead (n : Net) (p : Port) : Bool :=
  p.port == 0 && n.live p.node && n.tag.get p.node == .lam &&
    (n.wireAt ⟨p.node, 1⟩).any fun use => use.port == 2 && n.live use.node && n.tag.get use.node == .app &&
      (n.wireAt ⟨use.node, 0⟩).any fun fn => fn.port == 0 && n.live fn.node && n.tag.get fn.node == .lam

/-- The header of an `_ffi` closure, read as tags. -/
def linPatFfiHead (n : Net) (p : Port) : Bool :=
  p.port == 0 && n.live p.node && n.tag.get p.node == .lam &&
    (skipDup n n.nn (n.wireAt ⟨p.node, 2⟩)).any fun r => r.port == 0 && n.live r.node && n.tag.get r.node == .lam &&
      (skipDup n n.nn (n.wireAt ⟨r.node, 2⟩)).any fun a => a.port == 1 && n.live a.node && n.tag.get a.node == .app &&
        (skipDup n n.nn (n.wireAt ⟨a.node, 0⟩)).any fun fn => fn.port == 1 && n.live fn.node && n.tag.get fn.node == .app

/-- The LAM of a pair of a LAM and an APP. -/
def lamOf (n : Net) (p1 p2 : Port) : Option Port :=
  if n.tag.get p1.node = .lam ∧ n.tag.get p2.node = .app then some p1
  else if n.tag.get p2.node = .lam ∧ n.tag.get p1.node = .app then some p2
  else none

def linPatFoldShape (n : Net) (p1 p2 : Port) : Bool :=
  p1.port == 0 && p2.port == 0 && n.live p1.node && n.live p2.node &&
    (lamOf n p1 p2).any fun lam => linPatOpHead n lam || linPatFfiHead n lam

/-! ## The pattern of the header -/

def linPatEncFfiFn : LinPat := pFan (pAt 1 (pAll3 (pBind 3) (pTag .app) (pPort 2 (pBind 4))))

def linPatEncFfiHdr : LinPat :=
  pFan (pAt 1 (pAll3 (pBind 2) (pTag .app) (pAll (pPort 0 linPatEncFfiFn) (pPort 2 (pBind 5)))))

def linPatEncFfi : LinPat :=
  pFan (pAll3 (pBind 0) (pTag .lam)
    (pPort 2 (pFan (pAt 0 (pAll3 (pBind 1) (pTag .lam) (pPort 2 linPatEncFfiHdr))))))

/-! ## The claims -/

/-- The pattern at the principal port of a node. -/
def headIsFfi (n : Net) (lam : ℕ) : Bool := (linPatMatch n (some ⟨lam, 0⟩) linPatEncFfi).isSome

/-- Wired to each other. -/
def mutuallyWired (n : Net) (p1 p2 : Port) : Bool := n.wireAt p1 == some p2 && n.wireAt p2 == some p1

def arithClaim (n : Net) (p1 p2 : Port) : Bool :=
  p1.port == 0 && p2.port == 0 && n.inNet p1.node && n.inNet p2.node && !n.dead.get p1.node && !n.dead.get p2.node &&
    mutuallyWired n p1 p2 && (lamOf n p1 p2).any fun lam => linPatOpHead n ⟨lam.node, 0⟩ || headIsFfi n lam.node

def nativeClaim (n : Net) (p1 p2 : Port) : Bool :=
  p1.port == 0 && p2.port == 0 && n.inNet p1.node && n.inNet p2.node && !n.dead.get p1.node && !n.dead.get p2.node &&
    mutuallyWired n p1 p2 && (lamOf n p1 p2).any fun lam => linPatOpHead n ⟨lam.node, 0⟩ && !headIsFfi n lam.node

/-- `ready` is the answer of `simd_op_ready`, which reads the operands. -/
def simdClaim (ready : Bool) (n : Net) (p1 p2 : Port) : Bool :=
  !n.dead.get p1.node && !n.dead.get p2.node && p1.port == 0 && p2.port == 0 && mutuallyWired n p1 p2 &&
    (lamOf n p1 p2).any fun lam => headIsFfi n lam.node || (linPatOpHead n ⟨lam.node, 0⟩ && ready)

/-! ## The pattern and the tags -/

/-- A port that holds a live node after the fans, reached at port `k`. -/
def headAt (k : Fin 3) (t : Tag) (n : Net) (p : Option Port) : Option Port := (tagAt false t n p).filter (·.port == k)

lemma any_headAt {k : Fin 3} {t : Tag} {n : Net} {p : Option Port} {f : Port → Bool} :
    (skipDup n n.nn p).any (fun q => q.port == k && n.live q.node && n.tag.get q.node == t && f q) =
      (headAt k t n p).any f := by
  simp only [headAt, tagAt, fanWalk, Bool.false_eq_true, if_false]
  cases skipDup n n.nn p with
  | none => rfl
  | some q =>
    by_cases hport : q.port = k <;> by_cases hlive : n.live q.node = true <;> by_cases htag : n.tag.get q.node = t <;>
      simp [Option.filter, hport, hlive, htag]

lemma headAt_live {k : Fin 3} {t : Tag} {n : Net} {p : Option Port} {q : Port} (h : headAt k t n p = some q) :
    n.live q.node = true := tagAt_live (Option.filter_eq_some_iff.mp h).1

/-- The nodes of a header below the binder `a`: the inner binder, the application and its function. -/
structure Header (n : Net) (a ret arg fn : Port) : Prop where
  inner : headAt 0 .lam n (n.wireAt ⟨a.node, 2⟩) = some ret
  body : headAt 1 .app n (n.wireAt ⟨ret.node, 2⟩) = some arg
  head : headAt 1 .app n (n.wireAt ⟨arg.node, 0⟩) = some fn

lemma ffiHead_iff {n : Net} {p : Port} :
    linPatFfiHead n p = true ↔
      p.port = 0 ∧ n.live p.node = true ∧ n.tag.get p.node = .lam ∧ ∃ ret arg fn, Header n p ret arg fn := by
  have hfn : ∀ a : Port, (skipDup n n.nn (n.wireAt ⟨a.node, 0⟩)).any
      (fun fn => fn.port == 1 && n.live fn.node && n.tag.get fn.node == .app) =
        (headAt 1 .app n (n.wireAt ⟨a.node, 0⟩)).any fun _ => true := by
    intro a
    rw [← any_headAt]
    simp only [Bool.and_true]
  simp only [linPatFfiHead, hfn, any_headAt, Bool.and_eq_true, beq_iff_eq, Option.any_eq_true, and_true, and_assoc]
  refine and_congr_right fun _ => and_congr_right fun _ => and_congr_right fun _ => ?_
  constructor
  · rintro ⟨ret, hret, arg, harg, fn, hfn⟩
    exact ⟨ret, arg, fn, hret, harg, hfn⟩
  · rintro ⟨ret, arg, fn, h⟩
    exact ⟨ret, h.inner, arg, h.body, fn, h.head⟩

lemma bind_isSome {α β : Type} {o : Option α} {f : α → Option β} :
    (o.bind f).isSome = true ↔ ∃ a, o = some a ∧ (f a).isSome = true := by cases o <;> simp

/-- A pattern that binds what is at a port binds a live node. -/
lemma run_wire {n : Net} {b : ℕ → Option Port} {i : ℕ} (hb : b i = none) {a : Port} (ha : n.live a.node = true) (k : Fin 3) :
    (pPort k (pBind i)).run n (some a) b =
      ((n.wireAt ⟨a.node, k⟩).filter fun q => n.live q.node).map fun q => Function.update b i (some q) := by
  rw [run_port ha, run]
  cases n.wireAt ⟨a.node, k⟩ with
  | none => rfl
  | some q => by_cases hq : n.live q.node = true <;> simp [Option.filter, hq, hb]

lemma filter_isSome {α : Type} {o : Option α} {f : α → Bool} : (o.filter f).isSome = true ↔ o.any f = true := by
  cases o with
  | none => simp
  | some a => by_cases h : f a = true <;> simp [Option.filter, h]

lemma encFfi_iff {n : Net} {p : Port} (hlive : n.live p.node = true) (htag : n.tag.get p.node = .lam) :
    (linPatMatch n (some p) linPatEncFfi).isSome = true ↔ ∃ ret arg fn, Header n p ret arg fn ∧
      (n.wireAt ⟨fn.node, 2⟩).any (fun q => n.live q.node) = true ∧
        (n.wireAt ⟨arg.node, 2⟩).any (fun q => n.live q.node) = true := by
  have hbind : (linPatMatch n (some p) linPatEncFfi).map (·.bind) = linPatEncFfi.run n (some p) fun _ => none :=
    linPatMatch_bind n (some p) (by decide) (by decide)
  have hroot : tagAt false .lam n (some p) = some p := by
    have hskip : skipDup n n.nn (some p) = some p := by
      cases n.nn with
      | zero => rfl
      | succ f => simp [skipDup, htag]
    simp [tagAt, fanWalk, hskip, Option.filter, hlive, htag]
  rw [← Option.isSome_map, hbind]
  unfold linPatEncFfi linPatEncFfiHdr linPatEncFfiFn pAll3
  rw [run_node rfl, hroot, Option.bind_some, run_port hlive, run_at_node (by rfl), bind_isSome]
  refine exists_congr fun ret => ?_
  constructor
  · rintro ⟨hret, h⟩
    rw [run_port (headAt_live hret), run_at_node (by rfl), bind_isSome] at h
    obtain ⟨arg, harg, h⟩ := h
    rw [run, bind_isSome] at h
    obtain ⟨b, hb, h⟩ := h
    rw [run_port (headAt_live harg), run_at_node (by rfl), Option.bind_eq_some_iff] at hb
    obtain ⟨fn, hfn, hb⟩ := hb
    rw [run_wire (by rfl) (headAt_live hfn)] at hb
    obtain ⟨q, hq, rfl⟩ := Option.map_eq_some_iff.mp hb
    rw [run_wire (by rfl) (headAt_live harg), Option.isSome_map, filter_isSome] at h
    exact ⟨arg, fn, ⟨hret, harg, hfn⟩, filter_isSome.mp (by rw [hq]; rfl), h⟩
  · rintro ⟨arg, fn, hheader, hname, hargs⟩
    refine ⟨hheader.inner, ?_⟩
    rw [run_port (headAt_live hheader.inner), run_at_node (by rfl), bind_isSome]
    refine ⟨arg, hheader.body, ?_⟩
    obtain ⟨q, hq⟩ := Option.isSome_iff_exists.mp (filter_isSome.mpr hname)
    have hhead : (tagAt false .app n (n.wireAt ⟨arg.node, 0⟩)).filter (·.port == 1) = some fn := hheader.head
    rw [run, run_port (headAt_live hheader.body), run_at_node (by rfl), hhead, Option.bind_some,
      run_wire (by rfl) (headAt_live hheader.head), hq, Option.map_some, Option.bind_some,
      run_wire (by rfl) (headAt_live hheader.body), Option.isSome_map, filter_isSome]
    exact hargs

/-! ## The gate -/

lemma lamOf_spec {n : Net} {p1 p2 lam : Port} (h : lamOf n p1 p2 = some lam) :
    (lam = p1 ∨ lam = p2) ∧ n.tag.get lam.node = .lam := by
  unfold lamOf at h
  split_ifs at h with h1 h2
  · obtain rfl := Option.some.inj h
    exact ⟨Or.inl rfl, h1.1⟩
  · obtain rfl := Option.some.inj h
    exact ⟨Or.inr rfl, h2.1⟩

/-- The pattern matches headers only. -/
lemma ffiHead_of_match {n : Net} {p : Port} (hport : p.port = 0) (hlive : n.live p.node = true) (htag : n.tag.get p.node = .lam)
    (h : headIsFfi n p.node = true) : linPatFfiHead n p = true := by
  obtain ⟨v, k⟩ := p
  obtain rfl : k = 0 := hport
  obtain ⟨ret, arg, fn, hheader, -, -⟩ := (encFfi_iff hlive htag).mp h
  exact ffiHead_iff.mpr ⟨rfl, hlive, htag, ret, arg, fn, hheader⟩

/-- A pair whose LAM is an operator head or matches the pattern has a shape. -/
lemma foldShape_of_head {n : Net} {p1 p2 lam : Port} (h1 : n.live p1.node = true) (h2 : n.live p2.node = true)
    (hp1 : p1.port = 0) (hp2 : p2.port = 0) (hlam : lamOf n p1 p2 = some lam)
    (h : linPatOpHead n ⟨lam.node, 0⟩ = true ∨ headIsFfi n lam.node = true) : linPatFoldShape n p1 p2 = true := by
  obtain ⟨hmem, htag⟩ := lamOf_spec hlam
  have hport : lam.port = 0 := by rcases hmem with rfl | rfl <;> assumption
  have hlive : n.live lam.node = true := by rcases hmem with rfl | rfl <;> assumption
  have hshape : linPatOpHead n lam = true ∨ linPatFfiHead n lam = true := by
    refine h.imp (fun hop => ?_) (ffiHead_of_match hport hlive htag)
    obtain ⟨v, k⟩ := lam
    obtain rfl : k = 0 := hport
    exact hop
  simpa [linPatFoldShape, h1, h2, hp1, hp2, hlam] using hshape

/-- The gate passes every pair that a fold driver claims, and its header test is the pattern where the
two ports that the pattern binds hold live nodes. -/
theorem foldShape_covers (n : Net) (p1 p2 : Port) (ready : Bool) (h1 : n.live p1.node = true) (h2 : n.live p2.node = true) :
    (arithClaim n p1 p2 = true ∨ nativeClaim n p1 p2 = true ∨ simdClaim ready n p1 p2 = true →
      linPatFoldShape n p1 p2 = true) ∧
    ∀ p : Port, p.port = 0 → n.live p.node = true → n.tag.get p.node = .lam →
      (∀ ret arg fn, Header n p ret arg fn → (n.wireAt ⟨fn.node, 2⟩).any (fun q => n.live q.node) = true ∧
        (n.wireAt ⟨arg.node, 2⟩).any (fun q => n.live q.node) = true) →
      (linPatFfiHead n p = true ↔ (linPatMatch n (some p) linPatEncFfi).isSome = true) := by
  constructor
  · rintro (h | h | h)
    · simp only [arithClaim, Bool.and_eq_true, beq_iff_eq, Option.any_eq_true, Bool.or_eq_true] at h
      obtain ⟨⟨⟨⟨⟨⟨⟨hp1, hp2⟩, -⟩, -⟩, -⟩, -⟩, -⟩, lam, hlam, h⟩ := h
      exact foldShape_of_head h1 h2 hp1 hp2 hlam h
    · simp only [nativeClaim, Bool.and_eq_true, beq_iff_eq, Option.any_eq_true] at h
      obtain ⟨⟨⟨⟨⟨⟨⟨hp1, hp2⟩, -⟩, -⟩, -⟩, -⟩, -⟩, lam, hlam, h, -⟩ := h
      exact foldShape_of_head h1 h2 hp1 hp2 hlam (Or.inl h)
    · simp only [simdClaim, Bool.and_eq_true, beq_iff_eq, Option.any_eq_true, Bool.or_eq_true] at h
      obtain ⟨⟨⟨⟨-, hp1⟩, hp2⟩, -⟩, lam, hlam, h⟩ := h
      exact foldShape_of_head h1 h2 hp1 hp2 hlam (h.symm.imp (·.1) id)
  · intro p hport hlive htag hwired
    rw [ffiHead_iff, encFfi_iff hlive htag]
    constructor
    · rintro ⟨-, -, -, ret, arg, fn, hheader⟩
      exact ⟨ret, arg, fn, hheader, hwired ret arg fn hheader⟩
    · rintro ⟨ret, arg, fn, hheader, -, -⟩
      exact ⟨hport, hlive, htag, ret, arg, fn, hheader⟩

/-- `(\f.\r.((f (\s.s)) (\s.s))) (\x.x)`, whose function is a header. -/
def headerTerm : Term :=
  .app (.lam "f" (.lam "r" (.app (.app (.var "f") (.lam "s" (.var "s"))) (.lam "s" (.var "s"))))) (.lam "x" (.var "x"))

def headerNet : Net := (compile headerTerm).toOption.getD netInit

theorem foldShape_covers_header : linPatFoldShape headerNet ⟨1, 0⟩ ⟨2, 0⟩ = true :=
  (foldShape_covers headerNet ⟨1, 0⟩ ⟨2, 0⟩ false (by decide +kernel) (by decide +kernel)).1
    (Or.inl (by decide +kernel))

end LinEngine
