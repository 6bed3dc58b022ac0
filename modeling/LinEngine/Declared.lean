import LinEngine.Matcher

/-!
# What a pattern declares

The meaning of the vocabulary with no budget, no depth and no record of fixed size: what holds at
a port, from what is bound, counted and covered before to what is after. Beside it a matcher
that runs under the limits and says so when they stop it. The interpreter follows it, unless
a negation is stopped inside or leaves a mark on the record.
-/
namespace LinEngine.Matching

/-- What has been bound, counted and covered. -/
structure Env where
  binds : List (ℕ × Port)
  cycs : List (ℕ × Port)
  slots : List (Option Port)
  covered : List ℕ
  deriving DecidableEq, Repr

namespace Env

def empty : Env := ⟨[], [], [], []⟩

def coverNode (e : Env) (v : ℕ) : Env := if v ∈ e.covered then e else { e with covered := e.covered ++ [v] }

def cover (n : Net) (e : Env) (p : Option Port) : Env :=
  match p.filter fun q => n.live q.node with
  | none => e
  | some q => e.coverNode q.node

def coverCell (n : Net) (e : Env) (c : Port × Port × Port × Port) : Env :=
  (((e.cover n (some c.1)).cover n (some c.2.1)).cover n (some c.2.2.1)).cover n (some c.2.2.2)

def bind (e : Env) (i : ℕ) (p : Port) : Env := { e with binds := (i, p) :: e.binds }

def openCycle (e : Env) (i : ℕ) (p : Port) : Env := { e with cycs := (i, p) :: e.cycs }

def addSlot (e : Env) (p : Option Port) : Env := { e with slots := e.slots ++ [p] }

end Env

/-- The head and the tail of a cell. -/
def cellHead (n : Net) (c : Port × Port × Port × Port) : Option Port := n.wireAt ⟨c.2.2.2.node, 2⟩
def cellTail (n : Net) (c : Port × Port × Port × Port) : Option Port := n.wireAt ⟨c.2.2.1.node, 2⟩

/-- Each slot of a chain of `k` cells holds; a chain is followed no further than the net is large. -/
def Slots (n : Net) (holds : Option Port → Env → Env → Prop) : ℕ → Option Port → ℕ → Env → Env → Prop
  | 0, _, k, e, e' => k = 0 ∧ e' = e
  | f + 1, next, k, e, e' =>
    (cellNodes n next = none ∧ k = 0 ∧ e' = e) ∨
      ∃ c mid j, cellNodes n next = some c ∧ k = j + 1 ∧ holds (cellHead n c) (e.coverCell n c) mid ∧
        Slots n holds f (cellTail n c) j (mid.addSlot (cellHead n c)) e'

/-- The declared meaning of a pattern at a port. -/
def Holds (n : Net) : LinPat → Option Port → Env → Env → Prop
  | .pAny, p, e, e' => isLive n p = true ∧ e' = e.cover n p
  | .pTag t, p, e, e' => (∃ q, p = some q ∧ n.live q.node = true ∧ n.tag.get q.node = t) ∧ e' = e.cover n p
  | .pPred f, p, e, e' => (∃ q, p = some q ∧ n.live q.node = true ∧ f n q = true) ∧ e' = e.cover n p
  | .pAt k a, p, e, e' => portNo p = k ∧ Holds n a p e e'
  | .pPort k a, p, e, e' =>
    ∃ q, p = some q ∧ n.live q.node = true ∧ ∃ h : k < 3, Holds n a (n.wireAt ⟨q.node, ⟨k, h⟩⟩) (e.cover n p) e'
  | .pFan a, p, e, e' => Holds n a (skipDup n n.nn p) e e'
  | .pAll a b, p, e, e' => ∃ mid, Holds n a p e mid ∧ Holds n b p mid e'
  | .pBind i, p, e, e' =>
    ∃ q, p = some q ∧ n.live q.node = true ∧ i < patBinds ∧ e.binds.lookup i = none ∧ e' = (e.bind i q).cover n p
  | .pRef i, p, e, e' =>
    (∃ q r, p = some q ∧ n.live q.node = true ∧ e.binds.lookup i = some r ∧ r.node = q.node) ∧ e' = e.cover n p
  | .pNot a, p, e, e' => e' = e ∧ ∀ x, ¬Holds n a p e x
  | .pCycle i a, p, e, e' =>
    ∃ q, p = some q ∧ n.live q.node = true ∧ i < patCycles ∧
      ((∃ r, e.cycs.lookup i = some r ∧ r.node = q.node ∧ e' = e.cover n p) ∨
        e.cycs.lookup i = none ∧ Holds n a p ((e.openCycle i q).cover n p) e')
  | .pCycleRef i, p, e, e' =>
    (∃ q r, p = some q ∧ n.live q.node = true ∧ e.cycs.lookup i = some r ∧ r.node = q.node) ∧ e' = e.cover n p
  | .pSpine min max a, p, e, e' =>
    ((consAt n (skipDup n n.nn p)).isSome ∨ nilAt n (skipDup n n.nn p) = true) ∧
      ∃ k, Slots n (Holds n a) n.nn p k (e.cover n (skipDup n n.nn p)) e' ∧ min ≤ k ∧ ∀ x ∈ max, k ≤ x
  | .pSpineHead a b, p, e, e' =>
    ∃ c mid, cellNodes n p = some c ∧ Holds n a (cellHead n c) (e.coverCell n c) mid ∧
      Holds n b (cellTail n c) (mid.addSlot (cellHead n c)) e'

lemma slots_unique {n : Net} {holds : Option Port → Env → Env → Prop}
    (hu : ∀ p e x y, holds p e x → holds p e y → x = y) (f : ℕ) {next : Option Port} {k j : ℕ} {e x y : Env}
    (h : Slots n holds f next k e x) (h' : Slots n holds f next j e y) : k = j ∧ x = y := by
  induction f generalizing next k j e with
  | zero =>
    obtain ⟨rfl, rfl⟩ := h
    obtain ⟨rfl, rfl⟩ := h'
    exact ⟨rfl, rfl⟩
  | succ f ih =>
    rcases h with ⟨hc, rfl, rfl⟩ | ⟨c, mid, k, hc, rfl, ha, hrest⟩
    · rcases h' with ⟨-, rfl, rfl⟩ | ⟨c', -, -, hc', -⟩
      · exact ⟨rfl, rfl⟩
      · rw [hc] at hc'
        cases hc'
    · rcases h' with ⟨hc', -⟩ | ⟨c', mid', j, hc', rfl, ha', hrest'⟩
      · rw [hc] at hc'
        cases hc'
      · rw [hc] at hc'
        obtain rfl := Option.some.inj hc'
        obtain rfl := hu _ _ _ _ ha ha'
        obtain ⟨rfl, rfl⟩ := ih hrest hrest'
        exact ⟨rfl, rfl⟩

/-- A pattern holds in one way at most. -/
lemma holds_unique {n : Net} {pat : LinPat} {p : Option Port} {e x y : Env} (h : Holds n pat p e x) (h' : Holds n pat p e y) :
    x = y := by
  induction pat generalizing p e x y with
  | pAny | pTag t | pPred f | pRef i | pCycleRef i => exact h.2.trans h'.2.symm
  | pAt k a ih => exact ih h.2 h'.2
  | pPort k a ih =>
    obtain ⟨q, rfl, -, hk, h⟩ := h
    obtain ⟨q', hq, -, hk', h'⟩ := h'
    obtain rfl := Option.some.inj hq
    exact ih h h'
  | pFan a ih => exact ih h h'
  | pAll a b iha ihb =>
    obtain ⟨mid, ha, hb⟩ := h
    obtain ⟨mid', ha', hb'⟩ := h'
    obtain rfl := iha ha ha'
    exact ihb hb hb'
  | pBind i =>
    obtain ⟨q, rfl, -, -, -, rfl⟩ := h
    obtain ⟨q', hq, -, -, -, rfl⟩ := h'
    obtain rfl := Option.some.inj hq
    rfl
  | pNot a ih => exact h.1.trans h'.1.symm
  | pCycle i a ih =>
    obtain ⟨q, rfl, -, -, h⟩ := h
    obtain ⟨q', hq, -, -, h'⟩ := h'
    obtain rfl := Option.some.inj hq
    rcases h with ⟨r, hr, -, rfl⟩ | ⟨hr, h⟩
    · rcases h' with ⟨-, -, -, rfl⟩ | ⟨hnone, -⟩
      · rfl
      · rw [hr] at hnone
        cases hnone
    · rcases h' with ⟨r, hsome, -⟩ | ⟨-, h'⟩
      · rw [hr] at hsome
        cases hsome
      · exact ih h h'
  | pSpine min max a ih =>
    obtain ⟨-, k, h, -⟩ := h
    obtain ⟨-, j, h', -⟩ := h'
    have hu : ∀ p e x y, Holds n a p e x → Holds n a p e y → x = y := fun _ _ _ _ => ih
    exact (slots_unique hu n.nn h h').2
  | pSpineHead a b iha ihb =>
    obtain ⟨c, mid, hc, ha, hb⟩ := h
    obtain ⟨c', mid', hc', ha', hb'⟩ := h'
    rw [hc] at hc'
    obtain rfl := Option.some.inj hc'
    obtain rfl := iha ha ha'
    exact ihb hb hb'

/-- Nothing bound, counted or covered is lost or changed. -/
structure Extends (e e' : Env) : Prop where
  binds : ∀ i q, e.binds.lookup i = some q → e'.binds.lookup i = some q
  cycs : ∀ i q, e.cycs.lookup i = some q → e'.cycs.lookup i = some q
  slots : e.slots <+: e'.slots
  covered : e.covered <+: e'.covered

lemma Extends.refl (e : Env) : Extends e e := ⟨fun _ _ => id, fun _ _ => id, List.prefix_rfl, List.prefix_rfl⟩

lemma Extends.trans {e₁ e₂ e₃ : Env} (h : Extends e₁ e₂) (h' : Extends e₂ e₃) : Extends e₁ e₃ :=
  ⟨fun i q hq => h'.binds i q (h.binds i q hq), fun i q hq => h'.cycs i q (h.cycs i q hq), h.slots.trans h'.slots,
    h.covered.trans h'.covered⟩

lemma extends_cover (n : Net) (e : Env) (p : Option Port) : Extends e (e.cover n p) := by
  unfold Env.cover Env.coverNode
  split
  · exact .refl e
  · split_ifs
    · exact .refl e
    · exact ⟨fun _ _ => id, fun _ _ => id, List.prefix_rfl, List.prefix_append _ _⟩

lemma extends_coverCell (n : Net) (e : Env) (c : Port × Port × Port × Port) : Extends e (e.coverCell n c) :=
  (((extends_cover n _ _).trans (extends_cover n _ _)).trans (extends_cover n _ _)).trans (extends_cover n _ _)

lemma extends_addSlot (e : Env) (p : Option Port) : Extends e (e.addSlot p) :=
  ⟨fun _ _ => id, fun _ _ => id, List.prefix_append _ _, List.prefix_rfl⟩

lemma lookup_cons_self (i : ℕ) (q : Port) (l : List (ℕ × Port)) : ((i, q) :: l).lookup i = some q := by
  simp

lemma lookup_cons_ne {i j : ℕ} (h : j ≠ i) (q : Port) (l : List (ℕ × Port)) : ((i, q) :: l).lookup j = l.lookup j := by
  rw [List.lookup_cons, beq_eq_false_iff_ne.mpr h]

lemma lookup_cons_of_none {i : ℕ} {l : List (ℕ × Port)} (h : l.lookup i = none) (p : Port) (j : ℕ) (q : Port)
    (hq : l.lookup j = some q) : ((i, p) :: l).lookup j = some q := by
  have hne : j ≠ i := by
    rintro rfl
    rw [h] at hq
    cases hq
  rwa [lookup_cons_ne hne]

lemma extends_slots {n : Net} {holds : Option Port → Env → Env → Prop} (hext : ∀ p e x, holds p e x → Extends e x) (f : ℕ)
    {next : Option Port} {k : ℕ} {e x : Env} (h : Slots n holds f next k e x) : Extends e x := by
  induction f generalizing next k e with
  | zero => exact h.2 ▸ .refl e
  | succ f ih =>
    rcases h with ⟨-, -, rfl⟩ | ⟨c, mid, j, -, -, ha, hrest⟩
    · exact .refl x
    · exact (((extends_coverCell n e c).trans (hext _ _ _ ha)).trans (extends_addSlot mid _)).trans (ih hrest)

/-- What a reference was tested against is there at the end. -/
theorem holds_extends {n : Net} {pat : LinPat} {p : Option Port} {e x : Env} (h : Holds n pat p e x) : Extends e x := by
  induction pat generalizing p e x with
  | pAny | pTag t | pPred f | pRef i | pCycleRef i => exact h.2 ▸ extends_cover n e p
  | pAt k a ih => exact ih h.2
  | pPort k a ih =>
    obtain ⟨q, -, -, hk, h⟩ := h
    exact (extends_cover n e p).trans (ih h)
  | pFan a ih => exact ih h
  | pAll a b iha ihb =>
    obtain ⟨mid, ha, hb⟩ := h
    exact (iha ha).trans (ihb hb)
  | pBind i =>
    obtain ⟨q, -, -, -, hnone, rfl⟩ := h
    have hbind : Extends e (e.bind i q) := ⟨lookup_cons_of_none hnone q, fun _ _ => id, List.prefix_rfl, List.prefix_rfl⟩
    exact hbind.trans (extends_cover n _ p)
  | pNot a ih => exact h.1 ▸ .refl e
  | pCycle i a ih =>
    obtain ⟨q, -, -, -, ⟨r, -, -, rfl⟩ | ⟨hnone, h⟩⟩ := h
    · exact extends_cover n e p
    · have hopen : Extends e (e.openCycle i q) :=
        ⟨fun _ _ => id, lookup_cons_of_none hnone q, List.prefix_rfl, List.prefix_rfl⟩
      exact (hopen.trans (extends_cover n _ p)).trans (ih h)
  | pSpine min max a ih =>
    obtain ⟨-, k, h, -⟩ := h
    exact (extends_cover n e _).trans (extends_slots (fun _ _ _ => ih) n.nn h)
  | pSpineHead a b iha ihb =>
    obtain ⟨c, mid, -, ha, hb⟩ := h
    exact (((extends_coverCell n e c).trans (iha ha)).trans (extends_addSlot mid _)).trans (ihb hb)

/-! ## A matcher that says when it is stopped -/

/-- It holds, with what is after; it does not, with what it had when that showed; or it was
stopped, by a limit or, under a negation, by what would not be undone. What is left of the budget comes last. -/
inductive Trial
  | yes (e : Env) (b : ℕ)
  | no (e : Env) (b : ℕ)
  | out
  | spoiled
  deriving DecidableEq, Repr

def Trial.andThen : Trial → (Env → ℕ → Trial) → Trial
  | .yes e b, k => k e b
  | .no e b, _ => .no e b
  | .out, _ => .out
  | .spoiled, _ => .spoiled

/-- One test, from `e` to `e'`. -/
def test (c : Prop) [Decidable c] (e e' : Env) (b : ℕ) : Trial := if c then .yes e' b else .no e b

/-- One past the highest index. -/
def top : List (ℕ × Port) → ℕ
  | [] => 0
  | x :: l => max (top l) (x.1 + 1)

/-- A counter or the overflow flag tells `e'` from `e`. -/
def Marked (e e' : Env) : Prop :=
  ¬(top e'.binds = top e.binds ∧ top e'.cycs = top e.cycs ∧
    decide (patNodes < e'.covered.length) = decide (patNodes < e.covered.length))

instance (e e' : Env) : Decidable (Marked e e') := inferInstanceAs (Decidable ¬_)

def tryEnter (run : ℕ → Option Port → Env → ℕ → Trial) (nin : ℕ) (p : Option Port) (e : Env) (b : ℕ) : Trial :=
  if b = 0 ∨ linPatDepth ≤ nin then .out else run (nin + 1) p e (b - 1)

def trySlots (n : Net) (sub : Option Port → Env → ℕ → Trial) : ℕ → ℕ → Option Port → Env → ℕ → ℕ × Trial
  | 0, k, _, e, b => (k, .yes e b)
  | f + 1, k, next, e, b =>
    if b = 0 then (k, .out)
    else
      match cellNodes n next with
      | none => (k, .yes e (b - 1))
      | some c =>
        match sub (cellHead n c) (e.coverCell n c) (b - 1) with
        | .yes e b => trySlots n sub f (k + 1) (cellTail n c) (e.addSlot (cellHead n c)) b
        | t => (k, t)

/-- A pattern as one of `nin` in progress, with a budget of `b`. -/
def attempt (n : Net) : LinPat → ℕ → Option Port → Env → ℕ → Trial
  | .pAny, _, p, e, b => test (isLive n p = true) e (e.cover n p) b
  | .pTag t, _, p, e, b => test (∃ q ∈ p, n.live q.node = true ∧ n.tag.get q.node = t) e (e.cover n p) b
  | .pPred f, _, p, e, b => test (∃ q ∈ p, n.live q.node = true ∧ f n q = true) e (e.cover n p) b
  | .pAt k a, nin, p, e, b => if portNo p = k then tryEnter (attempt n a) nin p e b else .no e b
  | .pPort k a, nin, p, e, b =>
    match p.filter fun q => n.live q.node with
    | none => .no e b
    | some q => if h : k < 3 then tryEnter (attempt n a) nin (n.wireAt ⟨q.node, ⟨k, h⟩⟩) (e.cover n p) b else .no e b
  | .pFan a, nin, p, e, b => tryEnter (attempt n a) nin (skipDup n n.nn p) e b
  | .pAll a b, nin, p, e, left => (tryEnter (attempt n a) nin p e left).andThen (tryEnter (attempt n b) nin p)
  | .pBind i, _, p, e, b =>
    match p.filter fun q => n.live q.node with
    | none => .no e b
    | some q => test (i < patBinds ∧ e.binds.lookup i = none) e ((e.bind i q).cover n p) b
  | .pRef i, _, p, e, b =>
    test (∃ q ∈ p, n.live q.node = true ∧ ∃ r ∈ e.binds.lookup i, r.node = q.node) e (e.cover n p) b
  | .pNot a, nin, p, e, b =>
    match tryEnter (attempt n a) nin p e b with
    | .yes e' b => .no e' b
    | .no e' b => if Marked e e' then .spoiled else .yes e b
    | _ => .spoiled
  | .pCycle i a, nin, p, e, b =>
    match p.filter fun q => n.live q.node with
    | none => .no e b
    | some q =>
      if patCycles ≤ i then .no e b
      else
        match e.cycs.lookup i with
        | some r => test (r.node = q.node) e (e.cover n p) b
        | none => tryEnter (attempt n a) nin p ((e.openCycle i q).cover n p) b
  | .pCycleRef i, _, p, e, b =>
    test (∃ q ∈ p, n.live q.node = true ∧ ∃ r ∈ e.cycs.lookup i, r.node = q.node) e (e.cover n p) b
  | .pSpine min max a, nin, p, e, b =>
    if (consAt n (skipDup n n.nn p)).isSome ∨ nilAt n (skipDup n n.nn p) = true then
      let r := trySlots n (tryEnter (attempt n a) nin) n.nn 0 p (e.cover n (skipDup n n.nn p)) b
      r.2.andThen fun e b => test (min ≤ r.1 ∧ ∀ x ∈ max, r.1 ≤ x) e e b
    else .no e b
  | .pSpineHead a b, nin, p, e, left =>
    if left = 0 then .out
    else
      match cellNodes n p with
      | none => .no e (left - 1)
      | some c =>
        (tryEnter (attempt n a) nin (cellHead n c) (e.coverCell n c) (left - 1)).andThen fun e left =>
          tryEnter (attempt n b) nin (cellTail n c) (e.addSlot (cellHead n c)) left

/-! ## The matcher that says so decides the meaning -/

/-- What a trial tells of a meaning. -/
def Decides (t : Trial) (holds : Env → Prop) : Prop :=
  match t with
  | .yes e' _ => holds e'
  | .no _ _ => ∀ x, ¬holds x
  | .out => True
  | .spoiled => True

lemma decides_test {c : Prop} [Decidable c] {e e' : Env} {b : ℕ} {holds : Env → Prop} (h : ∀ x, holds x ↔ c ∧ x = e') :
    Decides (test c e e' b) holds := by
  unfold test
  split_ifs with hc
  · exact (h e').mpr ⟨hc, rfl⟩
  · exact fun x hx => hc ((h x).mp hx).1

lemma Decides.congr {t : Trial} {holds holds' : Env → Prop} (h : Decides t holds) (hiff : ∀ x, holds' x ↔ holds x) :
    Decides t holds' := by
  rwa [funext fun x => propext (hiff x)]

lemma liveAt_none {n : Net} {p : Option Port} (h : (p.filter fun q => n.live q.node) = none) (q : Port) (hq : p = some q) :
    n.live q.node ≠ true := by
  subst hq
  simpa [Option.filter] using h

lemma liveAt_some {n : Net} {p : Option Port} {q : Port} (h : (p.filter fun q => n.live q.node) = some q) :
    p = some q ∧ n.live q.node = true := Option.filter_eq_some_iff.mp h

lemma decides_andThen {t : Trial} {k : Env → ℕ → Trial} {first holds : Env → Prop} {next : Env → Env → Prop}
    (ht : Decides t first) (hk : ∀ e b, Decides (k e b) (next e)) (hu : ∀ x y, first x → first y → x = y)
    (h : ∀ x, holds x ↔ ∃ mid, first mid ∧ next mid x) : Decides (t.andThen k) holds := by
  cases t with
  | yes e b =>
    have hnext := hk e b
    have hfirst : first e := ht
    rw [Trial.andThen]
    cases hr : k e b with
    | yes e' b' =>
      rw [hr] at hnext
      exact (h e').mpr ⟨e, hfirst, hnext⟩
    | no e' b' =>
      rw [hr] at hnext
      intro x hx
      obtain ⟨mid, hmid, hx⟩ := (h x).mp hx
      obtain rfl := hu _ _ hfirst hmid
      exact hnext x hx
    | out => trivial
    | spoiled => trivial
  | no e b =>
    intro x hx
    obtain ⟨mid, hmid, -⟩ := (h x).mp hx
    exact ht mid hmid
  | out => trivial
  | spoiled => trivial

lemma decides_enter {run : ℕ → Option Port → Env → ℕ → Trial} {holds : Option Port → Env → Env → Prop}
    (hrun : ∀ nin p e b, Decides (run nin p e b) (holds p e)) (nin : ℕ) (p : Option Port) (e : Env) (b : ℕ) :
    Decides (tryEnter run nin p e b) (holds p e) := by
  unfold tryEnter
  split_ifs
  · trivial
  · exact hrun _ _ _ _

lemma decides_slots {n : Net} {sub : Option Port → Env → ℕ → Trial} {holds : Option Port → Env → Env → Prop}
    (hsub : ∀ p e b, Decides (sub p e b) (holds p e)) (hu : ∀ p e x y, holds p e x → holds p e y → x = y)
    (f k : ℕ) (next : Option Port) (e : Env) (b : ℕ) :
    (∀ j e' b', trySlots n sub f k next e b = (j, .yes e' b') → ∃ i, j = k + i ∧ Slots n holds f next i e e') ∧
      ∀ j e' b', trySlots n sub f k next e b = (j, .no e' b') → ∀ i x, ¬Slots n holds f next i e x := by
  induction f generalizing k next e b with
  | zero =>
    refine ⟨fun j e' b' h => ?_, fun j e' b' h => ?_⟩
    · cases h
      exact ⟨0, rfl, rfl, rfl⟩
    · cases h
  | succ f ih =>
    unfold trySlots
    split_ifs
    · exact ⟨fun _ _ _ h => (by cases h), fun _ _ _ h => (by cases h)⟩
    cases hc : cellNodes n next with
    | none =>
      refine ⟨fun j e' b' h => ?_, fun _ _ _ h => (by cases h)⟩
      cases h
      exact ⟨0, rfl, Or.inl ⟨hc, rfl, rfl⟩⟩
    | some c =>
      have hs := hsub (cellHead n c) (e.coverCell n c) (b - 1)
      dsimp only
      cases ht : sub (cellHead n c) (e.coverCell n c) (b - 1) with
      | out => exact ⟨fun _ _ _ h => (by cases h), fun _ _ _ h => (by cases h)⟩
      | spoiled => exact ⟨fun _ _ _ h => (by cases h), fun _ _ _ h => (by cases h)⟩
      | no e₁ b₁ =>
        rw [ht] at hs
        refine ⟨fun _ _ _ h => (by cases h), fun _ _ _ _ i x hslots => ?_⟩
        rcases hslots with ⟨hnone, -⟩ | ⟨c', mid, i, hc', -, hmid, -⟩
        · rw [hc] at hnone
          cases hnone
        · rw [hc] at hc'
          obtain rfl := Option.some.inj hc'
          exact hs mid hmid
      | yes e₁ b₁ =>
        rw [ht] at hs
        obtain ⟨hyes, hno⟩ := ih (k + 1) (cellTail n c) (e₁.addSlot (cellHead n c)) b₁
        refine ⟨fun j e' b' h => ?_, fun j e' b' h i x hslots => ?_⟩
        · obtain ⟨i, rfl, hslots⟩ := hyes j e' b' h
          exact ⟨i + 1, by omega, Or.inr ⟨c, e₁, i, hc, rfl, hs, hslots⟩⟩
        · rcases hslots with ⟨hnone, -⟩ | ⟨c', mid, i, hc', -, hmid, hrest⟩
          · rw [hc] at hnone
            cases hnone
          · rw [hc] at hc'
            obtain rfl := Option.some.inj hc'
            obtain rfl := hu _ _ _ _ hmid hs
            exact hno j e' b' h i x hrest

lemma decides_attempt (n : Net) (pat : LinPat) (nin : ℕ) (p : Option Port) (e : Env) (b : ℕ) :
    Decides (attempt n pat nin p e b) (Holds n pat p e) := by
  induction pat generalizing nin p e b with
  | pAny => exact decides_test fun x => Iff.rfl
  | pTag t => exact decides_test fun x => Iff.rfl
  | pPred f => exact decides_test fun x => Iff.rfl
  | pRef i | pCycleRef i =>
    refine decides_test fun x => and_congr_left fun _ => ?_
    simp only [Option.mem_def]
    constructor
    · rintro ⟨q, r, hq, hl, hr, hnode⟩
      exact ⟨q, hq, hl, r, hr, hnode⟩
    · rintro ⟨q, hq, hl, r, hr, hnode⟩
      exact ⟨q, r, hq, hl, hr, hnode⟩
  | pAt k a ih =>
    unfold attempt
    split_ifs with hk
    · exact (decides_enter ih nin p e b).congr fun x => and_iff_right hk
    · exact fun x hx => hk hx.1
  | pPort k a ih =>
    unfold attempt
    cases hp : p.filter fun q => n.live q.node with
    | none =>
      rintro x ⟨q, hq, hl, -⟩
      exact liveAt_none hp q hq hl
    | some q =>
      obtain ⟨rfl, hl⟩ := liveAt_some hp
      dsimp only
      split_ifs with hk
      · refine (decides_enter ih nin _ _ b).congr fun x => ⟨?_, fun h => ⟨q, rfl, hl, hk, h⟩⟩
        rintro ⟨q', hq, _, _, h⟩
        obtain rfl := Option.some.inj hq
        exact h
      · rintro x ⟨-, -, -, hk', -⟩
        exact hk hk'
  | pFan a ih => exact decides_enter ih nin _ e b
  | pAll a b iha ihb =>
    exact decides_andThen (decides_enter iha nin p e _) (fun e b => decides_enter ihb nin p e b)
      (fun _ _ => holds_unique) fun x => Iff.rfl
  | pBind i =>
    unfold attempt
    cases hp : p.filter fun q => n.live q.node with
    | none =>
      rintro x ⟨q, hq, hl, -⟩
      exact liveAt_none hp q hq hl
    | some q =>
      obtain ⟨rfl, hl⟩ := liveAt_some hp
      refine decides_test fun x => ⟨?_, fun h => ⟨q, rfl, hl, h.1.1, h.1.2, h.2⟩⟩
      rintro ⟨q', hq, -, hi, hnone, rfl⟩
      obtain rfl := Option.some.inj hq
      exact ⟨⟨hi, hnone⟩, rfl⟩
  | pNot a ih =>
    have h := decides_enter ih nin p e b
    unfold attempt
    cases ht : tryEnter (attempt n a) nin p e b with
    | yes e' b' =>
      rw [ht] at h
      exact fun x hx => hx.2 e' h
    | no e' b' =>
      rw [ht] at h
      dsimp only
      split_ifs
      · trivial
      · exact ⟨rfl, h⟩
    | out => trivial
    | spoiled => trivial
  | pCycle i a ih =>
    unfold attempt
    cases hp : p.filter fun q => n.live q.node with
    | none =>
      rintro x ⟨q, hq, hl, -⟩
      exact liveAt_none hp q hq hl
    | some q =>
      obtain ⟨rfl, hl⟩ := liveAt_some hp
      dsimp only
      split_ifs with hi
      · rintro x ⟨-, -, -, hi', -⟩
        omega
      cases hr : e.cycs.lookup i with
      | some r =>
        refine decides_test fun x => ⟨?_, fun h => ⟨q, rfl, hl, Nat.not_le.mp hi, Or.inl ⟨r, hr, h⟩⟩⟩
        rintro ⟨q', hq, -, -, ⟨r', hr', h⟩ | ⟨hnone, -⟩⟩
        · obtain rfl := Option.some.inj hq
          rw [hr] at hr'
          obtain rfl := Option.some.inj hr'
          exact h
        · rw [hr] at hnone
          cases hnone
      | none =>
        refine (decides_enter ih nin _ _ b).congr fun x => ⟨?_, fun h => ⟨q, rfl, hl, Nat.not_le.mp hi, Or.inr ⟨hr, h⟩⟩⟩
        rintro ⟨q', hq, -, -, ⟨r, hr', -⟩ | ⟨-, h⟩⟩
        · rw [hr] at hr'
          cases hr'
        · obtain rfl := Option.some.inj hq
          exact h
  | pSpine min max a ih =>
    have hu : ∀ p e x y, Holds n a p e x → Holds n a p e y → x = y := fun _ _ _ _ => holds_unique
    unfold attempt
    split_ifs with hstart
    · have h := decides_slots (n := n) (fun p e b => decides_enter ih nin p e b) hu n.nn 0 p (e.cover n (skipDup n n.nn p)) b
      dsimp only
      rcases hr : trySlots n (tryEnter (attempt n a) nin) n.nn 0 p (e.cover n (skipDup n n.nn p)) b with ⟨k, t⟩
      cases t with
      | yes e' b' =>
        obtain ⟨i, rfl, hslots⟩ := h.1 k e' b' hr
        refine decides_test fun x => ⟨?_, ?_⟩
        · rintro ⟨-, j, hslots', hmin, hmax⟩
          obtain ⟨rfl, rfl⟩ := slots_unique hu n.nn hslots' hslots
          rw [Nat.zero_add]
          exact ⟨⟨hmin, hmax⟩, rfl⟩
        · rintro ⟨hbounds, rfl⟩
          rw [Nat.zero_add] at hbounds
          exact ⟨hstart, i, hslots, hbounds⟩
      | no e' b' =>
        rintro x ⟨-, i, hslots, -⟩
        exact h.2 k e' b' hr i x hslots
      | out => trivial
      | spoiled => trivial
    · exact fun x hx => hstart hx.1
  | pSpineHead a b iha ihb =>
    unfold attempt
    split_ifs
    · trivial
    cases hc : cellNodes n p with
    | none =>
      rintro x ⟨c, -, hc', -⟩
      rw [hc] at hc'
      cases hc'
    | some c =>
      refine decides_andThen (decides_enter iha nin _ _ _) (fun e b => decides_enter ihb nin (cellTail n c) (e.addSlot (cellHead n c)) b)
        (fun _ _ => holds_unique) fun x => ⟨?_, ?_⟩
      · rintro ⟨c', mid, hc', ha, hb⟩
        rw [hc] at hc'
        obtain rfl := Option.some.inj hc'
        exact ⟨mid, ha, hb⟩
      · rintro ⟨mid, ha, hb⟩
        exact ⟨c, mid, hc, ha, hb⟩

end LinEngine.Matching
