import LinEngine.Collect
import LinEngine.Runs
import LinEngine.Wave

/-!
# The reducer

`net_reduce` without drivers, on one thread: each wave marks demand, fires the demanded
pairs in order and publishes the freed slots; the outermost call may collect in between.
`net_force` registers a demand root, reduces and truncates the roots to their old number.
A run logs the nodes whose demand roots it drops.
-/
namespace LinEngine

/-- A net with the number of rules that fired, and the nodes whose roots were dropped. -/
structure Run where
  net : Net
  changed : ℕ
  gone : List ℕ

/-- Fire a pair of the wave; a rule that declines leaves the pair queued. -/
def fireStep (g : Globals) (r : Run) (a : Port × Port) : Run :=
  if !redexLive r.net a.1 a.2 then r
  else
    let i := netInteract g r.net a.1 a.2
    let n := if i.1 then i.2 else if bothAlive i.2 a then actPush i.2 a.1 a.2 else i.2
    ⟨{ n with steps := n.steps + 1 }, if i.1 then r.changed + 1 else r.changed,
      if i.1 then r.gone ++ [a.1.node, a.2.node] else r.gone⟩

/-- One wave over the pairs that the demand walk took out of the queue. -/
def reduceWave (g : Globals) (r : Run) : Run :=
  let d := netMarkDemand g r.net
  let base := d.2.filter fun a => d.1.dem.get a.1.node == d.1.demStamp && d.1.dem.get a.2.node == d.1.demStamp
  let w := base.foldl (fireStep g) ⟨d.1, r.changed, r.gone⟩
  { w with net := netFlushFree g w.net }

/-- Waves as long as there are queued pairs and the last wave fired a rule. -/
def reduceWaves (g : Globals) (limit : ℕ) : ℕ → Run → Run
  | 0, r => r
  | fuel + 1, r =>
    if 0 < r.net.atop ∧ r.net.steps < limit then
      let w := reduceWave g r
      if w.changed = r.changed then w else reduceWaves g limit fuel w
    else r

/-- How many slots are in use. -/
def Net.inUse (n : Net) : ℤ := n.nn - n.nfree

/-- The safepoint of a reduction, where the outermost one may collect. -/
def collects (g : Globals) (gcmark : ℤ) (n : Net) : Bool :=
  g.reduceDepth == 1 && n.pins == 0 && n.freeHead.isNone && decide (gcmark < n.inUse)

/-- The roots of dead nodes that a collection drops. -/
def deadRoots (n : Net) : List ℕ := if n.nn ≤ 1 then [] else (n.root.map (·.node)).filter n.dead.get

def reduceLoop (g : Globals) (limit : ℕ) : ℕ → ℤ → Run → Run
  | 0, _, r => r
  | fuel + 1, gcmark, r =>
    if r.net.steps < limit then
      let w := reduceWaves g limit (limit - r.net.steps) { r with changed := 0 }
      let gc := collects g gcmark w.net
      let w' : Run := if gc then { w with net := netGc w.net, gone := w.gone ++ deadRoots w.net } else w
      let gcmark := if gc then w'.net.inUse * 2 + 64 else gcmark
      if w.changed = 0 then w' else reduceLoop g limit fuel gcmark w'
    else r

/-- The mark below which nothing is collected: `LIN_GC`, or what is in use. -/
def firstMark (gcenv : Option ℕ) (n : Net) : ℤ := (gcenv.map Int.ofNat).getD (n.inUse * 2 + 64)

/-- `net_reduce` with its log. -/
def reduceRun (g : Globals) (gcenv : Option ℕ) (limit : ℕ) (n : Net) : Run :=
  let g := { g with reduceDepth := g.reduceDepth + 1 }
  let r := reduceLoop g limit (limit - n.steps) (firstMark gcenv n) ⟨n, 0, []⟩
  { r with net := netFlushFree g r.net }

def netReduce (g : Globals) (gcenv : Option ℕ) (limit : ℕ) (n : Net) : Net := (reduceRun g gcenv limit n).net

/-- A dead port, or a bare binder that nothing faces. -/
def portWhnf (n : Net) (p : Port) : Bool :=
  if !n.live p.node then true
  else if n.tag.get p.node ≠ .lam ∨ p.port ≠ 0 then false
  else !((n.wireAt p).any fun q =>
    n.live q.node && q.port == 0 && (n.tag.get q.node == .app || n.tag.get q.node == .dup))

/-- How many steps a force may take. -/
def forceSteps : ℕ := 2 ^ 22

/-- The reduction that `net_force` runs. -/
def forceRun (g : Globals) (gcenv : Option ℕ) (n : Net) (p : Port) : Run :=
  reduceRun g gcenv (n.steps + forceSteps) (linDemand n p)

def netForce (g : Globals) (gcenv : Option ℕ) (n : Net) (p : Port) : Net :=
  if portWhnf n p then n
  else
    let m := (forceRun g gcenv n p).net
    { m with root := m.root.take n.root.length }

/-! ## The demand roots -/

/-- The demand roots, the step count and the pins are the same. -/
structure SameRoots (n m : Net) : Prop where
  root : m.root = n.root
  steps : m.steps = n.steps
  pins : m.pins = n.pins

section Roots

variable {g : Globals} {n m k : Net}

lemma SameRoots.refl (n : Net) : SameRoots n n := ⟨rfl, rfl, rfl⟩

lemma SameRoots.trans (h : SameRoots n m) (h' : SameRoots m k) : SameRoots n k :=
  ⟨h'.root.trans h.root, h'.steps.trans h.steps, h'.pins.trans h.pins⟩

lemma roots_setWire (n : Net) (p : Port) (w : Option Port) : SameRoots n (n.setWire p w) := ⟨rfl, rfl, rfl⟩

lemma roots_actPush (n : Net) (a b : Port) : SameRoots n (actPush n a b) := by
  unfold actPush
  split_ifs <;> exact ⟨rfl, rfl, rfl⟩

lemma roots_actDrop (g : Globals) (n : Net) (v : ℕ) : SameRoots n (actDrop g n v) := by
  unfold actDrop
  split
  · exact .refl n
  · dsimp only
    split_ifs <;> exact ⟨rfl, rfl, rfl⟩

lemma roots_netAlloc (g : Globals) (n : Net) (t : Tag) (sc : ℕ) : SameRoots n (netAlloc g n t sc).2 := by
  unfold netAlloc
  split <;> exact ⟨rfl, rfl, rfl⟩

lemma roots_releasePort (s : Net × List ℕ) (p : Port) : SameRoots s.1 (releasePort s p).1 := by
  unfold releasePort
  dsimp only
  split
  · exact ⟨rfl, rfl, rfl⟩
  · split_ifs <;> exact ⟨rfl, rfl, rfl⟩

lemma roots_releaseLoop (fuel : ℕ) (st : List ℕ) (n : Net) : SameRoots n (releaseLoop fuel st n) := by
  induction fuel generalizing st n with
  | zero => exact .refl n
  | succ fuel ih =>
    cases st with
    | nil => exact .refl n
    | cons u st =>
      have hports : ∀ (ps : List Port) (s : Net × List ℕ), SameRoots s.1 (ps.foldl releasePort s).1 := by
        intro ps
        induction ps with
        | nil => exact fun s => .refl s.1
        | cons p ps ihp => exact fun s => (roots_releasePort s p).trans (ihp (releasePort s p))
      have hpend : SameRoots ((portsOf u).foldl releasePort (n, st)).1
          (pendPush ((portsOf u).foldl releasePort (n, st)).1 u) := ⟨rfl, rfl, rfl⟩
      exact ((hports (portsOf u) (n, st)).trans hpend).trans (ih _ _)

lemma roots_netRelease (g : Globals) (n : Net) (v : ℕ) : SameRoots n (netRelease g n v) := by
  unfold netRelease
  split_ifs
  · exact .refl n
  · exact .refl n
  · exact .refl n
  · have hmark : SameRoots n { n with dead := n.dead.set v true } := ⟨rfl, rfl, rfl⟩
    exact (hmark.trans (roots_actDrop g _ v)).trans (roots_releaseLoop _ _ _)

end Roots

/-! ## What a rule does before it retires its pair -/

/-- A relation between nets that wiring and reclamation respect. -/
structure Linking (g : Globals) (R : Net → Net → Prop) : Prop where
  refl : ∀ n, R n n
  trans : ∀ {n m k}, R n m → R m k → R n k
  wire : ∀ n p w, R n (n.setWire p w)
  push : ∀ n a b, R n (actPush n a b)
  thread : ∀ n t, R n { n with tact := t }
  release : ∀ n v, R n (netRelease g n v)

/-- A relation between nets that the primitives of a rule respect. -/
structure Primitive (g : Globals) (R : Net → Net → Prop) : Prop extends Linking g R where
  alloc : ∀ n t sc, R n (netAlloc g n t sc).2
  levels : ∀ n ls, R n { n with levels := ls }

namespace Linking

variable {g : Globals} {R : Net → Net → Prop}

lemma foldl (h : Linking g R) {α : Type*} {f : Net → α → Net} (hf : ∀ n x, R n (f n x)) (xs : List α) (n : Net) :
    R n (xs.foldl f n) := by
  induction xs generalizing n with
  | nil => exact h.refl n
  | cons x xs ih => exact h.trans (hf n x) (ih (f n x))

lemma netLink (h : Linking g R) (n : Net) (a b : Option Port) (e : Bool) : R n (netLink g n a b e) := by
  unfold LinEngine.netLink
  split
  · dsimp only
    split_ifs
    · exact h.trans (h.wire n _ _) (h.trans (h.wire _ _ _) (h.thread _ _))
    · exact h.trans (h.wire n _ _) (h.trans (h.wire _ _ _) (h.push _ _ _))
    · exact h.trans (h.wire n _ _) (h.wire _ _ _)
  · exact h.refl n

lemma netSever (h : Linking g R) (n : Net) (p : Port) : R n (netSever g n p) := by
  have hrel : ∀ (m : Net) (c : Prop) [Decidable c] (v : ℕ), R m (if c then netRelease g m v else m) := by
    intro m c _ v
    split_ifs
    · exact h.release m v
    · exact h.refl m
  unfold LinEngine.netSever
  split_ifs
  · exact h.refl n
  · dsimp only
    split
    · exact h.trans (h.wire n p none) (hrel _ _ _)
    · refine h.trans (h.trans (h.wire n p none) ?_) (h.trans (hrel _ _ _) (hrel _ _ _))
      split_ifs
      · exact h.wire _ _ _
      · exact h.refl _

lemma pairBoundary (h : Linking g R) (n : Net) (a b : ℕ) (cor : List (ℕ × ℕ)) : R n (pairBoundary g n a b cor) := by
  refine h.foldl (fun n cls => ?_) _ n
  unfold joinClass
  dsimp only
  split
  · exact h.netSever n _
  · exact h.netLink n _ _ _
  · exact h.refl n

lemma linkCopies (h : Linking g R) (n : Net) (a b : ℕ) (t : Fin 4 → Option Port) (cp : Fin 4 → ℕ) :
    R n (linkCopies g n a b t cp) := by
  have hshort : ∀ (ks : List (Fin 4)) (s : Net × List (Fin 4)), R s.1 (ks.foldl (shortStep g (fun k => auxIndex a b (t k)) cp) s).1 := by
    intro ks
    induction ks with
    | nil => exact fun s => h.refl s.1
    | cons k ks ih =>
      intro s
      refine h.trans ?_ (ih _)
      unfold shortStep
      split
      · exact h.refl _
      · split_ifs
        · exact h.refl _
        · dsimp only
          exact h.netLink s.1 _ _ true
  refine h.trans (hshort (List.finRange 4) (n, [])) (h.foldl (fun n k => ?_) _ _)
  split_ifs
  · exact h.refl n
  · exact h.netLink n _ _ _

end Linking

namespace Primitive

variable {g : Globals} {R : Net → Net → Prop}

lemma split2 (h : Primitive g R) (n : Net) (t1 : Tag) (sa sb : ℕ) (t2 : Tag) (s2 : ℕ) :
    R n (split2 g n t1 sa sb t2 s2).2 := by
  unfold LinEngine.split2
  dsimp only
  refine h.trans (h.trans (h.trans (h.alloc n t1 sa) (h.alloc _ t1 sb)) (h.trans (h.alloc _ t2 s2) (h.alloc _ t2 s2))) ?_
  exact h.trans (h.trans (h.netLink _ _ _ _) (h.netLink _ _ _ _)) (h.trans (h.netLink _ _ _ _) (h.netLink _ _ _ _))

lemma lvIntern (h : Primitive g R) (n : Net) (parent bit : ℕ) : R n (lvIntern n parent bit).2 := by
  unfold LinEngine.lvIntern
  dsimp only
  split_ifs
  · exact h.refl n
  · exact h.levels n _
  · exact h.levels n _

lemma lvlPrefix2 (h : Primitive g R) (n : Net) (gen a b : ℕ) : R n (lvlPrefix2 n gen a b).2 := by
  have hpath : ∀ (bs : List ℕ) (n : Net) (cur : ℕ), R n (lvInternPath n cur bs).2 := by
    intro bs
    induction bs with
    | nil => exact fun n _ => h.refl n
    | cons b bs ih => exact fun n cur => h.trans (h.lvIntern n cur b) (ih _ _)
  exact h.trans (h.lvIntern n 0 gen) (hpath _ _ _)

/-- A rule that fires ends by retiring its pair. -/
lemma interactSorted_cases (h : Primitive g R) (n : Net) (a b : ℕ) :
    interactSorted g n a b = (false, n) ∨ ∃ m, R n m ∧ interactSorted g n a b = (true, retire g m a b) := by
  unfold interactSorted
  split
  · exact .inr ⟨_, h.pairBoundary n a b _, rfl⟩
  · dsimp only
    split_ifs
    · exact .inr ⟨_, h.pairBoundary n a b _, rfl⟩
    · exact .inr ⟨_, h.trans (h.split2 n _ _ _ _ _) (h.linkCopies _ a b _ _), rfl⟩
  · dsimp only
    split_ifs
    · exact .inr ⟨_, h.trans (h.trans (h.lvlPrefix2 n _ _ _) (h.lvlPrefix2 _ _ _ _))
        (h.trans (h.split2 _ _ _ _ _ _) (h.linkCopies _ a b _ _)), rfl⟩
    · exact .inl rfl
  · exact .inl rfl

/-- So does a call on a pair in either order. -/
lemma netInteract_cases (h : Primitive g R) (n : Net) (p q : Port) :
    netInteract g n p q = (false, n) ∨ ∃ m a b, R n m ∧ (a = p.node ∧ b = q.node ∨ a = q.node ∧ b = p.node) ∧
      netInteract g n p q = (true, retire g m a b) := by
  unfold netInteract
  split_ifs
  · rcases h.interactSorted_cases n q.node p.node with he | ⟨m, hm, he⟩
    · exact .inl he
    · exact .inr ⟨m, _, _, hm, .inr ⟨rfl, rfl⟩, he⟩
  · rcases h.interactSorted_cases n p.node q.node with he | ⟨m, hm, he⟩
    · exact .inl he
    · exact .inr ⟨m, _, _, hm, .inl ⟨rfl, rfl⟩, he⟩

end Primitive

lemma roots_primitive (g : Globals) : Primitive g SameRoots where
  refl := .refl
  trans := .trans
  wire := roots_setWire
  push := roots_actPush
  thread _ _ := ⟨rfl, rfl, rfl⟩
  alloc := roots_netAlloc g
  release := roots_netRelease g
  levels _ _ := ⟨rfl, rfl, rfl⟩

/-- A retired pair takes the roots of its nodes with it. -/
lemma retire_roots (g : Globals) (n : Net) (a b : ℕ) :
    (retire g n a b).steps = n.steps ∧ (retire g n a b).pins = n.pins ∧
      (retire g n a b).root = n.root.filter fun p => p.node ∉ [a, b] := by
  have hdrop := (roots_actDrop g { n with dead := (n.dead.set a true).set b true } a).trans (roots_actDrop g _ b)
  have hfilter : (n.root.filter fun p => p.node != a && p.node != b) = n.root.filter fun p => p.node ∉ [a, b] := by
    refine List.filter_congr fun p _ => ?_
    by_cases ha : p.node = a <;> by_cases hb : p.node = b <;> simp [ha, hb]
  rw [← hfilter]
  unfold retire
  dsimp only
  split_ifs
  · exact ⟨hdrop.steps, hdrop.pins, by rw [hdrop.root]⟩
  · have hrel : ∀ m, SameRoots m (releaseNow (releaseNow m a) b) := fun m =>
      (roots_releaseLoop (m.nn + 2) [a] m).trans (roots_releaseLoop _ [b] (releaseNow m a))
    exact ⟨(hrel _).steps.trans hdrop.steps, (hrel _).pins.trans hdrop.pins, (hrel _).root.trans (by rw [hdrop.root])⟩

lemma netInteract_roots (g : Globals) (n : Net) (p q : Port) :
    (netInteract g n p q).2.steps = n.steps ∧ (netInteract g n p q).2.pins = n.pins ∧
      (netInteract g n p q).2.root =
        if (netInteract g n p q).1 then n.root.filter (fun r => r.node ∉ [p.node, q.node]) else n.root := by
  rcases (roots_primitive g).netInteract_cases n p q with h | ⟨m, a, b, hm, hab, h⟩
  · rw [h]
    exact ⟨rfl, rfl, rfl⟩
  · obtain ⟨hsteps, hpins, hroot⟩ := retire_roots g m a b
    rw [h, if_pos rfl]
    refine ⟨hsteps.trans hm.steps, hpins.trans hm.pins, hroot.trans ?_⟩
    rw [hm.root]
    refine List.filter_congr fun r _ => ?_
    rcases hab with ⟨rfl, rfl⟩ | ⟨rfl, rfl⟩
    · rfl
    · simp only [List.mem_cons, or_left_comm]

/-! ## The log of a run -/

/-- The run went on and dropped the roots of the nodes it logged. -/
def Run.Drops (r r' : Run) : Prop :=
  ∃ l, r'.gone = r.gone ++ l ∧ r'.net.root = r.net.root.filter fun p => p.node ∉ l

/-- Besides, each rule took a step. -/
structure Run.Extends (r r' : Run) : Prop where
  drops : r.Drops r'
  changed : r.changed ≤ r'.changed
  steps : r.net.steps + r'.changed ≤ r'.net.steps + r.changed

section Log

variable {g : Globals} {r r' r'' : Run}

lemma Run.Drops.trans (h : r.Drops r') (h' : r'.Drops r'') : r.Drops r'' := by
  obtain ⟨l, hgone, hroot⟩ := h
  obtain ⟨l', hgone', hroot'⟩ := h'
  refine ⟨l ++ l', by rw [hgone', hgone, List.append_assoc], ?_⟩
  rw [hroot', hroot, List.filter_filter]
  refine List.filter_congr fun p _ => ?_
  simp only [List.mem_append, not_or, Bool.decide_and, Bool.and_comm]

lemma Run.Extends.trans (h : r.Extends r') (h' : r'.Extends r'') : r.Extends r'' := by
  refine ⟨h.drops.trans h'.drops, h.changed.trans h'.changed, ?_⟩
  have := h.steps
  have := h'.steps
  omega

/-- A step that leaves the roots alone. -/
lemma SameRoots.extends {n m : Net} (h : SameRoots n m) (c : ℕ) (l : List ℕ) : Run.Extends ⟨n, c, l⟩ ⟨m, c, l⟩ :=
  ⟨⟨[], by simp, by simp [h.root]⟩, le_rfl, by simp [h.steps]⟩

lemma Run.Extends.refl (r : Run) : r.Extends r := (SameRoots.refl r.net).extends r.changed r.gone

lemma fireStep_extends (g : Globals) (r : Run) (a : Port × Port) : r.Extends (fireStep g r a) := by
  obtain ⟨hsteps, -, hroot⟩ := netInteract_roots g r.net a.1 a.2
  unfold fireStep
  by_cases hlive : redexLive r.net a.1 a.2 = true
  swap
  · rw [if_pos (by simpa using hlive)]
    exact .refl r
  rw [if_neg (by simpa using hlive)]
  cases hfire : (netInteract g r.net a.1 a.2).1 with
  | true =>
    rw [if_pos hfire] at hroot
    refine ⟨⟨[a.1.node, a.2.node], by simp only [hfire, if_true], by simpa only [hfire, if_true] using hroot⟩, ?_, ?_⟩
    · simp only [hfire, if_true, Nat.le_succ]
    · simp only [hfire, if_true, hsteps]
      omega
  | false =>
    rw [hfire, if_neg Bool.false_ne_true] at hroot
    have hqueue : SameRoots (netInteract g r.net a.1 a.2).2 (if bothAlive (netInteract g r.net a.1 a.2).2 a = true then
        actPush (netInteract g r.net a.1 a.2).2 a.1 a.2 else (netInteract g r.net a.1 a.2).2) := by
      split_ifs
      · exact roots_actPush _ _ _
      · exact .refl _
    refine ⟨⟨[], ?_, ?_⟩, ?_, ?_⟩
    · simp only [hfire, Bool.false_eq_true, if_false, List.append_nil]
    · simp [hfire, hqueue.root, hroot]
    · simp only [hfire, Bool.false_eq_true, if_false, le_rfl]
    · simp only [hfire, Bool.false_eq_true, if_false, hqueue.steps, hsteps]
      omega

lemma fireAll_extends (g : Globals) (as : List (Port × Port)) (r : Run) : r.Extends (as.foldl (fireStep g) r) := by
  induction as generalizing r with
  | nil => exact .refl r
  | cons a as ih => exact (fireStep_extends g r a).trans (ih _)

/-- What marking demand leaves alone. -/
structure Marked (n m : Net) : Prop where
  graph : SameGraph n m
  roots : SameRoots n m
  nfree : m.nfree = n.nfree

lemma Marked.refl (n : Net) : Marked n n := ⟨.refl n, .refl n, rfl⟩

lemma Marked.trans {n m k : Net} (h : Marked n m) (h' : Marked m k) : Marked n k :=
  ⟨h.graph.trans h'.graph, h.roots.trans h'.roots, h'.nfree.trans h.nfree⟩

lemma Marked.marks (n : Net) (stamp : ℕ) (dem vport : Table ℕ 0) :
    Marked n { n with demStamp := stamp, dem := dem, vport := vport } :=
  ⟨⟨rfl, rfl, rfl, rfl, rfl, rfl, rfl, rfl, rfl⟩, ⟨rfl, rfl, rfl⟩, rfl⟩

lemma demPut_marked (g : Globals) (s : Net × List (Port × Port)) (v : ℕ) : Marked s.1 (demPut g s v).1 := by
  unfold demPut
  split
  · exact .refl _
  · extract_lets other
    split_ifs
    · exact .refl _
    · exact ⟨actDrop_same g s.1 v, roots_actDrop g s.1 v, actDrop_nfree g s.1 v⟩

/-- The mark that the walk leaves at a port. -/
def demVisit (g : Globals) (p : Port) (s : Net × List (Port × Port)) : Net × List (Port × Port) :=
  if s.1.dem.get p.node = s.1.demStamp then
    ({ s.1 with vport := s.1.vport.set p.node (s.1.vport.get p.node ||| 2 ^ (p.port : ℕ)) }, s.2)
  else
    demPut g ({ s.1 with dem := s.1.dem.set p.node s.1.demStamp, vport := s.1.vport.set p.node (2 ^ (p.port : ℕ)) }, s.2)
      p.node

/-- The mark that the walk leaves at the end of a pair it has reached. -/
def demFacing (g : Globals) (q : Port) (s : Net × List (Port × Port)) : Net × List (Port × Port) :=
  let s := if s.1.dem.get q.node = s.1.demStamp then s
    else demPut g ({ s.1 with vport := s.1.vport.set q.node 0 }, s.2) q.node
  ({ s.1 with dem := s.1.dem.set q.node s.1.demStamp }, s.2)

lemma demVisit_marked (g : Globals) (p : Port) (s : Net × List (Port × Port)) : Marked s.1 (demVisit g p s).1 := by
  unfold demVisit
  split_ifs
  · exact .marks s.1 _ _ _
  · exact (Marked.marks s.1 _ _ _).trans (demPut_marked g (_, s.2) p.node)

lemma demFacing_marked (g : Globals) (q : Port) (s : Net × List (Port × Port)) : Marked s.1 (demFacing g q s).1 := by
  unfold demFacing
  refine Marked.trans ?_ (.marks _ _ _ _)
  split_ifs
  · exact .refl _
  · exact (Marked.marks s.1 _ _ _).trans (demPut_marked g (_, s.2) q.node)

lemma demandWalk_marked (g : Globals) (fuel : ℕ) (p : Option Port) (s : Net × List (Port × Port)) :
    Marked s.1 (demandWalk g fuel p s).1 := by
  induction fuel generalizing p s with
  | zero => exact .refl _
  | succ fuel ih =>
    cases p with
    | none => exact .refl _
    | some p =>
      have hvisit := demVisit_marked g p s
      unfold demandWalk
      extract_lets u bit n' s' t
      change Marked s.1 s'.1 at hvisit
      split_ifs
      · exact .refl _
      · exact .refl _
      · exact hvisit.trans (ih _ _)
      · exact hvisit
      · exact hvisit.trans (ih _ _)
      · refine hvisit.trans ?_
        split
        · exact .refl _
        · rename_i q _
          by_cases hface : q.port = 0 ∧ s'.1.live q.node = true ∧ facesRedex t (s'.1.tag.get q.node) = true
          · rw [if_pos hface]
            exact demFacing_marked g q s'
          · rw [if_neg hface]
            exact .refl _

lemma nextStamp_marked (n : Net) : Marked n (nextStamp n) := by
  unfold nextStamp
  extract_lets stamp
  split_ifs
  · exact .marks n _ _ _
  · exact .marks n _ _ _

lemma netMarkDemand_marked (g : Globals) (n : Net) : Marked n (netMarkDemand g n).1 := by
  have hwalks : ∀ (fuel : ℕ) (ps : List Port) (s : Net × List (Port × Port)),
      Marked s.1 (ps.foldl (fun s p => demandWalk g fuel (some p) s) s).1 := by
    intro fuel ps
    induction ps with
    | nil => exact fun s => .refl _
    | cons p ps ih => exact fun s => (demandWalk_marked g fuel (some p) s).trans (ih _)
  unfold netMarkDemand
  exact (nextStamp_marked n).trans (hwalks _ _ (_, []))

lemma roots_netFlushFree (g : Globals) (n : Net) : SameRoots n (netFlushFree g n) := by
  have hloop : ∀ (fuel : ℕ) (n : Net), SameRoots n (flushLoop fuel n) := by
    intro fuel
    induction fuel with
    | zero => exact fun n => .refl n
    | succ fuel ih =>
      intro n
      unfold flushLoop
      split
      · exact .refl n
      · refine SameRoots.trans ?_ (ih _)
        exact ⟨rfl, rfl, rfl⟩
  unfold netFlushFree
  split_ifs
  · exact .refl n
  · exact hloop _ n

lemma netGc_extends (r : Run) : r.Extends { r with net := netGc r.net, gone := r.gone ++ deadRoots r.net } := by
  by_cases hnn : r.net.nn ≤ 1
  · rw [netGc, if_pos hnn, deadRoots, if_pos hnn, List.append_nil]
    exact .refl r
  · have hc := netGc_collected (n := r.net) (by omega)
    refine ⟨⟨deadRoots r.net, rfl, ?_⟩, le_rfl, ?_⟩
    · show (netGc r.net).root = _
      rw [hc.roots]
      refine List.filter_congr fun p hp => ?_
      cases hd : r.net.dead.get p.node with
      | true => simpa [deadRoots, hnn, hd] using ⟨p, hp, rfl⟩
      | false => simp [deadRoots, hnn, hd]
    · show r.net.steps + r.changed ≤ (netGc r.net).steps + r.changed
      rw [(netGc_frame r.net).2.1]

lemma reduceWave_extends (g : Globals) (r : Run) : r.Extends (reduceWave g r) := by
  have hmark := (netMarkDemand_marked g r.net).roots.extends r.changed r.gone
  exact (hmark.trans (fireAll_extends g _ _)).trans ((roots_netFlushFree g _).extends _ _)

lemma reduceWaves_extends (g : Globals) (limit fuel : ℕ) (r : Run) : r.Extends (reduceWaves g limit fuel r) := by
  induction fuel generalizing r with
  | zero => exact .refl r
  | succ fuel ih =>
    unfold reduceWaves
    split_ifs
    · extract_lets w
      split_ifs
      · exact reduceWave_extends g r
      · exact (reduceWave_extends g r).trans (ih _)
    · exact .refl r

lemma reduceLoop_drops (g : Globals) (limit fuel : ℕ) (mark : ℤ) (r : Run) : r.Drops (reduceLoop g limit fuel mark r) := by
  induction fuel generalizing mark r with
  | zero => exact (Run.Extends.refl r).drops
  | succ fuel ih =>
    unfold reduceLoop
    split_ifs with hlimit
    · extract_lets w gc w' mark'
      have hwaves : r.Drops w := (reduceWaves_extends g limit _ { r with changed := 0 }).drops
      have hgc : w.Drops w' := by
        by_cases h : gc = true
        · simp only [w', h, if_true]
          exact (netGc_extends w).drops
        · simp only [w', h]
          exact (Run.Extends.refl w).drops
      split_ifs
      · exact hwaves.trans hgc
      · exact (hwaves.trans hgc).trans (ih mark' w')
    · exact (Run.Extends.refl r).drops

/-- The roots after a reduction are those whose nodes it did not drop. -/
lemma reduceRun_root (g : Globals) (gcenv : Option ℕ) (limit : ℕ) (n : Net) :
    (reduceRun g gcenv limit n).net.root =
      n.root.filter fun p => p.node ∉ (reduceRun g gcenv limit n).gone := by
  obtain ⟨l, hgone, hroot⟩ := reduceLoop_drops { g with reduceDepth := g.reduceDepth + 1 } limit (limit - n.steps)
    (firstMark gcenv n) ⟨n, 0, []⟩
  rw [List.nil_append] at hgone
  unfold reduceRun
  dsimp only
  rw [(roots_netFlushFree _ _).root, hroot, hgone]

/-! ## The loops end by themselves -/

/-- A wave that goes on has taken a step. -/
lemma reduceWave_steps (g : Globals) (r : Run) (h : (reduceWave g r).changed ≠ r.changed) :
    r.net.steps < (reduceWave g r).net.steps := by
  have := (reduceWave_extends g r).changed
  have := (reduceWave_extends g r).steps
  omega

lemma reduceWaves_fuel (g : Globals) (limit fuel k : ℕ) (r : Run) (hfuel : limit - r.net.steps ≤ fuel) :
    reduceWaves g limit (fuel + k) r = reduceWaves g limit fuel r := by
  induction fuel generalizing r with
  | zero =>
    cases k with
    | zero => rfl
    | succ k =>
      unfold reduceWaves
      rw [if_neg (by omega)]
  | succ fuel ih =>
    rw [Nat.add_right_comm]
    unfold reduceWaves
    by_cases hgo : 0 < r.net.atop ∧ r.net.steps < limit
    · rw [if_pos hgo, if_pos hgo]
      dsimp only
      by_cases hsame : (reduceWave g r).changed = r.changed
      · rw [if_pos hsame, if_pos hsame]
      · have := reduceWave_steps g r hsame
        rw [if_neg hsame, if_neg hsame, ih _ (by omega)]
    · rw [if_neg hgo, if_neg hgo]

lemma reduceLoop_fuel (g : Globals) (limit fuel k : ℕ) (mark : ℤ) (r : Run) (hfuel : limit - r.net.steps ≤ fuel) :
    reduceLoop g limit (fuel + k) mark r = reduceLoop g limit fuel mark r := by
  induction fuel generalizing mark r with
  | zero =>
    cases k with
    | zero => rfl
    | succ k =>
      unfold reduceLoop
      rw [if_neg (by omega)]
  | succ fuel ih =>
    rw [Nat.add_right_comm]
    unfold reduceLoop
    by_cases hgo : r.net.steps < limit
    · rw [if_pos hgo, if_pos hgo]
      extract_lets w gc w' mark'
      have hwaves : r.net.steps + w.changed ≤ w.net.steps :=
        (reduceWaves_extends g limit (limit - r.net.steps) { r with changed := 0 }).steps
      have hgc : w'.net.steps = w.net.steps := by
        by_cases h : gc = true
        · simp only [w', h, if_true]
          exact (netGc_frame w.net).2.1
        · simp only [w', h]
          rfl
      by_cases hsame : w.changed = 0
      · rw [if_pos hsame, if_pos hsame]
      · rw [if_neg hsame, if_neg hsame, ih _ _ (by omega)]
    · rw [if_neg hgo, if_neg hgo]

/-! ## A net without queued pairs -/

lemma reduceWaves_idle (g : Globals) (limit fuel : ℕ) {r : Run} (h : r.net.atop = 0) : reduceWaves g limit fuel r = r := by
  cases fuel with
  | zero => rfl
  | succ fuel => rw [reduceWaves, if_neg (by omega)]

lemma reduceLoop_idle (g : Globals) (limit fuel : ℕ) (mark : ℤ) {r : Run} (h : r.net.atop = 0) :
    (reduceLoop g limit fuel mark r).net = r.net ∨ (reduceLoop g limit fuel mark r).net = netGc r.net := by
  cases fuel with
  | zero => exact .inl rfl
  | succ fuel =>
    have hidle : reduceWaves g limit (limit - r.net.steps) { r with changed := 0 } = { r with changed := 0 } :=
      reduceWaves_idle g limit _ h
    rw [reduceLoop, hidle]
    dsimp only
    rw [if_pos rfl]
    by_cases hsteps : r.net.steps < limit
    · rw [if_pos hsteps]
      by_cases hgc : collects g mark r.net = true
      · rw [if_pos hgc]
        exact .inr rfl
      · rw [if_neg hgc]
        exact .inl rfl
    · rw [if_neg hsteps]
      exact .inl rfl

lemma netFlushFree_idle (g : Globals) {n : Net} (h : n.pendHead = none) : netFlushFree g n = n := by
  unfold netFlushFree
  split_ifs
  · rfl
  · cases n.nn with
    | zero => rfl
    | succ f => rw [flushLoop, h]

/-- A force in a net without queued or pending nodes collects at most. -/
lemma forceRun_idle (g : Globals) (gcenv : Option ℕ) {n : Net} (h : n.atop = 0) (hpend : n.pendHead = none) (p : Port) :
    (forceRun g gcenv n p).net = linDemand n p ∨ (forceRun g gcenv n p).net = netGc (linDemand n p) := by
  have hdem : (linDemand n p).atop = 0 ∧ (linDemand n p).pendHead = none := by
    unfold linDemand
    split_ifs <;> exact ⟨h, hpend⟩
  have hgc := (netGc_frame (linDemand n p)).2.2.1.trans hdem.2
  unfold forceRun reduceRun
  dsimp only
  rcases reduceLoop_idle _ (n.steps + forceSteps) _ _ (r := ⟨linDemand n p, 0, []⟩) hdem.1 with he | he
  · rw [he, netFlushFree_idle _ hdem.2]
    exact .inl rfl
  · rw [he, netFlushFree_idle _ hgc]
    exact .inr rfl

/-! ## What a force leaves registered -/

/-- A force leaves no new demand root exactly if it has nothing to reduce, or the port was
registered before, or the reduction drops it, or drops no other root. -/
theorem netForce_roots_iff (g : Globals) (gcenv : Option ℕ) (n : Net) (p : Port) :
    (∀ q ∈ (netForce g gcenv n p).root, q ∈ n.root) ↔
      portWhnf n p = true ∨ p ∈ n.root ∨ p.node ∈ (forceRun g gcenv n p).gone ∨
        ∀ q ∈ n.root, q.node ∉ (forceRun g gcenv n p).gone := by
  by_cases hwhnf : portWhnf n p = true
  · simp [netForce, hwhnf]
  have hlive : n.live p.node = true := by
    by_contra hdead
    exact hwhnf (by rw [portWhnf, if_pos (by simpa using hdead)])
  have hin : n.inNet p.node = true := (Bool.and_eq_true_iff.1 hlive).1
  set gone := (forceRun g gcenv n p).gone with hgone
  have hroot : (netForce g gcenv n p).root = ((linDemand n p).root.filter fun q => q.node ∉ gone).take n.root.length := by
    rw [netForce, if_neg hwhnf]
    show (forceRun g gcenv n p).net.root.take _ = _
    rw [forceRun, reduceRun_root]
    rfl
  rw [hroot, linDemand, if_neg (by simp [hin])]
  by_cases hp : p ∈ n.root
  · rw [if_pos hp]
    simp only [hp, true_or, or_true, iff_true]
    exact fun q hq => (List.mem_filter.1 (List.mem_of_mem_take hq)).1
  rw [if_neg hp, List.filter_append]
  by_cases hpg : p.node ∈ gone
  · have hnew : [p].filter (fun q => q.node ∉ gone) = [] := by simp [hpg]
    simp only [hpg, true_or, or_true, iff_true, hnew, List.append_nil]
    exact fun q hq => (List.mem_filter.1 (List.mem_of_mem_take hq)).1
  have hnew : [p].filter (fun q => q.node ∉ gone) = [p] := by simp [hpg]
  rw [hnew]
  simp only [hwhnf, hp, hpg, Bool.false_eq_true, false_or]
  have hle := List.length_filter_le (fun q : Port => q.node ∉ gone) n.root
  constructor
  · intro h q hq hqg
    -- the list has become shorter, so the new root is within the old number
    have hlt : (n.root.filter fun q => q.node ∉ gone).length < n.root.length :=
      List.length_filter_lt_length_iff_exists.2 ⟨q, hq, by simpa using hqg⟩
    refine hp (h p (List.mem_take_iff_getElem.2 ⟨(n.root.filter fun q => q.node ∉ gone).length, ?_, ?_⟩))
    · simp only [List.length_append, List.length_singleton]
      omega
    · simp
  · intro h q hq
    have hall : (n.root.filter fun q => q.node ∉ gone) = n.root := List.filter_eq_self.2 fun r hr => by simpa using h r hr
    rw [hall, List.take_left] at hq
    exact hq

/-- `(\x.x) (\x.x x)` with the result of the application demanded. -/
def demandedNet : Net := linDemand identityNet ⟨1, 1⟩

/-- A force from ROOT consumes the application, and ROOT stays registered in its place. -/
theorem netForce_leaves : ¬∀ (g : Globals) (gcenv : Option ℕ) (n : Net) (p : Port),
    ∀ q ∈ (netForce g gcenv n p).root, q ∈ n.root := by
  intro h
  have hroot := h .serial none demandedNet ⟨0, 0⟩ ⟨0, 0⟩ (by decide +kernel)
  revert hroot
  decide +kernel

end Log

end LinEngine
