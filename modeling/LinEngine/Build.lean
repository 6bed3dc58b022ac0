import LinEngine.Commute
import LinEngine.Compile

/-!
# Nets under construction

While the compiler builds a net no slot is reclaimed and no node is collected: a net
only grows, apart from placeholders that are spent. Between reading off the uses of
a variable and wiring them to their fan tree some ports lead nowhere sensible; the
wiring is mutual off that set of ports, and each link takes two ports out of it.
-/
namespace LinEngine

/-- A net under construction, well wired except at the ports of `D`. -/
structure Good (n : Net) (D : Set Port) : Prop where
  wired : ∀ p q : Port, n.live p.node = true → p ∉ D → n.wireAt p = some q →
    n.live q.node = true ∧ q ∉ D ∧ n.wireAt q = some p ∧ q ≠ p
  free : n.freeHead = none
  pins : n.pins = 0
  trie : TrieOk n
  scopes : ∀ v, n.live v = true → n.scope.get v ≤ n.levels.length

/-- A port that may be linked. -/
def Open (n : Net) (D : Set Port) (p : Port) : Prop :=
  n.live p.node = true ∧ (p ∈ D ∨ n.wireAt p = none)

/-- Nodes that exist stay as they are, and levels are only added. -/
structure Later (n n' : Net) : Prop where
  nn : n.nn ≤ n'.nn
  levels : n.levels <+: n'.levels
  live : ∀ v, v < n.nn → n'.live v = n.live v
  tag : ∀ v, v < n.nn → n'.tag.get v = n.tag.get v
  scope : ∀ v, v < n.nn → n'.scope.get v = n.scope.get v

namespace Later

variable {n n' n'' : Net}

lemma refl (n : Net) : Later n n :=
  ⟨le_rfl, List.prefix_rfl, fun _ _ => rfl, fun _ _ => rfl, fun _ _ => rfl⟩

lemma trans (h : Later n n') (h' : Later n' n'') : Later n n'' where
  nn := h.nn.trans h'.nn
  levels := h.levels.trans h'.levels
  live v hv := (h'.live v (hv.trans_le h.nn)).trans (h.live v hv)
  tag v hv := (h'.tag v (hv.trans_le h.nn)).trans (h.tag v hv)
  scope v hv := (h'.scope v (hv.trans_le h.nn)).trans (h.scope v hv)

lemma ofGrown (h : Grown n n') : Later n n' := by
  refine ⟨?_, h.grown, fun v _ => h.live v, ?_, ?_⟩ <;> rw [h.same]
  exacts [fun _ _ => rfl, fun _ _ => rfl]

lemma ofLinked (h : Linked n n') : Later n n' :=
  ⟨h.nn.ge, h.levels ▸ List.prefix_rfl, fun v _ => h.live v, fun v _ => by rw [h.tag],
    fun v _ => by rw [h.scope]⟩

end Later

lemma Net.live_lt {n : Net} {v : ℕ} (h : n.live v = true) : v < n.nn := ((Net.live_iff v).mp h).1

/-- A placeholder is spent: dead, its port 1 cleared. -/
def spendNode (n : Net) (v : ℕ) : Net := ({ n with dead := n.dead.set v true }).setWire ⟨v, 1⟩ none

lemma spendNode_live {n : Net} {v u : ℕ} :
    (spendNode n v).live u = true ↔ n.live u = true ∧ u ≠ v := by
  simp only [spendNode, Net.live_setWire, Net.live_iff, Table.get_set]
  by_cases hu : v = u
  · simp [hu]
  · simp [hu, Ne.symm hu]

lemma spendNode_wireAt {n : Net} {v : ℕ} {p : Port} (hp : p.node ≠ v) :
    (spendNode n v).wireAt p = n.wireAt p := by
  rw [spendNode, Net.wireAt_setWire, if_neg fun he => hp (by rw [← he])]
  rfl

namespace Good

variable {n n' : Net} {D : Set Port}

lemma toWired (h : Good n ∅) : Wired n := fun p q hl hw => by
  obtain ⟨h1, -, h2, h3⟩ := h.wired p q hl (Set.notMem_empty p) hw
  exact ⟨h1, h2, h3⟩

lemma sound (h : Good n ∅) : Sound n :=
  ⟨h.toWired, ⟨[], h.free ▸ .nil⟩, h.trie, h.scopes, h.pins⟩

/-- Levels may be interned at any time. -/
lemma grow (h : Good n D) (hg : Grown n n') (ht : TrieOk n') : Good n' D := by
  refine ⟨fun p q hl hD hw => ?_, ?_, ?_, ht, fun v hv => ?_⟩
  · rw [hg.live] at hl ⊢
    rw [hg.wireAt] at hw ⊢
    exact h.wired p q hl hD hw
  · rw [hg.same]
    exact h.free
  · rw [hg.same]
    exact h.pins
  · rw [hg.live] at hv
    have := h.scopes v hv
    rw [hg.same]
    exact this.trans hg.length_le

/-- A port that is linked already is not open. -/
lemma not_open (h : Good n D) {p q : Port} (hl : n.live p.node = true) (hD : p ∉ D)
    (hw : n.wireAt p = some q) : ¬ Open n D q := by
  rintro ⟨-, hq | hq⟩
  · exact (h.wired p q hl hD hw).2.1 hq
  · rw [(h.wired p q hl hD hw).2.2.1] at hq
    cases hq

/-- Linking two open ports. -/
lemma link (h : Good n D) (g : Globals) {a b : Port} (ha : Open n D a) (hb : Open n D b)
    (hne : a ≠ b) (e : Bool) : Good (netLink g n (some a) (some b) e) (D \ {a, b}) := by
  have hk := netLink_linked g n (some a) (some b) e
  refine ⟨fun p q hl hD hw => ?_, hk.freeHead.trans h.free, hk.pins.trans h.pins,
    h.trie.congr hk.levels, fun v hv => ?_⟩
  · rw [hk.live] at hl
    simp only [hk.live, netLink_wireAt] at hw ⊢
    by_cases hpb : b = p
    · subst hpb
      rw [if_pos rfl, Option.some.injEq] at hw
      subst hw
      exact ⟨ha.1, by simp, by simp [Ne.symm hne], hne⟩
    · rw [if_neg hpb] at hw
      by_cases hpa : a = p
      · subst hpa
        rw [if_pos rfl, Option.some.injEq] at hw
        subst hw
        exact ⟨hb.1, by simp, by simp, Ne.symm hne⟩
      · rw [if_neg hpa] at hw
        have hpD : p ∉ D := fun hp => hD ⟨hp, by simp [Ne.symm hpa, Ne.symm hpb]⟩
        obtain ⟨h1, h2, h3, h4⟩ := h.wired p q hl hpD hw
        have hqa : a ≠ q := fun he => h.not_open hl hpD hw (he ▸ ha)
        have hqb : b ≠ q := fun he => h.not_open hl hpD hw (he ▸ hb)
        refine ⟨h1, fun hq => h2 hq.1, ?_, h4⟩
        rw [if_neg hqb, if_neg hqa]
        exact h3
  · rw [hk.live] at hv
    rw [hk.scope, hk.levels]
    exact h.scopes v hv

/-- A new node comes at the end of the net. -/
lemma alloc_eq (h : Good n D) (tag : Tag) (sc : ℕ) :
    netAlloc .serial n tag sc = (n.nn, initNode { n with nn := n.nn + 1 } n.nn tag sc) := by
  simp [netAlloc, Globals.serial, h.free, initNode]

lemma alloc_spec (h : Good n D) (tag : Tag) (sc : ℕ) :
    Allocated n tag sc n.nn (netAlloc .serial n tag sc).2 := by
  have := netAlloc_spec (g := .serial) rfl (n := n) ⟨[], h.free ▸ .nil⟩ tag sc
  rwa [h.alloc_eq] at this ⊢

lemma alloc_nn (h : Good n D) (tag : Tag) (sc : ℕ) :
    (netAlloc .serial n tag sc).2.nn = n.nn + 1 := by
  rw [h.alloc_eq]
  rfl

lemma alloc (h : Good n D) (tag : Tag) {sc : ℕ} (hsc : sc ≤ n.levels.length) :
    Good (netAlloc .serial n tag sc).2 D := by
  have ha := h.alloc_spec tag sc
  set n' := (netAlloc .serial n tag sc).2 with hn'
  have hfree : n'.freeHead = none := by
    rw [hn', h.alloc_eq]
    exact h.free
  refine ⟨fun p q hl hD hw => ?_, hfree, ha.pins.trans h.pins, h.trie.congr ha.levels,
    fun v hv => ?_⟩
  · by_cases hp : p.node = n.nn
    · obtain ⟨v, k⟩ := p
      obtain rfl : v = n.nn := hp
      rw [ha.wireNew k] at hw
      cases hw
    · rw [ha.liveOther _ hp] at hl
      rw [ha.wireOther p hp] at hw
      obtain ⟨h1, h2, h3, h4⟩ := h.wired p q hl hD hw
      have hq : q.node ≠ n.nn := (Net.live_lt h1).ne
      rw [ha.liveOther _ hq, ha.wireOther q hq]
      exact ⟨h1, h2, h3, h4⟩
  · rw [ha.levels]
    by_cases hv' : v = n.nn
    · rw [hv', ha.scopeNew]
      exact hsc
    · rw [ha.liveOther v hv'] at hv
      rw [ha.scopeOther v hv']
      exact h.scopes v hv

lemma alloc_later (h : Good n D) (tag : Tag) (sc : ℕ) :
    Later n (netAlloc .serial n tag sc).2 := by
  have ha := h.alloc_spec tag sc
  exact ⟨by rw [h.alloc_nn]; omega, ha.levels ▸ List.prefix_rfl, fun v hv => ha.liveOther v hv.ne,
    fun v hv => ha.tagOther v hv.ne, fun v hv => ha.scopeOther v hv.ne⟩

/-- Spending a node nothing is wired to. -/
lemma spend (h : Good n D) {v : ℕ} (hoff : ∀ p q : Port, n.live p.node = true → p.node ≠ v →
    p ∉ D → n.wireAt p = some q → q.node ≠ v) : Good (spendNode n v) D := by
  refine ⟨fun p q hl hD hw => ?_, h.free, h.pins, h.trie.congr rfl, fun u hu => ?_⟩
  · rw [spendNode_live] at hl
    rw [spendNode_wireAt hl.2] at hw
    have hq := hoff p q hl.1 hl.2 hD hw
    obtain ⟨h1, h2, h3, h4⟩ := h.wired p q hl.1 hD hw
    rw [spendNode_live, spendNode_wireAt hq]
    exact ⟨⟨h1, hq⟩, h2, h3, h4⟩
  · rw [spendNode_live] at hu
    exact h.scopes u hu.1

/-- Ports may be declared open. -/
lemma weaken (h : Good n D) {D' : Set Port} (hD : D ⊆ D')
    (hnew : ∀ p q : Port, n.live p.node = true → p ∉ D' → n.wireAt p = some q → q ∉ D') :
    Good n D' :=
  ⟨fun p q hl hp hw => by
    obtain ⟨h1, -, h3, h4⟩ := h.wired p q hl (fun hd => hp (hD hd)) hw
    exact ⟨h1, hnew p q hl hp hw, h3, h4⟩, h.free, h.pins, h.trie, h.scopes⟩

end Good

/-! ## Fan trees -/

section Fan

variable {n n' : Net} {D : Set Port} {sc : ℕ}

lemma Open.link {a b p : Port} (h : Open n D p) (g : Globals) (e : Bool) (ha : p ≠ a) (hb : p ≠ b) :
    Open (netLink g n (some a) (some b) e) (D \ {a, b}) p := by
  obtain ⟨hl, hw⟩ := h
  refine ⟨((netLink_linked g n (some a) (some b) e).live _).trans hl, ?_⟩
  rw [netLink_wireAt, if_neg (Ne.symm hb), if_neg (Ne.symm ha)]
  exact hw.imp_left fun hD => ⟨hD, by simp [ha, hb]⟩

/-- The ports a list of targets names. -/
def targets (ts : List (Option Port)) : Set Port := {p | some p ∈ ts}

/-- Linking an open port to a target that may be absent. -/
lemma Good.link_option (h : Good n D) (g : Globals) {a : Port} {t : Option Port} (ha : Open n D a)
    (ht : ∀ p, t = some p → Open n D p ∧ p ≠ a) (haD : a ∉ D) (e : Bool) :
    Good (netLink g n (some a) t e) (D \ targets [t]) ∧
      (netLink g n (some a) t e).wireAt a = t ∧
      ∀ p, p ≠ a → some p ≠ t → (netLink g n (some a) t e).wireAt p = n.wireAt p := by
  cases t with
  | none =>
    have hD : targets [none] = ∅ := Set.eq_empty_of_forall_notMem (by simp [targets])
    rw [netLink_none, hD, Set.sdiff_empty]
    exact ⟨h, ha.2.resolve_left haD, fun _ _ _ => rfl⟩
  | some b =>
    obtain ⟨hb, hba⟩ := ht b rfl
    have hD : D \ targets [some b] = D \ {a, b} := by
      ext p
      simp only [targets, List.mem_singleton, Option.some.injEq, Set.mem_sdiff, Set.mem_ofPred_eq,
        Set.mem_insert_iff, Set.mem_singleton_iff, not_or]
      exact ⟨fun ⟨h1, h2⟩ => ⟨h1, fun he => haD (he ▸ h1), h2⟩, fun ⟨h1, _, h2⟩ => ⟨h1, h2⟩⟩
    rw [hD]
    refine ⟨h.link g ha hb (Ne.symm hba) e, ?_, fun p hpa hpt => ?_⟩
    · rw [netLink_wireAt, if_neg hba, if_pos rfl]
    · rw [netLink_wireAt, if_neg fun he => hpt (by rw [he]), if_neg (Ne.symm hpa)]

/-- One node of a fan tree: `c` under its port 1, `t` under its port 2. -/
def fanNode (g : Globals) (n : Net) (sc : ℕ) (c t : Option Port) : Net :=
  netLink g (netLink g (netAlloc g n .dup sc).2 (some ⟨(netAlloc g n .dup sc).1, 1⟩) c false)
    (some ⟨(netAlloc g n .dup sc).1, 2⟩) t false

/-- What one more fan does to the net. -/
structure FanStep (n : Net) (D : Set Port) (sc : ℕ) (c t : Option Port) (n' : Net) : Prop where
  good : Good n' (D \ targets [c, t])
  later : Later n n'
  nn : n'.nn = n.nn + 1
  isLive : n'.live n.nn = true
  tag : n'.tag.get n.nn = .dup
  scope : n'.scope.get n.nn = sc
  wireRoot : n'.wireAt ⟨n.nn, 0⟩ = none
  wireLeft : n'.wireAt ⟨n.nn, 1⟩ = c
  wireRight : n'.wireAt ⟨n.nn, 2⟩ = t
  wireOther : ∀ p : Port, p.node < n.nn → some p ≠ c → some p ≠ t → n'.wireAt p = n.wireAt p

lemma targets_pair (c t : Option Port) : targets [c, t] = targets [c] ∪ targets [t] := by
  ext p
  simp [targets]

lemma fanNode_spec (h : Good n D) (hsc : sc ≤ n.levels.length) {c t : Option Port}
    (hD : ∀ p ∈ D, p.node < n.nn) (hc : ∀ p, c = some p → Open n D p)
    (ht : ∀ p, t = some p → Open n D p) (hct : ∀ p, c = some p → t ≠ some p) :
    FanStep n D sc c t (fanNode .serial n sc c t) := by
  have ha := h.alloc_spec .dup sc
  have hg := h.alloc .dup hsc
  have hl := h.alloc_later .dup sc
  have hnn := h.alloc_nn .dup sc
  have hid : (netAlloc .serial n .dup sc).1 = n.nn := by rw [h.alloc_eq]
  have hopen : ∀ p, Open n D p → Open (netAlloc .serial n .dup sc).2 D p := fun p hp => by
    have hlt := Net.live_lt hp.1
    refine ⟨(hl.live _ hlt).trans hp.1, ?_⟩
    rw [ha.wireOther p hlt.ne]
    exact hp.2
  have hold : ∀ p, Open n D p → p.node < n.nn := fun p hp => Net.live_lt hp.1
  have hfan : ∀ k, Open (netAlloc .serial n .dup sc).2 D ⟨n.nn, k⟩ :=
    fun k => ⟨ha.isLive, Or.inr (ha.wireNew k)⟩
  have hfanD : ∀ (k : Fin 3) (E : Set Port), (⟨n.nn, k⟩ : Port) ∉ D \ E :=
    fun k E hk => absurd (hD _ hk.1) (lt_irrefl _)
  have hne : ∀ k p, Open n D p → p ≠ ⟨n.nn, k⟩ := by
    rintro k p hp rfl
    exact absurd (hold _ hp) (lt_irrefl _)
  simp only [fanNode, hid]
  set n1 := (netAlloc .serial n .dup sc).2 with hn1
  obtain ⟨g1, w1, o1⟩ := hg.link_option .serial (hfan 1) (t := c)
    (fun p hp => ⟨hopen p (hc p hp), hne 1 p (hc p hp)⟩) (by simpa using hfanD 1 ∅) false
  have k1 := netLink_linked .serial n1 (some ⟨n.nn, 1⟩) c false
  set n2 := netLink .serial n1 (some ⟨n.nn, 1⟩) c false with hn2
  have hkeep : ∀ p, Open n1 D p → p ≠ ⟨n.nn, 1⟩ → some p ≠ c → Open n2 (D \ targets [c]) p := by
    rintro p ⟨hlp, hwp⟩ hp1 hpc
    refine ⟨(k1.live _).trans hlp, ?_⟩
    rw [o1 p hp1 hpc]
    exact hwp.imp_left fun hd => ⟨hd, fun hm => hpc (List.mem_singleton.mp hm)⟩
  obtain ⟨g2, w2, o2⟩ := g1.link_option .serial (a := ⟨n.nn, 2⟩) (t := t)
    (hkeep _ (hfan 2) (by simp) fun he => hne 2 _ (hc _ he.symm) rfl)
    (fun p hp => ⟨hkeep p (hopen p (ht p hp)) (hne 1 p (ht p hp)) fun he => hct p he.symm hp,
      hne 2 p (ht p hp)⟩) (hfanD 2 _) false
  have k2 := netLink_linked .serial n2 (some ⟨n.nn, 2⟩) t false
  have hk := k1.trans k2
  refine ⟨?_, hl.trans (.ofLinked hk), hk.nn.trans hnn, (hk.live _).trans ha.isLive,
    by rw [hk.tag]; exact ha.tagNew, by rw [hk.scope]; exact ha.scopeNew, ?_, ?_, w2,
    fun p hp hpc hpt => ?_⟩
  · rw [targets_pair, show D \ (targets [c] ∪ targets [t]) = (D \ targets [c]) \ targets [t] from
      sdiff_sdiff_left.symm]
    exact g2
  · rw [o2 _ (by simp) fun he => hne 0 _ (ht _ he.symm) rfl,
      o1 _ (by simp) fun he => hne 0 _ (hc _ he.symm) rfl]
    exact ha.wireNew 0
  · rw [o2 _ (by simp) fun he => hne 1 _ (ht _ he.symm) rfl]
    exact w1
  · rw [o2 p (fun he => by simp [he] at hp) hpt, o1 p (fun he => by simp [he] at hp) hpc]
    exact ha.wireOther p hp.ne

/-- The `i`-th leaf of a fan tree whose first node is `d`. -/
def fanPort (d : ℕ) : ℕ → Port
  | 0 => ⟨d, 1⟩
  | i + 1 => ⟨d + i, 2⟩

lemma fanPort_node_le (d i : ℕ) : d ≤ (fanPort d i).node := by
  cases i <;> simp [fanPort]

lemma fanPort_port (d i : ℕ) : (fanPort d i).port ≠ 0 := by
  cases i <;> simp [fanPort]

lemma fanPort_node_lt {d i m : ℕ} (hi : i < m) (hm : 2 ≤ m) :
    (fanPort d i).node < d + (m - 1) := by
  cases i <;> simp only [fanPort] <;> omega

/-- A fan tree over the targets `ts`, in the nodes from `n.nn` on. -/
structure FanBuilt (n : Net) (D : Set Port) (sc : ℕ) (ts : List (Option Port)) (root : Port)
    (n' : Net) : Prop where
  two : 2 ≤ ts.length
  good : Good n' (D \ targets ts)
  later : Later n n'
  nn : n'.nn = n.nn + (ts.length - 1)
  node : ∀ i, i < ts.length - 1 →
    n'.live (n.nn + i) = true ∧ n'.tag.get (n.nn + i) = .dup ∧ n'.scope.get (n.nn + i) = sc
  rootEq : root = ⟨n.nn + (ts.length - 2), 0⟩
  wireRoot : n'.wireAt root = none
  inner : ∀ i, i + 1 < ts.length - 1 → n'.wireAt ⟨n.nn + i, 0⟩ = some ⟨n.nn + (i + 1), 1⟩
  leaf : ∀ i t, ts[i]? = some t → n'.wireAt (fanPort n.nn i) = t
  other : ∀ p : Port, p.node < n.nn → p ∉ targets ts → n'.wireAt p = n.wireAt p

lemma FanStep.built {c t : Option Port} (h : FanStep n D sc c t n') :
    FanBuilt n D sc [c, t] ⟨n.nn, 0⟩ n' where
  two := le_rfl
  good := h.good
  later := h.later
  nn := h.nn
  node i hi := by
    obtain rfl : i = 0 := by simpa using hi
    exact ⟨h.isLive, h.tag, h.scope⟩
  rootEq := rfl
  wireRoot := h.wireRoot
  inner i hi := by simp at hi
  leaf i u hu := by
    rcases i with _ | _ | i
    · rw [List.getElem?_cons_zero, Option.some.injEq] at hu
      exact hu ▸ h.wireLeft
    · rw [List.getElem?_cons_succ, List.getElem?_cons_zero, Option.some.injEq] at hu
      exact hu ▸ h.wireRight
    · simp at hu
  other p hp ht := by
    simp only [targets, List.mem_cons, List.not_mem_nil, or_false, Set.mem_ofPred_eq, not_or] at ht
    exact h.wireOther p hp ht.1 ht.2

/-- One more fan on top of a fan tree. -/
lemma FanBuilt.step {n1 n2 : Net} {ts : List (Option Port)} {root : Port} {t : Option Port}
    (h : FanBuilt n D sc ts root n1) (hD : ∀ p ∈ D, p.node < n.nn)
    (ht : ∀ p, t = some p → p.node < n.nn)
    (hs : FanStep n1 (D \ targets ts) sc (some root) t n2) :
    FanBuilt n D sc (ts ++ [t]) ⟨n1.nn, 0⟩ n2 := by
  have htwo := h.two
  have hnn := h.nn
  have hrootD : root ∉ D := fun hd => by
    have := hD _ hd
    rw [h.rootEq] at this
    simp at this
  have hset : (D \ targets ts) \ targets [some root, t] = D \ targets (ts ++ [t]) := by
    ext p
    simp only [targets, List.mem_append, List.mem_cons, List.not_mem_nil, or_false, Set.mem_sdiff,
      Set.mem_ofPred_eq, Option.some.injEq, not_or]
    constructor
    · rintro ⟨⟨h1, h2⟩, h3, h4⟩
      exact ⟨h1, h2, h4⟩
    · rintro ⟨h1, h2, h4⟩
      exact ⟨⟨h1, h2⟩, fun he => hrootD (he ▸ h1), h4⟩
  have hgood : Good n2 (D \ targets (ts ++ [t])) := hset ▸ hs.good
  -- the new node is wired to the old root, both ways
  have htop : n2.wireAt root = some ⟨n1.nn, 1⟩ := by
    refine (hgood.wired ⟨n1.nn, 1⟩ root hs.isLive (fun hd => ?_) hs.wireLeft).2.2.1
    have := hD _ hd.1
    simp only at this
    omega
  have hlen : (ts ++ [t]).length = ts.length + 1 := by simp
  have hkeep : ∀ p : Port, n.nn ≤ p.node → p.node < n1.nn → p ≠ root →
      n2.wireAt p = n1.wireAt p := by
    intro p hp hp1 hpr
    refine hs.wireOther p hp1 (fun he => hpr (Option.some.inj he)) fun he => ?_
    have := ht p he.symm
    omega
  refine ⟨by omega, hgood, h.later.trans hs.later, by rw [hs.nn, hnn]; omega, fun i hi => ?_, ?_,
    hs.wireRoot, fun i hi => ?_, fun i u hu => ?_, fun p hp hpt => ?_⟩
  · rw [hlen] at hi
    by_cases hi' : i < ts.length - 1
    · obtain ⟨h1, h2, h3⟩ := h.node i hi'
      have hlt : n.nn + i < n1.nn := by omega
      exact ⟨(hs.later.live _ hlt).trans h1, (hs.later.tag _ hlt).trans h2,
        (hs.later.scope _ hlt).trans h3⟩
    · have he : n.nn + i = n1.nn := by omega
      rw [he]
      exact ⟨hs.isLive, hs.tag, hs.scope⟩
  · rw [hnn, hlen]
    rfl
  · rw [hlen] at hi
    by_cases hi' : i + 1 < ts.length - 1
    · rw [hkeep _ (by simp) (by simp only; omega) fun he => ?_]
      · exact h.inner i hi'
      · rw [h.rootEq, Port.mk.injEq] at he
        omega
    · have hr : (⟨n.nn + i, 0⟩ : Port) = root := by
        rw [h.rootEq, Port.mk.injEq]
        exact ⟨by omega, rfl⟩
      rw [hr, htop, hnn]
      congr 2
      omega
  · by_cases hi' : i < ts.length
    · rw [List.getElem?_append_left hi'] at hu
      rw [hkeep _ (fanPort_node_le _ _) (hnn ▸ fanPort_node_lt hi' htwo) fun he => ?_]
      · exact h.leaf i u hu
      · rw [h.rootEq] at he
        exact fanPort_port n.nn i (by rw [he])
    · obtain rfl : i = ts.length := by
        have := (List.getElem?_eq_some_iff.mp hu).1
        omega
      rw [List.getElem?_concat_length, Option.some.injEq] at hu
      subst hu
      have he : fanPort n.nn ts.length = ⟨n1.nn, 2⟩ := by
        obtain ⟨m, hm⟩ : ∃ m, ts.length = m + 1 := ⟨ts.length - 1, by omega⟩
        rw [hm, fanPort, hnn, hm]
        rfl
      rw [he]
      exact hs.wireRight
  · simp only [targets, List.mem_append, List.mem_singleton, Set.mem_ofPred_eq, not_or] at hpt
    have hpr : p ≠ root := by
      rintro rfl
      rw [h.rootEq] at hp
      simp at hp
    rw [hs.wireOther p (hp.trans_le h.later.nn) (fun he => hpr (Option.some.inj he)) hpt.2]
    exact h.other p hp hpt.1

/-- No port is the target of two entries. -/
def Separate (ts : List (Option Port)) : Prop :=
  ts.Pairwise fun t t' => ∀ p, t = some p → t' ≠ some p

lemma dupTreeLoop_spec {n1 : Net} (done ts : List (Option Port)) {root : Port}
    (h : FanBuilt n D sc done root n1) (hsc : sc ≤ n.levels.length) (hD : ∀ p ∈ D, p.node < n.nn)
    (hopen : ∀ p, some p ∈ ts → Open n D p) (hsep : Separate (done ++ ts)) :
    FanBuilt n D sc (done ++ ts) (dupTreeLoop .serial n1 root sc ts).1
      (dupTreeLoop .serial n1 root sc ts).2 := by
  induction ts generalizing n1 done root with
  | nil => simpa [dupTreeLoop] using h
  | cons t ts ih =>
    have hold : ∀ p, t = some p → p.node < n.nn := fun p hp =>
      Net.live_lt (hopen p (by simp [hp])).1
    have hrootnew : n.nn ≤ root.node := by
      rw [h.rootEq]
      exact Nat.le_add_right _ _
    have hrootlive : n1.live root.node = true := by
      rw [h.rootEq]
      have htwo := h.two
      exact (h.node _ (by omega)).1
    have hs := fanNode_spec h.good (hsc.trans h.later.levels.length_le) (c := some root) (t := t)
      (fun p hp => (hD p hp.1).trans_le h.later.nn) (fun p hp => by
        rw [Option.some.injEq] at hp
        subst hp
        exact ⟨hrootlive, Or.inr h.wireRoot⟩)
      (fun p hp => by
        obtain ⟨hl, hw⟩ := hopen p (by simp [hp])
        have hpd : p ∉ targets done := fun hd => by
          rw [Separate, List.pairwise_append] at hsep
          exact hsep.2.2 _ hd t (by simp) p rfl hp
        refine ⟨(h.later.live _ (hold p hp)).trans hl, ?_⟩
        rw [h.other p (hold p hp) hpd]
        exact hw.imp_left fun hd => ⟨hd, hpd⟩)
      (fun p hp hp' => by
        rw [Option.some.injEq] at hp
        subst hp
        exact absurd (hold _ hp') (by omega))
    have hid : (netAlloc .serial n1 .dup sc).1 = n1.nn := by rw [h.good.alloc_eq]
    have hstep : dupTreeLoop .serial n1 root sc (t :: ts) =
        dupTreeLoop .serial (fanNode .serial n1 sc (some root) t) ⟨n1.nn, 0⟩ sc ts := by
      rw [dupTreeLoop, fanNode, hid]
    have happ : done ++ t :: ts = (done ++ [t]) ++ ts := by simp
    rw [hstep, happ]
    exact ih (done ++ [t]) (h.step hD hold hs) (fun p hp => hopen p (by simp [hp]))
      (happ ▸ hsep)

/-- The fan tree over two targets or more. -/
theorem dupTree_spec (h : Good n D) {ts : List (Option Port)} (htwo : 2 ≤ ts.length)
    (hsc : sc ≤ n.levels.length) (hD : ∀ p ∈ D, p.node < n.nn)
    (hopen : ∀ p, some p ∈ ts → Open n D p) (hsep : Separate ts) :
    ∃ root, (dupTree .serial n ts sc).1 = some root ∧
      FanBuilt n D sc ts root (dupTree .serial n ts sc).2 := by
  rcases ts with _ | ⟨t0, _ | ⟨t1, ts⟩⟩
  · simp at htwo
  · simp at htwo
  · have hid : (netAlloc .serial n .dup sc).1 = n.nn := by rw [h.alloc_eq]
    have hsep' := hsep
    simp only [Separate, List.pairwise_cons] at hsep'
    have hs := fanNode_spec h hsc (c := t0) (t := t1) hD (fun p hp => hopen p (by simp [hp]))
      (fun p hp => hopen p (by simp [hp])) (hsep'.1 t1 (by simp))
    refine ⟨_, rfl, ?_⟩
    have he : (dupTree .serial n (t0 :: t1 :: ts) sc).2 =
        (dupTreeLoop .serial (fanNode .serial n sc t0 t1) ⟨n.nn, 0⟩ sc ts).2 := by
      rw [dupTree, fanNode, hid]
    have hr : (dupTreeLoop .serial (netLink .serial (netLink .serial (netAlloc .serial n .dup sc).2
        (some ⟨(netAlloc .serial n .dup sc).1, 1⟩) t0 false)
        (some ⟨(netAlloc .serial n .dup sc).1, 2⟩) t1 false)
        ⟨(netAlloc .serial n .dup sc).1, 0⟩ sc ts).1 =
        (dupTreeLoop .serial (fanNode .serial n sc t0 t1) ⟨n.nn, 0⟩ sc ts).1 := by
      rw [fanNode, hid]
    rw [he, hr]
    exact dupTreeLoop_spec [t0, t1] ts hs.built hsc hD (fun p hp => hopen p (by simp [hp])) hsep

end Fan

/-! ## Collecting the uses of a variable -/

/-- The ports the uses of a variable lead to: its bind port and spare placeholders. -/
structure Spare (n : Net) (bind : Port) (extra : List Port) : Prop where
  nodup : (bind :: extra).Nodup
  port : ∀ p ∈ bind :: extra, p.port = 1
  live : ∀ p ∈ bind :: extra, n.live p.node = true
  idle : ∀ p ∈ extra, n.wireAt ⟨p.node, 0⟩ = none ∧ n.wireAt ⟨p.node, 2⟩ = none
  consumer : ∀ p ∈ bind :: extra, ∀ c, n.wireAt p = some c → c.port ≠ 1

/-- The placeholders `ps` were spent. -/
structure Emptied (ps : List Port) (n n' : Net) : Prop where
  nn : n'.nn = n.nn
  tag : n'.tag = n.tag
  scope : n'.scope = n.scope
  levels : n'.levels = n.levels
  live : ∀ v, n'.live v = true ↔ n.live v = true ∧ ∀ p ∈ ps, v ≠ p.node
  wire : ∀ q : Port, (∀ p ∈ ps, q.node ≠ p.node) → n'.wireAt q = n.wireAt q

lemma spendExtras_spec {ps : List Port} {n : Net} {D : Set Port} (h : Good n D)
    (hport : ∀ p ∈ ps, p.port = 1) (hnodup : ps.Nodup)
    (hoff : ∀ p q : Port, n.live p.node = true → p ∉ D → n.wireAt p = some q →
      ∀ r ∈ ps, q.node ≠ r.node) :
    (spendExtras n ps).1 = ps.map n.wireAt ∧ Good (spendExtras n ps).2 D ∧
      Emptied ps n (spendExtras n ps).2 := by
  induction ps generalizing n with
  | nil => exact ⟨rfl, h, rfl, rfl, rfl, rfl, fun v => by simp [spendExtras], fun q _ => rfl⟩
  | cons p ps ih =>
    have hp : (⟨p.node, 1⟩ : Port) = p := by rw [← hport p (by simp)]
    have hne : ∀ q ∈ ps, q.node ≠ p.node := by
      intro q hq he
      obtain rfl : q = p := by
        obtain ⟨u, k⟩ := q
        obtain ⟨v, l⟩ := p
        have hk := hport ⟨u, k⟩ (by simp [hq])
        have hl := hport ⟨v, l⟩ (by simp)
        simp_all
      exact (List.nodup_cons.mp hnodup).1 hq
    have hg := h.spend (v := p.node) fun q r hl _ hq hw => hoff q r hl hq hw p (by simp)
    obtain ⟨h1, h2, h3⟩ := ih hg (fun q hq => hport q (by simp [hq])) (List.nodup_cons.mp hnodup).2
      fun q r hl hq hw s hs => by
        rw [spendNode_live] at hl
        rw [spendNode_wireAt hl.2] at hw
        exact hoff q r hl.1 hq hw s (by simp [hs])
    have hstep : spendExtras n (p :: ps) =
        (n.wireAt p :: (spendExtras (spendNode n p.node) ps).1,
          (spendExtras (spendNode n p.node) ps).2) := by
      rw [spendExtras, spendExtra, spendNode, hp]
    rw [hstep]
    refine ⟨?_, h2, h3.nn, h3.tag, h3.scope, h3.levels, fun v => ?_, fun q hq => ?_⟩
    · rw [h1, List.map_cons, List.map_congr_left fun q hq => spendNode_wireAt (hne q hq)]
    · rw [h3.live, spendNode_live, and_assoc, List.forall_mem_cons]
    · rw [h3.wire q fun r hr => hq r (by simp [hr]), spendNode_wireAt (hq p (by simp))]

/-- The uses and what is wired to them. -/
def around (n : Net) (us : List Port) : Set Port := {p | p ∈ us ∨ ∃ u ∈ us, n.wireAt u = some p}

theorem usePorts_spec {n : Net} (h : Good n ∅) {e : CVar} {bind : Port}
    (hs : Spare n bind e.extra) :
    (usePorts n e bind).1 = (bind :: e.extra).map n.wireAt ∧
      Good (usePorts n e bind).2 (around n (bind :: e.extra)) ∧
      Emptied e.extra n (usePorts n e bind).2 := by
  have hw := h.toWired
  have hout : ∀ p q : Port, n.live p.node = true → p ∉ around n (bind :: e.extra) →
      n.wireAt p = some q → q ∉ around n (bind :: e.extra) := by
    rintro p q hl hp hpq (hq | ⟨u, hu, huq⟩)
    · exact hp (Or.inr ⟨q, hq, (hw p q hl hpq).2.1⟩)
    · have h1 := (hw u q (hs.live u hu) huq).2.1
      rw [(hw p q hl hpq).2.1, Option.some.injEq] at h1
      exact hp (Or.inl (h1 ▸ hu))
  have hg := h.weaken (Set.empty_subset _) hout
  obtain ⟨h1, h2, h3⟩ := spendExtras_spec hg (fun p hp => hs.port p (by simp [hp]))
    (List.nodup_cons.mp hs.nodup).2 fun p q hl hp hpq r hr he => by
      -- a port of a placeholder is its use port or idle
      obtain ⟨v, k⟩ := q
      obtain rfl : v = r.node := he
      have hback := (hw p _ hl hpq).2.1
      have hr1 := hs.port r (by simp [hr])
      fin_cases k
      · simp [(hs.idle r hr).1] at hback
      · exact hout p _ hl hp hpq (Or.inl (by
          have : (⟨r.node, 1⟩ : Port) = r := by rw [← hr1]
          simp only [Fin.mk_one, this]
          exact List.mem_cons_of_mem _ hr))
      · simp [(hs.idle r hr).2] at hback
  refine ⟨?_, h2, h3⟩
  rw [usePorts, h1]
  rfl

/-- Dead ports do not have to be linked any more. -/
lemma Good.discard {n : Net} {D : Set Port} (h : Good n D)
    (hD : ∀ p ∈ D, n.live p.node = false) : Good n ∅ :=
  ⟨fun p q hl _ hw => by
    obtain ⟨h1, -, h3, h4⟩ := h.wired p q hl (fun hd => by simp [hD p hd] at hl) hw
    exact ⟨h1, Set.notMem_empty q, h3, h4⟩, h.free, h.pins, h.trie, h.scopes⟩

/-! ## Wiring the uses of a variable to a fan tree -/

/-- Where the uses `us` of a variable lead once they have a fan tree from node `d` on. -/
def fanMap (d : ℕ) (us : List Port) (p : Port) : Port :=
  if p ∈ us then fanPort d (us.idxOf p) else p

lemma fanMap_off {d : ℕ} {us : List Port} {p : Port} (h : p ∉ us) : fanMap d us p = p := if_neg h

lemma fanMap_getElem {d : ℕ} {us : List Port} (hn : us.Nodup) {i : ℕ} (hi : i < us.length) :
    fanMap d us us[i] = fanPort d i := by
  rw [fanMap, if_pos (List.getElem_mem hi), hn.idxOf_getElem]

lemma map_fanMap {d : ℕ} {us : List Port} (hn : us.Nodup) :
    us.map (fanMap d us) = (List.range us.length).map (fanPort d) := by
  refine List.ext_getElem (by simp) fun i hi _ => ?_
  rw [List.length_map] at hi
  simp only [List.getElem_map, List.getElem_range, fanMap_getElem hn hi]

/-- The uses `us` of a variable have become the leaves of a fan tree with root `root`,
which is still loose, in the nodes from `n.nn` on. -/
structure Fanned (n : Net) (us : List Port) (sc : ℕ) (root : Port) (n' : Net) : Prop where
  good : Good n' {p | p ∈ us}
  nn : n'.nn = n.nn + (us.length - 1)
  levels : n.levels <+: n'.levels
  live : ∀ v, v < n.nn → (n'.live v = true ↔ n.live v = true ∧ ∀ p ∈ us.tail, v ≠ p.node)
  tag : ∀ v, v < n.nn → n'.tag.get v = n.tag.get v
  scope : ∀ v, v < n.nn → n'.scope.get v = n.scope.get v
  node : ∀ i, i < us.length - 1 →
    n'.live (n.nn + i) = true ∧ n'.tag.get (n.nn + i) = .dup ∧ n'.scope.get (n.nn + i) = sc
  rootEq : root = ⟨n.nn + (us.length - 2), 0⟩
  wireRoot : n'.wireAt root = none
  inner : ∀ i, i + 1 < us.length - 1 → n'.wireAt ⟨n.nn + i, 0⟩ = some ⟨n.nn + (i + 1), 1⟩
  moved : ∀ p q, n.live p.node = true → p ∉ us → n.wireAt p = some q →
    n'.wireAt p = some (fanMap n.nn us q)
  other : ∀ p : Port, p.node < n.nn → (∀ r ∈ us.tail, p.node ≠ r.node) →
    (∀ u ∈ us, n.wireAt u ≠ some p) → n'.wireAt p = n.wireAt p

theorem fanned {n m : Net} (h : Good n ∅) {e : CVar} {bind : Port} (hs : Spare n bind e.extra)
    (hne : e.extra ≠ []) (hg : Grown (usePorts n e bind).2 m) (ht : TrieOk m) {sc : ℕ}
    (hsc : sc ≤ m.levels.length) :
    ∃ root, (dupTree .serial m (usePorts n e bind).1 sc).1 = some root ∧
      Fanned n (bind :: e.extra) sc root (dupTree .serial m (usePorts n e bind).1 sc).2 := by
  obtain ⟨hts, hgood, hem⟩ := usePorts_spec h hs
  have hw := h.toWired
  set us := bind :: e.extra with hus
  rw [hts]
  have hgm : Good m (around n us) := hgood.grow hg ht
  have hnn : m.nn = n.nn := by rw [hg.same]; exact hem.nn
  have hmem : ∀ c, some c ∈ us.map n.wireAt ↔ ∃ u ∈ us, n.wireAt u = some c := by simp
  have hback : ∀ u ∈ us, ∀ c, n.wireAt u = some c → n.live c.node = true ∧ n.wireAt c = some u :=
    fun u hu c hc => ⟨(hw u c (hs.live u hu) hc).1, (hw u c (hs.live u hu) hc).2.1⟩
  have hlive : ∀ v, m.live v = true ↔ n.live v = true ∧ ∀ p ∈ e.extra, v ≠ p.node := fun v => by
    rw [hg.live]
    exact hem.live v
  -- a port off `us` with a wire is not a port of a placeholder
  have hoff : ∀ p q : Port, p ∉ us → n.wireAt p = some q → ∀ r ∈ e.extra, p.node ≠ r.node := by
    rintro ⟨v, k⟩ q hp hq r hr he
    obtain rfl : v = r.node := he
    have hr1 := hs.port r (by simp [hr])
    fin_cases k
    · simp [(hs.idle r hr).1] at hq
    · have : (⟨r.node, 1⟩ : Port) = r := by rw [← hr1]
      exact hp (by simp only [Fin.mk_one, this, hus]; exact List.mem_cons_of_mem _ hr)
    · simp [(hs.idle r hr).2] at hq
  have hlen : 2 ≤ (us.map n.wireAt).length := by
    have := List.length_pos_iff.mpr hne
    simp only [hus, List.map_cons, List.length_cons, List.length_map]
    omega
  have hulen : (us.map n.wireAt).length = us.length := List.length_map _
  have hnot : ∀ u ∈ us, ∀ c, n.wireAt u = some c → c ∉ us := fun u hu c hc hcu =>
    hs.consumer u hu c hc (hs.port c hcu)
  obtain ⟨root, hroot, hb⟩ := dupTree_spec hgm hlen hsc
    (fun p hp => by
      rw [hnn]
      rcases hp with hp | ⟨u, hu, hp⟩
      · exact Net.live_lt (hs.live p hp)
      · exact Net.live_lt (hback u hu p hp).1)
    (fun p hp => by
      obtain ⟨u, hu, hp⟩ := (hmem p).mp hp
      have hc := hback u hu p hp
      exact ⟨(hlive _).mpr ⟨hc.1, hoff p u (hnot u hu p hp) hc.2⟩, Or.inl (Or.inr ⟨u, hu, hp⟩)⟩)
    (by
      rw [Separate, List.pairwise_map]
      refine hs.nodup.imp_of_mem fun {u u'} hu hu' hne p hp hp' => hne ?_
      have h1 := (hback u hu p hp).2
      rw [(hback u' hu' p hp').2, Option.some.injEq] at h1
      exact h1.symm)
  have hwm : ∀ p : Port, (∀ r ∈ e.extra, p.node ≠ r.node) → m.wireAt p = n.wireAt p := fun p hp =>
    (hg.wireAt p).trans (hem.wire p hp)
  have hgood' : Good (dupTree .serial m (us.map n.wireAt) sc).2 {p | p ∈ us} := by
    have hset : around n us \ targets (us.map n.wireAt) = {p | p ∈ us} := by
      ext p
      simp only [around, targets, hmem, Set.mem_sdiff, Set.mem_ofPred_eq]
      constructor
      · rintro ⟨h1 | h1, h2⟩
        exacts [h1, absurd h1 h2]
      · exact fun h1 => ⟨Or.inl h1, fun ⟨u, hu, huq⟩ => hnot u hu p huq h1⟩
    exact hset ▸ hb.good
  refine ⟨root, hroot, hgood', ?_, ?_, fun v hv => ?_, fun v hv => ?_, fun v hv => ?_, fun i hi => ?_,
    ?_, hb.wireRoot, fun i hi => ?_, fun p q hl hp hq => ?_, fun p hlt hr hc => ?_⟩
  · rw [hb.nn, hnn, hulen]
  · have hl : n.levels <+: m.levels := by
      have := hg.grown
      rwa [hem.levels] at this
    exact hl.trans hb.later.levels
  · rw [hb.later.live v (hnn ▸ hv), hlive, hus, List.tail_cons]
  · rw [hb.later.tag v (hnn ▸ hv), hg.same]
    exact congrFun (congrArg _ hem.tag) v
  · rw [hb.later.scope v (hnn ▸ hv), hg.same]
    exact congrFun (congrArg _ hem.scope) v
  · rw [← hnn]
    exact hb.node i (hulen.symm ▸ hi)
  · rw [hb.rootEq, hnn, hulen]
  · rw [← hnn]
    exact hb.inner i (hulen.symm ▸ hi)
  · have hpm := hwm p (hoff p q hp hq)
    have hlt := Net.live_lt hl
    by_cases hqu : q ∈ us
    · -- a use: it is now a leaf of the tree
      obtain ⟨i, hi, rfl⟩ := List.getElem_of_mem hqu
      rw [fanMap_getElem hs.nodup hi, ← hnn]
      have hleaf := hb.leaf i (some p) (by
        rw [List.getElem?_map, List.getElem?_eq_getElem hi, Option.map_some, (hw p _ hl hq).2.1])
      have hi' : i < (us.map n.wireAt).length := hulen.symm ▸ hi
      have hlv : (dupTree .serial m (us.map n.wireAt) sc).2.live (fanPort m.nn i).node = true := by
        have h1 := fanPort_node_le m.nn i
        have h2 := fanPort_node_lt (d := m.nn) hi' hlen
        have h3 := (hb.node ((fanPort m.nn i).node - m.nn) (by omega)).1
        rwa [show m.nn + ((fanPort m.nn i).node - m.nn) = (fanPort m.nn i).node by omega] at h3
      refine (hgood'.wired _ p hlv (fun hd => ?_) hleaf).2.2.1
      have h1 := fanPort_node_le m.nn i
      have h2 := Net.live_lt (hs.live _ hd)
      omega
    · rw [fanMap_off hqu, hb.other p (hnn ▸ hlt) (fun ht => ?_), hpm, hq]
      obtain ⟨u, hu, hup⟩ := (hmem p).mp ht
      rw [(hback u hu p hup).2, Option.some.injEq] at hq
      exact hqu (hq ▸ hu)
  · rw [hb.other p (hnn ▸ hlt) (fun ht => ?_)]
    · exact hwm p hr
    · obtain ⟨u, hu, hup⟩ := (hmem p).mp ht
      exact hc u hu hup

/-- A fan tree over the uses `us`, hung under the port `top`. -/
structure Fanning (n : Net) (us : List Port) (sc : ℕ) (top : Port) (n' : Net) : Prop where
  good : Good n' {p | p ∈ us ∧ p ≠ top}
  nn : n'.nn = n.nn + (us.length - 1)
  levels : n.levels <+: n'.levels
  live : ∀ v, v < n.nn → (n'.live v = true ↔ n.live v = true ∧ ∀ p ∈ us.tail, v ≠ p.node)
  tag : ∀ v, v < n.nn → n'.tag.get v = n.tag.get v
  scope : ∀ v, v < n.nn → n'.scope.get v = n.scope.get v
  node : ∀ i, i < us.length - 1 →
    n'.live (n.nn + i) = true ∧ n'.tag.get (n.nn + i) = .dup ∧ n'.scope.get (n.nn + i) = sc
  inner : ∀ i, i + 1 < us.length - 1 → n'.wireAt ⟨n.nn + i, 0⟩ = some ⟨n.nn + (i + 1), 1⟩
  wireTop : n'.wireAt ⟨n.nn + (us.length - 2), 0⟩ = some top
  topWire : n'.wireAt top = some ⟨n.nn + (us.length - 2), 0⟩
  moved : ∀ p q, n.live p.node = true → p ∉ us → n.wireAt p = some q →
    n'.wireAt p = some (fanMap n.nn us q)
  other : ∀ p : Port, p.node < n.nn → (∀ r ∈ us.tail, p.node ≠ r.node) → p ≠ top →
    (∀ u ∈ us, n.wireAt u ≠ some p) → n'.wireAt p = n.wireAt p

/-- The root of the fan tree is linked last. -/
lemma Fanned.hang {n n' m : Net} {us : List Port} {sc : ℕ} {root top : Port}
    (h : Fanned n us sc root n') (htop : top ∈ us ∨ n.wireAt top = none) (hlt : top.node < n.nn)
    (hus : ∀ p ∈ us, p.node < n.nn)
    (hg : Good m ({p | p ∈ us} \ {top, root})) (hk : Linked n' m)
    (hw : ∀ q, m.wireAt q = if q = root then some top else if q = top then some root
      else n'.wireAt q) : Fanning n us sc top m := by
  have hold : ∀ p : Port, p.node < n.nn → p ≠ root := by
    rintro p hp rfl
    rw [h.rootEq] at hp
    simp at hp
  have hset : {p | p ∈ us} \ {top, root} = {p | p ∈ us ∧ p ≠ top} := by
    ext p
    simp only [Set.mem_sdiff, Set.mem_ofPred_eq, Set.mem_insert_iff, Set.mem_singleton_iff, not_or]
    exact ⟨fun h => ⟨h.1, h.2.1⟩, fun hp => ⟨hp.1, hp.2, hold p (hus p hp.1)⟩⟩
  refine ⟨hset ▸ hg, hk.nn.trans h.nn, hk.levels ▸ h.levels, fun v hv => ?_, fun v hv => ?_,
    fun v hv => ?_, fun i hi => ?_, fun i hi => ?_, ?_, ?_, fun p q hl hp hq => ?_,
    fun p hp hr ht hc => ?_⟩
  · rw [hk.live]
    exact h.live v hv
  · rw [hk.tag]
    exact h.tag v hv
  · rw [hk.scope]
    exact h.scope v hv
  · rw [hk.live, hk.tag, hk.scope]
    exact h.node i hi
  · rw [hw, if_neg, if_neg, h.inner i hi]
    · rintro rfl
      simp at hlt
    · rw [h.rootEq, Port.mk.injEq]
      omega
  · rw [hw, if_pos h.rootEq.symm]
  · rw [hw, if_neg (hold top hlt), if_pos rfl, h.rootEq]
  · rw [hw, if_neg (hold p (Net.live_lt hl)), if_neg, h.moved p q hl hp hq]
    rintro rfl
    rcases htop with ht | ht
    · exact hp ht
    · rw [ht] at hq
      cases hq
  · rw [hw, if_neg (hold p hp), if_neg ht]
    exact h.other p hp hr hc

end LinEngine
