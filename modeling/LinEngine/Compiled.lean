import LinEngine.Layout

/-!
# The compiler builds layouts

The state of the compiler between two cases: a well-wired net, and a stack whose
variables hold the ports their uses so far lead to. Each case of `ct_in` lays out its
term from the layouts of its parts, touching nothing of the net that was there but
the bind ports it uses first.
-/
namespace LinEngine

/-- The ports the uses of a variable so far lead to, the first use first. -/
def CVar.uses (e : CVar) : List Port := if e.count = 0 then [] else e.bind :: e.extra

/-- All ports a variable may be wired through. -/
def CVar.held (e : CVar) : List Port := e.bind :: e.extra

def CState.names (s : CState) : List String := s.cstack.map (·.name)

def CState.held (s : CState) : List Port := s.cstack.flatMap CVar.held

/-- The compiler between two cases. -/
structure CInv (s : CState) : Prop where
  good : Good s.net ∅
  lvl : s.curLvl ≤ s.net.levels.length
  nodup : s.held.Nodup
  port : ∀ p ∈ s.held, p.port = 1
  live : ∀ p ∈ s.held, s.net.live p.node = true
  consumer : ∀ p ∈ s.held, ∀ c, s.net.wireAt p = some c → c.port ≠ 1
  era : ∀ e ∈ s.cstack, ∀ p ∈ e.extra, s.net.tag.get p.node = .era
  idle : ∀ e ∈ s.cstack, ∀ p ∈ e.extra,
    s.net.wireAt ⟨p.node, 0⟩ = none ∧ s.net.wireAt ⟨p.node, 2⟩ = none
  count : ∀ e ∈ s.cstack, e.extra.length = e.count - 1
  fresh : ∀ e ∈ s.cstack, e.count = 0 → s.net.wireAt e.bind = none

/-- Each variable has got the uses `u` in addition. -/
structure Advanced (u : ℕ → List Port) (l l' : List CVar) : Prop where
  length : l'.length = l.length
  entry : ∀ i e, l[i]? = some e → ∃ e', l'[i]? = some e' ∧ e'.name = e.name ∧ e'.bind = e.bind ∧
    e'.uses = e.uses ++ u i
  beyond : ∀ i, l.length ≤ i → u i = []

/-- What a case of the compiler leaves alone. -/
structure Ext (u : ℕ → List Port) (s s' : CState) : Prop where
  later : Later s.net s'.net
  stack : Advanced u s.cstack s'.cstack
  uses : ∀ i, ∀ p ∈ u i, s.net.nn ≤ p.node ∨
    ∃ e, s.cstack[i]? = some e ∧ e.bind = p ∧ e.count = 0
  wires : ∀ p : Port, p.node < s.net.nn → s'.net.wireAt p = s.net.wireAt p ∨
    ∃ i e, s.cstack[i]? = some e ∧ e.bind = p ∧ e.count = 0 ∧ u i ≠ []

/-- The term is laid out, its value port `r` still loose. -/
structure Compiled (s : CState) (t : Term) (u : ℕ → List Port) (r : Port) (ns : List ℕ)
    (ls : List Port) (s' : CState) : Prop where
  inv : CInv s'
  ext : Ext u s s'
  laid : Laid s'.net s.names t u r ns ls
  nodup : ns.Nodup
  range : ∀ v ∈ ns, s.net.nn ≤ v ∧ v < s'.net.nn
  all : ∀ v, s.net.nn ≤ v → s'.net.live v = true → v ∈ ns ∨ ∃ i, ∃ p ∈ u i, p.node = v
  live : s'.net.live r.node = true
  loose : s'.net.wireAt r = none

/-- In the scope `Γ`, compiling `t` lays it out. -/
def Correct (Γ : List String) (t : Term) (c : CT) : Prop :=
  ∀ s, CInv s → s.names = Γ → ∃ u r ns ls s', c s = .ok (r, s') ∧ Compiled s t u r ns ls s'

/-! ## Steps that only grow the net -/

/-- New nodes and levels, the rest as it was. -/
structure Quiet (s s' : CState) : Prop where
  later : Later s.net s'.net
  stack : s'.cstack = s.cstack
  wires : ∀ p : Port, p.node < s.net.nn → s'.net.wireAt p = s.net.wireAt p

section Quiet

variable {s s' s'' : CState}

lemma CState.held_lt (hs : CInv s) {p : Port} (hp : p ∈ s.held) : p.node < s.net.nn :=
  Net.live_lt (hs.live p hp)

lemma CVar.mem_held {e : CVar} (he : e ∈ s.cstack) {p : Port} (hp : p ∈ e.held) : p ∈ s.held :=
  List.mem_flatMap.mpr ⟨e, he, hp⟩

lemma Quiet.trans (h : Quiet s s') (h' : Quiet s' s'') : Quiet s s'' :=
  ⟨h.later.trans h'.later, h'.stack.trans h.stack, fun p hp =>
    (h'.wires p (hp.trans_le h.later.nn)).trans (h.wires p hp)⟩

lemma Quiet.inv (h : Quiet s s') (hs : CInv s) (hg : Good s'.net ∅)
    (hl : s'.curLvl ≤ s'.net.levels.length) : CInv s' := by
  have hheld : s'.held = s.held := by rw [CState.held, CState.held, h.stack]
  have hextra : ∀ e ∈ s.cstack, ∀ p ∈ e.extra, p.node < s.net.nn := fun e he p hp =>
    CState.held_lt hs (CVar.mem_held he (List.mem_cons_of_mem _ hp))
  refine ⟨hg, hl, hheld ▸ hs.nodup, hheld ▸ hs.port, fun p hp => ?_, fun p hp c hc => ?_,
    fun e he p hp => ?_, fun e he p hp => ?_, h.stack ▸ hs.count, fun e he h0 => ?_⟩
  · rw [hheld] at hp
    exact (h.later.live _ (CState.held_lt hs hp)).trans (hs.live p hp)
  · rw [hheld] at hp
    rw [h.wires p (CState.held_lt hs hp)] at hc
    exact hs.consumer p hp c hc
  · rw [h.stack] at he
    exact (h.later.tag _ (hextra e he p hp)).trans (hs.era e he p hp)
  · rw [h.stack] at he
    have hlt := hextra e he p hp
    rw [h.wires ⟨p.node, 0⟩ hlt, h.wires ⟨p.node, 2⟩ hlt]
    exact hs.idle e he p hp
  · rw [h.stack] at he
    rw [h.wires _ (CState.held_lt hs (CVar.mem_held he List.mem_cons_self))]
    exact hs.fresh e he h0

lemma alloc_quiet (hs : CInv s) (tag : Tag) (sc : ℕ) : Quiet s (s.alloc tag sc).2 := by
  have ha := hs.good.alloc_spec tag sc
  exact ⟨hs.good.alloc_later tag sc, rfl, fun p hp => ha.wireOther p hp.ne⟩

lemma alloc_inv (hs : CInv s) (tag : Tag) {sc : ℕ} (hsc : sc ≤ s.net.levels.length) :
    CInv (s.alloc tag sc).2 := by
  refine (alloc_quiet hs tag sc).inv hs (hs.good.alloc tag hsc) (hs.lvl.trans ?_)
  exact (hs.good.alloc_later tag sc).levels.length_le

lemma alloc_fst (hs : CInv s) (tag : Tag) (sc : ℕ) : (s.alloc tag sc).1 = s.net.nn := by
  simp only [CState.alloc, hs.good.alloc_eq]

/-- Interning below a level that exists. -/
lemma scopeApp_spec {n : Net} (ht : TrieOk n) {l : ℕ} (hl : l ≤ n.levels.length) (bit : ℕ) :
    Interned n (lvlPath n l ++ [bit % 2]) (scopeApp n l bit) := lvIntern_spec ht hl _

/-- A state whose trie has grown. -/
lemma grown_quiet {n : Net} (h : Grown s.net n) (l : ℕ) : Quiet s { s with net := n, curLvl := l } :=
  ⟨.ofGrown h, rfl, fun p _ => h.wireAt p⟩

lemma enter_quiet (hs : CInv s) {l : ℕ} (hl : l ≤ s.net.levels.length) (bit : ℕ) :
    Quiet s (s.enter l bit) := grown_quiet (scopeApp_spec hs.good.trie hl bit).grown _

lemma enter_nn (hs : CInv s) {l : ℕ} (hl : l ≤ s.net.levels.length) (bit : ℕ) :
    (s.enter l bit).net.nn = s.net.nn := by
  have h := (scopeApp_spec hs.good.trie hl bit).grown.same
  simp only [CState.enter]
  rw [h]

lemma enter_inv (hs : CInv s) {l : ℕ} (hl : l ≤ s.net.levels.length) (bit : ℕ) :
    CInv (s.enter l bit) := by
  have h := scopeApp_spec hs.good.trie hl bit
  exact (enter_quiet hs hl bit).inv hs (hs.good.grow h.grown h.trieOk) h.le

end Quiet

/-- The level is not part of the invariant but for its bound. -/
lemma CInv.relevel {s : CState} (hs : CInv s) {l : ℕ} (hl : l ≤ s.net.levels.length) :
    CInv { s with curLvl := l } :=
  ⟨hs.good, hl, hs.nodup, hs.port, hs.live, hs.consumer, hs.era, hs.idle, hs.count, hs.fresh⟩

/-! ## Linking a value -/

section Link

variable {s : CState} {a r : Port}

/-- What is linked: a consumer that no variable holds, and a loose value. -/
structure Linkable (s : CState) (a r : Port) : Prop where
  ne : a ≠ r
  liveL : s.net.live a.node = true
  liveR : s.net.live r.node = true
  looseL : s.net.wireAt a = none
  looseR : s.net.wireAt r = none
  port : a.port ≠ 1
  tagL : s.net.tag.get a.node ≠ .era
  tagR : r.port = 1 ∨ s.net.tag.get r.node ≠ .era
  used : ∀ e ∈ s.cstack, e.count = 0 → e.bind ≠ r

lemma CState.link_wireAt (s : CState) (a r p : Port) (e : Bool) :
    (s.link (some a) (some r) e).net.wireAt p =
      if r = p then some a else if a = p then some r else s.net.wireAt p :=
  netLink_wireAt .serial s.net a r p e

lemma CState.link_linked (s : CState) (a r : Option Port) (e : Bool) :
    Linked s.net (s.link a r e).net := netLink_linked .serial s.net a r e

lemma Linkable.inv (h : Linkable s a r) (hs : CInv s) (e : Bool) :
    CInv (s.link (some a) (some r) e) := by
  have hk := s.link_linked (some a) (some r) e
  have hg := hs.good.link .serial (a := a) (b := r) ⟨h.liveL, Or.inr h.looseL⟩
    ⟨h.liveR, Or.inr h.looseR⟩ h.ne e
  rw [Set.empty_sdiff] at hg
  have hnot : ∀ p ∈ s.held, a ≠ p := fun p hp he => h.port (he ▸ hs.port p hp)
  refine ⟨hg, hk.levels ▸ hs.lvl, hs.nodup, hs.port, fun p hp => (hk.live _).trans (hs.live p hp),
    fun p hp c hc => ?_, fun x hx p hp => ?_, fun x hx p hp => ?_, hs.count, fun x hx h0 => ?_⟩
  · rw [CState.link_wireAt] at hc
    split_ifs at hc with h1 h2
    · obtain rfl := Option.some.inj hc
      exact h.port
    · exact absurd h2 (hnot p hp)
    · exact hs.consumer p hp c hc
  · rw [hk.tag]
    exact hs.era x hx p hp
  · have hera := hs.era x hx p hp
    have hne : ∀ k : Fin 3, k ≠ 1 → a ≠ ⟨p.node, k⟩ ∧ r ≠ ⟨p.node, k⟩ := by
      refine fun k hk => ⟨fun he => h.tagL (by rw [he]; exact hera), fun he => ?_⟩
      rcases h.tagR with ht | ht
      · rw [he] at ht
        exact hk ht
      · exact ht (by rw [he]; exact hera)
    obtain ⟨h0, h2⟩ := hs.idle x hx p hp
    constructor
    · rw [CState.link_wireAt, if_neg (hne 0 (by decide)).2, if_neg (hne 0 (by decide)).1, h0]
    · rw [CState.link_wireAt, if_neg (hne 2 (by decide)).2, if_neg (hne 2 (by decide)).1, h2]
  · have hb := CVar.mem_held hx (List.mem_cons_self (a := x.bind) (l := x.extra))
    rw [CState.link_wireAt, if_neg (Ne.symm (h.used x hx h0)), if_neg (hnot _ hb)]
    exact hs.fresh x hx h0

end Link

/-! ## A use of a variable -/

section Var

variable {s : CState} {x : String}

lemma ctVarLoop_spec (s : CState) {l : List CVar} (pre : List CVar)
    (hx : x ∈ l.map (·.name)) : ∃ mid e post, l = mid ++ e :: post ∧ e.name = x ∧
      (∀ y ∈ mid, y.name ≠ x) ∧ ctVarLoop s x pre l = .ok (useVar s (pre ++ mid) e post) := by
  induction l generalizing pre with
  | nil => simp at hx
  | cons e l ih =>
    by_cases he : e.name = x
    · exact ⟨[], e, l, rfl, he, by simp, by rw [ctVarLoop, if_pos he, List.append_nil]⟩
    · have hx' : x ∈ l.map (·.name) := by
        rcases List.mem_cons.mp hx with h | h
        · exact absurd h.symm he
        · exact h
      obtain ⟨mid, e', post, rfl, hn, hm, hok⟩ := ih (pre ++ [e]) hx'
      refine ⟨e :: mid, e', post, rfl, hn, by simpa [he] using hm, ?_⟩
      rw [ctVarLoop, if_neg he, hok, List.append_assoc]
      rfl

/-- The variable of the stack that a name refers to. -/
structure Resolved (s : CState) (x : String) (pre : List CVar) (e : CVar) (post : List CVar) :
    Prop where
  stack : s.cstack = pre ++ e :: post
  name : e.name = x
  before : ∀ y ∈ pre, y.name ≠ x

lemma exists_resolved (hx : x ∈ s.names) : ∃ pre e post, Resolved s x pre e post ∧
    ctVar x s = .ok (useVar s pre e post) := by
  obtain ⟨pre, e, post, h1, h2, h3, h4⟩ := ctVarLoop_spec s [] hx
  exact ⟨pre, e, post, ⟨h1, h2, h3⟩, h4⟩

variable {pre post : List CVar} {e e' : CVar}

lemma Resolved.idxOf (h : Resolved s x pre e post) : s.names.idxOf x = pre.length := by
  have hn : s.names = pre.map (·.name) ++ x :: post.map (·.name) := by
    rw [CState.names, h.stack]
    simp [h.name]
  rw [hn, List.idxOf_append_of_notMem, List.idxOf_cons_self, List.length_map, Nat.add_zero]
  rw [List.mem_map]
  rintro ⟨y, hy, he⟩
  exact h.before y hy he

lemma Resolved.mem (h : Resolved s x pre e post) : e ∈ s.cstack := by simp [h.stack]

/-- One variable gets one more use. -/
lemma Resolved.advanced (h : Resolved s x pre e post) {p : Port} (hn : e'.name = e.name)
    (hb : e'.bind = e.bind) (hu : e'.uses = e.uses ++ [p]) :
    Advanced (fun i => if i = s.names.idxOf x then [p] else []) s.cstack (pre ++ e' :: post) := by
  rw [h.idxOf, h.stack]
  refine ⟨by simp, fun i f hf => ?_, fun i hi => if_neg fun he => by simp [he] at hi⟩
  rcases lt_trichotomy i pre.length with hi | rfl | hi
  · rw [List.getElem?_append_left hi] at hf ⊢
    exact ⟨f, hf, rfl, rfl, by simp [hi.ne]⟩
  · rw [List.getElem?_append_right le_rfl, Nat.sub_self] at hf ⊢
    obtain rfl := Option.some.inj hf
    exact ⟨e', rfl, hn, hb, by simpa using hu⟩
  · obtain ⟨j, rfl⟩ : ∃ j, i = pre.length + (j + 1) := ⟨i - pre.length - 1, by omega⟩
    rw [List.getElem?_append_right (by omega), Nat.add_sub_cancel_left,
      List.getElem?_cons_succ] at hf ⊢
    exact ⟨f, hf, rfl, rfl, by simp⟩

lemma Resolved.entry (h : Resolved s x pre e post) : s.cstack[s.names.idxOf x]? = some e := by
  rw [h.idxOf, h.stack]
  simp

/-- The first use of a variable is its bind port. -/
lemma Resolved.first (h : Resolved s x pre e post) (hs : CInv s) (h0 : e.count = 0) :
    Compiled s (.var x) (fun i => if i = s.names.idxOf x then [e.bind] else []) e.bind [] []
      { s with cstack := pre ++ { e with count := 1 } :: post } := by
  have hx0 : e.extra = [] := List.length_eq_zero_iff.mp (by rw [hs.count e h.mem, h0])
  have hheld : (pre ++ { e with count := 1 } :: post).flatMap CVar.held = s.held := by
    rw [CState.held, h.stack]
    simp [CVar.held]
  have hmem : ∀ f ∈ pre ++ { e with count := 1 } :: post, f = { e with count := 1 } ∨
      f ∈ s.cstack := fun f hf => by
    simp only [h.stack, List.mem_append, List.mem_cons] at hf ⊢
    tauto
  have hb := CVar.mem_held h.mem (List.mem_cons_self (a := e.bind) (l := e.extra))
  refine ⟨⟨hs.good, hs.lvl, ?_, ?_, ?_, ?_, fun f hf p hp => ?_, fun f hf p hp => ?_, fun f hf => ?_,
    fun f hf hc => ?_⟩, ⟨.refl _, ?_, fun i p hp => ?_, fun p _ => Or.inl rfl⟩,
    .var _ (h.name ▸ List.mem_map_of_mem h.mem), List.nodup_nil, by simp, fun v hv hl => ?_,
    hs.live _ hb, hs.fresh e h.mem h0⟩
  · rw [CState.held, hheld]
    exact hs.nodup
  · rw [CState.held, hheld]
    exact hs.port
  · rw [CState.held, hheld]
    exact hs.live
  · rw [CState.held, hheld]
    exact hs.consumer
  · rcases hmem f hf with rfl | hf
    · exact hs.era e h.mem p hp
    · exact hs.era f hf p hp
  · rcases hmem f hf with rfl | hf
    · exact hs.idle e h.mem p hp
    · exact hs.idle f hf p hp
  · rcases hmem f hf with rfl | hf
    · simp [hx0]
    · exact hs.count f hf
  · rcases hmem f hf with rfl | hf
    · simp at hc
    · exact hs.fresh f hf hc
  · exact h.advanced rfl rfl (by simp [CVar.uses, h0, hx0])
  · split_ifs at hp with hi
    · obtain rfl := List.mem_singleton.mp hp
      exact Or.inr ⟨e, hi ▸ h.entry, rfl, h0⟩
    · simp at hp
  · exact absurd (Net.live_lt hl) (not_lt.mpr hv)

/-- A further use makes a placeholder. -/
lemma Resolved.again (h : Resolved s x pre e post) (hs : CInv s) (h0 : e.count ≠ 0) :
    Compiled s (.var x) (fun i => if i = s.names.idxOf x then [⟨s.net.nn, 1⟩] else [])
      ⟨s.net.nn, 1⟩ [] [] { (s.alloc .era 0).2 with cstack := pre ++
        { e with count := e.count + 1, extra := e.extra ++ [⟨s.net.nn, 1⟩] } :: post } := by
  set e' : CVar := { e with count := e.count + 1, extra := e.extra ++ [⟨s.net.nn, 1⟩] } with he'
  have hq := alloc_quiet hs .era 0
  have ha := alloc_inv hs .era (Nat.zero_le _)
  have hall := hs.good.alloc_spec .era 0
  have hnn : (s.alloc .era 0).2.net.nn = s.net.nn + 1 := hs.good.alloc_nn .era 0
  set s1 := (s.alloc .era 0).2 with hs1
  have hstack : s1.cstack = s.cstack := rfl
  have hfresh : (⟨s.net.nn, 1⟩ : Port) ∉ s.held := fun hp => absurd (CState.held_lt hs hp) (by simp)
  have hperm : ((pre ++ e' :: post).flatMap CVar.held).Perm (⟨s.net.nn, 1⟩ :: s.held) := by
    have h1 : (pre ++ e' :: post).flatMap CVar.held = pre.flatMap CVar.held ++ e.held ++
        ([⟨s.net.nn, 1⟩] ++ post.flatMap CVar.held) := by
      simp [CVar.held, he']
    have h2 : s.held = pre.flatMap CVar.held ++ e.held ++ post.flatMap CVar.held := by
      simp [CState.held, h.stack]
    rw [h1, h2]
    exact List.perm_middle
  have hheld : ∀ p, p ∈ (pre ++ e' :: post).flatMap CVar.held → p = ⟨s.net.nn, 1⟩ ∨ p ∈ s.held :=
    fun p hp => List.mem_cons.mp (hperm.mem_iff.mp hp)
  have hmem : ∀ f ∈ pre ++ e' :: post, f = e' ∨ f ∈ s.cstack := fun f hf => by
    simp only [h.stack, List.mem_append, List.mem_cons] at hf ⊢
    tauto
  have hextra : ∀ f ∈ pre ++ e' :: post, ∀ p ∈ f.extra, p = ⟨s.net.nn, 1⟩ ∨
      ∃ g ∈ s.cstack, p ∈ g.extra := fun f hf p hp => by
    rcases hmem f hf with rfl | hf
    · rcases List.mem_append.mp hp with hp | hp
      · exact Or.inr ⟨e, h.mem, hp⟩
      · exact Or.inl (List.mem_singleton.mp hp)
    · exact Or.inr ⟨f, hf, hp⟩
  refine ⟨⟨ha.good, ha.lvl, ?_, fun p hp => ?_, fun p hp => ?_, fun p hp c hc => ?_,
    fun f hf p hp => ?_, fun f hf p hp => ?_, fun f hf => ?_, fun f hf hc => ?_⟩,
    ⟨hq.later, ?_, fun i p hp => ?_, fun p hp => Or.inl (hq.wires p hp)⟩,
    .var _ (h.name ▸ List.mem_map_of_mem h.mem), List.nodup_nil, by simp, fun v hv hl => ?_,
    hall.isLive, hall.wireNew 1⟩
  · exact hperm.nodup_iff.mpr (List.nodup_cons.mpr ⟨hfresh, hs.nodup⟩)
  · rcases hheld p hp with rfl | hp
    · rfl
    · exact hs.port p hp
  · rcases hheld p hp with rfl | hp
    · exact hall.isLive
    · exact ha.live p hp
  · rcases hheld p hp with rfl | hp
    · exact absurd ((hall.wireNew 1).symm.trans hc) (by simp)
    · exact ha.consumer p hp c hc
  · rcases hextra f hf p hp with rfl | ⟨g, hg, hp⟩
    · exact hall.tagNew
    · exact ha.era g hg p hp
  · rcases hextra f hf p hp with rfl | ⟨g, hg, hp⟩
    · exact ⟨hall.wireNew 0, hall.wireNew 2⟩
    · exact ha.idle g hg p hp
  · rcases hmem f hf with rfl | hf
    · have := hs.count e h.mem
      simp only [he', List.length_append, List.length_singleton]
      omega
    · exact hs.count f hf
  · rcases hmem f hf with rfl | hf
    · simp [he'] at hc
    · exact ha.fresh f hf hc
  · exact h.advanced rfl rfl (by simp [CVar.uses, h0, he'])
  · split_ifs at hp with hi
    · obtain rfl := List.mem_singleton.mp hp
      exact Or.inl le_rfl
    · simp at hp
  · have hlt : v < s.net.nn + 1 := hnn ▸ Net.live_lt hl
    exact Or.inr ⟨s.names.idxOf x, ⟨s.net.nn, 1⟩, by simp, by simp only; omega⟩

theorem ctVar_correct {Γ : List String} (hx : x ∈ Γ) : Correct Γ (.var x) (ctVar x) := by
  rintro s hs rfl
  obtain ⟨pre, e, post, hr, hok⟩ := exists_resolved hx
  by_cases h0 : e.count = 0
  · rw [useVar, if_pos h0] at hok
    exact ⟨_, _, _, _, _, hok, hr.first hs h0⟩
  · rw [useVar, if_neg h0] at hok
    simp only [alloc_fst hs] at hok
    exact ⟨_, _, _, _, _, hok, hr.again hs h0⟩

end Var

/-! ## Composing the cases -/

section Compose

variable {s s' s'' : CState} {u u' : ℕ → List Port}

lemma Advanced.names {l l' : List CVar} (h : Advanced u l l') :
    l'.map (·.name) = l.map (·.name) := by
  refine List.ext_getElem? fun i => ?_
  rw [List.getElem?_map, List.getElem?_map]
  cases hi : l[i]? with
  | none =>
    have hlen := List.getElem?_eq_none_iff.mp hi
    rw [List.getElem?_eq_none_iff.mpr (h.length ▸ hlen)]
  | some e =>
    obtain ⟨e', he', hn, -, -⟩ := h.entry i e hi
    simp [he', hn]

lemma Advanced.trans {l l' l'' : List CVar} (h : Advanced u l l') (h' : Advanced u' l' l'') :
    Advanced (fun i => u i ++ u' i) l l'' := by
  refine ⟨h'.length.trans h.length, fun i e he => ?_, fun i hi => ?_⟩
  · obtain ⟨e', he', hn, hb, hu⟩ := h.entry i e he
    obtain ⟨e'', he'', hn', hb', hu'⟩ := h'.entry i e' he'
    exact ⟨e'', he'', hn'.trans hn, hb'.trans hb, by rw [hu', hu, List.append_assoc]⟩
  · rw [h.beyond i hi, h'.beyond i (h.length ▸ hi), List.append_nil]

lemma CVar.uses_eq_nil {e : CVar} : e.uses = [] ↔ e.count = 0 := by
  by_cases h : e.count = 0 <;> simp [CVar.uses, h]

/-- An entry that is unused afterwards was unused before, and had no use in between. -/
lemma Advanced.unused {l l' : List CVar} (h : Advanced u l l') {i : ℕ} {e' : CVar}
    (he' : l'[i]? = some e') (h0 : e'.count = 0) :
    ∃ e, l[i]? = some e ∧ e.bind = e'.bind ∧ e.count = 0 ∧ u i = [] := by
  have hi : i < l.length := h.length ▸ (List.getElem?_eq_some_iff.mp he').1
  obtain ⟨e'', he'', -, hb, hu⟩ := h.entry i _ (List.getElem?_eq_getElem hi)
  rw [he', Option.some.injEq] at he''
  subst he''
  rw [CVar.uses_eq_nil.mpr h0] at hu
  obtain ⟨h1, h2⟩ := List.append_eq_nil_iff.mp hu.symm
  exact ⟨_, List.getElem?_eq_getElem hi, hb.symm, CVar.uses_eq_nil.mp h1, h2⟩

lemma Ext.trans (h : Ext u s s') (h' : Ext u' s' s'') : Ext (fun i => u i ++ u' i) s s'' := by
  refine ⟨h.later.trans h'.later, h.stack.trans h'.stack, fun i p hp => ?_, fun p hp => ?_⟩
  · rcases List.mem_append.mp hp with hp | hp
    · exact h.uses i p hp
    · rcases h'.uses i p hp with hn | ⟨e', he', hb, h0⟩
      · exact Or.inl (h.later.nn.trans hn)
      · obtain ⟨e, he, hb', h0', -⟩ := h.stack.unused he' h0
        exact Or.inr ⟨e, he, hb'.trans hb, h0'⟩
  · rcases h'.wires p (hp.trans_le h.later.nn) with hw | ⟨i, e', he', hb, h0, hu⟩
    · rcases h.wires p hp with hw' | ⟨i, e, he, hb, h0, hu⟩
      · exact Or.inl (hw.trans hw')
      · exact Or.inr ⟨i, e, he, hb, h0, by simp [hu]⟩
    · obtain ⟨e, he, hb', h0', -⟩ := h.stack.unused he' h0
      exact Or.inr ⟨i, e, he, hb'.trans hb, h0', by simp [hu]⟩

/-- A new port was linked to a value. -/
lemma Ext.link (h : Ext u s s') {a r : Port} (ha : s.net.nn ≤ a.node)
    (hr : s.net.nn ≤ r.node ∨ ∃ i, r ∈ u i) (e : Bool) :
    Ext u s (s'.link (some a) (some r) e) := by
  have hk := s'.link_linked (some a) (some r) e
  refine ⟨h.later.trans (.ofLinked hk), h.stack, h.uses, fun p hp => ?_⟩
  rw [CState.link_wireAt]
  split_ifs with h1 h2
  · subst h1
    rcases hr with hr | ⟨i, hi⟩
    · exact absurd hp (not_lt.mpr hr)
    · rcases h.uses i r hi with hn | ⟨f, hf, hb, h0⟩
      · exact absurd hp (not_lt.mpr hn)
      · exact Or.inr ⟨i, f, hf, hb, h0, List.ne_nil_of_mem hi⟩
  · subst h2
    exact absurd hp (not_lt.mpr ha)
  · exact h.wires p hp

lemma Ext.keeps (h : Ext u s s') (hs : CInv s) : Keeps s.net s'.net := by
  refine ⟨h.later, fun p _ hp hw => ?_⟩
  rcases h.wires p hp with he | ⟨i, e, he, rfl, h0, -⟩
  · exact he.trans hw
  · rw [hs.fresh e (List.mem_of_getElem? he) h0] at hw
    cases hw

/-- Only bind ports of old nodes are wired, so the other ports of old nodes stay. -/
lemma Ext.wire_eq (h : Ext u s s') (hs : CInv s) {p : Port} (hp : p.node < s.net.nn)
    (hport : p.port ≠ 1) : s'.net.wireAt p = s.net.wireAt p := by
  rcases h.wires p hp with he | ⟨i, e, he, rfl, -⟩
  · exact he
  · exact absurd (hs.port _ (CVar.mem_held (List.mem_of_getElem? he) List.mem_cons_self)) hport

lemma Quiet.keeps (h : Quiet s s') : Keeps s.net s'.net :=
  ⟨h.later, fun p _ hp hw => (h.wires p hp).trans hw⟩

lemma Linkable.keeps {a r : Port} (h : Linkable s a r) (e : Bool) :
    Keeps s.net (s.link (some a) (some r) e).net := by
  refine ⟨.ofLinked (s.link_linked _ _ e), fun p q _ hw => ?_⟩
  rw [CState.link_wireAt, if_neg, if_neg, hw]
  · rintro rfl
    simp [h.looseL] at hw
  · rintro rfl
    simp [h.looseR] at hw

/-- Two variables share no port. -/
lemma CInv.held_inj (hs : CInv s) {i j : ℕ} {e f : CVar} {p : Port} (he : s.cstack[i]? = some e)
    (hf : s.cstack[j]? = some f) (hpe : p ∈ e.held) (hpf : p ∈ f.held) : i = j := by
  have hd := (List.nodup_flatMap.mp hs.nodup).2
  rw [List.pairwise_iff_getElem] at hd
  obtain ⟨hi, rfl⟩ := List.getElem?_eq_some_iff.mp he
  obtain ⟨hj, rfl⟩ := List.getElem?_eq_some_iff.mp hf
  rcases lt_trichotomy i j with h | h | h
  · exact absurd hpf (hd i j hi hj h hpe)
  · exact h
  · exact absurd hpe (hd j i hj hi h hpf)

lemma CVar.mem_held_of_uses {e : CVar} {p : Port} (hp : p ∈ e.uses) : p ∈ e.held := by
  rw [CVar.uses] at hp
  split_ifs at hp
  · simp at hp
  · exact hp

/-- A use that was added is held by its variable. -/
lemma Advanced.mem_uses {l l' : List CVar} (h : Advanced u l l') {i : ℕ} {p : Port}
    (hp : p ∈ u i) : ∃ e', l'[i]? = some e' ∧ p ∈ e'.uses := by
  have hi : i < l.length := by
    by_contra hn
    simp [h.beyond i (not_lt.mp hn)] at hp
  obtain ⟨e', he', -, -, hu⟩ := h.entry i _ (List.getElem?_eq_getElem hi)
  exact ⟨e', he', by rw [hu]; exact List.mem_append_right _ hp⟩

variable {t : Term} {r : Port} {ns : List ℕ} {ls : List Port}

/-- The value of a compiled term may be linked to a port that was loose before. -/
lemma Compiled.linkable (h : Compiled s t u r ns ls s') (hs : CInv s) {a : Port}
    (hl : s.net.live a.node = true) (hw : s.net.wireAt a = none) (hp : a.port ≠ 1)
    (ht : s.net.tag.get a.node ≠ .era) : Linkable s' a r := by
  have hlt := Net.live_lt hl
  have hr : s.net.nn ≤ r.node ∨ r.port = 1 := by
    rcases h.laid.result with hn | ⟨i, hi⟩
    · exact Or.inl (h.range _ hn).1
    · obtain ⟨e', he', hu⟩ := h.ext.stack.mem_uses hi
      exact Or.inr (h.inv.port r
        (CVar.mem_held (List.mem_of_getElem? he') (CVar.mem_held_of_uses hu)))
  refine ⟨?_, (h.ext.later.live _ hlt).trans hl, h.live, (h.ext.wire_eq hs hlt hp).trans hw,
    h.loose, hp, ?_, ?_, fun e' he' h0 he => ?_⟩
  · rintro rfl
    rcases hr with hr | hr
    · exact absurd hlt (not_lt.mpr hr)
    · exact hp hr
  · rw [h.ext.later.tag _ hlt]
    exact ht
  · rcases h.laid.result with hn | ⟨i, hi⟩
    · exact Or.inr (h.laid.tag _ hn)
    · obtain ⟨e', he', hu⟩ := h.ext.stack.mem_uses hi
      exact Or.inl (h.inv.port r
        (CVar.mem_held (List.mem_of_getElem? he') (CVar.mem_held_of_uses hu)))
  · -- an unused variable does not hold the value
    subst he
    obtain ⟨j, hj⟩ := List.mem_iff_getElem?.mp he'
    obtain ⟨e, hej, hb, h0', hu0⟩ := h.ext.stack.unused hj h0
    rcases h.laid.result with hn | ⟨i, hi⟩
    · have h1 := (h.range _ hn).1
      rw [← hb] at h1
      exact absurd (CState.held_lt hs (CVar.mem_held (List.mem_of_getElem? hej)
        List.mem_cons_self)) (not_lt.mpr h1)
    · obtain ⟨f, hf, hu⟩ := h.ext.stack.mem_uses hi
      obtain rfl := h.inv.held_inj hj hf List.mem_cons_self (CVar.mem_held_of_uses hu)
      simp [hu0] at hi

lemma Compiled.names (h : Compiled s t u r ns ls s') : s'.names = s.names := h.ext.stack.names

lemma Compiled.value_new (h : Compiled s t u r ns ls s') :
    s.net.nn ≤ r.node ∨ ∃ i, r ∈ u i :=
  h.laid.result.imp_left fun hn => (h.range _ hn).1

/-- What a variable holds afterwards it held before, or it is one of the new uses. -/
lemma Ext.held_old (h : Ext u s s') (hs' : CInv s') {p : Port} (hp : p ∈ s'.held)
    (hlt : p.node < s.net.nn) : p ∈ s.held := by
  obtain ⟨e', he', hp⟩ := List.mem_flatMap.mp hp
  obtain ⟨i, hi⟩ := List.mem_iff_getElem?.mp he'
  have hlen : i < s.cstack.length := h.stack.length ▸ (List.getElem?_eq_some_iff.mp hi).1
  obtain ⟨e'', he'', -, hb, hu⟩ := h.stack.entry i _ (List.getElem?_eq_getElem hlen)
  rw [hi, Option.some.injEq] at he''
  subst he''
  have hmem := CVar.mem_held (List.getElem_mem hlen) (s := s) (p := p)
  by_cases h0 : e'.count = 0
  · have hx : e'.extra = [] := List.length_eq_zero_iff.mp (by rw [hs'.count e' he', h0])
    rw [CVar.held, hx, List.mem_singleton] at hp
    exact hmem (by rw [hp, hb]; exact List.mem_cons_self)
  · have hpu : p ∈ e'.uses := by rwa [CVar.uses, if_neg h0]
    rw [hu] at hpu
    rcases List.mem_append.mp hpu with hpu | hpu
    · exact hmem (CVar.mem_held_of_uses hpu)
    · rcases h.uses i p hpu with hn | ⟨e, he, rfl, -⟩
      · exact absurd hlt (not_lt.mpr hn)
      · exact CVar.mem_held (List.mem_of_getElem? he) List.mem_cons_self

/-- A term was compiled from `s` on and its value linked to the port `a`. -/
structure Attached (s : CState) (a : Port) (t : Term) (u : ℕ → List Port) (r : Port) (ns : List ℕ)
    (ls : List Port) (s' : CState) : Prop where
  inv : CInv s'
  keeps : Keeps s.net s'.net
  stack : Advanced u s.cstack s'.cstack
  ext : ∀ (s₀ : CState) (u₀ : ℕ → List Port), Ext u₀ s₀ s → s₀.net.nn ≤ a.node →
    Ext (fun i => u₀ i ++ u i) s₀ s'
  laid : Laid s'.net s.names t u r ns ls
  wire : s'.net.wireAt a = some r
  other : ∀ p : Port, p.node < s.net.nn → p ≠ a → p ∉ s.held → s'.net.wireAt p = s.net.wireAt p
  held : ∀ p ∈ s'.held, p.node < s.net.nn → p ∈ s.held
  nodup : ns.Nodup
  range : ∀ v ∈ ns, s.net.nn ≤ v ∧ v < s'.net.nn
  all : ∀ v, s.net.nn ≤ v → s'.net.live v = true → v ∈ ns ∨ ∃ i, ∃ p ∈ u i, p.node = v

lemma Attached.names {a : Port} (h : Attached s a t u r ns ls s') : s'.names = s.names :=
  h.stack.names

/-- The value of a compiled term is no port of an old node, but for bind ports. -/
lemma Compiled.value_old (h : Compiled s t u r ns ls s') (hlt : r.node < s.net.nn) :
    r ∈ s.held := by
  rcases h.value_new with hn | ⟨i, hi⟩
  · exact absurd hlt (not_lt.mpr hn)
  · rcases h.ext.uses i r hi with hn | ⟨e, he, rfl, -⟩
    · exact absurd hlt (not_lt.mpr hn)
    · exact CVar.mem_held (List.mem_of_getElem? he) List.mem_cons_self

theorem Compiled.attach (h : Compiled s t u r ns ls s') (hs : CInv s) {a : Port}
    (hl : s.net.live a.node = true) (hw : s.net.wireAt a = none) (hp : a.port ≠ 1)
    (ht : s.net.tag.get a.node ≠ .era) (e : Bool) :
    Attached s a t u r ns ls (s'.link (some a) (some r) e) := by
  have hlk := h.linkable hs hl hw hp ht
  have hk := s'.link_linked (some a) (some r) e
  have hkeep := hlk.keeps e
  refine ⟨hlk.inv h.inv e, (h.ext.keeps hs).trans hkeep, h.ext.stack, fun s₀ u₀ h₀ ha => ?_,
    h.laid.keep hkeep fun v hv => (h.range v hv).2, ?_, fun p hlt hpa hheld => ?_, fun p hp hlt => ?_,
    h.nodup, fun v hv => ⟨(h.range v hv).1, hk.nn.symm ▸ (h.range v hv).2⟩,
    fun v hv hl => h.all v hv ((hk.live v).symm.trans hl)⟩
  · exact (h₀.trans h.ext).link ha (h.value_new.imp h₀.later.nn.trans
      fun ⟨i, hi⟩ => ⟨i, List.mem_append_right _ hi⟩) e
  · rw [CState.link_wireAt, if_neg (Ne.symm hlk.ne), if_pos rfl]
  · have hpr : r ≠ p := by
      rintro rfl
      exact hheld (h.value_old hlt)
    rw [CState.link_wireAt, if_neg hpr, if_neg (Ne.symm hpa)]
    rcases h.ext.wires p hlt with he | ⟨i, f, hf, rfl, -⟩
    · exact he
    · exact absurd (CVar.mem_held (List.mem_of_getElem? hf) List.mem_cons_self) hheld
  · exact h.ext.held_old h.inv hp hlt

lemma Quiet.ext (h : Quiet s s') : Ext (fun _ => []) s s' := by
  refine ⟨h.later, ⟨by rw [h.stack], fun i e he => ?_, fun _ _ => rfl⟩, by simp,
    fun p hp => Or.inl (h.wires p hp)⟩
  exact ⟨e, by rwa [h.stack], rfl, rfl, by simp⟩

/-- A node just made: its ports loose, not held by a variable. -/
structure Made (s : CState) (v : ℕ) (tag : Tag) (s' : CState) : Prop where
  quiet : Quiet s s'
  inv : CInv s'
  nn : s'.net.nn = v + 1
  isLive : s'.net.live v = true
  tag : s'.net.tag.get v = tag
  loose : ∀ k, s'.net.wireAt ⟨v, k⟩ = none
  old : v = s.net.nn
  apart : ∀ k, (⟨v, k⟩ : Port) ∉ s'.held

/-- Making a node and stepping to a level below it. -/
lemma made_enter (hs : CInv s) (tag : Tag) (bit : ℕ) :
    Made s s.net.nn tag ((s.alloc tag s.curLvl).2.enter s.curLvl bit) := by
  have hal := hs.good.alloc_spec tag s.curLvl
  have hq0 := alloc_quiet hs tag s.curLvl
  have hs0 := alloc_inv hs tag hs.lvl
  have hnn : (s.alloc tag s.curLvl).2.net.nn = s.net.nn + 1 := hs.good.alloc_nn tag s.curLvl
  set s0 := (s.alloc tag s.curLvl).2
  have hq1 := enter_quiet hs0 hs0.lvl bit
  have hlt : s.net.nn < s0.net.nn := by omega
  refine ⟨hq0.trans hq1, enter_inv hs0 hs0.lvl bit, (enter_nn hs0 hs0.lvl bit).trans hnn,
    (hq1.later.live _ hlt).trans hal.isLive, (hq1.later.tag _ hlt).trans hal.tagNew,
    fun k => (hq1.wires _ hlt).trans (hal.wireNew k), rfl, fun k hk => ?_⟩
  have hheld : (s0.enter s.curLvl bit).held = s.held := by
    exact congrArg (List.flatMap CVar.held) (hq0.trans hq1).stack
  rw [hheld] at hk
  exact absurd (CState.held_lt hs hk) (lt_irrefl _)

end Compose

/-! ## An application -/

theorem ctApp_correct {Γ : List String} {f a : Term} {cf ca : CT} (hf : Correct Γ f cf)
    (ha : Correct Γ a ca) : Correct Γ (.app f a) (ctApp cf ca) := by
  rintro s hs rfl
  have hid := alloc_fst hs .app s.curLvl
  have hm := made_enter hs .app 1
  set s1 := (s.alloc .app s.curLvl).2.enter s.curLvl 1 with hs1
  have hlv : s.net.nn < s1.net.nn := by
    have := hm.nn
    omega
  have hnames : s1.names = s.names := by rw [CState.names, hm.quiet.stack]; rfl
  -- the function, linked to port 0
  obtain ⟨u, rf, nf, lf, s2, hokf, hcf⟩ := hf s1 hm.inv hnames
  have h3 := hcf.attach hm.inv (a := ⟨s.net.nn, 0⟩) hm.isLive (hm.loose 0) (by simp)
    (by simp [hm.tag]) true
  set s3 := s2.link (some ⟨s.net.nn, 0⟩) (some rf) true with hs3
  have hlvl : s.curLvl ≤ s3.net.levels.length :=
    hs.lvl.trans (hm.quiet.later.trans h3.keeps.later).levels.length_le
  have hq := enter_quiet h3.inv hlvl 2
  have hi4 := enter_inv h3.inv hlvl 2
  have hnn4 := enter_nn h3.inv hlvl 2
  set s4 := s3.enter s.curLvl 2 with hs4
  have hk4 : Keeps s1.net s4.net := h3.keeps.trans hq.keeps
  have hlv3 : s.net.nn < s3.net.nn := hlv.trans_le h3.keeps.later.nn
  have hlv4 : s.net.nn < s4.net.nn := hlv.trans_le hk4.later.nn
  have hnames4 : s4.names = s.names := by
    rw [CState.names, hq.stack]
    exact h3.names.trans hnames
  -- the operand, linked to port 2
  obtain ⟨u', ra, na, la, s5, hoka, hca⟩ := ha s4 hi4 hnames4
  have hw4 : ∀ k, k ≠ 0 → s4.net.wireAt ⟨s.net.nn, k⟩ = none := fun k hk => by
    rw [hq.wires _ hlv3, h3.other _ hlv (by simpa using hk) (hm.apart k)]
    exact hm.loose k
  have hl4 : s4.net.live s.net.nn = true := (hk4.later.live _ hlv).trans hm.isLive
  have ht4 : s4.net.tag.get s.net.nn = .app := (hk4.later.tag _ hlv).trans hm.tag
  have h6 := hca.attach hi4 (a := ⟨s.net.nn, 2⟩) hl4 (hw4 2 (by simp)) (by simp)
    (by simp [ht4]) true
  set s6 := s5.link (some ⟨s.net.nn, 2⟩) (some ra) true with hs6
  have hnot4 : ∀ k, (⟨s.net.nn, k⟩ : Port) ∉ s4.held := fun k hk => by
    have hheld : s4.held = s3.held := congrArg (List.flatMap CVar.held) hq.stack
    rw [hheld] at hk
    exact hm.apart k (h3.held _ hk hlv)
  have hk6 : Keeps s3.net s6.net := hq.keeps.trans h6.keeps
  have hext : Ext (fun i => u i ++ u' i) s { s6 with curLvl := s.curLvl } := by
    have h1 := h3.ext s _ hm.quiet.ext le_rfl
    have h2 := h6.ext s _ (h1.trans hq.ext) le_rfl
    simp only [List.nil_append, List.append_nil] at h2
    exact ⟨h2.later, h2.stack, h2.uses, h2.wires⟩
  have hnn6 := h6.keeps.later.nn
  have hnn3 := h3.keeps.later.nn
  have hnn1 := hm.nn
  refine ⟨_, ⟨s.net.nn, 1⟩, s.net.nn :: (nf ++ na), lf ++ la, { s6 with curLvl := s.curLvl }, ?_,
    ⟨h6.inv.relevel (hs.lvl.trans hext.later.levels.length_le), hext, ?_, ?_, fun v hv => ?_,
      fun v hv hl => ?_, (h6.keeps.later.live _ hlv4).trans hl4, ?_⟩⟩
  · simp only [ctApp, hid, ← hs1, hokf, bind, Except.bind, ← hs3, ← hs4, hoka, ← hs6]
  · refine .app (hnames ▸ h3.laid.keep hk6 fun v hv => (h3.range v hv).2) (hnames4 ▸ h6.laid)
      ((h6.keeps.later.live _ hlv4).trans hl4) ((h6.keeps.later.tag _ hlv4).trans ht4)
      (hk6.wire _ _ hlv3 h3.wire) h6.wire
  · rw [List.nodup_cons, List.nodup_append, List.mem_append]
    refine ⟨fun h => ?_, h3.nodup, h6.nodup, fun v hv w hw he => ?_⟩
    · rcases h with h | h
      · have := (h3.range _ h).1
        omega
      · have := (h6.range _ h).1
        omega
    · have h1 := (h3.range _ hv).2
      have h2 := (h6.range _ hw).1
      omega
  · rcases List.mem_cons.mp hv with rfl | hv
    · exact ⟨le_rfl, hlv4.trans_le hnn6⟩
    · rcases List.mem_append.mp hv with hv | hv
      · have := h3.range v hv
        exact ⟨by omega, by simp only; omega⟩
      · have := h6.range v hv
        exact ⟨by omega, this.2⟩
  · rw [List.mem_cons, List.mem_append]
    by_cases h0 : v = s.net.nn
    · exact Or.inl (Or.inl h0)
    · by_cases h2 : v < s3.net.nn
      · rcases h3.all v (by omega) ((hk6.later.live v h2).symm.trans hl) with h | ⟨i, p, hp, h⟩
        · exact Or.inl (Or.inr (Or.inl h))
        · exact Or.inr ⟨i, p, List.mem_append_left _ hp, h⟩
      · rcases h6.all v (by omega) hl with h | ⟨i, p, hp, h⟩
        · exact Or.inl (Or.inr (Or.inr h))
        · exact Or.inr ⟨i, p, List.mem_append_right _ hp, h⟩
  · exact (h6.other _ hlv4 (by simp) (hnot4 1)).trans (hw4 1 (by simp))

/-! ## Leaving the scope of a variable -/

/-- The uses `us` of a variable were rewired along `σ`, and the ports of `X` were linked
to the result. -/
structure Rewired (us : List Port) (σ : Port → Port) (X : Set Port) (n n' : Net) : Prop where
  good : Good n' ∅
  nn : n.nn ≤ n'.nn
  levels : n.levels <+: n'.levels
  live : ∀ v, v < n.nn → (∀ r ∈ us, v ≠ r.node) → n'.live v = n.live v
  tag : ∀ v, v < n.nn → n'.tag.get v = n.tag.get v
  scope : ∀ v, v < n.nn → n'.scope.get v = n.scope.get v
  moved : ∀ p q, n.live p.node = true → (∀ r ∈ us, p.node ≠ r.node) → n.wireAt p = some q →
    n'.wireAt p = some (σ q)
  other : ∀ p : Port, p.node < n.nn → (∀ r ∈ us, p.node ≠ r.node) → p ∉ X →
    (∀ u ∈ us, n.wireAt u ≠ some p) → n'.wireAt p = n.wireAt p
  top : ∀ p ∈ X, ∀ c, n'.wireAt p = some c → c.port ≠ 1
  off : ∀ p, p ∉ us → σ p = p

section Rewire

variable {s s' : CState} {u : ℕ → List Port} {σ : Port → Port} {X : Set Port} {n' : Net}
  {e : CVar} {rest : List CVar}

/-- A port outside the variable's own is not one of its uses. -/
lemma CInv.node_ne (hs : CInv s) {p q : Port} (hp : p ∈ s.held) (hq : q ∈ s.held) (hne : p ≠ q) :
    p.node ≠ q.node := by
  intro he
  have h1 := hs.port p hp
  have h2 := hs.port q hq
  obtain ⟨v, k⟩ := p
  obtain ⟨w, l⟩ := q
  simp_all

/-- A loose port that leads nowhere is not the consumer of a use. -/
lemma CInv.not_consumer (hs : CInv s) {p : Port} (hw : s.net.wireAt p = none) :
    ∀ u ∈ s.held, s.net.wireAt u ≠ some p := fun u hu he => by
  have := (hs.good.toWired u p (hs.live u hu) he).2.1
  rw [hw] at this
  cases this

/-- The other variables are in order once one has left the stack. -/
lemma Rewired.inv (h : Rewired e.held σ X s.net n') (hs : CInv s) (hst : s.cstack = e :: rest)
    (hX : ∀ f ∈ rest, f.count = 0 → f.bind ∉ X)
    (hera : ∀ p ∈ X, p.port = 1 ∨ s.net.tag.get p.node ≠ .era) {l : ℕ}
    (hl : l ≤ n'.levels.length) : CInv ⟨n', rest, l⟩ := by
  have hheld : s.held = e.held ++ rest.flatMap CVar.held := by
    rw [CState.held, hst]
    rfl
  have hnd := hs.nodup
  rw [hheld, List.nodup_append] at hnd
  have hmem : ∀ p ∈ rest.flatMap CVar.held, p ∈ s.held := fun p hp => by
    rw [hheld]
    exact List.mem_append_right _ hp
  have hmem' : ∀ p ∈ e.held, p ∈ s.held := fun p hp => by
    rw [hheld]
    exact List.mem_append_left _ hp
  have hoff : ∀ p ∈ rest.flatMap CVar.held, ∀ r ∈ e.held, p.node ≠ r.node := fun p hp r hr =>
    hs.node_ne (hmem p hp) (hmem' r hr) fun he => hnd.2.2 r hr p hp he.symm
  have hrest : ∀ f ∈ rest, f ∈ s.cstack := fun f hf => hst ▸ List.mem_cons_of_mem _ hf
  have hin : ∀ f ∈ rest, ∀ p ∈ f.held, p ∈ rest.flatMap CVar.held := fun f hf p hp =>
    List.mem_flatMap.mpr ⟨f, hf, hp⟩
  have hloose : ∀ p : Port, s.net.live p.node = true → (∀ r ∈ e.held, p.node ≠ r.node) → p ∉ X →
      s.net.wireAt p = none → n'.wireAt p = none := fun p hl hr hx hw =>
    (h.other p (Net.live_lt hl) hr hx fun u hu => hs.not_consumer hw u (hmem' u hu)).trans hw
  refine ⟨h.good, hl, hnd.2.1, fun p hp => hs.port p (hmem p hp), fun p hp => ?_,
    fun p hp c hc => ?_, fun f hf p hp => ?_, fun f hf p hp => ?_,
    fun f hf => hs.count f (hrest f hf), fun f hf h0 => ?_⟩
  · exact (h.live _ (CState.held_lt hs (hmem p hp)) (hoff p hp)).trans (hs.live p (hmem p hp))
  · by_cases hx : p ∈ X
    · exact h.top p hx c hc
    · cases hw : s.net.wireAt p with
      | none =>
        exact absurd ((hloose p (hs.live p (hmem p hp)) (hoff p hp) hx hw).symm.trans hc) (by simp)
      | some q =>
        have hq := hs.consumer p (hmem p hp) q hw
        have := h.moved p q (hs.live p (hmem p hp)) (hoff p hp) hw
        rw [h.off q fun hqe => hq (hs.port q (hmem' q hqe))] at this
        exact Option.some.inj (this.symm.trans hc) ▸ hq
  · have hpf := hin f hf p (List.mem_cons_of_mem _ hp)
    exact (h.tag _ (CState.held_lt hs (hmem p hpf))).trans (hs.era f (hrest f hf) p hp)
  · have hpf := hin f hf p (List.mem_cons_of_mem _ hp)
    have hlive := hs.live p (hmem p hpf)
    have htag := hs.era f (hrest f hf) p hp
    have hx : ∀ k : Fin 3, k ≠ 1 → (⟨p.node, k⟩ : Port) ∉ X := fun k hk hx =>
      (hera _ hx).elim hk fun ht => ht htag
    obtain ⟨h0, h2⟩ := hs.idle f (hrest f hf) p hp
    exact ⟨hloose ⟨p.node, 0⟩ hlive (hoff p hpf) (hx 0 (by simp)) h0,
      hloose ⟨p.node, 2⟩ hlive (hoff p hpf) (hx 2 (by simp)) h2⟩
  · have hb := hin f hf f.bind List.mem_cons_self
    exact hloose f.bind (hs.live _ (hmem _ hb)) (hoff _ hb) (hX f hf h0)
      (hs.fresh f (hrest f hf) h0)

lemma Ext.pop {name : String} {v : ℕ} (h : Ext u (pushVar s name ⟨v, 1⟩) s')
    (hv : s.net.nn ≤ v) : Ext (fun i => u (i + 1)) s s'.popVar := by
  refine ⟨h.later, ⟨?_, fun i e he => ?_, fun i hi => ?_⟩, fun i p hp => ?_, fun p hp => ?_⟩
  · have := h.stack.length
    simp only [pushVar, List.length_cons] at this
    simp [CState.popVar, this]
  · obtain ⟨e', he', hn⟩ := h.stack.entry (i + 1) e he
    exact ⟨e', by rw [CState.popVar, List.getElem?_tail]; exact he', hn⟩
  · exact h.stack.beyond (i + 1) (by simpa [pushVar] using hi)
  · exact h.uses (i + 1) p hp
  · rcases h.wires p hp with hw | ⟨i, e, he, hb, h0, hu⟩
    · exact Or.inl hw
    · cases i with
      | zero =>
        simp only [pushVar, List.getElem?_cons_zero, Option.some.injEq] at he
        subst he
        subst hb
        exact absurd hp (not_lt.mpr hv)
      | succ i => exact Or.inr ⟨i, e, he, hb, h0, hu⟩

/-- Rewiring the uses of a variable made in the meantime is not seen outside. -/
lemma Ext.rewire (h : Ext u s s') (hs' : CInv s') (hr : Rewired e.held σ X s'.net n')
    (he : e ∈ s'.cstack) (hnew : ∀ p ∈ e.held, s.net.nn ≤ p.node) (hs : Wired s.net)
    (hold : ∀ p : Port, p.node < s.net.nn → s'.net.live p.node = true → p.port ≠ 1 →
      s'.net.wireAt p = s.net.wireAt p)
    (hX : ∀ p ∈ X, s.net.nn ≤ p.node ∨ ∃ i, p ∈ u i) (l : ℕ) :
    Ext u s { s' with net := n', curLvl := l } := by
  have hoff : ∀ v, v < s.net.nn → ∀ r ∈ e.held, v ≠ r.node := fun v hv r hr he =>
    absurd (hnew r hr) (not_le.mpr (he ▸ hv))
  refine ⟨⟨h.later.nn.trans hr.nn, h.later.levels.trans hr.levels, fun v hv => ?_, fun v hv => ?_,
    fun v hv => ?_⟩, h.stack, h.uses, fun p hp => ?_⟩
  · exact (hr.live v (hv.trans_le h.later.nn) (hoff v hv)).trans (h.later.live v hv)
  · exact (hr.tag v (hv.trans_le h.later.nn)).trans (h.later.tag v hv)
  · exact (hr.scope v (hv.trans_le h.later.nn)).trans (h.later.scope v hv)
  · by_cases hx : p ∈ X
    · rcases hX p hx with hn | ⟨i, hi⟩
      · exact absurd hp (not_lt.mpr hn)
      · rcases h.uses i p hi with hn | ⟨f, hf, hb, h0⟩
        · exact absurd hp (not_lt.mpr hn)
        · exact Or.inr ⟨i, f, hf, hb, h0, List.ne_nil_of_mem hi⟩
    · have hcons : ∀ r ∈ e.held, s'.net.wireAt r ≠ some p := by
        -- a use is newer than `s`, and an old consumer has its old wire
        intro r hr hw
        have hrh := CVar.mem_held he hr
        obtain ⟨hl, hback, -⟩ := hs'.good.toWired r p (hs'.live r hrh) hw
        have hpo := hs'.consumer r hrh p hw
        have h1 := hold p hp hl hpo
        rw [hback] at h1
        have h2 := hs p r ((h.later.live _ hp).symm.trans hl) h1.symm
        exact absurd (Net.live_lt h2.1) (not_lt.mpr (hnew r hr))
      rw [hr.other p (hp.trans_le h.later.nn) (hoff _ hp) hx hcons]
      exact h.wires p hp

end Rewire

/-! ## A function -/

section Lam

variable {s : CState} {e : CVar} {rest : List CVar}

lemma CInv.push (hs : CInv s) (name : String) {v : ℕ} (hl : s.net.live v = true)
    (hw : s.net.wireAt ⟨v, 1⟩ = none) (hv : (⟨v, 1⟩ : Port) ∉ s.held) :
    CInv (pushVar s name ⟨v, 1⟩) := by
  have hheld : (pushVar s name ⟨v, 1⟩).held = ⟨v, 1⟩ :: s.held := rfl
  refine ⟨hs.good, hs.lvl, ?_, ?_, ?_, ?_, ?_, ?_, ?_, ?_⟩
  · exact List.nodup_cons.mpr ⟨hv, hs.nodup⟩
  · exact List.forall_mem_cons.mpr ⟨rfl, hs.port⟩
  · exact List.forall_mem_cons.mpr ⟨hl, hs.live⟩
  · exact List.forall_mem_cons.mpr ⟨fun c hc => absurd (hw.symm.trans hc) (by simp), hs.consumer⟩
  · exact List.forall_mem_cons.mpr ⟨by simp, hs.era⟩
  · exact List.forall_mem_cons.mpr ⟨by simp, hs.idle⟩
  · exact List.forall_mem_cons.mpr ⟨by simp, hs.count⟩
  · exact List.forall_mem_cons.mpr ⟨fun _ => hw, hs.fresh⟩

lemma CInv.spare (hs : CInv s) (he : e ∈ s.cstack) : Spare s.net e.bind e.extra where
  nodup := (List.nodup_flatMap.mp hs.nodup).1 e he
  port p hp := hs.port p (CVar.mem_held he hp)
  live p hp := hs.live p (CVar.mem_held he hp)
  idle := hs.idle e he
  consumer p hp := hs.consumer p (CVar.mem_held he hp)

/-- A variable used at most once needs no rewiring. -/
lemma CInv.rewired_none (hs : CInv s) (he : e ∈ s.cstack) (h1 : e.count ≤ 1) :
    e.held = [e.bind] ∧ Rewired e.held id ∅ s.net s.net := by
  have hx : e.extra = [] := List.length_eq_zero_iff.mp (by rw [hs.count e he]; omega)
  exact ⟨by rw [CVar.held, hx], hs.good, le_rfl, List.prefix_rfl, fun _ _ _ => rfl, fun _ _ => rfl,
    fun _ _ => rfl, fun _ _ _ _ hw => hw, fun _ _ _ _ _ => rfl, by simp, fun _ _ => rfl⟩

/-- The fan tree of a function's variable. -/
lemma fanOut_spec (hs : CInv s) (hst : s.cstack = e :: rest) {v lvl : ℕ} (hb : e.bind = ⟨v, 1⟩)
    (h1 : 1 < e.count) (hlvl : lvl ≤ s.net.levels.length) :
    Fanning s.net e.held lvl e.bind (fanOut s v lvl).net ∧
      (fanOut s v lvl).cstack = s.cstack ∧ (fanOut s v lvl).curLvl = s.curLvl := by
  have he : e ∈ s.cstack := by simp [hst]
  have hsp := hs.spare he
  have hx : e.extra ≠ [] := fun h0 => by
    have := hs.count e he
    rw [h0] at this
    simp only [List.length_nil] at this
    omega
  obtain ⟨-, hgood, hem⟩ := usePorts_spec hs.good hsp
  have hlvl' : lvl ≤ (usePorts s.net e e.bind).2.levels.length := hem.levels ▸ hlvl
  obtain ⟨root, hroot, hf⟩ := fanned hs.good hsp hx (Grown.refl _) hgood.trie hlvl'
  set n3 := (dupTree .serial (usePorts s.net e e.bind).2 (usePorts s.net e e.bind).1 lvl).2 with hn3
  have hfan : fanOut s v lvl = { s with net := netLink .serial n3 (some e.bind) (some root) false } := by
    simp only [fanOut, hst, h1, if_true, ← hb, hroot, ← hn3]
  have hblt : e.bind.node < s.net.nn := Net.live_lt (hsp.live _ List.mem_cons_self)
  have hrootne : e.bind ≠ root := by
    intro he
    rw [he, hf.rootEq] at hblt
    simp at hblt
  have hlen : 2 ≤ e.held.length := by
    have := List.length_pos_iff.mpr hx
    simp only [CVar.held, List.length_cons]
    omega
  have hbl : n3.live e.bind.node = true := by
    refine (hf.live _ hblt).mpr ⟨hsp.live _ List.mem_cons_self, fun p hp => ?_⟩
    exact hs.node_ne (CVar.mem_held he List.mem_cons_self)
      (CVar.mem_held he (List.mem_cons_of_mem _ hp)) fun h0 =>
        (List.nodup_cons.mp hsp.nodup).1 (h0 ▸ hp)
  have hrl : n3.live root.node = true := by
    rw [hf.rootEq]
    exact (hf.node _ (by simp only [CVar.held] at hlen; omega)).1
  have hg := hf.good.link .serial (a := e.bind) (b := root)
    ⟨hbl, Or.inl List.mem_cons_self⟩ ⟨hrl, Or.inr hf.wireRoot⟩ hrootne false
  refine ⟨?_, by rw [hfan], by rw [hfan]⟩
  rw [hfan]
  refine hf.hang (Or.inl List.mem_cons_self) hblt (fun p hp => Net.live_lt (hsp.live p hp)) hg
    (netLink_linked .serial n3 (some e.bind) (some root) false) fun q => ?_
  simp only [netLink_wireAt, eq_comm]

/-- After the fan tree is in place only dead placeholders are left over. -/
lemma Fanning.rewired_bind (hs : CInv s) (he : e ∈ s.cstack) {lvl : ℕ} {n' : Net}
    (h : Fanning s.net e.held lvl e.bind n') :
    Rewired e.held (fanMap s.net.nn e.held) ∅ s.net n' := by
  have hsp := hs.spare he
  have htail : ∀ v, (∀ r ∈ e.held, v ≠ r.node) → ∀ p ∈ e.held.tail, v ≠ p.node :=
    fun v hv p hp => hv p (List.mem_of_mem_tail hp)
  refine ⟨h.good.discard fun p hp => ?_, by rw [h.nn]; omega, h.levels, fun v hv hr => ?_, h.tag,
    h.scope, fun p q hl hr hq => h.moved p q hl (fun hp => hr p hp rfl) hq,
    fun p hp hr _ hc => h.other p hp (htail _ hr) (fun hb => ?_) hc, by simp, fun p hp => fanMap_off hp⟩
  · obtain ⟨hp, hpb⟩ := hp
    have hpx : p ∈ e.held.tail := (List.mem_cons.mp hp).resolve_left hpb
    rw [← Bool.not_eq_true]
    intro hl
    exact ((h.live _ (Net.live_lt (hsp.live p hp))).mp hl).2 p hpx rfl
  · rw [Bool.eq_iff_iff, h.live v hv]
    exact and_iff_left (htail v hr)
  · exact hr e.bind List.mem_cons_self (by rw [hb])

/-- The state in which the body of a function is compiled. -/
lemma made_lam (hs : CInv s) (name : String) :
    let lvl := scopeApp (s.alloc .lam s.curLvl).2.net s.curLvl 1
    let s₁ := (pushVar { (s.alloc .lam s.curLvl).2 with net := lvl.2 } name ⟨s.net.nn, 1⟩).enter
      s.curLvl 1
    CInv s₁ ∧ Quiet (pushVar s name ⟨s.net.nn, 1⟩) s₁ ∧ s₁.net.nn = s.net.nn + 1 ∧
      s₁.net.live s.net.nn = true ∧ s₁.net.tag.get s.net.nn = .lam ∧
      (∀ k, s₁.net.wireAt ⟨s.net.nn, k⟩ = none) ∧ lvl.1 ≤ s₁.net.levels.length := by
  have hal := hs.good.alloc_spec .lam s.curLvl
  have hq0 := alloc_quiet hs .lam s.curLvl
  have hs0 := alloc_inv hs .lam hs.lvl
  have hnn : (s.alloc .lam s.curLvl).2.net.nn = s.net.nn + 1 := hs.good.alloc_nn .lam s.curLvl
  set s0 := (s.alloc .lam s.curLvl).2
  have hlt : s.net.nn < s0.net.nn := by omega
  have hin := scopeApp_spec hs0.good.trie (l := s.curLvl) hs0.lvl 1
  have hq1 := grown_quiet hin.grown s.curLvl
  have hs1 : CInv { s0 with net := (scopeApp s0.net s.curLvl 1).2 } :=
    hq1.inv hs0 (hs0.good.grow hin.grown hin.trieOk) (hs0.lvl.trans hq1.later.levels.length_le)
  set s1 : CState := { s0 with net := (scopeApp s0.net s.curLvl 1).2 } with hs1def
  have hnn1 : s1.net.nn = s.net.nn + 1 := by
    rw [hs1def]
    simp only
    rw [hin.grown.same]
    exact hnn
  have hlive : s1.net.live s.net.nn = true := (hq1.later.live _ hlt).trans hal.isLive
  have hloose : ∀ k, s1.net.wireAt ⟨s.net.nn, k⟩ = none := fun k =>
    (hq1.wires _ hlt).trans (hal.wireNew k)
  have hheld : (⟨s.net.nn, 1⟩ : Port) ∉ s1.held := fun hk =>
    absurd (CState.held_lt hs (p := ⟨s.net.nn, 1⟩) hk) (lt_irrefl _)
  have hs2 := hs1.push name hlive (hloose 1) hheld
  have hq3 := enter_quiet hs2 (l := s.curLvl) hs1.lvl 1
  have hlt1 : s.net.nn < s1.net.nn := by omega
  have hq : Quiet s s1 := hq0.trans hq1
  refine ⟨enter_inv hs2 hs1.lvl 1, ⟨hq.later.trans hq3.later, ?_, fun p hp => ?_⟩,
    (enter_nn hs2 hs1.lvl 1).trans hnn1, (hq3.later.live _ hlt1).trans hlive,
    (hq3.later.tag _ hlt1).trans ((hq1.later.tag _ hlt).trans hal.tagNew),
    fun k => (hq3.wires _ hlt1).trans (hloose k), hin.le.trans hq3.later.levels.length_le⟩
  · rw [hq3.stack]
    rfl
  · exact (hq3.wires p (hp.trans_le hq.later.nn)).trans (hq.wires p hp)

/-- The uses of the function `v`'s variable were hung under its binder. -/
structure Bound (s : CState) (e : CVar) (v : ℕ) (σ : Port → Port) (ds : List ℕ) (s' : CState) :
    Prop where
  rewired : Rewired e.held σ ∅ s.net s'.net
  hung : Hung s'.net e.bind (e.uses.map σ) ds
  nodup : ds.Nodup
  range : ∀ d ∈ ds, s.net.nn ≤ d ∧ d < s'.net.nn
  all : ∀ u, s.net.nn ≤ u → s'.net.live u = true → u ∈ ds
  old : ∀ u, u < s.net.nn → s'.net.live u = true → s.net.live u = true ∧ ∀ p ∈ e.extra, u ≠ p.node
  isLive : s'.net.live v = true
  wired : ∀ k q, k ≠ 1 → s.net.wireAt ⟨v, k⟩ = some q → s'.net.wireAt ⟨v, k⟩ = some (σ q)
  loose : ∀ k, k ≠ 1 → s.net.wireAt ⟨v, k⟩ = none → s'.net.wireAt ⟨v, k⟩ = none
  stack : s'.cstack = s.cstack
  lvl : s'.curLvl = s.curLvl

lemma fanOut_bound (hs : CInv s) (hst : s.cstack = e :: rest) {v lvl : ℕ} (hb : e.bind = ⟨v, 1⟩)
    (hlvl : lvl ≤ s.net.levels.length) : ∃ σ ds, Bound s e v σ ds (fanOut s v lvl) := by
  have he : e ∈ s.cstack := by simp [hst]
  have hbh := CVar.mem_held he (List.mem_cons_self (a := e.bind) (l := e.extra))
  have hbl := hs.live _ hbh
  rw [hb] at hbl
  by_cases h1 : 1 < e.count
  · obtain ⟨hf, hstack, hlv⟩ := fanOut_spec hs hst hb h1 hlvl
    have hu : e.uses = e.held := by rw [CVar.uses, if_neg (by omega), CVar.held]
    have hsp := hs.spare he
    have hlen : 2 ≤ e.held.length := by
      have := hs.count e he
      simp only [CVar.held, List.length_cons]
      omega
    have hoff : ∀ k : Fin 3, k ≠ 1 → ∀ p ∈ e.held, (⟨v, k⟩ : Port) ≠ p := fun k hk p hp he' =>
      hk (by rw [← hs.port p (CVar.mem_held he hp), ← he'])
    have htail : ∀ r ∈ e.held.tail, v ≠ r.node := fun r hr => by
      have := hs.node_ne hbh (CVar.mem_held he (List.mem_cons_of_mem _ hr)) fun h0 =>
        (List.nodup_cons.mp hsp.nodup).1 (h0 ▸ hr)
      rwa [hb] at this
    have hvlt : v < s.net.nn := Net.live_lt hbl
    have hfan := hf.fanAt hsp.nodup hlen
    refine ⟨fanMap s.net.nn e.held, List.range' s.net.nn (e.held.length - 1), hf.rewired_bind hs he,
      Or.inr (Or.inr ⟨s.net.nn, lvl, by rwa [hu], by rw [List.length_map, hu]⟩), List.nodup_range',
      fun d hd => ?_, fun u hu' hl => ?_, fun u hu' hl => (hf.live u hu').mp hl, ?_,
      fun k q hk hq => ?_, fun k hk hw => ?_, hstack, hlv⟩
    · rw [List.mem_range'_1] at hd
      rw [hf.nn]
      omega
    · have := Net.live_lt hl
      rw [hf.nn] at this
      rw [List.mem_range'_1]
      omega
    · exact (hf.live v hvlt).mpr ⟨hbl, htail⟩
    · exact hf.moved _ q hbl (fun hp => hoff k hk _ hp rfl) hq
    · refine (hf.other ⟨v, k⟩ hvlt htail ?_ fun r hr => hs.not_consumer hw r
        (CVar.mem_held he hr)).trans hw
      exact hoff k hk _ List.mem_cons_self
  · obtain ⟨hheld, hr⟩ := hs.rewired_none he (not_lt.mp h1)
    have hfan : fanOut s v lvl = s := by simp only [fanOut, hst, h1, if_false]
    have hx : e.extra = [] := List.length_eq_zero_iff.mp (by rw [hs.count e he]; omega)
    rw [hfan]
    refine ⟨id, [], hr, ?_, List.nodup_nil, by simp, fun u hu hl => absurd (Net.live_lt hl)
      (not_lt.mpr hu), fun u _ hl => ⟨hl, by simp [hx]⟩, hbl, fun k q _ hq => hq,
      fun k _ hw => hw, rfl, rfl⟩
    rw [List.map_id]
    by_cases h0 : e.count = 0
    · exact Or.inl ⟨CVar.uses_eq_nil.mpr h0, rfl⟩
    · exact Or.inr (Or.inl ⟨by rw [CVar.uses, if_neg h0, hx], rfl⟩)

/-- A node that is no use of the variable moves along with the rewiring. -/
lemma Rewired.moves {σ : Port → Port} {n' : Net} (h : Rewired e.held σ ∅ s.net n') {v : ℕ}
    (hv : s.net.live v = true) (hne : ∀ r ∈ e.held, v ≠ r.node) : Moves σ s.net n' v :=
  ⟨fun hl => (h.live v (Net.live_lt hv) hne).trans hl, h.tag v (Net.live_lt hv),
    h.scope v (Net.live_lt hv), fun _ q hq => h.moved ⟨v, _⟩ q hv hne hq,
    fun _ => h.off _ fun hk => hne _ hk rfl⟩

theorem ctLam_correct {Γ : List String} {x : String} {b : Term} {cb : CT}
    (hb : Correct (x :: Γ) b cb) : Correct Γ (.lam x b) (ctLam x cb) := by
  rintro s hs rfl
  have hid := alloc_fst hs .lam s.curLvl
  obtain ⟨hi1, hq1, hnn1, hl1, ht1, hw1, hlvl1⟩ := made_lam hs x
  set lvl := scopeApp (s.alloc .lam s.curLvl).2.net s.curLvl 1 with hlvl
  set s1 := (pushVar { (s.alloc .lam s.curLvl).2 with net := lvl.2 } x ⟨s.net.nn, 1⟩).enter
    s.curLvl 1 with hs1
  have hst1 : s1.cstack = ⟨x, ⟨s.net.nn, 1⟩, 0, []⟩ :: s.cstack := hq1.stack
  have hlv1 : s.net.nn < s1.net.nn := by omega
  -- the body, linked to port 2
  obtain ⟨u, rb, nb, lb, sb, hok, hcb⟩ := hb s1 hi1 (by rw [CState.names, hst1]; rfl)
  have h2 := hcb.attach hi1 (a := ⟨s.net.nn, 2⟩) hl1 (hw1 2) (by simp) (by simp [ht1]) false
  set s2 : CState := { sb with curLvl := s.curLvl }.link (some ⟨s.net.nn, 2⟩) (some rb) false
    with hs2
  have hi2 : CInv s2 := h2.inv.relevel (hs.lvl.trans
    (hq1.later.trans h2.keeps.later).levels.length_le)
  obtain ⟨e, rest, hst2, hbind, huses⟩ : ∃ e rest, s2.cstack = e :: rest ∧
      e.bind = ⟨s.net.nn, 1⟩ ∧ e.uses = u 0 := by
    obtain ⟨e, he, -, hb, hu⟩ := h2.stack.entry 0 ⟨x, ⟨s.net.nn, 1⟩, 0, []⟩ (by rw [hst1]; rfl)
    have he' : s2.cstack[0]? = some e := he
    cases hc : s2.cstack with
    | nil => simp [hc] at he'
    | cons e' rest =>
      rw [hc, List.getElem?_cons_zero, Option.some.injEq] at he'
      subst he'
      exact ⟨e', rest, rfl, hb, by rw [hu]; simp [CVar.uses]⟩
  have he2 : e ∈ s2.cstack := by simp [hst2]
  -- its variable
  obtain ⟨σ, ds, hbd⟩ := fanOut_bound hi2 hst2 hbind (hlvl1.trans h2.keeps.later.levels.length_le)
  set s3 := fanOut s2 s.net.nn lvl.1 with hs3
  have hnn2 : s1.net.nn ≤ s2.net.nn := h2.keeps.later.nn
  have hnn3 : s2.net.nn ≤ s3.net.nn := hbd.rewired.nn
  have hext2 : Ext u (pushVar s x ⟨s.net.nn, 1⟩) s2 := by
    have := h2.ext _ _ hq1.ext le_rfl
    simp only [List.nil_append] at this
    exact ⟨this.later, this.stack, this.uses, this.wires⟩
  -- the uses are the binder and newer placeholders
  have hcase : ∀ p ∈ e.held, p = ⟨s.net.nn, 1⟩ ∨ p ∈ e.extra := fun p hp => by
    rw [← hbind]
    exact List.mem_cons.mp hp
  have hheld : ∀ p ∈ e.held, s.net.nn ≤ p.node := fun p hp => by
    rcases hcase p hp with rfl | hx
    · exact le_rfl
    · have hc : e.count ≠ 0 := fun h0 => by
        have := hi2.count e he2
        rw [h0, Nat.zero_sub, List.length_eq_zero_iff] at this
        simp [this] at hx
      have hpu : p ∈ u 0 := by
        rw [← huses, CVar.uses, if_neg hc]
        exact hp
      rcases hext2.uses 0 p hpu with hn | ⟨f, hf, rfl, -⟩
      · exact hn
      · simp only [pushVar, List.getElem?_cons_zero, Option.some.injEq] at hf
        exact hf ▸ le_rfl
  have hnot : ∀ v ∈ nb, ∀ r ∈ e.held, v ≠ r.node := by
    rintro v hv r hr rfl
    rcases hcase r hr with rfl | hx
    · have := (h2.range _ hv).1
      simp only at this
      omega
    · exact h2.laid.tag _ hv (hi2.era e he2 r hx)
  have hlive2 : ∀ v ∈ nb, s2.net.live v = true := fun v hv => h2.laid.live v hv
  have hlaid := h2.laid.move fun v hv => hbd.rewired.moves (hlive2 v hv) (hnot v hv)
  have hσself : σ ⟨s.net.nn, 2⟩ = ⟨s.net.nn, 2⟩ := hbd.rewired.off _ fun hp => by
    have := hi2.port _ (CVar.mem_held he2 hp)
    simp at this
  have houter : (fun i => (u (i + 1)).map σ) = fun i => u (i + 1) := by
    funext i
    refine (List.map_congr_left fun p hp => ?_).trans (List.map_id _)
    refine hbd.rewired.off p fun hpe => ?_
    obtain ⟨f, hf, hu⟩ := h2.stack.mem_uses hp
    have := hi2.held_inj (i := 0) (by rw [hst2]; rfl) hf hpe (CVar.mem_held_of_uses hu)
    omega
  have hl2 : s2.net.live s.net.nn = true := (h2.keeps.later.live _ hlv1).trans hl1
  have hlt2 : s.net.nn < s2.net.nn := hlv1.trans_le hnn2
  have ht3 : s3.net.tag.get s.net.nn = .lam :=
    (hbd.rewired.tag _ hlt2).trans ((h2.keeps.later.tag _ hlv1).trans ht1)
  have hw3 := hbd.wired 2 rb (by simp) h2.wire
  have hself : (⟨s.net.nn, 0⟩ : Port) ∉ s1.held := fun hp => by
    have := hi1.port _ hp
    simp at this
  have hloose : s3.net.wireAt ⟨s.net.nn, 0⟩ = none := by
    refine hbd.loose 0 (by simp) ?_
    exact (h2.other ⟨s.net.nn, 0⟩ hlv1 (by simp) hself).trans (hw1 0)
  have hs3eq : s3.popVar = ⟨s3.net, rest, s.curLvl⟩ := by
    rw [CState.popVar, hbd.stack, hst2, hbd.lvl]
    rfl
  have hlvl3 : s.curLvl ≤ s3.net.levels.length :=
    hs.lvl.trans ((hq1.later.trans h2.keeps.later).levels.trans hbd.rewired.levels).length_le
  have hinv := hbd.rewired.inv hi2 hst2 (by simp) (by simp) hlvl3
  have hext : Ext (fun i => u (i + 1)) s s3.popVar := by
    have h3 := (hext2.rewire hi2 hbd.rewired he2 hheld hs.good.toWired
      (fun p hp _ hpo => ?_) (by simp) s.curLvl).pop (v := s.net.nn) le_rfl
    · rw [hs3eq]
      simpa [CState.popVar, hst2] using h3
    · have hlt : p.node < s1.net.nn := hp.trans hlv1
      refine (h2.other p hlt (fun he => ?_) fun hp' => hpo (hi1.port p hp')).trans (hq1.wires p hp)
      rw [he] at hp
      exact lt_irrefl _ hp
  have hung : Hung s3.net ⟨s.net.nn, 1⟩ ((u 0).map σ) ds := by
    have := hbd.hung
    rwa [hbind, huses] at this
  have hr2 : ∀ v ∈ nb, s1.net.nn ≤ v ∧ v < s2.net.nn := h2.range
  refine ⟨fun i => u (i + 1), ⟨s.net.nn, 0⟩, s.net.nn :: (nb ++ ds),
    unused ⟨s.net.nn, 1⟩ ((u 0).map σ) ++ lb.map σ, s3.popVar, ?_,
    ⟨hs3eq ▸ hinv, hext, ?_, ?_, fun v hv => ?_, fun v hv hl => ?_, hbd.isLive, hloose⟩⟩
  · simp only [ctLam, hid, ← hlvl, ← hs1, hok, bind, Except.bind, ← hs2, ← hs3]
  · have := Laid.lam (Γ := s.names) (x := x) (n := s3.net) (by simpa [CState.names, hst1] using hlaid)
      hbd.isLive ht3 hw3 hung
    rwa [houter] at this
  · rw [List.nodup_cons, List.nodup_append, List.mem_append]
    refine ⟨fun h => ?_, h2.nodup, hbd.nodup, fun v hv w hw he => ?_⟩
    · rcases h with h | h
      · have := (h2.range _ h).1
        omega
      · have := (hbd.range _ h).1
        omega
    · have h1 := (hr2 _ hv).2
      have h2 := (hbd.range _ hw).1
      omega
  · rcases List.mem_cons.mp hv with rfl | hv
    · exact ⟨le_rfl, hlt2.trans_le hnn3⟩
    · rcases List.mem_append.mp hv with hv | hv
      · have := h2.range v hv
        exact ⟨by omega, this.2.trans_le hnn3⟩
      · have := hbd.range v hv
        exact ⟨by omega, this.2⟩
  · rw [List.mem_cons, List.mem_append]
    by_cases h0 : v = s.net.nn
    · exact Or.inl (Or.inl h0)
    · by_cases h3 : v < s2.net.nn
      · obtain ⟨hl2, hne⟩ := hbd.old v h3 hl
        rcases h2.all v (by omega) hl2 with h | ⟨i, p, hp, h⟩
        · exact Or.inl (Or.inr (Or.inl h))
        · cases i with
          | succ i => exact Or.inr ⟨i, p, hp, h⟩
          | zero =>
            rcases hcase p (CVar.mem_held_of_uses (huses ▸ hp)) with rfl | hx
            · exact absurd h.symm h0
            · exact absurd h.symm (hne p hx)
      · exact Or.inl (Or.inr (Or.inr (hbd.all v (by omega) hl)))

end Lam

/-! ## Whole terms -/

/-- The net of a compiled term: ROOT and the agents of the term, its value wired to ROOT. -/
structure CompiledNet (t : Term) (n : Net) (r : Port) (ns : List ℕ) (ls : List Port) : Prop where
  good : Good n ∅
  root : n.tag.get 0 = .root
  wire : n.wireAt ⟨0, 0⟩ = some r
  laid : Laid n [] t (fun _ => []) r ns ls
  nodup : (0 :: ns).Nodup
  live : ∀ v, n.live v = true ↔ v ∈ 0 :: ns
  rootAux : n.wireAt ⟨0, 1⟩ = none ∧ n.wireAt ⟨0, 2⟩ = none

lemma cinv_blank : CInv ⟨.blank, [], 0⟩ := by
  have hlive : ∀ v, Net.blank.live v = false := fun v => by simp [Net.live, Net.inNet, Net.blank]
  refine ⟨⟨fun p q hl => ?_, rfl, rfl, ⟨by simp [Net.blank], by simp [Net.blank]⟩, fun v hl => ?_⟩,
    Nat.zero_le _, List.nodup_nil, ?_, ?_, ?_, ?_, ?_, ?_, ?_⟩
  · simp [hlive] at hl
  · simp [hlive] at hl
  all_goals simp [CState.held]

theorem compile_correct {t : Term} (h : Correct [] t (ct t)) :
    ∃ n r ns ls, compile t = .ok n ∧ CompiledNet t n r ns ls := by
  have hal := cinv_blank.good.alloc_spec .root 0
  have hinit : CInv ⟨netInit, [], 0⟩ := alloc_inv cinv_blank .root (Nat.zero_le _)
  have hnn : netInit.nn = 1 := cinv_blank.good.alloc_nn .root 0
  obtain ⟨u, r, ns, ls, s', hok, hc⟩ := h _ hinit rfl
  have hu : u = fun _ => [] := funext fun i => hc.ext.stack.beyond i (Nat.zero_le _)
  subst hu
  have hroot : netInit.live 0 = true := hal.isLive
  have htag : netInit.tag.get 0 = .root := hal.tagNew
  have hat := hc.attach hinit (a := ⟨0, 0⟩) hroot (hal.wireNew 0) (by simp) (by simp [htag]) false
  have hlt : 0 < netInit.nn := by omega
  refine ⟨_, r, ns, ls, ?_, ⟨hat.inv.good, (hat.keeps.later.tag 0 hlt).trans htag, hat.wire, hat.laid,
    List.nodup_cons.mpr ⟨fun h0 => ?_, hat.nodup⟩, fun v => ⟨fun hl => ?_, fun hv => ?_⟩, ?_, ?_⟩⟩
  · simp only [compile, hok, bind, Except.bind]
    rfl
  · have := (hat.range 0 h0).1
    simp only [hnn] at this
    omega
  · rw [List.mem_cons]
    by_cases h0 : v = 0
    · exact Or.inl h0
    · rcases hat.all v (by simp only [hnn]; omega) hl with h | ⟨i, p, hp, -⟩
      · exact Or.inr h
      · simp at hp
  · rcases List.mem_cons.mp hv with rfl | hv
    · exact (hat.keeps.later.live 0 hlt).trans hroot
    · exact hat.laid.live v hv
  · exact (hat.other ⟨0, 1⟩ hlt (by simp) (by simp [CState.held])).trans (hal.wireNew 1)
  · exact (hat.other ⟨0, 2⟩ hlt (by simp) (by simp [CState.held])).trans (hal.wireNew 2)

lemma CompiledNet.sound {t : Term} {n : Net} {r : Port} {ns : List ℕ} {ls : List Port}
    (h : CompiledNet t n r ns ls) : Sound n := h.good.sound

theorem ct_pure {Γ : List String} {t : Term} (h : t.PureIn Γ) : Correct Γ t (ct t) := by
  induction t generalizing Γ with
  | var x => exact ctVar_correct h
  | lam x b ih => exact ctLam_correct (ih h)
  | app f a ihf iha => exact ctApp_correct (ihf h.1) (iha h.2)
  | _ => exact h.elim

end LinEngine
