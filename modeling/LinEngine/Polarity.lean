import LinEngine.Compile
import LinEngine.FreeList

/-!
# Consumers and values

Every port of a compiled net is a consumer or a value, by the tag of its node: the compiler
links a consumer with a value, and marks nothing dead but placeholders. So a compiled net
whose live wires are mutual is orderly.
-/
namespace LinEngine

/-- Whether the port is the value end of its wire; the compiler wires no other port of an
eraser. -/
def Tag.side : Tag → Fin 3 → Option Bool
  | .lam, k => some (k != 2)
  | .app, k => some (k == 1)
  | .dup, k => some (k != 0)
  | .era, k => if k = 1 then some true else none
  | .root, _ => some false

def Net.side (n : Net) (p : Port) : Option Bool :=
  if p.node < n.nn then (n.tag.get p.node).side p.port else none

/-- The net of a compilation, in the middle of it or at its end. -/
structure Polar (n : Net) : Prop where
  free : n.freeHead = none
  pend : n.pendHead = none
  nfree : n.nfree = 0
  wire : ∀ p q, n.wireAt p = some q → ∃ b, n.side p = some b ∧ n.side q = some (!b)
  dead : ∀ v, n.dead.get v = true → n.tag.get v = .era

/-- The nodes that were there keep their tags. -/
structure Tagged (n m : Net) : Prop where
  nn : n.nn ≤ m.nn
  tag : ∀ v < n.nn, m.tag.get v = n.tag.get v

section Polar

variable {n m k : Net}

lemma Net.side_lt {p : Port} {b : Bool} (h : n.side p = some b) : p.node < n.nn := by
  unfold Net.side at h
  split_ifs at h with hlt
  exact hlt

lemma Net.side_era {p : Port} {b : Bool} (h : n.side p = some b) (ht : n.tag.get p.node = .era) : p.port = 1 := by
  rw [Net.side, if_pos (Net.side_lt h), ht] at h
  simp only [Tag.side] at h
  split_ifs at h with hp
  exact hp

lemma Tagged.refl (n : Net) : Tagged n n := ⟨le_rfl, fun _ _ => rfl⟩

lemma Tagged.trans (h : Tagged n m) (h' : Tagged m k) : Tagged n k :=
  ⟨h.nn.trans h'.nn, fun v hv => (h'.tag v (hv.trans_le h.nn)).trans (h.tag v hv)⟩

lemma Tagged.side (h : Tagged n m) {p : Port} {b : Bool} (hp : n.side p = some b) : m.side p = some b := by
  have hlt := Net.side_lt hp
  rw [Net.side, if_pos hlt] at hp
  rw [Net.side, if_pos (hlt.trans_le h.nn), h.tag _ hlt, hp]

/-! ## What the compiler does to its net -/

lemma Polar.alloc (h : Polar n) (t : Tag) (sc : ℕ) :
    Polar (netAlloc .serial n t sc).2 ∧ Tagged n (netAlloc .serial n t sc).2 ∧
      ∀ j, (netAlloc .serial n t sc).2.side ⟨(netAlloc .serial n t sc).1, j⟩ = t.side j := by
  have he : netAlloc .serial n t sc = (n.nn, initNode { n with nn := n.nn + 1 } n.nn t sc) := by
    rcases netAlloc_cases .serial n t sc with he | ⟨id, -, hf, -⟩
    · exact he
    · rw [h.free] at hf
      cases hf
  have htag : ∀ v, (initNode { n with nn := n.nn + 1 } n.nn t sc).tag.get v = if n.nn = v then t else n.tag.get v :=
    fun v => Table.get_set _ _ _ _
  have hkeep : Tagged n (initNode { n with nn := n.nn + 1 } n.nn t sc) :=
    ⟨Nat.le_succ _, fun v hv => by rw [htag, if_neg hv.ne']⟩
  rw [he]
  refine ⟨⟨h.free, h.pend, h.nfree, fun p q hw => ?_, fun v hv => ?_⟩, hkeep, fun j => ?_⟩
  · rw [initNode_wireAt] at hw
    split_ifs at hw
    obtain ⟨b, hp, hq⟩ := h.wire p q hw
    exact ⟨b, hkeep.side hp, hkeep.side hq⟩
  · have hd : (initNode { n with nn := n.nn + 1 } n.nn t sc).dead.get v = if n.nn = v then false else n.dead.get v :=
      Table.get_set _ _ _ _
    rw [hd] at hv
    rw [htag]
    split_ifs at hv ⊢
    exact h.dead v hv
  · have hlt : n.nn < (initNode { n with nn := n.nn + 1 } n.nn t sc).nn := Nat.lt_succ_self _
    rw [Net.side, if_pos hlt, htag, if_pos rfl]

lemma Polar.alloc_tag (h : Polar n) (t : Tag) (sc : ℕ) :
    (netAlloc .serial n t sc).2.tag.get (netAlloc .serial n t sc).1 = t :=
  (netAlloc_allocated .serial ⟨[], h.free ▸ .nil⟩ t sc).tagNew

/-- Linking a consumer and a value, in either order. -/
lemma Polar.link (h : Polar n) {a b : Option Port} {e : Bool}
    (hab : ∀ p q, a = some p → b = some q → ∃ c, n.side p = some c ∧ n.side q = some (!c)) :
    Polar (netLink .serial n a b e) ∧ Tagged n (netLink .serial n a b e) := by
  have hlink := netLink_linked .serial n a b e
  have hkeep : Tagged n (netLink .serial n a b e) := ⟨hlink.nn.ge, fun v _ => by rw [hlink.tag]⟩
  refine ⟨⟨hlink.freeHead.trans h.free, (netLink_pendHead _ _ _ _ _).trans h.pend, (netLink_nfree _ _ _ _ _).trans h.nfree,
    fun p q hw => ?_, fun v hv => ?_⟩, hkeep⟩
  · have hside : ∃ c, n.side p = some c ∧ n.side q = some (!c) := by
      cases a with
      | none => exact h.wire p q hw
      | some x =>
        cases b with
        | none => exact h.wire p q hw
        | some y =>
          obtain ⟨c, hx, hy⟩ := hab x y rfl rfl
          rw [netLink_wireAt] at hw
          split_ifs at hw with h1 h2
          · obtain rfl := Option.some.inj hw
            exact ⟨!c, h1 ▸ hy, by simpa using hx⟩
          · obtain rfl := Option.some.inj hw
            exact ⟨c, h2 ▸ hx, hy⟩
          · exact h.wire p q hw
    obtain ⟨c, hp, hq⟩ := hside
    exact ⟨c, hkeep.side hp, hkeep.side hq⟩
  · rw [hlink.dead] at hv
    rw [hlink.tag]
    exact h.dead v hv

lemma Polar.grown (h : Polar n) (hm : Grown n m) : Polar m ∧ Tagged n m := by
  rw [hm.same]
  exact ⟨⟨h.free, h.pend, h.nfree, h.wire, h.dead⟩, le_rfl, fun _ _ => rfl⟩

/-- Spending a placeholder. -/
lemma Polar.spend (h : Polar n) {v : ℕ} (hv : n.tag.get v = .era) :
    Polar (({ n with dead := n.dead.set v true } : Net).setWire ⟨v, 1⟩ none) ∧
      Tagged n (({ n with dead := n.dead.set v true } : Net).setWire ⟨v, 1⟩ none) := by
  refine ⟨⟨h.free, h.pend, h.nfree, fun p q hw => ?_, fun u hu => ?_⟩, le_rfl, fun _ _ => rfl⟩
  · rw [Net.wireAt_setWire] at hw
    split_ifs at hw
    exact h.wire p q hw
  · have hd : ((n.dead.set v true).get u) = true := hu
    rw [Table.get_set] at hd
    split_ifs at hd with huv
    · exact huv ▸ hv
    · exact h.dead u hd

lemma Polar.scopeApp (h : Polar n) (l bit : ℕ) : Polar (scopeApp n l bit).2 ∧ Tagged n (scopeApp n l bit).2 :=
  h.grown (lvIntern_grown n l _)

/-- A net of the compiler with what it kept of an earlier one. -/
structure Polarised (n m : Net) : Prop where
  polar : Polar m
  tagged : Tagged n m

lemma Polarised.refl (h : Polar n) : Polarised n n := ⟨h, .refl n⟩

lemma Polarised.side (h : Polarised n m) {p : Port} {b : Bool} (hp : n.side p = some b) : m.side p = some b :=
  h.tagged.side hp

lemma Polarised.alloc (h : Polarised n m) (t : Tag) (sc : ℕ) :
    Polarised n (netAlloc .serial m t sc).2 ∧
      ∀ j, (netAlloc .serial m t sc).2.side ⟨(netAlloc .serial m t sc).1, j⟩ = t.side j :=
  ⟨⟨(h.polar.alloc t sc).1, h.tagged.trans (h.polar.alloc t sc).2.1⟩, (h.polar.alloc t sc).2.2⟩

lemma Polarised.link (h : Polarised n m) {a b : Port} (e : Bool) (ha : m.side a = some false) (hb : m.side b = some true) :
    Polarised n (netLink .serial m (some a) (some b) e) := by
  have hl := h.polar.link (e := e) fun p q (hp : some a = some p) (hq : some b = some q) =>
    ⟨false, Option.some.inj hp ▸ ha, Option.some.inj hq ▸ hb⟩
  exact ⟨hl.1, h.tagged.trans hl.2⟩

end Polar

/-! ## Fans and numerals -/

section Parts

variable {n m : Net}

/-- Consumers to be wired to one value. -/
def Consumers (n : Net) (ts : List (Option Port)) : Prop := ∀ t ∈ ts, ∀ p, t = some p → n.side p = some false

lemma Consumers.mono {ts : List (Option Port)} (h : Consumers n ts) (hm : Tagged n m) : Consumers m ts :=
  fun t ht p hp => hm.side (h t ht p hp)

lemma Polarised.linkOption (h : Polarised n m) {a : Port} {t : Option Port} (e : Bool) (ha : m.side a = some true)
    (ht : ∀ p, t = some p → m.side p = some false) : Polarised n (netLink .serial m (some a) t e) := by
  have hl := h.polar.link (e := e) fun p q (hp : some a = some p) hq => ⟨true, Option.some.inj hp ▸ ha, ht q hq⟩
  exact ⟨hl.1, h.tagged.trans hl.2⟩

/-- A new fan over two consumers. -/
lemma Polarised.fan (h : Polarised n m) {c t : Option Port} (hc : ∀ p, c = some p → m.side p = some false)
    (ht : ∀ p, t = some p → m.side p = some false) (sc : ℕ) :
    let d := netAlloc .serial m .dup sc
    let k := netLink .serial (netLink .serial d.2 (some ⟨d.1, 1⟩) c false) (some ⟨d.1, 2⟩) t false
    Polarised n k ∧ Tagged m k ∧ k.side ⟨d.1, 0⟩ = some false := by
  obtain ⟨hp, hside⟩ := (Polarised.refl h.polar).alloc .dup sc
  extract_lets d k
  have h1 : Polarised d.2 (netLink .serial d.2 (some ⟨d.1, 1⟩) c false) :=
    (Polarised.refl hp.polar).linkOption false (hside 1) fun p he => hp.side (hc p he)
  have h2 : Polarised d.2 k := h1.linkOption false (h1.side (hside 2)) fun p he => h1.side (hp.side (ht p he))
  have hk : Tagged m k := hp.tagged.trans h2.tagged
  exact ⟨⟨h2.polar, h.tagged.trans hk⟩, hk, h2.side (hside 0)⟩

lemma dupTreeLoop_polarised (h : Polarised n m) {cur : Port} (hcur : m.side cur = some false) (sc : ℕ)
    {ts : List (Option Port)} (hts : Consumers m ts) :
    Polarised n (dupTreeLoop .serial m cur sc ts).2 ∧
      (dupTreeLoop .serial m cur sc ts).2.side (dupTreeLoop .serial m cur sc ts).1 = some false := by
  induction ts generalizing m cur with
  | nil => exact ⟨h, hcur⟩
  | cons t ts ih =>
    obtain ⟨hk, hm, hroot⟩ := h.fan (c := some cur) (fun p he => Option.some.inj he ▸ hcur) (hts t (by simp)) sc
    exact ih hk hroot (Consumers.mono (fun t ht => hts t (List.mem_cons_of_mem _ ht)) hm)

lemma dupTree_polarised (h : Polarised n m) (sc : ℕ) {ts : List (Option Port)} (hts : Consumers m ts) :
    Polarised n (dupTree .serial m ts sc).2 ∧
      ∀ p, (dupTree .serial m ts sc).1 = some p → (dupTree .serial m ts sc).2.side p = some false := by
  rcases ts with _ | ⟨t0, _ | ⟨t1, ts⟩⟩
  · exact ⟨h, fun p hp => absurd hp (by simp [dupTree])⟩
  · exact ⟨h, hts t0 (by simp)⟩
  · obtain ⟨hk, hm, hroot⟩ := h.fan (hts t0 (by simp)) (hts t1 (by simp)) sc
    obtain ⟨hl, hside⟩ := dupTreeLoop_polarised hk hroot sc
      (Consumers.mono (fun t ht => hts t (List.mem_cons_of_mem _ (List.mem_cons_of_mem _ ht))) hm)
    exact ⟨hl, fun p hp => Option.some.inj hp ▸ hside⟩

lemma netAllocBool_polarised (h : Polarised n m) (val : Bool) :
    Polarised n (netAllocBool .serial m val).2 ∧
      (netAllocBool .serial m val).2.side (netAllocBool .serial m val).1 = some true := by
  obtain ⟨h1, hs1⟩ := h.alloc .lam 0
  obtain ⟨h2, hs2⟩ := (Polarised.refl h1.polar).alloc .lam 0
  have h3 := (Polarised.refl h2.polar).link false (h2.side (hs1 2)) (hs2 0)
  have hval : ∀ {k : Net}, Tagged (netAlloc .serial (netAlloc .serial m .lam 0).2 .lam 0).2 k →
      k.side ⟨if val then (netAlloc .serial m .lam 0).1 else (netAlloc .serial (netAlloc .serial m .lam 0).2 .lam 0).1, 1⟩ =
        some true := by
    intro k hk
    cases val with
    | true => exact hk.side (h2.side (hs1 1))
    | false => exact hk.side (hs2 1)
  have h4 := h3.link false (h3.side (hs2 2)) (hval h3.tagged)
  exact ⟨⟨h4.polar, (h1.tagged.trans h2.tagged).trans h4.tagged⟩, h4.side (h2.side (hs1 0))⟩

lemma scottCell_polarised (h : Polarised n m) (lvl : ℕ) (bit : Bool) {cur : Port} (hcur : m.side cur = some true) :
    Polarised n (scottCell .serial m lvl bit cur).2 ∧
      (scottCell .serial m lvl bit cur).2.side (scottCell .serial m lvl bit cur).1 = some true := by
  unfold scottCell
  extract_lets f a b c s nn i ou n1 n2 n3 n4 n5 n6
  have hf := h.polar.scopeApp lvl 1
  have ha := hf.1.scopeApp lvl 2
  obtain ⟨hb, hsb⟩ := netAllocBool_polarised (Polarised.refl ha.1) bit
  obtain ⟨hc, hsc⟩ := hb.alloc .lam f.1
  have hs := hc.polar.scopeApp f.1 1
  have hcs : Tagged c.2 s.2 := hs.2
  obtain ⟨hn, hsn⟩ := (Polarised.refl hs.1).alloc .lam s.1
  obtain ⟨hi, hsi⟩ := hn.alloc .app f.1
  obtain ⟨ho, hso⟩ := hi.alloc .app a.1
  have hbc : Tagged b.2 c.2 := ((Polarised.refl hb.polar).alloc .lam f.1).1.tagged
  have hni : Tagged nn.2 i.2 := ((Polarised.refl hn.polar).alloc .app f.1).1.tagged
  have hio : Tagged i.2 ou.2 := ((Polarised.refl hi.polar).alloc .app a.1).1.tagged
  have hco : Tagged c.2 ou.2 := hcs.trans ho.tagged
  have hb' : ou.2.side b.1 = some true := (hbc.trans hco).side hsb
  have hcur' : ou.2.side cur = some true := ((((hf.2.trans ha.2).trans hb.tagged).trans hbc).trans hco).side hcur
  have h1 := (Polarised.refl ho.polar).link false (hco.side (hsc 2)) ((hni.trans hio).side (hsn 0))
  have h2 := h1.link false (h1.side ((hni.trans hio).side (hsn 2))) (h1.side (hso 1))
  have h3 := h2.link false (h2.side (hso 0)) (h2.side (hio.side (hsi 1)))
  have h4 := h3.link false (h3.side (hso 2)) (h3.side hcur')
  have h5 := h4.link false (h4.side (hio.side (hsi 0))) (h4.side (hco.side (hsc 1)))
  have h6 := h5.link false (h5.side (hio.side (hsi 2))) (h5.side hb')
  refine ⟨⟨h6.polar, ?_⟩, h6.side (hco.side (hsc 0))⟩
  exact h.tagged.trans (((((hf.2.trans ha.2).trans hb.tagged).trans hbc).trans hco).trans h6.tagged)

lemma scottCells_polarised (lvl k w : ℕ) {s : Port × Net} (h : Polarised n s.2) (hs : s.2.side s.1 = some true) :
    Polarised n (scottCells .serial lvl k w s).2 ∧
      (scottCells .serial lvl k w s).2.side (scottCells .serial lvl k w s).1 = some true := by
  induction w generalizing s with
  | zero => exact ⟨h, hs⟩
  | succ w ih =>
    obtain ⟨hc, hsc⟩ := scottCell_polarised h lvl (k.testBit w) hs
    exact ih hc hsc

lemma allocScott_polarised (h : Polarised n m) (k lvl : ℕ) :
    Polarised n (allocScott .serial m k lvl).2 ∧
      (allocScott .serial m k lvl).2.side (allocScott .serial m k lvl).1 = some true := by
  have hbl := h.polar.scopeApp lvl 1
  obtain ⟨h1, hs1⟩ := (Polarised.refl hbl.1).alloc .lam lvl
  obtain ⟨h2, hs2⟩ := (Polarised.refl h1.polar).alloc .lam (scopeApp m lvl 1).1
  have h3 := (Polarised.refl h2.polar).link false (h2.side (hs1 2)) (hs2 0)
  obtain ⟨h4, hs4⟩ := netAllocBool_polarised h3 true
  have h5 := h4.link false (h4.side (hs2 2)) hs4
  have htag := ((h.tagged.trans hbl.2).trans h1.tagged).trans (h2.tagged.trans h5.tagged)
  exact scottCells_polarised lvl k (scottWidth k) ⟨h5.polar, htag⟩ (h5.side (h2.side (hs1 0)))

end Parts

/-! ## The cases of `ct_in` -/

/-- The compiler between two cases: what its variables hold are values, on placeholders but
for the first use. -/
structure Oriented (s : CState) : Prop where
  polar : Polar s.net
  bind : ∀ e ∈ s.cstack, s.net.side e.bind = some true
  extra : ∀ e ∈ s.cstack, ∀ p ∈ e.extra, s.net.side p = some true ∧ s.net.tag.get p.node = .era

/-- Run from an oriented state, the case ends in one, and its result is a value. -/
def Steadily (c : CT) : Prop :=
  ∀ s r s', Oriented s → c s = .ok (r, s') → Oriented s' ∧ Tagged s.net s'.net ∧ s'.net.side r = some true

section Cases

variable {s s' : CState} {r : Port}

lemma Oriented.keep (h : Oriented s) (hm : Polarised s.net s'.net) (hst : s'.cstack = s.cstack) : Oriented s' := by
  refine ⟨hm.polar, fun e he => ?_, fun e he p hp => ?_⟩
  · rw [hst] at he
    exact hm.side (h.bind e he)
  · rw [hst] at he
    obtain ⟨hside, htag⟩ := h.extra e he p hp
    exact ⟨hm.side hside, by rw [hm.tagged.tag _ (Net.side_lt hside), htag]⟩

lemma Oriented.push (h : Oriented s) (name : String) {p : Port} (hp : s.net.side p = some true) : Oriented (pushVar s name p) := by
  refine ⟨h.polar, fun e he => ?_, fun e he q hq => ?_⟩
  · rcases List.mem_cons.1 he with rfl | he
    · exact hp
    · exact h.bind e he
  · rcases List.mem_cons.1 he with rfl | he
    · cases hq
    · exact h.extra e he q hq

lemma Oriented.pop (h : Oriented s) : Oriented s.popVar :=
  ⟨h.polar, fun e he => h.bind e (List.mem_of_mem_tail he), fun e he => h.extra e (List.mem_of_mem_tail he)⟩

lemma Oriented.enter (h : Oriented s) (l bit : ℕ) : Oriented (s.enter l bit) ∧ Tagged s.net (s.enter l bit).net :=
  have hs := h.polar.scopeApp l bit
  ⟨h.keep ⟨hs.1, hs.2⟩ rfl, hs.2⟩

lemma Oriented.alloc (h : Oriented s) (t : Tag) (sc : ℕ) :
    Oriented (s.alloc t sc).2 ∧ Tagged s.net (s.alloc t sc).2.net ∧
      ∀ j, (s.alloc t sc).2.net.side ⟨(s.alloc t sc).1, j⟩ = t.side j :=
  have ha := h.polar.alloc t sc
  ⟨h.keep ⟨ha.1, ha.2.1⟩ rfl, ha.2.1, ha.2.2⟩

lemma Oriented.link (h : Oriented s) {a b : Port} (e : Bool) (ha : s.net.side a = some false) (hb : s.net.side b = some true) :
    Oriented (s.link (some a) (some b) e) ∧ Tagged s.net (s.link (some a) (some b) e).net :=
  have hl := (Polarised.refl h.polar).link e ha hb
  ⟨h.keep hl rfl, hl.tagged⟩

/-- Recording a use of a variable. -/
lemma Oriented.use {pre post : List CVar} {e e' : CVar} (h : Oriented s) (hm : Polarised s.net s'.net)
    (hst : s.cstack = pre ++ e :: post) (hst' : s'.cstack = pre ++ e' :: post) (hbind : e'.bind = e.bind)
    (hextra : ∀ p ∈ e'.extra, p ∈ e.extra ∨ s'.net.side p = some true ∧ s'.net.tag.get p.node = .era) : Oriented s' := by
  have hk : Oriented { s' with cstack := s.cstack } := h.keep hm rfl
  have hmem : ∀ x ∈ s'.cstack, x = e' ∨ x ∈ s.cstack := fun x hx => by
    rw [hst', List.mem_append, List.mem_cons] at hx
    rw [hst, List.mem_append, List.mem_cons]
    tauto
  have he : e ∈ s.cstack := by simp [hst]
  refine ⟨hm.polar, fun x hx => ?_, fun x hx p hp => ?_⟩
  · rcases hmem x hx with rfl | hx
    · rw [hbind]
      exact hk.bind e he
    · exact hk.bind x hx
  · rcases hmem x hx with rfl | hx
    · rcases hextra p hp with hp | hp
      · exact hk.extra e he p hp
      · exact hp
    · exact hk.extra x hx p hp

lemma useVar_oriented {pre post : List CVar} {e : CVar} (h : Oriented s) (hst : s.cstack = pre ++ e :: post) :
    Oriented (useVar s pre e post).2 ∧ Tagged s.net (useVar s pre e post).2.net ∧
      (useVar s pre e post).2.net.side (useVar s pre e post).1 = some true := by
  have he : e ∈ s.cstack := by simp [hst]
  unfold useVar
  split_ifs
  · exact ⟨h.use (.refl h.polar) hst rfl rfl fun p hp => .inl hp, .refl _, h.bind e he⟩
  · obtain ⟨ha, hs⟩ := (Polarised.refl h.polar).alloc .era 0
    refine ⟨h.use ha hst rfl rfl fun p hp => ?_, ha.tagged, hs 1⟩
    rcases List.mem_append.1 hp with hp | hp
    · exact .inl hp
    · obtain rfl := List.mem_singleton.1 hp
      exact .inr ⟨hs 1, h.polar.alloc_tag .era 0⟩

lemma spendExtras_polarised {m : Net} (h : Polar m) {ps : List Port}
    (hps : ∀ p ∈ ps, m.side p = some true ∧ m.tag.get p.node = .era) :
    Polarised m (spendExtras m ps).2 ∧ Consumers (spendExtras m ps).2 (spendExtras m ps).1 := by
  induction ps generalizing m with
  | nil => exact ⟨.refl h, fun t ht => absurd ht List.not_mem_nil⟩
  | cons p ps ih =>
    obtain ⟨hside, htag⟩ := hps p (by simp)
    obtain ⟨hp, hk⟩ := h.spend htag
    obtain ⟨hrest, hcons⟩ := ih (m := (spendExtra m p).2) hp fun q hq =>
      ⟨hk.side (hps q (List.mem_cons_of_mem _ hq)).1, (hps q (List.mem_cons_of_mem _ hq)).2⟩
    refine ⟨⟨hrest.polar, hk.trans hrest.tagged⟩, fun t ht q hq => ?_⟩
    rcases List.mem_cons.1 ht with rfl | ht
    · have hport : (⟨p.node, 1⟩ : Port) = p := by
        rw [← Net.side_era hside htag]
      have hwire : m.wireAt p = some q := hport ▸ hq
      obtain ⟨b, hb, hqb⟩ := h.wire p q hwire
      obtain rfl : b = true := Option.some.inj (hb.symm.trans hside)
      exact hrest.side (hk.side hqb)
    · exact hcons t ht q hq

/-- The uses of a variable, its placeholders spent. -/
lemma usePorts_polarised {e : CVar} (h : Oriented s) (he : e ∈ s.cstack) {b : Port} (hb : s.net.side b = some true) :
    Polarised s.net (usePorts s.net e b).2 ∧ Consumers (usePorts s.net e b).2 (usePorts s.net e b).1 := by
  obtain ⟨hp, hcons⟩ := spendExtras_polarised h.polar (h.extra e he)
  refine ⟨hp, fun t ht q hq => ?_⟩
  rcases List.mem_cons.1 ht with rfl | ht
  · obtain ⟨c, hc, hqc⟩ := h.polar.wire b q hq
    obtain rfl : c = true := Option.some.inj (hc.symm.trans hb)
    exact hp.side hqc
  · exact hcons t ht q hq

lemma fanOut_oriented (h : Oriented s) {v : ℕ} (lvl : ℕ) (hv : s.net.side ⟨v, 1⟩ = some true) :
    Oriented (fanOut s v lvl) ∧ Tagged s.net (fanOut s v lvl).net := by
  unfold fanOut
  split
  · exact ⟨h, .refl _⟩
  · rename_i e rest hst
    split_ifs
    · obtain ⟨hu, hcons⟩ := usePorts_polarised h (e := e) (by simp [hst]) hv
      obtain ⟨hd, hroot⟩ := dupTree_polarised hu lvl hcons
      have hl := hd.linkOption false (hd.side hv) hroot
      exact ⟨h.keep hl rfl, hl.tagged⟩
    · exact ⟨h, .refl _⟩

lemma ctVar_steadily (x : String) : Steadily (ctVar x) := by
  intro s r s' h hok
  have hloop : ∀ (l pre : List CVar), s.cstack = pre ++ l → ctVarLoop s x pre l = .ok (r, s') →
      Oriented s' ∧ Tagged s.net s'.net ∧ s'.net.side r = some true := by
    intro l
    induction l with
    | nil => exact fun pre _ hok => by cases hok
    | cons e post ih =>
      intro pre hst hok
      rw [ctVarLoop] at hok
      split_ifs at hok
      · obtain ⟨rfl, rfl⟩ := Prod.mk.inj (Except.ok.inj hok)
        exact useVar_oriented h hst
      · exact ih (pre ++ [e]) (by simpa using hst) hok
  exact hloop s.cstack [] rfl hok

lemma ctNum_steadily (k : ℕ) : Steadily (ctNum k) := by
  intro s r s' h hok
  obtain ⟨rfl, rfl⟩ := Prod.mk.inj (Except.ok.inj hok)
  obtain ⟨hn, hs⟩ := allocScott_polarised (Polarised.refl h.polar) (min k longMax) s.curLvl
  exact ⟨h.keep hn rfl, hn.tagged, hs⟩

lemma ctLam_steadily (name : String) {body : CT} (hbody : Steadily body) : Steadily (ctLam name body) := by
  intro s r s' h hok
  obtain ⟨ha, hta, hself⟩ := h.alloc .lam s.curLvl
  have hl := ha.polar.scopeApp s.curLvl 1
  unfold ctLam at hok
  dsimp only at hok
  generalize hself' : s.alloc .lam s.curLvl = self at hok ha hta hself hl
  cases hb : body ((pushVar { self.2 with net := (scopeApp self.2.net s.curLvl 1).2 } name ⟨self.1, 1⟩).enter s.curLvl 1) with
  | error e =>
    rw [hb] at hok
    cases hok
  | ok b =>
    rw [hb] at hok
    obtain ⟨rfl, rfl⟩ := Prod.mk.inj (Except.ok.inj hok)
    have h1 : Oriented { self.2 with net := (scopeApp self.2.net s.curLvl 1).2 } := ha.keep ⟨hl.1, hl.2⟩ rfl
    obtain ⟨h2, ht2⟩ := (h1.push name (hl.2.side (hself 1))).enter s.curLvl 1
    have hself2 := hl.2.trans ht2
    obtain ⟨h3, ht3, hr⟩ := hbody _ _ _ h2 hb
    have h3' : Oriented { b.2 with curLvl := s.curLvl } := h3.keep (.refl h3.polar) rfl
    obtain ⟨h4, ht4⟩ := h3'.link false ((hself2.trans ht3).side (hself 2)) hr
    have hkeep := (hself2.trans ht3).trans ht4
    obtain ⟨h5, ht5⟩ := fanOut_oriented h4 (scopeApp self.2.net s.curLvl 1).1 (hkeep.side (hself 1))
    exact ⟨h5.pop, (hta.trans hkeep).trans ht5, (hkeep.trans ht5).side (hself 0)⟩

lemma ctApp_steadily {f a : CT} (hf : Steadily f) (ha : Steadily a) : Steadily (ctApp f a) := by
  intro s r s' h hok
  obtain ⟨h1, ht1, hself⟩ := h.alloc .app s.curLvl
  unfold ctApp at hok
  dsimp only at hok
  generalize s.alloc .app s.curLvl = self at hok h1 ht1 hself
  cases hl : f (self.2.enter s.curLvl 1) with
  | error e =>
    rw [hl] at hok
    cases hok
  | ok l =>
    rw [hl] at hok
    simp only [bind, Except.bind] at hok
    cases hr : a ((l.2.link (some ⟨self.1, 0⟩) (some l.1) true).enter s.curLvl 2) with
    | error e =>
      rw [hr] at hok
      cases hok
    | ok x =>
      rw [hr] at hok
      obtain ⟨rfl, rfl⟩ := Prod.mk.inj (Except.ok.inj hok)
      obtain ⟨h2, ht2⟩ := h1.enter s.curLvl 1
      obtain ⟨h3, ht3, hl3⟩ := hf _ _ _ h2 hl
      obtain ⟨h4, ht4⟩ := h3.link true ((ht2.trans ht3).side (hself 0)) hl3
      obtain ⟨h5, ht5⟩ := h4.enter s.curLvl 2
      obtain ⟨h6, ht6, hr6⟩ := ha _ _ _ h5 hr
      have hkeep := (((ht2.trans ht3).trans ht4).trans ht5).trans ht6
      obtain ⟨h7, ht7⟩ := h6.link true (hkeep.side (hself 2)) hr6
      exact ⟨h7.keep (.refl h7.polar) rfl, (ht1.trans hkeep).trans ht7, (hkeep.trans ht7).side (hself 1)⟩

lemma ctFix_steadily (name : String) {v : CT} (hv : Steadily v) : Steadily (ctFix name v) := by
  have hvar : Steadily ctFixLam :=
    ctLam_steadily _ (ctApp_steadily (ctVar_steadily _) (ctApp_steadily (ctVar_steadily _) (ctVar_steadily _)))
  exact ctApp_steadily (ctLam_steadily _ (ctApp_steadily hvar hvar)) (ctLam_steadily name hv)

/-- Tying a let's uses to its value. -/
lemma tieLet_oriented (h : Oriented s) (save : ℕ) {ph : ℕ} {val body : Port} (hph : s.net.side ⟨ph, 1⟩ = some true)
    (hval : s.net.side val = some true) (hbody : s.net.side body = some true) :
    Oriented (tieLet s save ph val body).2 ∧ Tagged s.net (tieLet s save ph val body).2.net ∧
      (tieLet s save ph val body).2.net.side (tieLet s save ph val body).1 = some true := by
  unfold tieLet
  split
  · exact ⟨h, .refl _, hbody⟩
  · rename_i e rest hst
    have he : e ∈ s.cstack := by simp [hst]
    split_ifs
    · exact ⟨h, .refl _, hval⟩
    · split
      · exact ⟨h, .refl _, hbody⟩
      · rename_i use0 huse
        split_ifs
        · obtain ⟨c, hc, huc⟩ := h.polar.wire _ _ huse
          obtain rfl : c = true := Option.some.inj (hc.symm.trans hph)
          obtain ⟨hl, htl⟩ := h.link true huc hval
          exact ⟨hl, htl, htl.side hbody⟩
        · exact ⟨h, .refl _, hbody⟩
    · obtain ⟨hu, hcons⟩ := usePorts_polarised h he hph
      have hlvl := hu.polar.scopeApp save 2
      obtain ⟨hd, hroot⟩ := dupTree_polarised (Polarised.refl hlvl.1) (scopeApp (usePorts s.net e ⟨ph, 1⟩).2 save 2).1
        (hcons.mono hlvl.2)
      have hkeep := (hu.tagged.trans hlvl.2).trans hd.tagged
      have hl := hd.polar.link (e := true) fun p q hp (hq : some val = some q) =>
        ⟨false, hroot p hp, hkeep.side (Option.some.inj hq ▸ hval)⟩
      exact ⟨h.keep ⟨hl.1, hkeep.trans hl.2⟩ rfl, hkeep.trans hl.2, (hkeep.trans hl.2).side hbody⟩
    · exact ⟨h, .refl _, hbody⟩

lemma spend_oriented (h : Oriented s) {ph : ℕ} (hph : s.net.tag.get ph = .era) :
    Oriented (s.spend ph) ∧ Tagged s.net (s.spend ph).net :=
  have hs := h.polar.spend hph
  ⟨h.keep ⟨hs.1, hs.2⟩ rfl, hs.2⟩

/-- Tying the uses and spending the placeholder. -/
lemma closeLet_oriented (h : Oriented s) (l save : ℕ) {ph : ℕ} {val body : Port} (hph : s.net.side ⟨ph, 1⟩ = some true)
    (htag : s.net.tag.get ph = .era) (hval : s.net.side val = some true) (hbody : s.net.side body = some true) :
    let t := tieLet { s with curLvl := l } save ph val body
    Oriented (t.2.spend ph).popVar ∧ Tagged s.net (t.2.spend ph).popVar.net ∧ (t.2.spend ph).popVar.net.side t.1 = some true := by
  have h' : Oriented { s with curLvl := l } := h.keep (.refl h.polar) rfl
  obtain ⟨ht, htt, hr⟩ := tieLet_oriented h' save hph hval hbody
  obtain ⟨hs, hts⟩ := spend_oriented ht ((htt.tag ph (Net.side_lt hph)).trans htag)
  exact ⟨hs.pop, htt.trans hts, hts.side hr⟩

lemma ctLet_steadily (name : String) (v : Term) {value body : CT} (hv : Steadily value) (hb : Steadily body) :
    Steadily (ctLet name v value body) := by
  intro s r s' h hok
  have hval : Steadily (if letFix s name v = true then ctFix name value else value) := by
    split_ifs
    · exact ctFix_steadily name hv
    · exact hv
  unfold ctLet at hok
  dsimp only at hok
  generalize (if letFix s name v = true then ctFix name value else value) = compileVal at hok hval
  split_ifs at hok
  · cases hcv : compileVal (s.enter s.curLvl 2) with
    | error e =>
      rw [hcv] at hok
      cases hok
    | ok x =>
      rw [hcv] at hok
      simp only [bind, Except.bind] at hok
      obtain ⟨h1, ht1⟩ := h.enter s.curLvl 2
      obtain ⟨h2, ht2, hx⟩ := hval _ _ _ h1 hcv
      obtain ⟨h3, ht3, hph⟩ := h2.alloc .era 0
      have htag := h2.polar.alloc_tag .era 0
      change (x.2.alloc .era 0).2.net.tag.get (x.2.alloc .era 0).1 = .era at htag
      generalize x.2.alloc .era 0 = ph at hok h3 ht3 hph htag
      cases hcb : body ((pushVar ph.2 name ⟨ph.1, 1⟩).enter s.curLvl 1) with
      | error e =>
        rw [hcb] at hok
        cases hok
      | ok b =>
        rw [hcb] at hok
        obtain ⟨rfl, rfl⟩ := Prod.mk.inj (Except.ok.inj hok)
        obtain ⟨h4, ht4⟩ := (h3.push name (hph 1)).enter s.curLvl 1
        obtain ⟨h5, ht5, hb5⟩ := hb _ _ _ h4 hcb
        have hkeep := ht4.trans ht5
        obtain ⟨h6, ht6, hr⟩ := closeLet_oriented h5 s.curLvl s.curLvl (hkeep.side (hph 1))
          ((hkeep.tag ph.1 (Net.side_lt (hph 1))).trans htag) (hkeep.side (ht3.side hx)) hb5
        exact ⟨h6, ((ht1.trans ht2).trans ht3).trans (hkeep.trans ht6), hr⟩
  · obtain ⟨h1, ht1, hph⟩ := h.alloc .era 0
    have htag := h.polar.alloc_tag .era 0
    change (s.alloc .era 0).2.net.tag.get (s.alloc .era 0).1 = .era at htag
    generalize s.alloc .era 0 = ph at hok h1 ht1 hph htag
    cases hcv : value ((pushVar ph.2 name ⟨ph.1, 1⟩).enter s.curLvl 2) with
    | error e =>
      rw [hcv] at hok
      cases hok
    | ok x =>
      rw [hcv] at hok
      simp only [bind, Except.bind] at hok
      obtain ⟨h2, ht2⟩ := (h1.push name (hph 1)).enter s.curLvl 2
      obtain ⟨h3, ht3, hx⟩ := hv _ _ _ h2 hcv
      cases hcb : body (x.2.enter s.curLvl 1) with
      | error e =>
        rw [hcb] at hok
        cases hok
      | ok b =>
        rw [hcb] at hok
        obtain ⟨rfl, rfl⟩ := Prod.mk.inj (Except.ok.inj hok)
        obtain ⟨h4, ht4⟩ := h3.enter s.curLvl 1
        obtain ⟨h5, ht5, hb5⟩ := hb _ _ _ h4 hcb
        have hkeep := (ht2.trans ht3).trans (ht4.trans ht5)
        obtain ⟨h6, ht6, hr⟩ := closeLet_oriented h5 s.curLvl s.curLvl (hkeep.side (hph 1))
          ((hkeep.tag ph.1 (Net.side_lt (hph 1))).trans htag) ((ht4.trans ht5).side hx) hb5
        exact ⟨h6, ht1.trans (hkeep.trans ht6), hr⟩

theorem ct_steadily (t : Term) : Steadily (ct t) := by
  induction t with
  | var x => exact ctVar_steadily x
  | lam x b ih => exact ctLam_steadily x ih
  | app f a ihf iha => exact ctApp_steadily ihf iha
  | tlet x v b ihv ihb => exact ctLet_steadily x v ihv ihb
  | num k => exact ctNum_steadily k
  | defn _ b ih => exact ih
  | float _ => exact fun _ _ _ _ hok => by cases hok
  | ref _ => exact fun _ _ _ _ hok => by cases hok

end Cases

/-! ## A compiled net -/

lemma blank_polar : Polar .blank :=
  ⟨rfl, rfl, rfl, fun _ _ hw => (by cases hw), fun _ hv => Bool.noConfusion hv⟩

theorem compile_polar {t : Term} {n : Net} (h : compile t = .ok n) : Polar n := by
  obtain ⟨hp, -, hside⟩ := blank_polar.alloc .root 0
  have hinit : Oriented ⟨netInit, [], 0⟩ := ⟨hp, fun e he => absurd he List.not_mem_nil, fun e he => absurd he List.not_mem_nil⟩
  unfold compile at h
  cases hc : ct t ⟨netInit, [], 0⟩ with
  | error e =>
    rw [hc] at h
    cases h
  | ok r =>
    rw [hc] at h
    obtain rfl := Except.ok.inj h
    obtain ⟨hs, htag, hr⟩ := ct_steadily t _ _ _ hinit hc
    exact ((Polarised.refl hs.polar).link false (htag.side (hside 0)) hr).polar

/-- The placeholders that the compiler left. -/
lemma Polar.orderly {n : Net} (h : Polar n) (hs : Symmetric n) : Orderly n := by
  refine ⟨{v | v < n.nn ∧ n.dead.get v = true}, fun p q hp _ hw => ?_, fun p hp => absurd hp (Set.notMem_empty p),
    fun v hv => hv, fun v hv => absurd hv (Set.notMem_empty v), [], [], h.free ▸ .nil, h.pend ▸ .nil,
    fun v hv => absurd hv List.not_mem_nil, h.nfree, fun v hv => ?_, fun v q hv hd _ _ hq => ?_⟩
  · obtain ⟨b, hb, hqb⟩ := h.wire p q hw
    refine ⟨?_, Set.notMem_empty q, hs p q hp hw, ?_⟩
    · have hlt := Net.side_lt hqb
      cases hd : n.dead.get q.node with
      | false => exact .inl ((Net.live_iff _).2 ⟨hlt, hd⟩)
      | true => exact .inr ⟨⟨hlt, hd⟩, Net.side_era hqb (h.dead _ hd)⟩
    · rintro rfl
      rw [hb] at hqb
      cases b <;> cases hqb
  · rcases hv with hv | hv <;> cases hv
  · obtain ⟨b, hb, -⟩ := h.wire _ q hq
    have hport := Net.side_era hb (h.dead v hd)
    cases hport

end LinEngine
