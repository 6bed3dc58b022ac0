import LinEngine.Encoding
import LinEngine.Reduce

/-!
# Numeral literals

What the compiler builds for a literal, and what the number reader gets back from it. The
builder writes at most 62 bits, so a literal of more bits comes back as another number.
-/
namespace LinEngine

open Numeral (chainVal)

/-! ## Nets that have only been built -/

/-- A wired net with `size` nodes, all alive, that has neither queued nor freed anything. -/
structure Drawn (n : Net) (size : ℕ) (tag : ℕ → Tag) (wire : Port → Option Port) : Prop where
  nn : n.nn = size
  tags : ∀ v, n.tag.get v = tag v
  wires : ∀ p, n.wireAt p = wire p
  alive : ∀ v, n.dead.get v = false
  free : n.freeHead = none
  idle : n.atop = 0 ∧ n.pendHead = none
  sym : ∀ p q : Port, p.node < size → wire p = some q → q.node < size ∧ wire q = some p ∧ q ≠ p

namespace Drawn

variable {n : Net} {size : ℕ} {tag : ℕ → Tag} {wire : Port → Option Port}

lemma live_iff (h : Drawn n size tag wire) (v : ℕ) : n.live v = true ↔ v < size := by
  rw [Net.live_iff, h.nn, h.alive]
  simp

lemma scopeApp (h : Drawn n size tag wire) (s bit : ℕ) : Drawn (scopeApp n s bit).2 size tag wire := by
  unfold LinEngine.scopeApp lvIntern
  dsimp only
  split_ifs
  · exact h
  all_goals exact ⟨h.nn, h.tags, h.wires, h.alive, h.free, h.idle, h.sym⟩

lemma alloc (h : Drawn n size tag wire) (t : Tag) (sc : ℕ) :
    (netAlloc .serial n t sc).1 = size ∧
      Drawn (netAlloc .serial n t sc).2 (size + 1) (Function.update tag size t)
        (fun p => if p.node = size then none else wire p) := by
  have he : netAlloc .serial n t sc = (n.nn, initNode { n with nn := n.nn + 1 } n.nn t sc) := by
    simp [netAlloc, Globals.serial, h.free, initNode]
  rw [he, h.nn]
  refine ⟨rfl, rfl, fun v => ?_, fun p => ?_, fun v => ?_, h.free, h.idle, fun p q hp hq => ?_⟩
  · simp only [initNode, Net.tag_setWire, Table.get_set, h.tags, Function.update_apply, eq_comm]
  · rw [initNode_wireAt]
    simp only [← h.wires]
    rfl
  · simp only [initNode, Net.dead_setWire, Table.get_set, h.alive, ite_self]
  · split_ifs at hq with hps
    obtain ⟨hlt, hback, hne⟩ := h.sym p q (by omega) hq
    exact ⟨by omega, by rw [if_neg (by omega)]; exact hback, hne⟩

lemma link (h : Drawn n size tag wire) {a b : Port} (ha : a.node < size) (hb : b.node < size) (ha' : wire a = none)
    (hb' : wire b = none) (hne : a ≠ b) :
    Drawn (netLink .serial n (some a) (some b) false) size tag
      (Function.update (Function.update wire a (some b)) b (some a)) := by
  refine ⟨h.nn, h.tags, fun p => ?_, h.alive, h.free, h.idle, fun p q hp hq => ?_⟩
  · simp only [netLink, Bool.false_and, Bool.false_eq_true, if_false, Net.wireAt_setWire, h.wires, Function.update_apply,
      eq_comm]
  · simp only [Function.update_apply] at hq ⊢
    split_ifs at hq with hpb hpa
    · cases hq
      exact ⟨ha, by rw [if_neg hne, if_pos rfl, hpb], fun he => hne (he.trans hpb)⟩
    · cases hq
      exact ⟨hb, by rw [if_pos rfl, hpa], fun he => hpb he.symm⟩
    · obtain ⟨hlt, hback, hqp⟩ := h.sym p q hp hq
      refine ⟨hlt, ?_, hqp⟩
      have hqb : q ≠ b := by
        rintro rfl
        exact absurd (hback.symm.trans hb') (by simp)
      have hqa : q ≠ a := by
        rintro rfl
        exact absurd (hback.symm.trans ha') (by simp)
      rw [if_neg hqb, if_neg hqa, hback]

/-- The functions may be those of the net. -/
lemma own (h : Drawn n size tag wire) : Drawn n size n.tag.get n.wireAt := by
  obtain rfl : n.wireAt = wire := funext h.wires
  exact ⟨h.nn, fun _ => rfl, h.wires, h.alive, h.free, h.idle, h.sym⟩

end Drawn

/-! ## The parts of a numeral -/

/-- The boolean `v` at `b`. -/
structure IsBool (n : Net) (b : Port) (v : Bool) : Prop where
  port : b.port = 0
  live : n.live b.node = true ∧ n.live (b.node + 1) = true
  tags : n.tag.get b.node = .lam ∧ n.tag.get (b.node + 1) = .lam
  inner : n.wireAt ⟨b.node, 2⟩ = some ⟨b.node + 1, 0⟩
  body : n.wireAt ⟨b.node + 1, 2⟩ = some ⟨if v then b.node else b.node + 1, 1⟩

/-- The nil that ends a numeral. -/
structure IsNil (n : Net) (p : Port) : Prop where
  port : p.port = 0
  live : n.live p.node = true ∧ n.live (p.node + 1) = true
  tags : n.tag.get p.node = .lam ∧ n.tag.get (p.node + 1) = .lam
  inner : n.wireAt ⟨p.node, 2⟩ = some ⟨p.node + 1, 0⟩
  body : n.wireAt ⟨p.node + 1, 2⟩ = some ⟨p.node + 2, 0⟩
  bool : IsBool n ⟨p.node + 2, 0⟩ true

/-- A cell with the bit `v`, in front of `tail`. The six nodes are the two of the bit, the
two binders, the inner and the outer application. -/
structure IsCell (n : Net) (p tail : Port) (v : Bool) : Prop where
  port : p.port = 0
  pos : 2 ≤ p.node
  live : n.live p.node = true ∧ n.live (p.node + 1) = true ∧ n.live (p.node + 2) = true ∧ n.live (p.node + 3) = true
  tags : n.tag.get p.node = .lam ∧ n.tag.get (p.node + 1) = .lam ∧ n.tag.get (p.node + 2) = .app ∧
    n.tag.get (p.node + 3) = .app
  inner : n.wireAt ⟨p.node, 2⟩ = some ⟨p.node + 1, 0⟩
  body : n.wireAt ⟨p.node + 1, 2⟩ = some ⟨p.node + 3, 1⟩
  func : n.wireAt ⟨p.node + 3, 0⟩ = some ⟨p.node + 2, 1⟩
  rest : n.wireAt ⟨p.node + 3, 2⟩ = some tail
  head : n.wireAt ⟨p.node + 2, 2⟩ = some ⟨p.node - 2, 0⟩
  bool : IsBool n ⟨p.node - 2, 0⟩ v

lemma IsBool.mono {n m : Net} {b : Port} {v : Bool} (h : IsBool n b v) (hlive : ∀ u, n.live u = true → m.live u = true)
    (htag : ∀ u, n.live u = true → m.tag.get u = n.tag.get u)
    (hwire : ∀ q : Port, n.live q.node = true → q.port = 2 → m.wireAt q = n.wireAt q) : IsBool m b v where
  port := h.port
  live := ⟨hlive _ h.live.1, hlive _ h.live.2⟩
  tags := by rw [htag _ h.live.1, htag _ h.live.2]; exact h.tags
  inner := by rw [hwire ⟨b.node, 2⟩ h.live.1 rfl, h.inner]
  body := by rw [hwire ⟨b.node + 1, 2⟩ h.live.2 rfl, h.body]

/-- A chain of bits down to nil. -/
inductive Bits (n : Net) : Port → List Bool → Prop
  | nil {p : Port} : IsNil n p → Bits n p []
  | cell {p tail : Port} {v : Bool} {vs : List Bool} : IsCell n p tail v → Bits n tail vs → Bits n p (v :: vs)

section Grow

variable {n m : Net} {size : ℕ} {tag : ℕ → Tag} {wire : Port → Option Port}

/-- A chain does not depend on the principal wires of its binders. -/
lemma Bits.mono {p : Port} {vs : List Bool} (h : Bits n p vs) (hlive : ∀ u, n.live u = true → m.live u = true)
    (htag : ∀ u, n.live u = true → m.tag.get u = n.tag.get u)
    (hwire : ∀ q : Port, n.live q.node = true → q.port = 2 ∨ n.tag.get q.node = .app → m.wireAt q = n.wireAt q) :
    Bits m p vs := by
  have hbool : ∀ {b v}, IsBool n b v → IsBool m b v := fun hb => hb.mono hlive htag fun q hq h2 => hwire q hq (.inl h2)
  induction h with
  | @nil p h =>
    refine .nil ⟨h.port, ⟨hlive _ h.live.1, hlive _ h.live.2⟩, ?_, ?_, ?_, hbool h.bool⟩
    · rw [htag _ h.live.1, htag _ h.live.2]
      exact h.tags
    · rw [hwire ⟨p.node, 2⟩ h.live.1 (.inl rfl), h.inner]
    · rw [hwire ⟨p.node + 1, 2⟩ h.live.2 (.inl rfl), h.body]
  | @cell p tail v vs h _ ih =>
    obtain ⟨h0, h1, h2, h3⟩ := h.live
    refine .cell ⟨h.port, h.pos, ⟨hlive _ h0, hlive _ h1, hlive _ h2, hlive _ h3⟩, ?_, ?_, ?_, ?_, ?_, ?_, hbool h.bool⟩ ih
    · rw [htag _ h0, htag _ h1, htag _ h2, htag _ h3]
      exact h.tags
    · rw [hwire ⟨p.node, 2⟩ h0 (.inl rfl), h.inner]
    · rw [hwire ⟨p.node + 1, 2⟩ h1 (.inl rfl), h.body]
    · rw [hwire ⟨p.node + 3, 0⟩ h3 (.inr h.tags.2.2.2), h.func]
    · rw [hwire ⟨p.node + 3, 2⟩ h3 (.inl rfl), h.rest]
    · rw [hwire ⟨p.node + 2, 2⟩ h2 (.inl rfl), h.head]

lemma netAllocBool_adds (h : Drawn n size tag wire) (v : Bool) :
    (netAllocBool .serial n v).1 = ⟨size, 0⟩ ∧ IsBool (netAllocBool .serial n v).2 ⟨size, 0⟩ v ∧
      Drawn (netAllocBool .serial n v).2 (size + 2) (Function.update (Function.update tag size .lam) (size + 1) .lam)
        (netAllocBool .serial n v).2.wireAt ∧
      (netAllocBool .serial n v).2.wireAt ⟨size, 0⟩ = none ∧
      ∀ p : Port, p.node < size → (netAllocBool .serial n v).2.wireAt p = wire p := by
  obtain ⟨hbt, h1⟩ := h.alloc .lam 0
  obtain ⟨hbf, h2⟩ := h1.alloc .lam 0
  have h3 := h2.link (a := ⟨size, 2⟩) (b := ⟨size + 1, 0⟩) (by simp) (by simp) (by simp) (by simp) (by simp)
  have h4 := h3.link (a := ⟨size + 1, 2⟩) (b := ⟨if v then size else size + 1, 1⟩) (by simp)
    (by cases v <;> simp) (by simp) (by cases v <;> simp) (by cases v <;> simp)
  have he : netAllocBool .serial n v = (⟨size, 0⟩, netLink .serial (netLink .serial
      (netAlloc .serial (netAlloc .serial n .lam 0).2 .lam 0).2 (some ⟨size, 2⟩) (some ⟨size + 1, 0⟩) false)
      (some ⟨size + 1, 2⟩) (some ⟨if v then size else size + 1, 1⟩) false) := by
    simp only [netAllocBool, hbt, hbf]
  rw [he]
  refine ⟨rfl, ⟨rfl, ?_, ?_, ?_, ?_⟩, ?_, ?_, fun p hp => ?_⟩
  · rw [h4.live_iff, h4.live_iff]
    dsimp only
    omega
  · rw [h4.tags, h4.tags]
    simp
  · rw [h4.wires]
    cases v <;> simp
  · rw [h4.wires]
    cases v <;> simp
  · have hown := h4.own
    exact ⟨hown.nn, h4.tags, hown.wires, hown.alive, hown.free, hown.idle, hown.sym⟩
  · rw [h4.wires]
    cases v <;> simp
  · rw [h4.wires]
    obtain ⟨u, k⟩ := p
    have h0 : u ≠ size := by rintro rfl; exact absurd hp (lt_irrefl _)
    have h1 : u ≠ size + 1 := by rintro rfl; exact absurd hp (by simp)
    cases v <;> simp [h0, h1]

lemma scottCell_adds (h : Drawn n size tag wire) (lvl : ℕ) (bit : Bool) {cur : Port} (hcur : cur.node < size)
    (hport : cur.port = 0) (hfree : wire cur = none) :
    (scottCell .serial n lvl bit cur).1 = ⟨size + 2, 0⟩ ∧
      IsCell (scottCell .serial n lvl bit cur).2 ⟨size + 2, 0⟩ cur bit ∧
      Drawn (scottCell .serial n lvl bit cur).2 (size + 6) (scottCell .serial n lvl bit cur).2.tag.get
        (scottCell .serial n lvl bit cur).2.wireAt ∧
      (scottCell .serial n lvl bit cur).2.wireAt ⟨size + 2, 0⟩ = none ∧
      (∀ v < size, (scottCell .serial n lvl bit cur).2.tag.get v = tag v) ∧
      (∀ p : Port, p.node < size → p ≠ cur → (scottCell .serial n lvl bit cur).2.wireAt p = wire p) := by
  obtain ⟨x, k⟩ := cur
  obtain rfl : k = 0 := hport
  have hx : ∀ j, size + j ≠ x := fun j => by
    dsimp only at hcur
    omega
  have hx' : ∀ j, x ≠ size + j := fun j => (hx j).symm
  have hx0 := hx 0
  rw [Nat.add_zero] at hx0
  dsimp only at hcur
  obtain ⟨hb, hbool, h1, htop, hold⟩ := netAllocBool_adds ((h.scopeApp lvl 1).scopeApp lvl 2) bit
  set f := scopeApp n lvl 1
  set a := scopeApp f.2 lvl 2
  set b := netAllocBool .serial a.2 bit
  obtain ⟨hc, h2⟩ := h1.alloc .lam f.1
  set c := netAlloc .serial b.2 .lam f.1
  set s := scopeApp c.2 f.1 1
  obtain ⟨hnn, h3⟩ := (h2.scopeApp f.1 1).alloc .lam s.1
  set nn := netAlloc .serial s.2 .lam s.1
  obtain ⟨hi, h4⟩ := h3.alloc .app f.1
  set i := netAlloc .serial nn.2 .app f.1
  obtain ⟨hou, h5⟩ := h4.alloc .app a.1
  set ou := netAlloc .serial i.2 .app a.1
  have h6 := h5.link (a := ⟨size + 2, 2⟩) (b := ⟨size + 3, 0⟩) (by simp) (by simp) (by simp) (by simp) (by simp)
  have h7 := h6.link (a := ⟨size + 3, 2⟩) (b := ⟨size + 5, 1⟩) (by simp) (by simp) (by simp) (by simp) (by simp)
  have h8 := h7.link (a := ⟨size + 5, 0⟩) (b := ⟨size + 4, 1⟩) (by simp) (by simp) (by simp) (by simp) (by simp)
  have h9 := h8.link (a := ⟨size + 5, 2⟩) (b := ⟨x, 0⟩) (by simp) (by simp; omega) (by simp)
    (by simp [hx', Nat.add_assoc, hold ⟨x, 0⟩ hcur, hfree]) (by simp)
  have h10 := h9.link (a := ⟨size + 4, 0⟩) (b := ⟨size + 2, 1⟩) (by simp) (by simp)
    (by simp [hx]) (by simp) (by simp)
  have h11 := h10.link (a := ⟨size + 4, 2⟩) (b := ⟨size, 0⟩) (by simp) (by simp; omega) (by simp)
    (by simp [hx0, Nat.add_assoc, htop]) (by simp)
  have he : scottCell .serial n lvl bit ⟨x, 0⟩ = (⟨size + 2, 0⟩, netLink .serial (netLink .serial (netLink .serial
      (netLink .serial (netLink .serial (netLink .serial ou.2 (some ⟨size + 2, 2⟩) (some ⟨size + 3, 0⟩) false)
      (some ⟨size + 3, 2⟩) (some ⟨size + 5, 1⟩) false) (some ⟨size + 5, 0⟩) (some ⟨size + 4, 1⟩) false)
      (some ⟨size + 5, 2⟩) (some ⟨x, 0⟩) false) (some ⟨size + 4, 0⟩) (some ⟨size + 2, 1⟩) false)
      (some ⟨size + 4, 2⟩) (some ⟨size, 0⟩) false) := by
    simp only [scottCell, f, a, b, c, s, nn, i, ou] at *
    rw [hb, hc, hnn, hi, hou]
  rw [he]
  refine ⟨rfl, ⟨rfl, by simp, ?_, ?_, ?_, ?_, ?_, ?_, ?_, ?_⟩, h11.own, ?_, fun v hv => ?_, fun p hp hne => ?_⟩
  · rw [h11.live_iff, h11.live_iff, h11.live_iff, h11.live_iff]
    dsimp only
    omega
  · simp only [h11.tags]
    simp
  · rw [h11.wires]
    simp [hx, Nat.add_assoc]
  · rw [h11.wires]
    simp [hx, Nat.add_assoc]
  · rw [h11.wires]
    simp [hx, Nat.add_assoc]
  · rw [h11.wires]
    simp [hx, Nat.add_assoc]
  · rw [h11.wires]
    simp [Nat.add_assoc]
  · rw [Nat.add_sub_cancel]
    refine hbool.mono (fun u hu => ?_) (fun u hu => ?_) fun q hq hq2 => ?_
    · rw [h11.live_iff]
      have := (h1.live_iff u).1 hu
      omega
    · have hu' : ∀ j, u ≠ size + 2 + j := fun j => by
        have := (h1.live_iff u).1 hu
        omega
      rw [h11.tags, h1.tags]
      simp [Function.update_apply, hu' 0, hu' 1, hu' 2, hu' 3]
    · obtain ⟨u, k⟩ := q
      have hu' : ∀ j, u ≠ size + 2 + j := fun j => by
        have := (h1.live_iff u).1 hq
        omega
      obtain rfl : k = 2 := hq2
      rw [h11.wires]
      simp [hu' 0, hu' 1, hu' 2, hu' 3]
  · rw [h11.wires]
    simp [hx]
  · rw [h11.tags]
    have hv' : ∀ j, v ≠ size + j := fun j => by omega
    have hv0 := hv' 0
    rw [Nat.add_zero] at hv0
    simp [hv', hv0, Nat.add_assoc]
  · rw [h11.wires]
    obtain ⟨u, k⟩ := p
    have hu : ∀ j, u ≠ size + j := fun j => by
      dsimp only at hp
      omega
    have hu0 := hu 0
    rw [Nat.add_zero] at hu0
    have hcur' : u = x → k ≠ 0 := fun hux hk => hne (by rw [hux, hk])
    have hgoal : ∀ y, (if u = x ∧ k = 0 then y else wire ⟨u, k⟩) = wire ⟨u, k⟩ := fun y => if_neg fun hc => hcur' hc.1 hc.2
    simp [Function.update_apply, hu, hu0, Nat.add_assoc, hold ⟨u, k⟩ hp, hgoal]

/-- A wire is a step of the mark. -/
lemma Drawn.step (h : Drawn n size tag wire) {p q : Port} (hp : p.node < size) (hw : n.wireAt p = some q) :
    n.Wire p.node q.node := by
  rw [h.wires] at hw
  exact ⟨(h.live_iff _).2 (h.sym p q hp hw).1, p, q, rfl, by rw [h.wires, hw], rfl⟩

/-- A path stays among the old nodes, and remains where their wires do. -/
lemma Drawn.path (h : Drawn n size tag wire) (hwires : ∀ p q : Port, p.node < size → n.wireAt p = some q → m.wireAt p = some q)
    (hlive : ∀ v, n.live v = true → m.live v = true) {u v : ℕ} (hu : u < size)
    (hpath : Relation.ReflTransGen n.Wire u v) : v < size ∧ Relation.ReflTransGen m.Wire u v := by
  induction hpath with
  | refl => exact ⟨hu, .refl⟩
  | tail _ hstep ih =>
    obtain ⟨hlt, hpath⟩ := ih
    obtain ⟨hv, p, q, rfl, hw, rfl⟩ := hstep
    exact ⟨(h.live_iff _).1 hv, hpath.tail ⟨hlive _ hv, p, q, rfl, hwires p q hlt hw, rfl⟩⟩

/-- A chain that has been built at `s.1`, where everything built hangs on to. -/
structure Chained (s : Port × Net) (vs : List Bool) : Prop where
  drawn : ∃ size, Drawn s.2 size s.2.tag.get s.2.wireAt ∧ s.1.node < size ∧ vs.length < size ∧
    ∀ v, 0 < v → v < size → Relation.ReflTransGen s.2.Wire s.1.node v
  bits : Bits s.2 s.1 vs
  port : s.1.port = 0
  tag : s.2.tag.get s.1.node = .lam
  free : s.2.wireAt s.1 = none
  root : 0 < s.1.node ∧ s.2.wireAt ⟨0, 0⟩ = none ∧ s.2.tag.get 0 = .root

lemma Chained.cell {s : Port × Net} {vs : List Bool} (h : Chained s vs) (lvl : ℕ) (bit : Bool) :
    Chained (scottCell .serial s.2 lvl bit s.1) (bit :: vs) := by
  obtain ⟨size, hd, hlt, hlen, hreach⟩ := h.drawn
  obtain ⟨htop, hcell, hd', hnew, htags, hwires⟩ := scottCell_adds hd lvl bit hlt h.port h.free
  generalize scottCell .serial s.2 lvl bit s.1 = r at *
  have hnode : r.1.node = size + 2 := by rw [htop]
  have hkeep : ∀ p q : Port, p.node < size → s.2.wireAt p = some q → r.2.wireAt p = some q := by
    intro p q hp hw
    have hpcur : p ≠ s.1 := by
      rintro rfl
      exact absurd (hw.symm.trans h.free) (by simp)
    rw [hwires p hp hpcur, hw]
  have hlive : ∀ v, s.2.live v = true → r.2.live v = true := fun v hv => by
    have := (hd.live_iff v).1 hv
    exact (hd'.live_iff v).2 (by omega)
  -- the six new nodes, from the outer binder on
  have h3 : Relation.ReflTransGen r.2.Wire (size + 2) (size + 3) := .single (hd'.step (by simp) hcell.inner)
  have h5 : Relation.ReflTransGen r.2.Wire (size + 2) (size + 5) := h3.tail (hd'.step (by simp) hcell.body)
  have h4 : Relation.ReflTransGen r.2.Wire (size + 2) (size + 4) := h5.tail (hd'.step (by simp) hcell.func)
  have h0 : Relation.ReflTransGen r.2.Wire (size + 2) size := h4.tail (hd'.step (by simp) hcell.head)
  have h1 : Relation.ReflTransGen r.2.Wire (size + 2) (size + 1) := h0.tail (hd'.step (by simp) hcell.bool.inner)
  have hrest : Relation.ReflTransGen r.2.Wire (size + 2) s.1.node := h5.tail (hd'.step (by simp) hcell.rest)
  refine ⟨⟨size + 6, hd', by rw [hnode]; omega, by rw [List.length_cons]; omega, fun v hv hlt' => ?_⟩, ?_, by rw [htop], ?_, by rw [htop]; exact hnew, ?_⟩
  · rw [hnode]
    by_cases hold : v < size
    · exact hrest.trans (hd.path hkeep hlive hlt (hreach v hv hold)).2
    · obtain ⟨j, rfl⟩ := Nat.exists_eq_add_of_le (Nat.not_lt.1 hold)
      have hj : j < 6 := by omega
      interval_cases j
      exacts [h0, h1, .refl, h3, h4, h5]
  · rw [htop]
    refine .cell hcell (h.bits.mono hlive (fun u hu => ?_) fun q hq hport => ?_)
    · exact htags u ((hd.live_iff u).1 hu)
    · refine hwires q ((hd.live_iff _).1 hq) ?_
      rintro rfl
      rcases hport with hport | hport
      · rw [h.port] at hport
        cases hport
      · rw [h.tag] at hport
        cases hport
  · rw [hnode]
    exact hcell.tags.1
  · have h0 : 0 < size := (Nat.zero_le _).trans_lt hlt
    refine ⟨by rw [hnode]; omega, ?_, by rw [htags 0 h0]; exact h.root.2.2⟩
    rw [hwires ⟨0, 0⟩ h0 ?_]
    · exact h.root.2.1
    · intro he
      have := h.root.1
      rw [← he] at this
      exact lt_irrefl _ this

lemma netInit_drawn : Drawn netInit 1 (Function.update (fun _ => .era) 0 .root) fun p => if p.node = 0 then none else none := by
  have hblank : Drawn .blank 0 (fun _ => .era) fun _ => none :=
    ⟨rfl, fun v => by simp [Net.blank], fun p => by simp [Net.blank, Net.wireAt], fun v => by simp [Net.blank], rfl,
      ⟨rfl, rfl⟩, fun p q hp => by omega⟩
  exact (hblank.alloc .root 0).2

/-- The nil of a numeral. -/
lemma nil_chained (lvl : ℕ) :
    let bl := scopeApp netInit lvl 1
    let nl := netAlloc .serial bl.2 .lam lvl
    let n2 := netAlloc .serial nl.2 .lam bl.1
    let t := netAllocBool .serial (netLink .serial n2.2 (some ⟨nl.1, 2⟩) (some ⟨n2.1, 0⟩) false) true
    Chained (⟨nl.1, 0⟩, netLink .serial t.2 (some ⟨n2.1, 2⟩) (some t.1) false) [] := by
  intro bl nl n2 t
  obtain ⟨hnl, h1⟩ := (netInit_drawn.scopeApp lvl 1).alloc .lam lvl
  obtain ⟨hn2, h2⟩ := h1.alloc .lam bl.1
  change nl.1 = 1 at hnl
  change n2.1 = 1 + 1 at hn2
  have h3 := h2.link (a := ⟨1, 2⟩) (b := ⟨2, 0⟩) (by simp) (by simp) (by simp) (by simp) (by simp)
  obtain ⟨ht, hbool, h4, htop, hold⟩ := netAllocBool_adds h3 true
  have h5 := h4.link (a := ⟨2, 2⟩) (b := ⟨3, 0⟩) (by simp) (by simp) (by rw [hold ⟨2, 2⟩ (by simp)]; simp) htop (by simp)
  have he : (⟨nl.1, 0⟩, netLink .serial t.2 (some ⟨n2.1, 2⟩) (some t.1) false) = ((⟨1, 0⟩ : Port), netLink .serial
      (netAllocBool .serial (netLink .serial n2.2 (some ⟨1, 2⟩) (some ⟨2, 0⟩) false) true).2 (some ⟨2, 2⟩)
      (some ⟨3, 0⟩) false) := by
    simp only [t, hnl, hn2]
    rw [ht]
  rw [he]
  generalize netLink .serial (netAllocBool .serial (netLink .serial n2.2 (some ⟨1, 2⟩) (some ⟨2, 0⟩) false) true).2
    (some ⟨2, 2⟩) (some ⟨3, 0⟩) false = m at h5 ⊢
  generalize (netAllocBool .serial (netLink .serial n2.2 (some ⟨1, 2⟩) (some ⟨2, 0⟩) false) true).2 = k at hbool h4 htop hold h5
  have h12 : m.wireAt ⟨1, 2⟩ = some ⟨2, 0⟩ := by
    rw [h5.wires]
    simp [hold ⟨1, 2⟩ (by simp)]
  have h22 : m.wireAt ⟨2, 2⟩ = some ⟨3, 0⟩ := by
    rw [h5.wires]
    simp
  have hbool' : IsBool m ⟨3, 0⟩ true := by
    refine ⟨rfl, by simp [h5.live_iff], by simp [h5.tags], ?_, ?_⟩
    · rw [h5.wires]
      simp [hbool.inner]
    · rw [h5.wires]
      simp [hbool.body]
  have hw2 : m.Wire 1 2 := h5.step (by simp) h12
  have hw3 : m.Wire 2 3 := h5.step (by simp) h22
  have hw4 : m.Wire 3 4 := h5.step (by simp) hbool'.inner
  refine ⟨⟨5, h5.own, by simp, by simp, fun v hv hlt => ?_⟩, .nil ⟨rfl, ?_, ?_, h12, h22, hbool'⟩, rfl, ?_, ?_, ?_⟩
  · have h4 : Relation.ReflTransGen m.Wire 1 4 := ((Relation.ReflTransGen.single hw2).tail hw3).tail hw4
    interval_cases v
    exacts [.refl, .single hw2, (Relation.ReflTransGen.single hw2).tail hw3, h4]
  · simp [h5.live_iff]
  · simp [h5.tags]
  · simp [h5.tags]
  · rw [h5.wires]
    simp [hold ⟨1, 0⟩ (by simp)]
  · refine ⟨by simp, ?_, by simp [h5.tags]⟩
    rw [h5.wires]
    simp [hold ⟨0, 0⟩ (by simp)]

/-- The cells go in front of the chain that is there. -/
lemma scottCells_chained (lvl k w : ℕ) {s : Port × Net} {vs : List Bool} (h : Chained s vs) :
    Chained (scottCells .serial lvl k w s) ((List.range w).map k.testBit ++ vs) := by
  induction w generalizing s vs with
  | zero => exact h
  | succ w ih =>
    rw [List.range_succ, List.map_append, List.append_assoc]
    exact ih (h.cell lvl (k.testBit w))

lemma allocScott_chained (k lvl : ℕ) :
    Chained (allocScott .serial netInit k lvl) ((List.range (scottWidth k)).map k.testBit) := by
  have h := scottCells_chained lvl k (scottWidth k) (nil_chained lvl)
  rwa [List.append_nil] at h

end Grow

/-! ## The net of a literal -/

/-- A wired net with nothing queued or freed, all of it reached from ROOT, which is wired to
the bits `vs`. -/
structure Whole (n : Net) (p : Port) (vs : List Bool) : Prop where
  root : n.wireAt ⟨0, 0⟩ = some p
  bits : Bits n p vs
  wired : Wired n
  reach : ∀ v, n.live v = true → n.live 0 = true ∧ Relation.ReflTransGen n.Wire 0 v
  idle : n.atop = 0 ∧ n.pendHead = none
  length : vs.length < n.nn

lemma Chained.whole {s : Port × Net} {vs : List Bool} (h : Chained s vs) :
    Whole (netLink .serial s.2 (some ⟨0, 0⟩) (some s.1) false) s.1 vs := by
  obtain ⟨size, hd, hlt, hlen, hreach⟩ := h.drawn
  have h0 : 0 < size := (Nat.zero_le _).trans_lt hlt
  have hne : (⟨0, 0⟩ : Port) ≠ s.1 := fun he => by
    have := h.root.1
    rw [← he] at this
    exact lt_irrefl _ this
  have hd' := hd.link (a := ⟨0, 0⟩) (b := s.1) h0 hlt h.root.2.1 h.free hne
  generalize netLink .serial s.2 (some ⟨0, 0⟩) (some s.1) false = m at hd' ⊢
  have hroot : m.wireAt ⟨0, 0⟩ = some s.1 := by
    rw [hd'.wires]
    simp [hne]
  have hwire : ∀ q : Port, q ≠ ⟨0, 0⟩ → q ≠ s.1 → m.wireAt q = s.2.wireAt q := fun q h0 h1 => by
    rw [hd'.wires, Function.update_of_ne h1, Function.update_of_ne h0]
  have hlive : ∀ v, s.2.live v = true → m.live v = true := fun v hv => (hd'.live_iff v).2 ((hd.live_iff v).1 hv)
  refine ⟨hroot, h.bits.mono hlive (fun u hu => hd'.tags u) (fun q hq hport => hwire q ?_ ?_), fun p q hp hw => ?_,
    fun v hv => ⟨(hd'.live_iff 0).2 h0, ?_⟩, hd'.idle, hlen.trans_eq hd'.nn.symm⟩
  · rintro rfl
    rcases hport with hport | hport
    · cases hport
    · rw [h.root.2.2] at hport
      cases hport
  · rintro rfl
    rcases hport with hport | hport
    · rw [h.port] at hport
      cases hport
    · rw [h.tag] at hport
      cases hport
  · rw [hd'.wires] at hw
    obtain ⟨hlt', hback, hqp⟩ := hd'.sym p q ((hd'.live_iff _).1 hp) hw
    exact ⟨(hd'.live_iff _).2 hlt', by rw [hd'.wires, hback], hqp⟩
  · have hkeep : ∀ p q : Port, p.node < size → s.2.wireAt p = some q → m.wireAt p = some q := by
      intro p q _ hw
      have hp0 : p ≠ ⟨0, 0⟩ := by
        rintro rfl
        exact absurd (hw.symm.trans h.root.2.1) (by simp)
      have hp1 : p ≠ s.1 := by
        rintro rfl
        exact absurd (hw.symm.trans h.free) (by simp)
      rw [hwire p hp0 hp1, hw]
    rcases Nat.eq_zero_or_pos v with rfl | hpos
    · exact .refl
    · exact .head (hd'.step h0 hroot) (hd.path hkeep hlive hlt (hreach v hpos ((hd'.live_iff v).1 hv))).2

/-! ## Reading it -/

section Read

variable {n : Net} {p : Port} {vs : List Bool}

/-- A demand root is no part of the graph. -/
lemma linDemand_live (m : Net) (q : Port) : SameLive (linDemand m q) m ∧ (linDemand m q).atop = m.atop ∧
    (linDemand m q).pendHead = m.pendHead := by
  unfold linDemand
  split_ifs <;> exact ⟨⟨rfl, fun _ => rfl, fun _ _ => rfl, fun _ _ => rfl⟩, rfl, rfl⟩

/-- A collection frees nothing of it. -/
lemma Whole.collect (h : Whole n p vs) {m : Net} (hm : SameLive m n) : SameLive (netGc m) n := by
  by_cases hnn : m.nn ≤ 1
  · rw [netGc, if_pos hnn]
    exact hm
  have hc := netGc_collected (n := m) (by omega)
  have hreach : ∀ v, n.live v = true → Reachable m v := by
    intro v hv
    obtain ⟨h0, hpath⟩ := h.reach v hv
    refine ⟨0, by simp [anchors], by rw [hm.live, h0], ?_⟩
    have hall : n.live v = true ∧ Relation.ReflTransGen m.Wire 0 v := by
      clear hv
      induction hpath with
      | refl => exact ⟨h0, .refl⟩
      | tail _ hstep ih =>
        obtain ⟨hv, a, b, rfl, hw, rfl⟩ := hstep
        exact ⟨hv, ih.2.tail ⟨by rw [hm.live, hv], a, b, rfl, by rw [hm.wire a ih.1, hw], rfl⟩⟩
    exact hall.2
  obtain ⟨l, -, hl, hdead, -⟩ := hc.freed
  have hnil : ∀ v, v ∉ l := fun v hv => by
    obtain ⟨-, hlive, hnot⟩ := (hl v).1 hv
    exact hnot (hreach v (by rwa [← hm.live]))
  refine ⟨(netGc_frame m).1.trans hm.nn, fun v => ?_, fun v hv => ?_, fun q hq => ?_⟩
  · rw [hdead, decide_eq_false (hnil v), Bool.or_false, hm.dead]
  · rw [(hc.kept v (hreach v hv)).1, hm.tag v hv]
  · rw [(hc.kept q.node (hreach q.node hq)).2.2.2 q.port]
    exact hm.wire q hq

lemma Whole.force (h : Whole n p vs) (g : Globals) (gcenv : Option ℕ) (m : Net) (q : Port) (hm : SameLive m n)
    (hidle : m.atop = 0 ∧ m.pendHead = none) :
    SameLive (netForce g gcenv m q) n ∧ (netForce g gcenv m q).atop = 0 ∧ (netForce g gcenv m q).pendHead = none := by
  unfold netForce
  split_ifs
  · exact ⟨hm, hidle⟩
  · obtain ⟨hlive, hatop, hpend⟩ := linDemand_live m q
    have hdem := hlive.trans hm
    have hframe := netGc_frame (linDemand m q)
    rcases forceRun_idle g gcenv hidle.1 hidle.2 q with he | he
    · rw [he]
      exact ⟨⟨hdem.nn, hdem.dead, hdem.tag, hdem.wire⟩, hatop.trans hidle.1, hpend.trans hidle.2⟩
    · have hgc := h.collect hdem
      rw [he]
      exact ⟨⟨hgc.nn, hgc.dead, hgc.tag, hgc.wire⟩, hframe.2.2.2.2.2 (hatop.trans hidle.1),
        hframe.2.2.1.trans (hpend.trans hidle.2)⟩

lemma fanWalk_stay {cross : Bool} {q : Port} (h : n.tag.get q.node ≠ .dup) : fanWalk cross n (some q) = some q := by
  unfold fanWalk
  cases n.nn with
  | zero => cases cross <;> rfl
  | succ f => cases cross <;> simp [dupHop, skipDup, h]

lemma tagAt_stay {cross : Bool} {t : Tag} {q : Port} (hq : n.live q.node = true) (h : n.tag.get q.node ≠ .dup) :
    tagAt cross t n (some q) = if n.tag.get q.node = t then some q else none := by
  rw [tagAt_of_walk (fanWalk_stay h) hq]

lemma IsBool.boolAt {b : Port} {v : Bool} (h : IsBool n b v) : boolAt n (some b) = if v then 1 else 0 := by
  have hne : n.tag.get b.node ≠ .dup := by simp [h.tags.1]
  have hne' : n.tag.get (b.node + 1) ≠ .dup := by simp [h.tags.2]
  have hsel : ∀ second, selAt true second n (some b) =
      if v = !second then some ⟨b.node + 1, 0⟩ else none := by
    intro second
    simp only [selAt, bind, Option.bind_some, tagAt_stay h.live.1 hne, h.tags.1, if_true, h.inner,
      tagAt_stay (q := ⟨b.node + 1, 0⟩) h.live.2 hne', h.tags.2, h.body]
    rw [fanWalk_stay (by cases v <;> simp [h.tags.1, h.tags.2])]
    cases v <;> cases second <;> simp
  rw [LinEngine.boolAt, hsel, hsel]
  cases v <;> simp

lemma IsCell.consAt {tail : Port} {v : Bool} (h : IsCell n p tail v) :
    consAt n (some p) = some (some ⟨p.node - 2, 0⟩, some tail) := by
  obtain ⟨h0, h1, h2, h3⟩ := h.live
  obtain ⟨t0, t1, t2, t3⟩ := h.tags
  have hbody : bodyAt n (some p) = some (some ⟨p.node + 3, 1⟩) := by
    simp only [bodyAt, bind, Option.bind_some, tagAt_stay h0 (by simp [t0]), t0, if_true, h.inner,
      tagAt_stay (q := ⟨p.node + 1, 0⟩) h1 (by simp [t1]), t1]
    exact congrArg some h.body
  simp only [LinEngine.consAt, hbody, bind, Option.bind_some, tagAt_stay (q := ⟨p.node + 3, 1⟩) h3 (by simp [t3]), t3,
    if_true, h.func, tagAt_stay (q := ⟨p.node + 2, 1⟩) h2 (by simp [t2]), t2, h.head, h.rest]

lemma IsNil.layerAt (h : IsNil n p) : layerAt n (some p) = some .terminal := by
  have hbody : bodyAt n (some p) = some (some ⟨p.node + 2, 0⟩) := by
    simp only [bodyAt, bind, Option.bind_some, tagAt_stay h.live.1 (by simp [h.tags.1]), h.tags.1, if_true, h.inner,
      tagAt_stay (q := ⟨p.node + 1, 0⟩) h.live.2 (by simp [h.tags.2]), h.tags.2]
    exact congrArg some h.body
  have hlive := h.bool.live.1
  have htag := h.bool.tags.1
  have hcell : LinEngine.consAt n (some p) = none := by
    simp [LinEngine.consAt, hbody, tagAt_stay (q := ⟨p.node + 2, 0⟩) hlive (by simp [htag]), htag]
  have hnil : nilAt n (some p) = true := by
    simp [nilAt, hbody, tagAt_stay (q := ⟨p.node + 2, 0⟩) hlive (by simp [htag]), htag]
  rw [LinEngine.layerAt, hcell, hnil]
  rfl

/-- The number reader gets the bits back, above the `k` bits that it has. -/
lemma Bits.read {force : Net → Port → Net} {fuel : ℕ} {I : Net → Prop} (hw : Wired n)
    (hforce : ∀ m q, SameLive m n → I m → SameLive (force m q) n ∧ I (force m q)) (hfuel : 0 < fuel) (h : Bits n p vs)
    (f k a : ℕ) (hf : vs.length < f) (hk : k + vs.length ≤ 62) (hnn : k + vs.length < n.nn) (ha : a < 2 ^ k) {m : Net}
    (hm : SameLive m n) (hI : I m) :
    ∃ m', bitsLoop force fuel f k a (some p) m =
      some (if k = 0 ∧ vs = [] then -1 else ((a + 2 ^ k * chainVal vs : ℕ) : ℤ), m') := by
  induction h generalizing f k a m with
  | @nil p h =>
    obtain ⟨f, rfl⟩ := Nat.exists_eq_succ_of_ne_zero (Nat.ne_zero_of_lt hf)
    have hp : LivePort n (some p) := by
      rintro _ ⟨⟩
      exact h.live.1
    obtain ⟨m', hlayer, -⟩ := returns_consLayer hw hforce hfuel hp m hm hI
    rw [h.layerAt] at hlayer
    refine ⟨m', ?_⟩
    rw [bitsLoop_nil (by rw [hm.nn]; simpa using hnn) hlayer]
    simp [chainVal]
  | @cell p tail v vs h _ ih =>
    obtain ⟨f, rfl⟩ := Nat.exists_eq_succ_of_ne_zero (Nat.ne_zero_of_lt hf)
    rw [List.length_cons] at hf hk hnn
    have hp : LivePort n (some p) := by
      rintro _ ⟨⟩
      exact h.live.1
    have hb : LivePort n (some ⟨p.node - 2, 0⟩) := by
      rintro _ ⟨⟩
      exact h.bool.live.1
    obtain ⟨m₁, hlayer, hm₁, hI₁⟩ := returns_consLayer hw hforce hfuel hp m hm hI
    obtain ⟨m₂, hread, hm₂, hI₂⟩ := returns_netReadBool hw hforce hfuel hb m₁ hm₁ hI₁
    rw [layerAt, h.consAt] at hlayer
    rw [h.bool.boolAt] at hread
    have hor : orBit a (if v = true then 1 else 0) k m₂ = some (a + 2 ^ k * v.toNat, m₂) := by
      unfold orBit
      rw [if_neg (by omega), Read.pure_eq]
      cases v with
      | false => simp
      | true =>
        have hsum := Nat.shiftLeft_add_eq_or_of_lt ha 1
        rw [Nat.shiftLeft_eq, Nat.one_mul] at hsum
        have hshift : ((1 : ℤ) % 2).toNat <<< k = 2 ^ k := by
          rw [Nat.shiftLeft_eq]
          exact Nat.one_mul _
        rw [if_pos rfl, hshift, Nat.or_comm, ← hsum, Bool.toNat_true, Nat.mul_one, Nat.add_comm]
    have hlt : a + 2 ^ k * v.toNat < 2 ^ (k + 1) := by
      have := Nat.mul_le_mul_left (2 ^ k) (Bool.toNat_le v)
      rw [Nat.pow_succ]
      omega
    obtain ⟨m', hrun⟩ := ih f (k + 1) (a + 2 ^ k * v.toNat) (by omega) (by omega) (by omega) hlt hm₂ hI₂
    refine ⟨m', ?_⟩
    rw [bitsLoop_cell (by rw [hm.nn]; omega) hlayer hread (by cases v <;> simp), Read.bind_eq, hor, Option.bind_some, hrun]
    simp only [Nat.succ_ne_zero, false_and, if_false, List.cons_ne_nil, and_false, chainVal, Nat.pow_succ]
    congr 3
    ring

end Read

/-! ## Literals -/

lemma scottWidthLoop_le (k f : ℕ) {w : ℕ} (hw : w ≤ 62) : w ≤ scottWidthLoop k f w ∧ scottWidthLoop k f w ≤ 62 := by
  induction f generalizing w with
  | zero => exact ⟨le_rfl, hw⟩
  | succ f ih =>
    unfold scottWidthLoop
    split_ifs with h
    · have := ih (w := w + 1) (by omega)
      omega
    · exact ⟨le_rfl, hw⟩

lemma lt_scottWidthLoop {k f w : ℕ} (hk : k < 2 ^ 62) (hw : w ≤ 62) (hf : 62 ≤ w + f) : k < 2 ^ scottWidthLoop k f w := by
  induction f generalizing w with
  | zero =>
    obtain rfl : w = 62 := by omega
    exact hk
  | succ f ih =>
    unfold scottWidthLoop
    split_ifs with h
    · exact ih (by omega) (by omega)
    · by_cases hw62 : w < 62
      · have hzero : k / 2 ^ w = 0 := by
          by_contra hne
          exact h ⟨hne, hw62⟩
        exact (Nat.div_eq_zero_iff.1 hzero).resolve_left (by positivity)
      · obtain rfl : w = 62 := by omega
        exact hk

/-- The number that a string of decimal digits denotes. -/
def decimal (d : List (Fin 10)) : ℕ := d.foldl (fun a c => 10 * a + c) 0

/-- What `net_read_int` gets back from the net of a literal, whatever is forced on the way. -/
def ReadsAs (g : Globals) (gcenv : Option ℕ) (d : List (Fin 10)) (v : ℤ) : Prop :=
  ∃ n, compile (.num (decimal d)) = .ok n ∧ ∀ fuel, n.nn < fuel →
    ∃ m, netReadInt (netForce g gcenv) fuel .num (n.wireAt ⟨0, 0⟩) n = some (v, m)

/-- Of the number that `atol` returns the builder keeps the bits it has room for. -/
lemma literal_read (g : Globals) (gcenv : Option ℕ) (d : List (Fin 10)) :
    ReadsAs g gcenv d ((min (decimal d) longMax % 2 ^ scottWidth (min (decimal d) longMax) : ℕ) : ℤ) := by
  set k := min (decimal d) longMax with hk
  have hwhole := (allocScott_chained k 0).whole
  have hcompile : compile (.num (decimal d)) = .ok (netLink .serial (allocScott .serial netInit k 0).2 (some ⟨0, 0⟩)
      (some (allocScott .serial netInit k 0).1) false) := rfl
  refine ⟨_, hcompile, fun fuel hfuel => ?_⟩
  generalize netLink .serial (allocScott .serial netInit k 0).2 (some ⟨0, 0⟩) (some (allocScott .serial netInit k 0).1)
    false = n at hwhole hfuel ⊢
  have hwidth := scottWidthLoop_le k 62 (w := 1) (by omega)
  obtain ⟨m, hrun⟩ := hwhole.bits.read hwhole.wired (hwhole.force g gcenv) (Nat.zero_lt_of_lt hfuel) fuel 0 0
    (hwhole.length.trans hfuel) (by simpa [scottWidth] using hwidth.2) (by simpa using hwhole.length) (by simp) (.refl _) hwhole.idle
  refine ⟨m, ?_⟩
  have hne : (List.range (scottWidth k)).map k.testBit ≠ [] := by
    rw [← List.length_pos_iff_ne_nil, List.length_map, List.length_range]
    exact hwidth.1
  rw [if_neg (by simp only [hne, and_false, not_false_iff]), Nat.pow_zero, Nat.one_mul, Nat.zero_add,
    Numeral.chainVal_bits] at hrun
  rw [hwhole.root]
  exact hrun

/-- The value is a function of the text. -/
lemma ReadsAs.unique {g : Globals} {gcenv : Option ℕ} {d : List (Fin 10)} {v w : ℤ} (h : ReadsAs g gcenv d v)
    (h' : ReadsAs g gcenv d w) : v = w := by
  obtain ⟨n, hn, hrun⟩ := h
  obtain ⟨n', hn', hrun'⟩ := h'
  cases hn.symm.trans hn'
  obtain ⟨m, hm⟩ := hrun (n.nn + 1) (Nat.lt_succ_self _)
  obtain ⟨m', hm'⟩ := hrun' (n.nn + 1) (Nat.lt_succ_self _)
  cases hm.symm.trans hm'
  rfl

/-- A literal is read back as what it denotes exactly if it has at most 62 bits. -/
theorem literal_roundtrip_iff (g : Globals) (gcenv : Option ℕ) (d : List (Fin 10)) :
    ReadsAs g gcenv d (decimal d) ↔ decimal d < 2 ^ 62 := by
  have hread := literal_read g gcenv d
  have hwidth := (scottWidthLoop_le (min (decimal d) longMax) 62 (w := 1) (by omega)).2
  constructor
  · intro h
    have hv := hread.unique h
    have hlt : min (decimal d) longMax % 2 ^ scottWidth (min (decimal d) longMax) < 2 ^ 62 :=
      (Nat.mod_lt _ (by positivity)).trans_le (Nat.pow_le_pow_right (by omega) hwidth)
    omega
  · intro h
    have hmin : min (decimal d) longMax = decimal d := min_eq_left (by rw [longMax]; omega)
    have hfit : decimal d < 2 ^ scottWidth (decimal d) := lt_scottWidthLoop h (by omega) (by omega)
    rwa [hmin, Nat.mod_eq_of_lt hfit] at hread

/-- The digits of 2 ^ 62 read as 0. -/
theorem literal_truncated : ¬∀ (g : Globals) (gcenv : Option ℕ) (d : List (Fin 10)), d ≠ [] → ReadsAs g gcenv d (decimal d) := by
  intro h
  have hread := (literal_read .serial none [4, 6, 1, 1, 6, 8, 6, 0, 1, 8, 4, 2, 7, 3, 8, 7, 9, 0, 4]).unique
    (h .serial none _ (by decide))
  revert hread
  decide +kernel

end LinEngine
