import LinEngine.Net
import LinEngine.Splice

/-!
# What the rules do to the graph

The abstract layer: a net as a set of live agents with a wiring, and the two kinds
of rule as relations between such graphs. An annihilation removes a pair and glues
its ports together; a commutation replaces it by two copies of each agent. Queue,
free list and node numbers do not occur, and a fresh agent is any agent that was
not live.
-/
namespace LinEngine

open Splice

structure Graph where
  live : ℕ → Prop
  tag : ℕ → Tag
  gauge : ℕ → ℕ
  path : ℕ → List ℕ
  wire : Port → Option Port

namespace Graph

/-- Every wire of a live node joins two different ports of live nodes, both ways. -/
def Wired (G : Graph) : Prop :=
  ∀ p q : Port, G.live p.node → G.wire p = some q → G.live q.node ∧ G.wire q = some p ∧ q ≠ p

/-- Two live agents wired principal to principal. -/
structure Facing (G : Graph) (a b : ℕ) : Prop where
  ne : a ≠ b
  liveL : G.live a
  liveR : G.live b
  wireL : G.wire ⟨a, 0⟩ = some ⟨b, 0⟩
  wireR : G.wire ⟨b, 0⟩ = some ⟨a, 0⟩

end Graph

/-- The ports of the pair `a`, `b` glued by port number, as `s` says. -/
def crossing (a b : ℕ) (s : Fin 3 → Fin 3) (p : Port) : Option Port :=
  if p.node = a then some ⟨b, s p.port⟩
  else if p.node = b then some ⟨a, s p.port⟩
  else none

/-- Two fans on one gauge: port by port. -/
def straight (k : Fin 3) : Fin 3 := k

/-- A function applied: its binder port takes the operand, its body the result. -/
def swapped (k : Fin 3) : Fin 3 :=
  match k with
  | 0 => 0
  | 1 => 2
  | 2 => 1

lemma crossing_eq_none {a b : ℕ} {s : Fin 3 → Fin 3} {p : Port} :
    crossing a b s p = none ↔ p.node ≠ a ∧ p.node ≠ b := by
  simp only [crossing]
  split_ifs <;> simp_all

/-- The pair `a`, `b` is removed and its ports are glued as `s` says. -/
structure Annihilates (s : Fin 3 → Fin 3) (a b : ℕ) (G G' : Graph) : Prop where
  exits : ∀ p : Port, G.live p.node → p.node ≠ a → p.node ≠ b →
    ∃ z, Exits G.wire (crossing a b s) (G.wire p) z
  live : ∀ v, G'.live v ↔ G.live v ∧ v ≠ a ∧ v ≠ b ∧ ((∀ k, G.wire ⟨v, k⟩ = none) ∨
    ∃ k x, Exits G.wire (crossing a b s) (G.wire ⟨v, k⟩) (some x))
  wire : ∀ p : Port, G'.live p.node → Exits G.wire (crossing a b s) (G.wire p) (G'.wire p)
  irrefl : ∀ p : Port, G'.live p.node → G'.wire p ≠ some p
  tag : ∀ v, G'.live v → G'.tag v = G.tag v
  gauge : ∀ v, G'.live v → G'.gauge v = G.gauge v
  path : ∀ v, G'.live v → G'.path v = G.path v

namespace Copies

/-- The copies of the first agent of the pair, one for each side of the second. -/
def main (c : Copies) (i : Fin 2) : ℕ :=
  match i with
  | 0 => c.m1
  | 1 => c.m2

/-- The copies of the second agent of the pair, one for each auxiliary of the first. -/
def fan (c : Copies) (i : Fin 2) : ℕ :=
  match i with
  | 0 => c.d1
  | 1 => c.d2

def has (c : Copies) (v : ℕ) : Prop := v = c.m1 ∨ v = c.m2 ∨ v = c.d1 ∨ v = c.d2

instance (c : Copies) (v : ℕ) : Decidable (c.has v) := inferInstanceAs (Decidable (_ ∨ _))

/-- Where the auxiliaries of the pair go; every other port keeps its name. -/
def rename (c : Copies) (a b : ℕ) (p : Port) : Port :=
  if p = ⟨a, 1⟩ then ⟨c.d1, 0⟩
  else if p = ⟨a, 2⟩ then ⟨c.d2, 0⟩
  else if p = ⟨b, 1⟩ then ⟨c.m1, 0⟩
  else if p = ⟨b, 2⟩ then ⟨c.m2, 0⟩
  else p

end Copies

/-- Auxiliary port `1` or `2`. -/
def auxPort (i : Fin 2) : Fin 3 := i.succ

/-- The pair is replaced by two copies of each agent: those of `b` take the places of
the auxiliaries of `a`, those of `a` the places of the auxiliaries of `b`. -/
structure Commutes (c : Copies) (a b : ℕ) (G G' : Graph) : Prop where
  nodup : [c.m1, c.m2, c.d1, c.d2].Nodup
  fresh : ∀ v, c.has v → ¬ G.live v
  live : ∀ v, G'.live v ↔ (G.live v ∧ v ≠ a ∧ v ≠ b) ∨ c.has v
  outer : ∀ p : Port, G.live p.node → p ≠ ⟨a, 0⟩ → p ≠ ⟨b, 0⟩ →
    G'.wire (c.rename a b p) = (G.wire p).map (c.rename a b)
  innerMain : ∀ i j, G'.wire ⟨c.main i, auxPort j⟩ = some ⟨c.fan j, auxPort i⟩
  innerFan : ∀ i j, G'.wire ⟨c.fan j, auxPort i⟩ = some ⟨c.main i, auxPort j⟩
  tag : ∀ v, G.live v → v ≠ a → v ≠ b → G'.tag v = G.tag v
  gauge : ∀ v, G.live v → v ≠ a → v ≠ b → G'.gauge v = G.gauge v
  path : ∀ v, G.live v → v ≠ a → v ≠ b → G'.path v = G.path v
  tagMain : ∀ i, G'.tag (c.main i) = G.tag a
  tagFan : ∀ i, G'.tag (c.fan i) = G.tag b
  gaugeFan : ∀ i, G'.gauge (c.fan i) = G.gauge b
  pathFan : ∀ i, G'.path (c.fan i) = G.path b

/-- The label of copy `i` of the first agent: a value is marked by the side it went to,
a fan keeps its gauge. -/
def copyPath (t : Tag) (i : Fin 2) (pa pb : List ℕ) : List ℕ :=
  if t = .dup then pa else ((i : ℕ) + 1) :: (pa ++ pb)

/-- One firing of the pair `a`, `b`, given in tag order. -/
inductive Fires (a b : ℕ) (G G' : Graph) : Prop
  | beta : G.tag a = .lam → G.tag b = .app → Annihilates swapped a b G G' → Fires a b G G'
  | annihilate : G.tag a = .dup → G.tag b = .dup → G.gauge a = G.gauge b →
      Annihilates straight a b G G' → Fires a b G G'
  | commute (c : Copies) : (G.tag a = .lam ∨ G.tag a = .app ∨
        G.tag a = .dup ∧ G.gauge a ≠ G.gauge b) → G.tag b = .dup → Commutes c a b G G' →
      (∀ i, G'.path (c.main i) = copyPath (G.tag a) i (G.path a) (G.path b)) →
      (G.tag a = .dup → ∀ i, G'.gauge (c.main i) = G.gauge a) → Fires a b G G'

/-! ## Where the auxiliaries of a pair go -/

/-- Auxiliary `k` of the pair. -/
def auxOf (a b : ℕ) (k : Fin 4) : Port :=
  match k with
  | 0 => ⟨a, 1⟩
  | 1 => ⟨a, 2⟩
  | 2 => ⟨b, 1⟩
  | 3 => ⟨b, 2⟩

section Rename

variable {a b : ℕ} {c : Copies}

lemma rename_auxOf (hab : a ≠ b) (k : Fin 4) : c.rename a b (auxOf a b k) = ⟨c.at k, 0⟩ := by
  fin_cases k <;> simp [Copies.rename, auxOf, Copies.at, Ne.symm hab]

lemma has_at (c : Copies) (k : Fin 4) : c.has (c.at k) := by
  fin_cases k <;> simp [Copies.has, Copies.at]

lemma has_main (c : Copies) (i : Fin 2) : c.has (c.main i) := by
  fin_cases i <;> simp [Copies.has, Copies.main]

lemma has_fan (c : Copies) (i : Fin 2) : c.has (c.fan i) := by
  fin_cases i <;> simp [Copies.has, Copies.fan]

lemma rename_other {p : Port} (ha : p.node ≠ a) (hb : p.node ≠ b) : c.rename a b p = p := by
  obtain ⟨v, k⟩ := p
  simp only at ha hb
  simp [Copies.rename, ha, hb]

/-- A port of the pair is principal or one of the four auxiliaries. -/
lemma exists_auxOf {p : Port} (h : p.node = a ∨ p.node = b) (ha : p ≠ ⟨a, 0⟩)
    (hb : p ≠ ⟨b, 0⟩) : ∃ k, p = auxOf a b k := by
  obtain ⟨v, k⟩ := p
  rcases h with rfl | rfl
  · fin_cases k
    exacts [absurd rfl ha, ⟨0, rfl⟩, ⟨1, rfl⟩]
  · fin_cases k
    exacts [absurd rfl hb, ⟨2, rfl⟩, ⟨3, rfl⟩]

lemma auxOf_node (a b : ℕ) (k : Fin 4) : (auxOf a b k).node = a ∨ (auxOf a b k).node = b := by
  fin_cases k <;> simp [auxOf]

lemma auxOf_port (a b : ℕ) (k : Fin 4) : (auxOf a b k).port ≠ 0 := by
  fin_cases k <;> simp [auxOf]

lemma at_inj (hc : [c.m1, c.m2, c.d1, c.d2].Nodup) {k l : Fin 4} (h : c.at k = c.at l) : k = l := by
  obtain ⟨m1, m2, d1, d2⟩ := c
  simp only [List.nodup_cons, List.mem_cons, List.not_mem_nil, or_false, not_or, not_false_eq_true,
    List.nodup_nil, and_true] at hc
  obtain ⟨⟨h12, h1d, h1e⟩, ⟨h2d, h2e⟩, hde⟩ := hc
  fin_cases k <;> fin_cases l <;> simp_all [Copies.at, eq_comm]

lemma exists_at {v : ℕ} (h : c.has v) : ∃ k, v = c.at k := by
  rcases h with rfl | rfl | rfl | rfl
  exacts [⟨2, rfl⟩, ⟨3, rfl⟩, ⟨0, rfl⟩, ⟨1, rfl⟩]

/-- A port of a copy is principal or one of the inner ports. -/
lemma copy_port {p : Port} (h : c.has p.node) :
    (∃ k, p = ⟨c.at k, 0⟩) ∨ (∃ i j, p = ⟨c.main i, auxPort j⟩) ∨
      ∃ i j, p = ⟨c.fan j, auxPort i⟩ := by
  obtain ⟨v, k⟩ := p
  obtain ⟨l, hl⟩ := exists_at h
  simp only at hl
  subst hl
  by_cases hk : k = 0
  · exact Or.inl ⟨l, by rw [hk]⟩
  · obtain ⟨i, rfl⟩ : ∃ i, k = auxPort i := by
      fin_cases k
      exacts [absurd rfl hk, ⟨0, rfl⟩, ⟨1, rfl⟩]
    match l with
    | 0 => exact Or.inr (Or.inr ⟨i, 0, rfl⟩)
    | 1 => exact Or.inr (Or.inr ⟨i, 1, rfl⟩)
    | 2 => exact Or.inr (Or.inl ⟨0, i, rfl⟩)
    | 3 => exact Or.inr (Or.inl ⟨1, i, rfl⟩)

end Rename

/-! ## Both rules keep the wiring mutual -/

section Wired

variable {G G' : Graph} {a b : ℕ} {s : Fin 3 → Fin 3} {c : Copies}

lemma crossing_mutual (hab : a ≠ b) (hs : ∀ k, s (s k) = k) {p q : Port}
    (h : crossing a b s p = some q) : crossing a b s q = some p := by
  obtain ⟨v, k⟩ := p
  simp only [crossing] at h ⊢
  split_ifs at h with h1 h2
  · obtain rfl := Option.some.inj h
    subst h1
    simp [Ne.symm hab, hs]
  · obtain rfl := Option.some.inj h
    subst h2
    simp [hs]

lemma crossing_node {p q : Port} (h : crossing a b s p = some q) : q.node = a ∨ q.node = b := by
  simp only [crossing] at h
  split_ifs at h with h1 h2
  · exact Or.inr (Option.some.inj h ▸ rfl)
  · exact Or.inl (Option.some.inj h ▸ rfl)

theorem Annihilates.wired (h : Annihilates s a b G G') (hs : ∀ k, s (s k) = k)
    (hf : G.Facing a b) (hG : G.Wired) : G'.Wired := by
  intro p q hl hw
  obtain ⟨hlp, hpa, hpb, -⟩ := (h.live _).mp hl
  have hex := h.wire p hl
  rw [hw] at hex
  cases hp : G.wire p with
  | none =>
    rw [hp] at hex
    cases hex
  | some x =>
    obtain ⟨hlx, hback, -⟩ := hG p x hlp hp
    have hpc : crossing a b s p = none := crossing_eq_none.mpr ⟨hpa, hpb⟩
    rw [hp] at hex
    obtain ⟨hq, hlq⟩ := hex.back (fun p => G.live p.node)
      (fun p q hp hpq => ⟨(hG p q hp hpq).2.1, (hG p q hp hpq).1⟩)
      (fun p q _ hpq => ⟨crossing_mutual hf.ne hs hpq, by
        rcases crossing_node hpq with h | h
        · rw [h]; exact hf.liveL
        · rw [h]; exact hf.liveR⟩)
      rfl rfl hlx (r := some p) (by rw [hback]; exact .out hpc)
    have hqc := crossing_eq_none.mp (hex.end_free rfl)
    have hlq' : G'.live q.node := (h.live _).mpr ⟨hlq, hqc.1, hqc.2, Or.inr ⟨q.port, p, hq⟩⟩
    refine ⟨hlq', (h.wire q hlq').unique hq, ?_⟩
    rintro rfl
    exact h.irrefl q hl hw

namespace Commutes

/-- A port of the old graph that keeps a place in the new one. -/
def Keeps (G : Graph) (a b : ℕ) (p : Port) : Prop := G.live p.node ∧ p ≠ ⟨a, 0⟩ ∧ p ≠ ⟨b, 0⟩

/-- Such a port is an auxiliary of the pair or outside it. -/
lemma Keeps.cases {p : Port} (hp : Keeps G a b p) :
    (∃ k, p = auxOf a b k) ∨ p.node ≠ a ∧ p.node ≠ b := by
  by_cases hin : p.node = a ∨ p.node = b
  · exact Or.inl (exists_auxOf hin hp.2.1 hp.2.2)
  · exact Or.inr (not_or.mp hin)

/-- The far end of the wire of a port that keeps a place keeps one too. -/
lemma Keeps.wire (hf : G.Facing a b) (hG : G.Wired) {p q : Port} (hp : Keeps G a b p) (hw : G.wire p = some q) :
    Keeps G a b q ∧ G.wire q = some p ∧ q ≠ p := by
  obtain ⟨hl, hback, hne⟩ := hG p q hp.1 hw
  refine ⟨⟨hl, ?_, ?_⟩, hback, hne⟩
  · rintro rfl
    exact hp.2.2 (Option.some.inj (hback.symm.trans hf.wireL))
  · rintro rfl
    exact hp.2.1 (Option.some.inj (hback.symm.trans hf.wireR))

lemma old_not_has (h : Commutes c a b G G') {v : ℕ} (hv : G.live v) : ¬ c.has v :=
  fun hc => h.fresh v hc hv

section Rule

variable (h : Commutes c a b G G') (hf : G.Facing a b)

include h hf

lemma rename_live {p : Port} (hp : Keeps G a b p) : G'.live (c.rename a b p).node := by
  rw [h.live]
  rcases hp.cases with ⟨k, rfl⟩ | ⟨ha, hb⟩
  · rw [rename_auxOf hf.ne]
    exact Or.inr (has_at c k)
  · rw [rename_other ha hb]
    exact Or.inl ⟨hp.1, ha, hb⟩

lemma rename_inj {p q : Port} (hp : Keeps G a b p) (hq : Keeps G a b q)
    (he : c.rename a b p = c.rename a b q) : p = q := by
  rcases hp.cases with ⟨k, rfl⟩ | ⟨ha, hb⟩ <;> rcases hq.cases with ⟨l, rfl⟩ | ⟨ha', hb'⟩
  · rw [rename_auxOf hf.ne, rename_auxOf hf.ne, Port.mk.injEq] at he
    rw [at_inj h.nodup he.1]
  · rw [rename_auxOf hf.ne, rename_other ha' hb'] at he
    exact absurd (he ▸ has_at c k) (h.old_not_has hq.1)
  · rw [rename_auxOf hf.ne, rename_other ha hb] at he
    exact absurd (he ▸ has_at c l) (h.old_not_has hp.1)
  · rwa [rename_other ha hb, rename_other ha' hb'] at he

/-- Every port of the new graph has an old name or is an inner port of a copy. -/
lemma port_cases {p : Port} (hl : G'.live p.node) :
    (∃ x, Keeps G a b x ∧ p = c.rename a b x) ∨ (∃ i j, p = ⟨c.main i, auxPort j⟩) ∨
      ∃ i j, p = ⟨c.fan j, auxPort i⟩ := by
  rcases (h.live _).mp hl with ⟨hl, ha, hb⟩ | hc
  · refine Or.inl ⟨p, ⟨hl, fun h => ha (by rw [h]), fun h => hb (by rw [h])⟩, ?_⟩
    rw [rename_other ha hb]
  · rcases copy_port hc with ⟨k, rfl⟩ | hm | hd
    · have hk : Keeps G a b (auxOf a b k) := by
        refine ⟨?_, fun h => auxOf_port a b k (by rw [h]), fun h => auxOf_port a b k (by rw [h])⟩
        rcases auxOf_node a b k with h | h <;> rw [h]
        exacts [hf.liveL, hf.liveR]
      exact Or.inl ⟨auxOf a b k, hk, (rename_auxOf hf.ne k).symm⟩
    · exact Or.inr (Or.inl hm)
    · exact Or.inr (Or.inr hd)

theorem wired (hG : G.Wired) : G'.Wired := by
  have hmain : ∀ i, G'.live (c.main i) := fun i => (h.live _).mpr (Or.inr (has_main c i))
  have hfan : ∀ i, G'.live (c.fan i) := fun i => (h.live _).mpr (Or.inr (has_fan c i))
  have hne : ∀ i j, c.main i ≠ c.fan j := by
    intro i j he
    have hd := h.nodup
    fin_cases i <;> fin_cases j <;> simp_all [Copies.main, Copies.fan]
  intro p q hl hw
  rcases h.port_cases hf hl with ⟨x, hx, rfl⟩ | ⟨i, j, rfl⟩ | ⟨i, j, rfl⟩
  · rw [h.outer x hx.1 hx.2.1 hx.2.2, Option.map_eq_some_iff] at hw
    obtain ⟨y, hy, rfl⟩ := hw
    obtain ⟨hky, hback, hyx⟩ := hx.wire hf hG hy
    refine ⟨h.rename_live hf hky, ?_, fun he => hyx (h.rename_inj hf hky hx he)⟩
    rw [h.outer y hky.1 hky.2.1 hky.2.2, hback, Option.map_some]
  · rw [h.innerMain] at hw
    obtain rfl := Option.some.inj hw
    exact ⟨hfan j, h.innerFan i j, fun he => hne i j (congrArg Port.node he).symm⟩
  · rw [h.innerFan] at hw
    obtain rfl := Option.some.inj hw
    exact ⟨hmain i, h.innerMain i j, fun he => hne i j (congrArg Port.node he)⟩

end Rule

end Commutes

lemma swapped_swapped (k : Fin 3) : swapped (swapped k) = k := by fin_cases k <;> rfl

/-- Firing a rule keeps a graph well wired. -/
theorem Fires.wired (h : Fires a b G G') (hf : G.Facing a b) (hG : G.Wired) : G'.Wired := by
  cases h with
  | beta _ _ h => exact h.wired swapped_swapped hf hG
  | annihilate _ _ _ h => exact h.wired (fun _ => rfl) hf hG
  | commute c _ _ h _ _ => exact h.wired hf hG

end Wired

end LinEngine
