import LinEngine.Build
import LinEngine.Interleave
import LinEngine.Kernel
import LinEngine.Reduce

/-!
# The slice of a dispatch

The driver picks from a wave pairs that keep to sectors of their own, and the device runs one
invocation for each, all at a time. Whatever the interleaving of their reads and writes, the
buffers end as those of one invocation after the other; and the host gets back the net that
firing the pairs one after the other leaves.
-/
namespace LinEngine

open Splice

/-! ## The filter -/

/-- Sectors are 64 nodes wide. -/
def sector (v : ℕ) : ℕ := v / 64

/-- The pair and what its auxiliaries face lie in one sector. -/
def inSector (n : Net) (r : Port × Port) : Bool :=
  sector r.1.node == sector r.2.node &&
    [⟨r.1.node, 1⟩, ⟨r.1.node, 2⟩, ⟨r.2.node, 1⟩, ⟨r.2.node, 2⟩].all fun c : Port =>
      (n.wireAt c).all fun w => sector w.node == sector r.1.node

/-- The pairs for the device, one for each sector, and the others; `used` are the sectors taken. -/
def gpuSlice (n : Net) : List ℕ → List (Port × Port) → List (Port × Port) × List (Port × Port)
  | _, [] => ([], [])
  | used, r :: rs =>
    if inSector n r && !used.contains (sector r.1.node) then
      let s := gpuSlice n (sector r.1.node :: used) rs
      (r :: s.1, s.2)
    else
      let s := gpuSlice n used rs
      (s.1, r :: s.2)

/-- The dispatch, with one invocation after the other. -/
def sliceDispatch (n : Net) (on : List (Port × Port)) : Net :=
  commit n (on.foldl (fun d r => d.main (packPort (some r.1)) (packPort (some r.2))) (upload n))

/-- Fire a pair that the device did not get. -/
def fallbackStep (g : Globals) (s : ℕ × Net) (r : Port × Port) : ℕ × Net :=
  let i := if s.2.dead.get r.1.node || s.2.dead.get r.2.node then (false, s.2) else netInteract g s.2 r.1 r.2
  (if i.1 then s.1 + 1 else s.1, { i.2 with steps := i.2.steps + 1 })

/-- Queue the pair of node `i` when its principal faces the principal of a later node. -/
def requeueNode (n : Net) (i : ℕ) : Net :=
  match n.wireAt ⟨i, 0⟩ with
  | some q => if !n.dead.get i && q.port == 0 && decide (i < q.node) then actPush n ⟨i, 0⟩ q else n
  | none => n

/-- The pairs taken, the rules that fired, and the net. `ready` is `gpu_ready && pipe_ready`, and `room` is that
there are buffers. -/
def gpuReduce (g : Globals) (ready room : Bool) (limit : ℕ) (n : Net) (rs : List (Port × Port)) : ℕ × ℕ × Net :=
  if !ready || rs.isEmpty || decide (limit ≤ n.steps) then (0, 0, n)
  else if !room then
    let s := rs.foldl (fun s r =>
      let i := netInteract g s.2 r.1 r.2
      (if i.1 then s.1 + 1 else s.1, { i.2 with steps := i.2.steps + 1 })) (0, n)
    (rs.length, s)
  else
    let s := gpuSlice n [] rs
    let m := if s.1.isEmpty then n else { sliceDispatch n s.1 with steps := n.steps + s.1.length }
    let f := s.2.foldl (fallbackStep g) (s.1.length, m)
    (rs.length, f.1, (List.range' 1 (f.2.nn - 1)).foldl requeueNode f.2)

/-! ## The accesses of an invocation -/

/-- One entry of a buffer; a scope is two words. -/
inductive BufferEntry
  | tag (i : ℕ)
  | wire (i : ℕ)
  | dead (i : ℕ)
  | scopeX (i : ℕ)
  | scopeY (i : ℕ)
  deriving DecidableEq

open Interleave (Prog)

namespace Device

/-- The buffers as one memory. -/
def mem (d : Device) : BufferEntry → ℕ
  | .tag i => d.tags.get i
  | .wire i => d.wires.get i
  | .dead i => d.deads.get i
  | .scopeX i => (d.scopes.get i).1
  | .scopeY i => (d.scopes.get i).2

end Device

namespace Kernel

def wread (n p : ℕ) (k : ℕ → Prog BufferEntry ℕ) : Prog BufferEntry ℕ := .read (.wire (n * 3 + p)) k

def wwrite (n p v : ℕ) (k : Prog BufferEntry ℕ) : Prog BufferEntry ℕ := .write (.wire (n * 3 + p)) v k

def kill (n1 n2 : ℕ) (k : Prog BufferEntry ℕ) : Prog BufferEntry ℕ := .write (.dead n1) 1 (.write (.dead n2) 1 k)

def linkP (a b : ℕ) (k : Prog BufferEntry ℕ) : Prog BufferEntry ℕ :=
  if a % 2 ^ 30 = nodeMask ∨ b % 2 ^ 30 = nodeMask then k
  else wwrite (a % 2 ^ 30) (a / 2 ^ 30) b (wwrite (b % 2 ^ 30) (b / 2 ^ 30) a k)

def beta (n1 n2 : ℕ) : Prog BufferEntry ℕ :=
  wread n1 1 fun lv => wread n1 2 fun lb => wread n2 1 fun ar => wread n2 2 fun aa =>
    kill n1 n2 <|
      if Device.names lv n1 2 && Device.names lb n1 1 then linkP aa ar .done
      else linkP lv aa (linkP lb ar .done)

def annihilate (n1 n2 : ℕ) : Prog BufferEntry ℕ :=
  .read (.scopeX n1) fun x1 => .read (.scopeY n1) fun y1 => .read (.scopeX n2) fun x2 => .read (.scopeY n2) fun y2 =>
    if x1 % 2 ≠ 0 ∨ x2 % 2 ≠ 0 then .done
    else if x1 ≠ x2 ∨ y1 ≠ y2 then .done
    else
      wread n1 1 fun a1 => wread n1 2 fun a2 => wread n2 1 fun b1 => wread n2 2 fun b2 =>
        kill n1 n2 <|
          if Device.names a1 n2 1 then linkP a2 b2 .done
          else if Device.names a2 n2 2 then linkP a1 b1 .done
          else if Device.names a1 n2 2 then linkP a2 b1 .done
          else if Device.names a2 n2 1 then linkP a1 b2 .done
          else linkP a1 b1 (linkP a2 b2 .done)

/-- The rule of the two tags, the lower first. -/
def rule (n1 n2 t1 t2 : ℕ) : Prog BufferEntry ℕ :=
  if t1 = 0 ∧ t2 = 1 then beta n1 n2
  else if t1 = 2 ∧ t2 = 2 then annihilate n1 n2
  else .done

/-- One invocation, access by access. -/
def main (pa pb : ℕ) : Prog BufferEntry ℕ :=
  let n1 := pa % 2 ^ 30
  let n2 := pb % 2 ^ 30
  if n1 = nodeMask ∨ n2 = nodeMask then .done
  else .read (.tag n1) fun t1 => .read (.tag n2) fun t2 => if t2 < t1 then rule n2 n1 t2 t1 else rule n1 n2 t1 t2

end Kernel

/-! ## An invocation alone -/

section Alone

variable {d : Device} {n1 n2 : ℕ}

lemma mem_wwrite (d : Device) (v p w : ℕ) : (d.wwrite v p w).mem = Function.update d.mem (.wire (v * 3 + p)) w := by
  funext c
  cases c <;> simp [Device.mem, Device.wwrite, Function.update_apply, Table.get_set, eq_comm]

lemma mem_kill (d : Device) (n1 n2 : ℕ) :
    (d.kill n1 n2).mem = Function.update (Function.update d.mem (.dead n1) 1) (.dead n2) 1 := by
  funext c
  cases c <;> simp [Device.mem, Device.kill, Function.update_apply, Table.get_set, eq_comm]

lemma run_tag (d : Device) (i : ℕ) (k : ℕ → Prog BufferEntry ℕ) :
    (Prog.read (.tag i) k).run d.mem = (k (d.tags.get i)).run d.mem := rfl

lemma run_scopeX (d : Device) (i : ℕ) (k : ℕ → Prog BufferEntry ℕ) :
    (Prog.read (.scopeX i) k).run d.mem = (k (d.scopes.get i).1).run d.mem := rfl

lemma run_scopeY (d : Device) (i : ℕ) (k : ℕ → Prog BufferEntry ℕ) :
    (Prog.read (.scopeY i) k).run d.mem = (k (d.scopes.get i).2).run d.mem := rfl

lemma run_wread (d : Device) (v p : ℕ) (k : ℕ → Prog BufferEntry ℕ) :
    (Kernel.wread v p k).run d.mem = (k (d.wread v p)).run d.mem := rfl

lemma run_linkP (d : Device) (a b : ℕ) (k : Prog BufferEntry ℕ) :
    (Kernel.linkP a b k).run d.mem = k.run (d.linkP a b).mem := by
  unfold Kernel.linkP Device.linkP
  split_ifs
  · rfl
  · simp only [Kernel.wwrite, Prog.run, mem_wwrite]

lemma run_kill (d : Device) (n1 n2 : ℕ) (k : Prog BufferEntry ℕ) :
    (Kernel.kill n1 n2 k).run d.mem = k.run (d.kill n1 n2).mem := by
  simp only [Kernel.kill, Prog.run, mem_kill]

lemma run_beta (d : Device) (n1 n2 : ℕ) : (Kernel.beta n1 n2).run d.mem = (d.beta n1 n2).mem := by
  simp only [Kernel.beta, run_wread, run_kill, Device.beta]
  split_ifs <;> simp only [run_linkP, Prog.run]

lemma run_annihilate (d : Device) (n1 n2 : ℕ) : (Kernel.annihilate n1 n2).run d.mem = (d.annihilate n1 n2).mem := by
  simp only [Kernel.annihilate, Device.annihilate, run_scopeX, run_scopeY]
  by_cases hodd : (d.scopes.get n1).1 % 2 ≠ 0 ∨ (d.scopes.get n2).1 % 2 ≠ 0
  · simp only [if_pos hodd, Prog.run]
  by_cases hne : (d.scopes.get n1).1 ≠ (d.scopes.get n2).1 ∨ (d.scopes.get n1).2 ≠ (d.scopes.get n2).2
  · simp only [if_neg hodd, if_pos hne, Prog.run]
  simp only [if_neg hodd, if_neg hne, run_wread, run_kill]
  split_ifs <;> simp only [run_linkP, Prog.run]

lemma run_main (d : Device) (pa pb : ℕ) : (Kernel.main pa pb).run d.mem = (d.main pa pb).mem := by
  simp only [Kernel.main, Device.main]
  by_cases hnone : pa % 2 ^ 30 = nodeMask ∨ pb % 2 ^ 30 = nodeMask
  · rw [if_pos hnone, if_pos hnone]
    rfl
  · rw [if_neg hnone, if_neg hnone]
    simp only [run_tag, Kernel.rule]
    by_cases hswap : d.tags.get (pb % 2 ^ 30) < d.tags.get (pa % 2 ^ 30)
    · simp only [hswap, if_true]
      split_ifs <;> simp only [run_beta, run_annihilate, Prog.run]
    · simp only [hswap, if_false]
      split_ifs <;> simp only [run_beta, run_annihilate, Prog.run]

end Alone

/-! ## What an invocation touches -/

/-- The entries of a sector that an invocation may write. -/
def sectorCells (s : ℕ) : Set BufferEntry
  | .wire i => sector (i / 3) = s
  | .dead i => sector i = s
  | _ => False

/-- The buffers that the kernel declares read-only. -/
def readOnly : Set BufferEntry
  | .tag _ | .scopeX _ | .scopeY _ => True
  | _ => False

/-- The word is no port, or a port of the sector. -/
def Stays (s w : ℕ) : Prop := w % 2 ^ 30 = nodeMask ∨ sector (w % 2 ^ 30) = s ∧ w / 2 ^ 30 < 3

section Within

variable {s n1 n2 : ℕ} {m : BufferEntry → ℕ}

lemma mem_sectorCells {v p : ℕ} (hp : p < 3) : BufferEntry.wire (v * 3 + p) ∈ sectorCells s ↔ sector v = s := by
  have hnode : (v * 3 + p) / 3 = v := by omega
  change sector ((v * 3 + p) / 3) = s ↔ _
  rw [hnode]

lemma slot_sector {v p : ℕ} (hv : sector v = s) (hp : p < 3) : BufferEntry.wire (v * 3 + p) ∈ sectorCells s :=
  (mem_sectorCells hp).mpr hv

lemma within_linkP {a b : ℕ} (ha : Stays s a) (hb : Stays s b) {k : Prog BufferEntry ℕ}
    (hk : ∀ m, k.Within (sectorCells s) readOnly m) : (Kernel.linkP a b k).Within (sectorCells s) readOnly m := by
  unfold Kernel.linkP
  split_ifs with h
  · exact hk m
  · obtain ⟨hna, hnb⟩ := not_or.mp h
    obtain ⟨hsa, hpa⟩ := ha.resolve_left hna
    obtain ⟨hsb, hpb⟩ := hb.resolve_left hnb
    exact ⟨slot_sector hsa hpa, slot_sector hsb hpb, hk _⟩

lemma within_kill (h1 : sector n1 = s) (h2 : sector n2 = s) {k : Prog BufferEntry ℕ}
    (hk : ∀ m, k.Within (sectorCells s) readOnly m) : (Kernel.kill n1 n2 k).Within (sectorCells s) readOnly m :=
  ⟨h1, h2, hk _⟩

/-- The auxiliaries of the pair face ports of the sector. -/
def AuxStay (m : BufferEntry → ℕ) (s n1 n2 : ℕ) : Prop :=
  ∀ v, v = n1 ∨ v = n2 → sector v = s ∧ ∀ p, p = 1 ∨ p = 2 → Stays s (m (.wire (v * 3 + p)))

lemma within_beta (h : AuxStay m s n1 n2) : (Kernel.beta n1 n2).Within (sectorCells s) readOnly m := by
  obtain ⟨hs1, hw1⟩ := h n1 (.inl rfl)
  obtain ⟨hs2, hw2⟩ := h n2 (.inr rfl)
  refine ⟨.inl (slot_sector hs1 (by decide)), .inl (slot_sector hs1 (by decide)), .inl (slot_sector hs2 (by decide)),
    .inl (slot_sector hs2 (by decide)), within_kill hs1 hs2 fun m' => ?_⟩
  split_ifs
  · exact within_linkP (hw2 2 (.inr rfl)) (hw2 1 (.inl rfl)) fun _ => trivial
  · exact within_linkP (hw1 1 (.inl rfl)) (hw2 2 (.inr rfl)) fun _ =>
      within_linkP (hw1 2 (.inr rfl)) (hw2 1 (.inl rfl)) fun _ => trivial

lemma within_annihilate (h : AuxStay m s n1 n2) : (Kernel.annihilate n1 n2).Within (sectorCells s) readOnly m := by
  obtain ⟨hs1, hw1⟩ := h n1 (.inl rfl)
  obtain ⟨hs2, hw2⟩ := h n2 (.inr rfl)
  refine ⟨.inr trivial, .inr trivial, .inr trivial, .inr trivial, ?_⟩
  beta_reduce
  split_ifs
  · trivial
  · trivial
  refine ⟨.inl (slot_sector hs1 (by decide)), .inl (slot_sector hs1 (by decide)), .inl (slot_sector hs2 (by decide)),
    .inl (slot_sector hs2 (by decide)), within_kill hs1 hs2 fun m' => ?_⟩
  have ha1 := hw1 1 (.inl rfl)
  have ha2 := hw1 2 (.inr rfl)
  have hb1 := hw2 1 (.inl rfl)
  have hb2 := hw2 2 (.inr rfl)
  split_ifs
  · exact within_linkP ha2 hb2 fun _ => trivial
  · exact within_linkP ha1 hb1 fun _ => trivial
  · exact within_linkP ha2 hb1 fun _ => trivial
  · exact within_linkP ha1 hb2 fun _ => trivial
  · exact within_linkP ha1 hb1 fun _ => within_linkP ha2 hb2 fun _ => trivial

lemma within_rule (h : AuxStay m s n1 n2) (t1 t2 : ℕ) :
    (Kernel.rule n1 n2 t1 t2).Within (sectorCells s) readOnly m := by
  unfold Kernel.rule
  split_ifs
  · exact within_beta h
  · exact within_annihilate h
  · trivial

lemma within_main {pa pb : ℕ} (h : AuxStay m s (pa % 2 ^ 30) (pb % 2 ^ 30)) :
    (Kernel.main pa pb).Within (sectorCells s) readOnly m := by
  simp only [Kernel.main]
  split_ifs with hnone
  · trivial
  refine ⟨.inr trivial, .inr trivial, ?_⟩
  beta_reduce
  split_ifs
  · exact within_rule (fun v hv => h v hv.symm) ..
  · exact within_rule h ..

end Within

section Short

open Interleave.Prog (Short)

lemma short_linkP {k : Prog BufferEntry ℕ} {b : ℕ} (hk : Short b k) (v w : ℕ) : Short (b + 2) (Kernel.linkP v w k) := by
  unfold Kernel.linkP
  split_ifs
  · exact hk.mono.mono
  · exact .write (.write hk)

lemma short_beta (n1 n2 : ℕ) : Short 14 (Kernel.beta n1 n2) := by
  refine .read fun _ => .read fun _ => .read fun _ => .read fun _ => .write (.write ?_)
  split_ifs
  · exact short_linkP .done _ _
  · exact short_linkP (short_linkP .done _ _ : Short 6 _) _ _

lemma short_annihilate (n1 n2 : ℕ) : Short 14 (Kernel.annihilate n1 n2) := by
  refine .read fun _ => .read fun _ => .read fun _ => .read fun _ => ?_
  split_ifs
  · exact .done
  · exact .done
  refine .read fun _ => .read fun _ => .read fun _ => .read fun _ => .write (.write ?_)
  split_ifs
  · exact short_linkP .done _ _
  · exact short_linkP .done _ _
  · exact short_linkP .done _ _
  · exact short_linkP .done _ _
  · exact short_linkP (short_linkP .done _ _ : Short 2 _) _ _

lemma short_main (pa pb : ℕ) : Short 16 (Kernel.main pa pb) := by
  have hrule : ∀ n1 n2 t1 t2, Short 14 (Kernel.rule n1 n2 t1 t2) := by
    intro n1 n2 t1 t2
    unfold Kernel.rule
    split_ifs
    · exact short_beta ..
    · exact short_annihilate ..
    · exact .done
  simp only [Kernel.main]
  split_ifs
  · exact .done
  refine .read fun _ => .read fun _ => ?_
  split_ifs
  · exact hrule ..
  · exact hrule ..

end Short

/-! ## The host stays in the sector -/

/-- Which nodes of `S` are live, and their tags, gauges and wires. -/
structure AgreeOn (S : ℕ → Prop) (G G' : Graph) : Prop where
  live : ∀ v, S v → (G.live v ↔ G'.live v)
  wire : ∀ p : Port, S p.node → G.live p.node → G.wire p = G'.wire p
  tag : ∀ v, S v → G.live v → G.tag v = G'.tag v
  gauge : ∀ v, S v → G.live v → G.gauge v = G'.gauge v

namespace AgreeOn

variable {S T : ℕ → Prop} {G H K : Graph}

lemma refl (S : ℕ → Prop) (G : Graph) : AgreeOn S G G :=
  ⟨fun _ _ => .rfl, fun _ _ _ => rfl, fun _ _ _ => rfl, fun _ _ _ => rfl⟩

lemma symm (h : AgreeOn S G H) : AgreeOn S H G where
  live v hv := (h.live v hv).symm
  wire p hp hl := (h.wire p hp ((h.live _ hp).mpr hl)).symm
  tag v hv hl := (h.tag v hv ((h.live v hv).mpr hl)).symm
  gauge v hv hl := (h.gauge v hv ((h.live v hv).mpr hl)).symm

lemma trans (h : AgreeOn S G H) (h' : AgreeOn S H K) : AgreeOn S G K where
  live v hv := (h.live v hv).trans (h'.live v hv)
  wire p hp hl := (h.wire p hp hl).trans (h'.wire p hp ((h.live _ hp).mp hl))
  tag v hv hl := (h.tag v hv hl).trans (h'.tag v hv ((h.live v hv).mp hl))
  gauge v hv hl := (h.gauge v hv hl).trans (h'.gauge v hv ((h.live v hv).mp hl))

lemma mono (h : AgreeOn S G H) (hsub : ∀ v, T v → S v) : AgreeOn T G H where
  live v hv := h.live v (hsub v hv)
  wire p hp := h.wire p (hsub _ hp)
  tag v hv := h.tag v (hsub v hv)
  gauge v hv := h.gauge v (hsub v hv)

end AgreeOn

section Frame

variable {S : ℕ → Prop} {G G' H H' : Graph} {s : Fin 3 → Fin 3} {a b : ℕ}

/-- Gluing the pair sees the pair's own wires only. -/
lemma exits_congr {w w' : Port → Option Port} (hw : ∀ p : Port, p.node = a ∨ p.node = b → w p = w' p)
    {x z : Option Port} (h : Exits w (crossing a b s) x z) : Exits w' (crossing a b s) x z := by
  induction h with
  | loose => exact .loose
  | out hc => exact .out hc
  | @thru x y z hc _ ih =>
    have hy : y.node = a ∨ y.node = b := by
      simp only [crossing] at hc
      split_ifs at hc with h1 h2
      · exact .inr (by rw [← Option.some.inj hc])
      · exact .inl (by rw [← Option.some.inj hc])
    rw [hw y hy] at ih
    exact .thru hc ih

/-- A wire that leads past the pair stays. -/
lemma exits_past {w : Port → Option Port} {x : Option Port} (hx : ∀ q, x = some q → q.node ≠ a ∧ q.node ≠ b) :
    Exits w (crossing a b s) x x := by
  cases x with
  | none => exact .loose
  | some q =>
    obtain ⟨h1, h2⟩ := hx q rfl
    refine .out ?_
    simp only [crossing, h1, h2, if_false]

/-- Away from the pair and from what it faces, nothing changes. -/
lemma Annihilates.frame (hG : G.Wired) (h : Annihilates s a b G G') (hS : ∀ v, S v → v ≠ a ∧ v ≠ b)
    (hends : ∀ v, v = a ∨ v = b → ∀ k q, G.wire ⟨v, k⟩ = some q → ¬ S q.node) : AgreeOn S G' G := by
  have hpast : ∀ p : Port, S p.node → G.live p.node → ∀ q, G.wire p = some q → q.node ≠ a ∧ q.node ≠ b := by
    intro p hp hl q hq
    obtain ⟨-, hback, -⟩ := hG p q hl hq
    constructor
    · intro ha
      exact hends q.node (.inl ha) q.port p hback hp
    · intro hb
      exact hends q.node (.inr hb) q.port p hback hp
  constructor
  · intro v hv
    rw [h.live v]
    refine ⟨fun hl => hl.1, fun hl => ⟨hl, (hS v hv).1, (hS v hv).2, ?_⟩⟩
    by_cases hall : ∀ k, G.wire ⟨v, k⟩ = none
    · exact .inl hall
    · obtain ⟨k, hk⟩ := not_forall.mp hall
      obtain ⟨q, hq⟩ := Option.ne_none_iff_exists'.mp hk
      refine .inr ⟨k, q, ?_⟩
      rw [← hq]
      exact exits_past (hpast ⟨v, k⟩ hv hl)
  · intro p hp hl
    have hlG := ((h.live p.node).mp hl).1
    exact (h.wire p hl).unique (exits_past (hpast p hp hlG))
  · exact fun v _ hl => h.tag v hl
  · exact fun v _ hl => h.gauge v hl

/-- The same pair leaves the same in two nets that agree where it is. -/
lemma Annihilates.agree (h : Annihilates s a b G G') (h' : Annihilates s a b H H') (hGH : AgreeOn S G H)
    (hS : S a ∧ S b) (hla : G.live a) (hlb : G.live b) : AgreeOn S G' H' := by
  have hpair : ∀ p : Port, p.node = a ∨ p.node = b → G.wire p = H.wire p := by
    intro p hp
    rcases hp with hp | hp
    · exact hGH.wire p (hp ▸ hS.1) (hp ▸ hla)
    · exact hGH.wire p (hp ▸ hS.2) (hp ▸ hlb)
  have hexits : ∀ p : Port, S p.node → G.live p.node → ∀ z,
      Exits G.wire (crossing a b s) (G.wire p) z ↔ Exits H.wire (crossing a b s) (H.wire p) z := by
    intro p hp hl z
    rw [← hGH.wire p hp hl]
    exact ⟨exits_congr hpair, exits_congr fun p hp => (hpair p hp).symm⟩
  have hlive : ∀ v, S v → (G'.live v ↔ H'.live v) := by
    intro v hv
    rw [h.live v, h'.live v, ← hGH.live v hv]
    refine and_congr_right fun hl => and_congr_right fun _ => and_congr_right fun _ => or_congr ?_ ?_
    · exact forall_congr' fun k => by rw [hGH.wire ⟨v, k⟩ hv hl]
    · exact exists_congr fun k => exists_congr fun x => hexits ⟨v, k⟩ hv hl (some x)
  refine ⟨hlive, fun p hp hl => ?_, fun v hv hl => ?_, fun v hv hl => ?_⟩
  · have hlG := ((h.live p.node).mp hl).1
    exact ((hexits p hp hlG _).mp (h.wire p hl)).unique (h'.wire p ((hlive _ hp).mp hl))
  · rw [h.tag v hl, h'.tag v ((hlive v hv).mp hl)]
    exact hGH.tag v hv ((h.live v).mp hl).1
  · rw [h.gauge v hl, h'.gauge v ((hlive v hv).mp hl)]
    exact hGH.gauge v hv ((h.live v).mp hl).1

end Frame

/-- A redex whose rule joins its ends, in a sector with what it faces. -/
structure Sectored (n : Net) (r : Port × Port) : Prop where
  redex : redexLive n r.1 r.2 = true
  joins : JoinsEnds n (sortPair (n.tag.get r.1.node) (n.tag.get r.2.node) r.1.node r.2.node)
  together : sector r.2.node = sector r.1.node
  ends : ∀ v, v = r.1.node ∨ v = r.2.node → ∀ k q, n.wireAt ⟨v, k⟩ = some q → sector q.node = sector r.1.node

section Host

variable {g : Globals} {n m : Net} {r : Port × Port}

lemma sortPair_mem (t t' : Tag) (a b : ℕ) :
    ((sortPair t t' a b).1 = a ∨ (sortPair t t' a b).1 = b) ∧
      ((sortPair t t' a b).2 = a ∨ (sortPair t t' a b).2 = b) := by
  simp only [sortPair]
  split_ifs
  · exact ⟨.inr rfl, .inl rfl⟩
  · exact ⟨.inl rfl, .inr rfl⟩

/-- The host leaves the node count, and glues the ends. -/
lemma Sectored.fire (hser : g.inParallel = false) (hn : Sound n) (h : Sectored n r) :
    Sound (netInteract g n r.1 r.2).2 ∧ (netInteract g n r.1 r.2).2.nn = n.nn ∧
      Annihilates
        (if n.tag.get (sortPair (n.tag.get r.1.node) (n.tag.get r.2.node) r.1.node r.2.node).1 = .lam then swapped
          else straight)
        (sortPair (n.tag.get r.1.node) (n.tag.get r.2.node) r.1.node r.2.node).1
        (sortPair (n.tag.get r.1.node) (n.tag.get r.2.node) r.1.node r.2.node).2 n.graph
        (netInteract g n r.1 r.2).2.graph := by
  have hhost : netInteract g n r.1 r.2 = interactSorted g n
      (sortPair (n.tag.get r.1.node) (n.tag.get r.2.node) r.1.node r.2.node).1
      (sortPair (n.tag.get r.1.node) (n.tag.get r.2.node) r.1.node r.2.node).2 := by
    simp only [netInteract, sortPair]
    split_ifs <;> rfl
  have hjoins := h.joins
  have hspec := netInteract_spec hser hn h.redex
  generalize sortPair (n.tag.get r.1.node) (n.tag.get r.2.node) r.1.node r.2.node = ab at hhost hjoins hspec ⊢
  obtain ⟨a, b⟩ := ab
  simp only at hhost hjoins hspec ⊢
  have hwane : ∀ cor, Waning n (retire g (pairBoundary g n a b cor) a b) := fun cor =>
    ((Waning.linking g).pairBoundary n a b cor).trans (Waning.retire ..)
  rcases hjoins with ⟨h1, h2⟩ | ⟨h1, h2, h3⟩
  · simp only at h1 h2
    have hfire : netInteract g n r.1 r.2 = (true, retire g (pairBoundary g n a b [(1, 5), (2, 4)]) a b) := by
      rw [hhost]
      simp only [interactSorted, h1, h2]
    obtain ⟨hF, hS⟩ := hspec (by rw [hfire])
    refine ⟨hS, by rw [hfire]; exact (hwane _).nn, ?_⟩
    rw [if_pos h1]
    cases hF with
    | beta _ _ h => exact h
    | annihilate hd => exact absurd (h1.symm.trans hd) (by decide)
    | commute c _ hd => exact absurd (h2.symm.trans hd) (by decide)
  · simp only at h1 h2 h3
    have hfire : netInteract g n r.1 r.2 = (true, retire g (pairBoundary g n a b [(1, 4), (2, 5)]) a b) := by
      rw [hhost]
      simp only [interactSorted, h1, h2, h3, if_true]
    obtain ⟨hF, hS⟩ := hspec (by rw [hfire])
    refine ⟨hS, by rw [hfire]; exact (hwane _).nn, ?_⟩
    rw [if_neg (by rw [h1]; decide)]
    cases hF with
    | beta hl => exact absurd (h1.symm.trans hl) (by decide)
    | annihilate _ _ _ h => exact h
    | commute c hd =>
      rcases hd with hd | hd | ⟨-, hd⟩
      · exact absurd (h1.symm.trans hd) (by decide)
      · exact absurd (h1.symm.trans hd) (by decide)
      · exact absurd h3 hd

lemma Sectored.live (h : Sectored n r) : n.live r.1.node = true ∧ n.live r.2.node = true := redexLive_live h.redex

/-- Firing a pair changes its sector only. -/
lemma Sectored.fire_frame (hser : g.inParallel = false) (hn : Sound n) (h : Sectored n r) :
    AgreeOn (fun v => sector v ≠ sector r.1.node) (netInteract g n r.1 r.2).2.graph n.graph := by
  obtain ⟨-, -, ha⟩ := h.fire (g := g) hser hn
  have hmem := sortPair_mem (n.tag.get r.1.node) (n.tag.get r.2.node) r.1.node r.2.node
  generalize sortPair (n.tag.get r.1.node) (n.tag.get r.2.node) r.1.node r.2.node = ab at ha hmem
  have hsec : ∀ v, v = r.1.node ∨ v = r.2.node → sector v = sector r.1.node := by
    rintro v (rfl | rfl)
    · rfl
    · exact h.together
  refine ha.frame hn.wired (fun v hv => ⟨?_, ?_⟩) fun v hv k q hq hno => ?_
  · rintro rfl
    exact hv (hsec _ hmem.1)
  · rintro rfl
    exact hv (hsec _ hmem.2)
  · refine hno (h.ends v ?_ k q hq)
    rcases hv with rfl | rfl
    · exact hmem.1
    · exact hmem.2

/-- A pair is kept where the nets agree on its sector. -/
lemma Sectored.agree (h : Sectored n r) (hm : AgreeOn (fun v => sector v = sector r.1.node) n.graph m.graph) :
    Sectored m r := by
  obtain ⟨h1, h2⟩ := h.live
  have hsec : ∀ v, v = r.1.node ∨ v = r.2.node →
      n.live v = true ∧ sector v = sector r.1.node := by
    rintro v (rfl | rfl)
    · exact ⟨h1, rfl⟩
    · exact ⟨h2, h.together⟩
  have hwire : ∀ v, v = r.1.node ∨ v = r.2.node → ∀ k, m.wireAt ⟨v, k⟩ = n.wireAt ⟨v, k⟩ := fun v hv k =>
    (hm.wire ⟨v, k⟩ (hsec v hv).2 (hsec v hv).1).symm
  have htag : ∀ v, v = r.1.node ∨ v = r.2.node → m.tag.get v = n.tag.get v := fun v hv =>
    (hm.tag v (hsec v hv).2 (hsec v hv).1).symm
  have hgauge : ∀ v, v = r.1.node ∨ v = r.2.node → m.scope.get v = n.scope.get v := fun v hv =>
    (hm.gauge v (hsec v hv).2 (hsec v hv).1).symm
  have hmem := sortPair_mem (n.tag.get r.1.node) (n.tag.get r.2.node) r.1.node r.2.node
  refine ⟨?_, ?_, h.together, fun v hv k q hq => h.ends v hv k q ((hwire v hv k).symm.trans hq)⟩
  · have hr := h.redex
    simp only [redexLive, Bool.and_eq_true, beq_iff_eq] at hr ⊢
    obtain ⟨⟨⟨⟨⟨hl, hl'⟩, hp⟩, hp'⟩, hw⟩, hw'⟩ := hr
    refine ⟨⟨⟨⟨⟨(hm.live _ rfl).mp hl, (hm.live _ h.together).mp hl'⟩, hp⟩, hp'⟩, ?_⟩, ?_⟩
    · exact (hwire _ (.inl rfl) _).trans hw
    · exact (hwire _ (.inr rfl) _).trans hw'
  · have hj := h.joins
    rw [htag _ (.inl rfl), htag _ (.inr rfl)]
    simp only [JoinsEnds, htag _ hmem.1, htag _ hmem.2, hgauge _ hmem.1, hgauge _ hmem.2] at hj ⊢
    exact hj

/-- Firing a pair leaves its sector the same in two nets that agree there. -/
lemma Sectored.fire_agree (hser : g.inParallel = false) (hn : Sound n) (hm : Sound m) (h : Sectored n r)
    (hnm : AgreeOn (fun v => sector v = sector r.1.node) n.graph m.graph) :
    AgreeOn (fun v => sector v = sector r.1.node) (netInteract g n r.1 r.2).2.graph
      (netInteract g m r.1 r.2).2.graph := by
  obtain ⟨-, -, ha⟩ := h.fire (g := g) hser hn
  obtain ⟨-, -, ha'⟩ := (h.agree hnm).fire (g := g) hser hm
  obtain ⟨h1, h2⟩ := h.live
  have ht1 : m.tag.get r.1.node = n.tag.get r.1.node := (hnm.tag _ rfl h1).symm
  have ht2 : m.tag.get r.2.node = n.tag.get r.2.node := (hnm.tag _ h.together h2).symm
  have hmem := sortPair_mem (n.tag.get r.1.node) (n.tag.get r.2.node) r.1.node r.2.node
  have hpair : ∀ v, v = r.1.node ∨ v = r.2.node →
      n.live v = true ∧ sector v = sector r.1.node ∧ m.tag.get v = n.tag.get v := by
    rintro v (rfl | rfl)
    · exact ⟨h1, rfl, ht1⟩
    · exact ⟨h2, h.together, ht2⟩
  rw [ht1, ht2] at ha'
  generalize sortPair (n.tag.get r.1.node) (n.tag.get r.2.node) r.1.node r.2.node = ab at ha ha' hmem
  rw [(hpair _ hmem.1).2.2] at ha'
  exact ha.agree ha' hnm ⟨(hpair _ hmem.1).2.1, (hpair _ hmem.2).2.1⟩ (hpair _ hmem.1).1 (hpair _ hmem.2).1

/-- Fire the pairs one after the other. -/
def hostFold (g : Globals) (n : Net) (rs : List (Port × Port)) : Net :=
  rs.foldl (fun n r => (netInteract g n r.1 r.2).2) n

/-- Each sector is as its own pair leaves it, whatever was fired before and after. -/
lemma hostFold_spec (hser : g.inParallel = false) (rs : List (Port × Port)) (hn : Sound n)
    (hrs : ∀ r ∈ rs, Sectored n r) (hapart : rs.Pairwise fun r r' => sector r.1.node ≠ sector r'.1.node) :
    (hostFold g n rs).nn = n.nn ∧
      (∀ r ∈ rs, AgreeOn (fun v => sector v = sector r.1.node) (hostFold g n rs).graph
        (netInteract g n r.1 r.2).2.graph) ∧
      AgreeOn (fun v => ∀ r ∈ rs, sector v ≠ sector r.1.node) (hostFold g n rs).graph n.graph := by
  induction rs generalizing n with
  | nil => exact ⟨rfl, fun r hr => absurd hr List.not_mem_nil, .refl ..⟩
  | cons r rs ih =>
    obtain ⟨hhead, htail⟩ := List.pairwise_cons.mp hapart
    have hr := hrs r (List.mem_cons_self ..)
    obtain ⟨hs, hnn, -⟩ := hr.fire (g := g) hser hn
    have hframe := hr.fire_frame (g := g) hser hn
    have hother : ∀ r' ∈ rs, AgreeOn (fun v => sector v = sector r'.1.node) n.graph
        (netInteract g n r.1 r.2).2.graph := fun r' hr' =>
      (hframe.mono fun v hv hv' => hhead r' hr' (hv'.symm.trans hv)).symm
    have hkept : ∀ r' ∈ rs, Sectored n r' := fun r' hr' => hrs r' (List.mem_cons_of_mem r hr')
    obtain ⟨hnn', hin, hout⟩ := ih hs (fun r' hr' => (hkept r' hr').agree (hother r' hr')) htail
    refine ⟨hnn'.trans hnn, fun r' hr' => ?_, ?_⟩
    · rcases List.mem_cons.mp hr' with rfl | hr'
      · exact hout.mono fun v hv r'' hr'' hv' => hhead r'' hr'' (hv.symm.trans hv')
      · exact (hin r' hr').trans ((hkept r' hr').fire_agree hser hn hs (hother r' hr')).symm
    · refine (hout.mono fun v hv r' hr' => hv r' (List.mem_cons_of_mem r hr')).trans (hframe.mono fun v hv => ?_)
      exact hv r (List.mem_cons_self ..)

end Host

/-! ## The slice on the device -/

/-- What the host reads back from the buffers. -/
def readBack (n : Net) (m : BufferEntry → ℕ) : Net :=
  { n with
    dead := fillTable n.dead n.nn fun i => m (.dead i) != 0
    wire := fillTable n.wire (n.nn * 3) fun i => unpackPort (m (.wire i)) }

/-- The invocations of the slice, none of them begun. -/
def invocations (n : Net) (on : List (Port × Port)) : Interleave.Config (Fin on.length) BufferEntry ℕ :=
  (fun i => Kernel.main (packPort (some on[i].1)) (packPort (some on[i].2)), (upload n).mem)

/-- The dead flags and the wires of live nodes. -/
structure ReadsLike (n m : Net) : Prop where
  dead : ∀ v < n.nn, n.dead.get v = m.dead.get v
  wire : ∀ p : Port, m.live p.node = true → n.wireAt p = m.wireAt p

section Device

variable {g : Globals} {n : Net} {r : Port × Port}

lemma gpuSlice_spec (n : Net) (used : List ℕ) (rs : List (Port × Port)) :
    (∀ r ∈ (gpuSlice n used rs).1, r ∈ rs ∧ inSector n r = true ∧ sector r.1.node ∉ used) ∧
      (gpuSlice n used rs).1.Pairwise fun r r' => sector r.1.node ≠ sector r'.1.node := by
  induction rs generalizing used with
  | nil => exact ⟨fun r hr => absurd hr List.not_mem_nil, .nil⟩
  | cons r rs ih =>
    simp only [gpuSlice]
    split_ifs with hr
    · simp only [Bool.and_eq_true, Bool.not_eq_true', List.contains_eq_mem, decide_eq_false_iff_not] at hr
      obtain ⟨hall, hpair⟩ := ih (sector r.1.node :: used)
      refine ⟨fun r' hr' => ?_, .cons (fun r' hr' heq => ?_) hpair⟩
      · rcases List.mem_cons.mp hr' with rfl | hr'
        · exact ⟨List.mem_cons_self .., hr.1, hr.2⟩
        · obtain ⟨hmem, hin, hno⟩ := hall r' hr'
          exact ⟨List.mem_cons_of_mem r hmem, hin, fun h => hno (List.mem_cons_of_mem _ h)⟩
      · exact (hall r' hr').2.2 (heq ▸ List.mem_cons_self ..)
    · obtain ⟨hall, hpair⟩ := ih used
      exact ⟨fun r' hr' => ⟨List.mem_cons_of_mem r (hall r' hr').1, (hall r' hr').2⟩, hpair⟩

/-- A claimed redex that passes the filter. -/
lemma sectored_of_inSector (hn : Wired n) (hr : redexLive n r.1 r.2 = true) (hc : gpuClaim true n r.1 r.2 = true)
    (hin : inSector n r = true) : Sectored n r := by
  obtain ⟨hf, hp, hq⟩ := redexLive_facing hn hr
  simp only [inSector, Bool.and_eq_true, beq_iff_eq, List.all_cons, List.all_nil, Bool.and_true] at hin
  obtain ⟨hsec, h11, h12, h21, h22⟩ := hin
  have haux : ∀ {c : Port}, ((n.wireAt c).all fun w => sector w.node == sector r.1.node) = true →
      ∀ q, n.wireAt c = some q → sector q.node = sector r.1.node := by
    intro c hall q hq
    rw [hq] at hall
    exact beq_iff_eq.mp hall
  refine ⟨hr, joinsEnds_of_claim hc, hsec.symm, ?_⟩
  rintro v (rfl | rfl) k q hq
  · match k with
    | 0 =>
      rw [← Option.some.inj (hf.wireL.symm.trans hq)]
      exact hsec.symm
    | 1 => exact haux h11 q hq
    | 2 => exact haux h12 q hq
  · match k with
    | 0 => rw [← Option.some.inj (hf.wireR.symm.trans hq)]
    | 1 => exact haux h21 q hq
    | 2 => exact haux h22 q hq

/-- The pair of an invocation faces ports of its sector, as the buffers have them. -/
lemma Sectored.auxStay (hn : Wired n) (hnn : n.nn ≤ nodeMask) (h : Sectored n r) :
    AuxStay (upload n).mem (sector r.1.node) (packPort (some r.1) % 2 ^ 30) (packPort (some r.2) % 2 ^ 30) := by
  obtain ⟨h1, h2⟩ := h.live
  rw [packPort_node ((Net.live_lt h1).trans_le hnn), packPort_node ((Net.live_lt h2).trans_le hnn)]
  have hpair : ∀ v, v = r.1.node ∨ v = r.2.node → n.live v = true ∧ sector v = sector r.1.node := by
    rintro v (rfl | rfl)
    · exact ⟨h1, rfl⟩
    · exact ⟨h2, h.together⟩
  refine fun v hv => ⟨(hpair v hv).2, fun p hp => ?_⟩
  obtain ⟨k, rfl⟩ : ∃ k : Fin 3, p = k := by
    rcases hp with rfl | rfl
    · exact ⟨1, rfl⟩
    · exact ⟨2, rfl⟩
  have hword : (upload n).mem (.wire (v * 3 + k)) = packPort (n.wireAt ⟨v, k⟩) :=
    (shows_upload n).wires ⟨v, k⟩ (Net.live_lt (hpair v hv).1)
  rw [hword]
  cases hw : n.wireAt ⟨v, k⟩ with
  | none => exact .inl packPort_none
  | some q =>
    have hq := (Net.live_lt (hn _ _ (hpair v hv).1 hw).1).trans_le hnn
    refine .inr ⟨?_, ?_⟩
    · rw [packPort_node hq]
      exact h.ends v hv k q hw
    · rw [packPort_port hq]
      exact q.port.isLt

lemma dead_of_live {n m : Net} (hnn : m.nn = n.nn) {v : ℕ} (h : m.live v = true ↔ n.live v = true) (hv : v < n.nn) :
    m.dead.get v = n.dead.get v := by
  simp only [Net.live_iff, hnn, hv, true_and] at h
  cases hm : m.dead.get v with
  | true =>
    cases hn : n.dead.get v with
    | true => rfl
    | false => exact absurd (h.mpr hn) (by simp [hm])
  | false => exact (h.mp hm).symm

lemma readBack_dead (n : Net) (m : BufferEntry → ℕ) {v : ℕ} (hv : v < n.nn) :
    (readBack n m).dead.get v = (m (.dead v) != 0) := by
  simp only [readBack, get_fillTable, if_pos hv]

lemma readBack_wire (n : Net) (m : BufferEntry → ℕ) {p : Port} (hp : p.node < n.nn) :
    (readBack n m).wireAt p = unpackPort (m (.wire (p.node * 3 + p.port))) := by
  simp only [readBack, Net.wireAt, get_fillTable, if_pos (slot_lt hp)]

/-- The sectors of a slice share no cell. -/
lemma partitioned_slice {on : List (Port × Port)}
    (hapart : on.Pairwise fun r r' => sector r.1.node ≠ sector r'.1.node) :
    Interleave.Partitioned (fun i : Fin on.length => sectorCells (sector on[i].1.node)) readOnly where
  apart := by
    intro i j a hi hj
    by_contra hne
    have hdiff : sector on[i].1.node ≠ sector on[j].1.node := by
      rcases lt_or_gt_of_ne hne with hlt | hlt
      · exact List.pairwise_iff_getElem.mp hapart _ _ i.isLt j.isLt hlt
      · exact (List.pairwise_iff_getElem.mp hapart _ _ j.isLt i.isLt hlt).symm
    cases a with
    | wire v => exact hdiff (Eq.trans (Eq.symm hi) hj)
    | dead v => exact hdiff (Eq.trans (Eq.symm hi) hj)
    | _ => exact hi
  readonly := by
    intro i a hi hr
    cases a with
    | wire v => exact hr
    | dead v => exact hr
    | _ => exact hi

end Device

section Slice

variable {g : Globals} {n : Net} {on : List (Port × Port)}

/-- Where each sector is as its own invocation leaves it and the rest is as it was uploaded, the host reads
back what its own firings leave. -/
lemma readsAs_hostFold (hser : g.inParallel = false) (hn : Sound n) (hnn : n.nn ≤ nodeMask)
    (hon : ∀ r ∈ on, Sectored n r) (hapart : on.Pairwise fun r r' => sector r.1.node ≠ sector r'.1.node)
    (hagree : ∀ r ∈ on, KernelAgrees g n r.1 r.2)
    {m : BufferEntry → ℕ} (hin : ∀ r ∈ on, ∀ a ∈ sectorCells (sector r.1.node),
      m a = ((upload n).main (packPort (some r.1)) (packPort (some r.2))).mem a)
    (hout : ∀ a, (∀ r ∈ on, a ∉ sectorCells (sector r.1.node)) → m a = (upload n).mem a) :
    ReadsLike (readBack n m) (hostFold g n on) := by
  obtain ⟨hnn', hsame, hrest⟩ := hostFold_spec (g := g) hser on hn hon hapart
  constructor
  · intro v hv
    change v < n.nn at hv
    rw [readBack_dead n m hv]
    by_cases hsec : ∃ r ∈ on, sector v = sector r.1.node
    · obtain ⟨r, hr, hv'⟩ := hsec
      obtain ⟨-, hnr, -⟩ := (hon r hr).fire (g := g) hser hn
      rw [dead_of_live (n := (netInteract g n r.1 r.2).2) (hnn'.trans hnr.symm) ((hsame r hr).live v hv')
          (hnr.symm ▸ hv),
        ← (hagree r hr).dead v hv, hin r hr (.dead v) hv']
      exact (readBack_dead n _ hv).symm
    · have hno : ∀ r ∈ on, sector v ≠ sector r.1.node := fun r hr h => hsec ⟨r, hr, h⟩
      rw [dead_of_live hnn' (hrest.live v hno) hv, hout (.dead v) fun r hr h => hno r hr h]
      change ((upload n).deads.get v != 0) = _
      rw [(shows_upload n).deads v hv]
      cases n.dead.get v <;> rfl
  · intro p hp
    have hlt : p.node < n.nn := hnn' ▸ Net.live_lt hp
    rw [readBack_wire n m hlt]
    by_cases hsec : ∃ r ∈ on, sector p.node = sector r.1.node
    · obtain ⟨r, hr, hv⟩ := hsec
      have hlive := ((hsame r hr).live p.node hv).mp hp
      have hwire : (hostFold g n on).wireAt p = (netInteract g n r.1 r.2).2.wireAt p := (hsame r hr).wire p hv hp
      rw [hwire, ← (hagree r hr).wire p hlive, hin r hr _ (slot_sector hv p.port.isLt)]
      exact (readBack_wire n _ hlt).symm
    · have hno : ∀ r ∈ on, sector p.node ≠ sector r.1.node := fun r hr h => hsec ⟨r, hr, h⟩
      have hlive := (hrest.live p.node hno).mp hp
      have hwire : (hostFold g n on).wireAt p = n.wireAt p := hrest.wire p hno hp
      have hword : m (.wire (p.node * 3 + p.port)) = packPort (n.wireAt p) :=
        (hout _ fun r hr h => hno r hr ((mem_sectorCells p.port.isLt).mp h)).trans ((shows_upload n).wires p hlt)
      rw [hwire, hword]
      exact unpackPort_packPort _ fun q hq => (Net.live_lt (hn.wired p q hlive hq).1).trans_le hnn

lemma invocations_prog (n : Net) (on : List (Port × Port)) (i : Fin on.length) :
    (invocations n on).1 i = Kernel.main (packPort (some on[i].1)) (packPort (some on[i].2)) := rfl

lemma serial_invocations (n : Net) (on : List (Port × Port)) (l : List (Fin on.length)) (d : Device) :
    Interleave.serial (invocations n on).1 l d.mem =
      ((l.map fun i => on[i]).foldl (fun d r => d.main (packPort (some r.1)) (packPort (some r.2))) d).mem := by
  induction l generalizing d with
  | nil => rfl
  | cons i l ih =>
    rw [List.map_cons, List.foldl_cons, ← ih, Interleave.serial_cons, invocations_prog, run_main]

/-- Any interleaving of invocations in sectors of their own. -/
lemma invocations_run (hser : g.inParallel = false) (hn : Sound n) (hnn : n.nn ≤ nodeMask)
    (hon : ∀ r ∈ on, Sectored n r) (hapart : on.Pairwise fun r r' => sector r.1.node ≠ sector r'.1.node)
    (hagree : ∀ r ∈ on, KernelAgrees g n r.1 r.2) {k : ℕ} {c : Interleave.Config (Fin on.length) BufferEntry ℕ}
    (hrun : Lambda.InSteps Interleave.Step (invocations n on) k c) :
    k ≤ on.length * 16 ∧ (Interleave.Finished c →
      c.2 = (on.foldl (fun d r => d.main (packPort (some r.1)) (packPort (some r.2))) (upload n)).mem ∧
        ReadsLike (readBack n c.2) (hostFold g n on)) := by
  have hp := partitioned_slice hapart
  have hwithin : ∀ i : Fin on.length, ((invocations n on).1 i).Within (sectorCells (sector on[i].1.node)) readOnly
      (invocations n on).2 := fun i => within_main ((hon _ (List.getElem_mem i.isLt)).auxStay hn.wired hnn)
  refine ⟨?_, fun hf => ⟨?_, ?_⟩⟩
  · have hle := Interleave.length_le (fun i => short_main ..) hrun
    rwa [Fintype.card_fin] at hle
  · have hserial := Interleave.finished_eq_serial hp hwithin (List.nodup_finRange on.length) List.mem_finRange hrun hf
    rw [hserial]
    refine (serial_invocations n on _ (upload n)).trans ?_
    rw [show (List.finRange on.length).map (fun i => on[i]) = on from List.map_get_finRange on]
  · obtain ⟨hin, hout⟩ := ((Interleave.Underway.refl hwithin).run hp hrun).finished hf
    refine readsAs_hostFold hser hn hnn hon hapart hagree (fun r hr a ha => ?_) fun a ha => ?_
    · obtain ⟨i, hi, rfl⟩ := List.getElem_of_mem hr
      exact (hin ⟨i, hi⟩ a ha).trans (congrFun (run_main ..) a)
    · exact hout a fun i => ha _ (List.getElem_mem i.isLt)

end Slice

end LinEngine
