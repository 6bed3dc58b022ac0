import LinEngine.ActQueue
import LinEngine.Reduce
import LinEngine.Stamps

/-!
# The demand walk

`net_mark_demand` emits exactly the queued pairs whose two ends are on demand paths. The paths
are a property of the net alone; the marks of the walk are shared between the roots, and the
visits are recorded for every port.
-/
namespace LinEngine

open Stamps

/-! ## Demand paths -/

/-- Where a demand path goes on from `p`. -/
def demandNext (n : Net) (p : Port) : Option Port :=
  let t := n.tag.get p.node
  if !n.live p.node then none
  else if t = .root then n.wireAt p
  else if t = .era ∨ t = .lam ∧ p.port ≠ 0 then none
  else if p.port ≠ 0 then n.wireAt ⟨p.node, 0⟩
  else none

/-- A path ends at the principal port `p`, and faces the principal port of `v` with which it is a redex. -/
def FacesAt (n : Net) (p : Port) (v : ℕ) : Prop :=
  n.live p.node = true ∧ n.tag.get p.node ≠ .root ∧ n.tag.get p.node ≠ .era ∧ p.port = 0 ∧
    ∃ q, n.wireAt p = some q ∧ q.node = v ∧ q.port = 0 ∧ n.live v = true ∧ facesRedex (n.tag.get p.node) (n.tag.get v) = true

/-- A port on the demand path of ROOT or of a demand root. -/
inductive DemandPath (n : Net) : Port → Prop
  | root {p : Port} : p ∈ ⟨0, 0⟩ :: n.root → DemandPath n p
  | next {p q : Port} : DemandPath n p → demandNext n p = some q → DemandPath n q

/-- A node that a demand path comes to, or faces at its end. -/
def OnDemandPath (n : Net) (v : ℕ) : Prop :=
  ∃ p, DemandPath n p ∧ (p.node = v ∧ n.live v = true ∨ FacesAt n p v)

/-! ## The walk as a loop -/

/-- The net, and what has been emitted. -/
abbrev Emitting := Net × List (Port × Port)

/-- A port that the walk has been to. -/
def Visited (n : Net) (p : Port) : Prop :=
  n.dem.get p.node = n.demStamp ∧ (n.vport.get p.node).testBit p.port = true

instance (n : Net) (p : Port) : Decidable (Visited n p) := inferInstanceAs (Decidable (_ ∧ _))

/-- The loop body of a walk: the port that it goes on to, if it does. -/
def demandStep (g : Globals) (p : Port) (s : Emitting) : Option Port × Emitting :=
  if !s.1.live p.node then (none, s)
  else if Visited s.1 p then (none, s)
  else
    let s := demVisit g p s
    let t := s.1.tag.get p.node
    if t = .root then (s.1.wireAt p, s)
    else if t = .era ∨ t = .lam ∧ p.port ≠ 0 then (none, s)
    else if p.port ≠ 0 then (s.1.wireAt ⟨p.node, 0⟩, s)
    else
      match s.1.wireAt p with
      | none => (none, s)
      | some q =>
        if q.port = 0 ∧ s.1.live q.node = true ∧ facesRedex t (s.1.tag.get q.node) = true then (none, demFacing g q s)
        else (none, s)

/-- The loop at `p` ends after some number of steps. -/
inductive WalkEnds (g : Globals) : Option Port → Emitting → Emitting → Prop
  | off (s : Emitting) : WalkEnds g none s s
  | step {p : Port} {s s' : Emitting} : WalkEnds g (demandStep g p s).1 (demandStep g p s).2 s' → WalkEnds g (some p) s s'

/-- One loop for every root. -/
inductive WalksEnd (g : Globals) : List Port → Emitting → Emitting → Prop
  | nil (s : Emitting) : WalksEnd g [] s s
  | cons {p : Port} {ps : List Port} {s s' s'' : Emitting} :
      WalkEnds g (some p) s s' → WalksEnd g ps s' s'' → WalksEnd g (p :: ps) s s''

lemma demandWalk_none (g : Globals) (fuel : ℕ) (s : Emitting) : demandWalk g fuel none s = s := by
  cases fuel <;> rfl

lemma demandWalk_succ (g : Globals) (fuel : ℕ) (p : Port) (s : Emitting) :
    demandWalk g (fuel + 1) (some p) s = demandWalk g fuel (demandStep g p s).1 (demandStep g p s).2 := by
  have hvisit : demVisit g p s = if s.1.dem.get p.node = s.1.demStamp then
      ({ s.1 with vport := s.1.vport.set p.node (s.1.vport.get p.node ||| 2 ^ (p.port : ℕ)) }, s.2)
    else
      demPut g ({ s.1 with dem := s.1.dem.set p.node s.1.demStamp, vport := s.1.vport.set p.node (2 ^ (p.port : ℕ)) }, s.2)
        p.node := rfl
  rw [demandWalk, demandStep]
  dsimp only
  rw [← hvisit]
  generalize demVisit g p s = s'
  by_cases hv : Visited s.1 p
  · have hraw : s.1.dem.get p.node = s.1.demStamp ∧ (s.1.vport.get p.node).testBit p.port = true := hv
    rw [if_pos hraw, if_pos hv, ite_self, ite_self, demandWalk_none]
  · have hraw : ¬ (s.1.dem.get p.node = s.1.demStamp ∧ (s.1.vport.get p.node).testBit p.port = true) := hv
    rw [if_neg hraw, if_neg hv]
    split_ifs with h1 h2 h3 h4
    · rw [demandWalk_none]
    · rfl
    · rw [demandWalk_none]
    · rfl
    · cases s'.1.wireAt p with
      | none => exact (demandWalk_none g fuel s').symm
      | some q =>
        dsimp only
        by_cases hface : q.port = 0 ∧ s'.1.live q.node = true ∧ facesRedex (s'.1.tag.get p.node) (s'.1.tag.get q.node) = true
        · rw [if_pos hface, if_pos hface, demandWalk_none]
          rfl
        · rw [if_neg hface, if_neg hface, demandWalk_none]

/-! ## What one step does -/

lemma Marked.live {n m : Net} (h : Marked n m) (v : ℕ) : m.live v = n.live v := by
  rw [Net.live, Net.live, Net.inNet, Net.inNet, h.graph.nn, h.graph.dead]

lemma Marked.wireAt {n m : Net} (h : Marked n m) (p : Port) : m.wireAt p = n.wireAt p := by
  rw [Net.wireAt, Net.wireAt, h.graph.wire]

lemma demandNext_live {n : Net} {p q : Port} (h : demandNext n p = some q) : n.live p.node = true := by
  by_contra hl
  rw [Bool.not_eq_true] at hl
  simp [demandNext, hl] at h

/-- A walk does nothing at a port where it has been, marks a port and goes on, or marks the redex at its end. -/
lemma demandStep_cases (g : Globals) (p : Port) (s : Emitting) :
    ((s.1.live p.node = false ∨ Visited s.1 p) ∧ demandStep g p s = (none, s)) ∨
    (s.1.live p.node = true ∧ ¬ Visited s.1 p ∧ (∀ v, ¬ FacesAt s.1 p v) ∧
      demandStep g p s = (demandNext s.1 p, demVisit g p s)) ∨
    ∃ q, ¬ Visited s.1 p ∧ FacesAt s.1 p q.node ∧ (∀ v, FacesAt s.1 p v → v = q.node) ∧ demandNext s.1 p = none ∧
      demandStep g p s = (none, demFacing g q (demVisit g p s)) := by
  have hmark := demVisit_marked g p s
  unfold demandStep demandNext
  dsimp only
  rw [hmark.graph.tag, hmark.wireAt, hmark.wireAt]
  by_cases hl : s.1.live p.node = true
  · by_cases hv : Visited s.1 p
    · exact .inl ⟨.inr hv, by simp [hl, hv]⟩
    · right
      simp only [hl, Bool.not_true, Bool.false_eq_true, if_false, true_and, hv, not_false_eq_true]
      by_cases hroot : s.1.tag.get p.node = .root
      · exact .inl ⟨fun v hf => hf.2.1 hroot, by simp [hroot]⟩
      · by_cases hstop : s.1.tag.get p.node = .era ∨ s.1.tag.get p.node = .lam ∧ p.port ≠ 0
        · refine .inl ⟨fun v hf => ?_, by simp only [if_neg hroot, if_pos hstop]⟩
          exact hstop.elim hf.2.2.1 fun h => h.2 hf.2.2.2.1
        · by_cases haux : p.port ≠ 0
          · exact .inl ⟨fun v hf => haux hf.2.2.2.1, by simp only [if_neg hroot, if_neg hstop, if_pos haux]⟩
          · simp only [if_neg hroot, if_neg hstop, if_neg haux]
            rw [not_not] at haux
            cases hw : s.1.wireAt p with
            | none =>
              refine .inl ⟨fun v hf => ?_, rfl⟩
              obtain ⟨q, hq, -⟩ := hf.2.2.2.2
              exact absurd (hq.symm.trans hw) (Option.some_ne_none q)
            | some q =>
              dsimp only
              rw [hmark.live]
              by_cases hface : q.port = 0 ∧ s.1.live q.node = true ∧
                  facesRedex (s.1.tag.get p.node) (s.1.tag.get q.node) = true
              · rw [if_pos hface]
                refine .inr ⟨q, ⟨hl, hroot, fun h => hstop (.inl h), haux, q, hw, rfl, hface⟩, fun v hf => ?_, trivial, rfl⟩
                obtain ⟨q', hq', rfl, -⟩ := hf.2.2.2.2
                rw [hw] at hq'
                rw [Option.some.inj hq']
              · rw [if_neg hface]
                refine .inl ⟨fun v hf => hface ?_, rfl⟩
                obtain ⟨q', hq', rfl, hrest⟩ := hf.2.2.2.2
                rw [hw] at hq'
                exact Option.some.inj hq' ▸ hrest
  · rw [Bool.not_eq_true] at hl
    exact .inl ⟨.inl hl, by simp [hl]⟩

/-- A node that is marked in this round. -/
def Net.Demanded (n : Net) (v : ℕ) : Prop := n.dem.get v = n.demStamp

instance (n : Net) (v : ℕ) : Decidable (n.Demanded v) := inferInstanceAs (Decidable (_ = _))

/-- Both ends of a pair are marked. -/
def BothDemanded (n : Net) (a : Port × Port) : Prop := n.Demanded a.1.node ∧ n.Demanded a.2.node

/-- What has been emitted is what was queued in `n` and has both ends marked by now. -/
structure Drained (n : Net) (s : Emitting) : Prop where
  queued : Queued s.1
  perm : (s.2 ++ s.1.queue).Perm n.queue
  out : ∀ a ∈ s.2, BothDemanded s.1 a
  rest : ∀ a ∈ s.1.queue, ¬ BothDemanded s.1 a

section Put

variable {g : Globals} {n : Net} {s : Emitting}

lemma actDrop_marks (g : Globals) (n : Net) (v : ℕ) :
    (actDrop g n v).dem = n.dem ∧ (actDrop g n v).demStamp = n.demStamp ∧ (actDrop g n v).vport = n.vport := by
  unfold actDrop
  split
  · exact ⟨rfl, rfl, rfl⟩
  · extract_lets p actOf last act
    split_ifs <;> exact ⟨rfl, rfl, rfl⟩

lemma demPut_marks (g : Globals) (s : Emitting) (v : ℕ) : (demPut g s v).1.dem = s.1.dem ∧
    (demPut g s v).1.demStamp = s.1.demStamp ∧ (demPut g s v).1.vport = s.1.vport := by
  unfold demPut
  split
  · exact ⟨rfl, rfl, rfl⟩
  · extract_lets other
    split_ifs
    · exact ⟨rfl, rfl, rfl⟩
    · exact actDrop_marks g s.1 v

/-- The end of the pair at `i` that is not `v`. -/
def otherEnd (n : Net) (i v : ℕ) : Port := if (n.act.get i).node = v then n.act.get (i + 1) else n.act.get i

/-- A queued node is one end of the pair that its index names, and the other end is another node. -/
structure Paired (n : Net) (i v k : ℕ) (a : Port × Port) : Prop where
  entry : n.queue[k]? = some a
  eq : a = (n.act.get i, n.act.get (i + 1))
  self : Touches a v
  other : Touches a (otherEnd n i v).node
  ne : (otherEnd n i v).node ≠ v
  only : ∀ w, Touches a w → w ≠ v → w = (otherEnd n i v).node

lemma Queued.paired {m : Net} (hq : Queued m) {v i : ℕ} (hof : m.actOf.get v = some i) : ∃ k a, Paired m i v k a := by
  obtain ⟨k, rfl, a, ha, hav⟩ := (hq.index v i).mp hof
  have hak : a = (m.act.get (2 * k), m.act.get (2 * k + 1)) := (pairsOf_getElem?.mp ha).2
  have hapart := hq.apart a (List.mem_of_getElem? ha)
  rw [hak] at hapart
  have hav' := hav
  rw [hak] at hav'
  by_cases h1 : (m.act.get (2 * k)).node = v
  · have hother : otherEnd m (2 * k) v = m.act.get (2 * k + 1) := if_pos h1
    refine ⟨k, a, ha, hak, hav, ?_, ?_, fun w hw hne => ?_⟩
    · rw [hother, hak]
      exact .inr rfl
    · rw [hother]
      exact fun h => hapart (h1.trans h.symm)
    · rw [hak] at hw
      rw [hother]
      exact (hw.resolve_left fun h => hne (h.symm.trans h1)).symm
  · have hother : otherEnd m (2 * k) v = m.act.get (2 * k) := if_neg h1
    have h2 := hav'.resolve_left h1
    refine ⟨k, a, ha, hak, hav, ?_, ?_, fun w hw hne => ?_⟩
    · rw [hother, hak]
      exact .inl rfl
    · rwa [hother]
    · rw [hak] at hw
      rw [hother]
      exact (hw.resolve_right fun h => hne (h.symm.trans h2)).symm

/-- The pair of `v` is emitted when its other end is marked. -/
lemma demPut_cases (hq : Queued s.1) (g : Globals) (v : ℕ) :
    ((∀ a ∈ s.1.queue, Touches a v → ∃ w, Touches a w ∧ w ≠ v ∧ ¬ s.1.Demanded w) ∧ demPut g s v = s) ∨
    ∃ (k : ℕ) (a : Port × Port), s.1.queue[k]? = some a ∧ Touches a v ∧ (∀ w, Touches a w → w ≠ v → s.1.Demanded w) ∧
      demPut g s v = (actDrop g s.1 v, s.2 ++ [a]) := by
  cases hof : s.1.actOf.get v with
  | none =>
    refine .inl ⟨fun a ha hav => absurd hav ((hq.none_iff v).mp hof a ha), ?_⟩
    simp only [demPut, hof]
  | some i =>
    obtain ⟨k, a, hp⟩ := hq.paired hof
    by_cases hd : s.1.dem.get (otherEnd s.1 i v).node = s.1.demStamp
    · refine .inr ⟨k, a, hp.entry, hp.self, fun w hw hne => ?_, ?_⟩
      · rw [hp.only w hw hne]
        exact hd
      · rw [otherEnd] at hd
        simp only [demPut, hof, hd, not_true_eq_false, if_false, ne_eq, hp.eq]
    · refine .inl ⟨fun b hb hbv => ?_, ?_⟩
      · obtain ⟨j, hj⟩ := List.mem_iff_getElem?.mp hb
        obtain rfl := hq.unique ⟨b, hj, hbv⟩ ⟨a, hp.entry, hp.self⟩
        rw [hp.entry] at hj
        exact Option.some.inj hj ▸ ⟨_, hp.other, hp.ne, hd⟩
      · rw [otherEnd] at hd
        simp only [demPut, hof, ne_eq, hd, not_false_eq_true, if_true]

lemma actDrop_dem (g : Globals) (n : Net) (v : ℕ) (d : Table ℕ 0) :
    actDrop g { n with dem := d } v = { actDrop g n v with dem := d } := by
  unfold actDrop
  dsimp only
  cases n.actOf.get v with
  | none => rfl
  | some i =>
    dsimp only
    split_ifs <;> rfl

/-- Whether `v` itself is marked before or after makes no difference. -/
lemma demPut_mark (hq : Queued s.1) (g : Globals) (v x : ℕ) :
    demPut g ({ s.1 with dem := s.1.dem.set v x }, s.2) v =
      ({ (demPut g s v).1 with dem := s.1.dem.set v x }, (demPut g s v).2) := by
  cases hof : s.1.actOf.get v with
  | none => simp only [demPut, hof]
  | some i =>
    obtain ⟨k, a, hp⟩ := hq.paired hof
    have hne := hp.ne.symm
    rw [otherEnd] at hne
    simp only [demPut, hof, Table.get_set_ne _ hne, actDrop_dem]
    by_cases hd : s.1.dem.get (if (s.1.act.get i).node = v then s.1.act.get (i + 1) else s.1.act.get i).node ≠ s.1.demStamp
    · rw [if_pos hd, if_pos hd]
    · rw [if_neg hd, if_neg hd]

lemma demFacing_eq (hq : Queued s.1) (g : Globals) {q : Port} (hd : ¬ s.1.Demanded q.node) :
    demFacing g q s = demPut g ({ s.1 with dem := s.1.dem.set q.node s.1.demStamp, vport := s.1.vport.set q.node 0 }, s.2) q.node := by
  have hq' : Queued { s.1 with vport := s.1.vport.set q.node 0 } := hq.congr rfl rfl rfl
  obtain ⟨hdem, hstamp, -⟩ := demPut_marks g ({ s.1 with vport := s.1.vport.set q.node 0 }, s.2) q.node
  refine Eq.trans ?_ (demPut_mark (s := ({ s.1 with vport := s.1.vport.set q.node 0 }, s.2)) hq' g q.node s.1.demStamp).symm
  rw [Net.Demanded] at hd
  rw [demFacing, if_neg hd]
  dsimp only
  rw [hdem, hstamp]

lemma port_eq_iff {p q : Port} (h : p.node = q.node) : q = p ↔ (p.port : ℕ) = q.port := by
  refine ⟨fun he => he ▸ rfl, fun he => ?_⟩
  obtain ⟨u, i⟩ := p
  obtain ⟨v, j⟩ := q
  obtain rfl : u = v := h
  obtain rfl : i = j := Fin.ext he
  rfl

lemma demanded_set (m : Net) (v : ℕ) (x : Table ℕ 0) (w : ℕ) :
    Net.Demanded { m with dem := m.dem.set v m.demStamp, vport := x } w ↔ w = v ∨ m.Demanded w := by
  rw [Net.Demanded, Net.Demanded, Table.get_set]
  split_ifs with hw
  · exact ⟨fun _ => .inl hw.symm, fun _ => rfl⟩
  · exact ⟨.inr, fun h => h.resolve_left fun hwv => hw hwv.symm⟩

/-- To mark `v` and look at its pair keeps what is emitted and what is queued apart. -/
lemma Drained.put (h : Drained n s) (hg : g.inParallel = false) (v : ℕ) (x : Table ℕ 0) :
    Drained n (demPut g ({ s.1 with dem := s.1.dem.set v s.1.demStamp, vport := x }, s.2) v) := by
  set m : Net := { s.1 with dem := s.1.dem.set v s.1.demStamp, vport := x } with hm
  have hq : Queued m := h.queued.congr rfl rfl rfl
  have hqueue : m.queue = s.1.queue := rfl
  have hmark : ∀ w, m.Demanded w ↔ w = v ∨ s.1.Demanded w := demanded_set s.1 v x
  have hout : ∀ a ∈ s.2, BothDemanded m a := fun a ha =>
    ⟨(hmark _).mpr (.inr (h.out a ha).1), (hmark _).mpr (.inr (h.out a ha).2)⟩
  have hfar : ∀ a ∈ s.1.queue, ¬ Touches a v → ¬ BothDemanded m a := fun a ha hav hb =>
    h.rest a ha ⟨((hmark _).mp hb.1).resolve_left fun h1 => hav (.inl h1),
      ((hmark _).mp hb.2).resolve_left fun h2 => hav (.inr h2)⟩
  rcases demPut_cases (s := (m, s.2)) hq g v with ⟨hno, hput⟩ | ⟨k, a, ha, hav, hother, hput⟩
  · rw [hput]
    refine ⟨hq, h.perm, hout, fun a ha => ?_⟩
    by_cases hav : Touches a v
    · obtain ⟨w, hw, -, hnot⟩ := hno a ha hav
      rintro ⟨h1, h2⟩
      rcases hw with rfl | rfl
      · exact hnot h1
      · exact hnot h2
    · exact hfar a ha hav
  · obtain ⟨hdrop, hperm, hgone⟩ := hq.actDrop hg ha hav
    obtain ⟨hdem, hstamp, -⟩ := actDrop_marks g m v
    have hsame : ∀ b, BothDemanded (actDrop g m v) b ↔ BothDemanded m b := by
      intro b
      rw [BothDemanded, BothDemanded, Net.Demanded, Net.Demanded, hdem, hstamp]
      rfl
    rw [hput]
    refine ⟨hdrop, ?_, fun b hb => (hsame b).mpr ?_, fun b hb hboth => ?_⟩
    · rw [List.append_assoc, List.singleton_append]
      exact (hperm.append_left s.2).trans h.perm
    · rcases List.mem_append.mp hb with hb | hb
      · exact hout b hb
      · rw [List.mem_singleton.mp hb]
        have hend : ∀ w, Touches a w → m.Demanded w := fun w hw => by
          by_cases hwv : w = v
          · exact (hmark w).mpr (.inl hwv)
          · exact hother w hw hwv
        exact ⟨hend _ (.inl rfl), hend _ (.inr rfl)⟩
    · exact hfar b (hqueue ▸ hperm.subset (List.mem_cons_of_mem a hb)) (hgone b hb) ((hsame b).mp hboth)

/-- Only marks that read the same have changed. -/
lemma Drained.remark (h : Drained n s) {m : Net} (hact : m.act = s.1.act) (htop : m.atop = s.1.atop)
    (hof : m.actOf = s.1.actOf) (hmark : ∀ w, m.Demanded w ↔ s.1.Demanded w) : Drained n (m, s.2) := by
  have hqueue : m.queue = s.1.queue := by rw [Net.queue, Net.queue, hact, htop]
  have hboth : ∀ a, BothDemanded m a ↔ BothDemanded s.1 a := fun a => and_congr (hmark _) (hmark _)
  refine ⟨h.queued.congr hact htop hof, ?_, fun a ha => (hboth a).mpr (h.out a ha), fun a ha => ?_⟩
  · rw [hqueue]
    exact h.perm
  · rw [hqueue] at ha
    exact (hboth a).not.mpr (h.rest a ha)

/-- What a step does to the marks: node `v` is marked, and a port of it may be visited. -/
structure Marking (n : Net) (s s' : Emitting) (v : ℕ) (visit : Port → Prop) : Prop where
  drained : Drained n s'
  marked : Marked s.1 s'.1
  stamp : s'.1.demStamp = s.1.demStamp
  demanded : ∀ w, s'.1.Demanded w ↔ w = v ∨ s.1.Demanded w
  visited : ∀ p, Visited s'.1 p ↔ visit p ∨ Visited s.1 p
  past : Past 32 s.1.dem.get s.1.demStamp → Past 32 s'.1.dem.get s'.1.demStamp

lemma past_set {m : Net} (h : Past 32 m.dem.get m.demStamp) (v : ℕ) :
    Past 32 (m.dem.set v m.demStamp).get m.demStamp := by
  refine h.update fun w => ?_
  rw [Table.get_set]
  split_ifs
  · exact le_rfl
  · exact h.le w

lemma demVisit_marking (h : Drained n s) (hg : g.inParallel = false) (p : Port) :
    Marking n s (demVisit g p s) p.node (· = p) := by
  have hmarked := demVisit_marked g p s
  unfold demVisit at hmarked ⊢
  split_ifs at hmarked ⊢ with hd
  · refine ⟨h.remark rfl rfl rfl fun w => .rfl, hmarked, rfl, fun w => ?_, fun q => ?_, id⟩
    · refine ⟨.inr, ?_⟩
      rintro (rfl | hw)
      · exact hd
      · exact hw
    · rw [Visited, Visited]
      dsimp only
      rw [Table.get_set]
      split_ifs with hpq
      · rw [Nat.testBit_or, Nat.testBit_two_pow, Bool.or_eq_true, decide_eq_true_eq, ← hpq, port_eq_iff hpq]
        tauto
      · have hne : q ≠ p := fun h => hpq (h ▸ rfl)
        simp [hne]
  · obtain ⟨hdem, hstamp, hvport⟩ :=
      demPut_marks g ({ s.1 with dem := s.1.dem.set p.node s.1.demStamp, vport := s.1.vport.set p.node (2 ^ (p.port : ℕ)) }, s.2)
        p.node
    refine ⟨h.put hg _ _, hmarked, hstamp, fun w => ?_, fun q => ?_, fun hpast => ?_⟩
    · rw [Net.Demanded, hdem, hstamp]
      exact demanded_set s.1 p.node (s.1.vport.set p.node (2 ^ (p.port : ℕ))) w
    · rw [Visited, Visited, hdem, hstamp, hvport]
      dsimp only
      rw [Table.get_set, Table.get_set]
      split_ifs with hpq
      · rw [Nat.testBit_two_pow, decide_eq_true_eq, port_eq_iff hpq, ← hpq]
        tauto
      · have hne : q ≠ p := fun h => hpq (h ▸ rfl)
        simp [hne]
    · rw [hdem, hstamp]
      exact past_set hpast p.node

lemma demFacing_marking (h : Drained n s) (hg : g.inParallel = false) (q : Port) :
    Marking n s (demFacing g q s) q.node (fun _ => False) := by
  have hmarked := demFacing_marked g q s
  by_cases hd : s.1.Demanded q.node
  · have hset : ∀ w, (s.1.dem.set q.node s.1.demStamp).get w = s.1.dem.get w := by
      intro w
      rw [Table.get_set]
      split_ifs with hw
      · rw [← hw, hd]
      · rfl
    have hd' : s.1.dem.get q.node = s.1.demStamp := hd
    rw [demFacing, if_pos hd'] at hmarked ⊢
    refine ⟨h.remark rfl rfl rfl fun w => ?_, hmarked, rfl, fun w => ?_, fun p => ?_, fun hpast => past_set hpast q.node⟩
    · rw [Net.Demanded, hset]
      rfl
    · exact demanded_set s.1 q.node s.1.vport w
    · rw [Visited, hset, false_or]
      rfl
  · rw [demFacing_eq h.queued g hd] at hmarked ⊢
    obtain ⟨hdem, hstamp, hvport⟩ :=
      demPut_marks g ({ s.1 with dem := s.1.dem.set q.node s.1.demStamp, vport := s.1.vport.set q.node 0 }, s.2) q.node
    refine ⟨h.put hg _ _, hmarked, hstamp, fun w => ?_, fun p => ?_, fun hpast => ?_⟩
    · rw [Net.Demanded, hdem, hstamp]
      exact demanded_set s.1 q.node (s.1.vport.set q.node 0) w
    · rw [Visited, Visited, hdem, hstamp, hvport, false_or]
      dsimp only
      rw [Table.get_set, Table.get_set]
      split_ifs with hpq
      · rw [Net.Demanded, hpq] at hd
        simp [hd]
      · rfl
    · rw [hdem, hstamp]
      exact past_set hpast q.node

end Put

/-! ## The run of the walk -/

/-- In the middle of a walk that is at `cur`: what is marked or visited is on demand paths, and
the way on from a port that was visited has been visited too, unless the walk is there now. -/
structure Demanding (n : Net) (s : Emitting) (cur : Option Port) : Prop where
  same : Marked n s.1
  drained : Drained n s
  past : Past 32 s.1.dem.get s.1.demStamp
  sound : ∀ v, s.1.Demanded v → OnDemandPath n v
  path : ∀ p, Visited s.1 p → DemandPath n p
  next : ∀ p q, Visited s.1 p → demandNext n p = some q → n.live q.node = true → Visited s.1 q ∨ cur = some q
  facing : ∀ p v, Visited s.1 p → FacesAt n p v → s.1.Demanded v
  cur : ∀ p, cur = some p → DemandPath n p

lemma Marked.faces {n m : Net} (h : Marked n m) (p : Port) (v : ℕ) : FacesAt m p v ↔ FacesAt n p v := by
  simp only [FacesAt, h.live, h.wireAt, h.graph.tag]

lemma Marked.demandNext {n m : Net} (h : Marked n m) (p : Port) : demandNext m p = demandNext n p := by
  simp only [LinEngine.demandNext, h.live, h.wireAt, h.graph.tag]

section Walk

variable {g : Globals} {n : Net} {s s' : Emitting} {p : Port}

/-- A walk that marks its port goes on from there. -/
lemma Demanding.goes (h : Demanding n s (some p)) (hl : n.live p.node = true) (hno : ∀ v, ¬ FacesAt n p v)
    (hm : Marking n s s' p.node (· = p)) : Demanding n s' (demandNext n p) where
  same := h.same.trans hm.marked
  drained := hm.drained
  past := hm.past h.past
  sound v hv := by
    rcases (hm.demanded v).mp hv with rfl | hv
    · exact ⟨p, h.cur p rfl, .inl ⟨rfl, hl⟩⟩
    · exact h.sound v hv
  path r hr := by
    rcases (hm.visited r).mp hr with rfl | hr
    · exact h.cur r rfl
    · exact h.path r hr
  next r q hr hq hlive := by
    rcases (hm.visited r).mp hr with rfl | hr
    · exact .inr hq
    · rcases h.next r q hr hq hlive with hv | hcur
      · exact .inl ((hm.visited q).mpr (.inr hv))
      · exact .inl ((hm.visited q).mpr (.inl (Option.some.inj hcur).symm))
  facing r v hr hf := by
    rcases (hm.visited r).mp hr with rfl | hr
    · exact absurd hf (hno v)
    · exact (hm.demanded v).mpr (.inr (h.facing r v hr hf))
  cur q hq := .next (h.cur p rfl) hq

/-- At the end of a path the redex is marked. -/
lemma Demanding.faces (h : Demanding n s (some p)) {q : Port} (hf : FacesAt n p q.node) (honly : ∀ v, FacesAt n p v → v = q.node)
    (hnext : demandNext n p = none) {s'' : Emitting} (hm : Marking n s s' p.node (· = p))
    (hm' : Marking n s' s'' q.node fun _ => False) : Demanding n s'' none where
  same := (h.same.trans hm.marked).trans hm'.marked
  drained := hm'.drained
  past := hm'.past (hm.past h.past)
  sound v hv := by
    rcases (hm'.demanded v).mp hv with rfl | hv
    · exact ⟨p, h.cur p rfl, .inr hf⟩
    · rcases (hm.demanded v).mp hv with rfl | hv
      · exact ⟨p, h.cur p rfl, .inl ⟨rfl, hf.1⟩⟩
      · exact h.sound v hv
  path r hr := by
    rcases (hm.visited r).mp (((hm'.visited r).mp hr).resolve_left id) with rfl | hr
    · exact h.cur r rfl
    · exact h.path r hr
  next r x hr hx hlive := by
    rcases (hm.visited r).mp (((hm'.visited r).mp hr).resolve_left id) with rfl | hr
    · rw [hnext] at hx
      exact absurd hx.symm (Option.some_ne_none x)
    · refine .inl ((hm'.visited x).mpr (.inr ((hm.visited x).mpr ?_)))
      exact (h.next r x hr hx hlive).symm.imp (fun hcur => (Option.some.inj hcur).symm) id
  facing r v hr hv := by
    rcases (hm.visited r).mp (((hm'.visited r).mp hr).resolve_left id) with rfl | hr
    · exact (hm'.demanded v).mpr (.inl (honly v hv))
    · exact (hm'.demanded v).mpr (.inr ((hm.demanded v).mpr (.inr (h.facing r v hr hv))))
  cur x hx := absurd hx.symm (Option.some_ne_none x)

/-- The walk stops at a port where there is nothing to do. -/
lemma Demanding.stops (h : Demanding n s (some p)) (hstop : n.live p.node = false ∨ Visited s.1 p) : Demanding n s none :=
  { h with
    next := fun r q hr hq hlive => by
      rcases h.next r q hr hq hlive with hv | hcur
      · exact .inl hv
      · obtain rfl := Option.some.inj hcur
        exact .inl (hstop.resolve_left fun hdead => Bool.false_ne_true (hdead.symm.trans hlive))
    cur := fun x hx => absurd hx.symm (Option.some_ne_none x) }

/-- The visits only become more, and the walk has been at its port. -/
structure Forth (s s' : Emitting) (p : Port) : Prop where
  mono : ∀ r, Visited s.1 r → Visited s'.1 r
  here : s.1.live p.node = true → Visited s'.1 p

lemma Demanding.step (h : Demanding n s (some p)) (hg : g.inParallel = false) :
    Demanding n (demandStep g p s).2 (demandStep g p s).1 ∧ Forth s (demandStep g p s).2 p ∧
      ((demandStep g p s).1 = none ∨ s.1.live p.node = true ∧ ¬ Visited s.1 p) := by
  have hvisit := demVisit_marking h.drained hg p
  rcases demandStep_cases g p s with ⟨hstop, heq⟩ | ⟨hl, hv, hno, heq⟩ | ⟨q, hv, hf, honly, hnext, heq⟩
  · rw [heq]
    refine ⟨h.stops ?_, ⟨fun r hr => hr, fun hl => ?_⟩, .inl rfl⟩
    · rwa [← h.same.live]
    · exact hstop.resolve_left fun hdead => Bool.false_ne_true (hdead.symm.trans hl)
  · rw [heq]
    refine ⟨?_, ⟨fun r hr => (hvisit.visited r).mpr (.inr hr), fun _ => (hvisit.visited p).mpr (.inl rfl)⟩, .inr ⟨hl, hv⟩⟩
    rw [h.same.demandNext]
    exact h.goes (h.same.live p.node ▸ hl) (fun v hf => hno v ((h.same.faces p v).mpr hf)) hvisit
  · rw [heq]
    have hface := demFacing_marking hvisit.drained hg q
    refine ⟨?_, ⟨fun r hr => ?_, fun _ => ?_⟩, .inl rfl⟩
    · exact h.faces ((h.same.faces p _).mp hf) (fun v hf' => honly v ((h.same.faces p v).mpr hf'))
        (h.same.demandNext p ▸ hnext) hvisit hface
    · exact (hface.visited r).mpr (.inr ((hvisit.visited r).mpr (.inr hr)))
    · exact (hface.visited p).mpr (.inr ((hvisit.visited p).mpr (.inl rfl)))

/-- How many ports the walks have not been to. -/
def unvisited (n : Net) : ℕ :=
  ((Finset.range n.nn ×ˢ (Finset.univ : Finset (Fin 3))).filter fun x => ¬ Visited n ⟨x.1, x.2⟩).card

lemma unvisited_le (n : Net) : unvisited n ≤ 3 * n.nn := by
  refine (Finset.card_filter_le _ _).trans_eq ?_
  rw [Finset.card_product, Finset.card_range, Finset.card_univ, Fintype.card_fin, Nat.mul_comm]

lemma Forth.unvisited_lt (h : Forth s s' p) (hnn : s'.1.nn = s.1.nn) (hl : s.1.live p.node = true)
    (hv : ¬ Visited s.1 p) : unvisited s'.1 < unvisited s.1 := by
  have hin : p.node < s.1.nn := ((Net.live_iff p.node).mp hl).1
  rw [unvisited, unvisited, hnn]
  refine Finset.card_lt_card ((Finset.ssubset_iff_of_subset fun x hx => ?_).mpr ⟨(p.node, p.port), ?_, ?_⟩)
  · rw [Finset.mem_filter] at hx ⊢
    exact ⟨hx.1, fun hv => hx.2 (h.mono _ hv)⟩
  · rw [Finset.mem_filter, Finset.mem_product]
    exact ⟨⟨Finset.mem_range.mpr hin, Finset.mem_univ _⟩, hv⟩
  · rw [Finset.mem_filter]
    exact fun hx => hx.2 (h.here hl)

/-- What a walk has done when it has ended. -/
structure Completed (g : Globals) (n : Net) (cur : Option Port) (s s' : Emitting) : Prop where
  ends : WalkEnds g cur s s'
  walking : Demanding n s' none
  mono : ∀ r, Visited s.1 r → Visited s'.1 r
  here : ∀ p, cur = some p → n.live p.node = true → Visited s'.1 p

/-- Every step but the last visits a port for the first time, so the walk ends. -/
lemma Demanding.run (hg : g.inParallel = false) {cur : Option Port} (h : Demanding n s cur) {fuel : ℕ}
    (hfuel : cur = none ∨ unvisited s.1 < fuel) : Completed g n cur s (demandWalk g fuel cur s) := by
  induction fuel generalizing s cur with
  | zero =>
    obtain rfl := hfuel.resolve_right (Nat.not_lt_zero _)
    exact ⟨.off s, h, fun r hr => hr, fun p hp => absurd hp.symm (Option.some_ne_none p)⟩
  | succ fuel ih =>
    cases cur with
    | none =>
      rw [demandWalk_none]
      exact ⟨.off s, h, fun r hr => hr, fun p hp => absurd hp.symm (Option.some_ne_none p)⟩
    | some p =>
      obtain ⟨hwalk, hforth, hmove⟩ := h.step hg
      have hnn : (demandStep g p s).2.1.nn = s.1.nn := hwalk.same.graph.nn.trans h.same.graph.nn.symm
      have hrest := ih hwalk <| hmove.imp id fun ⟨hl, hv⟩ => by
        have hlt := hforth.unvisited_lt hnn hl hv
        have := hfuel.resolve_left (Option.some_ne_none p)
        omega
      rw [demandWalk_succ]
      refine ⟨.step hrest.ends, hrest.walking, fun r hr => hrest.mono r (hforth.mono r hr), fun q hq hl => ?_⟩
      obtain rfl := Option.some.inj hq
      exact hrest.mono p (hforth.here ((h.same.live p.node).trans hl))

/-- The walks from all roots, one after the other. -/
lemma Demanding.runAll (hg : g.inParallel = false) (h : Demanding n s none) {ps : List Port} (hps : ∀ p ∈ ps, DemandPath n p) :
    WalksEnd g ps s (ps.foldl (fun s p => demandWalk g (3 * n.nn + 1) (some p) s) s) ∧
      Demanding n (ps.foldl (fun s p => demandWalk g (3 * n.nn + 1) (some p) s) s) none ∧
      (∀ r, Visited s.1 r → Visited (ps.foldl (fun s p => demandWalk g (3 * n.nn + 1) (some p) s) s).1 r) ∧
      ∀ p ∈ ps, n.live p.node = true → Visited (ps.foldl (fun s p => demandWalk g (3 * n.nn + 1) (some p) s) s).1 p := by
  induction ps generalizing s with
  | nil => exact ⟨.nil s, h, fun r hr => hr, fun p hp => absurd hp List.not_mem_nil⟩
  | cons p ps ih =>
    have hstart : Demanding n s (some p) :=
      { h with
        next := fun r q hr hq hl => (h.next r q hr hq hl).imp id fun hn => absurd hn.symm (Option.some_ne_none q)
        cur := fun q hq => Option.some.inj hq ▸ hps p List.mem_cons_self }
    have hfuel : unvisited s.1 < 3 * n.nn + 1 := by
      have := unvisited_le s.1
      rw [h.same.graph.nn] at this
      omega
    have hone := hstart.run hg (.inr hfuel)
    obtain ⟨hends, hwalk, hmono, hall⟩ := ih hone.walking fun q hq => hps q (List.mem_cons_of_mem p hq)
    refine ⟨.cons hone.ends hends, hwalk, fun r hr => hmono r (hone.mono r hr), fun q hq hl => ?_⟩
    rcases List.mem_cons.mp hq with rfl | hq
    · exact hmono q (hone.here q rfl hl)
    · exact hall q hq hl

/-- When all roots have been walked from, what is on a demand path is marked. -/
lemma Demanding.complete (h : Demanding n s none) (hroots : ∀ p ∈ ⟨0, 0⟩ :: n.root, n.live p.node = true → Visited s.1 p) (v : ℕ) :
    s.1.Demanded v ↔ OnDemandPath n v := by
  have hpath : ∀ p, DemandPath n p → n.live p.node = true → Visited s.1 p := by
    intro p hp
    induction hp with
    | root hp => exact hroots _ hp
    | next hp hq ih =>
      intro hl
      exact (h.next _ _ (ih (demandNext_live hq)) hq hl).resolve_right (Option.some_ne_none _).symm
  refine ⟨h.sound v, ?_⟩
  rintro ⟨p, hp, ⟨rfl, hl⟩ | hf⟩
  · exact (hpath p hp hl).1
  · exact h.facing p v (hpath p hp hf.1) hf

end Walk

/-- A net at the start of a round: all marks are of rounds before. -/
lemma nextStamp_fresh {n : Net} (h : Past 32 n.dem.get n.demStamp) (v : ℕ) : ¬ (nextStamp n).Demanded v := by
  have hfresh := h.advance_fresh v
  unfold Stamps.advance at hfresh
  unfold nextStamp Net.Demanded
  dsimp only
  split_ifs at hfresh ⊢ with hwrap
  · rw [Table.get_empty]
    exact Nat.zero_ne_one
  · exact hfresh.ne

/-- What `net_mark_demand` leaves: the marks of this round are the demand paths, what was queued with
both ends on them has been emitted, and the rest is queued. -/
structure ExactDemand (n m : Net) (out : List (Port × Port)) : Prop where
  marks : ∀ v, m.Demanded v ↔ OnDemandPath n v
  once : out.Nodup
  out : ∀ a, a ∈ out ↔ a ∈ n.queue ∧ OnDemandPath n a.1.node ∧ OnDemandPath n a.2.node
  rest : ∀ a, a ∈ m.queue ↔ a ∈ n.queue ∧ ¬ (OnDemandPath n a.1.node ∧ OnDemandPath n a.2.node)
  queued : Queued m
  past : Past 32 m.dem.get m.demStamp

lemma Marked.demandPath {n m : Net} (h : Marked n m) {p : Port} (hp : DemandPath m p) : DemandPath n p := by
  induction hp with
  | root hp =>
    rw [h.roots.root] at hp
    exact .root hp
  | next _ hq ih =>
    rw [h.demandNext] at hq
    exact .next ih hq

/-- The demand paths do not depend on marks or queues. -/
lemma Marked.onDemandPath {n m : Net} (h : Marked n m) {v : ℕ} (hv : OnDemandPath m v) : OnDemandPath n v := by
  obtain ⟨p, hp, hon⟩ := hv
  refine ⟨p, h.demandPath hp, hon.imp (fun ⟨hpv, hl⟩ => ⟨hpv, ?_⟩) (h.faces p v).mp⟩
  rwa [h.live] at hl

lemma nextStamp_back (n : Net) : Marked (nextStamp n) n := by
  have h := nextStamp_marked n
  have hg := h.graph
  exact ⟨⟨hg.nn.symm, hg.tag.symm, hg.wire.symm, hg.scope.symm, hg.dead.symm, hg.levels.symm, hg.freeHead.symm,
    hg.pendHead.symm, hg.pins.symm⟩, ⟨h.roots.root.symm, h.roots.steps.symm, h.roots.pins.symm⟩, h.nfree.symm⟩

lemma nextStamp_queue (n : Net) :
    (nextStamp n).act = n.act ∧ (nextStamp n).atop = n.atop ∧ (nextStamp n).actOf = n.actOf := by
  unfold nextStamp
  dsimp only
  split_ifs <;> exact ⟨rfl, rfl, rfl⟩

lemma nextStamp_past {n : Net} (h : Past 32 n.dem.get n.demStamp) :
    Past 32 (nextStamp n).dem.get (nextStamp n).demStamp := by
  have hnext := h.advance (by decide)
  unfold Stamps.advance at hnext
  unfold nextStamp
  dsimp only
  split_ifs at hnext ⊢ with hwrap
  · exact hnext.update fun v => by simp
  · exact hnext

/-- Nothing is marked and nothing emitted before the first walk. -/
lemma walking_start {n : Net} (hq : Queued n) (hpast : Past 32 n.dem.get n.demStamp) :
    Demanding (nextStamp n) (nextStamp n, []) none := by
  have hfresh := nextStamp_fresh hpast
  obtain ⟨hact, htop, hof⟩ := nextStamp_queue n
  refine ⟨.refl _, ⟨hq.congr hact htop hof, .refl _, fun a ha => absurd ha List.not_mem_nil, fun a _ hb => hfresh _ hb.1⟩,
    nextStamp_past hpast, fun v hv => absurd hv (hfresh v), fun p hp => absurd hp.1 (hfresh p.node),
    fun p q hp => absurd hp.1 (hfresh p.node), fun p v hp => absurd hp.1 (hfresh p.node),
    fun p hp => absurd hp.symm (Option.some_ne_none p)⟩

/-- What is emitted and what is left are the two parts of the queue. -/
lemma Drained.exact {n : Net} {s : Emitting} (h : Drained n s) (hq : n.queue.Nodup) :
    s.2.Nodup ∧ (∀ a, a ∈ s.2 ↔ a ∈ n.queue ∧ BothDemanded s.1 a) ∧
      ∀ a, a ∈ s.1.queue ↔ a ∈ n.queue ∧ ¬ BothDemanded s.1 a := by
  have hmem : ∀ a, a ∈ n.queue ↔ a ∈ s.2 ∨ a ∈ s.1.queue := fun a => by rw [← h.perm.mem_iff, List.mem_append]
  refine ⟨(h.perm.nodup_iff.mpr hq).of_append_left, fun a => ?_, fun a => ?_⟩
  · rw [hmem]
    exact ⟨fun ha => ⟨.inl ha, h.out a ha⟩, fun ⟨ha, hb⟩ => ha.resolve_right fun ha' => h.rest a ha' hb⟩
  · rw [hmem]
    exact ⟨fun ha => ⟨.inr ha, h.rest a ha⟩, fun ⟨ha, hb⟩ => ha.resolve_left fun ha' => hb (h.out a ha')⟩

/-- The loops end, for every root, and what they leave is exact. -/
theorem netMarkDemand_exact (g : Globals) (n : Net) (hg : g.inParallel = false) (hq : Queued n)
    (hpast : Past 32 n.dem.get n.demStamp) :
    WalksEnd g (⟨0, 0⟩ :: n.root) (nextStamp n, []) (netMarkDemand g n) ∧
      ExactDemand n (netMarkDemand g n).1 (netMarkDemand g n).2 := by
  have hmark := nextStamp_marked n
  have hroot : (nextStamp n).root = n.root := hmark.roots.root
  have hroots : ∀ p ∈ ⟨0, 0⟩ :: (nextStamp n).root, DemandPath (nextStamp n) p := fun p hp => .root hp
  obtain ⟨hends, hwalk, -, hall⟩ := (walking_start hq hpast).runAll hg hroots
  have hcomplete := hwalk.complete hall
  change WalksEnd g _ _ (netMarkDemand g n) at hends
  change Demanding _ (netMarkDemand g n) none at hwalk
  change ∀ v, (netMarkDemand g n).1.Demanded v ↔ OnDemandPath (nextStamp n) v at hcomplete
  have hpaths : ∀ v, OnDemandPath (nextStamp n) v ↔ OnDemandPath n v := fun v =>
    ⟨hmark.onDemandPath, (nextStamp_back n).onDemandPath⟩
  have hboth : ∀ a, BothDemanded (netMarkDemand g n).1 a ↔ OnDemandPath n a.1.node ∧ OnDemandPath n a.2.node :=
    fun a => and_congr ((hcomplete _).trans (hpaths _)) ((hcomplete _).trans (hpaths _))
  obtain ⟨hact, htop, hof⟩ := nextStamp_queue n
  have hqueue : (nextStamp n).queue = n.queue := by rw [Net.queue, Net.queue, hact, htop]
  obtain ⟨honce, hout, hrest⟩ := hwalk.drained.exact (hqueue ▸ hq.nodup)
  refine ⟨hroot ▸ hends, fun v => (hcomplete v).trans (hpaths v), honce, fun a => ?_, fun a => ?_,
    hwalk.drained.queued, hwalk.past⟩
  · rw [hout, hqueue, hboth]
  · rw [hrest, hqueue, hboth]

/-- A slot that is handed out anew has no mark. -/
lemma netAlloc_past {n : Net} (h : Past 32 n.dem.get n.demStamp) (g : Globals) (t : Tag) (sc : ℕ) :
    Past 32 (netAlloc g n t sc).2.dem.get (netAlloc g n t sc).2.demStamp := by
  unfold netAlloc
  split
  · refine h.update fun v => ?_
    change (n.dem.set _ 0).get v ≤ n.demStamp
    rw [Table.get_set]
    split_ifs
    · exact Nat.zero_le _
    · exact h.le v
  · exact h

/-- An application to an abstraction under ROOT, before the stamp wraps. -/
def wrappingNet : Net :=
  let n := (netAlloc .serial (netAlloc .serial { netInit with demStamp := 2 ^ 32 - 1 } .app 0).2 .lam 0).2
  netLink .serial (netLink .serial n (some ⟨0, 0⟩) (some ⟨1, 1⟩) true) (some ⟨1, 0⟩) (some ⟨2, 0⟩) true

lemma wrappingNet_queued : Queued wrappingNet := by
  have hinit : Queued { netInit with demStamp := 2 ^ 32 - 1 } := queued_empty rfl rfl
  have hnodes := netAlloc_queued (netAlloc_queued hinit .serial .app 0) .serial .lam 0
  have hroot := netLink_queued (a := ⟨0, 0⟩) (b := ⟨1, 1⟩) hnodes .serial (by decide) true
  exact netLink_queued (a := ⟨1, 0⟩) (b := ⟨2, 0⟩) hroot .serial (by decide) true

lemma wrappingNet_past : Past 32 wrappingNet.dem.get wrappingNet.demStamp := by
  have hdem : wrappingNet.dem = .empty := by decide
  have hstamp : wrappingNet.demStamp = 2 ^ 32 - 1 := by decide
  rw [hdem, hstamp]
  exact ⟨by decide, fun v => by simp⟩

theorem netMarkDemand_exact_wrapping :
    WalksEnd .serial (⟨0, 0⟩ :: wrappingNet.root) (nextStamp wrappingNet, []) (netMarkDemand .serial wrappingNet) ∧
      ExactDemand wrappingNet (netMarkDemand .serial wrappingNet).1 (netMarkDemand .serial wrappingNet).2 :=
  netMarkDemand_exact .serial wrappingNet rfl wrappingNet_queued wrappingNet_past

end LinEngine
