import LinEngine.Changes

/-!
# The rules as changes

Freeing a node, cutting a wire, joining the boundary of a pair and handing its auxiliaries
to copies are sequences of changes, and so is a call on a live redex. What every change
keeps is therefore kept by a call.
-/
namespace LinEngine

/-- A sequence of changes. -/
abbrev Changes (S : Set ℕ) (g : Globals) : Stage → Stage → Prop := Relation.ReflTransGen (Change S g)

section Release

variable {S : Set ℕ} {g : Globals} {s s' : Stage}

lemma Changes.tied (hc : Changes S g s s') (h : Tied S s) : Tied S s' := by
  induction hc with
  | refl => exact h
  | tail _ hlast ih => exact hlast.tied ih

lemma Changes.onward (hc : Changes S g s s') (h : Tied S s) : Onward S s s' := by
  induction hc with
  | refl => exact .refl s
  | tail hrun hlast ih => exact ih.trans (hlast.onward (Changes.tied hrun h))

/-- What freeing leaves of the wires of the nodes that stay. -/
structure Clears (n m : Net) : Prop where
  live : ∀ v, m.live v = true → n.live v = true
  wire : ∀ p : Port, m.live p.node = true → m.wireAt p = n.wireAt p ∨ m.wireAt p = none

lemma Clears.refl (n : Net) : Clears n n := ⟨fun _ h => h, fun _ _ => .inl rfl⟩

lemma Clears.trans {n m k : Net} (h : Clears n m) (h' : Clears m k) : Clears n k := by
  refine ⟨fun v hv => h.live v (h'.live v hv), fun p hp => ?_⟩
  rcases h'.wire p hp with he | he
  · rw [he]
    exact h.wire p (h'.live _ hp)
  · exact .inr he

lemma Clears.setWire (n : Net) (p : Port) : Clears n (n.setWire p none) := by
  refine ⟨fun v hv => hv, fun q _ => ?_⟩
  rw [Net.wireAt_setWire]
  split_ifs
  · exact .inr rfl
  · exact .inl rfl

lemma Clears.markDead (n : Net) (v : ℕ) : Clears n { n with dead := n.dead.set v true } :=
  ⟨fun u hu => ((markDead_live n v u).1 hu).1, fun _ _ => .inl rfl⟩

lemma Clears.sameGraph {n m : Net} (h : SameGraph n m) : Clears n m :=
  ⟨fun v hv => by rwa [← h.live], fun p _ => .inl (h.wireAt p)⟩

/-- A port of a dying node is unhooked, and the partner dies if that was its last live wire. -/
lemma releasePort_cases (n : Net) (st : List ℕ) (p : Port) :
    releasePort (n, st) p = (unhook n p, st) ∨
      ∃ w, n.wireAt p = some w ∧ (unhook n p).live w.node = true ∧ degLive (unhook n p) w.node = 0 ∧
        releasePort (n, st) p =
          ({ unhook n p with dead := (unhook n p).dead.set w.node true }, w.node :: st) := by
  cases hw : n.wireAt p with
  | none => exact .inl (by simp [releasePort, unhook, hw])
  | some w =>
    by_cases hin : n.inNet w.node = true
    · have hun : (if n.inNet w.node && (n.setWire p none).wireAt w == some p then (n.setWire p none).setWire w none
          else n.setWire p none) = unhook n p := by simp only [unhook, hw]
      have hun' : (if (n.setWire p none).wireAt w = some p then (n.setWire p none).setWire w none
          else n.setWire p none) = unhook n p := by
        rw [← hun]
        simp [hin]
      have hlt : (unhook n p).nn = n.nn := by rw [unhook_frame]
      have hbody : releasePort (n, st) p =
          if !(unhook n p).dead.get w.node && degLive (unhook n p) w.node == 0 then
            ({ unhook n p with dead := (unhook n p).dead.set w.node true }, w.node :: st)
          else (unhook n p, st) := by
        have hin' : (n.setWire p none).inNet w.node = true := hin
        simp only [releasePort, hw, hin', if_true, hun']
      rw [hbody]
      split_ifs with hfree
      · rw [Bool.and_eq_true, Bool.not_eq_true', beq_iff_eq] at hfree
        refine .inr ⟨w, rfl, (Net.live_iff _).2 ⟨?_, hfree.1⟩, hfree.2, rfl⟩
        rw [hlt]
        simpa [Net.inNet] using hin
      · exact .inl rfl
    · refine .inl ?_
      have hin' : ¬(n.setWire p none).inNet w.node = true := hin
      simp only [releasePort, unhook, hw, hin', hin, Bool.false_and, Bool.false_eq_true, if_false]

lemma unhook_clears (n : Net) (p : Port) : Clears n (unhook n p) := by
  rcases unhook_cases n p with h | ⟨w, -, -, -, h⟩
  · rw [h]
    exact .setWire n p
  · rw [h]
    exact (Clears.setWire n p).trans (.setWire _ w)

lemma releasePort_clears (n : Net) (st : List ℕ) (p : Port) : Clears n (releasePort (n, st) p).1 := by
  rcases releasePort_cases n st p with h | ⟨w, -, -, -, h⟩
  · rw [h]
    exact unhook_clears n p
  · rw [h]
    exact (unhook_clears n p).trans (.markDead _ _)

/-- The port of a dying node is cut, and no wire is made. -/
lemma releasePort_wireAt (n : Net) (st : List ℕ) (p q : Port) :
    (releasePort (n, st) p).1.wireAt p = none ∧
      (n.wireAt q = none → (releasePort (n, st) p).1.wireAt q = none) := by
  have hun : (unhook n p).wireAt p = none ∧ (n.wireAt q = none → (unhook n p).wireAt q = none) := by
    refine ⟨unhook_wireAt_self n p, fun hq => ?_⟩
    by_cases hqp : q = p
    · rw [hqp, unhook_wireAt_self]
    · rcases unhook_wireAt hqp with he | ⟨he, -⟩
      · rw [he, hq]
      · exact he
  rcases releasePort_cases n st p with h | ⟨w, -, -, -, h⟩
  · rw [h]
    exact hun
  · rw [h]
    exact hun

/-- The worklist holds nodes in limbo, each once. -/
structure Worklist (s : Stage) (st : List ℕ) : Prop where
  mem : ∀ v ∈ st, v ∈ s.limbo
  nodup : st.Nodup

lemma releasePort_changes (h : Tied S s) {p : Port} {st : List ℕ} (hst : Worklist s (p.node :: st)) :
    ∃ U, Changes S g s ⟨(releasePort (s.net, st) p).1, s.loose, U⟩ ∧ s.limbo ⊆ U ∧
      Worklist ⟨(releasePort (s.net, st) p).1, s.loose, U⟩ (p.node :: (releasePort (s.net, st) p).2) ∧
      ∀ v ∈ (releasePort (s.net, st) p).2, v ∈ st ∨ v ∉ s.limbo := by
  have hp : p.node ∈ s.limbo := hst.mem _ (by simp)
  have hun : Change S g s ⟨unhook s.net p, s.loose, s.limbo⟩ := .unhook s p hp
  have htied := hun.tied h
  rcases releasePort_cases s.net st p with he | ⟨w, -, hlive, hdeg, he⟩
  · rw [he]
    exact ⟨s.limbo, .single hun, le_rfl, ⟨hst.mem, hst.nodup⟩, fun v hv => .inl hv⟩
  · have hfresh : w.node ∉ s.limbo := fun hm => by
      have hd := (htied.limbo _ hm).2.1
      exact absurd ((Net.live_iff _).1 hlive).2 (by simp [hd])
    rw [he]
    refine ⟨insert w.node s.limbo, (Relation.ReflTransGen.single hun).tail (.kill _ w.node _ hlive (fun x q hx hq => ?_) (.inl rfl)),
      Set.subset_insert _ _, ⟨?_, ?_⟩, fun v hv => ?_⟩
    · exact degLive_eq_zero.1 hdeg x hx q hq
    · intro v hv
      rcases List.mem_cons.1 hv with rfl | hv
      · exact .inr hp
      · rcases List.mem_cons.1 hv with rfl | hv
        · exact .inl rfl
        · exact .inr (hst.mem v (List.mem_cons_of_mem _ hv))
    · have hnd := List.nodup_cons.1 hst.nodup
      refine List.nodup_cons.2 ⟨?_, List.nodup_cons.2 ⟨fun hm => hfresh (hst.mem _ (List.mem_cons_of_mem _ hm)), hnd.2⟩⟩
      rw [List.mem_cons, not_or]
      exact ⟨fun he => hfresh (he ▸ hp), hnd.1⟩
    · rcases List.mem_cons.1 hv with rfl | hv
      · exact .inr hfresh
      · exact .inl hv

lemma releasePorts_changes (ps : List Port) {u : ℕ} (hps : ∀ p ∈ ps, p.node = u) {st : List ℕ} {s : Stage}
    (h : Tied S s) (hst : Worklist s (u :: st)) :
    ∃ U, Changes S g s ⟨(ps.foldl releasePort (s.net, st)).1, s.loose, U⟩ ∧ s.limbo ⊆ U ∧
      Worklist ⟨(ps.foldl releasePort (s.net, st)).1, s.loose, U⟩ (u :: (ps.foldl releasePort (s.net, st)).2) ∧
      (∀ v ∈ (ps.foldl releasePort (s.net, st)).2, v ∈ st ∨ v ∉ s.limbo) ∧
      Clears s.net (ps.foldl releasePort (s.net, st)).1 ∧
      ∀ q, q ∈ ps ∨ s.net.wireAt q = none → (ps.foldl releasePort (s.net, st)).1.wireAt q = none := by
  induction ps generalizing s st with
  | nil => exact ⟨s.limbo, .refl, le_rfl, hst, fun v hv => .inl hv, .refl _, fun q hq => hq.resolve_left (by simp)⟩
  | cons p ps ih =>
    rw [List.forall_mem_cons] at hps
    obtain ⟨rfl, hps⟩ := hps
    obtain ⟨U, hc, hU, hwork, hnew⟩ := releasePort_changes (g := g) h hst
    obtain ⟨U', hc', hU', hwork', hnew', hclear, hnone⟩ := ih hps (hc.tied h) hwork
    rw [List.foldl_cons]
    refine ⟨U', hc.trans hc', hU.trans hU', hwork', fun v hv => ?_, (releasePort_clears _ _ _).trans hclear, fun q hq => ?_⟩
    · rcases hnew' v hv with hv' | hv'
      · exact hnew v hv'
      · exact .inr fun hm => hv' (hU hm)
    · refine hnone q ?_
      rcases hq with hq | hq
      · rcases List.mem_cons.1 hq with rfl | hq
        · exact .inr (releasePort_wireAt s.net st q q).1
        · exact .inl hq
      · exact .inr ((releasePort_wireAt s.net st p q).2 hq)

lemma pendPush_clears (h : Tied S s) {u : ℕ} (hu : u ∈ s.limbo) : Clears s.net (pendPush s.net u) := by
  refine ⟨fun v hv => hv, fun p hp => .inl ?_⟩
  rw [pendPush_wireAt, if_neg]
  rintro rfl
  have hd : s.net.live u = true := hp
  simp [Net.live, (h.limbo u hu).2.1] at hd

lemma releaseLoop_changes (fuel : ℕ) (st : List ℕ) {s : Stage} (h : Tied S s) (hst : Worklist s st) :
    ∃ U, Changes S g s ⟨releaseLoop fuel st s.net, s.loose, U⟩ ∧ (∀ v ∈ s.limbo, v ∉ st → v ∈ U) ∧
      Clears s.net (releaseLoop fuel st s.net) := by
  induction fuel generalizing st s with
  | zero => exact ⟨s.limbo, .refl, fun v hv _ => hv, .refl _⟩
  | succ fuel ih =>
    cases st with
    | nil => exact ⟨s.limbo, .refl, fun v hv _ => hv, .refl _⟩
    | cons u st =>
      obtain ⟨U, hc, hU, hwork, hnew, hclear, hnone⟩ := releasePorts_changes (g := g) (portsOf u)
        (fun p hp => mem_portsOf.1 hp) h hst
      have htied := hc.tied h
      have hu : u ∈ U := hwork.mem u (by simp)
      have hpend : Change S g ⟨((portsOf u).foldl releasePort (s.net, st)).1, s.loose, U⟩
          ⟨pendPush ((portsOf u).foldl releasePort (s.net, st)).1 u, s.loose, U \ {u}⟩ :=
        .pend _ u hu fun k => hnone ⟨u, k⟩ (.inl (mem_portsOf.2 rfl))
      have hnd := List.nodup_cons.1 hwork.nodup
      have hwork' : Worklist ⟨pendPush ((portsOf u).foldl releasePort (s.net, st)).1 u, s.loose, U \ {u}⟩
          ((portsOf u).foldl releasePort (s.net, st)).2 :=
        ⟨fun v hv => ⟨hwork.mem v (List.mem_cons_of_mem _ hv), fun he => hnd.1 (Set.mem_singleton_iff.1 he ▸ hv)⟩,
          hnd.2⟩
      obtain ⟨U', hc', hU', hclear'⟩ := ih _ (hpend.tied htied) hwork'
      refine ⟨U', (hc.tail hpend).trans hc', fun v hv hvst => hU' v ⟨hU hv, ?_⟩ fun hm => ?_,
        (hclear.trans (pendPush_clears htied hu)).trans hclear'⟩
      · rintro rfl
        exact hvst (by simp)
      · rcases hnew v hm with hm | hm
        · exact hvst (List.mem_cons_of_mem _ hm)
        · exact hm hv

lemma releaseNow_changes (h : Tied S s) {v : ℕ} (hv : v ∈ s.limbo) :
    ∃ U, Changes S g s ⟨releaseNow s.net v, s.loose, U⟩ ∧ (∀ u ∈ s.limbo, u ≠ v → u ∈ U) ∧
      Clears s.net (releaseNow s.net v) := by
  obtain ⟨U, hc, hU, hclear⟩ := releaseLoop_changes (g := g) (s.net.nn + 2) [v] h
    ⟨by simpa using hv, List.nodup_singleton v⟩
  exact ⟨U, hc, fun u hu hne => hU u hu (by simpa using hne), hclear⟩

/-- A loose port has a live neighbour at its node. -/
lemma Tied.degLive_ne (h : Tied S s) {p : Port} (hp : p ∈ s.loose) : degLive s.net p.node ≠ 0 := by
  obtain ⟨-, -, u, hu, hpu, -⟩ := h.loose p hp
  intro hzero
  rw [degLive_eq_zero.1 hzero ⟨p.node, 0⟩ rfl ⟨u, 0⟩ hpu] at hu
  cases hu

lemma netRelease_changes (h : Tied S s) {v : ℕ} (hzero : degLive s.net v = 0) :
    ∃ U, Changes S g s ⟨netRelease g s.net v, s.loose, U⟩ ∧ s.limbo ⊆ U ∧ Clears s.net (netRelease g s.net v) := by
  unfold netRelease
  split_ifs with hlive
  · exact ⟨s.limbo, .refl, le_rfl, .refl _⟩
  · exact ⟨s.limbo, .refl, le_rfl, .refl _⟩
  · exact ⟨s.limbo, .refl, le_rfl, .refl _⟩
  · have hl : s.net.live v = true := by simpa using hlive
    have hkill : Change S g s ⟨actDrop g { s.net with dead := s.net.dead.set v true } v, s.loose, insert v s.limbo⟩ :=
      .kill s v _ hl (fun p q hp hq => degLive_eq_zero.1 hzero p hp q hq) (.inr rfl)
    obtain ⟨U, hc, hU, hclear⟩ := releaseNow_changes (g := g) (hkill.tied h) (v := v) (.inl rfl)
    refine ⟨U, .head hkill hc, fun u hu => hU u (.inr hu) ?_, ?_⟩
    · rintro rfl
      have := (h.limbo _ hu).2.1
      simp [((Net.live_iff _).1 hl).2] at this
    · exact ((Clears.markDead s.net v).trans (.sameGraph (actDrop_same g _ v))).trans hclear

end Release

/-! ## Cutting a wire -/

section Sever

variable {S : Set ℕ} {g : Globals} {s : Stage}

/-- Free an end that has no live wire left. -/
def reap (g : Globals) (n : Net) (v : ℕ) : Net := if degLive n v = 0 then netRelease g n v else n

lemma reap_changes (h : Tied S s) (v : ℕ) :
    ∃ U, Changes S g s ⟨reap g s.net v, s.loose, U⟩ ∧ s.limbo ⊆ U ∧ Clears s.net (reap g s.net v) := by
  unfold reap
  split_ifs with hzero
  · exact netRelease_changes h hzero
  · exact ⟨s.limbo, .refl, le_rfl, .refl _⟩

/-- Cutting unhooks the port, and then looks after the nodes of the two ends. -/
lemma netSever_eq (g : Globals) {n : Net} {p : Port} (hp : p.node < n.nn) :
    netSever g n p = match n.wireAt p with
      | none => reap g (unhook n p) p.node
      | some w => if (reap g (unhook n p) p.node).inNet w.node then reap g (reap g (unhook n p) p.node) w.node
          else reap g (unhook n p) p.node := by
  have hin : n.inNet p.node = true := by simpa [Net.inNet] using hp
  cases hw : n.wireAt p with
  | none => simp only [netSever, unhook, hin, hw, reap, Bool.not_true, Bool.false_eq_true, if_false]
  | some w =>
    have hun : (if (n.setWire p none).inNet w.node && (n.setWire p none).wireAt w == some p then
        (n.setWire p none).setWire w none else n.setWire p none) = unhook n p := by
      simp only [unhook, hw]
      rfl
    simp only [netSever, hin, hw, Bool.not_true, Bool.false_eq_true, if_false, hun]
    rw [← reap]
    generalize reap g (unhook n p) p.node = m
    by_cases hin' : m.inNet w.node = true
    · simp only [hin', Bool.true_and, beq_iff_eq, if_true, reap]
    · simp only [hin', Bool.false_and, Bool.false_eq_true, if_false]

/-- What a change that unhooks a port makes of cutting there. -/
lemma netSever_changes (h : Tied S s) {p : Port} (hp : p.node < s.net.nn)
    (hcut : Change S g s ⟨unhook s.net p, s.loose, s.limbo⟩) :
    ∃ U, Changes S g s ⟨netSever g s.net p, s.loose, U⟩ ∧ s.limbo ⊆ U ∧
      Clears (unhook s.net p) (netSever g s.net p) := by
  obtain ⟨U, hc, hU, hclear⟩ := reap_changes (g := g) (hcut.tied h) p.node
  have hnear : ∃ U, Changes S g s ⟨reap g (unhook s.net p) p.node, s.loose, U⟩ ∧ s.limbo ⊆ U ∧
      Clears (unhook s.net p) (reap g (unhook s.net p) p.node) := ⟨U, .head hcut hc, hU, hclear⟩
  rw [netSever_eq g hp]
  cases s.net.wireAt p with
  | none => exact hnear
  | some w =>
    dsimp only
    split_ifs
    · obtain ⟨U', hc', hU', hclear'⟩ := reap_changes (g := g) (hc.tied (hcut.tied h)) w.node
      exact ⟨U', (Relation.ReflTransGen.head hcut hc).trans hc', hU.trans hU', hclear.trans hclear'⟩
    · exact hnear

/-- A port of a live node or a placeholder's binder is in the net. -/
lemma Tied.landing_lt (h : Tied S s) {q : Port} (hq : Landing S s.net q) : q.node < s.net.nn := by
  rcases hq with hq | ⟨hq, -⟩
  · exact ((Net.live_iff _).1 hq).1
  · exact (h.stub _ hq).1

lemma unhook_mutual {n : Net} {p w : Port} (hpw : n.wireAt p = some w) (hwp : n.wireAt w = some p)
    (hne : w ≠ p) (hw : w.node < n.nn) : unhook n p = (n.setWire p none).setWire w none := by
  have hin : n.inNet w.node = true := by simpa [Net.inNet] using hw
  have hset : (n.setWire p none).wireAt w = some p := by rw [Net.wireAt_setWire, if_neg (Ne.symm hne), hwp]
  simp [unhook, hpw, hin, hset]

/-- The end of a class is cut from the pair. -/
lemma severEnd_changes (h : Tied S s) {e c : Port} (hc : s.net.live c.node = true) (hcl : c ∉ s.loose)
    (hcp : c.port ≠ 0) (hce : s.net.wireAt c = some e) :
    ∃ U, Changes S g s ⟨netSever g s.net e, s.loose, U⟩ ∧ s.limbo ⊆ U ∧
      Clears s.net (netSever g s.net e) ∧ ((netSever g s.net e).live c.node = true →
        (netSever g s.net e).wireAt c = none) := by
  obtain ⟨hland, hel, hec, hne⟩ := h.wire c e hc hcl hce
  have hclt := ((Net.live_iff _).1 hc).1
  have hun := unhook_mutual hec hce (Ne.symm hne) hclt
  have hcut : Change S g s ⟨unhook s.net e, s.loose, s.limbo⟩ := by
    rw [hun]
    exact .cut s e c hec hce (.inr hc) hel hcl (.inr (.inr hcp)) (.inr (.inr hcp))
  obtain ⟨U, hch, hU, hclear⟩ := netSever_changes h (h.landing_lt hland) hcut
  refine ⟨U, hch, hU, (unhook_clears _ _).trans hclear, fun hlive => ?_⟩
  have hnone : (unhook s.net e).wireAt c = none := by
    rw [hun, cut_wireAt, if_pos (.inr rfl)]
  rcases hclear.wire c hlive with he | he
  · rw [he, hnone]
  · exact he

end Sever

/-! ## Joining the boundary -/

section Join

variable {S : Set ℕ} {g : Globals} {s₀ s : Stage} {a b : ℕ} {L : List (List (Fin 6))} {cls : List (Fin 6)}

/-- The principal wire of the pair. -/
def facing (a b : ℕ) : Set Port := {⟨a, 0⟩, ⟨b, 0⟩}

/-- The stage at which the classes `L` of the pair are still to be joined. -/
structure Joining (S : Set ℕ) (g : Globals) (a b : ℕ) (s₀ : Stage) (L : List (List (Fin 6))) (s : Stage) : Prop where
  changes : Changes S g s₀ s
  sealed : Sealed (facing a b) s₀.net s.net
  limbo : s₀.limbo ⊆ s.limbo
  loose : ∀ p ∈ s.loose, ∃ j, p = pairPort a b j ∧ j ∉ L.flatten
  wire : ∀ j, s.net.wireAt (pairPort a b j) = s₀.net.wireAt (pairPort a b j) ∨ s.net.wireAt (pairPort a b j) = none
  joined : ∀ j, j ∉ L.flatten → ∀ q, s.net.wireAt (pairPort a b j) = some q → Outside a b q → pairPort a b j ∈ s.loose

/-- A pair of live nodes with their principal ports wired to each other. -/
structure Meeting (n : Net) (a b : ℕ) : Prop where
  ne : a ≠ b
  liveL : n.live a = true
  liveR : n.live b = true
  wireL : n.wireAt ⟨a, 0⟩ = some ⟨b, 0⟩
  wireR : n.wireAt ⟨b, 0⟩ = some ⟨a, 0⟩

lemma Meeting.symm {n : Net} (h : Meeting n a b) : Meeting n b a :=
  ⟨h.ne.symm, h.liveR, h.liveL, h.wireR, h.wireL⟩

lemma Meeting.mated {n : Net} (h : Meeting n a b) : Mated (facing a b) n := by
  rintro p (rfl | rfl)
  · exact ⟨⟨b, 0⟩, .inr rfl, h.wireL, h.wireR⟩
  · exact ⟨⟨a, 0⟩, .inl rfl, h.wireR, h.wireL⟩

lemma Meeting.sealed {n m : Net} (h : Meeting n a b) (hs : Sealed (facing a b) n m) : Meeting m a b where
  ne := h.ne
  liveL := hs.live a ⟨⟨a, 0⟩, .inl rfl, rfl⟩
  liveR := hs.live b ⟨⟨b, 0⟩, .inr rfl, rfl⟩
  wireL := (hs.wire ⟨a, 0⟩ (.inl rfl)).trans h.wireL
  wireR := (hs.wire ⟨b, 0⟩ (.inr rfl)).trans h.wireR

lemma Meeting.live_pairPort {n : Net} (h : Meeting n a b) (j : Fin 6) : n.live (pairPort a b j).node = true := by
  rcases pairPort_node a b j with hj | hj
  · rw [hj, h.liveL]
  · rw [hj, h.liveR]

lemma Meeting.faces {n : Net} (h : Meeting n a b) (j : Fin 6) : Faces n (pairPort a b j).node := by
  rcases pairPort_node a b j with hj | hj
  · rw [hj]
    exact ⟨b, h.liveR, h.wireL, h.wireR⟩
  · rw [hj]
    exact ⟨a, h.liveL, h.wireR, h.wireL⟩

/-- A pair port that leads outside is an auxiliary. -/
lemma Meeting.port_ne {n : Net} (h : Meeting n a b) {j : Fin 6} {q : Port}
    (hq : n.wireAt (pairPort a b j) = some q) (ho : Outside a b q) : (pairPort a b j).port ≠ 0 := by
  intro h0
  have hp : pairPort a b j = ⟨(pairPort a b j).node, (pairPort a b j).port⟩ := rfl
  rcases pairPort_node a b j with hj | hj
  · rw [hj, h0] at hp
    rw [hp, h.wireL] at hq
    exact ho.2 (congrArg Port.node (Option.some.inj hq)).symm
  · rw [hj, h0] at hp
    rw [hp, h.wireR] at hq
    exact ho.1 (congrArg Port.node (Option.some.inj hq)).symm

/-- The end that a port of a class to be joined leads to leads back to it, and to no other. -/
lemma Joining.end_spec (hj : Joining S g a b s₀ (cls :: L) s) (h : Tied S s) (hm : Meeting s.net a b) {e : Port}
    {j : Fin 6} (hjc : j ∈ cls) (hw : s.net.wireAt (pairPort a b j) = some e) :
    pairPort a b j ∉ s.loose ∧ Landing S s.net e ∧ e ∉ s.loose ∧ s.net.wireAt e = some (pairPort a b j) := by
  have hnot : pairPort a b j ∉ s.loose := fun hmem => by
    obtain ⟨i, hi, hout⟩ := hj.loose _ hmem
    rw [← pairPort_inj hm.ne hi] at hout
    exact hout (List.mem_flatten.2 ⟨cls, by simp, hjc⟩)
  obtain ⟨h1, h2, h3, -⟩ := h.wire _ e (hm.live_pairPort j) hnot hw
  exact ⟨hnot, h1, h2, h3⟩

lemma Joining.end_unique (hj : Joining S g a b s₀ (cls :: L) s) (h : Tied S s) (hm : Meeting s.net a b) {e : Port}
    {i j : Fin 6} (hic : i ∈ cls) (hjc : j ∈ cls) (hi : s.net.wireAt (pairPort a b i) = some e)
    (hj' : s.net.wireAt (pairPort a b j) = some e) : i = j := by
  have h1 := (hj.end_spec h hm hic hi).2.2.2
  have h2 := (hj.end_spec h hm hjc hj').2.2.2
  exact pairPort_inj hm.ne (Option.some.inj (h1.symm.trans h2))

lemma Joining.endsOf_nodup (hj : Joining S g a b s₀ (cls :: L) s) (h : Tied S s) (hm : Meeting s.net a b)
    (hc : cls.Nodup) : (endsOf s.net a b cls).Nodup := by
  rw [endsOf, List.Nodup, List.pairwise_filterMap]
  refine hc.imp_of_mem fun {i j} hi hj' hij e he e' he' hee => hij ?_
  subst hee
  exact hj.end_unique h hm hi hj' (endAt_eq_some.1 he).1 (endAt_eq_some.1 he').1

/-- A class that sends no more than two ends outside has no more later. -/
lemma Joining.endsOf_length (hj : Joining S g a b s₀ (cls :: L) s) (hlen : (endsOf s₀.net a b cls).length ≤ 2) :
    (endsOf s.net a b cls).length ≤ 2 := by
  refine le_trans ?_ hlen
  have hcount : ∀ n : Net, (endsOf n a b cls).length = cls.countP fun j => (endAt n a b j).isSome := fun n => by
    rw [endsOf, List.length_filterMap_eq_countP]
  rw [hcount, hcount]
  refine List.countP_mono_left fun j _ hsome => ?_
  obtain ⟨q, hq⟩ := Option.isSome_iff_exists.1 hsome
  obtain ⟨hw, ho⟩ := endAt_eq_some.1 hq
  rcases hj.wire j with he | he
  · rw [endAt_eq_some.2 ⟨he ▸ hw, ho⟩]
    rfl
  · rw [he] at hw
    cases hw

lemma Joining.step (hj : Joining S g a b s₀ (cls :: L) s) (h₀ : Tied S s₀) (hm₀ : Meeting s₀.net a b)
    (hd : (cls :: L).flatten.Nodup) (hlen : (endsOf s₀.net a b cls).length ≤ 2) :
    ∃ U V, Joining S g a b s₀ L ⟨joinClass g a b s.net cls, U, V⟩ := by
  have h := hj.changes.tied h₀
  have hm := hm₀.sealed hj.sealed
  have hsealed : Sealed (facing a b) s₀.net (joinClass g a b s.net cls) := by
    refine hj.sealed.joinClass hm₀.mated fun e he hmem => ?_
    obtain ⟨-, -, -, ho⟩ := mem_endsOf.1 he
    rcases hmem with rfl | rfl
    · exact ho.1 rfl
    · exact ho.2 rfl
  have hm' := hm₀.sealed hsealed
  have hrest : ∀ j, j ∉ L.flatten → j ∈ cls ∨ j ∉ (cls :: L).flatten := fun j hj' => by
    rw [List.flatten_cons, List.mem_append]
    tauto
  have hkeep : ∀ p ∈ s.loose, ∃ j, p = pairPort a b j ∧ j ∉ L.flatten := fun p hp => by
    obtain ⟨j, hpj, hout⟩ := hj.loose p hp
    exact ⟨j, hpj, fun hmem => hout (by rw [List.flatten_cons]; exact List.mem_append_right _ hmem)⟩
  have hnew : ∀ j ∈ cls, j ∉ L.flatten := fun j hjc hmem =>
    (List.nodup_append.1 (List.flatten_cons ▸ hd)).2.2 j hjc j hmem rfl
  have hends := hj.endsOf_length hlen
  rcases joinClass_eq g a b s.net cls with ⟨hnone, hone, htwo⟩
  rcases hl : endsOf s.net a b cls with _ | ⟨e, _ | ⟨e', _ | ⟨e'', ends⟩⟩⟩
  · rw [hnone hl] at hsealed ⊢
    refine ⟨s.loose, s.limbo, hj.changes, hsealed, hj.limbo, hkeep, hj.wire, fun j hjL q hq ho => ?_⟩
    rcases hrest j hjL with hjc | hjc
    · have hmem := mem_endsOf.2 ⟨j, hjc, hq, ho⟩
      rw [hl] at hmem
      exact absurd hmem List.not_mem_nil
    · exact hj.joined j hjc q hq ho
  · obtain ⟨i, hi, hw, ho⟩ := mem_endsOf.1 (hl ▸ List.mem_singleton_self e)
    obtain ⟨hil, -⟩ := hj.end_spec h hm hi hw
    obtain ⟨U, hch, hU, hclear, hcut⟩ := severEnd_changes (g := g) h (hm.live_pairPort i) hil (hm.port_ne hw ho) hw
    rw [hone e hl] at hsealed hm' ⊢
    have hwire : ∀ j, (netSever g s.net e).wireAt (pairPort a b j) = s.net.wireAt (pairPort a b j) ∨
        (netSever g s.net e).wireAt (pairPort a b j) = none := fun j => hclear.wire _ (hm'.live_pairPort j)
    refine ⟨s.loose, U, hj.changes.trans hch, hsealed, hj.limbo.trans hU, hkeep, fun j => ?_, fun j hjL q hq hoq => ?_⟩
    · rcases hwire j with he | he
      · rw [he]
        exact hj.wire j
      · exact .inr he
    · have hold : s.net.wireAt (pairPort a b j) = some q := by
        rcases hwire j with he | he
        · rw [← he, hq]
        · rw [he] at hq
          cases hq
      rcases hrest j hjL with hjc | hjc
      · have hmem := mem_endsOf.2 ⟨j, hjc, hold, hoq⟩
        rw [hl, List.mem_singleton] at hmem
        rw [hmem] at hold
        rw [hj.end_unique h hm hjc hi hold hw, hcut (hm'.live_pairPort i)] at hq
        cases hq
      · exact hj.joined j hjc q hold hoq
  · have hin : ∀ x ∈ [e, e'], ∃ j ∈ cls, s.net.wireAt (pairPort a b j) = some x ∧ Outside a b x := fun x hx =>
      mem_endsOf.1 (hl ▸ hx)
    obtain ⟨i, hi, hw, ho⟩ := hin e (by simp)
    obtain ⟨i', hi', hw', ho'⟩ := hin e' (by simp)
    obtain ⟨hil, hland, hel, hback⟩ := hj.end_spec h hm hi hw
    obtain ⟨hil', hland', hel', hback'⟩ := hj.end_spec h hm hi' hw'
    have hne : e ≠ e' := by
      have hnodup := hj.endsOf_nodup h hm (List.nodup_append.1 (List.flatten_cons ▸ hd)).1
      rw [hl] at hnodup
      simpa using hnodup
    have hoff : ∀ j, pairPort a b j ≠ e ∧ pairPort a b j ≠ e' := fun j =>
      ⟨fun he => pairPort_not_outside a b j (he ▸ ho), fun he => pairPort_not_outside a b j (he ▸ ho')⟩
    rw [htwo e e' hl] at hsealed hm' ⊢
    have hwire : ∀ j, (netLink g s.net (some e) (some e') true).wireAt (pairPort a b j) =
        s.net.wireAt (pairPort a b j) := fun j => by
      rw [netLink_wireAt, if_neg (Ne.symm (hoff j).2), if_neg (Ne.symm (hoff j).1)]
    have hlink : Change S g s ⟨netLink g s.net (some e) (some e') true,
        s.loose ∪ {pairPort a b i, pairPort a b i'}, s.limbo⟩ := by
      refine .link s e e' true _ hne hland hland' hel hel' (fun x hx hxe hxe' hxw => ?_) (fun x hx => ?_)
        (fun q hq => ?_) (.inl rfl)
      · by_cases hxl : x ∈ s.loose
        · exact .inl hxl
        · rcases hxw with hxw | hxw
          · have hx' := (h.wire x _ hx hxl hxw).2.2.1
            exact .inr (.inl (Option.some.inj (hx'.symm.trans hback)))
          · have hx' := (h.wire x _ hx hxl hxw).2.2.1
            exact .inr (.inr (Option.some.inj (hx'.symm.trans hback')))
      · rcases hx with rfl | rfl
        · exact ⟨(hoff i).1, (hoff i).2, hm.port_ne hw ho, hm.live_pairPort i, hm.faces i, .inl hw⟩
        · exact ⟨(hoff i').1, (hoff i').2, hm.port_ne hw' ho', hm.live_pairPort i', hm.faces i', .inr hw'⟩
      · rcases hq with hq | hq
        · rw [hback] at hq
          exact Option.some.inj hq ▸ hm.port_ne hw ho
        · rw [hback'] at hq
          exact Option.some.inj hq ▸ hm.port_ne hw' ho'
    refine ⟨_, s.limbo, hj.changes.tail hlink, hsealed, hj.limbo, fun p hp => ?_, fun j => ?_, fun j hjL q hq hoq => ?_⟩
    · rcases hp with hp | rfl | rfl
      · exact hkeep p hp
      · exact ⟨i, rfl, hnew i hi⟩
      · exact ⟨i', rfl, hnew i' hi'⟩
    · rw [hwire]
      exact hj.wire j
    · rw [hwire] at hq
      rcases hrest j hjL with hjc | hjc
      · have hmem := mem_endsOf.2 ⟨j, hjc, hq, hoq⟩
        rw [hl, List.mem_pair] at hmem
        rcases hmem with rfl | rfl
        · exact .inr (.inl (by rw [hj.end_unique h hm hjc hi hq hw]))
        · exact .inr (.inr (by rw [hj.end_unique h hm hjc hi' hq hw']; rfl))
      · exact .inl (hj.joined j hjc q hq hoq)
  · rw [hl] at hends
    simp at hends

/-- All the classes, one after the other. -/
lemma Joining.run (hj : Joining S g a b s₀ L s) (h₀ : Tied S s₀) (hm₀ : Meeting s₀.net a b)
    (hd : L.flatten.Nodup) (hlen : ∀ cls ∈ L, (endsOf s₀.net a b cls).length ≤ 2) :
    ∃ U V, Joining S g a b s₀ [] ⟨L.foldl (joinClass g a b) s.net, U, V⟩ := by
  induction L generalizing s with
  | nil => exact ⟨s.loose, s.limbo, hj⟩
  | cons cls L ih =>
    obtain ⟨U, V, hstep⟩ := hj.step h₀ hm₀ hd (hlen cls (by simp))
    exact ih hstep (List.nodup_append.1 (List.flatten_cons ▸ hd)).2.1 fun c hc => hlen c (by simp [hc])

lemma Tied.pairShape (h : Tied S ⟨s.net, ∅, s.limbo⟩) (hm : Meeting s.net a b) : Shape (pairShape s.net a b) := by
  refine ⟨(insideIdx_eq_some hm.ne).2 hm.wireL, (insideIdx_eq_some hm.ne).2 hm.wireR, fun i j hij => ?_⟩
  obtain ⟨-, -, hback, hne⟩ := h.wire _ _ (hm.live_pairPort i) (by simp) ((insideIdx_eq_some hm.ne).1 hij)
  refine ⟨(insideIdx_eq_some hm.ne).2 hback, ?_⟩
  rintro rfl
  exact hne rfl

/-- The end of a rule: the pair is retired when no wire leads to it from outside but those of
its loose ports. -/
lemma retire_changes (h : Tied S s) (hm : Meeting s.net a b) (hloose : ∀ p ∈ s.loose, ¬ Outside a b p)
    (hout : ∀ p, ¬ Outside a b p → p ∉ s.loose → ∀ q, s.net.wireAt p = some q → ¬ Outside a b q) :
    Changes S g s ⟨retire g s.net a b, ∅, ∅⟩ := by
  have hbury : Change S g s ⟨buryPair g s.net a b, ∅, s.limbo ∪ {a, b}⟩ := by
    refine .bury s a b hm.liveL hm.liveR hm.ne hm.wireL hm.wireR (fun p hp => ?_) fun p q hp hpa hpb hq => ?_
    · by_contra hno
      exact hloose p hp (not_or.1 hno)
    · by_contra hno
      have hpo : Outside a b p := ⟨hpa, hpb⟩
      obtain ⟨-, hql, hqp, -⟩ := h.wire p q hp (fun hmem => hloose p hmem hpo) hq
      exact hout q hno hql p hqp hpo
  have htied := hbury.tied h
  have he : retire g s.net a b = if (decide (1 < g.reduceDepth) || (buryPair g s.net a b).pins != 0 ||
      g.inParallel || g.noret) = true then buryPair g s.net a b
      else releaseNow (releaseNow (buryPair g s.net a b) a) b := rfl
  have ha : a ∈ s.limbo ∪ {a, b} := by simp
  have hb : b ∈ s.limbo ∪ {a, b} := by simp
  have hforget : ∀ (m : Net) (U : Set ℕ), Change S g ⟨m, ∅, U⟩ ⟨m, ∅, ∅⟩ := fun m U =>
    Change.forget ⟨m, ∅, U⟩ ∅ (Set.empty_subset U)
  rw [he]
  generalize buryPair g s.net a b = m at hbury htied ⊢
  split_ifs
  · exact (Relation.ReflTransGen.single hbury).tail (hforget m _)
  · obtain ⟨U, hc, hU, -⟩ := releaseNow_changes (g := g) htied (v := a) ha
    have hb : b ∈ U := hU b hb hm.ne.symm
    obtain ⟨V, hc', -, -⟩ := releaseNow_changes (g := g) (hc.tied htied) (v := b) hb
    exact ((Relation.ReflTransGen.head hbury hc).trans hc').tail (hforget _ V)

/-- Joining the boundary and retiring the pair. -/
lemma glue_changes {n : Net} (h : Tied S ⟨n, ∅, ∅⟩) (hm : Meeting n a b) {cor : List (ℕ × ℕ)}
    {x : Fin 6 → Fin 6} {f : Fin 3 → Fin 3} (hg : Glues cor x f) :
    Changes S g ⟨n, ∅, ∅⟩ ⟨retire g (pairBoundary g n a b cor) a b, ∅, ∅⟩ := by
  have hsorted := hg.sorted _ (h.pairShape (s := ⟨n, ∅, ∅⟩) hm)
  have hall : ∀ p, ¬ Outside a b p → ∃ j, p = pairPort a b j := fun p hp => exists_pairPort hp
  have hstart : Joining S g a b ⟨n, ∅, ∅⟩ (pairClasses (fun i => (pairShape n a b i).map Fin.val) cor) ⟨n, ∅, ∅⟩ := by
    refine ⟨.refl, ?_, le_rfl, fun p hp => absurd hp (by simp), fun j => .inl rfl,
      fun j hj => absurd (hsorted.2.1 j) hj⟩
    refine Sealed.refl hm.mated ?_ fun p q hp hq => ?_
    · rintro p (rfl | rfl)
      · exact hm.liveL
      · exact hm.liveR
    · have hl : n.live p.node = true := by
        obtain ⟨y, rfl | rfl, hy⟩ := hp
        · exact hy ▸ hm.liveL
        · exact hy ▸ hm.liveR
      exact (h.wire p q hl (by simp) hq).2.2.1
  obtain ⟨U, V, hend⟩ := hstart.run h hm hsorted.1 fun cls hc => LinEngine.endsOf_length hsorted hc
  rw [← pairBoundary_eq g hm.ne cor] at hend
  refine hend.changes.trans (retire_changes (hend.changes.tied h) (hm.sealed hend.sealed) (fun p hp => ?_)
    fun p hp hpl q hq ho => ?_)
  · obtain ⟨j, rfl, -⟩ := hend.loose p hp
    exact pairPort_not_outside a b j
  · obtain ⟨j, rfl⟩ := hall p hp
    exact hpl (hend.joined j (by simp) q hq ho)

end Join

/-! ## Handing over to copies -/

section Copy

variable {S : Set ℕ} {g : Globals} {s₀ s : Stage} {a b : ℕ}

/-- A port of a live node without a wire. -/
def Unwired (s : Stage) (p : Port) : Prop := s.net.live p.node = true ∧ s.net.wireAt p = none ∧ p ∉ s.loose

/-- Two such ports are linked. -/
lemma linkUnwired_change (h : Tied S s) {p q : Port} (hp : Unwired s p) (hq : Unwired s q) (hne : p ≠ q) {e : Bool}
    (he : e = true ∨ p.port ≠ 0 ∨ q.port ≠ 0) :
    Change S g s ⟨netLink g s.net (some p) (some q) e, s.loose, s.limbo⟩ := by
  have hback : ∀ y, Unwired s y → ∀ x, s.net.live x.node = true → s.net.wireAt x = some y → x ∈ s.loose := by
    intro y hy x hx hxy
    by_contra hxl
    have hyx := (h.wire x y hx hxl hxy).2.2.1
    rw [hy.2.1] at hyx
    cases hyx
  have hlink : Change S g s ⟨netLink g s.net (some p) (some q) e, s.loose ∪ ∅, s.limbo⟩ := by
    refine .link s p q e ∅ hne (.inl hp.1) (.inl hq.1) hp.2.2 hq.2.2 (fun x hx _ _ hxw => .inl ?_)
      (fun x hx => absurd hx (Set.notMem_empty x)) (fun w hw => ?_) he
    · rcases hxw with hxw | hxw
      · exact hback p hp x hx hxw
      · exact hback q hq x hx hxw
    · rcases hw with hw | hw
      · rw [hp.2.1] at hw
        cases hw
      · rw [hq.2.1] at hw
        cases hw
  rwa [Set.union_empty] at hlink

/-- Unwired ports are linked two by two. -/
lemma linkAll_changes (e : Bool) (ls : List (Port × Port)) (h : Tied S s)
    (hd : (ls.flatMap fun l => [l.1, l.2]).Nodup) (hs : ∀ l ∈ ls, Unwired s l.1 ∧ Unwired s l.2)
    (he : ∀ l ∈ ls, e = true ∨ l.1.port ≠ 0 ∨ l.2.port ≠ 0) :
    Changes S g s ⟨ls.foldl (fun n l => netLink g n (some l.1) (some l.2) e) s.net, s.loose, s.limbo⟩ := by
  induction ls generalizing s with
  | nil => exact .refl
  | cons l ls ih =>
    rw [List.flatMap_cons, List.nodup_append] at hd
    obtain ⟨hpair, hrest, hapart⟩ := hd
    have hne : l.1 ≠ l.2 := by simpa using hpair
    obtain ⟨hp, hq⟩ := hs l (by simp)
    have hstep := linkUnwired_change (g := g) h hp hq hne (he l (by simp))
    refine .head hstep (ih (hstep.tied h) hrest (fun k hk => ?_) fun k hk => he k (by simp [hk]))
    have hkeep : ∀ x, x ∈ [k.1, k.2] → Unwired s x → Unwired ⟨netLink g s.net (some l.1) (some l.2) e, s.loose, s.limbo⟩ x := by
      intro x hx hsx
      have hmem : x ∈ ls.flatMap fun l => [l.1, l.2] := List.mem_flatMap.2 ⟨k, hk, hx⟩
      have h1 : l.1 ≠ x := hapart l.1 (by simp) x hmem
      have h2 : l.2 ≠ x := hapart l.2 (by simp) x hmem
      refine ⟨?_, ?_, hsx.2.2⟩
      · rw [(netLink_linked g s.net (some l.1) (some l.2) e).live]
        exact hsx.1
      · rw [netLink_wireAt, if_neg h2, if_neg h1]
        exact hsx.2.1
    obtain ⟨hk1, hk2⟩ := hs k (by simp [hk])
    exact ⟨hkeep k.1 (by simp) hk1, hkeep k.2 (by simp) hk2⟩

/-- Four slots allocated one after the other are live and without wires. -/
lemma allocated_unwired {n n1 n2 n3 n4 : Net} {t1 t2 : Tag} {s1 : Fin 2 → ℕ} {s2 : ℕ} {c : Copies}
    (hc : [c.m1, c.m2, c.d1, c.d2].Nodup) (h1 : Allocated n t1 (s1 0) c.m1 n1)
    (h2 : Allocated n1 t1 (s1 1) c.m2 n2) (h3 : Allocated n2 t2 s2 c.d1 n3) (h4 : Allocated n3 t2 s2 c.d2 n4)
    {v : ℕ} (hv : c.has v) : n4.live v = true ∧ ∀ k, n4.wireAt ⟨v, k⟩ = none := by
  simp only [List.nodup_cons, List.mem_cons, List.not_mem_nil, or_false, not_or, not_false_eq_true,
    List.nodup_nil, and_true] at hc
  obtain ⟨⟨h12, h1d, h1e⟩, ⟨h2d, h2e⟩, hde⟩ := hc
  rcases hv with rfl | rfl | rfl | rfl
  · refine ⟨?_, fun k => ?_⟩
    · rw [h4.liveOther _ h1e, h3.liveOther _ h1d, h2.liveOther _ h12, h1.isLive]
    · rw [h4.wireOther _ h1e, h3.wireOther _ h1d, h2.wireOther _ h12, h1.wireNew]
  · refine ⟨?_, fun k => ?_⟩
    · rw [h4.liveOther _ h2e, h3.liveOther _ h2d, h2.isLive]
    · rw [h4.wireOther _ h2e, h3.wireOther _ h2d, h2.wireNew]
  · refine ⟨?_, fun k => ?_⟩
    · rw [h4.liveOther _ hde, h3.isLive]
    · rw [h4.wireOther _ hde, h3.wireNew]
  · exact ⟨h4.isLive, h4.wireNew⟩

lemma innerLinks_changes (h : Tied S s) {c : Copies} (hc : [c.m1, c.m2, c.d1, c.d2].Nodup)
    (hs : ∀ v, c.has v → ∀ k, Unwired s ⟨v, k⟩) : Changes S g s ⟨innerLinks g s.net c, s.loose, s.limbo⟩ := by
  obtain ⟨m1, m2, d1, d2⟩ := c
  have hm1 := hs m1 (.inl rfl)
  have hm2 := hs m2 (.inr (.inl rfl))
  have hd1 := hs d1 (.inr (.inr (.inl rfl)))
  have hd2 := hs d2 (.inr (.inr (.inr rfl)))
  simp only [List.nodup_cons, List.mem_cons, List.not_mem_nil, or_false, not_or, not_false_eq_true,
    List.nodup_nil, and_true] at hc
  obtain ⟨⟨h12, h1d, h1e⟩, ⟨h2d, h2e⟩, hde⟩ := hc
  refine linkAll_changes false [(⟨d1, 1⟩, ⟨m1, 1⟩), (⟨d1, 2⟩, ⟨m2, 1⟩), (⟨d2, 1⟩, ⟨m1, 2⟩), (⟨d2, 2⟩, ⟨m2, 2⟩)] h ?_ ?_ ?_
  · simp [h12, h1d, h1e, h2e, hde, Ne.symm h12, Ne.symm h1d, Ne.symm h1e, Ne.symm h2d, Ne.symm h2e]
  · simp [hm1, hm2, hd1, hd2]
  · simp

/-- The four copies are allocated and linked to each other. -/
lemma split2_changes (h : Tied S s) (hl : s.loose = ∅) (t1 : Tag) (s1 : Fin 2 → ℕ) (t2 : Tag) (s2 : ℕ) :
    Changes S g s ⟨(split2 g s.net t1 (s1 0) (s1 1) t2 s2).2, ∅, s.limbo⟩ ∧
      Split s.net t1 s1 t2 s2 (split2 g s.net t1 (s1 0) (s1 1) t2 s2).1 (split2 g s.net t1 (s1 0) (s1 1) t2 s2).2 := by
  obtain ⟨n, L, U⟩ := s
  dsimp only at hl
  subst hl
  have alloc : ∀ {n : Net} (t : Tag) (sc : ℕ) {r : ℕ × Net}, Tied S ⟨n, ∅, U⟩ → netAlloc g n t sc = r →
      Change S g ⟨n, ∅, U⟩ ⟨r.2, ∅, U⟩ ∧ Tied S ⟨r.2, ∅, U⟩ ∧ Allocated n t sc r.1 r.2 := by
    rintro n t sc r hn rfl
    have hc : Change S g ⟨n, ∅, U⟩ ⟨(netAlloc g n t sc).2, ∅, U⟩ := .alloc ⟨n, ∅, U⟩ t sc
    exact ⟨hc, hc.tied hn, hn.allocated t sc⟩
  obtain ⟨⟨m1, n1⟩, e1⟩ : ∃ r, netAlloc g n t1 (s1 0) = r := ⟨_, rfl⟩
  obtain ⟨c1, h1, a1⟩ := alloc t1 (s1 0) h e1
  obtain ⟨⟨m2, n2⟩, e2⟩ : ∃ r, netAlloc g n1 t1 (s1 1) = r := ⟨_, rfl⟩
  obtain ⟨c2, h2, a2⟩ := alloc t1 (s1 1) h1 e2
  obtain ⟨⟨d1, n3⟩, e3⟩ : ∃ r, netAlloc g n2 t2 s2 = r := ⟨_, rfl⟩
  obtain ⟨c3, h3, a3⟩ := alloc t2 s2 h2 e3
  obtain ⟨⟨d2, n4⟩, e4⟩ : ∃ r, netAlloc g n3 t2 s2 = r := ⟨_, rfl⟩
  obtain ⟨c4, h4, a4⟩ := alloc t2 s2 h3 e4
  have hsplit := split_of_allocated g a1 a2 a3 a4
  have he : split2 g n t1 (s1 0) (s1 1) t2 s2 = (⟨m1, m2, d1, d2⟩, innerLinks g n4 ⟨m1, m2, d1, d2⟩) := by
    simp only [split2, e1, e2, e3, e4]
    rfl
  have hspare : ∀ v, (⟨m1, m2, d1, d2⟩ : Copies).has v → ∀ k, Unwired ⟨n4, ∅, U⟩ ⟨v, k⟩ := fun v hv k => by
    obtain ⟨hlive, hnone⟩ := allocated_unwired (c := ⟨m1, m2, d1, d2⟩) hsplit.nodup a1 a2 a3 a4 hv
    exact ⟨hlive, hnone k, by simp⟩
  have hinner := innerLinks_changes (g := g) h4 hsplit.nodup hspare
  rw [he]
  exact ⟨.head c1 (.head c2 (.head c3 (.head c4 hinner))), hsplit⟩

/-- What the two passes of `linkCopies` may rely on: the copies are nodes of their own, and
wires inside the pair are mutual. -/
structure Handover (a b : ℕ) (t : Fin 4 → Option Port) (cp : Fin 4 → ℕ) : Prop where
  inj : ∀ k m, cp k = cp m → k = m
  outside : ∀ k, Outside a b ⟨cp k, 0⟩
  back : ∀ k m, auxIndex a b (t k) = some m → auxIndex a b (t m) = some k ∧ k ≠ m

/-- The first pass links the copies of the shorted auxiliaries among `done`. -/
structure Shorting (S : Set ℕ) (g : Globals) (t : Fin 4 → Option Port) (a b : ℕ) (cp : Fin 4 → ℕ) (s₀ : Stage)
    (r : Net × List (Fin 4)) : Prop where
  changes : Changes S g s₀ ⟨r.1, ∅, s₀.limbo⟩
  linked : Linked s₀.net r.1
  wire : ∀ p, (∀ k, p ≠ ⟨cp k, 0⟩) → r.1.wireAt p = s₀.net.wireAt p
  spare : ∀ k, k ∉ r.2 → r.1.wireAt ⟨cp k, 0⟩ = none
  done : ∀ k ∈ r.2, ∃ m, auxIndex a b (t k) = some m ∧ m ∈ r.2

section Handover

variable {t : Fin 4 → Option Port} {cp : Fin 4 → ℕ} {r : Net × List (Fin 4)}

lemma Shorting.step (hh : Handover a b t cp) (h₀ : Tied S s₀) (hlive : ∀ k, s₀.net.live (cp k) = true)
    (hr : Shorting S g t a b cp s₀ r) (k : Fin 4) :
    Shorting S g t a b cp s₀ (shortStep g (fun k => auxIndex a b (t k)) cp r k) ∧
      r.2 ⊆ (shortStep g (fun k => auxIndex a b (t k)) cp r k).2 ∧
      ∀ m, auxIndex a b (t k) = some m → k < m → k ∈ (shortStep g (fun k => auxIndex a b (t k)) cp r k).2 ∧
        m ∈ (shortStep g (fun k => auxIndex a b (t k)) cp r k).2 := by
  cases hk : auxIndex a b (t k) with
  | none =>
    simp only [shortStep, hk]
    exact ⟨hr, fun _ h => h, fun m hm => by cases hm⟩
  | some m =>
    simp only [shortStep, hk]
    obtain ⟨hmk, hne⟩ := hh.back k m hk
    split_ifs with hskip
    · refine ⟨hr, fun _ h => h, fun m' hm' hlt => ?_⟩
      rw [Option.some.injEq] at hm'
      subst hm'
      have hkr : k ∈ r.2 := hskip.resolve_left (by omega)
      obtain ⟨m', hm', hmem⟩ := hr.done k hkr
      rw [hk, Option.some.injEq] at hm'
      exact ⟨hkr, hm' ▸ hmem⟩
    · rw [not_or] at hskip
      have hmr : m ∉ r.2 := fun hmem => by
        obtain ⟨k', hk', hmem'⟩ := hr.done m hmem
        rw [hmk, Option.some.injEq] at hk'
        exact hskip.2 (hk' ▸ hmem')
      have hspare : ∀ j, j ∉ r.2 → Unwired ⟨r.1, ∅, s₀.limbo⟩ ⟨cp j, 0⟩ := fun j hj =>
        ⟨by rw [hr.linked.live]; exact hlive j, hr.spare j hj, by simp⟩
      have hports : (⟨cp k, 0⟩ : Port) ≠ ⟨cp m, 0⟩ := fun he => hne (hh.inj k m (congrArg Port.node he))
      have hstep := linkUnwired_change (g := g) (hr.changes.tied h₀) (hspare k hskip.2) (hspare m hmr) hports (.inl rfl)
      have hlink := netLink_linked g r.1 (some ⟨cp k, 0⟩) (some ⟨cp m, 0⟩) true
      refine ⟨⟨hr.changes.tail hstep, hr.linked.trans hlink, fun p hp => ?_, fun j hj => ?_,
        fun j hj => ?_⟩, fun j hj => List.mem_cons_of_mem _ (List.mem_cons_of_mem _ hj), fun m' hm' _ => ?_⟩
      · rw [netLink_wireAt, if_neg (Ne.symm (hp m)), if_neg (Ne.symm (hp k)), hr.wire p hp]
      · simp only [List.mem_cons, not_or] at hj
        have hcp : ∀ i, j ≠ i → (⟨cp i, 0⟩ : Port) ≠ ⟨cp j, 0⟩ := fun i hij he =>
          hij (hh.inj j i (congrArg Port.node he).symm)
        rw [netLink_wireAt, if_neg (hcp m hj.2.1), if_neg (hcp k hj.1)]
        exact hr.spare j hj.2.2
      · rcases List.mem_cons.1 hj with rfl | hj
        · exact ⟨m, hk, by simp⟩
        · rcases List.mem_cons.1 hj with rfl | hj
          · exact ⟨k, hmk, by simp⟩
          · obtain ⟨i, hi, hmem⟩ := hr.done j hj
            exact ⟨i, hi, List.mem_cons_of_mem _ (List.mem_cons_of_mem _ hmem)⟩
      · rw [Option.some.injEq] at hm'
        subst hm'
        exact ⟨by simp, by simp⟩

lemma Shorting.pass (hh : Handover a b t cp) (h₀ : Tied S s₀) (hlive : ∀ k, s₀.net.live (cp k) = true)
    (ks : List (Fin 4)) (hr : Shorting S g t a b cp s₀ r) :
    Shorting S g t a b cp s₀ (ks.foldl (shortStep g (fun k => auxIndex a b (t k)) cp) r) ∧
      r.2 ⊆ (ks.foldl (shortStep g (fun k => auxIndex a b (t k)) cp) r).2 ∧
      ∀ k ∈ ks, ∀ m, auxIndex a b (t k) = some m → k < m →
        k ∈ (ks.foldl (shortStep g (fun k => auxIndex a b (t k)) cp) r).2 ∧
          m ∈ (ks.foldl (shortStep g (fun k => auxIndex a b (t k)) cp) r).2 := by
  induction ks generalizing r with
  | nil => exact ⟨hr, fun _ h => h, fun k hk => absurd hk (by simp)⟩
  | cons k ks ih =>
    obtain ⟨h1, hsub, hin⟩ := hr.step hh h₀ hlive k
    obtain ⟨h2, hsub', hin'⟩ := ih h1
    rw [List.foldl_cons]
    refine ⟨h2, fun _ h => hsub' (hsub h), fun j hj m hm hlt => ?_⟩
    rcases List.mem_cons.1 hj with rfl | hj
    · obtain ⟨hk, hmm⟩ := hin m hm hlt
      exact ⟨hsub' hk, hsub' hmm⟩
    · exact hin' j hj m hm hlt

/-- The second pass has the copies `ks` to go, less those of `done`. -/
structure Loosening (S : Set ℕ) (g : Globals) (t : Fin 4 → Option Port) (a b : ℕ) (cp : Fin 4 → ℕ) (done : List (Fin 4))
    (s₀ : Stage) (ks : List (Fin 4)) (s : Stage) : Prop where
  changes : Changes S g s₀ s
  meeting : Meeting s.net a b
  aux : ∀ k, s.net.wireAt (auxOf a b k) = t k
  live : ∀ k, s.net.live (cp k) = true
  spare : ∀ k ∈ ks, k ∉ done → s.net.wireAt ⟨cp k, 0⟩ = none
  loose : ∀ p ∈ s.loose, ∃ k, p = auxOf a b k ∧ k ∉ ks
  handed : ∀ k, k ∉ ks → ∀ q, t k = some q → Outside a b q → auxOf a b k ∈ s.loose

lemma auxOf_inj (hab : a ≠ b) {k m : Fin 4} (h : auxOf a b k = auxOf a b m) : k = m := by
  have := auxIndex_auxOf hab k
  rw [h, auxIndex_auxOf hab m] at this
  exact (Option.some.inj this).symm

lemma auxOf_not_outside (a b : ℕ) (k : Fin 4) : ¬ Outside a b (auxOf a b k) := by
  rcases auxOf_node a b k with h | h <;> simp [Outside, h]

lemma Loosening.step (hh : Handover a b t cp) (h₀ : Tied S s₀) {done : List (Fin 4)} {k : Fin 4} {ks : List (Fin 4)}
    (hk : k ∉ ks) (hin : ∀ k ∈ done, ∀ q, t k = some q → ¬ Outside a b q)
    (hout : ∀ k, k ∉ done → ∀ q, t k = some q → Outside a b q)
    (hs : Loosening S g t a b cp done s₀ (k :: ks) s) :
    ∃ L, Loosening S g t a b cp done s₀ ks ⟨looseStep g t cp done s.net k, L, s.limbo⟩ := by
  have h := hs.changes.tied h₀
  have hm := hs.meeting
  have hloose : ∀ p ∈ s.loose, ∃ j, p = auxOf a b j ∧ j ∉ ks := fun p hp => by
    obtain ⟨j, hpj, hj⟩ := hs.loose p hp
    exact ⟨j, hpj, fun hmem => hj (List.mem_cons_of_mem _ hmem)⟩
  have hskip : looseStep g t cp done s.net k = s.net → (∀ q, t k = some q → ¬ Outside a b q) →
      Loosening S g t a b cp done s₀ ks ⟨looseStep g t cp done s.net k, s.loose, s.limbo⟩ := by
    intro he hno
    rw [he]
    refine ⟨hs.changes, hm, hs.aux, hs.live, fun j hj => hs.spare j (List.mem_cons_of_mem _ hj), hloose,
      fun j hj q hq ho => ?_⟩
    by_cases hjk : j = k
    · subst hjk
      exact absurd ho (hno q hq)
    · exact hs.handed j (by simp [hjk, hj]) q hq ho
  by_cases hd : k ∈ done
  · exact ⟨s.loose, hskip (by simp [looseStep, hd]) (hin k hd)⟩
  · cases ht : t k with
    | none => exact ⟨s.loose, hskip (by simp [looseStep, hd, ht, netLink_none]) fun q hq => by cases ht.symm.trans hq⟩
    | some e =>
      have he : looseStep g t cp done s.net k = netLink g s.net (some ⟨cp k, 0⟩) (some e) true := by
        simp [looseStep, hd, ht]
      have ho := hout k hd e ht
      have hwe : s.net.wireAt (auxOf a b k) = some e := (hs.aux k).trans ht
      have hnone := hs.spare k (by simp) hd
      have hkl : auxOf a b k ∉ s.loose := fun hmem => by
        obtain ⟨j, hj, hjk⟩ := hs.loose _ hmem
        exact hjk (by rw [auxOf_inj hm.ne hj]; simp)
      have hpl : s.net.live (auxOf a b k).node = true := by
        rcases auxOf_node a b k with hn | hn
        · rw [hn, hm.liveL]
        · rw [hn, hm.liveR]
      obtain ⟨hland, hel, hback, -⟩ := h.wire _ e hpl hkl hwe
      have hcl : (⟨cp k, 0⟩ : Port) ∉ s.loose := fun hmem => by
        obtain ⟨j, hj, -⟩ := hs.loose _ hmem
        exact auxOf_not_outside a b j (hj ▸ hh.outside k)
      have hne : (⟨cp k, 0⟩ : Port) ≠ e := by
        rintro rfl
        rw [hnone] at hback
        cases hback
      have hoff : ∀ p, ¬ Outside a b p → p ≠ ⟨cp k, 0⟩ ∧ p ≠ e := fun p hp =>
        ⟨fun hpe => hp (hpe ▸ hh.outside k), fun hpe => hp (hpe ▸ ho)⟩
      have hkeep : ∀ p, ¬ Outside a b p → (netLink g s.net (some ⟨cp k, 0⟩) (some e) true).wireAt p = s.net.wireAt p :=
        fun p hp => by rw [netLink_wireAt, if_neg (Ne.symm (hoff p hp).2), if_neg (Ne.symm (hoff p hp).1)]
      have hfaces : Faces s.net (auxOf a b k).node := by
        rcases auxOf_node a b k with hn | hn
        · rw [hn]
          exact ⟨b, hm.liveR, hm.wireL, hm.wireR⟩
        · rw [hn]
          exact ⟨a, hm.liveL, hm.wireR, hm.wireL⟩
      have hlink : Change S g s ⟨netLink g s.net (some ⟨cp k, 0⟩) (some e) true, s.loose ∪ {auxOf a b k}, s.limbo⟩ := by
        refine .link s _ e true _ hne (.inl (hs.live k)) hland hcl hel (fun x hx _ _ hxw => ?_) (fun x hx => ?_)
          (fun q hq => ?_) (.inl rfl)
        · by_cases hxl : x ∈ s.loose
          · exact .inl hxl
          · rcases hxw with hxw | hxw
            · have hx' := (h.wire x _ hx hxl hxw).2.2.1
              rw [hnone] at hx'
              cases hx'
            · have hx' := (h.wire x _ hx hxl hxw).2.2.1
              exact .inr (Option.some.inj (hx'.symm.trans hback))
        · rw [Set.mem_singleton_iff] at hx
          subst hx
          obtain ⟨h1, h2⟩ := hoff _ (auxOf_not_outside a b k)
          exact ⟨h1, h2, auxOf_port a b k, hpl, hfaces, .inr hwe⟩
        · rcases hq with hq | hq
          · rw [hnone] at hq
            cases hq
          · rw [hback] at hq
            exact Option.some.inj hq ▸ auxOf_port a b k
      have hlinked := netLink_linked g s.net (some ⟨cp k, 0⟩) (some e) true
      rw [he]
      refine ⟨_, hs.changes.tail hlink, ⟨hm.ne, ?_, ?_, ?_, ?_⟩, fun j => ?_, fun j => ?_, fun j hj hjd => ?_,
        fun p hp => ?_, fun j hj q hq hoq => ?_⟩
      · rw [hlinked.live, hm.liveL]
      · rw [hlinked.live, hm.liveR]
      · rw [hkeep _ fun hno => hno.1 rfl, hm.wireL]
      · rw [hkeep _ fun hno => hno.2 rfl, hm.wireR]
      · rw [hkeep _ (auxOf_not_outside a b j), hs.aux]
      · rw [hlinked.live, hs.live]
      · have hspare := hs.spare j (List.mem_cons_of_mem _ hj) hjd
        have hje : e ≠ ⟨cp j, 0⟩ := by
          rintro rfl
          rw [hspare] at hback
          cases hback
        have hjk : (⟨cp k, 0⟩ : Port) ≠ ⟨cp j, 0⟩ := fun hp => hk (hh.inj k j (congrArg Port.node hp) ▸ hj)
        rw [netLink_wireAt, if_neg hje, if_neg hjk, hspare]
      · rcases hp with hp | rfl
        · exact hloose p hp
        · exact ⟨k, rfl, hk⟩
      · by_cases hjk : j = k
        · exact .inr (by rw [hjk]; rfl)
        · exact .inl (hs.handed j (by simp [hjk, hj]) q hq hoq)

lemma Loosening.pass (hh : Handover a b t cp) (h₀ : Tied S s₀) {done : List (Fin 4)} {ks : List (Fin 4)}
    (hks : ks.Nodup) (hin : ∀ k ∈ done, ∀ q, t k = some q → ¬ Outside a b q)
    (hout : ∀ k, k ∉ done → ∀ q, t k = some q → Outside a b q)
    (hs : Loosening S g t a b cp done s₀ ks s) :
    ∃ L, Loosening S g t a b cp done s₀ [] ⟨ks.foldl (looseStep g t cp done) s.net, L, s.limbo⟩ := by
  induction ks generalizing s with
  | nil => exact ⟨s.loose, hs⟩
  | cons k ks ih =>
    rw [List.nodup_cons] at hks
    obtain ⟨L, hstep⟩ := hs.step hh h₀ hks.1 hin hout
    exact ih hks.2 hstep

end Handover

/-- A target inside the pair is an auxiliary of it, and leads back. -/
lemma Tied.handover {n : Net} {c : Copies} (h : Tied S ⟨n, ∅, ∅⟩) (hm : Meeting n a b)
    (hc : [c.m1, c.m2, c.d1, c.d2].Nodup) (hfresh : ∀ v, c.has v → n.live v = false) :
    Handover a b (auxTargets n a b) c.at ∧
      ∀ k q, auxTargets n a b k = some q → (auxIndex a b (some q) = none ↔ Outside a b q) := by
  have hpl : ∀ k, n.live (auxOf a b k).node = true := by
    intro k
    rcases auxOf_node a b k with hn | hn
    · rw [hn, hm.liveL]
    · rw [hn, hm.liveR]
  have hback : ∀ k q, n.wireAt (auxOf a b k) = some q → n.wireAt q = some (auxOf a b k) ∧ q ≠ auxOf a b k :=
    fun k q hq => (h.wire _ q (hpl k) (by simp) hq).2.2
  have hinside : ∀ k q, n.wireAt (auxOf a b k) = some q → ¬ Outside a b q → ∃ m, q = auxOf a b m := by
    intro k q hq ho
    refine exists_auxOf ?_ ?_ ?_
    · by_contra hno
      exact ho (not_or.1 hno)
    · rintro rfl
      have he := Option.some.inj (hm.wireL.symm.trans (hback k _ hq).1)
      exact auxOf_port a b k (by rw [← he])
    · rintro rfl
      have he := Option.some.inj (hm.wireR.symm.trans (hback k _ hq).1)
      exact auxOf_port a b k (by rw [← he])
  have hiff : ∀ k q, auxTargets n a b k = some q → (auxIndex a b (some q) = none ↔ Outside a b q) := by
    intro k q hq
    rw [auxTargets_eq] at hq
    constructor
    · intro hnone
      by_contra ho
      obtain ⟨m, rfl⟩ := hinside k q hq ho
      rw [auxIndex_auxOf hm.ne] at hnone
      cases hnone
    · exact fun ho => auxIndex_outside ho.1 ho.2
  refine ⟨⟨fun k m he => at_inj hc he, fun k => ?_, fun k m hkm => ?_⟩, hiff⟩
  · have hk := hfresh _ (has_at c k)
    constructor
    · rintro rfl
      rw [hm.liveL] at hk
      cases hk
    · rintro rfl
      rw [hm.liveR] at hk
      cases hk
  · cases ht : auxTargets n a b k with
    | none =>
      rw [ht] at hkm
      cases hkm
    | some q =>
      rw [ht] at hkm
      have ho : ¬ Outside a b q := fun ho => by
        rw [(hiff k q ht).2 ho] at hkm
        cases hkm
      rw [auxTargets_eq] at ht
      obtain ⟨i, rfl⟩ := hinside k q ht ho
      rw [auxIndex_auxOf hm.ne, Option.some.injEq] at hkm
      subst hkm
      obtain ⟨hw, hne⟩ := hback k _ ht
      refine ⟨by rw [auxTargets_eq, hw, auxIndex_auxOf hm.ne], ?_⟩
      rintro rfl
      exact hne rfl

/-- Handing the auxiliaries to copies and retiring the pair. -/
lemma copy_changes {n n0 : Net} (h : Tied S ⟨n, ∅, ∅⟩) (hm : Meeting n a b) (hg : Grown n n0) (t1 : Tag)
    (s1 : Fin 2 → ℕ) (t2 : Tag) (s2 : ℕ) :
    Changes S g ⟨n, ∅, ∅⟩ ⟨retire g (linkCopies g (split2 g n0 t1 (s1 0) (s1 1) t2 s2).2 a b (auxTargets n a b)
      (split2 g n0 t1 (s1 0) (s1 1) t2 s2).1.at) a b, ∅, ∅⟩ := by
  have hgrow : Change S g ⟨n, ∅, ∅⟩ ⟨n0, ∅, ∅⟩ := .grow ⟨n, ∅, ∅⟩ n0 hg
  have h0 := hgrow.tied h
  obtain ⟨hch, hsplit⟩ := split2_changes (g := g) h0 rfl t1 s1 t2 s2
  generalize split2 g n0 t1 (s1 0) (s1 1) t2 s2 = r at hch hsplit ⊢
  obtain ⟨c, m⟩ := r
  dsimp only at hch hsplit ⊢
  have hfresh : ∀ v, c.has v → n.live v = false := fun v hv => by
    rw [← hg.live v]
    exact hsplit.fresh v hv
  obtain ⟨hh, hiff⟩ := h.handover hm hsplit.nodup hfresh
  have h1 := hch.tied h0
  have hlive : ∀ k, m.live (c.at k) = true := fun k => (hsplit.live _).2 (.inr (has_at c k))
  have hold : ∀ v, n.live v = true → ¬ c.has v := fun v hv hc => by
    rw [hfresh v hc] at hv
    cases hv
  have hkeep : ∀ p : Port, n.live p.node = true → m.wireAt p = n.wireAt p := fun p hp => by
    rw [hsplit.wire p (hold _ hp), hg.wireAt]
  have hkeepl : ∀ v, n.live v = true → m.live v = true := fun v hv => (hsplit.live v).2 (.inl (by rw [hg.live, hv]))
  -- the first pass
  have hstart : Shorting S g (auxTargets n a b) a b c.at ⟨m, ∅, ∅⟩ (m, []) :=
    ⟨.refl, ⟨rfl, rfl, rfl, rfl, rfl, rfl, rfl⟩, fun _ _ => rfl, fun k _ => hsplit.principal _ (has_at c k),
      fun k hk => absurd hk List.not_mem_nil⟩
  obtain ⟨hshort, -, hdone⟩ := hstart.pass hh h1 hlive (List.finRange 4)
  rw [linkCopies_eq]
  dsimp only
  generalize (List.finRange 4).foldl (shortStep g (fun k => auxIndex a b (auxTargets n a b k)) c.at) (m, []) = r
    at hshort hdone ⊢
  have hmem : ∀ k, k ∈ r.2 ↔ auxIndex a b (auxTargets n a b k) ≠ none := by
    refine fun k => ⟨fun hk => ?_, fun hk => ?_⟩
    · obtain ⟨i, hi, -⟩ := hshort.done k hk
      rw [hi]
      exact Option.some_ne_none i
    · obtain ⟨i, hi⟩ := Option.ne_none_iff_exists'.1 hk
      obtain ⟨hik, hne⟩ := hh.back k i hi
      rcases lt_or_gt_of_ne hne with hlt | hlt
      · exact (hdone k (List.mem_finRange k) i hi hlt).1
      · exact (hdone i (List.mem_finRange i) k hik hlt).2
  -- the second pass
  have hpair : ∀ p, ¬ Outside a b p → n.live p.node = true → r.1.wireAt p = n.wireAt p := fun p hp hl => by
    rw [hshort.wire p fun k hk => hp (hk ▸ hh.outside k)]
    exact hkeep p hl
  have hauxl : ∀ k, n.live (auxOf a b k).node = true := fun k => by
    rcases auxOf_node a b k with hn | hn
    · rw [hn, hm.liveL]
    · rw [hn, hm.liveR]
  have hloosen : Loosening S g (auxTargets n a b) a b c.at r.2 ⟨m, ∅, ∅⟩ (List.finRange 4) ⟨r.1, ∅, ∅⟩ := by
    refine ⟨hshort.changes, ⟨hm.ne, ?_, ?_, ?_, ?_⟩, fun k => ?_, fun k => ?_, fun k _ hk => hshort.spare k hk,
      fun p hp => absurd hp (Set.notMem_empty p), fun k hk => absurd (List.mem_finRange k) hk⟩
    · rw [hshort.linked.live, hkeepl a hm.liveL]
    · rw [hshort.linked.live, hkeepl b hm.liveR]
    · rw [hpair _ (fun ho => ho.1 rfl) hm.liveL, hm.wireL]
    · rw [hpair _ (fun ho => ho.2 rfl) hm.liveR, hm.wireR]
    · rw [hpair _ (auxOf_not_outside a b k) (hauxl k), auxTargets_eq]
    · rw [hshort.linked.live, hlive]
  obtain ⟨L, hend⟩ := hloosen.pass hh h1 (List.nodup_finRange 4)
    (fun k hk q hq ho => (hmem k).1 hk (by rw [hq, (hiff k q hq).2 ho]))
    (fun k hk q hq => (hiff k q hq).1 (by
      rw [← hq]
      by_contra hno
      exact hk ((hmem k).2 hno)))
  have hm' := hend.meeting
  refine ((Relation.ReflTransGen.head hgrow hch).trans hend.changes).trans
    (retire_changes (hend.changes.tied h1) hm' (fun p hp => ?_) fun p hp hpl q hq ho => ?_)
  · obtain ⟨k, rfl, -⟩ := hend.loose p hp
    exact auxOf_not_outside a b k
  · by_cases hpa : p = ⟨a, 0⟩
    · rw [hpa, hm'.wireL] at hq
      exact ho.2 (congrArg Port.node (Option.some.inj hq)).symm
    · by_cases hpb : p = ⟨b, 0⟩
      · rw [hpb, hm'.wireR] at hq
        exact ho.1 (congrArg Port.node (Option.some.inj hq)).symm
      · have hin : p.node = a ∨ p.node = b := by
          by_contra hno
          exact hp (not_or.1 hno)
        obtain ⟨k, rfl⟩ := exists_auxOf hin hpa hpb
        exact hpl (hend.handed k (by simp) q ((hend.aux k).symm.trans hq) ho)

end Copy

/-! ## A call on a live redex -/

section Fire

variable {S : Set ℕ} {g : Globals} {n : Net} {a b : ℕ}

lemma interactSorted_changes (h : Tied S ⟨n, ∅, ∅⟩) (hm : Meeting n a b) :
    Changes S g ⟨n, ∅, ∅⟩ ⟨(interactSorted g n a b).2, ∅, ∅⟩ := by
  unfold interactSorted
  split
  · exact glue_changes h hm glues_swapped
  · dsimp only
    split_ifs
    · exact glue_changes h hm glues_straight
    · exact copy_changes h hm (.refl n) .dup (fun _ => n.scope.get a) .dup (n.scope.get b)
  · split_ifs
    · have hgrown := (lvlPrefix2_grown n 1 (n.scope.get a) (n.scope.get b)).trans
        (lvlPrefix2_grown _ 2 (n.scope.get a) (n.scope.get b))
      exact copy_changes h hm hgrown _ ![_, _] .dup (n.scope.get b)
    · exact .refl
  · exact .refl

/-- A call on a live redex is a sequence of changes of a net that is tied. -/
theorem netInteract_changes (h : Tied S ⟨n, ∅, ∅⟩) {p q : Port} (hr : redexLive n p q = true) :
    Changes S g ⟨n, ∅, ∅⟩ ⟨(netInteract g n p q).2, ∅, ∅⟩ := by
  obtain ⟨u, j⟩ := p
  obtain ⟨v, k⟩ := q
  simp only [redexLive, Bool.and_eq_true, beq_iff_eq] at hr
  obtain ⟨⟨⟨⟨⟨hu, hv⟩, rfl⟩, rfl⟩, hw⟩, hw'⟩ := hr
  have hm : Meeting n u v := by
    refine ⟨?_, hu, hv, hw, hw'⟩
    rintro rfl
    exact (h.wire _ _ hu (by simp) hw).2.2.2 rfl
  unfold netInteract
  split_ifs
  · exact interactSorted_changes h hm.symm
  · exact interactSorted_changes h hm

end Fire

end LinEngine
