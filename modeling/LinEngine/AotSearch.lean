import Mathlib

/-!
# The search for an artifact

`aot_search` of `main.c` builds its candidates one after the other, measures the artifact of
each and renames the best one to the output path. Whether an artifact loads back is kept as the
steps it has left, where −1 stands for an artifact that does not, and the comparison reads
this number like any other. A candidate is given by what its pipeline comes to.
-/
namespace LinEngine.Aot

/-- A row of the candidate table. -/
structure AotCand where
  name : String
  egraph : Option String
  rules : Option String
  precompile : Bool
  deriving DecidableEq, Repr

def aotDefaultCand : AotCand := ⟨"default", none, none, false⟩

def aotCands : List AotCand :=
  [⟨"default", none, none, false⟩, ⟨"precompiled", none, none, true⟩, ⟨"no-egraph", some "off", none, false⟩,
    ⟨"rules=eta", none, some "eta", false⟩]

/-- What building and measuring a candidate comes to. An artifact that is saved has a size and, if it loads back, a number
of steps left. -/
inductive Outcome
  | unbuilt
  | unsaved
  | saved (bytes : ℤ) (reload : Option ℕ)
  deriving DecidableEq, Repr

structure AotStats where
  bytes : ℤ
  rsteps : ℤ
  ok : Bool
  deriving DecidableEq, Repr

/-- `none` is a return of 0. -/
def aotRun : Outcome → Option AotStats
  | .unbuilt => none
  | .unsaved => none
  | .saved bytes none => some ⟨bytes, -1, true⟩
  | .saved bytes (some steps) => some ⟨bytes, steps, true⟩

def aotBetter (a b : AotStats) (bytesFirst : Bool) : Bool :=
  if !b.ok then true
  else if !a.ok then false
  else if bytesFirst then
    if a.bytes ≠ b.bytes then a.bytes < b.bytes else a.rsteps < b.rsteps
  else if a.rsteps ≠ b.rsteps then a.rsteps < b.rsteps
  else a.bytes < b.bytes

/-- The best candidate so far, and the temporaries on the disk. -/
structure Search where
  best : Option (ℕ × AotStats)
  temps : List ℕ
  deriving DecidableEq, Repr

def aotStep (bytesFirst : Bool) (s : Search) (c : Outcome × ℕ) : Search :=
  match aotRun c.1 with
  | none => s
  | some st =>
    let temps := c.2 :: s.temps
    if (s.best.map fun b => aotBetter st b.2 bytesFirst).getD true then ⟨some (c.2, st), temps⟩
    else ⟨s.best, temps.erase c.2⟩

def aotLoop (bytesFirst : Bool) (os : List Outcome) : Search := os.zipIdx.foldl (aotStep bytesFirst) ⟨none, []⟩

/-- The candidate that is shipped. The rename fails when its temporary is missing or the path cannot be written. -/
def ship (writable : Bool) (s : Search) : Option ℕ :=
  s.best.bind fun b => if writable && b.1 ∈ s.temps then some b.1 else none

/-- The candidates of a run: all of them, or the default. -/
def candidates (search : Bool) : List AotCand := if search then aotCands else [aotDefaultCand]

/-- `none` is a failure that is reported. -/
def aotSearch (search bytesFirst writable : Bool) (run : AotCand → Outcome) : Option ℕ :=
  ship writable (aotLoop bytesFirst ((candidates search).map run))

/-! ## The objective -/

/-- What is compared; less is better. -/
def rank (bytesFirst : Bool) (steps bytes : ℤ) : ℤ ×ₗ ℤ := if bytesFirst then toLex (bytes, steps) else toLex (steps, bytes)

/-- The claim of the search about its result: a candidate that loads back and that no other one beats, or a failure when
none loads back. -/
def ShipsBest (bytesFirst : Bool) (os : List Outcome) (r : Option ℕ) : Prop :=
  (∀ i, r = some i → ∃ bytes, ∃ steps : ℕ, os[i]? = some (.saved bytes (some steps)) ∧
    ∀ bytes' (steps' : ℕ), .saved bytes' (some steps') ∈ os → rank bytesFirst steps bytes ≤ rank bytesFirst steps' bytes') ∧
  ((∀ bytes steps, .saved bytes (some steps) ∉ os) → r = none)

/-- An artifact that does not load back is larger than one that does, and the size comes first. -/
def Outweighed (bytesFirst : Bool) (os : List Outcome) : Prop :=
  ∀ bytes, .saved bytes none ∈ os → bytesFirst = true ∧ ∃ bytes' steps', .saved bytes' (some steps') ∈ os ∧ bytes' < bytes

/-! ## The loop -/

variable {bytesFirst : Bool} {os : List Outcome}

lemma aotBetter_iff {a b : AotStats} (ha : a.ok = true) (hb : b.ok = true) :
    aotBetter a b bytesFirst = true ↔ rank bytesFirst a.rsteps a.bytes < rank bytesFirst b.rsteps b.bytes := by
  simp only [aotBetter, ha, hb, Bool.not_true, Bool.false_eq_true, if_false, rank]
  cases bytesFirst
  · simp only [Bool.false_eq_true, if_false, Prod.Lex.toLex_lt_toLex]
    split_ifs with h
    · simp [h]
    · simp [not_ne_iff.mp h]
  · simp only [if_true, Prod.Lex.toLex_lt_toLex]
    split_ifs with h
    · simp [h]
    · simp [not_ne_iff.mp h]

lemma aotRun_ok {o : Outcome} {st : AotStats} (h : aotRun o = some st) : st.ok = true := by
  rcases o with _ | _ | ⟨bytes, _ | steps⟩ <;> cases h <;> rfl

/-- What holds of the search after the candidates `os`. -/
structure Leads (bytesFirst : Bool) (os : List Outcome) (s : Search) : Prop where
  none : s.best = none → ∀ o ∈ os, aotRun o = none
  kept : ∀ i st, s.best = some (i, st) → i ∈ s.temps ∧ ∃ o, os[i]? = some o ∧ aotRun o = some st
  least : ∀ i st, s.best = some (i, st) → ∀ o ∈ os, ∀ st', aotRun o = some st' →
    rank bytesFirst st.rsteps st.bytes ≤ rank bytesFirst st'.rsteps st'.bytes

lemma Leads.step {s : Search} {o : Outcome} (h : Leads bytesFirst os s) :
    Leads bytesFirst (os ++ [o]) (aotStep bytesFirst s (o, os.length)) := by
  have hget : ∀ {i : ℕ} {o' : Outcome}, os[i]? = some o' → (os ++ [o])[i]? = some o' := by
    intro i o' hi
    rw [List.getElem?_append_left (List.getElem?_eq_some_iff.mp hi).1, hi]
  have hlast : (os ++ [o])[os.length]? = some o := by simp
  have hmem : ∀ {P : Outcome → Prop}, (∀ o' ∈ os, P o') → P o → ∀ o' ∈ os ++ [o], P o' := by
    intro P hos ho o' ho'
    rcases List.mem_append.mp ho' with ho' | ho'
    · exact hos o' ho'
    · exact List.mem_singleton.mp ho' ▸ ho
  unfold aotStep
  cases hrun : aotRun o with
  | none =>
    refine ⟨fun hb => hmem (h.none hb) hrun, fun i st hb => ?_, fun i st hb => hmem (h.least i st hb) fun st' h' => ?_⟩
    · obtain ⟨htemp, o', hi, ho'⟩ := h.kept i st hb
      exact ⟨htemp, o', hget hi, ho'⟩
    · rw [hrun] at h'
      cases h'
  | some new =>
    have hnew := aotRun_ok hrun
    dsimp only
    split_ifs with hbetter
    · refine ⟨fun hb => (by cases hb), fun i st hb => ?_, fun i st hb => ?_⟩ <;> cases hb
      · exact ⟨List.mem_cons_self, o, hlast, hrun⟩
      · refine hmem (fun o' ho' st' h' => ?_) fun st' h' => ?_
        · -- the new candidate beats the old best, which was the least of the earlier ones
          rcases hbest : s.best with _ | ⟨i, old⟩
          · rw [h.none hbest o' ho'] at h'
            cases h'
          · obtain ⟨-, o'', -, hold⟩ := h.kept i old hbest
            rw [hbest] at hbetter
            have hlt := (aotBetter_iff hnew (aotRun_ok hold)).mp hbetter
            exact hlt.le.trans (h.least i old hbest o' ho' st' h')
        · rw [hrun] at h'
          cases h'
          exact le_rfl
    · rw [List.erase_cons_head]
      rcases hbest : s.best with _ | ⟨i, old⟩
      · rw [hbest] at hbetter
        exact absurd rfl hbetter
      · obtain ⟨htemp, o', hi, hold⟩ := h.kept i old hbest
        rw [hbest] at hbetter
        refine ⟨fun hb => (by cases hb), fun j st hb => ?_, fun j st hb => ?_⟩ <;> cases hb
        · exact ⟨htemp, o', hget hi, hold⟩
        · refine hmem (h.least i old hbest) fun st' h' => ?_
          rw [hrun] at h'
          cases h'
          exact not_lt.mp fun hlt => hbetter ((aotBetter_iff hnew (aotRun_ok hold)).mpr hlt)

lemma aotLoop_leads (bytesFirst : Bool) (os : List Outcome) : Leads bytesFirst os (aotLoop bytesFirst os) := by
  induction os using List.reverseRecOn with
  | nil => exact ⟨fun _ _ h => absurd h List.not_mem_nil, fun _ _ h => (by cases h), fun _ _ h => (by cases h)⟩
  | append_singleton os o ih =>
    have hloop : aotLoop bytesFirst (os ++ [o]) = aotStep bytesFirst (aotLoop bytesFirst os) (o, os.length) := by
      simp [aotLoop, List.zipIdx_append]
    rw [hloop]
    exact ih.step

/-! ## What is shipped -/

lemma ship_eq_some {writable : Bool} {i : ℕ} :
    ship writable (aotLoop bytesFirst os) = some i ↔ writable = true ∧ ∃ st, (aotLoop bytesFirst os).best = some (i, st) := by
  have hleads := aotLoop_leads bytesFirst os
  unfold ship
  rcases hbest : (aotLoop bytesFirst os).best with _ | ⟨j, st⟩
  · simp
  · have htemp := (hleads.kept j st hbest).1
    cases writable <;> simp [htemp]

/-- No artifact that does not load back is ranked behind one that does, unless it is larger and the size comes first. -/
lemma rank_reload {steps : ℕ} {bytes bytes' : ℤ} :
    rank bytesFirst steps bytes ≤ rank bytesFirst (-1) bytes' ↔ bytesFirst = true ∧ bytes < bytes' := by
  cases bytesFirst with
  | false =>
    simp only [rank, Bool.false_eq_true, if_false, Prod.Lex.toLex_le_toLex, false_and, iff_false]
    omega
  | true =>
    simp only [rank, if_true, Prod.Lex.toLex_le_toLex, true_and]
    omega

lemma shipsBest_iff (writable : Bool) :
    ShipsBest bytesFirst os (ship writable (aotLoop bytesFirst os)) ↔ writable = false ∨ Outweighed bytesFirst os := by
  have hleads := aotLoop_leads bytesFirst os
  constructor
  · rintro ⟨hbest, -⟩
    refine or_iff_not_imp_left.mpr fun hw bytes hmem => ?_
    have hwritable : writable = true := by simpa using hw
    rcases hlead : (aotLoop bytesFirst os).best with _ | ⟨i, st⟩
    · cases hleads.none hlead _ hmem
    obtain ⟨size, steps, hi, -⟩ := hbest i (ship_eq_some.mpr ⟨hwritable, st, hlead⟩)
    obtain ⟨-, o, hi', hrun⟩ := hleads.kept i st hlead
    rw [hi] at hi'
    cases hi'
    cases hrun
    obtain ⟨hfirst, hlt⟩ := rank_reload.mp (hleads.least i _ hlead _ hmem _ rfl)
    exact ⟨hfirst, size, steps, List.mem_of_getElem? hi, hlt⟩
  · rintro (rfl | hout)
    · have hnone : ship false (aotLoop bytesFirst os) = none :=
        Option.eq_none_iff_forall_ne_some.mpr fun i hi => Bool.false_ne_true (ship_eq_some.mp hi).1
      rw [hnone]
      exact ⟨fun i hi => (by cases hi), fun _ => rfl⟩
    · -- whatever leads loads back
      have hlead : ∀ i, ship writable (aotLoop bytesFirst os) = some i → ∃ bytes, ∃ steps : ℕ,
          os[i]? = some (.saved bytes (some steps)) ∧ ∀ bytes' (steps' : ℕ), .saved bytes' (some steps') ∈ os →
            rank bytesFirst steps bytes ≤ rank bytesFirst steps' bytes' := by
        intro i hi
        obtain ⟨-, st, hbest⟩ := ship_eq_some.mp hi
        obtain ⟨-, o, hi, hrun⟩ := hleads.kept i st hbest
        have hleast := hleads.least i st hbest
        rcases o with _ | _ | ⟨bytes, _ | steps⟩
        · cases hrun
        · cases hrun
        · obtain ⟨rfl, bytes', steps', hmem, hlt⟩ := hout bytes (List.mem_of_getElem? hi)
          cases hrun
          have hle := hleast _ hmem _ rfl
          simp only [rank, if_true, Prod.Lex.toLex_le_toLex] at hle
          omega
        · cases hrun
          exact ⟨bytes, steps, hi, fun bytes' steps' hmem => hleast _ hmem _ rfl⟩
      refine ⟨hlead, fun hnone => Option.eq_none_iff_forall_ne_some.mpr fun i hi => ?_⟩
      obtain ⟨bytes, steps, hi, -⟩ := hlead i hi
      exact hnone bytes steps (List.mem_of_getElem? hi)

/-- The search ships the best candidate that loads back exactly when each artifact that does not load back is larger than one
that does and the size comes first, or nothing can be written. -/
theorem aotSearch_best (search bytesFirst writable : Bool) (run : AotCand → Outcome) :
    ShipsBest bytesFirst ((candidates search).map run) (aotSearch search bytesFirst writable run) ↔
      writable = false ∨ Outweighed bytesFirst ((candidates search).map run) :=
  shipsBest_iff writable

/-- The only candidate does not load back and is shipped. -/
theorem aotSearch_unloadable : ¬ ∀ (search bytesFirst writable : Bool) (run : AotCand → Outcome),
    ShipsBest bytesFirst ((candidates search).map run) (aotSearch search bytesFirst writable run) := by
  intro h
  obtain ⟨hbest, -⟩ := h false false true fun _ => .saved 100 none
  obtain ⟨bytes, steps, hi, -⟩ := hbest 0 (by decide)
  cases hi

end LinEngine.Aot
