import LinEngine.StableOrder

/-!
# The driver registry

`lin_driver_add` and `lin_driver_clear` of `net.c`. Drivers are known by their addresses, and
what stands in their memory is given by a function that does not change, up to the field
`slot`, which the core writes. The layout of the two structs is a parameter.
-/
namespace LinEngine.Drivers

/-- The hooks that a capability may ask for. -/
inductive Hook
  | stateNew | nodeRecycled | valBox | valUnbox | carrySave | readValue | print | runIo | aot
  deriving DecidableEq, Repr

/-- Sizes and offsets that the compiler chooses. -/
structure Layout where
  netSize : ℕ
  slotEnd : ℕ
  hookEnd : Hook → ℕ

/-- A driver as its plugin was built; a hook may be absent. -/
structure LinDriver where
  magic : UInt32
  abi : UInt32
  netSize : UInt32
  caps : UInt64
  priority : Int32
  size : UInt32
  wants : UInt64
  hook : Hook → Bool

def linDriverMagic : UInt32 := 0x4C494E44

def linDriverAbi : UInt32 := 6

def linCapPreempt : UInt64 := 0x08

def linCapProvider : UInt64 := 0x10

def linWantAll : UInt64 := 0xff

/-- The capabilities whose hooks are checked, each with its hooks. -/
def wantHooks : List (UInt64 × List Hook) :=
  [(0x01, [.stateNew]), (0x02, [.nodeRecycled]), (0x04, [.carrySave]), (0x80, [.aot]), (0x08, [.valBox, .valUnbox]),
    (0x40, [.readValue, .print, .runIo])]

/-- How many driver states a net can hold. -/
def linDrvSlots : ℕ := 8

/-- The file-level variables, and the field `slot` of every driver. -/
structure Registry where
  drv : List ℕ
  dslot : Fin linDrvSlots → Option ℕ
  slot : ℕ → ℤ
  anyRecycle : Bool
  anyState : Bool

/-- At the start of the process. -/
def Registry.start (slot : ℕ → ℤ) : Registry := ⟨[], fun _ => none, slot, false, false⟩

inductive Refusal
  | null | abi | layout | capability | slots | missing
  deriving DecidableEq, Repr

/-- The hook lies within the driver's struct and is set. -/
def hasHook (L : Layout) (d : LinDriver) (h : Hook) : Bool := decide (L.hookEnd h ≤ d.size.toNat) && d.hook h

/-- What is checked before the registry is looked at. -/
def invalid (L : Layout) (d : LinDriver) : Option Refusal :=
  if d.magic ≠ linDriverMagic ∨ d.abi ≠ linDriverAbi then some .abi
  else if L.netSize < d.netSize.toNat ∨ d.size.toNat < L.slotEnd then some .layout
  else if d.wants &&& ~~~linWantAll ≠ 0 then some .capability
  else if wantHooks.any fun w => d.wants &&& w.1 ≠ 0 && w.2.any fun h => !hasHook L d h then some .missing
  else none

/-- The slot that the driver has, or the first free one. -/
def findSlot (r : Registry) (d : ℕ) : Option (Fin linDrvSlots) :=
  ((List.finRange linDrvSlots).find? fun i => r.dslot i == some d).or
    ((List.finRange linDrvSlots).find? fun i => (r.dslot i).isNone)

/-- The driver gets its slot, and what it needs of the core is noted. -/
def giveSlot (L : Layout) (mem : ℕ → LinDriver) (r : Registry) (d : ℕ) (i : Fin linDrvSlots) : Registry :=
  { r with
    dslot := Function.update r.dslot i (some d)
    slot := Function.update r.slot d i
    anyRecycle := r.anyRecycle || hasHook L (mem d) .nodeRecycled
    anyState := r.anyState || hasHook L (mem d) .stateNew }

/-- A driver that does not dispatch yet enters the table behind those of its priority. -/
def dispatch (mem : ℕ → LinDriver) (r : Registry) (d : ℕ) : Registry :=
  if d ∈ r.drv then r else { r with drv := StableOrder.insertBack (fun e => (mem e).priority.toInt) d r.drv }

/-- The answer `none` accepts. -/
def linDriverAdd (L : Layout) (mem : ℕ → LinDriver) (r : Registry) : Option ℕ → Option Refusal × Registry
  | none => (some .null, r)
  | some d =>
    match invalid L (mem d) with
    | some why => (some why, r)
    | none =>
      match findSlot r d with
      | none => (some .slots, r)
      | some i => (none, dispatch mem (giveSlot L mem r d i) d)

/-- Pre-emptors and providers stay. -/
def staysOn (mem : ℕ → LinDriver) (d : ℕ) : Bool := (mem d).caps &&& (linCapPreempt ||| linCapProvider) != 0

def linDriverClear (mem : ℕ → LinDriver) (r : Registry) : Registry := { r with drv := r.drv.filter (staysOn mem) }

/-! ## Runs -/

inductive DriverOp
  | add (d : Option ℕ)
  | clear
  deriving DecidableEq, Repr

section

variable (L : Layout) (mem : ℕ → LinDriver)

def DriverOp.apply (r : Registry) : DriverOp → Registry
  | .add d => (linDriverAdd L mem r d).2
  | .clear => linDriverClear mem r

def driverRun (r : Registry) (ops : List DriverOp) : Registry := ops.foldl (DriverOp.apply L mem) r

/-- The add of this driver is accepted. -/
def Accepts (r : Registry) (d : ℕ) : Prop := (linDriverAdd L mem r (some d)).1 = none

/-- The drivers that dispatch after the operations, in the order in which they entered the table. -/
def arrivals : Registry → List ℕ → List DriverOp → List ℕ
  | _, log, [] => log
  | r, log, .add none :: ops => arrivals r log ops
  | r, log, .add (some d) :: ops =>
    let a := linDriverAdd L mem r (some d)
    arrivals a.2 (if a.1 = none ∧ d ∉ log then log ++ [d] else log) ops
  | r, log, .clear :: ops => arrivals (linDriverClear mem r) (log.filter (staysOn mem)) ops

/-- An add within the run accepts the driver and gives it the slot. -/
def Served (r : Registry) (ops : List DriverOp) (d : ℕ) (k : ℤ) : Prop :=
  ∃ pre post, ops = pre ++ .add (some d) :: post ∧ Accepts L mem (driverRun L mem r pre) d ∧
    (driverRun L mem r (pre ++ [.add (some d)])).slot d = k

end

/-! ## One operation -/

section

variable {L : Layout} {mem : ℕ → LinDriver} {r : Registry} {d : ℕ}

/-- The slots are given to different drivers, and a driver's field names its slot. -/
structure Slotted (r : Registry) : Prop where
  inj : ∀ i j d, r.dslot i = some d → r.dslot j = some d → i = j
  field : ∀ i d, r.dslot i = some d → r.slot d = i

/-- What an operation never takes back. -/
def Grows (r r' : Registry) : Prop := ∀ i d, r.dslot i = some d → r'.dslot i = some d

lemma Grows.trans {r' r'' : Registry} (h : Grows r r') (h' : Grows r' r'') : Grows r r'' := fun i d hi => h' i d (h i d hi)

lemma findSlot_spec {i : Fin linDrvSlots} (h : findSlot r d = some i) :
    r.dslot i = some d ∨ (∀ j, r.dslot j ≠ some d) ∧ r.dslot i = none := by
  unfold findSlot at h
  rcases Option.or_eq_some_iff.mp h with h | ⟨hnone, h⟩
  · exact Or.inl (by simpa using List.find?_some h)
  · refine Or.inr ⟨fun j => ?_, by simpa using List.find?_some h⟩
    simpa using List.find?_eq_none.mp hnone j (List.mem_finRange j)

variable (L mem) in
lemma giveSlot_spec {i : Fin linDrvSlots} (h : Slotted r) (hi : findSlot r d = some i) :
    Slotted (giveSlot L mem r d i) ∧ Grows r (giveSlot L mem r d i) := by
  -- The slot was the driver's already, or nobody's, and then the driver has no other one.
  have hfree : ∀ e, r.dslot i = some e → e = d := by
    intro e he
    rcases findSlot_spec hi with hold | ⟨-, hnone⟩
    · exact Option.some.inj (he.symm.trans hold)
    · rw [hnone] at he
      cases he
  have honly : ∀ j, r.dslot j = some d → j = i := by
    intro j hj
    rcases findSlot_spec hi with hold | ⟨hno, -⟩
    · exact h.inj j i d hj hold
    · exact absurd hj (hno j)
  have hread : ∀ j e, (giveSlot L mem r d i).dslot j = some e ↔ j = i ∧ e = d ∨ j ≠ i ∧ r.dslot j = some e := by
    intro j e
    by_cases hj : j = i
    · subst hj
      simp [giveSlot, eq_comm]
    · simp [giveSlot, hj]
  refine ⟨⟨fun j k e hj hk => ?_, fun j e hj => ?_⟩, fun j e hj => ?_⟩
  · rcases (hread j e).mp hj with ⟨rfl, rfl⟩ | ⟨hne, hold⟩
    · rcases (hread k e).mp hk with ⟨rfl, -⟩ | ⟨-, hk⟩
      · rfl
      · exact (honly k hk).symm
    · rcases (hread k e).mp hk with ⟨rfl, rfl⟩ | ⟨-, hk⟩
      · exact absurd (honly j hold) hne
      · exact h.inj j k e hold hk
  · rcases (hread j e).mp hj with ⟨rfl, rfl⟩ | ⟨hne, hold⟩
    · exact Function.update_self ..
    · have hed : e ≠ d := by
        rintro rfl
        exact hne (honly j hold)
      exact (Function.update_of_ne hed ..).trans (h.field j e hold)
  · by_cases hji : j = i
    · subst hji
      exact (hread j e).mpr (Or.inl ⟨rfl, hfree e hj⟩)
    · exact (hread j e).mpr (Or.inr ⟨hji, hj⟩)

/-- A driver is refused and nothing changes, or it has a slot and dispatches. -/
lemma linDriverAdd_cases (L : Layout) (mem : ℕ → LinDriver) (r : Registry) (o : Option ℕ) :
    (∃ why, linDriverAdd L mem r o = (some why, r)) ∨
      ∃ d i, o = some d ∧ findSlot r d = some i ∧ linDriverAdd L mem r o = (none, dispatch mem (giveSlot L mem r d i) d) := by
  cases o with
  | none => exact Or.inl ⟨.null, rfl⟩
  | some d =>
    simp only [linDriverAdd]
    split
    · exact Or.inl ⟨_, rfl⟩
    · split
      · exact Or.inl ⟨_, rfl⟩
      · exact Or.inr ⟨d, _, rfl, ‹_›, rfl⟩

lemma dispatch_slots (mem : ℕ → LinDriver) (r : Registry) (d : ℕ) :
    (dispatch mem r d).dslot = r.dslot ∧ (dispatch mem r d).slot = r.slot := by
  unfold dispatch
  split_ifs <;> exact ⟨rfl, rfl⟩

lemma Slotted.congr {r' : Registry} (h : Slotted r) (hd : r'.dslot = r.dslot) (hs : r'.slot = r.slot) : Slotted r' :=
  ⟨fun i j d hi hj => h.inj i j d (hd ▸ hi) (hd ▸ hj), fun i d hi => hs ▸ h.field i d (hd ▸ hi)⟩

variable (L mem) in
lemma Slotted.apply (h : Slotted r) (o : DriverOp) : Slotted (o.apply L mem r) ∧ Grows r (o.apply L mem r) := by
  cases o with
  | clear => exact ⟨h.congr rfl rfl, fun i d hi => hi⟩
  | add o =>
    change Slotted (linDriverAdd L mem r o).2 ∧ Grows r (linDriverAdd L mem r o).2
    rcases linDriverAdd_cases L mem r o with ⟨why, heq⟩ | ⟨d, i, -, hi, heq⟩
    · rw [heq]
      exact ⟨h, fun i d hi => hi⟩
    · obtain ⟨hslotted, hgrows⟩ := giveSlot_spec L mem h hi
      obtain ⟨hd, hs⟩ := dispatch_slots mem (giveSlot L mem r d i) d
      rw [heq]
      exact ⟨hslotted.congr hd hs, fun j e hj => by rw [hd]; exact hgrows j e hj⟩

/-- An accepted driver has a slot. -/
lemma Accepts.slot (h : Accepts L mem r d) : ∃ i, (linDriverAdd L mem r (some d)).2.dslot i = some d := by
  rcases linDriverAdd_cases L mem r (some d) with ⟨why, heq⟩ | ⟨e, i, he, -, heq⟩
  · rw [Accepts, heq] at h
    cases h
  · cases he
    refine ⟨i, ?_⟩
    rw [heq, (dispatch_slots mem _ d).1]
    exact Function.update_self ..

/-- A refused driver changes nothing. -/
lemma linDriverAdd_refuses {o : Option ℕ} (h : (linDriverAdd L mem r o).1 ≠ none) : (linDriverAdd L mem r o).2 = r := by
  rcases linDriverAdd_cases L mem r o with ⟨why, heq⟩ | ⟨d, i, -, -, heq⟩
  · rw [heq]
  · rw [heq] at h
    exact absurd rfl h

/-! ## Runs keep the order and the slots -/

variable (L mem) in
lemma driverRun_slotted (ops : List DriverOp) (h : Slotted r) :
    Slotted (driverRun L mem r ops) ∧ Grows r (driverRun L mem r ops) := by
  induction ops generalizing r with
  | nil => exact ⟨h, fun i d hi => hi⟩
  | cons o ops ih =>
    obtain ⟨hslotted, hgrows⟩ := h.apply L mem o
    obtain ⟨hrun, hgrows'⟩ := ih hslotted
    exact ⟨hrun, hgrows.trans hgrows'⟩

/-- The dispatch table is the list of arrivals in the order of priority. -/
lemma driverRun_arranged {log : List ℕ} (ops : List DriverOp)
    (h : StableOrder.Arranged (fun e => (mem e).priority.toInt) log r.drv) :
    StableOrder.Arranged (fun e => (mem e).priority.toInt) (arrivals L mem r log ops) (driverRun L mem r ops).drv := by
  induction ops generalizing r log with
  | nil => exact h
  | cons o ops ih =>
    rcases o with (_ | d) | _
    · exact ih h
    · rcases linDriverAdd_cases L mem r (some d) with ⟨why, heq⟩ | ⟨e, i, he, -, heq⟩
      · have hrun : driverRun L mem r (.add (some d) :: ops) = driverRun L mem r ops := by
          simp [driverRun, DriverOp.apply, heq]
        rw [hrun, arrivals, heq]
        exact ih h
      · cases he
        have hrun : driverRun L mem r (.add (some d) :: ops) =
            driverRun L mem (dispatch mem (giveSlot L mem r d i) d) ops := by
          simp [driverRun, DriverOp.apply, heq]
        rw [hrun, arrivals, heq]
        refine ih ?_
        have hmem : d ∈ r.drv ↔ d ∈ log := h.perm.mem_iff
        by_cases hd : d ∈ log
        · rw [if_neg fun h => h.2 hd, dispatch, if_pos (show d ∈ (giveSlot L mem r d i).drv from hmem.mpr hd)]
          exact h
        · rw [if_pos ⟨rfl, hd⟩, dispatch, if_neg (show d ∉ (giveSlot L mem r d i).drv from mt hmem.mp hd)]
          exact h.insertBack hd
    · exact ih (h.filter (staysOn mem))

lemma driverRun_append (r : Registry) (pre post : List DriverOp) :
    driverRun L mem r (pre ++ post) = driverRun L mem (driverRun L mem r pre) post := List.foldl_append

/-- An accepted add gives the driver a slot that it has for the rest of the run. -/
lemma Served.slot {ops : List DriverOp} {k : ℤ} (hr : Slotted r) (h : Served L mem r ops d k) :
    ∃ i : Fin linDrvSlots, k = i ∧ (driverRun L mem r ops).dslot i = some d ∧ (driverRun L mem r ops).slot d = k := by
  obtain ⟨pre, post, rfl, haccept, rfl⟩ := h
  obtain ⟨hpre, -⟩ := driverRun_slotted L mem pre hr
  obtain ⟨hadd, -⟩ := hpre.apply L mem (.add (some d))
  obtain ⟨i, hi⟩ := haccept.slot
  have hlast : driverRun L mem r (pre ++ [.add (some d)]) = (linDriverAdd L mem (driverRun L mem r pre) (some d)).2 := by
    rw [driverRun_append]
    rfl
  have hsplit : driverRun L mem r (pre ++ .add (some d) :: post) =
      driverRun L mem (linDriverAdd L mem (driverRun L mem r pre) (some d)).2 post := by
    rw [driverRun_append]
    rfl
  obtain ⟨hpost, hgrows⟩ := driverRun_slotted L mem post hadd
  have hfield := hadd.field i d hi
  rw [hlast, hsplit]
  exact ⟨i, hfield, hgrows i d hi, (hpost.field i d (hgrows i d hi)).trans hfield.symm⟩

/-- For every run from the start of the process: the table has the drivers that arrived, by priority and then by arrival;
a driver keeps the slot of any accepted add, and different drivers have different slots; a refused add changes nothing;
clearing keeps the pre-emptors and the providers, in order. -/
theorem linDriver_runs (L : Layout) (mem : ℕ → LinDriver) (slot : ℕ → ℤ) (ops : List DriverOp) :
    StableOrder.Arranged (fun e => (mem e).priority.toInt) (arrivals L mem (.start slot) [] ops)
        (driverRun L mem (.start slot) ops).drv ∧
      (driverRun L mem (.start slot) ops).drv.Nodup ∧
      (∀ d k, Served L mem (.start slot) ops d k →
        0 ≤ k ∧ k < linDrvSlots ∧ (driverRun L mem (.start slot) ops).slot d = k) ∧
      (∀ d d' k, Served L mem (.start slot) ops d k → Served L mem (.start slot) ops d' k → d = d') ∧
      (∀ o, (linDriverAdd L mem (driverRun L mem (.start slot) ops) o).1 ≠ none →
        (linDriverAdd L mem (driverRun L mem (.start slot) ops) o).2 = driverRun L mem (.start slot) ops) ∧
      (linDriverClear mem (driverRun L mem (.start slot) ops)).drv =
        (driverRun L mem (.start slot) ops).drv.filter (staysOn mem) := by
  have hstart : Slotted (.start slot) := ⟨fun i j d hi => (by cases hi), fun i d hi => (by cases hi)⟩
  have harranged : StableOrder.Arranged (fun e => (mem e).priority.toInt) (arrivals L mem (.start slot) [] ops)
      (driverRun L mem (.start slot) ops).drv := driverRun_arranged ops .nil
  refine ⟨harranged, harranged.perm.nodup_iff.mpr harranged.nodup, fun d k h => ?_, fun d d' k h h' => ?_,
    fun o => linDriverAdd_refuses, rfl⟩
  · obtain ⟨i, rfl, -, hslot⟩ := h.slot hstart
    exact ⟨Int.natCast_nonneg i, Int.ofNat_lt.mpr i.isLt, hslot⟩
  · obtain ⟨i, rfl, hi, -⟩ := h.slot hstart
    obtain ⟨j, hij, hj, -⟩ := h'.slot hstart
    obtain rfl : i = j := Fin.ext (Int.ofNat_inj.mp hij)
    exact Option.some.inj (hi.symm.trans hj)

end

end LinEngine.Drivers
