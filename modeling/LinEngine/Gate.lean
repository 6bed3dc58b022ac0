import Mathlib

/-!
# Calls during a build

The registry of scalar providers, the gate that asks it whether a call may be made while
a build or precompile marker is up, and the two dispatch paths behind the gate. A call
is named by the row that performs it; of a provider's answer only the kind is kept.
-/
namespace LinEngine.Gate

/-- The kinds of `Val`; a slot without a value has none of them. -/
inductive Kind
  | none
  | int
  | str
  | bool
  | float
  deriving DecidableEq, Repr

/-- A decoded operand: its kind, and the word that is handed to a call. -/
structure Val where
  kind : Kind
  iv : Int
  deriving DecidableEq, Repr

/-- `owns` answers the query without operands, `answer` a call. -/
structure Provider where
  owns : String → Bool
  answer : String → List Val → Option Kind
  pure : Bool

/-- The registered providers, and those that loading the scalar plugin registers. -/
structure Registry where
  providers : List Provider
  plugin : List Provider

namespace Registry

/-- The ownership query of `lin_scalar_ops_run`; it asks declared-pure providers and loads none. -/
def owned (R : Registry) (fn : String) : Bool := R.providers.any fun p => p.pure && p.owns fn

/-- The providers a call finds; the first call loads the plugin. -/
def loaded (R : Registry) : List Provider := if R.providers.isEmpty then R.plugin else R.providers

/-- A call of `lin_scalar_ops_run` while a marker is up. -/
def run (R : Registry) (fn : String) (args : List Val) : Option Kind :=
  (R.loaded.filter (·.pure)).findSome? fun p => p.answer fn args

/-- `lin_build_gate` while a marker is up. -/
def gate (R : Registry) (fn : String) (rowPure : Bool) : Bool := rowPure || R.owned fn

end Registry

/-- What a dispatch does. -/
inductive Call
  | refused
  | declined
  | provided (kind : Kind)
  | row (fn : String)
  | symbol (fn : String)
  deriving DecidableEq, Repr

/-- The rows of the readback driver that it declares pure. -/
def rowPure (fn : String) : Bool := fn == "lin_float" || fn == "lin_parse_float" || fn == "lin_streq"

def startsWith (pre fn : String) : Bool := pre.toList.isPrefixOf fn.toList

/-! ## Readback -/

/-- The kind of operand `i`; the buffer has at least one slot. -/
def kindAt (args : List Val) (i : ℕ) : Kind := ((args[i]?).map Val.kind).getD .none

/-- The rows after the registry. -/
def lateRows (fn : String) (args : List Val) : Call :=
  if fn = "lin_folds" ∨ fn = "lin_folded" then .row fn
  else if kindAt args 0 ≠ .str ∧ 0 < args.length ∧
      fn ∈ ["lin_parse_float", "lin_streq", "dlopen", "puts", "getenv"] then .declined
  else if kindAt args 0 = .str ∧ 0 < args.length ∧ fn ∈ ["lin_parse_float", "dlopen", "puts", "getenv"] then .row fn
  else if kindAt args 0 = .str ∧ 2 ≤ args.length ∧ fn = "lin_streq" ∧ kindAt args 1 = .str then .row fn
  else if fn = "lin_float" then .row fn
  else .symbol fn

/-- The rows before the registry. -/
def earlyRows : List String := ["exit", "driver_get", "driver_set", "driver_add", "driver_clear"]

/-- The rows of `rb_rows`, over operands that have all been read. -/
def rbRows (R : Registry) (fn : String) (args : List Val) : Call :=
  if fn ∈ earlyRows then .row fn
  else
    match R.run fn args with
    | some kind => .provided kind
    | none => lateRows fn args

/-- `run_ffi` while a marker is up. -/
def runFfi (R : Registry) (fn : String) (args : List Val) : Call :=
  if R.gate fn (rowPure fn) then rbRows R fn args else .refused

/-! ## The fold -/

/-- The rows of the scalar driver, and those of them it declares pure. -/
def ffiRow (fn : String) : Bool :=
  fn ∈ ["lin_float", "lin_parse_float", "lin_streq", "lin_folds", "lin_folded"]

def ffiRowPure (fn : String) : Bool := ffiRow fn && fn ∉ ["lin_folds", "lin_folded"]

def ffiApply (R : Registry) (fn : String) (args : List Val) : Call :=
  if args.any (·.kind == .none) then .declined
  else
    match R.run fn args with
    | some kind => .provided kind
    | none =>
      if fn = "lin_folds" ∨ fn = "lin_folded" then .row fn
      else if fn = "lin_float" ∧ 1 ≤ args.length then .row fn
      else if fn = "lin_parse_float" ∧ kindAt args 0 = .str then .row fn
      else .declined

/-- `ffi_eval` while a marker is up. -/
def ffiEval (R : Registry) (fn : String) (args : List Val) : Call :=
  if !ffiRow fn && !R.owned fn then .declined
  else if R.gate fn (ffiRowPure fn) then ffiApply R fn args
  else .refused

/-! ## The scalar table -/

/-- The rows of `lin_arith_scalar`: the start of the name, the operands and the kind of the result. -/
def arithRows : List (String × ℕ × Kind) :=
  [("lin_fadd", 2, .float), ("lin_fsub", 2, .float), ("lin_fmul", 2, .float), ("lin_fdiv", 2, .float),
   ("lin_fpow", 2, .float), ("lin_fatan2", 2, .float), ("lin_fmin", 2, .float), ("lin_fmax", 2, .float),
   ("lin_fsqrt", 1, .float), ("lin_fsin", 1, .float), ("lin_fcos", 1, .float), ("lin_ftan", 1, .float),
   ("lin_fabs", 1, .float), ("lin_fsign", 1, .float), ("lin_ffract", 1, .float), ("lin_feq", 2, .bool),
   ("lin_flt", 2, .bool), ("lin_fleq", 2, .bool), ("lin_ffloor", 1, .int), ("lin_lerp", 3, .float),
   ("lin_fclamp", 3, .float), ("lin_add", 2, .int), ("lin_sub", 2, .int), ("lin_mul", 2, .int),
   ("lin_div", 2, .int), ("lin_mod", 2, .int), ("lin_pow", 2, .int), ("lin_eq", 2, .bool), ("lin_lt", 2, .bool),
   ("lin_leq", 2, .bool), ("lin_gt", 2, .bool), ("lin_geq", 2, .bool)]

/-- The names of `arith_supplies`. -/
def arithSupplied : List String :=
  ["lin_fadd", "lin_fsub", "lin_fmul", "lin_fdiv", "lin_fpow", "lin_fatan2", "lin_fmin", "lin_fmax",
   "lin_fsqrt", "lin_fsin", "lin_fcos", "lin_ftan", "lin_fabs", "lin_fsign", "lin_ffract",
   "lin_feq", "lin_flt", "lin_fleq", "lin_ffloor", "lin_lerp", "lin_fclamp",
   "lin_add", "lin_sub", "lin_mul", "lin_div", "lin_mod", "lin_pow",
   "lin_eq", "lin_lt", "lin_leq", "lin_gt", "lin_geq"]

/-- A row declines with too few operands. -/
def arithScalar (fn : String) (args : List Val) : Option Kind :=
  (arithRows.find? fun r => startsWith r.1 fn).bind fun r => if r.2.1 ≤ args.length then some r.2.2 else none

def arithProvider : Provider where
  owns fn := arithSupplied.any (startsWith · fn)
  answer := arithScalar
  pure := true

/-- The standard library's registry. -/
def stdRegistry : Registry := ⟨[arithProvider], [arithProvider]⟩

/-! ## Purity -/

/-- A declared-pure provider's answer, a row declared pure, or no call. -/
def Call.Declared : Call → Prop
  | .refused => True
  | .declined => True
  | .provided _ => True
  | .row fn => rowPure fn = true
  | .symbol _ => False

instance (c : Call) : Decidable c.Declared := by
  cases c <;> unfold Call.Declared <;> infer_instance

@[simp] lemma declared_refused : Call.refused.Declared := trivial

@[simp] lemma declared_declined : Call.declined.Declared := trivial

@[simp] lemma declared_provided (kind : Kind) : (Call.provided kind).Declared := trivial

@[simp] lemma declared_row (fn : String) : (Call.row fn).Declared ↔ rowPure fn = true := Iff.rfl

@[simp] lemma declared_symbol (fn : String) : ¬ (Call.symbol fn).Declared := id

/-- Who can supply the call: a declared-pure provider, or a row that is pure or declines. -/
def Supplied (R : Registry) (fn : String) (args : List Val) : Prop :=
  (R.run fn args).isSome ∨ fn = "lin_float" ∨ (fn = "lin_parse_float" ∧ args ≠ []) ∨
    (fn = "lin_streq" ∧ args ≠ [] ∧ (kindAt args 0 = .str → kindAt args 1 = .str)) ∨
    (fn ∈ ["dlopen", "puts", "getenv"] ∧ args ≠ [] ∧ kindAt args 0 ≠ .str)

section Paths

variable {R : Registry} {fn : String} {args : List Val}

lemma kindAt_some {i : ℕ} (h : kindAt args i = .str) : i < args.length := by
  by_contra hlt
  rw [kindAt, List.getElem?_eq_none (by omega)] at h
  cases h

lemma lateRows_declared :
    (lateRows fn args).Declared ↔ fn = "lin_float" ∨ (fn = "lin_parse_float" ∧ args ≠ []) ∨
      (fn = "lin_streq" ∧ args ≠ [] ∧ (kindAt args 0 = .str → kindAt args 1 = .str)) ∨
      (fn ∈ ["dlopen", "puts", "getenv"] ∧ args ≠ [] ∧ kindAt args 0 ≠ .str) := by
  by_cases hname : fn ∈ ["lin_folds", "lin_folded", "lin_parse_float", "lin_streq", "dlopen", "puts", "getenv", "lin_float"]
  · simp only [List.mem_cons, List.not_mem_nil, or_false] at hname
    rcases List.eq_nil_or_concat args with rfl | hargs
    · rcases hname with rfl | rfl | rfl | rfl | rfl | rfl | rfl | rfl <;> decide
    have hne : args ≠ [] := by
      rcases hargs with ⟨init, last, rfl⟩
      simp
    have hpos : 0 < args.length := List.length_pos_of_ne_nil hne
    have htwo : 2 ≤ args.length ∧ kindAt args 1 = .str ↔ kindAt args 1 = .str :=
      and_iff_right_of_imp kindAt_some
    by_cases hstr : kindAt args 0 = .str
    all_goals
      rcases hname with rfl | rfl | rfl | rfl | rfl | rfl | rfl | rfl <;>
        simp [lateRows, rowPure, hne, hstr, hpos, htwo]
    split_ifs with hsecond <;> simp [rowPure, hsecond]
  · simp only [List.mem_cons, List.not_mem_nil, or_false, not_or] at hname
    simp [lateRows, hname]

lemma rbRows_declared : (rbRows R fn args).Declared ↔ fn ∉ earlyRows ∧ Supplied R fn args := by
  unfold rbRows Supplied
  split_ifs with hearly
  · refine iff_of_false ?_ fun h => h.1 hearly
    simp only [Call.Declared]
    simp only [earlyRows, List.mem_cons, List.not_mem_nil, or_false] at hearly
    rcases hearly with rfl | rfl | rfl | rfl | rfl <;> decide
  · cases hrun : R.run fn args with
    | some kind => simp [hearly]
    | none => simp [hearly, lateRows_declared]

lemma runFfi_declared :
    (runFfi R fn args).Declared ↔ (R.gate fn (rowPure fn) = true → fn ∉ earlyRows ∧ Supplied R fn args) := by
  unfold runFfi
  split_ifs with hgate
  · simp [hgate, rbRows_declared]
  · simp [hgate]

lemma ffiApply_declared (h : R.run fn args = none → fn ≠ "lin_folds" ∧ fn ≠ "lin_folded") :
    (ffiApply R fn args).Declared := by
  unfold ffiApply
  cases hrun : R.run fn args with
  | some kind => split_ifs <;> trivial
  | none =>
    have hfold := h hrun
    simp only [hfold, or_self, if_false]
    split_ifs with hnone hcast hparse
    · trivial
    · rcases hcast with ⟨rfl, -⟩
      decide
    · rcases hparse with ⟨rfl, -⟩
      decide
    · trivial

/-- Where the fold makes an undeclared call, so does readback. -/
lemma ffiEval_declared (h : (runFfi R fn args).Declared) : (ffiEval R fn args).Declared := by
  rw [runFfi_declared] at h
  unfold ffiEval
  split_ifs with hforeign hgate
  · trivial
  · refine ffiApply_declared fun hrun => not_or.1 ?_
    rintro (rfl | rfl)
    all_goals
      have hsupplied := (h (by simpa [Registry.gate, ffiRowPure, rowPure] using hgate)).2
      simp [Supplied, hrun] at hsupplied
  · trivial

end Paths

end LinEngine.Gate
