import LinEngine.Types

/-!
# Properties of the programs on types

A property of programs that composition keeps and that the single steps on the heap have
is one of unification and instantiation; one that the other steps of the checker have as
well is one of its counts.
-/
namespace LinEngine

/-- Kept by composition, and had by every step on the heap. -/
structure HeapClosed (P : ∀ {α : Type}, TM α → Prop) : Prop where
  pure : ∀ {α : Type} (a : α), P (pure a : TM α)
  error : ∀ {α : Type} (msg : String), P (tfail msg : TM α)
  fuel : ∀ {α : Type}, P (throw .fuel : TM α)
  bind : ∀ {α β : Type} {m : TM α} {f : α → TM β}, P m → (∀ a, P (f a)) → P (m >>= f)
  cellAt : ∀ a, P (cellAt a)
  relink : ∀ t a, P (relink t a)
  newCell : ∀ c, P (newCell c)
  bindNominal : ∀ v t, P (bindNominal v t)
  env : ∀ {α : Type} {f : List (String × Scheme) → TM α}, (∀ env, P (f env)) → P (get >>= fun s => f s.env)
  envrc : ∀ {α : Type} {f : Table ℕ 0 → TM α}, (∀ rc, P (f rc)) → P (get >>= fun s => f s.envrc)

namespace HeapClosed

variable {P : ∀ {α : Type}, TM α → Prop} (h : HeapClosed P)

include h

lemma find (d t : ℕ) : P (find d t) := by
  induction d generalizing t with
  | zero => exact h.fuel
  | succ d ih =>
    refine h.bind (h.cellAt t) fun c => ?_
    cases c with
    | link a =>
      refine h.bind (h.cellAt a) fun c => ?_
      cases c with
      | link b => exact h.bind (h.relink t b) fun _ => ih b
      | _ => exact ih a
    | _ => exact h.pure _

lemma occurs (v d t : ℕ) : P (occurs v d t) := by
  induction d generalizing t with
  | zero => exact h.fuel
  | succ d ih =>
    have htwo : ∀ a b, P (do if ← LinEngine.occurs v d a then return true else LinEngine.occurs v d b) := fun a b =>
      h.bind (ih a) fun r => by
        cases r with
        | true => exact h.pure _
        | false => exact ih b
    refine h.bind (h.find d t) fun u => ?_
    split_ifs
    · exact h.pure _
    refine h.bind (h.cellAt u) fun c => ?_
    cases c with
    | arrow a b => exact htwo a b
    | nom n args =>
      cases args with
      | none => exact h.pure _
      | some a => exact ih a
    | arg a next =>
      cases next with
      | none => exact ih a
      | some b => exact htwo a b
    | _ => exact h.pure _

lemma bindChecked (d v t : ℕ) : P (bindChecked d v t) := by
  refine h.bind (h.occurs v d t) fun r => ?_
  cases r with
  | true => exact h.error _
  | false => exact h.relink v t

lemma unify_args (d : ℕ) : (∀ x y, P (unify d x y)) ∧ ∀ xs ys, P (unifyArgs d xs ys) := by
  induction d with
  | zero => exact ⟨fun _ _ => h.fuel, fun _ _ => h.fuel⟩
  | succ d ih =>
    obtain ⟨ihu, iha⟩ := ih
    constructor
    · intro x y
      refine h.bind (h.find d x) fun u => h.bind (h.find d y) fun w => ?_
      split_ifs
      · exact h.pure _
      refine h.bind (h.cellAt u) fun c => h.bind (h.cellAt w) fun c' => ?_
      cases c with
      | tvr i =>
        cases c' with
        | nom n args => exact h.bindNominal u w
        | _ => exact h.bindChecked d u w
      | arrow a b =>
        cases c' with
        | arrow a' b' => exact h.bind (ihu a a') fun _ => ihu b b'
        | tvr j => exact h.bindChecked d w u
        | nom n args =>
          dsimp only
          split_ifs
          · exact h.error _
          · exact h.pure _
        | _ => exact h.error _
      | nom n args =>
        cases c' with
        | tvr j => exact h.bindNominal w u
        | nom n' args' =>
          dsimp only
          split_ifs
          · exact h.error _
          · exact iha args args'
        | arrow a b =>
          dsimp only
          split_ifs
          · exact h.error _
          · exact h.pure _
        | _ => exact h.error _
      | _ =>
        cases c' with
        | tvr j => exact h.bindChecked d w u
        | _ => exact h.error _
    · intro xs ys
      cases xs with
      | none => exact h.pure _
      | some x =>
        cases ys with
        | none => exact h.pure _
        | some y =>
          refine h.bind (h.cellAt x) fun c => h.bind (h.cellAt y) fun c' => ?_
          cases c with
          | arg a nx =>
            cases c' with
            | arg b ny => exact h.bind (ihu a b) fun _ => iha nx ny
            | _ => exact h.pure _
          | _ => exact h.pure _

lemma unify (d x y : ℕ) : P (unify d x y) := (h.unify_args d).1 x y

lemma fv (d t : ℕ) (f : List ℕ) : P (fv d t f) := by
  induction d generalizing t f with
  | zero => exact h.fuel
  | succ d ih =>
    refine h.bind (h.find d t) fun u => h.bind (h.cellAt u) fun c => ?_
    cases c with
    | arrow a b => exact h.bind (ih a f) fun f' => ih b f'
    | nom n args =>
      cases args with
      | none => exact h.pure _
      | some a => exact ih a f
    | arg a next =>
      cases next with
      | none => exact ih a f
      | some b => exact h.bind (ih a f) fun f' => ih b f'
    | _ => exact h.pure _

lemma envVars (d : ℕ) (es : List (String × Scheme)) (dyn : List ℕ) : P (envVars d es dyn) := by
  induction es generalizing dyn with
  | nil => exact h.pure _
  | cons e es ih =>
    refine h.bind (h.find d e.2.t) fun u => h.bind (h.cellAt u) fun c => ?_
    cases c with
    | tvr id => exact ih _
    | _ => exact h.bind (h.fv d e.2.t dyn) fun dyn' => ih dyn'

lemma generalize (d t : ℕ) : P (generalize d t) := by
  refine h.bind (h.fv d t []) fun f => h.env fun env => h.bind (h.envVars d env.reverse []) fun dyn => ?_
  exact h.envrc (f := fun rc => (Pure.pure (⟨f.filter fun id => !(0 < rc.get id || id ∈ dyn), t⟩ : Scheme) : TM Scheme)) fun _ => h.pure _

lemma instRec (m : List (ℕ × ℕ)) (d t : ℕ) : P (instRec m d t) := by
  induction d generalizing t with
  | zero => exact h.fuel
  | succ d ih =>
    refine h.bind (h.find d t) fun u => h.bind (h.cellAt u) fun c => ?_
    cases c with
    | arrow a b => exact h.bind (ih a) fun _ => h.bind (ih b) fun _ => h.newCell _
    | nom n args =>
      cases args with
      | none => exact h.newCell _
      | some a => exact h.bind (ih a) fun _ => h.newCell _
    | arg a next =>
      cases next with
      | none => exact h.bind (ih a) fun _ => h.newCell _
      | some b => exact h.bind (ih a) fun _ => h.bind (ih b) fun _ => h.newCell _
    | _ => exact h.pure _

end HeapClosed

/-- Had by the other steps of the checker as well. -/
structure CheckClosed (P : ∀ {α : Type}, TM α → Prop) : Prop extends HeapClosed P where
  tvar : P tvar
  envPush : ∀ x sch, P (envPush x sch)
  envPop : P envPop
  countFree : ∀ d sch, P (countFree d sch)
  envLoadDefs : ∀ d top, P (envLoadDefs d top)

namespace CheckClosed

variable {P : ∀ {α : Type}, TM α → Prop} (h : CheckClosed P)

include h

lemma instantiate (d : ℕ) (sch : Scheme) : P (instantiate d sch) := by
  have hfresh : ∀ ids, P (freshVars ids) := by
    intro ids
    induction ids with
    | nil => exact h.pure _
    | cons id ids ih => exact h.bind h.tvar fun _ => h.bind ih fun _ => h.pure _
  exact h.bind (hfresh _) fun m => h.instRec m d _

end CheckClosed

end LinEngine
