import LinEngine.TypeRuns

/-!
# What the programs on types leave alone

A relation between the states before and after that holds across every change of the
heap holds across the walkers, unification and instantiation; one that also allows the
other changes of the checker holds across a whole check.
-/
namespace LinEngine

/-- Kept by every change of the heap and its record. -/
class HeapStable (R : TypeState → TypeState → Prop) : Prop where
  refl : ∀ s, R s s
  trans : ∀ {s s' s''}, R s s' → R s' s'' → R s s''
  heap : ∀ s h, R s { s with heap := h, past := s.heap :: s.past }
  bound : ∀ s b, R s { s with bound := b :: s.bound }

/-- However the program stops, the states before and after are related. -/
def Follows {α : Type} (R : TypeState → TypeState → Prop) (m : TM α) : Prop :=
  ∀ s, wp m (fun _ s' => R s s') (fun _ s' => R s s') s

namespace Follows

variable {α β : Type} {R : TypeState → TypeState → Prop} [HeapStable R]

lemma pure (a : α) : Follows R (pure a : TM α) := fun s => (HeapStable.refl s : R s s)

lemma throw (e : Stop) : Follows R (throw e : TM α) := fun s => (HeapStable.refl s : R s s)

lemma bind {m : TM α} {f : α → TM β} (h : Follows R m) (hf : ∀ a, Follows R (f a)) : Follows R (m >>= f) := by
  intro s
  rw [wp_bind]
  refine wp_mono (h s) (fun a s' hr => ?_) fun _ _ hr => hr
  exact wp_mono (hf a s') (fun _ _ hr' => HeapStable.trans hr hr') fun _ _ hr' => HeapStable.trans hr hr'

omit [HeapStable R] in
lemma get {f : TypeState → TM α} (hf : ∀ s, Follows R (f s)) : Follows R (get >>= f) := fun s => hf s s

lemma cellAt (a : ℕ) : Follows R (cellAt a) := fun s => (HeapStable.refl s : R s s)

lemma relink (t a : ℕ) : Follows R (relink t a) := fun s => HeapStable.heap s _

lemma newCell (c : Cell) : Follows R (newCell c) := fun s => HeapStable.heap s _

lemma find (d t : ℕ) : Follows R (find d t) := by
  induction d generalizing t with
  | zero => exact .throw _
  | succ d ih =>
    refine .bind (.cellAt t) fun c => ?_
    cases c with
    | link a =>
      refine .bind (.cellAt a) fun c => ?_
      cases c with
      | link b => exact .bind (.relink t b) fun _ => ih b
      | _ => exact ih a
    | _ => exact .pure _

lemma occurs (v d t : ℕ) : Follows R (occurs v d t) := by
  induction d generalizing t with
  | zero => exact .throw _
  | succ d ih =>
    have htwo : ∀ a b, Follows R
        (do if ← LinEngine.occurs v d a then return true else LinEngine.occurs v d b) :=
      fun a b => .bind (ih a) fun r => by
        cases r with
        | true => exact .pure _
        | false => exact ih b
    refine .bind (.find d t) fun u => ?_
    split_ifs
    · exact .pure _
    refine .bind (.cellAt u) fun c => ?_
    cases c with
    | arrow a b => exact htwo a b
    | nom n args =>
      cases args with
      | none => exact .pure _
      | some a => exact ih a
    | arg a next =>
      cases next with
      | none => exact ih a
      | some b => exact htwo a b
    | _ => exact .pure _

lemma bindNominal (v t : ℕ) : Follows R (bindNominal v t) := fun s =>
  HeapStable.trans (HeapStable.bound s ⟨s.heap, v, t⟩) (HeapStable.heap _ _)

lemma bindChecked (d v t : ℕ) : Follows R (bindChecked d v t) :=
  .bind (.occurs v d t) fun r => by
    cases r with
    | true => exact .throw _
    | false => exact .relink v t

lemma unify_args (d : ℕ) : (∀ x y, Follows R (unify d x y)) ∧ ∀ xs ys, Follows R (unifyArgs d xs ys) := by
  induction d with
  | zero => exact ⟨fun _ _ => .throw _, fun _ _ => .throw _⟩
  | succ d ih =>
    obtain ⟨ihu, iha⟩ := ih
    constructor
    · intro x y
      refine .bind (.find d x) fun u => .bind (.find d y) fun w => ?_
      split_ifs
      · exact .pure _
      refine .bind (.cellAt u) fun c => .bind (.cellAt w) fun c' => ?_
      cases c with
      | tvr i =>
        cases c' with
        | nom n args => exact .bindNominal u w
        | _ => exact .bindChecked d u w
      | arrow a b =>
        cases c' with
        | arrow a' b' => exact .bind (ihu a a') fun _ => ihu b b'
        | tvr j => exact .bindChecked d w u
        | nom n args =>
          dsimp only
          split_ifs
          · exact .throw _
          · exact .pure _
        | _ => exact .throw _
      | nom n args =>
        cases c' with
        | tvr j => exact .bindNominal w u
        | nom n' args' =>
          dsimp only
          split_ifs
          · exact .throw _
          · exact iha args args'
        | arrow a b =>
          dsimp only
          split_ifs
          · exact .throw _
          · exact .pure _
        | _ => exact .throw _
      | _ =>
        cases c' with
        | tvr j => exact .bindChecked d w u
        | _ => exact .throw _
    · intro xs ys
      cases xs with
      | none => exact .pure _
      | some x =>
        cases ys with
        | none => exact .pure _
        | some y =>
          refine .bind (.cellAt x) fun c => .bind (.cellAt y) fun c' => ?_
          cases c with
          | arg a nx =>
            cases c' with
            | arg b ny => exact .bind (ihu a b) fun _ => iha nx ny
            | _ => exact .pure _
          | _ => exact .pure _

lemma unify (d x y : ℕ) : Follows R (unify d x y) := (unify_args d).1 x y

lemma fv (d t : ℕ) (f : List ℕ) : Follows R (fv d t f) := by
  induction d generalizing t f with
  | zero => exact .throw _
  | succ d ih =>
    refine .bind (.find d t) fun u => .bind (.cellAt u) fun c => ?_
    cases c with
    | arrow a b => exact .bind (ih a f) fun f' => ih b f'
    | nom n args =>
      cases args with
      | none => exact .pure _
      | some a => exact ih a f
    | arg a next =>
      cases next with
      | none => exact ih a f
      | some b => exact .bind (ih a f) fun f' => ih b f'
    | _ => exact .pure _

lemma envVars (d : ℕ) (es : List (String × Scheme)) (dyn : List ℕ) : Follows R (envVars d es dyn) := by
  induction es generalizing dyn with
  | nil => exact .pure _
  | cons e es ih =>
    refine .bind (.find d e.2.t) fun u => .bind (.cellAt u) fun c => ?_
    cases c with
    | tvr id => exact ih _
    | _ => exact .bind (.fv d e.2.t dyn) fun dyn' => ih dyn'

lemma generalize (d t : ℕ) : Follows R (generalize d t) :=
  .bind (.fv d t []) fun _ => .get fun s => .bind (.envVars d s.env.reverse []) fun _ => .get fun _ => .pure _

lemma instRec (m : List (ℕ × ℕ)) (d t : ℕ) : Follows R (instRec m d t) := by
  induction d generalizing t with
  | zero => exact .throw _
  | succ d ih =>
    refine .bind (.find d t) fun u => .bind (.cellAt u) fun c => ?_
    cases c with
    | arrow a b => exact .bind (ih a) fun _ => .bind (ih b) fun _ => .newCell _
    | nom n args =>
      cases args with
      | none => exact .newCell _
      | some a => exact .bind (ih a) fun _ => .newCell _
    | arg a next =>
      cases next with
      | none => exact .bind (ih a) fun _ => .newCell _
      | some b => exact .bind (ih a) fun _ => .bind (ih b) fun _ => .newCell _
    | _ => exact .pure _

end Follows

/-! ## Programs that change the heap only -/

/-- The same but for the heap and the record of the run. -/
structure Rest (s s' : TypeState) : Prop where
  nextId : s'.nextId = s.nextId
  env : s'.env = s.env
  envrc : s'.envrc = s.envrc
  regN : s'.regN = s.regN
  prog : s'.prog = s.prog

lemma Rest.refl (s : TypeState) : Rest s s := ⟨rfl, rfl, rfl, rfl, rfl⟩

lemma Rest.trans {s s' s'' : TypeState} (h : Rest s s') (h' : Rest s' s'') : Rest s s'' :=
  ⟨h'.nextId.trans h.nextId, h'.env.trans h.env, h'.envrc.trans h.envrc, h'.regN.trans h.regN,
    h'.prog.trans h.prog⟩

instance restStable : HeapStable Rest where
  refl := .refl
  trans := .trans
  heap := fun _ _ => ⟨rfl, rfl, rfl, rfl, rfl⟩
  bound := fun _ _ => ⟨rfl, rfl, rfl, rfl, rfl⟩

/-! ## Whole checks -/

/-- Kept by every change the checker makes. -/
class CheckStable (R : TypeState → TypeState → Prop) : Prop extends HeapStable R where
  nextId : ∀ s, R s { s with nextId := s.nextId + 1 }
  env : ∀ s env, R s { s with env := env }
  counts : ∀ s rc, R s { s with envrc := rc }
  counted : ∀ s, R s { s with regN := s.prog.defs.length }
  printed : ∀ s msg, R s { s with printed := msg :: s.printed }
  scheme : ∀ s i sch, R s { s with prog := { s.prog with
    defs := s.prog.defs.modify i fun e => { e with sch := some sch } } }

namespace Follows

variable {α : Type} {R : TypeState → TypeState → Prop} [CheckStable R] {look : String → TM (Option Scheme)}

lemma tvar : Follows R tvar := fun s => HeapStable.trans (CheckStable.nextId s) (HeapStable.heap _ _)

lemma envPush (x : String) (sch : Scheme) : Follows R (envPush x sch) := fun s => CheckStable.env s _

lemma envPop : Follows R envPop := fun s => CheckStable.env s _

lemma freshVars (ids : List ℕ) : Follows R (freshVars ids) := by
  induction ids with
  | nil => exact .pure _
  | cons id ids ih => exact .bind .tvar fun _ => .bind ih fun _ => .pure _

lemma instantiate (d : ℕ) (sch : Scheme) : Follows R (instantiate d sch) :=
  .bind (.freshVars _) fun m => .instRec m d _

lemma infer (hlook : ∀ x, Follows R (look x)) (d : ℕ) (t : Term) : Follows R (infer look d t) := by
  induction t using infer.induct with
  | case1 x =>
    refine .bind (hlook x) fun r => ?_
    cases r with
    | none => exact .throw _
    | some sch => exact .instantiate d sch
  | case2 x b ih =>
    exact .bind .tvar fun _ => .bind (.envPush _ _) fun _ => .bind ih fun _ => .bind .envPop fun _ => .newCell _
  | case3 x b a iha ihb =>
    exact .bind iha fun _ => .bind (.generalize d _) fun _ => .bind (.envPush _ _) fun _ =>
      .bind ihb fun _ => .bind .envPop fun _ => .pure _
  | case4 f a hnot ihf iha =>
    rw [LinEngine.infer]
    · exact .bind ihf fun _ => .bind iha fun _ => .bind .tvar fun _ => .bind (.newCell _) fun _ =>
        .bind (.unify d _ _) fun _ => .pure _
    · exact hnot
  | case5 x v b ihv ihb =>
    refine .bind (hlook x) fun r => ?_
    cases r with
    | some _ =>
      exact .bind ihv fun _ => .bind (.generalize d _) fun _ => .bind (.envPush _ _) fun _ =>
        .bind ihb fun _ => .bind .envPop fun _ => .pure _
    | none =>
      exact .bind .tvar fun _ => .bind (.envPush _ _) fun _ => .bind ihv fun _ => .bind (.unify d _ _) fun _ =>
        .bind .envPop fun _ => .bind (.generalize d _) fun _ => .bind (.envPush _ _) fun _ =>
          .bind ihb fun _ => .bind .envPop fun _ => .pure _
  | case6 => exact .tvar
  | case7 => exact .tvar
  | case8 => exact .throw _
  | case9 => exact .throw _

lemma countFree (d : ℕ) (sch : Scheme) : Follows R (countFree d sch) :=
  .bind (.fv d _ _) fun _ => fun s => CheckStable.counts s _

lemma countDefs (d : ℕ) (es : List Def) : Follows R (countDefs d es) := by
  induction es with
  | nil => exact .pure _
  | cons e es ih =>
    unfold LinEngine.countDefs
    cases e.sch with
    | none => exact .bind (.pure ()) fun _ => ih
    | some sch => exact .bind (.countFree d sch) fun _ => ih

lemma envLoadDefs (d : ℕ) (top : Bool) : Follows R (envLoadDefs d top) :=
  .get fun _ => .bind (.countDefs d _) fun _ s' =>
    (HeapStable.trans (CheckStable.counted s') (CheckStable.env _ _) : R s' _)

omit [CheckStable R] in
lemma guarded {m : TM Scheme} (h : Follows R m) : Follows R (guarded m) := by
  intro s
  unfold LinEngine.guarded
  rw [wp_tryCatch, wp_bind]
  refine wp_mono (h s) (fun _ _ hr => hr) fun e s' hr => ?_
  cases e <;> exact hr

lemma typeCheck (hlook : ∀ x, Follows R (look x)) (d : ℕ) (top : Bool) (t : Term) :
    Follows R (typeCheck look d top t) :=
  .guarded (.bind (.envLoadDefs d top) fun _ => .bind (.infer hlook d t) fun _ => .generalize d _)

lemma typeCheckRec (hlook : ∀ x, Follows R (look x)) (d : ℕ) (top : Bool) (x : String) (b : Term) :
    Follows R (typeCheckRec look d top x b) :=
  .guarded (.bind (.envLoadDefs d top) fun _ => .bind .tvar fun _ => .bind (.envPush _ _) fun _ =>
    .bind (.infer hlook d b) fun _ => .bind (.unify d _ _) fun _ => .bind .envPop fun _ => .generalize d _)

lemma checkDef (hlook : ∀ x, Follows R (look x)) (d : ℕ) (e : Def) : Follows R (checkDef look d e) := by
  unfold LinEngine.checkDef
  cases e.raw with
  | none => exact .typeCheck hlook d false e.term
  | some raw => exact .typeCheckRec hlook d false _ raw

lemma defType (hlook : ∀ x, Follows R (look x)) (d i : ℕ) (e : Def) : Follows R (defType look d i e) := by
  refine .get fun s => .bind (.checkDef hlook d e) fun r => .bind (fun s' => CheckStable.env s' _) fun _ => ?_
  cases r with
  | error msg => exact fun s' => CheckStable.printed s' _
  | ok sch => exact .bind (fun s' => CheckStable.scheme s' i sch) fun _ => .countFree d sch

lemma envFindWith {typeDef : ℕ → Def → TM Unit} (h : ∀ i e, Follows R (typeDef i e)) (x : String) :
    Follows R (envFindWith typeDef x) := by
  refine .get fun s => ?_
  cases s.env.lookup x with
  | some sch => exact .pure _
  | none =>
    refine .get fun s => ?_
    cases s.prog.defFind x with
    | none => exact .pure _
    | some i =>
      refine .get fun s => ?_
      cases s.prog.defs[i]? with
      | none => exact .pure _
      | some e =>
        cases he : e.sch with
        | some sch => simpa only [he] using .pure _
        | none => simpa only [he] using .bind (h i e) fun _ => .get fun _ => .pure _

lemma envFind (d k : ℕ) (x : String) : Follows R (envFind d k x) := by
  induction k generalizing x with
  | zero => exact .envFindWith (fun _ _ => .throw _) x
  | succ k ih => exact .envFindWith (fun i e => .defType ih d i e) x

/-- A relation kept by every change the checker makes is kept by a check. -/
theorem checkTerm (d k : ℕ) (t : Term) : Follows R (checkTerm d k t) := .typeCheck (.envFind d k) d true t

end Follows

end LinEngine
