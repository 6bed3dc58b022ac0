import LinEngine.Fuel
import LinEngine.TypeRuns

/-!
# Inference with more fuel

Every function of type inference runs further when it has more fuel, and the walkers
stop for nothing else on an acyclic heap.
-/
namespace LinEngine

abbrev StopLe {α : Type} (m m' : TM α) : Prop := FuelLe Stop.fuel m m'

lemma find_le (d t : ℕ) : StopLe (find d t) (find (d + 1) t) := by
  induction d generalizing t with
  | zero => exact .throw _
  | succ d ih =>
    refine .next fun c => ?_
    cases c with
    | link a =>
      refine .next fun c => ?_
      cases c with
      | link b => exact .next fun _ => ih b
      | _ => exact ih a
    | _ => exact .refl _

lemma occurs_le (v d t : ℕ) : StopLe (occurs v d t) (occurs v (d + 1) t) := by
  induction d generalizing t with
  | zero => exact .throw _
  | succ d ih =>
    have htwo : ∀ a b, StopLe
        (do if ← occurs v d a then return true else occurs v d b)
        (do if ← occurs v (d + 1) a then return true else occurs v (d + 1) b) := fun a b =>
      .bind (ih a) fun r => by
        cases r with
        | true => exact .refl _
        | false => exact ih b
    refine .bind (find_le d t) fun u => ?_
    split_ifs
    · exact .refl _
    refine .next fun c => ?_
    cases c with
    | arrow a b => exact htwo a b
    | nom n args =>
      cases args with
      | none => exact .refl _
      | some a => exact ih a
    | arg a next =>
      cases next with
      | none => exact ih a
      | some b => exact htwo a b
    | _ => exact .refl _

lemma bindChecked_le (d v t : ℕ) : StopLe (bindChecked d v t) (bindChecked (d + 1) v t) :=
  .bind (occurs_le v d t) fun _ => .refl _

lemma unify_args_le (d : ℕ) : (∀ x y, StopLe (unify d x y) (unify (d + 1) x y)) ∧
    ∀ xs ys, StopLe (unifyArgs d xs ys) (unifyArgs (d + 1) xs ys) := by
  induction d with
  | zero => exact ⟨fun _ _ => .throw _, fun _ _ => .throw _⟩
  | succ d ih =>
    obtain ⟨ihu, iha⟩ := ih
    constructor
    · intro x y
      refine .bind (find_le d x) fun u => .bind (find_le d y) fun w => ?_
      split_ifs
      · exact .refl _
      refine .next fun c => .next fun c' => ?_
      cases c with
      | tvr i =>
        cases c' with
        | nom n args => exact .refl _
        | _ => exact bindChecked_le d u w
      | arrow a b =>
        cases c' with
        | arrow a' b' => exact .bind (ihu a a') fun _ => ihu b b'
        | tvr j => exact bindChecked_le d w u
        | _ => exact .refl _
      | nom n args =>
        cases c' with
        | nom n' args' =>
          dsimp only
          split_ifs
          · exact .refl _
          · exact iha args args'
        | _ => exact .refl _
      | _ =>
        cases c' with
        | tvr j => exact bindChecked_le d w u
        | _ => exact .refl _
    · intro xs ys
      cases xs with
      | none => exact .refl _
      | some x =>
        cases ys with
        | none => exact .refl _
        | some y =>
          refine .next fun c => .next fun c' => ?_
          cases c with
          | arg a nx =>
            cases c' with
            | arg b ny => exact .bind (ihu a b) fun _ => iha nx ny
            | _ => exact .refl _
          | _ => exact .refl _

lemma fv_le (d t : ℕ) (f : List ℕ) : StopLe (fv d t f) (fv (d + 1) t f) := by
  induction d generalizing t f with
  | zero => exact .throw _
  | succ d ih =>
    refine .bind (find_le d t) fun u => .next fun c => ?_
    cases c with
    | arrow a b => exact .bind (ih a f) fun f' => ih b f'
    | nom n args =>
      cases args with
      | none => exact .refl _
      | some a => exact ih a f
    | arg a next =>
      cases next with
      | none => exact ih a f
      | some b => exact .bind (ih a f) fun f' => ih b f'
    | _ => exact .refl _

lemma instRec_le (m : List (ℕ × ℕ)) (d t : ℕ) : StopLe (instRec m d t) (instRec m (d + 1) t) := by
  induction d generalizing t with
  | zero => exact .throw _
  | succ d ih =>
    refine .bind (find_le d t) fun u => .next fun c => ?_
    cases c with
    | arrow a b => exact .bind (ih a) fun _ => .bind (ih b) fun _ => .refl _
    | nom n args =>
      cases args with
      | none => exact .refl _
      | some a => exact .bind (ih a) fun _ => .refl _
    | arg a next =>
      cases next with
      | none => exact .bind (ih a) fun _ => .refl _
      | some b => exact .bind (ih a) fun _ => .bind (ih b) fun _ => .refl _
    | _ => exact .refl _

lemma instantiate_le (d : ℕ) (sch : Scheme) : StopLe (instantiate d sch) (instantiate (d + 1) sch) :=
  .next fun m => instRec_le m d sch.t

lemma envVars_le (d : ℕ) (es : List (String × Scheme)) (dyn : List ℕ) :
    StopLe (envVars d es dyn) (envVars (d + 1) es dyn) := by
  induction es generalizing dyn with
  | nil => exact .refl _
  | cons e es ih =>
    refine .bind (find_le d e.2.t) fun u => .next fun c => ?_
    cases c with
    | tvr id => exact ih _
    | _ => exact .bind (fv_le d e.2.t dyn) fun dyn' => ih dyn'

lemma generalize_le (d t : ℕ) : StopLe (generalize d t) (generalize (d + 1) t) :=
  .bind (fv_le d t []) fun _ => .next fun s => .bind (envVars_le d s.env.reverse []) fun _ => .refl _

section Infer

variable {look look' : String → TM (Option Scheme)} (hlook : ∀ x, StopLe (look x) (look' x))

include hlook

lemma infer_le (d : ℕ) (t : Term) : StopLe (infer look d t) (infer look' (d + 1) t) := by
  induction t using infer.induct with
  | case1 x =>
    refine .bind (hlook x) fun r => ?_
    cases r with
    | none => exact .refl _
    | some sch => exact instantiate_le d sch
  | case2 x b ih => exact .next fun _ => .next fun _ => .bind ih fun _ => .refl _
  | case3 x b a iha ihb =>
    exact .bind iha fun v => .bind (generalize_le d v) fun _ => .next fun _ => .bind ihb fun _ => .refl _
  | case4 f a hf ihf iha =>
    rw [infer, infer]
    · refine .bind ihf fun f => .bind iha fun x => .next fun r => .next fun c => ?_
      exact .bind ((unify_args_le d).1 f c) fun _ => .refl _
    · exact hf
    · exact hf
  | case5 x v b ihv ihb =>
    have hbody : ∀ v, StopLe
        (do envPush x (← generalize d v); let b ← infer look d b; envPop; return b)
        (do envPush x (← generalize (d + 1) v); let b ← infer look' (d + 1) b; envPop; return b) := fun v =>
      .bind (generalize_le d v) fun _ => .next fun _ => .bind ihb fun _ => .refl _
    refine .bind (hlook x) fun r => ?_
    cases r with
    | some _ => exact .bind ihv hbody
    | none =>
      refine .next fun a => .next fun _ => .bind ihv fun v => ?_
      exact .bind ((unify_args_le d).1 a v) fun _ => .next fun _ => hbody a
  | _ => exact .refl _

omit hlook in
lemma countFree_le (d : ℕ) (sch : Scheme) : StopLe (countFree d sch) (countFree (d + 1) sch) :=
  .bind (fv_le d sch.t []) fun _ => .refl _

omit hlook in
lemma countDefs_le (d : ℕ) (es : List Def) : StopLe (countDefs d es) (countDefs (d + 1) es) := by
  induction es with
  | nil => exact .refl _
  | cons e es ih =>
    cases hsch : e.sch with
    | none => simpa only [countDefs, hsch] using ih
    | some sch =>
      simp only [countDefs, hsch]
      exact .bind (countFree_le d sch) fun _ => ih

omit hlook in
lemma envLoadDefs_le (d : ℕ) (top : Bool) : StopLe (envLoadDefs d top) (envLoadDefs (d + 1) top) :=
  .next fun _ => .bind (countDefs_le d _) fun _ => .refl _

omit hlook in
lemma guarded_le {m m' : TM Scheme} (h : StopLe m m') : StopLe (guarded m) (guarded m') := by
  intro s
  have hb : StopLe (do return (.ok (← m) : Except String Scheme)) (do return .ok (← m')) :=
    .bind h fun _ => .refl _
  change EStateM.tryCatch _ _ s = EStateM.tryCatch _ _ s ∨ ∃ s', EStateM.tryCatch _ _ s = _
  simp only [EStateM.tryCatch]
  rcases hb s with hb | ⟨s', hb⟩
  · rw [hb]
    exact Or.inl rfl
  · rw [hb]
    exact Or.inr ⟨s', rfl⟩

lemma typeCheck_le (d : ℕ) (top : Bool) (t : Term) :
    StopLe (typeCheck look d top t) (typeCheck look' (d + 1) top t) :=
  guarded_le (.bind (envLoadDefs_le d top) fun _ => .bind (infer_le hlook d t) fun a =>
    generalize_le d a)

lemma typeCheckRec_le (d : ℕ) (top : Bool) (x : String) (b : Term) :
    StopLe (typeCheckRec look d top x b) (typeCheckRec look' (d + 1) top x b) :=
  guarded_le (.bind (envLoadDefs_le d top) fun _ => .next fun a => .next fun _ =>
    .bind (infer_le hlook d b) fun v => .bind ((unify_args_le d).1 a v) fun _ => .next fun _ =>
      generalize_le d a)

lemma defType_le (d i : ℕ) (e : Def) : StopLe (defType look d i e) (defType look' (d + 1) i e) := by
  have hcheck : StopLe (checkDef look d e) (checkDef look' (d + 1) e) := by
    unfold checkDef
    cases e.raw with
    | none => exact typeCheck_le hlook d false e.term
    | some raw => exact typeCheckRec_le hlook d false _ raw
  refine .next fun _ => .bind hcheck fun r => .next fun _ => ?_
  cases r with
  | error msg => exact .refl _
  | ok sch => exact .next fun _ => countFree_le d sch

end Infer

lemma envFindWith_le {typeDef typeDef' : ℕ → Def → TM Unit}
    (h : ∀ i e, StopLe (typeDef i e) (typeDef' i e)) (x : String) :
    StopLe (envFindWith typeDef x) (envFindWith typeDef' x) := by
  refine .next fun s => ?_
  cases s.env.lookup x with
  | some sch => exact .refl _
  | none =>
    refine .next fun s => ?_
    cases s.prog.defFind x with
    | none => exact .refl _
    | some i =>
      refine .next fun s => ?_
      cases s.prog.defs[i]? with
      | none => exact .refl _
      | some e =>
        cases hsch : e.sch with
        | some sch =>
          simp only [hsch]
          exact .refl _
        | none =>
          simp only [hsch]
          exact .bind (h i e) fun _ => .refl _

/-- A lookup with more fuel, and with more definitions typed at a time. -/
lemma envFind_le (d k : ℕ) (x : String) : StopLe (envFind d k x) (envFind (d + 1) (k + 1) x) := by
  induction k generalizing x with
  | zero => exact envFindWith_le (fun _ _ => .throw _) x
  | succ k ih => exact envFindWith_le (fun i e => defType_le ih d i e) x

lemma checkTerm_le (d k : ℕ) (t : Term) : StopLe (checkTerm d k t) (checkTerm (d + 1) (k + 1) t) :=
  typeCheck_le (envFind_le d k) d true t

/-! ## What stops a walker -/

lemma Walking.onlyFuel {α : Type} {m : ℕ → TM α} (hle : ∀ d, StopLe (m d) (m (d + 1))) {s : TypeState}
    {Q : α → TypeState → Prop} {d₀ : ℕ} (h : Walking (m d₀) s Q) (d : ℕ) :
    wp (m d) (fun _ _ => True) (fun e _ => e = .fuel) s := by
  obtain ⟨a, s', ha⟩ := h.returns
  unfold wp
  rcases Nat.le_total d d₀ with hd | hd
  · rcases fuelLe_of_le hle hd s with h | ⟨s'', h⟩
    · rw [h, ha]
      trivial
    · rw [h]
  · rcases fuelLe_of_le hle hd s with h | ⟨s'', h⟩
    · rw [← h, ha]
      trivial
    · rw [h] at ha
      cases ha

end LinEngine
