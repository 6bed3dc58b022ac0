import LinEngine.Expansion
import LinEngine.Lockstep

/-!
# Annotations are trusted

`process_def` stores the annotation of a typed definition as its scheme, and inference types
a definition only when it has none. So no check reads the body of an annotated definition:
two sessions that differ in such bodies alone check every term alike.
-/
namespace LinEngine

/-! ## What the checker reads of the definitions -/

/-- The body of a definition that has its scheme is not read. -/
def Def.seen (e : Def) : String × Option Scheme × Option (Term × Option Term) :=
  (e.name, e.sch, if e.sch.isSome then none else some (e.term, e.raw))

namespace Defs

variable {D D' : Defs}

def seen (D : Defs) : List (String × Option Scheme × Option (Term × Option Term)) × String × List String :=
  (D.defs.map Def.seen, D.currNs, D.openNs)

lemma seen_getElem (h : D'.seen = D.seen) (i : ℕ) : D'.defs[i]?.map Def.seen = D.defs[i]?.map Def.seen := by
  rw [← List.getElem?_map, ← List.getElem?_map]
  exact congrArg (fun v : _ × _ => v.1[i]?) h

lemma seen_length (h : D'.seen = D.seen) : D'.defs.length = D.defs.length := by
  have hlen := congrArg (fun v : _ × _ => v.1.length) h
  simpa only [seen, List.length_map] using hlen

lemma seen_lookupRaw (h : D'.seen = D.seen) (x : String) : D'.lookupRaw x = D.lookupRaw x := by
  have hname : ∀ i : ℕ, D'.defs[i]?.map Def.name = D.defs[i]?.map Def.name := by
    intro i
    have hi := congrArg (Option.map Prod.fst) (seen_getElem h i)
    rwa [Option.map_map, Option.map_map] at hi
  simp only [lookupRaw, seen_length h, hname]

lemma seen_currNs (h : D'.seen = D.seen) : D'.currNs = D.currNs := congrArg (·.2.1) h

lemma seen_openNs (h : D'.seen = D.seen) : D'.openNs = D.openNs := congrArg (·.2.2) h

lemma seen_defFind (h : D'.seen = D.seen) (x : String) : D'.defFind x = D.defFind x := by
  simp only [defFind, seen_lookupRaw h, seen_currNs h, seen_openNs h]

end Defs

/-- The states agree but for bodies that are not read, and the definitions of `keep` have these schemes. -/
structure Agreed (keep : ℕ → Scheme → Prop) (s s' : TypeState) : Prop where
  same : s' = { s with prog := s'.prog }
  seen : s'.prog.seen = s.prog.seen
  kept : ∀ i sch, keep i sch → s.prog.defs[i]?.bind (·.sch) = some sch

/-- In step under `Agreed`. -/
abbrev Alike (keep : ℕ → Scheme → Prop) {α : Type} (m m' : TM α) : Prop := Lockstep (Agreed keep) m m'

section Cells

variable {keep : ℕ → Scheme → Prop}

/-- A change that does not touch the definitions. -/
lemma alike_modify {f : TypeState → TypeState} (hf : ∀ (s : TypeState) (D : Defs), f { s with prog := D } = { f s with prog := D })
    (hprog : ∀ s, (f s).prog = s.prog) : Alike keep (modify f : TM PUnit) (modify f) := by
  refine Lockstep.modify fun s s' h => ?_
  have hs' : f s' = { f s with prog := s'.prog } := by rw [h.same, hf]
  refine ⟨?_, ?_, ?_⟩
  · rw [hs']
  · rw [hs', hprog]
    exact h.seen
  · rw [hprog]
    exact h.kept

lemma alike_cellAt (a : ℕ) : Alike keep (cellAt a) (cellAt a) := by
  refine .get fun s s' h => ?_
  rw [h.same]
  exact .pure _

lemma alike_setHeap (h : Heap) : Alike keep (setHeap h) (setHeap h) := alike_modify (fun _ _ => rfl) fun _ => rfl

lemma alike_newCell (c : Cell) : Alike keep (newCell c) (newCell c) := by
  refine .get fun s s' h => ?_
  rw [h.same]
  exact .bind (alike_setHeap _) fun _ => .pure _

lemma alike_tvar : Alike keep tvar tvar := by
  refine .get fun s s' h => ?_
  rw [h.same]
  exact .bind (alike_modify (fun _ _ => rfl) fun _ => rfl) fun _ => alike_newCell _

lemma alike_relink (t a : ℕ) : Alike keep (relink t a) (relink t a) := by
  refine .get fun s s' h => ?_
  rw [h.same]
  exact alike_setHeap _

lemma alike_find (d t : ℕ) : Alike keep (find d t) (find d t) := by
  induction d generalizing t with
  | zero => exact .throw _
  | succ d ih =>
    refine .bind (alike_cellAt t) fun c => ?_
    cases c with
    | link a =>
      refine .bind (alike_cellAt a) fun c => ?_
      cases c with
      | link b => exact .bind (alike_relink t b) fun _ => ih b
      | _ => exact ih a
    | _ => exact .pure _

lemma alike_occurs (v d t : ℕ) : Alike keep (occurs v d t) (occurs v d t) := by
  induction d generalizing t with
  | zero => exact .throw _
  | succ d ih =>
    have htwo : ∀ a b, Alike keep (do if ← occurs v d a then return true else occurs v d b)
        (do if ← occurs v d a then return true else occurs v d b) := fun a b =>
      .bind (ih a) fun r => by
        cases r with
        | true => exact .pure _
        | false => exact ih b
    refine .bind (alike_find d t) fun u => ?_
    split_ifs
    · exact .pure _
    refine .bind (alike_cellAt u) fun c => ?_
    cases c with
    | arrow a b => exact htwo a b
    | nom n args =>
      cases args with
      | none => exact .pure _
      | some a => exact ih a
    | arg a next =>
      cases next with
      | none => exact ih a
      | some b => exact htwo a b
    | _ => exact .pure _

lemma alike_bindChecked (d v t : ℕ) : Alike keep (bindChecked d v t) (bindChecked d v t) := by
  refine .bind (alike_occurs v d t) fun r => ?_
  cases r with
  | true => exact .throw _
  | false => exact alike_relink v t

lemma alike_bindNominal (v t : ℕ) : Alike keep (bindNominal v t) (bindNominal v t) :=
  .bind (alike_modify (fun _ _ => rfl) fun _ => rfl) fun _ => alike_relink v t

lemma alike_unify_args (d : ℕ) : (∀ x y, Alike keep (unify d x y) (unify d x y)) ∧
    ∀ xs ys, Alike keep (unifyArgs d xs ys) (unifyArgs d xs ys) := by
  induction d with
  | zero => exact ⟨fun _ _ => .throw _, fun _ _ => .throw _⟩
  | succ d ih =>
    obtain ⟨ihu, iha⟩ := ih
    have hbind : ∀ v t, Alike keep (bindChecked d v t) (bindChecked d v t) := alike_bindChecked d
    have hmismatch : Alike keep (tfail "type mismatch" : TM Unit) (tfail "type mismatch") := .throw _
    constructor
    · intro x y
      refine .bind (alike_find d x) fun u => .bind (alike_find d y) fun w => ?_
      split_ifs
      · exact .pure _
      refine .bind (alike_cellAt u) fun c => .bind (alike_cellAt w) fun c' => ?_
      cases c with
      | tvr i =>
        cases c' with
        | nom n args => exact alike_bindNominal u w
        | _ => exact hbind u w
      | arrow a b =>
        cases c' with
        | arrow a' b' => exact .bind (ihu a a') fun _ => ihu b b'
        | tvr j => exact hbind w u
        | nom n args =>
          dsimp only
          split_ifs
          · exact hmismatch
          · exact .pure _
        | _ => exact hmismatch
      | nom n args =>
        cases c' with
        | nom n' args' =>
          dsimp only
          split_ifs
          · exact hmismatch
          · exact iha args args'
        | tvr j => exact alike_bindNominal w u
        | arrow a b =>
          dsimp only
          split_ifs
          · exact hmismatch
          · exact .pure _
        | _ => exact hmismatch
      | _ =>
        cases c' with
        | tvr j => exact hbind w u
        | _ => exact hmismatch
    · intro xs ys
      cases xs with
      | none => exact .pure _
      | some x =>
        cases ys with
        | none => exact .pure _
        | some y =>
          refine .bind (alike_cellAt x) fun c => .bind (alike_cellAt y) fun c' => ?_
          cases c with
          | arg a nx =>
            cases c' with
            | arg b ny => exact .bind (ihu a b) fun _ => iha nx ny
            | _ => exact .pure _
          | _ => exact .pure _

lemma alike_fv (d t : ℕ) (f : List ℕ) : Alike keep (fv d t f) (fv d t f) := by
  induction d generalizing t f with
  | zero => exact .throw _
  | succ d ih =>
    refine .bind (alike_find d t) fun u => .bind (alike_cellAt u) fun c => ?_
    cases c with
    | arrow a b => exact .bind (ih a f) fun f' => ih b f'
    | nom n args =>
      cases args with
      | none => exact .pure _
      | some a => exact ih a f
    | arg a next =>
      cases next with
      | none => exact ih a f
      | some b => exact .bind (ih a f) fun f' => ih b f'
    | _ => exact .pure _

lemma alike_instRec (m : List (ℕ × ℕ)) (d t : ℕ) : Alike keep (instRec m d t) (instRec m d t) := by
  induction d generalizing t with
  | zero => exact .throw _
  | succ d ih =>
    refine .bind (alike_find d t) fun u => .bind (alike_cellAt u) fun c => ?_
    cases c with
    | arrow a b => exact .bind (ih a) fun _ => .bind (ih b) fun _ => alike_newCell _
    | nom n args =>
      cases args with
      | none => exact alike_newCell _
      | some a => exact .bind (ih a) fun _ => alike_newCell _
    | arg a next =>
      cases next with
      | none => exact .bind (ih a) fun _ => alike_newCell _
      | some b => exact .bind (ih a) fun _ => .bind (ih b) fun _ => alike_newCell _
    | _ => exact .pure _

lemma alike_freshVars (ids : List ℕ) : Alike keep (freshVars ids) (freshVars ids) := by
  induction ids with
  | nil => exact .pure _
  | cons id ids ih => exact .bind alike_tvar fun _ => .bind ih fun _ => .pure _

lemma alike_instantiate (d : ℕ) (sch : Scheme) : Alike keep (instantiate d sch) (instantiate d sch) :=
  .bind (alike_freshVars sch.q) fun m => alike_instRec m d sch.t

lemma alike_envVars (d : ℕ) (es : List (String × Scheme)) (dyn : List ℕ) : Alike keep (envVars d es dyn) (envVars d es dyn) := by
  induction es generalizing dyn with
  | nil => exact .pure _
  | cons e es ih =>
    refine .bind (alike_find d e.2.t) fun u => .bind (alike_cellAt u) fun c => ?_
    cases c with
    | tvr id => exact ih _
    | _ => exact .bind (alike_fv d e.2.t dyn) fun dyn' => ih dyn'

lemma alike_generalize (d t : ℕ) : Alike keep (generalize d t) (generalize d t) := by
  refine .bind (alike_fv d t []) fun f => .get fun s s' h => ?_
  rw [h.same]
  refine .bind (alike_envVars d _ []) fun dyn => .get fun s s' h => ?_
  rw [h.same]
  exact .pure _

lemma alike_envPush (x : String) (sch : Scheme) : Alike keep (envPush x sch) (envPush x sch) :=
  alike_modify (fun _ _ => rfl) fun _ => rfl

lemma alike_envPop : Alike keep envPop envPop := alike_modify (fun _ _ => rfl) fun _ => rfl

lemma alike_countFree (d : ℕ) (sch : Scheme) : Alike keep (countFree d sch) (countFree d sch) :=
  .bind (alike_fv d sch.t []) fun _ => alike_modify (fun _ _ => rfl) fun _ => rfl

/-- The count reads the schemes alone. -/
lemma alike_countDefs (d : ℕ) {es es' : List Def} (h : es'.map (·.sch) = es.map (·.sch)) :
    Alike keep (countDefs d es) (countDefs d es') := by
  induction es generalizing es' with
  | nil =>
    obtain rfl : es' = [] := by simpa using h
    exact .pure _
  | cons e es ih =>
    cases es' with
    | nil => exact absurd h (by simp)
    | cons e' es' =>
      obtain ⟨he, hes⟩ := List.cons.inj h
      have he' : e'.sch = e.sch := he
      cases hsch : e.sch with
      | none =>
        rw [hsch] at he'
        simpa only [countDefs, hsch, he'] using ih hes
      | some sch =>
        rw [hsch] at he'
        simp only [countDefs, hsch, he']
        exact .bind (alike_countFree d sch) fun _ => ih hes

lemma alike_envLoadDefs (d : ℕ) (top : Bool) : Alike keep (envLoadDefs d top) (envLoadDefs d top) := by
  refine .get fun s s' h => ?_
  have hsch : (s'.prog.defs.drop s'.regN).map (·.sch) = (s.prog.defs.drop s.regN).map (·.sch) := by
    have hreg : s'.regN = s.regN := by rw [h.same]
    have hseen := congrArg (fun v : _ × _ => v.1.map (·.2.1)) h.seen
    simp only [Defs.seen, List.map_map] at hseen
    rw [hreg, List.map_drop, List.map_drop]
    exact congrArg (List.drop s.regN) hseen
  refine .bind (alike_countDefs d hsch) fun _ => .modify fun s s' h => ?_
  have hlen := Defs.seen_length h.seen
  refine ⟨?_, h.seen, h.kept⟩
  rw [hlen, h.same]

lemma alike_guarded {m m' : TM Scheme} (h : Alike keep m m') : Alike keep (guarded m) (guarded m') := by
  refine .tryCatch (.bind h fun _ => .pure _) fun e => ?_
  cases e with
  | error msg => exact .pure _
  | noType => exact .throw _
  | fuel => exact .throw _

end Cells

/-! ## Inference -/

section Inference

variable {keep : ℕ → Scheme → Prop} {look look' : String → TM (Option Scheme)}

/-- Inference reads the definitions through the lookup alone. -/
lemma alike_infer (hlook : ∀ x, Alike keep (look x) (look' x)) (d : ℕ) (t : Term) :
    Alike keep (infer look d t) (infer look' d t) := by
  have hbody : ∀ (x : String) (b : Term), Alike keep (infer look d b) (infer look' d b) → ∀ v, Alike keep
      (do envPush x (← generalize d v); let b ← infer look d b; envPop; return b)
      (do envPush x (← generalize d v); let b ← infer look' d b; envPop; return b) := fun x b hb v =>
    .bind (alike_generalize d v) fun _ => .bind (alike_envPush x _) fun _ => .bind hb fun _ => .bind alike_envPop fun _ => .pure _
  induction t using infer.induct with
  | case1 x =>
    refine .bind (hlook x) fun r => ?_
    cases r with
    | none => exact .throw _
    | some sch => exact alike_instantiate d sch
  | case2 x b ih =>
    refine .bind alike_tvar fun a => .bind (alike_envPush x _) fun _ => .bind ih fun b => ?_
    exact .bind alike_envPop fun _ => alike_newCell _
  | case3 x b a iha ihb => exact .bind iha fun v => hbody x b ihb v
  | case4 f a hf ihf iha =>
    rw [infer, infer]
    · refine .bind ihf fun f => .bind iha fun x => .bind alike_tvar fun r => .bind (alike_newCell _) fun c => ?_
      exact .bind ((alike_unify_args d).1 f c) fun _ => .pure _
    · exact hf
    · exact hf
  | case5 x v b ihv ihb =>
    refine .bind (hlook x) fun r => ?_
    cases r with
    | some _ => exact .bind ihv fun v => hbody x b ihb v
    | none =>
      refine .bind alike_tvar fun a => .bind (alike_envPush x _) fun _ => .bind ihv fun v => ?_
      exact .bind ((alike_unify_args d).1 a v) fun _ => .bind alike_envPop fun _ => hbody x b ihb a
  | case6 => exact alike_tvar
  | case7 => exact alike_tvar
  | case8 => exact .throw _
  | case9 => exact .throw _

lemma alike_typeCheck (hlook : ∀ x, Alike keep (look x) (look' x)) (d : ℕ) (top : Bool) (t : Term) :
    Alike keep (typeCheck look d top t) (typeCheck look' d top t) :=
  alike_guarded (.bind (alike_envLoadDefs d top) fun _ => .bind (alike_infer hlook d t) fun a => alike_generalize d a)

lemma alike_typeCheckRec (hlook : ∀ x, Alike keep (look x) (look' x)) (d : ℕ) (top : Bool) (x : String) (b : Term) :
    Alike keep (typeCheckRec look d top x b) (typeCheckRec look' d top x b) := by
  refine alike_guarded (.bind (alike_envLoadDefs d top) fun _ => .bind alike_tvar fun a => .bind (alike_envPush x _) fun _ => ?_)
  refine .bind (alike_infer hlook d b) fun v => .bind ((alike_unify_args d).1 a v) fun _ => ?_
  exact .bind alike_envPop fun _ => alike_generalize d a

end Inference

/-! ## Lookup -/

section Lookup

variable {keep : ℕ → Scheme → Prop} {look look' : String → TM (Option Scheme)}

lemma Defs.seen_modify {D D' : Defs} (h : D'.seen = D.seen) (i : ℕ) (sch : Scheme) :
    { D' with defs := D'.defs.modify i fun e => { e with sch := some sch } }.seen =
      { D with defs := D.defs.modify i fun e => { e with sch := some sch } }.seen := by
  have hdefs : (D'.defs.modify i fun e => { e with sch := some sch }).map Def.seen =
      (D.defs.modify i fun e => { e with sch := some sch }).map Def.seen := by
    refine List.ext_getElem? fun j => ?_
    have hj := Defs.seen_getElem h j
    rw [List.getElem?_map, List.getElem?_map, List.getElem?_modify, List.getElem?_modify]
    cases he : D.defs[j]? with
    | none =>
      rw [he] at hj
      rw [Option.map_eq_none_iff.1 hj]
    | some e =>
      rw [he] at hj
      obtain ⟨e', he', hseen⟩ := Option.map_eq_some_iff.1 hj
      rw [he']
      by_cases hij : i = j
      · have hname : e'.name = e.name := congrArg (·.1) hseen
        simp only [hij, if_true]
        exact congrArg (fun x => some (x, some sch, none)) hname
      · simp only [hij, if_false]
        exact congrArg some hseen
  simp only [Defs.seen, hdefs, Defs.seen_currNs h, Defs.seen_openNs h]

/-- A definition without a scheme gets one. -/
lemma alike_setScheme {i : ℕ} (hi : ∀ c, ¬keep i c) (sch : Scheme) : Alike keep (setScheme i sch) (setScheme i sch) := by
  refine .modify fun s s' h => ⟨?_, Defs.seen_modify h.seen i sch, fun j c hj => ?_⟩
  · rw [h.same]
  · have hij : i ≠ j := by
      rintro rfl
      exact hi c hj
    show ((s.prog.defs.modify i _)[j]?).bind _ = _
    rw [List.getElem?_modify]
    simpa [hij] using h.kept j c hj

lemma alike_defType (hlook : ∀ x, Alike keep (look x) (look' x)) (d : ℕ) {i : ℕ} {e e' : Def} (he : e'.seen = e.seen)
    (hsch : e.sch = none) (hi : ∀ c, ¬keep i c) : Alike keep (defType look d i e) (defType look' d i e') := by
  have hsch' : e'.sch = none := (congrArg (·.2.1) he).trans hsch
  have hbody : some (e'.term, e'.raw) = some (e.term, e.raw) := by
    have hb := congrArg (·.2.2) he
    simpa only [Def.seen, hsch, hsch', Option.isSome_none, Bool.false_eq_true, if_false] using hb
  obtain ⟨hterm, hraw⟩ := Prod.mk.inj (Option.some.inj hbody)
  have hname : e'.name = e.name := congrArg (·.1) he
  have hcheck : Alike keep (checkDef look d e) (checkDef look' d e') := by
    unfold checkDef
    rw [hraw, hterm, hname]
    cases e.raw with
    | none => exact alike_typeCheck hlook d false e.term
    | some raw => exact alike_typeCheckRec hlook d false _ raw
  refine .get fun s s' h => .bind hcheck fun r => ?_
  have henv : s'.env = s.env := by rw [h.same]
  rw [henv]
  refine .bind (alike_modify (fun _ _ => rfl) fun _ => rfl) fun _ => ?_
  cases r with
  | error msg => exact alike_modify (fun _ _ => rfl) fun _ => rfl
  | ok sch => exact .bind (alike_setScheme hi sch) fun _ => alike_countFree d sch

lemma alike_envFindWith {typeDef typeDef' : ℕ → Def → TM Unit}
    (h : ∀ i (e e' : Def), e'.seen = e.seen → e.sch = none → (∀ c, ¬keep i c) → Alike keep (typeDef i e) (typeDef' i e'))
    (x : String) : Alike keep (envFindWith typeDef x) (envFindWith typeDef' x) := by
  refine .get fun s s' hs => ?_
  have henv : s'.env = s.env := by rw [hs.same]
  rw [henv]
  cases s.env.lookup x with
  | some sch => exact .pure _
  | none =>
    refine .get fun s s' hs => ?_
    rw [Defs.seen_defFind hs.seen]
    cases s.prog.defFind x with
    | none => exact .pure _
    | some i =>
      refine .get fun s s' hs => ?_
      have hi := Defs.seen_getElem hs.seen i
      cases he : s.prog.defs[i]? with
      | none =>
        rw [he] at hi
        rw [Option.map_eq_none_iff.1 hi]
        exact .pure _
      | some e =>
        rw [he] at hi
        obtain ⟨e', he', hseen⟩ := Option.map_eq_some_iff.1 hi
        rw [he']
        have hsch' : e'.sch = e.sch := congrArg (·.2.1) hseen
        cases hsch : e.sch with
        | some sch =>
          rw [hsch] at hsch'
          simp only [hsch, hsch']
          exact .pure _
        | none =>
          rw [hsch] at hsch'
          simp only [hsch, hsch']
          have hfree : ∀ c, ¬keep i c := by
            intro c hc
            have hkept := hs.kept i c hc
            rw [he, Option.bind_some, hsch] at hkept
            cases hkept
          refine .bind (h i e e' hseen hsch hfree) fun _ => .get fun s s' hs => ?_
          have hfound : s'.prog.defs[i]?.bind (·.sch) = s.prog.defs[i]?.bind (·.sch) := by
            have hi := congrArg (Option.bind · (·.2.1)) (Defs.seen_getElem hs.seen i)
            rwa [Option.bind_map, Option.bind_map] at hi
          rw [hfound]
          exact .pure _

lemma alike_envFind (d k : ℕ) (x : String) : Alike keep (envFind d k x) (envFind d k x) := by
  induction k generalizing x with
  | zero =>
    rw [envFind]
    refine alike_envFindWith (fun i e e' he hsch hi => ?_) x
    exact .throw _
  | succ k ih =>
    rw [envFind]
    refine alike_envFindWith (fun i e e' he hsch hi => ?_) x
    exact alike_defType ih d he hsch hi

/-- A check has the same outcome whatever the bodies of the annotated definitions are. -/
theorem alike_checkTerm (d k : ℕ) (t : Term) : Alike keep (checkTerm d k t) (checkTerm d k t) :=
  alike_typeCheck (alike_envFind d k) d true t

end Lookup

/-! ## Forms -/

mutual

/-- The forms differ in bodies of annotated definitions alone. -/
inductive Form.Rebodied : Form → Form → Prop
  | same (f : Form) : Form.Rebodied f f
  | typed (name : String) (body body' : Term) (annot : Annot) :
    Form.Rebodied (.defineTyped name body annot) (.defineTyped name body' annot)
  | load {fs fs' : List Form} : Form.RebodiedAll fs fs' → Form.Rebodied (.load fs) (.load fs')

inductive Form.RebodiedAll : List Form → List Form → Prop
  | nil : Form.RebodiedAll [] []
  | cons {f f' : Form} {fs fs' : List Form} : Form.Rebodied f f' → Form.RebodiedAll fs fs' →
    Form.RebodiedAll (f :: fs) (f' :: fs')

end

namespace Defs

variable {D D' : Defs}

lemma seen_qualifyFree (h : D'.seen = D.seen) (g : List String) (t : Term) : D'.qualifyFree g t = D.qualifyFree g t := by
  induction t generalizing g with
  | var x => simp only [qualifyFree, seen_lookupRaw h, seen_currNs h]
  | lam x b ih => simp only [qualifyFree, ih]
  | app f a ihf iha => simp only [qualifyFree, ihf, iha]
  | tlet x v b ihv ihb => simp only [qualifyFree, ihv, ihb]
  | defn x b ih => simp only [qualifyFree, ih]
  | num _ => rfl
  | float _ => rfl
  | ref _ => rfl

lemma seen_append (h : D'.seen = D.seen) {e e' : Def} (he : e'.seen = e.seen) :
    { D' with defs := D'.defs ++ [e'] }.seen = { D with defs := D.defs ++ [e] }.seen := by
  have hdefs : D'.defs.map Def.seen = D.defs.map Def.seen := congrArg (·.1) h
  simp only [seen, List.map_append, List.map_cons, List.map_nil, hdefs, he, seen_currNs h, seen_openNs h]

/-- The same definition without a scheme, or one with this scheme and any body. -/
lemma seen_processDef (h : D'.seen = D.seen) (name : String) {body body' : Term} (sch : Option Scheme)
    (hbody : sch = none → body' = body) : (D'.processDef name body' sch).seen = (D.processDef name body sch).seen := by
  refine seen_append h ?_
  cases sch with
  | none =>
    rw [hbody rfl]
    simp only [newDef, seen_qualifyFree h, seen_currNs h]
  | some sch => simp only [newDef, Def.seen, seen_currNs h, Option.isSome_some, if_true]

lemma seen_members (h : D'.seen = D.seen) (ns : String) : D'.members ns = D.members ns := by
  have hnames : D'.defs.map (·.name) = D.defs.map (·.name) := by
    have hdefs := congrArg (fun v : _ × _ => v.1.map Prod.fst) h
    simp only [seen, List.map_map] at hdefs
    exact hdefs
  have hmembers : ∀ D : Defs, D.members ns = (D.defs.map (·.name)).filterMap fun x =>
      let rest := x.toList.drop (ns ++ ".").toList.length
      if (ns ++ ".").toList.isPrefixOf x.toList ∧ rest ≠ [] ∧ !rest.contains '.' ∧ rest.head? ≠ some '_' then
        some (String.ofList rest)
      else none := fun D => by rw [List.filterMap_map]; rfl
  rw [hmembers, hmembers, hnames]

lemma seen_exportNamespace (h : D'.seen = D.seen) (ns : String) :
    (D'.exportNamespace ns).seen = (D.exportNamespace ns).seen := by
  unfold exportNamespace
  split_ifs
  · exact h
  rw [seen_members h]
  generalize D.members ns = xs
  induction xs generalizing D D' with
  | nil => exact h
  | cons x xs ih => exact ih (seen_processDef h x none fun _ => rfl)

lemma seen_openNamespace (h : D'.seen = D.seen) (name : String) :
    (D'.openNamespace name).seen = (D.openNamespace name).seen := by
  have hdefs : D'.defs.map Def.seen = D.defs.map Def.seen := congrArg (·.1) h
  unfold openNamespace
  rw [seen_openNs h]
  split_ifs
  · exact h
  · simp only [seen, hdefs, seen_currNs h]

lemma seen_restore {E E' : Defs} (h : D'.seen = D.seen) (hbefore : E'.seen = E.seen) :
    (D'.restore E').seen = (D.restore E).seen := by
  have hdefs : D'.defs.map Def.seen = D.defs.map Def.seen := congrArg (·.1) h
  simp only [seen, restore, hdefs, seen_currNs hbefore, seen_openNs hbefore, seen_openNs h]

lemma seen_setNamespace (h : D'.seen = D.seen) (name : String) :
    (D'.setNamespace name).seen = (D.setNamespace name).seen := by
  have hdefs : D'.defs.map Def.seen = D.defs.map Def.seen := congrArg (·.1) h
  simp only [seen, setNamespace, hdefs, seen_openNs h]

lemma seen_setExpanded (D : Defs) (i : ℕ) (t : Term) : (D.setExpanded i t).seen = D.seen := by
  have hdefs : (D.setExpanded i t).defs.map Def.seen = D.defs.map Def.seen := by
    refine List.ext_getElem? fun j => ?_
    rw [List.getElem?_map, List.getElem?_map, setExpanded, List.getElem?_modify]
    cases D.defs[j]? with
    | none => rfl
    | some e => by_cases hij : i = j <;> simp [hij, Def.seen]
  simp only [seen, hdefs]
  rfl

end Defs

/-! ## Sessions -/

section Sessions

variable {keep : ℕ → Scheme → Prop} {s s' z z' : Session}

lemma estate_bind {ε σ α β : Type} {m : EStateM ε σ α} {f : α → EStateM ε σ β} {s z : σ} {b : β}
    (h : (m >>= f) s = .ok b z) : ∃ a y, m s = .ok a y ∧ f a y = .ok b z := by
  change EStateM.bind m f s = .ok b z at h
  unfold EStateM.bind at h
  cases hm : m s with
  | ok a y =>
    rw [hm] at h
    exact ⟨a, y, rfl, h⟩
  | error e y =>
    rw [hm] at h
    cases h

lemma typing_ok {α : Type} {m : TM α} {a : α} (h : typing m s = .ok a z) : m s.types = .ok a z.types := by
  unfold typing at h
  cases hm : m s.types with
  | ok b t =>
    rw [hm] at h
    cases h
    rfl
  | error e t =>
    rw [hm] at h
    cases h

/-- Other definitions, that read the same and have the schemes to keep. -/
lemma Agreed.defs {t t' : TypeState} {D D' : Defs} (h : Agreed keep t t') (hseen : D'.seen = D.seen)
    (hbegin : t.prog.defs <+: D.defs) : Agreed keep { t with prog := D } { t' with prog := D' } := by
  refine ⟨?_, hseen, fun i sch hi => ?_⟩
  · rw [h.same]
  · have hkept := h.kept i sch hi
    obtain ⟨e, he, hsch⟩ := Option.bind_eq_some_iff.1 hkept
    obtain ⟨rest, hrest⟩ := hbegin
    have hlt := (List.getElem?_eq_some_iff.1 he).1
    show D.defs[i]?.bind _ = _
    rw [← hrest, List.getElem?_append_left hlt]
    exact hkept

/-- What an expansion may change. -/
structure Hushed (s z : Session) : Prop where
  same : z.types = { s.types with prog := z.types.prog }
  seen : z.types.prog.seen = s.types.prog.seen

lemma Hushed.refl (s : Session) : Hushed s s := ⟨rfl, rfl⟩

lemma Hushed.trans {y : Session} (h : Hushed s y) (h' : Hushed y z) : Hushed s z :=
  ⟨by rw [h'.same, h.same], h'.seen.trans h.seen⟩

lemma expand_quiet (d : ℕ) (g : List String) (t : Term) (s : Session) :
    wp (expand d g t) (fun _ z => Hushed s z) (fun _ _ => True) s := by
  induction d generalizing g t s with
  | zero => exact trivial
  | succ d ih =>
    have htwo : ∀ (g' : List String) (a b : Term) (k : Term → Term → Term),
        wp (do let a ← expand d g' a; let b ← expand d g b; return k a b) (fun _ z => Hushed s z) (fun _ _ => True) s := by
      intro g' a b k
      rw [wp_bind]
      refine wp_mono (ih g' a s) (fun _ y hy => ?_) fun _ _ h => h
      rw [wp_bind]
      exact wp_mono (ih g b y) (fun _ z hz => hy.trans hz) fun _ _ h => h
    have hone : ∀ (g' : List String) (b : Term) (k : Term → Term),
        wp (do return k (← expand d g' b)) (fun _ z => Hushed s z) (fun _ _ => True) s := by
      intro g' b k
      rw [wp_bind]
      exact wp_mono (ih g' b s) (fun _ _ h => h) fun _ _ h => h
    cases t with
    | var x =>
      unfold expand
      split_ifs
      · exact .refl s
      rw [wp_bind, wp_getProg]
      cases s.types.prog.defFind x with
      | none => exact .refl s
      | some i =>
        cases he : s.types.prog.defs[i]? with
        | none =>
          simp only [he]
          exact .refl s
        | some e =>
          simp only [he]
          cases e.expanded with
          | some t => exact .refl s
          | none =>
            rw [wp_bind, wp_modify, wp_bind]
            refine wp_mono (ih _ e.term _) (fun u y hy => ?_) fun _ _ h => h
            refine Hushed.trans ⟨hy.same, hy.seen⟩ ⟨rfl, ?_⟩
            exact Defs.seen_setExpanded _ i u
    | lam x b => exact hone _ b _
    | app f a => exact htwo g f a _
    | tlet x v b => exact htwo _ v b _
    | defn x b => exact hone _ b _
    | num _ => exact .refl s
    | float _ => exact .refl s
    | ref _ => exact .refl s

/-- Two programs whose runs, when both return, lead from agreeing sessions to agreeing ones. -/
def Abreast (keep : ℕ → Scheme → Prop) {α : Type} (m m' : SM α) : Prop :=
  ∀ s s' z z' a a', Agreed keep s.types s'.types → m s = .ok a z → m' s' = .ok a' z' → Agreed keep z.types z'.types

lemma Abreast.bind {α β : Type} {m m' : SM α} {f f' : α → SM β} (h : Abreast keep m m')
    (hf : ∀ a a', Abreast keep (f a) (f' a')) : Abreast keep (m >>= f) (m' >>= f') := by
  intro s s' z z' b b' hs hz hz'
  obtain ⟨a, y, hm, hz⟩ := estate_bind hz
  obtain ⟨a', y', hm', hz'⟩ := estate_bind hz'
  exact hf a a' y y' z z' b b' (h s s' y y' a a' hs hm hm') hz hz'

/-- A change of the definitions. -/
lemma Abreast.change {f f' : Defs → Defs} (hseen : ∀ {D D' : Defs}, D'.seen = D.seen → (f' D').seen = (f D).seen)
    (hbegin : ∀ D : Defs, D.defs <+: (f D).defs) :
    Abreast keep (do setProg (f (← getProg))) (do setProg (f' (← getProg))) := by
  intro s s' z z' a a' hs hz hz'
  cases hz
  cases hz'
  exact hs.defs (hseen hs.seen) (hbegin _)

lemma abreast_eval (d : ℕ) (t : Term) : Abreast keep (evalForm d t) (evalForm d t) := by
  intro s s' z z' a a' hs hz hz'
  unfold evalForm at hz hz'
  obtain ⟨r, y, hm, hz⟩ := estate_bind hz
  obtain ⟨r', y', hm', hz'⟩ := estate_bind hz'
  obtain ⟨rfl, hy⟩ := (alike_checkTerm d d t).ok hs (typing_ok hm) (typing_ok hm')
  cases r' with
  | error msg =>
    cases hz
    cases hz'
    exact ⟨by rw [hy.same], hy.seen, hy.kept⟩
  | ok sch =>
    obtain ⟨u, w, hu, hz⟩ := estate_bind hz
    obtain ⟨u', w', hu', hz'⟩ := estate_bind hz'
    cases hz
    cases hz'
    have hq := expand_quiet d [] t y
    have hq' := expand_quiet d [] t y'
    rw [wp, show expand d [] t y = _ from hu] at hq
    rw [wp, show expand d [] t y' = _ from hu'] at hq'
    refine ⟨?_, hq'.seen.trans (hy.seen.trans hq.seen.symm), fun i sch hi => ?_⟩
    · rw [hq'.same, hy.same, hq.same]
    · have hsch := congrArg (Option.bind · (·.2.1)) (Defs.seen_getElem hq.seen i)
      rw [Option.bind_map, Option.bind_map] at hsch
      exact hsch.trans (hy.kept i sch hi)

mutual

lemma alike_build (vars : List ℕ) : (t : TyExp) → Alike keep (t.build vars) (t.build vars)
  | .var i => by
    unfold TyExp.build
    cases vars[i]? with
    | some a => exact .pure a
    | none => exact alike_tvar
  | .arrow a b => by
    unfold TyExp.build
    exact .bind (alike_build vars a) fun _ => .bind (alike_build vars b) fun _ => alike_newCell _
  | .nom n args => by
    unfold TyExp.build
    exact .bind (alike_buildArgs vars args) fun _ => alike_newCell _

lemma alike_buildArgs (vars : List ℕ) : (ts : TyArgs) → Alike keep (ts.build vars) (ts.build vars)
  | .nil => .pure _
  | .cons a rest => by
    unfold TyArgs.build
    refine .bind (alike_build vars a) fun _ => .bind (alike_buildArgs vars rest) fun _ => ?_
    exact .bind (alike_newCell _) fun _ => .pure _

end

lemma alike_scheme (d : ℕ) (annot : Annot) : Alike keep (annot.scheme d) (annot.scheme d) := by
  refine .bind (alike_freshVars _) fun vars => .bind (alike_build _ annot.type) fun t => ?_
  exact .bind (alike_fv d t []) fun _ => .pure _

lemma abreast_typed (d : ℕ) (name : String) (body body' : Term) (annot : Annot) :
    Abreast keep (runForm d (.defineTyped name body annot)) (runForm d (.defineTyped name body' annot)) := by
  intro s s' z z' a a' hs hz hz'
  unfold runForm at hz hz'
  obtain ⟨sch, y, hm, hz⟩ := estate_bind hz
  obtain ⟨sch', y', hm', hz'⟩ := estate_bind hz'
  obtain ⟨rfl, hy⟩ := (alike_scheme d annot).ok hs (typing_ok hm) (typing_ok hm')
  cases hz
  cases hz'
  exact hy.defs (Defs.seen_processDef hy.seen name _ nofun) (List.prefix_append _ _)

lemma Defs.prefix_exportNamespace (D : Defs) (ns : String) : D.defs <+: (D.exportNamespace ns).defs := by
  unfold Defs.exportNamespace
  split_ifs
  · exact List.prefix_rfl
  generalize D.members ns = xs
  induction xs generalizing D with
  | nil => exact List.prefix_rfl
  | cons x xs ih =>
    have hone : D.defs <+: (D.processDef x (.var (qualified ns x)) none).defs := List.prefix_append _ _
    exact hone.trans (ih _)

lemma Form.RebodiedAll.refl (fs : List Form) : Form.RebodiedAll fs fs := by
  induction fs with
  | nil => exact .nil
  | cons f fs ih => exact .cons (.same f) ih

mutual

lemma abreast_form (d : ℕ) : (f : Form) → ∀ f', Form.Rebodied f f' → Abreast keep (runForm d f) (runForm d f')
  | .ns name, _, .same _ => .change (fun h => Defs.seen_setNamespace h name) fun _ => List.prefix_rfl
  | .openNs name, _, .same _ => .change (fun h => Defs.seen_openNamespace h name) fun D => by rw [Defs.defs_openNamespace]
  | .exportNs name, _, .same _ => .change (fun h => Defs.seen_exportNamespace h name) fun D => D.prefix_exportNamespace name
  | .define name body, _, .same _ =>
    .change (fun h => Defs.seen_processDef h name none fun _ => rfl) fun _ => List.prefix_append _ _
  | .defineTyped name body annot, _, .same _ => abreast_typed d name body body annot
  | .defineTyped name body annot, _, .typed _ _ body' _ => abreast_typed d name body body' annot
  | .load fs, _, .same _ => abreast_load d fs fs (.refl fs)
  | .load fs, _, .load h => abreast_load d fs _ h
  | .eval t, _, .same _ => abreast_eval d t

lemma abreast_load (d : ℕ) (fs fs' : List Form) (h : Form.RebodiedAll fs fs') :
    Abreast keep (runForm d (.load fs)) (runForm d (.load fs')) := by
  intro s s' z z' a a' hs hz hz'
  unfold runForm at hz hz'
  obtain ⟨_, y, hm, hz⟩ := estate_bind hz
  obtain ⟨_, y', hm', hz'⟩ := estate_bind hz'
  cases hm
  cases hm'
  obtain ⟨_, w, hw, hz⟩ := estate_bind hz
  obtain ⟨_, w', hw', hz'⟩ := estate_bind hz'
  have hwait := abreast_forms d fs fs' h _ _ w w' _ _ hs hw hw'
  cases hz
  cases hz'
  exact hwait.defs (Defs.seen_restore hwait.seen hs.seen) List.prefix_rfl

lemma abreast_forms (d : ℕ) : (fs fs' : List Form) → Form.RebodiedAll fs fs' →
    Abreast keep (runForms d fs) (runForms d fs')
  | [], _, .nil => by
    intro s s' z z' a a' hs hz hz'
    cases hz
    cases hz'
    exact hs
  | f :: fs, _, .cons h hs => by
    unfold runForms
    exact .bind (abreast_form d f _ h) fun _ _ => abreast_forms d fs _ hs

end

end Sessions

/-! ## The annotation alone counts -/

/-- A definition with a scheme is found as it is. -/
lemma envFind_typed {s : TypeState} {x : String} {i : ℕ} {sch : Scheme} (henv : s.env.lookup x = none)
    (hfind : s.prog.defFind x = some i) (hsch : s.prog.defs[i]?.bind (·.sch) = some sch) (d k : ℕ) :
    envFind d k x s = .ok (some sch) s := by
  obtain ⟨e, he, hesch⟩ := Option.bind_eq_some_iff.1 hsch
  have hwith : ∀ typeDef : ℕ → Def → TM Unit, envFindWith typeDef x s = .ok (some sch) s := by
    intro typeDef
    have hwp : wp (envFindWith typeDef x) (fun r s' => r = some sch ∧ s' = s) (fun _ _ => False) s := by
      unfold envFindWith
      rw [wp_bind, wp_get, henv]
      simp only [wp_bind, wp_get, hfind, he, hesch]
      exact ⟨rfl, rfl⟩
    unfold wp at hwp
    cases hr : envFindWith typeDef x s with
    | ok r s' =>
      rw [hr] at hwp
      rw [hwp.1, hwp.2]
    | error e s' =>
      rw [hr] at hwp
      exact hwp.elim
  cases k with
  | zero => exact hwith _
  | succ k => exact hwith _

/-- An annotated definition keeps the scheme of its annotation, and every check has the outcome that it would have
with other bodies of the annotated definitions. -/
theorem annotations_trusted (d : ℕ) {fs fs' gs gs' : List Form} (hfs : Form.RebodiedAll fs fs') (hgs : Form.RebodiedAll gs gs')
    {name : String} {body body' : Term} {annot : Annot} {s₀ s s₀' s' : Session}
    (h₀ : runForms d fs startSession = .ok () s₀) (hs : runForms d (.defineTyped name body annot :: gs) s₀ = .ok () s)
    (h₀' : runForms d fs' startSession = .ok () s₀') (hs' : runForms d (.defineTyped name body' annot :: gs') s₀' = .ok () s') :
    (∃ sch z, annot.scheme d s₀.types = .ok sch z ∧ ∀ k x, s.types.env.lookup x = none →
      s.types.prog.defFind x = some s₀.types.prog.defs.length → envFind d k x s.types = .ok (some sch) s.types) ∧
    ∀ k t, Matched (Agreed fun _ _ => False) (checkTerm d k t s.types) (checkTerm d k t s'.types) := by
  have hnone : ∀ t : TypeState, Agreed (fun _ _ => False) t t := fun t => ⟨rfl, rfl, fun _ _ h => h.elim⟩
  have hmid := abreast_forms d fs fs' hfs _ _ _ _ _ _ (hnone _) h₀ h₀'
  have hall : Agreed (fun _ _ => False) s.types s'.types :=
    abreast_forms d _ _ (.cons (.typed name body body' annot) hgs) _ _ _ _ _ _ hmid hs hs'
  refine ⟨?_, fun k t => alike_checkTerm d k t _ _ hall⟩
  obtain ⟨_, y, hform, hrest⟩ := estate_bind hs
  unfold runForm at hform
  obtain ⟨sch, w, hm, hset⟩ := estate_bind hform
  cases hset
  refine ⟨sch, w.types, typing_ok hm, fun k x henv hfind => envFind_typed henv hfind ?_ d k⟩
  -- From the form on the definition keeps its scheme.
  set keep : ℕ → Scheme → Prop := fun i c => i = s₀.types.prog.defs.length ∧ c = sch
  have hlen : w.types.prog.defs.length = s₀.types.prog.defs.length := by
    have hframe := wp_typing (fun _ _ => none) [] (fun _ => False) (annot.follows_scheme d) s₀
    rw [wp, hm] at hframe
    have hcore := congrArg (·.defs.length) hframe.2
    simpa [Defs.core] using hcore
  set t : TypeState := { w.types with prog := w.types.prog.processDef name body (some sch) }
  have hstart : Agreed keep t t := by
    refine ⟨rfl, rfl, ?_⟩
    rintro i c ⟨rfl, rfl⟩
    show (w.types.prog.defs ++ [_])[_]?.bind _ = _
    rw [← hlen, List.getElem?_append_right le_rfl]
    simp [Defs.newDef]
  have hend : Agreed keep s.types s.types := abreast_forms d gs gs (.refl gs) _ _ _ _ _ _ hstart hrest hrest
  exact hend.kept _ sch ⟨rfl, rfl⟩

/-- `\x.x x` has no type, and is defined to be of type `a -> b`. -/
def untypableBody : Term := .lam "x" (.app (.var "x") (.var "x"))

def arrowAnnot : Annot := ⟨2, .arrow (.var 0) (.var 1)⟩

theorem annotations_trusted_bad : ∃ s s',
    runForms 9 [.defineTyped "bad" untypableBody arrowAnnot] startSession = .ok () s ∧
    runForms 9 [.defineTyped "bad" (.lam "x" (.var "x")) arrowAnnot] startSession = .ok () s' ∧
    ∀ k t, Matched (Agreed fun _ _ => False) (checkTerm 9 k t s.types) (checkTerm 9 k t s'.types) := by
  obtain ⟨s, s', hs, hs', -⟩ := exists_runs 9 [.defineTyped "bad" untypableBody arrowAnnot]
    [.defineTyped "bad" (.lam "x" (.var "x")) arrowAnnot] (fun _ _ => True) (by decide +kernel)
  exact ⟨s, s', hs, hs', (annotations_trusted 9 .nil .nil rfl hs rfl hs').2⟩

/-- A use of the name is accepted, and the body is not. -/
theorem annotation_unchecked : ¬∀ (d : ℕ) (name : String) (body : Term) (annot : Annot) (s : Session) (sch : Scheme)
    (z : TypeState), runForm d (.defineTyped name body annot) startSession = .ok () s →
      checkTerm d d (.var name) s.types = .ok (.ok sch) z → ∃ sch' z', checkTerm d d body s.types = .ok (.ok sch') z' := by
  intro h
  have hrun : wp (runForm 9 (.defineTyped "bad" untypableBody arrowAnnot)) (fun _ s =>
      wp (checkTerm 9 9 (.var "bad")) (fun r _ => r.toOption.isSome) (fun _ _ => False) s.types ∧
        wp (checkTerm 9 9 untypableBody) (fun r _ => r.toOption = none) (fun _ _ => False) s.types)
      (fun _ _ => False) startSession := by decide +kernel
  unfold wp at hrun
  cases hs : runForm 9 (.defineTyped "bad" untypableBody arrowAnnot) startSession with
  | error e s => rw [hs] at hrun; exact hrun
  | ok a s =>
    rw [hs] at hrun
    obtain ⟨huse, hbody⟩ := hrun
    cases hz : checkTerm 9 9 (.var "bad") s.types with
    | error e z => rw [hz] at huse; exact huse
    | ok r z =>
      rw [hz] at huse
      cases r with
      | error msg => cases huse
      | ok sch =>
        obtain ⟨sch', z', hz'⟩ := h 9 "bad" untypableBody arrowAnnot s sch z hs hz
        rw [hz'] at hbody
        cases hbody

end LinEngine
