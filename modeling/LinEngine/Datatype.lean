import LinEngine.Meaning
import LinEngine.Session

/-!
# Datatypes and pattern dispatch

A datatype defines one function for each constructor, which takes the fields and one
case for each constructor and applies its own case to the fields. A match applies the
scrutinee to its cases in order, each a function of its pattern variables.
-/
namespace LinEngine

open Lambda Relation

/-- A field; its written type counts the parameters of the datatype first. -/
structure Field where
  name : String
  type : Option TyExp

structure Ctor where
  name : String
  fields : List Field

/-- `others` is the number of type variables that are no parameters. -/
structure Datatype where
  name : String
  arity : ℕ
  others : ℕ
  ctors : List Ctor

def Ctor.names (c : Ctor) : List String := c.fields.map (·.name)

/-- The binder of the case of constructor `i`. -/
def dispatchName (i : ℕ) : String := "_d" ++ toString i

/-- The function of constructor `idx` of `m`; the dispatch binders are innermost. -/
def scottCtor (idx : ℕ) (fields : List String) (m : ℕ) : Term :=
  Term.lams fields (Term.lams ((List.range m).map dispatchName)
    (Term.apps (.var (dispatchName idx)) (fields.map .var)))

mutual

/-- The variables that are no parameters come after the `k` of the untyped fields. -/
def TyExp.resolve (arity k : ℕ) : TyExp → TyExp
  | .var i => if i < arity then .var i else .var (i + k)
  | .arrow a b => .arrow (a.resolve arity k) (b.resolve arity k)
  | .nom n args => .nom n (args.resolve arity k)

def TyArgs.resolve (arity k : ℕ) : TyArgs → TyArgs
  | .nil => .nil
  | .cons a rest => .cons (a.resolve arity k) (rest.resolve arity k)

end

namespace Datatype

/-- The datatype applied to its parameters. -/
def head (T : Datatype) : TyExp :=
  .nom T.name ((List.range T.arity).foldr (fun i rest => .cons (.var i) rest) .nil)

/-- A constructor takes its fields to the datatype; an untyped field has a variable of its own. -/
def annot (T : Datatype) (c : Ctor) : Annot where
  vars := T.arity + c.fields.length + T.others
  type := c.fields.zipIdx.foldr (fun f t =>
    .arrow ((f.1.type.map (TyExp.resolve T.arity c.fields.length)).getD (.var (T.arity + f.2))) t) T.head

/-- The definitions of a datatype, one for each constructor. -/
def forms (T : Datatype) : List Form :=
  T.ctors.zipIdx.map fun c => .defineTyped c.1.name (scottCtor c.2 c.1.names T.ctors.length) (T.annot c.1)

/-- What `process_def` adds for constructor `i`, but for its scheme. -/
def ctorDef (T : Datatype) (D : Defs) (i : Fin T.ctors.length) : Def :=
  D.newDef T.ctors[i].name (scottCtor i T.ctors[i].names T.ctors.length) none

end Datatype

/-- A case; one without pattern variables is its body. -/
structure Case where
  vars : List String
  body : Term

def Case.fn (k : Case) : Term := Term.lams k.vars k.body

/-- The scrutinee applied to one function for each case. -/
def matchTerm (scrut : Term) (cases : List Case) : Term := Term.apps scrut (cases.map Case.fn)

/-! ## What is defined -/

lemma dispatchName_inj {i j : ℕ} (h : dispatchName i = dispatchName j) : i = j :=
  Nat.repr_inj.mp ((String.append_right_inj "_d").mp h)

lemma nodup_dispatchNames (m : ℕ) : ((List.range m).map dispatchName).Nodup :=
  List.nodup_range.map fun _ _ => dispatchName_inj

lemma termRefs_lams (x : String) (xs : List String) (b : Term) :
    termRefs x (Term.lams xs b) = true ↔ x ∉ xs ∧ termRefs x b = true := by
  induction xs with
  | nil => simp [Term.lams]
  | cons y ys ih =>
    have ih : termRefs x (List.foldr Term.lam b ys) = true ↔ _ := ih
    simp only [Term.lams, List.foldr_cons, termRefs, Bool.and_eq_true, ih, List.mem_cons, not_or, and_assoc,
      bne_iff_ne, ne_comm (a := y), ne_eq]

lemma termRefs_apps (x : String) (f : Term) (xs : List String) :
    termRefs x (Term.apps f (xs.map .var)) = true ↔ termRefs x f = true ∨ x ∈ xs := by
  induction xs generalizing f with
  | nil => simp [Term.apps]
  | cons y ys ih =>
    have ih : termRefs x (List.foldl Term.app (.app f (.var y)) (ys.map .var)) = true ↔ _ := ih _
    simp only [Term.apps, List.map_cons, List.foldl_cons, ih, termRefs, Bool.or_eq_true, beq_iff_eq, List.mem_cons,
      or_assoc, eq_comm (a := y)]

lemma termRefs_scottCtor (x : String) {i m : ℕ} (hi : i < m) (fs : List String) :
    termRefs x (scottCtor i fs m) = false := by
  rw [← Bool.not_eq_true, scottCtor, termRefs_lams, termRefs_lams, termRefs_apps]
  rintro ⟨hfs, hds, hx | hx⟩
  · obtain rfl : dispatchName i = x := by simpa [termRefs] using hx
    exact hds (List.mem_map_of_mem (List.mem_range.mpr hi))
  · exact hfs hx

namespace Defs

variable {D : Defs}

lemma qualifyFree_lams (g xs : List String) (b : Term) :
    D.qualifyFree g (Term.lams xs b) = Term.lams xs (D.qualifyFree (xs.reverse ++ g) b) := by
  induction xs generalizing g with
  | nil => rfl
  | cons x xs ih =>
    have ih : D.qualifyFree (x :: g) (List.foldr Term.lam b xs) = _ := ih _
    simp only [Term.lams, List.foldr_cons, qualifyFree, ih, List.reverse_cons, List.append_assoc, List.singleton_append]

lemma qualifyFree_var {g : List String} {x : String} (hx : x ∈ g) : D.qualifyFree g (.var x) = .var x := by
  simp [qualifyFree, hx]

lemma qualifyFree_apps {g : List String} {f : Term} (hf : D.qualifyFree g f = f) {xs : List String}
    (hxs : ∀ x ∈ xs, x ∈ g) : D.qualifyFree g (Term.apps f (xs.map .var)) = Term.apps f (xs.map .var) := by
  induction xs generalizing f with
  | nil => exact hf
  | cons x xs ih =>
    obtain ⟨hx, hxs⟩ := List.forall_mem_cons.mp hxs
    exact ih (by rw [qualifyFree, hf, qualifyFree_var hx]) hxs

/-- A constructor is defined as it stands. -/
lemma newDef_scottCtor (D : Defs) (x : String) {i m : ℕ} (hi : i < m) (fs : List String) (sch : Option Scheme) :
    (D.newDef x (scottCtor i fs m) sch).term = scottCtor i fs m := by
  have hbody : D.qualifyFree [] (scottCtor i fs m) = scottCtor i fs m := by
    rw [scottCtor, qualifyFree_lams, qualifyFree_lams, qualifyFree_apps]
    · refine qualifyFree_var (List.mem_append_left _ (List.mem_reverse.mpr ?_))
      exact List.mem_map_of_mem (List.mem_range.mpr hi)
    · exact fun x hx => List.mem_append_right _ (List.mem_append_left _ (List.mem_reverse.mpr hx))
  simp only [newDef, termRefs_scottCtor x hi, hbody, if_false, Bool.false_eq_true]

end Defs

lemma Datatype.ctorDef_term (T : Datatype) (D : Defs) (i : Fin T.ctors.length) :
    (T.ctorDef D i).term = scottCtor i T.ctors[i].names T.ctors.length :=
  D.newDef_scottCtor _ i.isLt _ none

/-! ## Dispatch -/

/-- One case for each constructor, with a distinct variable for each field. -/
def Matches (T : Datatype) (cases : List Case) : Prop :=
  List.Forall₂ (fun c k => k.vars.length = c.names.length ∧ k.vars.Nodup) T.ctors cases

/-- A match on constructor `i`, whatever else is defined, reduces to its case with the
arguments in place of the pattern variables. -/
def Dispatches (T : Datatype) (i : Fin T.ctors.length) : Prop :=
  ∀ (D : Defs) (args : List Term) (cases : List Case) (k : Case), args.length = T.ctors[i].names.length →
    Matches T cases → cases[(i : ℕ)]? = some k →
    ReflTransGen Tm.Beta ((matchTerm (Term.apps (T.ctorDef D i).term args) cases).under .free)
      (k.body.under (Env.free.sets k.vars (args.map (Term.under .free))))

/-- The values of the names in the body of a constructor. -/
def ctorEnv (fields : List String) (as cs : List (Tm Atom)) : Env :=
  (Env.free.sets fields as).sets ((List.range cs.length).map dispatchName) cs

section Dispatch

variable {T : Datatype} {fs : List String} {as cs : List (Tm Atom)} {i m : ℕ}

lemma ctorEnv_dispatch (hi : i < cs.length) : ctorEnv fs as cs (dispatchName i) = cs[i] := by
  have h := @Env.sets_getElem (Env.free.sets fs as) _ cs (nodup_dispatchNames cs.length) i (by simpa using hi) hi
  rwa [List.getElem_map, List.getElem_range] at h

lemma ctorEnv_field {x : String} (hx : ∀ j < cs.length, dispatchName j ≠ x) :
    ctorEnv fs as cs x = Env.free.sets fs as x := by
  refine Env.sets_notMem fun hmem => ?_
  obtain ⟨j, hj, rfl⟩ := List.mem_map.mp hmem
  exact hx j (List.mem_range.mp hj) rfl

/-- A constructor applied to its fields and to the cases. -/
lemma scottCtor_apps (hfs : fs.length = as.length) (hcs : cs.length = m) (hi : i < cs.length) :
    ReflTransGen Tm.Beta ((((scottCtor i fs m).under .free).apps as).apps cs)
      (cs[i].apps (fs.map (ctorEnv fs as cs))) := by
  subst hcs
  have hfields := Term.under_lams_apps hfs
    (Term.lams ((List.range cs.length).map dispatchName) (Term.apps (.var (dispatchName i)) (fs.map .var))) .free
  have hcases := @Term.under_lams_apps ((List.range cs.length).map dispatchName) cs (by simp)
    (Term.apps (.var (dispatchName i)) (fs.map .var)) (Env.free.sets fs as)
  have hbody : (Term.apps (.var (dispatchName i)) (fs.map .var)).under (ctorEnv fs as cs) =
      cs[i].apps (fs.map (ctorEnv fs as cs)) := by
    rw [Term.under_apps, List.map_map, Term.under, ctorEnv_dispatch hi]
    rfl
  rw [← hbody]
  exact (Tm.reduces_apps cs hfields).trans hcases

lemma ctorEnv_normal (has : ∀ a ∈ as, a.normal = true) (hcs : ∀ c ∈ cs, c.normal = true) (x : String) :
    (ctorEnv fs as cs x).normal = true := by
  rcases Env.sets_cases (Env.free.sets fs as) ((List.range cs.length).map dispatchName) cs x with h | h
  · exact hcs _ h
  rcases Env.sets_cases .free fs as x with h' | h'
  · exact has _ (by rwa [ctorEnv, h])
  · rw [ctorEnv, h, h']
    rfl

/-- The values of the fields when the cases are dispatched to. -/
def fieldValues (fields : List String) (args : List Term) (cases : List Case) : List (Tm Atom) :=
  fields.map (ctorEnv fields (args.map (Term.under .free)) (cases.map fun k => k.fn.under .free))

variable {args : List Term} {cases : List Case} {k : Case}

lemma matchTerm_reduces {T : Datatype} {i : Fin T.ctors.length} (hargs : args.length = T.ctors[i].names.length)
    (hcases : Matches T cases) (hk : cases[(i : ℕ)]? = some k) :
    ReflTransGen Tm.Beta
      ((matchTerm (Term.apps (scottCtor i T.ctors[i].names T.ctors.length) args) cases).under .free)
      (k.body.under (Env.free.sets k.vars (fieldValues T.ctors[i].names args cases))) := by
  obtain ⟨hi, rfl⟩ := List.getElem?_eq_some_iff.mp hk
  have hlen : (cases.map fun k => k.fn.under .free).length = T.ctors.length := by
    rw [List.length_map, hcases.length_eq]
  have hvars := hcases.get i.isLt hi
  have hctor := @scottCtor_apps T.ctors[i].names (args.map (Term.under .free)) (cases.map fun k => k.fn.under .free)
    i T.ctors.length (by rw [List.length_map, hargs]) hlen (by rw [hlen]; exact i.isLt)
  rw [List.getElem_map] at hctor
  rw [matchTerm, Term.under_apps, Term.under_apps, List.map_map]
  exact hctor.trans (Term.under_lams_apps (hvars.1.trans (List.length_map _).symm) _ _)

/-- Where no dispatch binder and no later field hides a field, its value is its argument. -/
lemma fieldValues_eq {fs : List String} (hargs : args.length = fs.length) (hfs : fs.Nodup)
    (hds : ∀ j < cases.length, dispatchName j ∉ fs) : fieldValues fs args cases = args.map (Term.under .free) := by
  refine List.ext_getElem (by simp [fieldValues, hargs]) fun p hp hp' => ?_
  have hpf : p < fs.length := by simpa [fieldValues] using hp
  simp only [fieldValues, List.getElem_map]
  rw [ctorEnv_field fun j hj he => hds j (by simpa using hj) (he ▸ List.getElem_mem hpf),
    Env.sets_getElem hfs hpf hp', List.getElem_map]

/-- The cases that return their variable `p`. -/
def pickCases (T : Datatype) (p : ℕ) : List Case :=
  T.ctors.map fun c => ⟨(List.range c.names.length).map dispatchName, .var (dispatchName p)⟩

lemma matches_pickCases (T : Datatype) (p : ℕ) : Matches T (pickCases T p) := by
  refine List.forall₂_map_right_iff.mpr (List.forall₂_same.mpr fun c _ => ⟨by simp, nodup_dispatchNames _⟩)

lemma normal_under_lams {ρ : Env} (hρ : ∀ y, (∃ n, ρ y = .var n) ∨ ∃ c, ρ y = .const c) (xs : List String)
    (y : String) : ((Term.lams xs (.var y)).under ρ).normal = true := by
  induction xs generalizing ρ with
  | nil =>
    rcases hρ y with ⟨n, hn⟩ | ⟨c, hc⟩
    · simp [Term.lams, Term.under, hn, Tm.normal]
    · simp [Term.lams, Term.under, hc, Tm.normal]
  | cons x xs ih =>
    refine ih fun z => ?_
    unfold Env.lift
    split_ifs
    · exact Or.inl ⟨0, rfl⟩
    rcases hρ z with ⟨n, hn⟩ | ⟨c, hc⟩
    · exact Or.inl ⟨n + 1, by rw [hn, Tm.rename]⟩
    · exact Or.inr ⟨c, by rw [hc, Tm.rename]⟩

/-- A case is normal and no numeral. -/
lemma pickCases_under {T : Datatype} {p : ℕ} {c : Tm Atom}
    (hc : c ∈ (pickCases T p).map fun k => k.fn.under .free) : c.normal = true ∧ ∀ n, c ≠ .const (.num n) := by
  obtain ⟨k, hk, rfl⟩ := List.mem_map.mp hc
  obtain ⟨c, -, rfl⟩ := List.mem_map.mp hk
  refine ⟨normal_under_lams (fun y => Or.inr ⟨_, rfl⟩) _ _, fun n => ?_⟩
  unfold Case.fn
  cases (List.range c.names.length).map dispatchName with
  | nil => simp [Term.lams, Term.under, Env.free]
  | cons x xs => simp [Term.lams, Term.under]

end Dispatch

/-- `(datatype Wrap (Mk _d0))`. -/
def wrapType : Datatype := ⟨"Wrap", 0, 0, [⟨"Mk", [⟨"_d0", none⟩]⟩]⟩

end LinEngine
