import LinEngine.Session
import LinEngine.TypeCalm

/-!
# When a cached expansion is the one every reference would compute

A definition is expanded at its first reference, under the names bound there and with
the definitions and namespaces of that time, and the result is kept. If every name in
its body stands for the same definition whenever a definition behind it is opened, the
result is the one that these meanings determine.
-/
namespace LinEngine

/-! ## What a reference leaves alone -/

namespace Defs

/-- Without what references add. -/
def core (D : Defs) : Defs :=
  { D with defs := D.defs.map fun e => { e with sch := none, expanded := none } }

def untyped (D : Defs) : Defs := { D with defs := D.defs.map fun e => { e with sch := none } }

def bodies (D : Defs) : List Term := D.defs.map (·.term)

lemma core_untyped (D : Defs) : D.untyped.core = D.core := by
  simp [core, untyped, Function.comp_def]

lemma bodies_core (D : Defs) : D.core.bodies = D.bodies := by
  simp [core, bodies, Function.comp_def]

lemma getElem_core (D : Defs) (i : ℕ) :
    D.core.defs[i]? = D.defs[i]?.map fun e => { e with sch := none, expanded := none } := by
  simp [core]

lemma lookupRaw_core (D : Defs) (x : String) : D.core.lookupRaw x = D.lookupRaw x := by
  have hlen : D.core.defs.length = D.defs.length := by simp [core]
  have hname : ∀ i, (D.core.defs[i]?).map Def.name = (D.defs[i]?).map Def.name := fun i => by
    rw [getElem_core, Option.map_map]
    rfl
  simp only [lookupRaw, hlen, hname]

lemma defFind_core (D : Defs) (x : String) : D.core.defFind x = D.defFind x := by
  have hns : D.core.currNs = D.currNs := rfl
  have hopen : D.core.openNs = D.openNs := rfl
  simp only [defFind, lookupRaw_core, hns, hopen]

lemma qualifyFree_core (D : Defs) (g : List String) (t : Term) :
    D.core.qualifyFree g t = D.qualifyFree g t := by
  have hns : D.core.currNs = D.currNs := rfl
  induction t generalizing g with
  | var x => simp only [qualifyFree, lookupRaw_core, hns]
  | lam x b ih => simp only [qualifyFree, ih]
  | app f a ihf iha => simp only [qualifyFree, ihf, iha]
  | tlet x v b ihv ihb => simp only [qualifyFree, ihv, ihb]
  | defn x b ih => simp only [qualifyFree, ih]
  | _ => rfl

lemma core_processDef (D : Defs) (x : String) (b : Term) (sch : Option Scheme) :
    (D.processDef x b sch).core = D.core.processDef x b none := by
  have hns : D.core.currNs = D.currNs := rfl
  simp only [processDef, newDef, qualifyFree_core, hns]
  simp [core]

lemma members_core (D : Defs) (ns : String) : D.core.members ns = D.members ns := by
  simp only [members, core, List.filterMap_map, Function.comp_def]

lemma core_exportNamespace (D : Defs) (ns : String) :
    (D.exportNamespace ns).core = D.core.exportNamespace ns := by
  unfold exportNamespace
  split_ifs
  · rfl
  rw [members_core]
  generalize D.members ns = xs
  induction xs generalizing D with
  | nil => rfl
  | cons x xs ih => rw [List.foldl_cons, ih, core_processDef, List.foldl_cons]

lemma defs_openNamespace (D : Defs) (ns : String) : (D.openNamespace ns).defs = D.defs := by
  unfold openNamespace
  split_ifs <;> rfl

lemma core_openNamespace (D : Defs) (ns : String) : (D.openNamespace ns).core = D.core.openNamespace ns := by
  have hns : D.core.openNs = D.openNs := rfl
  simp only [openNamespace, hns]
  split_ifs <;> rfl

lemma core_setExpanded (D : Defs) (i : ℕ) (t : Term) : (D.setExpanded i t).core = D.core := by
  have hdefs : (D.setExpanded i t).core.defs = D.core.defs := by
    refine List.ext_getElem? fun j => ?_
    simp only [getElem_core, setExpanded, List.getElem?_modify]
    cases D.defs[j]? with
    | none => rfl
    | some e => by_cases h : i = j <;> simp [h]
  simpa only [core, setExpanded, Defs.mk.injEq, and_true] using hdefs

lemma getElem_of_lookupRaw {D : Defs} {x : String} {i : ℕ} (h : D.lookupRaw x = some i) :
    ∃ e, D.defs[i]? = some e ∧ e.name = x := by
  have hi := (List.mem_filter.mp (List.mem_of_getLast? h)).2
  cases he : D.defs[i]? with
  | none => simp [he] at hi
  | some e => exact ⟨e, rfl, by simpa [he] using hi⟩

lemma getElem_of_defFind {D : Defs} {x : String} {i : ℕ} (h : D.defFind x = some i) :
    ∃ e, D.defs[i]? = some e := by
  have hraw : ∀ {y}, D.lookupRaw y = some i → ∃ e, D.defs[i]? = some e := fun h => by
    obtain ⟨e, he, -⟩ := getElem_of_lookupRaw h
    exact ⟨e, he⟩
  unfold defFind at h
  split_ifs at h with hdot hns
  · exact hraw h
  all_goals
    simp only [Option.orElse_eq_orElse, Option.orElse_eq_or, Option.or_eq_some_iff] at h
  · rcases h with h | ⟨-, h | ⟨-, h⟩⟩
    · cases h
    · obtain ⟨ns, -, h⟩ := List.exists_of_findSome?_eq_some h
      exact hraw h
    · exact hraw h
  · rcases h with h | ⟨-, h | ⟨-, h⟩⟩
    · exact hraw h
    · obtain ⟨ns, -, h⟩ := List.exists_of_findSome?_eq_some h
      exact hraw h
    · exact hraw h

lemma defFind_congr {D D' : Defs} (h : D'.core = D.core) (x : String) : D'.defFind x = D.defFind x := by
  rw [← defFind_core D', h, defFind_core]

lemma bodies_congr {D D' : Defs} (h : D'.core = D.core) : D'.bodies = D.bodies := by
  rw [← bodies_core D', h, bodies_core]

/-- More definitions, and no expansion that was not there. -/
structure Grows (D D' : Defs) : Prop where
  bodies : D.bodies <+: D'.bodies
  expanded : ∀ (j : ℕ) (e' : Def) (t : Term), D'.defs[j]? = some e' → e'.expanded = some t →
    ∃ e : Def, D.defs[j]? = some e ∧ e.term = e'.term ∧ e.expanded = some t

namespace Grows

variable {D D' D'' : Defs}

lemma of_eq (h : D'.defs = D.defs) : Grows D D' where
  bodies := by rw [Defs.bodies, Defs.bodies, h]
  expanded := fun j e' t he' ht => ⟨e', h ▸ he', rfl, ht⟩

lemma trans (h : Grows D D') (h' : Grows D' D'') : Grows D D'' where
  bodies := h.bodies.trans h'.bodies
  expanded := fun j e'' t he'' ht => by
    obtain ⟨e', he', hterm', ht'⟩ := h'.expanded j e'' t he'' ht
    obtain ⟨e, he, hterm, ht⟩ := h.expanded j e' t he' ht'
    exact ⟨e, he, hterm.trans hterm', ht⟩

lemma processDef (D : Defs) (x : String) (b : Term) (sch : Option Scheme) :
    Grows D (D.processDef x b sch) where
  bodies := by
    rw [Defs.bodies, Defs.bodies, Defs.processDef, List.map_append]
    exact List.prefix_append _ _
  expanded := fun j e' t he' ht => by
    simp only [Defs.processDef] at he'
    rcases lt_or_ge j D.defs.length with hj | hj
    · rw [List.getElem?_append_left hj] at he'
      exact ⟨e', he', rfl, ht⟩
    · rw [List.getElem?_append_right hj] at he'
      obtain rfl : D.newDef x b sch = e' := by
        simpa [List.getElem?_singleton] using And.right (by simpa [List.getElem?_singleton] using he')
      cases ht

lemma exportNamespace (D : Defs) (ns : String) : Grows D (D.exportNamespace ns) := by
  unfold Defs.exportNamespace
  split_ifs
  · exact .of_eq rfl
  generalize D.members ns = xs
  induction xs generalizing D with
  | nil => exact .of_eq rfl
  | cons x xs ih => exact (processDef D x _ none).trans (ih _)

lemma of_untyped (h : D'.untyped = D.untyped) : Grows D D' := by
  have hdefs : ∀ j : ℕ, D'.untyped.defs[j]? = D.untyped.defs[j]? := fun j => by rw [h]
  refine ⟨?_, fun j e' t he' ht => ?_⟩
  · rw [bodies_congr (by rw [← core_untyped D', h, core_untyped])]
  · have hj := hdefs j
    simp only [untyped, List.getElem?_map, he', Option.map_some] at hj
    obtain ⟨e, he, heq⟩ := Option.map_eq_some_iff.mp hj.symm
    rw [Def.mk.injEq] at heq
    exact ⟨e, he, heq.2.1, heq.2.2.2.2.trans ht⟩

end Grows

end Defs

/-! ## What names stand for -/

/-- The names that the expansion of a term looks up. -/
def lookedUp : Term → List String
  | .var x => [x]
  | .lam x b => (lookedUp b).filter (· ≠ x)
  | .app f a => lookedUp f ++ lookedUp a
  | .tlet x v b => (lookedUp v).filter (· ≠ x) ++ lookedUp b
  | .defn x b => (lookedUp b).filter (· ≠ x)
  | _ => []

/-- The definition that replaces a name, unless the name is left alone. -/
def Defs.standsFor (D : Defs) (g : List String) (x : String) : Option ℕ :=
  if x ∈ g then none else D.defFind x

namespace Opening

/-- The names of the body that are looked up. -/
def names (o : Opening) : List String := (o.prog.bodies[o.idx]?).elim [] lookedUp

def stands (o : Opening) (x : String) : Option ℕ := o.prog.standsFor o.guard x

end Opening

/-- The definitions that the body of `k` leads to. -/
inductive Behind (O : List Opening) (k : ℕ) : ℕ → Prop
  | self : Behind O k k
  | name {o : Opening} {x : String} {j : ℕ} (h : Behind O k o.idx) (ho : o ∈ O) (hx : x ∈ o.names)
      (hj : o.stands x = some j) : Behind O k j

/-- The names in the bodies behind `k` stand for the same whenever they are opened. -/
def Steady (O : List Opening) (k : ℕ) : Prop :=
  ∀ o ∈ O, Behind O k o.idx → ∀ o' ∈ O, o'.idx = o.idx → ∀ x ∈ o.names, o'.stands x = o.stands x

/-- The expansion of a term of definition `i` under the binders `l`, where each name
stands for what `means` says. -/
inductive Expands (means : ℕ → String → Option ℕ) (B : List Term) : ℕ → List String → Term → Term → Prop
  | bound {i l x} (hx : x ∈ l) : Expands means B i l (.var x) (.var x)
  | alone {i l x} (hx : x ∉ l) (hj : means i x = none) : Expands means B i l (.var x) (.var x)
  | defined {i l x j b t} (hx : x ∉ l) (hj : means i x = some j) (hb : B[j]? = some b)
      (ht : Expands means B j [] b t) : Expands means B i l (.var x) t
  | lam {i l x b b'} (hb : Expands means B i (x :: l) b b') : Expands means B i l (.lam x b) (.lam x b')
  | app {i l f f' a a'} (hf : Expands means B i l f f') (ha : Expands means B i l a a') :
      Expands means B i l (.app f a) (.app f' a')
  | tlet {i l x v v' b b'} (hv : Expands means B i (x :: l) v v') (hb : Expands means B i l b b') :
      Expands means B i l (.tlet x v b) (.tlet x v' b')
  | defn {i l x b b'} (hb : Expands means B i (x :: l) b b') : Expands means B i l (.defn x b) (.defn x b')
  | num {i l n} : Expands means B i l (.num n) (.num n)
  | float {i l x} : Expands means B i l (.float x) (.float x)
  | ref {i l x} : Expands means B i l (.ref x) (.ref x)

lemma Expands.unique {means : ℕ → String → Option ℕ} {B : List Term} {i : ℕ} {l : List String} {t u u' : Term}
    (h : Expands means B i l t u) (h' : Expands means B i l t u') : u = u' := by
  induction h generalizing u' with
  | bound hx =>
    cases h' with
    | bound _ => rfl
    | alone _ _ => rfl
    | defined hx' _ _ _ => exact absurd hx hx'
  | alone hx hj =>
    cases h' with
    | bound _ => rfl
    | alone _ _ => rfl
    | defined _ hj' _ _ => rw [hj] at hj'; cases hj'
  | defined hx hj hb _ ih =>
    cases h' with
    | bound hx' => exact absurd hx' hx
    | alone _ hj' => rw [hj] at hj'; cases hj'
    | defined _ hj' hb' ht' =>
      obtain rfl := Option.some.inj (hj.symm.trans hj')
      obtain rfl := Option.some.inj (hb.symm.trans hb')
      exact ih ht'
  | lam _ ih =>
    cases h' with
    | lam hb => rw [ih hb]
  | app _ _ ihf iha =>
    cases h' with
    | app hf ha => rw [ihf hf, iha ha]
  | tlet _ _ ihv ihb =>
    cases h' with
    | tlet hv hb => rw [ihv hv, ihb hb]
  | defn _ ih =>
    cases h' with
    | defn hb => rw [ih hb]
  | num => cases h'; rfl
  | float => cases h'; rfl
  | ref => cases h'; rfl

/-! ## The cache along a run -/

section Cache

variable (means : ℕ → String → Option ℕ) (B : List Term) (S : ℕ → Prop)

/-- The names in an opened body stand for what `means` says. -/
def Clear (o : Opening) : Prop :=
  S o.idx → ∀ x ∈ o.names, o.stands x = means o.idx x ∧ ∀ j, o.stands x = some j → S j

/-- The expansions of the definitions of interest are those that `means` determines. -/
def Cached (D : Defs) : Prop :=
  ∀ j, S j → ∀ e, D.defs[j]? = some e → ∀ t, e.expanded = some t → Expands means B j [] e.term t

/-- What a run keeps when all its openings are clear. -/
structure Extends (s s' : Session) : Prop where
  opened : s.opened <:+ s'.opened
  bodies : s.types.prog.bodies <+: s'.types.prog.bodies
  cached : s'.types.prog.bodies <+: B → (∀ o ∈ s'.opened, Clear means S o) →
    Cached means B S s.types.prog → Cached means B S s'.types.prog

end Cache

section Runs

variable {means : ℕ → String → Option ℕ} {B : List Term} {S : ℕ → Prop} {s s' s'' : Session}

namespace Extends

lemma refl (s : Session) : Extends means B S s s := ⟨List.suffix_rfl, List.prefix_rfl, fun _ _ h => h⟩

lemma trans (h : Extends means B S s s') (h' : Extends means B S s' s'') : Extends means B S s s'' where
  opened := h.opened.trans h'.opened
  bodies := h.bodies.trans h'.bodies
  cached := fun hb hc hs => h'.cached hb hc <|
    h.cached (h'.bodies.trans hb) (fun o ho => hc o (h'.opened.subset ho)) hs

end Extends

/-! ## Expansion -/

lemma wp_getProg {Q : Defs → Session → Prop} {E : Stop → Session → Prop} :
    wp getProg Q E s ↔ Q s.types.prog s := Iff.rfl

/-- The names of a term under the binders `l` stand for what `means` says of definition `i`. -/
def Named (means : ℕ → String → Option ℕ) (S : ℕ → Prop) (i : ℕ) (D : Defs) (l g : List String) (t : Term) :
    Prop :=
  ∀ x ∈ lookedUp t, x ∉ l → D.standsFor g x = means i x ∧ ∀ j, D.standsFor g x = some j → S j

namespace Named

variable {i : ℕ} {D D' : Defs} {l g : List String} {x : String} {f a v b : Term}

lemma under (h : ∀ y ∈ (lookedUp b).filter (· ≠ x), y ∉ l →
      D.standsFor g y = means i y ∧ ∀ j, D.standsFor g y = some j → S j) :
    Named means S i D (x :: l) g b := by
  intro y hy hl
  rw [List.mem_cons, not_or] at hl
  exact h y (List.mem_filter.mpr ⟨hy, decide_eq_true hl.1⟩) hl.2

lemma fn (h : Named means S i D l g (.app f a)) : Named means S i D l g f :=
  fun y hy => h y (List.mem_append_left _ hy)

lemma arg (h : Named means S i D l g (.app f a)) : Named means S i D l g a :=
  fun y hy => h y (List.mem_append_right _ hy)

lemma value (h : Named means S i D l g (.tlet x v b)) : Named means S i D (x :: l) g v :=
  under fun y hy => h y (List.mem_append_left _ hy)

lemma body (h : Named means S i D l g (.tlet x v b)) : Named means S i D l g b :=
  fun y hy => h y (List.mem_append_right _ hy)

lemma congr (h : Named means S i D l g b) (hD : D'.core = D.core) : Named means S i D' l g b := by
  intro y hy hl
  have heq : D'.standsFor g y = D.standsFor g y := by
    unfold Defs.standsFor
    rw [Defs.defFind_congr hD]
  rw [heq]
  exact h y hy hl

end Named

lemma getElem_of_longer {α : Type} {xs ys : List α} {j : ℕ} {a : α} (h : xs <+: ys) (ha : xs[j]? = some a) :
    ys[j]? = some a := by
  obtain ⟨zs, rfl⟩ := h
  rw [List.getElem?_append_left (List.getElem?_eq_some_iff.mp ha).1, ha]

/-- The state and the result of an expansion. -/
structure Expanded (means : ℕ → String → Option ℕ) (B : List Term) (S : ℕ → Prop) (s : Session)
    (l g : List String) (t u : Term) (s' : Session) : Prop extends Extends means B S s s' where
  core : s'.types.prog.core = s.types.prog.core
  expands : ∀ i, S i → Named means S i s.types.prog l g t → s'.types.prog.bodies <+: B →
    (∀ o ∈ s'.opened, Clear means S o) → Cached means B S s.types.prog → Expands means B i l t u

lemma Expanded.same {l g : List String} {t u : Term}
    (h : ∀ i, Named means S i s.types.prog l g t → s.types.prog.bodies <+: B → Cached means B S s.types.prog →
      Expands means B i l t u) :
    Expanded means B S s l g t u s where
  toExtends := .refl s
  core := rfl
  expands := fun i _ hn hB _ hcached => h i hn hB hcached

/-- Opening a definition and keeping its expansion. -/
lemma Expanded.opens {l g : List String} {x : String} {j : ℕ} {e : Def} {u : Term} (hx : x ∉ l ++ g)
    (hj : s.types.prog.defFind x = some j) (he : s.types.prog.defs[j]? = some e)
    (h : Expanded means B S { s with opened := ⟨s.types.prog, j, e.name :: (l ++ g)⟩ :: s.opened } []
      (e.name :: (l ++ g)) e.term u s') :
    Expanded means B S s l g (.var x) u
      { s' with types := { s'.types with prog := s'.types.prog.setExpanded j u } } := by
  have hbodies : (s'.types.prog.setExpanded j u).bodies = s'.types.prog.bodies :=
    Defs.bodies_congr (Defs.core_setExpanded _ j u)
  have hbody : s.types.prog.bodies[j]? = some e.term := by simp [Defs.bodies, he]
  have hopen : ⟨s.types.prog, j, e.name :: (l ++ g)⟩ ∈ s'.opened := h.opened.subset List.mem_cons_self
  have hexp : S j → s'.types.prog.bodies <+: B → (∀ o ∈ s'.opened, Clear means S o) →
      Cached means B S s.types.prog → Expands means B j [] e.term u := by
    intro hSj hB hc hcached
    refine h.expands j hSj (fun y hy _ => ?_) hB hc hcached
    exact hc _ hopen hSj y (by simpa [Opening.names, Defs.bodies, he] using hy)
  refine ⟨⟨(List.suffix_cons _ _).trans h.opened, ?_, fun hB hc hcached k hSk e' he' t ht => ?_⟩, ?_, ?_⟩
  · rw [hbodies]
    exact h.bodies
  · rw [hbodies] at hB
    have hold := h.cached hB hc hcached k hSk
    simp only [Defs.setExpanded, List.getElem?_modify] at he'
    cases hk : s'.types.prog.defs[k]? with
    | none => simp [hk] at he'
    | some e₁ =>
      by_cases hjk : j = k
      · subst hjk
        have hterm : e₁.term = e.term := by
          have hat : s'.types.prog.bodies[j]? = some e₁.term := by simp [Defs.bodies, hk]
          exact Option.some.inj (hat.symm.trans (getElem_of_longer h.bodies hbody))
        obtain rfl : { e₁ with expanded := some u } = e' := by simpa [hk] using he'
        obtain rfl : u = t := by simpa using ht
        rw [hterm]
        exact hexp hSk hB hc hcached
      · obtain rfl : e₁ = e' := by simpa [hk, hjk] using he'
        exact hold e₁ hk t ht
  · rw [Defs.core_setExpanded]
    exact h.core
  · intro i hSi hn hB hc hcached
    rw [hbodies] at hB
    have hguard : x ∉ l ∧ x ∉ g := by simpa [not_or] using hx
    obtain ⟨hmeans, hS⟩ := hn x (List.mem_singleton.mpr rfl) hguard.1
    have hstands : s.types.prog.standsFor g x = some j := by rw [Defs.standsFor, if_neg hguard.2, hj]
    refine .defined hguard.1 (hmeans.symm.trans hstands) ?_ (hexp (hS j hstands) hB hc hcached)
    exact getElem_of_longer (h.bodies.trans hB) hbody

/-- An expansion puts in place of the names what they stand for, and keeps the cache. -/
theorem expand_spec (means : ℕ → String → Option ℕ) (B : List Term) (S : ℕ → Prop) (d : ℕ) (l g : List String) (t : Term) (s : Session) :
    wp (expand d (l ++ g) t) (fun u s' => Expanded means B S s l g t u s') (fun _ _ => True) s := by
  induction d generalizing l g t s with
  | zero => exact trivial
  | succ d ih =>
    have hunder : ∀ x b, wp (expand d (x :: (l ++ g)) b)
        (fun u s' => Expanded means B S s (x :: l) g b u s') (fun _ _ => True) s :=
      fun x b => ih (x :: l) g b s
    cases t with
    | var x =>
      have halone : s.types.prog.standsFor g x = none ∨ x ∈ l →
          Expanded means B S s l g (.var x) (.var x) s := by
        refine fun h => .same fun i hn _ _ => ?_
        by_cases hl : x ∈ l
        · exact .bound hl
        · exact .alone hl ((hn x (List.mem_singleton.mpr rfl) hl).1.symm.trans (h.resolve_right hl))
      unfold expand
      split_ifs with hx
      · refine halone ?_
        rcases List.mem_append.mp hx with hl | hg
        · exact Or.inr hl
        · exact Or.inl (if_pos hg)
      have hguard : x ∉ l ∧ x ∉ g := by simpa [not_or] using hx
      rw [wp_bind, wp_getProg]
      cases hj : s.types.prog.defFind x with
      | none => exact halone (Or.inl (by rw [Defs.standsFor, if_neg hguard.2, hj]))
      | some j =>
        obtain ⟨e, he⟩ := Defs.getElem_of_defFind hj
        have hstands : s.types.prog.standsFor g x = some j := by rw [Defs.standsFor, if_neg hguard.2, hj]
        simp only [he]
        cases hexp : e.expanded with
        | some u =>
          refine .same fun i hn hB hcached => ?_
          obtain ⟨hmeans, hS⟩ := hn x (List.mem_singleton.mpr rfl) hguard.1
          exact .defined hguard.1 (hmeans.symm.trans hstands)
            (getElem_of_longer hB (by simp [Defs.bodies, he])) (hcached j (hS j hstands) e he u hexp)
        | none =>
          rw [wp_bind, wp_modify, wp_bind]
          refine wp_mono (ih [] (e.name :: (l ++ g)) e.term _) (fun u s' h => ?_) fun _ _ h => h
          exact .opens hx hj he h
    | lam x b =>
      unfold expand
      rw [wp_bind]
      refine wp_mono (hunder x b) (fun u s' h => ⟨h.toExtends, h.core, ?_⟩) fun _ _ h => h
      exact fun i hi hn hB hc hcached => .lam (h.expands i hi (.under hn) hB hc hcached)
    | app f a =>
      unfold expand
      rw [wp_bind]
      refine wp_mono (ih l g f s) (fun f' s₁ hf => ?_) fun _ _ h => h
      rw [wp_bind]
      refine wp_mono (ih l g a s₁) (fun a' s₂ ha => ?_) fun _ _ h => h
      refine ⟨hf.toExtends.trans ha.toExtends, ha.core.trans hf.core, fun i hi hn hB hc hcached => ?_⟩
      have hB₁ := ha.bodies.trans hB
      have hc₁ : ∀ o ∈ s₁.opened, Clear means S o := fun o ho => hc o (ha.opened.subset ho)
      exact .app (hf.expands i hi hn.fn hB₁ hc₁ hcached)
        (ha.expands i hi (hn.arg.congr hf.core) hB hc (hf.cached hB₁ hc₁ hcached))
    | tlet x v b =>
      unfold expand
      rw [wp_bind]
      refine wp_mono (hunder x v) (fun v' s₁ hv => ?_) fun _ _ h => h
      rw [wp_bind]
      refine wp_mono (ih l g b s₁) (fun b' s₂ hb => ?_) fun _ _ h => h
      refine ⟨hv.toExtends.trans hb.toExtends, hb.core.trans hv.core, fun i hi hn hB hc hcached => ?_⟩
      have hB₁ := hb.bodies.trans hB
      have hc₁ : ∀ o ∈ s₁.opened, Clear means S o := fun o ho => hc o (hb.opened.subset ho)
      exact .tlet (hv.expands i hi hn.value hB₁ hc₁ hcached)
        (hb.expands i hi (hn.body.congr hv.core) hB hc (hv.cached hB₁ hc₁ hcached))
    | defn x b =>
      unfold expand
      rw [wp_bind]
      refine wp_mono (hunder x b) (fun u s' h => ⟨h.toExtends, h.core, ?_⟩) fun _ _ h => h
      exact fun i hi hn hB hc hcached => .defn (h.expands i hi (.under hn) hB hc hcached)
    | num n => exact .same fun _ _ _ _ => .num
    | float x => exact .same fun _ _ _ _ => .float
    | ref x => exact .same fun _ _ _ _ => .ref

/-! ## Forms -/

lemma Extends.of_grows {D : TypeState} (h : s.types.prog.Grows D.prog) :
    Extends means B S s { s with types := D } where
  opened := List.suffix_rfl
  bodies := h.bodies
  cached := fun _ _ hs j hj e' he' t ht => by
    obtain ⟨e, he, hterm, hexp⟩ := h.expanded j e' t he' ht
    rw [← hterm]
    exact hs j hj e he t hexp

instance untypedStable : CheckStable fun s s' => s'.prog.untyped = s.prog.untyped where
  refl := fun _ => rfl
  trans := fun h h' => h'.trans h
  heap := fun _ _ => rfl
  bound := fun _ _ => rfl
  nextId := fun _ => rfl
  env := fun _ _ => rfl
  counts := fun _ _ => rfl
  counted := fun _ => rfl
  printed := fun _ _ => rfl
  scheme := fun s i sch => by
    rw [Defs.untyped, Defs.untyped, Defs.mk.injEq]
    refine ⟨List.ext_getElem? fun j => ?_, rfl, rfl⟩
    simp only [List.getElem?_map, List.getElem?_modify]
    cases s.prog.defs[j]? with
    | none => rfl
    | some e => by_cases h : i = j <;> simp [h]

/-- What typing a form and checking a term do to the definitions. -/
lemma wp_typing (means : ℕ → String → Option ℕ) (B : List Term) (S : ℕ → Prop) {α : Type} {m : TM α}
    (h : Follows (fun s s' => s'.prog.untyped = s.prog.untyped) m) (s : Session) :
    wp (typing m) (fun _ s' => Extends means B S s s' ∧ s'.types.prog.core = s.types.prog.core)
      (fun _ _ => True) s := by
  have hm := h s.types
  unfold wp typing at *
  cases hr : m s.types with
  | error e t => trivial
  | ok a t =>
    rw [hr] at hm
    refine ⟨.of_grows (.of_untyped hm), ?_⟩
    rw [← Defs.core_untyped, ← Defs.core_untyped s.types.prog]
    exact congrArg Defs.core hm

mutual

lemma TyExp.follows_build {R : TypeState → TypeState → Prop} [CheckStable R] (vars : List ℕ) :
    (a : TyExp) → Follows R (a.build vars)
  | .var i => by
    unfold TyExp.build
    cases vars[i]? with
    | none => exact .tvar
    | some a => exact .pure a
  | .arrow a b => .bind (a.follows_build vars) fun _ => .bind (b.follows_build vars) fun _ => .newCell _
  | .nom n args => .bind (args.follows_build vars) fun _ => .newCell _

lemma TyArgs.follows_build {R : TypeState → TypeState → Prop} [CheckStable R] (vars : List ℕ) :
    (a : TyArgs) → Follows R (a.build vars)
  | .nil => .pure _
  | .cons a rest =>
    .bind (a.follows_build vars) fun _ => .bind (rest.follows_build vars) fun _ => .bind (.newCell _) fun _ => .pure _

end

lemma Annot.follows_scheme {R : TypeState → TypeState → Prop} [CheckStable R] (d : ℕ) (a : Annot) :
    Follows R (a.scheme d) :=
  .bind (.freshVars _) fun _ => .bind (a.type.follows_build _) fun _ => .bind (.fv d _ _) fun _ => .pure _

mutual

/-- What a form does to the definitions, leaving out what references add. -/
def Form.onCore : Form → Defs → Defs
  | .ns name, D => D.setNamespace name
  | .openNs name, D => D.openNamespace name
  | .exportNs name, D => D.exportNamespace name
  | .define name body, D => D.processDef name body none
  | .defineTyped name body _, D => D.processDef name body none
  | .load forms, D => (Form.allOnCore forms D).restore D
  | .eval _, D => D

def Form.allOnCore : List Form → Defs → Defs
  | [], D => D
  | f :: fs, D => Form.allOnCore fs (f.onCore D)

end

lemma Form.allOnCore_append (fs fs' : List Form) (D : Defs) :
    Form.allOnCore (fs ++ fs') D = Form.allOnCore fs' (Form.allOnCore fs D) := by
  induction fs generalizing D with
  | nil => rfl
  | cons f fs ih => exact ih (f.onCore D)

mutual

lemma runForm_spec (means : ℕ → String → Option ℕ) (B : List Term) (S : ℕ → Prop) (d : ℕ) (s : Session) :
    (f : Form) → wp (runForm d f) (fun _ s' => Extends means B S s s' ∧
      s'.types.prog.core = f.onCore s.types.prog.core) (fun _ _ => True) s
  | .ns name => ⟨.of_grows (.of_eq rfl), rfl⟩
  | .openNs name => ⟨.of_grows (.of_eq (Defs.defs_openNamespace _ _)), Defs.core_openNamespace _ _⟩
  | .exportNs name => ⟨.of_grows (.exportNamespace _ _), Defs.core_exportNamespace _ _⟩
  | .define name body => ⟨.of_grows (.processDef _ _ _ _), Defs.core_processDef _ _ _ _⟩
  | .defineTyped name body annot => by
    unfold runForm
    rw [wp_bind]
    refine wp_mono (wp_typing means B S (annot.follows_scheme d) s) (fun sch s' h => ?_) fun _ _ h => h
    refine ⟨h.1.trans (.of_grows (.processDef _ _ _ _)), ?_⟩
    rw [Form.onCore, ← h.2]
    exact Defs.core_processDef _ _ _ _
  | .load forms => by
    unfold runForm
    rw [wp_bind, wp_getProg, wp_bind]
    refine wp_mono (runForms_spec means B S d s forms) (fun _ s' h => ?_) fun _ _ h => h
    refine ⟨h.1.trans (.of_grows (.of_eq rfl)), ?_⟩
    rw [Form.onCore, ← h.2]
    rfl
  | .eval t => by
    unfold runForm evalForm
    rw [wp_bind]
    refine wp_mono (wp_typing means B S (.checkTerm d d t) s) (fun r s' h => ?_) fun _ _ h => h
    cases r with
    | error msg => exact ⟨h.1.trans (.of_grows (.of_eq rfl)), h.2⟩
    | ok sch =>
      rw [wp_bind]
      refine wp_mono (expand_spec means B S d [] [] t s') (fun u s₂ hu => ?_) fun _ _ h => h
      exact ⟨h.1.trans hu.toExtends, hu.core.trans h.2⟩

/-- What a run of forms does to the session. -/
lemma runForms_spec (means : ℕ → String → Option ℕ) (B : List Term) (S : ℕ → Prop) (d : ℕ) (s : Session) :
    (fs : List Form) → wp (runForms d fs) (fun _ s' => Extends means B S s s' ∧
      s'.types.prog.core = Form.allOnCore fs s.types.prog.core) (fun _ _ => True) s
  | [] => ⟨.refl s, rfl⟩
  | f :: fs => by
    unfold runForms
    rw [wp_bind]
    refine wp_mono (runForm_spec means B S d s f) (fun _ s₁ h₁ => ?_) fun _ _ h => h
    refine wp_mono (runForms_spec means B S d s₁ fs) (fun _ s₂ h₂ => ⟨h₁.1.trans h₂.1, ?_⟩) fun _ _ h => h
    rw [h₂.2, Form.allOnCore, h₁.2]

end

end Runs

/-! ## Two runs -/

/-- After a run from the start the expansion of `k` is the one that the openings behind
it determine. -/
lemma runForms_expands {means : ℕ → String → Option ℕ} {S : ℕ → Prop} {d k : ℕ} {fs : List Form} {s : Session}
    {t : Term} (h : runForms d fs startSession = .ok () s) (hc : ∀ o ∈ s.opened, Clear means S o) (hk : S k)
    (ht : s.expansion k = some t) :
    ∃ e, s.types.prog.defs[k]? = some e ∧ Expands means s.types.prog.bodies k [] e.term t := by
  have hw := runForms_spec means s.types.prog.bodies S d startSession fs
  rw [wp, h] at hw
  obtain ⟨e, he, hexp⟩ := Option.bind_eq_some_iff.mp ht
  have hcached := hw.1.cached List.prefix_rfl hc fun j _ e he => by simp [startSession, startState] at he
  exact ⟨e, he, hcached k hk e he t hexp⟩

lemma runForms_core {d : ℕ} {fs : List Form} {s : Session} (h : runForms d fs startSession = .ok () s) :
    s.types.prog.core = Form.allOnCore fs startSession.types.prog.core := by
  have hw := runForms_spec (fun _ _ => none) [] (fun _ => False) d startSession fs
  rw [wp, h] at hw
  exact hw.2

/-- In steady openings every name has one meaning. -/
lemma Steady.clear {O : List Opening} {k : ℕ} (h : Steady O k) :
    ∃ means, ∀ o ∈ O, Clear means (Behind O k) o := by
  classical
  refine ⟨fun i x => (O.find? (·.idx = i)).bind (·.stands x), fun o ho hk x hx => ⟨?_, fun j hj => hk.name ho hx hj⟩⟩
  cases hf : O.find? (·.idx = o.idx) with
  | none => exact absurd (List.find?_eq_none.mp hf o ho) (by simp)
  | some o' =>
    have hidx : o'.idx = o.idx := by simpa using List.find?_some hf
    simp only [hf, Option.bind_some]
    exact (h o ho hk o' (List.mem_of_find?_eq_some hf) hidx x hx).symm

/-- Evaluating one more term does not change the expansion of a definition when what
lies behind it is opened alike in both runs. -/
theorem expansion_unchanged {d d' k : ℕ} {σ₁ σ₂ : List Form} {t : Term} {s s' : Session}
    (h : runForms d (σ₁ ++ σ₂) startSession = .ok () s)
    (h' : runForms d' (σ₁ ++ .eval t :: σ₂) startSession = .ok () s')
    (hsteady : Steady (s.opened ++ s'.opened) k) {u u' : Term} (hu : s.expansion k = some u)
    (hu' : s'.expansion k = some u') : u = u' := by
  obtain ⟨means, hclear⟩ := hsteady.clear
  obtain ⟨e, he, hexp⟩ := runForms_expands h (fun o ho => hclear o (List.mem_append_left _ ho)) .self hu
  obtain ⟨e', he', hexp'⟩ := runForms_expands h' (fun o ho => hclear o (List.mem_append_right _ ho)) .self hu'
  have hcore : s'.types.prog.core = s.types.prog.core := by
    rw [runForms_core h, runForms_core h', Form.allOnCore_append, Form.allOnCore_append]
    rfl
  have hbodies := Defs.bodies_congr hcore
  have hterm : e'.term = e.term := by
    have hat : s.types.prog.bodies[k]? = some e.term := by simp [Defs.bodies, he]
    have hat' : s'.types.prog.bodies[k]? = some e'.term := by simp [Defs.bodies, he']
    rw [hbodies, hat] at hat'
    exact (Option.some.inj hat').symm
  rw [hbodies, hterm] at hexp'
  exact hexp.unique hexp'

lemma exists_runs (d : ℕ) (fs fs' : List Form) (p : Session → Session → Prop)
    (h : wp (runForms d fs) (fun _ s => wp (runForms d fs') (fun _ s' => p s s') (fun _ _ => False) startSession)
      (fun _ _ => False) startSession) :
    ∃ s s', runForms d fs startSession = .ok () s ∧ runForms d fs' startSession = .ok () s' ∧ p s s' := by
  unfold wp at h
  split at h
  · split at h
    · exact ⟨_, _, ‹_›, ‹_›, h⟩
    · exact h.elim
  · exact h.elim

/-- A definition, and another one that refers to it. -/
def aliasForms : List Form := [.define "a" (.lam "x" (.var "x")), .define "d" (.var "a")]

theorem expansion_unchanged_alias : ∃ s s' u,
    runForms 20 (aliasForms ++ [.eval (.var "d")]) startSession = .ok () s ∧
    runForms 20 (aliasForms ++ .eval (.var "d") :: [.eval (.var "d")]) startSession = .ok () s' ∧
    Steady (s.opened ++ s'.opened) 1 ∧ s.expansion 1 = some u ∧ s'.expansion 1 = some u := by
  obtain ⟨s, s', hs, hs', hsteady, hu, hu'⟩ := exists_runs 20 (aliasForms ++ [.eval (.var "d")])
    (aliasForms ++ .eval (.var "d") :: [.eval (.var "d")])
    (fun s s' => (∀ o ∈ s.opened ++ s'.opened, ∀ o' ∈ s.opened ++ s'.opened, o'.idx = o.idx →
      ∀ x ∈ o.names, o'.stands x = o.stands x) ∧ (s.expansion 1).isSome ∧ (s'.expansion 1).isSome)
    (by decide +kernel)
  obtain ⟨u, hu⟩ := Option.isSome_iff_exists.mp hu
  obtain ⟨u', hu'⟩ := Option.isSome_iff_exists.mp hu'
  have hall : Steady (s.opened ++ s'.opened) 1 := fun o ho _ => hsteady o ho
  exact ⟨s, s', u, hs, hs', hall, hu, expansion_unchanged hs hs' hall hu hu' ▸ hu'⟩

/-- Bound where `d` is first referenced, `a` stays a name in the expansion of `d`. -/
theorem expansion_captured : ¬ ∀ (d d' k : ℕ) (σ₁ σ₂ : List Form) (t : Term) (s s' : Session),
    runForms d (σ₁ ++ σ₂) startSession = .ok () s →
    runForms d' (σ₁ ++ .eval t :: σ₂) startSession = .ok () s' →
    ∀ u u', s.expansion k = some u → s'.expansion k = some u' → u = u' := by
  intro h
  obtain ⟨s, s', hs, hs', hu, hu'⟩ := exists_runs 20 (aliasForms ++ [.eval (.var "d")])
    (aliasForms ++ .eval (.lam "a" (.var "d")) :: [.eval (.var "d")])
    (fun s s' => s.expansion 1 = some (.lam "x" (.var "x")) ∧ s'.expansion 1 = some (.var "a"))
    (by decide +kernel)
  cases h 20 20 1 aliasForms [.eval (.var "d")] (.lam "a" (.var "d")) s s' hs hs' _ _ hu hu'

end LinEngine
