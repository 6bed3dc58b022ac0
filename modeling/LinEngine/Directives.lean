import LinEngine.Reader
import LinEngine.TypeClosed

/-!
# Directives inside a form

The reader accepts a directive wherever it accepts a term, and `infer` has no case for one:
it returns `NULL`. The checker here is the one of `Types` on the terms of the reader, with
`NULL` as `none` and its use by a caller as the stop `noType`.
-/
namespace LinEngine.Reader

/-- A name of the reader as the checker has it. -/
def text (n : Bytes) : String := String.ofList (n.map fun c => Char.ofNat c.toNat)

/-- A caller of `infer` that passes the type on. -/
def used : Option ℕ → TM ℕ
  | none => throw .noType
  | some t => return t

def infer (look : String → TM (Option Scheme)) (d : ℕ) : RTerm → TM (Option ℕ)
  | .var x => do
    match ← look (text x) with
    | none => tfail ("unbound variable '" ++ text x ++ "'")
    | some s => return some (← instantiate d s)
  | .lam x b => do
    let a ← tvar
    envPush (text x) ⟨[], a⟩
    let b ← infer look d b
    envPop
    return some (← newCell (.arrow a (← used b)))
  | .app (.lam x b) a => do
    let a ← infer look d a
    envPush (text x) (← generalize d (← used a))
    let b ← infer look d b
    envPop
    return b
  | .app f a => do
    let f ← infer look d f
    let x ← infer look d a
    let r ← tvar
    let c ← newCell (.arrow (← used x) r)
    unify d (← used f) c
    return some r
  | .tlet x v b => do
    match ← look (text x) with
    | some _ => do
      let v ← infer look d v
      envPush (text x) (← generalize d (← used v))
      let b ← infer look d b
      envPop
      return b
    | none => do
      let a ← tvar
      envPush (text x) ⟨[], a⟩
      unify d a (← used (← infer look d v))
      envPop
      envPush (text x) (← generalize d a)
      let b ← infer look d b
      envPop
      return b
  | .defx _ _ v => infer look d v
  | .num _ => do return some (← tvar)
  | .float _ => do return some (← tvar)
  | _ => return none

def typeCheck (look : String → TM (Option Scheme)) (d : ℕ) (top : Bool) (t : RTerm) : TM (Except String Scheme) :=
  guarded do
    envLoadDefs d top
    generalize d (← used (← infer look d t))

def typeCheckRec (look : String → TM (Option Scheme)) (d : ℕ) (top : Bool) (name : String) (body : RTerm) :
    TM (Except String Scheme) :=
  guarded do
    envLoadDefs d top
    let a ← tvar
    envPush name ⟨[], a⟩
    unify d a (← used (← infer look d body))
    envPop
    generalize d a

section

variable (bodies : ℕ → RTerm)

/-- The check of definition `i`, whose body is `bodies i`. -/
def checkDef (look : String → TM (Option Scheme)) (d i : ℕ) (e : Def) : TM (Except String Scheme) :=
  if e.raw.isSome then typeCheckRec look d false (Defs.lastPart e.name) (bodies i) else typeCheck look d false (bodies i)

def defType (look : String → TM (Option Scheme)) (d i : ℕ) (e : Def) : TM Unit := do
  let env := (← get).env
  let r ← checkDef bodies look d i e
  modify fun st => { st with env := env }
  match r with
  | .error msg => modify fun st => { st with printed := ("error: " ++ msg) :: st.printed }
  | .ok s => do
    setScheme i s
    countFree d s

def envFind (d : ℕ) : ℕ → String → TM (Option Scheme)
  | 0 => envFindWith fun _ _ => throw .fuel
  | k + 1 => envFindWith (defType bodies (envFind d k) d)

/-- The outermost check of a term. -/
def checkForm (d k : ℕ) (t : RTerm) : TM (Except String Scheme) := typeCheck (envFind bodies d k) d true t

end

/-- No directive and no untyped definition, at any depth. -/
def expression : RTerm → Bool
  | .var _ => true
  | .lam _ b => expression b
  | .app f a => expression f && expression a
  | .tlet _ v b => expression v && expression b
  | .num _ => true
  | .float _ => true
  | .defx _ _ v => expression v
  | _ => false

/-! ## Expressions have types -/

/-- The definitions that are still to be typed have expressions for bodies. -/
def Typeable (bodies : ℕ → RTerm) (s : TypeState) : Prop :=
  ∀ i e, s.prog.defs[i]? = some e → e.sch = none → expression (bodies i)

/-- A program that does not come to `NULL`. -/
def Calm (bodies : ℕ → RTerm) {α : Type} (m : TM α) : Prop := ∀ s, Typeable bodies s →
  wp m (fun _ s' => Typeable bodies s') (fun e s' => e ≠ .noType ∧ Typeable bodies s') s

section

variable {bodies : ℕ → RTerm} {α β : Type}

lemma calm_bind {m : TM α} {f : α → TM β} (h : Calm bodies m) (hf : ∀ a, Calm bodies (f a)) : Calm bodies (m >>= f) := by
  intro s hs
  rw [wp_bind]
  exact wp_mono (h s hs) (fun a s' hs' => hf a s' hs') fun _ _ he => he

/-- A step that does not touch the definitions. -/
lemma calm_modify {f : TypeState → TypeState} (hf : ∀ s, (f s).prog = s.prog) : Calm bodies (modify f) := by
  intro s hs i e he
  change (f s).prog.defs[i]? = some e at he
  rw [hf] at he
  exact hs i e he

lemma calm_get {f : TypeState → TM α} (hf : ∀ s, Calm bodies (f s)) : Calm bodies (get >>= f) := fun s => hf s s

lemma calm_setHeap (h : Heap) : Calm bodies (setHeap h) := calm_modify fun _ => rfl

lemma calm_pure (a : α) : Calm bodies (pure a : TM α) := fun _ hs => hs

lemma heapClosed_calm : HeapClosed (Calm bodies) where
  pure := calm_pure
  error := fun _ _ hs => ⟨nofun, hs⟩
  fuel := fun _ hs => ⟨nofun, hs⟩
  bind := calm_bind
  cellAt := fun _ => calm_get fun _ => calm_pure _
  relink := fun _ _ => calm_get fun _ => calm_setHeap _
  newCell := fun _ => calm_get fun _ => calm_bind (calm_setHeap _) fun _ => calm_pure _
  bindNominal := fun _ _ => calm_bind (calm_modify fun _ => rfl) fun _ => calm_get fun _ => calm_setHeap _
  env := fun hf => calm_get fun s => hf s.env
  envrc := fun hf => calm_get fun s => hf s.envrc

lemma calm_countFree (d : ℕ) (sch : Scheme) : Calm bodies (countFree d sch) :=
  calm_bind (heapClosed_calm.fv d _ _) fun _ => calm_modify fun _ => rfl

lemma calm_countDefs (d : ℕ) (es : List Def) : Calm bodies (countDefs d es) := by
  induction es with
  | nil => exact calm_pure _
  | cons e es ih =>
    unfold LinEngine.countDefs
    cases e.sch with
    | none => exact calm_bind (calm_pure ()) fun _ => ih
    | some sch => exact calm_bind (calm_countFree d sch) fun _ => ih

lemma checkClosed_calm : CheckClosed (Calm bodies) where
  toHeapClosed := heapClosed_calm
  tvar := calm_get fun _ => calm_bind (calm_modify fun _ => rfl) fun _ => heapClosed_calm.newCell _
  envPush := fun _ _ => calm_modify fun _ => rfl
  envPop := calm_modify fun _ => rfl
  countFree := calm_countFree
  envLoadDefs := fun d _ => calm_get fun _ => calm_bind (calm_countDefs d _) fun _ => calm_modify fun _ => rfl

/-- Such a program that returns a type if it returns. -/
def Typed (bodies : ℕ → RTerm) (m : TM (Option ℕ)) : Prop := ∀ s, Typeable bodies s →
  wp m (fun r s' => (∃ t, r = some t) ∧ Typeable bodies s') (fun e s' => e ≠ .noType ∧ Typeable bodies s') s

lemma typed_some {m : TM ℕ} (h : Calm bodies m) : Typed bodies (m >>= fun t => pure (some t)) := by
  intro s hs
  rw [wp_bind]
  exact wp_mono (h s hs) (fun t s' hs' => ⟨⟨t, rfl⟩, hs'⟩) fun _ _ he => he

lemma typed_bind {m : TM α} {f : α → TM (Option ℕ)} (h : Calm bodies m) (hf : ∀ a, Typed bodies (f a)) :
    Typed bodies (m >>= f) := by
  intro s hs
  rw [wp_bind]
  exact wp_mono (h s hs) (fun a s' hs' => hf a s' hs') fun _ _ he => he

/-- What follows gets a type. -/
lemma Typed.calm_bind {m : TM (Option ℕ)} {f : Option ℕ → TM α} (h : Typed bodies m) (hf : ∀ t, Calm bodies (f (some t))) :
    Calm bodies (m >>= f) := by
  intro s hs
  rw [wp_bind]
  refine wp_mono (h s hs) (fun r s' hr => ?_) fun _ _ he => he
  obtain ⟨⟨t, rfl⟩, hs'⟩ := hr
  exact hf t s' hs'

lemma Typed.bind {m : TM (Option ℕ)} {f : Option ℕ → TM (Option ℕ)} (h : Typed bodies m)
    (hf : ∀ t, Typed bodies (f (some t))) : Typed bodies (m >>= f) := by
  intro s hs
  rw [wp_bind]
  refine wp_mono (h s hs) (fun r s' hr => ?_) fun _ _ he => he
  obtain ⟨⟨t, rfl⟩, hs'⟩ := hr
  exact hf t s' hs'

lemma typed_pure (t : ℕ) : Typed bodies (pure (some t)) := fun _ hs => ⟨⟨t, rfl⟩, hs⟩

variable {look : String → TM (Option Scheme)}

lemma typed_infer (hlook : ∀ x, Calm bodies (look x)) (d : ℕ) (t : RTerm) (ht : expression t) :
    Typed bodies (infer look d t) := by
  have hc : CheckClosed (Calm bodies) := checkClosed_calm
  induction t using infer.induct with
  | case1 x =>
    refine typed_bind (hlook _) fun r => ?_
    cases r with
    | none => exact fun _ hs => ⟨nofun, hs⟩
    | some sch => exact typed_some (hc.instantiate d sch)
  | case2 x b ih =>
    refine typed_bind hc.tvar fun a => typed_bind (hc.envPush _ _) fun _ => (ih ht).bind fun b => ?_
    exact typed_bind hc.envPop fun _ => typed_bind (calm_pure b) fun b => typed_some (hc.newCell _)
  | case3 x b a iha ihb =>
    obtain ⟨hb, ha⟩ := Bool.and_eq_true_iff.mp ht
    refine (iha ha).bind fun a => typed_bind (calm_pure a) fun a => typed_bind (hc.generalize d a) fun sch => ?_
    exact typed_bind (hc.envPush _ _) fun _ => (ihb hb).bind fun b => typed_bind hc.envPop fun _ => typed_pure b
  | case4 f a hnot ihf iha =>
    obtain ⟨hf, ha⟩ := Bool.and_eq_true_iff.mp ht
    rw [infer]
    · refine (ihf hf).bind fun f => (iha ha).bind fun x => typed_bind hc.tvar fun r => typed_bind (calm_pure x) fun x => ?_
      refine typed_bind (hc.newCell _) fun c => typed_bind (calm_pure f) fun f => ?_
      exact typed_bind (hc.unify d _ _) fun _ => typed_pure r
    · exact hnot
  | case5 x v b ihv ihb =>
    obtain ⟨hv, hb⟩ := Bool.and_eq_true_iff.mp ht
    refine typed_bind (hlook _) fun r => ?_
    cases r with
    | some _ =>
      refine (ihv hv).bind fun v => typed_bind (calm_pure v) fun v => typed_bind (hc.generalize d v) fun sch => ?_
      exact typed_bind (hc.envPush _ _) fun _ => (ihb hb).bind fun b => typed_bind hc.envPop fun _ => typed_pure b
    | none =>
      refine typed_bind hc.tvar fun a => typed_bind (hc.envPush _ _) fun _ => (ihv hv).bind fun v => ?_
      refine typed_bind (calm_pure v) fun v => typed_bind (hc.unify d a v) fun _ => typed_bind hc.envPop fun _ => ?_
      refine typed_bind (hc.generalize d a) fun sch => typed_bind (hc.envPush _ _) fun _ => (ihb hb).bind fun b => ?_
      exact typed_bind hc.envPop fun _ => typed_pure b
  | case6 _ _ v ih => exact ih ht
  | case7 => exact typed_some hc.tvar
  | case8 => exact typed_some hc.tvar
  | case9 t => cases t <;> first | exact absurd ht Bool.false_ne_true | simp_all

lemma calm_guarded {m : TM Scheme} (h : Calm bodies m) : Calm bodies (guarded m) := by
  intro s hs
  unfold guarded
  rw [wp_tryCatch, wp_bind]
  refine wp_mono (h s hs) (fun _ _ hs' => hs') fun e s' he => ?_
  cases e with
  | error msg => exact he.2
  | noType => exact absurd rfl he.1
  | fuel => exact he

lemma calm_typeCheck (hlook : ∀ x, Calm bodies (look x)) (d : ℕ) (top : Bool) {t : RTerm} (ht : expression t) :
    Calm bodies (typeCheck look d top t) := by
  have hc : CheckClosed (Calm bodies) := checkClosed_calm
  refine calm_guarded (calm_bind (hc.envLoadDefs d top) fun _ => (typed_infer hlook d t ht).calm_bind fun u => ?_)
  exact calm_bind (calm_pure u) fun u => hc.generalize d u

lemma calm_typeCheckRec (hlook : ∀ x, Calm bodies (look x)) (d : ℕ) (top : Bool) (x : String) {t : RTerm}
    (ht : expression t) : Calm bodies (typeCheckRec look d top x t) := by
  have hc : CheckClosed (Calm bodies) := checkClosed_calm
  refine calm_guarded (calm_bind (hc.envLoadDefs d top) fun _ => calm_bind hc.tvar fun a => ?_)
  refine calm_bind (hc.envPush _ _) fun _ => (typed_infer hlook d t ht).calm_bind fun u => calm_bind (calm_pure u) fun u => ?_
  exact calm_bind (hc.unify d a u) fun _ => calm_bind hc.envPop fun _ => hc.generalize d a

/-- A definition that gets its scheme is typed no more. -/
lemma calm_setScheme (i : ℕ) (sch : Scheme) : Calm bodies (setScheme i sch) := by
  intro s hs j e he hsch
  change (s.prog.defs.modify i fun e => { e with sch := some sch })[j]? = some e at he
  rw [List.getElem?_modify] at he
  split_ifs at he with hij
  · obtain ⟨e', -, rfl⟩ := Option.map_eq_some_iff.mp he
    cases hsch
  · exact hs j e (by simpa using he) hsch

lemma calm_defType (hlook : ∀ x, Calm bodies (look x)) (d i : ℕ) (e : Def) (hi : expression (bodies i)) :
    Calm bodies (defType bodies look d i e) := by
  have hcheck : Calm bodies (checkDef bodies look d i e) := by
    unfold checkDef
    split_ifs
    · exact calm_typeCheckRec hlook d false _ hi
    · exact calm_typeCheck hlook d false hi
  refine calm_get fun s => calm_bind hcheck fun r => calm_bind (calm_modify fun _ => rfl) fun _ => ?_
  cases r with
  | error msg => exact calm_modify fun _ => rfl
  | ok sch => exact calm_bind (calm_setScheme i sch) fun _ => calm_countFree d sch

lemma calm_envFindWith {typeDef : ℕ → Def → TM Unit} (h : ∀ i e, expression (bodies i) → Calm bodies (typeDef i e))
    (x : String) : Calm bodies (envFindWith typeDef x) := by
  intro s hs
  simp only [envFindWith, wp_bind, wp_get]
  cases s.env.lookup x with
  | some sch => exact hs
  | none =>
    simp only [wp_bind, wp_get]
    cases s.prog.defFind x with
    | none => exact hs
    | some i =>
      simp only [wp_bind, wp_get]
      cases he : s.prog.defs[i]? with
      | none => exact hs
      | some e =>
        dsimp only
        cases hsch : e.sch with
        | some sch => exact hs
        | none =>
          simp only [wp_bind]
          exact wp_mono (h i e (hs i e he hsch) s hs) (fun _ _ hs' => hs') fun _ _ he => he

lemma calm_envFind (d k : ℕ) (x : String) : Calm bodies (envFind bodies d k x) := by
  induction k generalizing x with
  | zero => exact calm_envFindWith (fun _ _ _ => heapClosed_calm.fuel) x
  | succ k ih => exact calm_envFindWith (fun i e hi => calm_defType ih d i e hi) x

end

/-! ## Only expressions have types -/

/-- A program that returns a type only where `p` holds. -/
def Shows (p : Prop) (m : TM (Option ℕ)) : Prop := ∀ s, wp m (fun r _ => r = none ∨ p) (fun _ _ => True) s

/-- A program that returns only where `p` holds. -/
def Needs {α : Type} (p : Prop) (m : TM α) : Prop := ∀ s, wp m (fun _ _ => p) (fun _ _ => True) s

section

variable {α β : Type} {p q : Prop}

lemma wp_any {m : TM α} (s : TypeState) : wp m (fun _ _ => True) (fun _ _ => True) s := by
  unfold wp
  cases m s <;> trivial

lemma needs_bind {m : TM α} {f : α → TM β} (hf : ∀ a, Needs p (f a)) : Needs p (m >>= f) := by
  intro s
  rw [wp_bind]
  exact wp_mono (wp_any s) (fun a s' _ => hf a s') fun _ _ _ => trivial

lemma needs_first {m : TM α} {f : α → TM β} (h : Needs p m) : Needs p (m >>= f) := by
  intro s
  rw [wp_bind]
  exact wp_mono (h s) (fun a s' hp => wp_mono (wp_any s') (fun _ _ _ => hp) fun _ _ _ => trivial) fun _ _ _ => trivial

/-- A caller that uses the type. -/
lemma Shows.used {m : TM (Option ℕ)} {f : Option ℕ → TM β} (h : Shows p m) (hf : Needs p (f none)) : Needs p (m >>= f) := by
  intro s
  rw [wp_bind]
  refine wp_mono (h s) (fun r s' hr => ?_) fun _ _ _ => trivial
  rcases hr with rfl | hp
  · exact hf s'
  · exact wp_mono (wp_any s') (fun _ _ _ => hp) fun _ _ _ => trivial

lemma needs_guarded {m : TM Scheme} (h : Needs p m) (s : TypeState) :
    wp (guarded m) (fun r _ => ∀ sch, r = .ok sch → p) (fun _ _ => True) s := by
  unfold guarded
  rw [wp_tryCatch, wp_bind]
  refine wp_mono (h s) (fun _ _ hp _ _ => hp) fun e s' _ => ?_
  cases e with
  | error msg => exact fun sch hr => nomatch hr
  | noType => trivial
  | fuel => trivial

lemma needs_none {f : ℕ → TM β} : Needs p (used none >>= f) := fun _ => trivial

lemma Needs.shows {m : TM (Option ℕ)} (h : Needs p m) : Shows p m :=
  fun s => wp_mono (h s) (fun _ _ hp => Or.inr hp) fun _ _ _ => trivial

lemma shows_bind {m : TM α} {f : α → TM (Option ℕ)} (hf : ∀ a, Shows p (f a)) : Shows p (m >>= f) := by
  intro s
  rw [wp_bind]
  exact wp_mono (wp_any s) (fun a s' _ => hf a s') fun _ _ _ => trivial

/-- The type of the last part is the type of the whole. -/
lemma Shows.last {m : TM (Option ℕ)} (h : Shows p m) : Shows p (m >>= fun b => envPop >>= fun _ => pure b) := by
  intro s
  rw [wp_bind]
  exact wp_mono (h s) (fun _ _ hr => hr) fun _ _ _ => trivial

lemma Shows.both {x y : Bool} {m : TM (Option ℕ)} (h : Shows (x = true) m) (h' : Shows (y = true) m) :
    Shows ((x && y) = true) m := by
  intro s
  refine wp_mono (wp_and (h s) (h' s)) (fun r _ hr => ?_) fun _ _ _ => trivial
  rcases hr with ⟨hr | hx, hr' | hy⟩
  · exact Or.inl hr
  · exact Or.inl hr
  · exact Or.inl hr'
  · exact Or.inr (Bool.and_eq_true_iff.mpr ⟨hx, hy⟩)

lemma shows_infer (look : String → TM (Option Scheme)) (d : ℕ) (t : RTerm) : Shows (expression t = true) (infer look d t) := by
  induction t using infer.induct with
  | case1 x => exact fun s => wp_mono (wp_any s) (fun _ _ _ => Or.inr rfl) fun _ _ _ => trivial
  | case2 x b ih =>
    have hbody : Shows (expression b = true) (infer look d (.lam x b)) := by
      refine (needs_bind fun a => needs_bind fun _ => ih.used ?_).shows
      exact needs_bind fun _ => needs_none
    exact hbody
  | case3 x b a iha ihb =>
    have harg : Shows (expression a = true) (infer look d (.app (.lam x b) a)) := (iha.used needs_none).shows
    have hbody : Shows (expression b = true) (infer look d (.app (.lam x b) a)) :=
      shows_bind fun _ => shows_bind fun _ => shows_bind fun _ => shows_bind fun _ => ihb.last
    exact hbody.both harg
  | case4 f a hnot ihf iha =>
    have hfun : Shows (expression f = true) (infer look d (.app f a)) := by
      rw [infer]
      · refine (ihf.used (needs_bind fun x => needs_bind fun r => needs_bind fun x => needs_bind fun c => ?_)).shows
        exact needs_none
      · exact hnot
    have harg : Shows (expression a = true) (infer look d (.app f a)) := by
      rw [infer]
      · exact (needs_bind fun f => iha.used (needs_bind fun r => needs_none)).shows
      · exact hnot
    exact hfun.both harg
  | case5 x v b ihv ihb =>
    refine shows_bind fun r => ?_
    cases r with
    | some sch =>
      refine Shows.both (ihv.used needs_none).shows ?_
      exact shows_bind fun _ => shows_bind fun _ => shows_bind fun _ => shows_bind fun _ => ihb.last
    | none =>
      refine Shows.both (needs_bind fun _ => needs_bind fun _ => ihv.used needs_none).shows ?_
      exact shows_bind fun _ => shows_bind fun _ => shows_bind fun _ => shows_bind fun _ => shows_bind fun _ =>
        shows_bind fun _ => shows_bind fun _ => shows_bind fun _ => ihb.last
  | case6 _ _ v ih => exact ih
  | case7 => exact fun s => wp_mono (wp_any s) (fun _ _ _ => Or.inr rfl) fun _ _ _ => trivial
  | case8 => exact fun s => wp_mono (wp_any s) (fun _ _ _ => Or.inr rfl) fun _ _ _ => trivial
  | case9 t => cases t <;> first | exact fun s => Or.inl rfl | simp_all

end

end LinEngine.Reader
