import LinEngine.AffineRuns
import LinEngine.Principal

/-!
# Checked terms stay checked

The declarative system over nameless terms, where a function that is applied may be a
let or not. Beta steps keep its types, so that the checker accepts every reduct of a
closed term that it accepts, at all the types of the term. A normal term of the type of
a selector is a selector.
-/
namespace LinEngine

open Relation Lambda

/-! ## Types of nameless terms -/

/-- The system with sets of instances; both rules may type an applied function. -/
inductive Derives {κ : Type} : List (Set Ty) → Tm κ → Ty → Prop
  | var {Γ : List (Set Ty)} {i : ℕ} {S : Set Ty} {τ : Ty} : Γ[i]? = some S → τ ∈ S → Derives Γ (.var i) τ
  | lam {Γ : List (Set Ty)} {b : Tm κ} {α β : Ty} : Derives ({α} :: Γ) b β → Derives Γ (.lam b) (.arrow α β)
  | app {Γ : List (Set Ty)} {f a : Tm κ} {α β : Ty} :
      Derives Γ f (.arrow α β) → Derives Γ a α → Derives Γ (.app f a) β
  | letLam {Γ : List (Set Ty)} {b a : Tm κ} {S : Set Ty} {β : Ty} : S.Nonempty →
      (∀ α ∈ S, Derives Γ a α) → Derives (S :: Γ) b β → Derives Γ (.app (.lam b) a) β

namespace Derives

variable {κ : Type} {Γ Γ' : List (Set Ty)} {t t' : Tm κ} {τ : Ty}

lemma rename (h : Derives Γ t τ) {ρ : ℕ → ℕ} (hρ : ∀ i S, Γ[i]? = some S → Γ'[ρ i]? = some S) :
    Derives Γ' (t.rename ρ) τ := by
  have under : ∀ {Γ Γ' : List (Set Ty)} {ρ : ℕ → ℕ} (S : Set Ty), (∀ i S, Γ[i]? = some S → Γ'[ρ i]? = some S) →
      ∀ i S', (S :: Γ)[i]? = some S' → (S :: Γ')[Tm.upr ρ i]? = some S' := by
    intro Γ Γ' ρ S hρ i S' hi
    cases i with
    | zero => exact hi
    | succ i => exact hρ i S' hi
  induction h generalizing Γ' ρ with
  | var hi hτ => exact .var (hρ _ _ hi) hτ
  | lam _ ih => exact .lam (ih (under _ hρ))
  | app _ _ ihf iha => exact .app (ihf hρ) (iha hρ)
  | letLam hS _ _ iha ihb => exact .letLam hS (fun α hα => iha α hα hρ) (ihb (under _ hρ))

/-- A term for each variable that has all types of the variable. -/
lemma subst (h : Derives Γ t τ) {σ : ℕ → Tm κ} (hσ : ∀ i S, Γ[i]? = some S → ∀ α ∈ S, Derives Γ' (σ i) α) :
    Derives Γ' (t.subst σ) τ := by
  have under : ∀ {Γ Γ' : List (Set Ty)} {σ : ℕ → Tm κ} (S : Set Ty),
      (∀ i S, Γ[i]? = some S → ∀ α ∈ S, Derives Γ' (σ i) α) →
      ∀ i S', (S :: Γ)[i]? = some S' → ∀ α ∈ S', Derives (S :: Γ') (Tm.ups σ i) α := by
    intro Γ Γ' σ S hσ i S' hi α hα
    cases i with
    | zero => exact .var (i := 0) hi hα
    | succ i => exact (hσ i S' hi α hα).rename fun _ _ h => h
  induction h generalizing Γ' σ with
  | var hi hτ => exact hσ _ _ hi _ hτ
  | lam _ ih => exact .lam (ih (under _ hσ))
  | app _ _ ihf iha => exact .app (ihf hσ) (iha hσ)
  | letLam hS _ _ iha ihb => exact .letLam hS (fun α hα => iha α hα hσ) (ihb (under _ hσ))

/-- Contracting a let. -/
lemma inst {b a : Tm κ} {S : Set Ty} (hb : Derives (S :: Γ) b τ) (ha : ∀ α ∈ S, Derives Γ a α) :
    Derives Γ (b.subst (Tm.inst a)) τ := by
  refine hb.subst fun i S' hi α hα => ?_
  cases i with
  | zero =>
    obtain rfl := Option.some.inj hi
    exact ha α hα
  | succ i => exact .var hi hα

/-- The body of a function, its parameter with one type. -/
lemma body {b : Tm κ} {α β : Ty} (h : Derives Γ (.lam b) (.arrow α β)) : Derives ({α} :: Γ) b β := by
  cases h with
  | lam h => exact h

/-- A step keeps every type. -/
theorem beta (h : Derives Γ t τ) (hstep : Tm.Beta t t') : Derives Γ t' τ := by
  induction h generalizing t' with
  | var => cases hstep
  | lam _ ih =>
    cases hstep with
    | lam hb => exact .lam (ih hb)
  | app hf ha ihf iha =>
    cases hstep with
    | beta b a => exact hf.body.inst fun α hα => hα ▸ ha
    | appL a hs => exact .app (ihf hs) ha
    | appR f hs => exact .app hf (iha hs)
  | letLam hS ha hb iha ihb =>
    cases hstep with
    | beta b a => exact hb.inst ha
    | appL a hs =>
      cases hs with
      | lam hs => exact .letLam hS ha (ihb hs)
    | appR f hs => exact .letLam hS (fun α hα => iha α hα hs) hb

theorem reducts (h : Derives Γ t τ) (hred : ReflTransGen Tm.Beta t t') : Derives Γ t' τ := by
  induction hred with
  | refl => exact h
  | tail _ hstep ih => exact ih.beta hstep

end Derives

/-! ## Names -/

section Names

variable {κ : Type} {Γ : SetCtx} {t : Term} {τ : Ty}

/-- The place of a name is that of its entry. -/
lemma SetCtx.lookup_eq (Γ : SetCtx) (x : String) : Γ.lookup x = (Γ.map Prod.snd)[(Γ.map Prod.fst).idxOf x]? := by
  induction Γ with
  | nil => rfl
  | cons e Γ ih =>
    obtain ⟨y, S⟩ := e
    by_cases hxy : x = y
    · subst hxy
      simp
    · rw [List.lookup_cons, beq_eq_false_iff_ne.mpr hxy, ih, List.map_cons, List.map_cons,
        List.idxOf_cons_ne _ (Ne.symm hxy)]
      rfl

lemma Admits.derives (h : Admits Γ t τ) : Derives (Γ.map Prod.snd) (t.toTm (Γ.map Prod.fst) : Tm κ) τ := by
  induction h with
  | @var Γ x S τ hx hτ => exact .var (SetCtx.lookup_eq Γ x ▸ hx) hτ
  | lam _ ih => exact .lam ih
  | app _ _ _ ihf iha => exact .app ihf iha
  | letLam hS _ _ iha ihb => exact .letLam hS iha ihb

lemma Term.lam_of_toTm {Γ : List String} {f : Term} {b : Tm κ} (hf : f.PureIn Γ) (h : f.toTm Γ = .lam b) :
    ∃ x c, f = .lam x c := by
  cases f with
  | lam x c => exact ⟨x, c, rfl⟩
  | var x => cases h
  | app f a => cases h
  | _ => exact hf.elim

/-- A function that is applied is a let, at one type or more. -/
lemma Derives.admits (ht : t.PureIn (Γ.map Prod.fst))
    (h : Derives (Γ.map Prod.snd) (t.toTm (Γ.map Prod.fst) : Tm κ) τ) : Admits Γ t τ := by
  induction t using infer.induct generalizing Γ τ with
  | case1 x =>
    cases h with
    | var hi hτ => exact .var (SetCtx.lookup_eq Γ x ▸ hi) hτ
  | case2 x b ih =>
    cases h with
    | lam hb => exact .lam (ih (Γ := (x, _) :: Γ) ht hb)
  | case3 x b a iha ihb =>
    have hlet : ∀ {S : Set Ty}, S.Nonempty → (∀ α ∈ S, Derives (Γ.map Prod.snd) (a.toTm (Γ.map Prod.fst) : Tm κ) α) →
        Derives (S :: Γ.map Prod.snd) (b.toTm (x :: Γ.map Prod.fst) : Tm κ) τ → Admits Γ (.app (.lam x b) a) τ :=
      fun {S} hS ha hb => .letLam hS (fun α hα => iha ht.2 (ha α hα)) (ihb (Γ := (x, S) :: Γ) ht.1 hb)
    cases h with
    | app hf ha => exact hlet (Set.singleton_nonempty _) (fun α hα => hα ▸ ha) hf.body
    | letLam hS ha hb => exact hlet hS ha hb
  | case4 f a hnot ihf iha =>
    have hlam : ∀ x b, f ≠ .lam x b := fun x b he => hnot x b he
    obtain ⟨α, hf, ha⟩ : ∃ α, Derives (Γ.map Prod.snd) (f.toTm (Γ.map Prod.fst) : Tm κ) (.arrow α τ) ∧
        Derives (Γ.map Prod.snd) (a.toTm (Γ.map Prod.fst) : Tm κ) α := by
      change Derives _ (.app (f.toTm _) (a.toTm _)) τ at h
      generalize hg : (f.toTm (Γ.map Prod.fst) : Tm κ) = g at h
      cases h with
      | app hf ha => exact ⟨_, hg ▸ hf, ha⟩
      | letLam =>
        obtain ⟨x, b, rfl⟩ := Term.lam_of_toTm ht.1 hg
        exact absurd rfl (hlam x b)
    exact .app hlam (ihf ht.1 hf) (iha ht.2 ha)
  | _ => exact ht.elim

/-- The two systems agree on closed terms. -/
lemma hm_iff_derives (ht : t.PureIn []) : HM [] t τ ↔ Derives [] (t.toTm [] : Tm κ) τ := by
  refine ⟨fun h => h.admits.derives, fun h => ?_⟩
  have hadmits : Admits [] t τ := h.admits (Γ := []) ht
  -- inference has a run that derives each admitted type
  have hr := startState_bare.ready
  have hsol := Heap.sol_read hr.clean.plain.closed hr.clean.plain.acyclic .var
  obtain ⟨r, -, hp⟩ := Settling.infer (k := 0) ht hr
  cases r with
  | error e s' => exact absurd hadmits (hp.2 _ hsol τ)
  | ok a s' =>
    obtain ⟨-, hi⟩ := hp
    obtain ⟨ρ, hρ, -, rfl⟩ := hi.complete _ hsol τ hadmits
    exact hi.sound ρ hρ [] (SetCtx.Le.refl _)

end Names

/-! ## The checker -/

section Checker

variable {s s' s₂ : TypeState} {t t' : Term} {sch : Scheme} {k k' : ℕ}

/-- With enough fuel the check of `t` from `s` returns the scheme `sch` in the state `s'`. -/
def Accepts (k : ℕ) (t : Term) (s : TypeState) (sch : Scheme) (s' : TypeState) : Prop :=
  ∃ d₀, ∀ d, d₀ ≤ d → checkTerm d k t s = .ok (.ok sch) s'

/-- The check accepts exactly the terms with types, with a scheme for them. -/
lemma checkTerm_ends (hs : Bare s) (ht : t.PureIn []) :
    (∃ sch s', Accepts k t s sch s' ∧ ∀ τ, HM [] t τ ↔ (s'.heap.poly sch).Inst τ) ∨
      (∀ sch s', ¬ Accepts k t s sch s') ∧ ¬ ∃ τ, HM [] t τ := by
  have hrun : Settling (fun d => infer (envFind d k) d t >>= generalize d)
      { s with env := [], regN := s.prog.defs.length }
      (fun sch s' => ∀ τ, HM [] t τ ↔ (s'.heap.poly sch).Inst τ) (¬ ∃ τ, HM [] t τ) := by
    have hr := hs.ready
    refine .bind ((Settling.infer ht hr).orElse fun hun hex => ?_) fun a s₁ hs₁ hi => ?_
    · obtain ⟨τ, hτ⟩ := hex
      exact hun _ (Heap.sol_read hr.clean.plain.closed hr.clean.plain.acyclic .var) τ hτ.admits
    · refine (Settling.generalize hs₁ hi.lt fun id => hi.kept.envrc ▸ hs.envrc id).mono
        (fun sch s₂ hs₂ h₂ τ => ?_) id
      obtain ⟨hr₂, hh, hg⟩ := h₂
      refine (hi.halved hr₂ hh).principal hr.clean rfl hs₂ hg.type fun id => ?_
      rw [hg.q, hh.varOf, hi.kept.env]
      simp
  have hload : ∀ d, envLoadDefs d true s = .ok () { s with env := [], regN := s.prog.defs.length } := fun d => by
    have hc : countDefs d (s.prog.defs.drop s.regN) = pure () := by simp [hs.defs, countDefs]
    change EStateM.bind (countDefs d (s.prog.defs.drop s.regN)) _ s = _
    rw [hc]
    rfl
  obtain ⟨r, hr, hp⟩ := (Ends.bind (f := fun d _ => infer (envFind d k) d t >>= generalize d)
    (Q := fun _ s' => s' = { s with env := [], regN := s.prog.defs.length })
    ⟨_, ⟨0, fun d _ => hload d⟩, rfl⟩ fun _ s' he => he ▸ hrun).guarded
  have hnot : (∀ sch s', r ≠ .ok (.ok sch) s') → ∀ sch s', ¬ Accepts k t s sch s' := by
    rintro hne sch s' ⟨d₀, hd₀⟩
    obtain ⟨d₁, hd₁⟩ := hr
    exact hne sch s' ((hd₁ _ (le_max_right d₀ d₁)).symm.trans (hd₀ _ (le_max_left d₀ d₁)))
  rcases r with ⟨msg | sch, s'⟩ | ⟨e, s'⟩
  · exact .inr ⟨hnot fun _ _ he => (by cases he), hp.2 _ rfl⟩
  · exact .inl ⟨_, s', hr, (hp.1 _ rfl).2⟩
  · exact .inr ⟨hnot fun _ _ he => (by cases he), hp.2⟩

lemma Accepts.types (hs : Bare s) (ht : t.PureIn []) (h : Accepts k t s sch s') (τ : Ty) :
    HM [] t τ ↔ (s'.heap.poly sch).Inst τ := by
  rcases checkTerm_ends (k := k) hs ht with ⟨sch', s'', h', htypes⟩ | ⟨hnot, -⟩
  · obtain ⟨d, hd⟩ := h
    obtain ⟨d', hd'⟩ := h'
    have he := (hd _ (le_max_left d d')).symm.trans (hd' _ (le_max_right d d'))
    cases he
    exact htypes τ
  · exact absurd h (hnot sch s')

lemma accepts_of_hm (hs : Bare s) (ht : t.PureIn []) {τ : Ty} (hτ : HM [] t τ) :
    ∃ sch s', Accepts k t s sch s' ∧ ∀ τ, HM [] t τ ↔ (s'.heap.poly sch).Inst τ := by
  rcases checkTerm_ends (k := k) hs ht with h | ⟨-, hno⟩
  · exact h
  · exact absurd ⟨τ, hτ⟩ hno

/-- The checker accepts every reduct of a closed term that it accepts, from any state without
definitions, and the instances of the scheme of the term are instances of the reduct's. -/
theorem reducts_accepted (hs : Bare s) (hs₂ : Bare s₂) (ht : t.PureIn []) (ht' : t'.PureIn [])
    (hred : ReflTransGen Tm.Beta (t.toTm [] : Tm Empty) (t'.toTm [])) (h : Accepts k t s sch s') :
    ∃ sch' s₂', Accepts k' t' s₂ sch' s₂' ∧
      ∀ τ, (s'.heap.poly sch).Inst τ → (s₂'.heap.poly sch').Inst τ := by
  have hkeep : ∀ τ, HM [] t τ → HM [] t' τ := fun τ hτ =>
    (hm_iff_derives ht').mpr (((hm_iff_derives ht).mp hτ).reducts hred)
  have hself : HM [] t (s'.heap.poly sch).t :=
    (h.types hs ht _).mpr ⟨.var, fun _ _ => rfl, (Ty.subst_var _).symm⟩
  obtain ⟨sch', s₂', h', htypes⟩ := accepts_of_hm (k := k') hs₂ ht' (hkeep _ hself)
  exact ⟨sch', s₂', h', fun τ hτ => (htypes τ).mp (hkeep τ ((h.types hs ht τ).mpr hτ))⟩

/-- `let i = \x.x in i i` has the type of its value. -/
lemma selfTerm_typed : HM [] selfTerm (.arrow (.var 0) (.var 0)) := by
  have hid : ∀ {Γ : List (Set Ty)} (σ : Ty), Derives Γ (.lam (.var 0) : Tm Empty) (.arrow σ σ) := fun σ =>
    .lam (.var (S := {σ}) rfl rfl)
  refine (hm_iff_derives (by decide)).mpr (.letLam (S := {τ | ∃ σ, τ = .arrow σ σ}) ⟨_, .var 0, rfl⟩ ?_ ?_ :
    Derives [] (.app (.lam (.app (.var 0) (.var 0))) (.lam (.var 0)) : Tm Empty) _)
  · rintro _ ⟨σ, rfl⟩
    exact hid σ
  · exact .app (.var rfl ⟨.arrow (.var 0) (.var 0), rfl⟩) (.var rfl ⟨.var 0, rfl⟩)

theorem reducts_accepted_self : ∃ sch s' sch' s₂', Accepts 0 selfTerm startState sch s' ∧
    Accepts 0 (.lam "x" (.var "x")) startState sch' s₂' ∧
      ∀ τ, (s'.heap.poly sch).Inst τ → (s₂'.heap.poly sch').Inst τ := by
  obtain ⟨sch, s', h, -⟩ := accepts_of_hm (k := 0) startState_bare (by decide) selfTerm_typed
  have hred : ReflTransGen Tm.Beta (selfTerm.toTm [] : Tm Empty) (Term.toTm [] (.lam "x" (.var "x"))) :=
    Tm.reduce_steps 2 _
  obtain ⟨sch', s₂', h', hle⟩ : ∃ sch' s₂', Accepts 0 (.lam "x" (.var "x")) startState sch' s₂' ∧
      ∀ τ, (s'.heap.poly sch).Inst τ → (s₂'.heap.poly sch').Inst τ :=
    reducts_accepted startState_bare startState_bare (by decide) (by decide) hred h
  exact ⟨sch, s', sch', s₂', h, h', hle⟩

end Checker

/-! ## Selectors -/

section Selectors

variable {κ : Type} {t : Tm κ} {τ : Ty} {k v : ℕ}

/-- Over `k` variables of one variable type, a normal term is a variable of that type or a function. -/
lemma Derives.normal_shape (h : Derives (List.replicate k {.var v}) t τ) (hn : t.normal = true) :
    (∃ i < k, t = .var i ∧ τ = .var v) ∨
      ∃ b α β, t = .lam b ∧ τ = .arrow α β ∧ Derives ({α} :: List.replicate k {.var v}) b β := by
  generalize hΓ : List.replicate k ({.var v} : Set Ty) = Γ at h
  induction h with
  | @var Γ i S τ hi hτ =>
    obtain ⟨hik, rfl⟩ : i < k ∧ ({.var v} : Set Ty) = S := by
      rw [← hΓ, List.getElem?_replicate] at hi
      split_ifs at hi with hik
      exact ⟨hik, Option.some.inj hi⟩
    exact .inl ⟨i, hik, rfl, hτ⟩
  | @lam Γ b α β hb => exact .inr ⟨b, α, β, rfl, rfl, hb⟩
  | app hf _ ihf =>
    obtain ⟨hnot, hfn, -⟩ := Tm.normal_app hn
    rcases ihf hfn hΓ with ⟨i, -, -, he⟩ | ⟨b, -, -, rfl, -⟩
    · cases he
    · exact absurd rfl (hnot b)
  | letLam => exact absurd hn (by simp [Tm.normal])

/-- The normal terms of the type of a selector. -/
lemma Derives.selector (h : Derives [] t (.arrow (.var v) (.arrow (.var v) (.var v)))) (hn : t.normal = true) :
    ∃ b : Bool, t = .lam (.lam (.var b.toNat)) := by
  have two : ∀ {k : ℕ} {t : Tm κ} {α β : Ty}, Derives (List.replicate k {.var v}) t (.arrow (.var v) β) →
      t.normal = true → ∃ b, t = .lam b ∧ Derives (List.replicate (k + 1) {.var v}) b β := by
    intro k t α β h hn
    rcases h.normal_shape hn with ⟨i, -, -, he⟩ | ⟨b, α', β', rfl, he, hb⟩
    · cases he
    · cases he
      exact ⟨b, rfl, hb⟩
  obtain ⟨b, rfl, hb⟩ := two (k := 0) (α := .var v) h hn
  obtain ⟨c, rfl, hc⟩ := two (α := .var v) hb hn
  rcases hc.normal_shape hn with ⟨i, hi, rfl, -⟩ | ⟨d, _, _, -, he, -⟩
  · interval_cases i
    · exact ⟨false, rfl⟩
    · exact ⟨true, rfl⟩
  · cases he

end Selectors

section Runs

variable {g : Globals} {s s' : TypeState} {t : Term} {sch : Scheme} {k v : ℕ}

/-- A closed affine term that the checker gives the type of a selector runs to a selector: the calls
on function-application pairs, in any order, are at most half as many as the agents the term
compiles to, the term that ROOT reads has the types of the scheme after each of them, and it is
a selector when no such pair is left. -/
theorem checked_selector (hser : g.inParallel = false) (hs : Bare s) (ht : t.PureIn []) (ha : t.Affine)
    (h : Accepts k t s sch s') (hsel : (s'.heap.poly sch).Inst (.arrow (.var v) (.arrow (.var v) (.var v)))) :
    ∃ n, compile t = .ok n ∧ ∀ m n', InSteps (Applies g) n m n' → 2 * m ≤ n.liveNodes.card ∧
      ∃ T, ReadsRoot n'.graph T ∧ (∀ T', ReadsRoot n'.graph T' → T' = T) ∧
        (∀ t' : Term, t'.PureIn [] → (t'.toTm [] : Tm Empty) = T.toTm [] →
          ∀ τ, (s'.heap.poly sch).Inst τ → HM [] t' τ) ∧
        (AppHalted n' → ∃ b : Bool, (T.toTm [] : Tm Empty) = .lam (.lam (.var b.toNat))) := by
  obtain ⟨n, r, ns, ls, hc, hnet⟩ := compile_correct (ct_pure ht)
  obtain ⟨T, hT, hterm⟩ := hnet.readsRoot ht ha
  refine ⟨n, hc, fun m n' hrun => ?_⟩
  obtain ⟨hn', hcard, T', hT', j, -, hred⟩ := applies_run hser hnet.sound hT hrun
  rw [hterm] at hred
  have htypes : ∀ τ, (s'.heap.poly sch).Inst τ → Derives [] (T'.toTm [] : Tm Empty) τ := fun τ hτ =>
    ((hm_iff_derives ht).mp ((h.types hs ht τ).mpr hτ)).reducts hred.reflTransGen
  refine ⟨by omega, T', hT', fun _ h => h.unique hT', fun t' ht' he τ hτ => ?_, fun hhalt => ?_⟩
  · exact (hm_iff_derives ht').mpr (he ▸ htypes τ hτ)
  · exact (htypes _ hsel).selector (hhalt.normal hn' hT')

/-- `(\x.x) (\t.\f.t)`. -/
def chosenTerm : Term := .app (.lam "x" (.var "x")) (boolTerm true)

lemma chosenTerm_typed : HM [] chosenTerm (.arrow (.var 0) (.arrow (.var 0) (.var 0))) := by
  refine (hm_iff_derives (by decide)).mpr (.app (α := .arrow (.var 0) (.arrow (.var 0) (.var 0))) ?_ ?_ :
    Derives [] (.app (.lam (.var 0)) (.lam (.lam (.var 1))) : Tm Empty) _)
  · exact .lam (.var rfl rfl)
  · exact .lam (.lam (.var (S := {.var 0}) rfl rfl))

theorem checked_selector_chosen : ∃ sch s', Accepts 0 chosenTerm startState sch s' ∧
    ∃ n, compile chosenTerm = .ok n ∧ ∀ m n', InSteps (Applies .serial) n m n' → 2 * m ≤ n.liveNodes.card ∧
      ∃ T, ReadsRoot n'.graph T ∧ (∀ T', ReadsRoot n'.graph T' → T' = T) ∧
        (∀ t' : Term, t'.PureIn [] → (t'.toTm [] : Tm Empty) = T.toTm [] →
          ∀ τ, (s'.heap.poly sch).Inst τ → HM [] t' τ) ∧
        (AppHalted n' → ∃ b : Bool, (T.toTm [] : Tm Empty) = .lam (.lam (.var b.toNat))) := by
  obtain ⟨sch, s', h, htypes⟩ := accepts_of_hm (k := 0) startState_bare (by decide) chosenTerm_typed
  have hsel := (htypes _).mp chosenTerm_typed
  exact ⟨sch, s', h, checked_selector rfl startState_bare (by decide) (by decide) h hsel⟩

end Runs

end LinEngine
