import LinEngine.ChurchRosser

/-!
# Conversion

Lambda terms that are equal up to beta reduction, and up to eta where it is asked for.
Without eta, equal terms reduce to a common one and have the same normal form.
-/
namespace LinEngine.Lambda.Tm

open Relation

variable {κ : Type} {η : Bool} {t u v b b' f f' a a' : Tm κ}

inductive Conv (η : Bool) : Tm κ → Tm κ → Prop
  | refl (t : Tm κ) : Conv η t t
  | symm {t u : Tm κ} : Conv η t u → Conv η u t
  | trans {t u v : Tm κ} : Conv η t u → Conv η u v → Conv η t v
  | lam {b b' : Tm κ} : Conv η b b' → Conv η (lam b) (lam b')
  | app {f f' a a' : Tm κ} : Conv η f f' → Conv η a a' → Conv η (app f a) (app f' a')
  | beta (b a : Tm κ) : Conv η (app (lam b) a) (b.subst (inst a))
  | eta (h : η = true) (f : Tm κ) : Conv η (lam (app (f.rename (· + 1)) (var 0))) f

/-- A substitution passes an instance. -/
lemma subst_inst (σ : ℕ → Tm κ) (b a : Tm κ) :
    (b.subst (inst a)).subst σ = (b.subst (ups σ)).subst (inst (a.subst σ)) := by
  rw [subst_subst, subst_subst]
  congr 1
  funext i
  cases i with
  | zero => rfl
  | succ i => exact (subst_inst_weaken _ _).symm

lemma rename_eq_subst (ρ : ℕ → ℕ) (t : Tm κ) : t.rename ρ = t.subst fun i => var (ρ i) := by
  rw [← subst_var (t.rename ρ), subst_rename]
  rfl

lemma weaken_subst_ups (σ : ℕ → Tm κ) (t : Tm κ) : (t.rename (· + 1)).subst (ups σ) = (t.subst σ).rename (· + 1) := by
  rw [subst_rename, rename_subst]
  rfl

namespace Conv

lemma of_eq (h : t = u) : Conv η t u := h ▸ .refl t

theorem subst (h : Conv η t u) (σ : ℕ → Tm κ) : Conv η (t.subst σ) (u.subst σ) := by
  induction h generalizing σ with
  | refl t => exact .refl _
  | symm _ ih => exact (ih σ).symm
  | trans _ _ ih ih' => exact (ih σ).trans (ih' σ)
  | lam _ ih => exact .lam (ih _)
  | app _ _ ihf iha => exact .app (ihf σ) (iha σ)
  | beta b a =>
    rw [subst_inst]
    exact .beta _ _
  | eta h f =>
    have heta := Conv.eta h (f.subst σ)
    rwa [← weaken_subst_ups] at heta

lemma rename (h : Conv η t u) (ρ : ℕ → ℕ) : Conv η (t.rename ρ) (u.rename ρ) := by
  rw [rename_eq_subst, rename_eq_subst]
  exact h.subst _

lemma of_beta (h : Beta t u) : Conv η t u := by
  induction h with
  | beta b a => exact .beta b a
  | lam _ ih => exact .lam ih
  | appL a _ ih => exact .app ih (.refl a)
  | appR f _ ih => exact .app (.refl f) ih

/-- Terms equal up to beta reduce to a common term. -/
theorem joins (h : Conv false t u) : ∃ v, ReflTransGen Beta t v ∧ ReflTransGen Beta u v := by
  generalize hη : false = η at h
  induction h with
  | refl t => exact ⟨t, .refl, .refl⟩
  | symm _ ih =>
    obtain ⟨v, ht, hu⟩ := ih
    exact ⟨v, hu, ht⟩
  | trans _ _ ih ih' =>
    obtain ⟨v, htv, huv⟩ := ih
    obtain ⟨v', huv', htv'⟩ := ih'
    obtain ⟨w, hvw, hvw'⟩ := beta_confluent huv huv'
    exact ⟨w, htv.trans hvw, htv'.trans hvw'⟩
  | lam _ ih =>
    obtain ⟨v, ht, hu⟩ := ih
    exact ⟨.lam v, reduces_lam ht, reduces_lam hu⟩
  | app _ _ ihf iha =>
    obtain ⟨v, hf, hf'⟩ := ihf
    obtain ⟨w, ha, ha'⟩ := iha
    exact ⟨.app v w, reduces_app hf ha, reduces_app hf' ha'⟩
  | beta b a => exact ⟨_, .single (.beta b a), .refl⟩
  | eta h f =>
    subst hη
    cases h

theorem hasNormalForm (h : Conv false t u) (hv : HasNormalForm t v) : HasNormalForm u v := by
  obtain ⟨w, htw, huw⟩ := h.joins
  obtain ⟨x, hvx, hwx⟩ := beta_confluent hv.1 htw
  obtain rfl := eq_of_normal hv.2 hvx
  exact ⟨huw.trans hwx, hv.2⟩

end Conv

/-! ## The fixpoint combinator -/

/-- `\h.(\x.h (x x)) (\x.h (x x))`. -/
def fix : Tm κ :=
  .lam (.app (.lam (.app (.var 1) (.app (.var 0) (.var 0)))) (.lam (.app (.var 1) (.app (.var 0) (.var 0)))))

@[simp] lemma fix_subst (σ : ℕ → Tm κ) : (fix : Tm κ).subst σ = fix := rfl

/-- A fixpoint is what the function makes of it. -/
theorem fix_unrolls (f : Tm κ) : Conv η (.app fix f) (.app f (.app fix f)) := by
  have hweaken : ∀ a : Tm κ, (f.rename (· + 1)).subst (inst a) = f := fun a => subst_inst_weaken a f
  have hself : Conv η (.app fix f) (.app (.lam (.app (f.rename (· + 1)) (.app (.var 0) (.var 0))))
      (.lam (.app (f.rename (· + 1)) (.app (.var 0) (.var 0))))) := .beta _ _
  refine hself.trans ((Conv.beta _ _).trans ?_)
  rw [Tm.subst, hweaken]
  exact .app (.refl f) hself.symm

end LinEngine.Lambda.Tm
