import LinEngine.Lambda

/-!
# Beta reduction is confluent

Parallel reduction contracts any set of the redexes a term has. Its largest step, the
complete development, absorbs every other one, so that parallel reduction has the
diamond property and normal forms are unique.
-/
namespace LinEngine.Lambda

open Relation

namespace Tm

variable {κ : Type}

/-! ## Reduction of the parts of a term -/

/-- What is under a binder that is replaced is lowered again. -/
@[simp] lemma subst_inst_weaken (a t : Tm κ) : (t.rename (· + 1)).subst (inst a) = t := by
  rw [subst_rename]
  exact subst_var t

lemma reduces_lam {b b' : Tm κ} (h : ReflTransGen Beta b b') : ReflTransGen Beta (lam b) (lam b') :=
  h.lift lam fun _ _ => .lam

lemma reduces_app {f f' a a' : Tm κ} (hf : ReflTransGen Beta f f') (ha : ReflTransGen Beta a a') :
    ReflTransGen Beta (app f a) (app f' a') :=
  (hf.lift (app · a) fun _ _ => .appL a).trans (ha.lift (app f') fun _ _ => .appR f')

/-! ## Parallel reduction -/

/-- One parallel step. -/
inductive Par : Tm κ → Tm κ → Prop
  | var (i : ℕ) : Par (var i) (var i)
  | const (k : κ) : Par (const k) (const k)
  | lam {b b' : Tm κ} (hb : Par b b') : Par (lam b) (lam b')
  | app {f f' a a' : Tm κ} (hf : Par f f') (ha : Par a a') : Par (app f a) (app f' a')
  | beta {b b' a a' : Tm κ} (hb : Par b b') (ha : Par a a') : Par (app (lam b) a) (b'.subst (inst a'))

/-- Contract every redex the term has. -/
def develop : Tm κ → Tm κ
  | var i => var i
  | const k => const k
  | lam b => lam (develop b)
  | app (lam b) a => (develop b).subst (inst (develop a))
  | app f a => app (develop f) (develop a)

namespace Par

lemma refl (t : Tm κ) : Par t t := by
  induction t with
  | var i => exact .var i
  | const k => exact .const k
  | lam b ih => exact .lam ih
  | app f a ihf iha => exact .app ihf iha

lemma rename {t t' : Tm κ} (h : Par t t') (ρ : ℕ → ℕ) : Par (t.rename ρ) (t'.rename ρ) := by
  induction h generalizing ρ with
  | var i => exact .var _
  | const k => exact .const k
  | lam _ ih => exact .lam (ih _)
  | app _ _ ihf iha => exact .app (ihf ρ) (iha ρ)
  | @beta b b' a a' _ _ ihb iha =>
    have heq : (b'.subst (inst a')).rename ρ = (b'.rename (upr ρ)).subst (inst (a'.rename ρ)) := by
      rw [rename_subst, subst_rename]
      congr 1
      funext i
      cases i <;> rfl
    rw [heq]
    exact .beta (ihb _) (iha ρ)

lemma ups {σ σ' : ℕ → Tm κ} (h : ∀ i, Par (σ i) (σ' i)) (i : ℕ) : Par (Tm.ups σ i) (Tm.ups σ' i) := by
  cases i with
  | zero => exact .var 0
  | succ i => exact (h i).rename _

lemma subst {t t' : Tm κ} (h : Par t t') {σ σ' : ℕ → Tm κ} (hσ : ∀ i, Par (σ i) (σ' i)) :
    Par (t.subst σ) (t'.subst σ') := by
  induction h generalizing σ σ' with
  | var i => exact hσ i
  | const k => exact .const k
  | lam _ ih => exact .lam (ih (ups hσ))
  | app _ _ ihf iha => exact .app (ihf hσ) (iha hσ)
  | @beta b b' a a' _ _ ihb iha =>
    have heq : (b'.subst (inst a')).subst σ' = (b'.subst (Tm.ups σ')).subst (inst (a'.subst σ')) := by
      rw [subst_subst, subst_subst]
      congr 1
      funext i
      cases i with
      | zero => rfl
      | succ i => exact (subst_inst_weaken _ _).symm
    rw [heq]
    exact .beta (ihb (ups hσ)) (iha hσ)

lemma inst {b b' a a' : Tm κ} (hb : Par b b') (ha : Par a a') :
    Par (b.subst (Tm.inst a)) (b'.subst (Tm.inst a')) := by
  refine hb.subst fun i => ?_
  cases i with
  | zero => exact ha
  | succ i => exact .var i

/-- Every step can be completed to the development. -/
theorem develop {t t' : Tm κ} (h : Par t t') : Par t' t.develop := by
  induction h with
  | var i => exact .var i
  | const k => exact .const k
  | lam _ ih => exact .lam ih
  | @app f f' a a' hf _ ihf iha =>
    cases f with
    | lam b =>
      cases hf with
      | lam hb =>
        cases ihf with
        | lam ihb => exact .beta ihb iha
    | _ => exact .app ihf iha
  | beta _ _ ihb iha => exact ihb.inst iha

/-- A parallel step is a sequence of single ones. -/
lemma beta_star {t t' : Tm κ} (h : Par t t') : ReflTransGen Beta t t' := by
  induction h with
  | var i => exact .refl
  | const k => exact .refl
  | lam _ ih => exact reduces_lam ih
  | app _ _ ihf iha => exact reduces_app ihf iha
  | beta _ _ ihb iha => exact (reduces_app (reduces_lam ihb) iha).tail (.beta _ _)

end Par

lemma Beta.par {t t' : Tm κ} (h : Beta t t') : Par t t' := by
  induction h with
  | beta b a => exact .beta (.refl b) (.refl a)
  | lam _ ih => exact .lam ih
  | appL a _ ih => exact .app ih (.refl a)
  | appR f _ ih => exact .app (.refl f) ih

theorem beta_confluent {t u u' : Tm κ} (h : ReflTransGen Beta t u) (h' : ReflTransGen Beta t u') :
    ∃ v, ReflTransGen Beta u v ∧ ReflTransGen Beta u' v := by
  have hpar : ∀ {a b : Tm κ}, ReflTransGen Beta a b → ReflTransGen Par a b := fun h =>
    h.lift id fun _ _ => Beta.par
  have hbeta : ∀ {a b : Tm κ}, ReflTransGen Par a b → ReflTransGen Beta a b := fun h => by
    induction h with
    | refl => exact .refl
    | tail _ hstep ih => exact ih.trans hstep.beta_star
  obtain ⟨v, hu, hu'⟩ := church_rosser (fun a b c hb hc => ⟨a.develop, .single hb.develop, .single hc.develop⟩)
    (hpar h) (hpar h')
  exact ⟨v, hbeta hu, hbeta hu'⟩

/-- A normal term reduces to itself only. -/
lemma eq_of_normal {t u : Tm κ} (ht : t.normal = true) (h : ReflTransGen Beta t u) : u = t := by
  rcases ReflTransGen.cases_head h with rfl | ⟨v, hstep, -⟩
  · rfl
  · rw [hstep.not_normal] at ht
    cases ht

theorem HasNormalForm.unique {t u u' : Tm κ} (h : HasNormalForm t u) (h' : HasNormalForm t u') : u = u' := by
  obtain ⟨v, hv, hv'⟩ := beta_confluent h.1 h'.1
  exact (eq_of_normal h.2 hv).symm.trans (eq_of_normal h'.2 hv')

end Tm

end LinEngine.Lambda
