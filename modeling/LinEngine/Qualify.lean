import LinEngine.Session

/-!
# Scope in `qualify_free`

The walk that gives the free names of a body their full names, compared with the one that
keeps to the scope of names. It knows no binder but the function, so it is right exactly
when no name that it changes is bound by a let and no binder has a full name that it writes.
-/
namespace LinEngine

/-- Terms up to the names of their binders: a bound variable counts the binders between it and its own. -/
inductive Nameless
  | bound (i : ℕ)
  | free (name : String)
  | lam (body : Nameless)
  | app (f a : Nameless)
  | tlet (val body : Nameless)
  | num (value : ℕ)
  | float (name : String)
  | ref (name : String)
  | defn (name : String) (body : Nameless)
  deriving DecidableEq, Repr

/-- Two terms are equal up to renaming of bound names when these are equal. A let binds its name in both children. -/
def Term.nameless (Γ : List String) : Term → Nameless
  | .var x => if x ∈ Γ then .bound (Γ.idxOf x) else .free x
  | .lam x b => .lam (b.nameless (x :: Γ))
  | .app f a => .app (f.nameless Γ) (a.nameless Γ)
  | .tlet x v b => .tlet (v.nameless (x :: Γ)) (b.nameless (x :: Γ))
  | .num n => .num n
  | .float x => .float x
  | .ref x => .ref x
  | .defn x b => .defn x (b.nameless Γ)

namespace Defs

variable (D : Defs)

/-- The name is an unqualified one of a member of the current namespace. -/
def isMember (x : String) : Bool :=
  !dotted x && D.currNs != "" && (D.lookupRaw (qualified D.currNs x)).isSome

/-- Give the full names to the members among the names that no enclosing function or let binds. -/
def renameFree (Γ : List String) : Term → Term
  | .var x => if D.isMember x && x ∉ Γ then .var (qualified D.currNs x) else .var x
  | .lam x b => .lam x (renameFree (x :: Γ) b)
  | .app f a => .app (renameFree Γ f) (renameFree Γ a)
  | .tlet x v b => .tlet x (renameFree (x :: Γ) v) (renameFree (x :: Γ) b)
  | .defn x b => .defn x (renameFree Γ b)
  | t => t

/-- The free names of members resolved. -/
def resolve : Nameless → Nameless
  | .free x => .free (if D.isMember x then qualified D.currNs x else x)
  | .lam b => .lam (resolve b)
  | .app f a => .app (resolve f) (resolve a)
  | .tlet v b => .tlet (resolve v) (resolve b)
  | .defn x b => .defn x (resolve b)
  | t => t

/-- A member's name that stands outside the functions of that name is outside the lets of that name too, and outside
the binders that have its full name. -/
def InScope (funs Γ : List String) : Term → Prop
  | .var x => D.isMember x = true → x ∉ funs → x ∉ Γ ∧ qualified D.currNs x ∉ Γ
  | .lam x b => InScope (x :: funs) (x :: Γ) b
  | .app f a => InScope funs Γ f ∧ InScope funs Γ a
  | .tlet x v b => InScope funs (x :: Γ) v ∧ InScope funs (x :: Γ) b
  | .defn _ b => InScope funs Γ b
  | _ => True

variable {D} {funs Γ : List String} {x : String} {t : Term}

lemma qualified_ne (ns x : String) : qualified ns x ≠ x := by
  intro h
  have hlen := congrArg String.length h
  simp [qualified] at hlen

lemma qualifyFree_member (hx : D.isMember x = true) (hf : x ∉ funs) :
    D.qualifyFree funs (.var x) = .var (qualified D.currNs x) := by
  simp only [isMember, Bool.and_eq_true] at hx
  simp [qualifyFree, hx, hf]

lemma qualifyFree_keeps (h : D.isMember x = true → x ∈ funs) : D.qualifyFree funs (.var x) = .var x := by
  rw [qualifyFree, if_neg]
  intro hcond
  simp only [Bool.and_eq_true, decide_eq_true_eq] at hcond
  obtain ⟨⟨⟨hd, hf⟩, hns⟩, hl⟩ := hcond
  exact hf (h (by simp [isMember, hd, hns, hl]))

lemma qualifyFree_scoped_iff (hsub : funs ⊆ Γ) (t : Term) :
    (D.qualifyFree funs t = D.renameFree Γ t ∧ (D.qualifyFree funs t).nameless Γ = D.resolve (t.nameless Γ)) ↔
      D.InScope funs Γ t := by
  induction t generalizing funs Γ with
  | var x =>
    by_cases hx : D.isMember x = true
    · by_cases hf : x ∈ funs
      · -- the function of the name binds it
        have hΓ := hsub hf
        rw [qualifyFree_keeps fun _ => hf]
        simp [InScope, hf, renameFree, Term.nameless, resolve, hΓ]
      · rw [qualifyFree_member hx hf]
        by_cases hΓ : x ∈ Γ
        · simp [InScope, hx, hf, renameFree, hΓ, qualified_ne]
        · by_cases hq : qualified D.currNs x ∈ Γ <;>
            simp [InScope, hx, hf, renameFree, Term.nameless, resolve, hΓ, hq]
    · rw [qualifyFree_keeps fun h => absurd h hx]
      by_cases hΓ : x ∈ Γ <;> simp [InScope, hx, renameFree, Term.nameless, resolve, hΓ]
  | lam x b ih =>
    have := ih (List.cons_subset_cons x hsub)
    simpa [qualifyFree, renameFree, Term.nameless, resolve, InScope] using this
  | app f a ihf iha =>
    rw [InScope, ← ihf hsub, ← iha hsub]
    simp only [qualifyFree, renameFree, Term.nameless, resolve, Term.app.injEq, Nameless.app.injEq]
    tauto
  | tlet x v b ihv ihb =>
    have hsub' : funs ⊆ x :: Γ := fun y hy => List.mem_cons_of_mem x (hsub hy)
    rw [InScope, ← ihv hsub', ← ihb hsub']
    simp only [qualifyFree, renameFree, Term.nameless, resolve, Term.tlet.injEq, true_and, Nameless.tlet.injEq]
    tauto
  | defn x b ih =>
    rw [InScope, ← ih hsub]
    simp only [qualifyFree, renameFree, Term.nameless, resolve, Term.defn.injEq, true_and, Nameless.defn.injEq]
  | num n => simp [qualifyFree, renameFree, Term.nameless, resolve, InScope]
  | float y => simp [qualifyFree, renameFree, Term.nameless, resolve, InScope]
  | ref y => simp [qualifyFree, renameFree, Term.nameless, resolve, InScope]

/-- Exactly the free names of members get their full names, and the term stays the same up to bound names, exactly
when no let binds a name that the walk changes and no binder has a full name that it writes. -/
theorem qualifyFree_iff (D : Defs) (t : Term) :
    (D.qualifyFree [] t = D.renameFree [] t ∧ (D.qualifyFree [] t).nameless [] = D.resolve (t.nameless [])) ↔
      D.InScope [] [] t :=
  qualifyFree_scoped_iff (List.Subset.refl []) t

/-- In a namespace with a member `x` the variable of `(let ((x 1)) x)` becomes that member. -/
theorem qualifyFree_let : ¬ ∀ (D : Defs) (t : Term), D.qualifyFree [] t = D.renameFree [] t ∧
    (D.qualifyFree [] t).nameless [] = D.resolve (t.nameless []) := by
  intro h
  have := (h ⟨[⟨"m.x", .num 0, none, none, none⟩], "m", []⟩ (.tlet "x" (.num 1) (.var "x"))).1
  revert this
  decide +kernel

end Defs

end LinEngine
