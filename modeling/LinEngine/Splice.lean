import Mathlib

/-!
# Wires through removed agents

A wiring sends each port to the port at the other end of its wire, if there is
one. When agents are removed and each of their ports is glued to another one, the
new wire of a port is found by following the old wires across the glued ports.
`Exits` is that path. Two removals with different ports may be made one after the
other or at once, and renaming the ports of the wiring renames the path.
-/
namespace LinEngine.Splice

variable {P : Type*}

/-- `Exits w c x z`: the wire that arrives at `x` ends in `z` once the ports in the
domain of `c` are glued as `c` says; `none` is a loose end. -/
inductive Exits (w c : P → Option P) : Option P → Option P → Prop
  | loose : Exits w c none none
  | out {x : P} : c x = none → Exits w c (some x) (some x)
  | thru {x y : P} {z : Option P} : c x = some y → Exits w c (w y) z → Exits w c (some x) z

variable {w w₁ w' c c₁ c₂ c' : P → Option P} {x y z : Option P}

theorem Exits.unique (h : Exits w c x y) (h' : Exits w c x z) : y = z := by
  induction h with
  | loose => cases h'; rfl
  | out hc =>
    cases h' with
    | out _ => rfl
    | thru hc' _ => simp [hc] at hc'
  | thru hc _ ih =>
    cases h' with
    | out hc' => simp [hc] at hc'
    | thru hc' h' =>
      rw [hc, Option.some.injEq] at hc'
      subst hc'
      exact ih h'

/-- The end of a path is not glued to anything. -/
theorem Exits.end_free (h : Exits w c x z) {p : P} (hz : z = some p) : c p = none := by
  induction h with
  | loose => cases hz
  | out hc =>
    rw [Option.some.injEq] at hz
    exact hz ▸ hc
  | thru _ _ ih => exact ih hz

theorem exits_some_iff {p : P} (hc : c p = none) : Exits w c (some p) z ↔ z = some p := by
  constructor
  · intro h
    cases h with
    | out _ => rfl
    | thru hc' _ => simp [hc] at hc'
  · rintro rfl
    exact .out hc

theorem exits_none_iff : Exits w c none z ↔ z = none := by
  constructor
  · intro h
    cases h
    rfl
  · rintro rfl
    exact .loose

/-- Glue the ports of both removals. -/
def both (c₁ c₂ : P → Option P) (p : P) : Option P := (c₁ p).or (c₂ p)

theorem both_of_none {p : P} (h : c₁ p = none) : both c₁ c₂ p = c₂ p := by simp [both, h]

theorem both_of_some {p q : P} (h : c₁ p = some q) : both c₁ c₂ p = some q := by simp [both, h]

theorem both_comm (h : ∀ p, c₁ p = none ∨ c₂ p = none) : both c₁ c₂ = both c₂ c₁ := by
  funext p
  rcases h p with h | h <;> simp [both, h]

/-- A path of the first removal may be prolonged by one of both. -/
theorem Exits.append (h : Exits w c₁ x y) (h' : Exits w (both c₁ c₂) y z) :
    Exits w (both c₁ c₂) x z := by
  induction h with
  | loose => exact h'
  | out _ => exact h'
  | thru hc _ ih => exact .thru (both_of_some hc) (ih h')

/-- Removing in two steps: `w₁` is the wiring after the first removal. -/
theorem exits_both_iff (w w₁ c₁ c₂ : P → Option P) {x z : Option P}
    (hw : ∀ p q, c₁ p = none → c₂ p = some q → Exits w c₁ (w q) (w₁ q)) :
    Exits w (both c₁ c₂) x z ↔ ∃ y, Exits w c₁ x y ∧ Exits w₁ c₂ y z := by
  constructor
  · intro h
    induction h with
    | loose => exact ⟨none, .loose, .loose⟩
    | @out p hc =>
      have h1 : c₁ p = none := by
        rw [both, Option.or_eq_none_iff] at hc
        exact hc.1
      rw [both_of_none h1] at hc
      exact ⟨some p, .out h1, .out hc⟩
    | @thru p q z hc _ ih =>
      obtain ⟨y, h1, h2⟩ := ih
      cases hp : c₁ p with
      | some q' =>
        rw [both_of_some hp, Option.some.injEq] at hc
        subst hc
        exact ⟨y, .thru hp h1, h2⟩
      | none =>
        rw [both_of_none hp] at hc
        rw [h1.unique (hw p q hp hc)] at h2
        exact ⟨some p, .out hp, .thru hc h2⟩
  · rintro ⟨y, h1, h2⟩
    refine h1.append ?_
    have hfree : ∀ p, y = some p → c₁ p = none := fun p => h1.end_free
    clear h1
    induction h2 with
    | loose => exact .loose
    | @out p hc => exact .out ((both_of_none (hfree p rfl)).trans hc)
    | @thru p q z hc _ ih =>
      have hp := hfree p rfl
      have hq := hw p q hp hc
      exact .thru ((both_of_none hp).trans hc) (hq.append (ih fun r => hq.end_free))

/-- Where wires and glue are mutual, a path can be walked back: `r` is where the walk
back from the start of the path leads. -/
theorem Exits.back {r : Option P} (good : P → Prop) (h : Exits w c x z)
    (hw : ∀ p q, good p → w p = some q → w q = some p ∧ good q)
    (hc : ∀ p q, good p → c p = some q → c q = some p ∧ good q) {p q : P} (hx : x = some p)
    (hz : z = some q) (hp : good p) (hr : Exits w c (w p) r) : Exits w c (w q) r ∧ good q := by
  induction h generalizing p with
  | loose => cases hx
  | @out p' _ =>
    rw [Option.some.injEq] at hx hz
    subst hx hz
    exact ⟨hr, hp⟩
  | @thru p' y z hcy h ih =>
    rw [Option.some.injEq] at hx
    subst hx
    obtain ⟨hback, hy⟩ := hc p' y hp hcy
    cases hwy : w y with
    | none =>
      rw [hwy] at h
      cases h
      cases hz
    | some p'' =>
      obtain ⟨hwb, hg⟩ := hw y p'' hy hwy
      exact ih hwy hz hg (by rw [hwb]; exact .thru hback hr)

/-- Renaming the ports of a wiring renames its paths. -/
theorem Exits.rename (φ : P → P) (good : P → Prop) (h : Exits w c x z)
    (hx : ∀ p, x = some p → good p)
    (hc : ∀ p, good p → c' (φ p) = (c p).map φ)
    (hw : ∀ p q, good p → c p = some q → w' (φ q) = (w q).map φ)
    (hgood : ∀ p q r, good p → c p = some q → w q = some r → good r) :
    Exits w' c' (x.map φ) (z.map φ) := by
  induction h with
  | loose => exact .loose
  | @out p hp =>
    refine .out ?_
    rw [hc p (hx p rfl), hp]
    rfl
  | @thru p q z hp _ ih =>
    have hg := hx p rfl
    have hq : c' (φ p) = some (φ q) := by rw [hc p hg, hp]; rfl
    refine .thru hq ?_
    rw [hw p q hg hp]
    exact ih fun r hr => hgood p q r hg hp hr

end LinEngine.Splice
