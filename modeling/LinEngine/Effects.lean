import LinEngine.Datatype
import LinEngine.Readers
import LinEngine.Reduce

/-!
# Effects and data

`std/io.lin` writes an effect as a function that applies its own binder to a code and then
to payloads, and `eff_dig` of `readback.c` recognises it by this shape. A constructor of a
datatype that has no other has the same shape, with its fields for code and payloads.
-/
namespace LinEngine

/-- How many payloads each code carries. -/
def effPay : List ℕ := [2, 2, 3, 2]

/-- Is `c` a code with so many payloads? -/
def carries (c : ℤ) (count : ℕ) : Bool := decide (0 ≤ c) && effPay[c.toNat]? == some count

section Dig

variable (force : Net → Port → Net) (fuel : ℕ)

/-- The loop of `eff_dig` down the spine below the binder of `l`. -/
def effLoop (l : Port) : ℕ → Option Port → List (Option Port) → Read (Option (ℤ × List (Option Port)))
  | 0, _, _ => pure none
  | f + 1, cur, tmp => do
    let n ← get
    let some c := cur | return none
    if !isApp n cur || c.port != 1 then return none
    let fn := skipDup n n.nn (n.wireAt ⟨c.node, 0⟩)
    let arg := n.wireAt ⟨c.node, 2⟩
    if fn = some ⟨l.node, 1⟩ then
      let v ← netReadInt force fuel .num arg
      return if carries v tmp.length then some (v, tmp.reverse) else none
    else if 3 ≤ tmp.length then return none
    else effLoop l f fn (tmp ++ [arg])

/-- The code and the payloads of the effect at `p`. -/
def effDig (p : Option Port) : Read (Option (ℤ × List (Option Port))) := do
  let some l ← hopLam force fuel true p | return none
  let n ← get
  effLoop force fuel l 8 (skipDup n n.nn (n.wireAt ⟨l.node, 2⟩)) []

end Dig

/-! ## Shapes in a net -/

/-- A term with ports for its unknown parts. -/
inductive Skel
  | var (i : ℕ)
  | lam (b : Skel)
  | app (f a : Skel)
  | port (w : Option Port)
  deriving DecidableEq, Repr

namespace Skel

def lams (b : Skel) : ℕ → Skel
  | 0 => b
  | m + 1 => .lam (lams b m)

def apps (f : Skel) (args : List Skel) : Skel := args.foldl .app f

end Skel

/-- The net has the shape at the port, up to fans; `Γ` lists the nodes of the binders. -/
inductive Draws (n : Net) : List ℕ → Option Port → Skel → Prop
  | var {Γ : List ℕ} {p : Option Port} {i l : ℕ} (hl : Γ[i]? = some l) (hp : skipDup n n.nn p = some ⟨l, 1⟩) :
      Draws n Γ p (.var i)
  | lam {Γ : List ℕ} {p : Option Port} {l : ℕ} {b : Skel} (hp : skipDup n n.nn p = some ⟨l, 0⟩) (hl : n.live l = true)
      (htag : n.tag.get l = .lam) (body : Draws n (l :: Γ) (n.wireAt ⟨l, 2⟩) b) : Draws n Γ p (.lam b)
  | app {Γ : List ℕ} {p : Option Port} {c : ℕ} {f x : Skel} (hp : skipDup n n.nn p = some ⟨c, 1⟩) (hc : n.live c = true)
      (htag : n.tag.get c = .app) (fn : Draws n Γ (n.wireAt ⟨c, 0⟩) f) (arg : Draws n Γ (n.wireAt ⟨c, 2⟩) x) :
      Draws n Γ p (.app f x)
  | port {Γ : List ℕ} (w : Option Port) : Draws n Γ w (.port w)

/-- The walk of `Draws`. -/
def Skel.drawn (n : Net) : List ℕ → Option Port → Skel → Bool
  | Γ, p, .var i => Γ[i]?.any fun l => skipDup n n.nn p == some ⟨l, 1⟩
  | Γ, p, .lam b => (skipDup n n.nn p).any fun q => q.port == 0 && n.live q.node && n.tag.get q.node == .lam &&
      b.drawn n (q.node :: Γ) (n.wireAt ⟨q.node, 2⟩)
  | Γ, p, .app f x => (skipDup n n.nn p).any fun q => q.port == 1 && n.live q.node && n.tag.get q.node == .app &&
      f.drawn n Γ (n.wireAt ⟨q.node, 0⟩) && x.drawn n Γ (n.wireAt ⟨q.node, 2⟩)
  | _, p, .port w => p == w

lemma Skel.drawn_draws {n : Net} {Γ : List ℕ} {p : Option Port} {s : Skel} (h : s.drawn n Γ p = true) : Draws n Γ p s := by
  induction s generalizing Γ p with
  | var i =>
    obtain ⟨l, hl, hp⟩ := (Option.any_eq_true _ _).1 h
    exact .var hl (by simpa using hp)
  | lam b ih =>
    obtain ⟨⟨v, i⟩, hq, hv⟩ := (Option.any_eq_true _ _).1 h
    simp only [Bool.and_eq_true, beq_iff_eq] at hv
    obtain ⟨⟨⟨rfl, hl⟩, htag⟩, hb⟩ := hv
    exact .lam hq hl htag (ih hb)
  | app f x ihf ihx =>
    obtain ⟨⟨v, i⟩, hq, hv⟩ := (Option.any_eq_true _ _).1 h
    simp only [Bool.and_eq_true, beq_iff_eq] at hv
    obtain ⟨⟨⟨⟨rfl, hc⟩, htag⟩, hf⟩, hx⟩ := hv
    exact .app hq hc htag (ihf hf) (ihx hx)
  | port w =>
    obtain rfl : p = w := by simpa [Skel.drawn] using h
    exact .port p

/-- The values of the language; `ctor` is constructor `i` of `m`. -/
inductive Data
  | ctor (m : ℕ) (i : Fin m) (fields : List (Option Port))
  | pair (x y : Option Port)
  | nil
  | cons (h t : Option Port)
  | bool (b : Bool)
  | num (bits : List Bool)
  | box (index : Option Port)
  deriving DecidableEq, Repr

namespace Skel

def bool (b : Bool) : Skel := lams (.var (if b then 1 else 0)) 2

def num : List Bool → Skel
  | [] => lams (bool true) 2
  | b :: bs => lams (apps (.var 1) [bool b, num bs]) 2

end Skel

/-- What the constructors of the library and of `scott_ctor` reduce to. -/
def Data.skel : Data → Skel
  | .ctor m i fields => .lams (.apps (.var (m - 1 - i)) (fields.map .port)) m
  | .pair x y => .lam (.apps (.var 0) [.port x, .port y])
  | .nil => .lams (.bool true) 2
  | .cons h t => .lams (.apps (.var 1) [.port h, .port t]) 2
  | .bool b => .bool b
  | .num bits => .num bits
  | .box index => .lams (.app (.var 1) (.app (.var 0) (.port index))) 2

/-- The fields of a value that hands them to its only binder. -/
def Data.solo : Data → List (Option Port)
  | .ctor 1 _ fields => fields
  | .pair x y => [x, y]
  | _ => []

/-- The terms of `io.lin`; the payloads of `io_done` are two zeros. -/
inductive Effect
  | done (x y : Option Port)
  | print (msg next : Option Port)
  | writeTo (dst msg next : Option Port)
  | wait (src cb : Option Port)
  deriving DecidableEq, Repr

def Effect.code : Effect → ℤ
  | .done _ _ => 0
  | .print _ _ => 1
  | .writeTo _ _ _ => 2
  | .wait _ _ => 3

def Effect.payloads : Effect → List (Option Port)
  | .done x y => [x, y]
  | .print msg next => [msg, next]
  | .writeTo dst msg next => [dst, msg, next]
  | .wait src cb => [src, cb]

/-- The effect with its code at `w`. -/
def Effect.skel (e : Effect) (w : Option Port) : Skel := .lam (.apps (.var 0) (.port w :: e.payloads.map .port))

lemma Effect.carries (e : Effect) : carries e.code e.payloads.length = true := by cases e <;> rfl

/-! ## What the loop finds -/

section Spine

variable {force : Net → Port → Net} {fuel : ℕ} {n : Net} {l : Port} {Γ : List ℕ} {p : Option Port}

lemma effLoop_stop {q : Port} (h : isApp n (some q) = false) (f : ℕ) (tmp : List (Option Port)) :
    effLoop force fuel l f (some q) tmp n = some (none, n) := by
  cases f with
  | zero => rfl
  | succ f => simp [effLoop, Read.bind_eq, Read.get_eq, Read.pure_eq, h]

lemma isApp_lam {v : ℕ} (h : n.tag.get v = .lam) (i : Fin 3) : isApp n (some ⟨v, i⟩) = false := by simp [isApp, h]

lemma Draws.lams {b : Skel} {m : ℕ} (h : Draws n Γ p (.lams b (m + 1))) :
    ∃ v, skipDup n n.nn p = some ⟨v, 0⟩ ∧ n.tag.get v = .lam ∧ Draws n (v :: Γ) (n.wireAt ⟨v, 2⟩) (.lams b m) := by
  cases h with
  | lam hp hl htag body => exact ⟨_, hp, htag, body⟩

lemma Draws.app_inv {f a : Skel} (h : Draws n Γ p (.app f a)) :
    ∃ c, skipDup n n.nn p = some ⟨c, 1⟩ ∧ n.live c = true ∧ n.tag.get c = .app ∧ Draws n Γ (n.wireAt ⟨c, 0⟩) f ∧
      Draws n Γ (n.wireAt ⟨c, 2⟩) a := by
  cases h with
  | app hp hc htag fn arg => exact ⟨_, hp, hc, htag, fn, arg⟩

lemma Draws.port_inv {w : Option Port} (h : Draws n Γ p (.port w)) : p = w := by
  cases h with
  | port => rfl

lemma apps_concat (f a : Skel) (args : List Skel) : Skel.apps f (args ++ [a]) = .app (Skel.apps f args) a := by
  simp [Skel.apps]

/-- A spine with an argument ends in an application. -/
lemma Draws.apps_cons {f a : Skel} {args : List Skel} (h : Draws n Γ p (.apps f (a :: args))) :
    ∃ c, skipDup n n.nn p = some ⟨c, 1⟩ ∧ n.tag.get c = .app := by
  obtain ⟨init, z, hz⟩ := List.eq_nil_or_concat'  (a :: args) |>.resolve_left (List.cons_ne_nil a args)
  rw [hz, apps_concat] at h
  obtain ⟨c, hp, -, htag, -⟩ := h.app_inv
  exact ⟨c, hp, htag⟩

/-- One turn of the loop at an application. -/
lemma effLoop_app {c : ℕ} (hlive : n.live c = true) (htag : n.tag.get c = .app) (f : ℕ) (tmp : List (Option Port)) :
    effLoop force fuel l (f + 1) (some ⟨c, 1⟩) tmp n =
      if skipDup n n.nn (n.wireAt ⟨c, 0⟩) = some ⟨l.node, 1⟩ then
        (netReadInt force fuel .num (n.wireAt ⟨c, 2⟩) n).map fun r =>
          (if carries r.1 tmp.length then some (r.1, tmp.reverse) else none, r.2)
      else if 3 ≤ tmp.length then some (none, n)
      else effLoop force fuel l f (skipDup n n.nn (n.wireAt ⟨c, 0⟩)) (tmp ++ [n.wireAt ⟨c, 2⟩]) n := by
  have happ : (!isApp n (some ⟨c, 1⟩) || ((1 : Fin 3) != 1)) = false := by simp [isApp, hlive, htag]
  rw [effLoop, Read.bind_eq, Read.get_eq, Option.bind_some]
  dsimp only
  rw [happ, if_neg Bool.false_ne_true]
  split_ifs
  · rw [Read.bind_eq]
    cases netReadInt force fuel .num (n.wireAt ⟨c, 2⟩) n <;> rfl
  · rfl
  · rfl

/-- Down a spine of the binder, the loop reads the argument next to it, unless more than
three come after. -/
lemma effLoop_spine (hl : n.tag.get l.node = .lam) (x : Option Port) (rest tmp : List (Option Port)) (f : ℕ)
    (hp : Draws n [l.node] p (.apps (.var 0) (.port x :: rest.map .port))) (htmp : tmp.length ≤ 3) (hf : 3 ≤ f + tmp.length) :
    effLoop force fuel l (f + 1) (skipDup n n.nn p) tmp n =
      if rest.length + tmp.length ≤ 3 then (netReadInt force fuel .num x n).map fun r =>
        (if carries r.1 (rest.length + tmp.length) then some (r.1, rest ++ tmp.reverse) else none, r.2)
      else some (none, n) := by
  induction rest using List.reverseRecOn generalizing p tmp f with
  | nil =>
    obtain ⟨c, hc, hlive, htag, hfn, harg⟩ := Draws.app_inv (f := .var 0) (a := .port x) hp
    have hvar : skipDup n n.nn (n.wireAt ⟨c, 0⟩) = some ⟨l.node, 1⟩ := by
      cases hfn with
      | var hv hq => rw [hq]; simpa using hv.symm
    rw [hc, effLoop_app hlive htag, if_pos hvar, harg.port_inv, List.length_nil, Nat.zero_add, if_pos htmp, List.nil_append]
  | append_singleton rest y ih =>
    rw [List.map_append, List.map_singleton, ← List.cons_append, apps_concat] at hp
    obtain ⟨c, hc, hlive, htag, hfn, harg⟩ := hp.app_inv
    obtain ⟨c', hc', htag'⟩ := hfn.apps_cons
    have hne : skipDup n n.nn (n.wireAt ⟨c, 0⟩) ≠ some ⟨l.node, 1⟩ := by
      rw [hc']
      rintro ⟨⟩
      rw [hl] at htag'
      exact absurd htag' (by decide)
    have hlen : (rest ++ [y]).length + tmp.length = rest.length + (tmp ++ [y]).length := by
      simp only [List.length_append, List.length_singleton]
      omega
    rw [hc, effLoop_app hlive htag, if_neg hne, harg.port_inv, hlen]
    by_cases hfull : 3 ≤ tmp.length
    · rw [if_pos hfull, if_neg]
      simp only [List.length_append, List.length_singleton]
      omega
    · obtain ⟨f, rfl⟩ : ∃ f', f = f' + 1 := ⟨f - 1, by omega⟩
      have hshort : (tmp ++ [y]).length ≤ 3 := by
        simp only [List.length_append, List.length_singleton]
        omega
      have hfuel : 3 ≤ f + (tmp ++ [y]).length := by
        simp only [List.length_append, List.length_singleton]
        omega
      rw [if_neg hfull, ih (tmp ++ [y]) f hfn hshort hfuel, List.reverse_append, List.append_assoc]
      rfl

end Spine

/-! ## Values and effects -/

section Observed

variable {force : Net → Port → Net} {fuel : ℕ} {n n' : Net} {p : Option Port} {l : Port}

lemma effDig_of_lam (hobs : hopLam force fuel true p n = some (some l, n')) :
    effDig force fuel p n = effLoop force fuel l 8 (skipDup n' n'.nn (n'.wireAt ⟨l.node, 2⟩)) [] n' := by
  simp [effDig, Read.bind_eq, Read.get_eq, hobs]

lemma hopLam_lam (hobs : hopLam force fuel true p n = some (some l, n')) : n'.tag.get l.node = .lam := by
  simp only [hopLam, Read.bind_eq, Option.bind_eq_some_iff, Read.get_eq, Option.bind_some, Read.pure_eq, Option.some_inj,
    Prod.mk.injEq] at hobs
  obtain ⟨⟨q, m⟩, -, hq, rfl⟩ := hobs
  split_ifs at hq with hlam
  subst hq
  simp only [isLam, Option.any_some, Bool.and_eq_true, beq_iff_eq] at hlam
  exact hlam.2

lemma skipDup_lam {v : ℕ} (h : n.tag.get v = .lam) (f : ℕ) (i : Fin 3) : skipDup n f (some ⟨v, i⟩) = some ⟨v, i⟩ := by
  cases f with
  | zero => rfl
  | succ f => simp [skipDup, h]

/-- The body of the function that a force has reached. -/
lemma Draws.observed {b : Skel} (hobs : hopLam force fuel true p n = some (some l, n'))
    (h : Draws n' [] (some l) (.lam b)) : Draws n' [l.node] (n'.wireAt ⟨l.node, 2⟩) b := by
  cases h with
  | lam hp hl htag body =>
    rw [skipDup_lam (hopLam_lam hobs)] at hp
    have hnode := congrArg Port.node (Option.some.inj hp)
    rw [show l.node = _ from hnode]
    exact body

/-- A second binder in the body is no application. -/
lemma effDig_lams {b : Skel} {m : ℕ} (hobs : hopLam force fuel true p n = some (some l, n'))
    (h : Draws n' [] (some l) (.lams b (m + 2))) : effDig force fuel p n = some (none, n') := by
  obtain ⟨v, hv, htag, -⟩ := (Draws.observed hobs h).lams
  rw [effDig_of_lam hobs, hv, effLoop_stop (isApp_lam htag 0)]

lemma effDig_apps {x : Option Port} {rest : List (Option Port)} (hobs : hopLam force fuel true p n = some (some l, n'))
    (h : Draws n' [] (some l) (.lam (.apps (.var 0) (.port x :: rest.map .port)))) :
    effDig force fuel p n =
      if rest.length ≤ 3 then (netReadInt force fuel .num x n').map fun r =>
        (if carries r.1 rest.length then some (r.1, rest) else none, r.2)
      else some (none, n') := by
  rw [effDig_of_lam hobs, effLoop_spine (hopLam_lam hobs) x rest [] 7 (Draws.observed hobs h) (by simp) (by simp)]
  simp

/-- The first field reads as no code with as many payloads as there are further fields. -/
def Data.Apart (force : Net → Port → Net) (fuel : ℕ) (n : Net) (d : Data) : Prop :=
  ∀ x rest, d.solo = x :: rest → 3 < rest.length ∨
    ∃ r, netReadInt force fuel .num x n = some r ∧ carries r.1 rest.length = false

lemma effDig_solo {d : Data} (hobs : hopLam force fuel true p n = some (some l, n')) (h : Draws n' [] (some l) d.skel)
    {x : Option Port} {rest : List (Option Port)} (hsolo : d.solo = x :: rest) :
    effDig force fuel p n =
      if rest.length ≤ 3 then (netReadInt force fuel .num x n').map fun r =>
        (if carries r.1 rest.length then some (r.1, rest) else none, r.2)
      else some (none, n') := by
  refine effDig_apps hobs ?_
  cases d with
  | ctor m i fields =>
    match m, i, hsolo, h with
    | 1, i, hsolo, h =>
      obtain rfl : fields = x :: rest := hsolo
      obtain rfl : i = 0 := Subsingleton.elim i 0
      exact h
  | pair y z =>
    obtain ⟨rfl, rfl⟩ := List.cons.inj hsolo
    exact h
  | _ => exact absurd hsolo (by simp [Data.solo])

lemma effDig_compound {d : Data} (hobs : hopLam force fuel true p n = some (some l, n'))
    (h : Draws n' [] (some l) d.skel) (hsolo : d.solo = []) : effDig force fuel p n = some (none, n') := by
  cases d with
  | ctor m i fields =>
    match m, i, hsolo, h with
    | 1, i, hsolo, h =>
      obtain rfl : fields = [] := hsolo
      obtain rfl : i = 0 := Subsingleton.elim i 0
      have hvar : Draws n' [l.node] (n'.wireAt ⟨l.node, 2⟩) (.var 0) := Draws.observed hobs h
      cases hvar with
      | var hv hp =>
        obtain rfl : l.node = _ := by simpa using hv
        rw [effDig_of_lam hobs, hp, effLoop_stop (isApp_lam (hopLam_lam hobs) 1)]
    | m + 2, i, hsolo, h => exact effDig_lams hobs h
  | pair y z => exact absurd hsolo (List.cons_ne_nil _ _)
  | num bits =>
    cases bits with
    | nil => exact effDig_lams (m := 0) hobs h
    | cons b bits => exact effDig_lams (m := 0) hobs h
  | _ => exact effDig_lams (m := 0) hobs h

/-- Where a force has reached a value, it is not taken for an effect exactly if its first
field reads as no code for its other fields; where it has reached an effect whose code
reads as the number it is, the code is returned with the payloads in their order. -/
theorem effDig_iff (hobs : hopLam force fuel true p n = some (some l, n')) :
    (∀ d : Data, Draws n' [] (some l) d.skel → ((∃ m, effDig force fuel p n = some (none, m)) ↔ d.Apart force fuel n')) ∧
      ∀ (e : Effect) (w : Option Port) (m : Net), Draws n' [] (some l) (e.skel w) →
        netReadInt force fuel .num w n' = some (e.code, m) →
        effDig force fuel p n = some (some (e.code, e.payloads), m) := by
  refine ⟨fun d hd => ?_, fun e w m he hcode => ?_⟩
  · cases hsolo : d.solo with
    | nil =>
      have hnone := effDig_compound hobs hd hsolo
      simp [hnone, Data.Apart, hsolo]
    | cons x rest =>
      rw [effDig_solo hobs hd hsolo]
      have hapart : d.Apart force fuel n' ↔ 3 < rest.length ∨
          ∃ r, netReadInt force fuel .num x n' = some r ∧ carries r.1 rest.length = false := by
        simp only [Data.Apart, hsolo, List.cons.injEq, and_imp]
        exact ⟨fun h => h x rest rfl rfl, fun h y ys hy hys => hy ▸ hys ▸ h⟩
      rw [hapart]
      by_cases hlen : rest.length ≤ 3
      · rw [if_pos hlen]
        cases hread : netReadInt force fuel .num x n' with
        | none => simp [hlen]
        | some r => cases hc : carries r.1 rest.length <;> simp [hlen, hc]
      · simp [hlen, not_le.1 hlen]
  · have hlen : e.payloads.length ≤ 3 := by cases e <;> simp [Effect.payloads]
    rw [effDig_apps hobs he, if_pos hlen, hcode, Option.map_some, if_pos e.carries]

end Observed

/-- The value `T 0 1 2` of a datatype whose only constructor is `T`, with three fields. -/
def tripleNet : Net := (compile (Term.apps (scottCtor 0 ["a", "b", "c"] 1) [.num 0, .num 1, .num 2])).toOption.getD netInit

/-- The result of a net with nothing but the reducer to force it. -/
def observed (n : Net) : Net := ((hopLam (netForce .serial none) 100 true (n.wireAt ⟨0, 0⟩) n).map (·.2)).getD n

def tripleValue : Data := .ctor 1 0 [(observed tripleNet).wireAt ⟨10, 2⟩, (observed tripleNet).wireAt ⟨9, 2⟩,
  (observed tripleNet).wireAt ⟨8, 2⟩]

lemma tripleNet_observed : hopLam (netForce .serial none) 100 true (tripleNet.wireAt ⟨0, 0⟩) tripleNet =
    some (some ⟨7, 0⟩, observed tripleNet) := by
  decide +kernel

/-- It is taken for `io_done`. -/
theorem effDig_swallows : ¬∀ (fuel : ℕ) (n n' : Net) (p : Option Port) (l : Port) (d : Data),
    hopLam (netForce .serial none) fuel true p n = some (some l, n') → Draws n' [] (some l) d.skel →
    ∃ m, effDig (netForce .serial none) fuel p n = some (none, m) := by
  intro h
  obtain ⟨m, hm⟩ := h 100 tripleNet _ _ _ tripleValue tripleNet_observed (Skel.drawn_draws (by decide +kernel))
  have hsome : ((effDig (netForce .serial none) 100 (tripleNet.wireAt ⟨0, 0⟩) tripleNet).bind (·.1)).isSome = true := by
    decide +kernel
  rw [hm] at hsome
  exact absurd hsome (by simp)

/-- `io_print 5 6`. -/
def printNet : Net := (compile (Term.apps (.lam "msg" (.lam "next" (.lam "_eff" (Term.apps (.var "_eff")
  [.num 1, .var "msg", .var "next"])))) [.num 5, .num 6])).toOption.getD netInit

/-- It is recognised, with `5` and `6` as its payloads. -/
theorem effDig_print : ∃ m, effDig (netForce .serial none) 100 (printNet.wireAt ⟨0, 0⟩) printNet =
    some (some (1, [some ⟨37, 0⟩, some ⟨59, 0⟩]), m) := by
  have hobs : hopLam (netForce .serial none) 100 true (printNet.wireAt ⟨0, 0⟩) printNet =
      some (some ⟨5, 0⟩, observed printNet) := by
    decide +kernel
  have hcode : (netReadInt (netForce .serial none) 100 .num ((observed printNet).wireAt ⟨8, 2⟩) (observed printNet)).map
      (·.1) = some 1 := by
    decide +kernel
  obtain ⟨⟨_, m⟩, hread, rfl⟩ := Option.map_eq_some_iff.1 hcode
  exact ⟨m, (effDig_iff hobs).2 (.print (some ⟨37, 0⟩) (some ⟨59, 0⟩)) _ m (Skel.drawn_draws (by decide +kernel)) hread⟩

end LinEngine
