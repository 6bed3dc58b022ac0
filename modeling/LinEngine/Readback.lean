import LinEngine.Pattern
import LinEngine.Runs

/-!
# Reading a net that is at rest

In a net without a fireable pair forcing leaves the nodes and wires as they are, so the
forcing readers return what the layers of the net say.
-/
namespace LinEngine

/-- The same nodes, and the same wires at the live ones. -/
structure SameLive (m n : Net) : Prop where
  nn : m.nn = n.nn
  dead : ∀ v, m.dead.get v = n.dead.get v
  tag : ∀ v, n.live v = true → m.tag.get v = n.tag.get v
  wire : ∀ p : Port, n.live p.node = true → m.wireAt p = n.wireAt p

/-- No port, or a port of a live node. -/
def LivePort (n : Net) (p : Option Port) : Prop := ∀ q, p = some q → n.live q.node = true

/-- On the graph of `n` the reader returns `a` and leaves the graph; `I` is what a force
needs of the net besides, and keeps. -/
def Returns {α : Type} (I : Net → Prop) (x : Read α) (n : Net) (a : α) : Prop :=
  ∀ m, SameLive m n → I m → ∃ m', x m = some (a, m') ∧ SameLive m' n ∧ I m'

section Walks

variable {m n : Net} {p : Option Port}

lemma SameLive.live (h : SameLive m n) (v : ℕ) : m.live v = n.live v := by
  simp only [Net.live, Net.inNet, h.nn, h.dead]

lemma LivePort.none : LivePort n none := by simp [LivePort]

lemma LivePort.wire (hw : Wired n) {v : ℕ} (hv : n.live v = true) (k : Fin 3) : LivePort n (n.wireAt ⟨v, k⟩) :=
  fun _ hq => (hw ⟨v, k⟩ _ hv hq).1

lemma skipDup_live (hw : Wired n) (hp : LivePort n p) (f : ℕ) : LivePort n (skipDup n f p) := by
  induction f generalizing p with
  | zero => exact hp
  | succ f ih =>
    cases p with
    | none => exact LivePort.none
    | some q =>
      rw [skipDup]
      split_ifs
      · exact ih (.wire hw (hp q rfl) 0)
      · exact hp

lemma dupHop_live (hw : Wired n) (hp : LivePort n p) (f : ℕ) : LivePort n (dupHop n f p) := by
  induction f generalizing p with
  | zero => exact hp
  | succ f ih =>
    cases p with
    | none => exact LivePort.none
    | some q =>
      rw [dupHop]
      split_ifs
      · exact ih (.wire hw (hp q rfl) 1)
      · exact ih (.wire hw (hp q rfl) 0)
      · exact hp

lemma fanWalk_live (hw : Wired n) (hp : LivePort n p) (cross : Bool) : LivePort n (fanWalk cross n p) := by
  unfold fanWalk
  split_ifs
  · exact dupHop_live hw hp _
  · exact skipDup_live hw hp _

lemma SameLive.skipDup (h : SameLive m n) (hw : Wired n) (hp : LivePort n p) (f : ℕ) :
    skipDup m f p = skipDup n f p := by
  induction f generalizing p with
  | zero => rfl
  | succ f ih =>
    cases p with
    | none => rfl
    | some q =>
      have hq := hp q rfl
      rw [LinEngine.skipDup, LinEngine.skipDup, h.live, h.tag _ hq, h.wire ⟨q.node, 0⟩ hq, ih (.wire hw hq 0)]

lemma SameLive.dupHop (h : SameLive m n) (hw : Wired n) (hp : LivePort n p) (f : ℕ) :
    dupHop m f p = dupHop n f p := by
  induction f generalizing p with
  | zero => rfl
  | succ f ih =>
    cases p with
    | none => rfl
    | some q =>
      have hq := hp q rfl
      rw [LinEngine.dupHop, LinEngine.dupHop, h.live, h.tag _ hq, h.wire ⟨q.node, 0⟩ hq, h.wire ⟨q.node, 1⟩ hq]
      split_ifs
      · exact ih (.wire hw hq 1)
      · exact ih (.wire hw hq 0)
      · rfl

lemma SameLive.fanWalk (h : SameLive m n) (hw : Wired n) (hp : LivePort n p) (cross : Bool) :
    fanWalk cross m p = fanWalk cross n p := by
  simp only [LinEngine.fanWalk, h.nn, h.skipDup hw hp, h.dupHop hw hp]

end Walks

section Rest

variable {α β : Type} {force : Net → Port → Net} {fuel : ℕ} {n : Net} {p : Option Port} {I : Net → Prop}

lemma Returns.pure (a : α) : Returns I (pure a) n a := fun m hm hI => ⟨m, rfl, hm, hI⟩

lemma Returns.bind {x : Read α} {y : α → Read β} {a : α} {b : β} (hx : Returns I x n a) (hy : Returns I (y a) n b) :
    Returns I (x >>= y) n b := by
  intro m hm hI
  obtain ⟨m₁, hrun, hm₁, hI₁⟩ := hx m hm hI
  obtain ⟨m₂, hrun', hm₂⟩ := hy m₁ hm₁ hI₁
  exact ⟨m₂, by rw [Read.bind_eq, hrun, Option.bind_some, hrun'], hm₂⟩

/-- What a reader does with the net it gets. -/
lemma Returns.get {y : Net → Read α} {a : α}
    (h : ∀ m, SameLive m n → I m → ∃ m', y m m = some (a, m') ∧ SameLive m' n ∧ I m') : Returns I (get >>= y) n a :=
  fun m hm hI => h m hm hI

lemma Returns.congr {x : Read α} {a a' : α} (h : Returns I x n a) (ha : a = a') : Returns I x n a' := ha ▸ h

variable (hw : Wired n) (hforce : ∀ m p, SameLive m n → I m → SameLive (force m p) n ∧ I (force m p)) (hfuel : 0 < fuel)

include hforce hfuel in
lemma returns_netForceVal (hp : LivePort n p) : Returns I (netForceVal force fuel 0 p) n p := by
  obtain ⟨f, rfl⟩ := Nat.exists_eq_succ_of_ne_zero hfuel.ne'
  intro m hm hI
  cases p with
  | none => exact ⟨m, rfl, hm, hI⟩
  | some q =>
    have hq := hp q rfl
    obtain ⟨hforced, hI'⟩ := hforce m q hm hI
    have halive : ∀ k, SameLive k n → q.node < k.nn ∧ k.dead.get q.node = false := by
      intro k hk
      simpa [Net.live, Net.inNet] using (hk.live q.node).trans hq
    refine ⟨force m q, ?_, hforced, hI'⟩
    simp only [netForceVal, Read.bind_eq, Read.get_eq, Option.bind_some]
    rw [if_neg (by have := (halive m hm).1; omega), if_neg (by simp [(halive m hm).2])]
    simp [Read.bind_eq, Read.set_eq, (halive _ hforced).2, Read.pure_eq]

omit hw in
lemma returns_below {a : Port} (ha : n.live a.node = true) (k : Fin 3) : Returns I (below a k) n (n.wireAt ⟨a.node, k⟩) :=
  .get fun m hm hI => ⟨m, by rw [← hm.wire ⟨a.node, k⟩ ha]; rfl, hm, hI⟩

/-- A test of the tag is a test on `n`. -/
lemma SameLive.tagged {m : Net} (hm : SameLive m n) (hp : LivePort n p) (t : Tag) :
    (p.any fun q => m.live q.node && m.tag.get q.node == t) = p.any fun q => n.live q.node && n.tag.get q.node == t := by
  cases p with
  | none => rfl
  | some q => simp only [Option.any_some, hm.live, hm.tag _ (hp q rfl)]

lemma SameLive.ite_lam {m : Net} (hm : SameLive m n) (hp : LivePort n p) :
    (if isLam m p then p else none) = p.filter fun q => n.live q.node && n.tag.get q.node == .lam := by
  rw [isLam, hm.tagged hp]
  cases p with
  | none => rfl
  | some q => simp only [Option.any_some, Option.filter]

include hw hforce hfuel

lemma returns_hop (hp : LivePort n p) (cross : Bool) : Returns I (hop force fuel cross p) n (fanWalk cross n p) := by
  refine (returns_netForceVal hforce hfuel hp).bind (.get fun m hm hI => ⟨m, ?_, hm, hI⟩)
  rw [← hm.fanWalk hw hp]
  rfl

lemma returns_hopLam (hp : LivePort n p) (cross : Bool) : Returns I (hopLam force fuel cross p) n (tagAt cross .lam n p) := by
  refine (returns_hop hw hforce hfuel hp cross).bind (.get fun m hm hI => ⟨m, ?_, hm, hI⟩)
  rw [hm.ite_lam (fanWalk_live hw hp cross)]
  rfl

lemma returns_innerLam {a : Port} (ha : n.live a.node = true) (cross : Bool) :
    Returns I (innerLam force fuel cross a) n ((tagAt cross .lam n (n.wireAt ⟨a.node, 2⟩)).filter (·.port == 0)) := by
  refine (returns_below ha 2).bind ((returns_hop hw hforce hfuel (.wire hw ha 2) cross).bind (.get fun m hm hI => ⟨m, ?_, hm, hI⟩))
  have hlive := fanWalk_live hw (.wire hw ha 2) cross
  rw [tagAt, ← hm.ite_lam hlive]
  cases h : fanWalk cross n (n.wireAt ⟨a.node, 2⟩) with
  | none => rfl
  | some w =>
    by_cases hlam : isLam m (some w) = true <;> by_cases hport : w.port = 0 <;>
      simp [hlam, hport, Option.filter, Read.pure_eq]

lemma returns_selLayer (hp : LivePort n p) (second : Bool) :
    Returns I (selLayer force fuel second p) n ((selAt true second n p).any (·.port == 0)) := by
  refine (returns_hopLam hw hforce hfuel hp true).bind ?_
  rw [selAt]
  cases ha : tagAt true .lam n p with
  | none => exact .pure _
  | some a =>
    have hla := tagAt_live ha
    refine (returns_innerLam hw hforce hfuel hla true).bind ?_
    simp only [bind, Option.bind_some]
    cases hw' : tagAt true .lam n (n.wireAt ⟨a.node, 2⟩) with
    | none => exact .pure _
    | some w =>
      have hlw := tagAt_live hw'
      by_cases hport : w.port = 0
      · rw [show (some w).filter (·.port == 0) = some w by simp [Option.filter, hport]]
        refine (returns_below hlw 2).bind ((returns_hop hw hforce hfuel (.wire hw hlw 2) true).bind
          ((Returns.pure _).congr ?_))
        simp only [Option.bind_some]
        cases second <;> split_ifs with h <;> simp_all
      · rw [show (some w).filter (·.port == 0) = none by simp [Option.filter, hport]]
        refine (Returns.pure _).congr ?_
        simp only [Option.bind_some]
        split_ifs <;> simp [hport]

omit hw hforce hfuel in
lemma returns_unless_app {q : Port} (hq : n.live q.node = true) {x y : Read β} {b : β}
    (hx : n.tag.get q.node ≠ .app → Returns I x n b) (hy : n.tag.get q.node = .app → Returns I y n b) :
    Returns I (get >>= fun m => if (!isApp m (some q)) = true then x else y) n b := by
  refine .get fun m hm hI => ?_
  have htag := hm.tagged (p := some q) (by simpa [LivePort] using hq) .app
  rw [← isApp] at htag
  by_cases happ : n.tag.get q.node = .app
  · rw [if_neg (by simp [htag, hq, happ])]
    exact hy happ m hm hI
  · rw [if_pos (by simp [htag, happ])]
    exact hx happ m hm hI

omit hw hforce hfuel in
lemma tagAt_of_walk {cross : Bool} {q : Port} (h : fanWalk cross n p = some q) (hq : n.live q.node = true) (t : Tag) :
    tagAt cross t n p = if n.tag.get q.node = t then some q else none := by
  by_cases ht : n.tag.get q.node = t <;> simp [tagAt, h, Option.filter, hq, ht]

lemma returns_cellLayer (hp : LivePort n p) : Returns I (cellLayer force fuel p) n (consAt n p) := by
  refine (returns_hopLam hw hforce hfuel hp false).bind ?_
  rw [consAt, bodyAt]
  cases ha : tagAt false .lam n p with
  | none => exact .pure _
  | some a =>
    have hla := tagAt_live ha
    refine (returns_innerLam hw hforce hfuel hla false).bind ?_
    simp only [bind, Option.bind_some]
    cases hc : (tagAt false .lam n (n.wireAt ⟨a.node, 2⟩)).filter (·.port == 0) with
    | none => exact .pure _
    | some c =>
      have hlc : n.live c.node = true := tagAt_live (Option.filter_eq_some_iff.mp hc).1
      refine (returns_below hlc 2).bind ((returns_hop hw hforce hfuel (.wire hw hlc 2) false).bind ?_)
      have hlive := fanWalk_live hw (.wire hw hlc 2) false
      simp only [Option.bind_some]
      cases hbody : fanWalk false n (n.wireAt ⟨c.node, 2⟩) with
      | none => exact (Returns.pure _).congr (by simp [tagAt, hbody])
      | some body =>
        have hlbody := hlive body hbody
        rw [tagAt_of_walk hbody hlbody]
        refine returns_unless_app hlbody (fun h => (Returns.pure _).congr (by rw [if_neg h]; rfl)) fun h => ?_
        rw [if_pos h]
        refine (returns_below hlbody 0).bind ((returns_hop hw hforce hfuel (.wire hw hlbody 0) false).bind ?_)
        have hlive' := fanWalk_live hw (.wire hw hlbody 0) false
        simp only [Option.bind_some]
        cases hia : fanWalk false n (n.wireAt ⟨body.node, 0⟩) with
        | none => exact (Returns.pure _).congr (by simp [tagAt, hia])
        | some ia =>
          have hlia := hlive' ia hia
          rw [tagAt_of_walk hia hlia]
          refine returns_unless_app hlia (fun h => (Returns.pure _).congr (by rw [if_neg h]; rfl)) fun h => ?_
          rw [if_pos h]
          exact (returns_below hlia 2).bind ((returns_below hlbody 2).bind (.pure _))

lemma returns_nilLayer (hp : LivePort n p) : Returns I (nilLayer force fuel p) n (nilAt n p) := by
  refine (returns_hopLam hw hforce hfuel hp false).bind ?_
  rw [nilAt, bodyAt]
  cases ha : tagAt false .lam n p with
  | none => exact .pure _
  | some a =>
    have hla := tagAt_live ha
    refine (returns_innerLam hw hforce hfuel hla false).bind ?_
    simp only [bind, Option.bind_some]
    cases hc : (tagAt false .lam n (n.wireAt ⟨a.node, 2⟩)).filter (·.port == 0) with
    | none => exact .pure _
    | some c =>
      have hlc : n.live c.node = true := tagAt_live (Option.filter_eq_some_iff.mp hc).1
      have hlive := fanWalk_live hw (.wire hw hlc 2) false
      refine (returns_below hlc 2).bind ((returns_hop hw hforce hfuel (.wire hw hlc 2) false).bind
        (.get fun m hm hI => ⟨m, ?_, hm, hI⟩))
      rw [isLam, hm.tagged hlive]
      cases hbody : fanWalk false n (n.wireAt ⟨c.node, 2⟩) with
      | none => simp [tagAt, hbody, Read.pure_eq]
      | some body =>
        have hlbody := hlive body hbody
        by_cases hlam : n.tag.get body.node = .lam <;>
          simp [tagAt_of_walk hbody hlbody, Read.pure_eq, hlbody, hlam]

/-- The layer of a list. -/
def layerAt (n : Net) (p : Option Port) : Option Layer :=
  match consAt n p with
  | some (h, t) => some (.cell h t)
  | none => if nilAt n p then some .terminal else none

/-- The value of a boolean. -/
def boolAt (n : Net) (p : Option Port) : ℤ :=
  if (selAt true false n p).any (·.port == 0) then 1 else if (selAt true true n p).any (·.port == 0) then 0 else -1

lemma returns_consLayer (hp : LivePort n p) : Returns I (consLayer force fuel p) n (layerAt n p) := by
  refine (returns_cellLayer hw hforce hfuel hp).bind ?_
  rw [layerAt]
  cases consAt n p with
  | some c => exact .pure _
  | none => exact (returns_nilLayer hw hforce hfuel hp).bind (.pure _)

omit hw hforce hfuel in
lemma fanWalk_none (cross : Bool) : fanWalk cross n none = none := by
  unfold fanWalk
  cases n.nn <;> simp [dupHop, skipDup]

lemma returns_netReadBool (hp : LivePort n p) : Returns I (netReadBool force fuel p) n (boolAt n p) := by
  refine .get fun m hm hI => ?_
  rw [hm.nn]
  by_cases hnn : n.nn = 0
  · have hnone : p = none := by
      by_contra hsome
      obtain ⟨q, hq⟩ := Option.ne_none_iff_exists'.mp hsome
      have := hp q hq
      simp [Net.live, Net.inNet, hnn] at this
    subst hnone
    rw [if_pos hnn]
    exact ⟨m, by simp [boolAt, selAt, tagAt, fanWalk_none, Read.pure_eq], hm, hI⟩
  · rw [if_neg hnn]
    refine ((returns_selLayer hw hforce hfuel hp false).bind ?_ : Returns I _ n (boolAt n p)) m hm hI
    rw [boolAt]
    cases (selAt true false n p).any (·.port == 0) with
    | true => exact .pure _
    | false =>
      refine (returns_selLayer hw hforce hfuel hp true).bind ?_
      cases (selAt true true n p).any (·.port == 0) <;> exact .pure _

end Rest

end LinEngine
