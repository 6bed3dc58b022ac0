import LinEngine.Rules
import LinEngine.Compile

/-!
# Runs of the engine

One step calls `netInteract` on a live redex; a run is any number of steps in any
order. Soundness is kept by a step and so by a run. Soundness is also checked by
computation, so that it can be read off a given net.
-/
namespace LinEngine

open Relation

/-- One call on a live redex; an inert pair leaves the net as it is. -/
inductive Interacts (g : Globals) (n : Net) : Net → Prop
  | call (p q : Port) : redexLive n p q = true → Interacts g n (netInteract g n p q).2

/-- One call that fires a rule. -/
inductive Fired (g : Globals) (n : Net) : Net → Prop
  | fire (p q : Port) : redexLive n p q = true →
      fireable (n.tag.get p.node) (n.tag.get q.node) = true → Fired g n (netInteract g n p q).2

/-- No live redex is fireable. -/
def Halted (n : Net) : Prop :=
  ∀ p q, redexLive n p q = true → fireable (n.tag.get p.node) (n.tag.get q.node) = false

lemma interactSorted_inert {g : Globals} {n : Net} {a b : ℕ}
    (h : (interactSorted g n a b).1 = false) : (interactSorted g n a b).2 = n := by
  simp only [interactSorted] at h ⊢
  split at h <;> try split_ifs at h
  all_goals simp_all

lemma netInteract_inert {g : Globals} {n : Net} {p q : Port}
    (h : (netInteract g n p q).1 = false) : (netInteract g n p q).2 = n := by
  simp only [netInteract] at h ⊢
  split_ifs at h ⊢ <;> exact interactSorted_inert h

section Invariant

variable {g : Globals} {n n' : Net}

lemma Interacts.fired (h : Interacts g n n') : n' = n ∨ Fired g n n' := by
  obtain ⟨p, q, hl⟩ := h
  cases hf : (netInteract g n p q).1 with
  | false => exact Or.inl (netInteract_inert hf)
  | true => exact Or.inr (.fire p q hl (by rwa [← netInteract_fst g]))

theorem Fired.sound (hser : g.inParallel = false) (hn : Sound n) (h : Fired g n n') : Sound n' := by
  obtain ⟨p, q, hl, hf⟩ := h
  exact (netInteract_spec hser hn hl (by rwa [netInteract_fst])).2

/-- A fired redex is one firing of the graph. -/
theorem Fired.fires (hser : g.inParallel = false) (hn : Sound n) (h : Fired g n n') :
    ∃ a b, n.graph.Facing a b ∧ Fires a b n.graph n'.graph := by
  obtain ⟨p, q, hl, hf⟩ := h
  have hface := (redexLive_facing hn.wired hl).1
  exact ⟨_, _, hface.sortPair _ _, (netInteract_spec hser hn hl (by rwa [netInteract_fst])).1⟩

theorem Interacts.sound (hser : g.inParallel = false) (hn : Sound n) (h : Interacts g n n') :
    Sound n' := by
  rcases h.fired with rfl | h
  · exact hn
  · exact h.sound hser hn

theorem run_sound (hser : g.inParallel = false) (hn : Sound n)
    (hrun : ReflTransGen (Interacts g) n n') : Sound n' := by
  induction hrun with
  | refl => exact hn
  | tail _ hstep ih => exact hstep.sound hser ih

end Invariant

/-! ## Checking a given net -/

def wiredCheck (n : Net) : Bool :=
  (List.range n.nn).all fun v => !n.live v || (portsOf v).all fun p =>
    match n.wireAt p with
    | none => true
    | some q => n.live q.node && n.wireAt q == some p && q != p

lemma wired_of_check {n : Net} (h : wiredCheck n = true) : Wired n := by
  intro p q hl hw
  have hv : p.node < n.nn := ((Net.live_iff _).mp hl).1
  rw [wiredCheck, List.all_eq_true] at h
  have h1 := h p.node (List.mem_range.mpr hv)
  rw [hl, Bool.not_true, Bool.false_or, List.all_eq_true] at h1
  have h2 := h1 p (mem_portsOf.mpr rfl)
  simp only [hw, Bool.and_eq_true, beq_iff_eq, bne_iff_ne] at h2
  exact ⟨h2.1.1, h2.1.2, h2.2⟩

/-- Enough for a net that has not reclaimed a slot yet. -/
def soundCheck (n : Net) : Bool :=
  wiredCheck n && n.freeHead == none && n.pins == 0 &&
    (List.range n.levels.length).all (fun i => match n.levels[i]? with
      | none => true
      | some l => decide (l.parent ≤ i) && l.depth == lvDepth n l.parent + 1) &&
    (List.range n.nn).all (fun v => !n.live v || decide (n.scope.get v ≤ n.levels.length))

theorem sound_of_check {n : Net} (h : soundCheck n = true) : Sound n := by
  simp only [soundCheck, Bool.and_eq_true, beq_iff_eq, List.all_eq_true, List.mem_range] at h
  obtain ⟨⟨⟨⟨hw, hfree⟩, hpins⟩, htrie⟩, hscopes⟩ := h
  refine ⟨wired_of_check hw, ⟨[], by rw [hfree]; exact .nil⟩, ⟨fun i l hl => ?_, fun i l hl => ?_⟩,
    fun v hv => ?_, hpins⟩
  · have := htrie i (List.getElem?_eq_some_iff.mp hl).1
    simp only [hl, Bool.and_eq_true, decide_eq_true_eq] at this
    exact this.1
  · have := htrie i (List.getElem?_eq_some_iff.mp hl).1
    simp only [hl, Bool.and_eq_true, beq_iff_eq] at this
    exact this.2
  · have := hscopes v ((Net.live_iff _).mp hv).1
    simpa [hv] using this

/-! ## The wiring invariant -/

/-- Every net a run reaches is well wired: each port of a live node is loose or
mutually wired with a port of a live node. -/
theorem run_wired {g : Globals} (hser : g.inParallel = false) {n n' : Net} (hn : Sound n)
    (hrun : ReflTransGen (Interacts g) n n') : Wired n' :=
  (run_sound hser hn hrun).wired

/-- `(\x.x) (\x.x x)`. -/
def identityTwice : Term :=
  .app (.lam "x" (.var "x")) (.lam "x" (.app (.var "x") (.var "x")))

/-- The net `compile` makes of it. -/
def identityNet : Net := (compile identityTwice).toOption.getD netInit

theorem run_wired_identity :
    Wired (netInteract .serial identityNet ⟨1, 0⟩ ⟨2, 0⟩).2 :=
  run_wired rfl (n := identityNet) (sound_of_check (by decide)) (.single (.call _ _ (by decide)))

end LinEngine
