import LinEngine.Affine
import LinEngine.Compiled
import LinEngine.Runs

/-!
# Beta on the affine fragment

The net of an affine term has no fans, so that its layout is a tree that can be read
from ROOT. A run on function-application pairs contracts redexes of that tree or
works on garbage, and each step removes two agents.
-/
namespace LinEngine

open Lambda

namespace Term

/-- The term with the names of `Γ` in scope, the innermost first. -/
def toTm {κ : Type} : List String → Term → Tm κ
  | Γ, .var x => .var (Γ.idxOf x)
  | Γ, .lam x b => .lam (toTm (x :: Γ) b)
  | Γ, .app f a => .app (toTm Γ f) (toTm Γ a)
  | _, _ => .var 0

/-- The free occurrences of a name. -/
def occ (x : String) : Term → ℕ
  | .var y => if y = x then 1 else 0
  | .lam y b => if y = x then 0 else occ x b
  | .app f a => occ x f + occ x a
  | _ => 0

/-- Every bound variable occurs at most once. -/
def Affine : Term → Prop
  | .lam x b => occ x b ≤ 1 ∧ Affine b
  | .app f a => Affine f ∧ Affine a
  | _ => True

instance decidableAffine : (t : Term) → Decidable t.Affine
  | .lam _ b =>
    have := decidableAffine b
    inferInstanceAs (Decidable (_ ∧ _))
  | .app f a =>
    have := decidableAffine f
    have := decidableAffine a
    inferInstanceAs (Decidable (_ ∧ _))
  | .var _ => isTrue trivial
  | .tlet _ _ _ => isTrue trivial
  | .num _ => isTrue trivial
  | .float _ => isTrue trivial
  | .ref _ => isTrue trivial
  | .defn _ _ => isTrue trivial

end Term

/-! ## The layout of an affine term is a tree -/

section Layout

variable {n : Net}

/-- A variable has as many uses as the name has free occurrences. -/
lemma Laid.uses_length {Γ : List String} {t : Term} {u : ℕ → List Port} {r : Port} {ns : List ℕ}
    {ls : List Port} (h : Laid n Γ t u r ns ls) (hp : t.PureIn Γ) {i : ℕ} {x : String}
    (hx : Γ[i]? = some x) : (u i).length = if Γ.idxOf x = i then t.occ x else 0 := by
  induction h generalizing i with
  | @var Γ y p hy =>
    obtain ⟨hi, rfl⟩ := List.getElem?_eq_some_iff.mp hx
    by_cases hiy : i = Γ.idxOf y
    · subst hiy
      simp [Term.occ]
    · have hne : y ≠ Γ[i] ∨ Γ.idxOf Γ[i] ≠ i := by
        by_contra hc
        push Not at hc
        exact hiy (by rw [hc.1, hc.2])
      simp only [hiy, if_false, List.length_nil, Term.occ]
      rcases hne with h | h <;> simp [h]
  | @lam Γ y b u r ns ls v ds _ _ _ _ _ ih =>
    rw [ih hp (i := i + 1) (by simpa using hx)]
    by_cases hyx : y = x
    · simp [Term.occ, hyx]
    · simp [Term.occ, hyx, List.idxOf_cons_ne _ hyx]
  | app _ _ _ _ _ _ ihf iha =>
    rw [List.length_append, ihf hp.1 hx, iha hp.2 hx]
    split_ifs <;> simp [Term.occ]
  | _ => exact hp.elim

/-- What the layout of an affine term reads as, with the binders `B` for its scope. -/
structure TreeOf (n : Net) (B : List ℕ) (t : Tm Empty) (u : ℕ → List Port) (r : Port) (ns : List ℕ)
    (T : Tree) : Prop where
  reads : Reads n.graph (some r) T
  closed : T.ClosedIn B
  nodes : T.nodes = ns
  term : T.toTm B = t
  nodup : T.vars.Nodup
  used : ∀ v ∈ T.vars, v ∈ ns ∨ ∃ i, B[i]? = some v ∧ u i ≠ []

theorem Laid.tree {Γ : List String} {t : Term} {u : ℕ → List Port} {r : Port} {ns : List ℕ}
    {ls : List Port} (h : Laid n Γ t u r ns ls) (hp : t.PureIn Γ) (ha : t.Affine)
    (hu : ∀ i, (u i).length ≤ 1) (hn : ns.Nodup) (B : List ℕ) (hlen : B.length = Γ.length)
    (hB : B.Nodup) (hd : ∀ v ∈ B, v ∉ ns) (hbind : ∀ i v, B[i]? = some v → ∀ p ∈ u i, p = ⟨v, 1⟩) :
    ∃ T, TreeOf n B (t.toTm Γ) u r ns T := by
  induction h generalizing B with
  | @var Γ x p hx =>
    have hi : Γ.idxOf x < B.length := hlen ▸ List.idxOf_lt_length_of_mem hx
    have hget := List.getElem?_eq_getElem hi
    have hport := hbind _ _ hget p (by simp)
    refine ⟨.var B[Γ.idxOf x], by simpa [Reads] using hport, List.getElem_mem hi, rfl, ?_,
      List.nodup_singleton _, fun v hv => Or.inr ⟨Γ.idxOf x, ?_, by simp⟩⟩
    · simp only [Tree.toTm, Term.toTm, hB.idxOf_getElem]
    · rw [hget, List.mem_singleton.mp hv]
  | @lam Γ x b u r ns ls v ds hb hl ht hw hh ih =>
    have hocc := hb.uses_length hp (i := 0) (x := x) rfl
    simp only [List.idxOf_cons_self, if_true] at hocc
    have h0 : (u 0).length ≤ 1 := hocc ▸ ha.1
    -- at most one use: it hangs directly under the binder
    obtain ⟨hu0, rfl⟩ : (∀ p ∈ u 0, p = ⟨v, 1⟩) ∧ ds = [] := by
      rcases hh with ⟨h1, h2⟩ | ⟨h1, h2⟩ | ⟨d, sc, hf, -⟩
      · exact ⟨by simp [h1], h2⟩
      · exact ⟨by simp [h1], h2⟩
      · have := hf.two
        omega
    rw [List.append_nil] at hn hd ⊢
    obtain ⟨hvn, hn⟩ := List.nodup_cons.mp hn
    have hvB : v ∉ B := fun hv => hd v hv List.mem_cons_self
    obtain ⟨T, hT⟩ := ih hp ha.2 (fun i => by cases i with
      | zero => exact h0
      | succ i => exact hu i) hn (v :: B) (by simp [hlen]) (List.nodup_cons.mpr ⟨hvB, hB⟩)
      (fun w hw => by
        rcases List.mem_cons.mp hw with rfl | hw
        · exact hvn
        · exact fun hmem => hd w hw (List.mem_cons_of_mem _ hmem))
      (fun i w hw p hp => by cases i with
        | zero =>
          simp only [List.getElem?_cons_zero, Option.some.injEq] at hw
          exact hw ▸ hu0 p hp
        | succ i => exact hbind i w (by simpa using hw) p hp)
    refine ⟨.lam v T, ⟨rfl, hl, ht, ?_⟩, hT.closed, by rw [Tree.nodes, hT.nodes],
      by simp only [Tree.toTm, Term.toTm, hT.term], hT.nodup, fun w hw => ?_⟩
    · have hr := hT.reads
      rwa [← hw] at hr
    · rcases hT.used w hw with h | ⟨i, hi, hne⟩
      · exact Or.inl (List.mem_cons_of_mem _ h)
      · cases i with
        | zero =>
          simp only [List.getElem?_cons_zero, Option.some.injEq] at hi
          exact Or.inl (hi ▸ List.mem_cons_self)
        | succ i => exact Or.inr ⟨i, by simpa using hi, hne⟩
  | @app Γ f a u u' r r' ns ns' ls ls' v _ _ hl ht hw hw' ihf iha =>
    obtain ⟨hvn, hn⟩ := List.nodup_cons.mp hn
    obtain ⟨hnf, hna, hdis⟩ := List.nodup_append.mp hn
    have hlen' : ∀ i, (u i).length + (u' i).length ≤ 1 := fun i => by
      have := hu i
      rwa [List.length_append] at this
    obtain ⟨F, hF⟩ := ihf hp.1 ha.1 (fun i => by have := hlen' i; omega) hnf B hlen hB
      (fun w hw hmem => hd w hw (by simp [hmem])) fun i w hw p hp =>
        hbind i w hw p (List.mem_append_left _ hp)
    obtain ⟨A, hA⟩ := iha hp.2 ha.2 (fun i => by have := hlen' i; omega) hna B hlen hB
      (fun w hw hmem => hd w hw (by simp [hmem])) fun i w hw p hp =>
        hbind i w hw p (List.mem_append_right _ hp)
    refine ⟨.app v F A, ⟨rfl, hl, ht, ?_, ?_⟩, ⟨hF.closed, hA.closed⟩,
      by rw [Tree.nodes, hF.nodes, hA.nodes], by simp only [Tree.toTm, Term.toTm, hF.term, hA.term],
      List.nodup_append.mpr ⟨hF.nodup, hA.nodup, fun w hw w' hw' he => ?_⟩, fun w hw => ?_⟩
    · have hr := hF.reads
      rwa [← hw] at hr
    · have hr := hA.reads
      rwa [← hw'] at hr
    · -- a variable on both sides would have two uses
      subst he
      rcases hF.used w hw with h | ⟨i, hi, hne⟩ <;> rcases hA.used w hw' with h' | ⟨j, hj, hne'⟩
      · exact hdis w h w h' rfl
      · exact hd w (List.mem_of_getElem? hj) (by simp [h])
      · exact hd w (List.mem_of_getElem? hi) (by simp [h'])
      · obtain ⟨hil, he⟩ := List.getElem?_eq_some_iff.mp hi
        obtain ⟨hjl, he'⟩ := List.getElem?_eq_some_iff.mp hj
        obtain rfl := hB.getElem_inj_iff.mp (he.trans he'.symm)
        have h1 := List.length_pos_iff.mpr hne
        have h2 := List.length_pos_iff.mpr hne'
        have := hlen' i
        omega
    · rcases List.mem_append.mp hw with hw | hw
      · rcases hF.used w hw with h | ⟨i, hi, hne⟩
        · exact Or.inl (by simp [h])
        · exact Or.inr ⟨i, hi, by simp [hne]⟩
      · rcases hA.used w hw with h | ⟨i, hi, hne⟩
        · exact Or.inl (by simp [h])
        · exact Or.inr ⟨i, hi, by simp [hne]⟩
  | _ => exact hp.elim

/-- The net of a closed affine term reads as the term. -/
theorem CompiledNet.readsRoot {t : Term} {r : Port} {ns : List ℕ} {ls : List Port}
    (h : CompiledNet t n r ns ls) (hp : t.PureIn []) (ha : t.Affine) :
    ∃ T, ReadsRoot n.graph T ∧ T.toTm [] = (t.toTm [] : Tm Empty) := by
  obtain ⟨T, hT⟩ := h.laid.tree hp ha (by simp) (List.nodup_cons.mp h.nodup).2 [] rfl
    List.nodup_nil (by simp) (by simp)
  refine ⟨T, ⟨(h.live 0).mpr List.mem_cons_self, h.root, ?_, hT.closed, ?_, hT.nodup, by simp⟩, hT.term⟩
  · have hr := hT.reads
    rwa [← h.wire] at hr
  · rw [hT.nodes]
    exact (List.nodup_cons.mp h.nodup).2

end Layout

/-! ## Runs on function-application pairs -/

/-- One call on a live function-application pair, in either order. -/
inductive Applies (g : Globals) (n : Net) : Net → Prop
  | call (p q : Port) : redexLive n p q = true →
      n.tag.get p.node = .lam ∧ n.tag.get q.node = .app ∨
        n.tag.get p.node = .app ∧ n.tag.get q.node = .lam → Applies g n (netInteract g n p q).2

/-- No live function-application pair is left. -/
def AppHalted (n : Net) : Prop :=
  ∀ p q, redexLive n p q = true → n.tag.get p.node = .lam → n.tag.get q.node ≠ .app

/-- The live nodes of a net. -/
def Net.liveNodes (n : Net) : Finset ℕ := (Finset.range n.nn).filter fun v => n.live v = true

section Runs

variable {g : Globals} {n n' : Net}

lemma Net.mem_liveNodes {v : ℕ} : v ∈ n.liveNodes ↔ n.live v = true := by
  rw [Net.liveNodes, Finset.mem_filter, Finset.mem_range]
  exact and_iff_right_of_imp Net.live_lt

/-- A call on a function-application pair is an application of the graph. -/
lemma Applies.annihilates (hser : g.inParallel = false) (hn : Sound n) (h : Applies g n n') :
    Sound n' ∧ ∃ a b, n.graph.Facing a b ∧ n.graph.tag a = .lam ∧ n.graph.tag b = .app ∧
      Annihilates swapped a b n.graph n'.graph := by
  obtain ⟨p, q, hl, htags⟩ := h
  have hfire : fireable (n.tag.get p.node) (n.tag.get q.node) = true := by
    rcases htags with ⟨h1, h2⟩ | ⟨h1, h2⟩ <;> rw [h1, h2] <;> rfl
  have hspec := netInteract_spec hser hn hl (by rwa [netInteract_fst])
  have hface := (redexLive_facing hn.wired hl).1.sortPair (n.tag.get p.node) (n.tag.get q.node)
  refine ⟨hspec.2, _, _, hface, ?_⟩
  have hs := hspec.1
  rcases htags with ⟨h1, h2⟩ | ⟨h1, h2⟩ <;>
  · simp only [h1, h2, sortPair, Tag.rank] at hs ⊢
    norm_num at hs ⊢
    refine ⟨by simpa [Net.graph] using by assumption, by simpa [Net.graph] using by assumption, ?_⟩
    cases hs with
    | beta _ _ h => exact h
    | annihilate h => simp [Net.graph, h1, h2] at h
    | commute c _ h => simp [Net.graph, h1, h2] at h

/-- Each step removes the two agents of its pair at least. -/
lemma Applies.shrinks (hser : g.inParallel = false) (hn : Sound n) (h : Applies g n n') :
    n'.liveNodes.card + 2 ≤ n.liveNodes.card := by
  obtain ⟨-, a, b, hf, -, -, hann⟩ := h.annihilates hser hn
  have hsub : n'.liveNodes ⊆ (n.liveNodes.erase a).erase b := fun v hv => by
    obtain ⟨h1, h2, h3, -⟩ := (hann.live v).mp (Net.mem_liveNodes.mp hv)
    rw [Finset.mem_erase, Finset.mem_erase, Net.mem_liveNodes]
    exact ⟨h3, h2, h1⟩
  have ha : a ∈ n.liveNodes := Net.mem_liveNodes.mpr hf.liveL
  have hb : b ∈ n.liveNodes.erase a := Finset.mem_erase.mpr ⟨Ne.symm hf.ne,
    Net.mem_liveNodes.mpr hf.liveR⟩
  have h1 := Finset.card_le_card hsub
  have h2 := Finset.card_erase_add_one hb
  have h3 := Finset.card_erase_add_one ha
  omega

/-- A run from a net that reads as a tree. -/
theorem applies_run (hser : g.inParallel = false) {T : Tree} (hn : Sound n)
    (hT : ReadsRoot n.graph T) {k : ℕ} (hrun : InSteps (Applies g) n k n') :
    Sound n' ∧ n'.liveNodes.card + 2 * k ≤ n.liveNodes.card ∧ ∃ T', ReadsRoot n'.graph T' ∧
      ∃ j ≤ k, InSteps Tm.Beta (T.toTm [] : Tm Empty) j (T'.toTm []) := by
  induction hrun with
  | refl => exact ⟨hn, le_rfl, T, hT, 0, le_rfl, .refl⟩
  | @tail k n₁ n₂ _ hstep ih =>
    obtain ⟨hn₁, hcard, T₁, hT₁, j, hj, hred⟩ := ih
    obtain ⟨hn₂, a, b, hf, ha, hb, hann⟩ := hstep.annihilates hser hn₁
    have hshrink := hstep.shrinks hser hn₁
    have hw : n₁.graph.Wired := hn₁.wired
    obtain ⟨T₂, hT₂, hbeta⟩ := hT₁.step hw hf ha hb hann
    refine ⟨hn₂, by omega, T₂, hT₂, ?_⟩
    rcases hbeta with rfl | hbeta
    · exact ⟨j, by omega, hred⟩
    · exact ⟨j + 1, by omega, hred.tail (hbeta Empty)⟩

/-- A halted net reads as a normal term. -/
lemma AppHalted.normal {κ : Type} {T : Tree} (hn : Sound n) (hT : ReadsRoot n.graph T)
    (h : AppHalted n) : (T.toTm [] : Tm κ).normal = true := by
  have hw : n.graph.Wired := hn.wired
  refine hT.normal hw fun u v hf ht => ?_
  exact h ⟨u, 0⟩ ⟨v, 0⟩ (redexLive_of_facing hf rfl rfl) ht

/-- Beta on the affine fragment. After `k` calls on function-application pairs, in any order,
one tree is read from ROOT, a reduct of the term in at most `k` steps; `k` is at most half the
number of agents the term compiles to; and without such pairs the tree is the normal form. -/
theorem affine_beta (hser : g.inParallel = false) {t : Term} (hp : t.PureIn []) (ha : t.Affine) :
    ∃ n, compile t = .ok n ∧ ∀ k n', InSteps (Applies g) n k n' →
      2 * k ≤ n.liveNodes.card ∧ ∃ T, ReadsRoot n'.graph T ∧ (∀ T', ReadsRoot n'.graph T' → T' = T) ∧
        (∃ j ≤ k, InSteps Tm.Beta (t.toTm [] : Tm Empty) j (T.toTm [])) ∧
        (AppHalted n' → Tm.HasNormalForm (t.toTm [] : Tm Empty) (T.toTm [])) := by
  obtain ⟨n, r, ns, ls, hc, hnet⟩ := compile_correct (ct_pure hp)
  obtain ⟨T, hT, hterm⟩ := hnet.readsRoot hp ha
  refine ⟨n, hc, fun k n' hrun => ?_⟩
  obtain ⟨hn', hcard, T', hT', j, hj, hred⟩ := applies_run hser hnet.sound hT hrun
  rw [hterm] at hred
  exact ⟨by omega, T', hT', fun _ h => h.unique hT', ⟨j, hj, hred⟩, fun hhalt =>
    ⟨hred.reflTransGen, hhalt.normal hn' hT'⟩⟩

/-- `(\x.x) (\y.y)`. -/
theorem affine_beta_identity : ∃ n, compile (.app (.lam "x" (.var "x")) (.lam "y" (.var "y"))) = .ok n ∧
    ∀ k n', InSteps (Applies .serial) n k n' → 2 * k ≤ n.liveNodes.card ∧ ∃ T,
      ReadsRoot n'.graph T ∧ (∀ T', ReadsRoot n'.graph T' → T' = T) ∧
        (∃ j ≤ k, InSteps Tm.Beta (.app (.lam (.var 0)) (.lam (.var 0)) : Tm Empty) j (T.toTm [])) ∧
        (AppHalted n' →
          Tm.HasNormalForm (.app (.lam (.var 0)) (.lam (.var 0)) : Tm Empty) (T.toTm [])) :=
  affine_beta (t := .app (.lam "x" (.var "x")) (.lam "y" (.var "y"))) rfl (by decide) (by decide)

end Runs

end LinEngine
