import LinEngine.Build

/-!
# What the net of a term looks like

`Laid` says how a term lies in a net: which ports its uses of each variable in scope
lead to, where its value is, and which agents and loose ends it takes up. A binder
with several uses is connected to them through one fan tree, a let's value likewise.
Rewiring the uses of a variable moves a layout along.
-/
namespace LinEngine

/-- The fan tree from node `d` on, hung under `top`: its leaves are `us`. -/
structure FanAt (n : Net) (d sc : ℕ) (us : List Port) (top : Port) : Prop where
  two : 2 ≤ us.length
  leaf : us = (List.range us.length).map (fanPort d)
  node : ∀ i, i < us.length - 1 →
    n.live (d + i) = true ∧ n.tag.get (d + i) = .dup ∧ n.scope.get (d + i) = sc
  inner : ∀ i, i + 1 < us.length - 1 → n.wireAt ⟨d + i, 0⟩ = some ⟨d + (i + 1), 1⟩
  top : n.wireAt ⟨d + (us.length - 2), 0⟩ = some top

lemma Fanning.fanAt {n m : Net} {us : List Port} {sc : ℕ} {top : Port} (h : Fanning n us sc top m)
    (hn : us.Nodup) (htwo : 2 ≤ us.length) : FanAt m n.nn sc (us.map (fanMap n.nn us)) top := by
  refine ⟨by simpa using htwo, by rw [List.length_map]; exact map_fanMap hn, ?_, ?_, ?_⟩ <;>
    rw [List.length_map]
  exacts [h.node, h.inner, h.wireTop]

/-- The uses `us` hang under `top`: none, `top` itself, or the leaves of one fan tree. -/
def Hung (n : Net) (top : Port) (us : List Port) (ds : List ℕ) : Prop :=
  us = [] ∧ ds = [] ∨ us = [top] ∧ ds = [] ∨
    ∃ d sc, FanAt n d sc us top ∧ ds = List.range' d (us.length - 1)

/-- The end of a variable without uses is loose. -/
def unused (top : Port) (us : List Port) : List Port := if us = [] then [top] else []

def boolTerm (b : Bool) : Term := .lam "t" (.lam "f" (.var (if b then "t" else "f")))

/-- A bit chain as a term, the lowest bit first. -/
def scottTerm : List Bool → Term
  | [] => .lam "c" (.lam "n" (boolTerm true))
  | b :: bs => .lam "c" (.lam "n" (.app (.app (.var "c") (boolTerm b)) (scottTerm bs)))

/-- The bits a numeral is compiled to. -/
def scottBits (k : ℕ) : List Bool := (List.range (scottWidth k)).map k.testBit

/-- The term `t` in the scope `Γ` (innermost name first) lies in the net: `u i` are the
ports its uses of variable `i` lead to, `r` the port of its value, `ns` its agents and
`ls` its loose ends. -/
inductive Laid (n : Net) : List String → Term → (ℕ → List Port) → Port → List ℕ → List Port → Prop
  | var {Γ : List String} {x : String} (p : Port) : x ∈ Γ →
      Laid n Γ (.var x) (fun i => if i = Γ.idxOf x then [p] else []) p [] []
  | lam {Γ : List String} {x : String} {b : Term} {u : ℕ → List Port} {r : Port} {ns : List ℕ}
      {ls : List Port} {v : ℕ} {ds : List ℕ} :
      Laid n (x :: Γ) b u r ns ls → n.live v = true → n.tag.get v = .lam →
      n.wireAt ⟨v, 2⟩ = some r → Hung n ⟨v, 1⟩ (u 0) ds →
      Laid n Γ (.lam x b) (fun i => u (i + 1)) ⟨v, 0⟩ (v :: (ns ++ ds)) (unused ⟨v, 1⟩ (u 0) ++ ls)
  | app {Γ : List String} {f a : Term} {u u' : ℕ → List Port} {r r' : Port} {ns ns' : List ℕ}
      {ls ls' : List Port} {v : ℕ} :
      Laid n Γ f u r ns ls → Laid n Γ a u' r' ns' ls' → n.live v = true → n.tag.get v = .app →
      n.wireAt ⟨v, 0⟩ = some r → n.wireAt ⟨v, 2⟩ = some r' →
      Laid n Γ (.app f a) (fun i => u i ++ u' i) ⟨v, 1⟩ (v :: (ns ++ ns')) (ls ++ ls')
  | num {Γ : List String} {k : ℕ} {r : Port} {ns : List ℕ} {ls : List Port} :
      Laid n [] (scottTerm (scottBits (min k longMax))) (fun _ => []) r ns ls →
      Laid n Γ (.num k) (fun _ => []) r ns ls
  | defn {Γ : List String} {x : String} {b : Term} {u : ℕ → List Port} {r : Port} {ns : List ℕ}
      {ls : List Port} : Laid n Γ b u r ns ls → Laid n Γ (.defn x b) u r ns ls
  | letOuter {Γ : List String} {x : String} {w b : Term} {u u' : ℕ → List Port} {r r' : Port}
      {ns ns' : List ℕ} {ls ls' : List Port} {ds : List ℕ} :
      x ∈ Γ ∨ termRefs x w = true →
      Laid n Γ (if x ∈ Γ then w else termFix x w) u r ns ls → Laid n (x :: Γ) b u' r' ns' ls' →
      Hung n r (u' 0) ds →
      Laid n Γ (.tlet x w b) (fun i => u i ++ u' (i + 1)) r' (ns ++ (ns' ++ ds))
        (unused r (u' 0) ++ (ls ++ ls'))
  | letPlain {Γ : List String} {x : String} {w b : Term} {u u' : ℕ → List Port} {r r' : Port}
      {ns ns' : List ℕ} {ls ls' : List Port} {ds : List ℕ} :
      x ∉ Γ → termRefs x w = false →
      Laid n (x :: Γ) w u r ns ls → Laid n (x :: Γ) b u' r' ns' ls' →
      Hung n r (u 0 ++ u' 0) ds →
      Laid n Γ (.tlet x w b) (fun i => u (i + 1) ++ u' (i + 1)) r' (ns ++ (ns' ++ ds))
        (unused r (u 0 ++ u' 0) ++ (ls ++ ls'))

/-! ## Moving a layout -/

/-- Node `v` is as before, except that the ports its wires lead to were renamed. -/
structure Moves (σ : Port → Port) (n n' : Net) (v : ℕ) : Prop where
  live : n.live v = true → n'.live v = true
  tag : n'.tag.get v = n.tag.get v
  scope : n'.scope.get v = n.scope.get v
  wire : ∀ k q, n.wireAt ⟨v, k⟩ = some q → n'.wireAt ⟨v, k⟩ = some (σ q)
  fix : ∀ k, σ ⟨v, k⟩ = ⟨v, k⟩

section Move

variable {n n' : Net} {σ : Port → Port}

lemma fanPort_mem {d i m : ℕ} (hi : i < m) (hm : 2 ≤ m) :
    (fanPort d i).node ∈ List.range' d (m - 1) := by
  rw [List.mem_range'_1]
  exact ⟨fanPort_node_le d i, fanPort_node_lt hi hm⟩

lemma FanAt.move {d sc : ℕ} {us : List Port} {top : Port} (h : FanAt n d sc us top)
    (hm : ∀ v ∈ List.range' d (us.length - 1), Moves σ n n' v) :
    FanAt n' d sc (us.map σ) (σ top) := by
  have htwo := h.two
  have hmem : ∀ i, i < us.length - 1 → d + i ∈ List.range' d (us.length - 1) := fun i hi => by
    rw [List.mem_range'_1]
    omega
  have hus : us.map σ = us := by
    rw [h.leaf, List.map_map]
    refine List.map_congr_left fun i hi => ?_
    exact (hm _ (fanPort_mem (List.mem_range.mp hi) htwo)).fix _
  refine ⟨by simpa using htwo, by rw [hus]; exact h.leaf, fun i hi => ?_, fun i hi => ?_, ?_⟩
  · rw [List.length_map] at hi
    obtain ⟨h1, h2, h3⟩ := h.node i hi
    have hv := hm _ (hmem i hi)
    exact ⟨hv.live h1, hv.tag.trans h2, hv.scope.trans h3⟩
  · rw [List.length_map] at hi
    rw [(hm _ (hmem i (by omega))).wire _ _ (h.inner i hi), (hm _ (hmem (i + 1) hi)).fix]
  · rw [List.length_map]
    exact (hm _ (hmem _ (by omega))).wire _ _ h.top

lemma Hung.move {top : Port} {us : List Port} {ds : List ℕ} (h : Hung n top us ds)
    (hm : ∀ v ∈ ds, Moves σ n n' v) : Hung n' (σ top) (us.map σ) ds := by
  rcases h with ⟨rfl, rfl⟩ | ⟨rfl, rfl⟩ | ⟨d, sc, h, rfl⟩
  · exact Or.inl ⟨rfl, rfl⟩
  · exact Or.inr (Or.inl ⟨rfl, rfl⟩)
  · exact Or.inr (Or.inr ⟨d, sc, h.move hm, by rw [List.length_map]⟩)

lemma unused_map (top : Port) (us : List Port) :
    unused (σ top) (us.map σ) = (unused top us).map σ := by
  cases us <;> simp [unused]

theorem Laid.move {Γ : List String} {t : Term} {u : ℕ → List Port} {r : Port} {ns : List ℕ}
    {ls : List Port} (h : Laid n Γ t u r ns ls) (hm : ∀ v ∈ ns, Moves σ n n' v) :
    Laid n' Γ t (fun i => (u i).map σ) (σ r) ns (ls.map σ) := by
  induction h with
  | @var Γ x p hx =>
    have hu : (fun i => (if i = Γ.idxOf x then [p] else []).map σ) =
        fun i => if i = Γ.idxOf x then [σ p] else [] := by
      funext i
      split_ifs <;> rfl
    rw [hu]
    exact .var (σ p) hx
  | @lam Γ x b u r ns ls v ds _ hl ht hw hh ih =>
    simp only [List.mem_cons, List.mem_append, forall_eq_or_imp] at hm
    obtain ⟨hv, hm⟩ := hm
    have hh' := hh.move fun v hv => hm v (Or.inr hv)
    rw [hv.fix] at hh'
    rw [List.map_append, ← unused_map, hv.fix, hv.fix]
    exact .lam (ih fun v hv => hm v (Or.inl hv)) (hv.live hl) (hv.tag.trans ht)
      (hv.wire _ _ hw) hh'
  | @app Γ f a u u' r r' ns ns' ls ls' v _ _ hl ht hw hw' ihf iha =>
    simp only [List.mem_cons, List.mem_append, forall_eq_or_imp] at hm
    obtain ⟨hv, hm⟩ := hm
    simp only [List.map_append, hv.fix]
    exact .app (ihf fun v hv => hm v (Or.inl hv)) (iha fun v hv => hm v (Or.inr hv))
      (hv.live hl) (hv.tag.trans ht) (hv.wire _ _ hw) (hv.wire _ _ hw')
  | num _ ih => exact .num (ih hm)
  | defn _ ih => exact .defn (ih hm)
  | letOuter hx _ _ hh ihw ihb =>
    simp only [List.mem_append] at hm
    simp only [List.map_append, ← unused_map]
    exact .letOuter hx (ihw fun v hv => hm v (Or.inl hv)) (ihb fun v hv => hm v (Or.inr (Or.inl hv)))
      (hh.move fun v hv => hm v (Or.inr (Or.inr hv)))
  | letPlain hx hr _ _ hh ihw ihb =>
    simp only [List.mem_append] at hm
    have hh' := hh.move fun v hv => hm v (Or.inr (Or.inr hv))
    rw [List.map_append] at hh'
    simp only [List.map_append, ← unused_map]
    exact .letPlain hx hr (ihw fun v hv => hm v (Or.inl hv))
      (ihb fun v hv => hm v (Or.inr (Or.inl hv))) hh'

/-- The value of a term is one of its agents' ports or a use of a variable in scope. -/
lemma Laid.result {Γ : List String} {t : Term} {u : ℕ → List Port} {r : Port} {ns : List ℕ}
    {ls : List Port} (h : Laid n Γ t u r ns ls) : r.node ∈ ns ∨ ∃ i, r ∈ u i := by
  have hung : ∀ {top r : Port} {us : List Port} {ds : List ℕ}, Hung n top us ds → r ∈ us →
      r = top ∨ r.node ∈ ds := by
    rintro top r us ds (⟨rfl, -⟩ | ⟨rfl, -⟩ | ⟨d, sc, h, rfl⟩) hr
    · simp at hr
    · exact Or.inl (List.mem_singleton.mp hr)
    · rw [h.leaf, List.mem_map] at hr
      obtain ⟨i, hi, rfl⟩ := hr
      exact Or.inr (fanPort_mem (List.mem_range.mp hi) h.two)
  induction h with
  | @var Γ x p hx => exact Or.inr ⟨Γ.idxOf x, by simp⟩
  | lam => exact Or.inl List.mem_cons_self
  | app => exact Or.inl List.mem_cons_self
  | num _ ih => exact Or.inl (ih.resolve_right (by simp))
  | defn _ ih => exact ih
  | @letOuter Γ x w b u u' r r' ns ns' ls ls' ds hx hw hb hh ihw ihb =>
    simp only [List.mem_append]
    rcases ihb with hb | ⟨i, hi⟩
    · exact Or.inl (Or.inr (Or.inl hb))
    · cases i with
      | zero =>
        rcases hung hh hi with rfl | hd
        · exact ihw.imp Or.inl fun ⟨i, hi⟩ => ⟨i, Or.inl hi⟩
        · exact Or.inl (Or.inr (Or.inr hd))
      | succ i => exact Or.inr ⟨i, Or.inr hi⟩
  | @letPlain Γ x w b u u' r r' ns ns' ls ls' ds hx hr hw hb hh ihw ihb =>
    simp only [List.mem_append]
    rcases ihb with hb | ⟨i, hi⟩
    · exact Or.inl (Or.inr (Or.inl hb))
    · cases i with
      | succ i => exact Or.inr ⟨i, Or.inr hi⟩
      | zero =>
        rcases hh with ⟨h0, -⟩ | ⟨h1, -⟩ | ⟨d, sc, h, rfl⟩
        · simp [(List.append_eq_nil_iff.mp h0).2] at hi
        · -- the only use is the value of the body, so the value of the let does not use it
          obtain ⟨hu, hu'⟩ : u 0 = [] ∧ u' 0 = [r] := by
            rcases List.append_eq_cons_iff.mp h1 with h | ⟨us, -, h⟩
            · exact h
            · simp [(List.append_eq_nil_iff.mp h.symm).2] at hi
          rw [hu', List.mem_singleton] at hi
          rw [hi]
          rcases ihw with h | ⟨i, hi⟩
          · exact Or.inl (Or.inl h)
          · cases i with
            | zero => simp [hu] at hi
            | succ i => exact Or.inr ⟨i, Or.inl hi⟩
        · have hmem : r' ∈ u 0 ++ u' 0 := List.mem_append_right _ hi
          rw [h.leaf, List.mem_map] at hmem
          obtain ⟨j, hj, rfl⟩ := hmem
          exact Or.inl (Or.inr (Or.inr (fanPort_mem (List.mem_range.mp hj) h.two)))

/-- The agents of a layout are live and not placeholders. -/
lemma Laid.agents {Γ : List String} {t : Term} {u : ℕ → List Port} {r : Port} {ns : List ℕ}
    {ls : List Port} (h : Laid n Γ t u r ns ls) :
    ∀ v ∈ ns, n.live v = true ∧ n.tag.get v ≠ .era := by
  have hung : ∀ {top : Port} {us : List Port} {ds : List ℕ}, Hung n top us ds →
      ∀ v ∈ ds, n.live v = true ∧ n.tag.get v ≠ .era := by
    rintro top us ds (⟨-, rfl⟩ | ⟨-, rfl⟩ | ⟨d, sc, h, rfl⟩) v hv
    · simp at hv
    · simp at hv
    · rw [List.mem_range'_1] at hv
      obtain ⟨h1, h2, -⟩ := h.node (v - d) (by omega)
      rw [show d + (v - d) = v by omega] at h1 h2
      simp [h1, h2]
  induction h with
  | var p hx => simp
  | lam _ hl ht _ hh ih =>
    simp only [List.mem_cons, List.mem_append, forall_eq_or_imp]
    exact ⟨by simp [hl, ht], fun v hv => hv.elim (ih v) (hung hh v)⟩
  | app _ _ hl ht _ _ ihf iha =>
    simp only [List.mem_cons, List.mem_append, forall_eq_or_imp]
    exact ⟨by simp [hl, ht], fun v hv => hv.elim (ihf v) (iha v)⟩
  | num _ ih => exact ih
  | defn _ ih => exact ih
  | letOuter _ _ _ hh ihw ihb =>
    simp only [List.mem_append]
    exact fun v hv => hv.elim (ihw v) fun hv => hv.elim (ihb v) (hung hh v)
  | letPlain _ _ _ _ hh ihw ihb =>
    simp only [List.mem_append]
    exact fun v hv => hv.elim (ihw v) fun hv => hv.elim (ihb v) (hung hh v)

lemma Laid.tag {Γ : List String} {t : Term} {u : ℕ → List Port} {r : Port} {ns : List ℕ}
    {ls : List Port} (h : Laid n Γ t u r ns ls) : ∀ v ∈ ns, n.tag.get v ≠ .era :=
  fun v hv => (h.agents v hv).2

lemma Laid.live {Γ : List String} {t : Term} {u : ℕ → List Port} {r : Port} {ns : List ℕ}
    {ls : List Port} (h : Laid n Γ t u r ns ls) : ∀ v ∈ ns, n.live v = true :=
  fun v hv => (h.agents v hv).1

/-! ## Wires that stay -/

/-- Nodes stay, and so do the wires there are. -/
structure Keeps (n n' : Net) : Prop where
  later : Later n n'
  wire : ∀ p q : Port, p.node < n.nn → n.wireAt p = some q → n'.wireAt p = some q

lemma Keeps.trans {n n' n'' : Net} (h : Keeps n n') (h' : Keeps n' n'') : Keeps n n'' :=
  ⟨h.later.trans h'.later, fun p q hp hw =>
    h'.wire p q (hp.trans_le h.later.nn) (h.wire p q hp hw)⟩

lemma Keeps.moves (h : Keeps n n') {v : ℕ} (hv : v < n.nn) : Moves id n n' v :=
  ⟨fun hl => (h.later.live v hv).trans hl, h.later.tag v hv, h.later.scope v hv,
    fun k q hq => h.wire ⟨v, k⟩ q hv hq, fun _ => rfl⟩

/-- A layout is not disturbed by what is built later. -/
lemma Laid.keep {Γ : List String} {t : Term} {u : ℕ → List Port} {r : Port} {ns : List ℕ}
    {ls : List Port} (h : Laid n Γ t u r ns ls) (hk : Keeps n n') (hns : ∀ v ∈ ns, v < n.nn) :
    Laid n' Γ t u r ns ls := by
  have hm := h.move fun v hv => hk.moves (hns v hv)
  simpa using hm

end Move

end LinEngine
