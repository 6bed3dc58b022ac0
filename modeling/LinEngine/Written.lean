import LinEngine.AffineRuns
import LinEngine.Rereading

/-!
# What the printer writes

A tree in the net, its occurrences connected to their binders through fans, is written by
`print_struct` as the text of the term that it stands for, without a mark. The net that a
normal term compiles to holds such a tree, and so does the net at the end of an affine run.
-/
namespace LinEngine

open Lambda Printing

/-! ## Trees with fans -/

/-- From a port through the fans `ds` to the binder port of `v`. -/
inductive Hops (n : Net) (v : ℕ) : Port → List ℕ → Prop
  | here : n.live v = true → n.tag.get v = .lam → Hops n v ⟨v, 1⟩ []
  | fan {d : ℕ} {k : Fin 3} {q : Port} {ds : List ℕ} : n.live d = true → n.tag.get d = .dup → k ≠ 0 →
      n.wireAt ⟨d, 0⟩ = some q → Hops n v q ds → d ∉ ds → Hops n v ⟨d, k⟩ (d :: ds)

/-- The value that arrives at a port is the tree `T`, its occurrences behind fans. -/
def Displays (n : Net) : Option Port → Tree → Prop
  | X, .var v => ∃ p ds, X = some p ∧ Hops n v p ds
  | X, .lam v s => X = some ⟨v, 0⟩ ∧ n.live v = true ∧ n.tag.get v = .lam ∧ Displays n (n.wireAt ⟨v, 2⟩) s
  | X, .app v f x => X = some ⟨v, 1⟩ ∧ n.live v = true ∧ n.tag.get v = .app ∧
      Displays n (n.wireAt ⟨v, 0⟩) f ∧ Displays n (n.wireAt ⟨v, 2⟩) x

/-- The binders of a tree in the scope of `d` others, each with its depth. -/
def Tree.depths : ℕ → Tree → List (ℕ × ℕ)
  | _, .var _ => []
  | d, .lam v b => (v, d) :: depths (d + 1) b
  | d, .app _ f a => depths d f ++ depths d a

section Print

variable {n : Net} {v w : ℕ} {p : Port} {ds ds' : List ℕ}

lemma Hops.unique (h : Hops n v p ds) (h' : Hops n w p ds') : v = w := by
  induction h generalizing ds' with
  | here _ ht =>
    cases h' with
    | here => rfl
    | fan _ ht' => rw [ht] at ht'; cases ht'
  | fan _ ht _ hq _ _ ih =>
    cases h' with
    | here _ ht' => rw [ht] at ht'; cases ht'
    | fan _ _ _ hq' h' => exact ih (Option.some.inj (hq.symm.trans hq') ▸ h')

lemma Hops.fans (h : Hops n v p ds) : ∀ d ∈ ds, n.tag.get d = .dup := by
  induction h with
  | here => simp
  | fan _ ht _ _ _ _ ih => exact List.forall_mem_cons.mpr ⟨ht, ih⟩

lemma Tree.depths_sublist (d : ℕ) (T : Tree) : ((T.depths d).map Prod.fst).Sublist T.nodes := by
  induction T generalizing d with
  | var v => exact List.Sublist.refl _
  | lam v b ih => exact (ih (d + 1)).cons_cons v
  | app v f a ihf iha =>
    rw [depths, List.map_append]
    exact ((ihf d).append (iha d)).cons v

/-- A function of the keys of a list. -/
lemma exists_of_keys {l : List (ℕ × ℕ)} (h : (l.map Prod.fst).Nodup) : ∃ δ : ℕ → ℕ, ∀ e ∈ l, δ e.1 = e.2 := by
  induction l with
  | nil => exact ⟨id, by simp⟩
  | cons e l ih =>
    obtain ⟨he, hl⟩ := List.nodup_cons.mp h
    obtain ⟨δ, hδ⟩ := ih hl
    refine ⟨Function.update δ e.1 e.2, List.forall_mem_cons.mpr ⟨Function.update_self .., fun e' he' => ?_⟩⟩
    have hne : e'.1 ≠ e.1 := fun h' => he (h' ▸ List.mem_map_of_mem he')
    rw [Function.update_of_ne hne, hδ e' he']

/-! ## The walk of the printer -/

/-- No decoder takes a port of the net for a value. -/
structure Printing.Decoders.Silent (D : Decoders) (n : Net) : Prop where
  box : ∀ p : Port, n.live p.node = true → D.box p = none
  decode : ∀ p : Port, n.live p.node = true → ∀ d, D.decode p d = none
  valueAny : ∀ p : Port, n.live p.node = true → D.valueAny p = none

variable {D : Decoders} {dom : Option ℕ}

/-- The printer arrives at a live port where it is. -/
lemma arrive_live (hD : D.Silent n) (hl : n.live p.node = true) (dom : Option ℕ) :
    arrive D n (some p) dom =
      if n.tag.get p.node = .lam ∧ p.port = 1 then .occurs p.node else .node ⟨p, dom, false⟩ := by
  obtain ⟨hin, hdead⟩ : n.inNet p.node = true ∧ n.dead.get p.node = false := by
    simpa [Net.live] using hl
  have hlt : p.node < n.nn := of_decide_eq_true hin
  have haim : aim n p = some p := by
    unfold aim netForceVal
    have hnot : ¬ (n.nn = 0 ∨ n.nn ≤ p.node) := by omega
    simp [StateT.run_bind, hnot, hdead]
  have hfilter : (some p).filter (fun p => n.inNet p.node) = some p := by simp [Option.filter, hin]
  unfold arrive
  simp only [hfilter, hD.box p hl, haim, hdead, Bool.false_eq_true, if_false]

/-- The places of a tree: its nodes are apart from those in progress, which hold the binders
in scope and no fan. -/
structure Ahead (n : Net) (c : Place) (ns : List ℕ) : Prop where
  ok : c.Ok n
  nofan : ∀ v ∈ c.vis, n.tag.get v ≠ .dup
  scope : ∀ v ∈ c.st, v ∈ c.vis
  apart : ∀ v ∈ ns, v ∉ c.vis

/-- What the memo holds: the name of the binder for a port of a fan, and else a port of a node that is done. -/
def Noted (n : Net) (δ : ℕ → ℕ) (done : List ℕ) (s : Printer) : Prop :=
  ∀ p e, s.memo p = some e →
    (∃ v ds, Hops n v p ds ∧ e.text = binderName (δ v)) ∨ n.tag.get p.node ≠ .dup ∧ p.node ∈ done

variable {δ : ℕ → ℕ} {done : List ℕ} {memo : Bool} {s : Printer}

lemma Noted.mono {done' : List ℕ} (h : Noted n δ done s) (hd : ∀ v ∈ done, v ∈ done') : Noted n δ done' s :=
  fun p e hp => (h p e hp).imp id fun hdone => ⟨hdone.1, hd _ hdone.2⟩

/-- The text of a port is remembered. -/
lemma Noted.store (h : Noted n δ done s) {q : ℕ} {x : Item} {c : Place} {text : List Char}
    (hx : (∃ v ds, Hops n v x.port ds ∧ text = binderName (δ v)) ∨ n.tag.get x.port.node ≠ .dup ∧ x.port.node ∈ done) :
    Noted n δ done (s.store q x c text) := by
  unfold Printer.store
  split_ifs
  · intro p e hp
    by_cases hpx : p = x.port
    · subst hpx
      obtain rfl : (⟨text, c.st.length, x, c⟩ : Entry) = e := by simpa using hp
      exact hx
    · exact h p e (by simpa [Function.update_of_ne hpx] using hp)
  · exact h

/-- What a walk comes to: its text, no mark, and what the memo holds then. -/
structure Wrote (n : Net) (δ : ℕ → ℕ) (done : List ℕ) (s : Printer) (text : List Char) (r : List Char × Printer) :
    Prop where
  text : r.1 = text
  qmarks : r.2.qmarks = s.qmarks
  dmarks : r.2.dmarks = s.dmarks
  noted : Noted n δ done r.2

/-- What the printer makes of a view, from what it makes of the ports below. -/
def Printing.View.write (rec : Option Port → Option ℕ → List ℕ → List ℕ → Printer → List Char × Printer) (v : ℕ)
    (vis st : List ℕ) (s : Printer) : View → List Char × Printer
  | .erased => (['_'], s)
  | .text t => (t, s)
  | .wrap q dom => rec q dom (v :: vis) st s
  | .apply f a =>
    let r := rec f none (v :: vis) st s
    let r' := rec a none (v :: vis) st r.2
    (['('] ++ r.1 ++ [' '] ++ r'.1 ++ [')'], r'.2)
  | .binder b =>
    let r := rec b none (v :: vis) (v :: st) s
    (['(', '\\'] ++ binderName st.length ++ [' '] ++ r.1 ++ [')'], r.2)

/-- At a node that is not in progress a text is replayed or made of the view. -/
lemma printPort_node {q : Option Port} {x : Item} {left : ℕ} {vis st : List ℕ} (harr : arrive D n q dom = .node x)
    (hvis : x.port.node ∉ vis) :
    (∃ e rs, s.memo x.port = some e ∧
      printPort D n memo (left + 1) q dom vis st s = (e.text, { s with replays := rs })) ∨
    ∃ r, r = (view D n x).write (printPort D n memo left) x.port.node vis st s ∧
      printPort D n memo (left + 1) q dom vis st s =
        (r.1, if memo then r.2.store s.qmarks x ⟨left, vis, st⟩ r.1 else r.2) := by
  unfold printPort
  rw [harr]
  dsimp only
  cases hhit : (if memo then s.hit x.port st.length else none) with
  | some e =>
    refine .inl ⟨e, _, ?_, rfl⟩
    split_ifs at hhit
    exact (Option.filter_eq_some_iff.mp hhit).1
  | none =>
    refine .inr ⟨_, rfl, ?_⟩
    dsimp only
    rw [if_neg hvis]
    cases view D n x <;> rfl

/-- The walk over a node, from the walks below it. -/
lemma Wrote.node {q : Option Port} {x : Item} {left : ℕ} {vis st : List ℕ} {text : List Char}
    (harr : arrive D n q dom = .node x) (hvis : x.port.node ∉ vis)
    (hmemo : ∀ e, s.memo x.port = some e → e.text = text) (hs : Noted n δ done s)
    (hx : (∃ v ds, Hops n v x.port ds ∧ text = binderName (δ v)) ∨ n.tag.get x.port.node ≠ .dup ∧ x.port.node ∈ done)
    (hview : Wrote n δ done s text ((view D n x).write (printPort D n memo left) x.port.node vis st s)) :
    Wrote n δ done s text (printPort D n memo (left + 1) q dom vis st s) := by
  rcases printPort_node harr hvis with
    ⟨e, rs, he, hrun⟩ | ⟨r, hr, hrun⟩
  · rw [hrun]
    exact ⟨hmemo e he, rfl, rfl, hs⟩
  · rw [hrun]
    obtain ⟨htext, hq, hd, hnoted⟩ := hr ▸ hview
    refine ⟨htext, ?_, ?_, ?_⟩
    · cases memo
      · exact hq
      · simpa [Printer.store, apply_ite Printer.qmarks] using hq
    · cases memo
      · exact hd
      · simpa [Printer.store, apply_ite Printer.dmarks] using hd
    · cases memo
      · exact hnoted
      · exact hnoted.store (htext.symm ▸ hx)

/-- The stack has the names that `δ` gives. -/
lemma ppLookup_eq {st : List ℕ} (hv : v ∈ st) : ppLookup v st = some (binderName (st.length - 1 - st.idxOf v)) := by
  induction st with
  | nil => cases hv
  | cons w st ih =>
    by_cases hw : w = v
    · subst hw
      simp [ppLookup]
    · have hv' : v ∈ st := (List.mem_cons.mp hv).resolve_left (Ne.symm hw)
      have hlt := List.idxOf_lt_length_of_mem hv'
      rw [ppLookup, if_neg hw, ih hv', List.idxOf_cons_ne _ hw, List.length_cons]
      congr 2
      omega

/-- The walk from an occurrence through its fans. -/
lemma Hops.wrote (hD : D.Silent n) (h : Hops n v p ds) {left : ℕ} {vis st : List ℕ} (hok : Place.Ok n ⟨left, vis, st⟩)
    (hds : ∀ d ∈ ds, d ∉ vis) (hv : v ∈ st) (hδ : δ v = st.length - 1 - st.idxOf v) (hs : Noted n δ done s) :
    Wrote n δ done s (binderName (δ v)) (printPort D n memo (left + 1) (some p) dom vis st s) := by
  induction h generalizing left vis s dom with
  | here hl ht =>
    have harr : arrive D n (some ⟨v, 1⟩) dom = .occurs v := by
      rw [arrive_live hD hl, if_pos ⟨ht, rfl⟩]
    unfold printPort
    rw [harr]
    simp only [ppLookup_eq hv, ← hδ]
    exact ⟨rfl, rfl, rfl, hs⟩
  | @fan d k q ds hl ht hk hq hh hnot ih =>
    have harr : arrive D n (some ⟨d, k⟩) dom = .node ⟨⟨d, k⟩, dom, false⟩ := by
      rw [arrive_live hD hl, if_neg (by simp [ht])]
    obtain ⟨hd, hds⟩ := List.forall_mem_cons.mp hds
    have hhops : Hops n v ⟨d, k⟩ (d :: ds) := .fan hl ht hk hq hh hnot
    have hview : view D n ⟨⟨d, k⟩, dom, false⟩ = .wrap (some q) dom := by
      simp [view, ht, hk, hq]
    refine .node harr hd (fun e he => ?_) hs (.inl ⟨v, _, hhops, rfl⟩) ?_
    · rcases hs _ _ he with ⟨w, _, hw, htext⟩ | ⟨hndup, -⟩
      · rw [htext, hw.unique hhops]
      · exact absurd ht hndup
    · obtain ⟨left', rfl, hok'⟩ := hok.push (Net.live_lt hl) hd st
      rw [hview]
      exact ih hok' (fun w hw => by
        rintro hmem
        rcases List.mem_cons.mp hmem with rfl | hmem
        · exact hnot hw
        · exact hds w hw hmem) hs

/-- Only an occurrence or a port of a fan leads to a binder port. -/
lemma Hops.not_node (h : Hops n v p ds) (hn : n.tag.get p.node = .lam ∧ p.port = 0 ∨ n.tag.get p.node = .app) : False := by
  cases h with
  | here _ ht =>
    rcases hn with ⟨-, hp⟩ | ha
    · cases hp
    · rw [ht] at ha
      cases ha
  | fan _ ht => simp [ht] at hn

/-- The memo has nothing for a node of the tree. -/
lemma Noted.absent (hs : Noted n δ done s) (hn : n.tag.get p.node = .lam ∧ p.port = 0 ∨ n.tag.get p.node = .app)
    (hp : p.node ∉ done) (e : Entry) : s.memo p ≠ some e := by
  intro he
  rcases hs p e he with ⟨v, ds, hh, -⟩ | ⟨-, hdone⟩
  · exact hh.not_node hn
  · exact hp hdone

lemma valueAt_silent (hD : D.Silent n) {x : Item} (hl : n.live x.port.node = true) : valueAt D x = none := by
  obtain ⟨p, dom, boxed⟩ := x
  cases dom <;> simp [valueAt, hD.decode p hl, hD.valueAny p hl]

/-- One node further down, with a binder on the stack or without. -/
lemma Ahead.push {left : ℕ} {vis st ns : List ℕ} (h : Ahead n ⟨left, vis, st⟩ (v :: ns)) (hl : n.live v = true)
    (ht : n.tag.get v ≠ .dup) (hnodup : (v :: ns).Nodup) (ns' : List ℕ) (hsub : ns' ⊆ ns) (bs : List ℕ)
    (hbs : bs ⊆ [v]) :
    ∃ left', left = left' + 1 ∧ Ahead n ⟨left', v :: vis, bs ++ st⟩ ns' := by
  obtain ⟨hv, hns⟩ := List.forall_mem_cons.mp h.apart
  obtain ⟨left', rfl, hok⟩ := h.ok.push (Net.live_lt hl) hv (bs ++ st)
  refine ⟨left', rfl, hok, List.forall_mem_cons.mpr ⟨ht, h.nofan⟩, fun w hw => ?_, fun w hw => ?_⟩
  · rcases List.mem_append.mp hw with hw | hw
    · exact List.mem_cons.mpr (.inl (List.mem_singleton.mp (hbs hw)))
    · exact List.mem_cons_of_mem _ (h.scope w hw)
  · rw [List.mem_cons, not_or]
    exact ⟨fun he => (List.nodup_cons.mp hnodup).1 (he ▸ hsub hw), hns w (hsub hw)⟩

/-- The walk over a tree. -/
theorem Displays.wrote (hD : D.Silent n) {X : Option Port} {T : Tree} (h : Displays n X T) {left : ℕ} {vis st : List ℕ}
    (hc : T.ClosedIn st) (hn : T.nodes.Nodup) (hf : Ahead n ⟨left, vis, st⟩ T.nodes)
    (hδ : ∀ e ∈ T.depths st.length, δ e.1 = e.2) (hst : ∀ v ∈ st, δ v = st.length - 1 - st.idxOf v)
    (hs : Noted n δ done s) (hdone : ∀ v ∈ T.nodes, v ∉ done) :
    Wrote n δ (done ++ T.nodes) s (spell st.length (T.toTm st)) (printPort D n memo (left + 1) X dom vis st s) := by
  induction T generalizing X left vis st s done dom with
  | var v =>
    obtain ⟨p, ds, rfl, hh⟩ := h
    have hfans : ∀ d ∈ ds, d ∉ vis := fun d hd hmem => hf.nofan d hmem (hh.fans d hd)
    have hw : Wrote n δ done s (binderName (δ v)) (printPort D n memo (left + 1) (some p) dom vis st s) :=
      hh.wrote hD hf.ok hfans hc (hst v hc) hs
    rw [hst v hc] at hw
    rw [Tree.nodes, List.append_nil]
    exact hw
  | lam v b ih =>
    obtain ⟨rfl, hl, ht, hb⟩ := h
    obtain ⟨hvd, hbd⟩ := List.forall_mem_cons.mp hdone
    obtain ⟨hvn, hbn⟩ := List.nodup_cons.mp hn
    obtain ⟨hδv, hδb⟩ := List.forall_mem_cons.mp hδ
    have harr : arrive D n (some ⟨v, 0⟩) dom = .node ⟨⟨v, 0⟩, dom, false⟩ := by
      rw [arrive_live hD hl, if_neg (by simp)]
    have hview : view D n ⟨⟨v, 0⟩, dom, false⟩ = .binder (n.wireAt ⟨v, 2⟩) := by
      simp [view, ht, valueAt_silent hD (x := ⟨⟨v, 0⟩, dom, false⟩) hl]
    have hmono : Noted n δ (done ++ (v :: b.nodes)) s := hs.mono fun w hw => List.mem_append_left _ hw
    refine .node harr (hf.apart v List.mem_cons_self) (fun e he => ?_) hmono
      (.inr ⟨by simp [ht], List.mem_append_right _ List.mem_cons_self⟩) ?_
    · exact absurd he (hs.absent (p := ⟨v, 0⟩) (.inl ⟨ht, rfl⟩) hvd e)
    · obtain ⟨left', rfl, hf'⟩ := hf.push hl (by simp [ht]) hn b.nodes (List.Subset.refl _) [v] (List.Subset.refl _)
      have hvst : v ∉ st := fun hv => hf.apart v List.mem_cons_self (hf.scope v hv)
      have hδ' : ∀ w ∈ v :: st, δ w = (v :: st).length - 1 - (v :: st).idxOf w := fun w hw => by
        rcases List.mem_cons.mp hw with rfl | hw
        · simp [hδv]
        · have hne : v ≠ w := fun he => hvst (he ▸ hw)
          have hlt := List.idxOf_lt_length_of_mem hw
          rw [hst w hw, List.idxOf_cons_ne _ hne, List.length_cons]
          omega
      have hapart : ∀ w ∈ b.nodes, w ∉ v :: done := fun w hw => by
        rw [List.mem_cons, not_or]
        exact ⟨fun he => hvn (he ▸ hw), hbd w hw⟩
      have hw : Wrote n δ (v :: done ++ b.nodes) s (spell (v :: st).length (b.toTm (v :: st)))
          (printPort D n memo (left' + 1) (n.wireAt ⟨v, 2⟩) none (v :: vis) (v :: st) s) :=
        ih hb hc hbn hf' hδb hδ' (hs.mono fun w hw => List.mem_cons_of_mem _ hw) hapart
      obtain ⟨htext, hq, hd, hnoted⟩ := hw
      rw [hview]
      refine ⟨?_, hq, hd, hnoted.mono fun w hw => ?_⟩
      · simp only [View.write, htext, Tree.toTm, spell, List.length_cons]
      · simp only [Tree.nodes, List.mem_append, List.mem_cons] at hw ⊢
        tauto
  | app v f a ihf iha =>
    obtain ⟨rfl, hl, ht, hhf, hha⟩ := h
    obtain ⟨hvd, hd⟩ := List.forall_mem_cons.mp hdone
    obtain ⟨hvn, hfa⟩ := List.nodup_cons.mp hn
    obtain ⟨hfn, han, hdis⟩ := List.nodup_append.mp hfa
    rw [Tree.depths, List.forall_mem_append] at hδ
    have harr : arrive D n (some ⟨v, 1⟩) dom = .node ⟨⟨v, 1⟩, dom, false⟩ := by
      rw [arrive_live hD hl, if_neg (by simp [ht])]
    have hview : view D n ⟨⟨v, 1⟩, dom, false⟩ = .apply (n.wireAt ⟨v, 0⟩) (n.wireAt ⟨v, 2⟩) := by
      simp [view, ht]
    have hmono : Noted n δ (done ++ (v :: (f.nodes ++ a.nodes))) s := hs.mono fun w hw => List.mem_append_left _ hw
    refine .node harr (hf.apart v List.mem_cons_self) (fun e he => ?_) hmono
      (.inr ⟨by simp [ht], List.mem_append_right _ List.mem_cons_self⟩) ?_
    · exact absurd he (hs.absent (p := ⟨v, 1⟩) (.inr ht) hvd e)
    · obtain ⟨left', rfl, hff⟩ := hf.push hl (by simp [ht]) hn f.nodes (List.subset_append_left _ _) [] (List.nil_subset _)
      obtain ⟨left'', he, hfa'⟩ := hf.push hl (by simp [ht]) hn a.nodes (List.subset_append_right _ _) [] (List.nil_subset _)
      obtain rfl : left' = left'' := Nat.succ.inj he
      have hwf : Wrote n δ (done ++ f.nodes) s (spell st.length (f.toTm st))
          (printPort D n memo (left' + 1) (n.wireAt ⟨v, 0⟩) none (v :: vis) st s) :=
        ihf hhf hc.1 hfn hff hδ.1 hst hs fun w hw => hd w (List.mem_append_left _ hw)
      obtain ⟨htf, hqf, hdf, hnf⟩ := hwf
      have hapart : ∀ w ∈ a.nodes, w ∉ done ++ f.nodes := fun w hw => by
        rw [List.mem_append, not_or]
        exact ⟨hd w (List.mem_append_right _ hw), fun hwf => hdis w hwf w hw rfl⟩
      have hwa : Wrote n δ (done ++ f.nodes ++ a.nodes) _ (spell st.length (a.toTm st))
          (printPort D n memo (left' + 1) (n.wireAt ⟨v, 2⟩) none (v :: vis) st
            (printPort D n memo (left' + 1) (n.wireAt ⟨v, 0⟩) none (v :: vis) st s).2) :=
        iha hha hc.2 han hfa' hδ.2 hst hnf hapart
      obtain ⟨hta, hqa, hda, hna⟩ := hwa
      rw [hview]
      refine ⟨?_, hqa.trans hqf, hda.trans hdf, hna.mono fun w hw => ?_⟩
      · simp only [View.write, htf, hta, Tree.toTm, spell]
      · simp only [Tree.nodes, List.mem_append, List.mem_cons] at hw ⊢
        tauto

/-- What `print_struct` writes for a closed tree. -/
theorem Displays.printStruct (hD : D.Silent n) {X : Option Port} {T : Tree} (h : Displays n X T) (hc : T.ClosedIn [])
    (hn : T.nodes.Nodup) (memo : Bool) (dom : Option ℕ) :
    (printStruct D n memo X dom).1 = spell 0 (T.toTm []) ∧ (printStruct D n memo X dom).2.qmarks = 0 ∧
      (printStruct D n memo X dom).2.dmarks = 0 := by
  obtain ⟨δ, hδ⟩ := exists_of_keys (hn.sublist (T.depths_sublist 0))
  have hfresh : Ahead n ⟨n.nn, [], []⟩ T.nodes :=
    ⟨⟨List.nodup_nil, by simp, rfl⟩, by simp, by simp, by simp⟩
  have hnoted : Noted n δ [] {} := fun p e he => by cases he
  have hw : Wrote n δ ([] ++ T.nodes) {} (spell 0 (T.toTm [])) (printPort D n memo (n.nn + 1) X dom [] [] {}) :=
    h.wrote hD hc hn hfresh hδ (by simp) hnoted (by simp)
  exact ⟨hw.text, hw.qmarks, hw.dmarks⟩

end Print

/-! ## Where such trees are -/

section Layouts

variable {n : Net}

/-- The leaves of a fan tree lead to its top. -/
lemma FanAt.hops {d sc v : ℕ} {us : List Port} (h : FanAt n d sc us ⟨v, 1⟩) (hl : n.live v = true)
    (ht : n.tag.get v = .lam) : ∀ p ∈ us, ∃ ds, Hops n v p ds := by
  have htwo := h.two
  -- from the fan at `d + i` up
  have hclimb : ∀ j i, i + j = us.length - 2 → ∀ k : Fin 3, k ≠ 0 →
      ∃ ds, Hops n v ⟨d + i, k⟩ ds ∧ ∀ w ∈ ds, d + i ≤ w := by
    intro j
    induction j with
    | zero =>
      intro i hi k hk
      obtain ⟨hli, hti, -⟩ := h.node i (by omega)
      have htop := h.top
      rw [← hi, Nat.add_zero] at htop
      exact ⟨[d + i], .fan hli hti hk htop (.here hl ht) (by simp), by simp⟩
    | succ j ih =>
      intro i hi k hk
      obtain ⟨hli, hti, -⟩ := h.node i (by omega)
      obtain ⟨ds, hh, hge⟩ := ih (i + 1) (by omega) 1 (by decide)
      have hnot : d + i ∉ ds := fun hmem => by
        have := hge _ hmem
        omega
      refine ⟨(d + i) :: ds, .fan hli hti hk (h.inner i (by omega)) hh hnot, ?_⟩
      exact List.forall_mem_cons.mpr ⟨le_rfl, fun w hw => by have := hge w hw; omega⟩
  intro p hp
  rw [h.leaf, List.mem_map] at hp
  obtain ⟨i, hi, rfl⟩ := hp
  rw [List.mem_range] at hi
  cases i with
  | zero => exact (hclimb (us.length - 2) 0 (by omega) 1 (by decide)).imp fun _ h => h.1
  | succ i => exact (hclimb (us.length - 2 - i) i (by omega) 2 (by decide)).imp fun _ h => h.1

/-- What the layout of a pure term shows, with the binders `B` for its scope. -/
structure ShownIn (n : Net) (B : List ℕ) (t : Tm Empty) (r : Port) (ns : List ℕ) (T : Tree) : Prop where
  shows : Displays n (some r) T
  closed : T.ClosedIn B
  nodes : T.nodes.Sublist ns
  term : T.toTm B = t

theorem Laid.shown {Γ : List String} {t : Term} {u : ℕ → List Port} {r : Port} {ns : List ℕ} {ls : List Port}
    (h : Laid n Γ t u r ns ls) (hp : t.PureIn Γ) (hn : ns.Nodup) (B : List ℕ) (hlen : B.length = Γ.length)
    (hB : B.Nodup) (hd : ∀ v ∈ B, v ∉ ns) (hu : ∀ i v, B[i]? = some v → ∀ p ∈ u i, ∃ ds, Hops n v p ds) :
    ∃ T, ShownIn n B (t.toTm Γ) r ns T := by
  induction h generalizing B with
  | @var Γ x p hx =>
    have hi : Γ.idxOf x < B.length := hlen ▸ List.idxOf_lt_length_of_mem hx
    obtain ⟨ds, hh⟩ := hu _ _ (List.getElem?_eq_getElem hi) p (by simp)
    exact ⟨.var B[Γ.idxOf x], ⟨p, ds, rfl, hh⟩, List.getElem_mem hi, List.Sublist.refl _,
      by simp only [Tree.toTm, Term.toTm, hB.idxOf_getElem]⟩
  | @lam Γ x b u r ns ls v ds _ hl ht hw hh ih =>
    obtain ⟨hvn, hn⟩ := List.nodup_cons.mp hn
    have hvB : v ∉ B := fun hv => hd v hv List.mem_cons_self
    have hvns : v ∉ ns := fun hv => hvn (List.mem_append_left _ hv)
    have hlead : ∀ p ∈ u 0, ∃ ds, Hops n v p ds := by
      rcases hh with ⟨he, -⟩ | ⟨he, -⟩ | ⟨d, sc, hf, -⟩
      · simp [he]
      · intro p hp
        rw [he, List.mem_singleton] at hp
        exact hp ▸ ⟨[], .here hl ht⟩
      · exact hf.hops hl ht
    obtain ⟨T, hT⟩ := ih hp (List.nodup_append.mp hn).1 (v :: B) (by simp [hlen]) (List.nodup_cons.mpr ⟨hvB, hB⟩)
      (fun w hw => by
        rcases List.mem_cons.mp hw with rfl | hw
        · exact hvns
        · exact fun hmem => hd w hw (List.mem_cons_of_mem _ (List.mem_append_left _ hmem)))
      (fun i w hw p hp => by cases i with
        | zero =>
          obtain rfl := Option.some.inj hw
          exact hlead p hp
        | succ i => exact hu i w hw p hp)
    have hshow := hT.shows
    rw [← hw] at hshow
    exact ⟨.lam v T, ⟨rfl, hl, ht, hshow⟩, hT.closed,
      (hT.nodes.trans (List.sublist_append_left _ _)).cons_cons v, by simp only [Tree.toTm, Term.toTm, hT.term]⟩
  | @app Γ f a u u' r r' ns ns' ls ls' v _ _ hl ht hw hw' ihf iha =>
    obtain ⟨hvn, hn⟩ := List.nodup_cons.mp hn
    obtain ⟨hnf, hna, -⟩ := List.nodup_append.mp hn
    obtain ⟨F, hF⟩ := ihf hp.1 hnf B hlen hB (fun w hw hmem => hd w hw (by simp [hmem]))
      fun i w hw p hp => hu i w hw p (List.mem_append_left _ hp)
    obtain ⟨A, hA⟩ := iha hp.2 hna B hlen hB (fun w hw hmem => hd w hw (by simp [hmem]))
      fun i w hw p hp => hu i w hw p (List.mem_append_right _ hp)
    have hf := hF.shows
    have ha := hA.shows
    rw [← hw] at hf
    rw [← hw'] at ha
    exact ⟨.app v F A, ⟨rfl, hl, ht, hf, ha⟩, ⟨hF.closed, hA.closed⟩, (hF.nodes.append hA.nodes).cons_cons v,
      by simp only [Tree.toTm, Term.toTm, hF.term, hA.term]⟩
  | _ => exact hp.elim

/-- The net of a closed pure term shows the term. -/
lemma CompiledNet.shown {t : Term} {r : Port} {ns : List ℕ} {ls : List Port} (h : CompiledNet t n r ns ls)
    (hp : t.PureIn []) : ∃ T, ShownIn n [] (t.toTm []) r ns T :=
  h.laid.shown hp (List.nodup_cons.mp h.nodup).2 [] rfl List.nodup_nil (by simp) (by simp)

/-- A tree without fans. -/
lemma Reads.shows {X : Option Port} {T : Tree} {Γ : List ℕ} (h : Reads n.graph X T) (hc : T.ClosedIn Γ)
    (hΓ : ∀ v ∈ Γ, n.live v = true ∧ n.tag.get v = .lam) : Displays n X T := by
  induction T generalizing X Γ with
  | var v => exact ⟨⟨v, 1⟩, [], h, .here (hΓ v hc).1 (hΓ v hc).2⟩
  | lam v b ih =>
    obtain ⟨hX, hl, ht, hb⟩ := h
    exact ⟨hX, hl, ht, ih hb hc (List.forall_mem_cons.mpr ⟨⟨hl, ht⟩, hΓ⟩)⟩
  | app v f a ihf iha =>
    obtain ⟨hX, hl, ht, hf, ha⟩ := h
    exact ⟨hX, hl, ht, ihf hf hc.1 hΓ, iha ha hc.2 hΓ⟩

/-- In the layout of a normal term no application and no fan faces a principal port, and the term's
value is at a principal port only if it is a function. -/
lemma Laid.calm {Γ : List String} {t : Term} {u : ℕ → List Port} {r : Port} {ns : List ℕ} {ls : List Port}
    (h : Laid n Γ t u r ns ls) (hp : t.PureIn Γ) (hn : (t.toTm Γ : Tm Empty).normal = true)
    (hu : ∀ i, ∀ p ∈ u i, p.port ≠ 0) :
    (∀ v ∈ ns, n.tag.get v ≠ .lam → ∃ q, n.wireAt ⟨v, 0⟩ = some q ∧ q.port ≠ 0) ∧
      (r.port = 0 → ∃ x b, t = .lam x b) := by
  induction h with
  | @var Γ x p hx => exact ⟨by simp, fun h0 => absurd h0 (hu (Γ.idxOf x) p (by simp))⟩
  | @lam Γ x b u r ns ls v ds _ hl ht hw hh ih =>
    have hus : ∀ p ∈ u 0, p.port ≠ 0 := by
      rcases hh with ⟨he, -⟩ | ⟨he, -⟩ | ⟨d, sc, hf, -⟩
      · simp [he]
      · simp [he]
      · intro p hp
        rw [hf.leaf, List.mem_map] at hp
        obtain ⟨i, -, rfl⟩ := hp
        exact fanPort_port d i
    have hfans : ∀ w ∈ ds, ∃ q, n.wireAt ⟨w, 0⟩ = some q ∧ q.port ≠ 0 := by
      rcases hh with ⟨-, rfl⟩ | ⟨-, rfl⟩ | ⟨d, sc, hf, rfl⟩
      · simp
      · simp
      · intro w hw
        obtain ⟨hdw, hwd⟩ := List.mem_range'_1.mp hw
        obtain ⟨i, rfl⟩ := Nat.exists_eq_add_of_le hdw
        by_cases hi : i + 1 < (u 0).length - 1
        · exact ⟨_, hf.inner i hi, by simp⟩
        · obtain rfl : i = (u 0).length - 2 := by omega
          exact ⟨_, hf.top, by simp⟩
    obtain ⟨hns, -⟩ := ih hp hn fun i => by cases i with
      | zero => exact hus
      | succ i => exact hu i
    refine ⟨fun w hw hnot => ?_, fun _ => ⟨x, b, rfl⟩⟩
    rcases List.mem_cons.mp hw with rfl | hw
    · exact absurd ht hnot
    · exact (List.mem_append.mp hw).elim (fun hw => hns w hw hnot) (hfans w)
  | @app Γ f a u u' r r' ns ns' ls ls' v _ _ hl ht hw hw' ihf iha =>
    obtain ⟨hnot, hnf, hna⟩ := Tm.normal_app hn
    obtain ⟨hf, hr⟩ := ihf hp.1 hnf fun i p hp => hu i p (List.mem_append_left _ hp)
    obtain ⟨ha, -⟩ := iha hp.2 hna fun i p hp => hu i p (List.mem_append_right _ hp)
    refine ⟨fun w hw'' hnl => ?_, fun h0 => by cases h0⟩
    rcases List.mem_cons.mp hw'' with rfl | hmem
    · refine ⟨r, hw, fun h0 => ?_⟩
      obtain ⟨x, b, rfl⟩ := hr h0
      exact hnot _ rfl
    · exact (List.mem_append.mp hmem).elim (fun h => hf w h hnl) fun h => ha w h hnl
  | _ => exact hp.elim

/-- Nothing fires in the net of a normal term. -/
lemma CompiledNet.calm {t : Term} {r : Port} {ns : List ℕ} {ls : List Port} (h : CompiledNet t n r ns ls)
    (hp : t.PureIn []) (hn : (t.toTm [] : Tm Empty).normal = true) (p q : Port) (hl : redexLive n p q = true) :
    fireable (n.tag.get p.node) (n.tag.get q.node) = false := by
  obtain ⟨hcalm, -⟩ := h.laid.calm hp hn (by simp)
  simp only [redexLive, Bool.and_eq_true, beq_iff_eq] at hl
  obtain ⟨⟨⟨⟨⟨hlp, hlq⟩, hp0⟩, hq0⟩, hpq⟩, hqp⟩ := hl
  -- a principal port that faces another is a function's or ROOT's
  have hside : ∀ {p q : Port}, n.live p.node = true → p.port = 0 → q.port = 0 → n.wireAt p = some q →
      n.tag.get p.node = .lam ∨ n.tag.get p.node = .root := by
    rintro ⟨v, k⟩ q hlp hp0 hq0 hpq
    obtain rfl : k = 0 := hp0
    rcases List.mem_cons.mp ((h.live v).mp hlp) with rfl | hv
    · exact .inr h.root
    · by_contra hnot
      obtain ⟨q', hq', hne⟩ := hcalm v hv fun he => hnot (.inl he)
      exact hne (Option.some.inj (hq'.symm.trans hpq) ▸ hq0)
  rcases hside hlp hp0 hq0 hpq with h₁ | h₁ <;> rcases hside hlq hq0 hp0 hqp with h₂ | h₂ <;> rw [h₁, h₂] <;> rfl

end Layouts

/-! ## The nets of affine runs -/

section Runs

variable {g : Globals} {n n' : Net}

/-- The live agents are functions and applications. -/
def Fanfree (n : Net) : Prop := ∀ v, n.live v = true → n.tag.get v = .root ∨ n.tag.get v = .lam ∨ n.tag.get v = .app

lemma Reads.tags {X : Option Port} {T : Tree} (h : Reads n.graph X T) :
    ∀ v ∈ T.nodes, n.tag.get v = .lam ∨ n.tag.get v = .app := by
  induction T generalizing X with
  | var v => simp [Tree.nodes]
  | lam v b ih => exact List.forall_mem_cons.mpr ⟨.inl h.2.2.1, ih h.2.2.2⟩
  | app v f a ihf iha =>
    obtain ⟨-, -, ht, hf, ha⟩ := h
    refine List.forall_mem_cons.mpr ⟨.inr ht, fun w hw => ?_⟩
    exact (List.mem_append.mp hw).elim (ihf hf w) (iha ha w)

/-- An affine term compiles to a net without fans. -/
lemma CompiledNet.fanfree {t : Term} {r : Port} {ns : List ℕ} {ls : List Port} (h : CompiledNet t n r ns ls)
    (hp : t.PureIn []) (ha : t.Affine) : Fanfree n := by
  obtain ⟨T, hT⟩ := h.laid.tree hp ha (by simp) (List.nodup_cons.mp h.nodup).2 [] rfl List.nodup_nil (by simp) (by simp)
  intro v hv
  rcases List.mem_cons.mp ((h.live v).mp hv) with rfl | hv
  · exact .inl h.root
  · exact .inr (hT.reads.tags v (hT.nodes.symm ▸ hv))

lemma Fanfree.run (hser : g.inParallel = false) (hn : Sound n) (h : Fanfree n) {k : ℕ}
    (hrun : InSteps (Applies g) n k n') : Sound n' ∧ Fanfree n' := by
  induction hrun with
  | refl => exact ⟨hn, h⟩
  | @tail k n₁ n₂ _ hstep ih =>
    obtain ⟨hsound, a, b, -, -, -, hann⟩ := hstep.annihilates hser ih.1
    refine ⟨hsound, fun v hv => ?_⟩
    have htag : n₂.tag.get v = n₁.tag.get v := hann.tag v hv
    exact htag ▸ ih.2 v ((hann.live v).mp hv).1

/-- Nothing fires where no application faces a function. -/
lemma Fanfree.calm (h : Fanfree n) (hhalt : AppHalted n) (p q : Port) (hl : redexLive n p q = true) :
    fireable (n.tag.get p.node) (n.tag.get q.node) = false := by
  have hlive : n.live p.node = true ∧ n.live q.node = true := by
    simp only [redexLive, Bool.and_eq_true] at hl
    exact ⟨hl.1.1.1.1.1, hl.1.1.1.1.2⟩
  have hl' : redexLive n q p = true := by
    simp only [redexLive, Bool.and_eq_true, beq_iff_eq] at hl ⊢
    tauto
  by_cases hpair : (n.tag.get p.node = .lam ∧ n.tag.get q.node = .app) ∨
      (n.tag.get p.node = .app ∧ n.tag.get q.node = .lam)
  · rcases hpair with ⟨h₁, h₂⟩ | ⟨h₁, h₂⟩
    · exact absurd h₂ (hhalt p q hl h₁)
    · exact absurd h₁ (hhalt q p hl' h₂)
  · rcases h _ hlive.1 with h₁ | h₁ | h₁ <;> rcases h _ hlive.2 with h₂ | h₂ | h₂ <;>
      simp [h₁, h₂, fireable] at hpair ⊢

end Runs

/-! ## The text of a program's value -/

section Values

variable {n : Net} {T : Tree}

lemma Tree.under {Γ : List ℕ} (h : T.ClosedIn Γ) : (T.toTm Γ : Tm Empty).Under Γ.length := by
  induction T generalizing Γ with
  | var v => exact List.idxOf_lt_length_of_mem h
  | lam v b ih => exact ih h
  | app v f a ihf iha => exact ⟨ihf h.1, iha h.2⟩

/-- `print_struct` at ROOT writes a text without a mark, and `parse_forms` delivers one form for it,
the term `t` up to the names of its binders. -/
def PrintsAs (n : Net) (t : Tm Empty) : Prop :=
  ∀ D : Decoders, D.Silent n → ∀ dom,
    (printStruct D n true (n.wireAt ⟨0, 0⟩) dom).2.qmarks = 0 ∧ (printStruct D n true (n.wireAt ⟨0, 0⟩) dom).2.dmarks = 0 ∧
      ∃ r : Reader.RTerm, r.toTm [] = t ∧ ∀ (σ : Type) (fn : Reader.FormFn σ) (ud : σ) (tab : Reader.Tables),
        ∃ d₀, ∀ d, d₀ ≤ d → Reader.parseForms fn d ud tab ((printStruct D n true (n.wireAt ⟨0, 0⟩) dom).1.map Reader.ch) =
          some ([.ok r], fn (.ok r) ud tab)

lemma Displays.printsAs (h : Displays n (n.wireAt ⟨0, 0⟩) T) (hc : T.ClosedIn []) (hn : T.nodes.Nodup) :
    PrintsAs n (T.toTm []) := by
  intro D hD dom
  obtain ⟨htext, hq, hd⟩ := h.printStruct hD hc hn true dom
  have hunder : (T.toTm [] : Tm Empty).Under 0 := Tree.under hc
  refine ⟨hq, hd, Reader.named 0 (T.toTm []), Reader.named_toTm hunder, fun σ fn ud tab => ?_⟩
  rw [htext]
  obtain ⟨hb, hne⟩ := Reader.spell_begins hunder
  exact (Reader.spell_reread hunder).forms hb hne fn ud tab

/-- The net of a closed normal term is written as the term. -/
theorem normal_printed {t : Term} (hp : t.PureIn []) (hn : (t.toTm [] : Tm Empty).normal = true) :
    ∃ n, compile t = .ok n ∧
      (∀ p q, redexLive n p q = true → fireable (n.tag.get p.node) (n.tag.get q.node) = false) ∧
        PrintsAs n (t.toTm []) := by
  obtain ⟨n, r, ns, ls, hc, hnet⟩ := compile_correct (ct_pure hp)
  obtain ⟨T, hT⟩ := hnet.shown hp
  have hshow := hT.shows
  rw [← hnet.wire] at hshow
  refine ⟨n, hc, hnet.calm hp hn, hT.term ▸ hshow.printsAs hT.closed ?_⟩
  exact (List.nodup_cons.mp hnet.nodup).2.sublist hT.nodes

/-- A run of a closed affine term that ends is written as the normal form of the term. -/
theorem affine_printed {g : Globals} (hser : g.inParallel = false) {t : Term} (hp : t.PureIn []) (ha : t.Affine) :
    ∃ n, compile t = .ok n ∧ ∀ k n', InSteps (Applies g) n k n' → AppHalted n' →
      (∀ p q, redexLive n' p q = true → fireable (n'.tag.get p.node) (n'.tag.get q.node) = false) ∧
        ∃ v, Tm.HasNormalForm (t.toTm [] : Tm Empty) v ∧ PrintsAs n' v := by
  obtain ⟨n, r, ns, ls, hc, hnet⟩ := compile_correct (ct_pure hp)
  obtain ⟨T, hT, hterm⟩ := hnet.readsRoot hp ha
  refine ⟨n, hc, fun k n' hrun hhalt => ?_⟩
  obtain ⟨hn', -, T', hT', j, -, hred⟩ := applies_run hser hnet.sound hT hrun
  rw [hterm] at hred
  have hshow : Displays n' (n'.wireAt ⟨0, 0⟩) T' := hT'.reads.shows hT'.affine.closed (by simp)
  exact ⟨((hnet.fanfree hp ha).run hser hnet.sound hrun).2.calm hhalt, T'.toTm [],
    ⟨hred.reflTransGen, hhalt.normal hn' hT'⟩, hshow.printsAs hT'.affine.closed hT'.affine.nodes⟩

/-- `\f.\x.f (f x)`. -/
def twiceTerm : Term := .lam "f" (.lam "x" (.app (.var "f") (.app (.var "f") (.var "x"))))

theorem normal_printed_twice : ∃ n, compile twiceTerm = .ok n ∧
    (∀ p q, redexLive n p q = true → fireable (n.tag.get p.node) (n.tag.get q.node) = false) ∧
      PrintsAs n (.lam (.lam (.app (.var 1) (.app (.var 1) (.var 0))))) :=
  normal_printed (t := twiceTerm) (by decide) (by decide)

example : ((compile twiceTerm).toOption.map fun n =>
    (printStruct ⟨fun _ => none, fun _ _ => none, fun _ => none⟩ n true (n.wireAt ⟨0, 0⟩) none).1) =
      some "(\\a (\\b (a (a b))))".toList := by
  decide +kernel

theorem affine_printed_identity : ∃ n, compile (.app (.lam "x" (.var "x")) (.lam "y" (.var "y"))) = .ok n ∧
    ∀ k n', InSteps (Applies .serial) n k n' → AppHalted n' →
      (∀ p q, redexLive n' p q = true → fireable (n'.tag.get p.node) (n'.tag.get q.node) = false) ∧
        ∃ v, Tm.HasNormalForm (.app (.lam (.var 0)) (.lam (.var 0)) : Tm Empty) v ∧ PrintsAs n' v :=
  affine_printed (t := .app (.lam "x" (.var "x")) (.lam "y" (.var "y"))) rfl (by decide) (by decide)

end Values

end LinEngine
