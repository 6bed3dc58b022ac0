import LinEngine.Readers
import LinEngine.Reduce

/-!
# The memo of the printer

`print_port` of `readback.c` remembers the text of a port with the number of binders that
enclosed it, and writes it again where it meets the port under as many. The net is in
normal form and has no foreign closure, so that a force only re-aims a port that died; what
the decoders make of a port is a parameter.
-/
namespace LinEngine.Printing

/-- What `lin_pat_box`, `decode` and `value_any` make of a port: the domain and the payload
of a box, and the texts of values. -/
structure Decoders where
  box : Port → Option (ℕ × Port)
  decode : Port → ℕ → Option (List Char)
  valueAny : Port → Option (List Char)

/-- A letter for the binder at each depth, with a number from the second alphabet on. -/
def binderName (depth : ℕ) : List Char :=
  Char.ofNat (97 + depth % 26) :: if depth < 26 then [] else Nat.toDigits 10 (depth / 26)

/-- The name of the innermost entry for the binder on the print stack. -/
def ppLookup (l : ℕ) : List ℕ → Option (List Char)
  | [] => none
  | v :: st => if v = l then some (binderName st.length) else ppLookup l st

/-- A port as the walk has unwrapped and forced it, with the domain it is expected to mean. -/
structure Item where
  port : Port
  dom : Option ℕ
  boxed : Bool
  deriving DecidableEq, Repr

/-- What the walk comes to. -/
inductive Arrival
  | mark
  | gone
  | occurs (l : ℕ)
  | node (x : Item)
  deriving DecidableEq, Repr

/-- What a node shows; `wrap` hands the domain on. -/
inductive View
  | erased
  | text (t : List Char)
  | wrap (q : Option Port) (dom : Option ℕ)
  | apply (f a : Option Port)
  | binder (body : Option Port)
  deriving DecidableEq, Repr

section Walk

variable (D : Decoders) (n : Net)

/-- The port that `net_force_val` returns where there is nothing to force. -/
def aim (p : Port) : Option Port := ((netForceVal (fun n _ => n) (n.nn + 2) 0 (some p)).run n).bind (·.1)

def arrive (q : Option Port) (dom : Option ℕ) : Arrival :=
  match q.filter fun p => n.inNet p.node with
  | none => .mark
  | some p =>
    let x : Item := match D.box p with
      | some (d, pay) => ⟨pay, some d, true⟩
      | none => ⟨p, dom, false⟩
    match (aim n x.port).filter fun p => n.inNet p.node with
    | none => .mark
    | some p =>
      if n.dead.get p.node then .gone
      else if n.tag.get p.node = .lam ∧ p.port = 1 then .occurs p.node
      else .node { x with port := p }

/-- The value of a function, if one of the decoders has it. -/
def valueAt (x : Item) : Option (List Char) :=
  match x.dom.bind (D.decode x.port) with
  | some t => some t
  | none => if x.dom = none ∨ x.boxed then D.valueAny x.port else none

def view (x : Item) : View :=
  let p := x.port
  match n.tag.get p.node with
  | .root => .wrap (n.wireAt p) x.dom
  | .era => .erased
  | .dup => .wrap (if p.port = 0 then n.wireAt ⟨p.node, 1⟩ else n.wireAt ⟨p.node, 0⟩) x.dom
  | .app => .apply (n.wireAt ⟨p.node, 0⟩) (n.wireAt ⟨p.node, 2⟩)
  | .lam =>
    if p.port = 0 then
      match valueAt D x with
      | some t => .text t
      | none => .binder (n.wireAt ⟨p.node, 2⟩)
    else .wrap (n.wireAt p) x.dom

/-- Where the walk is: the levels it may still go down, the nodes in progress and the
binders on the print stack. -/
structure Place where
  left : ℕ
  vis : List ℕ
  st : List ℕ
  deriving DecidableEq, Repr

/-- A remembered text. No step of the walk reads `item` and `place`, where it was rendered. -/
structure Entry where
  text : List Char
  depth : ℕ
  item : Item
  place : Place
  deriving DecidableEq, Repr

/-- A text that was written again, at another item and place. -/
structure Replay where
  entry : Entry
  item : Item
  place : Place
  deriving DecidableEq, Repr

structure Printer where
  memo : Port → Option Entry := fun _ => none
  qmarks : ℕ := 0
  dmarks : ℕ := 0
  replays : List Replay := []

def Printer.mark (s : Printer) : Printer := { s with qmarks := s.qmarks + 1 }

/-- The entry for a port under so many binders. -/
def Printer.hit (s : Printer) (p : Port) (depth : ℕ) : Option Entry := (s.memo p).filter (·.depth == depth)

/-- Remember a text unless it came with a new mark. -/
def Printer.store (s : Printer) (qmarks : ℕ) (x : Item) (c : Place) (text : List Char) : Printer :=
  if s.qmarks = qmarks then { s with memo := Function.update s.memo x.port (some ⟨text, c.st.length, x, c⟩) } else s

/-- The text of a port, with the memo or without it; `fuel` is the number of levels left. -/
def printPort (memo : Bool) : ℕ → Option Port → Option ℕ → List ℕ → List ℕ → Printer → List Char × Printer
  | 0, _, _, _, _, s => (['?'], s.mark)
  | fuel + 1, q, dom, vis, st, s =>
    match arrive D n q dom with
    | .mark => (['?'], s.mark)
    | .gone => (['_'], { s with dmarks := s.dmarks + 1 })
    | .occurs l =>
      match ppLookup l st with
      | some name => (name, s)
      | none => (['?'], s.mark)
    | .node x =>
      let c : Place := ⟨fuel, vis, st⟩
      match if memo then s.hit x.port st.length else none with
      | some e => (e.text, { s with replays := s.replays ++ [⟨e, x, c⟩] })
      | none =>
        if x.port.node ∈ vis then (['?'], s.mark)
        else
          let r : List Char × Printer :=
            match view D n x with
            | .erased => (['_'], s)
            | .text t => (t, s)
            | .wrap q dom => printPort memo fuel q dom (x.port.node :: vis) st s
            | .apply f a =>
              let r := printPort memo fuel f none (x.port.node :: vis) st s
              let r' := printPort memo fuel a none (x.port.node :: vis) st r.2
              (['('] ++ r.1 ++ [' '] ++ r'.1 ++ [')'], r'.2)
            | .binder b =>
              let r := printPort memo fuel b none (x.port.node :: vis) (x.port.node :: st) s
              (['(', '\\'] ++ binderName st.length ++ [' '] ++ r.1 ++ [')'], r.2)
          (r.1, if memo then r.2.store s.qmarks x c r.1 else r.2)

/-- `print_struct`: the walk from depth 0. -/
def printStruct (memo : Bool) (r : Option Port) (domain : Option ℕ) : List Char × Printer :=
  printPort D n memo (n.nn + 1) r domain [] [] {}

end Walk

/-! ## The text of a place -/

/-- The text of a view and the number of its marks, from those of the ports below. -/
def View.draw (rec : Option Port → Option ℕ → List ℕ → List ℕ → List Char × ℕ) (v : ℕ) (vis st : List ℕ) :
    View → List Char × ℕ
  | .erased => (['_'], 0)
  | .text t => (t, 0)
  | .wrap q dom => rec q dom (v :: vis) st
  | .apply f a =>
    let r := rec f none (v :: vis) st
    let r' := rec a none (v :: vis) st
    (['('] ++ r.1 ++ [' '] ++ r'.1 ++ [')'], r.2 + r'.2)
  | .binder b =>
    let r := rec b none (v :: vis) (v :: st)
    (['(', '\\'] ++ binderName st.length ++ [' '] ++ r.1 ++ [')'], r.2)

/-- What a view leads to, with the binders on the way. -/
def View.next (v : ℕ) : View → List (Option Port × Option ℕ × List ℕ)
  | .wrap q dom => [(q, dom, [])]
  | .apply f a => [(f, none, []), (a, none, [])]
  | .binder b => [(b, none, [v])]
  | _ => []

section Render

variable (D : Decoders) (n : Net)

/-- What the walk writes without a memo, and how many marks. -/
def render : ℕ → Option Port → Option ℕ → List ℕ → List ℕ → List Char × ℕ
  | 0, _, _, _, _ => (['?'], 1)
  | fuel + 1, q, dom, vis, st =>
    match arrive D n q dom with
    | .mark => (['?'], 1)
    | .gone => (['_'], 0)
    | .occurs l =>
      match ppLookup l st with
      | some name => (name, 0)
      | none => (['?'], 1)
    | .node x => if x.port.node ∈ vis then (['?'], 1) else (view D n x).draw (render fuel) x.port.node vis st

def renderAt (x : Item) (c : Place) : List Char × ℕ :=
  if x.port.node ∈ c.vis then (['?'], 1) else (view D n x).draw (render D n c.left) x.port.node c.vis c.st

/-- What the walk can come to from a port, with the binders on the way. -/
inductive Met : Option Port → Option ℕ → List ℕ → Arrival → Prop
  | here (q : Option Port) (dom : Option ℕ) : Met q dom [] (arrive D n q dom)
  | under {q q' : Option Port} {dom dom' : Option ℕ} {x : Item} {bs bs' : List ℕ} {a : Arrival}
      (hx : arrive D n q dom = .node x) (hq : (q', dom', bs) ∈ (view D n x).next x.port.node) (hm : Met q' dom' bs' a) :
      Met q dom (bs' ++ bs) a

/-- Two places have the same name for the binder of an occurrence that is not bound on the
way, and a node is in progress at both or at neither. -/
def Arrival.Same (bs : List ℕ) (c c' : Place) : Arrival → Prop
  | .occurs l => l ∈ bs ∨ ppLookup l c.st = ppLookup l c'.st
  | .node x => x.port.node ∈ c.vis ↔ x.port.node ∈ c'.vis
  | _ => True

/-- The place where the text is written again looks like the one where it was rendered. -/
structure Replay.Fits (r : Replay) : Prop where
  view : view D n r.entry.item = view D n r.item
  vis : r.item.port.node ∈ r.entry.place.vis ↔ r.item.port.node ∈ r.place.vis
  under : ∀ y ∈ (LinEngine.Printing.view D n r.item).next r.item.port.node, ∀ bs a, Met D n y.1 y.2.1 bs a →
    a.Same (bs ++ y.2.2) r.entry.place r.place

/-- The nodes in progress are distinct nodes of the net, and every other is a level left. -/
structure Place.Ok (c : Place) : Prop where
  nodup : c.vis.Nodup
  inNet : ∀ v ∈ c.vis, v < n.nn
  left : c.left + c.vis.length = n.nn

end Render

section Same

variable {D : Decoders} {n : Net} {c c' : Place}

lemma Place.Ok.push (h : c.Ok n) {v : ℕ} (hv : v < n.nn) (hnew : v ∉ c.vis) (st : List ℕ) :
    ∃ left, c.left = left + 1 ∧ Place.Ok n ⟨left, v :: c.vis, st⟩ := by
  have hnodup : (v :: c.vis).Nodup := List.nodup_cons.2 ⟨hnew, h.nodup⟩
  have hsub : ∀ u ∈ v :: c.vis, u < n.nn := by
    intro u hu
    rcases List.mem_cons.1 hu with rfl | hu
    · exact hv
    · exact h.inNet u hu
  have hlen : (v :: c.vis).length ≤ n.nn := by
    have := (hnodup.subperm fun u hu => List.mem_range.2 (hsub u hu)).length_le
    rwa [List.length_range] at this
  have hleft := h.left
  rw [List.length_cons] at hlen
  refine ⟨c.left - 1, by omega, hnodup, hsub, ?_⟩
  simp only [List.length_cons]
  omega

lemma View.next_binders {V : View} {v : ℕ} {y : Option Port × Option ℕ × List ℕ} (hy : y ∈ V.next v) :
    y.2.2 = [] ∨ y.2.2 = [v] := by
  cases V with
  | wrap q dom =>
    rw [List.mem_singleton.1 hy]
    exact .inl rfl
  | apply f a =>
    rcases List.mem_pair.1 hy with rfl | rfl
    · exact .inl rfl
    · exact .inl rfl
  | binder b =>
    rw [List.mem_singleton.1 hy]
    exact .inr rfl
  | _ => exact absurd hy List.not_mem_nil

/-- A view looks the same where everything below it does. -/
lemma View.draw_same {rec rec' : Option Port → Option ℕ → List ℕ → List ℕ → List Char × ℕ} {V : View} {v : ℕ}
    {vis vis' st st' : List ℕ} (hst : st.length = st'.length)
    (h : ∀ y ∈ V.next v, rec y.1 y.2.1 (v :: vis) (y.2.2 ++ st) = rec' y.1 y.2.1 (v :: vis') (y.2.2 ++ st')) :
    V.draw rec v vis st = V.draw rec' v vis' st' := by
  cases V with
  | erased => rfl
  | text t => rfl
  | wrap q dom => exact h (q, dom, []) List.mem_cons_self
  | apply f a =>
    have hf : rec f none (v :: vis) st = rec' f none (v :: vis') st' := h (f, none, []) List.mem_cons_self
    have ha : rec a none (v :: vis) st = rec' a none (v :: vis') st' :=
      h (a, none, []) (List.mem_cons_of_mem _ List.mem_cons_self)
    simp only [View.draw, hf, ha]
  | binder b =>
    have hb : rec b none (v :: vis) (v :: st) = rec' b none (v :: vis') (v :: st') := h (b, none, [v]) List.mem_cons_self
    simp only [View.draw, hb, hst]

lemma Arrival.Same.push {a : Arrival} {bs bs' : List ℕ} {v left left' : ℕ} (h : a.Same (bs ++ bs') c c')
    (hbs : bs' = [] ∨ bs' = [v]) (hst : c.st.length = c'.st.length) :
    a.Same bs ⟨left, v :: c.vis, bs' ++ c.st⟩ ⟨left', v :: c'.vis, bs' ++ c'.st⟩ := by
  cases a with
  | occurs l =>
    rcases hbs with rfl | rfl
    · rwa [List.append_nil] at h
    · by_cases hl : v = l
      · right
        simp only [List.singleton_append, ppLookup, if_pos hl, hst]
      · simpa [Arrival.Same, ppLookup, hl, Ne.symm hl] using h
  | node x =>
    have hx : x.port.node ∈ c.vis ↔ x.port.node ∈ c'.vis := h
    simp only [Arrival.Same, List.mem_cons, hx]
  | _ => trivial

/-- Two views that look the same from two places have the same text there. -/
lemma draw_place {v : ℕ} (hc : c.Ok n) (hc' : c'.Ok n) (hst : c.st.length = c'.st.length) (hv : v < n.nn)
    (hnew : v ∉ c.vis) (hnew' : v ∉ c'.vis) {V : View}
    (hrec : ∀ left < c.left, ∀ left' q dom vis vis' st st', Place.Ok n ⟨left, vis, st⟩ → Place.Ok n ⟨left', vis', st'⟩ →
      st.length = st'.length → (∀ bs a, Met D n q dom bs a → a.Same bs ⟨left, vis, st⟩ ⟨left', vis', st'⟩) →
      render D n (left + 1) q dom vis st = render D n (left' + 1) q dom vis' st')
    (h : ∀ y ∈ V.next v, ∀ bs a, Met D n y.1 y.2.1 bs a → a.Same (bs ++ y.2.2) c c') :
    V.draw (render D n c.left) v c.vis c.st = V.draw (render D n c'.left) v c'.vis c'.st := by
  refine View.draw_same hst fun y hy => ?_
  obtain ⟨left, hleft, hok⟩ := hc.push hv hnew (y.2.2 ++ c.st)
  obtain ⟨left', hleft', hok'⟩ := hc'.push hv hnew' (y.2.2 ++ c'.st)
  rw [hleft, hleft']
  exact hrec left (by omega) left' _ _ _ _ _ _ hok hok' (by simp [hst]) fun bs a hm =>
    (h y hy bs a hm).push (View.next_binders hy) hst

lemma arrive_inNet {q : Option Port} {dom : Option ℕ} {x : Item} (h : arrive D n q dom = .node x) : x.port.node < n.nn := by
  unfold arrive at h
  split at h
  · exact absurd h (by simp)
  · dsimp only at h
    split at h
    · exact absurd h (by simp)
    · rename_i p hp
      split_ifs at h
      · obtain rfl := Arrival.node.inj h
        simpa [Net.inNet] using (Option.filter_eq_some_iff.1 hp).2

lemma render_same (left left' : ℕ) (q : Option Port) (dom : Option ℕ) (vis vis' st st' : List ℕ)
    (hc : Place.Ok n ⟨left, vis, st⟩) (hc' : Place.Ok n ⟨left', vis', st'⟩) (hst : st.length = st'.length)
    (h : ∀ bs a, Met D n q dom bs a → a.Same bs ⟨left, vis, st⟩ ⟨left', vis', st'⟩) :
    render D n (left + 1) q dom vis st = render D n (left' + 1) q dom vis' st' := by
  induction left using Nat.strong_induction_on generalizing left' q dom vis vis' st st' with
  | _ left ih =>
    have hhere := h [] _ (.here q dom)
    unfold render
    cases ha : arrive D n q dom with
    | mark => rfl
    | gone => rfl
    | occurs l =>
      rw [ha] at hhere
      have hname : ppLookup l st = ppLookup l st' := hhere.resolve_left List.not_mem_nil
      dsimp only
      rw [hname]
    | node x =>
      rw [ha] at hhere
      have hmem : x.port.node ∈ vis ↔ x.port.node ∈ vis' := hhere
      dsimp only
      by_cases hx : x.port.node ∈ vis
      · rw [if_pos hx, if_pos (hmem.1 hx)]
      · rw [if_neg hx, if_neg (hmem.not.1 hx)]
        exact draw_place hc hc' hst (arrive_inNet ha) hx (hmem.not.1 hx) (fun left hlt => ih left hlt)
          fun y hy bs a hm => h _ a (.under ha hy hm)

lemma renderAt_same {r : Replay} (hr : r.Fits D n) (hport : r.entry.item.port = r.item.port) (hnode : r.item.port.node < n.nn)
    (hc : r.entry.place.Ok n) (hc' : r.place.Ok n) (hst : r.entry.place.st.length = r.place.st.length) :
    renderAt D n r.entry.item r.entry.place = renderAt D n r.item r.place := by
  unfold renderAt
  rw [hport, hr.view]
  by_cases hx : r.item.port.node ∈ r.place.vis
  · rw [if_pos hx, if_pos (hr.vis.2 hx)]
  · rw [if_neg hx, if_neg (hr.vis.not.2 hx)]
    exact draw_place hc hc' hst hnode (hr.vis.not.2 hx) hx (fun left _ => render_same left) hr.under

end Same

/-! ## The walk with the memo -/

section Memo

variable {D : Decoders} {n : Net} {memo : Bool} {fuel : ℕ} {q : Option Port} {dom : Option ℕ} {vis st : List ℕ} {s : Printer}

lemma store_replays (s : Printer) (k : ℕ) (x : Item) (c : Place) (t : List Char) : (s.store k x c t).replays = s.replays := by
  unfold Printer.store
  split_ifs <;> rfl

lemma kept_replays (memo : Bool) (s : Printer) (k : ℕ) (x : Item) (c : Place) (t : List Char) :
    (if memo then s.store k x c t else s).replays = s.replays := by
  split_ifs
  · exact store_replays s k x c t
  · rfl

lemma store_qmarks (s : Printer) (k : ℕ) (x : Item) (c : Place) (t : List Char) : (s.store k x c t).qmarks = s.qmarks := by
  unfold Printer.store
  split_ifs <;> rfl

/-- The log of replays only grows. -/
lemma printPort_replays (memo : Bool) (fuel : ℕ) (q : Option Port) (dom : Option ℕ) (vis st : List ℕ) (s : Printer) :
    s.replays ⊆ (printPort D n memo fuel q dom vis st s).2.replays := by
  induction fuel generalizing q dom vis st s with
  | zero => exact List.Subset.refl _
  | succ fuel ih =>
    unfold printPort
    cases arrive D n q dom with
    | mark => exact List.Subset.refl _
    | gone => exact List.Subset.refl _
    | occurs l =>
      dsimp only
      cases ppLookup l st <;> exact List.Subset.refl _
    | node x =>
      dsimp only
      cases (if memo = true then s.hit x.port st.length else none) with
      | some e => exact List.subset_append_left _ _
      | none =>
        dsimp only
        by_cases hx : x.port.node ∈ vis
        · rw [if_pos hx]
          exact List.Subset.refl _
        · rw [if_neg hx, kept_replays]
          cases view D n x with
          | erased => exact List.Subset.refl _
          | text t => exact List.Subset.refl _
          | wrap q dom => exact ih _ _ _ _ _
          | apply f a => exact List.Subset.trans (ih _ _ _ _ _) (ih _ _ _ _ _)
          | binder b => exact ih _ _ _ _ _

/-- Every remembered text is the one of the place where it was rendered, without a mark. -/
def Printer.Sound (D : Decoders) (n : Net) (s : Printer) : Prop :=
  ∀ p e, s.memo p = some e → e.item.port = p ∧ e.depth = e.place.st.length ∧ e.place.Ok n ∧
    renderAt D n e.item e.place = (e.text, 0)

/-- The walk has written a text, with so many marks. -/
structure Wrote (D : Decoders) (n : Net) (s : Printer) (t : List Char × ℕ) (r : List Char × Printer) : Prop where
  text : r.1 = t.1
  qmarks : r.2.qmarks = s.qmarks + t.2
  sound : r.2.Sound D n

lemma Wrote.mark (hs : s.Sound D n) : Wrote D n s (['?'], 1) (['?'], s.mark) := ⟨rfl, rfl, hs⟩

lemma Wrote.store {x : Item} {c : Place} {t : List Char × ℕ} {r : List Char × Printer} (h : Wrote D n s t r)
    (hc : c.Ok n) (ht : renderAt D n x c = t) : Wrote D n s t (r.1, r.2.store s.qmarks x c r.1) := by
  refine ⟨h.text, (store_qmarks _ _ _ _ _).trans h.qmarks, fun p e he => ?_⟩
  unfold Printer.store at he
  split_ifs at he with hq
  · dsimp only at he
    by_cases hp : p = x.port
    · subst hp
      rw [Function.update_self] at he
      obtain rfl := Option.some.inj he
      have hzero : t.2 = 0 := by
        have := h.qmarks
        omega
      exact ⟨rfl, rfl, hc, ht.trans (Prod.ext h.text.symm hzero)⟩
    · rw [Function.update_of_ne hp] at he
      exact h.sound p e he
  · exact h.sound p e he

/-- As long as every text is written again in a place that looks like the one where it was
rendered, the memo changes no text. -/
lemma printPort_wrote (hs : s.Sound D n) (hok : ∀ left, fuel = left + 1 → Place.Ok n ⟨left, vis, st⟩)
    (hfits : ∀ r ∈ (printPort D n true fuel q dom vis st s).2.replays, r.Fits D n) :
    Wrote D n s (render D n fuel q dom vis st) (printPort D n true fuel q dom vis st s) := by
  induction fuel generalizing q dom vis st s with
  | zero => exact .mark hs
  | succ fuel ih =>
    unfold printPort at hfits ⊢
    unfold render
    cases ha : arrive D n q dom with
    | mark => exact .mark hs
    | gone => exact ⟨rfl, rfl, hs⟩
    | occurs l =>
      dsimp only
      cases ppLookup l st with
      | none => exact .mark hs
      | some name => exact ⟨rfl, rfl, hs⟩
    | node x =>
      have hc := hok fuel rfl
      rw [ha] at hfits
      dsimp only at hfits ⊢
      rw [if_pos rfl] at hfits ⊢
      cases hhit : s.hit x.port st.length with
      | some e =>
        rw [hhit] at hfits
        obtain ⟨hmemo, hdepth⟩ := Option.filter_eq_some_iff.1 hhit
        obtain ⟨hport, hlen, hplace, htext⟩ := hs _ e hmemo
        have hfit := hfits ⟨e, x, ⟨fuel, vis, st⟩⟩ (List.mem_append_right _ List.mem_cons_self)
        have hsame := renderAt_same hfit hport (arrive_inNet ha) hplace hc (hlen.symm.trans (beq_iff_eq.1 hdepth))
        have hren : (if x.port.node ∈ vis then (['?'], 1) else
            (view D n x).draw (render D n fuel) x.port.node vis st) = (e.text, 0) := hsame.symm.trans htext
        rw [hren]
        exact ⟨rfl, rfl, hs⟩
      | none =>
        rw [hhit] at hfits
        dsimp only at hfits ⊢
        by_cases hx : x.port.node ∈ vis
        · rw [if_pos hx, if_pos hx]
          exact .mark hs
        · rw [if_neg hx] at hfits ⊢
          rw [if_neg hx]
          have hren : renderAt D n x ⟨fuel, vis, st⟩ = (view D n x).draw (render D n fuel) x.port.node vis st := if_neg hx
          rw [if_pos rfl, store_replays] at hfits
          rw [if_pos rfl]
          refine Wrote.store ?_ hc hren
          have hpush : ∀ st left, fuel = left + 1 → Place.Ok n ⟨left, x.port.node :: vis, st⟩ := by
            intro st left hleft
            obtain ⟨left', hleft', hok'⟩ := hc.push (arrive_inNet ha) hx st
            obtain rfl : left = left' := by
              have : fuel = left' + 1 := hleft'
              omega
            exact hok'
          cases hV : view D n x with
          | erased => exact ⟨rfl, rfl, hs⟩
          | text t => exact ⟨rfl, rfl, hs⟩
          | wrap q dom =>
            rw [hV] at hfits
            exact ih hs (hpush _) hfits
          | apply f a =>
            rw [hV] at hfits
            have hf : Wrote D n s (render D n fuel f none _ _) _ := ih hs (hpush st) fun r hr => hfits r (printPort_replays _ _ _ _ _ _ _ hr)
            have ha : Wrote D n _ (render D n fuel a none _ _) _ := ih hf.sound (hpush st) hfits
            exact ⟨by simp only [View.draw, hf.text, ha.text], by rw [ha.qmarks, hf.qmarks, Nat.add_assoc]; rfl, ha.sound⟩
          | binder b =>
            rw [hV] at hfits
            have hb : Wrote D n s (render D n fuel b none _ _) _ := ih hs (hpush _) hfits
            exact ⟨by simp only [View.draw, hb.text], hb.qmarks, hb.sound⟩

/-- Without the memo the walk writes the text of the place. -/
lemma printPort_plain (fuel : ℕ) (q : Option Port) (dom : Option ℕ) (vis st : List ℕ) (s : Printer) :
    (printPort D n false fuel q dom vis st s).1 = (render D n fuel q dom vis st).1 := by
  induction fuel generalizing q dom vis st s with
  | zero => rfl
  | succ fuel ih =>
    unfold printPort render
    cases arrive D n q dom with
    | mark => rfl
    | gone => rfl
    | occurs l =>
      dsimp only
      cases ppLookup l st <;> rfl
    | node x =>
      dsimp only
      rw [if_neg Bool.false_ne_true]
      by_cases hx : x.port.node ∈ vis
      · simp only [if_pos hx]
      · simp only [if_neg hx]
        cases view D n x with
        | erased => rfl
        | text t => rfl
        | wrap q dom => exact ih _ _ _ _ _
        | apply f a => simp only [View.draw, ih]
        | binder b => simp only [View.draw, ih]

end Memo

/-- The memo changes no text if the walk writes no text again in a place that looks
different from the one where it was rendered. -/
theorem printStruct_memo (D : Decoders) (n : Net) (r : Option Port) (domain : Option ℕ)
    (h : ∀ x ∈ (printStruct D n true r domain).2.replays, x.Fits D n) :
    (printStruct D n true r domain).1 = (printStruct D n false r domain).1 := by
  have hempty : Printer.Sound D n {} := fun p e he => absurd he (by simp)
  have hok : ∀ left, n.nn + 1 = left + 1 → Place.Ok n ⟨left, [], []⟩ :=
    fun left hleft => ⟨List.nodup_nil, fun v hv => absurd hv List.not_mem_nil, by simpa using hleft.symm⟩
  exact (printPort_wrote hempty hok h).text.trans (printPort_plain _ _ _ _ _ _).symm

/-! ## Two nets -/

/-- Decoders to which nothing is a value. -/
def noValues : Decoders := ⟨fun _ => none, fun _ _ => none, fun _ => none⟩

/-- `\f.\g.\p.(\z.((p z) z)) (f g)` with its redex fired: the application `f g` is shared. -/
def sharedNet : Net := (netInteract .serial ((compile (.lam "f" (.lam "g" (.lam "p" (.app (.lam "z" (.app (.app (.var "p")
  (.var "z")) (.var "z"))) (.app (.var "f") (.var "g"))))))).toOption.getD netInit) ⟨4, 0⟩ ⟨5, 0⟩).2

lemma Met.occurs {D : Decoders} {n : Net} {q : Option Port} {dom : Option ℕ} {l : ℕ} {bs : List ℕ} {a : Arrival}
    (hm : Met D n q dom bs a) (h : arrive D n q dom = .occurs l) : bs = [] ∧ a = .occurs l := by
  cases hm with
  | here => exact ⟨rfl, h⟩
  | under hx => exact absurd (h.symm.trans hx) (by simp)

/-- Its text is written a second time, under the same binders. -/
theorem sharedNet_memo : (printStruct noValues sharedNet true (some ⟨1, 0⟩) none).2.replays ≠ [] ∧
    (printStruct noValues sharedNet true (some ⟨1, 0⟩) none).1 =
      (printStruct noValues sharedNet false (some ⟨1, 0⟩) none).1 := by
  refine ⟨by decide +kernel, printStruct_memo noValues sharedNet (some ⟨1, 0⟩) none fun x hx => ?_⟩
  have hreplays : (printStruct noValues sharedNet true (some ⟨1, 0⟩) none).2.replays =
      [⟨⟨['(', 'a', ' ', 'b', ')'], 3, ⟨⟨10, 1⟩, none, false⟩, ⟨5, [9, 7, 6, 3, 2, 1], [3, 2, 1]⟩⟩, ⟨⟨10, 1⟩, none, false⟩,
        ⟨6, [9, 6, 3, 2, 1], [3, 2, 1]⟩⟩] := by
    decide +kernel
  rw [hreplays] at hx
  obtain rfl := List.mem_singleton.1 hx
  have hview : view noValues sharedNet ⟨⟨10, 1⟩, none, false⟩ = .apply (some ⟨1, 1⟩) (some ⟨2, 1⟩) := by decide +kernel
  have hf : arrive noValues sharedNet (some ⟨1, 1⟩) none = .occurs 1 := by decide +kernel
  have hg : arrive noValues sharedNet (some ⟨2, 1⟩) none = .occurs 2 := by decide +kernel
  refine ⟨rfl, by decide, fun y hy bs a hm => ?_⟩
  rw [hview] at hy
  rcases List.mem_pair.1 hy with rfl | rfl
  · obtain ⟨rfl, rfl⟩ := hm.occurs hf
    exact .inr rfl
  · obtain ⟨rfl, rfl⟩ := hm.occurs hg
    exact .inr rfl

/-- No rule exists for any pair of live nodes that face each other. -/
def Settled (n : Net) : Prop :=
  ∀ p q, redexLive n p q = true → fireable (n.tag.get p.node) (n.tag.get q.node) = false

lemma settled_of_check {n : Net} (h : ∀ v < n.nn, (n.wireAt ⟨v, 0⟩).all (fun q =>
    q.port != 0 || !fireable (n.tag.get v) (n.tag.get q.node)) = true) : Settled n := by
  intro p q hred
  simp only [redexLive, Bool.and_eq_true, beq_iff_eq] at hred
  obtain ⟨⟨⟨⟨⟨hp, -⟩, hp0⟩, hq0⟩, hw⟩, -⟩ := hred
  have hin : p.node < n.nn := by simpa [Net.inNet] using (Bool.and_eq_true_iff.1 hp).1
  have hcheck := h p.node hin
  rw [show (⟨p.node, 0⟩ : Port) = p by rw [← hp0], hw] at hcheck
  simpa [hq0] using hcheck

/-- `\g.(\h.\p.((p h) h)) (\x.g x)` with both its redexes fired: the functions that have
taken the place of `h` share the application `g x`. -/
def knotNet : Net :=
  let n := (compile (.lam "g" (.app (.lam "h" (.lam "p" (.app (.app (.var "p") (.var "h")) (.var "h"))))
    (.lam "x" (.app (.var "g") (.var "x")))))).toOption.getD netInit
  (netInteract .serial (netInteract .serial n ⟨2, 0⟩ ⟨3, 0⟩).2 ⟨8, 0⟩ ⟨9, 0⟩).2

/-- The second function's text is written as the first one's, where the walk without a memo
has no name for its variable. -/
theorem printStruct_replays : ¬∀ (D : Decoders) (n : Net) (r : Option Port) (domain : Option ℕ), Settled n →
    (printStruct D n true r domain).1 = (printStruct D n false r domain).1 := by
  intro h
  have htext := h noValues knotNet (some ⟨1, 0⟩) none (settled_of_check (by decide +kernel))
  revert htext
  decide +kernel

end LinEngine.Printing
