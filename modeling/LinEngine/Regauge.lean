import LinEngine.Reduce

/-!
# Gauges that no rule reads

The rules compare the gauges of two fans. They write gauges on the copies of functions
and applications too, along with the levels these are made of, and never read them. Two
nets that differ in such gauges only go through the same steps, and stay so.
-/
namespace LinEngine

/-- The net with other gauges and levels. -/
def Net.regauge (n : Net) (sc : Table ℕ 0) (ls : List Level) : Net := { n with scope := sc, levels := ls }

/-- Neither a function nor an application nor a freed slot. -/
def Gauged (n : Net) (v : ℕ) : Prop :=
  n.tag.get v ≠ .lam ∧ n.tag.get v ≠ .app ∧ ¬(n.dead.get v = true ∧ n.tag.get v = .era)

/-- The same but for the levels and the gauges of functions and applications. -/
def Twins (n m : Net) : Prop := ∃ sc ls, m = n.regauge sc ls ∧ ∀ v, Gauged n v → sc.get v = n.scope.get v

/-- The gauge of a live fan. -/
def FanGauge (n : Net) (s : ℕ) : Prop := ∃ v, n.live v = true ∧ n.tag.get v = .dup ∧ n.scope.get v = s

/-! ## What reads neither gauges nor levels -/

section Blind

variable {g : Globals} {n m : Net} {sc : Table ℕ 0} {ls : List Level}

lemma regauge_actPush (n : Net) (sc : Table ℕ 0) (ls : List Level) (a b : Port) :
    actPush (n.regauge sc ls) a b = (actPush n a b).regauge sc ls := by
  unfold actPush Net.regauge
  dsimp only
  split_ifs <;> rfl

lemma regauge_actDrop (g : Globals) (n : Net) (sc : Table ℕ 0) (ls : List Level) (v : ℕ) :
    actDrop g (n.regauge sc ls) v = (actDrop g n v).regauge sc ls := by
  unfold actDrop Net.regauge
  dsimp only
  cases n.actOf.get v with
  | none => rfl
  | some i =>
    dsimp only
    split_ifs <;> rfl

lemma regauge_netLink (g : Globals) (n : Net) (sc : Table ℕ 0) (ls : List Level) (a b : Option Port) (e : Bool) :
    netLink g (n.regauge sc ls) a b e = (netLink g n a b e).regauge sc ls := by
  cases a with
  | none => rfl
  | some a =>
    cases b with
    | none => rfl
    | some b =>
      unfold netLink
      dsimp only
      split_ifs
      · rfl
      · exact regauge_actPush ((n.setWire a (some b)).setWire b (some a)) sc ls a b
      · rfl

/-- A choice between two values of a function is the function of the choice. -/
lemma ite_same {α β : Type*} (f : α → β) (c : Prop) [Decidable c] {x y : β} {x' y' : α} (hx : x = f x') (hy : y = f y') :
    (if c then x else y) = f (if c then x' else y') := by
  split_ifs
  · exact hx
  · exact hy

/-- The other gauges for the net of a pair. -/
def regauged {α : Type} (sc : Table ℕ 0) (ls : List Level) (s : Net × α) : Net × α := (s.1.regauge sc ls, s.2)

lemma regauge_releasePort (s : Net × List ℕ) (sc : Table ℕ 0) (ls : List Level) (p : Port) :
    releasePort (regauged sc ls s) p = regauged sc ls (releasePort s p) := by
  obtain ⟨n, st⟩ := s
  unfold releasePort
  have hwire : (regauged sc ls (n, st)).1.wireAt p = n.wireAt p := rfl
  rw [hwire]
  cases hw : n.wireAt p with
  | none => rfl
  | some w =>
    dsimp only
    refine ite_same (regauged sc ls) _ ?_ rfl
    have hcut : (if ((n.regauge sc ls).setWire p none).wireAt w = some p then ((n.regauge sc ls).setWire p none).setWire w none
        else (n.regauge sc ls).setWire p none) =
        (if (n.setWire p none).wireAt w = some p then (n.setWire p none).setWire w none else n.setWire p none).regauge sc ls :=
      ite_same (fun n : Net => n.regauge sc ls) _ rfl rfl
    show (if _ then _ else _) = _
    rw [show (regauged sc ls (n, st)).1 = n.regauge sc ls from rfl, hcut]
    exact ite_same (regauged sc ls) _ rfl rfl

lemma regauge_releaseLoop (fuel : ℕ) (st : List ℕ) (n : Net) (sc : Table ℕ 0) (ls : List Level) :
    releaseLoop fuel st (n.regauge sc ls) = (releaseLoop fuel st n).regauge sc ls := by
  induction fuel generalizing st n with
  | zero => rfl
  | succ fuel ih =>
    cases st with
    | nil => rfl
    | cons u st =>
      have hports : ∀ (ps : List Port) (s : Net × List ℕ), ps.foldl releasePort (regauged sc ls s) =
          regauged sc ls (ps.foldl releasePort s) := by
        intro ps
        induction ps with
        | nil => exact fun s => rfl
        | cons p ps ihp =>
          intro s
          rw [List.foldl_cons, List.foldl_cons, regauge_releasePort, ihp]
      rw [releaseLoop, releaseLoop, show (n.regauge sc ls, st) = regauged sc ls (n, st) from rfl, hports]
      exact ih _ (pendPush ((portsOf u).foldl releasePort (n, st)).1 u)

lemma regauge_netRelease (g : Globals) (n : Net) (sc : Table ℕ 0) (ls : List Level) (v : ℕ) :
    netRelease g (n.regauge sc ls) v = (netRelease g n v).regauge sc ls := by
  have hlast : releaseNow (actDrop g { n.regauge sc ls with dead := (n.regauge sc ls).dead.set v true } v) v =
      (releaseNow (actDrop g { n with dead := n.dead.set v true } v) v).regauge sc ls :=
    (congrArg (releaseNow · v) (regauge_actDrop g { n with dead := n.dead.set v true } sc ls v)).trans
      (regauge_releaseLoop _ _ _ sc ls)
  unfold netRelease
  refine ite_same (fun n : Net => n.regauge sc ls) _ rfl ?_
  refine ite_same (fun n : Net => n.regauge sc ls) _ rfl ?_
  exact ite_same (fun n : Net => n.regauge sc ls) _ rfl hlast

/-- The release of a node that may have no live wire left. -/
lemma regauge_releaseIf (g : Globals) (n : Net) (sc : Table ℕ 0) (ls : List Level) (c : Prop) [Decidable c] (v : ℕ) :
    (if c then netRelease g (n.regauge sc ls) v else n.regauge sc ls) = (if c then netRelease g n v else n).regauge sc ls :=
  ite_same (fun n : Net => n.regauge sc ls) c (regauge_netRelease g n sc ls v) rfl

lemma regauge_netSever (g : Globals) (n : Net) (sc : Table ℕ 0) (ls : List Level) (p : Port) :
    netSever g (n.regauge sc ls) p = (netSever g n p).regauge sc ls := by
  have hlast : ∀ (n : Net) (v w : ℕ),
      (let m := (if degLive (n.regauge sc ls) v = 0 then netRelease g (n.regauge sc ls) v else n.regauge sc ls);
        if m.inNet w && degLive m w == 0 then netRelease g m w else m) =
      (let m := (if degLive n v = 0 then netRelease g n v else n);
        if m.inNet w && degLive m w == 0 then netRelease g m w else m).regauge sc ls := by
    intro n v w
    have hfirst : (if degLive (n.regauge sc ls) v = 0 then netRelease g (n.regauge sc ls) v else n.regauge sc ls) =
        (if degLive n v = 0 then netRelease g n v else n).regauge sc ls := regauge_releaseIf g n sc ls _ v
    dsimp only
    rw [hfirst]
    exact regauge_releaseIf g _ sc ls _ w
  unfold netSever
  refine ite_same (fun n : Net => n.regauge sc ls) _ rfl ?_
  have hwire : (n.regauge sc ls).wireAt p = n.wireAt p := rfl
  rw [hwire]
  cases hw : n.wireAt p with
  | none => exact regauge_releaseIf g (n.setWire p none) sc ls _ p.node
  | some w =>
    have hcut : (if ((n.regauge sc ls).setWire p none).inNet w.node && ((n.regauge sc ls).setWire p none).wireAt w == some p
        then ((n.regauge sc ls).setWire p none).setWire w none else (n.regauge sc ls).setWire p none) =
        (if (n.setWire p none).inNet w.node && (n.setWire p none).wireAt w == some p
        then (n.setWire p none).setWire w none else n.setWire p none).regauge sc ls :=
      ite_same (fun n : Net => n.regauge sc ls) _ rfl rfl
    dsimp only
    rw [hcut]
    exact hlast _ p.node w.node

lemma regauge_pairBoundary (g : Globals) (n : Net) (sc : Table ℕ 0) (ls : List Level) (a b : ℕ) (cor : List (ℕ × ℕ)) :
    pairBoundary g (n.regauge sc ls) a b cor = (pairBoundary g n a b cor).regauge sc ls := by
  have hclass : ∀ (n : Net) (cls : List (Fin 6)),
      joinClass g a b (n.regauge sc ls) cls = (joinClass g a b n cls).regauge sc ls := by
    intro n cls
    unfold joinClass
    rw [show (n.regauge sc ls).wireAt = n.wireAt from rfl]
    dsimp only
    generalize List.filterMap (fun j => if (insidePair a b (n.wireAt (pairPort a b j))).isSome = true then none
      else n.wireAt (pairPort a b j)) cls = ends
    rcases ends with _ | ⟨e, _ | ⟨e', _ | ⟨e'', es⟩⟩⟩
    · rfl
    · exact regauge_netSever g n sc ls e
    · exact regauge_netLink g n sc ls (some e) (some e') true
    · rfl
  have hall : ∀ (cs : List (List (Fin 6))) (n : Net), cs.foldl (joinClass g a b) (n.regauge sc ls) =
      (cs.foldl (joinClass g a b) n).regauge sc ls := by
    intro cs
    induction cs with
    | nil => exact fun n => rfl
    | cons c cs ih =>
      intro n
      rw [List.foldl_cons, List.foldl_cons, hclass, ih]
  exact hall _ n

lemma regauge_linkCopies (g : Globals) (n : Net) (sc : Table ℕ 0) (ls : List Level) (a b : ℕ) (t : Fin 4 → Option Port)
    (cp : Fin 4 → ℕ) : linkCopies g (n.regauge sc ls) a b t cp = (linkCopies g n a b t cp).regauge sc ls := by
  have hshort : ∀ (ks : List (Fin 4)) (s : Net × List (Fin 4)),
      ks.foldl (shortStep g (fun k => auxIndex a b (t k)) cp) (regauged sc ls s) =
        regauged sc ls (ks.foldl (shortStep g (fun k => auxIndex a b (t k)) cp) s) := by
    intro ks
    induction ks with
    | nil => exact fun s => rfl
    | cons k ks ih =>
      intro s
      have hk : shortStep g (fun k => auxIndex a b (t k)) cp (regauged sc ls s) k =
          regauged sc ls (shortStep g (fun k => auxIndex a b (t k)) cp s k) := by
        unfold shortStep
        dsimp only
        cases auxIndex a b (t k) with
        | none => rfl
        | some m =>
          dsimp only
          refine ite_same (regauged sc ls) _ rfl ?_
          exact congrArg (·, k :: m :: s.2) (regauge_netLink g s.1 sc ls _ _ true)
      rw [List.foldl_cons, List.foldl_cons, hk, ih]
  have hloose : ∀ (done ks : List (Fin 4)) (n : Net), ks.foldl (looseStep g t cp done) (n.regauge sc ls) =
      (ks.foldl (looseStep g t cp done) n).regauge sc ls := by
    intro done ks
    induction ks with
    | nil => exact fun n => rfl
    | cons k ks ih =>
      intro n
      have hk : looseStep g t cp done (n.regauge sc ls) k = (looseStep g t cp done n k).regauge sc ls :=
        ite_same (fun n : Net => n.regauge sc ls) _ rfl (regauge_netLink g n sc ls _ _ true)
      rw [List.foldl_cons, List.foldl_cons, hk, ih]
  rw [linkCopies_eq, linkCopies_eq]
  dsimp only
  rw [show (n.regauge sc ls, ([] : List (Fin 4))) = regauged sc ls (n, []) from rfl, hshort]
  exact hloose _ _ _

lemma regauge_retire (g : Globals) (n : Net) (sc : Table ℕ 0) (ls : List Level) (a b : ℕ) :
    retire g (n.regauge sc ls) a b = (retire g n a b).regauge sc ls := by
  have hdrop : actDrop g (actDrop g { n.regauge sc ls with dead := ((n.regauge sc ls).dead.set a true).set b true } a) b =
      (actDrop g (actDrop g { n with dead := (n.dead.set a true).set b true } a) b).regauge sc ls := by
    rw [show ({ n.regauge sc ls with dead := ((n.regauge sc ls).dead.set a true).set b true } : Net) =
      Net.regauge { n with dead := (n.dead.set a true).set b true } sc ls from rfl, regauge_actDrop, regauge_actDrop]
  have hfree : ∀ n : Net, releaseNow (releaseNow (n.regauge sc ls) a) b = (releaseNow (releaseNow n a) b).regauge sc ls := by
    intro n
    have hnow : ∀ (n : Net) (v : ℕ), releaseNow (n.regauge sc ls) v = (releaseNow n v).regauge sc ls :=
      fun n v => regauge_releaseLoop _ [v] n sc ls
    rw [hnow, hnow]
  unfold retire
  dsimp only
  rw [hdrop]
  generalize actDrop g (actDrop g { n with dead := (n.dead.set a true).set b true } a) b = m
  exact ite_same (fun n : Net => n.regauge sc ls) _ rfl
    (hfree { m with root := m.root.filter (fun p => p.node != a && p.node != b) })

end Blind

/-! ## What wiring and reclamation leave of the gauges -/

/-- No gauge and no level changed; a slot keeps its tag or was freed, and a dead one stays dead. -/
structure Waning (n m : Net) : Prop where
  nn : m.nn = n.nn
  scope : m.scope = n.scope
  levels : m.levels = n.levels
  slot : ∀ v, (m.tag.get v = n.tag.get v ∧ (n.dead.get v = true → m.dead.get v = true)) ∨
    (m.tag.get v = .era ∧ m.dead.get v = true)

namespace Waning

variable {g : Globals} {n m k : Net}

lemma of_eq (hnn : m.nn = n.nn) (hscope : m.scope = n.scope) (hlevels : m.levels = n.levels) (htag : m.tag = n.tag)
    (hdead : m.dead = n.dead) : Waning n m :=
  ⟨hnn, hscope, hlevels, fun v => .inl ⟨by rw [htag], fun h => by rwa [hdead]⟩⟩

lemma refl (n : Net) : Waning n n := of_eq rfl rfl rfl rfl rfl

lemma dead (h : Waning n m) {v : ℕ} (hv : n.dead.get v = true) : m.dead.get v = true := by
  rcases h.slot v with ⟨_, hd⟩ | ⟨_, hd⟩
  · exact hd hv
  · exact hd

lemma trans (h : Waning n m) (h' : Waning m k) : Waning n k := by
  refine ⟨h'.nn.trans h.nn, h'.scope.trans h.scope, h'.levels.trans h.levels, fun v => ?_⟩
  rcases h'.slot v with ⟨ht', hd'⟩ | hfreed
  · rcases h.slot v with ⟨ht, hd⟩ | ⟨ht, hd⟩
    · exact .inl ⟨ht'.trans ht, fun hv => hd' (hd hv)⟩
    · exact .inr ⟨ht'.trans ht, hd' hd⟩
  · exact .inr hfreed

lemma gauged (h : Waning n m) {v : ℕ} (hv : Gauged m v) : Gauged n v := by
  obtain ⟨hlam, happ, hfreed⟩ := hv
  rcases h.slot v with ⟨ht, hd⟩ | ⟨ht, hd⟩
  · rw [ht] at hlam happ hfreed
    exact ⟨hlam, happ, fun hn => hfreed ⟨hd hn.1, hn.2⟩⟩
  · exact absurd ⟨hd, ht⟩ hfreed

lemma fan (h : Waning n m) {v : ℕ} (hv : m.tag.get v = .dup) :
    n.tag.get v = .dup ∧ m.scope.get v = n.scope.get v ∧ (m.live v = true → n.live v = true) := by
  rcases h.slot v with ⟨ht, hd⟩ | ⟨ht, -⟩
  · refine ⟨ht.symm.trans hv, by rw [h.scope], fun hlive => ?_⟩
    simp only [Net.live, Net.inNet, h.nn, Bool.and_eq_true, Bool.not_eq_true'] at hlive ⊢
    refine ⟨hlive.1, ?_⟩
    cases hn : n.dead.get v with
    | false => rfl
    | true => rw [hd hn] at hlive; exact hlive.2
  · rw [ht] at hv
    exact absurd hv (by decide)

lemma kill (n : Net) (v : ℕ) : Waning n { n with dead := n.dead.set v true } := by
  refine ⟨rfl, rfl, rfl, fun u => .inl ⟨rfl, fun hu => ?_⟩⟩
  show (n.dead.set v true).get u = true
  by_cases huv : u = v
  · rw [huv, Table.get_set_self]
  · rw [Table.get_set_ne _ (Ne.symm huv)]
    exact hu

lemma push (n : Net) (a b : Port) : Waning n (actPush n a b) := by
  unfold actPush
  split_ifs <;> exact of_eq rfl rfl rfl rfl rfl

lemma drop (g : Globals) (n : Net) (v : ℕ) : Waning n (actDrop g n v) := by
  unfold actDrop
  split
  · exact refl n
  · dsimp only
    split_ifs <;> exact of_eq rfl rfl rfl rfl rfl

lemma releasePort (s : Net × List ℕ) (p : Port) (hst : ∀ u ∈ s.2, s.1.dead.get u = true) :
    Waning s.1 (releasePort s p).1 ∧ ∀ u ∈ (LinEngine.releasePort s p).2, (LinEngine.releasePort s p).1.dead.get u = true := by
  unfold LinEngine.releasePort
  split
  · exact ⟨of_eq rfl rfl rfl rfl rfl, hst⟩
  · rename_i w hw
    have hcut : ∀ c : Prop, [Decidable c] →
        Waning s.1 (if c then (s.1.setWire p none).setWire w none else s.1.setWire p none) := by
      intro c _
      split_ifs <;> exact of_eq rfl rfl rfl rfl rfl
    dsimp only
    generalize hm : (if (s.1.setWire p none).wireAt w = some p then (s.1.setWire p none).setWire w none
      else s.1.setWire p none) = m
    have hm' : Waning s.1 m := hm ▸ hcut _
    split_ifs
    · refine ⟨hm'.trans (kill m w.node), fun u hu => ?_⟩
      rcases List.mem_cons.1 hu with rfl | hu
      · exact Table.get_set_self _ _ _
      · exact (kill m w.node).dead (hm'.dead (hst u hu))
    · exact ⟨hm', fun u hu => hm'.dead (hst u hu)⟩
    · exact ⟨of_eq rfl rfl rfl rfl rfl, hst⟩

lemma pend (n : Net) {u : ℕ} (hu : n.dead.get u = true) : Waning n (pendPush n u) := by
  refine ⟨rfl, rfl, rfl, fun v => ?_⟩
  by_cases hvu : v = u
  · rw [hvu]
    exact .inr ⟨Table.get_set_self _ _ _, hu⟩
  · exact .inl ⟨Table.get_set_ne _ (Ne.symm hvu) _, id⟩

lemma releaseLoop (fuel : ℕ) (st : List ℕ) (n : Net) (hst : ∀ u ∈ st, n.dead.get u = true) :
    Waning n (releaseLoop fuel st n) := by
  induction fuel generalizing st n with
  | zero => exact refl n
  | succ fuel ih =>
    cases st with
    | nil => exact refl n
    | cons u st =>
      have hports : ∀ (ps : List Port) (s : Net × List ℕ), (∀ u ∈ s.2, s.1.dead.get u = true) →
          Waning s.1 (ps.foldl LinEngine.releasePort s).1 ∧
            ∀ u ∈ (ps.foldl LinEngine.releasePort s).2, (ps.foldl LinEngine.releasePort s).1.dead.get u = true := by
        intro ps
        induction ps with
        | nil => exact fun s hs => ⟨refl s.1, hs⟩
        | cons p ps ihp =>
          intro s hs
          obtain ⟨hp, hs'⟩ := releasePort s p hs
          obtain ⟨hps, hs''⟩ := ihp _ hs'
          exact ⟨hp.trans hps, hs''⟩
      obtain ⟨hcut, hdead⟩ := hports (portsOf u) (n, st) fun v hv => hst v (List.mem_cons_of_mem u hv)
      have hu := hcut.dead (hst u List.mem_cons_self)
      have hpend := pend ((portsOf u).foldl LinEngine.releasePort (n, st)).1 hu
      exact (hcut.trans hpend).trans (ih _ _ fun v hv => hpend.dead (hdead v hv))

lemma releaseNow (n : Net) {v : ℕ} (hv : n.dead.get v = true) : Waning n (releaseNow n v) :=
  releaseLoop _ [v] n fun u hu => by rwa [List.mem_singleton.1 hu]

lemma linking (g : Globals) : Linking g Waning where
  refl := refl
  trans := trans
  wire _ _ _ := of_eq rfl rfl rfl rfl rfl
  push := push
  thread _ _ := of_eq rfl rfl rfl rfl rfl
  release n v := by
    unfold netRelease
    split_ifs
    · exact refl n
    · exact refl n
    · exact refl n
    · have hdrop := (kill n v).trans (drop g { n with dead := n.dead.set v true } v)
      exact hdrop.trans (releaseNow _ ((drop g _ v).dead (Table.get_set_self _ _ _)))

lemma retire (g : Globals) (n : Net) (a b : ℕ) : Waning n (retire g n a b) := by
  have hkill := (kill n a).trans (kill { n with dead := n.dead.set a true } b)
  have hdrop := (drop g { n with dead := (n.dead.set a true).set b true } a).trans (drop g _ b)
  have hroot : ∀ m : Net, Waning m { m with root := m.root.filter fun p => p.node != a && p.node != b } :=
    fun m => of_eq rfl rfl rfl rfl rfl
  have hall := (hkill.trans hdrop).trans (hroot _)
  unfold LinEngine.retire
  dsimp only
  split_ifs
  · exact hall
  · have ha := (hdrop.trans (hroot _)).dead (v := a) ((kill { n with dead := n.dead.set a true } b).dead (Table.get_set_self _ _ _))
    have hb := (hdrop.trans (hroot _)).dead (v := b) (Table.get_set_self _ _ _)
    have hfirst := releaseNow _ ha
    exact hall.trans (hfirst.trans (releaseNow _ (hfirst.dead hb)))

end Waning

/-! ## Allocation -/

section Alloc

variable {g : Globals} {k n m : Net} {S : Set ℕ}

/-- Every fan of `n` is one of `k`, no more alive than there, or has a gauge of the set. -/
def FansFrom (k : Net) (S : Set ℕ) (n : Net) : Prop := ∀ v, n.tag.get v = .dup →
  (k.tag.get v = .dup ∧ n.scope.get v = k.scope.get v ∧ (n.live v = true → k.live v = true)) ∨ n.scope.get v ∈ S

lemma FansFrom.refl (n : Net) (S : Set ℕ) : FansFrom n S n := fun _ hv => .inl ⟨hv, rfl, id⟩

lemma FansFrom.wane (h : FansFrom k S n) (hw : Waning n m) : FansFrom k S m := by
  intro v hv
  obtain ⟨ht, hs, hlive⟩ := hw.fan hv
  rw [hs]
  exact (h v ht).imp_left fun hk => ⟨hk.1, hk.2.1, fun hm => hk.2.2 (hlive hm)⟩

lemma netAlloc_slots (g : Globals) (n : Net) (t : Tag) (s : ℕ) :
    (netAlloc g n t s).2.scope = n.scope.set (netAlloc g n t s).1 s ∧
      (netAlloc g n t s).2.tag = n.tag.set (netAlloc g n t s).1 t ∧
      (netAlloc g n t s).2.dead = n.dead.set (netAlloc g n t s).1 false ∧
      ∀ v, v ≠ (netAlloc g n t s).1 → v < (netAlloc g n t s).2.nn → v < n.nn := by
  unfold netAlloc
  split
  · exact ⟨rfl, rfl, rfl, fun v _ h => h⟩
  · exact ⟨rfl, rfl, rfl, fun v hne h => lt_of_le_of_ne (Nat.lt_succ_iff.1 h) hne⟩

lemma FansFrom.netAlloc {t : Tag} {s : ℕ} (h : FansFrom k S n) (hs : t = .dup → s ∈ S) :
    FansFrom k S (netAlloc g n t s).2 := by
  obtain ⟨hscope, htag, hdead, hnn⟩ := netAlloc_slots g n t s
  intro v hv
  rw [htag, Table.get_set] at hv
  rw [hscope, Table.get_set]
  by_cases hid : (LinEngine.netAlloc g n t s).1 = v
  · rw [if_pos hid] at hv ⊢
    exact .inr (hs hv)
  · rw [if_neg hid] at hv ⊢
    refine (h v hv).imp_left fun hk => ⟨hk.1, hk.2.1, fun hlive => hk.2.2 ?_⟩
    simp only [Net.live, Net.inNet, hdead, Table.get_set, if_neg hid, Bool.and_eq_true, decide_eq_true_eq] at hlive ⊢
    exact ⟨hnn v (Ne.symm hid) hlive.1, hlive.2⟩

lemma Twins.netAlloc {t : Tag} {s s' : ℕ} (h : Twins n m) (hs : t = .lam ∨ t = .app ∨ s = s') :
    (netAlloc g m t s').1 = (netAlloc g n t s).1 ∧ Twins (netAlloc g n t s).2 (netAlloc g m t s').2 := by
  obtain ⟨sc, ls, rfl, hsc⟩ := h
  have hsame : LinEngine.netAlloc g (n.regauge sc ls) t s' = ((LinEngine.netAlloc g n t s).1,
      (LinEngine.netAlloc g n t s).2.regauge (sc.set (LinEngine.netAlloc g n t s).1 s') ls) := by
    have hfree : (n.regauge sc ls).freeHead = n.freeHead := rfl
    unfold LinEngine.netAlloc
    rw [hfree]
    cases g.inParallel <;> cases n.freeHead <;> rfl
  obtain ⟨hscope, htag, hdead, -⟩ := netAlloc_slots g n t s
  rw [hsame]
  refine ⟨rfl, _, ls, rfl, fun v hv => ?_⟩
  rw [hscope, Table.get_set, Table.get_set]
  unfold Gauged at hv
  rw [htag, hdead, Table.get_set, Table.get_set] at hv
  by_cases hid : (LinEngine.netAlloc g n t s).1 = v
  · rw [if_pos hid] at hv ⊢
    rw [if_pos hid]
    rcases hs with ht | ht | rfl
    · exact absurd ht hv.1
    · exact absurd ht hv.2.1
    · rfl
  · rw [if_neg hid] at hv ⊢
    rw [if_neg hid] at hv ⊢
    exact hsc v hv

lemma Twins.map {f : Net → Net} (h : Twins n m) (hf : ∀ n sc ls, f (n.regauge sc ls) = (f n).regauge sc ls)
    (hw : ∀ n, Waning n (f n)) : Twins (f n) (f m) := by
  obtain ⟨sc, ls, rfl, hsc⟩ := h
  exact ⟨sc, ls, hf n sc ls, fun v hv => by rw [(hw n).scope]; exact hsc v ((hw n).gauged hv)⟩

lemma Twins.netLink (h : Twins n m) (a b : Option Port) (e : Bool) : Twins (netLink g n a b e) (netLink g m a b e) :=
  h.map (fun n sc ls => regauge_netLink g n sc ls a b e) fun n => (Waning.linking g).netLink n a b e

/-- The copies of a pair get the same slots, whatever gauges the functions and applications get. -/
lemma Twins.split2 {sa sb sa' sb' : ℕ} (h : Twins n m) (t1 t2 : Tag) (s2 : ℕ)
    (ha : t1 = .lam ∨ t1 = .app ∨ sa = sa') (hb : t1 = .lam ∨ t1 = .app ∨ sb = sb') :
    (split2 g m t1 sa' sb' t2 s2).1 = (split2 g n t1 sa sb t2 s2).1 ∧
      Twins (split2 g n t1 sa sb t2 s2).2 (split2 g m t1 sa' sb' t2 s2).2 := by
  obtain ⟨h1, hn1⟩ := h.netAlloc (g := g) ha
  obtain ⟨h2, hn2⟩ := hn1.netAlloc (g := g) hb
  obtain ⟨h3, hn3⟩ := hn2.netAlloc (g := g) (t := t2) (s := s2) (.inr (.inr rfl))
  obtain ⟨h4, hn4⟩ := hn3.netAlloc (g := g) (t := t2) (s := s2) (.inr (.inr rfl))
  unfold LinEngine.split2
  dsimp only
  rw [h1, h2, h3, h4]
  exact ⟨rfl, (((hn4.netLink _ _ _).netLink _ _ _).netLink _ _ _).netLink _ _ _⟩

lemma FansFrom.split2 {t1 t2 : Tag} {sa sb s2 : ℕ} (h : FansFrom k S n) (ha : t1 = .dup → sa ∈ S)
    (hb : t1 = .dup → sb ∈ S) (h2 : s2 ∈ S) : FansFrom k S (split2 g n t1 sa sb t2 s2).2 := by
  have hlink := (Waning.linking g).netLink
  have hcopies := (((h.netAlloc (g := g) ha).netAlloc (g := g) hb).netAlloc (g := g) (t := t2) fun _ => h2).netAlloc
    (g := g) (t := t2) fun _ => h2
  unfold LinEngine.split2
  dsimp only
  exact (((hcopies.wane (hlink _ _ _ _)).wane (hlink _ _ _ _)).wane (hlink _ _ _ _)).wane (hlink _ _ _ _)

/-- A path label changes the levels only. -/
lemma lvlPrefix2_levels (n : Net) (gen a b : ℕ) : ∃ ls, (lvlPrefix2 n gen a b).2 = n.regauge n.scope ls := by
  have hedge : ∀ (n : Net) (parent bit : ℕ), ∃ ls, (lvIntern n parent bit).2 = n.regauge n.scope ls := by
    intro n parent bit
    unfold lvIntern
    dsimp only
    split_ifs
    · exact ⟨n.levels, rfl⟩
    · exact ⟨_, rfl⟩
    · exact ⟨_, rfl⟩
  have hpath : ∀ (bs : List ℕ) (n : Net) (cur : ℕ), ∃ ls, (lvInternPath n cur bs).2 = n.regauge n.scope ls := by
    intro bs
    induction bs with
    | nil => exact fun n _ => ⟨n.levels, rfl⟩
    | cons b bs ih =>
      intro n cur
      obtain ⟨ls, hls⟩ := hedge n cur b
      obtain ⟨ls', hls'⟩ := ih (lvIntern n cur b).2 (lvIntern n cur b).1
      exact ⟨ls', by rw [lvInternPath, hls', hls]; rfl⟩
  obtain ⟨ls, hls⟩ := hedge n 0 gen
  obtain ⟨ls', hls'⟩ := hpath (lvlPath n a ++ lvlPath n b) (lvIntern n 0 gen).2 (lvIntern n 0 gen).1
  exact ⟨ls', by rw [lvlPrefix2, hls', hls]; rfl⟩

lemma Twins.lvlPrefix2 (h : Twins n m) (gen a b a' b' : ℕ) : Twins (lvlPrefix2 n gen a b).2 (lvlPrefix2 m gen a' b').2 := by
  obtain ⟨sc, ls, rfl, hsc⟩ := h
  obtain ⟨ls1, h1⟩ := lvlPrefix2_levels n gen a b
  obtain ⟨ls2, h2⟩ := lvlPrefix2_levels (n.regauge sc ls) gen a' b'
  rw [h1, h2]
  exact ⟨sc, ls2, rfl, hsc⟩

lemma FansFrom.lvlPrefix2 (h : FansFrom k S n) (gen a b : ℕ) : FansFrom k S (lvlPrefix2 n gen a b).2 := by
  obtain ⟨ls, hls⟩ := lvlPrefix2_levels n gen a b
  rw [hls]
  exact h

end Alloc

/-! ## The rules -/

/-- The branches of `netInteract`. -/
inductive Rule
  | beta
  | annihilate
  | copyFan
  | copyValue
  | inert
  deriving DecidableEq, Repr

/-- The branch for a pair in tag order. -/
def ruleOf (n : Net) (n1 n2 : ℕ) : Rule :=
  match n.tag.get n1, n.tag.get n2 with
  | .lam, .app => .beta
  | .dup, .dup => if n.scope.get n1 = n.scope.get n2 then .annihilate else .copyFan
  | .lam, .dup => .copyValue
  | .app, .dup => .copyValue
  | _, _ => .inert

/-- What each branch does. -/
def Rule.fire (g : Globals) (n : Net) (n1 n2 : ℕ) : Rule → Bool × Net
  | .beta => (true, retire g (pairBoundary g n n1 n2 [(1, 5), (2, 4)]) n1 n2)
  | .annihilate => (true, retire g (pairBoundary g n n1 n2 [(1, 4), (2, 5)]) n1 n2)
  | .copyFan =>
    let r := split2 g n .dup (n.scope.get n1) (n.scope.get n1) .dup (n.scope.get n2)
    (true, retire g (linkCopies g r.2 n1 n2 (auxTargets n n1 n2) r.1.at) n1 n2)
  | .copyValue =>
    let l1 := lvlPrefix2 n 1 (n.scope.get n1) (n.scope.get n2)
    let l2 := lvlPrefix2 l1.2 2 (n.scope.get n1) (n.scope.get n2)
    let r := split2 g l2.2 (n.tag.get n1) l1.1 l2.1 .dup (n.scope.get n2)
    (true, retire g (linkCopies g r.2 n1 n2 (auxTargets n n1 n2) r.1.at) n1 n2)
  | .inert => (false, n)

lemma interactSorted_eq (g : Globals) (n : Net) (a b : ℕ) : interactSorted g n a b = (ruleOf n a b).fire g n a b := by
  unfold interactSorted ruleOf
  cases hta : n.tag.get a <;> cases htb : n.tag.get b <;> simp [Rule.fire, hta]
  split_ifs <;> rfl

section Fire

variable {g : Globals} {n m : Net}

lemma Twins.dup (h : Twins n m) {v : ℕ} (hv : n.tag.get v = .dup) : m.scope.get v = n.scope.get v := by
  obtain ⟨sc, ls, rfl, hsc⟩ := h
  exact hsc v ⟨by rw [hv]; decide, by rw [hv]; decide, fun hd => absurd (hv.symm.trans hd.2) (by decide)⟩

lemma Twins.tag (h : Twins n m) : m.tag = n.tag := by
  obtain ⟨sc, ls, rfl, -⟩ := h
  rfl

lemma Twins.wireAt (h : Twins n m) : m.wireAt = n.wireAt := by
  obtain ⟨sc, ls, rfl, -⟩ := h
  rfl

lemma Twins.redexLive (h : Twins n m) (p q : Port) : redexLive m p q = redexLive n p q := by
  obtain ⟨sc, ls, rfl, -⟩ := h
  rfl

/-- Which rule applies depends on the gauges of fans only. -/
lemma Twins.ruleOf (h : Twins n m) (a b : ℕ) : ruleOf m a b = ruleOf n a b := by
  unfold LinEngine.ruleOf
  rw [h.tag]
  cases hta : n.tag.get a <;> cases htb : n.tag.get b <;> try rfl
  rw [h.dup hta, h.dup htb]

lemma Twins.retire (h : Twins n m) (a b : ℕ) : Twins (retire g n a b) (retire g m a b) :=
  h.map (fun n sc ls => regauge_retire g n sc ls a b) fun n => Waning.retire g n a b

lemma Twins.pairBoundary (h : Twins n m) (a b : ℕ) (cor : List (ℕ × ℕ)) :
    Twins (pairBoundary g n a b cor) (pairBoundary g m a b cor) :=
  h.map (fun n sc ls => regauge_pairBoundary g n sc ls a b cor) fun n => (Waning.linking g).pairBoundary n a b cor

lemma Twins.linkCopies (h : Twins n m) (a b : ℕ) (t : Fin 4 → Option Port) (cp : Fin 4 → ℕ) :
    Twins (linkCopies g n a b t cp) (linkCopies g m a b t cp) :=
  h.map (fun n sc ls => regauge_linkCopies g n sc ls a b t cp) fun n => (Waning.linking g).linkCopies n a b t cp

lemma Twins.auxTargets (h : Twins n m) (a b : ℕ) : auxTargets m a b = auxTargets n a b := by
  obtain ⟨sc, ls, rfl, -⟩ := h
  rfl

lemma ruleOf_copyFan {a b : ℕ} (h : ruleOf n a b = .copyFan) : n.tag.get a = .dup ∧ n.tag.get b = .dup := by
  unfold ruleOf at h
  cases hta : n.tag.get a <;> cases htb : n.tag.get b <;> simp [hta, htb] at h ⊢

lemma ruleOf_copyValue {a b : ℕ} (h : ruleOf n a b = .copyValue) :
    (n.tag.get a = .lam ∨ n.tag.get a = .app) ∧ n.tag.get b = .dup := by
  unfold ruleOf at h
  cases hta : n.tag.get a <;> cases htb : n.tag.get b <;> simp [hta, htb] at h ⊢
  split_ifs at h

/-- Twins stay twins under any rule. -/
lemma Twins.interactSorted (h : Twins n m) (a b : ℕ) :
    (interactSorted g m a b).1 = (interactSorted g n a b).1 ∧
      Twins (interactSorted g n a b).2 (interactSorted g m a b).2 := by
  rw [interactSorted_eq, interactSorted_eq, h.ruleOf]
  cases hr : LinEngine.ruleOf n a b with
  | beta => exact ⟨rfl, (h.pairBoundary a b _).retire a b⟩
  | annihilate => exact ⟨rfl, (h.pairBoundary a b _).retire a b⟩
  | copyFan =>
    obtain ⟨hta, htb⟩ := ruleOf_copyFan hr
    have hkeep : Tag.dup = .lam ∨ Tag.dup = .app ∨ n.scope.get a = n.scope.get a := .inr (.inr rfl)
    obtain ⟨hcopies, hsplit⟩ := h.split2 (g := g) .dup .dup (n.scope.get b) hkeep hkeep
    refine ⟨rfl, ?_⟩
    simp only [Rule.fire]
    rw [h.dup hta, h.dup htb, h.auxTargets, hcopies]
    exact (hsplit.linkCopies a b _ _).retire a b
  | copyValue =>
    obtain ⟨hta, htb⟩ := ruleOf_copyValue hr
    have hlevels := (h.lvlPrefix2 1 (n.scope.get a) (n.scope.get b) (m.scope.get a) (n.scope.get b)).lvlPrefix2 2
      (n.scope.get a) (n.scope.get b) (m.scope.get a) (n.scope.get b)
    obtain ⟨hcopies, hsplit⟩ := hlevels.split2 (g := g) (n.tag.get a) .dup (n.scope.get b)
      (hta.imp_right .inl) (hta.imp_right .inl)
    refine ⟨rfl, ?_⟩
    simp only [Rule.fire]
    rw [h.tag, h.dup htb, h.auxTargets, hcopies]
    exact (hsplit.linkCopies a b _ _).retire a b
  | inert => exact ⟨rfl, h⟩

lemma Twins.netInteract (h : Twins n m) (p q : Port) :
    (netInteract g m p q).1 = (netInteract g n p q).1 ∧ Twins (netInteract g n p q).2 (netInteract g m p q).2 := by
  unfold LinEngine.netInteract
  rw [h.tag]
  split_ifs
  · exact h.interactSorted q.node p.node
  · exact h.interactSorted p.node q.node

/-- The copies of a fan take the gauges of the pair. -/
lemma interactSorted_fansFrom {S : Set ℕ} {a b : ℕ} (ha : n.tag.get a = .dup → n.scope.get a ∈ S)
    (hb : n.tag.get b = .dup → n.scope.get b ∈ S) : FansFrom n S (interactSorted g n a b).2 := by
  have h := FansFrom.refl n S
  have hend : ∀ {k : Net} (t : Fin 4 → Option Port) (cp : Fin 4 → ℕ), FansFrom n S k →
      FansFrom n S (LinEngine.retire g (LinEngine.linkCopies g k a b t cp) a b) := by
    intro k t cp hk
    exact (hk.wane ((Waning.linking g).linkCopies k a b t cp)).wane (Waning.retire g _ a b)
  rw [interactSorted_eq]
  cases hr : ruleOf n a b with
  | beta => exact (h.wane ((Waning.linking g).pairBoundary n a b _)).wane (Waning.retire g _ a b)
  | annihilate => exact (h.wane ((Waning.linking g).pairBoundary n a b _)).wane (Waning.retire g _ a b)
  | copyFan =>
    obtain ⟨hta, htb⟩ := ruleOf_copyFan hr
    exact hend _ _ (h.split2 (fun _ => ha hta) (fun _ => ha hta) (hb htb))
  | copyValue =>
    obtain ⟨hta, htb⟩ := ruleOf_copyValue hr
    have hval : n.tag.get a ≠ .dup := by rcases hta with h | h <;> rw [h] <;> decide
    exact hend _ _ (((h.lvlPrefix2 1 _ _).lvlPrefix2 2 _ _).split2 (fun hd => absurd hd hval) (fun hd => absurd hd hval)
      (hb htb))
  | inert => exact h

lemma redexLive_live {p q : Port} (h : redexLive n p q = true) : n.live p.node = true ∧ n.live q.node = true := by
  simp only [redexLive, Bool.and_eq_true] at h
  exact ⟨h.1.1.1.1.1, h.1.1.1.1.2⟩

/-- A rule gives fans the gauges of fans of its pair only. -/
lemma netInteract_fansFrom (g : Globals) (n : Net) (p q : Port) :
    FansFrom n {s | ∃ v, (v = p.node ∨ v = q.node) ∧ n.tag.get v = .dup ∧ n.scope.get v = s} (netInteract g n p q).2 := by
  unfold netInteract
  split_ifs
  · exact interactSorted_fansFrom (fun ht => ⟨_, .inr rfl, ht, rfl⟩) fun ht => ⟨_, .inl rfl, ht, rfl⟩
  · exact interactSorted_fansFrom (fun ht => ⟨_, .inl rfl, ht, rfl⟩) fun ht => ⟨_, .inr rfl, ht, rfl⟩

/-- A rule that is enabled gives fans the gauges of live fans only. -/
lemma netInteract_fanGauge {p q : Port} (h : redexLive n p q = true) {s : ℕ}
    (hs : FanGauge (netInteract g n p q).2 s) : FanGauge n s := by
  obtain ⟨hp, hq⟩ := redexLive_live h
  obtain ⟨v, hlive, hv, rfl⟩ := hs
  rcases netInteract_fansFrom g n p q v hv with ⟨ht, hscope, hn⟩ | ⟨u, hu | hu, ht, hscope⟩
  · exact ⟨v, hn hlive, ht, hscope.symm⟩
  · exact ⟨u, hu ▸ hp, ht, hscope⟩
  · exact ⟨u, hu ▸ hq, ht, hscope⟩

end Fire

/-- The rules for a list of pairs, in order. -/
def fireAll (g : Globals) (n : Net) (as : List (Port × Port)) : Net := as.foldl (fun n a => (netInteract g n a.1 a.2).2) n

/-- The rule for a pair, whichever way round it is given. -/
def pairRule (n : Net) (a : Port × Port) : Rule :=
  let s := sortPair (n.tag.get a.1.node) (n.tag.get a.2.node) a.1.node a.2.node
  ruleOf n s.1 s.2

lemma Twins.pairRule {n m : Net} (h : Twins n m) (a : Port × Port) : pairRule m a = pairRule n a := by
  unfold LinEngine.pairRule
  rw [h.tag]
  exact h.ruleOf _ _

lemma Twins.fireAll {g : Globals} {n m : Net} (h : Twins n m) (as : List (Port × Port)) :
    Twins (fireAll g n as) (fireAll g m as) := by
  induction as generalizing n m with
  | nil => exact h
  | cons a as ih => exact ih (h.netInteract a.1 a.2).2

/-- Whatever pairs have been fired in two nets that differ in the gauges of functions and
applications and in their levels only, a pair is a redex of both or of neither, the same
rule applies to it, and the nets still differ in such gauges only after it. A fan has the
gauge of a fan that was there before. -/
theorem fireAll_twins (g : Globals) {n m : Net} (h : Twins n m) (as : List (Port × Port)) (a : Port × Port) :
    redexLive (fireAll g m as) a.1 a.2 = redexLive (fireAll g n as) a.1 a.2 ∧
      pairRule (fireAll g m as) a = pairRule (fireAll g n as) a ∧
      (netInteract g (fireAll g m as) a.1 a.2).1 = (netInteract g (fireAll g n as) a.1 a.2).1 ∧
      Twins (netInteract g (fireAll g n as) a.1 a.2).2 (netInteract g (fireAll g m as) a.1 a.2).2 ∧
      (redexLive (fireAll g n as) a.1 a.2 = true → ∀ s, FanGauge (netInteract g (fireAll g n as) a.1 a.2).2 s →
        FanGauge (fireAll g n as) s) := by
  have hrun := h.fireAll (g := g) as
  obtain ⟨hflag, hnext⟩ := hrun.netInteract (g := g) a.1 a.2
  exact ⟨hrun.redexLive a.1 a.2, hrun.pairRule a, hflag, hnext, fun hlive s => netInteract_fanGauge hlive⟩

/-- `(\x.x) (\x.x x)` with another gauge on the second function and one more level. -/
def identityTwin : Net := identityNet.regauge (identityNet.scope.set 3 0) (identityNet.levels ++ [⟨6, 0, 4⟩])

lemma identityNet_twins : Twins identityNet identityTwin := by
  refine ⟨_, _, rfl, fun v hv => Table.get_set_ne _ ?_ 0⟩
  rintro rfl
  exact hv.1 (by decide +kernel)

theorem identityNet_fireAll : redexLive identityTwin ⟨1, 0⟩ ⟨2, 0⟩ = true ∧
    Twins (netInteract .serial identityNet ⟨1, 0⟩ ⟨2, 0⟩).2 (netInteract .serial identityTwin ⟨1, 0⟩ ⟨2, 0⟩).2 ∧
      ∀ s, FanGauge (netInteract .serial identityNet ⟨1, 0⟩ ⟨2, 0⟩).2 s → FanGauge identityNet s := by
  obtain ⟨hlive, -, -, hnext, hfans⟩ := fireAll_twins .serial identityNet_twins [] (⟨1, 0⟩, ⟨2, 0⟩)
  have hredex : redexLive identityNet ⟨1, 0⟩ ⟨2, 0⟩ = true := by decide +kernel
  exact ⟨hlive.trans hredex, hnext, hfans hredex⟩

end LinEngine
