import LinEngine.ActQueue
import LinEngine.Container
import LinEngine.Forcing
import LinEngine.Outcome

/-!
# Saving and loading

The writer of the `.line` container, and what its loader makes of a file that was written: the net
that was saved but for the scheduling state, which is found again. Runs of the loaded net and of the saved one
match, firing for firing.
-/
namespace LinEngine.Container

open Format Lambda

/-! ## The writer -/

def portWord : Option Port → ℕ
  | none => noneWord
  | some p => p.node + p.port * 2 ^ 30

/-- A driver as the container sees it: `save` is the state it hands over, `none` where it has no hook or declines. -/
structure Carrier where
  name : List UInt8
  presence : Bool
  save : Option (List UInt8)

/-- The sections of the loaded drivers, slot by slot. -/
def carrySections (slots : List (Option Carrier)) : List (List UInt8 × List UInt8) :=
  slots.filterMap fun d => d.bind fun d =>
    match d.save with
    | some blob => some (d.name, blob)
    | none => if d.presence then some (d.name, []) else none

def sectionBytes (s : List UInt8 × List UInt8) : List UInt8 :=
  .ofNat s.1.length :: (s.1 ++ (wordBytes s.2.length ++ s.2))

/-- `lin_driver_carry_write`: the count is that of all sections, and one with too long a name is left out behind it. -/
def carryWrite (slots : List (Option Carrier)) : List UInt8 :=
  let sec := carrySections slots
  wordBytes sec.length ++ (sec.filter fun s => s.1.length ≤ 255).flatMap sectionBytes

/-- `net_save_line`, for the engine at `self`. -/
def netSaveLine (self : List UInt8) (n : Net) (slots : List (Option Carrier)) : List UInt8 :=
  35 :: 33 :: (self ++ 10 :: (lineMagic ++ ([7, n.nn, n.levels.length, 0].flatMap wordBytes ++
    ((List.range n.nn).map (fun v => .ofNat (n.tag.get v).rank) ++
    ((List.range n.nn).map (fun v => if n.dead.get v then 1 else 0) ++
    ((List.range (3 * n.nn)).flatMap (fun i => wordBytes (portWord (n.wire.get i))) ++
    ((List.range n.nn).flatMap (fun v => wordBytes (n.scope.get v)) ++
    (n.levels.flatMap (fun l => wordBytes l.parent) ++
    (n.levels.map (fun l => .ofNat l.bit) ++
    (wordBytes n.root.length ++ (n.root.flatMap (fun p => wordBytes (portWord (some p))) ++ carryWrite slots)))))))))))

/-! ## The net of the words -/

def portOfWord (w : ℕ) : Option Port :=
  if nodeOf w < 0 then none else some ⟨(nodeOf w).toNat, Fin.ofNat 3 (portOf w)⟩

def tagOfByte (b : UInt8) : Tag :=
  match b.toNat with
  | 0 => .lam
  | 1 => .app
  | 2 => .dup
  | 3 => .era
  | _ => .root

/-- The loaded words as a net of the rules. -/
def RawNet.net (r : RawNet) : Net where
  nn := r.nn
  tag := ⟨r.tag.map tagOfByte⟩
  wire := ⟨r.wire.map portOfWord⟩
  scope := ⟨r.scope⟩
  dead := ⟨r.dead.map (· != 0)⟩
  act := ⟨r.act.flatMap fun a => [(portOfWord a.1).getD ⟨0, 0⟩, (portOfWord a.2).getD ⟨0, 0⟩]⟩
  atop := 2 * r.act.length
  actOf := r.actOf
  levels := (r.parent.zip (r.bit.zip r.depth)).map fun l => ⟨l.1.toNat, l.2.1.toNat, (l.2.2.getD 0).toNat⟩
  root := r.root.filterMap portOfWord
  freeHead := none
  nfree := 0
  pendHead := none
  pins := 0
  dem := .empty
  demStamp := 0
  vport := .empty
  tact := .empty
  steps := 0

/-- What the words of the file have room for: the counts, the ends of the wires, the gauges, the bits of the trie,
and demand roots of the net, each once. -/
structure Storable (n : Net) : Prop where
  nodes : n.nn ≤ 2 ^ 29
  slots : (n.nn + 16) * 3 < 2 ^ 31
  wires : ∀ i < 3 * n.nn, ∀ p, n.wire.get i = some p → p.node < n.nn
  scopes : ∀ v < n.nn, n.scope.get v < 2 ^ 32
  levels : n.levels.length + 1 < 2 ^ 30
  bits : ∀ l ∈ n.levels, l.bit < 256
  roots : n.root.length < 2 ^ 32 ∧ n.root.Nodup ∧ ∀ p ∈ n.root, p.node < n.nn

/-! ## Words of ports -/

section Words

variable {p : Port}

lemma nodeOf_portWord (hp : p.node < 2 ^ 29) : nodeOf (portWord (some p)) = p.node := by
  have hmod : (p.node + (p.port : ℕ) * 2 ^ 30) % 2 ^ 30 = p.node := by omega
  rw [nodeOf, portWord, hmod, if_pos hp]
  exact_mod_cast hmod

lemma portOf_portWord (hp : p.node < 2 ^ 29) : portOf (portWord (some p)) = p.port := by
  simp only [portOf, portWord]
  omega

lemma portWord_lt (hp : p.node < 2 ^ 29) : portWord (some p) < 2 ^ 32 := by
  have := p.port.isLt
  simp only [portWord]
  omega

lemma portOfWord_portWord (w : Option Port) (hw : ∀ q, w = some q → q.node < 2 ^ 29) : portOfWord (portWord w) = w := by
  cases w with
  | none => rfl
  | some q =>
    have hq := hw q rfl
    rw [portOfWord, nodeOf_portWord hq, if_neg (by omega), portOf_portWord hq]
    simp

lemma portWord_inj {q : Port} (hp : p.node < 2 ^ 29) (hq : q.node < 2 ^ 29)
    (h : portWord (some p) = portWord (some q)) : p = q := by
  have hback := congrArg portOfWord h
  rw [portOfWord_portWord _ fun r hr => Option.some.inj hr ▸ hp,
    portOfWord_portWord _ fun r hr => Option.some.inj hr ▸ hq] at hback
  exact Option.some.inj hback

lemma tagOfByte_rank (t : Tag) : tagOfByte (.ofNat t.rank) = t := by
  cases t <;> rfl

end Words

/-! ## Reading back the bytes -/

section Bytes

variable {n : Net}

/-- The words behind the magic, as they are written. -/
def savedHeader (n : Net) : Header := ⟨7, n.nn, n.levels.length, 0⟩

def savedFront (n : Net) : Front where
  tag := (List.range n.nn).map fun v => .ofNat (n.tag.get v).rank
  dead := (List.range n.nn).map fun v => if n.dead.get v then 1 else 0
  wire := (List.range (3 * n.nn)).map fun i => portWord (n.wire.get i)
  scope := (List.range n.nn).map n.scope.get
  names := []
  parent := n.levels.map (·.parent)
  bit := n.levels.map fun l => .ofNat l.bit

def savedBack (n : Net) (slots : List (Option Carrier)) : Back :=
  ⟨n.root.map fun p => portWord (some p), [], (carrySections slots).length⟩

/-- The sections behind their count. -/
def savedSections (slots : List (Option Carrier)) : List UInt8 :=
  ((carrySections slots).filter fun s => s.1.length ≤ 255).flatMap sectionBytes

lemma skipShebang_line {self : List UInt8} (hself : 10 ∉ self) (f : List UInt8) :
    skipShebang (35 :: 33 :: (self ++ 10 :: f)) = f := by
  have hdrop : (self ++ 10 :: f).dropWhile (· != 10) = 10 :: f := by
    induction self with
    | nil => rfl
    | cons x self ih =>
      rw [List.mem_cons, not_or] at hself
      have hne : (x != 10) = true := bne_iff_ne.mpr (Ne.symm hself.1)
      rw [List.cons_append, List.dropWhile_cons_of_pos (by simpa using hne)]
      exact ih hself.2
  rw [skipShebang, hdrop, List.tail_cons]

lemma netSaveLine_bytes {self : List UInt8} (hself : 10 ∉ self) (n : Net) (slots : List (Option Carrier)) :
    skipShebang (netSaveLine self n slots) =
      (savedHeader n).bytes ++ ((savedFront n).bytes ++ ((savedBack n slots).bytes 7 ++ savedSections slots)) := by
  rw [netSaveLine, skipShebang_line hself]
  simp only [Header.bytes, savedHeader, Front.bytes, savedFront, Back.bytes, savedBack, savedSections, carryWrite,
    List.flatMap_map, List.flatMap_cons, List.flatMap_nil, List.append_assoc, List.nil_append, List.append_nil,
    List.length_map, if_true, show ¬ (7 = 4) by decide, if_false, show 7 ≤ 7 by decide, show 5 ≤ 7 by decide]

lemma savedHeader_fits (h : Storable n) : (savedHeader n).Fits := by
  have hslots := h.slots
  have hlevels := h.levels
  simp only [Header.Fits, savedHeader]
  omega

lemma toInt_small {w : ℕ} (hw : w < 2 ^ 31) : toInt w = w := if_pos hw

lemma savedHeader_levels (h : Storable n) : (savedHeader n).levels = n.levels.length := by
  have hlt : n.levels.length < 2 ^ 31 := by
    have := h.levels
    omega
  rw [Header.levels, savedHeader, toInt_small hlt, Int.toNat_natCast]

lemma savedFront_fits (h : Storable n) (ht : TrieOk n) : (savedFront n).Fits (savedHeader n) where
  tag := by simp [savedFront, savedHeader]
  dead := by simp [savedFront, savedHeader]
  wire := by
    refine ⟨by simp [savedFront, savedHeader], fun w hw => ?_⟩
    obtain ⟨i, hi, rfl⟩ := List.mem_map.mp hw
    cases hp : n.wire.get i with
    | none => decide
    | some p => exact portWord_lt ((h.wires i (List.mem_range.mp hi) p hp).trans_le h.nodes)
  scope := by
    refine ⟨by simp [savedFront, savedHeader], fun w hw => ?_⟩
    obtain ⟨v, hv, rfl⟩ := List.mem_map.mp hw
    exact h.scopes v (List.mem_range.mp hv)
  names := ⟨rfl, fun _ hx => absurd hx List.not_mem_nil⟩
  parent := by
    rw [savedHeader_levels h]
    refine ⟨by simp [savedFront], fun w hw => ?_⟩
    obtain ⟨l, hl, rfl⟩ := List.mem_map.mp hw
    obtain ⟨i, hi⟩ := List.mem_iff_getElem?.mp hl
    have hlt := (List.getElem?_eq_some_iff.mp hi).1
    have hpar := ht.parent i l hi
    have := h.levels
    omega
  bit := by
    rw [savedHeader_levels h]
    simp [savedFront]

lemma savedBack_fits (h : Storable n) {slots : List (Option Carrier)} (hslots : (carrySections slots).length < 2 ^ 32) :
    (savedBack n slots).Fits 7 where
  root := by
    refine ⟨?_, fun w hw => ?_⟩
    · simpa [savedBack] using h.roots.1
    · obtain ⟨p, hp, rfl⟩ := List.mem_map.mp hw
      exact portWord_lt ((h.roots.2.2 p hp).trans_le h.nodes)
  floats := rfl
  count := hslots

lemma readSection_bytes {s : List UInt8 × List UInt8} (hname : s.1.length ≤ 255) (hblob : s.2.length < 2 ^ 32)
    (f : List UInt8) :
    (do
      let nl ← fread 1
      let name ← fread (ofBytes nl)
      let len ← word
      let blob ← fread len
      pure (name, blob) : Reader (List UInt8 × List UInt8)) (sectionBytes s ++ f) = some (s, f) := by
  have hlen : ofBytes [UInt8.ofNat s.1.length] = s.1.length := by
    simp only [ofBytes, List.foldr, UInt8.toNat_ofNat']
    omega
  have h1 : fread 1 (sectionBytes s ++ f) =
      some ([UInt8.ofNat s.1.length], s.1 ++ (wordBytes s.2.length ++ (s.2 ++ f))) := by
    have hsplit : sectionBytes s ++ f = [UInt8.ofNat s.1.length] ++ (s.1 ++ (wordBytes s.2.length ++ (s.2 ++ f))) := by
      simp [sectionBytes]
    rw [hsplit]
    exact (parses_fread 1).read rfl _
  have h2 : fread (ofBytes [UInt8.ofNat s.1.length]) (s.1 ++ (wordBytes s.2.length ++ (s.2 ++ f))) =
      some (s.1, wordBytes s.2.length ++ (s.2 ++ f)) := by
    rw [hlen]
    exact (parses_fread _).read rfl _
  have h3 : word (wordBytes s.2.length ++ (s.2 ++ f)) = some (s.2.length, s.2 ++ f) := parses_word.read hblob _
  have h4 : fread s.2.length (s.2 ++ f) = some (s.2, f) := (parses_fread _).read rfl _
  change (fread 1 (sectionBytes s ++ f)).bind (fun x => (fread (ofBytes x.1) x.2).bind fun y => (word y.2).bind fun z =>
    (fread z.1 z.2).bind fun w => some ((y.1, w.1), w.2)) = _
  rw [h1, Option.bind_some, h2, Option.bind_some, h3, Option.bind_some, h4, Option.bind_some]

/-- As many sections are read as are there, and no more. -/
lemma carryRead_sections (secs : List (List UInt8 × List UInt8)) (extra : ℕ)
    (h : ∀ s ∈ secs, s.1.length ≤ 255 ∧ s.2.length < 2 ^ 32) :
    carryRead (secs.length + extra) (secs.flatMap sectionBytes) = secs := by
  induction secs with
  | nil => cases extra <;> rfl
  | cons s secs ih =>
    obtain ⟨hs, hsecs⟩ := List.forall_mem_cons.mp h
    rw [List.length_cons, Nat.add_right_comm, carryRead, List.flatMap_cons, readSection_bytes hs.1 hs.2]
    simp only [ih hsecs]

lemma carryRead_saved (slots : List (Option Carrier)) (hblobs : ∀ s ∈ carrySections slots, s.2.length < 2 ^ 32) :
    carryRead (carrySections slots).length (savedSections slots) =
      (carrySections slots).filter fun s => s.1.length ≤ 255 := by
  obtain ⟨extra, hextra⟩ : ∃ k, (carrySections slots).length =
      ((carrySections slots).filter fun s => s.1.length ≤ 255).length + k :=
    Nat.exists_eq_add_of_le (List.length_filter_le _ _)
  rw [hextra, savedSections, carryRead_sections]
  intro s hs
  obtain ⟨hmem, hlen⟩ := List.mem_filter.mp hs
  exact ⟨by simpa using hlen, hblobs s hmem⟩

lemma trieFault_saved (h : Storable n) (ht : TrieOk n) : ¬ TrieFault (savedHeader n) (savedFront n) := by
  have hroom : ∀ k, k ≤ lvCap k := fun k => (Nat.le_pow_clog one_lt_two k).trans (le_max_right _ _)
  rintro (hbig | ⟨p, hp, hbad⟩)
  · rw [savedHeader_levels h] at hbig
    exact absurd h.levels (not_lt.mpr hbig)
  · obtain ⟨l, hl, rfl⟩ := List.mem_map.mp hp
    obtain ⟨i, hi⟩ := List.mem_iff_getElem?.mp hl
    have hlt := (List.getElem?_eq_some_iff.mp hi).1
    have hpar := ht.parent i l hi
    have hlev := h.levels
    have hcap := hroom (n.levels.length + 1)
    rw [toInt_small (by omega), savedHeader_levels h] at hbad
    omega

/-- Up to the queue, the loader installs what was saved. -/
lemma netLoadLine_saved (h : Storable n) (ht : TrieOk n) {self : List UInt8} (hself : 10 ∉ self)
    {slots : List (Option Carrier)} (hslots : (carrySections slots).length < 2 ^ 32) :
    netLoadLine (netSaveLine self n slots) =
      loadQueue (savedHeader n) (savedFront n) (savedBack n slots) (savedSections slots) := by
  have hcount : ∀ left, countFault (savedHeader n).nn left = none := by
    intro left
    have hlt := h.slots
    have hint : toInt n.nn = n.nn := toInt_small (by omega)
    simp only [countFault, savedHeader, hint]
    rw [if_pos (by omega), if_pos (by omega)]
  rw [netLoadLine, netSaveLine_bytes hself, parses_header.read (savedHeader_fits h)]
  simp only [loadFront, hcount]
  rw [(parses_front _).read (savedFront_fits h ht)]
  simp only [loadBack, if_neg (trieFault_saved h ht)]
  rw [show (savedHeader n).ver = 7 from rfl, (parses_back 7).read (savedBack_fits h hslots)]

end Bytes

/-! ## The queue that is found again -/

/-- Queue the pair of node `i`, as the loader does. -/
def seedStep (n : Net) (i : ℕ) : Net :=
  match n.wireAt ⟨i, 0⟩ with
  | some q => if q.port = 0 ∧ i < q.node then LinEngine.actPush n ⟨i, 0⟩ q else n
  | none => n

/-- The principal wire of a dead node leads to no live one. -/
def DeadEnded (n : Net) : Prop :=
  ∀ {v : ℕ}, v < n.nn → n.dead.get v = true → ∀ {q : Port}, n.wireAt ⟨v, 0⟩ = some q → n.live q.node = false

lemma deadEnded_of_orderly {n : Net} (h : Orderly n) : DeadEnded n := by
  intro v hv hd q hq
  obtain ⟨S, h⟩ := h
  obtain ⟨l, l', hs⟩ := h.slots
  have hnot : n.dead.get q.node = true → n.live q.node = false := fun hdead => by simp [Net.live, hdead]
  have hchain : ∀ {i : Option ℕ} {l : List ℕ}, FreeChain n i l → v ∈ l → n.dead.get q.node = true := by
    intro i l hc hmem
    induction hc with
    | nil => exact absurd hmem List.not_mem_nil
    | @cons u l _ _ _ hrest ih =>
      rcases List.mem_cons.mp hmem with rfl | hmem
      · rw [hq] at hrest
        obtain ⟨k, hk⟩ : ∃ k, l = q.node :: k := by
          cases hrest
          exact ⟨_, rfl⟩
        exact (hrest.dead_of_mem (hk ▸ List.mem_cons_self ..)).2
      · exact ih hmem
  refine hnot ?_
  by_cases hl : v ∈ l
  · exact hchain hs.free hl
  · by_cases hl' : v ∈ l'
    · exact hchain hs.pend hl'
    · exact (hs.prin v q hv hd hl hl' hq).2.1

/-- After the nodes below `i`: a sound queue, of principal wires to later nodes, with every such live pair. -/
structure Seeded (n m : Net) (i : ℕ) : Prop where
  queued : Queued m
  rest : m = { n with act := m.act, atop := m.atop, actOf := m.actOf }
  pairs : ∀ a ∈ m.queue, a.1.node < i ∧ a.1.port = 0 ∧ a.2.port = 0 ∧ a.1.node < a.2.node ∧ n.wireAt a.1 = some a.2
  all : ∀ v < i, ∀ q, n.live v = true → n.wireAt ⟨v, 0⟩ = some q → q.port = 0 → v < q.node → (⟨v, 0⟩, q) ∈ m.queue

section Seeded

variable {n m : Net} {i : ℕ}

lemma Seeded.step (hw : Wired n) (ho : DeadEnded n) (h : Seeded n m i) (hi : i < n.nn) :
    Seeded n (seedStep m i) (i + 1) := by
  have hwire : m.wireAt ⟨i, 0⟩ = n.wireAt ⟨i, 0⟩ := by
    rw [h.rest]
    rfl
  have hskip : (∀ q, n.live i = true → n.wireAt ⟨i, 0⟩ = some q → q.port = 0 → i < q.node → (⟨i, 0⟩, q) ∈ m.queue) →
      Seeded n m (i + 1) := by
    intro hall
    refine ⟨h.queued, h.rest, fun a ha => ?_, fun v hv q hl hq hp hlt => ?_⟩
    · obtain ⟨hlt, hrest⟩ := h.pairs a ha
      exact ⟨by omega, hrest⟩
    · rcases Nat.lt_succ_iff_lt_or_eq.mp hv with hv | rfl
      · exact h.all v hv q hl hq hp hlt
      · exact hall q hl hq hp hlt
  cases hq : n.wireAt ⟨i, 0⟩ with
  | none =>
    have hsame : seedStep m i = m := by rw [seedStep, hwire, hq]
    rw [hsame]
    exact hskip fun q _ hq' => absurd (hq.symm.trans hq') (Option.some_ne_none q).symm
  | some q =>
    by_cases hface : q.port = 0 ∧ i < q.node
    · have hpush : seedStep m i = LinEngine.actPush m ⟨i, 0⟩ q := by
        rw [seedStep, hwire, hq]
        exact if_pos hface
      obtain ⟨hqueued, hqueue⟩ := h.queued.actPush (a := ⟨i, 0⟩) (b := q) (Nat.ne_of_lt hface.2)
      rw [hpush]
      split_ifs at hqueue with hfull
      · have hsame : LinEngine.actPush m ⟨i, 0⟩ q = m := if_pos hfull
        rw [hsame]
        -- an end that is queued already belongs to a pair with a live end that is wired elsewhere
        refine hskip fun q' hl hq' _ _ => absurd hfull ?_
        obtain rfl : q = q' := Option.some.inj (hq.symm.trans hq')
        obtain ⟨hlq, hback, -⟩ := hw _ _ hl hq
        have hfree : ∀ u, (u = i ∨ u = q.node) → m.actOf.get u = none := by
          intro u hu
          refine (h.queued.none_iff u).mpr fun a ha htouch => ?_
          obtain ⟨hai, hp1, hp2, hlt, hwa⟩ := h.pairs a ha
          obtain ⟨⟨a1, k1⟩, ⟨a2, k2⟩⟩ := a
          simp only at hai hp1 hp2 hlt hwa htouch
          subst hp1 hp2
          have ha2 : a2 = i ∨ a2 = q.node := by
            rcases htouch with rfl | rfl
            · rcases hu with hu | hu
              · exact absurd hu hai.ne
              · exact absurd (hu ▸ hai) hface.2.asymm
            · exact hu
          have hlive2 : n.live a2 = true := by
            rcases ha2 with rfl | rfl
            · exact hl
            · exact hlq
          have hlive1 : n.live a1 = true := by
            by_contra hdead
            have hd1 : n.dead.get a1 = true := by
              by_contra halive
              exact hdead ((Net.live_iff a1).mpr ⟨hai.trans hi, Bool.eq_false_iff.mpr halive⟩)
            rw [ho (hai.trans hi) hd1 hwa] at hlive2
            exact Bool.false_ne_true hlive2
          obtain ⟨-, hback', -⟩ := hw _ _ hlive1 hwa
          rcases ha2 with rfl | rfl
          · have hlt' := hface.2
            rw [Option.some.inj (hq.symm.trans hback')] at hlt'
            exact absurd hlt' hai.asymm
          · have hq0 : q = ⟨q.node, 0⟩ := by rw [← hface.1]
            rw [← hq0, hback, Option.some_inj, Port.mk.injEq] at hback'
            omega
        rw [hfree i (.inl rfl), hfree q.node (.inr rfl)]
        simp
      · refine ⟨hqueued, ?_, fun a ha => ?_, fun v hv q' hl hq' hp hlt => ?_⟩
        · have hframe : LinEngine.actPush m ⟨i, 0⟩ q = { m with
              act := (LinEngine.actPush m ⟨i, 0⟩ q).act, atop := (LinEngine.actPush m ⟨i, 0⟩ q).atop,
              actOf := (LinEngine.actPush m ⟨i, 0⟩ q).actOf } := by
            unfold LinEngine.actPush
            split_ifs
            rfl
          generalize LinEngine.actPush m ⟨i, 0⟩ q = k at hframe ⊢
          rw [hframe, h.rest]
        · rw [hqueue, List.mem_append, List.mem_singleton] at ha
          rcases ha with ha | rfl
          · obtain ⟨hai, hrest⟩ := h.pairs a ha
            exact ⟨by omega, hrest⟩
          · exact ⟨Nat.lt_succ_self i, rfl, hface.1, hface.2, hq⟩
        · rw [hqueue, List.mem_append, List.mem_singleton]
          rcases Nat.lt_succ_iff_lt_or_eq.mp hv with hv | rfl
          · exact .inl (h.all v hv q' hl hq' hp hlt)
          · rw [Option.some.inj (hq.symm.trans hq')]
            exact .inr rfl
    · have hsame : seedStep m i = m := by
        rw [seedStep, hwire, hq]
        exact if_neg hface
      rw [hsame]
      refine hskip fun q' _ hq' hp hlt => absurd ?_ hface
      rw [Option.some.inj (hq.symm.trans hq')]
      exact ⟨hp, hlt⟩

lemma seeded_all (hw : Wired n) (ho : DeadEnded n) (hempty : n.atop = 0 ∧ n.actOf = .empty) {k : ℕ} (hk : k ≤ n.nn) :
    Seeded n ((List.range k).foldl seedStep n) k := by
  induction k with
  | zero =>
    have hq := queued_empty hempty.1 hempty.2
    have hnil : n.queue = [] := by rw [Net.queue, hempty.1]; rfl
    refine ⟨hq, rfl, fun a ha => ?_, fun v hv => absurd hv (Nat.not_lt_zero v)⟩
    rw [List.range_zero, List.foldl_nil, hnil] at ha
    exact absurd ha List.not_mem_nil
  | succ k ih =>
    rw [List.range_succ, List.foldl_append, List.foldl_cons, List.foldl_nil]
    exact (ih (by omega)).step hw ho (by omega)

end Seeded

/-! ## The loaded net -/

section Raw

/-- The raw net is the net `m` of the rules, but for the order its index was written in. -/
structure Follows (r : RawNet) (m : Net) : Prop where
  net : r.net = { m with actOf := r.actOf }
  index : ∀ v, r.actOf.get v = m.actOf.get v

variable {r : RawNet} {m n : Net}

/-- The ports of the queued words. -/
def portCells (act : List (ℕ × ℕ)) : List Port :=
  act.flatMap fun a => [(portOfWord a.1).getD ⟨0, 0⟩, (portOfWord a.2).getD ⟨0, 0⟩]

lemma portCells_length (act : List (ℕ × ℕ)) : (portCells act).length = 2 * act.length := by
  induction act with
  | nil => rfl
  | cons a act ih =>
    rw [portCells, List.flatMap_cons, List.length_append, ← portCells, ih, List.length_cons]
    simp only [List.length_cons, List.length_nil]
    omega

lemma write_length {α : Type*} (d : α) (xs : List α) (x : α) : Table.write d xs xs.length x = xs ++ [x] := by
  induction xs with
  | nil => rfl
  | cons y xs ih => rw [List.length_cons, Table.write, ih, List.cons_append]

lemma set_length {α : Type*} {d : α} (xs : List α) (x : α) :
    (⟨xs⟩ : Table α d).set xs.length x = ⟨xs ++ [x]⟩ := congrArg Table.mk (write_length d xs x)

/-- A push on the words is a push of the ports. -/
lemma Follows.push (h : Follows r m) {a b : ℕ} (ha : 0 ≤ nodeOf a) (hb : 0 ≤ nodeOf b) (hcap : nodeOf b < r.cap) :
    ∃ r', actPush r a b = some r' ∧ r' = { r with act := r'.act, actOf := r'.actOf } ∧
      Follows r' (LinEngine.actPush m ⟨(nodeOf a).toNat, Fin.ofNat 3 (portOf a)⟩
        ⟨(nodeOf b).toNat, Fin.ofNat 3 (portOf b)⟩) := by
  have hact : m.act = ⟨portCells r.act⟩ := (congrArg Net.act h.net).symm
  have htop : m.atop = (portCells r.act).length := by
    rw [portCells_length]
    exact (congrArg Net.atop h.net).symm
  have hport : ∀ {w : ℕ}, 0 ≤ nodeOf w → portOfWord w = some ⟨(nodeOf w).toNat, Fin.ofNat 3 (portOf w)⟩ := fun hw =>
    if_neg (not_lt.mpr hw)
  unfold actPush LinEngine.actPush
  simp only [← h.index]
  by_cases h1 : (r.actOf.get (nodeOf a).toNat).isSome
  · exact ⟨r, by rw [if_pos h1], rfl, by rw [if_pos (by rw [h1, Bool.true_or])]; exact h⟩
  rw [if_neg h1, if_neg (not_or.mpr ⟨not_lt.mpr hb, not_le.mpr hcap⟩)]
  by_cases h2 : (r.actOf.get (nodeOf b).toNat).isSome
  · exact ⟨r, by rw [if_pos h2], rfl, by rw [if_pos (by rw [h2, Bool.or_true])]; exact h⟩
  rw [if_neg h2, if_neg (by rw [Bool.or_eq_true]; exact not_or.mpr ⟨h1, h2⟩)]
  refine ⟨_, rfl, rfl, ⟨?_, fun v => ?_⟩⟩
  · have hcells : ((m.act.set m.atop ⟨(nodeOf a).toNat, Fin.ofNat 3 (portOf a)⟩).set (m.atop + 1)
        ⟨(nodeOf b).toNat, Fin.ofNat 3 (portOf b)⟩ : Table Port ⟨0, 0⟩) = ⟨portCells (r.act ++ [(a, b)])⟩ := by
      have hsnoc : ∀ (xs : List Port) (x y : Port),
          ((⟨xs⟩ : Table Port ⟨0, 0⟩).set xs.length x).set (xs.length + 1) y = ⟨xs ++ [x, y]⟩ := by
        intro xs x y
        have hlen : xs.length + 1 = (xs ++ [x]).length := by simp
        rw [set_length, hlen, set_length, List.append_assoc]
        rfl
      rw [hact, htop, hsnoc]
      simp [portCells, hport ha, hport hb]
    rw [hcells]
    have hnet := h.net
    have hfields : ({ r with
        act := r.act ++ [(a, b)]
        actOf := (r.actOf.set (nodeOf a).toNat (some (2 * r.act.length))).set (nodeOf b).toNat
          (some (2 * r.act.length)) } : RawNet).net = { r.net with
        act := ⟨portCells (r.act ++ [(a, b)])⟩
        atop := 2 * (r.act ++ [(a, b)]).length
        actOf := (r.actOf.set (nodeOf a).toNat (some (2 * r.act.length))).set (nodeOf b).toNat
          (some (2 * r.act.length)) } := rfl
    rw [hfields, hnet, htop, portCells_length, List.length_append]
    rfl
  · simp only [Table.get_set, htop, portCells_length, ← h.index]
    split_ifs <;> rfl

/-- The words of the wires are ports, of nodes that the storage has room for. -/
def PortWords (r : RawNet) : Prop := ∀ w ∈ r.wire, nodeOf w < r.cap ∧ portOf w < 3

lemma Follows.seedNode (h : Follows r m) (hw : PortWords r) {i : ℕ} (hi : i < 2 ^ 29) :
    ∃ r', seedNode r i = some r' ∧ r' = { r with act := r'.act, actOf := r'.actOf } ∧ Follows r' (seedStep m i) := by
  have hwire : m.wireAt ⟨i, 0⟩ = portOfWord (r.wire.getD (3 * i) noneWord) := by
    have hm : m.wire = ⟨r.wire.map portOfWord⟩ := (congrArg Net.wire h.net).symm
    have hnone : portOfWord noneWord = none := by decide
    rw [Net.wireAt, hm, Table.get, ← hnone, List.getD_map]
    congr 2
    simp only [Fin.isValue, Fin.val_zero, add_zero]
    omega
  have hword : nodeOf (r.wire.getD (3 * i) noneWord) < r.cap ∧ portOf (r.wire.getD (3 * i) noneWord) < 3 := by
    by_cases hlt : 3 * i < r.wire.length
    · rw [List.getD_eq_getElem _ _ hlt]
      exact hw _ (List.getElem_mem hlt)
    · rw [List.getD_eq_default _ _ (not_lt.mp hlt)]
      refine ⟨?_, by decide⟩
      have hneg : nodeOf noneWord = -1 := by decide
      omega
  have hnode : nodeOf i = i := by
    have hmod : i % 2 ^ 30 = i := Nat.mod_eq_of_lt (by omega)
    rw [nodeOf, hmod, if_pos hi]
    exact_mod_cast hmod
  have hport : portOf i = 0 := Nat.div_eq_of_lt (by omega)
  unfold Container.seedNode seedStep
  rw [hwire]
  generalize r.wire.getD (3 * i) noneWord = w at hword ⊢
  simp only
  by_cases hneg : nodeOf w < 0
  · have hno : ¬ (portOf w = 0 ∧ (i : ℤ) < nodeOf w) := by omega
    rw [if_neg hno, portOfWord, if_pos hneg]
    exact ⟨r, rfl, rfl, h⟩
  · rw [portOfWord, if_neg hneg]
    have hiff : (portOf w = 0 ∧ (i : ℤ) < nodeOf w) ↔
        ((Fin.ofNat 3 (portOf w) : Fin 3) = 0 ∧ i < (nodeOf w).toNat) := by
      have hzero : (Fin.ofNat 3 (portOf w) : Fin 3) = 0 ↔ portOf w = 0 := by
        rw [Fin.ext_iff]
        simp only [Fin.ofNat, Fin.val_zero]
        omega
      rw [hzero]
      omega
    by_cases hgo : portOf w = 0 ∧ (i : ℤ) < nodeOf w
    · obtain ⟨r', hr', hrest, hf⟩ := h.push (a := i) (b := w) (by omega) (by omega) hword.1
      refine ⟨r', by rw [if_pos hgo]; exact hr', hrest, ?_⟩
      simp only [if_pos (hiff.mp hgo)]
      rw [hnode, hport] at hf
      exact hf
    · refine ⟨r, by rw [if_neg hgo], rfl, ?_⟩
      simp only [if_neg fun hno => hgo (hiff.mpr hno)]
      exact h

lemma Follows.seedList (h : Follows r m) (hw : PortWords r) (l : List ℕ) (hl : ∀ i ∈ l, i < 2 ^ 29) :
    ∃ r', l.foldlM Container.seedNode r = some r' ∧ r' = { r with act := r'.act, actOf := r'.actOf } ∧
      Follows r' (l.foldl seedStep m) := by
  induction l generalizing r m with
  | nil => exact ⟨r, rfl, rfl, h⟩
  | cons i l ih =>
    obtain ⟨hi, hl⟩ := List.forall_mem_cons.mp hl
    obtain ⟨r₁, hr₁, hrest, hf⟩ := h.seedNode hw hi
    have hw₁ : PortWords r₁ := by
      rw [hrest]
      exact hw
    obtain ⟨r', hr', hrest', hf'⟩ := ih hf hw₁ hl
    refine ⟨r', by rw [List.foldlM_cons, hr₁]; exact hr', ?_, hf'⟩
    rw [hrest', hrest]

end Raw

section Restored

variable {n : Net}

/-- What is installed, before the queue. -/
def restored (n : Net) (slots : List (Option Carrier)) : RawNet :=
  install (savedHeader n) (savedFront n) (savedBack n slots) (savedSections slots)

lemma getD_range {α : Type*} (f : ℕ → α) (d : α) {k i : ℕ} (hi : i < k) : ((List.range k).map f).getD i d = f i := by
  rw [List.getD_eq_getElem _ _ (by simpa using hi), List.getElem_map, List.getElem_range]

lemma restored_tag (n : Net) (slots : List (Option Carrier)) {v : ℕ} (hv : v < n.nn) :
    (restored n slots).net.tag.get v = n.tag.get v := by
  change (((List.range n.nn).map fun v => UInt8.ofNat (n.tag.get v).rank).map tagOfByte).getD v .era = _
  rw [List.map_map, getD_range _ _ hv]
  exact tagOfByte_rank _

lemma restored_dead (n : Net) (slots : List (Option Carrier)) {v : ℕ} (hv : v < n.nn) :
    (restored n slots).net.dead.get v = n.dead.get v := by
  change (((List.range n.nn).map fun v => if n.dead.get v then (1 : UInt8) else 0).map (· != 0)).getD v false = _
  rw [List.map_map, getD_range _ _ hv]
  simp only [Function.comp_apply]
  cases n.dead.get v <;> rfl

lemma restored_scope (n : Net) (slots : List (Option Carrier)) {v : ℕ} (hv : v < n.nn) :
    (restored n slots).net.scope.get v = n.scope.get v := getD_range _ _ hv

lemma restored_wire (h : Storable n) (slots : List (Option Carrier)) {p : Port} (hp : p.node < n.nn) :
    (restored n slots).net.wireAt p = n.wireAt p := by
  have hslot : p.node * 3 + (p.port : ℕ) < 3 * n.nn := by
    have := p.port.isLt
    omega
  change (((List.range (3 * n.nn)).map fun i => portWord (n.wire.get i)).map portOfWord).getD _ none = _
  rw [List.map_map, getD_range _ _ hslot]
  exact portOfWord_portWord _ fun q hq => (h.wires _ hslot q hq).trans_le h.nodes

/-- The depths are those of the trie. -/
lemma levelDepths_saved (ht : TrieOk n) :
    levelDepths (n.levels.map fun l => (l.parent : ℤ)) = n.levels.map fun l => some (l.depth : ℤ) := by
  have hprefix : ∀ k ≤ n.levels.length, levelDepths ((n.levels.take k).map fun l => (l.parent : ℤ)) =
      (n.levels.take k).map fun l => some (l.depth : ℤ) := by
    intro k
    induction k with
    | zero => exact fun _ => rfl
    | succ k ih =>
      intro hk
      have hlt : k < n.levels.length := hk
      have hget : n.levels[k]? = some n.levels[k] := List.getElem?_eq_getElem hlt
      have hpar := ht.parent k _ hget
      have hdep := ht.depth k _ hget
      rw [List.take_succ_eq_append_getElem hlt, List.map_append, List.map_append, levelDepths, List.foldl_append,
        ← levelDepths, ih (by omega)]
      simp only [List.map_cons, List.map_nil, List.foldl_cons, List.foldl_nil]
      congr 2
      by_cases hzero : n.levels[k].parent = 0
      · rw [if_pos (by exact_mod_cast hzero), hdep, hzero]
        rfl
      · have hidx : n.levels[k].parent - 1 < k := by omega
        have hpos : 0 < (n.levels[k].parent : ℤ) ∧ (n.levels[k].parent : ℤ) ≤
            ((n.levels.take k).map fun l => some (l.depth : ℤ)).length := by
          simp only [List.length_map, List.length_take]
          omega
        rw [if_neg (by exact_mod_cast hzero), if_pos hpos, hdep]
        have htoNat : (n.levels[k].parent : ℤ).toNat - 1 = n.levels[k].parent - 1 := by omega
        have hin : n.levels[k].parent - 1 < n.levels.length := by omega
        have hup : n.levels[n.levels[k].parent - 1]? = some n.levels[n.levels[k].parent - 1] :=
          List.getElem?_eq_getElem hin
        rw [htoNat, List.getD_eq_getElem _ _ (by simp only [List.length_map, List.length_take]; omega)]
        simp only [List.getElem_map, List.getElem_take, Option.map_some, Option.some.injEq, lvDepth, hzero, if_false,
          hup, Option.getD_some]
        push_cast
        rfl
  have hall := hprefix n.levels.length le_rfl
  rwa [List.take_length] at hall

lemma restored_levels (h : Storable n) (ht : TrieOk n) (slots : List (Option Carrier)) :
    (restored n slots).net.levels = n.levels := by
  have hint : (savedFront n).parent.map toInt = n.levels.map fun l => (l.parent : ℤ) := by
    simp only [savedFront, List.map_map]
    refine List.map_congr_left fun l hl => ?_
    obtain ⟨i, hi⟩ := List.mem_iff_getElem?.mp hl
    have hpar := ht.parent i l hi
    have hlt := (List.getElem?_eq_some_iff.mp hi).1
    have hlev := h.levels
    have hsmall : l.parent < 2 ^ 31 := by omega
    exact toInt_small hsmall
  change (((savedFront n).parent.map toInt).zip
    ((savedFront n).bit.zip (levelDepths ((savedFront n).parent.map toInt)))).map
    (fun l => (⟨l.1.toNat, l.2.1.toNat, (l.2.2.getD 0).toNat⟩ : Level)) = n.levels
  rw [hint, levelDepths_saved ht]
  simp only [savedFront, List.zip_map', List.map_map]
  refine (List.map_congr_left fun l hl => ?_).trans (List.map_id _)
  have hbit : (UInt8.ofNat l.bit).toNat = l.bit := by
    have := h.bits l hl
    rw [UInt8.toNat_ofNat']
    omega
  simp only [Function.comp_apply, Int.toNat_natCast, hbit, Option.getD_some, id_eq]

lemma demand_roots {nn : ℕ} (hnn : nn ≤ 2 ^ 29) (l done : List Port) (hnd : (done ++ l).Nodup)
    (hin : ∀ p ∈ done ++ l, p.node < nn) :
    (l.map fun p => portWord (some p)).foldl (demand nn) (done.map fun p => portWord (some p)) =
      (done ++ l).map fun p => portWord (some p) := by
  induction l generalizing done with
  | nil =>
    rw [List.append_nil]
    rfl
  | cons p l ih =>
    have hp := hin p (by simp)
    have hnode := nodeOf_portWord (hp.trans_le hnn)
    have hnew : portWord (some p) ∉ done.map fun p => portWord (some p) := by
      intro hmem
      obtain ⟨q, hq, heq⟩ := List.mem_map.mp hmem
      have hqn := hin q (List.mem_append_left _ hq)
      rw [portWord_inj (hqn.trans_le hnn) (hp.trans_le hnn) heq] at hq
      exact (List.disjoint_of_nodup_append hnd) hq (List.mem_cons_self ..)
    have hgo : ¬ (nodeOf (portWord (some p)) < 0 ∨ (nn : ℤ) ≤ nodeOf (portWord (some p)) ∨
        portWord (some p) ∈ done.map fun p => portWord (some p)) := by
      rw [hnode]
      simp only [hnew, or_false]
      omega
    have hstep := ih (done ++ [p]) (by simpa using hnd) (by simpa using hin)
    rw [List.map_append, List.map_singleton, List.append_assoc, List.singleton_append] at hstep
    rw [List.map_cons, List.foldl_cons, demand, if_neg hgo]
    exact hstep

lemma net_root (r : RawNet) : r.net.root = r.root.filterMap portOfWord := rfl

lemma restored_rootWords (n : Net) (slots : List (Option Carrier)) :
    (restored n slots).root = (n.root.map fun p => portWord (some p)).foldl (demand n.nn) [] := rfl

/-- The demand roots come back in their order. -/
lemma restored_root (h : Storable n) (slots : List (Option Carrier)) : (restored n slots).net.root = n.root := by
  obtain ⟨-, hnd, hin⟩ := h.roots
  have hall := demand_roots h.nodes n.root [] hnd hin
  rw [List.map_nil, List.nil_append] at hall
  have hback : ∀ p ∈ n.root, portOfWord (portWord (some p)) = some p := by
    intro p hp
    refine portOfWord_portWord _ fun q hq => ?_
    rw [← Option.some.inj hq]
    exact (hin p hp).trans_le h.nodes
  rw [net_root, restored_rootWords, hall, List.filterMap_map]
  exact (List.filterMap_congr hback).trans List.filterMap_some

end Restored

/-! ## A saved net resumes -/

/-- The net `m` is `n` in all that the rules read but the queue, on an empty free list. -/
structure Restores (n m : Net) : Prop where
  nn : m.nn = n.nn
  dead : ∀ v < n.nn, m.dead.get v = n.dead.get v
  tag : ∀ v < n.nn, m.tag.get v = n.tag.get v
  scope : ∀ v < n.nn, m.scope.get v = n.scope.get v
  wire : ∀ p : Port, p.node < n.nn → m.wireAt p = n.wireAt p
  levels : m.levels = n.levels
  root : m.root = n.root
  freeHead : m.freeHead = none
  pins : m.pins = 0

namespace Restores

variable {n m : Net}

lemma live (h : Restores n m) (v : ℕ) : m.live v = n.live v := by
  by_cases hv : v < n.nn
  · rw [Net.live, Net.live, h.dead v hv, Net.inNet, Net.inNet, h.nn]
  · simp only [Net.live, Net.inNet, h.nn, hv, decide_false, Bool.false_and]

lemma wired (h : Restores n m) (hn : Wired n) : Wired m := by
  intro p q hl hq
  rw [h.live] at hl
  rw [h.wire p ((Net.live_iff _).mp hl).1] at hq
  obtain ⟨hlq, hback, hne⟩ := hn p q hl hq
  exact ⟨(h.live _).trans hlq, (h.wire q ((Net.live_iff _).mp hlq).1).trans hback, hne⟩

lemma deadEnded (h : Restores n m) (hn : DeadEnded n) : DeadEnded m := by
  intro v hv hd q hq
  rw [h.nn] at hv
  rw [h.dead v hv] at hd
  rw [h.wire _ hv] at hq
  exact (h.live _).trans (hn hv hd hq)

lemma regular (h : Restores n m) (hn : Regular n) : Regular m where
  sound := {
    wired := h.wired hn.sound.wired
    freeOk := ⟨[], by rw [h.freeHead]; exact .nil⟩
    trieOk := hn.sound.trieOk.congr h.levels
    scopes := fun v hv => by
      rw [h.live] at hv
      rw [h.scope v ((Net.live_iff v).mp hv).1, h.levels]
      exact hn.sound.scopes v hv
    pins := h.pins }
  distinct := hn.distinct.of_eq h.levels

lemma iso (h : Restores n m) : Iso id n.graph m.graph where
  live v hv := (h.live v).trans hv
  inj _ _ _ _ h := h
  surj v hv := ⟨v, (h.live v).symm.trans hv, rfl⟩
  tag v hv := h.tag v ((Net.live_iff v).mp hv).1
  path v hv := by
    change lvlPath m (m.scope.get v) = lvlPath n (n.scope.get v)
    rw [h.scope v ((Net.live_iff v).mp hv).1, lvlPath_congr h.levels]
  wire p hp := by
    have hid : ∀ w : Option Port, w.map (Port.mapNode id) = w := fun w => by cases w <;> rfl
    rw [hid]
    exact h.wire p ((Net.live_iff p.node).mp hp).1
  root _ _ _ := rfl

/-- Only the queue is different. -/
lemma requeue (h : Restores n m) {k : Net} (hk : k = { m with act := k.act, atop := k.atop, actOf := k.actOf }) :
    Restores n k := by
  rw [hk]
  exact ⟨h.nn, h.dead, h.tag, h.scope, h.wire, h.levels, h.root, h.freeHead, h.pins⟩

end Restores

section Resume

variable {n : Net} {g : Globals} {slots : List (Option Carrier)}

lemma restores_restored (h : Storable n) (ht : TrieOk n) (slots : List (Option Carrier)) :
    Restores n (restored n slots).net where
  nn := rfl
  dead _ hv := restored_dead n slots hv
  tag _ hv := restored_tag n slots hv
  scope _ hv := restored_scope n slots hv
  wire _ hp := restored_wire h slots hp
  levels := restored_levels h ht slots
  root := restored_root h slots
  freeHead := rfl
  pins := rfl

lemma portWords_restored (h : Storable n) (slots : List (Option Carrier)) : PortWords (restored n slots) := by
  intro w hw
  obtain ⟨i, hi, rfl⟩ := List.mem_map.mp hw
  cases hp : n.wire.get i with
  | none =>
    have hneg : nodeOf (portWord none) = -1 := by decide
    refine ⟨?_, by decide⟩
    rw [hneg]
    omega
  | some p =>
    have hnode := h.wires i (List.mem_range.mp hi) p hp
    rw [nodeOf_portWord (hnode.trans_le h.nodes), portOf_portWord (hnode.trans_le h.nodes)]
    refine ⟨?_, p.port.isLt⟩
    change (p.node : ℤ) < (n.nn + 16 : ℕ)
    omega

/-- What is loaded from a saved net. -/
structure Resumed (n : Net) (slots : List (Option Carrier)) (r : RawNet) : Prop where
  restores : Restores n r.net
  carried : r.carried = (carrySections slots).filter fun s => s.1.length ≤ 255
  queued : Queued r.net
  redexes : ∀ p q, redexLive n p q = true → p.node < q.node → (p, q) ∈ r.net.queue
  pairs : ∀ a ∈ r.net.queue, a.1.port = 0 ∧ a.2.port = 0 ∧ n.wireAt a.1 = some a.2

lemma exists_resumed (hw : Wired n) (ht : TrieOk n) (ho : Orderly n) (hs : Storable n) {self : List UInt8}
    (hself : 10 ∉ self) (hslots : (carrySections slots).length < 2 ^ 32)
    (hblobs : ∀ s ∈ carrySections slots, s.2.length < 2 ^ 32) :
    ∃ r, netLoadLine (netSaveLine self n slots) = .loaded r ∧ Resumed n slots r := by
  have hres := restores_restored hs ht slots
  have hfirst : Follows (restored n slots) (restored n slots).net := ⟨rfl, fun _ => rfl⟩
  obtain ⟨r, hseed, hrest, hf⟩ := hfirst.seedList (portWords_restored hs slots) (List.range n.nn) fun i hi =>
    (List.mem_range.mp hi).trans_le hs.nodes
  have hall := seeded_all (hres.wired hw) (hres.deadEnded (deadEnded_of_orderly ho)) ⟨rfl, rfl⟩ (le_refl n.nn)
  generalize (List.range n.nn).foldl seedStep (restored n slots).net = m at hf hall
  have hqueue : r.net.queue = m.queue := by
    rw [hf.net]
    rfl
  refine ⟨r, ?_, ?_, ?_, ?_, fun p q hl hlt => ?_, fun a ha => ?_⟩
  · rw [netLoadLine_saved hs ht hself hslots, loadQueue]
    have hdone : seed (restored n slots) = some r := hseed
    rw [restored] at hdone
    simp only [hdone]
  · refine (hres.requeue hall.rest).requeue ?_
    rw [hf.net]
  · rw [hrest]
    exact carryRead_saved slots hblobs
  · have hindex : ∀ v, r.net.actOf.get v = m.actOf.get v := hf.index
    refine ⟨?_, fun v i => ?_, ?_⟩
    · rw [hqueue, ← hall.queued.even, hf.net]
    · rw [hqueue, hindex]
      exact hall.queued.index v i
    · rw [hqueue]
      exact hall.queued.apart
  · obtain ⟨hface, hp, hq⟩ := redexLive_facing hw hl
    rw [hqueue, hp, hq]
    refine hall.all p.node ((Net.live_iff _).mp hface.liveL).1 ⟨q.node, 0⟩ ((hres.live _).trans hface.liveL) ?_ rfl hlt
    exact (hres.wire ⟨p.node, 0⟩ ((Net.live_iff _).mp hface.liveL).1).trans hface.wireL
  · rw [hqueue] at ha
    obtain ⟨hlt, h1, h2, -, hwire⟩ := hall.pairs a ha
    exact ⟨h1, h2, (hres.wire _ hlt).symm.trans hwire⟩

/-- A regular net that is saved is loaded again: the same live nodes with their tags, level paths and wires, the same
level trie and demand roots, the drivers' sections but those with too long a name, and a sound queue with every live
redex; and firing for firing it has the runs of the saved one. -/
theorem saved_resumes (hser : g.inParallel = false) (hn : Regular n) (ho : Orderly n) (hs : Storable n)
    {self : List UInt8} (hself : 10 ∉ self) (hslots : (carrySections slots).length < 2 ^ 32)
    (hblobs : ∀ s ∈ carrySections slots, s.2.length < 2 ^ 32) :
    ∃ r, netLoadLine (netSaveLine self n slots) = .loaded r ∧ Resumed n slots r ∧ Regular r.net ∧
      (∀ k m, InSteps (Fired g) n k m → ∃ m', InSteps (Fired g) r.net k m' ∧ Isomorphic m m') ∧
      ∀ k m', InSteps (Fired g) r.net k m' → ∃ m, InSteps (Fired g) n k m ∧ Isomorphic m m' := by
  obtain ⟨r, hload, hres⟩ := exists_resumed hn.sound.wired hn.sound.trieOk ho hs hself hslots hblobs
  have hr := hres.restores.regular hn
  have hc := closing hser
  have hiso : Isomorphic n r.net := ⟨id, hres.restores.iso⟩
  refine ⟨r, hload, hres, hr, fun k m hrun => ?_, fun k m' hrun => ?_⟩
  · obtain ⟨hm, hrun⟩ := regular_run hser hn hrun
    obtain ⟨⟨m', hm'⟩, hrun', hiso'⟩ := hc.match_run (b := ⟨r.net, hr⟩) hiso hrun
    exact ⟨m', run_of_regular hrun', hiso'⟩
  · obtain ⟨hm', hrun⟩ := regular_run hser hr hrun
    obtain ⟨⟨m, hm⟩, hrun', hiso'⟩ := hc.match_run (b := ⟨n, hn⟩) (hc.equiv.symm hiso) hrun
    exact ⟨m, run_of_regular hrun', hc.equiv.symm hiso'⟩

lemma storable_of_check {n : Net} (hsize : n.nn ≤ 2 ^ 29 ∧ (n.nn + 16) * 3 < 2 ^ 31)
    (hwires : ∀ i < 3 * n.nn, (n.wire.get i).all (fun p => decide (p.node < n.nn)) = true)
    (hscopes : ∀ v < n.nn, n.scope.get v < 2 ^ 32)
    (hlevels : n.levels.length + 1 < 2 ^ 30 ∧ ∀ l ∈ n.levels, l.bit < 256)
    (hroots : n.root.length < 2 ^ 32 ∧ n.root.Nodup ∧ ∀ p ∈ n.root, p.node < n.nn) : Storable n := by
  refine ⟨hsize.1, hsize.2, fun i hi p hp => ?_, hscopes, hlevels.1, hlevels.2, hroots⟩
  have hnode := hwires i hi
  rw [hp, Option.all_some] at hnode
  exact of_decide_eq_true hnode

lemma sharedAndAppliedNet_storable : Storable sharedAndAppliedNet :=
  storable_of_check (by decide +kernel) (by decide +kernel) (by decide +kernel) (by decide +kernel) (by decide +kernel)

/-- The five firings of a net, after it was saved and loaded. -/
theorem saved_resumes_shared : ∃ r m, netLoadLine (netSaveLine [108, 105, 110] sharedAndAppliedNet []) = .loaded r ∧
    InSteps (Fired .serial) r.net 5 m ∧
      Isomorphic (fireNodes .serial sharedAndAppliedNet [(2, 9), (4, 10), (6, 7), (12, 13), (3, 11)]) m := by
  have hn : Regular sharedAndAppliedNet := ⟨sound_of_check (by decide +kernel), by decide +kernel⟩
  have ho := (fromCompile_of_check sharedAndApplied (by decide +kernel) (by decide +kernel)).orderly
  obtain ⟨r, hload, -, -, hruns, -⟩ := @saved_resumes sharedAndAppliedNet .serial [] rfl hn ho
    sharedAndAppliedNet_storable [108, 105, 110] (by decide) (by decide) (by decide)
  obtain ⟨m, hrun, hiso⟩ := hruns 5 _ (fireNodes_run [(2, 9), (4, 10), (6, 7), (12, 13), (3, 11)] (by decide +kernel))
  exact ⟨r, m, hload, hrun, hiso⟩

end Resume

end LinEngine.Container
