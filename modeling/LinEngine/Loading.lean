import LinEngine.Container

/-!
# What loading accepts

The loader checks the magic, the version and that every section is there in full. A net it returns
is well formed exactly if the words of the file were.
-/
namespace LinEngine.Container

open Format

/-! ## The queue of a loaded net -/

/-- Only the queue differs. -/
def SameNet (n n' : RawNet) : Prop := n' = { n with act := n'.act, actOf := n'.actOf }

lemma sameNet_actPush {n n' : RawNet} {a b : ℕ} (h : actPush n a b = some n') : SameNet n n' := by
  unfold actPush at h
  split_ifs at h <;> exact Option.some.inj h ▸ rfl

lemma sameNet_seedNode {n n' : RawNet} {i : ℕ} (h : seedNode n i = some n') : SameNet n n' := by
  unfold seedNode at h
  dsimp only at h
  split_ifs at h
  · exact sameNet_actPush h
  · exact Option.some.inj h ▸ rfl

lemma SameNet.trans {n n' n'' : RawNet} (h : SameNet n n') (h' : SameNet n' n'') : SameNet n n'' := by
  unfold SameNet at *
  rw [h', h]

lemma sameNet_seedAll (is : List ℕ) {n n' : RawNet} (h : is.foldlM seedNode n = some n') : SameNet n n' := by
  induction is generalizing n with
  | nil => exact Option.some.inj h ▸ rfl
  | cons i is ih =>
    rw [List.foldlM_cons, Option.bind_eq_bind, Option.bind_eq_some_iff] at h
    obtain ⟨mid, hmid, h⟩ := h
    exact (sameNet_seedNode hmid).trans (ih h)

/-- Every wire leads to no place past the room of the net. -/
def Roomy (n : RawNet) : Prop := ∀ w ∈ n.wire, nodeOf w < n.cap

lemma seedNode_isSome {n : RawNet} (hn : Roomy n) (i : ℕ) : ∃ n', seedNode n i = some n' := by
  unfold seedNode actPush
  dsimp only
  split_ifs with hlater hqueued hout
  · exact ⟨n, rfl⟩
  · exfalso
    rcases lt_or_ge (3 * i) n.wire.length with hi | hi
    · have hroom := hn _ (List.getElem_mem hi)
      rw [List.getD_eq_getElem _ _ hi] at hlater hout
      omega
    · rw [List.getD_eq_default _ _ hi] at hlater
      have hnone : nodeOf noneWord = -1 := by decide
      omega
  · exact ⟨n, rfl⟩
  · exact ⟨_, rfl⟩
  · exact ⟨n, rfl⟩

lemma seedAll_isSome (is : List ℕ) {n : RawNet} (hn : Roomy n) : ∃ n', is.foldlM seedNode n = some n' := by
  induction is generalizing n with
  | nil => exact ⟨n, rfl⟩
  | cons i is ih =>
    obtain ⟨mid, hmid⟩ := seedNode_isSome hn i
    have hsame := sameNet_seedNode hmid
    have hroom : Roomy mid := by
      unfold SameNet at hsame
      rw [hsame]
      exact hn
    obtain ⟨n', hn'⟩ := ih hroom
    exact ⟨n', by rw [List.foldlM_cons, hmid]; exact hn'⟩

/-! ## Well-formed nets and files -/

/-- A wire is `NONE` or names a node of the net and one of its three ports. -/
def WireOk (nn w : ℕ) : Prop := w = noneWord ∨ 0 ≤ nodeOf w ∧ nodeOf w < nn ∧ portOf w ≤ 2

instance (nn w : ℕ) : Decidable (WireOk nn w) := inferInstanceAs (Decidable (_ ∨ _))

/-- A net that the walks over it may index. The parent of level `i + 1` is a level with a smaller id. -/
structure RawNet.Valid (n : RawNet) : Prop where
  wire : ∀ w ∈ n.wire, WireOk n.nn w
  tag : ∀ t ∈ n.tag, t.toNat < 5
  scope : ∀ s ∈ n.scope, s ≤ n.parent.length
  parent : ∀ x ∈ n.parent.zipIdx, 0 ≤ x.1 ∧ x.1 ≤ x.2

/-- The words of a file that make such a net. -/
structure Front.Valid (h : Header) (front : Front) : Prop where
  wire : ∀ w ∈ front.wire, WireOk h.nn w
  tag : ∀ t ∈ front.tag, t.toNat < 5
  scope : ∀ s ∈ front.scope, s ≤ h.levels
  parent : ∀ x ∈ front.parent.zipIdx, 0 ≤ toInt x.1 ∧ toInt x.1 ≤ x.2

/-- Loading returns 0 or a valid net. -/
def Meets (l : Load) : Prop := l = .refused ∨ ∃ n, l = .loaded n ∧ n.Valid

/-- The parents in a file stay in the trie's room, and if the rest is there too, all its words are valid. -/
def Front.Clear (h : Header) (front : Front) (f : List UInt8) : Prop :=
  ¬TrieFault h front ∧ ∀ (back : Back) f', back.Fits h.ver → f = back.bytes h.ver ++ f' → front.Valid h

/-- A file whose count of nodes does no harm and whose sections, as far as they are there in full, are clear. -/
def Clear (file : List UInt8) : Prop :=
  ∀ (h : Header) f, h.Fits → skipShebang file = h.bytes ++ f → countFault h.nn f.length ≠ some .undefined ∧
    (countFault h.nn f.length = none → ∀ (front : Front) f', front.Fits h → f = front.bytes ++ f' → front.Clear h f')

lemma installed_valid {h : Header} {front : Front} {back : Back} {f : List UInt8} {n : RawNet} (hfit : front.Fits h)
    (hn : SameNet (install h front back f) n) : n.Valid ↔ front.Valid h := by
  unfold SameNet at hn
  rw [hn]
  constructor
  · rintro ⟨hwire, htag, hscope, hparent⟩
    refine ⟨hwire, htag, fun s hs => ?_, fun x hx => ?_⟩
    · rw [← hfit.parent.1]
      simpa [install] using hscope s hs
    · have hmap : (toInt x.1, x.2) ∈ (front.parent.map toInt).zipIdx := by
        rw [List.zipIdx_map]
        exact List.mem_map_of_mem hx
      exact hparent _ hmap
  · rintro ⟨hwire, htag, hscope, hparent⟩
    refine ⟨hwire, htag, fun s hs => ?_, fun x hx => ?_⟩
    · have hle := hscope s hs
      rw [← hfit.parent.1] at hle
      simpa [install] using hle
    · have hmap : x ∈ (front.parent.map toInt).zipIdx := hx
      rw [List.zipIdx_map, List.mem_map] at hmap
      obtain ⟨y, hy, rfl⟩ := hmap
      exact hparent y hy

/-- What a good count leaves room for. -/
lemma roomy_install {h : Header} {front : Front} {back : Back} {f : List UInt8} (hvalid : front.Valid h) :
    Roomy (install h front back f) := by
  intro w hw
  have hcap : ((install h front back f).cap : ℤ) = h.nn + 16 := rfl
  rcases hvalid.wire w hw with rfl | ⟨-, hlt, -⟩
  · have hnone : nodeOf noneWord = -1 := by decide
    omega
  · omega

lemma meets_loaded {n : RawNet} : Meets (.loaded n) ↔ n.Valid := by
  constructor
  · rintro (h | ⟨n', h, hv⟩)
    · cases h
    · cases h
      exact hv
  · exact fun hv => Or.inr ⟨n, rfl, hv⟩

lemma not_meets_undefined : ¬Meets .undefined := by
  rintro (h | ⟨n, h, -⟩) <;> cases h

/-- A count that is bad ends the loading, in the one way or the other. -/
lemma countFault_cases (nn left : ℕ) :
    countFault nn left = none ∨ countFault nn left = some .refused ∨ countFault nn left = some .undefined := by
  unfold countFault
  dsimp only
  split_ifs <;> simp

lemma meets_loadQueue {h : Header} {front : Front} (hfit : front.Fits h) (back : Back) (f : List UInt8) :
    Meets (loadQueue h front back f) ↔ front.Valid h := by
  unfold loadQueue
  cases hs : seed (install h front back f) with
  | none =>
    refine ⟨fun h => absurd h not_meets_undefined, fun hvalid => ?_⟩
    have hroom : Roomy (install h front back f) := roomy_install hvalid
    obtain ⟨n, hn⟩ := seedAll_isSome (List.range (install h front back f).nn) hroom
    rw [seed, hn] at hs
    cases hs
  | some n =>
    rw [meets_loaded]
    exact installed_valid hfit (sameNet_seedAll _ hs)

lemma meets_loadBack {h : Header} {front : Front} (hfit : front.Fits h) (f : List UInt8) :
    Meets (loadBack h front f) ↔ front.Clear h f := by
  unfold loadBack Front.Clear
  rw [(parses_back h.ver).forall_iff]
  by_cases hfault : TrieFault h front
  · rw [if_pos hfault]
    exact ⟨fun h => absurd h not_meets_undefined, fun h => absurd hfault h.1⟩
  · rw [if_neg hfault, and_iff_right hfault]
    cases hb : readBack h.ver f with
    | none => exact ⟨fun _ _ _ h => (nomatch h), fun _ => Or.inl rfl⟩
    | some x =>
      rw [forall_read]
      exact meets_loadQueue hfit x.1 x.2

lemma meets_loadFront (h : Header) (f : List UInt8) : Meets (loadFront h f) ↔ countFault h.nn f.length ≠ some .undefined ∧
    (countFault h.nn f.length = none → ∀ (front : Front) f', front.Fits h → f = front.bytes ++ f' → front.Clear h f') := by
  unfold loadFront
  rcases countFault_cases h.nn f.length with hc | hc | hc
  · rw [hc, and_iff_right (by decide), forall_prop_of_true rfl]
    cases hr : readFront h f with
    | none =>
      refine ⟨fun _ front f' hfit hf => ?_, fun _ => Or.inl rfl⟩
      rw [hf, (parses_front h).read hfit] at hr
      cases hr
    | some x =>
      obtain ⟨front, f'⟩ := x
      obtain ⟨hfit, rfl⟩ := (parses_front h _ _ _).mp hr
      dsimp only
      rw [meets_loadBack hfit]
      refine ⟨fun hclear front' f'' hfit' hf => ?_, fun hall => hall front f' hfit rfl⟩
      rw [hf, (parses_front h).read hfit'] at hr
      obtain ⟨rfl, rfl⟩ := Prod.mk.inj (Option.some.inj hr)
      exact hclear
  · rw [hc]
    exact ⟨fun _ => ⟨by decide, fun h => (nomatch h)⟩, fun _ => Or.inl rfl⟩
  · rw [hc]
    exact ⟨fun h => absurd h not_meets_undefined, fun h => absurd rfl h.1⟩

/-- A file of version 7 with one node, whose first wire names node 5. -/
def strayFile : List UInt8 :=
  lineMagic ++ [7, 1, 0, 0].flatMap wordBytes ++ [4, 0] ++ [5, noneWord, noneWord, 0].flatMap wordBytes ++ [0, 0].flatMap wordBytes

/-- What is made of it. -/
def strayNet : RawNet where
  cap := 17
  nn := 1
  tag := [4]
  dead := [0]
  wire := [5, noneWord, noneWord]
  scope := [0]
  parent := []
  bit := []
  depth := []
  root := []
  act := [(0, 5)]
  actOf := (Table.empty.set 0 (some 0)).set 5 (some 0)
  floats := []
  carried := []

end LinEngine.Container
