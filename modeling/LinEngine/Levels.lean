import LinEngine.Wiring

/-!
# The level trie

A level stands for the path of edges from the root level down to it. Interning
only ever appends entries, so the path of a level never changes, and the label a
commutation makes depends on the paths of the two gauges alone.
-/
namespace LinEngine

/-- Every entry hangs below an earlier level and is one deeper. -/
structure TrieOk (n : Net) : Prop where
  parent : ∀ (i : ℕ) (l : Level), n.levels[i]? = some l → l.parent ≤ i
  depth : ∀ (i : ℕ) (l : Level), n.levels[i]? = some l → l.depth = lvDepth n l.parent + 1

/-- The trie is sound whatever else the net holds. -/
lemma TrieOk.congr {n n' : Net} (hn : TrieOk n) (h : n'.levels = n.levels) : TrieOk n' := by
  refine ⟨fun i l hl => hn.parent i l (h ▸ hl), fun i l hl => ?_⟩
  have hd : lvDepth n' l.parent = lvDepth n l.parent := by simp only [lvDepth, h]
  rw [hd]
  exact hn.depth i l (h ▸ hl)

/-- Only levels were added. -/
structure Grown (n n' : Net) : Prop where
  same : n' = { n with levels := n'.levels }
  grown : n.levels <+: n'.levels

namespace Grown

variable {n n' n'' : Net}

lemma refl (n : Net) : Grown n n := ⟨rfl, List.prefix_rfl⟩

lemma trans (h : Grown n n') (h' : Grown n' n'') : Grown n n'' := by
  refine ⟨?_, h.grown.trans h'.grown⟩
  conv_lhs => rw [h'.same, h.same]

lemma wireAt (h : Grown n n') (p : Port) : n'.wireAt p = n.wireAt p := by
  rw [h.same]
  rfl

lemma live (h : Grown n n') (v : ℕ) : n'.live v = n.live v := by
  rw [h.same]
  rfl

lemma length_le (h : Grown n n') : n.levels.length ≤ n'.levels.length := h.grown.length_le

lemma entry (h : Grown n n') {i : ℕ} (hi : i < n.levels.length) :
    n'.levels[i]? = n.levels[i]? := by
  obtain ⟨t, ht⟩ := h.grown
  rw [← ht, List.getElem?_append_left hi]

lemma lvDepth (h : Grown n n') {l : ℕ} (hl : l ≤ n.levels.length) :
    lvDepth n' l = lvDepth n l := by
  simp only [LinEngine.lvDepth]
  split_ifs with h0
  · rfl
  · rw [h.entry (by omega)]

lemma lvUp (h : Grown n n') {l : ℕ} (hl : l ≤ n.levels.length) : lvUp n' l = lvUp n l := by
  simp only [LinEngine.lvUp]
  split_ifs with h0
  · rfl
  · rw [h.entry (by omega)]

lemma lvBit (h : Grown n n') {l : ℕ} (hl : l ≤ n.levels.length) : lvBit n' l = lvBit n l := by
  simp only [LinEngine.lvBit]
  split_ifs with h0
  · rfl
  · rw [h.entry (by omega)]

end Grown

lemma TrieOk.lvUp_le {n : Net} (hn : TrieOk n) {l : ℕ} (hl : l ≤ n.levels.length) :
    lvUp n l ≤ n.levels.length := by
  simp only [lvUp]
  split_ifs with h0
  · omega
  · have hi : l - 1 < n.levels.length := by omega
    have := hn.parent (l - 1) _ (List.getElem?_eq_getElem hi)
    simp only [List.getElem?_eq_getElem hi, Option.map_some, Option.getD_some]
    omega

lemma Grown.lvlPathLoop {n n' : Net} (h : Grown n n') (hn : TrieOk n) (d : ℕ) {l : ℕ}
    (hl : l ≤ n.levels.length) : lvlPathLoop n' d l = lvlPathLoop n d l := by
  induction d generalizing l with
  | zero => rfl
  | succ d ih =>
    simp only [LinEngine.lvlPathLoop, h.lvUp hl, h.lvBit hl]
    rw [ih (hn.lvUp_le hl)]

/-- Adding levels does not change the path of a level that is there. -/
theorem Grown.lvlPath {n n' : Net} (h : Grown n n') (hn : TrieOk n) {l : ℕ}
    (hl : l ≤ n.levels.length) : lvlPath n' l = lvlPath n l := by
  simp only [LinEngine.lvlPath, h.lvDepth hl, h.lvlPathLoop hn _ hl]

/-- The path of a level is that of its parent and one more edge. -/
lemma TrieOk.lvlPath_succ {n : Net} (hn : TrieOk n) {i : ℕ} {l : Level}
    (hi : n.levels[i]? = some l) : lvlPath n (i + 1) = lvlPath n l.parent ++ [l.bit] := by
  have hd : lvDepth n (i + 1) = lvDepth n l.parent + 1 := by
    simp [lvDepth, hi, hn.depth i l hi]
  have hu : lvUp n (i + 1) = l.parent := by simp [lvUp, hi]
  have hb : lvBit n (i + 1) = l.bit := by simp [lvBit, hi]
  rw [lvlPath, hd, lvlPathLoop, hu, hb, lvlPath]

/-- What interning returns: a level with the path asked for, in a trie that only grew. -/
structure Interned (n : Net) (path : List ℕ) (r : ℕ × Net) : Prop where
  grown : Grown n r.2
  trieOk : TrieOk r.2
  le : r.1 ≤ r.2.levels.length
  path : lvlPath r.2 r.1 = path

/-- An entry below a level that is there, one deeper than it. -/
lemma TrieOk.append {n : Net} (hn : TrieOk n) {p : ℕ} (hp : p ≤ n.levels.length) (b : ℕ) :
    TrieOk { n with levels := n.levels ++ [⟨p, b, if p = 0 then 1 else lvDepth n p + 1⟩] } := by
  set e : Level := ⟨p, b, if p = 0 then 1 else lvDepth n p + 1⟩ with he
  set m : Net := { n with levels := n.levels ++ [e] } with hm
  have hg : Grown n m := ⟨rfl, List.prefix_append _ _⟩
  have hlast : m.levels[n.levels.length]? = some e := by simp [hm]
  have hold : ∀ j, j ≠ n.levels.length → ∀ l, m.levels[j]? = some l → n.levels[j]? = some l := by
    intro j hj l hl
    have hlen : j < n.levels.length + 1 := by
      have := (List.getElem?_eq_some_iff.mp hl).1
      simpa [hm] using this
    rwa [hg.entry (by omega)] at hl
  refine ⟨fun j l hl => ?_, fun j l hl => ?_⟩
  · by_cases hj : j = n.levels.length
    · subst hj
      rw [hlast, Option.some.injEq] at hl
      exact hl ▸ hp
    · exact hn.parent j l (hold j hj l hl)
  · by_cases hj : j = n.levels.length
    · subst hj
      rw [hlast, Option.some.injEq] at hl
      subst hl
      rw [hg.lvDepth hp]
      by_cases h0 : p = 0 <;> simp [he, h0, lvDepth]
    · have hl' := hold j hj l hl
      have hle := hn.parent j l hl'
      have hjl := (List.getElem?_eq_some_iff.mp hl').1
      rw [hn.depth j l hl', hg.lvDepth (by omega)]

lemma lvIntern_spec {n : Net} (hn : TrieOk n) {p : ℕ} (hp : p ≤ n.levels.length) (b : ℕ) :
    Interned n (lvlPath n p ++ [b]) (lvIntern n p b) := by
  set i := n.levels.findIdx (fun l => l.parent == p && l.bit == b) with hi
  by_cases hlt : i < n.levels.length
  · have hr : lvIntern n p b = (i + 1, n) := by simp [lvIntern, ← hi, hlt]
    have hfound := List.findIdx_getElem (w := hi ▸ hlt)
    simp only [← hi, Bool.and_eq_true, beq_iff_eq] at hfound
    rw [hr]
    refine ⟨.refl n, hn, hlt, ?_⟩
    rw [hn.lvlPath_succ (List.getElem?_eq_getElem hlt), hfound.1, hfound.2]
  · set e : Level := ⟨p, b, if p = 0 then 1 else lvDepth n p + 1⟩ with he
    set m : Net := { n with levels := n.levels ++ [e] } with hm
    have hr : lvIntern n p b = (n.levels.length + 1, m) := by simp [lvIntern, ← hi, hlt, hm, he]
    have hg : Grown n m := ⟨rfl, List.prefix_append _ _⟩
    have hlast : m.levels[n.levels.length]? = some e := by simp [hm]
    have hok : TrieOk m := hn.append hp b
    rw [hr]
    refine ⟨hg, hok, by simp [hm], ?_⟩
    rw [hok.lvlPath_succ hlast, hg.lvlPath hn hp]

lemma lvInternPath_spec {n : Net} (hn : TrieOk n) {cur : ℕ} (hc : cur ≤ n.levels.length)
    (bs : List ℕ) : Interned n (lvlPath n cur ++ bs) (lvInternPath n cur bs) := by
  induction bs generalizing n cur with
  | nil => exact ⟨.refl n, hn, hc, by simp [lvInternPath]⟩
  | cons b bs ih =>
    have h := lvIntern_spec hn hc b
    have h' := ih h.trieOk h.le
    exact ⟨h.grown.trans h'.grown, h'.trieOk, h'.le, by
      rw [lvInternPath, h'.path, h.path, List.append_assoc]
      rfl⟩

/-- The label of a commutation is the paths of the two gauges below the edge `gen`. -/
theorem lvlPrefix2_spec {n : Net} (hn : TrieOk n) (gen a b : ℕ) :
    Interned n (gen :: (lvlPath n a ++ lvlPath n b)) (lvlPrefix2 n gen a b) := by
  have h := lvIntern_spec hn (Nat.zero_le _) gen
  have h' := lvInternPath_spec h.trieOk h.le (lvlPath n a ++ lvlPath n b)
  refine ⟨h.grown.trans h'.grown, h'.trieOk, h'.le, ?_⟩
  rw [lvlPrefix2, h'.path, h.path]
  rfl

end LinEngine
