import LinEngine.Probing

/-!
# Identifiers

`lin_intern` of `parse.c`. A text is handed out as a block of its own that ends in a NUL; a
pointer is the number of its block, and blocks are never freed. The table of pointers grows
before it is more than half full. A call is given a buffer and the length of the text at
its front. `none` is a probe that has seen every cell and goes on.
-/
namespace LinEngine.Identifiers

open Probing

abbrev Bytes := List UInt8

structure ISet where
  heap : List Bytes
  iset : List (Option ℕ)
  isetN : ℕ
  deriving DecidableEq, Repr

def ISet.start : ISet := ⟨[], [], 0⟩

def hashStep (j : UInt64) (c : UInt8) : UInt64 := (j ^^^ c.toUInt64) * 16777619

/-- The home of the text of `n` bytes at the front of `s`, in a table of `cap` cells. -/
def islot (s : Bytes) (n cap : ℕ) : ℕ := ((s.take n).foldl hashStep 2166136261).toNat &&& (cap - 1)

def strlen (s : Bytes) : ℕ := (s.takeWhile (· != 0)).length

/-- `!strncmp(a, b, n)`; a read behind the end of a buffer has no result that could be used. -/
def strncmpEq : ℕ → Bytes → Bytes → Bool
  | 0, _, _ => true
  | n + 1, x :: a, y :: b => if x ≠ y then false else if x = 0 then true else strncmpEq n a b
  | _ + 1, _, _ => false

def next (cap h : ℕ) : ℕ := (h + 1) &&& (cap - 1)

/-- The block behind a pointer. -/
def block (heap : List Bytes) (p : ℕ) : Bytes := heap.getD p []

/-- Where a pointer of the table belongs. -/
def home (heap : List Bytes) (cap : ℕ) : Option ℕ → ℕ
  | none => 0
  | some p => islot (block heap p) (strlen (block heap p)) cap

/-- The pointers go into a table of twice the size. -/
def grow (t : ISet) : Option ISet :=
  let cap := if t.iset.length = 0 then 64 else t.iset.length * 2
  let old := t.iset.filter Option.isSome
  (old.foldlM (place (next cap) none (home t.heap cap)) (List.replicate cap none)).map fun tab =>
    { t with iset := tab, isetN := old.length }

/-- The text of a pointer is that of `n` bytes at the front of `s`. -/
def hit (heap : List Bytes) (s : Bytes) (n : ℕ) : Option ℕ → Bool
  | none => false
  | some p => strncmpEq n (block heap p) s && (block heap p)[n]? == some 0

/-- A new block, with its pointer in the free cell `j`. -/
def insert (t : ISet) (j : ℕ) (b : Bytes) : ISet :=
  { heap := t.heap ++ [b], iset := t.iset.set j (some t.heap.length), isetN := t.isetN + 1 }

def linIntern (t : ISet) (s : Bytes) (n : ℕ) : Option (ℕ × ISet) :=
  (if t.iset.length ≤ t.isetN * 2 then grow t else some t).bind fun t =>
    (probe (next t.iset.length) (fun i => decide (t.iset.getD i none = none) || hit t.heap s n (t.iset.getD i none))
      t.iset.length (islot s n t.iset.length)).map fun j =>
        match t.iset.getD j none with
        | some p => (p, t)
        | none => (t.heap.length, insert t j (s.take n ++ [0]))

/-- A call of `lin_intern`: a buffer, and the length of the text at its front. -/
structure Call where
  buf : Bytes
  n : ℕ
  deriving DecidableEq, Repr

def Call.text (c : Call) : Bytes := c.buf.take c.n

/-- What the callers promise: the text is in the buffer, and has no NUL. -/
structure Call.Ok (c : Call) : Prop where
  le : c.n ≤ c.buf.length
  noNul : 0 ∉ c.text

/-- One call after the other, with the pointers that come back. -/
def linInterns : ISet → List Call → Option (List ℕ × ISet)
  | t, [] => some ([], t)
  | t, c :: cs =>
    (linIntern t c.buf c.n).bind fun (p, t') => (linInterns t' cs).map fun (ps, u) => (p :: ps, u)

section Text

lemma strlen_text {txt : Bytes} (h : 0 ∉ txt) : strlen (txt ++ [0]) = txt.length := by
  have hall : ∀ c ∈ txt, (c != 0) = true := by
    intro c hc
    rw [bne_iff_ne]
    exact fun h0 => h (h0 ▸ hc)
  rw [strlen, List.takeWhile_append_of_pos hall, List.takeWhile_cons]
  simp

/-- A stored text is compared as far as the text that is looked for goes, and has to end there. -/
lemma strncmpEq_text {txt s : Bytes} {n : ℕ} (htxt : 0 ∉ txt) (hn : n ≤ s.length) (hs : 0 ∉ s.take n) :
    (strncmpEq n (txt ++ [0]) s && (txt ++ [0])[n]? == some 0) = true ↔ txt = s.take n := by
  induction n generalizing txt s with
  | zero =>
    cases txt with
    | nil => simp [strncmpEq]
    | cons x txt =>
      have hx : x ≠ 0 := fun h0 => htxt (h0 ▸ List.mem_cons_self)
      simp [strncmpEq, hx]
  | succ n ih =>
    cases s with
    | nil => exact absurd hn (Nat.not_succ_le_zero n)
    | cons y s =>
      rw [List.take_succ_cons] at hs ⊢
      have hy : y ≠ 0 := fun h0 => hs (h0 ▸ List.mem_cons_self)
      cases txt with
      | nil => simp [strncmpEq, hy.symm]
      | cons x txt =>
        by_cases hxy : x = y
        · subst hxy
          have hrest := ih (fun h0 => htxt (List.mem_cons_of_mem x h0)) (Nat.le_of_succ_le_succ hn)
            (fun h0 => hs (List.mem_cons_of_mem x h0))
          simpa [strncmpEq, hy] using hrest
        · simp [strncmpEq, hxy]

lemma islot_text {txt s : Bytes} {n : ℕ} (h : txt = s.take n) (cap : ℕ) :
    islot (txt ++ [0]) txt.length cap = islot s n cap := by
  rw [islot, islot, List.take_left, h]

lemma islot_lt (s : Bytes) (n k : ℕ) : islot s n (2 ^ k) < 2 ^ k := by
  rw [islot, Nat.and_two_pow_sub_one_eq_mod]
  exact Nat.mod_lt _ (Nat.two_pow_pos k)

lemma home_lt (heap : List Bytes) (k : ℕ) (x : Option ℕ) : home heap (2 ^ k) x < 2 ^ k := by
  cases x with
  | none => exact Nat.two_pow_pos k
  | some p => exact islot_lt _ _ k

end Text

/-- The table holds the number of every block, each at a place where it is found. -/
structure Indexed (t : ISet) : Prop where
  pow : ∃ k, t.iset.length = 2 ^ (k + 1)
  clustered : Clustered (next t.iset.length) none (home t.heap t.iset.length) t.iset
  mem : ∀ p, some p ∈ t.iset ↔ p < t.heap.length
  count : (t.iset.filter Option.isSome).length = t.isetN

/-- Every block is a text and its NUL, and no text is there twice. -/
structure Ok (t : ISet) : Prop where
  text : ∀ b ∈ t.heap, ∃ txt, 0 ∉ txt ∧ b = txt ++ [0]
  distinct : t.heap.Nodup
  size : t.isetN = t.heap.length
  half : t.isetN * 2 ≤ t.iset.length
  indexed : t = .start ∨ Indexed t

lemma ok_start : Ok .start where
  text _ hb := absurd hb List.not_mem_nil
  distinct := .nil
  size := rfl
  half := le_refl 0
  indexed := .inl rfl

section Step

variable {t : ISet}

/-- What is in use is what holds a pointer. -/
lemma used_eq (tab : List (Option ℕ)) : tab.filter (fun x => decide (x ≠ none)) = tab.filter Option.isSome :=
  List.filter_congr fun x _ => by cases x <;> rfl

/-- After it has grown a table has the same pointers, and more than half of it is free. -/
lemma grow_spec (h : Ok t) : ∃ u, grow t = some u ∧ u.heap = t.heap ∧ u.isetN = t.isetN ∧ Indexed u ∧
    u.isetN * 2 < u.iset.length := by
  obtain ⟨k, hcap, hlarge, hmem, hold⟩ : ∃ k, (if t.iset.length = 0 then 64 else t.iset.length * 2) = 2 ^ (k + 1) ∧
      t.isetN * 2 < 2 ^ (k + 1) ∧ (∀ p, some p ∈ t.iset.filter Option.isSome ↔ p < t.heap.length) ∧
      (t.iset.filter Option.isSome).length = t.isetN := by
    rcases h.indexed with rfl | hi
    · exact ⟨5, rfl, by decide, fun p => by simp [ISet.start], rfl⟩
    · obtain ⟨k, hk⟩ := hi.pow
      have hpos := Nat.two_pow_pos (k + 1)
      have hhalf := h.half
      refine ⟨k + 1, ?_, ?_, fun p => ?_, hi.count⟩
      · rw [hk, if_neg hpos.ne', ← Nat.pow_succ]
      · rw [Nat.pow_succ, ← hk]
        omega
      · rw [List.mem_filter, hi.mem]
        simp
  have hcycle : Cycle (List.replicate (2 ^ (k + 1)) (none : Option ℕ)).length (next (2 ^ (k + 1))) := by
    rw [List.length_replicate]
    exact cycle_mask (k + 1)
  obtain ⟨tab, hfold, hcl, hlen, hcount, hin⟩ := placeAll_spec hcycle
    (clustered_replicate (home t.heap (2 ^ (k + 1))) (2 ^ (k + 1))) (t.iset.filter Option.isSome)
    (by
      rw [count_free, hold]
      omega)
    (by
      intro x hx
      rw [List.length_replicate]
      refine ⟨?_, home_lt t.heap (k + 1) x⟩
      rintro rfl
      exact absurd (List.mem_filter.mp hx).2 Bool.false_ne_true)
  rw [List.length_replicate] at hlen
  rw [count_free, hold] at hcount
  refine ⟨⟨t.heap, tab, t.isetN⟩, ?_, rfl, rfl, ⟨⟨k, hlen⟩, ?_, fun p => ?_, ?_⟩, ?_⟩
  · simp only [grow, hcap, hfold, Option.map_some, hold]
  · rwa [hlen]
  · rw [hin _ (Option.some_ne_none p), hmem]
    simp
  · have hcells := count_add_used none tab
    rw [used_eq] at hcells
    change (tab.filter Option.isSome).length = t.isetN
    omega
  · rw [hlen]
    exact hlarge

/-- Before every search there is an indexed table, less than half of it in use. -/
lemma room_spec (h : Ok t) : ∃ u, (if t.iset.length ≤ t.isetN * 2 then grow t else some t) = some u ∧
    u.heap = t.heap ∧ u.isetN = t.isetN ∧ Indexed u ∧ u.isetN * 2 < u.iset.length := by
  split_ifs with hfull
  · exact grow_spec h
  · rw [not_le] at hfull
    rcases h.indexed with rfl | hi
    · exact absurd hfull (Nat.lt_irrefl 0)
    · exact ⟨t, rfl, rfl, rfl, hi, hfull⟩

lemma Ok.of_heap (h : Ok t) {u : ISet} (hheap : u.heap = t.heap) (hn : u.isetN = t.isetN) (hi : Indexed u)
    (hhalf : u.isetN * 2 < u.iset.length) : Ok u where
  text := hheap ▸ h.text
  distinct := hheap ▸ h.distinct
  size := hn.trans (hheap ▸ h.size)
  half := hhalf.le
  indexed := .inr hi

lemma block_eq (heap : List Bytes) {p : ℕ} (hp : p < heap.length) : heap[p]? = some (block heap p) := by
  rw [block, List.getD_eq_getElem heap [] hp, List.getElem?_eq_getElem hp]

lemma hit_iff (h : Ok t) {p : ℕ} (hp : p < t.heap.length) {c : Call} (hc : c.Ok) :
    hit t.heap c.buf c.n (some p) = true ↔ block t.heap p = c.text ++ [0] := by
  obtain ⟨txt, htxt, hb⟩ := h.text _ (List.mem_of_getElem? (block_eq t.heap hp))
  rw [hit, hb, strncmpEq_text htxt hc.le hc.noNul, List.append_left_inj]
  rfl

lemma home_of_text (heap : List Bytes) {p : ℕ} {c : Call} (hc : c.Ok) (hb : block heap p = c.text ++ [0]) (cap : ℕ) :
    home heap cap (some p) = islot c.buf c.n cap := by
  rw [home, hb, strlen_text hc.noNul]
  exact islot_text rfl cap

lemma block_append (heap : List Bytes) (b : Bytes) {p : ℕ} (hp : p < heap.length) :
    block (heap ++ [b]) p = block heap p := by
  rw [block, block, List.getD_append _ _ _ _ hp]

lemma block_new (heap : List Bytes) (b : Bytes) : block (heap ++ [b]) heap.length = b := by
  simp [block]

lemma insert_ok (h : Ok t) (hi : Indexed t) (hhalf : t.isetN * 2 < t.iset.length) {c : Call} (hc : c.Ok)
    (hnew : c.text ++ [0] ∉ t.heap) {j : ℕ} (hj : j < t.iset.length) (hfree : t.iset.getD j none = none)
    (hway : ∃ k, (next t.iset.length)^[k] (islot c.buf c.n t.iset.length) = j ∧
      ∀ i < k, t.iset.getD ((next t.iset.length)^[i] (islot c.buf c.n t.iset.length)) none ≠ none) :
    Ok (insert t j (c.text ++ [0])) := by
  obtain ⟨k, hk⟩ := hi.pow
  have hplaced := placed_set (Option.some_ne_none t.heap.length) hj hfree
  have hlen : (insert t j (c.text ++ [0])).iset.length = t.iset.length := hplaced.length
  refine ⟨fun b hb => ?_, ?_, ?_, ?_, .inr ⟨⟨k, hlen.trans hk⟩, ?_, fun p => ?_, ?_⟩⟩
  · rcases List.mem_append.mp hb with hb | hb
    · exact h.text b hb
    · exact ⟨c.text, hc.noNul, List.mem_singleton.mp hb⟩
  · rw [insert, List.nodup_append]
    refine ⟨h.distinct, List.nodup_singleton _, fun a ha b hb => ?_⟩
    rw [List.mem_singleton.mp hb]
    exact fun hab => hnew (hab ▸ ha)
  · rw [insert, List.length_append, h.size]
    rfl
  · rw [hlen, hk, Nat.pow_succ]
    rw [hk, Nat.pow_succ] at hhalf
    change (t.isetN + 1) * 2 ≤ 2 ^ k * 2
    omega
  · have hhome : Clustered (next t.iset.length) none (home (t.heap ++ [c.text ++ [0]]) t.iset.length) t.iset := by
      refine hi.clustered.congr fun x hx hne => ?_
      obtain ⟨p, rfl⟩ := Option.ne_none_iff_exists'.mp hne
      rw [home, home, block_append _ _ ((hi.mem p).mp hx)]
    have hnewHome : home (t.heap ++ [c.text ++ [0]]) t.iset.length (some t.heap.length) =
        islot c.buf c.n t.iset.length := home_of_text _ hc (block_new _ _) _
    obtain ⟨m, hm, hbusy⟩ := hway
    rw [← hnewHome] at hm hbusy
    rw [hlen]
    have hset := hhome.set (Option.some_ne_none t.heap.length) (hm ▸ hj) hbusy
    rwa [hm] at hset
  · rw [insert, hplaced.mem _ (Option.some_ne_none p), Option.some_inj, hi.mem, List.length_append,
      List.length_singleton]
    omega
  · have hused := hplaced.free
    have hbefore := count_add_used none t.iset
    have hafter := count_add_used none (t.iset.set j (some t.heap.length))
    rw [used_eq] at hbefore hafter
    have hn := hi.count
    rw [hplaced.length] at hafter
    change ((t.iset.set j (some t.heap.length)).filter Option.isSome).length = t.isetN + 1
    omega

/-- What a call answers: the number of a block that holds its text, with all blocks kept. -/
structure Answer (t : ISet) (c : Call) (p : ℕ) (u : ISet) : Prop where
  ok : Ok u
  kept : t.heap <+: u.heap
  text : u.heap[p]? = some (c.text ++ [0])

lemma linIntern_spec (h : Ok t) {c : Call} (hc : c.Ok) :
    ∃ p u, linIntern t c.buf c.n = some (p, u) ∧ Answer t c p u := by
  obtain ⟨v, hroom, hheap, hn, hi, hhalf⟩ := room_spec h
  have hv : Ok v := h.of_heap hheap hn hi hhalf
  obtain ⟨k, hk⟩ := hi.pow
  have hcells := count_add_used none v.iset
  rw [used_eq, hi.count] at hcells
  obtain ⟨j, hprobe, hfound⟩ := hi.clustered.search (hk ▸ cycle_mask (k + 1)) (by omega) (hit v.heap c.buf c.n)
    (hk ▸ islot_lt c.buf c.n (k + 1)) (by
      intro x hx hne hhit
      obtain ⟨p, rfl⟩ := Option.ne_none_iff_exists'.mp hne
      exact home_of_text _ hc ((hit_iff hv ((hi.mem p).mp hx) hc).mp hhit) _)
  rw [linIntern, hroom, Option.bind_some, hprobe, Option.map_some]
  cases hcell : v.iset.getD j none with
  | some p =>
    have hne : v.iset.getD j none ≠ none := hcell ▸ Option.some_ne_none p
    have hmem : some p ∈ v.iset := by
      rw [List.getD_eq_getElem _ _ hfound.lt] at hcell
      exact hcell ▸ List.getElem_mem hfound.lt
    have hp := (hi.mem p).mp hmem
    have hhit := hfound.here hne
    rw [hcell, hit_iff hv hp hc] at hhit
    exact ⟨p, v, rfl, hv, hheap ▸ List.prefix_refl _, hhit ▸ block_eq v.heap hp⟩
  | none =>
    have hnew : c.text ++ [0] ∉ v.heap := by
      intro hmem
      obtain ⟨p, hp, hb⟩ := List.mem_iff_getElem.mp hmem
      have hblock : block v.heap p = c.text ++ [0] := by rw [block, List.getD_eq_getElem _ _ hp, hb]
      have hno := hfound.absent hcell (some p) ((hi.mem p).mpr hp) (Option.some_ne_none p)
      exact absurd ((hit_iff hv hp hc).mpr hblock) (Bool.eq_false_iff.mp hno)
    refine ⟨v.heap.length, insert v j (c.text ++ [0]), rfl,
      insert_ok hv hi hhalf hc hnew hfound.lt hcell (hfound.way hcell), ?_, ?_⟩
    · rw [← hheap]
      exact List.prefix_append _ _
    · rw [insert, List.getElem?_append_right (le_refl _)]
      simp

end Step

/-- The pointers of the calls name blocks that hold the texts of the calls. -/
def Holds (t : ISet) (cs : List Call) (ps : List ℕ) : Prop :=
  List.Forall₂ (fun c p => t.heap[p]? = some (c.text ++ [0])) cs ps

lemma Holds.mono {t u : ISet} (h : t.heap <+: u.heap) {cs : List Call} {ps : List ℕ} (hh : Holds t cs ps) :
    Holds u cs ps := by
  obtain ⟨rest, hrest⟩ := h
  refine List.Forall₂.imp (fun c p hp => ?_) hh
  rw [← hrest, List.getElem?_append_left (List.getElem?_eq_some_iff.mp hp).1, hp]

lemma linInterns_spec {t : ISet} (h : Ok t) {cs : List Call} (hcs : ∀ c ∈ cs, c.Ok) :
    ∃ ps u, linInterns t cs = some (ps, u) ∧ Ok u ∧ t.heap <+: u.heap ∧ Holds u cs ps := by
  induction cs generalizing t with
  | nil => exact ⟨[], t, rfl, h, List.prefix_refl _, .nil⟩
  | cons c cs ih =>
    obtain ⟨p, v, hstep, ha⟩ := linIntern_spec h (hcs c List.mem_cons_self)
    obtain ⟨ps, u, hrun, hu, hkept, hholds⟩ := ih ha.ok fun d hd => hcs d (List.mem_cons_of_mem c hd)
    refine ⟨p :: ps, u, ?_, hu, ha.kept.trans hkept, .cons ?_ hholds⟩
    · simp only [linInterns, hstep, Option.bind_some, hrun, Option.map_some]
    · obtain ⟨rest, hrest⟩ := hkept
      rw [← hrest, List.getElem?_append_left (List.getElem?_eq_some_iff.mp ha.text).1, ha.text]

/-- Two pointers into blocks that are all different are equal when what they point to is. -/
lemma Holds.eq_iff {t : ISet} (h : Ok t) {cs : List Call} {ps : List ℕ} (hh : Holds t cs ps)
    {x y : Call × ℕ} (hx : x ∈ cs.zip ps) (hy : y ∈ cs.zip ps) : x.2 = y.2 ↔ x.1.text = y.1.text := by
  have hx' := (List.forall₂_iff_zip.mp hh).2 hx
  have hy' := (List.forall₂_iff_zip.mp hh).2 hy
  constructor
  · intro heq
    rw [heq, hy', Option.some_inj, List.append_left_inj] at hx'
    exact hx'.symm
  · intro heq
    rw [heq, ← hy'] at hx'
    exact (List.getElem?_inj (List.getElem?_eq_some_iff.mp (hx'.trans hy')).1 h.distinct).mp hx'

/-- All calls end. A pointer that was handed out names its text then and after all later calls,
and two pointers are the same exactly when the texts of their calls are. -/
theorem linIntern_canonical (cs ds : List Call) (h : ∀ c ∈ cs ++ ds, c.Ok) :
    ∃ ps t qs u, linInterns .start cs = some (ps, t) ∧ linInterns t ds = some (qs, u) ∧
      Holds t cs ps ∧ Holds u (cs ++ ds) (ps ++ qs) ∧
      ∀ x ∈ (cs ++ ds).zip (ps ++ qs), ∀ y ∈ (cs ++ ds).zip (ps ++ qs), x.2 = y.2 ↔ x.1.text = y.1.text := by
  obtain ⟨ps, t, hcs, ht, -, hfirst⟩ := linInterns_spec ok_start fun c hc => h c (List.mem_append_left ds hc)
  obtain ⟨qs, u, hds, hu, hkept, hlater⟩ := linInterns_spec ht fun c hc => h c (List.mem_append_right cs hc)
  have hall : Holds u (cs ++ ds) (ps ++ qs) := List.rel_append (hfirst.mono hkept) hlater
  exact ⟨ps, t, qs, u, hcs, hds, hfirst, hall, fun x hx y hy => hall.eq_iff hu hx hy⟩

/-- The texts `x`, `x1` and `x`, the first two in one buffer. -/
def xs : List Call := [⟨[120, 49], 1⟩, ⟨[120, 49], 2⟩, ⟨[120], 1⟩]

theorem linIntern_canonical_xs :
    ∃ ps t qs u, linInterns .start xs = some (ps, t) ∧ linInterns t xs = some (qs, u) ∧
      Holds t xs ps ∧ Holds u (xs ++ xs) (ps ++ qs) ∧
      ∀ x ∈ (xs ++ xs).zip (ps ++ qs), ∀ y ∈ (xs ++ xs).zip (ps ++ qs), x.2 = y.2 ↔ x.1.text = y.1.text :=
  linIntern_canonical xs xs (by
    intro c hc
    rw [List.mem_append, or_self] at hc
    fin_cases hc <;> exact ⟨by decide, by decide⟩)

end LinEngine.Identifiers
