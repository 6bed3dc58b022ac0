import LinEngine.Levels
import LinEngine.Probing

/-!
# Interning in a hash table

The level trie as the engine stores it: the entries in arrays that grow, and beside them a
hash table of level ids, kept at most half full. What it answers is what the list of
entries alone determines, and ids stand for the paths from the root level.

Counts and ids are natural numbers here, and memory does not run out.
-/
namespace LinEngine

open Probing

/-- A net with what `net.c` keeps to look up a level: how many entries the arrays have room
for, and the hash table, in which 0 marks a free cell. -/
structure LvNet extends Net where
  lvcap : ℕ
  lvHash : List ℕ
  deriving DecidableEq, Repr

def doubleTo : ℕ → ℕ → ℕ → ℕ
  | 0, nc, _ => nc
  | fuel + 1, nc, need => if nc < need then doubleTo fuel (nc * 2) need else nc

def lvHcapLoop (entries : ℕ) : ℕ → ℕ → ℕ
  | 0, cap => cap
  | fuel + 1, cap =>
    if cap < (entries + 1) * 2 then
      if cap > 2 ^ 30 then cap else lvHcapLoop entries fuel (cap * 2)
    else cap

/-- The capacity for so many entries; from 1024 the loop doubles at most 21 times. -/
def lvHcapFor (entries : ℕ) : ℕ := lvHcapLoop entries 22 1024

/-- Where an edge is looked for first in a table of `cap` cells. -/
def lvHome (cap parent bit : ℕ) : ℕ := ((parent * 2654435761 + bit) % 2 ^ 32) &&& (cap - 1)

def lvNext (cap h : ℕ) : ℕ := (h + 1) &&& (cap - 1)

/-- The common ancestor's first two loops: up from `a` while it is deeper than `d`. -/
def lvRaise (n : Net) (d : ℕ) : ℕ → ℕ → Option (ℕ × ℕ)
  | 0, a => if lvDepth n a > d then none else some (0, a)
  | guard + 1, a => if lvDepth n a > d then lvRaise n d guard (lvUp n a) else some (guard + 1, a)

def lvJoin (n : Net) : ℕ → ℕ → ℕ → Option ℕ
  | 0, a, b => if a ≠ b then none else some a
  | guard + 1, a, b => if a ≠ b then lvJoin n guard (lvUp n a) (lvUp n b) else some a

/-- The lowest common ancestor; the root level when the guard runs out. -/
def scopeMeet (n : Net) (a b : ℕ) : ℕ :=
  ((lvRaise n (lvDepth n b) (n.levels.length + 2) a).bind fun r =>
    (lvRaise n (lvDepth n r.2) r.1 b).bind fun r' => lvJoin n r'.1 r.2 r'.2).getD 0

namespace LvNet

/-- What `net_init` leaves: no entries, no arrays and no table. -/
def init (n : Net) : LvNet := ⟨{ n with levels := [] }, 0, []⟩

def lvEnsure (n : LvNet) (need : ℕ) : LvNet :=
  if need ≤ n.lvcap then n
  else { n with lvcap := doubleTo need (if n.lvcap = 0 then 256 else n.lvcap * 2) need }

/-- A new table with the ids `1, …, nlv` in it. -/
def lvRehash (n : LvNet) (cap : ℕ) : Option LvNet :=
  ((List.range' 1 n.levels.length).foldlM
    (place (lvNext cap) 0 (fun l => lvHome cap (lvUp n.toNet l) (lvBit n.toNet l)))
    (List.replicate cap 0)).map fun tab => { n with lvHash := tab }

/-- A cell the search for an edge stops at: a free one, or one with the edge. -/
def lvHit (n : LvNet) (parent bit l : ℕ) : Bool :=
  lvUp n.toNet l == parent && lvBit n.toNet l == bit % 256

/-- Make room in the table, if there is none. -/
def lvRoom (n : LvNet) : Option LvNet :=
  (if n.lvHash.length = 0 then n.lvRehash (lvHcapFor n.levels.length) else some n).bind fun n =>
    if (n.levels.length + 1) * 2 > n.lvHash.length then n.lvRehash (n.lvHash.length * 2) else some n

/-- Append the entry of a new level, and put its id into the free cell `h`. A write past the
arrays has no result. -/
def lvAppend (n : LvNet) (parent bit h : ℕ) : Option (ℕ × LvNet) :=
  let n := if n.levels.length + 2 > n.lvcap then n.lvEnsure (n.levels.length + 2) else n
  let l := n.levels.length + 1
  if l < n.lvcap then
    some (l, { n with
      levels := n.levels ++ [⟨parent, bit % 256, if parent = 0 then 1 else lvDepth n.toNet parent + 1⟩]
      lvHash := n.lvHash.set h l })
  else none

/-- The level one edge below `parent`. -/
def lvIntern (n : LvNet) (parent bit : ℕ) : Option (ℕ × LvNet) :=
  n.lvRoom.bind fun n =>
    let cap := n.lvHash.length
    (probe (lvNext cap) (fun h => decide (n.lvHash.getD h 0 = 0) || n.lvHit parent bit (n.lvHash.getD h 0))
      cap (lvHome cap parent bit)).bind fun h =>
      if n.lvHash.getD h 0 = 0 then n.lvAppend parent bit h else some (n.lvHash.getD h 0, n)

def scopeApp (n : LvNet) (s : ℕ) (bit : ℤ) : Option (ℕ × LvNet) := n.lvIntern s (bit % 2).toNat

def lvInternPath (n : LvNet) (cur : ℕ) : List ℕ → Option (ℕ × LvNet)
  | [] => some (cur, n)
  | b :: bs => (n.lvIntern cur b).bind fun r => lvInternPath r.2 r.1 bs

def scopeRebase (n : LvNet) (src : Net) (lvl s : ℕ) : Option (ℕ × LvNet) :=
  if s = 0 then some (lvl, n) else n.lvInternPath lvl (lvlPath src s)

def lvlPrefix2 (n : LvNet) (gen a b : ℕ) : Option (ℕ × LvNet) :=
  (n.lvIntern 0 gen).bind fun r =>
    r.2.lvInternPath r.1 (lvlPath r.2.toNet a ++ lvlPath r.2.toNet b)

/-- Entries with the depths that follow from their parents. -/
def levelsOf (ls : List Level) : List (ℕ × ℕ) → List Level
  | [] => ls
  | (parent, bit) :: table =>
    let depth := if parent = 0 then 1 else (ls[parent - 1]?.map (·.depth)).getD 0 + 1
    levelsOf (ls ++ [⟨parent, bit, depth⟩]) table

/-- Install a table of parents and bits, in the order of the ids. -/
def netLevelSet (n : LvNet) (table : List (ℕ × ℕ)) : Option LvNet :=
  let n := n.lvEnsure (table.length + 1)
  if table.length < n.lvcap then
    { n with levels := levelsOf [] table }.lvRehash (lvHcapFor table.length)
  else none

end LvNet

/-! ## Paths -/

/-- The edges from the root level down to a level. -/
inductive PathOf (n : Net) : ℕ → List ℕ → Prop
  | root : PathOf n 0 []
  | edge {i : ℕ} {l : Level} {bs : List ℕ} (hi : n.levels[i]? = some l)
      (h : PathOf n l.parent bs) : PathOf n (i + 1) (bs ++ [l.bit])

/-- An edge has one level below it. -/
def Distinct (n : Net) : Prop := (n.levels.map fun l => (l.parent, l.bit)).Nodup

/-- The trie is canonical: a level is its path. -/
structure Canonical (n : Net) : Prop where
  total : ∀ l ≤ n.levels.length, ∃ p, PathOf n l p
  unique : ∀ {l p q}, PathOf n l p → PathOf n l q → p = q
  inj : ∀ {a b p}, PathOf n a p → PathOf n b p → a = b
  depth : ∀ {l p}, PathOf n l p → lvDepth n l = p.length
  parent : ∀ l, 0 < l → l ≤ n.levels.length → lvUp n l < l
  meet : ∀ {a b p q}, PathOf n a p → PathOf n b q → ∃ r, PathOf n (scopeMeet n a b) r ∧
    ∀ s, s <+: r ↔ s <+: p ∧ s <+: q

section Paths

variable {n n' : Net}

lemma PathOf.le {l : ℕ} {p : List ℕ} (h : PathOf n l p) : l ≤ n.levels.length := by
  cases h with
  | root => exact Nat.zero_le _
  | edge hi _ => exact (List.getElem?_eq_some_iff.mp hi).1

lemma PathOf.grown {l : ℕ} {p : List ℕ} (h : PathOf n l p) (hg : Grown n n') : PathOf n' l p := by
  induction h with
  | root => exact .root
  | edge hi _ ih => exact .edge ((hg.entry (List.getElem?_eq_some_iff.mp hi).1).trans hi) ih

/-- What the loops of the source read off is the path. -/
lemma TrieOk.pathOf (hn : TrieOk n) {l : ℕ} (hl : l ≤ n.levels.length) : PathOf n l (lvlPath n l) := by
  induction l using Nat.strong_induction_on with
  | h l ih =>
    cases l with
    | zero => exact .root
    | succ i =>
      have hi := List.getElem?_eq_getElem (Nat.lt_of_succ_le hl)
      have hp := hn.parent i _ hi
      rw [hn.lvlPath_succ hi]
      exact .edge hi (ih _ (by omega) (by omega))

lemma TrieOk.eq_lvlPath (hn : TrieOk n) {l : ℕ} {p : List ℕ} (h : PathOf n l p) : p = lvlPath n l := by
  induction h with
  | root => rfl
  | edge hi _ ih => rw [hn.lvlPath_succ hi, ih]

lemma lvlPath_length (n : Net) (l : ℕ) : (lvlPath n l).length = lvDepth n l := by
  have hloop : ∀ d l, (lvlPathLoop n d l).length = d := by
    intro d
    induction d with
    | zero => exact fun l => rfl
    | succ d ih => exact fun l => by rw [lvlPathLoop, List.length_append, ih]; rfl
  exact hloop _ l

lemma Distinct.eq (hd : Distinct n) {i j : ℕ} {l m : Level} (hi : n.levels[i]? = some l)
    (hj : n.levels[j]? = some m) (hp : l.parent = m.parent) (hb : l.bit = m.bit) : i = j := by
  obtain ⟨hi', rfl⟩ := List.getElem?_eq_some_iff.mp hi
  obtain ⟨hj', rfl⟩ := List.getElem?_eq_some_iff.mp hj
  refine (List.getElem?_inj (by simpa using hi') hd).mp ?_
  simp [hi', hj', hp, hb]

/-- The path determines the level: the last edges agree, and the parents by induction. -/
lemma Distinct.inj (hd : Distinct n) {a b : ℕ} {p : List ℕ} (ha : PathOf n a p)
    (hb : PathOf n b p) : a = b := by
  induction ha generalizing b with
  | root =>
    generalize hq : ([] : List ℕ) = q at hb
    cases hb with
    | root => rfl
    | edge _ _ => simp at hq
  | @edge i l bs hi _ ih =>
    generalize hq : bs ++ [l.bit] = q at hb
    cases hb with
    | root => simp at hq
    | @edge j m cs hj h =>
      obtain ⟨rfl, hbit⟩ := List.append_inj' hq rfl
      rw [hd.eq hi hj (ih h) (List.singleton_inj.mp hbit)]

lemma TrieOk.lvUp_lt (hn : TrieOk n) {l : ℕ} (h0 : 0 < l) (hl : l ≤ n.levels.length) : lvUp n l < l := by
  have hi : l - 1 < n.levels.length := by omega
  have hp := hn.parent (l - 1) _ (List.getElem?_eq_getElem hi)
  simp only [lvUp, List.getElem?_eq_getElem hi, Option.map_some, Option.getD_some]
  split_ifs <;> omega

lemma TrieOk.lvDepth_le (hn : TrieOk n) {l : ℕ} (hl : l ≤ n.levels.length) : lvDepth n l ≤ l := by
  induction l using Nat.strong_induction_on with
  | h l ih =>
    cases l with
    | zero => exact Nat.zero_le _
    | succ i =>
      have hi := List.getElem?_eq_getElem (Nat.lt_of_succ_le hl)
      have hp := hn.parent i _ hi
      have hd : lvDepth n (i + 1) = lvDepth n n.levels[i].parent + 1 := by
        rw [← hn.depth i _ hi]
        simp [lvDepth, hi]
      have := ih n.levels[i].parent (by omega) (by omega)
      omega

/-- One level up is the path without its last edge. -/
lemma TrieOk.lvlPath_lvUp (hn : TrieOk n) {l : ℕ} (hl : l ≤ n.levels.length) :
    lvlPath n (lvUp n l) = (lvlPath n l).dropLast := by
  cases l with
  | zero => rfl
  | succ i =>
    have hi := List.getElem?_eq_getElem (Nat.lt_of_succ_le hl)
    have hu : lvUp n (i + 1) = n.levels[i].parent := by simp [lvUp, hi]
    rw [hn.lvlPath_succ hi, hu, List.dropLast_concat]

end Paths

/-! ## The common ancestor -/

section Meet

variable {n : Net}

lemma prefix_dropLast {s p : List ℕ} (h : s <+: p) (hlt : s.length < p.length) :
    s <+: p.dropLast := by
  rw [List.dropLast_eq_take]
  exact (List.prefix_take_iff).mpr ⟨h, by omega⟩

/-- Going up as far as depth `d` loses no prefix of that length. -/
lemma lvRaise_spec (hn : TrieOk n) (d guard : ℕ) {a : ℕ} (ha : a ≤ n.levels.length)
    (hg : lvDepth n a ≤ d + guard) :
    ∃ r, lvRaise n d guard a = some r ∧ r.2 ≤ n.levels.length ∧
      lvDepth n r.2 = min (lvDepth n a) d ∧ lvDepth n a + r.1 ≤ lvDepth n r.2 + guard ∧
      lvDepth n r.2 + guard ≤ lvDepth n a + r.1 ∧
      ∀ s : List ℕ, s.length ≤ d → (s <+: lvlPath n r.2 ↔ s <+: lvlPath n a) := by
  induction guard generalizing a with
  | zero =>
    have hle : ¬ lvDepth n a > d := by omega
    refine ⟨(0, a), by simp [lvRaise, hle], ha, ?_, le_rfl, le_rfl, fun s _ => Iff.rfl⟩
    exact (min_eq_left (Nat.le_of_not_gt hle)).symm
  | succ guard ih =>
    by_cases hgt : lvDepth n a > d
    · have hup := hn.lvlPath_lvUp ha
      have hdu : lvDepth n (lvUp n a) + 1 = lvDepth n a := by
        rw [← lvlPath_length n (lvUp n a), hup, List.length_dropLast, lvlPath_length]
        omega
      obtain ⟨r, hr, hle, hmin, h1, h2, hpre⟩ := ih (hn.lvUp_le ha) (by omega)
      refine ⟨r, by rw [lvRaise, if_pos hgt, hr], hle, by omega, by omega, by omega, fun s hs => ?_⟩
      rw [hpre s hs, hup]
      refine ⟨fun h => h.trans (List.dropLast_prefix _), fun h => prefix_dropLast h ?_⟩
      rw [lvlPath_length]
      omega
    · refine ⟨(guard + 1, a), by rw [lvRaise, if_neg hgt], ha, ?_, le_rfl, le_rfl, fun s _ => Iff.rfl⟩
      exact (min_eq_left (Nat.le_of_not_gt hgt)).symm

/-- Two levels of one depth go up together until they are the same. -/
lemma lvJoin_spec (hn : TrieOk n) (hd : Distinct n) (guard : ℕ) {a b : ℕ} (ha : a ≤ n.levels.length)
    (hb : b ≤ n.levels.length) (hab : lvDepth n a = lvDepth n b) (hg : lvDepth n a ≤ guard) :
    ∃ r, lvJoin n guard a b = some r ∧ r ≤ n.levels.length ∧
      ∀ s : List ℕ, s <+: lvlPath n r ↔ s <+: lvlPath n a ∧ s <+: lvlPath n b := by
  have hroot : ∀ c ≤ n.levels.length, lvDepth n c = 0 → c = 0 := by
    intro c hc h0
    have hnil : lvlPath n c = [] := List.length_eq_zero_iff.mp ((lvlPath_length n c).trans h0)
    exact hd.inj (hnil ▸ hn.pathOf hc) .root
  induction guard generalizing a b with
  | zero =>
    have ha0 := hroot a ha (by omega)
    have hb0 := hroot b hb (by omega)
    exact ⟨a, by simp [lvJoin, ha0, hb0], ha, fun s => by simp [ha0, hb0]⟩
  | succ guard ih =>
    by_cases heq : a = b
    · exact ⟨a, by simp [lvJoin, heq], ha, fun s => by rw [← heq, and_self]⟩
    · have hua := hn.lvlPath_lvUp ha
      have hub := hn.lvlPath_lvUp hb
      have hda : lvDepth n (lvUp n a) = lvDepth n a - 1 := by
        rw [← lvlPath_length n (lvUp n a), hua, List.length_dropLast, lvlPath_length]
      have hdb : lvDepth n (lvUp n b) = lvDepth n b - 1 := by
        rw [← lvlPath_length n (lvUp n b), hub, List.length_dropLast, lvlPath_length]
      obtain ⟨r, hr, hle, hpre⟩ := ih (hn.lvUp_le ha) (hn.lvUp_le hb) (by omega) (by omega)
      refine ⟨r, by rw [lvJoin, if_pos heq, hr], hle, fun s => ?_⟩
      rw [hpre s, hua, hub]
      constructor
      · rintro ⟨h1, h2⟩
        exact ⟨h1.trans (List.dropLast_prefix _), h2.trans (List.dropLast_prefix _)⟩
      · rintro ⟨h1, h2⟩
        have hla := lvlPath_length n a
        have hlb := lvlPath_length n b
        -- a common prefix as long as both paths would make them one path, and the levels one
        have hlt : s.length < lvDepth n a := by
          refine lt_of_le_of_ne (hla ▸ h1.length_le) ?_
          intro hlen
          have e1 := h1.eq_of_length (hlen.trans hla.symm)
          have e2 := h2.eq_of_length (hlen.trans (hab.trans hlb.symm))
          exact heq (hd.inj (e1 ▸ hn.pathOf ha) (e2 ▸ hn.pathOf hb))
        exact ⟨prefix_dropLast h1 (by omega), prefix_dropLast h2 (by omega)⟩

lemma scopeMeet_spec (hn : TrieOk n) (hd : Distinct n) {a b : ℕ} (ha : a ≤ n.levels.length)
    (hb : b ≤ n.levels.length) : scopeMeet n a b ≤ n.levels.length ∧
      ∀ s : List ℕ, s <+: lvlPath n (scopeMeet n a b) ↔ s <+: lvlPath n a ∧ s <+: lvlPath n b := by
  have hda := hn.lvDepth_le ha
  have hdb := hn.lvDepth_le hb
  obtain ⟨r, hr, hrle, hrmin, hr1, hr2, hrpre⟩ :=
    lvRaise_spec hn (lvDepth n b) (n.levels.length + 2) ha (by omega)
  obtain ⟨r', hr', hrle', hrmin', hr1', hr2', hrpre'⟩ :=
    lvRaise_spec hn (lvDepth n r.2) r.1 hb (by omega)
  obtain ⟨c, hc, hcle, hcpre⟩ := lvJoin_spec hn hd r'.1 hrle hrle' (by omega) (by omega)
  have hmeet : scopeMeet n a b = c := by
    simp only [scopeMeet, hr, hr', hc, Option.bind_some, Option.getD_some]
  rw [hmeet]
  refine ⟨hcle, fun s => ?_⟩
  have hla := lvlPath_length n a
  have hlb := lvlPath_length n b
  have hlr := lvlPath_length n r.2
  have hlr' := lvlPath_length n r'.2
  rw [hcpre]
  constructor
  · rintro ⟨h1, h2⟩
    have l1 := h1.length_le
    have l2 := h2.length_le
    exact ⟨(hrpre s (by omega)).mp h1, (hrpre' s (by omega)).mp h2⟩
  · rintro ⟨h1, h2⟩
    have l1 := h1.length_le
    have l2 := h2.length_le
    exact ⟨(hrpre s (by omega)).mpr h1, (hrpre' s (by omega)).mpr h2⟩

end Meet

theorem TrieOk.canonical {n : Net} (hn : TrieOk n) (hd : Distinct n) : Canonical n where
  total l hl := ⟨_, hn.pathOf hl⟩
  unique hp hq := (hn.eq_lvlPath hp).trans (hn.eq_lvlPath hq).symm
  inj := hd.inj
  depth hp := by rw [hn.eq_lvlPath hp, lvlPath_length]
  parent _ h0 hl := hn.lvUp_lt h0 hl
  meet hp hq := by
    obtain ⟨hle, hpre⟩ := scopeMeet_spec hn hd hp.le hq.le
    rw [hn.eq_lvlPath hp, hn.eq_lvlPath hq]
    exact ⟨_, hn.pathOf hle, hpre⟩

/-! ## The table -/

lemma le_doubleTo {fuel nc need : ℕ} (h0 : 0 < nc) (h : need ≤ nc + fuel) :
    need ≤ doubleTo fuel nc need := by
  induction fuel generalizing nc with
  | zero => exact h
  | succ fuel ih =>
    rw [doubleTo]
    split_ifs with hlt
    · exact ih (by omega) (by omega)
    · omega

lemma LvNet.lvEnsure_spec (n : LvNet) (need : ℕ) :
    ∃ c, n.lvEnsure need = { n with lvcap := c } ∧ need ≤ c := by
  unfold lvEnsure
  split_ifs with h1 h2
  · exact ⟨n.lvcap, rfl, h1⟩
  · exact ⟨_, rfl, le_doubleTo (by norm_num) (by omega)⟩
  · exact ⟨_, rfl, le_doubleTo (by omega) (by omega)⟩

/-- A capacity is a power of two, and leaves a cell free when the count fits an `int`. -/
lemma lvHcapFor_spec (entries : ℕ) :
    ∃ k, lvHcapFor entries = 2 ^ k ∧ (entries < 2 ^ 31 → entries < lvHcapFor entries) := by
  have hloop : ∀ fuel k, 32 ≤ k + fuel →
      ∃ k', lvHcapLoop entries fuel (2 ^ k) = 2 ^ k' ∧ (entries < 2 ^ 31 → entries < 2 ^ k') := by
    intro fuel
    induction fuel with
    | zero =>
      intro k hk
      have hpow : 2 ^ 32 ≤ 2 ^ k := Nat.pow_le_pow_right (by norm_num) hk
      exact ⟨k, rfl, fun h => by omega⟩
    | succ fuel ih =>
      intro k hk
      rw [lvHcapLoop]
      split_ifs with hlt hbig
      · refine ⟨k, rfl, fun h => lt_of_lt_of_le h ?_⟩
        exact Nat.pow_le_pow_right (by norm_num) ((Nat.pow_lt_pow_iff_right (by norm_num)).mp hbig)
      · rw [← pow_succ]
        exact ih (k + 1) (by omega)
      · exact ⟨k, rfl, fun _ => by omega⟩
  have h := hloop 22 10 (by norm_num)
  obtain ⟨k, hk, hroom⟩ := h
  have hk' : lvHcapFor entries = 2 ^ k := hk
  exact ⟨k, hk', hk' ▸ hroom⟩

lemma lvNext_cycle (k : ℕ) : Cycle (2 ^ k) (lvNext (2 ^ k)) := cycle_mask k

lemma lvHome_lt (k parent bit : ℕ) : lvHome (2 ^ k) parent bit < 2 ^ k := by
  rw [lvHome, Nat.and_two_pow_sub_one_eq_mod]
  exact Nat.mod_lt _ (Nat.two_pow_pos k)

namespace LvNet

/-- Where a level of the net is looked for first. -/
def home (n : Net) (cap l : ℕ) : ℕ := lvHome cap (lvUp n l) (lvBit n l)

/-- The table holds the levels of the net, each where the search for it comes by, and has a
free cell. -/
structure Hashed (n : LvNet) : Prop where
  pow : ∃ k, n.lvHash.length = 2 ^ k
  clustered : Clustered (lvNext n.lvHash.length) 0 (home n.toNet n.lvHash.length) n.lvHash
  mem : ∀ l, l ≠ 0 → (l ∈ n.lvHash ↔ l ≤ n.levels.length)
  count : n.lvHash.count 0 + n.levels.length = n.lvHash.length
  room : n.levels.length < n.lvHash.length

structure Ok (n : LvNet) : Prop where
  trie : TrieOk n.toNet
  distinct : Distinct n.toNet
  byte : ∀ l ∈ n.levels, l.bit < 256
  hash : n.lvHash = [] ∧ n.levels = [] ∨ Hashed n

lemma lvRehash_spec (n : LvNet) {k : ℕ} (hroom : n.levels.length < 2 ^ k) :
    ∃ n', n.lvRehash (2 ^ k) = some n' ∧ n' = { n with lvHash := n'.lvHash } ∧
      n'.lvHash.length = 2 ^ k ∧ Hashed n' := by
  have hlen : (List.replicate (2 ^ k) 0).length = 2 ^ k := List.length_replicate
  have hall : ∀ l ∈ List.range' 1 n.levels.length,
      l ≠ 0 ∧ home n.toNet (2 ^ k) l < (List.replicate (2 ^ k) 0).length := by
    intro l hl
    rw [hlen]
    rw [List.mem_range'_1] at hl
    exact ⟨by omega, lvHome_lt k _ _⟩
  obtain ⟨tab, hfold, hclus, htab, hcount, hmem⟩ :=
    placeAll_spec (hlen.symm ▸ lvNext_cycle k) (clustered_replicate (home n.toNet (2 ^ k)) (2 ^ k))
      (List.range' 1 n.levels.length) (by simpa using hroom) hall
  rw [hlen] at htab hfold hclus
  refine ⟨{ n with lvHash := tab }, ?_, rfl, htab, ⟨k, htab⟩, ?_, ?_, ?_, ?_⟩
  · exact congrArg (Option.map fun tab => { n with lvHash := tab }) hfold
  · simpa only [htab] using hclus
  · intro l hl
    rw [hmem l hl, List.mem_range'_1]
    simp only [List.mem_replicate]
    omega
  · simpa [htab] using hcount
  · simpa only [htab] using hroom

/-- After it, the table is at most half full once the next level is in it. -/
lemma lvRoom_spec {n : LvNet} (hn : Ok n) :
    ∃ n', n.lvRoom = some n' ∧ n'.toNet = n.toNet ∧ Hashed n' ∧
      (n.levels.length + 1) * 2 ≤ n'.lvHash.length := by
  have hfirst : ∃ m, (if n.lvHash.length = 0 then n.lvRehash (lvHcapFor n.levels.length) else some n)
      = some m ∧ m.toNet = n.toNet ∧ Hashed m := by
    rcases hn.hash with ⟨htab, hlev⟩ | hh
    · obtain ⟨k, hk, hroom⟩ := lvHcapFor_spec n.levels.length
      rw [if_pos (by rw [htab]; rfl), hk]
      obtain ⟨m, hm, hsame, _, hhash⟩ := n.lvRehash_spec (k := k) (hk ▸ hroom (by simp [hlev]))
      exact ⟨m, hm, by rw [hsame], hhash⟩
    · have hroom := hh.room
      exact ⟨n, if_neg (by omega), rfl, hh⟩
  obtain ⟨m, hm, hnet, hhash⟩ := hfirst
  rw [lvRoom, hm, Option.bind_some]
  have hlev : m.levels = n.levels := congrArg Net.levels hnet
  split_ifs with hfull
  · obtain ⟨k, hk⟩ := hhash.pow
    have hroom := hhash.room
    rw [hk, ← pow_succ]
    obtain ⟨n', hn', hsame, hlen, hhash'⟩ := m.lvRehash_spec (k := k + 1) (by rw [pow_succ]; omega)
    refine ⟨n', hn', by rw [hsame, ← hnet], hhash', ?_⟩
    rw [hlen, ← hlev, pow_succ]
    omega
  · exact ⟨m, rfl, hnet, hhash, by rw [← hlev]; omega⟩

/-! ## Interning -/

lemma lvIntern_there {n : Net} (hd : Distinct n) {i : ℕ} {l : Level} (hi : n.levels[i]? = some l) :
    LinEngine.lvIntern n l.parent l.bit = (i + 1, n) := by
  set j := n.levels.findIdx (fun m => m.parent == l.parent && m.bit == l.bit) with hj
  have hlt : j < n.levels.length :=
    List.findIdx_lt_length_of_exists ⟨l, List.mem_of_getElem? hi, by simp⟩
  have hfound := List.findIdx_getElem (w := hj ▸ hlt)
  simp only [← hj, Bool.and_eq_true, beq_iff_eq] at hfound
  have hij := hd.eq (List.getElem?_eq_getElem hlt) hi hfound.1 hfound.2
  rw [LinEngine.lvIntern, ← hj, if_pos hlt, hij]

lemma lvIntern_new {n : Net} {parent bit : ℕ}
    (hnew : ∀ l ∈ n.levels, ¬ (l.parent = parent ∧ l.bit = bit)) :
    LinEngine.lvIntern n parent bit = (n.levels.length + 1, { n with levels := n.levels ++
      [⟨parent, bit, if parent = 0 then 1 else lvDepth n parent + 1⟩] }) := by
  have hj : n.levels.findIdx (fun m => m.parent == parent && m.bit == bit) = n.levels.length :=
    List.findIdx_eq_length_of_false (fun l hl => by simpa using hnew l hl)
  simp [LinEngine.lvIntern, hj]

lemma lvHit_iff (n : LvNet) (parent bit l : ℕ) :
    n.lvHit parent bit l = true ↔ lvUp n.toNet l = parent ∧ lvBit n.toNet l = bit % 256 := by
  simp [lvHit]

/-- The net with one more entry. -/
def entered (n : Net) (parent bit : ℕ) : Net := { n with levels := n.levels ++
  [⟨parent, bit, if parent = 0 then 1 else lvDepth n parent + 1⟩] }

lemma entered_grown (n : Net) (parent bit : ℕ) : Grown n (entered n parent bit) :=
  ⟨rfl, List.prefix_append _ _⟩

lemma entered_length (n : Net) (parent bit : ℕ) :
    (entered n parent bit).levels.length = n.levels.length + 1 := by simp [entered]

lemma lvAppend_eq (n : LvNet) (parent : ℕ) {bit : ℕ} (hb : bit < 256) (h : ℕ) :
    ∃ c, n.lvAppend parent bit h = some (n.levels.length + 1,
      ⟨entered n.toNet parent bit, c, n.lvHash.set h (n.levels.length + 1)⟩) := by
  have hgrow : ∃ c, (if n.levels.length + 2 > n.lvcap then n.lvEnsure (n.levels.length + 2) else n)
      = { n with lvcap := c } ∧ n.levels.length + 1 < c := by
    split_ifs with hfull
    · obtain ⟨c, hc, hle⟩ := n.lvEnsure_spec (n.levels.length + 2)
      exact ⟨c, hc, hle⟩
    · exact ⟨n.lvcap, rfl, by omega⟩
  obtain ⟨c, hc, hlt⟩ := hgrow
  refine ⟨c, ?_⟩
  rw [lvAppend, hc]
  simp only [hlt, if_true, Nat.mod_eq_of_lt hb]
  rfl

lemma distinct_entered {n : Net} (hd : Distinct n) {parent bit : ℕ}
    (hnew : ∀ l ∈ n.levels, ¬ (l.parent = parent ∧ l.bit = bit)) : Distinct (entered n parent bit) := by
  rw [Distinct, entered, List.map_append, List.nodup_append]
  refine ⟨hd, List.nodup_singleton _, ?_⟩
  rintro x hx y hy rfl
  obtain ⟨l, hl, rfl⟩ := List.mem_map.mp hx
  have hpair := List.mem_singleton.mp hy
  exact hnew l hl ⟨congrArg Prod.fst hpair, congrArg Prod.snd hpair⟩

lemma home_grown {n n' : Net} (hg : Grown n n') (cap : ℕ) {l : ℕ} (hl : l ≤ n.levels.length) :
    home n' cap l = home n cap l := by rw [home, home, hg.lvUp hl, hg.lvBit hl]

lemma home_entered (n : Net) (parent bit cap : ℕ) :
    home (entered n parent bit) cap (n.levels.length + 1) = lvHome cap parent bit := by
  simp [home, entered, lvUp, lvBit]

/-- The id of a new entry goes into the free cell at which the search for it ended. -/
lemma Hashed.enter {n : LvNet} (hh : Hashed n) (hhalf : (n.levels.length + 1) * 2 ≤ n.lvHash.length)
    {parent bit k : ℕ} (c : ℕ)
    (hfree : n.lvHash.getD ((lvNext n.lvHash.length)^[k] (lvHome n.lvHash.length parent bit)) 0 = 0)
    (hway : ∀ j < k,
      n.lvHash.getD ((lvNext n.lvHash.length)^[j] (lvHome n.lvHash.length parent bit)) 0 ≠ 0) :
    Hashed ⟨entered n.toNet parent bit, c, n.lvHash.set
      ((lvNext n.lvHash.length)^[k] (lvHome n.lvHash.length parent bit)) (n.levels.length + 1)⟩ := by
  obtain ⟨e, he⟩ := hh.pow
  have hlt : (lvNext n.lvHash.length)^[k] (lvHome n.lvHash.length parent bit) < n.lvHash.length := by
    rw [he]
    exact (lvNext_cycle e).iterate_lt (lvHome_lt e _ _) k
  have hput := placed_set (x := n.levels.length + 1) (Nat.succ_ne_zero _) hlt hfree
  have hold : Clustered (lvNext n.lvHash.length) 0
      (home (entered n.toNet parent bit) n.lvHash.length) n.lvHash :=
    hh.clustered.congr fun l hl h0 => home_grown (entered_grown _ _ _) _ ((hh.mem l h0).mp hl)
  have hset := hold.set (x := n.levels.length + 1) (k := k) (Nat.succ_ne_zero _)
  rw [home_entered] at hset
  have hlen := hput.length
  refine ⟨⟨e, hlen.trans he⟩, ?_, fun l h0 => ?_, ?_, ?_⟩
  · simpa only [hlen] using hset hlt hway
  · rw [hput.mem l h0, hh.mem l h0, entered_length]
    omega
  · have h1 := hput.free
    have h2 := hh.count
    simp only [entered_length, hlen]
    omega
  · simp only [entered_length, hlen]
    omega

/-- An id in the table that the search stops at is that of an entry with the edge. -/
lemma Hashed.entry {n : LvNet} (hh : Hashed n) {parent bit h : ℕ} (hb : bit < 256)
    (hlt : h < n.lvHash.length) (hne : n.lvHash.getD h 0 ≠ 0)
    (hstop : (decide (n.lvHash.getD h 0 = 0) || n.lvHit parent bit (n.lvHash.getD h 0)) = true) :
    ∃ i l, n.lvHash.getD h 0 = i + 1 ∧ n.levels[i]? = some l ∧ l.parent = parent ∧ l.bit = bit := by
  have hmem : n.lvHash.getD h 0 ∈ n.lvHash := by
    rw [List.getD_eq_getElem _ 0 hlt]
    exact List.getElem_mem hlt
  simp only [Bool.or_eq_true, decide_eq_true_eq] at hstop
  obtain ⟨hup, hbit⟩ := (lvHit_iff _ _ _ _).mp (hstop.resolve_left hne)
  obtain ⟨i, hi⟩ := Nat.exists_eq_succ_of_ne_zero hne
  rw [hi] at hup hbit hmem
  have hel := List.getElem?_eq_getElem (Nat.lt_of_succ_le ((hh.mem _ i.succ_ne_zero).mp hmem))
  simp only [lvUp, lvBit, Nat.succ_ne_zero, if_false, Nat.succ_sub_one, hel, Option.map_some,
    Option.getD_some] at hup hbit
  exact ⟨i, _, hi, hel, hup, hbit.trans (Nat.mod_eq_of_lt hb)⟩

/-- The search for an edge that has an entry does not end at a free cell. -/
lemma Hashed.found {n : LvNet} (hh : Hashed n) {i : ℕ} {l : Level} (hi : n.levels[i]? = some l)
    (hb : l.bit < 256) {k : ℕ}
    (hstops : Stops (lvNext n.lvHash.length)
      (fun h => decide (n.lvHash.getD h 0 = 0) || n.lvHit l.parent l.bit (n.lvHash.getD h 0))
      (lvHome n.lvHash.length l.parent l.bit) k) :
    n.lvHash.getD ((lvNext n.lvHash.length)^[k] (lvHome n.lvHash.length l.parent l.bit)) 0 ≠ 0 := by
  have hlt := (List.getElem?_eq_some_iff.mp hi).1
  have hup : lvUp n.toNet (i + 1) = l.parent := by simp [lvUp, hi]
  have hbit : lvBit n.toNet (i + 1) = l.bit := by simp [lvBit, hi]
  have hhome : home n.toNet n.lvHash.length (i + 1) = lvHome n.lvHash.length l.parent l.bit := by
    rw [home, hup, hbit]
  have hne := hh.clustered.hit (n.lvHit l.parent l.bit) ((hh.mem (i + 1) i.succ_ne_zero).mpr hlt)
    i.succ_ne_zero ((lvHit_iff _ _ _ _).mpr ⟨hup, by rw [hbit, Nat.mod_eq_of_lt hb]⟩)
    (k := k) (by rw [hhome]; exact hstops)
  rwa [hhome] at hne

/-- The hash table finds the entry that the list of entries holds, and a new entry is put
where it will be found. -/
lemma lvIntern_refines {n : LvNet} (hn : Ok n) {parent bit : ℕ} (hp : parent ≤ n.levels.length)
    (hb : bit < 256) :
    ∃ n', n.lvIntern parent bit = some ((LinEngine.lvIntern n.toNet parent bit).1, n') ∧
      n'.toNet = (LinEngine.lvIntern n.toNet parent bit).2 ∧ Ok n' := by
  obtain ⟨m, hm, hnet, hh, hhalf⟩ := lvRoom_spec hn
  rw [lvIntern, hm, Option.bind_some, ← hnet]
  have ht : TrieOk m.toNet := hnet ▸ hn.trie
  have hd : Distinct m.toNet := hnet ▸ hn.distinct
  have hlev : m.levels = n.levels := congrArg Net.levels hnet
  rw [← hlev] at hp hhalf
  have hbyte : ∀ l ∈ m.levels, l.bit < 256 := hlev ▸ hn.byte
  obtain ⟨i, hi, hfree⟩ := exists_free 0 m.lvHash (by
    have := hh.count
    have := hh.room
    omega)
  obtain ⟨e, he⟩ := hh.pow
  have hcycle : Cycle m.lvHash.length (lvNext m.lvHash.length) := he ▸ lvNext_cycle e
  have hhome : lvHome m.lvHash.length parent bit < m.lvHash.length := by
    rw [he]
    exact lvHome_lt e _ _
  obtain ⟨k, hk, hstops⟩ := hcycle.stops
    (fun h => decide (m.lvHash.getD h 0 = 0) || m.lvHit parent bit (m.lvHash.getD h 0)) hhome hi (by
      rw [hfree]
      rfl)
  have hlt := hcycle.iterate_lt hhome k
  simp only [hstops.probe hk, Option.bind_some]
  by_cases hthere : ∃ l ∈ m.levels, l.parent = parent ∧ l.bit = bit
  · obtain ⟨l, hl, rfl, rfl⟩ := hthere
    obtain ⟨j, hj⟩ := List.mem_iff_getElem?.mp hl
    have hne := hh.found hj hb hstops
    obtain ⟨j', l', hid, hj', hp', hb'⟩ := hh.entry hb hlt hne hstops.here
    rw [if_neg hne, hid, hd.eq hj' hj hp' hb', lvIntern_there hd hj]
    exact ⟨m, rfl, rfl, ht, hd, hbyte, .inr hh⟩
  · have hnew : ∀ l ∈ m.levels, ¬ (l.parent = parent ∧ l.bit = bit) := fun l hl h => hthere ⟨l, hl, h⟩
    have hzero : m.lvHash.getD ((lvNext m.lvHash.length)^[k] (lvHome m.lvHash.length parent bit)) 0 = 0 := by
      by_contra hne
      obtain ⟨j, l, _, hj, h⟩ := hh.entry hb hlt hne hstops.here
      exact hnew l (List.mem_of_getElem? hj) h
    have hway : ∀ j < k,
        m.lvHash.getD ((lvNext m.lvHash.length)^[j] (lvHome m.lvHash.length parent bit)) 0 ≠ 0 := by
      intro j hj h0
      have hgo := hstops.before j hj
      rw [h0] at hgo
      exact absurd hgo Bool.true_eq_false_eq_False
    obtain ⟨c, hc⟩ := m.lvAppend_eq parent hb
      ((lvNext m.lvHash.length)^[k] (lvHome m.lvHash.length parent bit))
    rw [if_pos hzero, hc, lvIntern_new hnew]
    refine ⟨_, rfl, rfl, ht.append hp bit, distinct_entered hd hnew, ?_, .inr (hh.enter hhalf c hzero hway)⟩
    intro l hl
    rcases List.mem_append.mp hl with h | h
    · exact hbyte l h
    · rw [List.mem_singleton.mp h]
      exact hb

/-- An answer: a level with the path asked for, in a net in which every path is what it was. -/
def Yields (n : LvNet) (path : List ℕ) (r : Option (ℕ × LvNet)) : Prop :=
  ∃ l n', r = some (l, n') ∧ PathOf n'.toNet l path ∧ ∀ a p, PathOf n.toNet a p → PathOf n'.toNet a p

/-- An answer that leaves the net sound. -/
structure Answer (n : LvNet) (path : List ℕ) (l : ℕ) (n' : LvNet) : Prop where
  grown : Grown n.toNet n'.toNet
  path : PathOf n'.toNet l path
  ok : Ok n'

lemma lvIntern_answer {n : LvNet} (hn : Ok n) {parent bit : ℕ} {p : List ℕ}
    (hp : PathOf n.toNet parent p) (hb : bit < 256) :
    ∃ l n', n.lvIntern parent bit = some (l, n') ∧ Answer n (p ++ [bit]) l n' := by
  obtain ⟨n', hn', hnet, hok⟩ := lvIntern_refines hn hp.le hb
  have hin := lvIntern_spec hn.trie hp.le bit
  refine ⟨_, n', hn', hnet ▸ hin.grown, ?_, hok⟩
  have hpath := hin.trieOk.pathOf hin.le
  rw [hin.path, ← hn.trie.eq_lvlPath hp] at hpath
  rw [hnet]
  exact hpath

lemma lvInternPath_answer {n : LvNet} (hn : Ok n) {cur : ℕ} {p : List ℕ} (hp : PathOf n.toNet cur p)
    {bs : List ℕ} (hbs : ∀ b ∈ bs, b < 256) :
    ∃ l n', n.lvInternPath cur bs = some (l, n') ∧ Answer n (p ++ bs) l n' := by
  induction bs generalizing n cur p with
  | nil => exact ⟨cur, n, rfl, .refl _, by rwa [List.append_nil], hn⟩
  | cons b bs ih =>
    obtain ⟨l, m, hm, ha⟩ := lvIntern_answer hn hp (hbs b List.mem_cons_self)
    obtain ⟨l', n', hn', ha'⟩ := ih ha.ok ha.path (fun b hb => hbs b (List.mem_cons_of_mem _ hb))
    refine ⟨l', n', ?_, ha.grown.trans ha'.grown, ?_, ha'.ok⟩
    · rw [lvInternPath, hm]
      exact hn'
    · have hpath := ha'.path
      rwa [List.append_assoc] at hpath

lemma PathOf.byte {n : Net} (hbyte : ∀ l ∈ n.levels, l.bit < 256) {l : ℕ} {p : List ℕ}
    (h : PathOf n l p) : ∀ b ∈ p, b < 256 := by
  induction h with
  | root => exact fun b hb => absurd hb List.not_mem_nil
  | edge hi _ ih =>
    intro b hb
    rcases List.mem_append.mp hb with hb | hb
    · exact ih b hb
    · rw [List.mem_singleton.mp hb]
      exact hbyte _ (List.mem_of_getElem? hi)

lemma scopeApp_answer {n : LvNet} (hn : Ok n) {s : ℕ} {p : List ℕ} (hp : PathOf n.toNet s p) (bit : ℤ) :
    ∃ l n', n.scopeApp s bit = some (l, n') ∧ Answer n (p ++ [(bit % 2).toNat]) l n' :=
  lvIntern_answer hn hp (by omega)

lemma scopeRebase_answer {n : LvNet} (hn : Ok n) {lvl : ℕ} {p : List ℕ} (hp : PathOf n.toNet lvl p)
    {src : LvNet} (hsrc : Ok src) {s : ℕ} {q : List ℕ} (hq : PathOf src.toNet s q) :
    ∃ l n', n.scopeRebase src.toNet lvl s = some (l, n') ∧ Answer n (p ++ q) l n' := by
  rw [scopeRebase]
  split_ifs with h0
  · subst h0
    rw [hsrc.trie.eq_lvlPath hq, hsrc.trie.eq_lvlPath .root |>.symm, List.append_nil]
    exact ⟨lvl, n, rfl, .refl _, hp, hn⟩
  · rw [← hsrc.trie.eq_lvlPath hq]
    exact lvInternPath_answer hn hp (PathOf.byte hsrc.byte hq)

lemma lvlPrefix2_answer {n : LvNet} (hn : Ok n) {a b : ℕ} {p q : List ℕ} (hp : PathOf n.toNet a p)
    (hq : PathOf n.toNet b q) {gen : ℕ} (hgen : gen < 256) :
    ∃ l n', n.lvlPrefix2 gen a b = some (l, n') ∧ Answer n (gen :: (p ++ q)) l n' := by
  obtain ⟨l, m, hm, ha⟩ := lvIntern_answer hn .root hgen
  have hp' := hp.grown ha.grown
  have hq' := hq.grown ha.grown
  have hbs : ∀ b ∈ p ++ q, b < 256 := by
    intro b hb
    rcases List.mem_append.mp hb with h | h
    · exact PathOf.byte hn.byte hp b h
    · exact PathOf.byte hn.byte hq b h
  obtain ⟨l', n', hn', ha'⟩ := lvInternPath_answer ha.ok ha.path hbs
  refine ⟨l', n', ?_, ha.grown.trans ha'.grown, ha'.path, ha'.ok⟩
  rw [lvlPrefix2, hm, Option.bind_some, ← ha.ok.trie.eq_lvlPath hp', ← ha.ok.trie.eq_lvlPath hq']
  exact hn'

/-! ## Installing a table -/

/-- A table of parents and bits, as `net_save_line` writes it and `net_level_set` takes it:
an `int` counts the rows, bits are bytes, parents come before their children, and no edge
is there twice. -/
structure ValidTable (table : List (ℕ × ℕ)) : Prop where
  size : table.length < 2 ^ 31
  byte : ∀ row ∈ table, row.2 < 256
  parent : ∀ (i : ℕ) (row : ℕ × ℕ), table[i]? = some row → row.1 ≤ i
  distinct : table.Nodup

lemma levelsOf_spec (n : Net) (table : List (ℕ × ℕ)) (hn : TrieOk n)
    (hparent : ∀ (i : ℕ) (row : ℕ × ℕ), table[i]? = some row → row.1 ≤ n.levels.length + i) :
    TrieOk { n with levels := levelsOf n.levels table } ∧
      (levelsOf n.levels table).map (fun l => (l.parent, l.bit)) =
        n.levels.map (fun l => (l.parent, l.bit)) ++ table := by
  induction table generalizing n with
  | nil => exact ⟨hn, by simp [levelsOf]⟩
  | cons row table ih =>
    obtain ⟨parent, bit⟩ := row
    have hp : parent ≤ n.levels.length := hparent 0 (parent, bit) rfl
    have hdepth : (if parent = 0 then 1 else (n.levels[parent - 1]?.map (·.depth)).getD 0 + 1) =
        if parent = 0 then 1 else lvDepth n parent + 1 := by
      by_cases h0 : parent = 0 <;> simp [h0, lvDepth]
    have hlen := entered_length n parent bit
    have hrest : ∀ (i : ℕ) (row : ℕ × ℕ), table[i]? = some row →
        row.1 ≤ (entered n parent bit).levels.length + i := by
      intro i row hrow
      have := hparent (i + 1) row hrow
      omega
    obtain ⟨htrie, hmap⟩ := ih (entered n parent bit) (hn.append hp bit) hrest
    have hstep : levelsOf n.levels ((parent, bit) :: table) =
        levelsOf (entered n parent bit).levels table := by
      rw [levelsOf, hdepth]
      rfl
    rw [hstep]
    refine ⟨htrie, ?_⟩
    rw [hmap, entered, List.map_append, List.append_assoc]
    rfl

lemma netLevelSet_spec (n : LvNet) {table : List (ℕ × ℕ)} (ht : ValidTable table) :
    ∃ n', n.netLevelSet table = some n' ∧ Ok n' ∧
      n'.levels.map (fun l => (l.parent, l.bit)) = table := by
  obtain ⟨c, hc, hlt⟩ := n.lvEnsure_spec (table.length + 1)
  obtain ⟨htrie, hmap⟩ := levelsOf_spec { n.toNet with levels := [] } table
    ⟨fun i l h => by simp at h, fun i l h => by simp at h⟩ (fun i row h => by simpa using ht.parent i row h)
  rw [List.map_nil, List.nil_append] at hmap
  have hlen : (levelsOf [] table).length = table.length := by
    have hlen := congrArg List.length hmap
    rwa [List.length_map] at hlen
  obtain ⟨k, hk, hroom⟩ := lvHcapFor_spec table.length
  obtain ⟨n', hn', hsame, _, hh⟩ := lvRehash_spec
    ({ n with levels := levelsOf [] table, lvcap := c } : LvNet) (k := k) (by
      have := hroom ht.size
      rw [hk] at this
      exact hlen ▸ this)
  have hlev : n'.levels = levelsOf [] table := by rw [hsame]
  refine ⟨n', ?_, ⟨htrie.congr hlev, ?_, ?_, .inr hh⟩, hlev ▸ hmap⟩
  · rw [netLevelSet, hc]
    simp only [Nat.lt_of_succ_le hlt, if_true, hk]
    exact hn'
  · rw [Distinct, hlev, hmap]
    exact ht.distinct
  · intro l hl
    rw [hlev] at hl
    have hrow : (l.parent, l.bit) ∈ table := hmap ▸ List.mem_map_of_mem hl
    exact ht.byte _ hrow

/-! ## Every sequence of calls -/

/-- The nets that calls make from an initialised one, each with levels that are there. -/
inductive Made : LvNet → Prop
  | init (n : Net) : Made (init n)
  | app {n n' : LvNet} {s l : ℕ} {bit : ℤ} (h : Made n) (hs : s ≤ n.levels.length)
      (hr : n.scopeApp s bit = some (l, n')) : Made n'
  | prefix2 {n n' : LvNet} {gen a b l : ℕ} (h : Made n) (hgen : gen < 256)
      (ha : a ≤ n.levels.length) (hb : b ≤ n.levels.length)
      (hr : n.lvlPrefix2 gen a b = some (l, n')) : Made n'
  | rebase {n src n' : LvNet} {lvl s l : ℕ} (h : Made n) (hsrc : Made src)
      (hl : lvl ≤ n.levels.length) (hs : s ≤ src.levels.length)
      (hr : n.scopeRebase src.toNet lvl s = some (l, n')) : Made n'
  | set {n n' : LvNet} {table : List (ℕ × ℕ)} (h : Made n) (ht : ValidTable table)
      (hr : n.netLevelSet table = some n') : Made n'

lemma Made.ok {n : LvNet} (h : Made n) : Ok n := by
  induction h with
  | init n =>
    refine ⟨⟨fun i l h => ?_, fun i l h => ?_⟩, List.nodup_nil, fun l h => ?_, .inl ⟨rfl, rfl⟩⟩
    · simp [LvNet.init] at h
    · simp [LvNet.init] at h
    · simp [LvNet.init] at h
  | app _ hs hr ih =>
    obtain ⟨_, _, hr', ha⟩ := scopeApp_answer ih (ih.trie.pathOf hs) _
    rw [hr, Option.some.injEq, Prod.mk.injEq] at hr'
    exact hr'.2 ▸ ha.ok
  | prefix2 _ hgen ha hb hr ih =>
    obtain ⟨_, _, hr', ha⟩ := lvlPrefix2_answer ih (ih.trie.pathOf ha) (ih.trie.pathOf hb) hgen
    rw [hr, Option.some.injEq, Prod.mk.injEq] at hr'
    exact hr'.2 ▸ ha.ok
  | rebase _ _ hl hs hr ih ih' =>
    obtain ⟨_, _, hr', ha⟩ := scopeRebase_answer ih (ih.trie.pathOf hl) ih' (ih'.trie.pathOf hs)
    rw [hr, Option.some.injEq, Prod.mk.injEq] at hr'
    exact hr'.2 ▸ ha.ok
  | set _ ht hr _ =>
    obtain ⟨_, hr', hok, _⟩ := netLevelSet_spec _ ht
    rw [hr, Option.some.injEq] at hr'
    exact hr' ▸ hok

lemma Answer.yields {n n' : LvNet} {p : List ℕ} {l : ℕ} {r : Option (ℕ × LvNet)}
    (h : Answer n p l n') (hr : r = some (l, n')) : Yields n p r :=
  ⟨l, n', hr, h.path, fun _ _ hp => hp.grown h.grown⟩

/-- After any sequence of calls a level is its path, and every call answers with the level
of the path that it stands for. -/
theorem levelTrie_canonical {n : LvNet} (hn : Made n) :
    Canonical n.toNet ∧
    (∀ s p, PathOf n.toNet s p → ∀ bit : ℤ, Yields n (p ++ [(bit % 2).toNat]) (n.scopeApp s bit)) ∧
    (∀ lvl p, PathOf n.toNet lvl p → ∀ src, Made src → ∀ s q, PathOf src.toNet s q →
      Yields n (p ++ q) (n.scopeRebase src.toNet lvl s)) ∧
    (∀ a p, PathOf n.toNet a p → ∀ b q, PathOf n.toNet b q → ∀ gen < 256,
      Yields n (gen :: (p ++ q)) (n.lvlPrefix2 gen a b)) ∧
    (∀ table, ValidTable table → ∃ n', n.netLevelSet table = some n' ∧
      n'.levels.map (fun l => (l.parent, l.bit)) = table) := by
  have hok := hn.ok
  refine ⟨hok.trie.canonical hok.distinct, ?_, ?_, ?_, ?_⟩
  · intro s p hp bit
    obtain ⟨l, n', hr, ha⟩ := scopeApp_answer hok hp bit
    exact ha.yields hr
  · intro lvl p hp src hsrc s q hq
    obtain ⟨l, n', hr, ha⟩ := scopeRebase_answer hok hp hsrc.ok hq
    exact ha.yields hr
  · intro a p hp b q hq gen hgen
    obtain ⟨l, n', hr, ha⟩ := lvlPrefix2_answer hok hp hq hgen
    exact ha.yields hr
  · intro table ht
    obtain ⟨n', hr, _, hmap⟩ := n.netLevelSet_spec ht
    exact ⟨n', hr, hmap⟩

theorem levelTrie_canonical_edge :
    ∃ l n', (init netInit).scopeApp 0 1 = some (l, n') ∧ PathOf n'.toNet l [1] ∧ Canonical n'.toNet := by
  obtain ⟨l, n', hr, hpath, _⟩ := (levelTrie_canonical (.init netInit)).2.1 0 [] .root 1
  exact ⟨l, n', hr, hpath, (levelTrie_canonical (.app (.init netInit) (Nat.zero_le _) hr)).1⟩

end LvNet

end LinEngine
