import LinEngine.Stamps

/-!
# The match cache

`LinPatCache` of `pattern.h`, a table with one entry for all nodes of an index modulo its
capacity. An entry counts when its generation is that of the cache: a drop writes the
generation 0, which the cache never has, and an invalidation counts the generation on.
-/
namespace LinEngine.Matching

structure LinPatCacheEnt where
  node : Int32
  gen : UInt32
  val : Int64
  deriving DecidableEq, Repr

/-- The table is the memory behind a pointer, which may be null. -/
structure LinPatCache where
  e : Option (ℕ → LinPatCacheEnt)
  cap : Int32
  gen : UInt32

/-- `memset` of the first `k` entries to zero bytes. -/
def zeroEnts (k : ℕ) (e : ℕ → LinPatCacheEnt) (i : ℕ) : LinPatCacheEnt := if i < k then ⟨0, 0, 0⟩ else e i

namespace LinPatCache

/-- How many entries there are, and the number of entries that `memset` clears. -/
def size (c : LinPatCache) : ℕ := c.cap.toUInt32.toNat

/-- The index of the entry of a node. -/
def cell (c : LinPatCache) (node : Int32) : ℕ := node.toUInt32.toNat % c.size

/-- A new table with the memory that the caller hands over. -/
def init (store : Option (ℕ → LinPatCacheEnt)) (cap : Int32) : LinPatCache :=
  let c : LinPatCache := ⟨store, if 0 < cap then cap else 0, 1⟩
  if c.cap ≠ 0 then { c with e := store.map (zeroEnts c.size) } else c

/-- The guard of every operation: there is a table with entries. -/
def table (c : LinPatCache) : Option (ℕ → LinPatCacheEnt) := if c.cap ≤ 0 then none else c.e

def drop (c : LinPatCache) (node : Int32) : LinPatCache :=
  match c.table with
  | none => c
  | some e => { c with e := some (Function.update e (c.cell node) { e (c.cell node) with gen := 0 }) }

def get (c : LinPatCache) (node : Int32) : Option Int64 :=
  match c.table with
  | none => none
  | some e =>
    let ent := e (c.cell node)
    if ent.gen ≠ c.gen ∨ ent.node ≠ node then none else some ent.val

def put (c : LinPatCache) (node : Int32) (val : Int64) : LinPatCache :=
  match c.table with
  | none => c
  | some e => { c with e := some (Function.update e (c.cell node) ⟨node, c.gen, val⟩) }

def invalidate (c : LinPatCache) : LinPatCache :=
  match c.table with
  | none => c
  | some e =>
    if c.gen + 1 = 0 then { c with gen := 1, e := some (zeroEnts c.size e) } else { c with gen := c.gen + 1 }

end LinPatCache

/-! ## Runs -/

inductive CacheOp
  | init (store : Option (ℕ → LinPatCacheEnt)) (cap : Int32)
  | put (node : Int32) (val : Int64)
  | get (node : Int32)
  | drop (node : Int32)
  | invalidate

namespace CacheOp

def apply (c : LinPatCache) : CacheOp → LinPatCache
  | .init store cap => .init store cap
  | .put node val => c.put node val
  | .get _ => c
  | .drop node => c.drop node
  | .invalidate => c.invalidate

/-- The operation takes what the cache `c` has for the node away, or replaces it. -/
def Touches (c : LinPatCache) (node : Int32) : CacheOp → Prop
  | .init _ _ => True
  | .put m _ => c.cell m = c.cell node
  | .get _ => False
  | .drop m => c.cell m = c.cell node
  | .invalidate => True

end CacheOp

/-- The cache after the operations. -/
def cacheRun (c : LinPatCache) (ops : List CacheOp) : LinPatCache := ops.foldl CacheOp.apply c

/-! ## What an entry says -/

namespace LinPatCache

variable {c : LinPatCache} {node : Int32} {val : Int64}

/-- What the table holds in the entry of a node: a node and its value. -/
def fact (c : LinPatCache) (node : Int32) : Option (Int32 × Int64) :=
  c.table.bind fun e =>
    if (e (c.cell node)).gen = c.gen then some ((e (c.cell node)).node, (e (c.cell node)).val) else none

lemma get_eq_some : c.get node = some val ↔ c.fact node = some (node, val) := by
  unfold get fact
  cases c.table with
  | none => simp
  | some e =>
    by_cases hgen : (e (c.cell node)).gen = c.gen
    · by_cases hnode : (e (c.cell node)).node = node <;> simp [hgen, hnode]
    · simp [hgen]

/-- The index of a node is one of the table. -/
lemma cell_lt {e : ℕ → LinPatCacheEnt} (h : c.table = some e) (node : Int32) : c.cell node < c.size := by
  refine Nat.mod_lt _ (Nat.pos_of_ne_zero fun hzero => ?_)
  have hcap : ¬ c.cap ≤ 0 := by
    intro hle
    rw [table, if_pos hle] at h
    cases h
  obtain ⟨e, ⟨cap⟩, gen⟩ := c
  obtain rfl : cap = 0 := UInt32.toNat_inj.mp hzero
  exact hcap (show (0 : Int32) ≤ 0 by decide)

lemma table_some {e e' : ℕ → LinPatCacheEnt} (h : c.table = some e) : ({ c with e := some e' } : LinPatCache).table = some e' := by
  unfold table at h ⊢
  split_ifs at h ⊢
  rfl

/-- The generations of the entries are of rounds so far, and 0 is none of them. -/
structure Ok (c : LinPatCache) : Prop where
  pos : 0 < c.gen.toNat
  past : ∀ e, c.table = some e → Stamps.Past 32 (fun i : Fin c.size => (e i).gen.toNat) c.gen.toNat

/-- The entries of a new table are zero. -/
lemma init_gen {store : Option (ℕ → LinPatCacheEnt)} {cap : Int32} {e : ℕ → LinPatCacheEnt}
    (he : (init store cap).table = some e) {i : ℕ} (hi : i < (init store cap).size) : (e i).gen = 0 := by
  by_cases hcap : 0 < cap
  · have hne : cap ≠ 0 := fun h => absurd (h ▸ hcap) (by decide)
    have hinit : init store cap = ⟨store.map (zeroEnts cap.toUInt32.toNat), cap, 1⟩ := by
      simp [init, hcap, hne, size]
    rw [hinit] at he hi
    have hsome : store.map (zeroEnts cap.toUInt32.toNat) = some e := by
      unfold table at he
      split_ifs at he
      exact he
    obtain ⟨e₀, -, rfl⟩ := Option.map_eq_some_iff.mp hsome
    exact congrArg LinPatCacheEnt.gen (if_pos hi)
  · have hinit : init store cap = ⟨store, 0, 1⟩ := by simp [init, hcap]
    rw [hinit, table, if_pos (show (0 : Int32) ≤ 0 by decide)] at he
    cases he

lemma Ok.init (store : Option (ℕ → LinPatCacheEnt)) (cap : Int32) : (LinPatCache.init store cap).Ok := by
  have hgen : (LinPatCache.init store cap).gen = 1 := by
    unfold LinPatCache.init
    extract_lets c
    split_ifs <;> rfl
  refine ⟨by rw [hgen]; decide, fun e he => ⟨by rw [hgen]; decide, fun i => ?_⟩⟩
  rw [init_gen he i.isLt]
  exact Nat.zero_le _

lemma fact_init (store : Option (ℕ → LinPatCacheEnt)) (cap : Int32) : (LinPatCache.init store cap).fact node = none := by
  unfold fact
  rcases he : (LinPatCache.init store cap).table with _ | e
  · rfl
  · have hgen := init_gen he (cell_lt he node)
    have hpos := (Ok.init store cap).pos
    rw [Option.bind_some, hgen, if_neg fun h => by rw [← h] at hpos; exact absurd hpos (by decide)]

/-- Without a table no operation does anything. -/
lemma fact_of_table_none (h : c.table = none) : c.fact node = none := by rw [fact, h]; rfl

lemma Ok.write (h : c.Ok) {e : ℕ → LinPatCacheEnt} (he : c.table = some e) (i : ℕ) {ent : LinPatCacheEnt}
    (hent : ent.gen.toNat ≤ c.gen.toNat) : ({ c with e := some (Function.update e i ent) } : LinPatCache).Ok := by
  refine ⟨h.pos, fun e' he' => ?_⟩
  rw [table_some he] at he'
  cases he'
  refine (h.past e he).update fun j => ?_
  by_cases hj : (j : ℕ) = i
  · rw [hj, Function.update_self]
    exact hent
  · rw [Function.update_of_ne hj]
    exact (h.past e he).le j

/-- An invalidation is the next round. -/
lemma invalidate_advance {e : ℕ → LinPatCacheEnt} (he : c.table = some e) :
    ∃ e', c.invalidate = { c with e := some e', gen := c.invalidate.gen } ∧
      (∀ i : Fin c.size, (e' i).gen.toNat = (Stamps.advance 32 (fun i : Fin c.size => (e i).gen.toNat) c.gen.toNat).1 i) ∧
      c.invalidate.gen.toNat = (Stamps.advance 32 (fun i : Fin c.size => (e i).gen.toNat) c.gen.toNat).2 := by
  have hnext : (c.gen + 1).toNat = (c.gen.toNat + 1) % 2 ^ 32 := UInt32.toNat_add c.gen 1
  have hzero : (c.gen + 1).toNat = 0 ↔ c.gen + 1 = 0 := by
    rw [← UInt32.toNat_inj]
    rfl
  have hce : c.e = some e := by
    unfold table at he
    split_ifs at he
    exact he
  unfold invalidate Stamps.advance
  rw [he, ← hnext]
  dsimp only
  by_cases hwrap : c.gen + 1 = 0
  · rw [if_pos hwrap, if_pos (hzero.mpr hwrap)]
    refine ⟨_, rfl, fun i => ?_, rfl⟩
    rw [zeroEnts, if_pos i.isLt]
    rfl
  · rw [if_neg hwrap, if_neg (mt hzero.mp hwrap)]
    exact ⟨e, by rw [← hce], fun _ => rfl, rfl⟩

variable (node) in
lemma Ok.invalidate (h : c.Ok) : c.invalidate.Ok ∧ c.invalidate.fact node = none := by
  rcases he : c.table with _ | e
  · have hsame : c.invalidate = c := by rw [LinPatCache.invalidate, he]
    rw [hsame]
    exact ⟨h, by rw [fact, he]; rfl⟩
  obtain ⟨e', hnew, hmark, hgen⟩ := invalidate_advance he
  have hpast := h.past e he
  have htable : c.invalidate.table = some e' := by
    rw [hnew]
    exact table_some (c := { c with gen := c.invalidate.gen }) he
  have hcell : c.invalidate.cell node = c.cell node := by rw [hnew]; rfl
  constructor
  · refine ⟨by rw [hgen]; exact Stamps.advance_snd_pos, fun e'' he'' => ?_⟩
    rw [htable] at he''
    cases he''
    have hadvance := hpast.advance (by decide)
    rw [← hgen] at hadvance
    rw [hnew]
    exact hadvance.update fun i => (hmark i).trans_le (hadvance.le i)
  · have hfresh := hpast.advance_fresh ⟨c.cell node, cell_lt he node⟩
    rw [← hmark, ← hgen] at hfresh
    have hne : (e' (c.cell node)).gen ≠ c.invalidate.gen := fun heq => hfresh.ne (congrArg UInt32.toNat heq)
    rw [fact, htable, Option.bind_some, hcell, if_neg hne]

/-- Writing the entry of a node leaves the entries of other cells. -/
lemma fact_update {e : ℕ → LinPatCacheEnt} (he : c.table = some e) (m : Int32) (ent : LinPatCacheEnt) :
    ({ c with e := some (Function.update e (c.cell m) ent) } : LinPatCache).fact node =
      if c.cell m = c.cell node then (if ent.gen = c.gen then some (ent.node, ent.val) else none) else c.fact node := by
  rw [fact, table_some he, fact, he]
  change (if (Function.update e (c.cell m) ent (c.cell node)).gen = c.gen then
    some ((Function.update e (c.cell m) ent (c.cell node)).node, (Function.update e (c.cell m) ent (c.cell node)).val)
      else none) = _
  by_cases hcell : c.cell m = c.cell node
  · rw [if_pos hcell, hcell, Function.update_self]
  · rw [if_neg hcell, Function.update_of_ne (Ne.symm hcell)]
    rfl

end LinPatCache

/-! ## Runs and facts -/

namespace CacheOp

open LinPatCache (fact)

variable {c : LinPatCache} {o : CacheOp} {node : Int32}

/-- The fact that the operation stores, when there is a table. -/
def stores (c : LinPatCache) : CacheOp → Option (Int32 × Int64)
  | .put m val => c.table.map fun _ => (m, val)
  | _ => none

/-- An operation leaves the entry of a node, or puts there what it stores. -/
lemma apply_spec (h : c.Ok) (o : CacheOp) (node : Int32) : (o.apply c).Ok ∧
    (¬ o.Touches c node → (o.apply c).fact node = c.fact node) ∧ (o.Touches c node → (o.apply c).fact node = o.stores c) := by
  cases o with
  | init store cap =>
    exact ⟨.init store cap, fun h => absurd trivial h, fun _ => LinPatCache.fact_init store cap⟩
  | put m val =>
    change (c.put m val).Ok ∧ (c.cell m ≠ c.cell node → (c.put m val).fact node = c.fact node) ∧
      (c.cell m = c.cell node → (c.put m val).fact node = c.table.map fun _ => (m, val))
    rcases he : c.table with _ | e
    · have hsame : c.put m val = c := by rw [LinPatCache.put, he]
      rw [hsame]
      exact ⟨h, fun _ => rfl, fun _ => LinPatCache.fact_of_table_none he⟩
    · have hput : c.put m val = { c with e := some (Function.update e (c.cell m) ⟨m, c.gen, val⟩) } := by
        rw [LinPatCache.put, he]
      rw [hput, LinPatCache.fact_update he]
      refine ⟨h.write he _ le_rfl, fun hcell => if_neg hcell, fun hcell => ?_⟩
      rw [if_pos hcell, if_pos rfl]
      rfl
  | get m => exact ⟨h, fun _ => rfl, fun h => h.elim⟩
  | drop m =>
    change (c.drop m).Ok ∧ (c.cell m ≠ c.cell node → (c.drop m).fact node = c.fact node) ∧
      (c.cell m = c.cell node → (c.drop m).fact node = none)
    rcases he : c.table with _ | e
    · have hsame : c.drop m = c := by rw [LinPatCache.drop, he]
      rw [hsame]
      exact ⟨h, fun _ => rfl, fun _ => LinPatCache.fact_of_table_none he⟩
    · have hdrop : c.drop m = { c with e := some (Function.update e (c.cell m) { e (c.cell m) with gen := 0 }) } := by
        rw [LinPatCache.drop, he]
      have hzero : (0 : UInt32) ≠ c.gen := fun heq => by
        have hpos := h.pos
        rw [← heq] at hpos
        exact absurd hpos (by decide)
      rw [hdrop, LinPatCache.fact_update he]
      refine ⟨h.write he _ (Nat.zero_le _), fun hcell => if_neg hcell, fun hcell => ?_⟩
      rw [if_pos hcell, if_neg hzero]
  | invalidate => exact ⟨(h.invalidate node).1, fun h => absurd trivial h, fun _ => (h.invalidate node).2⟩

/-- Only a new table changes the cells. -/
lemma touches_congr {c' : LinPatCache} (h : c'.cap = c.cap) : o.Touches c' node ↔ o.Touches c node := by
  have hcell : ∀ m, c'.cell m = c.cell m := fun m => by unfold LinPatCache.cell LinPatCache.size; rw [h]
  cases o <;> simp only [Touches, hcell]

lemma put_cap (c : LinPatCache) (m : Int32) (val : Int64) : (c.put m val).cap = c.cap := by
  unfold LinPatCache.put
  split <;> rfl

lemma apply_cap (h : ¬ o.Touches c node) : (o.apply c).cap = c.cap := by
  cases o with
  | init store cap => exact absurd trivial h
  | put m val => exact put_cap c m val
  | get m => rfl
  | drop m =>
    change (c.drop m).cap = c.cap
    unfold LinPatCache.drop
    split <;> rfl
  | invalidate => exact absurd trivial h

lemma stores_eq_some {m : Int32} {val : Int64} : o.stores c = some (m, val) ↔ o = .put m val ∧ c.table.isSome := by
  cases o <;> simp [stores, Option.isSome_iff_exists, and_comm]

end CacheOp

lemma cacheRun_concat (c : LinPatCache) (ops : List CacheOp) (o : CacheOp) :
    cacheRun c (ops ++ [o]) = o.apply (cacheRun c ops) := by
  simp [cacheRun]

/-- The last operation on the entry of a node was a put of this fact. -/
def LastPut (c : LinPatCache) (ops : List CacheOp) (node m : Int32) (val : Int64) : Prop :=
  ∃ pre post, ops = pre ++ .put m val :: post ∧ (cacheRun c pre).table.isSome ∧
    (cacheRun c pre).cell m = (cacheRun c pre).cell node ∧ ∀ o ∈ post, ¬ o.Touches (cacheRun c pre) node

section

variable {c : LinPatCache} {node : Int32}

/-- Operations that do not touch an entry leave it. -/
lemma cacheRun_untouched (ops : List CacheOp) (h : c.Ok) (hops : ∀ o ∈ ops, ¬ o.Touches c node) :
    (cacheRun c ops).Ok ∧ (cacheRun c ops).fact node = c.fact node ∧ (cacheRun c ops).cap = c.cap := by
  induction ops using List.reverseRecOn with
  | nil => exact ⟨h, rfl, rfl⟩
  | append_singleton ops o ih =>
    obtain ⟨hok, hfact, hcap⟩ := ih fun o' ho' => hops o' (List.mem_append_left _ ho')
    have ho : ¬ o.Touches (cacheRun c ops) node :=
      fun ht => hops o (by simp) ((CacheOp.touches_congr hcap).mp ht)
    obtain ⟨hok', hleave, -⟩ := CacheOp.apply_spec hok o node
    rw [cacheRun_concat]
    exact ⟨hok', (hleave ho).trans hfact, (CacheOp.apply_cap ho).trans hcap⟩

end

lemma cacheRun_ok (c : LinPatCache) (store : Option (ℕ → LinPatCacheEnt)) (cap : Int32) (ops : List CacheOp) :
    (cacheRun c (.init store cap :: ops)).Ok := by
  induction ops using List.reverseRecOn with
  | nil => exact .init store cap
  | append_singleton ops o ih =>
    rw [← List.cons_append, cacheRun_concat]
    exact (CacheOp.apply_spec ih o 0).1

/-- After a put the entry holds its fact for as long as no operation touches it. -/
lemma cacheRun_put {c : LinPatCache} {node m : Int32} {val : Int64} (h : c.Ok) (htable : c.table.isSome)
    (hcell : c.cell m = c.cell node) {post : List CacheOp} (hpost : ∀ o ∈ post, ¬ o.Touches c node) :
    (cacheRun c (.put m val :: post)).fact node = some (m, val) ∧ (cacheRun c (.put m val :: post)).cap = c.cap := by
  obtain ⟨hok, -, hput⟩ := CacheOp.apply_spec h (.put m val) node
  have hcap : (CacheOp.apply c (.put m val)).cap = c.cap := CacheOp.put_cap c m val
  obtain ⟨-, hfact, hcap'⟩ := cacheRun_untouched post hok fun o ho ht => hpost o ho ((CacheOp.touches_congr hcap).mp ht)
  have hstores : CacheOp.stores c (.put m val) = some (m, val) := CacheOp.stores_eq_some.mpr ⟨rfl, htable⟩
  exact ⟨hfact.trans ((hput hcell).trans hstores), hcap'.trans hcap⟩

/-- After a first `init` an entry holds the fact of the last put on it. -/
lemma cacheRun_fact (c : LinPatCache) (store : Option (ℕ → LinPatCacheEnt)) (cap : Int32) (ops : List CacheOp)
    (node m : Int32) (val : Int64) :
    (cacheRun c (.init store cap :: ops)).fact node = some (m, val) ↔ LastPut c (.init store cap :: ops) node m val := by
  -- What comes before a put begins with the first `init`.
  have hbefore : ∀ {ops pre post}, CacheOp.init store cap :: ops = pre ++ .put m val :: post → (cacheRun c pre).Ok := by
    intro ops pre post heq
    cases pre with
    | nil => cases heq
    | cons o pre =>
      obtain ⟨rfl, -⟩ := List.cons.inj heq
      exact cacheRun_ok c store cap pre
  have hsplit : ∀ pre post, cacheRun c (pre ++ post) = cacheRun (cacheRun c pre) post :=
    fun pre post => List.foldl_append
  constructor
  · intro hfact
    induction ops using List.reverseRecOn with
    | nil =>
      rw [show cacheRun c [.init store cap] = .init store cap from rfl, LinPatCache.fact_init] at hfact
      cases hfact
    | append_singleton ops o ih =>
      rw [← List.cons_append, cacheRun_concat] at hfact
      rw [← List.cons_append]
      obtain ⟨-, hleave, htouch⟩ := CacheOp.apply_spec (cacheRun_ok c store cap ops) o node
      by_cases ht : o.Touches (cacheRun c (.init store cap :: ops)) node
      · rw [htouch ht] at hfact
        obtain ⟨rfl, htable⟩ := CacheOp.stores_eq_some.mp hfact
        exact ⟨_, [], rfl, htable, ht, fun o ho => absurd ho List.not_mem_nil⟩
      · rw [hleave ht] at hfact
        obtain ⟨pre, post, heq, htable, hcell, hpost⟩ := ih hfact
        refine ⟨pre, post ++ [o], by rw [heq, List.append_assoc]; rfl, htable, hcell, fun o' ho' => ?_⟩
        rcases List.mem_append.mp ho' with ho' | ho'
        · exact hpost o' ho'
        · rw [List.mem_singleton.mp ho']
          rw [heq, hsplit] at ht
          exact mt (CacheOp.touches_congr (cacheRun_put (hbefore heq) htable hcell hpost).2).mpr ht
  · rintro ⟨pre, post, heq, htable, hcell, hpost⟩
    rw [heq, hsplit]
    exact (cacheRun_put (hbefore heq) htable hcell hpost).1

/-- A hit returns the value of the last put on the node's entry, and this put was for the node; since then the entry was not
dropped or overwritten and the table neither invalidated nor set up anew. -/
theorem linPatCacheGet_valid (c : LinPatCache) (store : Option (ℕ → LinPatCacheEnt)) (cap : Int32) (ops : List CacheOp)
    (node : Int32) (val : Int64) :
    (cacheRun c (.init store cap :: ops)).get node = some val ↔ ∃ pre post,
      .init store cap :: ops = pre ++ .put node val :: post ∧ (cacheRun c pre).table.isSome ∧
        ∀ o ∈ post, ¬ o.Touches (cacheRun c pre) node := by
  rw [LinPatCache.get_eq_some, cacheRun_fact]
  constructor
  · rintro ⟨pre, post, heq, htable, -, hpost⟩
    exact ⟨pre, post, heq, htable, hpost⟩
  · rintro ⟨pre, post, heq, htable, hpost⟩
    exact ⟨pre, post, heq, htable, rfl, hpost⟩

end LinEngine.Matching
