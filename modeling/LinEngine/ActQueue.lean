import LinEngine.Collect

/-!
# The queue of active pairs and its index

`act` lists the queued pairs and `act_of` says where the pair of a node stands, so that a pair
can leave from the middle: the last pair moves into its place.
-/
namespace LinEngine

/-- A node is one of the ends of a pair. -/
def Touches (a : Port × Port) (v : ℕ) : Prop := a.1.node = v ∨ a.2.node = v

/-- The pair of node `v` is entry `k`. -/
def StandsAt (q : List (Port × Port)) (k v : ℕ) : Prop := ∃ a, q[k]? = some a ∧ Touches a v

/-- The queue is full pairs of two nodes each, and the index finds the pair of every node. -/
structure Queued (n : Net) : Prop where
  even : n.atop = 2 * n.queue.length
  index : ∀ v i, n.actOf.get v = some i ↔ ∃ k, i = 2 * k ∧ StandsAt n.queue k v
  apart : ∀ a ∈ n.queue, a.1.node ≠ a.2.node

section Standing

variable {q : List (Port × Port)} {k v : ℕ}

lemma standsAt_append {z : Port × Port} :
    StandsAt (q ++ [z]) k v ↔ StandsAt q k v ∨ k = q.length ∧ Touches z v := by
  constructor
  · rintro ⟨a, ha, hv⟩
    rcases Nat.lt_trichotomy k q.length with hk | rfl | hk
    · exact .inl ⟨a, by rwa [List.getElem?_append_left hk] at ha, hv⟩
    · rw [List.getElem?_append_right le_rfl, Nat.sub_self] at ha
      exact .inr ⟨rfl, Option.some.inj ha ▸ hv⟩
    · rw [List.getElem?_eq_none (by simpa using hk)] at ha
      exact absurd ha (Option.some_ne_none a).symm
  · rintro (⟨a, ha, hv⟩ | ⟨rfl, hv⟩)
    · exact ⟨a, by rwa [List.getElem?_append_left (List.getElem?_eq_some_iff.mp ha).1], hv⟩
    · exact ⟨z, by simp, hv⟩

lemma standsAt_set {z : Port × Port} {i : ℕ} (hi : i < q.length) :
    StandsAt (q.set i z) k v ↔ k = i ∧ Touches z v ∨ k ≠ i ∧ StandsAt q k v := by
  unfold StandsAt
  rw [List.getElem?_set]
  by_cases hk : i = k
  · subst hk
    simp [hi]
  · simp [hk, Ne.symm hk]

lemma StandsAt.lt (h : StandsAt q k v) : k < q.length := by
  obtain ⟨a, ha, -⟩ := h
  exact (List.getElem?_eq_some_iff.mp ha).1

end Standing

namespace Queued

variable {n : Net}

lemma unique (h : Queued n) {v j k : ℕ} (hj : StandsAt n.queue j v) (hk : StandsAt n.queue k v) : j = k := by
  have h₁ := (h.index v (2 * j)).mpr ⟨j, rfl, hj⟩
  have h₂ := (h.index v (2 * k)).mpr ⟨k, rfl, hk⟩
  rw [h₁] at h₂
  have := Option.some.inj h₂
  omega

lemma none_iff (h : Queued n) (v : ℕ) : n.actOf.get v = none ↔ ∀ a ∈ n.queue, ¬ Touches a v := by
  constructor
  · intro hv a ha hav
    obtain ⟨k, hk⟩ := List.mem_iff_getElem?.mp ha
    rw [(h.index v (2 * k)).mpr ⟨k, rfl, a, hk, hav⟩] at hv
    exact Option.some_ne_none _ hv
  · intro hnone
    cases hv : n.actOf.get v with
    | none => rfl
    | some i =>
      obtain ⟨k, -, a, ha, hav⟩ := (h.index v i).mp hv
      exact absurd hav (hnone a (List.mem_of_getElem? ha))

lemma nodup (h : Queued n) : n.queue.Nodup := by
  refine List.nodup_iff_injective_getElem.mpr fun i j hij => Fin.ext ?_
  have hi : StandsAt n.queue i n.queue[i].1.node := ⟨_, List.getElem?_eq_getElem i.2, .inl rfl⟩
  have hj : StandsAt n.queue j n.queue[i].1.node := ⟨_, List.getElem?_eq_getElem j.2, .inl (congrArg (·.1.node) hij.symm)⟩
  exact h.unique hi hj

/-- Only the queue and its index count. -/
lemma congr (h : Queued n) {m : Net} (hact : m.act = n.act) (htop : m.atop = n.atop) (hof : m.actOf = n.actOf) :
    Queued m := by
  have hq : m.queue = n.queue := by rw [Net.queue, Net.queue, hact, htop]
  exact ⟨by rw [hq, htop, h.even], fun v i => by rw [hq, hof, h.index], by rw [hq]; exact h.apart⟩

end Queued

/-- A queue with nothing in it. -/
lemma queued_empty {n : Net} (htop : n.atop = 0) (hof : n.actOf = .empty) : Queued n := by
  have hq : n.queue = [] := by rw [Net.queue, htop]; rfl
  refine ⟨by rw [hq, htop]; rfl, fun v i => ?_, by rw [hq]; exact fun a ha => absurd ha List.not_mem_nil⟩
  rw [hof, hq, Table.get_empty]
  refine ⟨fun h => absurd h.symm (Option.some_ne_none i), ?_⟩
  rintro ⟨k, -, a, ha, -⟩
  exact absurd ha.symm (by simp)

/-- A pair of two nodes joins the queue at its end, unless one of them is queued. -/
lemma Queued.actPush {n : Net} (h : Queued n) {a b : Port} (hab : a.node ≠ b.node) :
    Queued (actPush n a b) ∧
      (actPush n a b).queue = if (n.actOf.get a.node).isSome || (n.actOf.get b.node).isSome then n.queue
        else n.queue ++ [(a, b)] := by
  unfold LinEngine.actPush
  split_ifs with hfull
  · exact ⟨h, rfl⟩
  · rw [Bool.or_eq_true, not_or, Bool.not_eq_true, Bool.not_eq_true, Option.isSome_eq_false_iff,
      Option.isSome_eq_false_iff, Option.isNone_iff_eq_none, Option.isNone_iff_eq_none] at hfull
    obtain ⟨c, hc⟩ : ∃ c, n.atop = 2 * c := ⟨_, h.even⟩
    have hlen : n.queue.length = c := by
      have := h.even
      omega
    have hqueue : pairsOf ((n.act.set n.atop a).set (n.atop + 1) b) ((n.atop + 2) / 2) = n.queue ++ [(a, b)] := by
      have hsucc : (n.atop + 2) / 2 = c + 1 := by omega
      have hq : n.queue = pairsOf n.act c := by rw [Net.queue, hc, Nat.mul_div_cancel_left c two_pos]
      rw [hsucc, pairsOf_succ, hq]
      congr 1
      · refine pairsOf_congr fun j hj => ?_
        rw [Table.get_set, Table.get_set, if_neg (by omega), if_neg (by omega)]
      · simp [hc]
    refine ⟨⟨?_, fun v i => ?_, fun x hx => ?_⟩, hqueue⟩
    · rw [Net.queue, hqueue, List.length_append, hlen, hc]
      rfl
    · rw [Net.queue, hqueue]
      simp only [Table.get_set, standsAt_append]
      split_ifs with h1 h2
      · subst h1
        rw [Option.some_inj]
        constructor
        · rintro rfl
          exact ⟨c, hc, .inr ⟨hlen.symm, .inl rfl⟩⟩
        · rintro ⟨k, rfl, hk | ⟨rfl, -⟩⟩
          · rw [(h.index _ _).mpr ⟨k, rfl, hk⟩] at hfull
            exact absurd hfull.1 (Option.some_ne_none _)
          · omega
      · subst h2
        rw [Option.some_inj]
        constructor
        · rintro rfl
          exact ⟨c, hc, .inr ⟨hlen.symm, .inr rfl⟩⟩
        · rintro ⟨k, rfl, hk | ⟨rfl, -⟩⟩
          · rw [(h.index _ _).mpr ⟨k, rfl, hk⟩] at hfull
            exact absurd hfull.2 (Option.some_ne_none _)
          · omega
      · rw [h.index]
        refine exists_congr fun k => and_congr_right fun _ => ⟨.inl, ?_⟩
        rintro (hk | ⟨-, hv | hv⟩)
        · exact hk
        · exact absurd hv h1
        · exact absurd hv h2
    · rw [Net.queue, hqueue, List.mem_append, List.mem_singleton] at hx
      rcases hx with hx | rfl
      · exact h.apart x hx
      · exact hab

/-- The last entry moves into the place of the one that is taken out. -/
lemma swap_perm {α : Type*} {l : List α} {k : ℕ} {a : α} (z : α) (ha : l[k]? = some a) :
    (a :: l.set k z).Perm (l ++ [z]) := by
  obtain ⟨hk, rfl⟩ := List.getElem?_eq_some_iff.mp ha
  calc (l[k] :: l.set k z).Perm (l[k] :: z :: l.eraseIdx k) := (List.set_perm_cons_eraseIdx hk z).cons _
    _ |>.Perm (z :: l[k] :: l.eraseIdx k) := .swap _ _ _
    _ |>.Perm (z :: l) := (List.getElem_cons_eraseIdx_perm hk).cons z
    _ |>.Perm (l ++ [z]) := (List.perm_append_singleton z l).symm

/-- What is left of a queue when the pair of `v` has been taken out. -/
structure Dropped (n : Net) (a : Port × Port) (v : ℕ) (m : Net) : Prop where
  queued : Queued m
  perm : (a :: m.queue).Perm n.queue
  gone : ∀ b ∈ m.queue, ¬ Touches b v

section Drop

variable {n m : Net} {init : List (Port × Port)} {a z : Port × Port} {k v : ℕ}

/-- The last pair leaves. -/
lemma Queued.dropLast (h : Queued n) (hqueue : n.queue = init ++ [a]) (hq : m.queue = init)
    (htop : m.atop = 2 * init.length) (hv : Touches a v)
    (hindex : ∀ w i, m.actOf.get w = some i ↔ ∃ j, i = 2 * j ∧ j ≠ init.length ∧ StandsAt n.queue j w) :
    Dropped n a v m := by
  have hinq : ∀ {j w}, StandsAt init j w → StandsAt n.queue j w := fun hj => hqueue ▸ standsAt_append.mpr (.inl hj)
  have hlast : StandsAt n.queue init.length v := hqueue ▸ standsAt_append.mpr (.inr ⟨rfl, hv⟩)
  refine ⟨⟨hq ▸ htop, fun w i => ?_, fun b hb => ?_⟩, ?_, fun b hb hbv => ?_⟩
  · rw [hq, hindex]
    refine exists_congr fun j => and_congr_right fun _ => ⟨fun ⟨hjk, hj⟩ => ?_, fun hj => ⟨hj.lt.ne, hinq hj⟩⟩
    rw [hqueue, standsAt_append] at hj
    exact hj.resolve_right fun hj' => hjk hj'.1
  · rw [hq] at hb
    exact h.apart b (hqueue ▸ List.mem_append_left _ hb)
  · rw [hq, hqueue]
    exact (List.perm_append_singleton a _).symm
  · rw [hq] at hb
    obtain ⟨j, hj⟩ := List.mem_iff_getElem?.mp hb
    have hat : StandsAt init j v := ⟨b, hj, hbv⟩
    exact hat.lt.ne (h.unique (hinq hat) hlast)

/-- The last pair moves into the place of the one that leaves. -/
lemma Queued.swapLast (h : Queued n) (hqueue : n.queue = init ++ [z]) (ha : init[k]? = some a) (hq : m.queue = init.set k z)
    (htop : m.atop = 2 * init.length) (hv : Touches a v)
    (hindex : ∀ w i, m.actOf.get w = some i ↔
      Touches z w ∧ i = 2 * k ∨ ¬ Touches z w ∧ ∃ j, i = 2 * j ∧ j ≠ k ∧ StandsAt n.queue j w) : Dropped n a v m := by
  have hinq : ∀ {j w}, StandsAt init j w → StandsAt n.queue j w := fun hj => hqueue ▸ standsAt_append.mpr (.inl hj)
  have hlast : ∀ {w}, Touches z w → StandsAt n.queue init.length w := fun hw =>
    hqueue ▸ standsAt_append.mpr (.inr ⟨rfl, hw⟩)
  have hk : k < init.length := (List.getElem?_eq_some_iff.mp ha).1
  have hzero : ∀ {w}, Touches z w → ∀ {j}, ¬ StandsAt init j w := fun hw _ hj =>
    hj.lt.ne (h.unique (hinq hj) (hlast hw))
  refine ⟨⟨?_, fun w i => ?_, fun b hb => ?_⟩, ?_, fun b hb hbv => ?_⟩
  · rw [hq, List.length_set, htop]
  · rw [hq, hindex]
    simp only [standsAt_set hk]
    by_cases hw : Touches z w
    · constructor
      · rintro (⟨-, rfl⟩ | ⟨hno, -⟩)
        · exact ⟨k, rfl, .inl ⟨rfl, hw⟩⟩
        · exact absurd hw hno
      · rintro ⟨j, rfl, ⟨rfl, -⟩ | ⟨-, hj⟩⟩
        · exact .inl ⟨hw, rfl⟩
        · exact absurd hj (hzero hw)
    · constructor
      · rintro (⟨hyes, -⟩ | ⟨-, j, rfl, hjk, hj⟩)
        · exact absurd hyes hw
        · rw [hqueue, standsAt_append] at hj
          exact ⟨j, rfl, .inr ⟨hjk, hj.resolve_right fun hj' => hw hj'.2⟩⟩
      · rintro ⟨j, rfl, ⟨-, hyes⟩ | ⟨hjk, hj⟩⟩
        · exact absurd hyes hw
        · exact .inr ⟨hw, j, rfl, hjk, hinq hj⟩
  · rw [hq] at hb
    rcases List.mem_or_eq_of_mem_set hb with hb | rfl
    · exact h.apart b (hqueue ▸ List.mem_append_left _ hb)
    · exact h.apart b (hqueue ▸ List.mem_append_right _ (List.mem_singleton_self b))
  · rw [hq, hqueue]
    exact swap_perm z ha
  · rw [hq] at hb
    obtain ⟨j, hj⟩ := List.mem_iff_getElem?.mp hb
    rcases (standsAt_set hk).mp ⟨b, hj, hbv⟩ with ⟨-, hzv⟩ | ⟨hjk, hj'⟩
    · exact hzero hzv ⟨a, ha, hv⟩
    · exact hjk (h.unique (hinq hj') (hinq ⟨a, ha, hv⟩))

/-- The index without the two ends of a pair. -/
lemma Queued.index_without (h : Queued n) (ha : n.queue[k]? = some a) {u : ℕ} (htouch : ∀ w, Touches a w ↔ v = w ∨ u = w)
    (w i : ℕ) : ((n.actOf.set u none).set v none).get w = some i ↔ ∃ j, i = 2 * j ∧ j ≠ k ∧ StandsAt n.queue j w := by
  by_cases hw : Touches a w
  · have hnone : ((n.actOf.set u none).set v none).get w = none := by
      rcases (htouch w).mp hw with rfl | rfl
      · exact Table.get_set_self _ _ _
      · rw [Table.get_set, Table.get_set_self, ite_self]
    rw [hnone]
    refine ⟨fun hi => absurd hi.symm (Option.some_ne_none i), ?_⟩
    rintro ⟨j, -, hjk, hj⟩
    exact absurd (h.unique hj ⟨a, ha, hw⟩) hjk
  · obtain ⟨hv, hu⟩ := not_or.mp ((htouch w).not.mp hw)
    rw [Table.get_set, Table.get_set, if_neg hv, if_neg hu, h.index]
    refine exists_congr fun j => and_congr_right fun _ => ⟨fun hj => ⟨?_, hj⟩, And.right⟩
    rintro rfl
    obtain ⟨b, hb, hbw⟩ := hj
    rw [ha] at hb
    exact hw (Option.some.inj hb ▸ hbw)

/-- The ends of the pair at `i` are `v` and the end that is not `v`. -/
lemma touches_ends {act : Table Port ⟨0, 0⟩} {i : ℕ} (hv : Touches (act.get i, act.get (i + 1)) v) (w : ℕ) :
    Touches (act.get i, act.get (i + 1)) w ↔
      v = w ∨ (act.get (if (act.get i).node = v then i + 1 else i)).node = w := by
  by_cases h1 : (act.get i).node = v
  · rw [if_pos h1, Touches, h1]
  · have h2 : (act.get (i + 1)).node = v := hv.resolve_left h1
    rw [if_neg h1, Touches, h2, or_comm]

lemma pairsOf_set {act : Table Port ⟨0, 0⟩} {c : ℕ} (hk : k < c) (x y : Port) :
    pairsOf ((act.set (2 * k) x).set (2 * k + 1) y) c = (pairsOf act c).set k (x, y) := by
  have hlen : (pairsOf act c).length = c := by simp [pairsOf]
  refine List.ext_getElem? fun j => ?_
  rw [List.getElem?_set, hlen]
  by_cases hjk : k = j
  · subst hjk
    rw [if_pos rfl, if_pos hk]
    exact pairsOf_getElem?.mpr ⟨hk, by simp⟩
  · rw [if_neg hjk]
    by_cases hjc : j < c
    · have h1 : ¬ 2 * k + 1 = 2 * j := by omega
      have h2 : ¬ 2 * k + 1 = 2 * j + 1 := by omega
      have h3 : ¬ 2 * k = 2 * j + 1 := by omega
      have h4 : ¬ 2 * k = 2 * j := by omega
      rw [pairsOf_getElem?.mpr ⟨hjc, rfl⟩, pairsOf_getElem?.mpr ⟨hjc, rfl⟩]
      simp only [Table.get_set, h1, h2, h3, h4, if_false]
    · rw [List.getElem?_eq_none (by simpa [pairsOf] using hjc), List.getElem?_eq_none (by simpa [pairsOf] using hjc)]

lemma Queued.actDrop (h : Queued n) {g : Globals} (hg : g.inParallel = false) (ha : n.queue[k]? = some a)
    (hv : Touches a v) : Dropped n a v (actDrop g n v) := by
  have hof : n.actOf.get v = some (2 * k) := (h.index v _).mpr ⟨k, rfl, a, ha, hv⟩
  obtain ⟨c, hc⟩ : ∃ c, n.queue.length = c + 1 :=
    Nat.exists_eq_succ_of_ne_zero (Nat.ne_of_gt (Nat.zero_lt_of_lt (List.getElem?_eq_some_iff.mp ha).1))
  have htop : n.atop = 2 * (c + 1) := hc ▸ h.even
  have hkc : k < c + 1 := hc ▸ (List.getElem?_eq_some_iff.mp ha).1
  have hlast : n.atop - 2 = 2 * c := by omega
  have hhalf : 2 * c / 2 = c := Nat.mul_div_cancel_left c two_pos
  set z := (n.act.get (2 * c), n.act.get (2 * c + 1)) with hz
  have hqueue : n.queue = pairsOf n.act c ++ [z] := by
    rw [Net.queue, htop, Nat.mul_div_cancel_left _ two_pos, pairsOf_succ]
  have hinit : (pairsOf n.act c).length = c := by simp [pairsOf]
  obtain rfl : a = (n.act.get (2 * k), n.act.get (2 * k + 1)) := (pairsOf_getElem?.mp ha).2
  have hwithout := h.index_without ha (touches_ends hv)
  unfold LinEngine.actDrop
  rw [hof, hlast]
  simp only [hg, Bool.false_eq_true, if_false]
  generalize (if (n.act.get (2 * k)).node = v then 2 * k + 1 else 2 * k) = p at hwithout ⊢
  split_ifs with hk
  · obtain rfl : k = c := by omega
    exact h.dropLast hqueue (by rw [Net.queue, hhalf]) (by rw [hinit]) hv (by rwa [hinit])
  · have hkc' : k < c := by omega
    have hset : pairsOf ((n.act.set (2 * k) z.1).set (2 * k + 1) z.2) c = (pairsOf n.act c).set k (z.1, z.2) :=
      pairsOf_set hkc' z.1 z.2
    refine h.swapLast hqueue (pairsOf_getElem?.mpr ⟨hkc', rfl⟩) (by rw [Net.queue, hhalf]; exact hset) (by rw [hinit]) hv
      fun w i => ?_
    have hcells : ((n.act.set (2 * k) (n.act.get (2 * c))).set (2 * k + 1) (n.act.get (2 * c + 1))).get (2 * k) = z.1 ∧
        ((n.act.set (2 * k) (n.act.get (2 * c))).set (2 * k + 1) (n.act.get (2 * c + 1))).get (2 * k + 1) = z.2 := by
      simp [hz]
    rw [hcells.1, hcells.2]
    by_cases hw : Touches z w
    · have hread : ∀ t : Table (Option ℕ) none, ((t.set z.2.node (some (2 * k))).set z.1.node (some (2 * k))).get w =
          some (2 * k) := by
        intro t
        rcases hw with rfl | rfl
        · exact Table.get_set_self _ _ _
        · rw [Table.get_set, Table.get_set_self, ite_self]
      rw [hread, Option.some_inj]
      simp [hw, eq_comm]
    · have hne : z.1.node ≠ w ∧ z.2.node ≠ w := not_or.mp hw
      rw [Table.get_set, Table.get_set, if_neg hne.1, if_neg hne.2, hwithout]
      simp [hw]

end Drop

/-! ## What keeps the queue -/

lemma netAlloc_queued {n : Net} (h : Queued n) (g : Globals) (t : Tag) (sc : ℕ) : Queued (netAlloc g n t sc).2 := by
  unfold netAlloc
  split <;> exact h.congr rfl rfl rfl

/-- The two ends of a link are two ports, so they are principal ports of two nodes when they are queued. -/
lemma netLink_queued {n : Net} (h : Queued n) (g : Globals) {a b : Port} (hab : a ≠ b) (enqueue : Bool) :
    Queued (netLink g n (some a) (some b) enqueue) := by
  have hwired : Queued ((n.setWire a (some b)).setWire b (some a)) := h.congr rfl rfl rfl
  unfold netLink
  dsimp only
  split_ifs with hprincipal hpar
  · exact hwired.congr rfl rfl rfl
  · rw [Bool.and_eq_true, Bool.and_eq_true, beq_iff_eq, beq_iff_eq] at hprincipal
    refine (hwired.actPush fun hnode => hab ?_).1
    obtain ⟨u, i⟩ := a
    obtain ⟨v, j⟩ := b
    obtain rfl : u = v := hnode
    obtain rfl : i = j := hprincipal.1.2.trans hprincipal.2.symm
    rfl
  · exact hwired

lemma Queued.eq_of_touches {n : Net} (h : Queued n) {a b : Port × Port} (ha : a ∈ n.queue) (hb : b ∈ n.queue) {v : ℕ}
    (hav : Touches a v) (hbv : Touches b v) : a = b := by
  obtain ⟨j, hj⟩ := List.mem_iff_getElem?.mp ha
  obtain ⟨k, hk⟩ := List.mem_iff_getElem?.mp hb
  obtain rfl := h.unique ⟨a, hj, hav⟩ ⟨b, hk, hbv⟩
  rw [hj] at hk
  exact Option.some.inj hk

/-- A collection drops the pairs of dead nodes and makes the index anew. -/
lemma netGc_queued {n : Net} (h : Queued n) : Queued (netGc n) := by
  by_cases hnn : 1 < n.nn
  · have hgc := netGc_collected hnn
    have hnodup : (netGc n).queue.Nodup := hgc.queue ▸ h.nodup.filter _
    have hsub : ∀ {a}, a ∈ (netGc n).queue → a ∈ n.queue := fun ha => List.mem_of_mem_filter (hgc.queue ▸ ha)
    refine ⟨?_, fun v i => ?_, fun a ha => h.apart a (hsub ha)⟩
    · obtain ⟨d, -, hlen, hpairs, -⟩ := compact_spec n (n.atop / 2)
      have htop : (netGc n).atop = 2 * d := by
        rw [(netGc_swept hnn).frame]
        exact hlen
      rw [Net.queue, htop, Nat.mul_div_cancel_left d two_pos]
      simp [pairsOf]
    · rw [hgc.actOf]
      constructor
      · rintro ⟨k, a, rfl, ha, hv, -⟩
        exact ⟨k, rfl, a, ha, hv⟩
      · rintro ⟨k, rfl, a, ha, hv⟩
        refine ⟨k, a, rfl, ha, hv, fun j b hkj hb => not_or.mp fun hbv => ?_⟩
        have hab := h.eq_of_touches (hsub (List.mem_of_getElem? ha)) (hsub (List.mem_of_getElem? hb)) hv hbv
        obtain ⟨hk, hk'⟩ := List.getElem?_eq_some_iff.mp ha
        obtain ⟨hj, hj'⟩ := List.getElem?_eq_some_iff.mp hb
        have := (@List.Nodup.getElem_inj_iff _ _ hnodup k hk j hj).mp (by rw [hk', hj', hab])
        omega
  · rwa [netGc, if_pos (Nat.le_of_not_lt hnn)]

end LinEngine
