import Mathlib

/-!
# Lists kept in order of a key

A new element goes behind all that have no larger key, so equal keys stay in the order of
their arrival. The list is then determined by the keys and by the list of arrivals.
-/
namespace LinEngine.StableOrder

variable {α κ : Type*} [LinearOrder κ] {key : α → κ} {log l : List α} {a b d : α}

/-- From the back, elements of a larger key make room for `d`. -/
def insertBack (key : α → κ) (d : α) (l : List α) : List α :=
  l.rdropWhile (fun e => key d < key e) ++ d :: l.rtakeWhile fun e => key d < key e

/-- `a` comes before `b`: its key is less, or it arrived earlier. -/
def Before (key : α → κ) (log : List α) (a b : α) : Prop := key a < key b ∨ key a = key b ∧ [a, b].Sublist log

/-- The arrivals, each once, in the order of their keys and then of their arrival. -/
structure Arranged (key : α → κ) (log l : List α) : Prop where
  perm : l.Perm log
  nodup : log.Nodup
  sorted : l.Pairwise (Before key log)

lemma Before.key_le (h : Before key log a b) : key a ≤ key b := h.elim le_of_lt fun h => h.1.le

lemma Before.mono {log' : List α} (h : Before key log a b) (hlog : log.Sublist log') : Before key log' a b :=
  h.imp_right fun h => ⟨h.1, h.2.trans hlog⟩

namespace Arranged

lemma nil : Arranged key [] [] := ⟨.refl _, .nil, .nil⟩

/-- No element that stays in front of `d` has a larger key. -/
lemma key_le_of_mem_rdropWhile (h : l.Pairwise (Before key log)) (ha : a ∈ l.rdropWhile fun e => key d < key e) :
    key a ≤ key d := by
  have hne : l.rdropWhile (fun e => key d < key e) ≠ [] := List.ne_nil_of_mem ha
  have hlast := List.rdropWhile_last_not _ l hne
  have hsorted := h.sublist (List.rdropWhile_prefix (fun e => key d < key e) l).sublist
  rw [decide_eq_true_iff, not_lt] at hlast
  rw [← List.dropLast_append_getLast hne] at ha hsorted
  rcases List.mem_append.mp ha with hfront | heq
  · exact ((List.pairwise_append.mp hsorted).2.2 a hfront _ (List.mem_singleton_self _)).key_le.trans hlast
  · exact List.mem_singleton.mp heq ▸ hlast

lemma insertBack (h : Arranged key log l) (hd : d ∉ log) : Arranged key (log ++ [d]) (StableOrder.insertBack key d l) := by
  have hsplit : l.rdropWhile (fun e => key d < key e) ++ l.rtakeWhile (fun e => key d < key e) = l :=
    List.rdropWhile_append_rtakeWhile
  have hlog : log.Sublist (log ++ [d]) := List.sublist_append_left log [d]
  refine ⟨?_, h.nodup.append (List.nodup_singleton d) (by simpa using hd), ?_⟩
  · have hfront : (StableOrder.insertBack key d l).Perm (d :: l) := by
      have hmiddle : (l.rdropWhile (fun e => key d < key e) ++ d :: l.rtakeWhile fun e => key d < key e).Perm
          (d :: (l.rdropWhile (fun e => key d < key e) ++ l.rtakeWhile fun e => key d < key e)) := List.perm_middle
      rwa [hsplit] at hmiddle
    exact (hfront.trans (h.perm.cons d)).trans (List.perm_append_singleton d log).symm
  · have hold := h.sorted
    rw [← hsplit] at hold
    obtain ⟨hfront, hback, hcross⟩ := List.pairwise_append.mp hold
    refine List.pairwise_append.mpr ⟨hfront.imp fun h => h.mono hlog, List.pairwise_cons.mpr ⟨fun b hb => ?_, ?_⟩, ?_⟩
    · have hlt := List.mem_rtakeWhile_imp (p := fun e => decide (key d < key e)) hb
      exact Or.inl (of_decide_eq_true hlt)
    · exact hback.imp fun h => h.mono hlog
    · intro a ha b hb
      rcases List.mem_cons.mp hb with rfl | hb
      · have hmem : a ∈ log := h.perm.subset ((List.rdropWhile_prefix _ l).subset ha)
        have hsub : [a, b].Sublist (log ++ [b]) := (List.singleton_sublist.mpr hmem).append (List.Sublist.refl [b])
        exact (key_le_of_mem_rdropWhile h.sorted ha).lt_or_eq.imp_right fun heq => ⟨heq, hsub⟩
      · exact (hcross a ha b hb).mono hlog

lemma filter (h : Arranged key log l) (p : α → Bool) : Arranged key (log.filter p) (l.filter p) := by
  refine ⟨h.perm.filter p, h.nodup.filter p, ?_⟩
  refine (List.pairwise_filter.mpr ?_)
  refine h.sorted.imp fun hab hpa hpb => hab.imp_right fun hab => ⟨hab.1, ?_⟩
  have hsub := hab.2.filter p
  rwa [List.filter_cons_of_pos hpa, List.filter_cons_of_pos hpb, List.filter_nil] at hsub

end Arranged

end LinEngine.StableOrder
