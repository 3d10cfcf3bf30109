import Mathlib

/-!
# Ranks in a list

The rank of an element under a strict total order is how many elements of the list come before it.
The first `n` of a list that is in order are those whose rank is below `n`, so what is picked by
sorting can be told without it.

## Main definitions

* `Ranking.rank` — how many come before.

## Main results

* `Ranking.filter_rank_lt` — in order, those whose rank is below `n` are the first `n`.
* `Ranking.mem_take_mergeSort_iff` — the same after sorting.
* `Ranking.countP_rank_lt` — there are `n` of them, or all.
-/

namespace Ranking

variable {α : Type*} {before : α → α → Prop} [DecidableRel before] {l l' : List α} {a b : α}

/-- How many elements of a list come before `a`. -/
def rank (before : α → α → Prop) [DecidableRel before] (l : List α) (a : α) : Nat :=
  l.countP (before · a)

theorem rank_perm (h : l.Perm l') : rank before l a = rank before l' a := h.countP_eq _

theorem rank_cons : rank before (b :: l) a = rank before l a + if before b a then 1 else 0 := by
  simp [rank, List.countP_cons]

section StrictOrder

variable [IsStrictOrder α before]

theorem rank_lt_length (h : a ∈ l) : rank before l a < l.length := by
  rw [rank, List.countP_lt_length_iff]
  exact ⟨a, h, decide_eq_false (irrefl a)⟩

/-- Nothing comes before the head of a list that is in order. -/
theorem rank_head (h : (a :: l).Pairwise before) : rank before (a :: l) a = 0 := by
  rw [rank, List.countP_eq_zero]
  intro b hb hbefore
  rcases List.mem_cons.mp hb with rfl | hb
  · exact irrefl b (of_decide_eq_true hbefore)
  · exact asymm (of_decide_eq_true hbefore) (List.rel_of_pairwise_cons h hb)

omit [IsStrictOrder α before] in
theorem rank_tail (h : (a :: l).Pairwise before) (hb : b ∈ l) :
    rank before (a :: l) b = rank before l b + 1 := by
  rw [rank_cons, if_pos (List.rel_of_pairwise_cons h hb)]

/-- In order, those whose rank is below `n` are the first `n`. -/
theorem filter_rank_lt (h : l.Pairwise before) (n : Nat) :
    l.filter (rank before l · < n) = l.take n := by
  induction l generalizing n with
  | nil => simp
  | cons b l ih =>
    cases n with
    | zero => simp
    | succ n =>
      have htail : l.filter (rank before (b :: l) · < n + 1) = l.filter (rank before l · < n) :=
        List.filter_congr fun a ha => by simp only [rank_tail h ha, Nat.add_lt_add_iff_right]
      rw [List.filter_cons, if_pos (by simp [rank_head h]), htail, ih h.of_cons,
        List.take_succ_cons]

end StrictOrder

section Sorting

variable [IsStrictTotalOrder α before] {le : α → α → Bool}

omit [DecidableRel before] in
/-- Sorting a list without repetitions puts it in order. -/
theorem pairwise_mergeSort (hle : ∀ a b, le a b ↔ ¬ before b a) (hnodup : l.Nodup) :
    (l.mergeSort le).Pairwise before := by
  have htrans (a b c : α) (hab : le a b) (hbc : le b c) : le a c := by
    rw [hle] at hab hbc ⊢
    intro hca
    rcases trichotomous_of before a b with h | rfl | h
    · exact hbc (trans_of before hca h)
    · exact hbc hca
    · exact hab h
  have htotal (a b : α) : le a b || le b a := by
    rw [Bool.or_eq_true, hle, hle, ← not_and_or]
    exact fun ⟨hba, hab⟩ => asymm hba hab
  have hsorted := List.pairwise_mergeSort htrans htotal l
  have hdistinct : (l.mergeSort le).Nodup := (List.mergeSort_perm l le).nodup_iff.mpr hnodup
  refine hsorted.imp₂ (fun a b hab hne => ?_) hdistinct
  rcases trichotomous_of before a b with h | rfl | h
  · exact h
  · exact absurd rfl hne
  · exact absurd h ((hle a b).mp hab)

/-- After sorting, the first `n` are those whose rank is below `n`. -/
theorem mem_take_mergeSort_iff (hle : ∀ a b, le a b ↔ ¬ before b a) (hnodup : l.Nodup) (n : Nat) :
    a ∈ (l.mergeSort le).take n ↔ a ∈ l ∧ rank before l a < n := by
  have hperm := List.mergeSort_perm l le
  rw [← filter_rank_lt (pairwise_mergeSort hle hnodup), List.mem_filter, hperm.mem_iff,
    decide_eq_true_iff, rank_perm hperm]

/-- Ranks below `n` have `n` elements, or all if there are fewer. -/
theorem countP_rank_lt (hnodup : l.Nodup) (n : Nat) :
    l.countP (rank before l · < n) = min n l.length := by
  let le (a b : α) : Bool := ¬ before b a
  have hperm := List.mergeSort_perm l le
  have hsorted : (l.mergeSort le).Pairwise before :=
    pairwise_mergeSort (fun a b => decide_eq_true_iff) hnodup
  calc l.countP (rank before l · < n)
      = (l.mergeSort le).countP (rank before (l.mergeSort le) · < n) := by
        simp only [rank_perm hperm, hperm.countP_eq]
    _ = ((l.mergeSort le).take n).length := by
        rw [List.countP_eq_length_filter, filter_rank_lt hsorted]
    _ = min n l.length := by rw [List.length_take, hperm.length_eq]

end Sorting

end Ranking
