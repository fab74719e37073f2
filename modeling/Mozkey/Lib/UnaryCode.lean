import Mozkey.Lib.RankSelect

/-! Numbers in a bit vector, each as a zero with as many ones behind it.  A zero that is selected
begins a number, and the ones before it count the sum of the numbers before. -/

namespace Mozkey.Lib

def unary (counts : List Nat) : List Bool :=
  counts.flatMap fun k => false :: List.replicate k true

variable {counts : List Nat} {i k : Nat}

@[simp] theorem unary_nil : unary [] = [] := rfl

theorem unary_cons (k : Nat) (counts : List Nat) :
    unary (k :: counts) = false :: (List.replicate k true ++ unary counts) := rfl

theorem unary_append (counts counts' : List Nat) :
    unary (counts ++ counts') = unary counts ++ unary counts' :=
  List.flatMap_append

@[simp] theorem length_unary (counts : List Nat) :
    (unary counts).length = counts.length + counts.sum := by
  induction counts with
  | nil => rfl
  | cons k counts ih =>
    rw [unary_cons, List.length_cons, List.length_append, List.length_replicate, ih,
      List.length_cons, List.sum_cons]
    omega

@[simp] theorem count_true_unary (counts : List Nat) : (unary counts).count true = counts.sum := by
  induction counts with
  | nil => rfl
  | cons k counts ih => simp [unary_cons, List.count_append, ih]

@[simp] theorem count_false_unary (counts : List Nat) :
    (unary counts).count false = counts.length := by
  induction counts with
  | nil => rfl
  | cons k counts ih => simp [unary_cons, List.count_append, List.count_replicate, ih]

theorem drop_unary (h : counts[i]? = some k) (rest : List Bool) :
    ∃ rest', (unary counts ++ false :: rest).drop (i + (counts.take i).sum) =
      false :: (List.replicate k true ++ false :: rest') := by
  obtain ⟨hlt, rfl⟩ := List.getElem?_eq_some_iff.mp h
  have hsplit : unary counts = unary (counts.take i) ++ unary (counts.drop i) := by
    rw [← unary_append, List.take_append_drop]
  have hlength : (unary (counts.take i)).length = i + (counts.take i).sum := by
    rw [length_unary, List.length_take, Nat.min_eq_left hlt.le]
  rw [hsplit, List.append_assoc, List.drop_left' hlength, List.drop_eq_getElem_cons hlt, unary_cons]
  cases counts.drop (i + 1) with
  | nil => exact ⟨rest, by simp⟩
  | cons k' counts' =>
    exact ⟨List.replicate k' true ++ (unary counts' ++ false :: rest), by simp [unary_cons]⟩

theorem selectsAt_unary (h : counts[i]? = some k) (rest : List Bool) :
    SelectsAt false (unary counts ++ false :: rest) (i + 1) (i + (counts.take i).sum) := by
  obtain ⟨rest', hdrop⟩ := drop_unary h rest
  have hlt := (List.getElem?_eq_some_iff.mp h).1
  refine ⟨?_, ?_⟩
  · rw [← List.head?_drop, hdrop]
    rfl
  · have hlength : i + (counts.take i).sum = (unary (counts.take i)).length := by
      rw [length_unary, List.length_take, Nat.min_eq_left hlt.le]
    rw [← List.take_append_drop i counts, unary_append, List.take_append_drop, List.append_assoc,
      hlength, rank_append_left _ _ le_rfl, rank_length, count_false_unary, List.length_take,
      Nat.min_eq_left hlt.le]

theorem rank_unary (h : i ≤ counts.length) (rest : List Bool) :
    rank true (unary counts ++ rest) (i + (counts.take i).sum) = (counts.take i).sum := by
  have hlength : i + (counts.take i).sum = (unary (counts.take i)).length := by
    rw [length_unary, List.length_take, Nat.min_eq_left h]
  rw [← List.take_append_drop i counts, unary_append, List.take_append_drop, List.append_assoc,
    hlength, rank_append_left _ _ le_rfl, rank_length, count_true_unary]

end Mozkey.Lib
