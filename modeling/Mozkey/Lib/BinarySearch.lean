import Mathlib

/-! Bisection: where a predicate over positions changes from true to false, and the range of equal
elements between two such places. -/

namespace Mozkey.Lib

/-- The first position from `first` on, of `count`, that a test does not hold at; nothing where a test
has no result. -/
def partitionPoint (test : Nat → Option Bool) (first count : Nat) : Option Nat :=
  if count = 0 then some first
  else do
    let holds ← test (first + count / 2)
    if holds then partitionPoint test (first + count / 2 + 1) (count - count / 2 - 1)
    else partitionPoint test first (count / 2)
termination_by count
decreasing_by all_goals omega

/-- The positions of the elements that are neither less nor greater. -/
def equalRange (less greater : Nat → Option Bool) (count : Nat) : Option (Nat × Nat) := do
  let lower ← partitionPoint less 0 count
  let upper ← partitionPoint (fun i => (greater i).map not) 0 count
  some (lower, upper)

variable {α : Type*}

theorem partitionPoint_eq {test : Nat → Option Bool} {first count k : Nat} (hle : first ≤ k)
    (hk : k ≤ first + count) (htrue : ∀ i, first ≤ i → i < k → test i = some true)
    (hfalse : ∀ i, k ≤ i → i < first + count → test i = some false) :
    partitionPoint test first count = some k := by
  induction count using Nat.strong_induction_on generalizing first with
  | _ count ih =>
    rw [partitionPoint]
    split
    · exact congrArg some (by omega)
    · rename_i hcount
      by_cases hlt : first + count / 2 < k
      · rw [htrue _ (by omega) hlt]
        exact ih _ (by omega) (by omega) (by omega) (fun i hi => htrue i (by omega))
          fun i hi hi' => hfalse i hi (by omega)
      · rw [hfalse _ (by omega) (by omega)]
        exact ih _ (by omega) hle (by omega) htrue fun i hi hi' => hfalse i hi (by omega)

theorem filter_append_filter_not {p : α → Bool} {xs : List α} (h : xs.Pairwise fun a b => p b → p a) :
    xs.filter p ++ xs.filter (fun x => !p x) = xs := by
  induction h with
  | nil => rfl
  | @cons a xs hall _ ih =>
    by_cases hp : p a
    · rw [List.filter_cons_of_pos hp, List.filter_cons_of_neg (by simp [hp]), List.cons_append, ih]
    · have hno : ∀ x ∈ xs, ¬ p x := fun x hx hpx => hp (hall x hx hpx)
      rw [List.filter_cons_of_neg hp, List.filter_cons_of_pos (by simp [hp]),
        List.filter_eq_nil_iff.mpr hno, List.filter_eq_self.mpr fun x hx => by simp [hno x hx]]
      rfl

theorem test_of_countP {p : α → Bool} {xs : List α} (h : xs.Pairwise fun a b => p b → p a) {i : Nat}
    {x : α} (hx : xs[i]? = some x) : p x = decide (i < xs.countP p) := by
  have hsplit := filter_append_filter_not h
  rw [← hsplit] at hx
  rw [List.countP_eq_length_filter]
  by_cases hlt : i < (xs.filter p).length
  · rw [List.getElem?_append_left hlt] at hx
    rw [(List.mem_filter.mp (List.mem_of_getElem? hx)).2, decide_eq_true hlt]
  · rw [List.getElem?_append_right (Nat.le_of_not_lt hlt)] at hx
    rw [decide_eq_false hlt]
    simpa using (List.mem_filter.mp (List.mem_of_getElem? hx)).2

theorem partitionPoint_countP {p : α → Bool} {xs : List α} (h : xs.Pairwise fun a b => p b → p a)
    {test : Nat → Option Bool} (htest : ∀ i x, xs[i]? = some x → test i = some (p x)) :
    partitionPoint test 0 xs.length = some (xs.countP p) := by
  have hat : ∀ i < xs.length, test i = some (decide (i < xs.countP p)) := by
    intro i hi
    have hx : xs[i]? = some xs[i] := List.getElem?_eq_getElem hi
    rw [htest i _ hx, test_of_countP h hx]
  have hcount := List.countP_le_length (p := p) (l := xs)
  refine partitionPoint_eq (Nat.zero_le _) (by omega) (fun i _ hi => ?_) fun i hi hi' => ?_
  · rw [hat i (by omega), decide_eq_true hi]
  · rw [hat i (by omega), decide_eq_false (Nat.not_lt.mpr hi)]

theorem take_drop_countP {p q : α → Bool} {xs : List α} (hp : xs.Pairwise fun a b => p b → p a)
    (hq : xs.Pairwise fun a b => q b → q a) (hpq : ∀ x, p x → q x) :
    (xs.drop (xs.countP p)).take (xs.countP q - xs.countP p) = xs.filter fun x => q x && !p x := by
  have hdrop : xs.drop (xs.countP p) = xs.filter fun x => !p x := by
    have hleft := @List.drop_left α (xs.filter p) (xs.filter fun x => !p x)
    rwa [filter_append_filter_not hp, ← List.countP_eq_length_filter] at hleft
  have hcount : xs.countP q - xs.countP p = (xs.filter fun x => q x && !p x).length := by
    have hfilter : (xs.filter q).filter p = xs.filter p := by
      rw [List.filter_filter]
      refine List.filter_congr fun x _ => ?_
      rw [Bool.and_eq_left_iff_imp.mpr (hpq x)]
    have hsum := @List.length_eq_length_filter_add α (xs.filter q) p
    rw [hfilter, List.filter_filter] at hsum
    rw [List.countP_eq_length_filter, List.countP_eq_length_filter, hsum, Nat.add_sub_cancel_left]
    congr 1
    exact List.filter_congr fun x _ => Bool.and_comm _ _
  have hfilter : (xs.filter fun x => !p x).filter q = xs.filter fun x => q x && !p x :=
    List.filter_filter
  have htake := @List.take_left α ((xs.filter fun x => !p x).filter q)
    ((xs.filter fun x => !p x).filter fun x => !q x)
  rwa [filter_append_filter_not (hq.filter fun x => !p x), hfilter, ← hcount, ← hdrop] at htake

end Mozkey.Lib
