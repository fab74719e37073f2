import Mathlib

/-! Insertion sort leaves the order of the entries that a predicate picks to their own sort. -/

namespace Mozkey.Lib

variable {α : Type*} {r : α → α → Prop} [DecidableRel r] (p : α → Bool)

theorem orderedInsert_of_forall {a : α} {xs : List α} (h : ∀ x ∈ xs, r a x) :
    xs.orderedInsert r a = a :: xs := by
  cases xs with
  | nil => rfl
  | cons x xs => exact List.orderedInsert_cons_of_le r xs (h x List.mem_cons_self)

variable [IsTrans α r]

theorem filter_orderedInsert {a : α} {xs : List α} (h : xs.Pairwise r) :
    (xs.orderedInsert r a).filter p =
      if p a then (xs.filter p).orderedInsert r a else xs.filter p := by
  induction xs with
  | nil =>
    rw [List.orderedInsert_nil, List.filter_cons]
    rfl
  | cons x xs ih =>
    obtain ⟨hx, hxs⟩ := List.pairwise_cons.mp h
    by_cases ha : r a x
    · have hall : ∀ y ∈ x :: xs, r a y := by
        rintro y (_ | ⟨_, hy⟩)
        · exact ha
        · exact IsTrans.trans _ _ _ ha (hx y hy)
      rw [orderedInsert_of_forall hall, List.filter_cons,
        orderedInsert_of_forall fun y hy => hall y (List.mem_of_mem_filter hy)]
    · rw [List.orderedInsert, if_neg ha, List.filter_cons, List.filter_cons, ih hxs]
      by_cases hpx : p x <;> by_cases hpa : p a <;> simp [hpx, hpa, ha]

variable [Std.Total r]

theorem filter_insertionSort (xs : List α) :
    (xs.insertionSort r).filter p = (xs.filter p).insertionSort r := by
  induction xs with
  | nil => rfl
  | cons x xs ih =>
    rw [List.insertionSort_cons, filter_orderedInsert p (List.pairwise_insertionSort r xs), ih,
      List.filter_cons]
    split
    · rw [List.insertionSort_cons]
    · rfl

end Mozkey.Lib
