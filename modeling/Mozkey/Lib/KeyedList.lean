import Mathlib

/-! Lists whose entries are found by a key. -/

namespace Mozkey.Lib

variable {α κ : Type*} {f : α → κ} {k : κ} {a : α} {xs as bs : List α}

theorem forall_ne_of_nodup (hk : f a = k) (h : ((as ++ a :: bs).map f).Nodup) :
    ∀ x ∈ as ++ bs, f x ≠ k := by
  rintro x hx rfl
  rw [List.map_append, List.map_cons, List.nodup_middle, List.nodup_cons, ← List.map_append] at h
  exact h.1 (hk ▸ List.mem_map_of_mem hx)

variable [DecidableEq κ]

theorem find?_of_forall_ne (h : ∀ x ∈ xs, f x ≠ k) : xs.find? (fun x => f x = k) = none :=
  List.find?_eq_none.mpr fun x hx => by simpa using h x hx

theorem filter_of_forall_ne (h : ∀ x ∈ xs, f x ≠ k) : xs.filter (fun x => f x ≠ k) = xs :=
  List.filter_eq_self.mpr fun x hx => decide_eq_true (h x hx)

theorem find?_split (hk : f a = k) (h : ∀ x ∈ as, f x ≠ k) :
    (as ++ a :: bs).find? (fun x => f x = k) = some a := by
  rw [List.find?_append, find?_of_forall_ne h, Option.none_or]
  exact List.find?_cons_of_pos (decide_eq_true hk)

theorem filter_split (hk : f a = k) (h : ∀ x ∈ as ++ bs, f x ≠ k) :
    (as ++ a :: bs).filter (fun x => f x ≠ k) = as ++ bs := by
  rw [List.filter_append, List.filter_cons_of_neg (by simpa using hk),
    filter_of_forall_ne fun x hx => h x (List.mem_append_left _ hx),
    filter_of_forall_ne fun x hx => h x (List.mem_append_right _ hx)]

theorem find?_cons_key : (a :: xs).find? (fun x => f x = k) =
    if f a = k then some a else xs.find? fun x => f x = k := by
  rw [List.find?_cons]
  by_cases h : f a = k
  · rw [if_pos h, decide_eq_true h]
  · rw [if_neg h, decide_eq_false h]

theorem find?_eq_some_iff_mem (h : (xs.map f).Nodup) :
    xs.find? (fun x => f x = k) = some a ↔ a ∈ xs ∧ f a = k := by
  constructor
  · intro hfind
    have hk := @List.find?_some _ (fun x => decide (f x = k)) _ _ hfind
    exact ⟨List.mem_of_find?_eq_some hfind, of_decide_eq_true hk⟩
  · rintro ⟨ha, hk⟩
    obtain ⟨as, bs, rfl⟩ := List.append_of_mem ha
    exact find?_split hk fun x hx => forall_ne_of_nodup hk h x (List.mem_append_left _ hx)

theorem find?_filter_of_nodup (h : (xs.map f).Nodup) (p : α → Bool) :
    (xs.filter p).find? (fun x => f x = k) = (xs.find? fun x => f x = k).filter p := by
  refine Option.ext fun a => ?_
  rw [find?_eq_some_iff_mem (h.sublist (List.filter_sublist.map f)), List.mem_filter,
    Option.filter_eq_some_iff, find?_eq_some_iff_mem h]
  exact and_right_comm

theorem find?_filter_ne (xs : List α) (k' : κ) :
    (xs.filter fun x => f x ≠ k').find? (fun x => f x = k) =
      if k = k' then none else xs.find? fun x => f x = k := by
  induction xs with
  | nil => split <;> rfl
  | cons x xs ih =>
    rw [List.filter_cons]
    split
    · rename_i hx
      have hx' : f x ≠ k' := of_decide_eq_true hx
      rw [find?_cons_key, find?_cons_key, ih]
      by_cases hk : k = k'
      · rw [if_pos hk, if_pos hk, if_neg (hk ▸ hx')]
      · rw [if_neg hk, if_neg hk]
    · rename_i hx
      have hx' : f x = k' := not_not.mp (mt decide_eq_true hx)
      rw [ih, find?_cons_key, hx']
      by_cases hk : k = k'
      · rw [if_pos hk, if_pos hk]
      · rw [if_neg hk, if_neg hk, if_neg (Ne.symm hk)]

theorem find?_map_replace {k' : κ} (hk : f a = k') (xs : List α) :
    (xs.map fun x => if f x = k' then a else x).find? (fun x => f x = k) =
      if k = k' then (xs.find? fun x => f x = k').map fun _ => a
      else xs.find? fun x => f x = k := by
  induction xs with
  | nil => split <;> rfl
  | cons x xs ih =>
    rw [List.map_cons, find?_cons_key, find?_cons_key, find?_cons_key, ih]
    by_cases hx : f x = k'
    · rw [if_pos hx, if_pos hx, hk, hx]
      by_cases hkk : k = k'
      · rw [if_pos hkk.symm, if_pos hkk]
        rfl
      · rw [if_neg (Ne.symm hkk), if_neg hkk, if_neg hkk, if_neg (Ne.symm hkk)]
    · rw [if_neg hx, if_neg hx]
      by_cases hkk : k = k'
      · rw [if_pos hkk, if_pos hkk, if_neg (hkk ▸ hx)]
      · rw [if_neg hkk, if_neg hkk]

theorem find?_congr_perm {ys : List α} (h : (xs.map f).Nodup) (hperm : ys.Perm xs) :
    ys.find? (fun x => f x = k) = xs.find? fun x => f x = k := by
  refine Option.ext fun a => ?_
  rw [find?_eq_some_iff_mem h, find?_eq_some_iff_mem ((hperm.map f).nodup_iff.mpr h),
    hperm.mem_iff]

theorem find?_concat (h : ((xs ++ [a]).map f).Nodup) :
    xs.find? (fun x => f x = k) =
      if f a = k then none else (xs ++ [a]).find? fun x => f x = k := by
  by_cases hk : f a = k
  · rw [if_pos hk]
    refine find?_of_forall_ne fun x hx => ?_
    refine forall_ne_of_nodup hk h x ?_
    rwa [List.append_nil]
  · rw [if_neg hk, List.find?_append, find?_cons_key, if_neg hk, List.find?_nil, Option.or_none]

end Mozkey.Lib
