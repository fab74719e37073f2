import Mathlib

/-! Rank and select over lists of bits. -/

namespace Mozkey.Lib

/-- How many of the bits before position `n` are `b`. -/
def rank (b : Bool) (bits : List Bool) (n : Nat) : Nat := (bits.take n).count b

/-- The `k`-th bit `b`, counted from one, is at position `i`. -/
structure SelectsAt (b : Bool) (bits : List Bool) (k i : Nat) : Prop where
  getElem : bits[i]? = some b
  rank : rank b bits i + 1 = k

variable {b : Bool} {bits : List Bool} {i j k m n : Nat}

@[simp] theorem rank_zero (b : Bool) (bits : List Bool) : rank b bits 0 = 0 := by simp [rank]

theorem rank_length (b : Bool) (bits : List Bool) : rank b bits bits.length = bits.count b := by
  rw [rank, List.take_length]

theorem rank_of_length_le (h : bits.length ≤ n) : rank b bits n = bits.count b := by
  rw [rank, List.take_of_length_le h]

theorem rank_add (b : Bool) (bits : List Bool) (m n : Nat) :
    rank b bits (m + n) = rank b bits m + rank b (bits.drop m) n := by
  rw [rank, rank, rank, List.take_add, List.count_append]

theorem rank_mono (b : Bool) (bits : List Bool) (h : m ≤ n) : rank b bits m ≤ rank b bits n := by
  obtain ⟨d, rfl⟩ := Nat.exists_eq_add_of_le h
  rw [rank_add]
  omega

theorem rank_succ {x : Bool} (h : bits[i]? = some x) :
    rank b bits (i + 1) = rank b bits i + if x = b then 1 else 0 := by
  rw [rank, rank, List.take_add_one, h, Option.toList_some, List.count_append, List.count_singleton]
  simp

theorem rank_append_left (xs ys : List Bool) (h : n ≤ xs.length) :
    rank b (xs ++ ys) n = rank b xs n := by
  rw [rank, rank, List.take_append_of_le_length h]

theorem rank_append_right (xs ys : List Bool) (n : Nat) :
    rank b (xs ++ ys) (xs.length + n) = xs.count b + rank b ys n := by
  rw [rank_add, rank_append_left _ _ (le_refl _), rank_length, List.drop_left]

theorem rank_true_add_rank_false (h : n ≤ bits.length) :
    rank true bits n + rank false bits n = n := by
  have := List.length_eq_countP_add_countP (fun x : Bool => x == true) (l := bits.take n)
  rw [List.length_take, Nat.min_eq_left h] at this
  rw [rank, rank, List.count, List.count]
  simpa using this.symm

theorem count_true_add_count_false (bits : List Bool) :
    bits.count true + bits.count false = bits.length := by
  have := rank_true_add_rank_false (le_refl bits.length)
  rwa [rank_length, rank_length] at this

namespace SelectsAt

theorem lt_length (h : SelectsAt b bits k i) : i < bits.length :=
  (List.getElem?_eq_some_iff.mp h.getElem).1

theorem pos (h : SelectsAt b bits k i) : 0 < k := by
  have := h.rank
  omega

theorem rank_succ (h : SelectsAt b bits k i) : Lib.rank b bits (i + 1) = k := by
  rw [Lib.rank_succ h.getElem, if_pos rfl, h.rank]

theorem rank_lt_iff (h : SelectsAt b bits k i) : Lib.rank b bits n < k ↔ n ≤ i := by
  constructor
  · intro hn
    by_contra hlt
    have := rank_mono b bits (show i + 1 ≤ n by omega)
    rw [h.rank_succ] at this
    omega
  · intro hn
    have := rank_mono b bits hn
    have := h.rank
    omega

theorem unique (h : SelectsAt b bits k i) (h' : SelectsAt b bits k j) : i = j := by
  have hi := h.rank_lt_iff (n := j)
  have hj := h'.rank_lt_iff (n := i)
  have := h.rank
  have := h'.rank
  omega

theorem append_right (h : SelectsAt b bits k i) (ys : List Bool) : SelectsAt b (bits ++ ys) k i := by
  refine ⟨?_, ?_⟩
  · rw [List.getElem?_append_left h.lt_length, h.getElem]
  · rw [rank_append_left _ _ h.lt_length.le, h.rank]

theorem append_left (xs : List Bool) (h : SelectsAt b bits k i) :
    SelectsAt b (xs ++ bits) (xs.count b + k) (xs.length + i) := by
  refine ⟨?_, ?_⟩
  · rw [List.getElem?_append_right (by omega), Nat.add_sub_cancel_left, h.getElem]
  · rw [rank_append_right, ← h.rank, Nat.add_assoc]

theorem drop (h : SelectsAt b bits k i) (hm : m ≤ i) :
    SelectsAt b (bits.drop m) (k - Lib.rank b bits m) (i - m) := by
  refine ⟨?_, ?_⟩
  · rw [List.getElem?_drop, Nat.add_sub_cancel' hm, h.getElem]
  · have hadd := rank_add b bits m (i - m)
    rw [Nat.add_sub_cancel' hm] at hadd
    have := h.rank
    omega

end SelectsAt

theorem rank_map_beq (b : Bool) (bits : List Bool) (n : Nat) :
    rank true (bits.map (· == b)) n = rank b bits n := by
  rw [rank, ← List.map_take, rank, List.count, List.countP_map, List.count]
  refine List.countP_congr fun x _ => ?_
  simp

theorem selectsAt_map_beq (h : SelectsAt b bits k i) : SelectsAt true (bits.map (· == b)) k i := by
  refine ⟨?_, ?_⟩
  · rw [List.getElem?_map, h.getElem]
    simp
  · rw [rank_map_beq, h.rank]

theorem exists_selectsAt (hpos : 0 < k) (hk : k ≤ bits.count b) : ∃ i, SelectsAt b bits k i := by
  induction bits generalizing k with
  | nil => simp at hk; omega
  | cons x bits ih =>
    by_cases hx : x = b
    · subst hx
      rcases Nat.lt_or_ge 1 k with h | h
      · obtain ⟨i, hi⟩ := ih (k := k - 1) (by omega) (by rw [List.count_cons_self] at hk; omega)
        have := hi.append_left [x]
        rw [List.count_singleton_self, Nat.add_sub_cancel' (by omega)] at this
        exact ⟨_, this⟩
      · obtain rfl : k = 1 := by omega
        exact ⟨0, by simp, by simp⟩
    · obtain ⟨i, hi⟩ := ih hpos (by rwa [List.count_cons_of_ne hx] at hk)
      have := hi.append_left [x]
      rw [List.count_singleton, if_neg (by simpa using hx), Nat.zero_add] at this
      exact ⟨_, this⟩

end Mozkey.Lib
