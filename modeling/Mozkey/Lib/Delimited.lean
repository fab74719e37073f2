import Mathlib

/-! Fields and lines: what is read between the occurrences of a delimiter. -/

namespace Mozkey.Lib.Delimited

variable {α : Type*} {d : α} {cur xs ys : List α}

def WholeLines (d : α) (s : List α) : Prop := s = [] ∨ ∃ s', s = s' ++ [d]

theorem WholeLines.append_line (xs line : List α) : WholeLines d (xs ++ (line ++ [d])) :=
  Or.inr ⟨xs ++ line, (List.append_assoc _ _ _).symm⟩

variable [DecidableEq α]

/-- The fields of a text, of which `cur` has been read; the last one ends with the text. -/
def splitFrom (d : α) (cur : List α) : List α → List (List α)
  | [] => [cur]
  | c :: s => if c = d then cur :: splitFrom d [] s else splitFrom d (cur ++ [c]) s

/-- The lines of a text; nothing follows the delimiter of the last one. -/
def linesFrom (d : α) (cur : List α) : List α → List (List α)
  | [] => if cur = [] then [] else [cur]
  | c :: s => if c = d then cur :: linesFrom d [] s else linesFrom d (cur ++ [c]) s

/-- What has been read behind the last delimiter of a text, where `cur` has been read before it. -/
def unfinishedFrom (d : α) (cur : List α) : List α → List α
  | [] => cur
  | c :: s => if c = d then unfinishedFrom d [] s else unfinishedFrom d (cur ++ [c]) s

theorem splitFrom_of_notMem (h : d ∉ xs) : splitFrom d cur xs = [cur ++ xs] := by
  induction xs generalizing cur with
  | nil => rw [splitFrom, List.append_nil]
  | cons x xs ih =>
    obtain ⟨hx, hxs⟩ := not_or.mp (mt List.mem_cons.mpr h)
    rw [splitFrom, if_neg (Ne.symm hx), ih hxs, List.append_assoc, List.singleton_append]

theorem splitFrom_append (h : d ∉ xs) :
    splitFrom d cur (xs ++ d :: ys) = (cur ++ xs) :: splitFrom d [] ys := by
  induction xs generalizing cur with
  | nil => rw [List.nil_append, splitFrom, if_pos rfl, List.append_nil]
  | cons x xs ih =>
    obtain ⟨hx, hxs⟩ := not_or.mp (mt List.mem_cons.mpr h)
    rw [List.cons_append, splitFrom, if_neg (Ne.symm hx), ih hxs, List.append_assoc,
      List.singleton_append]

theorem linesFrom_of_notMem (h : d ∉ xs) :
    linesFrom d cur xs = if cur ++ xs = [] then [] else [cur ++ xs] := by
  induction xs generalizing cur with
  | nil => rw [linesFrom, List.append_nil]
  | cons x xs ih =>
    obtain ⟨hx, hxs⟩ := not_or.mp (mt List.mem_cons.mpr h)
    rw [linesFrom, if_neg (Ne.symm hx), ih hxs, List.append_assoc, List.singleton_append]

theorem linesFrom_append (h : d ∉ xs) :
    linesFrom d cur (xs ++ d :: ys) = (cur ++ xs) :: linesFrom d [] ys := by
  induction xs generalizing cur with
  | nil => rw [List.nil_append, linesFrom, if_pos rfl, List.append_nil]
  | cons x xs ih =>
    obtain ⟨hx, hxs⟩ := not_or.mp (mt List.mem_cons.mpr h)
    rw [List.cons_append, linesFrom, if_neg (Ne.symm hx), ih hxs, List.append_assoc,
      List.singleton_append]

theorem linesFrom_flatMap {β : Type*} {line : β → List α} {bs : List β}
    (h : ∀ b ∈ bs, d ∉ line b) :
    linesFrom d [] (bs.flatMap fun b => line b ++ [d]) = bs.map line := by
  induction bs with
  | nil => rfl
  | cons b bs ih =>
    rw [List.flatMap_cons, List.append_assoc, List.singleton_append,
      linesFrom_append (h b List.mem_cons_self), ih fun b hb => h b (List.mem_cons_of_mem _ hb)]
    rfl

theorem linesFrom_concat_append (xs ys cur : List α) :
    linesFrom d cur (xs ++ d :: ys) = linesFrom d cur (xs ++ [d]) ++ linesFrom d [] ys := by
  induction xs generalizing cur with
  | nil =>
    rw [List.nil_append, List.nil_append, linesFrom, if_pos rfl, linesFrom, if_pos rfl, linesFrom,
      if_pos rfl, List.singleton_append]
  | cons x xs ih =>
    rw [List.cons_append, List.cons_append, linesFrom, linesFrom]
    split
    · rw [ih, List.cons_append]
    · exact ih _

theorem WholeLines.lines_append (h : WholeLines d xs) :
    linesFrom d [] (xs ++ ys) = linesFrom d [] xs ++ linesFrom d [] ys := by
  rcases h with rfl | ⟨xs, rfl⟩
  · rfl
  · rw [List.append_assoc, List.singleton_append, linesFrom_concat_append]

theorem unfinishedFrom_concat (xs cur : List α) : unfinishedFrom d cur (xs ++ [d]) = [] := by
  induction xs generalizing cur with
  | nil => rw [List.nil_append, unfinishedFrom, if_pos rfl, unfinishedFrom]
  | cons x xs ih =>
    rw [List.cons_append, unfinishedFrom]
    split
    · exact ih _
    · exact ih _

theorem WholeLines.unfinished (h : WholeLines d xs) : unfinishedFrom d [] xs = [] := by
  rcases h with rfl | ⟨xs, rfl⟩
  · rfl
  · exact unfinishedFrom_concat xs []

theorem unfinishedFrom_spec (hcur : d ∉ cur) (xs : List α) :
    ∃ whole, WholeLines d whole ∧ cur ++ xs = whole ++ unfinishedFrom d cur xs ∧
      d ∉ unfinishedFrom d cur xs := by
  induction xs generalizing cur with
  | nil => exact ⟨[], Or.inl rfl, List.append_nil cur, hcur⟩
  | cons c xs ih =>
    rw [unfinishedFrom]
    split
    · rename_i hc
      obtain ⟨whole, hwhole, heq, hnot⟩ := @ih [] List.not_mem_nil
      refine ⟨cur ++ [d] ++ whole, ?_, ?_, hnot⟩
      · rcases hwhole with rfl | ⟨rest, rfl⟩
        · exact Or.inr ⟨cur, List.append_nil _⟩
        · exact Or.inr ⟨cur ++ [d] ++ rest, (List.append_assoc _ _ _).symm⟩
      · rw [List.append_assoc, ← heq, hc]
        simp
    · rename_i hc
      obtain ⟨whole, hwhole, heq, hnot⟩ := @ih (cur ++ [c]) (by
        rw [List.mem_append, List.mem_singleton]
        exact not_or.mpr ⟨hcur, Ne.symm hc⟩)
      refine ⟨whole, hwhole, ?_, hnot⟩
      rw [← heq, List.append_assoc, List.singleton_append]

end Mozkey.Lib.Delimited
