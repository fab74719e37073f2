import Mathlib
import Mozkey.Lib.LevelOrder

/-! The tree of the prefixes of a set of words, given as a list in lexicographic order. -/

namespace Mozkey.Lib

universe u

variable {α : Type u} [DecidableEq α] {words : List (List α)} {p q w : List α}

def wordsBelow (words : List (List α)) (p : List α) : List (List α) :=
  words.filter fun w => p.isPrefixOf w

def nextSymbols (words : List (List α)) (p : List α) : List α :=
  ((wordsBelow words p).filterMap fun w => w[p.length]?).dedup

def extensions (words : List (List α)) (p : List α) : List (List α) :=
  (nextSymbols words p).map fun c => p ++ [c]

theorem mem_wordsBelow : w ∈ wordsBelow words p ↔ w ∈ words ∧ p <+: w := by
  rw [wordsBelow, List.mem_filter, List.isPrefixOf_iff_prefix]

omit [DecidableEq α] in
theorem concat_prefix_iff {c : α} : p ++ [c] <+: w ↔ p <+: w ∧ w[p.length]? = some c := by
  constructor
  · rintro ⟨t, rfl⟩
    refine ⟨⟨[c] ++ t, (List.append_assoc _ _ _).symm⟩, ?_⟩
    rw [List.append_assoc, List.getElem?_append_right (le_refl _), Nat.sub_self]
    rfl
  · rintro ⟨⟨t, rfl⟩, hc⟩
    rw [List.getElem?_append_right (le_refl _), Nat.sub_self] at hc
    cases t with
    | nil => cases hc
    | cons x t =>
      obtain rfl : x = c := Option.some.inj hc
      exact ⟨t, List.append_assoc _ _ _⟩

theorem mem_nextSymbols {c : α} :
    c ∈ nextSymbols words p ↔ ∃ w ∈ words, p ++ [c] <+: w := by
  rw [nextSymbols, List.mem_dedup, List.mem_filterMap]
  constructor
  · rintro ⟨w, hw, hc⟩
    obtain ⟨hmem, hp⟩ := mem_wordsBelow.mp hw
    exact ⟨w, hmem, concat_prefix_iff.mpr ⟨hp, hc⟩⟩
  · rintro ⟨w, hmem, hp⟩
    obtain ⟨hp, hc⟩ := concat_prefix_iff.mp hp
    exact ⟨w, mem_wordsBelow.mpr ⟨hmem, hp⟩, hc⟩

theorem mem_extensions :
    q ∈ extensions words p ↔ ∃ c, q = p ++ [c] ∧ ∃ w ∈ words, q <+: w := by
  rw [extensions, List.mem_map]
  constructor
  · rintro ⟨c, hc, rfl⟩
    exact ⟨c, rfl, mem_nextSymbols.mp hc⟩
  · rintro ⟨c, rfl, hw⟩
    exact ⟨c, mem_nextSymbols.mpr hw, rfl⟩

theorem length_of_mem_extensions (h : q ∈ extensions words p) : q.length = p.length + 1 := by
  obtain ⟨c, rfl, -⟩ := mem_extensions.mp h
  simp

theorem mem_level {d : Nat} : p ∈ level (extensions words) [] d ↔
    p.length = d ∧ (d = 0 ∨ ∃ w ∈ words, p <+: w) := by
  induction d generalizing p with
  | zero =>
    rw [level, List.mem_singleton]
    constructor
    · rintro rfl
      exact ⟨rfl, Or.inl rfl⟩
    · exact fun h => List.length_eq_zero_iff.mp h.1
  | succ d ih =>
    rw [level, List.mem_flatMap]
    constructor
    · rintro ⟨q, hq, hp⟩
      obtain ⟨c, rfl, hw⟩ := mem_extensions.mp hp
      rw [ih] at hq
      exact ⟨by simp [hq.1], Or.inr hw⟩
    · rintro ⟨hlength, hw⟩
      obtain ⟨w, hmem, hw⟩ := hw.resolve_left (Nat.succ_ne_zero d)
      rcases List.eq_nil_or_concat' p with rfl | ⟨q, c, rfl⟩
      · simp at hlength
      · refine ⟨q, ih.mpr ⟨by simpa using hlength, Or.inr ⟨w, hmem, ?_⟩⟩,
          mem_extensions.mpr ⟨c, rfl, w, hmem, hw⟩⟩
        exact (concat_prefix_iff.mp hw).1

theorem nodup_extensions (words : List (List α)) (p : List α) : (extensions words p).Nodup := by
  refine List.Nodup.map (fun c c' h => ?_) (List.nodup_dedup _)
  simpa using h

theorem nodup_level (d : Nat) : (level (extensions words) [] d).Nodup := by
  induction d with
  | zero => exact List.nodup_singleton _
  | succ d ih =>
    rw [level, List.nodup_flatMap]
    refine ⟨fun p _ => nodup_extensions words p, ?_⟩
    refine List.Pairwise.imp_of_mem ?_ ih
    intro p q hp hq hne r hrp hrq
    obtain ⟨c, rfl, -⟩ := mem_extensions.mp hrp
    obtain ⟨c', heq, -⟩ := mem_extensions.mp hrq
    exact hne (List.append_inj_left' heq rfl)

theorem mem_levels {d : Nat} : p ∈ levels (extensions words) [] d ↔
    p.length < d ∧ (p = [] ∨ ∃ w ∈ words, p <+: w) := by
  rw [levels, List.mem_flatMap]
  constructor
  · rintro ⟨k, hk, hp⟩
    obtain ⟨rfl, hw⟩ := mem_level.mp hp
    exact ⟨List.mem_range.mp hk, hw.imp_left List.length_eq_zero_iff.mp⟩
  · rintro ⟨hlt, hw⟩
    exact ⟨p.length, List.mem_range.mpr hlt,
      mem_level.mpr ⟨rfl, hw.imp_left List.length_eq_zero_iff.mpr⟩⟩

theorem nodup_levels (d : Nat) : (levels (extensions words) [] d).Nodup := by
  rw [levels, List.nodup_flatMap]
  refine ⟨fun k _ => nodup_level k, ?_⟩
  refine List.Pairwise.imp ?_ (List.nodup_range (n := d))
  intro k k' hne p hp hp'
  exact hne ((mem_level.mp hp).1.symm.trans (mem_level.mp hp').1)

theorem level_of_length_lt {d : Nat} (hpos : 0 < d) (h : ∀ w ∈ words, w.length < d) :
    level (extensions words) [] d = [] := by
  refine List.eq_nil_iff_forall_not_mem.mpr fun p hp => ?_
  obtain ⟨hlength, hw⟩ := mem_level.mp hp
  obtain ⟨w, hmem, hw⟩ := hw.resolve_left (by omega)
  have := hw.length_le
  have := h w hmem
  omega

theorem levels_of_length_lt {d d' : Nat} (hpos : 0 < d) (h : ∀ w ∈ words, w.length < d)
    (hle : d ≤ d') : levels (extensions words) [] d' = levels (extensions words) [] d := by
  induction d', hle using Nat.le_induction with
  | base => rfl
  | succ d' hle ih =>
    rw [levels_succ, ih, level_of_length_lt (by omega) (fun w hw => (h w hw).trans_le hle),
      List.append_nil]

section

variable [LT α] [LE α] [Std.IsLinearOrder α] [Std.LawfulOrderLT α]

omit [DecidableEq α] [Std.IsLinearOrder α] in
theorem append_lt_append_left_iff {x y : List α} : p ++ x < p ++ y ↔ x < y := by
  induction p with
  | nil => rfl
  | cons a p ih =>
    rw [List.cons_append, List.cons_append, List.cons_lt_cons_iff, ih]
    constructor
    · rintro (h | h)
      · exact absurd h (Std.Irrefl.irrefl a)
      · exact h.2
    · exact fun h => Or.inr ⟨rfl, h⟩

omit [Std.IsLinearOrder α] in
theorem pairwise_nextSymbols (hwords : words.Pairwise (· < ·)) (p : List α) :
    (nextSymbols words p).Pairwise (· < ·) := by
  have hle : (nextSymbols words p).Pairwise (fun a b => a < b ∨ a = b) := by
    refine List.Pairwise.sublist (List.dedup_sublist _) (List.pairwise_filterMap.mpr ?_)
    refine List.Pairwise.imp_of_mem ?_ (hwords.filter _)
    intro w w' hw hw' hlt c hc c' hc'
    obtain ⟨t, rfl⟩ := (concat_prefix_iff.mpr ⟨(mem_wordsBelow.mp hw).2, hc⟩)
    obtain ⟨t', rfl⟩ := (concat_prefix_iff.mpr ⟨(mem_wordsBelow.mp hw').2, hc'⟩)
    rw [List.append_assoc, List.append_assoc, append_lt_append_left_iff, List.singleton_append,
      List.singleton_append, List.cons_lt_cons_iff] at hlt
    exact hlt.imp_right And.left
  have hne : (nextSymbols words p).Pairwise (· ≠ ·) := List.nodup_dedup _
  exact (hle.and hne).imp fun h => h.1.resolve_right h.2

omit [DecidableEq α] [Std.IsLinearOrder α] in
theorem nodup_of_pairwise_lt (h : words.Pairwise (· < ·)) : words.Nodup := by
  refine List.Pairwise.imp ?_ h
  rintro a _ hlt rfl
  exact List.lt_irrefl a hlt

theorem wordsBelow_eq (hwords : words.Pairwise (· < ·)) (p : List α) :
    wordsBelow words p =
      (if p ∈ words then [p] else []) ++ (extensions words p).flatMap (wordsBelow words) := by
  have hright : ((if p ∈ words then [p] else []) ++
      (extensions words p).flatMap (wordsBelow words)).Pairwise (· < ·) := by
    refine List.pairwise_append.mpr ⟨?_, List.pairwise_flatMap.mpr ⟨fun q _ => hwords.filter _, ?_⟩,
      fun x hx y hy => ?_⟩
    · split
      · exact List.pairwise_singleton _ _
      · exact List.Pairwise.nil
    · refine List.pairwise_map.mpr ((pairwise_nextSymbols hwords p).imp ?_)
      intro c c' hlt x hx y hy
      obtain ⟨t, rfl⟩ := (mem_wordsBelow.mp hx).2
      obtain ⟨t', rfl⟩ := (mem_wordsBelow.mp hy).2
      rw [List.append_assoc, List.append_assoc, append_lt_append_left_iff, List.singleton_append,
        List.singleton_append, List.cons_lt_cons_iff]
      exact Or.inl hlt
    · obtain rfl : x = p := by
        split at hx
        · exact List.mem_singleton.mp hx
        · cases hx
      obtain ⟨q, hq, hy⟩ := List.mem_flatMap.mp hy
      obtain ⟨c, rfl, -⟩ := mem_extensions.mp hq
      obtain ⟨t, rfl⟩ := (mem_wordsBelow.mp hy).2
      rw [List.append_assoc]
      nth_rewrite 1 [← List.append_nil x]
      rw [append_lt_append_left_iff, List.singleton_append]
      exact List.nil_lt_cons c t
  refine List.Perm.eq_of_pairwise
    (fun a b _ _ h h' => absurd (List.lt_trans h h') (List.lt_irrefl a)) (hwords.filter _) hright
    ((List.perm_ext_iff_of_nodup (nodup_of_pairwise_lt (hwords.filter _))
      (nodup_of_pairwise_lt hright)).mpr fun w => ?_)
  have hsingle : w ∈ (if p ∈ words then [p] else []) ↔ p ∈ words ∧ w = p := by
    split
    · next h => simp [h]
    · next h => simp [h]
  rw [← wordsBelow, mem_wordsBelow, List.mem_append, hsingle, List.mem_flatMap]
  constructor
  · rintro ⟨hmem, t, rfl⟩
    cases t with
    | nil => exact Or.inl ⟨by simpa using hmem, by simp⟩
    | cons c t =>
      have hpre : p ++ [c] <+: p ++ c :: t := ⟨t, by simp⟩
      exact Or.inr ⟨p ++ [c], mem_extensions.mpr ⟨c, rfl, _, hmem, hpre⟩,
        mem_wordsBelow.mpr ⟨hmem, hpre⟩⟩
  · rintro (⟨hmem, rfl⟩ | ⟨q, hq, hw⟩)
    · exact ⟨hmem, List.prefix_refl w⟩
    · obtain ⟨c, rfl, -⟩ := mem_extensions.mp hq
      obtain ⟨hmem, hpre⟩ := mem_wordsBelow.mp hw
      exact ⟨hmem, (concat_prefix_iff.mp hpre).1⟩

theorem level_flatMap_wordsBelow (hwords : words.Pairwise (· < ·)) (d : Nat) :
    (level (extensions words) [] d).flatMap (wordsBelow words) =
      words.filter fun w => d ≤ w.length := by
  induction d with
  | zero =>
    rw [level, List.flatMap_singleton, wordsBelow]
    refine List.filter_congr fun w _ => ?_
    simp
  | succ d ih =>
    have hstep : words.filter (fun w => d + 1 ≤ w.length) =
        (words.filter fun w => d ≤ w.length).filter fun w => d + 1 ≤ w.length := by
      rw [List.filter_filter]
      refine List.filter_congr fun w _ => ?_
      by_cases h : d + 1 ≤ w.length
      · simp [h, Nat.le_of_succ_le h]
      · simp [h]
    rw [hstep, ← ih, level, List.flatMap_assoc, List.filter_flatMap]
    refine List.flatMap_congr fun p hp => ?_
    have hlength := (mem_level.mp hp).1
    have hown : (if p ∈ words then [p] else []).filter (fun w => d + 1 ≤ w.length) = [] := by
      split
      · simp [hlength]
      · rfl
    rw [wordsBelow_eq hwords p, List.filter_append, hown, List.nil_append, List.filter_eq_self.mpr]
    intro w hw
    obtain ⟨q, hq, hw⟩ := List.mem_flatMap.mp hw
    have := length_of_mem_extensions hq
    have := (mem_wordsBelow.mp hw).2.length_le
    rw [decide_eq_true_iff]
    omega

end

end Mozkey.Lib
