import Mozkey.Base.Util

/-! `SplitFirstChar32` and `LowerString` on arbitrary bytes: only a bounded beginning decides. -/

namespace Mozkey.Base

open Storage

theorem splitFirstChar32_append_of_len {b : UInt8} {bs : Bytes}
    (hlen : ∀ r, leadingByte b = some r → r.1 ≤ (b :: bs).length) (x : Bytes) :
    splitFirstChar32 (b :: bs ++ x) = (splitFirstChar32 (b :: bs)).map fun r => (r.1, r.2 ++ x) := by
  rw [List.cons_append, splitFirstChar32, splitFirstChar32]
  by_cases hascii : b < 0x80
  · rw [if_pos hascii, if_pos hascii]
    rfl
  rw [if_neg hascii, if_neg hascii]
  by_cases htrailing : isUtf8TrailingByte b
  · rw [if_pos htrailing, if_pos htrailing]
    rfl
  rw [if_neg htrailing, if_neg htrailing]
  cases hleading : leadingByte b with
  | none => rfl
  | some r =>
    obtain ⟨len, minValue, maxValue, result⟩ := r
    have hshort := hlen _ hleading
    obtain ⟨hpos, -⟩ := leadingByte_len hleading
    have hlong : ¬ (b :: (bs ++ x)).length < len := by
      simp only [List.length_cons, List.length_append] at hshort ⊢
      omega
    have htake : (bs ++ x).take (len - 1) = bs.take (len - 1) := by
      apply List.take_append_of_le_length
      rw [List.length_cons] at hshort
      omega
    have hdrop : (b :: (bs ++ x)).drop len = (b :: bs).drop len ++ x := by
      rw [← List.cons_append]
      exact List.drop_append_of_le_length hshort
    simp only [Option.bind_eq_bind, Option.bind_some, if_neg hlong, if_neg (Nat.not_lt.mpr hshort),
      htake, hdrop]
    cases addTrailingBytes result (bs.take (len - 1)) with
    | none => rfl
    | some value =>
      simp only [Option.bind_some]
      split <;> rfl

theorem splitFirstChar32_append {s : Bytes} (h : maxCharLen ≤ s.length) (x : Bytes) :
    splitFirstChar32 (s ++ x) = (splitFirstChar32 s).map fun r => (r.1, r.2 ++ x) := by
  cases s with
  | nil => exact absurd h (by decide)
  | cons b bs =>
    apply splitFirstChar32_append_of_len
    rintro ⟨len, minValue, maxValue, result⟩ hleading
    exact Nat.le_trans (leadingByte_len hleading).2 h

theorem splitFirstChar32_some {s rest : Bytes} {c : Nat} (h : splitFirstChar32 s = some (c, rest)) :
    ∃ head, s = head ++ rest ∧ 0 < head.length ∧ head.length ≤ maxCharLen ∧
      ∀ x, splitFirstChar32 (head ++ x) = some (c, x) := by
  cases s with
  | nil => cases h
  | cons b bs =>
    rcases splitFirstChar32_cases h with ⟨hascii, rfl, rfl⟩ |
      ⟨len, minValue, maxValue, result, hleading, hshort, hrest, hmin, hmax, hascii, htrailing, hvalue⟩
    · refine ⟨[b], rfl, Nat.one_pos, ?_, fun x => ?_⟩
      · rw [maxCharLen, List.length_singleton]
        omega
      · rw [List.singleton_append, splitFirstChar32, if_pos hascii]
    obtain ⟨hpos, hlong⟩ := leadingByte_len hleading
    have hhead : (b :: bs).take len = b :: bs.take (len - 1) := by
      obtain ⟨n, rfl⟩ : ∃ n, len = n + 1 := ⟨len - 1, by omega⟩
      rfl
    have hlength : ((b :: bs).take len).length = len := by
      rw [List.length_take]
      omega
    refine ⟨(b :: bs).take len, ?_, by omega, by omega, fun x => ?_⟩
    · rw [hrest, List.take_append_drop]
    · rw [hhead, List.length_cons] at hlength
      rw [hhead]
      exact splitFirstChar32_cons hascii htrailing hleading hlength hvalue hmin hmax

theorem splitFirstChar32_len {s rest : Bytes} {c : Nat} (h : splitFirstChar32 s = some (c, rest)) :
    (c < 0x80 → s.length = rest.length + 1) ∧
      (0x800 ≤ c → c < 0x10000 → s.length = rest.length + 3) := by
  cases s with
  | nil => cases h
  | cons b bs =>
    rcases splitFirstChar32_cases h with
      ⟨hascii, rfl, rfl⟩ | ⟨len, minValue, maxValue, result, hleading, hshort, rfl, hmin, hmax, -⟩
    · rw [UInt8.lt_iff_toNat_lt] at hascii
      refine ⟨fun _ => rfl, fun hlow => ?_⟩
      exact absurd (Nat.le_trans hlow (Nat.le_of_lt hascii)) (by decide)
    · rw [List.length_drop]
      rw [leadingByte] at hleading
      repeat' split at hleading
      all_goals cases hleading
      all_goals omega

theorem length_codepointToUtf8_upper {s rest : Bytes} {c : Nat}
    (h : splitFirstChar32 s = some (c, rest)) (hupper : isUpper c = true) :
    (codepointToUtf8 (c + 0x20)).length = s.length - rest.length := by
  obtain ⟨hone, hthree⟩ := splitFirstChar32_len h
  rw [isUpper, Bool.or_eq_true, Bool.and_eq_true, Bool.and_eq_true, decide_eq_true_eq,
    decide_eq_true_eq, decide_eq_true_eq, decide_eq_true_eq] at hupper
  have hvalid : (c + 0x20).isValidChar := by
    rcases hupper with hhalf | hfull
    · left
      omega
    · right
      omega
  rw [codepointToUtf8, length_utf8EncodeChar, Char.toNat_ofNat, if_pos hvalid]
  split_ifs <;> omega

theorem lowerStringLoop_fuel {s : Bytes} {fuel fuel' : Nat} (h : s.length ≤ fuel)
    (h' : s.length ≤ fuel') : lowerStringLoop fuel s = lowerStringLoop fuel' s := by
  induction fuel generalizing s fuel' with
  | zero =>
    obtain rfl := List.length_eq_zero_iff.mp (Nat.le_zero.mp h)
    rw [lowerStringLoop_nil, lowerStringLoop_nil]
  | succ fuel ih =>
    cases fuel' with
    | zero =>
      obtain rfl := List.length_eq_zero_iff.mp (Nat.le_zero.mp h')
      rw [lowerStringLoop_nil, lowerStringLoop_nil]
    | succ fuel' =>
      rw [lowerStringLoop, lowerStringLoop]
      cases hsplit : splitFirstChar32 s with
      | none =>
        have hdrop : (s.drop 1).length ≤ fuel ∧ (s.drop 1).length ≤ fuel' := by
          rw [List.length_drop]
          omega
        simp only [ih hdrop.1 hdrop.2]
      | some r =>
        have hlt := length_lt_of_splitFirstChar32 hsplit
        have hrest : r.2.length ≤ fuel ∧ r.2.length ≤ fuel' := by omega
        simp only [ih hrest.1 hrest.2]

theorem lowerString_nil : lowerString [] = [] := rfl

/-- What `LowerString` puts for the first character. -/
def lowerHead (c : Nat) (head : Bytes) : Bytes :=
  if isUpper c then codepointToUtf8 (c + 0x20) else head

theorem lowerString_some {head rest : Bytes} {c : Nat}
    (h : splitFirstChar32 (head ++ rest) = some (c, rest)) :
    lowerString (head ++ rest) = lowerHead c head ++ lowerString rest := by
  have hlt := length_lt_of_splitFirstChar32 h
  have hhead : (head ++ rest).take ((head ++ rest).length - rest.length) = head := by
    rw [List.length_append, Nat.add_sub_cancel, List.take_left]
  obtain ⟨n, hn⟩ : ∃ n, (head ++ rest).length = n + 1 := ⟨(head ++ rest).length - 1, by omega⟩
  rw [lowerString, hn, lowerStringLoop, h, lowerString, lowerHead]
  simp only [hhead, lowerStringLoop_fuel (show rest.length ≤ n by omega) (Nat.le_refl _)]

theorem lowerString_none {b : UInt8} {bs : Bytes} (h : splitFirstChar32 (b :: bs) = none) :
    lowerString (b :: bs) = b :: lowerString bs := by
  rw [lowerString, List.length_cons, lowerStringLoop, h]
  rfl

theorem length_lowerHead {head rest : Bytes} {c : Nat}
    (h : splitFirstChar32 (head ++ rest) = some (c, rest)) :
    (lowerHead c head).length = head.length := by
  rw [lowerHead]
  split
  · rename_i hupper
    rw [length_codepointToUtf8_upper h hupper, List.length_append, Nat.add_sub_cancel]
  · rfl

theorem bytesInduction {P : Bytes → Prop} (nil : P [])
    (char : ∀ head c rest, head.length ≤ maxCharLen →
      (∀ x, splitFirstChar32 (head ++ x) = some (c, x)) → P rest → P (head ++ rest))
    (byte : ∀ b bs, splitFirstChar32 (b :: bs) = none → P bs → P (b :: bs)) (s : Bytes) : P s := by
  induction hn : s.length using Nat.strong_induction_on generalizing s with
  | _ n ih =>
    subst hn
    cases hsplit : splitFirstChar32 s with
    | some r =>
      obtain ⟨head, hs, -, hmax, hhead⟩ := splitFirstChar32_some hsplit
      rw [hs]
      exact char head r.1 r.2 hmax hhead (ih _ (length_lt_of_splitFirstChar32 hsplit) _ rfl)
    | none =>
      cases s with
      | nil => exact nil
      | cons b bs => exact byte b bs hsplit (ih _ (Nat.lt_succ_self _) bs rfl)

theorem length_lowerString (s : Bytes) : (lowerString s).length = s.length := by
  induction s using bytesInduction with
  | nil => rfl
  | char head c rest _ hhead ih =>
    rw [lowerString_some (hhead rest), List.length_append, length_lowerHead (hhead rest), ih,
      List.length_append]
  | byte b bs hsplit ih => rw [lowerString_none hsplit, List.length_cons, List.length_cons, ih]

theorem take_lowerString_append (s x : Bytes) :
    (lowerString (s ++ x)).take (s.length + 1 - maxCharLen) =
      (lowerString s).take (s.length + 1 - maxCharLen) := by
  induction s using bytesInduction with
  | nil => rfl
  | char head c rest _ hhead ih =>
    rw [List.append_assoc, lowerString_some (hhead (rest ++ x)), lowerString_some (hhead rest),
      List.take_append, List.take_append, length_lowerHead (hhead rest)]
    have hrest : (head ++ rest).length + 1 - maxCharLen - head.length =
        rest.length + 1 - maxCharLen := by
      rw [List.length_append]
      omega
    rw [hrest, ih]
  | byte b bs hsplit ih =>
    by_cases hlong : maxCharLen ≤ (b :: bs).length
    · have happend := splitFirstChar32_append hlong x
      rw [hsplit, Option.map_none, List.cons_append] at happend
      rw [List.cons_append, lowerString_none happend, lowerString_none hsplit]
      have hrest : (b :: bs).length + 1 - maxCharLen = (bs.length + 1 - maxCharLen) + 1 := by
        rw [List.length_cons] at hlong ⊢
        omega
      rw [hrest, List.take_succ_cons, List.take_succ_cons, ih]
    · rw [show (b :: bs).length + 1 - maxCharLen = 0 by omega]
      rfl

end Mozkey.Base
