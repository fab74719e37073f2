import Mozkey.Base.ScriptType
import Mozkey.Base.SubString
import Mozkey.Base.Utf8Bytes

/-! What the loops over UTF-8 text do to a valid text with something behind it, and
`Util::IsScriptType`. -/

namespace Mozkey.Base

open Storage

theorem splitFirstChar32_some_append {s rest : Bytes} {c : Nat} (k : Bytes)
    (h : splitFirstChar32 s = some (c, rest)) :
    splitFirstChar32 (s ++ k) = some (c, rest ++ k) := by
  obtain ⟨head, rfl, -, -, hhead⟩ := splitFirstChar32_some h
  rw [List.append_assoc, hhead]

theorem isValidUtf8Loop_eq {fuel fuel' : Nat} {s : Bytes} (h : s.length ≤ fuel)
    (h' : s.length ≤ fuel') : isValidUtf8Loop fuel s = isValidUtf8Loop fuel' s := by
  induction fuel generalizing fuel' s with
  | zero =>
    rw [List.eq_nil_of_length_eq_zero (Nat.le_zero.mp h)]
    cases fuel' <;> rfl
  | succ fuel ih =>
    cases s with
    | nil => cases fuel' <;> rfl
    | cons b bs =>
      obtain ⟨fuel', rfl⟩ := Nat.exists_eq_succ_of_ne_zero (show fuel' ≠ 0 by
        rw [List.length_cons] at h'
        omega)
      rw [isValidUtf8Loop, isValidUtf8Loop]
      cases hsplit : splitFirstChar32 (b :: bs) with
      | none => rfl
      | some r =>
        obtain ⟨c, rest⟩ := r
        have hlt := length_lt_of_splitFirstChar32 hsplit
        exact ih (by omega) (by omega)

theorem isValidUtf8_of_split {s rest : Bytes} {c : Nat} (h : splitFirstChar32 s = some (c, rest)) :
    isValidUtf8 s = isValidUtf8 rest := by
  cases s with
  | nil => cases h
  | cons b bs =>
    have hlt := length_lt_of_splitFirstChar32 h
    rw [List.length_cons] at hlt
    rw [isValidUtf8, List.length_cons, isValidUtf8Loop, h, isValidUtf8]
    exact isValidUtf8Loop_eq (by omega) le_rfl

theorem isValidUtf8_induction {p : Bytes → Prop} (nil : p [])
    (char : ∀ s rest c, splitFirstChar32 s = some (c, rest) → p rest → p s) {s : Bytes}
    (h : isValidUtf8 s = true) : p s := by
  induction hn : s.length using Nat.strong_induction_on generalizing s with
  | _ n ih =>
    cases s with
    | nil => exact nil
    | cons b bs =>
      cases hsplit : splitFirstChar32 (b :: bs) with
      | none =>
        rw [isValidUtf8, List.length_cons, isValidUtf8Loop, hsplit] at h
        cases h
      | some r =>
        obtain ⟨c, rest⟩ := r
        rw [isValidUtf8_of_split hsplit] at h
        exact char _ rest c hsplit (ih rest.length (hn ▸ length_lt_of_splitFirstChar32 hsplit) h rfl)

theorem isValidUtf8_append {s : Bytes} (h : isValidUtf8 s = true) (k : Bytes) :
    isValidUtf8 (s ++ k) = isValidUtf8 k := by
  refine isValidUtf8_induction (p := fun s => isValidUtf8 (s ++ k) = isValidUtf8 k) rfl ?_ h
  intro s rest c hsplit ih
  rw [isValidUtf8_of_split (splitFirstChar32_some_append k hsplit), ih]

theorem utf8ToUtf32Loop_eq {fuel fuel' : Nat} {s : Bytes} (h : s.length ≤ fuel)
    (h' : s.length ≤ fuel') : utf8ToUtf32Loop fuel s = utf8ToUtf32Loop fuel' s := by
  induction fuel generalizing fuel' s with
  | zero =>
    rw [List.eq_nil_of_length_eq_zero (Nat.le_zero.mp h)]
    cases fuel' <;> rfl
  | succ fuel ih =>
    cases fuel' with
    | zero =>
      rw [List.eq_nil_of_length_eq_zero (Nat.le_zero.mp h')]
      rfl
    | succ fuel' =>
      rw [utf8ToUtf32Loop, utf8ToUtf32Loop]
      cases hsplit : splitFirstChar32 s with
      | none => rfl
      | some r =>
        obtain ⟨c, rest⟩ := r
        have hlt := length_lt_of_splitFirstChar32 hsplit
        exact congrArg (c :: ·) (ih (by omega) (by omega))

theorem utf8ToUtf32_of_split {s rest : Bytes} {c : Nat} (h : splitFirstChar32 s = some (c, rest)) :
    utf8ToUtf32 s = c :: utf8ToUtf32 rest := by
  have hlt := length_lt_of_splitFirstChar32 h
  rw [utf8ToUtf32, ← utf8ToUtf32Loop_eq (Nat.le_succ s.length) le_rfl, utf8ToUtf32Loop, h]
  exact congrArg (c :: ·) (utf8ToUtf32Loop_eq (by omega) le_rfl)

theorem utf8ToUtf32_append {s : Bytes} (h : isValidUtf8 s = true) (k : Bytes) :
    utf8ToUtf32 (s ++ k) = utf8ToUtf32 s ++ utf8ToUtf32 k := by
  refine isValidUtf8_induction (p := fun s => utf8ToUtf32 (s ++ k) = utf8ToUtf32 s ++ utf8ToUtf32 k)
    rfl ?_ h
  intro s rest c hsplit ih
  rw [utf8ToUtf32_of_split (splitFirstChar32_some_append k hsplit), ih, utf8ToUtf32_of_split hsplit,
    List.cons_append]

theorem charsLen_le_append (s k : Bytes) : charsLen s ≤ charsLen (s ++ k) := by
  induction hn : s.length using Nat.strong_induction_on generalizing s with
  | _ n ih =>
    cases s with
    | nil =>
      rw [charsLen_nil]
      exact Nat.zero_le _
    | cons b s =>
      have hpos := oneCharLen_pos b
      rw [List.length_cons] at hn
      rw [List.cons_append, charsLen_cons, charsLen_cons, Nat.add_le_add_iff_right,
        ← List.cons_append]
      by_cases hle : oneCharLen b ≤ (b :: s).length
      · rw [List.drop_append_of_le_length hle]
        refine ih _ ?_ _ rfl
        rw [List.length_drop, List.length_cons]
        omega
      · rw [List.drop_eq_nil_of_le (Nat.le_of_not_le hle), charsLen_nil]
        exact Nat.zero_le _

namespace Util

/-- `Util::IsScriptType`, where the prolonged sound mark is a hiragana as well. -/
def isScriptType (s : Bytes) (type : ScriptType) : Bool :=
  (utf8ToUtf32 s).all fun codepoint =>
    getScriptType codepoint = type || (codepoint == 0x30fc && type == .hiragana)

theorem isScriptType_append {s : Bytes} (h : isValidUtf8 s = true) (k : Bytes) (type : ScriptType) :
    isScriptType (s ++ k) type = (isScriptType s type && isScriptType k type) := by
  rw [isScriptType, utf8ToUtf32_append h, List.all_append]
  rfl

end Util

end Mozkey.Base
