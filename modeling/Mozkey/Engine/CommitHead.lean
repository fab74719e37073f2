import Mozkey.Base.SubString
import Mozkey.Composer.Composer

/-! `CommitHead` of `engine/engine_converter.cc`: the first characters of what is composed are
committed, and the session deletes as many from the composer. -/

namespace Mozkey.Engine

open Base Storage
open Session (Composer ComposerOps)

structure CommitHeadResult where
  key : Bytes
  value : Bytes
  cursorOffset : Int
  consumedKeySize : Nat
  deriving DecidableEq

variable {K : Type} (ops : ComposerOps K) (isBracketPairText : Bytes → Bool)

def commitHead (count : Nat) (composer : Composer K) : CommitHeadResult :=
  let preedit := utf8 (composer.getStringForSubmission ops)
  let consumedKeySize := if count > preedit.length then preedit.length else count
  let composition := utf8SubString preedit 0 consumedKeySize
  { key := composition
    value := composition
    cursorOffset := if isBracketPairText composition then -1 else 0
    consumedKeySize }

/-- What is promised of `CommitHead`: as many characters as there are, at most `count`, and
`consumed_key_size` counts them. -/
def CommitsHead (count : Nat) (composer : Composer K) : Prop :=
  let text := composer.getStringForSubmission ops
  let result := commitHead ops isBracketPairText count composer
  result.consumedKeySize = min count text.length ∧ charsLen result.value = result.consumedKeySize ∧
    result.value = utf8 (text.take result.consumedKeySize)

/-- The text that is committed is right for every count. -/
theorem commitHead_value (count : Nat) (composer : Composer K) :
    (commitHead ops isBracketPairText count composer).value =
      utf8 ((composer.getStringForSubmission ops).take count) := by
  have hle := length_le_length_utf8 (composer.getStringForSubmission ops)
  dsimp only [commitHead]
  rw [utf8SubString_utf8, List.drop_zero]
  split
  · rw [List.take_of_length_le hle, List.take_of_length_le]
    omega
  · rfl

/-- The size is one of bytes, so that it is right where the text has that many characters, or where
all of them are of one byte. -/
theorem commitsHead_iff (count : Nat) (composer : Composer K) :
    CommitsHead ops isBracketPairText count composer ↔
      count ≤ (composer.getStringForSubmission ops).length ∨
        (utf8 (composer.getStringForSubmission ops)).length =
          (composer.getStringForSubmission ops).length := by
  have hle := length_le_length_utf8 (composer.getStringForSubmission ops)
  have hsize : (commitHead ops isBracketPairText count composer).consumedKeySize =
      min count (utf8 (composer.getStringForSubmission ops)).length := by
    dsimp only [commitHead]
    split <;> omega
  dsimp only [CommitsHead]
  rw [commitHead_value, charsLen_utf8, List.length_take, hsize]
  constructor
  · rintro ⟨hmin, -, -⟩
    omega
  · intro h
    refine ⟨by omega, by omega, ?_⟩
    congr 1
    rw [List.take_eq_take_iff]
    omega

/-- A composition that is the text itself. -/
def textOps : ComposerOps (List Char) where
  getLength := List.length
  getQueryForConversion := id
  getString := id
  getRawString := id
  isToggleable := fun _ _ => false
  erase := fun _ => []
  deleteAt := fun text pos => (text.eraseIdx pos, pos)
  setTransliterator := fun text _ _ _ => text
  getTransliterator := fun _ _ => .hiragana
  shouldCommit := fun _ => false
  fullWidthAsciiToHalfWidthAscii := id
  insertCharacterKeyEvent := fun _ c => c
  insertCharacterPreedit := fun _ c => c
  rewind := id
  stopKeyToggling := id
  insertHandwriting := fun _ c => c
  updateInputModeFromSurroundingText := false

/-- One hiragana letter has three bytes, and three characters are said to be consumed. -/
theorem not_commitsHead_hiragana : ¬ ∀ (count : Nat) (composer : Composer (List Char)),
    CommitsHead textOps (fun _ => false) count composer := by
  intro h
  have hconsumed := (h 3 { chunks := ['あ'] }).1
  exact absurd hconsumed (by decide)

end Mozkey.Engine
