import Mozkey.Session.Protocol

/-! The composer of `composer/composer.cc`: the text that is being typed, the cursor and the input
modes. The composition itself, a sequence of chunks that a romaji table rewrites, is a parameter
with the operations of `composer/composition.cc` that the composer calls. -/

namespace Mozkey.Session

inductive TransliterationType where
  | hiragana | fullKatakana | halfAscii | halfAsciiUpper | halfAsciiLower | halfAsciiCapitalized
  | fullAscii | fullAsciiUpper | fullAsciiLower | fullAsciiCapitalized | halfKatakana
  deriving DecidableEq

namespace TransliterationType

def isInHalfAsciiTypes : TransliterationType → Bool
  | halfAscii | halfAsciiUpper | halfAsciiLower | halfAsciiCapitalized => true
  | _ => false

def isInHalfKatakanaTypes (type : TransliterationType) : Bool := type == halfKatakana

def toggleFullAsciiTypes : TransliterationType → TransliterationType
  | fullAscii => fullAsciiUpper
  | fullAsciiUpper => fullAsciiLower
  | fullAsciiLower => fullAsciiCapitalized
  | _ => fullAscii

def toggleHalfAsciiTypes : TransliterationType → TransliterationType
  | halfAscii => halfAsciiUpper
  | halfAsciiUpper => halfAsciiLower
  | halfAsciiLower => halfAsciiCapitalized
  | _ => halfAscii

/-- `ToCompositionMode`: the types that are no input mode count as hiragana. -/
def toCompositionMode : TransliterationType → CompositionMode
  | hiragana => .hiragana
  | fullKatakana => .fullKatakana
  | halfKatakana => .halfKatakana
  | fullAscii => .fullAscii
  | halfAscii => .halfAscii
  | _ => .hiragana

end TransliterationType

inductive Transliterator where
  | conversionString | rawString | hiragana | fullKatakana | halfKatakana | fullAscii | halfAscii
  deriving DecidableEq

def transliteratorOf : TransliterationType → Transliterator
  | .halfAscii | .halfAsciiUpper | .halfAsciiLower | .halfAsciiCapitalized => .halfAscii
  | .fullAscii | .fullAsciiUpper | .fullAsciiLower | .fullAsciiCapitalized => .fullAscii
  | .halfKatakana => .halfKatakana
  | .fullKatakana => .fullKatakana
  | .hiragana => .hiragana

def transliterationTypeOf (t12r : Transliterator) (default : TransliterationType) :
    TransliterationType :=
  match t12r with
  | .hiragana => .hiragana
  | .halfAscii => .halfAscii
  | .fullAscii => .fullAscii
  | .fullKatakana => .fullKatakana
  | .halfKatakana => .halfKatakana
  | _ => default

structure Composer (K : Type) where
  /-- The chunks of the composition. -/
  chunks : K
  /-- The transliterator that the composition gives to new chunks. -/
  inputT12r : Transliterator := .hiragana
  position : Nat := 0
  inputMode : TransliterationType := .hiragana
  outputMode : TransliterationType := .hiragana
  comebackInputMode : TransliterationType := .hiragana
  inputFieldType : InputFieldType := .normal
  shiftedSequenceCount : Nat := 0
  isNewInput : Bool := true
  sourceText : Text := []
  compositionsForHandwriting : List Text := []
  deriving DecidableEq

/-- What the composer needs of the composition, of the romaji table and of the text library, and
those of its own operations that go through the table. -/
structure ComposerOps (K : Type) where
  getLength : K → Nat
  /-- `GetQueryForConversion`. -/
  getQueryForConversion : K → Text
  /-- `GetString`, with `TransformCharactersForNumbers`. -/
  getString : K → Text
  getRawString : K → Text
  isToggleable : K → Nat → Bool
  erase : K → K
  deleteAt : K → Nat → K × Nat
  setTransliterator : K → Nat → Nat → Transliterator → K
  getTransliterator : K → Nat → Transliterator
  shouldCommit : K → Bool
  fullWidthAsciiToHalfWidthAscii : Text → Text
  insertCharacterKeyEvent : KeyEvent → Composer K → Composer K
  insertCharacterPreedit : Text → Composer K → Composer K
  rewind : Composer K → Composer K
  stopKeyToggling : Composer K → Composer K
  /-- The input of `SetCompositionsForHandwriting` into a composer that has been reset. -/
  insertHandwriting : List Text → Composer K → Composer K
  /-- `update_input_mode_from_surrounding_text` of the request. -/
  updateInputModeFromSurroundingText : Bool

namespace Composer

variable {K : Type} (ops : ComposerOps K)

def getLength (c : Composer K) : Nat := ops.getLength c.chunks

def getQueryForConversion (c : Composer K) : Text := ops.getQueryForConversion c.chunks

def getStringForPreedit (c : Composer K) : Text :=
  match c.inputFieldType with
  | .number | .password | .tel => ops.fullWidthAsciiToHalfWidthAscii (ops.getString c.chunks)
  | .normal => ops.getString c.chunks

def getStringForSubmission (c : Composer K) : Text := c.getStringForPreedit ops

def getRawString (c : Composer K) : Text := ops.getRawString c.chunks

def isEmpty (c : Composer K) : Bool := c.getLength ops == 0

def isToggleable (c : Composer K) : Bool := !c.isNewInput && ops.isToggleable c.chunks c.position

def setInputMode (mode : TransliterationType) (c : Composer K) : Composer K :=
  { c with
    comebackInputMode := mode
    inputMode := mode
    shiftedSequenceCount := 0
    isNewInput := true
    inputT12r := transliteratorOf mode }

def resetInputMode (c : Composer K) : Composer K := c.setInputMode c.comebackInputMode

def toggleInputMode (c : Composer K) : Composer K :=
  if c.inputMode = .hiragana then c.setInputMode .halfAscii else c.setInputMode .hiragana

def setNewInput (c : Composer K) : Composer K := { c with isNewInput := true }

def switchInputMode (mode : TransliterationType) (c : Composer K) : Composer K :=
  (if c.inputMode ≠ mode then c.setInputMode mode else c).setNewInput

/-- `ApplyCompositionMode` of the session: the mode `DIRECT` is an error there. -/
def applyCompositionMode (mode : CompositionMode) (c : Composer K) : Composer K :=
  match mode with
  | .hiragana => c.switchInputMode .hiragana
  | .fullKatakana => c.switchInputMode .fullKatakana
  | .halfKatakana => c.switchInputMode .halfKatakana
  | .fullAscii => c.switchInputMode .fullAscii
  | .halfAscii => c.switchInputMode .halfAscii
  | .direct => c

def setOutputMode (mode : TransliterationType) (c : Composer K) : Composer K :=
  let chunks := ops.setTransliterator c.chunks 0 (c.getLength ops)
    (transliteratorOf mode)
  { c with outputMode := mode, chunks := chunks, position := ops.getLength chunks }

def editErase (c : Composer K) : Composer K :=
  setInputMode c.comebackInputMode { c with chunks := ops.erase c.chunks, position := 0 }

def reset (c : Composer K) : Composer K :=
  { ((c.editErase ops).resetInputMode.setOutputMode ops .hiragana) with
    sourceText := [], compositionsForHandwriting := [] }

def updateInputMode (c : Composer K) : Composer K :=
  let current := ops.getTransliterator c.chunks c.position
  if c.position ≠ 0 ∧ ops.updateInputModeFromSurroundingText ∧
      (c.position = c.getLength ops ∨
        current = ops.getTransliterator c.chunks (c.position + 1)) then
    let mode := transliterationTypeOf current c.comebackInputMode
    { c with
      inputMode := mode
      shiftedSequenceCount := 0
      isNewInput := true
      inputT12r := transliteratorOf mode }
  else c.setInputMode c.comebackInputMode

def deleteAt (pos : Nat) (c : Composer K) : Composer K :=
  { c with
    chunks := (ops.deleteAt c.chunks pos).1
    position := if c.position > pos then c.position - 1 else c.position }

def deleteRange (pos : Nat) : (length : Nat) → Composer K → Composer K
  | 0, c => c
  | length + 1, c =>
    if pos < c.getLength ops then deleteRange pos length (c.deleteAt ops pos) else c

def delete (c : Composer K) : Composer K :=
  let (chunks, position) := ops.deleteAt c.chunks c.position
  updateInputMode ops { c with chunks, position }

def backspace (c : Composer K) : Composer K :=
  if c.position = 0 then c
  else
    let moved := updateInputMode ops { c with position := c.position - 1 }
    let (chunks, position) := ops.deleteAt moved.chunks moved.position
    { moved with chunks, position }

def moveCursorLeft (c : Composer K) : Composer K :=
  updateInputMode ops { c with position := c.position - 1 }

def moveCursorRight (c : Composer K) : Composer K :=
  updateInputMode ops
    { c with position := if c.position < c.getLength ops then c.position + 1 else c.position }

def moveCursorToBeginning (c : Composer K) : Composer K :=
  setInputMode c.comebackInputMode { c with position := 0 }

def moveCursorToEnd (c : Composer K) : Composer K :=
  setInputMode c.comebackInputMode { c with position := c.getLength ops }

def moveCursorTo (position : Nat) (c : Composer K) : Composer K :=
  if position ≤ c.getLength ops then updateInputMode ops { c with position } else c

def setCompositionsForHandwriting (compositions : List Text) (c : Composer K) : Composer K :=
  let c := { (c.reset ops) with compositionsForHandwriting := compositions }
  if compositions = [] then c else ops.insertHandwriting compositions c

def shouldCommit (c : Composer K) : Bool := ops.shouldCommit c.chunks

/-- The characters that a field of the composer's type takes at once. -/
def shouldCommitHead (c : Composer K) : Option Nat :=
  let commit (remaining : Nat) : Option Nat :=
    if c.getLength ops > remaining then some (c.getLength ops - remaining) else none
  match c.inputFieldType with
  | .password => commit 1
  | .tel | .number => commit 0
  | .normal => none

section Modes

/-! The text does not depend on the input modes. -/

variable {ops} {c : Composer K}

@[simp] theorem setInputMode_chunks (mode : TransliterationType) :
    (c.setInputMode mode).chunks = c.chunks := rfl

@[simp] theorem setInputMode_inputFieldType (mode : TransliterationType) :
    (c.setInputMode mode).inputFieldType = c.inputFieldType := rfl

@[simp] theorem resetInputMode_chunks : c.resetInputMode.chunks = c.chunks := rfl

@[simp] theorem resetInputMode_inputFieldType :
    c.resetInputMode.inputFieldType = c.inputFieldType := rfl

@[simp] theorem toggleInputMode_chunks : c.toggleInputMode.chunks = c.chunks := by
  unfold toggleInputMode
  split <;> rfl

@[simp] theorem toggleInputMode_inputFieldType :
    c.toggleInputMode.inputFieldType = c.inputFieldType := by
  unfold toggleInputMode
  split <;> rfl

@[simp] theorem switchInputMode_chunks (mode : TransliterationType) :
    (c.switchInputMode mode).chunks = c.chunks := by
  unfold switchInputMode setNewInput
  split <;> rfl

@[simp] theorem switchInputMode_inputFieldType (mode : TransliterationType) :
    (c.switchInputMode mode).inputFieldType = c.inputFieldType := by
  unfold switchInputMode setNewInput
  split <;> rfl

@[simp] theorem applyCompositionMode_chunks (mode : CompositionMode) :
    (c.applyCompositionMode mode).chunks = c.chunks := by
  cases mode <;> simp [applyCompositionMode]

@[simp] theorem applyCompositionMode_inputFieldType (mode : CompositionMode) :
    (c.applyCompositionMode mode).inputFieldType = c.inputFieldType := by
  cases mode <;> simp [applyCompositionMode]

end Modes

end Composer

end Mozkey.Session
