import Mathlib

/-! The messages of `protocol/commands.proto` that a session reads and writes, as far as it does so,
and the predicates of `session/session.cc` on a key event. Texts are sequences of code points. -/

namespace Mozkey.Session

abbrev Text := List Char

def text (s : String) : Text := s.toList

inductive CompositionMode where
  | direct | hiragana | fullKatakana | halfAscii | fullAscii | halfKatakana
  deriving DecidableEq

inductive SpecialKey where
  | space | backspace | escape
  /-- The other special keys, by number. -/
  | other (n : Nat)
  deriving DecidableEq

inductive ModifierKey where
  | ctrl | alt | shift | caps
  /-- The other modifier keys, by number. -/
  | other (n : Nat)
  deriving DecidableEq

inductive InputStyle where
  | followMode | asIs | directInput
  deriving DecidableEq

structure KeyEvent where
  keyCode : Option Nat := none
  specialKey : Option SpecialKey := none
  modifierKeys : List ModifierKey := []
  keyString : Text := []
  inputStyle : InputStyle := .followMode
  mode : Option CompositionMode := none
  activated : Option Bool := none
  timestampMsec : Option Int := none
  deriving DecidableEq

def KeyEvent.code (key : KeyEvent) : Nat := key.keyCode.getD 0

def isPlainBackspaceKey (key : KeyEvent) : Bool :=
  key.specialKey == some .backspace && key.modifierKeys.isEmpty

def isPendingZenzFeedbackDiscardKey (key : KeyEvent) : Bool :=
  key.specialKey == some .backspace || key.specialKey == some .escape

def isPendingDirectCommitLearningDiscardKey (key : KeyEvent) : Bool :=
  key.specialKey == some .backspace || key.specialKey == some .escape

def isPureModifierKeyEvent (key : KeyEvent) : Bool :=
  key.keyCode.isNone && key.specialKey.isNone && !key.modifierKeys.isEmpty

def isPureSpaceKey (key : KeyEvent) : Bool :=
  key.keyCode.isNone && key.modifierKeys.isEmpty && key.specialKey == some .space

inductive InputFieldType where
  | normal | password | tel | number
  deriving DecidableEq

structure Context where
  precedingText : Option Text := none
  followingText : Option Text := none
  suppressSuggestion : Bool := false
  inputFieldType : InputFieldType := .normal
  revision : Option Nat := none
  experimentalFeatures : List Text := []
  deriving DecidableEq

inductive CommandType where
  | none | revert | submit | selectCandidate | highlightCandidate | switchCompositionMode
  | getStatus | submitCandidate | convertReverse | undo | resetContext | moveCursor
  | switchInputFieldType | undoOrRewind | commitRawText | convertPrevPage | convertNextPage
  | turnOnIme | turnOffIme | deleteCandidateFromHistory | stopKeyToggling | updateComposition
  | requestNwp | applyLiveConversion | applyZenzLiveCorrection
  | reconvertSelectionOrInsertSpace
  deriving DecidableEq

structure SessionCommand where
  type : CommandType
  id : Option Int := .none
  compositionMode : Option CompositionMode := .none
  text : Text := []
  cursorPosition : Nat := 0
  compositionEvents : List Text := []
  liveConversionGeneration : Option UInt32 := .none
  liveConversionKey : Option Text := .none
  deriving DecidableEq

inductive InputType where
  | none | sendKey | sendCommand
  deriving DecidableEq

/-- What a client can do: `text_deletion` has the bit `DELETE_PRECEDING_TEXT`. -/
structure Capability where
  deletePrecedingText : Bool := false
  deriving DecidableEq

structure Input where
  type : InputType := .none
  key : Option KeyEvent := none
  command : Option SessionCommand := none
  context : Option Context := none
  capability : Option Capability := none
  /-- `config.selection_shortcut`, the one setting that a command can change. -/
  selectionShortcut : Option Nat := none
  requestSuggestion : Option Bool := none
  /-- The clock when the command is processed, in milliseconds. -/
  now : Nat := 0
  deriving DecidableEq

/-- `input().key()`, which is the default event where there is none. -/
def Input.keyEvent (input : Input) : KeyEvent := input.key.getD {}

def Input.clientContext (input : Input) : Context := input.context.getD {}

def suppressSuggestion (input : Input) : Bool :=
  match input.context with
  | none => false
  | some context =>
    context.suppressSuggestion ||
      context.experimentalFeatures.any fun feature =>
        feature == text "chrome_omnibox" || feature == text "google_search_box"

structure ResultToken where
  key : Text := []
  value : Text := []
  deriving DecidableEq

structure Result where
  key : Option Text := none
  value : Option Text := none
  cursorOffset : Int := 0
  tokens : List ResultToken := []
  deriving DecidableEq

inductive Annotation where
  | none | underline | highlight
  deriving DecidableEq

structure PreeditSegment where
  annotation : Annotation
  key : Text
  value : Text
  deriving DecidableEq

structure Preedit where
  segments : List PreeditSegment := []
  cursor : Nat := 0
  deriving DecidableEq

inductive Category where
  | conversion | prediction | suggestion
  deriving DecidableEq

structure CandidateWindow where
  /-- The candidates on the page: the id and the value that is displayed. -/
  candidates : List (Int × Text) := []
  focusedIndex : Option Nat := none
  category : Option Category := none
  deriving DecidableEq

structure Status where
  activated : Bool := false
  mode : CompositionMode := .direct
  comebackMode : CompositionMode := .direct
  undoAvailable : Bool := false
  deriving DecidableEq

structure Callback where
  sessionCommand : SessionCommand
  delayMillisec : Nat := 0
  deriving DecidableEq

inductive ToolMode where
  | configDialog | dictionaryTool | wordRegisterDialog
  deriving DecidableEq

structure DeletionRange where
  offset : Int
  length : Nat
  deriving DecidableEq

structure Output where
  consumed : Bool := false
  mode : Option CompositionMode := none
  status : Option Status := none
  result : Option Result := none
  preedit : Option Preedit := none
  candidateWindow : Option CandidateWindow := none
  allCandidateWords : List (Int × Text) := []
  key : Option KeyEvent := none
  callback : Option Callback := none
  launchToolMode : Option ToolMode := none
  deletionRange : Option DeletionRange := none
  liveConversion : Bool := false
  liveConversionPending : Bool := false
  zenzLiveCorrectionPending : Bool := false
  zenzLiveCorrectionApplied : Bool := false
  zenzLiveCorrectionDebug : Text := []
  deriving DecidableEq

/-- A command: what the client sent, and what it gets. -/
structure Command where
  input : Input
  output : Output := {}
  deriving DecidableEq

end Mozkey.Session
