import Mozkey.Session.Protocol

/-! The key maps of `session/keymap.h` and `session/keymap.cc`: the commands of each state, the
names they go by, and the rules that bind a key to a sequence of names. The constants are those of
a release build outside macOS, where the commands for the input modes are supported and `ReportBug`
has no name. -/

namespace Mozkey.Session

/-- The names that are registered for some state, and `IMEAction`, which a rule uses and which is
registered for none. -/
inductive CommandName where
  | imeOn | imeOff | imeAction | reconvert | reconvertSelectionOrInsertSpace
  | compositionModeHiragana | compositionModeFullKatakana | compositionModeHalfKatakana
  | compositionModeFullAlphanumeric | compositionModeHalfAlphanumeric
  | compositionModeSwitchKanaType | toggleAlphanumericMode
  | insertCharacter | insertSpace | insertAlternateSpace | insertHalfSpace | insertFullSpace
  | launchConfigDialog | launchDictionaryTool | launchWordRegisterDialog
  | revert | undo | cancel | cancelAndImeOff | delete | backspace
  | moveCursorLeft | moveCursorRight | moveCursorToBeginning | moveCursorToEnd
  | commit | commitFirstSuggestion | commitOnlyFirstSegment
  | convert | convertWithoutHistory | predictAndConvert
  | convertNext | convertPrev | convertNextPage | convertPrevPage
  | segmentFocusLeft | segmentFocusRight | segmentFocusFirst | segmentFocusLast
  | segmentWidthExpand | segmentWidthShrink
  | convertToHiragana | convertToFullKatakana | convertToHalfKatakana | convertToHalfWidth
  | convertToFullAlphanumeric | convertToHalfAlphanumeric | switchKanaType
  | displayAsHiragana | displayAsFullKatakana | displayAsHalfKatakana | displayAsHalfWidth
  | displayAsFullAlphanumeric | displayAsHalfAlphanumeric | deleteSelectedCandidate
  deriving DecidableEq

abbrev CommandSequence := List CommandName

inductive DirectInputCommand where
  | none | imeOn | compositionModeHiragana | compositionModeFullKatakana
  | compositionModeHalfKatakana | compositionModeFullAlphanumeric
  | compositionModeHalfAlphanumeric | reconvert
  deriving DecidableEq

inductive PrecompositionCommand where
  | none | imeOff | imeOn | insertCharacter | insertSpace | insertAlternateSpace
  | insertHalfSpace | insertFullSpace | toggleAlphanumericMode
  | compositionModeHiragana | compositionModeFullKatakana | compositionModeHalfKatakana
  | compositionModeFullAlphanumeric | compositionModeHalfAlphanumeric
  | compositionModeSwitchKanaType
  | launchConfigDialog | launchDictionaryTool | launchWordRegisterDialog
  | revert | undo | reconvert | reconvertSelectionOrInsertSpace
  | cancel | cancelAndImeOff | commitFirstSuggestion | predictAndConvert | imeAction
  deriving DecidableEq

inductive CompositionCommand where
  | none | imeOff | imeOn | insertCharacter | del | backspace | insertSpace
  | insertAlternateSpace | insertHalfSpace | insertFullSpace | cancel | cancelAndImeOff | undo
  | moveCursorLeft | moveCursorRight | moveCursorToBeginning | moveMoveCursorToEnd
  | commit | commitFirstSuggestion | convert | convertWithoutHistory | predictAndConvert
  | convertToHiragana | convertToFullKatakana | convertToHalfKatakana | convertToHalfWidth
  | convertToFullAlphanumeric | convertToHalfAlphanumeric | switchKanaType
  | displayAsHiragana | displayAsFullKatakana | displayAsHalfKatakana
  | translateHalfWidth | translateFullAscii | translateHalfAscii | toggleAlphanumericMode
  | compositionModeHiragana | compositionModeFullKatakana | compositionModeHalfKatakana
  | compositionModeFullAlphanumeric | compositionModeHalfAlphanumeric
  deriving DecidableEq

inductive ConversionCommand where
  | none | imeOff | imeOn | insertCharacter | insertSpace | insertAlternateSpace
  | insertHalfSpace | insertFullSpace | cancel | cancelAndImeOff | undo
  | segmentFocusLeft | segmentFocusRight | segmentFocusFirst | segmentFocusLast
  | segmentWidthExpand | segmentWidthShrink
  | convertNext | convertPrev | convertNextPage | convertPrevPage | predictAndConvert
  | commit | commitSegment
  | convertToHiragana | convertToFullKatakana | convertToHalfKatakana | convertToHalfWidth
  | convertToFullAlphanumeric | convertToHalfAlphanumeric | switchKanaType
  | displayAsHiragana | displayAsFullKatakana | displayAsHalfKatakana
  | translateHalfWidth | translateFullAscii | translateHalfAscii | toggleAlphanumericMode
  | compositionModeHiragana | compositionModeFullKatakana | compositionModeHalfKatakana
  | compositionModeFullAlphanumeric | compositionModeHalfAlphanumeric
  | deleteSelectedCandidate | reportBug
  deriving DecidableEq

def resolveDirectCommandName : CommandName → Option DirectInputCommand
  | .imeOn => some .imeOn
  | .compositionModeHiragana => some .compositionModeHiragana
  | .compositionModeFullKatakana => some .compositionModeFullKatakana
  | .compositionModeHalfKatakana => some .compositionModeHalfKatakana
  | .compositionModeFullAlphanumeric => some .compositionModeFullAlphanumeric
  | .compositionModeHalfAlphanumeric => some .compositionModeHalfAlphanumeric
  | .reconvert => some .reconvert
  | _ => none

def resolvePrecompositionCommandName : CommandName → Option PrecompositionCommand
  | .imeOff => some .imeOff
  | .imeOn => some .imeOn
  | .insertCharacter => some .insertCharacter
  | .insertSpace => some .insertSpace
  | .insertAlternateSpace => some .insertAlternateSpace
  | .insertHalfSpace => some .insertHalfSpace
  | .insertFullSpace => some .insertFullSpace
  | .toggleAlphanumericMode => some .toggleAlphanumericMode
  | .compositionModeHiragana => some .compositionModeHiragana
  | .compositionModeFullKatakana => some .compositionModeFullKatakana
  | .compositionModeHalfKatakana => some .compositionModeHalfKatakana
  | .compositionModeFullAlphanumeric => some .compositionModeFullAlphanumeric
  | .compositionModeHalfAlphanumeric => some .compositionModeHalfAlphanumeric
  | .compositionModeSwitchKanaType => some .compositionModeSwitchKanaType
  | .launchConfigDialog => some .launchConfigDialog
  | .launchDictionaryTool => some .launchDictionaryTool
  | .launchWordRegisterDialog => some .launchWordRegisterDialog
  | .revert => some .revert
  | .undo => some .undo
  | .reconvert => some .reconvert
  | .reconvertSelectionOrInsertSpace => some .reconvertSelectionOrInsertSpace
  | .cancel => some .cancel
  | .cancelAndImeOff => some .cancelAndImeOff
  | .commitFirstSuggestion => some .commitFirstSuggestion
  | .predictAndConvert => some .predictAndConvert
  | _ => none

def resolveCompositionCommandName : CommandName → Option CompositionCommand
  | .imeOff => some .imeOff
  | .imeOn => some .imeOn
  | .insertCharacter => some .insertCharacter
  | .delete => some .del
  | .backspace => some .backspace
  | .insertSpace => some .insertSpace
  | .insertAlternateSpace => some .insertAlternateSpace
  | .insertHalfSpace => some .insertHalfSpace
  | .insertFullSpace => some .insertFullSpace
  | .cancel => some .cancel
  | .cancelAndImeOff => some .cancelAndImeOff
  | .undo => some .undo
  | .moveCursorLeft => some .moveCursorLeft
  | .moveCursorRight => some .moveCursorRight
  | .moveCursorToBeginning => some .moveCursorToBeginning
  | .moveCursorToEnd => some .moveMoveCursorToEnd
  | .commit => some .commit
  | .commitFirstSuggestion => some .commitFirstSuggestion
  | .convert => some .convert
  | .convertWithoutHistory => some .convertWithoutHistory
  | .predictAndConvert => some .predictAndConvert
  | .convertToHiragana => some .convertToHiragana
  | .convertToFullKatakana => some .convertToFullKatakana
  | .convertToHalfKatakana => some .convertToHalfKatakana
  | .convertToHalfWidth => some .convertToHalfWidth
  | .convertToFullAlphanumeric => some .convertToFullAlphanumeric
  | .convertToHalfAlphanumeric => some .convertToHalfAlphanumeric
  | .switchKanaType => some .switchKanaType
  | .displayAsHiragana => some .displayAsHiragana
  | .displayAsFullKatakana => some .displayAsFullKatakana
  | .displayAsHalfKatakana => some .displayAsHalfKatakana
  | .displayAsHalfWidth => some .translateHalfWidth
  | .displayAsFullAlphanumeric => some .translateFullAscii
  | .displayAsHalfAlphanumeric => some .translateHalfAscii
  | .toggleAlphanumericMode => some .toggleAlphanumericMode
  | .compositionModeHiragana => some .compositionModeHiragana
  | .compositionModeFullKatakana => some .compositionModeFullKatakana
  | .compositionModeHalfKatakana => some .compositionModeHalfKatakana
  | .compositionModeFullAlphanumeric => some .compositionModeFullAlphanumeric
  | .compositionModeHalfAlphanumeric => some .compositionModeHalfAlphanumeric
  | _ => none

def resolveConversionCommandName : CommandName → Option ConversionCommand
  | .imeOff => some .imeOff
  | .imeOn => some .imeOn
  | .insertCharacter => some .insertCharacter
  | .insertSpace => some .insertSpace
  | .insertAlternateSpace => some .insertAlternateSpace
  | .insertHalfSpace => some .insertHalfSpace
  | .insertFullSpace => some .insertFullSpace
  | .cancel => some .cancel
  | .cancelAndImeOff => some .cancelAndImeOff
  | .undo => some .undo
  | .segmentFocusLeft => some .segmentFocusLeft
  | .segmentFocusRight => some .segmentFocusRight
  | .segmentFocusFirst => some .segmentFocusFirst
  | .segmentFocusLast => some .segmentFocusLast
  | .segmentWidthExpand => some .segmentWidthExpand
  | .segmentWidthShrink => some .segmentWidthShrink
  | .convertNext => some .convertNext
  | .convertPrev => some .convertPrev
  | .convertNextPage => some .convertNextPage
  | .convertPrevPage => some .convertPrevPage
  | .predictAndConvert => some .predictAndConvert
  | .commit => some .commit
  | .commitOnlyFirstSegment => some .commitSegment
  | .convertToHiragana => some .convertToHiragana
  | .convertToFullKatakana => some .convertToFullKatakana
  | .convertToHalfKatakana => some .convertToHalfKatakana
  | .convertToHalfWidth => some .convertToHalfWidth
  | .convertToFullAlphanumeric => some .convertToFullAlphanumeric
  | .convertToHalfAlphanumeric => some .convertToHalfAlphanumeric
  | .switchKanaType => some .switchKanaType
  | .toggleAlphanumericMode => some .toggleAlphanumericMode
  | .displayAsHiragana => some .displayAsHiragana
  | .displayAsFullKatakana => some .displayAsFullKatakana
  | .displayAsHalfKatakana => some .displayAsHalfKatakana
  | .displayAsHalfWidth => some .translateHalfWidth
  | .displayAsFullAlphanumeric => some .translateFullAscii
  | .displayAsHalfAlphanumeric => some .translateHalfAscii
  | .deleteSelectedCandidate => some .deleteSelectedCandidate
  | .compositionModeHiragana => some .compositionModeHiragana
  | .compositionModeFullKatakana => some .compositionModeFullKatakana
  | .compositionModeHalfKatakana => some .compositionModeHalfKatakana
  | .compositionModeFullAlphanumeric => some .compositionModeFullAlphanumeric
  | .compositionModeHalfAlphanumeric => some .compositionModeHalfAlphanumeric
  | _ => none

/-- `composer/key_event_util.cc`: what a key event is looked up by. -/
structure KeyEventUtil where
  KeyInformation : Type
  decEq : DecidableEq KeyInformation
  getKeyInformation : KeyEvent → Option KeyInformation
  maybeGetKeyStub : KeyEvent → Option KeyInformation
  normalizeModifiers : KeyEvent → KeyEvent

instance (util : KeyEventUtil) : DecidableEq util.KeyInformation := util.decEq

/-- The two maps of one state: its commands, and the sequences they begin. -/
structure KeyMap (util : KeyEventUtil) (C : Type) where
  keymap : util.KeyInformation → Option C := fun _ => none
  sequenceKeymap : util.KeyInformation → Option CommandSequence := fun _ => none

section

variable {util : KeyEventUtil} {C A : Type}

/-- The first of a key and its stub that a map knows. -/
def lookupKey (util : KeyEventUtil) (map : util.KeyInformation → Option A) (key : KeyEvent) :
    Option A :=
  match util.getKeyInformation key with
  | none => none
  | some information => (map information).or ((util.maybeGetKeyStub key).bind map)

/-- The lookup of `GetCommand` and of `GetCommandSequence`: the event as it is, then without the
modifiers that do not count. -/
def lookup (util : KeyEventUtil) (map : util.KeyInformation → Option A) (key : KeyEvent) :
    Option A :=
  (lookupKey util map key).or (lookupKey util map (util.normalizeModifiers key))

def KeyMap.getCommand (map : KeyMap util C) (key : KeyEvent) : Option C :=
  lookup util map.keymap key

def KeyMap.getCommandSequence (map : KeyMap util C) (key : KeyEvent) : Option CommandSequence :=
  lookup util map.sequenceKeymap key

def KeyMap.addRule (map : KeyMap util C) (key : KeyEvent) (command : C)
    (sequence : CommandSequence) : KeyMap util C :=
  match sequence, util.getKeyInformation key with
  | [], _ | _, none => map
  | _, some information =>
    { keymap := Function.update map.keymap information (some command)
      sequenceKeymap := Function.update map.sequenceKeymap information (some sequence) }

end

structure KeyMapManager (util : KeyEventUtil) where
  direct : KeyMap util DirectInputCommand := {}
  precomposition : KeyMap util PrecompositionCommand := {}
  composition : KeyMap util CompositionCommand := {}
  conversion : KeyMap util ConversionCommand := {}
  zeroQuerySuggestion : KeyMap util PrecompositionCommand := {}
  suggestion : KeyMap util CompositionCommand := {}
  prediction : KeyMap util ConversionCommand := {}

inductive KeyMapState where
  | direct | precomposition | composition | conversion | zeroQuerySuggestion | suggestion
  | prediction
  deriving DecidableEq

structure Rule where
  state : KeyMapState
  key : KeyEvent
  sequence : CommandSequence

namespace KeyMapManager

variable {util : KeyEventUtil}

/-- `AddCommand`: a line is dropped unless its first name is one of the state. -/
def addCommand (manager : KeyMapManager util) (rule : Rule) : KeyMapManager util :=
  match rule.sequence with
  | [] => manager
  | first :: _ =>
    match rule.state with
    | .direct =>
      match resolveDirectCommandName first with
      | none => manager
      | some c => { manager with direct := manager.direct.addRule rule.key c rule.sequence }
    | .precomposition =>
      match resolvePrecompositionCommandName first with
      | none => manager
      | some c =>
        { manager with precomposition := manager.precomposition.addRule rule.key c rule.sequence }
    | .composition =>
      match resolveCompositionCommandName first with
      | none => manager
      | some c =>
        { manager with composition := manager.composition.addRule rule.key c rule.sequence }
    | .conversion =>
      match resolveConversionCommandName first with
      | none => manager
      | some c =>
        { manager with conversion := manager.conversion.addRule rule.key c rule.sequence }
    | .zeroQuerySuggestion =>
      match resolvePrecompositionCommandName first with
      | none => manager
      | some c =>
        { manager with
          zeroQuerySuggestion := manager.zeroQuerySuggestion.addRule rule.key c rule.sequence }
    | .suggestion =>
      match resolveCompositionCommandName first with
      | none => manager
      | some c =>
        { manager with suggestion := manager.suggestion.addRule rule.key c rule.sequence }
    | .prediction =>
      match resolveConversionCommandName first with
      | none => manager
      | some c =>
        { manager with prediction := manager.prediction.addRule rule.key c rule.sequence }

def getCommandZeroQuerySuggestion (manager : KeyMapManager util) (key : KeyEvent) :
    Option PrecompositionCommand :=
  (manager.zeroQuerySuggestion.getCommand key).or (manager.precomposition.getCommand key)

def getCommandSequenceZeroQuerySuggestion (manager : KeyMapManager util) (key : KeyEvent) :
    Option CommandSequence :=
  (manager.zeroQuerySuggestion.getCommandSequence key).or
    (manager.precomposition.getCommandSequence key)

def getCommandSequenceSuggestion (manager : KeyMapManager util) (key : KeyEvent) :
    Option CommandSequence :=
  (manager.suggestion.getCommandSequence key).or (manager.composition.getCommandSequence key)

def getCommandSequencePrediction (manager : KeyMapManager util) (key : KeyEvent) :
    Option CommandSequence :=
  (manager.prediction.getCommandSequence key).or (manager.conversion.getCommandSequence key)

end KeyMapManager

end Mozkey.Session
