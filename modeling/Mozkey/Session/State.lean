import Mozkey.Engine.EngineConverter
import Mozkey.Session.KeyMap
import Mozkey.Session.ZenzLiveCorrector

/-! The state of a session, `session/session.h` and `session/ime_context.h`, and the functions of
`session/session.cc` that the handlers of the commands are built from: changes of the state, the
output, and what is learnt later. -/

namespace Mozkey.Session

inductive State where
  | none | direct | precomposition | composition | conversion
  deriving DecidableEq

inductive SpaceCharacterForm where
  | fundamentalInputMode | fundamentalFullWidth | fundamentalHalfWidth
  deriving DecidableEq

/-- The characters of `AutoConversionKey` and `DirectCommitKey`. -/
inductive Punctuation where
  | kuten | touten | questionMark | exclamationMark
  | openParenthesis | closeParenthesis | openBracket | closeBracket
  deriving DecidableEq

structure Config where
  useLiveConversion : Bool := false
  liveConversionDelayMsec : Option Nat := none
  liveConversionMinKeyLength : Option Nat := none
  useAutoConversion : Bool := false
  autoConversionKey : Punctuation → Bool := fun _ => false
  useDirectCommit : Bool := false
  directCommitKey : Punctuation → Bool := fun _ => false
  showCandidateWindowOnInitialConversion : Bool := false
  spaceCharacterForm : SpaceCharacterForm := .fundamentalInputMode
  /-- `shift_key_mode_switch` is `ASCII_INPUT_MODE`. -/
  shiftKeyAsciiInputMode : Bool := false
  useZenzLiveCorrection : Bool := false
  useZenzFeedbackLearning : Bool := false
  useZenzSyntheticCandidate : Bool := false
  zenzLiveCorrectionDelayMsec : Option Nat := none
  zenzLiveCorrectionTimeoutMsec : Option Nat := none
  zenzLiveCorrectionMinKeyLength : Option Nat := none
  zenzLiveCorrectionLeftContextLength : Option Nat := none
  useZenzLiveCorrectionRightContext : Bool := false
  zenzLiveCorrectionRightContextLength : Option Nat := none
  zenzLiveCorrectionPipeName : Text := []

def getLiveConversionDelayMillisec (config : Config) : Nat :=
  match config.liveConversionDelayMsec with
  | none => 228
  | some delay => min delay 1000

def getLiveConversionMinKeyLength (config : Config) : Nat :=
  max 1 (min (config.liveConversionMinKeyLength.getD 2) 20)

def getZenzLiveCorrectionDelayMsec (config : Config) : Nat :=
  match config.zenzLiveCorrectionDelayMsec with
  | none => 1000
  | some delay => min delay 5000

def getZenzLiveCorrectionTimeoutMsec (config : Config) : Nat :=
  match config.zenzLiveCorrectionTimeoutMsec with
  | none => 180
  | some timeout => min timeout 1000

def getZenzLiveCorrectionMinKeyLength (config : Config) : Nat :=
  match config.zenzLiveCorrectionMinKeyLength with
  | none => 2
  | some length => max 2 length

def getZenzLiveCorrectionLeftContextLength (config : Config) : Nat :=
  config.zenzLiveCorrectionLeftContextLength.getD 24

def getZenzLiveCorrectionRightContextLength (config : Config) : Nat :=
  if config.useZenzLiveCorrectionRightContext then
    min (config.zenzLiveCorrectionRightContextLength.getD 10) 128
  else 0

inductive SpaceOnAlphanumeric where
  | spaceOrConvertKeepingComposition | spaceOrConvertCommittingComposition | commit
  deriving DecidableEq

structure Request where
  zeroQuerySuggestion : Bool := false
  /-- `special_romanji_table` is `DEFAULT_TABLE`. -/
  defaultRomanjiTable : Bool := true
  spaceOnAlphanumeric : SpaceOnAlphanumeric := .spaceOrConvertKeepingComposition
  /-- `crossing_edge_behavior` is `COMMIT_WITHOUT_CONSUMING`. -/
  commitWithoutConsuming : Bool := false

structure ZenzContextSanitizationResult where
  allowedForPrompt : Bool
  sanitizedContext : Text
  contextClass : Text

structure ZenzValidationInput where
  key : Text
  mozcValue : Text
  zenzValue : Text
  leftContext : Text
  minKeyLength : Nat
  allowSyntheticCandidate : Bool

/-- The predicates on texts and the parts of the Zenz correction that a session calls and that look
at nothing but their arguments. Each decision comes with its reason. -/
structure TextOps where
  shouldSkipLiveConversionForCompositionKey : Text → Option Text → Nat → Bool
  isHiragana : Text → Bool
  isNumber : Text → Bool
  /-- Every character of the text can be part of a candidate. -/
  isAcceptableForReverseConversion : Text → Bool
  evaluateZenzLiveKeyPrivacy : Text → Bool × Text
  evaluateZenzLiveValuePrivacy : Text → Bool × Text
  restoreUserVisibleSymbolStyle : Text → Text → Text → Text
  sanitizeForZenz : Text → Nat → ZenzContextSanitizationResult
  buildPrompt : Text → Text → Text → Text
  hiraganaToKatakana : Text → Text
  validate : ZenzValidationInput → Bool × Text
  zenzSafeDebugReason : Text → Text
  hasCtrl : KeyEvent → Bool
  hasAlt : KeyEvent → Bool
  hasCaps : KeyEvent → Bool
  transformKeyEvent : KeyEvent → KeyEvent

/-- The feedback store of a session, as a part of what is learnt. -/
structure FeedbackOps (H : Type) where
  recordAccepted : Text → Text → Text → H → H
  recordRejected : Text → Text → Text → Text → H → H
  getAcceptedCandidates : Text → Text → H → List Text
  /-- The value is rejected, and why or why not. -/
  decide : Text → Text → Text → H → Bool × Text

structure Env (K V H : Type) where
  config : Config
  request : Request
  util : KeyEventUtil
  keyMapManager : KeyMapManager util
  composerOps : ComposerOps K
  converterOps : ConverterOps K V H
  textOps : TextOps
  feedbackOps : FeedbackOps H
  /-- How often `InsertCharacter` and `Convert` may call each other. -/
  insertDepth : Nat := 2

structure ImeContext (K V : Type) where
  lastCommandTime : Nat := 0
  composer : Composer K
  converter : EngineConverter V
  state : State := .precomposition
  clientCapability : Capability := {}
  clientContext : Context := {}
  /-- The last output that has a result, for undo. -/
  output : Output := {}
  deriving DecidableEq

structure PendingZenzLiveCorrection where
  generation : UInt32 := 0
  key : Text := []
  leftContext : Text := []
  rightContext : Text := []
  contextClass : Text := []
  mozcValue : Text := []
  symbolStyleSource : Text := []
  prompt : Text := []
  issuedAt : Nat := 0
  pending : Bool := false
  submitted : Bool := false
  pollCount : UInt32 := 0
  deriving DecidableEq

inductive FeedbackAction where
  | none | accepted | rejected
  deriving DecidableEq

structure PendingZenzFeedback where
  pending : Bool := false
  action : FeedbackAction := .none
  key : Text := []
  contextClass : Text := []
  value : Text := []
  reason : Text := []
  deriving DecidableEq

/-- What happens to the pending feedback: a `SetPendingZenzFeedback...` call fills the slot, and
`ConfirmPendingZenzFeedback` and `DiscardPendingZenzFeedback` empty it. A confirmation says what it
has written to the feedback store. -/
inductive FeedbackEvent where
  | set (feedback : PendingZenzFeedback)
  | confirmed (written : Option PendingZenzFeedback)
  | discarded
  deriving DecidableEq

structure PendingDirectCommitLearning (K V : Type) where
  pending : Bool := false
  key : Text := []
  value : Text := []
  reason : Text := []
  revertContext : Option (ImeContext K V) := none
  deriving DecidableEq

set_option linter.dupNamespace false in
structure Session (K V H : Type) where
  context : ImeContext K V
  liveConversionActive : Bool := false
  liveConversionPending : Bool := false
  liveConversionGeneration : UInt32 := 0
  pendingLiveConversionGeneration : UInt32 := 0
  pendingLiveConversionKey : Text := []
  pendingLiveConversionInput : Input := {}
  pendingLiveConversionSuggestionCandidateWindow : CandidateWindow := {}
  liveConversionSuggestionCandidateWindow : CandidateWindow := {}
  liveConversionKey : Text := []
  liveConversionPreedit : Text := []
  liveConversionValue : Text := []
  liveConversionPreeditOutput : Preedit := {}
  pendingRerankedPreeditCommitAfterConvertCancel : Bool := false
  pendingRerankedPreeditCommitKey : Text := []
  pendingRerankedPreeditCommitValue : Text := []
  pendingRerankedPreeditCommitSegmentKeys : List Text := []
  zenzLiveGeneration : UInt32 := 0
  pendingZenzLive : PendingZenzLiveCorrection := {}
  pendingZenzFeedback : PendingZenzFeedback := {}
  pendingDirectCommitLearning : PendingDirectCommitLearning K V := {}
  zenzLiveVisibleGeneration : UInt32 := 0
  zenzLiveKey : Text := []
  zenzLiveDisplayKey : Text := []
  zenzLiveValue : Text := []
  zenzLiveMozcValue : Text := []
  zenzLiveContextClass : Text := []
  zenzLiveLeftContext : Text := []
  zenzLivePreeditOutput : Preedit := {}
  zenzLiveCorrector : Option ZenzLiveCorrector := none
  /-- The newest first. -/
  undoContexts : List (ImeContext K V) := []
  /-- What the engine and the feedback store have learnt. -/
  history : H
  /-- The live conversion that was scheduled last, with its generation and key. Nothing reads this;
  it says what the pending fields are about. -/
  lastScheduled : Option (UInt32 × Text) := none
  /-- What has happened to the pending feedback, the newest first. Nothing reads this. -/
  feedbackEvents : List FeedbackEvent := []
  deriving DecidableEq

structure Exec (K V H : Type) extends Session K V H where
  command : Command
  deriving DecidableEq

variable {K V H A : Type}

namespace Exec

def input (s : Exec K V H) : Input := s.command.input

def output (s : Exec K V H) : Output := s.command.output

def state (s : Exec K V H) : State := s.context.state

def composer (s : Exec K V H) : Composer K := s.context.composer

def converter (s : Exec K V H) : EngineConverter V := s.context.converter

def editOutput (f : Output → Output) (s : Exec K V H) : Exec K V H :=
  { s with command := { s.command with output := f s.command.output } }

def setConsumed (consumed : Bool) (s : Exec K V H) : Exec K V H :=
  s.editOutput fun output => { output with consumed }

def editKey (f : KeyEvent → KeyEvent) (s : Exec K V H) : Exec K V H :=
  { s with
    command := { s.command with
      input := { s.command.input with key := some (f s.command.input.keyEvent) } } }

def editComposer (f : Composer K → Composer K) (s : Exec K V H) : Exec K V H :=
  { s with context := { s.context with composer := f s.context.composer } }

/-- A call of the converter that gives something back. -/
def callConverter (f : Engine V H → A × Engine V H) (s : Exec K V H) : A × Exec K V H :=
  let (result, converter, history) := f (s.context.converter, s.history)
  (result, { s with context := { s.context with converter }, history })

def editConverter (f : Engine V H → Engine V H) (s : Exec K V H) : Exec K V H :=
  (s.callConverter fun engine => ((), f engine)).2

def setCandidateListVisible (visible : Bool) (s : Exec K V H) : Exec K V H :=
  s.editConverter fun engine => (engine.1.setCandidateListVisible visible, engine.2)

/-- `*context_->mutable_output() = command->output()`. -/
def keepOutputForUndo (s : Exec K V H) : Exec K V H :=
  { s with context := { s.context with output := s.command.output } }

def pushUndoContext (s : Exec K V H) : Exec K V H :=
  { s with undoContexts := (s.context :: s.undoContexts).take 10 }

def popUndoContext (s : Exec K V H) : Exec K V H :=
  match s.undoContexts with
  | [] => s
  | context :: undoContexts => { s with context, undoContexts }

def clearUndoContext (s : Exec K V H) : Exec K V H := { s with undoContexts := [] }

def hasUndoContext (s : Exec K V H) : Bool := !s.undoContexts.isEmpty

variable (E : Env K V H)

def setState (state : State) (s : Exec K V H) : Exec K V H :=
  let moved : Exec K V H := { s with context := { s.context with state } }
  match state with
  | .direct | .precomposition => moved.editComposer (·.reset E.composerOps)
  | .conversion => moved.editComposer (·.resetInputMode)
  | .composition =>
    if s.state = .precomposition then
      moved.editConverter (E.converterOps.onStartComposition s.context.clientContext)
    else moved
  | .none => moved

def setStateToPrecompositionAndCancel (s : Exec K V H) : Exec K V H :=
  let s := s.setState E .precomposition
  if s.converter.state = .composition then s else s.editConverter E.converterOps.cancel

def ensureIMEIsOn (s : Exec K V H) : Exec K V H :=
  if s.state = .direct then s.setState E .precomposition else s

/-! The output. -/

def outputMode (s : Exec K V H) : Exec K V H :=
  let mode := s.composer.inputMode.toCompositionMode
  s.editOutput fun output =>
    { output with
      mode := some (if s.state = .direct then .direct else mode)
      status := some { (output.status.getD {}) with
        activated := s.state ≠ .direct
        mode := mode
        comebackMode := s.composer.comebackInputMode.toCompositionMode } }

def popOutput (s : Exec K V H) : Exec K V H :=
  let filled := s.editOutput
    (EngineConverter.fillOutput E.composerOps E.converterOps s.composer s.converter)
  { filled with context := { s.context with converter := s.converter.popped } }

def putOutput (s : Exec K V H) : Exec K V H := s.outputMode.popOutput E

def outputFromState (s : Exec K V H) : Exec K V H :=
  if s.state = .direct then s.outputMode else s.putOutput E

def outputComposition (s : Exec K V H) : Exec K V H :=
  s.outputMode.editOutput fun output =>
    { output with preedit := some (EngineConverter.fillPreedit E.composerOps E.converterOps
        s.composer output.preedit) }

def outputKey (s : Exec K V H) : Exec K V H :=
  s.outputMode.editOutput fun output => { output with key := some s.input.keyEvent }

def putCallback (type : CommandType) (s : Exec K V H) : Exec K V H :=
  s.editOutput fun output => { output with callback := some { sessionCommand := { type } } }

/-- The call of the converter in `Suggest`: the input of a key can ask for no suggestion. -/
def suggestFor (input : Input) (composer : Composer K) (engine : Engine V H) :
    Bool × Engine V H :=
  let preferences := engine.1.conversionPreferences
  let preferences :=
    match input.requestSuggestion with
    | some requestSuggestion =>
      if input.type = .sendKey then { preferences with requestSuggestion } else preferences
    | none => preferences
  E.converterOps.suggestWithPreferences preferences composer input.clientContext engine

def suggest (s : Exec K V H) : Bool × Exec K V H :=
  if suppressSuggestion s.input then (false, s)
  else s.callConverter (suggestFor E s.input s.composer)

/-- The suggestions that the handlers end with, where the text has changed. -/
def suggestAndOutput (s : Exec K V H) : Exec K V H :=
  let (suggested, s) := s.suggest E
  if suggested then s.putOutput E else s.outputComposition E

/-- The suggestion after a commit, for the clients that want one. -/
def suggestZeroQuery (s : Exec K V H) : Exec K V H :=
  if E.request.zeroQuerySuggestion then (s.suggest E).2 else s

/-! What is learnt when the user goes on. -/

def confirmPendingDirectCommitLearning (s : Exec K V H) : Exec K V H :=
  if s.pendingDirectCommitLearning.pending then { s with pendingDirectCommitLearning := {} } else s

/-- The revert goes to the converter of the snapshot, and with it to what the engine has learnt. -/
def discardPendingDirectCommitLearning (s : Exec K V H) : Exec K V H :=
  if s.pendingDirectCommitLearning.pending then
    match s.pendingDirectCommitLearning.revertContext with
    | some context =>
      { s with
        history := (E.converterOps.revert (context.converter, s.history)).2
        pendingDirectCommitLearning := {} }
    | none => { s with pendingDirectCommitLearning := {} }
  else s

def handlePendingDirectCommitLearningForKeyEvent (key : KeyEvent) (s : Exec K V H) :
    Exec K V H :=
  if isPendingDirectCommitLearningDiscardKey key then s.discardPendingDirectCommitLearning E
  else if isPureModifierKeyEvent key then s
  else s.confirmPendingDirectCommitLearning

def setPendingDirectCommitLearning (key value reason : Text) (s : Exec K V H) : Exec K V H :=
  if key = [] ∨ value = [] then s
  else if s.composer.inputFieldType = .password then s
  else
    { s with
      pendingDirectCommitLearning :=
        { pending := true, key, value, reason, revertContext := some s.context } }

def setPendingDirectCommitLearningFromCommittedResult (reason : Text) (s : Exec K V H) :
    Exec K V H :=
  match s.output.result with
  | none => s
  | some result =>
    s.setPendingDirectCommitLearning (result.key.getD []) (result.value.getD []) reason

def noteFeedback (event : FeedbackEvent) (s : Exec K V H) : Exec K V H :=
  { s with feedbackEvents := event :: s.feedbackEvents }

def discardPendingZenzFeedback (s : Exec K V H) : Exec K V H :=
  if s.pendingZenzFeedback.pending then
    noteFeedback .discarded { s with pendingZenzFeedback := {} }
  else s

def maybeLearnZenzCandidateToMozcHistory (key value : Text) (s : Exec K V H) : Exec K V H :=
  if !E.config.useZenzFeedbackLearning ∨ key = [] ∨ value = [] ∨
      s.composer.inputFieldType = .password ∨
      !(E.textOps.evaluateZenzLiveKeyPrivacy key).1 ∨
      !(E.textOps.evaluateZenzLiveValuePrivacy value).1 then s
  else
    (s.callConverter
      (E.converterOps.learnExternalConversionResult key value s.context.clientContext)).2

def confirmPendingZenzFeedback (s : Exec K V H) : Exec K V H :=
  let feedback := s.pendingZenzFeedback
  if !feedback.pending then s
  else if !E.config.useZenzFeedbackLearning then
    noteFeedback (.confirmed none) { s with pendingZenzFeedback := {} }
  else
    let (written, s) : Option PendingZenzFeedback × Exec K V H :=
      match feedback.action with
      | .accepted =>
        let recorded : Exec K V H :=
          { s with
            history := E.feedbackOps.recordAccepted feedback.key feedback.contextClass
              feedback.value s.history }
        (some feedback,
          recorded.maybeLearnZenzCandidateToMozcHistory E feedback.key feedback.value)
      | .rejected =>
        (some feedback,
          { s with
            history := E.feedbackOps.recordRejected feedback.key feedback.contextClass
              feedback.value feedback.reason s.history })
      | .none => (none, s)
    noteFeedback (.confirmed written) { s with pendingZenzFeedback := {} }

def handlePendingZenzFeedbackForKeyEvent (s : Exec K V H) : Exec K V H :=
  if s.state = .conversion then s else s.confirmPendingZenzFeedback E

/-- `HandlePendingDirectCommitLearningForSessionCommand` and
`HandlePendingZenzFeedbackForSessionCommand`. -/
def handlePendingForSessionCommand (type : CommandType) (s : Exec K V H) : Exec K V H :=
  match type with
  | .revert | .resetContext | .undo =>
    (s.discardPendingDirectCommitLearning E).discardPendingZenzFeedback
  | _ => s

/-! The commit of a text that was converted and set back. -/

def clearPendingRerankedPreeditCommitAfterConvertCancel (s : Exec K V H) : Exec K V H :=
  { s with
    pendingRerankedPreeditCommitAfterConvertCancel := false
    pendingRerankedPreeditCommitKey := []
    pendingRerankedPreeditCommitValue := []
    pendingRerankedPreeditCommitSegmentKeys := [] }

def maybeSetPendingRerankedPreeditCommitAfterConvertCancel (s : Exec K V H) : Exec K V H :=
  let s := s.clearPendingRerankedPreeditCommitAfterConvertCancel
  let key := s.composer.getQueryForConversion E.composerOps
  let value := s.composer.getStringForSubmission E.composerOps
  if key = [] ∨ value = [] then s
  else
    { s with
      pendingRerankedPreeditCommitAfterConvertCancel := true
      pendingRerankedPreeditCommitKey := key
      pendingRerankedPreeditCommitValue := value
      pendingRerankedPreeditCommitSegmentKeys :=
        match E.converterOps.getConversionSegmentKeys s.converter with
        | none => []
        | some keys => if [] ∈ keys ∨ keys = [] ∨ keys.flatten ≠ key then [] else keys }

def shouldMarkPreeditCommitAsRerankedAfterConvertCancel (composer : Composer K)
    (s : Exec K V H) : Bool :=
  let key := composer.getQueryForConversion E.composerOps
  let value := composer.getStringForSubmission E.composerOps
  s.pendingRerankedPreeditCommitAfterConvertCancel &&
    composer.inputFieldType != .password &&
    key == s.pendingRerankedPreeditCommitKey && value == s.pendingRerankedPreeditCommitValue &&
    key == value && 2 ≤ key.length && E.textOps.isHiragana key

def commitPendingRerankedPreeditAfterConvertCancelForDirectCommit (composer : Composer K)
    (reason : Text) (s : Exec K V H) : Bool × Exec K V H :=
  if !s.pendingRerankedPreeditCommitAfterConvertCancel then (false, s)
  else if !s.shouldMarkPreeditCommitAsRerankedAfterConvertCancel E composer then
    (false, s.clearPendingRerankedPreeditCommitAfterConvertCancel)
  else
    let key := composer.getQueryForConversion E.composerOps
    let value := composer.getStringForSubmission E.composerOps
    let s := s.editConverter (E.converterOps.commitPreedit composer s.input.clientContext true
      s.pendingRerankedPreeditCommitSegmentKeys)
    (true, (s.setPendingDirectCommitLearning key value
      reason).clearPendingRerankedPreeditCommitAfterConvertCancel)

end Exec

end Mozkey.Session
