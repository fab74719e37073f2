import Mozkey.Session.Editing

/-! The entry points of `session/session.cc`: a key is looked up in the state of the session and its
commands are executed one after the other, and a command of the client goes to its handler. -/

namespace Mozkey.Session

variable {K V H : Type} (E : Env K V H)

/-! The output of a sequence of commands. -/

def mergeCommandResult (step accumulated : Result) : Result :=
  if accumulated.key.isNone ∧ accumulated.value.isNone then step
  else
    { accumulated with
      key := if step.key.isSome then some (accumulated.key.getD [] ++ step.key.getD [])
        else accumulated.key
      value := if step.value.isSome then some (accumulated.value.getD [] ++ step.value.getD [])
        else accumulated.value }

/-- What the commands that have been executed put out; nothing before the first one. -/
abbrev Accumulated := Option Output

/-- `AccumulateCommandOutput`: the last output, consumed if any step consumed the key, with the
results one behind the other. -/
def accumulateCommandOutput (step : Output) (accumulated : Accumulated) : Accumulated :=
  match accumulated with
  | none => some step
  | some before =>
    some { step with
      consumed := before.consumed || step.consumed
      result :=
        match step.result with
        | none => before.result
        | some result => some (mergeCommandResult result (before.result.getD {})) }

namespace Exec

/-! The commands of each state. -/

def executeDirectInputCommand : DirectInputCommand → Exec K V H → Bool × Exec K V H
  | .imeOn, s => (true, s.imeOn E)
  | .compositionModeHiragana, s => (true, s.compositionModeHiragana E)
  | .compositionModeFullKatakana, s => (true, s.compositionModeFullKatakana E)
  | .compositionModeHalfKatakana, s => (true, s.compositionModeHalfKatakana E)
  | .compositionModeFullAlphanumeric, s => (true, s.compositionModeFullASCII E)
  | .compositionModeHalfAlphanumeric, s => (true, s.compositionModeHalfASCII E)
  | .none, s => (true, s.echoBackAndClearUndoContext E)
  | .reconvert, s => (true, s.requestConvertReverse E)

def isCancelKey (key : KeyEvent) : Bool :=
  E.keyMapManager.composition.getCommand key == some .cancel ||
    E.keyMapManager.conversion.getCommand key == some .cancel

def executePrecompositionCommand : PrecompositionCommand → Exec K V H → Bool × Exec K V H
  | .insertCharacter, s => s.insertCharacter E
  | .insertSpace, s => s.insertSpace E
  | .insertAlternateSpace, s => s.insertSpaceToggled E
  | .insertHalfSpace, s => s.insertSpaceHalfWidth E
  | .insertFullSpace, s => s.insertSpaceFullWidth E
  | .toggleAlphanumericMode, s => (true, s.toggleAlphanumericMode E)
  | .revert, s => (true, s.revert E)
  | .undo, s => (true, s.requestUndo E)
  | .imeOff, s => (true, s.imeOff E)
  | .imeOn, s => (true, s.doNothing E)
  | .compositionModeHiragana, s => (true, s.compositionModeHiragana E)
  | .compositionModeFullKatakana, s => (true, s.compositionModeFullKatakana E)
  | .compositionModeHalfKatakana, s => (true, s.compositionModeHalfKatakana E)
  | .compositionModeFullAlphanumeric, s => (true, s.compositionModeFullASCII E)
  | .compositionModeHalfAlphanumeric, s => (true, s.compositionModeHalfASCII E)
  | .compositionModeSwitchKanaType, s => (true, s.compositionModeSwitchKanaType E)
  | .launchConfigDialog, s => (true, s.launchConfigDialog E)
  | .launchDictionaryTool, s => (true, s.launchDictionaryTool E)
  | .launchWordRegisterDialog, s => (true, s.launchWordRegisterDialog E)
  | .cancel, s => (true, s.editCancel E)
  | .cancelAndImeOff, s => (true, s.editCancelAndIMEOff E)
  | .commitFirstSuggestion, s => (true, s.commitFirstSuggestion E)
  | .predictAndConvert, s => (true, s.predictAndConvert E)
  | .none, s =>
    if s.hasUndoContext ∧ isCancelKey E s.input.keyEvent then (true, s.revert E)
    else (true, s.echoBackAndClearUndoContext E)
  | .reconvert, s => (true, s.requestConvertReverse E)
  | .reconvertSelectionOrInsertSpace, s => s.requestReconvertSelectionOrInsertSpace E
  | .imeAction, s => s.imeAction E

def executeCompositionCommand : CompositionCommand → Exec K V H → Bool × Exec K V H
  | .insertCharacter, s => s.insertCharacter E
  | .commit, s => (true, s.commit E)
  | .commitFirstSuggestion, s => (true, s.commitFirstSuggestion E)
  | .convert, s => s.convert E
  | .convertWithoutHistory, s => (true, s.convertWithoutHistory E)
  | .predictAndConvert, s => (true, s.predictAndConvert E)
  | .del, s => (true, s.delete E)
  | .backspace, s => (true, s.backspace E)
  | .insertSpace, s => s.insertSpace E
  | .insertAlternateSpace, s => s.insertSpaceToggled E
  | .insertHalfSpace, s => s.insertSpaceHalfWidth E
  | .insertFullSpace, s => s.insertSpaceFullWidth E
  | .moveCursorLeft, s => (true, s.moveCursorLeft E)
  | .moveCursorRight, s => (true, s.moveCursorRight E)
  | .moveCursorToBeginning, s => (true, s.moveCursorToBeginning E)
  | .moveMoveCursorToEnd, s => (true, s.moveCursorToEnd E)
  | .cancel, s => (true, s.editCancel E)
  | .cancelAndImeOff, s => (true, s.editCancelAndIMEOff E)
  | .undo, s => (true, s.requestUndo E)
  | .imeOff, s => (true, s.imeOff E)
  | .imeOn, s => (true, s.doNothing E)
  | .convertToHiragana, s => s.convertToHiragana E
  | .convertToFullKatakana, s => s.convertToFullKatakana E
  | .convertToHalfKatakana, s => s.convertToHalfKatakana E
  | .convertToHalfWidth, s => s.convertToHalfWidth E
  | .convertToFullAlphanumeric, s => s.convertToFullASCII E
  | .convertToHalfAlphanumeric, s => s.convertToHalfASCII E
  | .switchKanaType, s => s.switchKanaType E
  | .displayAsHiragana, s => s.displayAsHiragana E
  | .displayAsFullKatakana, s => s.displayAsFullKatakana E
  | .displayAsHalfKatakana, s => s.displayAsHalfKatakana E
  | .translateHalfWidth, s => s.translateHalfWidth E
  | .translateFullAscii, s => s.translateFullASCII E
  | .translateHalfAscii, s => s.translateHalfASCII E
  | .toggleAlphanumericMode, s => (true, s.toggleAlphanumericMode E)
  | .compositionModeHiragana, s => (true, s.compositionModeHiragana E)
  | .compositionModeFullKatakana, s => (true, s.compositionModeFullKatakana E)
  | .compositionModeHalfKatakana, s => (true, s.compositionModeHalfKatakana E)
  | .compositionModeFullAlphanumeric, s => (true, s.compositionModeFullASCII E)
  | .compositionModeHalfAlphanumeric, s => (true, s.compositionModeHalfASCII E)
  | .none, s => (true, s.doNothing E)

def executeConversionCommand : ConversionCommand → Exec K V H → Bool × Exec K V H
  | .insertCharacter, s => s.insertCharacter E
  | .insertSpace, s => s.insertSpace E
  | .insertAlternateSpace, s => s.insertSpaceToggled E
  | .insertHalfSpace, s => s.insertSpaceHalfWidth E
  | .insertFullSpace, s => s.insertSpaceFullWidth E
  | .commit, s => (true, s.commit E)
  | .commitSegment, s => (true, s.commitSegment E)
  | .convertNext, s => (true, s.convertNext E)
  | .convertPrev, s => (true, s.convertPrev E)
  | .convertNextPage, s => (true, s.convertNextPage E)
  | .convertPrevPage, s => (true, s.convertPrevPage E)
  | .predictAndConvert, s => (true, s.predictAndConvert E)
  | .segmentFocusLeft, s => (true, s.segmentFocusLeft E)
  | .segmentFocusRight, s => (true, s.segmentFocusRight E)
  | .segmentFocusFirst, s => (true, s.segmentFocusLeftEdge E)
  | .segmentFocusLast, s => (true, s.segmentFocusLast E)
  | .segmentWidthExpand, s => (true, s.segmentWidthExpand E)
  | .segmentWidthShrink, s => (true, s.segmentWidthShrink E)
  | .cancel, s => (true, s.convertCancel E)
  | .cancelAndImeOff, s => (true, s.editCancelAndIMEOff E)
  | .undo, s => (true, s.requestUndo E)
  | .imeOff, s => (true, s.imeOff E)
  | .imeOn, s => (true, s.doNothing E)
  | .convertToHiragana, s => s.convertToHiragana E
  | .convertToFullKatakana, s => s.convertToFullKatakana E
  | .convertToHalfKatakana, s => s.convertToHalfKatakana E
  | .convertToHalfWidth, s => s.convertToHalfWidth E
  | .convertToFullAlphanumeric, s => s.convertToFullASCII E
  | .convertToHalfAlphanumeric, s => s.convertToHalfASCII E
  | .switchKanaType, s => s.switchKanaType E
  | .displayAsHiragana, s => s.displayAsHiragana E
  | .displayAsFullKatakana, s => s.displayAsFullKatakana E
  | .displayAsHalfKatakana, s => s.displayAsHalfKatakana E
  | .translateHalfWidth, s => s.translateHalfWidth E
  | .translateFullAscii, s => s.translateFullASCII E
  | .translateHalfAscii, s => s.translateHalfASCII E
  | .toggleAlphanumericMode, s => (true, s.toggleAlphanumericMode E)
  | .compositionModeHiragana, s => (true, s.compositionModeHiragana E)
  | .compositionModeFullKatakana, s => (true, s.compositionModeFullKatakana E)
  | .compositionModeHalfKatakana, s => (true, s.compositionModeHalfKatakana E)
  | .compositionModeFullAlphanumeric, s => (true, s.compositionModeFullASCII E)
  | .compositionModeHalfAlphanumeric, s => (true, s.compositionModeHalfASCII E)
  | .reportBug, s => (true, s.reportBug E)
  | .deleteSelectedCandidate, s => (true, s.deleteCandidateFromHistory E)
  | .none, s => (true, s.doNothing E)

/-- A name is looked up in the state that the session is in; it fails where the state has no such
command. -/
def executeCommandName (name : CommandName) (s : Exec K V H) : Bool × Exec K V H :=
  match s.state with
  | .direct =>
    match resolveDirectCommandName name with
    | none => (false, s)
    | some command => s.executeDirectInputCommand E command
  | .precomposition =>
    match resolvePrecompositionCommandName name with
    | none => (false, s)
    | some command => s.executePrecompositionCommand E command
  | .composition =>
    match resolveCompositionCommandName name with
    | none => (false, s)
    | some command => s.executeCompositionCommand E command
  | .conversion =>
    match resolveConversionCommandName name with
    | none => (false, s)
    | some command => s.executeConversionCommand E command
  | .none => (false, s)

/-! Sequences. -/

/-- The end of a sequence: without any command, the key is consumed and nothing is done. -/
def finishSequence (accumulated : Accumulated) (s : Exec K V H) : Exec K V H :=
  match accumulated with
  | none => s.doNothing E
  | some output => s.editOutput fun _ => output

/-- The loop of `ExecuteCommandSequenceWithInitialOutput`. It stops at the first command that
fails. -/
def executeCommandSequenceFrom :
    CommandSequence → Accumulated → Exec K V H → Exec K V H
  | [], accumulated, s => s.finishSequence E accumulated
  | name :: names, accumulated, s =>
    let (executed, s) := (s.editOutput fun _ => {}).executeCommandName E name
    if !executed then s.finishSequence E accumulated
    else executeCommandSequenceFrom names (accumulateCommandOutput s.output accumulated) s

def executeCommandSequence (sequence : CommandSequence) (s : Exec K V H) : Exec K V H :=
  s.executeCommandSequenceFrom E sequence none

/-! Keys. -/

def sendKeyDirectInputState (s : Exec K V H) : Exec K V H :=
  match E.keyMapManager.direct.getCommandSequence s.input.keyEvent with
  | none => s.echoBackAndClearUndoContext E
  | some sequence => s.executeCommandSequence E sequence

/-- `SendKeyPrecompositionState` for a key that is not bound. -/
def sendUnboundKey (s : Exec K V H) : Exec K V H :=
  let isCancel := isCancelKey E s.input.keyEvent
  if s.hasUndoContext ∧ isCancel then s.revert E
  else if s.pendingDirectCommitLearning.pending ∧ isCancel then
    (s.discardPendingDirectCommitLearning E).echoBackAndClearUndoContext E
  else s.echoBackAndClearUndoContext E

def precompositionSequence (s : Exec K V H) : Option CommandSequence :=
  if s.converter.state = .suggestion then
    E.keyMapManager.getCommandSequenceZeroQuerySuggestion s.input.keyEvent
  else E.keyMapManager.precomposition.getCommandSequence s.input.keyEvent

/-- The only place that takes over the context of the client. -/
def updateClientContext (s : Exec K V H) : Exec K V H :=
  { s with context := { s.context with clientContext := s.input.clientContext } }

def sendKeyPrecompositionState (s : Exec K V H) : Exec K V H :=
  match s.precompositionSequence E with
  | none => s.sendUnboundKey E
  | some sequence => s.updateClientContext.executeCommandSequence E sequence

def sendKeyCompositionState (s : Exec K V H) : Exec K V H :=
  let sequence :=
    if s.converter.state = .suggestion then
      E.keyMapManager.getCommandSequenceSuggestion s.input.keyEvent
    else E.keyMapManager.composition.getCommandSequence s.input.keyEvent
  match sequence with
  | none => s.doNothing E
  | some sequence => s.executeCommandSequence E sequence

def conversionSequence (s : Exec K V H) : Option CommandSequence :=
  if s.converter.state = .prediction then
    E.keyMapManager.getCommandSequencePrediction s.input.keyEvent
  else E.keyMapManager.conversion.getCommandSequence s.input.keyEvent

/-- A command other than the insertion of a character turns the live conversion into a
conversion. -/
def promoteLiveConversion (command : ConversionCommand) (s : Exec K V H) : Exec K V H :=
  if command = .insertCharacter then s
  else
    let s :=
      if command = .commit then s
      else
        let s :=
          if command = .cancel ∨ command = .cancelAndImeOff ∨ command = .undo then
            s.discardPendingZenzFeedback
          else if s.hasVisibleZenzLiveCorrection then
            s.setPendingZenzFeedbackRejected E (text "explicit_conversion_after_zenz")
          else s
        s.clearZenzLiveCorrectionState
    let stopped : Exec K V H := { s with liveConversionActive := false }
    stopped.setCandidateListVisible true

/-- The keys of a live conversion. The first command alone decides what comes before the
sequence. -/
def sendKeyLiveConversion (command : ConversionCommand) (first : CommandName)
    (rest : CommandSequence) (s : Exec K V H) : Exec K V H :=
  if isPlainBackspaceKey s.input.keyEvent then
    s.discardPendingZenzFeedback.clearZenzLiveCorrectionState.backspace E
  else if command = .commit ∧ s.hasVisibleZenzLiveCorrection then
    let s := (s.commitZenzLiveCorrectionResult E).2
    if rest = [] then s
    else s.executeCommandSequenceFrom E rest (accumulateCommandOutput s.output none)
  else if command = .convertNext ∧ isPureSpaceKey s.input.keyEvent ∧
      s.hasVisibleZenzLiveCorrection then
    -- What follows in the sequence is dropped here.
    (s.revertZenzLiveCorrectionToNormalConversion E).2
  else if command = .predictAndConvert then
    let s := s.predictAndConvertFromLiveConversion E
    if rest = [] then s
    else s.executeCommandSequenceFrom E rest (accumulateCommandOutput s.output none)
  else (s.promoteLiveConversion E command).executeCommandSequence E (first :: rest)

def sendKeyConversionState (s : Exec K V H) : Exec K V H :=
  match s.conversionSequence E with
  | none | some [] => s.doNothing E
  | some (first :: rest) =>
    match resolveConversionCommandName first with
    | none => s.doNothing E
    | some command =>
      if s.liveConversionActive then s.sendKeyLiveConversion E command first rest
      else s.executeCommandSequence E (first :: rest)

def handleIndirectImeOnOff (s : Exec K V H) : Exec K V H :=
  match s.input.keyEvent.activated with
  | some true => if s.state = .direct then { (s.imeOn E) with command := s.command } else s
  | some false => if s.state ≠ .direct then { (s.imeOff E) with command := s.command } else s
  | none => s

def updateTime (s : Exec K V H) : Exec K V H :=
  { s with context := { s.context with lastCommandTime := s.input.now } }

def updatePreferences (s : Exec K V H) : Exec K V H :=
  { s with
    context := { s.context with
      clientCapability := s.input.capability.getD s.context.clientCapability
      converter := { s.context.converter with
        selectionShortcut :=
          s.input.selectionShortcut.getD s.context.converter.selectionShortcut } } }

def transformInput (s : Exec K V H) : Exec K V H :=
  { s with
    command := { s.command with
      input := { s.command.input with
        key := s.command.input.key.map E.textOps.transformKeyEvent } } }

/-- What `SendKey` and `SendCommand` end with: outside a conversion there is no live conversion. -/
def leaveLiveConversion (s : Exec K V H) : Exec K V H :=
  if s.state ≠ .conversion then
    let stopped : Exec K V H := { s with liveConversionActive := false }
    stopped.clearZenzLiveCorrectionState
  else s

def maybeSetUndoStatus (s : Exec K V H) : Exec K V H :=
  if s.hasUndoContext then
    s.editOutput fun output =>
      { output with status := some { (output.status.getD {}) with undoAvailable := true } }
  else s

def sendKeyInState (s : Exec K V H) : Exec K V H :=
  match s.state with
  | .direct => s.sendKeyDirectInputState E
  | .precomposition => s.sendKeyPrecompositionState E
  | .composition => s.sendKeyCompositionState E
  | .conversion => s.sendKeyConversionState E
  | .none => s

/-! Commands of the client. -/

def switchCompositionMode (s : Exec K V H) : Bool × Exec K V H :=
  match s.commandCompositionMode with
  | none => (false, s)
  | some mode =>
    let (result, s) :=
      match mode with
      | .direct => (false, s)
      | .hiragana => (true, s.compositionModeHiragana E)
      | .fullKatakana => (true, s.compositionModeFullKatakana E)
      | .halfAscii => (true, s.compositionModeHalfASCII E)
      | .fullAscii => (true, s.compositionModeFullASCII E)
      | .halfKatakana => (true, s.compositionModeHalfKatakana E)
    (result, s.maybeSetUndoStatus)

def requestNwp (s : Exec K V H) : Bool × Exec K V H :=
  let preferences :=
    { s.converter.conversionPreferences with
      requestSuggestion := s.input.requestSuggestion.getD true }
  let s := s.editConverter E.converterOps.reset
  let (suggested, s) := s.callConverter
    (E.converterOps.suggestWithPreferences preferences s.composer s.input.clientContext)
  (suggested, if suggested then s.putOutput E else s)

def executeSessionCommand (type : CommandType) (s : Exec K V H) : Bool × Exec K V H :=
  match type with
  | .none => (true, s.doNothing E)
  | .revert => (true, s.revert E)
  | .submit => (true, s.commit E)
  | .selectCandidate => (true, s.selectCandidate E)
  | .submitCandidate => s.commitCandidate E
  | .highlightCandidate => s.highlightCandidate E
  | .getStatus => (true, s.outputMode)
  | .convertReverse => s.convertReverse E
  | .undo => (true, s.undo E)
  | .resetContext => (true, s.resetContext E)
  | .moveCursor => (true, s.moveCursorTo E)
  | .switchInputFieldType => (true, s.switchInputFieldType E)
  | .undoOrRewind => (true, s.undoOrRewind E)
  | .commitRawText => s.commitRawText E
  | .convertPrevPage => (true, s.convertPrevPage E)
  | .convertNextPage => (true, s.convertNextPage E)
  | .turnOnIme => s.makeSureIMEOn E
  | .turnOffIme => s.makeSureIMEOff E
  | .deleteCandidateFromHistory => (true, s.deleteCandidateFromHistory E)
  | .stopKeyToggling => (true, s.stopKeyToggling E)
  | .updateComposition => s.updateComposition E
  | .requestNwp => s.requestNwp E
  | .applyLiveConversion => s.applyDelayedLiveConversion E
  | .applyZenzLiveCorrection => (true, s.applyZenzLiveCorrection E)
  | .reconvertSelectionOrInsertSpace => (true, s.doNothing E)
  | .switchCompositionMode => s.switchCompositionMode E

def sendCommand (s : Exec K V H) : Bool × Exec K V H :=
  let s := s.updateTime.updatePreferences
  match s.input.command with
  | none => (false, s)
  | some command =>
    let s := (s.transformInput E).handlePendingForSessionCommand E command.type
    if command.type = .switchCompositionMode then s.switchCompositionMode E
    else
      let (result, s) := s.executeSessionCommand E command.type
      (result, s.leaveLiveConversion.maybeSetUndoStatus)

def sendKey (s : Exec K V H) : Exec K V H :=
  let s := (s.updateTime.updatePreferences.transformInput E).handleIndirectImeOnOff E
  (s.sendKeyInState E).leaveLiveConversion.maybeSetUndoStatus

/-! The test of a key. -/

def effectiveState (s : Exec K V H) : State :=
  match s.input.keyEvent.activated with
  | some true => if s.state = .direct then .precomposition else s.state
  | some false => if s.state ≠ .direct then .direct else s.state
  | none => s.state

def testSpace (echoes : Bool) (s : Exec K V H) : Exec K V H :=
  if echoes ∧ isPureSpaceKey s.input.keyEvent then s.echoBackAndClearUndoContext E
  else s.doNothing E

def testPrecompositionCommand (command : PrecompositionCommand) (s : Exec K V H) : Exec K V H :=
  match command with
  | .none => s.sendUnboundKey E
  | .insertCharacter =>
    if s.input.keyEvent.inputStyle = .directInput then s.echoBack E else s.doNothing E
  | .insertSpace | .reconvertSelectionOrInsertSpace =>
    s.testSpace E !(s.isFullWidthInsertSpace E)
  | .insertAlternateSpace => s.testSpace E (s.isFullWidthInsertSpace E)
  | .insertHalfSpace => s.testSpace E true
  | .insertFullSpace => s.doNothing E
  | .revert => s.revert E
  | .undo => if s.hasUndoContext then s.doNothing E else s.echoBack E
  | _ => s.doNothing E

def precompositionCommand (s : Exec K V H) : Option PrecompositionCommand :=
  if s.converter.state = .suggestion then
    E.keyMapManager.getCommandZeroQuerySuggestion s.input.keyEvent
  else E.keyMapManager.precomposition.getCommand s.input.keyEvent

def testSendKey (s : Exec K V H) : Exec K V H :=
  let s := s.updateTime.updatePreferences.transformInput E
  if s.state = .none then s
  else
    match s.effectiveState with
    | .direct =>
      match E.keyMapManager.direct.getCommand s.input.keyEvent with
      | none | some .none => s.echoBack E
      | some _ => s.doNothing E
    | .precomposition =>
      match s.precompositionCommand E with
      | none => s.sendUnboundKey E
      | some command => s.testPrecompositionCommand E command
    | _ => s.doNothing E

end Exec

/-! The interface of a session. -/

set_option linter.dupNamespace false

def Session.exec (session : Session K V H) (input : Input) : Exec K V H :=
  { session with command := { input } }

def Session.sendKey (session : Session K V H) (input : Input) : Output × Session K V H :=
  let s := (session.exec input).sendKey E
  (s.output, s.toSession)

def Session.testSendKey (session : Session K V H) (input : Input) : Output × Session K V H :=
  let s := (session.exec input).testSendKey E
  (s.output, s.toSession)

def Session.sendCommand (session : Session K V H) (input : Input) : Output × Session K V H :=
  let s := ((session.exec input).sendCommand E).2
  (s.output, s.toSession)

def Session.create (composer : Composer K) (converter : EngineConverter V) (history : H) :
    Session K V H :=
  { context := { composer, converter }, history }

/-! Runs. -/

/-- A call of a session. With the environment, `SetConfig`, `SetRequest` and `SetTable` change the
composer and the converter of the context. -/
inductive Call (K V : Type)
  | sendKey (input : Input)
  | testSendKey (input : Input)
  | sendCommand (input : Input)
  | configure (context : ImeContext K V)

def Session.call (E : Env K V H) (session : Session K V H) : Call K V → Session K V H
  | .sendKey input => (session.sendKey E input).2
  | .testSendKey input => (session.testSendKey E input).2
  | .sendCommand input => (session.sendCommand E input).2
  | .configure context =>
    { session with
      context := { context with state := session.context.state }
      undoContexts := [] }

/-- The calls of a run, each with its environment. -/
def Session.run (session : Session K V H) (calls : List (Env K V H × Call K V)) : Session K V H :=
  calls.foldl (fun session call => session.call call.1 call.2) session

end Mozkey.Session
