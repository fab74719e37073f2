import Mozkey.Session.LiveConversion

/-! The handlers of `session/session.cc` that turn the input method on and off, give a key back,
set the session back and commit text. -/

namespace Mozkey.Session

variable {K V H : Type} (E : Env K V H)

namespace Exec

/-! Keys that are given back. -/

def echoBack (s : Exec K V H) : Exec K V H :=
  ((s.setConsumed false).editConverter E.converterOps.reset).outputKey

def echoBackAndClearUndoContext (s : Exec K V H) : Exec K V H :=
  let key := s.input.keyEvent
  let s := s.setConsumed false
  let s := if isPendingDirectCommitLearningDiscardKey key then
    s.discardPendingDirectCommitLearning E else s
  let s := if isPendingZenzFeedbackDiscardKey key then s.discardPendingZenzFeedback else s
  let s := if isPureModifierKeyEvent key then s else s.clearUndoContext
  s.echoBack E

def doNothing (s : Exec K V H) : Exec K V H :=
  let s := s.setConsumed true
  let s :=
    if E.request.zeroQuerySuggestion ∧ s.converter.isActive ∧ s.state = .precomposition then
      (s.editConverter E.converterOps.reset).putOutput E
    else s
  if s.state = .composition ∨ s.state = .conversion then s.putOutput E else s

/-! Commits. -/

/-- `CommitStringDirectly`: nothing happens without a key or without a text. -/
def commitStringDirectly (key preedit : Text) (s : Exec K V H) : Exec K V H :=
  if key = [] ∨ preedit = [] then s
  else
    let s := (s.setConsumed true).editConverter E.converterOps.reset
    let s := s.editOutput fun output =>
      let result := output.result.getD {}
      { output with
        result := some { result with
          key := some (result.key.getD [] ++ key)
          value := some (result.value.getD [] ++ preedit) } }
    ((s.setState E .precomposition).suggestZeroQuery E).putOutput E

def commitCompositionDirectly (s : Exec K V H) : Exec K V H :=
  s.commitStringDirectly E (s.composer.getQueryForConversion E.composerOps)
    (s.composer.getStringForSubmission E.composerOps)

def commitSourceTextDirectly (s : Exec K V H) : Exec K V H :=
  s.commitStringDirectly E s.composer.sourceText s.composer.sourceText

def commitRawTextDirectly (s : Exec K V H) : Exec K V H :=
  s.commitStringDirectly E (s.composer.getRawString E.composerOps)
    (s.composer.getRawString E.composerOps)

def commitZenzLiveCorrectionResult (s : Exec K V H) : Bool × Exec K V H :=
  if !s.hasVisibleZenzLiveCorrection then (false, s)
  else
    let key := s.zenzLiveKey
    let value := s.zenzLiveValue
    let contextClass :=
      if s.zenzLiveContextClass = [] then text "empty" else s.zenzLiveContextClass
    let s := (s.setPendingZenzFeedbackAccepted E key contextClass value).clearLiveConversionState
    (true, s.commitStringDirectly E key value)

/-- `CommitLiveConversionResult`: the text of the live conversion with the character behind it. -/
def commitLiveConversionResult (s : Exec K V H) : Bool × Exec K V H :=
  if s.state ≠ .composition then (false, s)
  else if s.liveConversionValue = [] ∨ s.composer.getLength E.composerOps = 0 then
    (true, s.commitCompositionDirectly E)
  else
    let preedit := s.composer.getStringForPreedit E.composerOps
    let lastChar := (preedit.drop (s.composer.getLength E.composerOps - 1)).take 1
    let key := s.composer.getQueryForConversion E.composerOps
    let value := s.liveConversionValue ++ lastChar
    (true, s.clearLiveConversionState.commitStringDirectly E key value)

def commitPendingLiveConversionDisplayDirectly (s : Exec K V H) : Exec K V H :=
  let key := s.composer.getQueryForConversion E.composerOps
  let rawPreedit := s.composer.getStringForPreedit E.composerOps
  let value :=
    if s.liveConversionKey ≠ [] ∧ s.liveConversionPreedit ≠ [] ∧ s.liveConversionValue ≠ [] ∧
        s.liveConversionPreeditOutput.segments ≠ [] ∧ s.liveConversionKey.isPrefixOf key ∧
        s.liveConversionPreedit.isPrefixOf rawPreedit then
      s.liveConversionValue ++ rawPreedit.drop s.liveConversionPreedit.length
    else s.composer.getStringForSubmission E.composerOps
  s.clearLiveConversionState.commitStringDirectly E key value

def commitInternal (triggerZeroQuerySuggest : Bool) (s : Exec K V H) : Exec K V H :=
  if s.state ≠ .composition ∧ s.state ≠ .conversion then s.doNothing E
  else
    let s := (s.setConsumed true).pushUndoContext
    let s :=
      if s.state = .composition then
        let marked := s.shouldMarkPreeditCommitAsRerankedAfterConvertCancel E s.composer
        let segmentKeys := if marked then s.pendingRerankedPreeditCommitSegmentKeys else []
        s.clearPendingRerankedPreeditCommitAfterConvertCancel.editConverter
          (E.converterOps.commitPreedit s.composer s.input.clientContext marked segmentKeys)
      else
        s.clearPendingRerankedPreeditCommitAfterConvertCancel.editConverter
          (E.converterOps.commit s.composer s.input.clientContext)
    let s := s.setState E .precomposition
    let s := if triggerZeroQuerySuggest then (s.suggest E).2 else s
    (s.putOutput E).keepOutputForUndo.clearLiveConversionState

def commit (s : Exec K V H) : Exec K V H :=
  let (committed, s) := s.commitZenzLiveCorrectionResult E
  if committed then s
  else (s.flushPendingLiveConversion E).commitInternal E E.request.zeroQuerySuggestion

def commitNotTriggeringZeroQuerySuggest (s : Exec K V H) : Exec K V H := s.commitInternal E false

def commitHead (count : Nat) (s : Exec K V H) : Exec K V H :=
  if s.state ≠ .composition ∧ s.state ≠ .precomposition then s.doNothing E
  else
    let s := (s.setConsumed true).clearUndoContext
    let (size, s) := s.callConverter (E.converterOps.commitHead count s.composer)
    (s.editComposer (·.deleteRange E.composerOps 0 size)).putOutput E

/-- What follows a commit that may have ended the conversion. -/
def finishCommit (s : Exec K V H) : Exec K V H :=
  let s :=
    if !s.converter.isActive then (s.setState E .precomposition).suggestZeroQuery E else s
  (s.putOutput E).keepOutputForUndo

def commitFirstSuggestion (s : Exec K V H) : Exec K V H :=
  if (s.state ≠ .composition ∧ s.state ≠ .precomposition) ∨ !s.converter.isActive then
    s.doNothing E
  else
    let s := (s.setConsumed true).pushUndoContext
    let (_, s) := s.callConverter fun engine =>
      let (committed, _, engine) :=
        E.converterOps.commitSuggestionByIndex 0 s.composer s.input.clientContext engine
      (committed, engine)
    ((((s.setState E .precomposition).suggestZeroQuery E).putOutput E)).keepOutputForUndo

/-- The key of the segments that have been committed goes out of the composition. -/
def deleteCommitted (size : Nat) (s : Exec K V H) : Exec K V H :=
  if size > 0 then s.editComposer (·.deleteRange E.composerOps 0 size) else s

def commitHeadToFocusedSegmentsInternal (s : Exec K V H) : Exec K V H :=
  let (size, s) := s.callConverter
    (E.converterOps.commitHeadToFocusedSegments s.composer s.input.clientContext)
  s.deleteCommitted E size

def commitSegment (s : Exec K V H) : Exec K V H :=
  if s.state ≠ .conversion then s.doNothing E
  else
    let s := (s.setConsumed true).pushUndoContext
    let (size, s) := s.callConverter
      (E.converterOps.commitFirstSegment s.composer s.input.clientContext)
    (s.deleteCommitted E size).finishCommit E

def commitIfPassword (s : Exec K V H) : Bool × Exec K V H :=
  if s.composer.inputFieldType = .password then (true, s.commitCompositionDirectly E)
  else (false, s)

def commitRawText (s : Exec K V H) : Bool × Exec K V H :=
  if s.composer.getLength E.composerOps = 0 then (false, s)
  else (true, s.commitRawTextDirectly E)

/-! The cursor. -/

def moveCursor (move : Composer K → Composer K) (clearUndo : Bool) (s : Exec K V H) :
    Exec K V H :=
  let (committed, s) := (s.setConsumed true).commitIfPassword E
  if committed then s
  else
    let s := s.editComposer move
    let s := if clearUndo then s.clearUndoContext else s
    s.suggestAndOutput E

def moveCursorRight (s : Exec K V H) : Exec K V H :=
  if E.request.commitWithoutConsuming ∧ s.isCursorAtEnd E then (s.commit E).setConsumed false
  else s.moveCursor E (·.moveCursorRight E.composerOps) true

def moveCursorLeft (s : Exec K V H) : Exec K V H :=
  if E.request.commitWithoutConsuming ∧ s.composer.position = 0 then
    let s := s.commitNotTriggeringZeroQuerySuggest E
    let s := s.editOutput fun output =>
      let result := output.result.getD {}
      { output with
        result := some { result with cursorOffset := -(result.value.getD []).length } }
    s.setConsumed false
  else s.moveCursor E (·.moveCursorLeft E.composerOps) true

def moveCursorToEndInternal (clearUndo : Bool) (s : Exec K V H) : Exec K V H :=
  s.moveCursor E (·.moveCursorToEnd E.composerOps) clearUndo

def moveCursorToEnd (s : Exec K V H) : Exec K V H := s.moveCursorToEndInternal E true

def moveCursorToBeginning (s : Exec K V H) : Exec K V H :=
  s.moveCursor E (·.moveCursorToBeginning) true

def moveCursorTo (s : Exec K V H) : Exec K V H :=
  if s.state = .precomposition then s.echoBack E
  else if s.state ≠ .composition then s.doNothing E
  else
    let position := (s.input.command.map (·.cursorPosition)).getD 0
    s.moveCursor E (·.moveCursorTo E.composerOps position) true

/-! Selection of a candidate. -/

def commandId (s : Exec K V H) : Option Int := s.input.command.bind (·.id)

def selectCandidateInternal (s : Exec K V H) : Bool × Exec K V H :=
  if s.state ≠ .conversion ∧ s.state ≠ .composition ∧ s.state ≠ .precomposition then (false, s)
  else
    match s.commandId with
    | none => (false, s)
    | some id =>
      if !s.converter.isActive then (false, s)
      else
        let s := (s.setConsumed true).editConverter
          (E.converterOps.candidateMoveToId id s.composer)
        (true, s.setState E .conversion)

def selectCandidate (s : Exec K V H) : Exec K V H :=
  let (selected, s) := s.selectCandidateInternal E
  if selected then s.putOutput E else s.doNothing E

def highlightCandidate (s : Exec K V H) : Bool × Exec K V H :=
  let (selected, s) := s.selectCandidateInternal E
  if selected then (true, (s.setCandidateListVisible true).putOutput E) else (false, s)

def commitCandidate (s : Exec K V H) : Bool × Exec K V H :=
  if s.state ≠ .composition ∧ s.state ≠ .conversion ∧ s.state ≠ .precomposition then (false, s)
  else
    match s.commandId with
    | none => (false, s)
    | some id =>
      if !s.converter.isActive then (false, s)
      else
        let s := (s.setConsumed true).pushUndoContext
        if s.state = .conversion then
          let s := s.editConverter (E.converterOps.candidateMoveToId id s.composer)
          (true, (s.commitHeadToFocusedSegmentsInternal E).finishCommit E)
        else
          let ((committed, size), s) := s.callConverter fun engine =>
            let (committed, size, engine) :=
              E.converterOps.commitSuggestionById id s.composer s.input.clientContext engine
            ((committed, size), engine)
          if committed ∧ size < s.composer.getLength E.composerOps then
            -- Part of the text has been committed; the undo context stays.
            let s := s.editComposer (·.deleteRange E.composerOps 0 size)
            (true, (s.moveCursorToEndInternal E false).keepOutputForUndo)
          else (true, s.finishCommit E)

def maybeSelectCandidate (s : Exec K V H) : Bool × Exec K V H :=
  if s.state ≠ .conversion ∨ !E.request.defaultRomanjiTable then (false, s)
  else
    let shortcut := (E.util.normalizeModifiers s.input.keyEvent).code % 256
    s.callConverter (E.converterOps.candidateMoveToShortcut shortcut)

/-! On, off and back. -/

def imeOn (s : Exec K V H) : Exec K V H :=
  let s := (s.setConsumed true).clearUndoContext.setState E .precomposition
  let s :=
    match s.input.key.bind (·.mode) with
    | some mode => s.editComposer (·.applyCompositionMode mode)
    | none => s
  s.outputMode

def turnOff (s : Exec K V H) : Exec K V H :=
  ((s.clearUndoContext.commit E).editConverter E.converterOps.reset).setState E .direct

def imeOff (s : Exec K V H) : Exec K V H :=
  let s := s.confirmPendingDirectCommitLearning.confirmPendingZenzFeedback E
  ((s.setConsumed true).turnOff E).outputMode

/-- The composition mode that the command carries. -/
def commandCompositionMode (s : Exec K V H) : Option CompositionMode :=
  s.input.command.bind (·.compositionMode)

def applyCommandCompositionMode (s : Exec K V H) : Exec K V H :=
  match s.commandCompositionMode with
  | some mode => s.editComposer (·.applyCompositionMode mode)
  | none => s

def makeSureIMEOn (s : Exec K V H) : Bool × Exec K V H :=
  if s.commandCompositionMode = some .direct then (false, s)
  else
    let s := s.setConsumed true
    let s := if s.state = .direct then s.clearUndoContext.setState E .precomposition else s
    (true, s.applyCommandCompositionMode.outputMode)

def makeSureIMEOff (s : Exec K V H) : Bool × Exec K V H :=
  let s := s.confirmPendingDirectCommitLearning.confirmPendingZenzFeedback E
  if s.commandCompositionMode = some .direct then (false, s)
  else
    let s := s.setConsumed true
    let s := if s.state ≠ .direct then s.turnOff E else s
    (true, s.applyCommandCompositionMode.outputMode)

/-- What a handler that discards the text begins with. -/
def discardPending (s : Exec K V H) : Exec K V H :=
  (s.discardPendingDirectCommitLearning E).discardPendingZenzFeedback

def revert (s : Exec K V H) : Exec K V H :=
  let s := (s.discardPending E).clearPendingRerankedPreeditCommitAfterConvertCancel
  if s.state = .precomposition then
    (s.editConverter E.converterOps.revert).echoBackAndClearUndoContext E
  else if s.state ≠ .composition ∧ s.state ≠ .conversion then s.doNothing E
  else
    let s := (s.setConsumed true).clearUndoContext.setStateToPrecompositionAndCancel E
    s.clearLiveConversionState.putOutput E

def resetContext (s : Exec K V H) : Exec K V H :=
  let s := (s.discardPending E).clearPendingRerankedPreeditCommitAfterConvertCancel
  if s.state = .precomposition then
    (s.editConverter E.converterOps.reset).echoBackAndClearUndoContext E
  else
    let s := (s.setConsumed true).clearUndoContext.editConverter E.converterOps.reset
    (s.setStateToPrecompositionAndCancel E).clearLiveConversionState.putOutput E

def tryCancelConvertReverse (s : Exec K V H) : Exec K V H :=
  if s.composer.sourceText = [] then s else s.commitSourceTextDirectly E

def editCancelOnPasswordField (s : Exec K V H) : Bool × Exec K V H :=
  if s.composer.inputFieldType ≠ .password then (false, s)
  else
    let s :=
      if s.composer.sourceText = [] then s.commitCompositionDirectly E
      else s.commitSourceTextDirectly E
    (true, s.setConsumed false)

def editCancel (s : Exec K V H) : Exec K V H :=
  let s := (s.discardPending E).clearPendingRerankedPreeditCommitAfterConvertCancel
  let (cancelled, s) := s.editCancelOnPasswordField E
  if cancelled then s
  else
    let s := (s.setConsumed true).tryCancelConvertReverse E
    (s.setStateToPrecompositionAndCancel E).clearLiveConversionState.putOutput E

def editCancelAndIMEOff (s : Exec K V H) : Exec K V H :=
  let s := (s.discardPending E).clearPendingRerankedPreeditCommitAfterConvertCancel
  let (cancelled, s) := s.editCancelOnPasswordField E
  if cancelled then s
  else if s.state ≠ .precomposition ∧ s.state ≠ .composition ∧ s.state ≠ .conversion then
    s.doNothing E
  else
    let s := ((s.setConsumed true).tryCancelConvertReverse E).clearUndoContext
    let s := (s.editConverter E.converterOps.reset).setState E .direct
    s.clearLiveConversionState.putOutput E

/-! Undo and reverse conversion. -/

def requestUndo (s : Exec K V H) : Exec K V H :=
  let s := s.discardPending E
  if s.state ≠ .precomposition ∧ s.state ≠ .conversion ∧ s.state ≠ .composition then s.doNothing E
  else if s.state = .precomposition ∧ !s.hasUndoContext then s.echoBack E
  else ((s.setConsumed true).putOutput E).putCallback .undo

def undo (s : Exec K V H) : Exec K V H :=
  let s := (s.discardPending E).clearPendingRerankedPreeditCommitAfterConvertCancel
  if s.state ≠ .precomposition ∧ s.state ≠ .conversion ∧ s.state ≠ .composition then s.doNothing E
  else
    let s := s.setConsumed true
    if !s.hasUndoContext then s.doNothing E
    else
      let s := s.editConverter E.converterOps.revert
      if s.context.output.result.isSome ∧ !s.context.clientCapability.deletePrecedingText then
        s.doNothing E
      else
        let result := s.context.output.result.getD {}
        let size := (result.value.getD []).length
        let s := s.popUndoContext
        let s :=
          if size > 0 then
            s.editOutput fun output =>
              { output with
                deletionRange :=
                  some { offset := -((size : Int) + result.cursorOffset), length := size } }
          else s
        s.putOutput E

def undoOrRewind (s : Exec K V H) : Exec K V H :=
  if s.hasUndoContext then s.undo E
  else if s.state ≠ .composition then s.echoBack E
  else
    let s := (s.setConsumed true).editComposer E.composerOps.rewind
    s.clearUndoContext.suggestAndOutput E

def stopKeyToggling (s : Exec K V H) : Exec K V H :=
  if s.state ≠ .composition then s.doNothing E
  else
    let s := (s.setConsumed true).editComposer E.composerOps.stopKeyToggling
    s.clearUndoContext.putOutput E

def requestConvertReverse (s : Exec K V H) : Exec K V H :=
  if s.state ≠ .precomposition ∧ s.state ≠ .direct then s.doNothing E
  else ((s.setConsumed true).putOutput E).putCallback .convertReverse

def convertReverse (s : Exec K V H) : Bool × Exec K V H :=
  if s.state ≠ .precomposition ∧ s.state ≠ .direct then (true, s.doNothing E)
  else
    let composition := (s.input.command.map (·.text)).getD []
    if !E.textOps.isAcceptableForReverseConversion composition then (true, s.doNothing E)
    else
      match E.converterOps.getReadingText composition (s.converter, s.history) with
      | none => (true, s.doNothing E)
      | some reading =>
        let s := (s.editComposer (·.reset E.composerOps)).clearUndoContext
        let s := s.editComposer fun composer =>
          { (E.composerOps.insertCharacterPreedit reading composer) with sourceText := composition }
        let (converted, s) := s.callConverter
          (E.converterOps.convertWithPreferences s.converter.conversionPreferences s.composer)
        if !converted then (false, s)
        else
          let s := (s.setConsumed true).setState E .conversion
          (true, (s.setCandidateListVisible true).putOutput E)

def updateComposition (s : Exec K V H) : Bool × Exec K V H :=
  match s.state with
  | .direct => (true, s.echoBackAndClearUndoContext E)
  | .precomposition | .composition =>
    let events := (s.input.command.map (·.compositionEvents)).getD []
    let s := (s.setConsumed true).editComposer fun composer =>
      (composer.reset E.composerOps).setCompositionsForHandwriting E.composerOps events
    (true, (s.clearUndoContext.setState E .composition).suggestAndOutput E)
  | .conversion | .none => (false, s)

end Exec

end Mozkey.Session
