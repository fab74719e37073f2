import Mozkey.Session.FeedbackEditing

/-! The pending Zenz feedback of a session over whole runs: what is written to the store has been set
by one call, and is written once. -/

namespace Mozkey.Session

variable {K V H A : Type}

namespace Exec

open FeedbackView

variable {E : Env K V H} {s : Exec K V (H × FeedbackLog)}

section Commands

theorem executeDirectInputCommand_steps (command : DirectInputCommand) :
    Steps s.feedback (s.executeDirectInputCommand E.logged command).2.feedback := by
  cases command
  case none => exact echoBackAndClearUndoContext_steps
  case imeOn => exact .of_eq imeOn_feedback
  case reconvert => exact .of_eq requestConvertReverse_feedback
  all_goals exact .of_eq (compositionMode_feedback _)

theorem executePrecompositionCommand_steps (command : PrecompositionCommand) :
    Steps s.feedback (s.executePrecompositionCommand E.logged command).2.feedback := by
  cases command
  case insertCharacter => exact insertCharacter_steps
  case insertSpace => exact insertSpace_steps
  case insertAlternateSpace => exact insertSpaceToggled_steps
  case insertHalfSpace => exact insertSpaceHalfWidth_steps
  case insertFullSpace => exact insertSpaceFullWidth_steps
  case toggleAlphanumericMode => exact .of_eq toggleAlphanumericMode_feedback
  case revert => exact .of_discard revert_feedback
  case undo => exact .of_discard requestUndo_feedback
  case imeOff => exact imeOff_steps
  case imeOn => exact .of_eq doNothing_feedback
  case compositionModeSwitchKanaType => exact .of_eq compositionModeSwitchKanaType_feedback
  case cancel => exact .of_discard editCancel_feedback
  case cancelAndImeOff => exact .of_discard editCancelAndIMEOff_feedback
  case commitFirstSuggestion => exact .of_eq commitFirstSuggestion_feedback
  case predictAndConvert => exact .of_eq predictAndConvert_feedback
  case none =>
    dsimp only [executePrecompositionCommand]
    split
    · exact .of_discard revert_feedback
    · exact echoBackAndClearUndoContext_steps
  case reconvert => exact .of_eq requestConvertReverse_feedback
  case reconvertSelectionOrInsertSpace => exact requestReconvertSelectionOrInsertSpace_steps
  case imeAction => exact .of_eq imeAction_feedback
  case compositionModeHiragana | compositionModeFullKatakana | compositionModeHalfKatakana
    | compositionModeFullAlphanumeric | compositionModeHalfAlphanumeric =>
    exact .of_eq (compositionMode_feedback _)
  case launchConfigDialog | launchDictionaryTool | launchWordRegisterDialog =>
    exact .of_eq (launchTool_feedback _)

theorem executeCompositionCommand_steps (command : CompositionCommand) :
    Steps s.feedback (s.executeCompositionCommand E.logged command).2.feedback := by
  cases command
  case insertCharacter => exact insertCharacter_steps
  case commit => exact commit_feedback_steps
  case commitFirstSuggestion => exact .of_eq commitFirstSuggestion_feedback
  case convert => exact convert_feedback_steps
  case convertWithoutHistory => exact .of_eq convertWithoutHistory_feedback
  case predictAndConvert => exact .of_eq predictAndConvert_feedback
  case del => exact .of_discard delete_feedback
  case backspace => exact .of_discard backspace_feedback
  case insertSpace => exact insertSpace_steps
  case insertAlternateSpace => exact insertSpaceToggled_steps
  case insertHalfSpace => exact insertSpaceHalfWidth_steps
  case insertFullSpace => exact insertSpaceFullWidth_steps
  case moveCursorLeft => exact .of_eq moveCursorLeft_feedback
  case moveCursorRight => exact moveCursorRight_feedback_steps
  case moveCursorToBeginning => exact .of_eq moveCursorToBeginning_feedback
  case moveMoveCursorToEnd => exact .of_eq moveCursorToEnd_feedback
  case cancel => exact .of_discard editCancel_feedback
  case cancelAndImeOff => exact .of_discard editCancelAndIMEOff_feedback
  case undo => exact .of_discard requestUndo_feedback
  case imeOff => exact imeOff_steps
  case imeOn => exact .of_eq doNothing_feedback
  case convertToHalfWidth => exact .of_eq convertToHalfWidth_feedback
  case switchKanaType => exact .of_eq switchKanaType_feedback
  case toggleAlphanumericMode => exact .of_eq toggleAlphanumericMode_feedback
  case none => exact .of_eq doNothing_feedback
  case convertToHiragana | convertToFullKatakana | convertToHalfKatakana
    | convertToFullAlphanumeric | convertToHalfAlphanumeric =>
    exact .of_eq (convertToTransliteration_feedback _)
  case compositionModeHiragana | compositionModeFullKatakana | compositionModeHalfKatakana
    | compositionModeFullAlphanumeric | compositionModeHalfAlphanumeric =>
    exact .of_eq (compositionMode_feedback _)
  case displayAsHiragana | displayAsFullKatakana | displayAsHalfKatakana | translateFullAscii
    | translateHalfAscii =>
    exact .of_eq (displayAs_feedback (fun _ => convertToTransliteration_feedback _) _)
  case translateHalfWidth =>
    exact .of_eq (displayAs_feedback (fun _ => convertToHalfWidth_feedback) _)

theorem executeConversionCommand_steps (command : ConversionCommand) :
    Steps s.feedback (s.executeConversionCommand E.logged command).2.feedback := by
  cases command
  case insertCharacter => exact insertCharacter_steps
  case insertSpace => exact insertSpace_steps
  case insertAlternateSpace => exact insertSpaceToggled_steps
  case insertHalfSpace => exact insertSpaceHalfWidth_steps
  case insertFullSpace => exact insertSpaceFullWidth_steps
  case commit => exact commit_feedback_steps
  case commitSegment => exact .of_eq commitSegment_feedback
  case convertNext => exact .of_eq convertNext_feedback
  case convertPrev => exact .of_eq convertPrev_feedback
  case predictAndConvert => exact .of_eq predictAndConvert_feedback
  case cancel => exact .of_discard convertCancel_feedback
  case cancelAndImeOff => exact .of_discard editCancelAndIMEOff_feedback
  case undo => exact .of_discard requestUndo_feedback
  case imeOff => exact imeOff_steps
  case imeOn => exact .of_eq doNothing_feedback
  case convertToHalfWidth => exact .of_eq convertToHalfWidth_feedback
  case switchKanaType => exact .of_eq switchKanaType_feedback
  case toggleAlphanumericMode => exact .of_eq toggleAlphanumericMode_feedback
  case reportBug => exact .of_eq doNothing_feedback
  case deleteSelectedCandidate => exact deleteCandidateFromHistory_steps
  case none => exact .of_eq doNothing_feedback
  case convertNextPage | convertPrevPage | segmentFocusLeft | segmentFocusRight | segmentFocusFirst
    | segmentFocusLast | segmentWidthExpand | segmentWidthShrink =>
    exact .of_eq (segmentFocus_feedback fun _ => rfl)
  case convertToHiragana | convertToFullKatakana | convertToHalfKatakana
    | convertToFullAlphanumeric | convertToHalfAlphanumeric =>
    exact .of_eq (convertToTransliteration_feedback _)
  case compositionModeHiragana | compositionModeFullKatakana | compositionModeHalfKatakana
    | compositionModeFullAlphanumeric | compositionModeHalfAlphanumeric =>
    exact .of_eq (compositionMode_feedback _)
  case displayAsHiragana | displayAsFullKatakana | displayAsHalfKatakana | translateFullAscii
    | translateHalfAscii =>
    exact .of_eq (displayAs_feedback (fun _ => convertToTransliteration_feedback _) _)
  case translateHalfWidth =>
    exact .of_eq (displayAs_feedback (fun _ => convertToHalfWidth_feedback) _)

theorem executeCommandName_steps (name : CommandName) :
    Steps s.feedback (s.executeCommandName E.logged name).2.feedback := by
  unfold executeCommandName
  split
  · split
    · exact .refl _
    · exact executeDirectInputCommand_steps _
  · split
    · exact .refl _
    · exact executePrecompositionCommand_steps _
  · split
    · exact .refl _
    · exact executeCompositionCommand_steps _
  · split
    · exact .refl _
    · exact executeConversionCommand_steps _
  · exact .refl _

@[simp] theorem finishSequence_feedback (accumulated : Accumulated) :
    (s.finishSequence E.logged accumulated).feedback = s.feedback := by
  unfold finishSequence
  split <;> simp

theorem executeCommandSequenceFrom_steps (sequence : CommandSequence) (accumulated : Accumulated) :
    Steps s.feedback (s.executeCommandSequenceFrom E.logged sequence accumulated).feedback := by
  induction sequence generalizing accumulated s with
  | nil => exact .of_eq (finishSequence_feedback accumulated)
  | cons name names ih =>
    have hname := executeCommandName_steps (E := E) (s := s.editOutput fun _ => {}) name
    rw [editOutput_feedback] at hname
    dsimp only [executeCommandSequenceFrom]
    split
    · rw [finishSequence_feedback]
      exact hname
    · exact hname.trans (ih _)

theorem executeCommandSequence_steps (sequence : CommandSequence) :
    Steps s.feedback (s.executeCommandSequence E.logged sequence).feedback :=
  executeCommandSequenceFrom_steps sequence none

end Commands

section Keys

theorem sendKeyDirectInputState_steps :
    Steps s.feedback (s.sendKeyDirectInputState E.logged).feedback := by
  unfold sendKeyDirectInputState
  split
  · exact echoBackAndClearUndoContext_steps
  · exact executeCommandSequence_steps _

theorem sendUnboundKey_steps : Steps s.feedback (s.sendUnboundKey E.logged).feedback := by
  dsimp only [sendUnboundKey]
  split_ifs
  · exact .of_discard revert_feedback
  · rw [← discardPendingDirectCommitLearning_feedback (E := E) (s := s)]
    exact echoBackAndClearUndoContext_steps
  · exact echoBackAndClearUndoContext_steps

theorem sendKeyPrecompositionState_steps :
    Steps s.feedback (s.sendKeyPrecompositionState E.logged).feedback := by
  unfold sendKeyPrecompositionState
  split
  · exact sendUnboundKey_steps
  · exact executeCommandSequence_steps (s := s.updateClientContext) _

theorem sendKeyCompositionState_steps :
    Steps s.feedback (s.sendKeyCompositionState E.logged).feedback := by
  dsimp only [sendKeyCompositionState]
  split
  · exact .of_eq doNothing_feedback
  · exact executeCommandSequence_steps _

theorem promoteLiveConversion_steps (command : ConversionCommand) :
    Steps s.feedback (s.promoteLiveConversion E.logged command).feedback := by
  dsimp only [promoteLiveConversion]
  have hstop : ∀ t : Exec K V (H × FeedbackLog),
      ({ t with liveConversionActive := false } : Exec K V (H × FeedbackLog)).feedback =
        t.feedback := fun _ => rfl
  split_ifs
  · exact .refl _
  all_goals rw [setCandidateListVisible_feedback, hstop]
  · exact .refl _
  · rw [clearZenzLiveCorrectionState_feedback]
    exact .of_discard discardPendingZenzFeedback_feedback
  · rw [clearZenzLiveCorrectionState_feedback]
    exact setPendingZenzFeedbackRejected_steps _
  · rw [clearZenzLiveCorrectionState_feedback]
    exact .refl _

theorem sendKeyLiveConversion_steps (command : ConversionCommand) (first : CommandName)
    (rest : CommandSequence) :
    Steps s.feedback (s.sendKeyLiveConversion E.logged command first rest).feedback := by
  dsimp only [sendKeyLiveConversion]
  split
  · refine Steps.trans ?_ (.of_discard backspace_feedback)
    rw [clearZenzLiveCorrectionState_feedback]
    exact .of_discard discardPendingZenzFeedback_feedback
  split
  · split
    · exact commitZenzLiveCorrectionResult_steps'
    · exact commitZenzLiveCorrectionResult_steps'.trans (executeCommandSequenceFrom_steps ..)
  split
  · exact revertZenzLiveCorrectionToNormalConversion_steps
  split
  · split
    · exact predictAndConvertFromLiveConversion_steps
    · exact predictAndConvertFromLiveConversion_steps.trans (executeCommandSequenceFrom_steps ..)
  · exact (promoteLiveConversion_steps command).trans (executeCommandSequence_steps _)

theorem sendKeyConversionState_steps :
    Steps s.feedback (s.sendKeyConversionState E.logged).feedback := by
  unfold sendKeyConversionState
  split
  · exact .of_eq doNothing_feedback
  · exact .of_eq doNothing_feedback
  · split
    · exact .of_eq doNothing_feedback
    · split
      · exact sendKeyLiveConversion_steps ..
      · exact executeCommandSequence_steps _

theorem handleIndirectImeOnOff_steps :
    Steps s.feedback (s.handleIndirectImeOnOff E.logged).feedback := by
  unfold handleIndirectImeOnOff
  split
  · split
    · exact .of_eq imeOn_feedback
    · exact .refl _
  · split
    · exact imeOff_steps
    · exact .refl _
  · exact .refl _

theorem sendKeyInState_steps : Steps s.feedback (s.sendKeyInState E.logged).feedback := by
  unfold sendKeyInState
  split
  · exact sendKeyDirectInputState_steps
  · exact sendKeyPrecompositionState_steps
  · exact sendKeyCompositionState_steps
  · exact sendKeyConversionState_steps
  · exact .refl _

@[simp] theorem leaveLiveConversion_feedback : s.leaveLiveConversion.feedback = s.feedback := by
  dsimp only [leaveLiveConversion]
  split <;> rfl

@[simp] theorem maybeSetUndoStatus_feedback : s.maybeSetUndoStatus.feedback = s.feedback := by
  unfold maybeSetUndoStatus
  split <;> rfl

theorem sendKey_steps : Steps s.feedback (s.sendKey E.logged).feedback := by
  dsimp only [sendKey]
  rw [maybeSetUndoStatus_feedback, leaveLiveConversion_feedback]
  have hindirect := handleIndirectImeOnOff_steps (E := E)
    (s := s.updateTime.updatePreferences.transformInput E.logged)
  exact hindirect.trans sendKeyInState_steps

end Keys

section ClientCommands

@[simp] theorem switchCompositionMode_feedback :
    (s.switchCompositionMode E.logged).2.feedback = s.feedback := by
  dsimp only [switchCompositionMode]
  split
  · rfl
  · rw [maybeSetUndoStatus_feedback]
    split
    · rfl
    all_goals exact compositionMode_feedback _

@[simp] theorem requestNwp_feedback : (s.requestNwp E.logged).2.feedback = s.feedback := by
  dsimp only [requestNwp]
  split <;> simp

theorem executeSessionCommand_steps (type : CommandType) :
    Steps s.feedback (s.executeSessionCommand E.logged type).2.feedback := by
  cases type
  case revert => exact .of_discard revert_feedback
  case submit => exact commit_feedback_steps
  case selectCandidate => exact .of_eq selectCandidate_feedback
  case submitCandidate => exact .of_eq commitCandidate_feedback
  case highlightCandidate => exact .of_eq highlightCandidate_feedback
  case getStatus => exact .of_eq outputMode_feedback
  case convertReverse => exact .of_eq convertReverse_feedback
  case undo => exact .of_discard undo_feedback
  case resetContext => exact .of_discard resetContext_feedback
  case moveCursor => exact .of_eq moveCursorTo_feedback
  case switchInputFieldType => exact .of_eq switchInputFieldType_feedback
  case undoOrRewind => exact undoOrRewind_steps
  case commitRawText => exact .of_eq commitRawText_feedback
  case turnOnIme => exact .of_eq makeSureIMEOn_feedback
  case turnOffIme => exact makeSureIMEOff_steps
  case deleteCandidateFromHistory => exact deleteCandidateFromHistory_steps
  case stopKeyToggling => exact .of_eq stopKeyToggling_feedback
  case updateComposition => exact updateComposition_steps
  case requestNwp => exact .of_eq requestNwp_feedback
  case applyLiveConversion => exact .of_eq applyDelayedLiveConversion_feedback
  case applyZenzLiveCorrection => exact .of_eq applyZenzLiveCorrection_feedback
  case switchCompositionMode => exact .of_eq switchCompositionMode_feedback
  case none => exact .of_eq doNothing_feedback
  case reconvertSelectionOrInsertSpace => exact .of_eq doNothing_feedback
  all_goals exact .of_eq (segmentFocus_feedback fun _ => rfl)

theorem sendCommand_steps : Steps s.feedback (s.sendCommand E.logged).2.feedback := by
  dsimp only [sendCommand]
  split
  · exact .refl _
  · rename_i command _
    have hhandle := handlePendingForSessionCommand_steps (E := E)
      (s := s.updateTime.updatePreferences.transformInput E.logged) command.type
    split
    · rw [switchCompositionMode_feedback]
      exact hhandle
    · rw [maybeSetUndoStatus_feedback, leaveLiveConversion_feedback]
      exact hhandle.trans (executeSessionCommand_steps _)

end ClientCommands

section Test

theorem testSpace_steps (echoes : Bool) :
    Steps s.feedback (s.testSpace E.logged echoes).feedback := by
  unfold testSpace
  split
  · exact echoBackAndClearUndoContext_steps
  · exact .of_eq doNothing_feedback

theorem testPrecompositionCommand_steps (command : PrecompositionCommand) :
    Steps s.feedback (s.testPrecompositionCommand E.logged command).feedback := by
  unfold testPrecompositionCommand
  split
  · exact sendUnboundKey_steps
  · exact .of_eq (by split <;> simp)
  · exact testSpace_steps _
  · exact testSpace_steps _
  · exact testSpace_steps _
  · exact testSpace_steps _
  · exact .of_eq doNothing_feedback
  · exact .of_discard revert_feedback
  · exact .of_eq (by split <;> simp)
  · exact .of_eq doNothing_feedback

theorem testSendKey_steps : Steps s.feedback (s.testSendKey E.logged).feedback := by
  have hstart : (s.updateTime.updatePreferences.transformInput E.logged).feedback = s.feedback :=
    rfl
  dsimp only [testSendKey]
  generalize s.updateTime.updatePreferences.transformInput E.logged = t at hstart ⊢
  rw [← hstart]
  split
  · exact .refl _
  · split
    · split <;> exact .of_eq (by simp)
    · split
      · exact sendUnboundKey_steps
      · exact testPrecompositionCommand_steps _
    · exact .of_eq doNothing_feedback

end Test

/-- What takes the text back: undo, revert, the reset of the context, backspace and escape, in each
state that has them, and where one of the two keys is given back. -/
def takesBack (E : Env K V (H × FeedbackLog)) (key : KeyEvent) :
    List (Exec K V (H × FeedbackLog) → Exec K V (H × FeedbackLog)) :=
  [(·.undo E), (·.requestUndo E), (·.revert E), (·.resetContext E), (·.backspace E), (·.delete E),
    (·.editCancel E), (·.editCancelAndIMEOff E), (·.convertCancel E)] ++
  if isPendingZenzFeedbackDiscardKey key then [(·.echoBackAndClearUndoContext E)] else []

theorem takesBack_feedback : ∀ handler ∈ takesBack E.logged s.input.keyEvent,
    (handler s).feedback = s.feedback.discard := by
  unfold takesBack
  split
  · rename_i hkey
    simp [echoBackAndClearUndoContext_feedback, hkey]
  · simp

end Exec

/-! Runs. -/

set_option linter.dupNamespace false

def Session.runLogged (session : Session K V (H × FeedbackLog))
    (calls : List (Env K V H × Call K V)) : Session K V (H × FeedbackLog) :=
  session.run (calls.map fun call => (call.1.logged, call.2))

def Session.feedback (session : Session K V (H × FeedbackLog)) : FeedbackView :=
  (session.exec {}).feedback

open FeedbackView

theorem Session.call_steps (E : Env K V H) (session : Session K V (H × FeedbackLog))
    (call : Call K V) : Steps session.feedback (session.call E.logged call).feedback := by
  cases call with
  | sendKey input => exact Exec.sendKey_steps (s := session.exec input)
  | testSendKey input => exact Exec.testSendKey_steps (s := session.exec input)
  | sendCommand input => exact Exec.sendCommand_steps (s := session.exec input)
  | configure context => exact .refl _

theorem Session.runLogged_steps (session : Session K V (H × FeedbackLog))
    (calls : List (Env K V H × Call K V)) :
    Steps session.feedback (session.runLogged calls).feedback := by
  induction calls generalizing session with
  | nil => exact .refl _
  | cons call calls ih => exact (session.call_steps call.1 call.2).trans (ih _)

/-- Over a run from a new session the log has, for each confirmation that writes, one record: that of
the call that set the slot, which is the event right before, so that it is written once and not
after a discard. What takes the text back empties the slot and writes nothing. -/
theorem Session.runLogged_feedback (composer : Composer K) (converter : EngineConverter V)
    (history : H) (calls : List (Env K V H × Call K V)) :
    let session := (Session.create composer converter (history, [])).runLogged calls
    session.history.2 = written session.feedbackEvents ∧
      Ordered session.feedbackEvents ∧
      session.pendingZenzFeedback = slotOf session.feedbackEvents ∧
      ∀ (E : Env K V H) (input : Input), ∀ handler ∈ Exec.takesBack E.logged input.keyEvent,
        (handler (session.exec input)).pendingZenzFeedback.pending = false ∧
          (handler (session.exec input)).history.2 = session.history.2 := by
  have hstart : (Session.create composer converter (history, [])).feedback.Explained :=
    ⟨rfl, rfl, fun newer _ _ h => by cases newer <;> cases h⟩
  have hrun := ((Session.create composer converter (history, [])).runLogged_steps calls).explained
    hstart
  generalize (Session.create composer converter (history, [])).runLogged calls = session
    at hrun ⊢
  refine ⟨hrun.log, hrun.ordered, hrun.slot, fun E input handler hmem => ?_⟩
  have hview := Exec.takesBack_feedback (s := session.exec input) handler hmem
  refine ⟨?_, ?_⟩
  · exact (congrArg (·.slot.pending) hview).trans discard_pending
  · exact (congrArg (·.log) hview).trans discard_log

end Mozkey.Session
