import Mozkey.Session.Session

/-! The part of a session that a live conversion is about, and the functions that leave it alone:
the output, the undo contexts, what is learnt and what the converter does. -/

namespace Mozkey.Session

/-- The text with the state it is in, the live conversion that is active or pending, and the Zenz
correction that is pending. -/
structure LiveView (K : Type) where
  state : State
  chunks : K
  inputFieldType : InputFieldType
  active : Bool
  pending : Bool
  generation : UInt32
  pendingGeneration : UInt32
  pendingKey : Text
  key : Text
  value : Text
  lastScheduled : Option (UInt32 × Text)
  zenzGeneration : UInt32
  pendingZenz : PendingZenzLiveCorrection
  corrector : Option ZenzLiveCorrector

variable {K V H A : Type}

set_option linter.dupNamespace false in
def Session.live (s : Session K V H) : LiveView K :=
  { state := s.context.state
    chunks := s.context.composer.chunks
    inputFieldType := s.context.composer.inputFieldType
    active := s.liveConversionActive
    pending := s.liveConversionPending
    generation := s.liveConversionGeneration
    pendingGeneration := s.pendingLiveConversionGeneration
    pendingKey := s.pendingLiveConversionKey
    key := s.liveConversionKey
    value := s.liveConversionValue
    lastScheduled := s.lastScheduled
    zenzGeneration := s.zenzLiveGeneration
    pendingZenz := s.pendingZenzLive
    corrector := s.zenzLiveCorrector }

namespace Exec

def live (s : Exec K V H) : LiveView K := s.toSession.live

theorem live_state {s : Exec K V H} : s.live.state = s.state := rfl

section Primitives

variable {E : Env K V H} {s : Exec K V H}

@[simp] theorem editOutput_live (f : Output → Output) : (s.editOutput f).live = s.live := rfl

@[simp] theorem setConsumed_live (consumed : Bool) : (s.setConsumed consumed).live = s.live := rfl

@[simp] theorem editKey_live (f : KeyEvent → KeyEvent) : (s.editKey f).live = s.live := rfl

@[simp] theorem callConverter_live (f : Engine V H → A × Engine V H) :
    (s.callConverter f).2.live = s.live := rfl

@[simp] theorem editConverter_live (f : Engine V H → Engine V H) :
    (s.editConverter f).live = s.live := rfl

@[simp] theorem setCandidateListVisible_live (visible : Bool) :
    (s.setCandidateListVisible visible).live = s.live := rfl

@[simp] theorem keepOutputForUndo_live : s.keepOutputForUndo.live = s.live := rfl

@[simp] theorem pushUndoContext_live : s.pushUndoContext.live = s.live := rfl

@[simp] theorem clearUndoContext_live : s.clearUndoContext.live = s.live := rfl

theorem editComposer_live (f : Composer K → Composer K) :
    (s.editComposer f).live =
      { s.live with
        chunks := (f s.composer).chunks, inputFieldType := (f s.composer).inputFieldType } := rfl

theorem editComposer_live_eq {f : Composer K → Composer K}
    (hchunks : (f s.composer).chunks = s.composer.chunks)
    (hfield : (f s.composer).inputFieldType = s.composer.inputFieldType) :
    (s.editComposer f).live = s.live := by
  rw [editComposer_live, hchunks, hfield]
  rfl

@[simp] theorem outputMode_live : s.outputMode.live = s.live := rfl

@[simp] theorem popOutput_live : (s.popOutput E).live = s.live := rfl

@[simp] theorem putOutput_live : (s.putOutput E).live = s.live := rfl

@[simp] theorem outputFromState_live : (s.outputFromState E).live = s.live := by
  unfold outputFromState
  split <;> simp

@[simp] theorem outputComposition_live : (s.outputComposition E).live = s.live := rfl

@[simp] theorem outputKey_live : s.outputKey.live = s.live := rfl

@[simp] theorem putCallback_live (type : CommandType) : (s.putCallback type).live = s.live := rfl

@[simp] theorem suggest_live : (s.suggest E).2.live = s.live := by
  unfold suggest
  split <;> simp

@[simp] theorem suggestAndOutput_live : (s.suggestAndOutput E).live = s.live := by
  dsimp only [suggestAndOutput]
  split <;> simp

@[simp] theorem suggestZeroQuery_live : (s.suggestZeroQuery E).live = s.live := by
  unfold suggestZeroQuery
  split <;> simp

end Primitives

section Learning

variable {E : Env K V H} {s : Exec K V H}

@[simp] theorem confirmPendingDirectCommitLearning_live :
    s.confirmPendingDirectCommitLearning.live = s.live := by
  unfold confirmPendingDirectCommitLearning
  split <;> rfl

@[simp] theorem discardPendingDirectCommitLearning_live :
    (s.discardPendingDirectCommitLearning E).live = s.live := by
  unfold discardPendingDirectCommitLearning
  split
  · split <;> rfl
  · rfl

@[simp] theorem handlePendingDirectCommitLearningForKeyEvent_live (key : KeyEvent) :
    (s.handlePendingDirectCommitLearningForKeyEvent E key).live = s.live := by
  unfold handlePendingDirectCommitLearningForKeyEvent
  split_ifs <;> simp

@[simp] theorem setPendingDirectCommitLearning_live (key value reason : Text) :
    (s.setPendingDirectCommitLearning key value reason).live = s.live := by
  unfold setPendingDirectCommitLearning
  split_ifs <;> rfl

@[simp] theorem setPendingDirectCommitLearningFromCommittedResult_live (reason : Text) :
    (s.setPendingDirectCommitLearningFromCommittedResult reason).live = s.live := by
  unfold setPendingDirectCommitLearningFromCommittedResult
  split <;> simp

@[simp] theorem discardPendingZenzFeedback_live : s.discardPendingZenzFeedback.live = s.live := by
  unfold discardPendingZenzFeedback
  split <;> rfl

@[simp] theorem maybeLearnZenzCandidateToMozcHistory_live (key value : Text) :
    (s.maybeLearnZenzCandidateToMozcHistory E key value).live = s.live := by
  unfold maybeLearnZenzCandidateToMozcHistory
  split <;> simp

@[simp] theorem confirmPendingZenzFeedback_live :
    (s.confirmPendingZenzFeedback E).live = s.live := by
  dsimp only [confirmPendingZenzFeedback]
  split_ifs
  · rfl
  · rfl
  · split
    · exact maybeLearnZenzCandidateToMozcHistory_live ..
    · rfl
    · rfl

@[simp] theorem handlePendingZenzFeedbackForKeyEvent_live :
    (s.handlePendingZenzFeedbackForKeyEvent E).live = s.live := by
  unfold handlePendingZenzFeedbackForKeyEvent
  split <;> simp

@[simp] theorem handlePendingForSessionCommand_live (type : CommandType) :
    (s.handlePendingForSessionCommand E type).live = s.live := by
  unfold handlePendingForSessionCommand
  split <;> simp

@[simp] theorem clearPendingRerankedPreeditCommitAfterConvertCancel_live :
    s.clearPendingRerankedPreeditCommitAfterConvertCancel.live = s.live := rfl

@[simp] theorem maybeSetPendingRerankedPreeditCommitAfterConvertCancel_live :
    (s.maybeSetPendingRerankedPreeditCommitAfterConvertCancel E).live = s.live := by
  dsimp only [maybeSetPendingRerankedPreeditCommitAfterConvertCancel]
  split <;> rfl

@[simp] theorem commitPendingRerankedPreedit_live (composer : Composer K) (reason : Text) :
    (s.commitPendingRerankedPreeditAfterConvertCancelForDirectCommit E composer reason).2.live =
      s.live := by
  dsimp only [commitPendingRerankedPreeditAfterConvertCancelForDirectCommit]
  split_ifs <;> simp

@[simp] theorem setPendingZenzFeedbackAccepted_live (key contextClass value : Text) :
    (s.setPendingZenzFeedbackAccepted E key contextClass value).live = s.live := by
  unfold setPendingZenzFeedbackAccepted
  split <;> rfl

@[simp] theorem setPendingZenzFeedbackRejected_live (reason : Text) :
    (s.setPendingZenzFeedbackRejected E reason).live = s.live := by
  unfold setPendingZenzFeedbackRejected
  split <;> rfl

end Learning

section Shown

/-! What is shown of a live conversion. -/

variable {E : Env K V H} {s : Exec K V H}

@[simp] theorem restorePreeditKeys_live (source : Text) :
    (s.restorePreeditKeys E source).live = s.live := rfl

@[simp] theorem attachCachedLiveConversionSuggestionCandidateWindow_live :
    s.attachCachedLiveConversionSuggestionCandidateWindow.live = s.live := rfl

@[simp] theorem outputPendingLiveConversion_live :
    (s.outputPendingLiveConversion E).2.live = s.live := by
  dsimp only [outputPendingLiveConversion]
  split_ifs <;> simp

@[simp] theorem outputLiveConversion_live (zenzPending : Bool) :
    (s.outputLiveConversion E zenzPending).live = s.live := rfl

@[simp] theorem ignoreStaleDelayedLiveConversion_live :
    (s.ignoreStaleDelayedLiveConversion E).live = s.live := by
  dsimp only [ignoreStaleDelayedLiveConversion]
  split_ifs <;> simp

@[simp] theorem outputZenzLiveCorrection_live (value : Text) :
    (s.outputZenzLiveCorrection value).live = s.live := rfl

@[simp] theorem attachZenzLiveCorrectionCallback_live (delayMillisec : Nat) :
    (s.attachZenzLiveCorrectionCallback delayMillisec).live = s.live := rfl

@[simp] theorem attachZenzLiveCorrectionStartCallback_live :
    (s.attachZenzLiveCorrectionStartCallback E).live = s.live := rfl

@[simp] theorem attachZenzLiveCorrectionPollCallback_live :
    s.attachZenzLiveCorrectionPollCallback.live = s.live := rfl

@[simp] theorem setZenzLiveCorrectionDebug_live (debug : Text) :
    (s.setZenzLiveCorrectionDebug debug).live = s.live := rfl

@[simp] theorem outputCurrentLiveConversionWithZenzPending_live :
    (s.outputCurrentLiveConversionWithZenzPending E).live = s.live := by
  dsimp only [outputCurrentLiveConversionWithZenzPending]
  split <;> simp

@[simp] theorem outputCurrentLiveConversionAfterZenzStop_live (debug : Text) :
    (s.outputCurrentLiveConversionAfterZenzStop E debug).live = s.live := by
  dsimp only [outputCurrentLiveConversionAfterZenzStop]
  split <;> simp

@[simp] theorem attachLiveConversionSuggestionCandidateWindow_live (input : Input) :
    (s.attachLiveConversionSuggestionCandidateWindow E input).2.live = s.live := by
  dsimp only [attachLiveConversionSuggestionCandidateWindow]
  split_ifs <;> rfl

@[simp] theorem attachDelayedLiveConversionCallback_live :
    (s.attachDelayedLiveConversionCallback E).live = s.live := rfl

end Shown

section Handlers

/-! Handlers that do no more than answer. -/

variable {E : Env K V H} {s : Exec K V H}

@[simp] theorem echoBack_live : (s.echoBack E).live = s.live := rfl

@[simp] theorem echoBackAndClearUndoContext_live :
    (s.echoBackAndClearUndoContext E).live = s.live := by
  dsimp only [echoBackAndClearUndoContext]
  split_ifs <;> simp

@[simp] theorem doNothing_live : (s.doNothing E).live = s.live := by
  dsimp only [doNothing]
  split_ifs <;> simp

@[simp] theorem discardPending_live : (s.discardPending E).live = s.live := by
  simp [discardPending]

@[simp] theorem maybeSelectCandidate_live : (s.maybeSelectCandidate E).2.live = s.live := by
  unfold maybeSelectCandidate
  split <;> simp

@[simp] theorem requestUndo_live : (s.requestUndo E).live = s.live := by
  dsimp only [requestUndo]
  split_ifs <;> simp

@[simp] theorem requestConvertReverse_live : (s.requestConvertReverse E).live = s.live := by
  unfold requestConvertReverse
  split <;> simp

@[simp] theorem applyCommandCompositionMode_live :
    s.applyCommandCompositionMode.live = s.live := by
  unfold applyCommandCompositionMode
  split
  · exact editComposer_live_eq (by simp) (by simp)
  · rfl

@[simp] theorem replaceKeyBySpace_live (keyString : Text) :
    (s.replaceKeyBySpace keyString).live = s.live := rfl

@[simp] theorem segmentFocus_live (move : Engine V H → Engine V H) :
    (s.segmentFocus E move).live = s.live := by
  unfold segmentFocus
  split <;> simp

@[simp] theorem convertNext_live : (s.convertNext E).live = s.live := rfl

@[simp] theorem convertPrev_live : (s.convertPrev E).live = s.live := rfl

@[simp] theorem compositionModeSwitchKanaType_live :
    (s.compositionModeSwitchKanaType E).live = s.live := by
  unfold compositionModeSwitchKanaType
  split
  · simp
  · rw [outputFromState_live, editComposer_live_eq (by simp) (by simp), setConsumed_live]

@[simp] theorem toggleAlphanumericMode_live : (s.toggleAlphanumericMode E).live = s.live := by
  unfold toggleAlphanumericMode
  rw [outputFromState_live, editComposer_live_eq (by simp) (by simp), setConsumed_live]

@[simp] theorem launchTool_live (mode : ToolMode) : (s.launchTool E mode).live = s.live := by
  simp [launchTool]

@[simp] theorem imeAction_live : (s.imeAction E).2.live = s.live := by
  unfold imeAction
  split <;> simp

@[simp] theorem finishSequence_live (accumulated : Accumulated) :
    (s.finishSequence E accumulated).live = s.live := by
  unfold finishSequence
  split <;> simp

@[simp] theorem updateClientContext_live : s.updateClientContext.live = s.live := rfl

@[simp] theorem updateTime_live : s.updateTime.live = s.live := rfl

@[simp] theorem updatePreferences_live : s.updatePreferences.live = s.live := rfl

@[simp] theorem transformInput_live : (s.transformInput E).live = s.live := rfl

@[simp] theorem maybeSetUndoStatus_live : s.maybeSetUndoStatus.live = s.live := by
  unfold maybeSetUndoStatus
  split <;> rfl

@[simp] theorem requestNwp_live : (s.requestNwp E).2.live = s.live := by
  dsimp only [requestNwp]
  split <;> simp

end Handlers

end Exec

end Mozkey.Session
