import Mozkey.Session.FeedbackLog

/-! The functions of a session that leave the pending Zenz feedback and the log of its store
alone. -/

namespace Mozkey.Session

variable {K V H A : Type}

namespace Exec

/-- What a session with a log has of the feedback. -/
def feedback (s : Exec K V (H × FeedbackLog)) : FeedbackView :=
  { slot := s.pendingZenzFeedback, events := s.feedbackEvents, log := s.history.2 }

variable {E : Env K V H} {s : Exec K V (H × FeedbackLog)}

theorem feedback_ite {c : Prop} [Decidable c] {t u : Exec K V (H × FeedbackLog)} {v : FeedbackView}
    (ht : t.feedback = v) (hu : u.feedback = v) : (if c then t else u).feedback = v := by
  split
  · exact ht
  · exact hu

section Primitives

@[simp] theorem editOutput_feedback (f : Output → Output) :
    (s.editOutput f).feedback = s.feedback := rfl

@[simp] theorem setConsumed_feedback (consumed : Bool) :
    (s.setConsumed consumed).feedback = s.feedback := rfl

@[simp] theorem editKey_feedback (f : KeyEvent → KeyEvent) :
    (s.editKey f).feedback = s.feedback := rfl

@[simp] theorem editComposer_feedback (f : Composer K → Composer K) :
    (s.editComposer f).feedback = s.feedback := rfl

@[simp] theorem callConverter_feedback
    {f : Engine V (H × FeedbackLog) → A × Engine V (H × FeedbackLog)}
    (h : ∀ engine, (f engine).2.2.2 = engine.2.2) :
    (s.callConverter f).2.feedback = s.feedback := by
  simp only [feedback, callConverter, h]

@[simp] theorem editConverter_feedback
    {f : Engine V (H × FeedbackLog) → Engine V (H × FeedbackLog)}
    (h : ∀ engine, (f engine).2.2 = engine.2.2) : (s.editConverter f).feedback = s.feedback :=
  callConverter_feedback h

@[simp] theorem setCandidateListVisible_feedback (visible : Bool) :
    (s.setCandidateListVisible visible).feedback = s.feedback := rfl

@[simp] theorem keepOutputForUndo_feedback : s.keepOutputForUndo.feedback = s.feedback := rfl

@[simp] theorem pushUndoContext_feedback : s.pushUndoContext.feedback = s.feedback := rfl

@[simp] theorem popUndoContext_feedback : s.popUndoContext.feedback = s.feedback := by
  unfold popUndoContext
  split <;> rfl

@[simp] theorem clearUndoContext_feedback : s.clearUndoContext.feedback = s.feedback := rfl

@[simp] theorem setState_feedback (state : State) :
    (s.setState E.logged state).feedback = s.feedback := by
  cases state with
  | composition =>
    dsimp only [setState]
    split
    · rw [editConverter_feedback (by simp)]
      rfl
    · rfl
  | _ => rfl

@[simp] theorem setStateToPrecompositionAndCancel_feedback :
    (s.setStateToPrecompositionAndCancel E.logged).feedback = s.feedback := by
  dsimp only [setStateToPrecompositionAndCancel]
  split <;> simp

@[simp] theorem ensureIMEIsOn_feedback : (s.ensureIMEIsOn E.logged).feedback = s.feedback := by
  unfold ensureIMEIsOn
  split <;> simp

@[simp] theorem outputMode_feedback : s.outputMode.feedback = s.feedback := rfl

@[simp] theorem popOutput_feedback : (s.popOutput E.logged).feedback = s.feedback := rfl

@[simp] theorem putOutput_feedback : (s.putOutput E.logged).feedback = s.feedback := rfl

@[simp] theorem outputFromState_feedback : (s.outputFromState E.logged).feedback = s.feedback := by
  unfold outputFromState
  split <;> simp

@[simp] theorem outputComposition_feedback :
    (s.outputComposition E.logged).feedback = s.feedback := rfl

@[simp] theorem outputKey_feedback : s.outputKey.feedback = s.feedback := rfl

@[simp] theorem putCallback_feedback (type : CommandType) :
    (s.putCallback type).feedback = s.feedback := rfl

@[simp] theorem suggest_feedback : (s.suggest E.logged).2.feedback = s.feedback := by
  unfold suggest
  split
  · rfl
  · exact callConverter_feedback fun _ => rfl

@[simp] theorem suggestAndOutput_feedback :
    (s.suggestAndOutput E.logged).feedback = s.feedback := by
  dsimp only [suggestAndOutput]
  split <;> simp

@[simp] theorem suggestZeroQuery_feedback :
    (s.suggestZeroQuery E.logged).feedback = s.feedback := by
  unfold suggestZeroQuery
  split <;> simp

end Primitives

section Learning

@[simp] theorem confirmPendingDirectCommitLearning_feedback :
    s.confirmPendingDirectCommitLearning.feedback = s.feedback := by
  unfold confirmPendingDirectCommitLearning
  split <;> rfl

@[simp] theorem discardPendingDirectCommitLearning_feedback :
    (s.discardPendingDirectCommitLearning E.logged).feedback = s.feedback := by
  unfold discardPendingDirectCommitLearning
  split
  · split <;> rfl
  · rfl

@[simp] theorem handlePendingDirectCommitLearningForKeyEvent_feedback (key : KeyEvent) :
    (s.handlePendingDirectCommitLearningForKeyEvent E.logged key).feedback = s.feedback := by
  unfold handlePendingDirectCommitLearningForKeyEvent
  split_ifs <;> simp

@[simp] theorem setPendingDirectCommitLearning_feedback (key value reason : Text) :
    (s.setPendingDirectCommitLearning key value reason).feedback = s.feedback := by
  unfold setPendingDirectCommitLearning
  split_ifs <;> rfl

@[simp] theorem setPendingDirectCommitLearningFromCommittedResult_feedback (reason : Text) :
    (s.setPendingDirectCommitLearningFromCommittedResult reason).feedback = s.feedback := by
  unfold setPendingDirectCommitLearningFromCommittedResult
  split <;> simp

@[simp] theorem maybeLearnZenzCandidateToMozcHistory_feedback (key value : Text) :
    (s.maybeLearnZenzCandidateToMozcHistory E.logged key value).feedback = s.feedback := by
  unfold maybeLearnZenzCandidateToMozcHistory
  split <;> simp

@[simp] theorem clearPendingRerankedPreeditCommitAfterConvertCancel_feedback :
    s.clearPendingRerankedPreeditCommitAfterConvertCancel.feedback = s.feedback := rfl

@[simp] theorem maybeSetPendingRerankedPreeditCommitAfterConvertCancel_feedback :
    (s.maybeSetPendingRerankedPreeditCommitAfterConvertCancel E.logged).feedback =
      s.feedback := by
  dsimp only [maybeSetPendingRerankedPreeditCommitAfterConvertCancel]
  split <;> rfl

@[simp] theorem commitPendingRerankedPreedit_feedback (composer : Composer K) (reason : Text) :
    (s.commitPendingRerankedPreeditAfterConvertCancelForDirectCommit E.logged composer
      reason).2.feedback = s.feedback := by
  dsimp only [commitPendingRerankedPreeditAfterConvertCancelForDirectCommit]
  split_ifs <;> simp

end Learning

section Live

@[simp] theorem restorePreeditKeys_feedback (source : Text) :
    (s.restorePreeditKeys E.logged source).feedback = s.feedback := rfl

@[simp] theorem cancelPendingZenzLiveCorrection_feedback :
    s.cancelPendingZenzLiveCorrection.feedback = s.feedback := rfl

@[simp] theorem clearZenzLiveCorrectionState_feedback :
    s.clearZenzLiveCorrectionState.feedback = s.feedback := rfl

@[simp] theorem attachCachedLiveConversionSuggestionCandidateWindow_feedback :
    s.attachCachedLiveConversionSuggestionCandidateWindow.feedback = s.feedback := rfl

@[simp] theorem outputPendingLiveConversion_feedback :
    (s.outputPendingLiveConversion E.logged).2.feedback = s.feedback := by
  dsimp only [outputPendingLiveConversion]
  split_ifs <;> simp

@[simp] theorem outputLiveConversion_feedback (zenzPending : Bool) :
    (s.outputLiveConversion E.logged zenzPending).feedback = s.feedback := rfl

@[simp] theorem ignoreStaleDelayedLiveConversion_feedback :
    (s.ignoreStaleDelayedLiveConversion E.logged).feedback = s.feedback := by
  dsimp only [ignoreStaleDelayedLiveConversion]
  split_ifs <;> simp

@[simp] theorem outputZenzLiveCorrection_feedback (value : Text) :
    (s.outputZenzLiveCorrection value).feedback = s.feedback := rfl

@[simp] theorem maybeApplyZenzFeedbackLiveCorrection_feedback :
    (s.maybeApplyZenzFeedbackLiveCorrection E.logged).2.feedback = s.feedback := by
  unfold maybeApplyZenzFeedbackLiveCorrection
  split
  · rfl
  · dsimp only
    split <;> rfl

@[simp] theorem attachZenzLiveCorrectionCallback_feedback (delayMillisec : Nat) :
    (s.attachZenzLiveCorrectionCallback delayMillisec).feedback = s.feedback := rfl

@[simp] theorem attachZenzLiveCorrectionStartCallback_feedback :
    (s.attachZenzLiveCorrectionStartCallback E.logged).feedback = s.feedback := rfl

@[simp] theorem attachZenzLiveCorrectionPollCallback_feedback :
    s.attachZenzLiveCorrectionPollCallback.feedback = s.feedback := rfl

@[simp] theorem setZenzLiveCorrectionDebug_feedback (debug : Text) :
    (s.setZenzLiveCorrectionDebug debug).feedback = s.feedback := rfl

@[simp] theorem outputCurrentLiveConversionWithZenzPending_feedback :
    (s.outputCurrentLiveConversionWithZenzPending E.logged).feedback = s.feedback := by
  dsimp only [outputCurrentLiveConversionWithZenzPending]
  split <;> simp

@[simp] theorem outputCurrentLiveConversionAfterZenzStop_feedback (debug : Text) :
    (s.outputCurrentLiveConversionAfterZenzStop E.logged debug).feedback = s.feedback := by
  dsimp only [outputCurrentLiveConversionAfterZenzStop]
  split <;> simp

@[simp] theorem dropZenzLiveCorrectionResult_feedback (debug : Text) :
    (s.dropZenzLiveCorrectionResult E.logged debug).feedback = s.feedback := rfl

@[simp] theorem applyZenzLiveCorrectionResult_feedback (response : ZenzLiveResponse) :
    (s.applyZenzLiveCorrectionResult E.logged response).feedback = s.feedback := by
  dsimp only [applyZenzLiveCorrectionResult]
  split_ifs <;> rfl

@[simp] theorem advancePendingZenzLiveCorrection_feedback (refresh : Bool) :
    (s.advancePendingZenzLiveCorrection E.logged refresh).feedback = s.feedback := by
  dsimp only [advancePendingZenzLiveCorrection]
  split
  · split
    · simp
      rfl
    · rfl
  · split
    · simp
    · split
      · simp
        rfl
      · split
        · simp
          rfl
        · simp
          rfl

@[simp] theorem applyZenzLiveCorrection_feedback :
    (s.applyZenzLiveCorrection E.logged).feedback = s.feedback := by
  dsimp only [applyZenzLiveCorrection]
  split <;> simp

@[simp] theorem maybeScheduleZenzLiveCorrection_feedback :
    (s.maybeScheduleZenzLiveCorrection E.logged).feedback = s.feedback := by
  unfold maybeScheduleZenzLiveCorrection
  split
  · rfl
  · dsimp only
    split
    · rw [advancePendingZenzLiveCorrection_feedback]
      rfl
    · rfl

@[simp] theorem cancelPendingLiveConversion_feedback :
    s.cancelPendingLiveConversion.feedback = s.feedback := rfl

@[simp] theorem clearLiveConversionState_feedback :
    s.clearLiveConversionState.feedback = s.feedback := rfl

@[simp] theorem cancelLiveConversionForEditing_feedback :
    (s.cancelLiveConversionForEditing E.logged).feedback = s.feedback := by
  dsimp only [cancelLiveConversionForEditing]
  split
  · rfl
  · simp
    rfl

@[simp] theorem attachLiveConversionSuggestionCandidateWindow_feedback (input : Input) :
    (s.attachLiveConversionSuggestionCandidateWindow E.logged input).2.feedback = s.feedback := by
  dsimp only [attachLiveConversionSuggestionCandidateWindow]
  split_ifs <;> rfl

@[simp] theorem startLiveConversion_feedback (key preedit : Text) (input : Input)
    (window : CandidateWindow) :
    (s.startLiveConversion E.logged key preedit input window).feedback = s.feedback := by
  have hstart : ∀ t : Exec K V (H × FeedbackLog), t.feedback = s.feedback →
      (t.maybeApplyZenzFeedbackLiveCorrection E.logged).2.feedback = s.feedback := fun t ht =>
    maybeApplyZenzFeedbackLiveCorrection_feedback.trans ht
  dsimp only [startLiveConversion]
  split
  · exact hstart _ rfl
  · rw [maybeScheduleZenzLiveCorrection_feedback]
    apply feedback_ite
    · exact attachLiveConversionSuggestionCandidateWindow_feedback _ |>.trans (hstart _ rfl)
    · exact attachLiveConversionSuggestionCandidateWindow_feedback _ |>.trans (hstart _ rfl)

@[simp] theorem maybeStartLiveConversion_feedback :
    (s.maybeStartLiveConversion E.logged).2.feedback = s.feedback := by
  dsimp only [maybeStartLiveConversion]
  split
  · rfl
  · split
    · rfl
    · rw [startLiveConversion_feedback]
      rfl

@[simp] theorem attachDelayedLiveConversionCallback_feedback :
    (s.attachDelayedLiveConversionCallback E.logged).feedback = s.feedback := rfl

@[simp] theorem scheduleLiveConversion_feedback :
    (s.scheduleLiveConversion E.logged).feedback = s.feedback := rfl

@[simp] theorem maybeScheduleLiveConversion_feedback :
    (s.maybeScheduleLiveConversion E.logged).2.feedback = s.feedback := by
  dsimp only [maybeScheduleLiveConversion]
  split
  · rfl
  split
  · rfl
  split
  · simp
  split
  · simp
  · rw [attachDelayedLiveConversionCallback_feedback]
    apply feedback_ite
    · exact (attachLiveConversionSuggestionCandidateWindow_feedback _).trans
        outputPendingLiveConversion_feedback
    · exact (attachLiveConversionSuggestionCandidateWindow_feedback _).trans
        outputPendingLiveConversion_feedback

@[simp] theorem applyDelayedLiveConversion_feedback :
    (s.applyDelayedLiveConversion E.logged).2.feedback = s.feedback := by
  dsimp only [applyDelayedLiveConversion]
  split_ifs <;> simp

@[simp] theorem flushPendingLiveConversion_feedback :
    (s.flushPendingLiveConversion E.logged).feedback = s.feedback := by
  dsimp only [flushPendingLiveConversion]
  split_ifs
  · rfl
  · rfl
  · exact maybeStartLiveConversion_feedback
      (s := { s with command := { input := { now := s.input.now } } })

end Live

end Exec

end Mozkey.Session
