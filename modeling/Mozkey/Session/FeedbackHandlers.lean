import Mozkey.Session.FeedbackFrames

/-! The handlers of a session and its pending Zenz feedback: each of them leaves it alone, or takes
it through fillings, discards and confirmations. -/

namespace Mozkey.Session

variable {K V H A : Type}

namespace Exec

open FeedbackView

variable {E : Env K V H} {s : Exec K V (H × FeedbackLog)}

section Slot

/-! The functions that the slot is for. -/

@[simp] theorem fillPendingZenzFeedback_feedback (feedback : PendingZenzFeedback) :
    (s.fillPendingZenzFeedback feedback).feedback = s.feedback.fill feedback := rfl

@[simp] theorem discardPendingZenzFeedback_feedback :
    s.discardPendingZenzFeedback.feedback = s.feedback.discard := by
  unfold discardPendingZenzFeedback FeedbackView.discard
  split
  · rename_i h
    exact (if_pos h).symm
  · rename_i h
    exact (if_neg h).symm

@[simp] theorem confirmPendingZenzFeedback_feedback :
    (s.confirmPendingZenzFeedback E.logged).feedback =
      s.feedback.confirm E.config.useZenzFeedbackLearning := by
  have hempty : ∀ (t : Exec K V (H × FeedbackLog)) (event : FeedbackEvent),
      (noteFeedback event { t with pendingZenzFeedback := {} }).feedback =
        { t.feedback with slot := {}, events := event :: t.feedback.events } := fun _ _ => rfl
  dsimp only [confirmPendingZenzFeedback]
  unfold FeedbackView.confirm
  split
  · rename_i hpending
    exact (if_pos hpending).symm
  · rename_i hpending
    refine Eq.trans ?_ (if_neg hpending).symm
    split
    · rename_i hlearning
      exact (if_pos (Or.inl hlearning)).symm
    · rename_i hlearning
      cases haction : s.pendingZenzFeedback.action with
      | none => exact (if_pos (Or.inr haction)).symm
      | accepted =>
        have haction' : s.feedback.slot.action ≠ .none := by
          rw [show s.feedback.slot.action = .accepted from haction]
          decide
        refine Eq.trans ?_ (if_neg (not_or.mpr ⟨hlearning, haction'⟩)).symm
        rw [hempty, maybeLearnZenzCandidateToMozcHistory_feedback]
        simp [feedback, PendingZenzFeedback.record, haction]
      | rejected =>
        have haction' : s.feedback.slot.action ≠ .none := by
          rw [show s.feedback.slot.action = .rejected from haction]
          decide
        refine Eq.trans ?_ (if_neg (not_or.mpr ⟨hlearning, haction'⟩)).symm
        rw [hempty]
        simp [feedback, PendingZenzFeedback.record, haction]

theorem setPendingZenzFeedbackAccepted_steps (key contextClass value : Text) :
    Steps s.feedback
      (s.setPendingZenzFeedbackAccepted E.logged key contextClass value).feedback := by
  unfold setPendingZenzFeedbackAccepted
  split
  · exact .refl _
  · exact .act (.fill _)

theorem setPendingZenzFeedbackRejected_steps (reason : Text) :
    Steps s.feedback (s.setPendingZenzFeedbackRejected E.logged reason).feedback := by
  unfold setPendingZenzFeedbackRejected
  split
  · exact .refl _
  · exact .act (.fill _)

theorem handlePendingZenzFeedbackForKeyEvent_steps :
    Steps s.feedback (s.handlePendingZenzFeedbackForKeyEvent E.logged).feedback := by
  unfold handlePendingZenzFeedbackForKeyEvent
  split
  · exact .refl _
  · rw [confirmPendingZenzFeedback_feedback]
    exact .act (.confirm _)

@[simp] theorem discardPending_feedback :
    (s.discardPending E.logged).feedback = s.feedback.discard := by
  simp [discardPending]

theorem discardPending_steps : Steps s.feedback (s.discardPending E.logged).feedback :=
  .of_discard discardPending_feedback

theorem handlePendingForSessionCommand_steps (type : CommandType) :
    Steps s.feedback (s.handlePendingForSessionCommand E.logged type).feedback := by
  unfold handlePendingForSessionCommand
  split
  · exact discardPending_steps
  · exact discardPending_steps
  · exact discardPending_steps
  · exact .refl _

end Slot

section Commit

/-! `Commit.lean`. -/

@[simp] theorem echoBack_feedback : (s.echoBack E.logged).feedback = s.feedback := by
  simp [echoBack]

@[simp] theorem doNothing_feedback : (s.doNothing E.logged).feedback = s.feedback := by
  dsimp only [doNothing]
  split_ifs <;> simp

theorem echoBackAndClearUndoContext_feedback :
    (s.echoBackAndClearUndoContext E.logged).feedback =
      if isPendingZenzFeedbackDiscardKey s.input.keyEvent then s.feedback.discard
      else s.feedback := by
  dsimp only [echoBackAndClearUndoContext]
  rw [echoBack_feedback]
  split_ifs <;> simp

theorem echoBackAndClearUndoContext_steps :
    Steps s.feedback (s.echoBackAndClearUndoContext E.logged).feedback := by
  rw [echoBackAndClearUndoContext_feedback]
  split
  · exact .act .discard
  · exact .refl _

@[simp] theorem commitStringDirectly_feedback (key preedit : Text) :
    (s.commitStringDirectly E.logged key preedit).feedback = s.feedback := by
  dsimp only [commitStringDirectly]
  split <;> simp

@[simp] theorem commitCompositionDirectly_feedback :
    (s.commitCompositionDirectly E.logged).feedback = s.feedback :=
  commitStringDirectly_feedback ..

@[simp] theorem commitSourceTextDirectly_feedback :
    (s.commitSourceTextDirectly E.logged).feedback = s.feedback :=
  commitStringDirectly_feedback ..

@[simp] theorem commitRawTextDirectly_feedback :
    (s.commitRawTextDirectly E.logged).feedback = s.feedback :=
  commitStringDirectly_feedback ..

theorem commitZenzLiveCorrectionResult_steps' :
    Steps s.feedback (s.commitZenzLiveCorrectionResult E.logged).2.feedback := by
  dsimp only [commitZenzLiveCorrectionResult]
  split
  · exact .refl _
  · simp only [commitStringDirectly_feedback, clearLiveConversionState_feedback]
    exact setPendingZenzFeedbackAccepted_steps ..

@[simp] theorem commitLiveConversionResult_feedback :
    (s.commitLiveConversionResult E.logged).2.feedback = s.feedback := by
  dsimp only [commitLiveConversionResult]
  split_ifs <;> simp

@[simp] theorem commitPendingLiveConversionDisplayDirectly_feedback :
    (s.commitPendingLiveConversionDisplayDirectly E.logged).feedback = s.feedback := by
  simp [commitPendingLiveConversionDisplayDirectly]

@[simp] theorem commitInternal_feedback (suggest : Bool) :
    (s.commitInternal E.logged suggest).feedback = s.feedback := by
  dsimp only [commitInternal]
  split_ifs <;> simp

@[simp] theorem commitNotTriggeringZeroQuerySuggest_feedback :
    (s.commitNotTriggeringZeroQuerySuggest E.logged).feedback = s.feedback :=
  commitInternal_feedback false

theorem commit_feedback_steps : Steps s.feedback (s.commit E.logged).feedback := by
  dsimp only [commit]
  split
  · exact commitZenzLiveCorrectionResult_steps'
  · simp only [commitInternal_feedback, flushPendingLiveConversion_feedback]
    exact commitZenzLiveCorrectionResult_steps'

@[simp] theorem commitHead_feedback (count : Nat) :
    (s.commitHead E.logged count).feedback = s.feedback := by
  dsimp only [commitHead]
  split <;> simp

@[simp] theorem finishCommit_feedback : (s.finishCommit E.logged).feedback = s.feedback := by
  dsimp only [finishCommit]
  split <;> simp

@[simp] theorem commitFirstSuggestion_feedback :
    (s.commitFirstSuggestion E.logged).feedback = s.feedback := by
  dsimp only [commitFirstSuggestion]
  split
  · simp
  · simp only [keepOutputForUndo_feedback, putOutput_feedback, suggestZeroQuery_feedback,
      setState_feedback]
    exact callConverter_feedback fun _ => rfl

@[simp] theorem deleteCommitted_feedback (size : Nat) :
    (s.deleteCommitted E.logged size).feedback = s.feedback := by
  unfold deleteCommitted
  split <;> simp

@[simp] theorem commitHeadToFocusedSegmentsInternal_feedback :
    (s.commitHeadToFocusedSegmentsInternal E.logged).feedback = s.feedback := by
  simp [commitHeadToFocusedSegmentsInternal]

@[simp] theorem commitSegment_feedback : (s.commitSegment E.logged).feedback = s.feedback := by
  dsimp only [commitSegment]
  split <;> simp

@[simp] theorem commitIfPassword_feedback :
    (s.commitIfPassword E.logged).2.feedback = s.feedback := by
  unfold commitIfPassword
  split <;> simp

@[simp] theorem commitRawText_feedback : (s.commitRawText E.logged).2.feedback = s.feedback := by
  unfold commitRawText
  split <;> simp

@[simp] theorem moveCursor_feedback (move : Composer K → Composer K) (clearUndo : Bool) :
    (s.moveCursor E.logged move clearUndo).feedback = s.feedback := by
  dsimp only [moveCursor]
  split_ifs <;> simp

theorem moveCursorRight_feedback_steps :
    Steps s.feedback (s.moveCursorRight E.logged).feedback := by
  unfold moveCursorRight
  split
  · exact commit_feedback_steps
  · exact .of_eq (moveCursor_feedback ..)

@[simp] theorem moveCursorLeft_feedback : (s.moveCursorLeft E.logged).feedback = s.feedback := by
  dsimp only [moveCursorLeft]
  split <;> simp

@[simp] theorem moveCursorToEndInternal_feedback (clearUndo : Bool) :
    (s.moveCursorToEndInternal E.logged clearUndo).feedback = s.feedback :=
  moveCursor_feedback ..

@[simp] theorem moveCursorToEnd_feedback : (s.moveCursorToEnd E.logged).feedback = s.feedback :=
  moveCursor_feedback ..

@[simp] theorem moveCursorToBeginning_feedback :
    (s.moveCursorToBeginning E.logged).feedback = s.feedback :=
  moveCursor_feedback ..

@[simp] theorem moveCursorTo_feedback : (s.moveCursorTo E.logged).feedback = s.feedback := by
  dsimp only [moveCursorTo]
  split_ifs <;> simp

@[simp] theorem selectCandidateInternal_feedback :
    (s.selectCandidateInternal E.logged).2.feedback = s.feedback := by
  dsimp only [selectCandidateInternal]
  split
  · rfl
  · split
    · rfl
    · split <;> simp

@[simp] theorem selectCandidate_feedback : (s.selectCandidate E.logged).feedback = s.feedback := by
  dsimp only [selectCandidate]
  split <;> simp

@[simp] theorem highlightCandidate_feedback :
    (s.highlightCandidate E.logged).2.feedback = s.feedback := by
  dsimp only [highlightCandidate]
  split <;> simp

@[simp] theorem commitCandidate_feedback :
    (s.commitCandidate E.logged).2.feedback = s.feedback := by
  dsimp only [commitCandidate]
  split
  · rfl
  · split
    · rfl
    · split_ifs
      · rfl
      · simp
      · simp only [keepOutputForUndo_feedback, moveCursorToEndInternal_feedback,
          editComposer_feedback]
        exact callConverter_feedback fun _ => rfl
      · simp only [finishCommit_feedback]
        exact callConverter_feedback fun _ => rfl

@[simp] theorem maybeSelectCandidate_feedback :
    (s.maybeSelectCandidate E.logged).2.feedback = s.feedback := by
  unfold maybeSelectCandidate
  split <;> simp

@[simp] theorem imeOn_feedback : (s.imeOn E.logged).feedback = s.feedback := by
  dsimp only [imeOn]
  split <;> simp

theorem turnOff_steps : Steps s.feedback (s.turnOff E.logged).feedback := by
  unfold turnOff
  rw [setState_feedback, editConverter_feedback (by simp)]
  exact commit_feedback_steps (s := s.clearUndoContext)

theorem confirmPending_steps :
    Steps s.feedback
      (s.confirmPendingDirectCommitLearning.confirmPendingZenzFeedback E.logged).feedback := by
  rw [confirmPendingZenzFeedback_feedback, confirmPendingDirectCommitLearning_feedback]
  exact .act (.confirm _)

theorem imeOff_steps : Steps s.feedback (s.imeOff E.logged).feedback := by
  have hconfirm := confirmPending_steps (E := E) (s := s)
  dsimp only [imeOff]
  generalize s.confirmPendingDirectCommitLearning.confirmPendingZenzFeedback E.logged = t
    at hconfirm ⊢
  rw [outputMode_feedback]
  rw [← setConsumed_feedback (s := t) true] at hconfirm
  exact hconfirm.trans turnOff_steps

@[simp] theorem applyCommandCompositionMode_feedback :
    s.applyCommandCompositionMode.feedback = s.feedback := by
  unfold applyCommandCompositionMode
  split <;> simp

@[simp] theorem makeSureIMEOn_feedback :
    (s.makeSureIMEOn E.logged).2.feedback = s.feedback := by
  dsimp only [makeSureIMEOn]
  split_ifs <;> simp

theorem makeSureIMEOff_steps : Steps s.feedback (s.makeSureIMEOff E.logged).2.feedback := by
  have hconfirm := confirmPending_steps (E := E) (s := s)
  dsimp only [makeSureIMEOff]
  generalize s.confirmPendingDirectCommitLearning.confirmPendingZenzFeedback E.logged = t
    at hconfirm ⊢
  split
  · exact hconfirm
  · rw [outputMode_feedback, applyCommandCompositionMode_feedback]
    rw [← setConsumed_feedback (s := t) true] at hconfirm
    split
    · exact hconfirm.trans turnOff_steps
    · exact hconfirm

theorem discard_echoBackAndClearUndoContext {t : Exec K V (H × FeedbackLog)}
    (h : t.feedback = s.feedback.discard) :
    (t.echoBackAndClearUndoContext E.logged).feedback = s.feedback.discard := by
  rw [echoBackAndClearUndoContext_feedback, h, discard_discard, ite_self]

@[simp] theorem revert_feedback : (s.revert E.logged).feedback = s.feedback.discard := by
  dsimp only [revert]
  split_ifs
  · exact discard_echoBackAndClearUndoContext (by simp)
  · simp
  · simp

@[simp] theorem resetContext_feedback :
    (s.resetContext E.logged).feedback = s.feedback.discard := by
  dsimp only [resetContext]
  split_ifs
  · exact discard_echoBackAndClearUndoContext (by simp)
  · simp

@[simp] theorem tryCancelConvertReverse_feedback :
    (s.tryCancelConvertReverse E.logged).feedback = s.feedback := by
  unfold tryCancelConvertReverse
  split <;> simp

@[simp] theorem editCancelOnPasswordField_feedback :
    (s.editCancelOnPasswordField E.logged).2.feedback = s.feedback := by
  dsimp only [editCancelOnPasswordField]
  split_ifs <;> simp

@[simp] theorem editCancel_feedback :
    (s.editCancel E.logged).feedback = s.feedback.discard := by
  dsimp only [editCancel]
  split <;> simp

@[simp] theorem editCancelAndIMEOff_feedback :
    (s.editCancelAndIMEOff E.logged).feedback = s.feedback.discard := by
  dsimp only [editCancelAndIMEOff]
  split_ifs <;> simp

@[simp] theorem requestUndo_feedback :
    (s.requestUndo E.logged).feedback = s.feedback.discard := by
  dsimp only [requestUndo]
  split_ifs <;> simp

@[simp] theorem undo_feedback : (s.undo E.logged).feedback = s.feedback.discard := by
  dsimp only [undo]
  split_ifs <;> simp

theorem undoOrRewind_steps : Steps s.feedback (s.undoOrRewind E.logged).feedback := by
  dsimp only [undoOrRewind]
  split_ifs
  · exact .of_discard undo_feedback
  · exact .of_eq (by simp)
  · exact .of_eq (by simp)

@[simp] theorem stopKeyToggling_feedback :
    (s.stopKeyToggling E.logged).feedback = s.feedback := by
  dsimp only [stopKeyToggling]
  split <;> simp

@[simp] theorem requestConvertReverse_feedback :
    (s.requestConvertReverse E.logged).feedback = s.feedback := by
  unfold requestConvertReverse
  split <;> simp

@[simp] theorem convertReverse_feedback :
    (s.convertReverse E.logged).2.feedback = s.feedback := by
  dsimp only [convertReverse]
  split
  · simp
  · split
    · simp
    · split
      · simp
      · split <;> simp

theorem updateComposition_steps : Steps s.feedback (s.updateComposition E.logged).2.feedback := by
  unfold updateComposition
  split
  · exact echoBackAndClearUndoContext_steps
  · exact .of_eq (by simp)
  · exact .of_eq (by simp)
  · exact .refl _
  · exact .refl _

end Commit

end Exec

end Mozkey.Session
