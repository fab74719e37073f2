import Mozkey.Session.FeedbackHandlers

/-! The handlers that insert, delete and convert, and the pending Zenz feedback. -/

namespace Mozkey.Session

variable {K V H A : Type}

namespace Exec

open FeedbackView

variable {E : Env K V H} {s t : Exec K V (H × FeedbackLog)}

section Insertion

theorem insertCharacterDirectly_steps (key : KeyEvent) :
    Steps s.feedback (s.insertCharacterDirectly E.logged key).feedback := by
  dsimp only [insertCharacterDirectly]
  split
  · exact echoBackAndClearUndoContext_steps
  · exact .of_eq (by simp)

@[simp] theorem insertDirectCommitTrigger_feedback (key : KeyEvent) :
    (s.insertDirectCommitTrigger E.logged key).feedback = s.feedback := by
  dsimp only [insertDirectCommitTrigger]
  split_ifs <;> simp

theorem commitBeforeShiftAsciiInput_steps (key : KeyEvent) :
    Steps s.feedback (s.commitBeforeShiftAsciiInput E.logged key).feedback := by
  dsimp only [commitBeforeShiftAsciiInput]
  simp only [outputComposition_feedback, setState_feedback, clearUndoContext_feedback,
    editComposer_feedback]
  rw [← clearPendingRerankedPreeditCommitAfterConvertCancel_feedback (s := s)]
  split_ifs
  · exact commitZenzLiveCorrectionResult_steps'
  all_goals exact .of_eq (by simp)

theorem commitAfterPunctuation_steps (before : Composer K) (key : KeyEvent) (wasLive : Bool)
    (zenz : Option VisibleZenz) (committedBefore : Bool) :
    Steps s.feedback
      (s.commitAfterPunctuation E.logged before key wasLive zenz committedBefore).feedback := by
  dsimp only [commitAfterPunctuation]
  rw [← commitPendingRerankedPreedit_feedback (E := E) (s := s) before
    (text "convert_cancel_direct_commit_punctuation")]
  split
  · exact .of_eq (by simp)
  · split
    · rw [commitStringDirectly_feedback, clearLiveConversionState_feedback]
      exact setPendingZenzFeedbackAccepted_steps ..
    · apply Steps.of_eq
      split_ifs <;> simp

theorem commitBeforeInsert_steps : Steps s.feedback (s.commitBeforeInsert E.logged).2.feedback := by
  dsimp only [commitBeforeInsert]
  split
  · rw [confirmPendingZenzFeedback_feedback, commitNotTriggeringZeroQuerySuggest_feedback]
    exact .act (.confirm _)
  · exact .refl _

@[simp] theorem forgetLiveConversion_feedback (wasLive : Bool) :
    (s.forgetLiveConversion E.logged wasLive).feedback = s.feedback := by
  dsimp only [forgetLiveConversion]
  split <;> rfl

variable {convert insert : Exec K V (H × FeedbackLog) → Bool × Exec K V (H × FeedbackLog)}

theorem continueComposition_steps (hconvert : ∀ t, Steps t.feedback (convert t).2.feedback)
    (key : KeyEvent) : Steps s.feedback (s.continueComposition E.logged convert key).2.feedback := by
  dsimp only [continueComposition]
  split
  · exact .of_eq (by simp)
  · split
    · exact .of_eq (by simp)
    · split
      · refine Steps.trans (.of_eq ?_) (hconvert _)
        simp
      · apply Steps.of_eq
        split <;> simp

theorem insertCharacterInComposition_steps
    (hconvert : ∀ t, Steps t.feedback (convert t).2.feedback) (key : KeyEvent) :
    Steps s.feedback (s.insertCharacterInComposition E.logged convert key).2.feedback := by
  dsimp only [insertCharacterInComposition]
  have hselect : ((s.cancelLiveConversionForEditing E.logged).maybeSelectCandidate
      E.logged).2.feedback = s.feedback := by simp
  generalize (s.cancelLiveConversionForEditing E.logged).maybeSelectCandidate E.logged = selected
    at hselect ⊢
  rw [← hselect]
  split
  · exact .of_eq (by simp)
  · refine commitBeforeInsert_steps (E := E).trans ?_
    generalize selected.2.commitBeforeInsert E.logged = committed
    split
    · exact .of_eq (by simp)
    · split
      · refine Steps.trans (.of_eq ?_) (commitAfterPunctuation_steps ..)
        simp
      · refine Steps.trans (.of_eq ?_) (continueComposition_steps hconvert key)
        simp

theorem insertCharacterWith_steps (hconvert : ∀ t, Steps t.feedback (convert t).2.feedback) :
    Steps s.feedback (s.insertCharacterWith E.logged convert).2.feedback := by
  unfold insertCharacterWith
  split
  · exact .refl _
  · rename_i key _
    have hhandle := handlePendingZenzFeedbackForKeyEvent_steps (E := E)
      (s := s.handlePendingDirectCommitLearningForKeyEvent E.logged key)
    rw [handlePendingDirectCommitLearningForKeyEvent_feedback] at hhandle
    dsimp only
    generalize (s.handlePendingDirectCommitLearningForKeyEvent E.logged
      key).handlePendingZenzFeedbackForKeyEvent E.logged = t at hhandle ⊢
    refine hhandle.trans ?_
    split
    · exact insertCharacterDirectly_steps key
    · rw [← setConsumed_feedback (s := t) true]
      split_ifs
      · exact .of_eq (insertDirectCommitTrigger_feedback key)
      · exact commitBeforeShiftAsciiInput_steps key
      · exact insertCharacterInComposition_steps hconvert key

theorem convertWith_steps (hinsert : ∀ t, Steps t.feedback (insert t).2.feedback) :
    Steps s.feedback (s.convertWith E.logged insert).2.feedback := by
  dsimp only [convertWith]
  have hstart : (s.cancelPendingLiveConversion.setConsumed true).feedback = s.feedback := by simp
  generalize s.cancelPendingLiveConversion.setConsumed true = t at hstart ⊢
  rw [← hstart]
  split
  · split
    · exact commit_feedback_steps (s := t.editComposer _)
    · exact hinsert (t.editKey _)
  · apply Steps.of_eq
    split_ifs <;> simp

theorem insertCharacterUpTo_steps (depth : Nat) :
    Steps s.feedback (s.insertCharacterUpTo E.logged depth).2.feedback := by
  induction depth generalizing s with
  | zero => exact .refl _
  | succ depth ih => exact insertCharacterWith_steps fun _ => convertWith_steps fun _ => ih

theorem insertCharacter_steps : Steps s.feedback (s.insertCharacter E.logged).2.feedback :=
  insertCharacterUpTo_steps _

theorem convert_feedback_steps : Steps s.feedback (s.convert E.logged).2.feedback :=
  convertWith_steps fun _ => insertCharacter_steps

end Insertion

section Spaces

theorem insertSpaceHalfWidth_steps :
    Steps s.feedback (s.insertSpaceHalfWidth E.logged).2.feedback := by
  dsimp only [insertSpaceHalfWidth]
  split_ifs
  · exact .of_eq (by simp)
  · exact echoBackAndClearUndoContext_steps
  · exact insertCharacter_steps (s := s.replaceKeyBySpace (text " "))

theorem insertSpaceFullWidth_steps :
    Steps s.feedback (s.insertSpaceFullWidth E.logged).2.feedback := by
  dsimp only [insertSpaceFullWidth]
  split
  · exact .of_eq (by simp)
  · refine Steps.trans (.of_eq ?_) insertCharacter_steps
    split
    · exact editConverter_feedback fun _ => rfl
    · rfl

theorem insertSpace_steps : Steps s.feedback (s.insertSpace E.logged).2.feedback := by
  unfold insertSpace
  split
  · exact insertSpaceFullWidth_steps
  · exact insertSpaceHalfWidth_steps

theorem insertSpaceToggled_steps : Steps s.feedback (s.insertSpaceToggled E.logged).2.feedback := by
  unfold insertSpaceToggled
  split
  · exact insertSpaceHalfWidth_steps
  · exact insertSpaceFullWidth_steps

theorem requestReconvertSelectionOrInsertSpace_steps :
    Steps s.feedback (s.requestReconvertSelectionOrInsertSpace E.logged).2.feedback := by
  dsimp only [requestReconvertSelectionOrInsertSpace]
  split
  · exact .of_eq (by simp)
  · split
    · rw [putCallback_feedback]
      exact insertSpace_steps
    · exact insertSpace_steps

end Spaces

section Editing

@[simp] theorem deleteWith_feedback (edit : Composer K → Composer K) :
    (s.deleteWith E.logged edit).feedback = s.feedback.discard := by
  dsimp only [deleteWith]
  split
  · simp
  · split <;> simp

@[simp] theorem delete_feedback : (s.delete E.logged).feedback = s.feedback.discard :=
  deleteWith_feedback _

@[simp] theorem backspace_feedback : (s.backspace E.logged).feedback = s.feedback.discard :=
  deleteWith_feedback _

@[simp] theorem convertWithoutHistory_feedback :
    (s.convertWithoutHistory E.logged).feedback = s.feedback := by
  dsimp only [convertWithoutHistory]
  split <;> simp

@[simp] theorem convertTo_feedback
    {operation : Composer K → Engine V (H × FeedbackLog) → Bool × Engine V (H × FeedbackLog)}
    (h : ∀ composer engine, (operation composer engine).2.2.2 = engine.2.2) :
    (s.convertTo E.logged operation).2.feedback = s.feedback := by
  dsimp only [convertTo]
  split
  · simp
  · split
    · rw [callConverter_feedback (h _), setConsumed_feedback]
    · rw [putOutput_feedback, setState_feedback, callConverter_feedback (h _),
        setConsumed_feedback]

@[simp] theorem convertToTransliteration_feedback (type : TransliterationType) :
    (s.convertToTransliteration E.logged type).2.feedback = s.feedback :=
  convertTo_feedback fun _ _ => rfl

@[simp] theorem switchKanaType_feedback :
    (s.switchKanaType E.logged).2.feedback = s.feedback :=
  convertTo_feedback fun _ _ => rfl

@[simp] theorem convertToHalfWidth_feedback :
    (s.convertToHalfWidth E.logged).2.feedback = s.feedback :=
  convertTo_feedback fun _ _ => rfl

@[simp] theorem displayAs_feedback
    {convert : Exec K V (H × FeedbackLog) → Bool × Exec K V (H × FeedbackLog)}
    (h : ∀ t, (convert t).2.feedback = t.feedback)
    (mode : TransliterationType → TransliterationType) :
    (s.displayAs E.logged convert mode).2.feedback = s.feedback := by
  dsimp only [displayAs]
  split
  · rw [h, setConsumed_feedback]
  · simp

@[simp] theorem segmentFocus_feedback
    {move : Engine V (H × FeedbackLog) → Engine V (H × FeedbackLog)}
    (h : ∀ engine, (move engine).2.2 = engine.2.2) :
    (s.segmentFocus E.logged move).feedback = s.feedback := by
  dsimp only [segmentFocus]
  split
  · simp
  · rw [putOutput_feedback, editConverter_feedback h, setConsumed_feedback]

@[simp] theorem convertNext_feedback : (s.convertNext E.logged).feedback = s.feedback := by
  rw [convertNext, putOutput_feedback, editConverter_feedback (by simp), setConsumed_feedback]

@[simp] theorem convertPrev_feedback : (s.convertPrev E.logged).feedback = s.feedback := by
  rw [convertPrev, putOutput_feedback, editConverter_feedback (by simp), setConsumed_feedback]

@[simp] theorem convertCancel_feedback :
    (s.convertCancel E.logged).feedback = s.feedback.discard := by
  simp [convertCancel]

theorem deleteCandidateFromHistory_steps :
    Steps s.feedback (s.deleteCandidateFromHistory E.logged).feedback := by
  have hdelete : (s.callConverter (E.logged.converterOps.deleteCandidateFromHistory
      s.commandId)).2.feedback = s.feedback := callConverter_feedback fun _ => rfl
  dsimp only [deleteCandidateFromHistory]
  generalize s.callConverter (E.logged.converterOps.deleteCandidateFromHistory s.commandId) = called
    at hdelete ⊢
  rw [← hdelete]
  split
  · exact .of_eq (by simp)
  · exact .of_discard convertCancel_feedback

@[simp] theorem predict_feedback : (s.predict E.logged).feedback = s.feedback := by
  dsimp only [predict]
  split <;> simp

@[simp] theorem predictAndConvert_feedback :
    (s.predictAndConvert E.logged).feedback = s.feedback := by
  dsimp only [predictAndConvert]
  split <;> simp

theorem predictAndConvertFromLiveConversion_steps :
    Steps s.feedback (s.predictAndConvertFromLiveConversion E.logged).feedback := by
  dsimp only [predictAndConvertFromLiveConversion]
  have hstart : (s.cancelPendingLiveConversion.setConsumed true).feedback = s.feedback := by simp
  generalize s.cancelPendingLiveConversion.setConsumed true = t at hstart ⊢
  rw [← hstart]
  split
  · exact .of_eq (by simp)
  · rw [predict_feedback, editConverter_feedback (by simp), setState_feedback,
      clearLiveConversionState_feedback, clearZenzLiveCorrectionState_feedback]
    split
    · exact setPendingZenzFeedbackRejected_steps _
    · exact .refl _

theorem revertZenzLiveCorrectionToNormalConversion_steps :
    Steps s.feedback (s.revertZenzLiveCorrectionToNormalConversion E.logged).2.feedback := by
  dsimp only [revertZenzLiveCorrectionToNormalConversion]
  split
  · exact .refl _
  · refine (setPendingZenzFeedbackRejected_steps (E := E)
      (text "space_revert_zenz_to_mozc")).trans (.of_eq ?_)
    rw [editOutput_feedback]
    split <;> simp

end Editing

section Modes

@[simp] theorem compositionMode_feedback (mode : TransliterationType) :
    (s.compositionMode E.logged mode).feedback = s.feedback := by
  simp [compositionMode]

@[simp] theorem compositionModeSwitchKanaType_feedback :
    (s.compositionModeSwitchKanaType E.logged).feedback = s.feedback := by
  dsimp only [compositionModeSwitchKanaType]
  split <;> simp

@[simp] theorem toggleAlphanumericMode_feedback :
    (s.toggleAlphanumericMode E.logged).feedback = s.feedback := by
  simp [toggleAlphanumericMode]

@[simp] theorem switchInputFieldType_feedback :
    (s.switchInputFieldType E.logged).feedback = s.feedback := by
  simp [switchInputFieldType]

@[simp] theorem launchTool_feedback (mode : ToolMode) :
    (s.launchTool E.logged mode).feedback = s.feedback := by
  simp [launchTool]

@[simp] theorem imeAction_feedback : (s.imeAction E.logged).2.feedback = s.feedback := by
  unfold imeAction
  split
  · rfl
  · exact editConverter_feedback fun _ => rfl

end Modes

end Exec

end Mozkey.Session
