import Mozkey.Session.LiveHandlers

/-! The handlers that turn the input method on and off, undo, insert, delete and convert, as paths of
the live conversion machine. Nothing is asked of the state before: a text may change below a live
conversion that is active. -/

namespace Mozkey.Session

variable {K V H A : Type} {E : Env K V H} {leak : Prop}

theorem TextOnly.path {v w : LiveView K} (h : TextOnly v w) : LiveSteps E True v w :=
  h.steps (.inl trivial)

namespace Exec

variable {s t : Exec K V H}

theorem setState_path (state : State) : LiveSteps E True s.live (s.setState E state).live :=
  (setState_textOnly state).path

theorem editComposer_path (f : Composer K → Composer K) :
    LiveSteps E True s.live (s.editComposer f).live :=
  (editComposer_textOnly f).path

section Commit

theorem imeOn_path : LiveSteps E True s.live (s.imeOn E).live := by
  have hstate : TextOnly s.live ((s.setConsumed true).clearUndoContext.setState E
      .precomposition).live := setState_textOnly .precomposition
  dsimp only [imeOn]
  rw [outputMode_live]
  split
  · exact (hstate.trans (editComposer_textOnly _)).path
  · exact hstate.path

theorem turnOff_path : LiveSteps E True s.live (s.turnOff E).live := by
  have hcommit : LiveSteps E True s.live
      ((s.clearUndoContext.commit E).editConverter E.converterOps.reset).live :=
    commit_steps (s := s.clearUndoContext)
  exact hcommit.trans (setState_path .direct)

theorem imeOff_path : LiveSteps E True s.live (s.imeOff E).live := by
  have hconfirm : ((s.confirmPendingDirectCommitLearning.confirmPendingZenzFeedback E).setConsumed
      true).live = s.live := by simp
  dsimp only [imeOff]
  rw [outputMode_live, ← hconfirm]
  exact turnOff_path

theorem makeSureIMEOn_path : LiveSteps E True s.live (s.makeSureIMEOn E).2.live := by
  dsimp only [makeSureIMEOn]
  split
  · exact .refl
  · rw [outputMode_live, applyCommandCompositionMode_live]
    split
    · exact setState_path (s := (s.setConsumed true).clearUndoContext) .precomposition
    · exact .refl

theorem makeSureIMEOff_path : LiveSteps E True s.live (s.makeSureIMEOff E).2.live := by
  have hconfirm : (s.confirmPendingDirectCommitLearning.confirmPendingZenzFeedback E).live =
      s.live := by simp
  dsimp only [makeSureIMEOff]
  generalize s.confirmPendingDirectCommitLearning.confirmPendingZenzFeedback E = t at hconfirm ⊢
  rw [← hconfirm]
  split
  · exact .refl
  · rw [outputMode_live, applyCommandCompositionMode_live]
    split
    · exact turnOff_path (s := t.setConsumed true)
    · exact .refl

theorem revert_path : LiveSteps E leak s.live (s.revert E).live := by
  have hdiscard : (s.discardPending E).clearPendingRerankedPreeditCommitAfterConvertCancel.live =
      s.live := by simp
  dsimp only [revert]
  generalize (s.discardPending E).clearPendingRerankedPreeditCommitAfterConvertCancel = t
    at hdiscard ⊢
  rw [← hdiscard]
  split_ifs
  · exact .of_eq (by simp)
  · exact .of_eq doNothing_live
  · rw [putOutput_live, clearLiveConversionState_live]
    exact (setStateToPrecompositionAndCancel_textOnly
      (s := (t.setConsumed true).clearUndoContext)).clear_steps

theorem resetContext_path : LiveSteps E leak s.live (s.resetContext E).live := by
  have hdiscard : (s.discardPending E).clearPendingRerankedPreeditCommitAfterConvertCancel.live =
      s.live := by simp
  dsimp only [resetContext]
  generalize (s.discardPending E).clearPendingRerankedPreeditCommitAfterConvertCancel = t
    at hdiscard ⊢
  rw [← hdiscard]
  split
  · exact .of_eq (by simp)
  · rw [putOutput_live, clearLiveConversionState_live]
    exact (setStateToPrecompositionAndCancel_textOnly (s :=
      (t.setConsumed true).clearUndoContext.editConverter E.converterOps.reset)).clear_steps

theorem tryCancelConvertReverse_textOnly : TextOnly s.live (s.tryCancelConvertReverse E).live := by
  unfold tryCancelConvertReverse
  split
  · exact .refl _
  · exact commitStringDirectly_textOnly ..

theorem editCancelOnPasswordField_textOnly :
    TextOnly s.live (s.editCancelOnPasswordField E).2.live := by
  dsimp only [editCancelOnPasswordField]
  split_ifs
  · exact .refl _
  · rw [setConsumed_live]
    exact commitCompositionDirectly_textOnly
  · rw [setConsumed_live]
    exact commitStringDirectly_textOnly ..

theorem editCancel_path : LiveSteps E True s.live (s.editCancel E).live := by
  have hdiscard : (s.discardPending E).clearPendingRerankedPreeditCommitAfterConvertCancel.live =
      s.live := by simp
  dsimp only [editCancel]
  generalize (s.discardPending E).clearPendingRerankedPreeditCommitAfterConvertCancel = t
    at hdiscard ⊢
  rw [← hdiscard]
  have hcancel := editCancelOnPasswordField_textOnly (E := E) (s := t)
  generalize t.editCancelOnPasswordField E = cancelled at hcancel ⊢
  split
  · exact hcancel.path
  · rw [putOutput_live, clearLiveConversionState_live]
    have hreverse := tryCancelConvertReverse_textOnly (E := E) (s := cancelled.2.setConsumed true)
    exact ((hcancel.trans hreverse).trans setStateToPrecompositionAndCancel_textOnly).clear_steps

theorem editCancelAndIMEOff_path : LiveSteps E True s.live (s.editCancelAndIMEOff E).live := by
  have hdiscard : (s.discardPending E).clearPendingRerankedPreeditCommitAfterConvertCancel.live =
      s.live := by simp
  dsimp only [editCancelAndIMEOff]
  generalize (s.discardPending E).clearPendingRerankedPreeditCommitAfterConvertCancel = t
    at hdiscard ⊢
  rw [← hdiscard]
  have hcancel := editCancelOnPasswordField_textOnly (E := E) (s := t)
  generalize t.editCancelOnPasswordField E = cancelled at hcancel ⊢
  split
  · exact hcancel.path
  split
  · rw [doNothing_live]
    exact hcancel.path
  · rw [putOutput_live, clearLiveConversionState_live]
    have hreverse := tryCancelConvertReverse_textOnly (E := E) (s := cancelled.2.setConsumed true)
    exact ((hcancel.trans hreverse).trans (setState_textOnly (s := (((cancelled.2.setConsumed
      true).tryCancelConvertReverse E).clearUndoContext.editConverter
        E.converterOps.reset)) .direct)).clear_steps

theorem undo_path : LiveSteps E True s.live (s.undo E).live := by
  have hdiscard : (s.discardPending E).clearPendingRerankedPreeditCommitAfterConvertCancel.live =
      s.live := by simp
  dsimp only [undo]
  generalize (s.discardPending E).clearPendingRerankedPreeditCommitAfterConvertCancel = t
    at hdiscard ⊢
  rw [← hdiscard]
  split
  · exact .of_eq doNothing_live
  split
  · exact .of_eq (by simp)
  split
  · exact .of_eq (by simp)
  · have hpop := popUndoContext_textOnly
      (s := (t.setConsumed true).editConverter E.converterOps.revert)
    rw [putOutput_live]
    split
    · rw [editOutput_live]
      exact hpop.path
    · exact hpop.path

theorem undoOrRewind_path : LiveSteps E True s.live (s.undoOrRewind E).live := by
  dsimp only [undoOrRewind]
  split_ifs
  · exact undo_path
  · exact .of_eq echoBack_live
  · rw [suggestAndOutput_live, clearUndoContext_live]
    exact editComposer_path (s := s.setConsumed true) _

theorem stopKeyToggling_path : LiveSteps E True s.live (s.stopKeyToggling E).live := by
  dsimp only [stopKeyToggling]
  split
  · exact .of_eq doNothing_live
  · rw [putOutput_live, clearUndoContext_live]
    exact editComposer_path (s := s.setConsumed true) _

theorem convertReverse_path : LiveSteps E True s.live (s.convertReverse E).2.live := by
  dsimp only [convertReverse]
  split
  · exact .of_eq doNothing_live
  split
  · exact .of_eq doNothing_live
  split
  · exact .of_eq doNothing_live
  · have hedit : ∀ f : Composer K → Composer K, TextOnly s.live
        ((s.editComposer (·.reset E.composerOps)).clearUndoContext.editComposer f).live :=
      fun f => (editComposer_textOnly (·.reset E.composerOps)).trans (editComposer_textOnly f)
    split
    · exact (hedit _).path
    · rw [putOutput_live, setCandidateListVisible_live]
      exact LiveSteps.trans (hedit _).path (setState_path .conversion)

theorem updateComposition_path : LiveSteps E True s.live (s.updateComposition E).2.live := by
  have hedit : ∀ f : Composer K → Composer K, LiveSteps E True s.live
      ((((s.setConsumed true).editComposer f).clearUndoContext.setState E
        .composition).suggestAndOutput E).live := by
    intro f
    rw [suggestAndOutput_live]
    exact ((editComposer_textOnly (s := s.setConsumed true) f).trans (setState_textOnly
      (s := ((s.setConsumed true).editComposer f).clearUndoContext) .composition)).path
  unfold updateComposition
  split
  · exact .of_eq echoBackAndClearUndoContext_live
  · exact hedit _
  · exact hedit _
  · exact .refl
  · exact .refl

end Commit

section Insertion

theorem insertCharacterDirectly_path (key : KeyEvent) :
    LiveSteps E True s.live (s.insertCharacterDirectly E key).live := by
  dsimp only [insertCharacterDirectly]
  split
  · exact .of_eq echoBackAndClearUndoContext_live
  · rw [clearUndoContext_live]
    exact ((editComposer_textOnly (s := s.clearPendingRerankedPreeditCommitAfterConvertCancel)
      _).trans commitCompositionDirectly_textOnly).path

theorem insertDirectCommitTrigger_path (key : KeyEvent) :
    LiveSteps E True s.live (s.insertDirectCommitTrigger E key).live := by
  have hedit : LiveSteps E True s.live ((s.editComposer (E.composerOps.insertCharacterKeyEvent
      key)).clearUndoContext).live := editComposer_path _
  dsimp only [insertDirectCommitTrigger]
  generalize (s.editComposer (E.composerOps.insertCharacterKeyEvent key)).clearUndoContext = t
    at hedit ⊢
  split
  · have hlearn : (t.commitPendingRerankedPreeditAfterConvertCancelForDirectCommit E s.composer
        (text "convert_cancel_direct_commit_punctuation")).2.live = t.live :=
      commitPendingRerankedPreedit_live ..
    rw [← hlearn] at hedit
    split
    · exact hedit.trans (clear_commitStringDirectly_steps ..)
    · exact hedit.trans commitPendingLiveConversionDisplayDirectly_steps
  · have hcancel : LiveSteps E True t.live (t.clearPendingRerankedPreeditCommitAfterConvertCancel
        |>.cancelPendingLiveConversion).live := .act .cancelPending
    have hschedule := (hedit.trans hcancel).trans maybeScheduleLiveConversion_steps
    split
    · exact hschedule
    · exact hschedule

theorem commitBeforeShiftAsciiInput_path (key : KeyEvent) :
    LiveSteps E True s.live (s.commitBeforeShiftAsciiInput E key).live := by
  have hinsert : ∀ t : Exec K V H, LiveSteps E True t.live
      (((t.editComposer (E.composerOps.insertCharacterKeyEvent key)).clearUndoContext.setState E
        .composition).outputComposition E).live := fun t =>
    ((editComposer_textOnly _).trans (setState_textOnly (s := (t.editComposer
      (E.composerOps.insertCharacterKeyEvent key)).clearUndoContext) .composition)).path
  rw [← clearPendingRerankedPreeditCommitAfterConvertCancel_live (s := s)]
  dsimp only [commitBeforeShiftAsciiInput]
  refine LiveSteps.trans ?_ (hinsert _)
  split_ifs
  · exact commitZenzLiveCorrectionResult_steps
  · exact clear_commitStringDirectly_steps ..
  · exact clear_commitStringDirectly_steps ..
  · exact clear_commitStringDirectly_steps ..
  · exact clear_commitStringDirectly_steps ..
  · exact commitPendingLiveConversionDisplayDirectly_steps
  · exact .refl

theorem commitAfterPunctuation_path (before : Composer K) (key : KeyEvent) (wasLive : Bool)
    (zenz : Option VisibleZenz) (committedBefore : Bool) : LiveSteps E True s.live
      (s.commitAfterPunctuation E before key wasLive zenz committedBefore).live := by
  have hlearn : (s.commitPendingRerankedPreeditAfterConvertCancelForDirectCommit E before
      (text "convert_cancel_direct_commit_punctuation")).2.live = s.live :=
    commitPendingRerankedPreedit_live ..
  dsimp only [commitAfterPunctuation]
  generalize s.commitPendingRerankedPreeditAfterConvertCancelForDirectCommit E before
    (text "convert_cancel_direct_commit_punctuation") = learned at hlearn ⊢
  rw [← hlearn]
  have hlive : LiveSteps E True learned.2.live
      (if wasLive then learned.2.commitLiveConversionResult E else (false, learned.2)).2.live := by
    split
    · exact commitLiveConversionResult_steps (.inl trivial)
    · exact .refl
  split
  · exact clear_commitStringDirectly_steps ..
  split
  · rename_i visible
    rw [← setPendingZenzFeedbackAccepted_live (E := E) (s := learned.2) visible.key
      visible.contextClass visible.value]
    exact clear_commitStringDirectly_steps ..
  · generalize (if wasLive then learned.2.commitLiveConversionResult E else (false, learned.2)) =
      committed at hlive ⊢
    split
    · exact hlive
    · refine hlive.trans (LiveSteps.trans (.of_eq ?_) commitCompositionDirectly_textOnly.path)
      split
      · exact setPendingDirectCommitLearningFromCommittedResult_live _
      · rfl

theorem commitBeforeInsert_path : LiveSteps E True s.live (s.commitBeforeInsert E).2.live := by
  dsimp only [commitBeforeInsert]
  split
  · rw [confirmPendingZenzFeedback_live]
    exact commitNotTriggeringZeroQuerySuggest_steps
  · exact .refl

theorem forgetLiveConversion_path (wasLive : Bool) :
    LiveSteps E True s.live (s.forgetLiveConversion E wasLive).live := by
  dsimp only [forgetLiveConversion]
  split
  · exact (LiveSteps.act (.forget (.inl trivial))).tail .cancelZenz
  · exact .refl

variable {convert insert : Exec K V H → Bool × Exec K V H}

theorem continueComposition_path (hconvert : ∀ t, LiveSteps E True t.live (convert t).2.live)
    (key : KeyEvent) : LiveSteps E True s.live (s.continueComposition E convert key).2.live := by
  dsimp only [continueComposition]
  rw [← clearPendingRerankedPreeditCommitAfterConvertCancel_live (s := s)]
  generalize s.clearPendingRerankedPreeditCommitAfterConvertCancel = t
  split
  · exact commitCompositionDirectly_textOnly.path
  split
  · exact commitHead_steps (.inl trivial) _
  · refine LiveSteps.trans (setState_path (E := E) .composition) ?_
    split
    · exact (LiveSteps.act .cancelPending).trans
        (hconvert (t.setState E .composition).cancelPendingLiveConversion)
    · split
      · exact maybeScheduleLiveConversion_steps
      · rw [suggestAndOutput_live]
        exact maybeScheduleLiveConversion_steps

theorem insertCharacterInComposition_path
    (hconvert : ∀ t, LiveSteps E True t.live (convert t).2.live) (key : KeyEvent) :
    LiveSteps E True s.live (s.insertCharacterInComposition E convert key).2.live := by
  dsimp only [insertCharacterInComposition]
  have hselect : LiveSteps E True s.live
      ((s.cancelLiveConversionForEditing E).maybeSelectCandidate E).2.live := by
    rw [maybeSelectCandidate_live]
    exact cancelLiveConversionForEditing_steps
  refine hselect.trans ?_
  generalize (s.cancelLiveConversionForEditing E).maybeSelectCandidate E = selected
  split
  · exact .refl
  · refine commitBeforeInsert_path.trans ?_
    generalize selected.2.commitBeforeInsert E = committed
    split
    · exact ((editComposer_textOnly (s :=
        committed.2.clearPendingRerankedPreeditCommitAfterConvertCancel.clearUndoContext)
          _).trans commitCompositionDirectly_textOnly).path
    · have hedit : LiveSteps E True committed.2.live
          ((((committed.2.editComposer (E.composerOps.insertCharacterKeyEvent
            key)).clearUndoContext).forgetLiveConversion E s.liveConversionActive)).live :=
        LiveSteps.trans (editComposer_path _) (forgetLiveConversion_path (s :=
          (committed.2.editComposer (E.composerOps.insertCharacterKeyEvent
            key)).clearUndoContext) _)
      split
      · exact hedit.trans (commitAfterPunctuation_path ..)
      · exact hedit.trans (continueComposition_path hconvert key)

theorem insertCharacterWith_path (hconvert : ∀ t, LiveSteps E True t.live (convert t).2.live) :
    LiveSteps E True s.live (s.insertCharacterWith E convert).2.live := by
  unfold insertCharacterWith
  split
  · exact .refl
  · rename_i key _
    have hhandle : ((s.handlePendingDirectCommitLearningForKeyEvent E
        key).handlePendingZenzFeedbackForKeyEvent E).live = s.live := by simp
    dsimp only
    generalize (s.handlePendingDirectCommitLearningForKeyEvent E
      key).handlePendingZenzFeedbackForKeyEvent E = t at hhandle ⊢
    rw [← hhandle]
    split
    · exact insertCharacterDirectly_path key
    · rw [← setConsumed_live (s := t) true]
      split_ifs
      · exact insertDirectCommitTrigger_path key
      · exact commitBeforeShiftAsciiInput_path key
      · exact insertCharacterInComposition_path hconvert key

theorem convertWith_path (hinsert : ∀ t, LiveSteps E True t.live (insert t).2.live) :
    LiveSteps E True s.live (s.convertWith E insert).2.live := by
  dsimp only [convertWith]
  have hstart : LiveSteps E True s.live (s.cancelPendingLiveConversion.setConsumed true).live :=
    .act .cancelPending
  refine hstart.trans ?_
  generalize s.cancelPendingLiveConversion.setConsumed true = t
  split
  · split
    · exact (editComposer_path _).trans commit_steps
    · exact hinsert (t.editKey _)
  · have hspace : TextOnly t.live (if (t.state = .composition ∧ isAsciiMode t.composer.inputMode ∧
          t.input.keyEvent.specialKey = some .space) ∧
            t.composer.getQueryForConversion E.composerOps ≠ [] then
        (t.editComposer (·.backspace E.composerOps)).clearUndoContext else t).live := by
      split
      · exact editComposer_textOnly _
      · exact .refl _
    generalize (if (t.state = .composition ∧ isAsciiMode t.composer.inputMode ∧
        t.input.keyEvent.specialKey = some .space) ∧
          t.composer.getQueryForConversion E.composerOps ≠ [] then
      (t.editComposer (·.backspace E.composerOps)).clearUndoContext else t) = u at hspace ⊢
    refine hspace.path.trans ?_
    split
    · exact .refl
    · rw [putOutput_live]
      split
      · exact setState_path (s := (u.callConverter _).2) .conversion
      · exact setState_path (s := (u.callConverter _).2) .conversion

theorem insertCharacterUpTo_path (depth : Nat) :
    LiveSteps E True s.live (s.insertCharacterUpTo E depth).2.live := by
  induction depth generalizing s with
  | zero => exact .refl
  | succ depth ih => exact insertCharacterWith_path fun _ => convertWith_path fun _ => ih

theorem insertCharacter_path : LiveSteps E True s.live (s.insertCharacter E).2.live :=
  insertCharacterUpTo_path _

theorem convert_path : LiveSteps E True s.live (s.convert E).2.live :=
  convertWith_path fun _ => insertCharacter_path

end Insertion

end Exec

end Mozkey.Session
