import Mozkey.Session.LiveEditing

/-! The commands and the calls of a session as paths of the live conversion machine. -/

namespace Mozkey.Session

variable {K V H A : Type} {E : Env K V H} {leak : Prop}

namespace Exec

variable {s t : Exec K V H}

section Conversion

theorem insertSpaceHalfWidth_path : LiveSteps E True s.live (s.insertSpaceHalfWidth E).2.live := by
  dsimp only [insertSpaceHalfWidth]
  split_ifs
  · exact .of_eq doNothing_live
  · exact .of_eq echoBackAndClearUndoContext_live
  · exact insertCharacter_path (s := s.replaceKeyBySpace (text " "))

theorem insertSpaceFullWidth_path : LiveSteps E True s.live (s.insertSpaceFullWidth E).2.live := by
  dsimp only [insertSpaceFullWidth]
  split
  · exact .of_eq doNothing_live
  · refine LiveSteps.trans (.of_eq ?_) insertCharacter_path
    split <;> rfl

theorem insertSpace_path : LiveSteps E True s.live (s.insertSpace E).2.live := by
  unfold insertSpace
  split
  · exact insertSpaceFullWidth_path
  · exact insertSpaceHalfWidth_path

theorem insertSpaceToggled_path : LiveSteps E True s.live (s.insertSpaceToggled E).2.live := by
  unfold insertSpaceToggled
  split
  · exact insertSpaceHalfWidth_path
  · exact insertSpaceFullWidth_path

theorem requestReconvertSelectionOrInsertSpace_path :
    LiveSteps E True s.live (s.requestReconvertSelectionOrInsertSpace E).2.live := by
  dsimp only [requestReconvertSelectionOrInsertSpace]
  split
  · exact .of_eq doNothing_live
  · split
    · rw [putCallback_live]
      exact insertSpace_path
    · exact insertSpace_path

theorem deleteWith_path (edit : Composer K → Composer K) :
    LiveSteps E True s.live (s.deleteWith E edit).live := by
  have hdiscard : (((s.discardPending E).clearPendingRerankedPreeditCommitAfterConvertCancel
      ).setConsumed true).live = s.live := by simp
  dsimp only [deleteWith]
  generalize ((s.discardPending E).clearPendingRerankedPreeditCommitAfterConvertCancel
    ).setConsumed true = t at hdiscard ⊢
  rw [← hdiscard]
  refine cancelLiveConversionForEditing_steps.trans ?_
  generalize t.cancelLiveConversionForEditing E = u
  have hedit : LiveSteps E True u.live (u.editComposer edit).clearUndoContext.live :=
    editComposer_path edit
  split
  · rw [putOutput_live]
    exact hedit.trans setStateToPrecompositionAndCancel_textOnly.path
  · refine hedit.trans ?_
    split
    · exact maybeStartLiveConversion_steps
    · rw [suggestAndOutput_live]
      exact maybeStartLiveConversion_steps

theorem convertWithoutHistory_path : LiveSteps E True s.live (s.convertWithoutHistory E).live := by
  have hstart : LiveSteps E True s.live (s.cancelPendingLiveConversion.setConsumed true).live :=
    .act .cancelPending
  dsimp only [convertWithoutHistory]
  refine hstart.trans ?_
  generalize s.cancelPendingLiveConversion.setConsumed true = t
  split
  · exact .refl
  · exact setState_path (s := (t.callConverter _).2) .conversion

theorem convertTo_path (operation : Composer K → Engine V H → Bool × Engine V H) :
    LiveSteps E True s.live (s.convertTo E operation).2.live := by
  dsimp only [convertTo]
  split
  · exact .of_eq doNothing_live
  · split
    · exact .refl
    · exact setState_path (s := ((s.setConsumed true).callConverter _).2) .conversion

theorem displayAs_path {convert : Exec K V H → Bool × Exec K V H}
    (h : ∀ t, LiveSteps E True t.live (convert t).2.live)
    (mode : TransliterationType → TransliterationType) :
    LiveSteps E True s.live (s.displayAs E convert mode).2.live := by
  dsimp only [displayAs]
  split
  · exact h (s.setConsumed true)
  · exact editComposer_path (s := s.setConsumed true) _

theorem convertCancel_path : LiveSteps E True s.live (s.convertCancel E).live := by
  have hdiscard : (((s.discardPending E).setConsumed
      true).maybeSetPendingRerankedPreeditCommitAfterConvertCancel E).live = s.live := by simp
  dsimp only [convertCancel]
  rw [suggestAndOutput_live, editConverter_live]
  refine LiveSteps.trans ?_ (setState_path .composition)
  rw [clearLiveConversionState_live, hdiscard]
  exact .act .clear

theorem deleteCandidateFromHistory_path :
    LiveSteps E True s.live (s.deleteCandidateFromHistory E).live := by
  dsimp only [deleteCandidateFromHistory]
  split
  · exact .of_eq (by simp)
  · exact convertCancel_path (s := (s.callConverter _).2)

theorem predict_path : LiveSteps E True s.live (s.predict E).live := by
  dsimp only [predict]
  split
  · exact setState_path (s := (s.callConverter _).2) .conversion
  · exact .refl

theorem predictAndConvert_path : LiveSteps E True s.live (s.predictAndConvert E).live := by
  dsimp only [predictAndConvert]
  have hcancel : LiveSteps E True s.live s.cancelPendingLiveConversion.live := .act .cancelPending
  split
  · rw [convertNext_live]
    exact hcancel
  · exact hcancel.trans (predict_path (s := s.cancelPendingLiveConversion.setConsumed true))

theorem predictAndConvertFromLiveConversion_path :
    LiveSteps E True s.live (s.predictAndConvertFromLiveConversion E).live := by
  dsimp only [predictAndConvertFromLiveConversion]
  have hstart : LiveSteps E True s.live (s.cancelPendingLiveConversion.setConsumed true).live :=
    .act .cancelPending
  refine hstart.trans ?_
  generalize s.cancelPendingLiveConversion.setConsumed true = t
  split
  · exact predictAndConvert_path
  · have hreject : ∀ u : Exec K V H, u.live = t.live → LiveSteps E True t.live
        (((u.clearZenzLiveCorrectionState.clearLiveConversionState.setState E
          .composition).editConverter E.converterOps.cancel).predict E).live := by
      intro u hu
      rw [← hu]
      refine LiveSteps.trans ?_ predict_path
      exact ((LiveSteps.act .cancelZenz).tail .clear).trans (setState_path (s :=
        u.clearZenzLiveCorrectionState.clearLiveConversionState) .composition)
    split
    · exact hreject _ (setPendingZenzFeedbackRejected_live _)
    · exact hreject _ rfl

theorem revertZenzLiveCorrectionToNormalConversion_path :
    LiveSteps E True s.live (s.revertZenzLiveCorrectionToNormalConversion E).2.live := by
  dsimp only [revertZenzLiveCorrectionToNormalConversion]
  split
  · exact .refl
  · have hreject := setPendingZenzFeedbackRejected_live (E := E) (s := s)
      (text "space_revert_zenz_to_mozc")
    generalize s.setPendingZenzFeedbackRejected E (text "space_revert_zenz_to_mozc") = t
      at hreject ⊢
    rw [← hreject, editOutput_live]
    split
    · exact .act .clear
    · exact .act .clear

end Conversion

section Modes

theorem compositionMode_steps (h : Guarded leak s.live) (mode : TransliterationType) :
    LiveSteps E leak s.live (s.compositionMode E mode).live := by
  rw [compositionMode, outputFromState_live, editComposer_live_eq (by simp) (by simp)]
  exact ensureIMEIsOn_steps (s := s.setConsumed true) h

theorem switchInputFieldType_path : LiveSteps E True s.live (s.switchInputFieldType E).live := by
  rw [switchInputFieldType, putOutput_live]
  exact editComposer_path (s := s.setConsumed true) _

end Modes

section Commands

theorem executeDirectInputCommand_path (command : DirectInputCommand) :
    LiveSteps E True s.live (s.executeDirectInputCommand E command).2.live := by
  cases command
  case none => exact .of_eq echoBackAndClearUndoContext_live
  case imeOn => exact imeOn_path
  case reconvert => exact .of_eq requestConvertReverse_live
  case compositionModeHiragana | compositionModeFullKatakana | compositionModeHalfKatakana
    | compositionModeFullAlphanumeric | compositionModeHalfAlphanumeric =>
    exact compositionMode_steps (.inl trivial) _

theorem executePrecompositionCommand_path (command : PrecompositionCommand) :
    LiveSteps E True s.live (s.executePrecompositionCommand E command).2.live := by
  cases command
  case insertCharacter => exact insertCharacter_path
  case insertSpace => exact insertSpace_path
  case insertAlternateSpace => exact insertSpaceToggled_path
  case insertHalfSpace => exact insertSpaceHalfWidth_path
  case insertFullSpace => exact insertSpaceFullWidth_path
  case toggleAlphanumericMode => exact .of_eq toggleAlphanumericMode_live
  case revert => exact revert_path
  case undo => exact .of_eq requestUndo_live
  case imeOff => exact imeOff_path
  case imeOn => exact .of_eq doNothing_live
  case compositionModeSwitchKanaType => exact .of_eq compositionModeSwitchKanaType_live
  case cancel => exact editCancel_path
  case cancelAndImeOff => exact editCancelAndIMEOff_path
  case commitFirstSuggestion => exact commitFirstSuggestion_steps (.inl trivial)
  case predictAndConvert => exact predictAndConvert_path
  case none =>
    dsimp only [executePrecompositionCommand]
    split
    · exact revert_path
    · exact .of_eq echoBackAndClearUndoContext_live
  case reconvert => exact .of_eq requestConvertReverse_live
  case reconvertSelectionOrInsertSpace => exact requestReconvertSelectionOrInsertSpace_path
  case imeAction => exact .of_eq imeAction_live
  case compositionModeHiragana | compositionModeFullKatakana | compositionModeHalfKatakana
    | compositionModeFullAlphanumeric | compositionModeHalfAlphanumeric =>
    exact compositionMode_steps (.inl trivial) _
  case launchConfigDialog | launchDictionaryTool | launchWordRegisterDialog =>
    exact .of_eq (launchTool_live _)

theorem executeCompositionCommand_path (command : CompositionCommand) :
    LiveSteps E True s.live (s.executeCompositionCommand E command).2.live := by
  cases command
  case insertCharacter => exact insertCharacter_path
  case commit => exact commit_steps
  case commitFirstSuggestion => exact commitFirstSuggestion_steps (.inl trivial)
  case convert => exact convert_path
  case convertWithoutHistory => exact convertWithoutHistory_path
  case predictAndConvert => exact predictAndConvert_path
  case del | backspace => exact deleteWith_path _
  case insertSpace => exact insertSpace_path
  case insertAlternateSpace => exact insertSpaceToggled_path
  case insertHalfSpace => exact insertSpaceHalfWidth_path
  case insertFullSpace => exact insertSpaceFullWidth_path
  case moveCursorLeft => exact moveCursorLeft_steps (.inl trivial)
  case moveCursorRight => exact moveCursorRight_steps (.inl trivial)
  case moveCursorToBeginning | moveMoveCursorToEnd => exact (moveCursor_textOnly _ _).path
  case cancel => exact editCancel_path
  case cancelAndImeOff => exact editCancelAndIMEOff_path
  case undo => exact .of_eq requestUndo_live
  case imeOff => exact imeOff_path
  case imeOn | none => exact .of_eq doNothing_live
  case convertToHalfWidth | switchKanaType => exact convertTo_path _
  case toggleAlphanumericMode => exact .of_eq toggleAlphanumericMode_live
  case convertToHiragana | convertToFullKatakana | convertToHalfKatakana
    | convertToFullAlphanumeric | convertToHalfAlphanumeric => exact convertTo_path _
  case compositionModeHiragana | compositionModeFullKatakana | compositionModeHalfKatakana
    | compositionModeFullAlphanumeric | compositionModeHalfAlphanumeric =>
    exact compositionMode_steps (.inl trivial) _
  case displayAsHiragana | displayAsFullKatakana | displayAsHalfKatakana | translateFullAscii
    | translateHalfAscii | translateHalfWidth => exact displayAs_path (fun _ => convertTo_path _) _

theorem executeConversionCommand_path (command : ConversionCommand) :
    LiveSteps E True s.live (s.executeConversionCommand E command).2.live := by
  cases command
  case insertCharacter => exact insertCharacter_path
  case insertSpace => exact insertSpace_path
  case insertAlternateSpace => exact insertSpaceToggled_path
  case insertHalfSpace => exact insertSpaceHalfWidth_path
  case insertFullSpace => exact insertSpaceFullWidth_path
  case commit => exact commit_steps
  case commitSegment => exact commitSegment_textOnly.path
  case convertNext => exact .of_eq convertNext_live
  case convertPrev => exact .of_eq convertPrev_live
  case predictAndConvert => exact predictAndConvert_path
  case cancel => exact convertCancel_path
  case cancelAndImeOff => exact editCancelAndIMEOff_path
  case undo => exact .of_eq requestUndo_live
  case imeOff => exact imeOff_path
  case imeOn | reportBug | none => exact .of_eq doNothing_live
  case convertToHalfWidth | switchKanaType => exact convertTo_path _
  case toggleAlphanumericMode => exact .of_eq toggleAlphanumericMode_live
  case deleteSelectedCandidate => exact deleteCandidateFromHistory_path
  case convertNextPage | convertPrevPage | segmentFocusLeft | segmentFocusRight | segmentFocusFirst
    | segmentFocusLast | segmentWidthExpand | segmentWidthShrink =>
    exact .of_eq (segmentFocus_live _)
  case convertToHiragana | convertToFullKatakana | convertToHalfKatakana
    | convertToFullAlphanumeric | convertToHalfAlphanumeric => exact convertTo_path _
  case compositionModeHiragana | compositionModeFullKatakana | compositionModeHalfKatakana
    | compositionModeFullAlphanumeric | compositionModeHalfAlphanumeric =>
    exact compositionMode_steps (.inl trivial) _
  case displayAsHiragana | displayAsFullKatakana | displayAsHalfKatakana | translateFullAscii
    | translateHalfAscii | translateHalfWidth => exact displayAs_path (fun _ => convertTo_path _) _

theorem executeCommandName_path (name : CommandName) :
    LiveSteps E True s.live (s.executeCommandName E name).2.live := by
  unfold executeCommandName
  split
  · split
    · exact .refl
    · exact executeDirectInputCommand_path _
  · split
    · exact .refl
    · exact executePrecompositionCommand_path _
  · split
    · exact .refl
    · exact executeCompositionCommand_path _
  · split
    · exact .refl
    · exact executeConversionCommand_path _
  · exact .refl

theorem executeCommandSequenceFrom_path (sequence : CommandSequence) (accumulated : Accumulated) :
    LiveSteps E True s.live (s.executeCommandSequenceFrom E sequence accumulated).live := by
  induction sequence generalizing accumulated s with
  | nil => exact .of_eq (finishSequence_live accumulated)
  | cons name names ih =>
    have hname := executeCommandName_path (E := E) (s := s.editOutput fun _ => {}) name
    rw [editOutput_live] at hname
    dsimp only [executeCommandSequenceFrom]
    split
    · rw [finishSequence_live]
      exact hname
    · exact hname.trans (ih _)

theorem executeCommandSequence_path (sequence : CommandSequence) :
    LiveSteps E True s.live (s.executeCommandSequence E sequence).live :=
  executeCommandSequenceFrom_path sequence none

end Commands

section Keys

theorem sendUnboundKey_live_steps : LiveSteps E leak s.live (s.sendUnboundKey E).live := by
  dsimp only [sendUnboundKey]
  split_ifs
  · exact revert_path
  · exact .of_eq (by simp)
  · exact .of_eq echoBackAndClearUndoContext_live

theorem promoteLiveConversion_path (command : ConversionCommand) :
    LiveSteps E True s.live (s.promoteLiveConversion E command).live := by
  dsimp only [promoteLiveConversion]
  have hclear : ∀ t : Exec K V H, t.live = s.live → LiveSteps E True s.live
      (({ t.clearZenzLiveCorrectionState with
        liveConversionActive := false } : Exec K V H).setCandidateListVisible true).live := by
    intro t ht
    rw [← ht]
    exact (LiveSteps.act .cancelZenz).tail .stop
  split_ifs
  · exact .refl
  · exact .act .stop
  · exact hclear _ discardPendingZenzFeedback_live
  · exact hclear _ (setPendingZenzFeedbackRejected_live _)
  · exact hclear _ rfl

theorem sendKeyLiveConversion_path (command : ConversionCommand) (first : CommandName)
    (rest : CommandSequence) :
    LiveSteps E True s.live (s.sendKeyLiveConversion E command first rest).live := by
  dsimp only [sendKeyLiveConversion]
  split
  · refine LiveSteps.trans ?_ (deleteWith_path _)
    rw [clearZenzLiveCorrectionState_live, discardPendingZenzFeedback_live]
    exact .act .cancelZenz
  split
  · split
    · exact commitZenzLiveCorrectionResult_steps
    · exact commitZenzLiveCorrectionResult_steps.trans (executeCommandSequenceFrom_path ..)
  split
  · exact revertZenzLiveCorrectionToNormalConversion_path
  split
  · split
    · exact predictAndConvertFromLiveConversion_path
    · exact predictAndConvertFromLiveConversion_path.trans (executeCommandSequenceFrom_path ..)
  · exact (promoteLiveConversion_path command).trans (executeCommandSequence_path _)

theorem sendKeyInState_path : LiveSteps E True s.live (s.sendKeyInState E).live := by
  unfold sendKeyInState
  split
  · unfold sendKeyDirectInputState
    split
    · exact .of_eq echoBackAndClearUndoContext_live
    · exact executeCommandSequence_path _
  · unfold sendKeyPrecompositionState
    split
    · exact sendUnboundKey_live_steps
    · exact executeCommandSequence_path (s := s.updateClientContext) _
  · dsimp only [sendKeyCompositionState]
    split
    · exact .of_eq doNothing_live
    · exact executeCommandSequence_path _
  · unfold sendKeyConversionState
    split
    · exact .of_eq doNothing_live
    · exact .of_eq doNothing_live
    split
    · exact .of_eq doNothing_live
    split
    · exact sendKeyLiveConversion_path ..
    · exact executeCommandSequence_path _
  · exact .refl

theorem handleIndirectImeOnOff_path :
    LiveSteps E True s.live (s.handleIndirectImeOnOff E).live := by
  unfold handleIndirectImeOnOff
  split
  · split
    · exact imeOn_path
    · exact .refl
  · split
    · exact imeOff_path
    · exact .refl
  · exact .refl

theorem leaveLiveConversion_live_steps : LiveSteps E leak s.live s.leaveLiveConversion.live := by
  dsimp only [leaveLiveConversion]
  split
  · exact (LiveSteps.act .stop).tail .cancelZenz
  · exact .refl

theorem leaveLiveConversion_guarded : Guarded False s.leaveLiveConversion.live := by
  dsimp only [leaveLiveConversion]
  split
  · exact .of_inactive (.inr rfl)
  · rename_i hstate
    exact .inr fun _ => not_not.mp hstate

theorem sendKey_path : LiveSteps E True s.live (s.sendKey E).live := by
  dsimp only [sendKey]
  rw [maybeSetUndoStatus_live]
  have hindirect := handleIndirectImeOnOff_path (E := E)
    (s := s.updateTime.updatePreferences.transformInput E)
  exact (hindirect.trans sendKeyInState_path).trans leaveLiveConversion_live_steps

theorem sendKey_guarded : Guarded False (s.sendKey E).live := by
  dsimp only [sendKey]
  rw [maybeSetUndoStatus_live]
  exact leaveLiveConversion_guarded

theorem testSendKey_live_steps : LiveSteps E leak s.live (s.testSendKey E).live := by
  have hspace : ∀ (t : Exec K V H) echoes, (t.testSpace E echoes).live = t.live := by
    intro t echoes
    unfold testSpace
    split <;> simp
  have hstart : (s.updateTime.updatePreferences.transformInput E).live = s.live := rfl
  dsimp only [testSendKey]
  generalize s.updateTime.updatePreferences.transformInput E = t at hstart ⊢
  rw [← hstart]
  split
  · exact .refl
  split
  · split <;> exact .of_eq (by simp)
  · split
    · exact sendUnboundKey_live_steps
    · unfold testPrecompositionCommand
      split
      · exact sendUnboundKey_live_steps
      · exact .of_eq (by split <;> simp)
      · exact .of_eq (hspace ..)
      · exact .of_eq (hspace ..)
      · exact .of_eq (hspace ..)
      · exact .of_eq (hspace ..)
      · exact .of_eq doNothing_live
      · exact revert_path
      · exact .of_eq (by split <;> simp)
      · exact .of_eq doNothing_live
  · exact .of_eq doNothing_live

end Keys

section ClientCommands

theorem switchCompositionMode_steps (h : Guarded leak s.live) :
    LiveSteps E leak s.live (s.switchCompositionMode E).2.live := by
  dsimp only [switchCompositionMode]
  split
  · exact .refl
  · rw [maybeSetUndoStatus_live]
    split
    · exact .refl
    all_goals exact compositionMode_steps h _

theorem executeSessionCommand_path (type : CommandType) :
    LiveSteps E True s.live (s.executeSessionCommand E type).2.live := by
  cases type
  case none | reconvertSelectionOrInsertSpace => exact .of_eq doNothing_live
  case revert => exact revert_path
  case submit => exact commit_steps
  case selectCandidate => exact selectCandidate_steps (.inl trivial)
  case submitCandidate => exact commitCandidate_textOnly.path
  case highlightCandidate => exact highlightCandidate_steps (.inl trivial)
  case getStatus => exact .of_eq outputMode_live
  case convertReverse => exact convertReverse_path
  case undo => exact undo_path
  case resetContext => exact resetContext_path
  case moveCursor => exact moveCursorTo_steps (.inl trivial)
  case switchInputFieldType => exact switchInputFieldType_path
  case undoOrRewind => exact undoOrRewind_path
  case commitRawText => exact commitRawText_textOnly.path
  case convertPrevPage | convertNextPage => exact .of_eq (segmentFocus_live _)
  case turnOnIme => exact makeSureIMEOn_path
  case turnOffIme => exact makeSureIMEOff_path
  case deleteCandidateFromHistory => exact deleteCandidateFromHistory_path
  case stopKeyToggling => exact stopKeyToggling_path
  case updateComposition => exact updateComposition_path
  case requestNwp => exact .of_eq requestNwp_live
  case applyLiveConversion => exact applyDelayedLiveConversion_steps
  case applyZenzLiveCorrection => exact applyZenzLiveCorrection_steps
  case switchCompositionMode => exact switchCompositionMode_steps (.inl trivial)

theorem sendCommand_path : LiveSteps E True s.live (s.sendCommand E).2.live := by
  dsimp only [sendCommand]
  split
  · exact .refl
  · rename_i command _
    have hhandle : ((s.updateTime.updatePreferences.transformInput E).handlePendingForSessionCommand
        E command.type).live = s.live := by simp
    rw [← hhandle]
    split
    · exact switchCompositionMode_steps (.inl trivial)
    · rw [maybeSetUndoStatus_live]
      exact (executeSessionCommand_path _).trans leaveLiveConversion_live_steps

theorem sendCommand_guarded (h : Guarded False s.live) : Guarded False (s.sendCommand E).2.live := by
  dsimp only [sendCommand]
  split
  · exact h
  · rename_i command _
    have hhandle : ((s.updateTime.updatePreferences.transformInput E).handlePendingForSessionCommand
        E command.type).live = s.live := by simp
    rw [← hhandle] at h
    split
    · exact (switchCompositionMode_steps h).guarded h
    · rw [maybeSetUndoStatus_live]
      exact leaveLiveConversion_guarded

end ClientCommands

end Exec

/-! Calls. -/

set_option linter.dupNamespace false

/-- What holds of the live conversion between two calls. -/
structure Settled (v : LiveView K) : Prop where
  scheduled : PendingIsScheduled v
  guarded : Guarded False v

theorem Settled.call {session : Session K V H} (h : Settled session.live) (call : Call K V) :
    Settled (session.call E call).live := by
  cases call with
  | sendKey input =>
    exact ⟨(Exec.sendKey_path (s := session.exec input)).pendingIsScheduled h.scheduled,
      Exec.sendKey_guarded⟩
  | testSendKey input =>
    have hsteps := @Exec.testSendKey_live_steps _ _ _ E False (session.exec input)
    exact ⟨hsteps.pendingIsScheduled h.scheduled, hsteps.guarded h.guarded⟩
  | sendCommand input =>
    exact ⟨(Exec.sendCommand_path (s := session.exec input)).pendingIsScheduled h.scheduled,
      Exec.sendCommand_guarded (s := session.exec input) h.guarded⟩
  | configure context => exact ⟨h.scheduled, h.guarded⟩

theorem Settled.run {session : Session K V H} (h : Settled session.live)
    (calls : List (Env K V H × Call K V)) : Settled (session.run calls).live := by
  induction calls generalizing session with
  | nil => exact h
  | cons call calls ih => exact ih (h.call call.2)

theorem settled_create (composer : Composer K) (converter : EngineConverter V) (history : H) :
    Settled (Session.create composer converter history).live :=
  ⟨(nomatch ·), .inr (nomatch ·)⟩

end Mozkey.Session
