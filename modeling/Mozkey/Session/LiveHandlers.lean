import Mozkey.Session.LiveMachine

/-! The handlers of a session as paths of the live conversion machine: each of them takes the steps
of the functions it calls. -/

namespace Mozkey.Session

namespace Exec

variable {K V H A : Type} {E : Env K V H} {leak : Prop} {s : Exec K V H}

theorem live_ite {c : Prop} [Decidable c] {t u : Exec K V H} (h : t.live = u.live) :
    (if c then t else u).live = u.live := by
  split
  · exact h
  · rfl

/-! Functions that change one thing. -/

@[simp] theorem cancelPendingZenzLiveCorrection_live :
    s.cancelPendingZenzLiveCorrection.live = s.live.cancelZenz := rfl

@[simp] theorem clearZenzLiveCorrectionState_live :
    s.clearZenzLiveCorrectionState.live = s.live.cancelZenz := rfl

@[simp] theorem cancelPendingLiveConversion_live :
    s.cancelPendingLiveConversion.live = s.live.cancelPending := rfl

@[simp] theorem clearLiveConversionState_live :
    s.clearLiveConversionState.live = s.live.clear := rfl

@[simp] theorem scheduleLiveConversion_live :
    (s.scheduleLiveConversion E).live = s.live.schedule (s.live.query E) := rfl

theorem editComposer_textOnly (f : Composer K → Composer K) :
    TextOnly s.live (s.editComposer f).live :=
  ⟨_, _, _, editComposer_live f⟩

theorem setState_textOnly (state : State) : TextOnly s.live (s.setState E state).live := by
  cases state with
  | direct | precomposition => exact ⟨_, _, _, rfl⟩
  | conversion | none => exact ⟨_, _, _, rfl⟩
  | composition =>
    dsimp only [setState]
    split <;> exact ⟨_, _, _, rfl⟩

theorem setState_conversion_live :
    (s.setState E .conversion).live = { s.live with state := .conversion } := rfl

theorem setState_live_eq (h : s.state = .conversion) :
    (s.setState E .conversion).live = s.live := by
  rw [setState_conversion_live, ← h]
  rfl

theorem setStateToPrecompositionAndCancel_textOnly :
    TextOnly s.live (s.setStateToPrecompositionAndCancel E).live := by
  dsimp only [setStateToPrecompositionAndCancel]
  split
  · exact setState_textOnly _
  · exact setState_textOnly .precomposition

theorem popUndoContext_textOnly : TextOnly s.live s.popUndoContext.live := by
  unfold popUndoContext
  split
  · exact .refl _
  · exact ⟨_, _, _, rfl⟩

theorem cancelLiveConversionForEditing_steps :
    LiveSteps E leak s.live (s.cancelLiveConversionForEditing E).live := by
  have hcancel : LiveSteps E leak s.live
      s.cancelPendingLiveConversion.clearZenzLiveCorrectionState.live :=
    (LiveSteps.act .cancelPending).tail .cancelZenz
  dsimp only [cancelLiveConversionForEditing]
  split
  · exact hcancel
  · rw [editConverter_live]
    refine (hcancel.tail .stop).trans ?_
    exact (setState_textOnly
      (s := { s.cancelPendingLiveConversion.clearZenzLiveCorrectionState with
        liveConversionActive := false }) .composition).steps (.inr rfl)

theorem ensureIMEIsOn_steps (h : Guarded leak s.live) :
    LiveSteps E leak s.live (s.ensureIMEIsOn E).live := by
  unfold ensureIMEIsOn
  split
  · rename_i hdirect
    apply (setState_textOnly .precomposition).steps
    apply h.inactive
    simp [live_state, hdirect]
  · exact .refl

/-! The Zenz correction. -/

theorem applyZenzLiveCorrectionResult_live (response : ZenzLiveResponse) :
    (s.applyZenzLiveCorrectionResult E response).live = s.live.cancelZenz ∨
      (s.applyZenzLiveCorrectionResult E response).live =
        { s.live with pendingZenz := { s.live.pendingZenz with pending := false } } := by
  dsimp only [applyZenzLiveCorrectionResult]
  split_ifs
  all_goals first | exact .inl rfl | exact .inr rfl

theorem advancePendingZenzLiveCorrection_submitted (corrector : ZenzLiveCorrector)
    (hcorrector : s.zenzLiveCorrector = some corrector)
    (hpending : s.pendingZenzLive.pending = true)
    (hsubmitted : s.pendingZenzLive.submitted = true) (refresh : Bool) :
    LiveSteps E leak s.live (s.advancePendingZenzLiveCorrection E refresh).live := by
  have htake : ∀ response, (corrector.takeResult s.pendingZenzLive.generation).1 = some response →
      ∀ t : Exec K V H, t.live = { s.live with
        corrector := some (corrector.takeResult s.pendingZenzLive.generation).2 } →
      LiveSteps E leak s.live (t.applyZenzLiveCorrectionResult E response).live := by
    intro response hresponse t ht
    rcases applyZenzLiveCorrectionResult_live response with h | h
    · rw [h, ht]
      exact .act (.dropZenz corrector response hcorrector hpending hsubmitted hresponse)
    · rw [h, ht]
      exact .act (.showZenz corrector response hcorrector hpending hsubmitted hresponse)
  have hpoll : (corrector.takeResult s.pendingZenzLive.generation).1 = none →
      ∀ t : Exec K V H, t.live = { s.live with
        corrector := some (corrector.takeResult s.pendingZenzLive.generation).2
        pendingZenz := { s.pendingZenzLive with
          pollCount := s.pendingZenzLive.pollCount + 1 } } →
      LiveSteps E leak s.live t.live := by
    intro hresponse t ht
    rw [ht]
    exact .act (.pollZenz corrector hcorrector hpending hsubmitted hresponse)
  dsimp only [advancePendingZenzLiveCorrection]
  split
  · rename_i hnot
    have hnot : (!s.pendingZenzLive.submitted) = true := hnot
    simp [hsubmitted] at hnot
  · split
    · rename_i hnone
      have hnone : s.zenzLiveCorrector = none := hnone
      simp [hcorrector] at hnone
    · rename_i found hfound
      obtain rfl : found = corrector := Option.some.inj (hfound.symm.trans hcorrector)
      split
      · rename_i response hresponse
        exact htake response hresponse _ rfl
      · rename_i hresponse
        split
        · rw [outputCurrentLiveConversionAfterZenzStop_live, cancelPendingZenzLiveCorrection_live]
          exact (hpoll hresponse _ rfl).tail .cancelZenz
        · rw [attachZenzLiveCorrectionPollCallback_live,
            outputCurrentLiveConversionWithZenzPending_live]
          exact hpoll hresponse _ rfl

theorem advancePendingZenzLiveCorrection_steps (hpending : s.pendingZenzLive.pending = true)
    (refresh : Bool) :
    LiveSteps E leak s.live (s.advancePendingZenzLiveCorrection E refresh).live := by
  cases hsubmitted : s.pendingZenzLive.submitted with
  | true =>
    cases hcorrector : s.zenzLiveCorrector with
    | some corrector =>
      exact advancePendingZenzLiveCorrection_submitted corrector hcorrector hpending hsubmitted _
    | none =>
      have hsame : (s.setConsumed true).pendingZenzLive = s.pendingZenzLive := rfl
      have hsame' : (s.setConsumed true).zenzLiveCorrector = none := hcorrector
      dsimp only [advancePendingZenzLiveCorrection]
      rw [hsame, hsame', if_neg (by rw [hsubmitted]; decide), outputCurrentLiveConversionAfterZenzStop_live]
      exact .act .cancelZenz
  | false =>
    have hsame : (s.setConsumed true).pendingZenzLive = s.pendingZenzLive := rfl
    dsimp only [advancePendingZenzLiveCorrection]
    rw [hsame, if_pos (by rw [hsubmitted]; rfl), attachZenzLiveCorrectionPollCallback_live]
    have hsubmit : ∀ request : ZenzLiveRequest,
        request.generation = s.pendingZenzLive.generation →
        request.key = s.pendingZenzLive.key →
        request.mozcValue = s.pendingZenzLive.mozcValue →
        ∀ t : Exec K V H, t.live = { s.live with
          pendingZenz := { s.pendingZenzLive with
            issuedAt := s.input.now, submitted := true, pollCount := 0 }
          corrector := some ((s.zenzLiveCorrector.getD {}).submit request) } →
        LiveSteps E leak s.live t.live := by
      intro request hgeneration hkey hvalue t ht
      rw [ht]
      exact .act (.submitZenz _ request hpending hsubmitted hgeneration hkey hvalue)
    split
    · rw [outputCurrentLiveConversionWithZenzPending_live]
      exact hsubmit _ (by rfl) (by rfl) (by rfl) _ rfl
    · exact hsubmit _ (by rfl) (by rfl) (by rfl) _ rfl

theorem applyZenzLiveCorrection_steps :
    LiveSteps E leak s.live (s.applyZenzLiveCorrection E).live := by
  dsimp only [applyZenzLiveCorrection]
  split
  · exact .of_eq (by simp)
  · rename_i hcurrent
    rw [← setConsumed_live true]
    apply advancePendingZenzLiveCorrection_steps
    have hcurrent : (s.setConsumed true).isCurrentZenzLiveCorrectionCallback = true := by
      simpa using hcurrent
    exact (Bool.and_eq_true _ _ ▸ hcurrent).1

theorem maybeApplyZenzFeedbackLiveCorrection_steps :
    LiveSteps E leak s.live (s.maybeApplyZenzFeedbackLiveCorrection E).2.live := by
  unfold maybeApplyZenzFeedbackLiveCorrection
  split
  · exact .refl
  · dsimp only
    split
    · exact .refl
    · exact .act .acceptZenz

theorem maybeScheduleZenzLiveCorrection_steps :
    LiveSteps E leak s.live (s.maybeScheduleZenzLiveCorrection E).live := by
  unfold maybeScheduleZenzLiveCorrection
  split
  · exact .refl
  · rename_i hallowed
    simp only [zenzLiveCorrectionAllowed, Bool.not_eq_true', Bool.not_eq_false,
      Bool.and_eq_true, beq_iff_eq] at hallowed
    obtain ⟨⟨⟨⟨⟨⟨⟨⟨_, hactive⟩, hstate⟩, _⟩, _⟩, _⟩, _⟩, _⟩, _⟩ := hallowed
    dsimp only
    split
    · refine LiveSteps.trans ?_ (advancePendingZenzLiveCorrection_steps rfl false)
      exact .act (.scheduleZenz _ hactive hstate rfl rfl rfl rfl rfl)
    · exact .act (.scheduleZenz _ hactive hstate rfl rfl rfl rfl rfl)

/-! The live conversion. -/

theorem startLiveConversion_steps {key preedit : Text} {input : Input} {window : CandidateWindow}
    (hkey : key = s.live.query E) (hfield : s.composer.inputFieldType ≠ .password) :
    LiveSteps E leak s.live (s.startLiveConversion E key preedit input window).live := by
  subst hkey
  have hstart : ∀ t : Exec K V H, t.live = s.live.start (s.live.query E) t.liveConversionValue →
      LiveSteps E leak s.live (t.maybeApplyZenzFeedbackLiveCorrection E).2.live := by
    intro t ht
    refine LiveSteps.trans ?_ maybeApplyZenzFeedbackLiveCorrection_steps
    rw [ht]
    exact .act (.start _ hfield)
  dsimp only [startLiveConversion]
  split
  · exact hstart _ rfl
  · refine LiveSteps.trans ?_ maybeScheduleZenzLiveCorrection_steps
    -- What the window shows is not part of the live conversion.
    rw [live_ite, attachLiveConversionSuggestionCandidateWindow_live]
    · exact hstart _ rfl
    · rfl

theorem liveConversionAllowed_field (h : s.liveConversionAllowed E = true) :
    s.composer.inputFieldType ≠ .password := by
  simp only [liveConversionAllowed, Bool.and_eq_true, bne_iff_ne] at h
  exact h.1.2

theorem maybeStartLiveConversion_steps :
    LiveSteps E leak s.live (s.maybeStartLiveConversion E).2.live := by
  dsimp only [maybeStartLiveConversion]
  split
  · exact .refl
  · rename_i hallowed
    have hfield : s.composer.inputFieldType ≠ .password := by
      apply liveConversionAllowed_field
      simp only [not_or, Bool.not_eq_true', Bool.not_eq_false] at hallowed
      exact hallowed.1
    split
    · exact .act .unschedule
    · refine (LiveSteps.act .unschedule).trans ?_
      exact startLiveConversion_steps
        (s := ({ s with
          liveConversionPending := false
          pendingLiveConversionGeneration := 0
          pendingLiveConversionKey := []
          pendingLiveConversionInput := {}
          pendingLiveConversionSuggestionCandidateWindow := {} }.callConverter _).2) rfl hfield

theorem maybeScheduleLiveConversion_steps :
    LiveSteps E leak s.live (s.maybeScheduleLiveConversion E).2.live := by
  dsimp only [maybeScheduleLiveConversion]
  split
  · exact .refl
  split
  · exact .act .cancelPending
  split
  · exact maybeStartLiveConversion_steps
  split
  · refine (LiveSteps.act .schedule).trans ?_
    refine LiveSteps.trans ?_ maybeStartLiveConversion_steps
    exact .of_eq (by simp)
  · rw [attachDelayedLiveConversionCallback_live, live_ite,
      attachLiveConversionSuggestionCandidateWindow_live, outputPendingLiveConversion_live]
    · exact .act .schedule
    · rfl

theorem applyDelayedLiveConversion_steps :
    LiveSteps E leak s.live (s.applyDelayedLiveConversion E).2.live := by
  dsimp only [applyDelayedLiveConversion]
  split_ifs
  · exact .of_eq (by simp)
  · rw [outputFromState_live]
    exact .act .cancelPending
  · exact maybeStartLiveConversion_steps (s := s.setConsumed true)

theorem flushPendingLiveConversion_steps :
    LiveSteps E leak s.live (s.flushPendingLiveConversion E).live := by
  dsimp only [flushPendingLiveConversion]
  split_ifs
  · exact .refl
  · exact .act .cancelPending
  · exact maybeStartLiveConversion_steps
      (s := { s with command := { input := { now := s.input.now } } })

/-! Commits. -/

theorem commitStringDirectly_textOnly (key preedit : Text) :
    TextOnly s.live (s.commitStringDirectly E key preedit).live := by
  dsimp only [commitStringDirectly]
  split
  · exact .refl _
  · rw [putOutput_live, suggestZeroQuery_live]
    exact setState_textOnly .precomposition

theorem commitCompositionDirectly_textOnly :
    TextOnly s.live (s.commitCompositionDirectly E).live :=
  commitStringDirectly_textOnly ..

theorem clear_commitStringDirectly_steps (key preedit : Text) :
    LiveSteps E leak s.live (s.clearLiveConversionState.commitStringDirectly E key preedit).live :=
  (LiveSteps.act .clear).trans
    ((commitStringDirectly_textOnly (s := s.clearLiveConversionState) key preedit).steps (.inr rfl))

theorem commitZenzLiveCorrectionResult_steps :
    LiveSteps E leak s.live (s.commitZenzLiveCorrectionResult E).2.live := by
  dsimp only [commitZenzLiveCorrectionResult]
  split
  · exact .refl
  · refine LiveSteps.trans ?_ (clear_commitStringDirectly_steps _ _)
    exact .of_eq (by simp)

theorem commitLiveConversionResult_steps (h : Guarded leak s.live) :
    LiveSteps E leak s.live (s.commitLiveConversionResult E).2.live := by
  dsimp only [commitLiveConversionResult]
  split_ifs with hstate
  · exact .refl
  · apply commitCompositionDirectly_textOnly.steps
    apply h.inactive
    simp_all [live_state]
  · exact clear_commitStringDirectly_steps _ _

theorem commitPendingLiveConversionDisplayDirectly_steps :
    LiveSteps E leak s.live (s.commitPendingLiveConversionDisplayDirectly E).live :=
  clear_commitStringDirectly_steps _ _

theorem commitInternal_live (suggest : Bool) :
    (s.commitInternal E suggest).live = s.live ∧ s.state ≠ .composition ∧ s.state ≠ .conversion ∨
      ∃ w, TextOnly s.live w ∧ (s.commitInternal E suggest).live = w.clear := by
  dsimp only [commitInternal]
  split
  · rename_i hstate
    exact .inl ⟨doNothing_live, hstate⟩
  · right
    rw [clearLiveConversionState_live, keepOutputForUndo_live, putOutput_live]
    refine ⟨_, ?_, rfl⟩
    have hcommit : ∀ t : Exec K V H, t.live = s.live →
        TextOnly s.live (t.setState E .precomposition).live := fun t ht =>
      ht ▸ setState_textOnly .precomposition
    split
    · rw [suggest_live]
      apply hcommit
      split <;> rfl
    · apply hcommit
      split <;> rfl

theorem commitInternal_steps (suggest : Bool) :
    LiveSteps E leak s.live (s.commitInternal E suggest).live := by
  rcases commitInternal_live suggest with ⟨h, _⟩ | ⟨w, hw, h⟩
  · exact .of_eq h
  · rw [h]
    exact hw.clear_steps

theorem commitNotTriggeringZeroQuerySuggest_steps :
    LiveSteps E leak s.live (s.commitNotTriggeringZeroQuerySuggest E).live :=
  commitInternal_steps false

theorem commit_steps : LiveSteps E leak s.live (s.commit E).live := by
  dsimp only [commit]
  split
  · exact commitZenzLiveCorrectionResult_steps
  · exact (commitZenzLiveCorrectionResult_steps.trans flushPendingLiveConversion_steps).trans
      (commitInternal_steps _)

theorem commitHead_steps (h : Guarded leak s.live) (count : Nat) :
    LiveSteps E leak s.live (s.commitHead E count).live := by
  dsimp only [commitHead]
  split
  · exact .of_eq doNothing_live
  · rename_i hstate
    rw [putOutput_live]
    refine TextOnly.steps (editComposer_textOnly _) (h.inactive ?_)
    intro hconversion
    have hconversion : s.state = .conversion := hconversion
    simp [hconversion] at hstate

theorem finishCommit_textOnly : TextOnly s.live (s.finishCommit E).live := by
  dsimp only [finishCommit]
  rw [keepOutputForUndo_live, putOutput_live]
  split
  · rw [suggestZeroQuery_live]
    exact setState_textOnly .precomposition
  · exact .refl _

theorem commitFirstSuggestion_steps (h : Guarded leak s.live) :
    LiveSteps E leak s.live (s.commitFirstSuggestion E).live := by
  dsimp only [commitFirstSuggestion]
  split
  · exact .of_eq doNothing_live
  · rename_i hstate
    rw [keepOutputForUndo_live, putOutput_live, suggestZeroQuery_live]
    refine TextOnly.steps (setState_textOnly .precomposition) (h.inactive ?_)
    intro hconversion
    have hconversion : s.state = .conversion := hconversion
    simp [hconversion] at hstate

theorem deleteCommitted_textOnly (size : Nat) : TextOnly s.live (s.deleteCommitted E size).live := by
  unfold deleteCommitted
  split
  · exact editComposer_textOnly _
  · exact .refl _

theorem commitHeadToFocusedSegmentsInternal_textOnly :
    TextOnly s.live (s.commitHeadToFocusedSegmentsInternal E).live :=
  deleteCommitted_textOnly _

theorem commitSegment_textOnly : TextOnly s.live (s.commitSegment E).live := by
  dsimp only [commitSegment]
  split
  · exact .of_eq doNothing_live
  · refine TextOnly.trans ?_ finishCommit_textOnly
    exact deleteCommitted_textOnly
      (s := ((s.setConsumed true).pushUndoContext.callConverter _).2) _

theorem commitRawText_textOnly : TextOnly s.live (s.commitRawText E).2.live := by
  unfold commitRawText
  split
  · exact .refl _
  · exact commitStringDirectly_textOnly ..

/-! The cursor. -/

theorem commitIfPassword_textOnly : TextOnly s.live (s.commitIfPassword E).2.live := by
  unfold commitIfPassword
  split
  · exact commitCompositionDirectly_textOnly
  · exact .refl _

theorem moveCursor_textOnly (move : Composer K → Composer K) (clearUndo : Bool) :
    TextOnly s.live (s.moveCursor E move clearUndo).live := by
  have hcommitted := commitIfPassword_textOnly (E := E) (s := s.setConsumed true)
  dsimp only [moveCursor]
  split
  · exact hcommitted
  · rw [suggestAndOutput_live, live_ite]
    · exact hcommitted.trans (editComposer_textOnly move)
    · rfl

theorem moveCursorRight_steps (h : leak ∨ s.live.active = false) :
    LiveSteps E leak s.live (s.moveCursorRight E).live := by
  unfold moveCursorRight
  split
  · exact commit_steps
  · exact (moveCursor_textOnly _ true).steps h

theorem moveCursorLeft_steps (h : leak ∨ s.live.active = false) :
    LiveSteps E leak s.live (s.moveCursorLeft E).live := by
  dsimp only [moveCursorLeft]
  split
  · exact commitNotTriggeringZeroQuerySuggest_steps
  · exact (moveCursor_textOnly _ true).steps h

theorem moveCursorTo_steps (h : Guarded leak s.live) :
    LiveSteps E leak s.live (s.moveCursorTo E).live := by
  dsimp only [moveCursorTo]
  split_ifs with hprecomposition hstate
  · exact .of_eq echoBack_live
  · exact .of_eq doNothing_live
  · apply (moveCursor_textOnly _ true).steps
    apply h.inactive
    simp_all [live_state]

/-! Selection of a candidate. -/

theorem moveTo_conversion_steps (h : Guarded leak s.live) :
    LiveSteps E leak s.live (s.setState E .conversion).live := by
  by_cases hstate : s.state = .conversion
  · exact .of_eq (setState_live_eq hstate)
  · exact .act (.moveTo .conversion (h.inactive hstate))

theorem selectCandidateInternal_steps (h : Guarded leak s.live) :
    LiveSteps E leak s.live (s.selectCandidateInternal E).2.live := by
  dsimp only [selectCandidateInternal]
  split
  · exact .refl
  · split
    · exact .refl
    · split
      · exact .refl
      · exact moveTo_conversion_steps (s := (s.setConsumed true).editConverter _) h

theorem selectCandidate_steps (h : Guarded leak s.live) :
    LiveSteps E leak s.live (s.selectCandidate E).live := by
  dsimp only [selectCandidate]
  split
  · exact selectCandidateInternal_steps h
  · rw [doNothing_live]
    exact selectCandidateInternal_steps h

theorem highlightCandidate_steps (h : Guarded leak s.live) :
    LiveSteps E leak s.live (s.highlightCandidate E).2.live := by
  dsimp only [highlightCandidate]
  split <;> exact selectCandidateInternal_steps h

theorem commitCandidate_textOnly : TextOnly s.live (s.commitCandidate E).2.live := by
  dsimp only [commitCandidate]
  split
  · exact .refl _
  · split
    · exact .refl _
    · split_ifs
      · exact .refl _
      · refine TextOnly.trans ?_ finishCommit_textOnly
        exact commitHeadToFocusedSegmentsInternal_textOnly
          (s := (s.setConsumed true).pushUndoContext.editConverter _)
      · rw [keepOutputForUndo_live]
        refine TextOnly.trans ?_ (moveCursor_textOnly _ _)
        exact editComposer_textOnly (s := ((s.setConsumed true).pushUndoContext.callConverter _).2) _
      · exact finishCommit_textOnly (s := ((s.setConsumed true).pushUndoContext.callConverter _).2)

end Exec

end Mozkey.Session
