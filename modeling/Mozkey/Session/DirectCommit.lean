import Mozkey.Session.PlainEnv

/-! The keys that `InsertCharacter` of `session/session.cc` commits at once while a live conversion
is shown: `CommitLiveConversionResult`, `CommitPendingLiveConversionDisplayDirectly` and the branch
for a Zenz correction put what is shown together with what the key has brought. -/

namespace Mozkey.Session

variable {K V H : Type}

/-- What the source bears out for the parameters: the length of a composition is that of the text it
shows, and `Reset` and `SuggestWithPreferences` leave no result to be put out. -/
structure Env.CommitLaws (E : Env K V H) : Prop where
  length : ∀ c : Composer K, c.getLength E.composerOps = (c.getStringForPreedit E.composerOps).length
  reset : ∀ engine, (E.converterOps.reset engine).1.result = none
  suggest : ∀ preferences composer context engine, engine.1.result = none →
    (E.converterOps.suggestWithPreferences preferences composer context engine).2.1.result = none

/-- A text that is shown for a composition, and the reading and the preedit that it was made of. -/
structure LiveDisplay where
  key : Text
  preedit : Text
  value : Text

/-- What a composition has gained since: what stands behind the preedit, and if letters of the
preedit have turned into kana, as many characters as the reading has gained. -/
def LiveDisplay.gained (d : LiveDisplay) (key preedit : Text) : Option Text :=
  if d.preedit.isPrefixOf preedit then some (preedit.drop d.preedit.length)
  else if d.key.isPrefixOf key ∧ key.length - d.key.length ≤ preedit.length then
    some (preedit.drop (preedit.length - (key.length - d.key.length)))
  else none

namespace Exec

variable (E : Env K V H)

def display (s : Exec K V H) : LiveDisplay :=
  { key := s.liveConversionKey
    preedit := s.liveConversionPreedit
    value := if s.hasVisibleZenzLiveCorrection then s.zenzLiveValue else s.liveConversionValue }

def insertKey (key : KeyEvent) (s : Exec K V H) : Composer K :=
  E.composerOps.insertCharacterKeyEvent key s.composer

def keyQuery (key : KeyEvent) (s : Exec K V H) : Text :=
  (s.insertKey E key).getQueryForConversion E.composerOps

def keyPreedit (key : KeyEvent) (s : Exec K V H) : Text :=
  (s.insertKey E key).getStringForPreedit E.composerOps

/-- A live conversion is shown, alone or with what was typed behind it, and the key is one that is
committed with it. Nothing is committed before the key is inserted, and the text is none that was
converted and set back. -/
structure DirectlyCommits (key : KeyEvent) (s : Exec K V H) : Prop where
  input : s.input.key = some key
  fresh : s.output.result = none
  key_ne : s.liveConversionKey ≠ []
  preedit_ne : s.liveConversionPreedit ≠ []
  value_ne : s.liveConversionValue ≠ []
  segments_ne : s.liveConversionPreeditOutput.segments ≠ []
  shown : s.state = .conversion ∧ s.liveConversionActive = true ∧
      s.shouldCommitLiveConversionBeforeShiftAsciiInput E key = false ∧
      ¬ (E.request.spaceOnAlphanumeric = .spaceOrConvertCommittingComposition ∧
        (s.composer.getQueryForConversion E.composerOps).getLast? = some ' ') ∨
    s.state = .composition ∧ s.liveConversionPending = true ∧
      s.canDirectCommitPendingLiveConversionBeforeInsert E key = true
  punctuation : canDirectCommitAfterPunctuation E key { s with
    context := { s.context with state := .composition, composer := s.insertKey E key } } = true
  unmarked : s.shouldMarkPreeditCommitAsRerankedAfterConvertCancel E s.composer = false
  query_ne : s.keyQuery E key ≠ []

def committedValue (s : Exec K V H) : Option Text :=
  (s.insertCharacter E).2.output.result.bind (·.value)

section Commit

variable {E} {s : Exec K V H}

theorem suggest_result (laws : E.CommitLaws) (h : s.converter.result = none) :
    (s.suggest E).2.converter.result = none := by
  unfold suggest
  split
  · exact h
  · exact laws.suggest _ _ _ (s.converter, s.history) h

theorem suggestZeroQuery_result (laws : E.CommitLaws) (h : s.converter.result = none) :
    (s.suggestZeroQuery E).converter.result = none ∧
      (s.suggestZeroQuery E).output.result = s.output.result := by
  unfold suggestZeroQuery
  split
  · refine ⟨suggest_result laws h, ?_⟩
    unfold suggest
    split <;> rfl
  · exact ⟨h, rfl⟩

theorem commitStringDirectly_result (laws : E.CommitLaws) (hfresh : s.output.result = none)
    {key value : Text} (hkey : key ≠ []) (hvalue : value ≠ []) :
    (s.commitStringDirectly E key value).output.result.bind (·.value) = some value := by
  dsimp only [commitStringDirectly]
  rw [if_neg (not_or.mpr ⟨hkey, hvalue⟩)]
  let t : Exec K V H := (((s.setConsumed true).editConverter E.converterOps.reset).editOutput
    fun output =>
      { output with
        result := some { (output.result.getD {}) with
          key := some ((output.result.getD {}).key.getD [] ++ key)
          value := some ((output.result.getD {}).value.getD [] ++ value) } }).setState E
            .precomposition
  have hconverter : t.converter.result = none := laws.reset (s.converter, s.history)
  have hresult : t.output.result.bind (·.value) = some value := by
    have hnone : ((s.setConsumed true).editConverter E.converterOps.reset).output.result = none :=
      hfresh
    show some (((((s.setConsumed true).editConverter
      E.converterOps.reset).output.result.getD {}).value.getD []) ++ value) = some value
    rw [hnone]
    rfl
  obtain ⟨hquiet, hsame⟩ := suggestZeroQuery_result laws hconverter
  show (((t.suggestZeroQuery E).converter.result.or
    (t.suggestZeroQuery E).output.result).bind (·.value)) = some value
  rw [hquiet, hsame]
  exact hresult

theorem charFromEnd_one {preedit : Text} {length : Nat} (h : length = preedit.length) :
    charFromEnd preedit length 1 = preedit.drop (preedit.length - 1) := by
  rw [charFromEnd, h, List.take_of_length_le]
  rw [List.length_drop]
  omega

theorem commitPendingReranked_unmarked {before : Composer K} (reason : Text)
    (h : s.shouldMarkPreeditCommitAsRerankedAfterConvertCancel E before = false) :
    s.commitPendingRerankedPreeditAfterConvertCancelForDirectCommit E before reason = (false, s) ∨
      s.commitPendingRerankedPreeditAfterConvertCancelForDirectCommit E before reason =
        (false, s.clearPendingRerankedPreeditCommitAfterConvertCancel) := by
  unfold commitPendingRerankedPreeditAfterConvertCancelForDirectCommit
  split
  · exact .inl rfl
  · rw [h]
    exact .inr rfl

theorem commitPendingLiveConversionDisplayDirectly_value (laws : E.CommitLaws)
    (hfresh : s.output.result = none) (hkey : s.liveConversionKey ≠ [])
    (hpreedit : s.liveConversionPreedit ≠ []) (hvalue : s.liveConversionValue ≠ [])
    (hsegments : s.liveConversionPreeditOutput.segments ≠ [])
    (hquery : s.composer.getQueryForConversion E.composerOps ≠ [])
    (htext : s.composer.getStringForPreedit E.composerOps ≠ []) :
    (s.commitPendingLiveConversionDisplayDirectly E).output.result.bind (·.value) =
      some (if s.liveConversionKey.isPrefixOf (s.composer.getQueryForConversion E.composerOps) ∧
          s.liveConversionPreedit.isPrefixOf (s.composer.getStringForPreedit E.composerOps) then
        s.liveConversionValue ++
          (s.composer.getStringForPreedit E.composerOps).drop s.liveConversionPreedit.length
      else s.composer.getStringForPreedit E.composerOps) := by
  dsimp only [commitPendingLiveConversionDisplayDirectly]
  refine (commitStringDirectly_result (s := s.clearLiveConversionState) laws hfresh hquery
    ?_).trans ?_
  · split
    · simp [hvalue]
    · exact htext
  · simp only [ne_eq, hkey, hpreedit, hvalue, hsegments, not_false_eq_true, true_and]
    rfl

theorem commitLiveConversionResult_value (laws : E.CommitLaws) (hstate : s.state = .composition)
    (hfresh : s.output.result = none) (hvalue : s.liveConversionValue ≠ [])
    (hquery : s.composer.getQueryForConversion E.composerOps ≠ [])
    (htext : s.composer.getStringForPreedit E.composerOps ≠ []) :
    (s.commitLiveConversionResult E).1 = true ∧
      (s.commitLiveConversionResult E).2.output.result.bind (·.value) =
        some (s.liveConversionValue ++ (s.composer.getStringForPreedit E.composerOps).drop
          ((s.composer.getStringForPreedit E.composerOps).length - 1)) := by
  have hlength : ¬ (s.liveConversionValue = [] ∨ s.composer.getLength E.composerOps = 0) := by
    rw [laws.length, List.length_eq_zero_iff]
    exact not_or.mpr ⟨hvalue, htext⟩
  have hlast : ((s.composer.getStringForPreedit E.composerOps).drop
      (s.composer.getLength E.composerOps - 1)).take 1 =
        (s.composer.getStringForPreedit E.composerOps).drop
          ((s.composer.getStringForPreedit E.composerOps).length - 1) :=
    charFromEnd_one (laws.length _)
  dsimp only [commitLiveConversionResult]
  rw [if_neg (not_not.mpr hstate), if_neg hlength, hlast]
  exact ⟨rfl, commitStringDirectly_result (s := s.clearLiveConversionState) laws hfresh hquery
    (List.append_ne_nil_of_left_ne_nil hvalue _)⟩

theorem commitAfterPunctuation_value (laws : E.CommitLaws) {before : Composer K} (key : KeyEvent)
    {zenz : Option VisibleZenz} (hstate : s.state = .composition)
    (hfresh : s.output.result = none) (hvalue : s.liveConversionValue ≠ [])
    (hzenz : ∀ visible ∈ zenz, visible.value ≠ [])
    (hquery : s.composer.getQueryForConversion E.composerOps ≠ [])
    (htext : s.composer.getStringForPreedit E.composerOps ≠ [])
    (hunmarked : s.shouldMarkPreeditCommitAsRerankedAfterConvertCancel E before = false) :
    (s.commitAfterPunctuation E before key true zenz false).output.result.bind (·.value) =
      some ((zenz.map (·.value)).getD s.liveConversionValue ++
        (s.composer.getStringForPreedit E.composerOps).drop
          ((s.composer.getStringForPreedit E.composerOps).length - 1)) := by
  obtain ⟨t, hpending, htstate, htfresh, htvalue, htcomposer⟩ :
      ∃ t, s.commitPendingRerankedPreeditAfterConvertCancelForDirectCommit E before
          (text "convert_cancel_direct_commit_punctuation") = (false, t) ∧
        t.state = .composition ∧ t.output.result = none ∧
        t.liveConversionValue = s.liveConversionValue ∧ t.composer = s.composer := by
    rcases commitPendingReranked_unmarked (s := s)
      (text "convert_cancel_direct_commit_punctuation") hunmarked with h | h
    · exact ⟨_, h, hstate, hfresh, rfl, rfl⟩
    · exact ⟨_, h, hstate, hfresh, rfl, rfl⟩
  rw [← htvalue] at hvalue ⊢
  rw [← htcomposer] at hquery htext ⊢
  dsimp only [commitAfterPunctuation]
  rw [hpending]
  cases zenz with
  | none =>
    obtain ⟨hdone, hresult⟩ :=
      commitLiveConversionResult_value laws htstate htfresh hvalue hquery htext
    dsimp only
    rw [if_neg (by decide), if_pos rfl, if_pos hdone]
    exact hresult
  | some visible =>
    have hset : (t.setPendingZenzFeedbackAccepted E visible.key visible.contextClass
        visible.value).clearLiveConversionState.output.result = none := by
      unfold setPendingZenzFeedbackAccepted
      split <;> exact htfresh
    dsimp only
    rw [if_neg (by decide), charFromEnd_one (laws.length _)]
    exact commitStringDirectly_result laws hset hquery
      (List.append_ne_nil_of_left_ne_nil (hzenz visible rfl) _)

end Commit

section Insert

variable {E} {s t : Exec K V H} {key : KeyEvent}

/-- Nothing is different but the converter, what is learnt and what is learnt later. -/
def SameText (s t : Exec K V H) : Prop :=
  ∃ converter history pendingDirectCommitLearning pendingZenzFeedback feedbackEvents,
    t = { s with
      context := { s.context with converter }
      history, pendingDirectCommitLearning, pendingZenzFeedback, feedbackEvents }

theorem SameText.refl (s : Exec K V H) : SameText s s := ⟨_, _, _, _, _, rfl⟩

theorem SameText.trans {u : Exec K V H} (h : SameText s t) (h' : SameText t u) : SameText s u := by
  obtain ⟨_, _, _, _, _, rfl⟩ := h
  obtain ⟨_, _, _, _, _, rfl⟩ := h'
  exact ⟨_, _, _, _, _, rfl⟩

theorem handlePendingDirectCommitLearning_sameText :
    SameText s (s.handlePendingDirectCommitLearningForKeyEvent E key) := by
  unfold handlePendingDirectCommitLearningForKeyEvent
  split
  · unfold discardPendingDirectCommitLearning
    split
    · split <;> exact ⟨_, _, _, _, _, rfl⟩
    · exact .refl s
  · split
    · exact .refl s
    · unfold confirmPendingDirectCommitLearning
      split
      · exact ⟨_, _, _, _, _, rfl⟩
      · exact .refl s

theorem maybeLearnZenzCandidate_sameText {key value : Text} :
    SameText s (s.maybeLearnZenzCandidateToMozcHistory E key value) := by
  unfold maybeLearnZenzCandidateToMozcHistory
  split
  · exact .refl s
  · exact ⟨_, _, _, _, _, rfl⟩

theorem confirmPendingZenzFeedback_sameText :
    SameText s (s.confirmPendingZenzFeedback E) := by
  have hempty : ∀ (t : Exec K V H) (event : FeedbackEvent), SameText s t →
      SameText s (noteFeedback event { t with pendingZenzFeedback := {} }) := fun t _ h =>
    h.trans ⟨_, _, _, _, _, rfl⟩
  dsimp only [confirmPendingZenzFeedback]
  split_ifs
  · exact .refl s
  · exact hempty s _ (.refl s)
  · cases s.pendingZenzFeedback.action with
    | none => exact hempty _ _ (.refl s)
    | rejected => exact hempty _ _ ⟨_, _, _, _, _, rfl⟩
    | accepted =>
      refine hempty _ _ (SameText.trans ?_ maybeLearnZenzCandidate_sameText)
      exact ⟨_, _, _, _, _, rfl⟩

theorem handlePending_sameText :
    SameText s ((s.handlePendingDirectCommitLearningForKeyEvent E
      key).handlePendingZenzFeedbackForKeyEvent E) := by
  refine SameText.trans (t := s.handlePendingDirectCommitLearningForKeyEvent E key)
    handlePendingDirectCommitLearning_sameText ?_
  unfold handlePendingZenzFeedbackForKeyEvent
  split
  · exact .refl _
  · exact confirmPendingZenzFeedback_sameText

theorem DirectlyCommits.same (h : s.DirectlyCommits E key) (hsame : SameText s t) :
    (t.setConsumed true).DirectlyCommits E key ∧ (t.setConsumed true).display = s.display ∧
      (t.setConsumed true).keyQuery E key = s.keyQuery E key ∧
      (t.setConsumed true).keyPreedit E key = s.keyPreedit E key ∧
      (t.setConsumed true).state = s.state := by
  obtain ⟨_, _, _, _, _, rfl⟩ := hsame
  exact ⟨⟨h.input, h.fresh, h.key_ne, h.preedit_ne, h.value_ne, h.segments_ne, h.shown,
    h.punctuation, h.unmarked, h.query_ne⟩, rfl, rfl, rfl, rfl⟩

theorem canDirectCommitAfterPunctuation_congr (hstate : s.state = t.state)
    (hcomposer : s.composer = t.composer) :
    s.canDirectCommitAfterPunctuation E key = t.canDirectCommitAfterPunctuation E key := by
  unfold canDirectCommitAfterPunctuation directCommitAllowed isCursorAtEnd
  rw [hstate, hcomposer]

theorem DirectlyCommits.keyPreedit_ne (h : s.DirectlyCommits E key) : s.keyPreedit E key ≠ [] := by
  intro hempty
  have hlast : charFromEnd (s.keyPreedit E key)
      ((s.insertKey E key).getLength E.composerOps) 1 ≠ [] := by
    have hpunctuation := h.punctuation
    simp only [canDirectCommitAfterPunctuation, Bool.and_eq_true, bne_iff_ne] at hpunctuation
    exact hpunctuation.1.2
  rw [hempty] at hlast
  simp [charFromEnd] at hlast

theorem insertDirectCommitTrigger_value (laws : E.CommitLaws) (h : s.DirectlyCommits E key)
    (hstate : s.state = .composition) :
    (s.insertDirectCommitTrigger E key).output.result.bind (·.value) =
      some (if s.liveConversionKey.isPrefixOf (s.keyQuery E key) ∧
          s.liveConversionPreedit.isPrefixOf (s.keyPreedit E key) then
        s.liveConversionValue ++ (s.keyPreedit E key).drop s.liveConversionPreedit.length
      else s.keyPreedit E key) := by
  have hpunctuation : ((s.editComposer
      (E.composerOps.insertCharacterKeyEvent key)).clearUndoContext).canDirectCommitAfterPunctuation
        E key = true := by
    rw [← h.punctuation]
    exact canDirectCommitAfterPunctuation_congr hstate rfl
  have hunmarked : ((s.editComposer (E.composerOps.insertCharacterKeyEvent
      key)).clearUndoContext).shouldMarkPreeditCommitAsRerankedAfterConvertCancel E s.composer =
        false := h.unmarked
  dsimp only [insertDirectCommitTrigger]
  rw [if_pos hpunctuation]
  rcases commitPendingReranked_unmarked
    (text "convert_cancel_direct_commit_punctuation") hunmarked with hnot | hnot
  all_goals
    rw [hnot]
    exact commitPendingLiveConversionDisplayDirectly_value laws h.fresh h.key_ne h.preedit_ne
      h.value_ne h.segments_ne h.query_ne h.keyPreedit_ne

theorem setState_composition (h : s.state ≠ .precomposition) :
    s.setState E .composition = { s with context := { s.context with state := .composition } } :=
  if_neg h

theorem cancelLiveConversionForEditing_active_eq (hstate : s.state = .conversion)
    (hactive : s.liveConversionActive = true) :
    ∃ t : Exec K V H, s.cancelLiveConversionForEditing E = t ∧ t.state = .composition ∧
      t.composer = s.composer ∧ t.output = s.output ∧
      t.liveConversionValue = s.liveConversionValue ∧
      t.shouldMarkPreeditCommitAsRerankedAfterConvertCancel E t.composer =
        s.shouldMarkPreeditCommitAsRerankedAfterConvertCancel E s.composer := by
  have hactive : s.cancelPendingLiveConversion.clearZenzLiveCorrectionState.liveConversionActive =
      true := hactive
  have hnot : s.state ≠ .precomposition := by
    rw [hstate]
    decide
  refine ⟨_, rfl, ?_⟩
  dsimp only [cancelLiveConversionForEditing]
  rw [hactive, if_neg (by decide), setState_composition]
  · exact ⟨rfl, rfl, rfl, rfl, rfl⟩
  · exact hnot

theorem insertCharacterInComposition_value (laws : E.CommitLaws) (h : s.DirectlyCommits E key)
    (hstate : s.state = .conversion) (hactive : s.liveConversionActive = true)
    (hspace : ¬ (E.request.spaceOnAlphanumeric = .spaceOrConvertCommittingComposition ∧
      (s.composer.getQueryForConversion E.composerOps).getLast? = some ' '))
    (convert : Exec K V H → Bool × Exec K V H) :
    (s.insertCharacterInComposition E convert key).2.output.result.bind (·.value) =
      some (s.display.value ++
        (s.keyPreedit E key).drop ((s.keyPreedit E key).length - 1)) := by
  obtain ⟨t, ht, htstate, htcomposer, htoutput, htvalue, htmark⟩ :=
    cancelLiveConversionForEditing_active_eq (E := E) hstate hactive
  have hselect : t.maybeSelectCandidate E = (false, t) :=
    if_pos (.inl (by rw [htstate]; decide))
  have hcommit : t.commitBeforeInsert E = (false, t) := by
    refine if_neg ?_
    rw [htstate, htcomposer]
    rintro (hconversion | ⟨hrequest, _, hlast⟩)
    · cases hconversion
    · exact hspace ⟨hrequest, hlast⟩
  let u := (t.editComposer (E.composerOps.insertCharacterKeyEvent key)).clearUndoContext
  have hcomposer : u.composer = s.insertKey E key :=
    congrArg (E.composerOps.insertCharacterKeyEvent key) htcomposer
  have hforget : u.forgetLiveConversion E true = u := by simp [forgetLiveConversion]
  have hpunctuation : u.canDirectCommitAfterPunctuation E key = true := by
    rw [← h.punctuation]
    exact canDirectCommitAfterPunctuation_congr htstate hcomposer
  have hvisible : ∀ visible ∈ s.visibleZenz, visible.value ≠ [] := by
    intro visible hvisible
    unfold visibleZenz at hvisible
    split at hvisible
    · rename_i hshown
      obtain rfl := Option.mem_some_iff.mp hvisible
      simp only [hasVisibleZenzLiveCorrection, Bool.and_eq_true, bne_iff_ne] at hshown
      exact hshown.1.1.1.1.1.2
    · cases hvisible
  have hdisplay : (s.visibleZenz.map (·.value)).getD s.liveConversionValue = s.display.value := by
    unfold visibleZenz display
    split <;> simp [*]
  have hfresh : u.output.result = none := by
    show t.output.result = none
    rw [htoutput]
    exact h.fresh
  have hresult := commitAfterPunctuation_value (E := E) (s := u) laws key htstate hfresh
    (htvalue ▸ h.value_ne) hvisible (by rw [hcomposer]; exact h.query_ne)
    (by rw [hcomposer]; exact h.keyPreedit_ne) (htmark.trans h.unmarked)
  have hshown : u.liveConversionValue = s.liveConversionValue := htvalue
  rw [hcomposer, hshown, hdisplay] at hresult
  dsimp only [insertCharacterInComposition]
  rw [ht, hselect]
  dsimp only
  rw [if_neg (by decide), hcommit]
  dsimp only
  rw [if_neg (by simp), hactive, hforget, if_pos hpunctuation]
  exact hresult

/-- What is committed: the last character behind a live conversion that is active, and behind one
that is pending all that stands behind its preedit. -/
theorem committedValue_eq (laws : E.CommitLaws) (h : s.DirectlyCommits E key) :
    s.committedValue E = some (
      if s.state = .conversion then
        s.display.value ++ (s.keyPreedit E key).drop ((s.keyPreedit E key).length - 1)
      else if s.liveConversionKey.isPrefixOf (s.keyQuery E key) ∧
          s.liveConversionPreedit.isPrefixOf (s.keyPreedit E key) then
        s.display.value ++ (s.keyPreedit E key).drop s.liveConversionPreedit.length
      else s.keyPreedit E key) := by
  obtain ⟨ht, hdisplay, hquery, hpreedit, hstate⟩ := h.same (handlePending_sameText (E := E))
  obtain ⟨t, htdef⟩ : ∃ t, t = ((s.handlePendingDirectCommitLearningForKeyEvent E
    key).handlePendingZenzFeedbackForKeyEvent E).setConsumed true := ⟨_, rfl⟩
  rw [← htdef] at ht hdisplay hquery hpreedit hstate
  have hdirect : ¬ (key.inputStyle = .directInput ∧ t.state = .precomposition) := by
    rintro ⟨_, hprecomposition⟩
    rcases ht.shown with ⟨hconversion, _⟩ | ⟨hcomposition, _⟩
    · cases hprecomposition.symm.trans hconversion
    · cases hprecomposition.symm.trans hcomposition
  let convert : Exec K V H → Bool × Exec K V H := fun s =>
    s.convertWith E fun s => s.insertCharacterUpTo E E.insertDepth
  have hinsert : s.insertCharacter E =
      if t.liveConversionPending ∧
          t.canDirectCommitPendingLiveConversionBeforeInsert E key then
        (true, t.insertDirectCommitTrigger E key)
      else if (t.liveConversionActive ∨ t.liveConversionPending) ∧
          t.shouldCommitLiveConversionBeforeShiftAsciiInput E key then
        (true, t.commitBeforeShiftAsciiInput E key)
      else t.insertCharacterInComposition E convert key := by
    show s.insertCharacterWith E convert = _
    unfold insertCharacterWith
    rw [h.input]
    subst htdef
    exact if_neg hdirect
  rw [committedValue, hinsert, ← hdisplay, ← hquery, ← hpreedit, ← hstate]
  rcases ht.shown with ⟨hconversion, hactive, hascii, hspace⟩ | ⟨hcomposition, hpending, hbefore⟩
  · have hnot : ¬ (t.liveConversionPending = true ∧
        t.canDirectCommitPendingLiveConversionBeforeInsert E key = true) := by
      simp [canDirectCommitPendingLiveConversionBeforeInsert, hconversion]
    rw [if_neg hnot, if_neg (by simp [hascii]), if_pos hconversion]
    exact insertCharacterInComposition_value laws ht hconversion hactive hspace convert
  · have hkey : t.liveConversionKey = s.liveConversionKey := congrArg LiveDisplay.key hdisplay
    have hlive : t.liveConversionPreedit = s.liveConversionPreedit :=
      congrArg LiveDisplay.preedit hdisplay
    have hvalue : t.display.value = t.liveConversionValue :=
      if_neg (by simp [hasVisibleZenzLiveCorrection, hcomposition])
    rw [if_pos ⟨hpending, hbefore⟩, if_neg (by rw [hcomposition]; decide), hvalue, ← hkey, ← hlive]
    exact insertDirectCommitTrigger_value laws ht hcomposition

/-- Every key that is committed at once with a live conversion commits what was shown and what has
been gained since just when one character has been gained, if the live conversion is active, and
when what was converted stands in front of the text, if it is pending. -/
theorem directCommit_iff (laws : E.CommitLaws) (h : s.DirectlyCommits E key) :
    (∀ gained ∈ s.display.gained (s.keyQuery E key) (s.keyPreedit E key),
      s.committedValue E = some (s.display.value ++ gained)) ↔
    ∀ gained ∈ s.display.gained (s.keyQuery E key) (s.keyPreedit E key),
      if s.state = .conversion then gained.length = 1
      else s.liveConversionKey.isPrefixOf (s.keyQuery E key) ∧
          s.liveConversionPreedit.isPrefixOf (s.keyPreedit E key) ∨
        s.keyPreedit E key = s.display.value ++ gained := by
  refine forall₂_congr fun gained hgained => ?_
  obtain ⟨n, hn, hdrop⟩ : ∃ n ≤ (s.keyPreedit E key).length,
      gained = (s.keyPreedit E key).drop n ∧
        (s.liveConversionPreedit.isPrefixOf (s.keyPreedit E key) →
          n = s.liveConversionPreedit.length) := by
    unfold LiveDisplay.gained at hgained
    split at hgained
    · rename_i hsuffix
      refine ⟨_, ?_, (Option.mem_some_iff.mp hgained).symm, fun _ => rfl⟩
      exact (List.isPrefixOf_iff_prefix.mp hsuffix).length_le
    · rename_i hnot
      split at hgained
      · exact ⟨_, Nat.sub_le _ _, (Option.mem_some_iff.mp hgained).symm, fun hsuffix =>
          absurd hsuffix hnot⟩
      · cases hgained
  have hpos : 0 < (s.keyPreedit E key).length := List.length_pos_of_ne_nil h.keyPreedit_ne
  rw [committedValue_eq laws h, Option.some_inj]
  split
  · rw [List.append_cancel_left_eq]
    constructor
    · intro hlast
      rw [← hlast, List.length_drop]
      omega
    · intro hone
      rw [hdrop.1, List.length_drop] at hone
      rw [hdrop.1, show n = (s.keyPreedit E key).length - 1 by omega]
  · split
    · rename_i hsuffix
      rw [hdrop.1, hdrop.2 hsuffix.2]
      simp [hsuffix]
    · rename_i hsuffix
      simp only [hsuffix, false_or]

end Insert

section Plain

theorem plain_commitLaws (config : Config) (keyMapManager : KeyMapManager plainKeyEventUtil) :
    (plainEnv config keyMapManager).CommitLaws where
  length c := by
    unfold Composer.getLength Composer.getStringForPreedit
    split <;> rfl
  reset _ := rfl
  suggest _ _ _ _ h := h

/-- The full stop is committed at once. -/
def commitConfig : Config :=
  { useLiveConversion := true, useDirectCommit := true, directCommitKey := (· == .kuten) }

/-- `今日` is shown for `きょう`, and a key comes with a string. -/
def shownLive (keyString : Text) : Exec Text PlainSegments (List Text) :=
  let session : Session Text PlainSegments (List Text) :=
    { plainSession with
      context := { plainSession.context with
        state := .conversion, composer := { chunks := text "きょう", position := 3 } }
      liveConversionActive := true
      liveConversionKey := text "きょう"
      liveConversionPreedit := text "きょう"
      liveConversionValue := text "今日"
      liveConversionPreeditOutput :=
        { segments := [{ annotation := .highlight, key := text "きょう", value := text "今日" }]
          cursor := 2 } }
  session.exec { type := .sendKey, key := some { keyString } }

theorem shownLive_directlyCommits {keyString : Text}
    (h : keyString = text "。" ∨ keyString = text "です。") :
    (shownLive keyString).DirectlyCommits (plainEnv commitConfig {}) { keyString } := by
  rcases h with rfl | rfl
  all_goals
    exact ⟨by decide, by decide, by decide, by decide, by decide, by decide,
      .inl ⟨by decide, by decide, by decide +kernel, by decide⟩, by decide +kernel,
      by decide +kernel, by decide +kernel⟩

/-- A full stop. -/
theorem directCommit_iff_kuten :
    (∀ gained ∈ (shownLive (text "。")).display.gained (text "きょう。") (text "きょう。"),
      (shownLive (text "。")).committedValue (plainEnv commitConfig {}) =
        some ((shownLive (text "。")).display.value ++ gained)) ↔
    ∀ gained ∈ (shownLive (text "。")).display.gained (text "きょう。") (text "きょう。"),
      if (shownLive (text "。")).state = .conversion then gained.length = 1
      else (text "きょう").isPrefixOf (text "きょう。") ∧ (text "きょう").isPrefixOf (text "きょう。") ∨
        text "きょう。" = (shownLive (text "。")).display.value ++ gained :=
  directCommit_iff (plain_commitLaws commitConfig {}) (shownLive_directlyCommits (.inl rfl))

/-- A key that brings `です。` loses `です`. -/
theorem directCommit_loses_text :
    (shownLive (text "です。")).DirectlyCommits (plainEnv commitConfig {})
        { keyString := text "です。" } ∧
      (shownLive (text "です。")).display.gained
        ((shownLive (text "です。")).keyQuery (plainEnv commitConfig {})
          { keyString := text "です。" })
        ((shownLive (text "です。")).keyPreedit (plainEnv commitConfig {})
          { keyString := text "です。" }) = some (text "です。") ∧
      (shownLive (text "です。")).display.value = text "今日" ∧
      (shownLive (text "です。")).committedValue (plainEnv commitConfig {}) =
        some (text "今日。") :=
  ⟨shownLive_directlyCommits (.inr rfl), by decide +kernel, by decide +kernel, by decide +kernel⟩

end Plain

end Exec

end Mozkey.Session
