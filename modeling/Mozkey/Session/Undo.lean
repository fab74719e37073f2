import Mozkey.Session.PlainEnv

/-! `Undo` of `session/session.cc` where it does not bring a context back: what is left of the
session then. `Converter::RevertConversion` of `converter/converter.cc` is what it calls on the way,
and `DoNothing` is what it ends with. -/

namespace Mozkey.Session

variable {K V H : Type}

/-- The revert id of the segments, and the reverts of the rewriter and of the predictor. -/
structure RevertOps (V H : Type) where
  revertId : V → Nat
  clearRevertId : V → V
  revertHistory : V → H → H
  revertId_clear : ∀ segments, revertId (clearRevertId segments) = 0

namespace RevertOps

variable (R : RevertOps V H)

def revertConversion (segments : V) (history : H) : V × H :=
  if R.revertId segments = 0 then (segments, history)
  else (R.clearRevertId segments, R.revertHistory segments history)

def revert (engine : Engine V H) : Engine V H :=
  let (segments, history) := R.revertConversion engine.1.segments engine.2
  ({ engine.1 with segments }, history)

variable {R} {engine : Engine V H}

theorem revert_of_none (h : R.revertId engine.1.segments = 0) : R.revert engine = engine := by
  simp [revert, revertConversion, h]

theorem revertId_revert : R.revertId (R.revert engine).1.segments = 0 := by
  dsimp only [revert, revertConversion]
  split
  · assumption
  · exact R.revertId_clear _

end RevertOps

namespace Exec

variable (E : Env K V H)

def CanUndo (s : Exec K V H) : Prop :=
  s.state = .precomposition ∨ s.state = .conversion ∨ s.state = .composition

def discardForUndo (s : Exec K V H) : Exec K V H :=
  (s.discardPending E).clearPendingRerankedPreeditCommitAfterConvertCancel

/-- `DoNothing` finds nothing to do: no suggestion stands before the text, and the converter has
nothing to give out. -/
def Quiet (s : Exec K V H) : Prop :=
  if s.state = .precomposition then
    ¬ (E.request.zeroQuerySuggestion = true ∧ s.converter.isActive = true)
  else s.converter.result = none ∧ s.converter.updatedCommand = 0

/-- The context on top was left with a text that can be taken back. -/
def CanTakeBack (s : Exec K V H) : Prop :=
  s.context.output.result.isSome = true → s.context.clientCapability.deletePrecedingText = true

/-- Where no context comes back, nothing but what is pending is different. -/
def UndoKeeps (s : Exec K V H) : Prop :=
  (s.undo E).undoContexts = s.undoContexts →
    (s.undo E).toSession = (s.discardForUndo E).toSession

section Discard

variable {E} {s : Exec K V H}

theorem discardPendingDirectCommitLearning_context :
    (s.discardPendingDirectCommitLearning E).context = s.context ∧
      (s.discardPendingDirectCommitLearning E).undoContexts = s.undoContexts := by
  unfold discardPendingDirectCommitLearning
  split
  · split <;> exact ⟨rfl, rfl⟩
  · exact ⟨rfl, rfl⟩

theorem discardPendingZenzFeedback_context :
    s.discardPendingZenzFeedback.context = s.context ∧
      s.discardPendingZenzFeedback.undoContexts = s.undoContexts := by
  unfold discardPendingZenzFeedback
  split <;> exact ⟨rfl, rfl⟩

@[simp] theorem discardForUndo_context : (s.discardForUndo E).context = s.context :=
  discardPendingZenzFeedback_context.1.trans discardPendingDirectCommitLearning_context.1

@[simp] theorem discardForUndo_undoContexts :
    (s.discardForUndo E).undoContexts = s.undoContexts :=
  discardPendingZenzFeedback_context.2.trans discardPendingDirectCommitLearning_context.2

@[simp] theorem discardForUndo_state : (s.discardForUndo E).state = s.state :=
  congrArg ImeContext.state discardForUndo_context

@[simp] theorem discardForUndo_converter : (s.discardForUndo E).converter = s.converter :=
  congrArg ImeContext.converter discardForUndo_context

theorem discardForUndo_quiet : (s.discardForUndo E).Quiet E ↔ s.Quiet E := by
  simp [Quiet]

end Discard

section DoNothing

variable {E} {s : Exec K V H}

theorem doNothing_undoContexts : (s.doNothing E).undoContexts = s.undoContexts := by
  dsimp only [doNothing]
  split_ifs <;> rfl

theorem doNothing_eq (h : ¬ (E.request.zeroQuerySuggestion = true ∧ s.converter.isActive = true ∧
    s.state = .precomposition)) :
    s.doNothing E = if s.state = .composition ∨ s.state = .conversion then
      (s.setConsumed true).putOutput E else s.setConsumed true := by
  have hzero : ¬ (E.request.zeroQuerySuggestion = true ∧
      (s.setConsumed true).converter.isActive = true ∧
        (s.setConsumed true).state = .precomposition) := h
  dsimp only [doNothing]
  rw [if_neg hzero]
  rfl

theorem doNothing_outside (h : ¬ s.CanUndo) : (s.doNothing E).toSession = s.toSession := by
  simp only [CanUndo, not_or] at h
  rw [doNothing_eq fun hzero => h.1 hzero.2.2,
    if_neg fun hstate => hstate.elim h.2.2 h.2.1]
  rfl

theorem doNothing_text (h : s.state = .composition ∨ s.state = .conversion) :
    (s.doNothing E).toSession =
      { s.toSession with context := { s.context with converter := s.converter.popped } } := by
  have hprecomposition : s.state ≠ .precomposition := by
    rcases h with h | h <;> rw [h] <;> decide
  rw [doNothing_eq fun hzero => hprecomposition hzero.2.2, if_pos h]
  rfl

theorem doNothing_precomposition (h : s.state = .precomposition)
    (hzero : ¬ (E.request.zeroQuerySuggestion = true ∧ s.converter.isActive = true)) :
    (s.doNothing E).toSession = s.toSession := by
  rw [doNothing_eq fun hactive => hzero ⟨hactive.1, hactive.2.1⟩, h, if_neg (by decide)]
  rfl

theorem doNothing_suggestion (h : s.state = .precomposition)
    (hzero : E.request.zeroQuerySuggestion = true ∧ s.converter.isActive = true)
    (hreset : ∀ engine, (E.converterOps.reset engine).1.isActive = false) :
    (s.doNothing E).converter.isActive = false := by
  have hactive : E.request.zeroQuerySuggestion = true ∧ (s.setConsumed true).converter.isActive ∧
      (s.setConsumed true).state = .precomposition := ⟨hzero.1, hzero.2, h⟩
  have hstate : (((s.setConsumed true).editConverter E.converterOps.reset).putOutput E).state =
      .precomposition := h
  dsimp only [doNothing]
  rw [if_pos hactive, hstate, if_neg (by decide)]
  exact hreset _

theorem popped_eq_iff {converter : EngineConverter V} :
    converter.popped = converter ↔ converter.result = none ∧ converter.updatedCommand = 0 := by
  cases converter
  simp [EngineConverter.popped, eq_comm]

theorem doNothing_eq_iff (h : s.CanUndo)
    (hreset : ∀ engine, (E.converterOps.reset engine).1.isActive = false) :
    (s.doNothing E).toSession = s.toSession ↔ s.Quiet E := by
  unfold Quiet
  split
  · rename_i hstate
    constructor
    · intro heq hzero
      have hactive := doNothing_suggestion hstate hzero hreset
      have hsame : (s.doNothing E).converter = s.converter :=
        congrArg (fun t : Session K V H => t.context.converter) heq
      rw [hsame, hzero.2] at hactive
      cases hactive
    · exact doNothing_precomposition hstate
  · rename_i hstate
    have htext : s.state = .composition ∨ s.state = .conversion :=
      (h.resolve_left hstate).symm
    rw [doNothing_text htext, ← popped_eq_iff]
    constructor
    · intro heq
      exact congrArg (fun t : Session K V H => t.context.converter) heq
    · intro heq
      rw [heq]
      rfl

end DoNothing

section Undo

variable {E} {s : Exec K V H}

theorem undo_outside (h : ¬ s.CanUndo) : s.undo E = (s.discardForUndo E).doNothing E := by
  have hstate : (s.discardForUndo E).state ≠ .precomposition ∧
      (s.discardForUndo E).state ≠ .conversion ∧ (s.discardForUndo E).state ≠ .composition := by
    simpa [CanUndo] using h
  exact if_pos hstate

theorem undo_inside (h : s.CanUndo) :
    s.undo E =
      let t := (s.discardForUndo E).setConsumed true
      if !s.hasUndoContext then t.doNothing E
      else
        let t := t.editConverter E.converterOps.revert
        if t.context.output.result.isSome ∧ !t.context.clientCapability.deletePrecedingText then
          t.doNothing E
        else
          let result := t.context.output.result.getD {}
          let size := (result.value.getD []).length
          let t := t.popUndoContext
          let t :=
            if size > 0 then
              t.editOutput fun output =>
                { output with
                  deletionRange :=
                    some { offset := -((size : Int) + result.cursorOffset), length := size } }
            else t
          t.putOutput E := by
  have hstate : ¬ ((s.discardForUndo E).state ≠ .precomposition ∧
      (s.discardForUndo E).state ≠ .conversion ∧ (s.discardForUndo E).state ≠ .composition) := by
    rw [discardForUndo_state]
    rintro ⟨h1, h2, h3⟩
    exact h.elim h1 fun h => h.elim h2 h3
  have hstack : ((s.discardForUndo E).setConsumed true).hasUndoContext = s.hasUndoContext :=
    congrArg (fun contexts : List (ImeContext K V) => !contexts.isEmpty) discardForUndo_undoContexts
  rw [← hstack]
  exact if_neg hstate

theorem undo_empty (h : s.CanUndo) (hempty : s.hasUndoContext = false) :
    s.undo E = ((s.discardForUndo E).setConsumed true).doNothing E := by
  rw [undo_inside h, hempty]
  rfl

theorem undo_refused (h : s.CanUndo) (hstack : s.hasUndoContext = true) (hback : ¬ s.CanTakeBack) :
    s.undo E = (((s.discardForUndo E).setConsumed true).editConverter
      E.converterOps.revert).doNothing E := by
  have hcontext : s.context.output.result.isSome ∧
      !s.context.clientCapability.deletePrecedingText := by
    simpa [CanTakeBack] using hback
  have hrefused : (((s.discardForUndo E).setConsumed true).editConverter
      E.converterOps.revert).context.output.result.isSome ∧
      !(((s.discardForUndo E).setConsumed true).editConverter
        E.converterOps.revert).context.clientCapability.deletePrecedingText := by
    rw [← discardForUndo_context (E := E)] at hcontext
    exact hcontext
  rw [undo_inside h, hstack]
  exact if_pos hrefused

theorem undo_restores (h : s.CanUndo) (hstack : s.hasUndoContext = true) (hback : s.CanTakeBack) :
    (s.undo E).undoContexts = s.undoContexts.tail := by
  have hallowed : ¬ ((((s.discardForUndo E).setConsumed true).editConverter
      E.converterOps.revert).context.output.result.isSome ∧
      !(((s.discardForUndo E).setConsumed true).editConverter
        E.converterOps.revert).context.clientCapability.deletePrecedingText) := by
    rintro ⟨hresult, hcapability⟩
    have hresult : (s.discardForUndo E).context.output.result.isSome = true := hresult
    have hcapability : (!(s.discardForUndo E).context.clientCapability.deletePrecedingText) =
        true := hcapability
    rw [discardForUndo_context] at hresult hcapability
    rw [hback hresult] at hcapability
    cases hcapability
  have hpop : ∀ t : Exec K V H, t.popUndoContext.undoContexts = t.undoContexts.tail := by
    intro t
    unfold popUndoContext
    split
    · rename_i hnil
      rw [hnil]
      rfl
    · rename_i hcons
      rw [hcons]
      rfl
  have hdiscarded : (((s.discardForUndo E).setConsumed true).editConverter
      E.converterOps.revert).popUndoContext.undoContexts = s.undoContexts.tail := by
    rw [hpop]
    exact congrArg List.tail (discardForUndo_undoContexts (E := E))
  rw [undo_inside h, hstack]
  dsimp only [Bool.not_true, Bool.false_eq_true]
  rw [if_neg (by decide), if_neg hallowed]
  split <;> exact hdiscarded

theorem tail_ne (h : s.hasUndoContext = true) : s.undoContexts.tail ≠ s.undoContexts := by
  unfold hasUndoContext at h
  cases hcontexts : s.undoContexts with
  | nil => simp [hcontexts] at h
  | cons context contexts => simp

theorem editConverter_same {t : Exec K V H} {f : Engine V H → Engine V H}
    (h : f (t.converter, t.history) = (t.converter, t.history)) : t.editConverter f = t := by
  have h : f (t.context.converter, t.history) = (t.context.converter, t.history) := h
  simp only [editConverter, callConverter, h]

theorem doNothing_revert_ne {R : RevertOps V H} {t : Exec K V H} (h : t.CanUndo)
    (hrevert : E.converterOps.revert = R.revert)
    (hreset : ∀ engine, (E.converterOps.reset engine).1.isActive = false)
    (hid : R.revertId t.converter.segments ≠ 0) :
    ((t.editConverter E.converterOps.revert).doNothing E).toSession ≠ t.toSession := by
  intro heq
  have hconverter : ((t.editConverter E.converterOps.revert).doNothing E).converter = t.converter :=
    congrArg (fun u : Session K V H => u.context.converter) heq
  have hstate : (t.editConverter E.converterOps.revert).state = t.state := rfl
  have hreverted : R.revertId (t.editConverter E.converterOps.revert).converter.segments = 0 := by
    rw [hrevert]
    show R.revertId (R.revert (t.converter, t.history)).1.segments = 0
    exact RevertOps.revertId_revert
  have hsegments : ((t.editConverter E.converterOps.revert).doNothing E).converter.segments ≠
      (t.editConverter E.converterOps.revert).converter.segments := by
    intro hsame
    rw [hconverter] at hsame
    rw [← hsame] at hreverted
    exact hid hreverted
  by_cases hprecomposition : t.state = .precomposition
  · by_cases hzero : E.request.zeroQuerySuggestion = true ∧
        (t.editConverter E.converterOps.revert).converter.isActive = true
    · have hactive := doNothing_suggestion (hstate.trans hprecomposition) hzero hreset
      have hsame : (t.editConverter E.converterOps.revert).converter.isActive =
          t.converter.isActive := by
        rw [hrevert]
        rfl
      rw [hconverter, ← hsame, hzero.2] at hactive
      cases hactive
    · exact hsegments (congrArg (fun u : Session K V H => u.context.converter.segments)
        (doNothing_precomposition (hstate.trans hprecomposition) hzero))
  · have htext : t.state = .composition ∨ t.state = .conversion :=
      (h.resolve_left hprecomposition).symm
    have hshown := congrArg (fun u : Session K V H => u.context.converter.segments)
      (doNothing_text (E := E) (s := t.editConverter E.converterOps.revert) htext)
    exact hsegments hshown

/-- An `UNDO` that brings no context back leaves the session and what has been learnt as they were,
but for what was pending, unless it has reverted the converter before it looks at what the client
can do, or `DoNothing` finds something to do. -/
theorem undo_keeps_iff (R : RevertOps V H) (hrevert : E.converterOps.revert = R.revert)
    (hreset : ∀ engine, (E.converterOps.reset engine).1.isActive = false) :
    s.UndoKeeps E ↔ ¬ s.CanUndo ∨ s.hasUndoContext = true ∧ s.CanTakeBack ∨
      (s.hasUndoContext = true → R.revertId s.converter.segments = 0) ∧ s.Quiet E := by
  by_cases h : s.CanUndo
  · have hdiscarded : ((s.discardForUndo E).setConsumed true).CanUndo := by
      show (s.discardForUndo E).CanUndo
      simpa [CanUndo] using h
    have hquiet : ((s.discardForUndo E).setConsumed true).Quiet E ↔ s.Quiet E :=
      discardForUndo_quiet
    cases hstack : s.hasUndoContext with
    | false =>
      have hkeeps : s.UndoKeeps E ↔ s.Quiet E := by
        rw [← hquiet, ← doNothing_eq_iff hdiscarded hreset, UndoKeeps, undo_empty h hstack]
        exact ⟨fun hkeeps => hkeeps (doNothing_undoContexts.trans discardForUndo_undoContexts),
          fun heq _ => heq⟩
      simp [hkeeps, h]
    | true =>
      by_cases hback : s.CanTakeBack
      · have hkeeps : s.UndoKeeps E := fun hsame =>
          absurd ((undo_restores h hstack hback).symm.trans hsame) (tail_ne hstack)
        simp [hkeeps, hback]
      · have hkept : (s.undo E).undoContexts = s.undoContexts := by
          rw [undo_refused h hstack hback, doNothing_undoContexts]
          exact discardForUndo_undoContexts
        have hkeeps : s.UndoKeeps E ↔
            R.revertId s.converter.segments = 0 ∧ s.Quiet E := by
          rw [UndoKeeps, undo_refused h hstack hback]
          have hconverter : ((s.discardForUndo E).setConsumed true).converter = s.converter :=
            discardForUndo_converter
          by_cases hid : R.revertId s.converter.segments = 0
          · have hsame : ((s.discardForUndo E).setConsumed true).editConverter
                E.converterOps.revert = (s.discardForUndo E).setConsumed true := by
              apply editConverter_same
              rw [hrevert]
              exact RevertOps.revert_of_none (hconverter ▸ hid)
            rw [hsame, ← hquiet, ← doNothing_eq_iff hdiscarded hreset]
            exact ⟨fun hkeeps => ⟨hid, hkeeps (doNothing_undoContexts.trans
              discardForUndo_undoContexts)⟩, fun hkeeps _ => hkeeps.2⟩
          · have hne := doNothing_revert_ne hdiscarded hrevert hreset (hconverter ▸ hid)
            rw [undo_refused h hstack hback] at hkept
            exact ⟨fun hkeeps => absurd (hkeeps hkept) hne, fun hkeeps => absurd hkeeps.1 hid⟩
        simp [hkeeps, h, hback]
  · have hkeeps : s.UndoKeeps E := fun _ => by
      rw [undo_outside h]
      apply doNothing_outside
      simpa [CanUndo] using h
    simp [hkeeps, h]

/-- The reverts of the plain converter. -/
def plainRevertOps : RevertOps PlainSegments (List Text) where
  revertId segments := segments.revertId
  clearRevertId segments := { segments with revertId := 0 }
  revertHistory _ history := history.tail
  revertId_clear _ := rfl

theorem plainRevert_eq : plainRevert = plainRevertOps.revert := by
  funext engine
  by_cases hid : engine.1.segments.revertId = 0
  · simp [plainRevert, RevertOps.revert, RevertOps.revertConversion, plainRevertOps, hid]
  · simp [plainRevert, RevertOps.revert, RevertOps.revertConversion, plainRevertOps, hid]

/-- A text that has been committed, and a client that can take nothing back. -/
def committedText : Exec Text PlainSegments (List Text) :=
  let typed : Session Text PlainSegments (List Text) :=
    { plainSession with
      context := { plainSession.context with
        state := .composition, composer := { chunks := text "あ", position := 1 } } }
  (typed.sendCommand (plainEnv {} {}) { command := some { type := .submit } }).2.exec
    { command := some { type := .undo } }

/-- The client can take the text back. -/
theorem undo_keeps_iff_takes_back :
    let s := committedText
    let t : Exec Text PlainSegments (List Text) :=
      { s with context := { s.context with clientCapability := { deletePrecedingText := true } } }
    t.UndoKeeps (plainEnv {} {}) ↔ ¬ t.CanUndo ∨ t.hasUndoContext = true ∧ t.CanTakeBack ∨
      (t.hasUndoContext = true → t.converter.segments.revertId = 0) ∧
        t.Quiet (plainEnv {} {}) := by
  intro s t
  exact undo_keeps_iff (E := plainEnv {} {}) plainRevertOps plainRevert_eq fun _ => rfl

/-- What has been learnt is gone after the `UNDO`, and the text is still there. -/
theorem undo_reverts_history :
    committedText.history = [text "あ"] ∧
      (committedText.undo (plainEnv {} {})).undoContexts = committedText.undoContexts ∧
      (committedText.undo (plainEnv {} {})).history = [] ∧
      ¬ committedText.UndoKeeps (plainEnv {} {}) := by
  have hkept : (committedText.undo (plainEnv {} {})).undoContexts = committedText.undoContexts := by
    decide +kernel
  refine ⟨by decide +kernel, hkept, by decide +kernel, fun h => ?_⟩
  have hhistory : (committedText.undo (plainEnv {} {})).history =
      (committedText.discardForUndo (plainEnv {} {})).history :=
    congrArg Session.history (h hkept)
  exact absurd hhistory (by decide +kernel)

end Undo

end Exec

end Mozkey.Session
