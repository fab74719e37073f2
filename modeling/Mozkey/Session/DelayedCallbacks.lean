import Mozkey.Session.LiveRuns
import Mozkey.Session.PlainEnv

/-! The delayed callbacks of a live conversion over whole runs: one that is not for the conversion
that was scheduled last changes nothing that a conversion is about. -/

namespace Mozkey.Session

variable {K V H : Type} {E : Env K V H}

set_option linter.dupNamespace false

structure LiveConversionFields where
  active : Bool
  pending : Bool
  generation : UInt32
  pendingGeneration : UInt32
  pendingKey : Text
  pendingInput : Input
  pendingSuggestionCandidateWindow : CandidateWindow
  suggestionCandidateWindow : CandidateWindow
  key : Text
  preedit : Text
  value : Text
  preeditOutput : Preedit
  deriving DecidableEq

def Session.liveConversionFields (session : Session K V H) : LiveConversionFields where
  active := session.liveConversionActive
  pending := session.liveConversionPending
  generation := session.liveConversionGeneration
  pendingGeneration := session.pendingLiveConversionGeneration
  pendingKey := session.pendingLiveConversionKey
  pendingInput := session.pendingLiveConversionInput
  pendingSuggestionCandidateWindow := session.pendingLiveConversionSuggestionCandidateWindow
  suggestionCandidateWindow := session.liveConversionSuggestionCandidateWindow
  key := session.liveConversionKey
  preedit := session.liveConversionPreedit
  value := session.liveConversionValue
  preeditOutput := session.liveConversionPreeditOutput

/-- The command carries the generation of the live conversion that was scheduled last, which is
still pending, and the text is still the one that was scheduled. -/
def Session.IsLatestScheduled (E : Env K V H) (session : Session K V H) (command : SessionCommand) :
    Prop :=
  session.liveConversionPending = true ∧ ∃ generation key,
    session.lastScheduled = some (generation, key) ∧
    command.liveConversionGeneration = some generation ∧
    session.context.composer.getQueryForConversion E.composerOps = key

/-- Nothing is different but what is put out, the clock, the capability of the client, the Zenz
correction and, of the converter, what it shows once and its shortcut. -/
structure Undisturbed (session after : Session K V H) (shortcut : Option Nat) : Prop where
  composer : after.context.composer = session.context.composer
  state : after.context.state = session.context.state
  converter : ∃ shown ∈ [session.context.converter, session.context.converter.popped],
    after.context.converter =
      { shown with selectionShortcut := shortcut.getD session.context.converter.selectionShortcut }
  fields : after.liveConversionFields = session.liveConversionFields

namespace Exec

variable {s : Exec K V H}

/-! The output of a callback that is not current. -/

theorem outputPendingLiveConversion_toSession :
    (s.outputPendingLiveConversion E).2.toSession = s.toSession := by
  dsimp only [outputPendingLiveConversion]
  split_ifs <;> rfl

theorem ignoreStaleDelayedLiveConversion_toSession :
    (s.ignoreStaleDelayedLiveConversion E).toSession = s.toSession ∨
      (s.ignoreStaleDelayedLiveConversion E).toSession =
        { s.toSession with
          context := { s.context with converter := s.context.converter.popped } } := by
  dsimp only [ignoreStaleDelayedLiveConversion]
  split_ifs
  · exact .inl outputPendingLiveConversion_toSession
  · exact .inr rfl
  · unfold outputFromState
    split
    · exact .inl rfl
    · exact .inr rfl

theorem leaveLiveConversion_undisturbed (h : Guarded False s.live) :
    s.leaveLiveConversion.maybeSetUndoStatus.context = s.context ∧
      s.leaveLiveConversion.maybeSetUndoStatus.toSession.liveConversionFields =
        s.toSession.liveConversionFields := by
  have hstatus : ∀ t : Exec K V H, t.maybeSetUndoStatus.toSession = t.toSession := by
    intro t
    unfold maybeSetUndoStatus
    split <;> rfl
  rw [hstatus]
  dsimp only [leaveLiveConversion]
  split
  · rename_i hstate
    have hactive : s.liveConversionActive = false := (h.inactive hstate).resolve_left id
    refine ⟨rfl, ?_⟩
    simp only [Session.liveConversionFields, hactive]
    rfl
  · exact ⟨rfl, rfl⟩

theorem isCurrentLiveConversionCallback_eq_false {command : SessionCommand}
    (hcommand : s.input.command = some command) (hpending : PendingIsScheduled s.live)
    (hlatest : ¬ s.toSession.IsLatestScheduled E command) :
    s.isCurrentLiveConversionCallback E = false := by
  rw [Bool.eq_false_iff]
  intro hcurrent
  unfold isCurrentLiveConversionCallback at hcurrent
  rw [hcommand] at hcurrent
  simp only [Bool.and_eq_true, beq_iff_eq] at hcurrent
  obtain ⟨hwaits, ⟨⟨hgeneration, -⟩, -⟩, hquery⟩ := hcurrent
  exact hlatest ⟨hwaits, _, _, hpending hwaits, hgeneration, hquery⟩

end Exec

theorem Settled.sendCommand_undisturbed {session : Session K V H} (h : Settled session.live)
    {input : Input} {command : SessionCommand} (hcommand : input.command = some command)
    (htype : command.type = .applyLiveConversion)
    (hlatest : ¬ session.IsLatestScheduled E command) :
    Undisturbed session (session.sendCommand E input).2 input.selectionShortcut := by
  have hstale := Exec.isCurrentLiveConversionCallback_eq_false (E := E)
    (s := ((session.exec input).updateTime.updatePreferences.transformInput E).setConsumed true)
    hcommand h.scheduled hlatest
  have hsend : (session.sendCommand E input).2 =
      ((((((session.exec input).updateTime.updatePreferences.transformInput E).setConsumed
        true).ignoreStaleDelayedLiveConversion E).leaveLiveConversion).maybeSetUndoStatus).toSession := by
    have hinput : (session.exec input).updateTime.updatePreferences.input.command = some command :=
      hcommand
    dsimp only [Session.sendCommand, Exec.sendCommand]
    rw [hinput]
    dsimp only
    rw [htype, if_neg (by decide)]
    dsimp only [Exec.handlePendingForSessionCommand, Exec.executeSessionCommand,
      Exec.applyDelayedLiveConversion]
    rw [if_pos (by rw [hstale]; rfl)]
  have hoptions := Exec.ignoreStaleDelayedLiveConversion_toSession (E := E)
    (s := ((session.exec input).updateTime.updatePreferences.transformInput E).setConsumed true)
  have hlive := Exec.ignoreStaleDelayedLiveConversion_live (E := E)
    (s := ((session.exec input).updateTime.updatePreferences.transformInput E).setConsumed true)
  rw [hsend]
  generalize (((session.exec input).updateTime.updatePreferences.transformInput E).setConsumed
    true).ignoreStaleDelayedLiveConversion E = w at hoptions hlive ⊢
  obtain ⟨hcontext, hfields⟩ := Exec.leaveLiveConversion_undisturbed (s := w)
    (hlive ▸ h.guarded)
  rcases hoptions with heq | heq
  · have hw : w.context = _ := congrArg (·.context) heq
    exact
      { composer := by rw [hcontext, hw]; rfl
        state := by rw [hcontext, hw]; rfl
        converter := ⟨_, List.mem_cons_self .., by rw [hcontext, hw]; rfl⟩
        fields := by rw [hfields, heq]; rfl }
  · have hw : w.context = _ := congrArg (·.context) heq
    exact
      { composer := by rw [hcontext, hw]; rfl
        state := by rw [hcontext, hw]; rfl
        converter := ⟨_, List.mem_cons_of_mem _ (List.mem_cons_self ..), by rw [hcontext, hw]; rfl⟩
        fields := by rw [hfields, heq]; rfl }

/-- Over a run from a new session a delayed callback starts a live conversion only if it is for the
one that was scheduled last; any other disturbs nothing. -/
theorem run_applyLiveConversion (composer : Composer K) (converter : EngineConverter V)
    (history : H) (calls : List (Env K V H × Call K V)) (E : Env K V H) {input : Input}
    {command : SessionCommand} (hcommand : input.command = some command)
    (htype : command.type = .applyLiveConversion) :
    let session := (Session.create composer converter history).run calls
    session.IsLatestScheduled E command ∨
      Undisturbed session (session.sendCommand E input).2 input.selectionShortcut := by
  intro session
  have hsettled : Settled session.live := (settled_create composer converter history).run calls
  by_cases hlatest : session.IsLatestScheduled E command
  · exact .inl hlatest
  · exact .inr (hsettled.sendCommand_undisturbed hcommand htype hlatest)

/-- A callback with a shortcut in its settings. -/
def shortcutCallback : Input :=
  { type := .sendCommand
    command := some { type := .applyLiveConversion, liveConversionGeneration := some 1 }
    selectionShortcut := some 1 }

theorem run_applyLiveConversion_shortcut :
    plainSession.IsLatestScheduled (plainEnv {} {})
        { type := .applyLiveConversion, liveConversionGeneration := some 1 } ∨
      Undisturbed plainSession (plainSession.sendCommand (plainEnv {} {}) shortcutCallback).2
        (some 1) :=
  @run_applyLiveConversion Text PlainSegments (List Text) { chunks := [] } { segments := {} } [] []
    (plainEnv {} {}) shortcutCallback _ rfl rfl

/-- No live conversion was ever scheduled, and still the converter is another one. -/
theorem applyLiveConversion_changes_converter :
    plainSession.lastScheduled = none ∧
      (plainSession.sendCommand (plainEnv {} {}) shortcutCallback).2.context.converter ≠
        plainSession.context.converter := by
  refine ⟨rfl, fun h => ?_⟩
  have hshortcut := congrArg EngineConverter.selectionShortcut h
  exact absurd hshortcut (by decide +kernel)

end Mozkey.Session
