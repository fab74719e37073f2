import Mozkey.Session.ZenzLiveCorrection

/-! The live conversion of `session/session.cc`: it is scheduled when the text changes, started by a
callback, and cancelled by what comes in between. -/

namespace Mozkey.Session

variable {K V H : Type} (E : Env K V H)

namespace Exec

def cancelPendingLiveConversion (s : Exec K V H) : Exec K V H :=
  let cancelled : Exec K V H :=
    { s with
      liveConversionGeneration := s.liveConversionGeneration + 1
      liveConversionPending := false
      pendingLiveConversionGeneration := 0
      pendingLiveConversionKey := []
      pendingLiveConversionInput := {}
      pendingLiveConversionSuggestionCandidateWindow := {} }
  cancelled.cancelPendingZenzLiveCorrection

def clearLiveConversionState (s : Exec K V H) : Exec K V H :=
  let cleared : Exec K V H :=
    { s with
      liveConversionGeneration := s.liveConversionGeneration + 1
      liveConversionActive := false
      liveConversionPending := false
      pendingLiveConversionGeneration := 0
      pendingLiveConversionKey := []
      pendingLiveConversionInput := {}
      pendingLiveConversionSuggestionCandidateWindow := {}
      liveConversionSuggestionCandidateWindow := {}
      liveConversionKey := []
      liveConversionPreedit := []
      liveConversionValue := []
      liveConversionPreeditOutput := {} }
  cleared.clearZenzLiveCorrectionState

def cancelLiveConversionForEditing (s : Exec K V H) : Exec K V H :=
  let s := s.cancelPendingLiveConversion.clearZenzLiveCorrectionState
  if !s.liveConversionActive then s
  else
    let stopped : Exec K V H := { s with liveConversionActive := false }
    (stopped.setState E .composition).editConverter E.converterOps.cancel

def isAsciiMode (mode : TransliterationType) : Bool := mode == .halfAscii || mode == .fullAscii

/-- The conditions that `MaybeStartLiveConversion` and `MaybeScheduleLiveConversion` begin with. -/
def liveConversionAllowed (s : Exec K V H) : Bool :=
  E.config.useLiveConversion && s.state == .composition &&
    s.composer.inputFieldType != .password && !isAsciiMode s.composer.inputMode

def skipsLiveConversion (s : Exec K V H) : Bool :=
  E.textOps.shouldSkipLiveConversionForCompositionKey
      (s.composer.getQueryForConversion E.composerOps) s.context.clientContext.precedingText
      (getLiveConversionMinKeyLength E.config)

def isCursorAtEnd (s : Exec K V H) : Bool :=
  s.composer.getLength E.composerOps == s.composer.position

/-- The suggestions come from a copy of the context, whose converter leaves its conversion. -/
def attachLiveConversionSuggestionCandidateWindow (input : Input) (s : Exec K V H) :
    Bool × Exec K V H :=
  let emptied : Exec K V H := { s with liveConversionSuggestionCandidateWindow := {} }
  let s := emptied.editOutput fun output => { output with candidateWindow := none }
  if suppressSuggestion input then (false, s)
  else
    let engine : Engine V H := (s.converter, s.history)
    let engine := if s.converter.isActive then E.converterOps.cancel engine else engine
    let (suggested, converter, history) := suggestFor E input s.composer engine
    let s : Exec K V H := { s with history }
    let window := (EngineConverter.fillOutput E.composerOps E.converterOps s.composer converter
      {}).candidateWindow.getD {}
    if !suggested ∨ window.candidates = [] then (false, s)
    else
      let cached : Exec K V H := { s with liveConversionSuggestionCandidateWindow := window }
      (true, cached.editOutput fun output => { output with candidateWindow := some window })

/-- `MaybeStartLiveConversion` once the converter has converted the text. -/
def startLiveConversion (key preedit : Text) (input : Input) (window : CandidateWindow)
    (s : Exec K V H) : Exec K V H :=
  let converted : Exec K V H := { (s.setState E .conversion) with liveConversionActive := true }
  let shown := ((converted.setCandidateListVisible true).putOutput E).restorePreeditKeys E preedit
  let flagged := shown.editOutput fun output =>
    { output with liveConversion := true, liveConversionPending := false }
  let kept : Exec K V H :=
    { flagged with
      liveConversionKey := key
      liveConversionPreedit := preedit
      liveConversionPreeditOutput := flagged.output.preedit.getD {}
      liveConversionValue :=
        match flagged.output.preedit with
        | some shown => shown.segments.flatMap (·.value)
        | none => flagged.composer.getStringForSubmission E.composerOps }
  let (applied, s) := kept.clearZenzLiveCorrectionState.maybeApplyZenzFeedbackLiveCorrection E
  if applied then s
  else
    let (attached, s) := s.attachLiveConversionSuggestionCandidateWindow E input
    let s : Exec K V H :=
      if !attached ∧ window.candidates ≠ [] then
        let cached : Exec K V H := { s with liveConversionSuggestionCandidateWindow := window }
        cached.editOutput fun output => { output with candidateWindow := some window }
      else s
    s.maybeScheduleZenzLiveCorrection E

def maybeStartLiveConversion (s : Exec K V H) : Bool × Exec K V H :=
  if !s.liveConversionAllowed E ∨ s.skipsLiveConversion E ∨ !s.isCursorAtEnd E then (false, s)
  else
    let key := s.composer.getQueryForConversion E.composerOps
    let preedit := s.composer.getStringForPreedit E.composerOps
    let input :=
      if s.liveConversionPending ∧ s.pendingLiveConversionKey = key ∧
          s.pendingLiveConversionInput.type ≠ .none then s.pendingLiveConversionInput
      else s.input
    let window := s.pendingLiveConversionSuggestionCandidateWindow
    let unscheduled : Exec K V H :=
      { s with
        liveConversionPending := false
        pendingLiveConversionGeneration := 0
        pendingLiveConversionKey := []
        pendingLiveConversionInput := {}
        pendingLiveConversionSuggestionCandidateWindow := {} }
    let (converted, s) := unscheduled.callConverter
      (E.converterOps.convertWithPreferences unscheduled.converter.conversionPreferences
        unscheduled.composer)
    if !converted then (true, s.outputComposition E)
    else (true, s.startLiveConversion E key preedit input window)

def attachDelayedLiveConversionCallback (s : Exec K V H) : Exec K V H :=
  s.editOutput fun output =>
    { output with
      callback := some
        { sessionCommand :=
            { type := .applyLiveConversion
              liveConversionGeneration := some s.pendingLiveConversionGeneration
              liveConversionKey := some s.pendingLiveConversionKey }
          delayMillisec := getLiveConversionDelayMillisec E.config } }

/-- The live conversion of the text is scheduled now. -/
def scheduleLiveConversion (s : Exec K V H) : Exec K V H :=
  let generation := s.liveConversionGeneration + 1
  let key := s.composer.getQueryForConversion E.composerOps
  { s with
    liveConversionGeneration := generation
    liveConversionPending := true
    pendingLiveConversionGeneration := generation
    pendingLiveConversionKey := key
    pendingLiveConversionInput := s.input
    pendingLiveConversionSuggestionCandidateWindow := {}
    lastScheduled := some (generation, key) }

def maybeScheduleLiveConversion (s : Exec K V H) : Bool × Exec K V H :=
  if !s.liveConversionAllowed E then (false, s)
  else if s.skipsLiveConversion E ∨ !s.isCursorAtEnd E then (false, s.cancelPendingLiveConversion)
  else if getLiveConversionDelayMillisec E.config = 0 then s.maybeStartLiveConversion E
  else
    let (shown, s) := (s.scheduleLiveConversion E).outputPendingLiveConversion E
    if !shown then s.maybeStartLiveConversion E
    else
      let (attached, s) := s.attachLiveConversionSuggestionCandidateWindow E s.input
      let s : Exec K V H :=
        if attached then
          { s with
            pendingLiveConversionSuggestionCandidateWindow := s.output.candidateWindow.getD {} }
        else s
      (true, s.attachDelayedLiveConversionCallback E)

/-- The callback is about the live conversion that is pending, and the text is still the one that
was scheduled. -/
def isCurrentLiveConversionCallback (s : Exec K V H) : Bool :=
  s.liveConversionPending &&
    match s.input.command with
    | none => false
    | some command =>
      command.liveConversionGeneration == some s.pendingLiveConversionGeneration &&
        command.liveConversionKey == some s.pendingLiveConversionKey &&
        s.state == .composition &&
        s.composer.getQueryForConversion E.composerOps == s.pendingLiveConversionKey

def applyDelayedLiveConversion (s : Exec K V H) : Bool × Exec K V H :=
  let s := s.setConsumed true
  if !s.isCurrentLiveConversionCallback E then (true, s.ignoreStaleDelayedLiveConversion E)
  else if s.skipsLiveConversion E ∨ !s.isCursorAtEnd E then
    (true, s.cancelPendingLiveConversion.outputFromState E)
  else s.maybeStartLiveConversion E

/-- `FlushPendingLiveConversion`: the live conversion starts now, with a command of its own that
nobody sees. -/
def flushPendingLiveConversion (s : Exec K V H) : Exec K V H :=
  if !s.liveConversionPending then s
  else if s.state ≠ .composition ∨
      s.composer.getQueryForConversion E.composerOps ≠ s.pendingLiveConversionKey ∨
      s.skipsLiveConversion E then s.cancelPendingLiveConversion
  else
    let dummy : Exec K V H := { s with command := { input := { now := s.input.now } } }
    { (dummy.maybeStartLiveConversion E).2 with command := s.command }

end Exec

end Mozkey.Session
