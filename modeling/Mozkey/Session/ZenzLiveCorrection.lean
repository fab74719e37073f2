import Mozkey.Session.State

/-! The Zenz correction of a live conversion in `session/session.cc`: what is pending, what is
visible, and the callbacks that start it, poll for its result and show it. -/

namespace Mozkey.Session

variable {K V H : Type} (E : Env K V H)

/-- The keys of the segments, cut out of a text of the same length. -/
def distributeKeys : List PreeditSegment → Text → List PreeditSegment
  | [], _ => []
  | segment :: segments, key =>
    let size := (if segment.key = [] then segment.value else segment.key).length
    { segment with key := key.take size } :: distributeKeys segments (key.drop size)

def restorePreeditSegmentKeysForSymbolStyle (source : Text) (preedit : Preedit) : Preedit :=
  let fullKey := preedit.segments.flatMap fun segment =>
    if segment.key = [] then segment.value else segment.key
  let fullValue := preedit.segments.flatMap (·.value)
  let restored := E.textOps.restoreUserVisibleSymbolStyle source fullValue fullKey
  if source = [] ∨ preedit.segments = [] ∨ restored = fullKey ∨
      restored.length ≠ fullKey.length then preedit
  else { preedit with segments := distributeKeys preedit.segments restored }

namespace Exec

def restorePreeditKeys (source : Text) (s : Exec K V H) : Exec K V H :=
  s.editOutput fun output =>
    { output with
      preedit := output.preedit.map (restorePreeditSegmentKeysForSymbolStyle E source) }

/-- The text that a live conversion was made of, for the keys that are shown. -/
def symbolStyleSource (s : Exec K V H) : Text :=
  if s.liveConversionPreedit = [] then s.liveConversionKey else s.liveConversionPreedit

def cancelPendingZenzLiveCorrection (s : Exec K V H) : Exec K V H :=
  { s with
    zenzLiveGeneration := s.zenzLiveGeneration + 1
    pendingZenzLive := {}
    zenzLiveCorrector := s.zenzLiveCorrector.map ZenzLiveCorrector.cancelPending }

def clearZenzLiveCorrectionState (s : Exec K V H) : Exec K V H :=
  { s with
    zenzLiveGeneration := s.zenzLiveGeneration + 1
    pendingZenzLive := {}
    zenzLiveCorrector := s.zenzLiveCorrector.map ZenzLiveCorrector.cancelPending
    zenzLiveVisibleGeneration := 0
    zenzLiveKey := []
    zenzLiveDisplayKey := []
    zenzLiveValue := []
    zenzLiveMozcValue := []
    zenzLiveContextClass := []
    zenzLiveLeftContext := []
    zenzLivePreeditOutput := {} }

def hasVisibleZenzLiveCorrection (s : Exec K V H) : Bool :=
  s.zenzLiveVisibleGeneration != 0 && s.zenzLiveKey != [] && s.zenzLiveValue != [] &&
    s.zenzLiveMozcValue != [] && s.liveConversionActive && s.state == .conversion &&
    s.liveConversionKey == s.zenzLiveKey && s.liveConversionValue == s.zenzLiveMozcValue

def extractZenzLeftContext (maxChars : Nat) (s : Exec K V H) : Text :=
  let text := s.context.clientContext.precedingText.getD []
  text.drop (text.length - maxChars)

def extractZenzRightContext (maxChars : Nat) (s : Exec K V H) : Text :=
  let text := s.context.clientContext.followingText.getD []
  (text.takeWhile fun c => c != '\n' && c != '\r').take maxChars

def buildZenzFeedbackContextClass (leftContext : Text) : Text :=
  let result := E.textOps.sanitizeForZenz leftContext
    (getZenzLiveCorrectionLeftContextLength E.config)
  if result.contextClass = [] then text "empty" else result.contextClass

/-- What both `SetPendingZenzFeedback...` functions end with. -/
def fillPendingZenzFeedback (feedback : PendingZenzFeedback) (s : Exec K V H) : Exec K V H :=
  noteFeedback (.set feedback) { s with pendingZenzFeedback := feedback }

def setPendingZenzFeedbackAccepted (key contextClass value : Text) (s : Exec K V H) :
    Exec K V H :=
  if !E.config.useZenzFeedbackLearning ∨ key = [] ∨ value = [] ∨
      !(E.textOps.evaluateZenzLiveKeyPrivacy key).1 ∨
      !(E.textOps.evaluateZenzLiveValuePrivacy value).1 then s
  else
    s.fillPendingZenzFeedback
      { pending := true
        action := .accepted
        key := key
        contextClass := if contextClass = [] then text "empty" else contextClass
        value := value }

def setPendingZenzFeedbackRejected (reason : Text) (s : Exec K V H) : Exec K V H :=
  if !E.config.useZenzFeedbackLearning ∨ !s.hasVisibleZenzLiveCorrection ∨
      !(E.textOps.evaluateZenzLiveKeyPrivacy s.zenzLiveKey).1 ∨
      !(E.textOps.evaluateZenzLiveValuePrivacy s.zenzLiveValue).1 then s
  else
    s.fillPendingZenzFeedback
      { pending := true
        action := .rejected
        key := s.zenzLiveKey
        contextClass :=
          if s.zenzLiveContextClass = [] then text "empty" else s.zenzLiveContextClass
        value := s.zenzLiveValue
        reason := reason }

/-- A window that shows suggestions and no selection. -/
def isPassiveSuggestion (window : CandidateWindow) : Bool :=
  window.category == some .suggestion && window.candidates != [] && window.focusedIndex.isNone

def attachCachedLiveConversionSuggestionCandidateWindow (s : Exec K V H) : Exec K V H :=
  s.editOutput fun output =>
    { output with
      candidateWindow :=
        if isPassiveSuggestion s.liveConversionSuggestionCandidateWindow then
          some s.liveConversionSuggestionCandidateWindow
        else if isPassiveSuggestion s.pendingLiveConversionSuggestionCandidateWindow then
          some s.pendingLiveConversionSuggestionCandidateWindow
        else none }

/-- `OutputPendingLiveConversion`: it fails where what was converted before is no longer at the
beginning of the text. -/
def outputPendingLiveConversion (s : Exec K V H) : Bool × Exec K V H :=
  let currentKey := s.composer.getQueryForConversion E.composerOps
  let rawPreedit := s.composer.getStringForPreedit E.composerOps
  let pendingOutput (s : Exec K V H) : Exec K V H := s.editOutput fun output =>
    { output with candidateWindow := none, liveConversion := true, liveConversionPending := true }
  if s.liveConversionKey = [] ∨ s.liveConversionPreedit = [] ∨ s.liveConversionValue = [] ∨
      s.liveConversionPreeditOutput.segments = [] then
    (true, pendingOutput ((s.outputComposition E).restorePreeditKeys E rawPreedit))
  else if !(s.liveConversionKey.isPrefixOf currentKey) ∨
      !(s.liveConversionPreedit.isPrefixOf rawPreedit) then (false, s)
  else
    let suffixKey := currentKey.drop s.liveConversionKey.length
    let suffixValue := rawPreedit.drop s.liveConversionPreedit.length
    let suffix : List PreeditSegment :=
      if suffixValue = [] then []
      else
        [{ annotation := .underline
           key := if suffixKey = [] then suffixValue else suffixKey
           value := suffixValue }]
    let preedit := restorePreeditSegmentKeysForSymbolStyle E rawPreedit
      { segments := s.liveConversionPreeditOutput.segments ++ suffix }
    (true, (pendingOutput (s.outputComposition E)).editOutput fun output =>
      { output with
        preedit := some { preedit with
          cursor := s.liveConversionValue.length + suffixValue.length } })

/-- The output of the live conversion as it stands. -/
def outputLiveConversion (zenzPending : Bool) (s : Exec K V H) : Exec K V H :=
  ((s.putOutput E).restorePreeditKeys E s.symbolStyleSource).editOutput fun output =>
    { output with
      liveConversion := true
      liveConversionPending := false
      zenzLiveCorrectionPending := zenzPending }

def ignoreStaleDelayedLiveConversion (s : Exec K V H) : Exec K V H :=
  let s := s.setConsumed true
  if s.liveConversionPending then
    (s.outputPendingLiveConversion E).2.attachCachedLiveConversionSuggestionCandidateWindow
  else if s.liveConversionActive ∧ s.state = .conversion then
    let shown := ((s.putOutput E).restorePreeditKeys E s.symbolStyleSource).editOutput
      fun output => { output with liveConversion := true, liveConversionPending := false }
    shown.attachCachedLiveConversionSuggestionCandidateWindow
  else s.outputFromState E

/-- A text as the one highlighted segment of the preedit. -/
def outputZenzLiveCorrection (value : Text) (s : Exec K V H) : Exec K V H :=
  let displayKey := if s.zenzLiveDisplayKey = [] then s.zenzLiveKey else s.zenzLiveDisplayKey
  let preedit : Preedit :=
    { segments := [{ annotation := .highlight, key := displayKey, value := value }]
      cursor := value.length }
  let shown := s.editOutput fun output =>
    { output with
      consumed := true
      candidateWindow := none
      liveConversion := true
      liveConversionPending := false
      zenzLiveCorrectionPending := false
      zenzLiveCorrectionApplied := true
      preedit := some preedit }
  let kept : Exec K V H := { shown with zenzLivePreeditOutput := preedit }
  kept.attachCachedLiveConversionSuggestionCandidateWindow

/-- The conditions that `MaybeApplyZenzFeedbackLiveCorrection` and `MaybeScheduleZenzLiveCorrection`
share. -/
def zenzLiveCorrectionAllowed (s : Exec K V H) : Bool :=
  E.config.useZenzLiveCorrection && E.config.useLiveConversion && s.liveConversionActive &&
    s.state == .conversion && s.composer.inputFieldType != .password &&
    s.liveConversionKey != [] && s.liveConversionValue != [] &&
    (E.textOps.evaluateZenzLiveKeyPrivacy s.liveConversionKey).1 &&
    (E.textOps.evaluateZenzLiveValuePrivacy s.liveConversionValue).1 &&
    getZenzLiveCorrectionMinKeyLength E.config ≤ s.liveConversionKey.length

/-- A context for the prompt, empty where it may not be used, and its class. -/
def contextForPrompt (context : Text) (length : Nat) : Text × Text :=
  let result := E.textOps.sanitizeForZenz context length
  (if result.allowedForPrompt then result.sanitizedContext else [], result.contextClass)

def maybeApplyZenzFeedbackLiveCorrection (s : Exec K V H) : Bool × Exec K V H :=
  if !E.config.useZenzFeedbackLearning ∨ !s.zenzLiveCorrectionAllowed E ∨
      s.liveConversionPreeditOutput.segments.length ≤ 1 then (false, s)
  else
    let leftContextLength := getZenzLiveCorrectionLeftContextLength E.config
    let (leftContext, sanitizedClass) :=
      contextForPrompt E (s.extractZenzLeftContext leftContextLength) leftContextLength
    let contextClass := if sanitizedClass = [] then text "empty" else sanitizedClass
    let acceptable (value : Text) : Bool :=
      (E.textOps.evaluateZenzLiveValuePrivacy value).1 &&
        (E.textOps.validate
          { key := s.liveConversionKey
            mozcValue := s.liveConversionValue
            zenzValue := value
            leftContext := leftContext
            minKeyLength := getZenzLiveCorrectionMinKeyLength E.config
            allowSyntheticCandidate := E.config.useZenzSyntheticCandidate }).1
    match (E.feedbackOps.getAcceptedCandidates s.liveConversionKey contextClass s.history).find?
        acceptable with
    | none => (false, s)
    | some value =>
      let shown : Exec K V H :=
        { s with
          zenzLiveGeneration := s.zenzLiveGeneration + 1
          pendingZenzLive := {}
          zenzLiveVisibleGeneration := s.zenzLiveGeneration + 1
          zenzLiveKey := s.liveConversionKey
          zenzLiveDisplayKey := s.symbolStyleSource
          zenzLiveValue := value
          zenzLiveMozcValue := s.liveConversionValue
          zenzLiveContextClass := contextClass
          zenzLiveLeftContext := leftContext }
      (true, shown.outputZenzLiveCorrection value)

def attachZenzLiveCorrectionCallback (delayMillisec : Nat) (s : Exec K V H) : Exec K V H :=
  s.editOutput fun output =>
    { output with
      callback := some
        { sessionCommand :=
            { type := .applyZenzLiveCorrection
              liveConversionGeneration := some s.pendingZenzLive.generation
              liveConversionKey := some s.pendingZenzLive.key }
          delayMillisec := delayMillisec } }

def attachZenzLiveCorrectionStartCallback (s : Exec K V H) : Exec K V H :=
  s.attachZenzLiveCorrectionCallback (getZenzLiveCorrectionDelayMsec E.config)

def attachZenzLiveCorrectionPollCallback (s : Exec K V H) : Exec K V H :=
  s.attachZenzLiveCorrectionCallback 24

def isCurrentZenzLiveCorrectionCallback (s : Exec K V H) : Bool :=
  s.pendingZenzLive.pending &&
    match s.input.command with
    | none => false
    | some command =>
      command.liveConversionGeneration == some s.pendingZenzLive.generation &&
        command.liveConversionKey == some s.pendingZenzLive.key &&
        s.state == .conversion && s.liveConversionActive &&
        s.liveConversionKey == s.pendingZenzLive.key &&
        s.liveConversionValue == s.pendingZenzLive.mozcValue

def outputCurrentLiveConversionWithZenzPending (s : Exec K V H) : Exec K V H :=
  let s := s.setConsumed true
  if s.liveConversionActive ∧ s.state = .conversion then
    (s.outputLiveConversion E true).attachCachedLiveConversionSuggestionCandidateWindow
  else s.outputFromState E

def setZenzLiveCorrectionDebug (debug : Text) (s : Exec K V H) : Exec K V H :=
  s.editOutput fun output => { output with zenzLiveCorrectionDebug := debug }

def outputCurrentLiveConversionAfterZenzStop (debug : Text) (s : Exec K V H) : Exec K V H :=
  let s := s.setConsumed true
  if s.liveConversionActive ∧ s.state = .conversion then
    ((s.outputLiveConversion E false).setZenzLiveCorrectionDebug
      debug).attachCachedLiveConversionSuggestionCandidateWindow
  else (s.outputFromState E).setZenzLiveCorrectionDebug debug

def zenzLiveRequest (s : Exec K V H) : ZenzLiveRequest :=
  { generation := s.pendingZenzLive.generation
    key := s.pendingZenzLive.key
    prompt := s.pendingZenzLive.prompt
    leftContext := s.pendingZenzLive.leftContext
    mozcValue := s.pendingZenzLive.mozcValue
    readingKatakana := E.textOps.hiraganaToKatakana s.pendingZenzLive.key
    pipeName := E.config.zenzLiveCorrectionPipeName
    timeoutMsec := getZenzLiveCorrectionTimeoutMsec E.config
    maxOutputChars := 256
    issuedAt := s.pendingZenzLive.issuedAt }

/-- The end of `ApplyZenzLiveCorrectionResult` for a response that is not used. -/
def dropZenzLiveCorrectionResult (debug : Text) (s : Exec K V H) : Exec K V H :=
  (s.cancelPendingZenzLiveCorrection.outputLiveConversion E false).setZenzLiveCorrectionDebug debug

def applyZenzLiveCorrectionResult (response : ZenzLiveResponse) (s : Exec K V H) : Exec K V H :=
  let pending := s.pendingZenzLive
  let source :=
    if pending.symbolStyleSource = [] then pending.key else pending.symbolStyleSource
  let stripped :=
    if pending.leftContext ≠ [] ∧ pending.leftContext.isPrefixOf response.value then
      response.value.drop pending.leftContext.length
    else response.value
  let value := E.textOps.restoreUserVisibleSymbolStyle source pending.mozcValue stripped
  let contextClass :=
    if pending.contextClass = [] then buildZenzFeedbackContextClass E pending.leftContext
    else pending.contextClass
  let validation := E.textOps.validate
    { key := pending.key
      mozcValue := pending.mozcValue
      zenzValue := value
      leftContext := pending.leftContext
      minKeyLength := getZenzLiveCorrectionMinKeyLength E.config
      allowSyntheticCandidate := E.config.useZenzSyntheticCandidate }
  let keyPrivacy := E.textOps.evaluateZenzLiveKeyPrivacy pending.key
  let valuePrivacy := E.textOps.evaluateZenzLiveValuePrivacy value
  let feedback := E.feedbackOps.decide pending.key contextClass value s.history
  if !response.ok ∨ response.timeout then
    s.dropZenzLiveCorrectionResult E
      (if response.debug = [] then text "zenz_response_not_ok"
        else E.textOps.zenzSafeDebugReason response.debug)
  else if !validation.1 then s.dropZenzLiveCorrectionResult E validation.2
  else if !keyPrivacy.1 then
    s.dropZenzLiveCorrectionResult E (text "key_privacy_" ++ keyPrivacy.2)
  else if !valuePrivacy.1 then
    s.dropZenzLiveCorrectionResult E (text "value_privacy_" ++ valuePrivacy.2)
  else if E.config.useZenzFeedbackLearning ∧ feedback.1 then
    -- The one path that leaves the keys of the preedit as the converter gives them.
    (((s.cancelPendingZenzLiveCorrection.putOutput E).editOutput fun output =>
      { output with
        liveConversion := true
        liveConversionPending := false
        zenzLiveCorrectionPending := false }).setZenzLiveCorrectionDebug feedback.2)
  else
    let shown : Exec K V H :=
      { s with
        zenzLiveVisibleGeneration := pending.generation
        zenzLiveKey := pending.key
        zenzLiveDisplayKey :=
          E.textOps.restoreUserVisibleSymbolStyle source pending.mozcValue pending.key
        zenzLiveValue := value
        zenzLiveMozcValue := pending.mozcValue
        zenzLiveContextClass := if contextClass = [] then text "empty" else contextClass
        zenzLiveLeftContext := pending.leftContext
        pendingZenzLive := { pending with pending := false } }
    shown.outputZenzLiveCorrection value

def submitZenzLiveRequest (request : ZenzLiveRequest) (s : Exec K V H) : Exec K V H :=
  { s with
    zenzLiveCorrector := some ((s.zenzLiveCorrector.getD {}).submit request) }

def advancePendingZenzLiveCorrection (refreshOutputOnSubmit : Bool) (s : Exec K V H) :
    Exec K V H :=
  let s := s.setConsumed true
  let now := s.input.now
  let timeoutMsec := getZenzLiveCorrectionTimeoutMsec E.config
  if !s.pendingZenzLive.submitted then
    let marked : Exec K V H :=
      { s with
        pendingZenzLive :=
          { s.pendingZenzLive with issuedAt := now, submitted := true, pollCount := 0 } }
    let submitted := marked.submitZenzLiveRequest (marked.zenzLiveRequest E)
    let shown :=
      if refreshOutputOnSubmit then submitted.outputCurrentLiveConversionWithZenzPending E
      else
        (submitted.editOutput fun output =>
          { output with
            liveConversion := true
            liveConversionPending := false
            zenzLiveCorrectionPending := true }).attachCachedLiveConversionSuggestionCandidateWindow
    shown.attachZenzLiveCorrectionPollCallback
  else
    match s.zenzLiveCorrector with
    | none =>
      s.cancelPendingZenzLiveCorrection.outputCurrentLiveConversionAfterZenzStop E
        (text "zenz_async_corrector_missing")
    | some corrector =>
      let (response, corrector) := corrector.takeResult s.pendingZenzLive.generation
      let s : Exec K V H := { s with zenzLiveCorrector := some corrector }
      match response with
      | some response => s.applyZenzLiveCorrectionResult E response
      | none =>
        let polled : Exec K V H :=
          { s with
            pendingZenzLive :=
              { s.pendingZenzLive with pollCount := s.pendingZenzLive.pollCount + 1 } }
        let asyncWaitMsec := max timeoutMsec 3000
        let maxPollCount := max 1 (asyncWaitMsec / 24 + 2)
        let timedOut : Bool := asyncWaitMsec ≤ now - polled.pendingZenzLive.issuedAt
        if timedOut ∨ maxPollCount ≤ polled.pendingZenzLive.pollCount.toNat then
          polled.cancelPendingZenzLiveCorrection.outputCurrentLiveConversionAfterZenzStop E
            (text (if timedOut then "zenz_async_timeout" else "zenz_async_poll_exhausted"))
        else
          (polled.outputCurrentLiveConversionWithZenzPending
            E).attachZenzLiveCorrectionPollCallback

def applyZenzLiveCorrection (s : Exec K V H) : Exec K V H :=
  let s := s.setConsumed true
  if !s.isCurrentZenzLiveCorrectionCallback then s.ignoreStaleDelayedLiveConversion E
  else s.advancePendingZenzLiveCorrection E true

def maybeScheduleZenzLiveCorrection (s : Exec K V H) : Exec K V H :=
  if !s.zenzLiveCorrectionAllowed E then s
  else
    let leftContextLength := getZenzLiveCorrectionLeftContextLength E.config
    let rightContextLength := getZenzLiveCorrectionRightContextLength E.config
    let (leftContext, contextClass) :=
      contextForPrompt E (s.extractZenzLeftContext leftContextLength) leftContextLength
    let (rightContext, _) :=
      contextForPrompt E (s.extractZenzRightContext rightContextLength) rightContextLength
    let scheduled : Exec K V H :=
      { s with
        zenzLiveGeneration := s.zenzLiveGeneration + 1
        pendingZenzLive :=
          { generation := s.zenzLiveGeneration + 1
            key := s.liveConversionKey
            leftContext := leftContext
            rightContext := rightContext
            contextClass := contextClass
            mozcValue := s.liveConversionValue
            symbolStyleSource := s.symbolStyleSource
            prompt := E.textOps.buildPrompt s.liveConversionKey leftContext rightContext
            issuedAt := s.input.now
            pending := true
            submitted := false
            pollCount := 0 } }
    if getZenzLiveCorrectionDelayMsec E.config = 0 then
      scheduled.advancePendingZenzLiveCorrection E false
    else
      (scheduled.attachZenzLiveCorrectionStartCallback E).editOutput fun output =>
        { output with zenzLiveCorrectionPending := true }

end Exec

end Mozkey.Session
