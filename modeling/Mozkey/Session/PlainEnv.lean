import Mozkey.Session.Session

/-! An environment to run a session in: the composition is the text that is typed, the converter
shows that text as one segment, and what is learnt is the list of the texts that were committed. -/

namespace Mozkey.Session

def insertAtCursor (typed : Text) (c : Composer Text) : Composer Text :=
  { c with
    chunks := c.chunks.take c.position ++ typed ++ c.chunks.drop c.position
    position := c.position + typed.length }

def plainComposerOps : ComposerOps Text where
  getLength := List.length
  getQueryForConversion := id
  getString := id
  getRawString := id
  isToggleable _ _ := false
  erase _ := []
  deleteAt chunks pos := (chunks.eraseIdx pos, pos)
  setTransliterator chunks _ _ _ := chunks
  getTransliterator _ _ := .hiragana
  shouldCommit _ := false
  fullWidthAsciiToHalfWidthAscii := id
  insertCharacterKeyEvent key := insertAtCursor key.keyString
  insertCharacterPreedit := insertAtCursor
  rewind := id
  stopKeyToggling := id
  insertHandwriting _ := id
  updateInputModeFromSurroundingText := false

/-- The converter of `plainConverterOps` keeps the text it shows, and the id of what it has learnt
last, 0 if there is nothing to revert. -/
structure PlainSegments where
  value : Text := []
  revertId : Nat := 0
  deriving DecidableEq

abbrev PlainEngine := Engine PlainSegments (List Text)

def plainConvert (composer : Composer Text) (engine : PlainEngine) : Bool × PlainEngine :=
  (true, { engine.1 with
    segments := { engine.1.segments with value := composer.chunks }, state := .conversion }, engine.2)

def plainCancel (engine : PlainEngine) : PlainEngine :=
  ({ engine.1 with state := .composition }, engine.2)

def plainReset (engine : PlainEngine) : PlainEngine :=
  ({ engine.1 with segments := {}, state := .composition, result := none }, engine.2)

def plainRevert (engine : PlainEngine) : PlainEngine :=
  if engine.1.segments.revertId = 0 then engine
  else ({ engine.1 with segments := { engine.1.segments with revertId := 0 } }, engine.2.tail)

def plainCommit (composer : Composer Text) (engine : PlainEngine) : PlainEngine :=
  ({ engine.1 with
      segments := { revertId := 1 }
      state := .composition
      result := some { key := some composer.chunks, value := some composer.chunks } },
    composer.chunks :: engine.2)

def plainConverterOps : ConverterOps Text PlainSegments (List Text) where
  convertWithPreferences _ := plainConvert
  convertToTransliteration _ := plainConvert
  convertToHalfWidth := plainConvert
  switchKanaType := plainConvert
  suggestWithPreferences _ _ _ engine := (false, engine)
  predict := plainConvert
  cancel := plainCancel
  reset := plainReset
  revert := plainRevert
  commit composer _ := plainCommit composer
  commitContext _ _ engine := engine
  commitSuggestionByIndex _ composer _ engine :=
    (true, composer.chunks.length, plainCommit composer engine)
  commitSuggestionById _ composer _ engine :=
    (true, composer.chunks.length, plainCommit composer engine)
  commitHeadToFocusedSegments composer _ engine := (0, plainCommit composer engine)
  commitFirstSegment composer _ engine := (0, plainCommit composer engine)
  commitPreedit composer _ _ _ := plainCommit composer
  commitHead count _ engine := (count, engine)
  learnExternalConversionResult _ value _ engine := (true, engine.1, value :: engine.2)
  getReadingText text _ := some text
  deleteCandidateFromHistory _ engine := (false, engine)
  onStartComposition _ engine := engine
  segmentFocusRight engine := engine
  segmentFocusLast engine := engine
  segmentFocusLeft engine := engine
  segmentFocusLeftEdge engine := engine
  segmentWidthExpand _ engine := engine
  segmentWidthShrink _ engine := engine
  candidateNext _ engine := engine
  candidateNextPage engine := engine
  candidatePrev engine := engine
  candidatePrevPage engine := engine
  candidateMoveToId _ _ engine := engine
  candidateMoveToShortcut _ engine := (false, engine)
  getConversionSegmentKeys _ := none
  fillConversion converter :=
    ([{ annotation := .highlight, key := converter.segments.value,
        value := converter.segments.value }], converter.segments.value.length)
  fillCandidateWindow _ := {}
  fillAllCandidateWords _ := []
  preeditSegment text := [{ annotation := .underline, key := text, value := text }]

def plainTextOps : TextOps where
  shouldSkipLiveConversionForCompositionKey _ _ _ := false
  isHiragana _ := false
  isNumber _ := false
  isAcceptableForReverseConversion _ := true
  evaluateZenzLiveKeyPrivacy _ := (true, [])
  evaluateZenzLiveValuePrivacy _ := (true, [])
  restoreUserVisibleSymbolStyle _ _ text := text
  sanitizeForZenz context _ := ⟨true, context, []⟩
  buildPrompt key _ _ := key
  hiraganaToKatakana := id
  validate _ := (true, [])
  zenzSafeDebugReason := id
  hasCtrl key := key.modifierKeys.contains .ctrl
  hasAlt _ := false
  hasCaps key := key.modifierKeys.contains .caps
  transformKeyEvent := id

def plainFeedbackOps : FeedbackOps (List Text) where
  recordAccepted _ _ value history := value :: history
  recordRejected _ _ value _ history := history.erase value
  getAcceptedCandidates _ _ _ := []
  decide _ _ _ _ := (false, [])

def plainKeyEventUtil : KeyEventUtil where
  KeyInformation := Nat
  decEq := inferInstance
  getKeyInformation key := key.keyCode
  maybeGetKeyStub _ := none
  normalizeModifiers := id

def plainEnv (config : Config) (keyMapManager : KeyMapManager plainKeyEventUtil) :
    Env Text PlainSegments (List Text) where
  config := config
  request := {}
  util := plainKeyEventUtil
  keyMapManager := keyMapManager
  composerOps := plainComposerOps
  converterOps := plainConverterOps
  textOps := plainTextOps
  feedbackOps := plainFeedbackOps

/-- A session of this environment in which nothing has been typed. -/
def plainSession : Session Text PlainSegments (List Text) :=
  .create { chunks := [] } { segments := {} } []

end Mozkey.Session
