import Mozkey.Session.Commit

/-! The handlers of `session/session.cc` that insert and delete characters, convert the text and
change the input mode. -/

namespace Mozkey.Session

variable {K V H : Type} (E : Env K V H)

/-! The characters that end a sentence. -/

/-- The forms in which a character is typed and shown. -/
def punctuationForms : Punctuation → List Text
  | .kuten => [text ".", text "．", text "。", text "｡"]
  | .touten => [text ",", text "，", text "、", text "､"]
  | .questionMark => [text "?", text "？"]
  | .exclamationMark => [text "!", text "！"]
  | .openParenthesis => [text "(", text "（"]
  | .closeParenthesis => [text ")", text "）"]
  | .openBracket => [text "[", text "［", text "「"]
  | .closeBracket => [text "]", text "］", text "」"]

def punctuationKeyCode : Punctuation → Nat
  | .kuten => '.'.toNat
  | .touten => ','.toNat
  | .questionMark => '?'.toNat
  | .exclamationMark => '!'.toNat
  | .openParenthesis => '('.toNat
  | .closeParenthesis => ')'.toNat
  | .openBracket => '['.toNat
  | .closeBracket => ']'.toNat

def autoConversionPunctuation : List Punctuation :=
  [.kuten, .touten, .questionMark, .exclamationMark]

def directCommitPunctuation : List Punctuation :=
  autoConversionPunctuation ++
    [.openParenthesis, .closeParenthesis, .openBracket, .closeBracket]

def matchesKeyEvent (key : KeyEvent) (keyCode : Nat) (keyStrings : List Text) : Bool :=
  (key.code == keyCode && key.keyString == []) || keyStrings.contains key.keyString

/-- `IsValidAutoConversionKey`, for a last character that is not empty. -/
def isValidAutoConversionKey (config : Config) (lastChar : Text) : Bool :=
  autoConversionPunctuation.any fun p =>
    (punctuationForms p).contains lastChar && config.autoConversionKey p

def isValidDirectCommitTriggerKey (config : Config) (key : KeyEvent) : Bool :=
  directCommitPunctuation.any fun p =>
    matchesKeyEvent key (punctuationKeyCode p) (punctuationForms p) && config.directCommitKey p

def isValidDirectCommitChar (config : Config) (lastChar : Text) : Bool :=
  directCommitPunctuation.any fun p =>
    (punctuationForms p).contains lastChar && config.directCommitKey p

def directCommitFallbackSuffixFromKeyEvent (key : KeyEvent) : Text :=
  let s := key.keyString
  if (["。", "｡", "．", "、", "､", "，", "？", "！", "（", "）", "「", "」", "［", "］"].map
      text).contains s then s
  else if s = text "." then text "。"
  else if s = text "," then text "、"
  else if s = text "?" then text "？"
  else if s = text "!" then text "！"
  else if s = text "(" then text "（"
  else if s = text ")" then text "）"
  else if s = text "[" then text "「"
  else if s = text "]" then text "」"
  else if key.code = '.'.toNat then text "。"
  else if key.code = ','.toNat then text "、"
  else if key.code = '?'.toNat then text "？"
  else if key.code = '!'.toNat then text "！"
  else if key.code = '('.toNat then text "（"
  else if key.code = ')'.toNat then text "）"
  else if key.code = '['.toNat then text "「"
  else if key.code = ']'.toNat then text "」"
  else []

/-- The key string is one ASCII character, the one of the key code. -/
def isAsciiKeyString (key : KeyEvent) : Bool :=
  match key.keyString with
  | [c] => c.toNat < 128 && key.code == c.toNat
  | _ => false

/-- The character at a position from the end, 1 for the last, or nothing. -/
def charFromEnd (preedit : Text) (length back : Nat) : Text := (preedit.drop (length - back)).take 1

namespace Exec

def shouldCommitLiveConversionBeforeShiftAsciiInput (key : KeyEvent) (s : Exec K V H) : Bool :=
  let input : Option Nat :=
    match key.keyString, key.keyCode with
    | [], some code => if code ≤ 0x7f then some code else none
    | [], none => none
    | [c], _ => if c.toNat < 128 then some c.toNat else none
    | _, _ => none
  E.config.shiftKeyAsciiInputMode && key.inputStyle == .followMode && key.specialKey.isNone &&
    s.composer.inputFieldType != .password && !isAsciiMode s.composer.inputMode &&
    s.composer.getLength E.composerOps != 0 && s.isCursorAtEnd E &&
    !E.textOps.hasCtrl key && !E.textOps.hasAlt key &&
    match input with
    | none => false
    | some c =>
      (!E.textOps.hasCaps key && 'A'.toNat ≤ c && c ≤ 'Z'.toNat) ||
        (E.textOps.hasCaps key && 'a'.toNat ≤ c && c ≤ 'z'.toNat)

def canStartAutoConversion (key : KeyEvent) (s : Exec K V H) : Bool :=
  let length := s.composer.getLength E.composerOps
  let preedit := s.composer.getStringForPreedit E.composerOps
  let lastChar := charFromEnd preedit length 1
  let lastPrevChar := charFromEnd preedit length 2
  E.config.useAutoConversion && key.inputStyle == .followMode && key.mode != some .halfAscii &&
    key.mode != some .fullAscii && 1 < length && s.isCursorAtEnd E && lastChar != [] &&
    isValidAutoConversionKey E.config lastChar && lastPrevChar != [] &&
    lastPrevChar != lastChar && !E.textOps.isNumber lastPrevChar

/-- The conditions of both `CanDirectCommit...` functions. -/
def directCommitAllowed (key : KeyEvent) (s : Exec K V H) : Bool :=
  E.config.useDirectCommit && !E.config.useAutoConversion && key.inputStyle == .followMode &&
    key.mode != some .halfAscii && key.mode != some .fullAscii &&
    s.composer.getLength E.composerOps != 0 && s.isCursorAtEnd E

def canDirectCommitPendingLiveConversionBeforeInsert (key : KeyEvent) (s : Exec K V H) : Bool :=
  s.state == .composition && s.directCommitAllowed E key &&
    isValidDirectCommitTriggerKey E.config key

def canDirectCommitAfterPunctuation (key : KeyEvent) (s : Exec K V H) : Bool :=
  let lastChar := charFromEnd (s.composer.getStringForPreedit E.composerOps)
    (s.composer.getLength E.composerOps) 1
  (s.state == .precomposition || s.state == .composition) && s.directCommitAllowed E key &&
    lastChar != [] && isValidDirectCommitChar E.config lastChar

/-- `GetDirectCommitStringsWithDirectCommitSuffixFallback`: the composer may have left the key
out. -/
def directCommitStrings (before : Composer K) (key : KeyEvent) (s : Exec K V H) : Text × Text :=
  let valueBefore := before.getStringForSubmission E.composerOps
  let value := s.composer.getStringForSubmission E.composerOps
  let suffix := directCommitFallbackSuffixFromKeyEvent key
  if value = valueBefore ∧ suffix ≠ [] then
    (before.getQueryForConversion E.composerOps ++ suffix, valueBefore ++ suffix)
  else (s.composer.getQueryForConversion E.composerOps, value)

/-- The insertion of a character that is not transliterated, before anything has been typed. -/
def insertCharacterDirectly (key : KeyEvent) (s : Exec K V H) : Exec K V H :=
  if isAsciiKeyString key ∧ key.code ≠ ' '.toNat then s.echoBackAndClearUndoContext E
  else
    let s := s.clearPendingRerankedPreeditCommitAfterConvertCancel.editComposer
      (E.composerOps.insertCharacterKeyEvent key)
    (s.commitCompositionDirectly E).clearUndoContext

/-- A character that commits, while a live conversion is pending: what is shown is committed. -/
def insertDirectCommitTrigger (key : KeyEvent) (s : Exec K V H) : Exec K V H :=
  let before := s.composer
  let s := (s.editComposer (E.composerOps.insertCharacterKeyEvent key)).clearUndoContext
  if s.canDirectCommitAfterPunctuation E key then
    let (commitKey, commitValue) := s.directCommitStrings E before key
    let (learned, s) := s.commitPendingRerankedPreeditAfterConvertCancelForDirectCommit E before
      (text "convert_cancel_direct_commit_punctuation")
    if learned then s.clearLiveConversionState.commitStringDirectly E commitKey commitValue
    else s.commitPendingLiveConversionDisplayDirectly E
  else
    let s := s.clearPendingRerankedPreeditCommitAfterConvertCancel.cancelPendingLiveConversion
    let (scheduled, s) := s.maybeScheduleLiveConversion E
    if scheduled then s else s.outputComposition E

/-- A capital letter commits the live conversion and starts a text of Latin letters. -/
def commitBeforeShiftAsciiInput (key : KeyEvent) (s : Exec K V H) : Exec K V H :=
  let s := s.clearPendingRerankedPreeditCommitAfterConvertCancel
  let s :=
    if s.hasVisibleZenzLiveCorrection then (s.commitZenzLiveCorrectionResult E).2
    else if s.liveConversionActive then
      let liveKey :=
        if s.liveConversionKey = [] then s.composer.getQueryForConversion E.composerOps
        else s.liveConversionKey
      let liveValue :=
        if s.liveConversionValue = [] then s.composer.getStringForSubmission E.composerOps
        else s.liveConversionValue
      s.clearLiveConversionState.commitStringDirectly E liveKey liveValue
    else if s.liveConversionPending then s.commitPendingLiveConversionDisplayDirectly E
    else s
  let s := (s.editComposer (E.composerOps.insertCharacterKeyEvent key)).clearUndoContext
  (s.setState E .composition).outputComposition E

/-- What was visible when a character came: the reading, the value and the context class of a Zenz
correction. -/
structure VisibleZenz where
  key : Text
  value : Text
  contextClass : Text

def visibleZenz (s : Exec K V H) : Option VisibleZenz :=
  if s.hasVisibleZenzLiveCorrection then
    some
      { key := s.zenzLiveKey
        value := s.zenzLiveValue
        contextClass :=
          if s.zenzLiveContextClass = [] then text "empty" else s.zenzLiveContextClass }
  else none

/-- The commit that a punctuation character brings about once it is inserted. -/
def commitAfterPunctuation (before : Composer K) (key : KeyEvent) (wasLiveConversion : Bool)
    (zenz : Option VisibleZenz) (committedBefore : Bool) (s : Exec K V H) : Exec K V H :=
  let (commitKey, commitValue) := s.directCommitStrings E before key
  let (learned, s) := s.commitPendingRerankedPreeditAfterConvertCancelForDirectCommit E before
    (text "convert_cancel_direct_commit_punctuation")
  if learned then s.clearLiveConversionState.commitStringDirectly E commitKey commitValue
  else
    match zenz with
    | some zenz =>
      let lastChar := charFromEnd (s.composer.getStringForPreedit E.composerOps)
        (s.composer.getLength E.composerOps) 1
      let query := s.composer.getQueryForConversion E.composerOps
      let s := s.setPendingZenzFeedbackAccepted E zenz.key zenz.contextClass zenz.value
      s.clearLiveConversionState.commitStringDirectly E query (zenz.value ++ lastChar)
    | none =>
      let (committed, s) := if wasLiveConversion then s.commitLiveConversionResult E else (false, s)
      if committed then s
      else
        let s :=
          if committedBefore then
            s.setPendingDirectCommitLearningFromCommittedResult
              (text "normal_conversion_direct_commit_punctuation")
          else s
        s.commitCompositionDirectly E

/-- The conversion that a new character ends, and whether there was one. -/
def commitBeforeInsert (s : Exec K V H) : Bool × Exec K V H :=
  let composition := s.composer.getQueryForConversion E.composerOps
  if s.state = .conversion ∨
      (E.request.spaceOnAlphanumeric = .spaceOrConvertCommittingComposition ∧
        s.state = .composition ∧ composition.getLast? = some ' ') then
    (true, (s.commitNotTriggeringZeroQuerySuggest E).confirmPendingZenzFeedback E)
  else (false, s)

/-- A new text does not go on from a live conversion before it. -/
def forgetLiveConversion (wasLiveConversion : Bool) (s : Exec K V H) : Exec K V H :=
  if !wasLiveConversion ∧ !s.liveConversionPending ∧ s.composer.getLength E.composerOps = 1 then
    let forgotten : Exec K V H :=
      { s with
        liveConversionKey := []
        liveConversionPreedit := []
        liveConversionValue := []
        liveConversionPreeditOutput := {} }
    forgotten.clearZenzLiveCorrectionState
  else s

/-- The end of `InsertCharacter` for a character that goes on with the text. -/
def continueComposition (convert : Exec K V H → Bool × Exec K V H) (key : KeyEvent)
    (s : Exec K V H) : Bool × Exec K V H :=
  let s := s.clearPendingRerankedPreeditCommitAfterConvertCancel
  if s.composer.shouldCommit E.composerOps then (true, s.commitCompositionDirectly E)
  else
    match s.composer.shouldCommitHead E.composerOps with
    | some length => (true, s.commitHead E length)
    | none =>
      let s := s.setState E .composition
      if s.canStartAutoConversion E key then convert s.cancelPendingLiveConversion
      else
        let (scheduled, s) := s.maybeScheduleLiveConversion E
        (true, if scheduled then s else s.suggestAndOutput E)

def insertCharacterInComposition (convert : Exec K V H → Bool × Exec K V H) (key : KeyEvent)
    (s : Exec K V H) : Bool × Exec K V H :=
  let wasLiveConversion := s.liveConversionActive
  let zenz := s.visibleZenz
  let (selected, s) := (s.cancelLiveConversionForEditing E).maybeSelectCandidate E
  if selected then
    (true, s.clearPendingRerankedPreeditCommitAfterConvertCancel.putOutput E)
  else
    let (committedBefore, s) := s.commitBeforeInsert E
    if committedBefore ∧ key.inputStyle = .directInput then
      let s := s.clearPendingRerankedPreeditCommitAfterConvertCancel.clearUndoContext.editComposer
        (E.composerOps.insertCharacterKeyEvent key)
      (true, s.commitCompositionDirectly E)
    else
      let before := s.composer
      let s := (s.editComposer (E.composerOps.insertCharacterKeyEvent key)).clearUndoContext
      let s := s.forgetLiveConversion E wasLiveConversion
      if s.canDirectCommitAfterPunctuation E key then
        (true, s.commitAfterPunctuation E before key wasLiveConversion zenz committedBefore)
      else s.continueComposition E convert key

def insertCharacterWith (convert : Exec K V H → Bool × Exec K V H) (s : Exec K V H) :
    Bool × Exec K V H :=
  match s.input.key with
  | none => (false, s)
  | some key =>
    let s := (s.handlePendingDirectCommitLearningForKeyEvent E
      key).handlePendingZenzFeedbackForKeyEvent E
    if key.inputStyle = .directInput ∧ s.state = .precomposition then
      (true, s.insertCharacterDirectly E key)
    else
      let s := s.setConsumed true
      if s.liveConversionPending ∧ s.canDirectCommitPendingLiveConversionBeforeInsert E key then
        (true, s.insertDirectCommitTrigger E key)
      else if (s.liveConversionActive ∨ s.liveConversionPending) ∧
          s.shouldCommitLiveConversionBeforeShiftAsciiInput E key then
        (true, s.commitBeforeShiftAsciiInput E key)
      else s.insertCharacterInComposition E convert key

/-- A space in a text of Latin letters, with the `InsertCharacter` that it may go on to: it is
inserted, once more at the end of the text, or taken away again before the conversion. -/
def convertWith (insert : Exec K V H → Bool × Exec K V H) (s : Exec K V H) : Bool × Exec K V H :=
  let s := s.cancelPendingLiveConversion.setConsumed true
  let composition := s.composer.getQueryForConversion E.composerOps
  let showCandidateWindow := s.state = .composition ∧
    E.config.showCandidateWindowOnInitialConversion ∧ !E.config.useLiveConversion
  let isAsciiSpace := s.state = .composition ∧ isAsciiMode s.composer.inputMode ∧
    s.input.keyEvent.specialKey = some .space
  if isAsciiSpace ∧ (composition.getLast? ≠ some ' ' ∨ !s.isCursorAtEnd E) then
    if E.request.spaceOnAlphanumeric = .commit then
      (true, (s.editComposer (E.composerOps.insertCharacterPreedit (text " "))).commit E)
    else insert (s.editKey fun key => { key with keyCode := some ' '.toNat })
  else
    let s :=
      if isAsciiSpace ∧ composition ≠ [] then
        (s.editComposer (·.backspace E.composerOps)).clearUndoContext
      else s
    let (converted, s) := s.callConverter
      (E.converterOps.convertWithPreferences s.converter.conversionPreferences s.composer)
    if !converted then (true, s.outputComposition E)
    else
      let s := s.setState E .conversion
      let s := if showCandidateWindow then s.setCandidateListVisible true else s
      (true, s.putOutput E)

/-- `InsertCharacter`. It and `Convert` call each other, the second time with a space at the end of
the text, after which no conversion starts. The model follows them up to any given depth. -/
def insertCharacterUpTo : (depth : Nat) → Exec K V H → Bool × Exec K V H
  | 0, s => (true, s)
  | depth + 1, s =>
    s.insertCharacterWith E fun s => s.convertWith E fun s => insertCharacterUpTo depth s

def insertCharacter (s : Exec K V H) : Bool × Exec K V H :=
  s.insertCharacterUpTo E (E.insertDepth + 1)

def convert (s : Exec K V H) : Bool × Exec K V H := s.convertWith E (·.insertCharacter E)

/-! Spaces. -/

def isFullWidthInsertSpace (s : Exec K V H) : Bool :=
  s.state != .direct &&
    match E.config.spaceCharacterForm with
    | .fundamentalInputMode =>
      let composer :=
        match s.input.key.bind (·.mode) with
        | some mode => s.composer.applyCompositionMode mode
        | none => s.composer
      !composer.inputMode.isInHalfAsciiTypes && !composer.inputMode.isInHalfKatakanaTypes
    | .fundamentalFullWidth => true
    | .fundamentalHalfWidth => false

def isOn (s : Exec K V H) : Bool :=
  s.state == .precomposition || s.state == .composition || s.state == .conversion

/-- The key is replaced by the one of a space, as far as its mode goes. -/
def replaceKeyBySpace (keyString : Text) (s : Exec K V H) : Exec K V H :=
  s.editKey fun key =>
    { keyCode := some ' '.toNat
      keyString := keyString
      inputStyle := .directInput
      mode := key.mode }

def insertSpaceHalfWidth (s : Exec K V H) : Bool × Exec K V H :=
  if !s.isOn then (true, s.doNothing E)
  else if s.state = .precomposition ∧ isPureSpaceKey s.input.keyEvent then
    (true, s.echoBackAndClearUndoContext E)
  else (s.replaceKeyBySpace (text " ")).insertCharacter E

def insertSpaceFullWidth (s : Exec K V H) : Bool × Exec K V H :=
  if !s.isOn then (true, s.doNothing E)
  else
    let s := if s.state = .precomposition then s.editConverter E.converterOps.reset else s
    (s.replaceKeyBySpace (text "　")).insertCharacter E

def insertSpace (s : Exec K V H) : Bool × Exec K V H :=
  if s.isFullWidthInsertSpace E then s.insertSpaceFullWidth E else s.insertSpaceHalfWidth E

def insertSpaceToggled (s : Exec K V H) : Bool × Exec K V H :=
  if s.isFullWidthInsertSpace E then s.insertSpaceHalfWidth E else s.insertSpaceFullWidth E

def requestReconvertSelectionOrInsertSpace (s : Exec K V H) : Bool × Exec K V H :=
  if s.state ≠ .precomposition then (true, s.doNothing E)
  else
    let (inserted, s) := s.insertSpace E
    if inserted then (true, s.putCallback .reconvertSelectionOrInsertSpace) else (false, s)

/-! Deletion. -/

/-- `Delete` and `Backspace`, which differ in what they do to the composer. -/
def deleteWith (edit : Composer K → Composer K) (s : Exec K V H) : Exec K V H :=
  let s := (s.discardPending E).clearPendingRerankedPreeditCommitAfterConvertCancel
  let s := (s.setConsumed true).cancelLiveConversionForEditing E
  let s := (s.editComposer edit).clearUndoContext
  if s.composer.isEmpty E.composerOps then
    (s.setStateToPrecompositionAndCancel E).putOutput E
  else
    let (started, s) := s.maybeStartLiveConversion E
    if started then s else s.suggestAndOutput E

def delete (s : Exec K V H) : Exec K V H := s.deleteWith E (·.delete E.composerOps)

def backspace (s : Exec K V H) : Exec K V H := s.deleteWith E (·.backspace E.composerOps)

/-! Conversion. -/

def convertWithoutHistory (s : Exec K V H) : Exec K V H :=
  let s := s.cancelPendingLiveConversion.setConsumed true
  let preferences := { s.converter.conversionPreferences with useHistory := false }
  let (converted, s) :=
    s.callConverter (E.converterOps.convertWithPreferences preferences s.composer)
  if !converted then s.outputComposition E else (s.setState E .conversion).putOutput E

/-- The conversions that need a text and leave the session in the conversion. -/
def convertTo (operation : Composer K → Engine V H → Bool × Engine V H) (s : Exec K V H) :
    Bool × Exec K V H :=
  if s.state ≠ .conversion ∧ s.state ≠ .composition then (true, s.doNothing E)
  else
    let s := s.setConsumed true
    let (converted, s) := s.callConverter (operation s.composer)
    if !converted then (false, s) else (true, (s.setState E .conversion).putOutput E)

def convertToTransliteration (type : TransliterationType) (s : Exec K V H) : Bool × Exec K V H :=
  s.convertTo E (E.converterOps.convertToTransliteration type)

def convertToHiragana (s : Exec K V H) : Bool × Exec K V H :=
  s.convertToTransliteration E .hiragana

def convertToFullKatakana (s : Exec K V H) : Bool × Exec K V H :=
  s.convertToTransliteration E .fullKatakana

def convertToHalfKatakana (s : Exec K V H) : Bool × Exec K V H :=
  s.convertToTransliteration E .halfKatakana

def convertToFullASCII (s : Exec K V H) : Bool × Exec K V H :=
  s.convertToTransliteration E .fullAscii

def convertToHalfASCII (s : Exec K V H) : Bool × Exec K V H :=
  s.convertToTransliteration E .halfAscii

def switchKanaType (s : Exec K V H) : Bool × Exec K V H := s.convertTo E E.converterOps.switchKanaType

def convertToHalfWidth (s : Exec K V H) : Bool × Exec K V H :=
  s.convertTo E E.converterOps.convertToHalfWidth

/-- A conversion in the conversion state, a change of the output mode elsewhere. -/
def displayAs (convert : Exec K V H → Bool × Exec K V H)
    (mode : TransliterationType → TransliterationType) (s : Exec K V H) : Bool × Exec K V H :=
  let s := s.setConsumed true
  if s.state = .conversion then convert s
  else
    let s := s.editComposer fun composer =>
      composer.setOutputMode E.composerOps (mode composer.outputMode)
    (true, s.outputComposition E)

def displayAsHiragana (s : Exec K V H) : Bool × Exec K V H :=
  s.displayAs E (·.convertToHiragana E) fun _ => .hiragana

def displayAsFullKatakana (s : Exec K V H) : Bool × Exec K V H :=
  s.displayAs E (·.convertToFullKatakana E) fun _ => .fullKatakana

def displayAsHalfKatakana (s : Exec K V H) : Bool × Exec K V H :=
  s.displayAs E (·.convertToHalfKatakana E) fun _ => .halfKatakana

def translateFullASCII (s : Exec K V H) : Bool × Exec K V H :=
  s.displayAs E (·.convertToFullASCII E) TransliterationType.toggleFullAsciiTypes

def translateHalfASCII (s : Exec K V H) : Bool × Exec K V H :=
  s.displayAs E (·.convertToHalfASCII E) TransliterationType.toggleHalfAsciiTypes

/-- The half width form of an output mode. A half width ASCII mode turns to the next one. -/
def halfWidthMode : TransliterationType → TransliterationType
  | .hiragana | .fullKatakana | .halfKatakana => .halfKatakana
  | .fullAscii => .halfAscii
  | .fullAsciiUpper => .halfAsciiUpper
  | .fullAsciiLower => .halfAsciiLower
  | .fullAsciiCapitalized => .halfAsciiCapitalized
  | mode => mode.toggleHalfAsciiTypes

def translateHalfWidth (s : Exec K V H) : Bool × Exec K V H :=
  s.displayAs E (·.convertToHalfWidth E) halfWidthMode

def segmentFocus (move : Engine V H → Engine V H) (s : Exec K V H) : Exec K V H :=
  if s.state ≠ .conversion then s.doNothing E
  else ((s.setConsumed true).editConverter move).putOutput E

def segmentFocusRight (s : Exec K V H) : Exec K V H :=
  s.segmentFocus E E.converterOps.segmentFocusRight

def segmentFocusLast (s : Exec K V H) : Exec K V H :=
  s.segmentFocus E E.converterOps.segmentFocusLast

def segmentFocusLeft (s : Exec K V H) : Exec K V H :=
  s.segmentFocus E E.converterOps.segmentFocusLeft

def segmentFocusLeftEdge (s : Exec K V H) : Exec K V H :=
  s.segmentFocus E E.converterOps.segmentFocusLeftEdge

def segmentWidthExpand (s : Exec K V H) : Exec K V H :=
  s.segmentFocus E (E.converterOps.segmentWidthExpand s.composer)

def segmentWidthShrink (s : Exec K V H) : Exec K V H :=
  s.segmentFocus E (E.converterOps.segmentWidthShrink s.composer)

def convertNextPage (s : Exec K V H) : Exec K V H :=
  s.segmentFocus E E.converterOps.candidateNextPage

def convertPrevPage (s : Exec K V H) : Exec K V H :=
  s.segmentFocus E E.converterOps.candidatePrevPage

def convertNext (s : Exec K V H) : Exec K V H :=
  ((s.setConsumed true).editConverter (E.converterOps.candidateNext s.composer)).putOutput E

def convertPrev (s : Exec K V H) : Exec K V H :=
  ((s.setConsumed true).editConverter E.converterOps.candidatePrev).putOutput E

def convertCancel (s : Exec K V H) : Exec K V H :=
  let s := (s.discardPending E).setConsumed true
  let s := (s.maybeSetPendingRerankedPreeditCommitAfterConvertCancel E).clearLiveConversionState
  ((s.setState E .composition).editConverter E.converterOps.cancel).suggestAndOutput E

def deleteCandidateFromHistory (s : Exec K V H) : Exec K V H :=
  let (deleted, s) := s.callConverter (E.converterOps.deleteCandidateFromHistory s.commandId)
  if !deleted then s.doNothing E else s.convertCancel E

/-- The prediction that both `PredictAndConvert` functions end with. -/
def predict (s : Exec K V H) : Exec K V H :=
  let (predicted, s) := s.callConverter (E.converterOps.predict s.composer)
  if predicted then (s.setState E .conversion).putOutput E else s.outputComposition E

def predictAndConvert (s : Exec K V H) : Exec K V H :=
  let s := s.cancelPendingLiveConversion
  if s.state = .conversion then s.convertNext E else (s.setConsumed true).predict E

def predictAndConvertFromLiveConversion (s : Exec K V H) : Exec K V H :=
  let s := s.cancelPendingLiveConversion.setConsumed true
  if s.state ≠ .conversion ∨ !s.liveConversionActive then s.predictAndConvert E
  else
    let s :=
      if s.hasVisibleZenzLiveCorrection then
        s.setPendingZenzFeedbackRejected E (text "predict_after_zenz")
      else s
    let s := s.clearZenzLiveCorrectionState.clearLiveConversionState.setState E .composition
    (s.editConverter E.converterOps.cancel).predict E

/-- `RevertZenzLiveCorrectionToNormalConversion`, where a correction is visible: it goes away, and
the live conversion turns into a conversion. -/
def revertZenzLiveCorrectionToNormalConversion (s : Exec K V H) : Bool × Exec K V H :=
  if !s.hasVisibleZenzLiveCorrection then (false, s)
  else
    let livePreedit := s.liveConversionPreeditOutput
    let liveValue := s.liveConversionValue
    let s := s.setPendingZenzFeedbackRejected E (text "space_revert_zenz_to_mozc")
    let s := ((s.clearLiveConversionState.setCandidateListVisible false).setConsumed
      true).outputMode
    let s :=
      if livePreedit.segments ≠ [] then
        s.editOutput fun output =>
          { output with preedit := some { livePreedit with cursor := liveValue.length } }
      else (s.editOutput fun output => { output with candidateWindow := none }).putOutput E
    (true, s.editOutput fun output =>
      { output with
        candidateWindow := none
        liveConversion := false
        liveConversionPending := false
        zenzLiveCorrectionPending := false
        zenzLiveCorrectionApplied := false })

/-! Input modes. -/

/-- The composition modes, which turn the input method on. -/
def compositionMode (mode : TransliterationType) (s : Exec K V H) : Exec K V H :=
  (((s.setConsumed true).ensureIMEIsOn E).editComposer (·.switchInputMode mode)).outputFromState E

def compositionModeHiragana (s : Exec K V H) : Exec K V H := s.compositionMode E .hiragana

def compositionModeFullKatakana (s : Exec K V H) : Exec K V H := s.compositionMode E .fullKatakana

def compositionModeHalfKatakana (s : Exec K V H) : Exec K V H := s.compositionMode E .halfKatakana

def compositionModeFullASCII (s : Exec K V H) : Exec K V H := s.compositionMode E .fullAscii

def compositionModeHalfASCII (s : Exec K V H) : Exec K V H := s.compositionMode E .halfAscii

def nextKanaType : TransliterationType → TransliterationType
  | .hiragana => .fullKatakana
  | .fullKatakana => .halfKatakana
  | .halfKatakana => .hiragana
  | mode => mode

def compositionModeSwitchKanaType (s : Exec K V H) : Exec K V H :=
  if s.state ≠ .precomposition then s.doNothing E
  else
    ((s.setConsumed true).editComposer fun composer =>
      composer.switchInputMode (nextKanaType composer.inputMode)).outputFromState E

def toggleAlphanumericMode (s : Exec K V H) : Exec K V H :=
  ((s.setConsumed true).editComposer (·.toggleInputMode)).outputFromState E

def switchInputFieldType (s : Exec K V H) : Exec K V H :=
  ((s.setConsumed true).editComposer fun composer =>
    { composer with inputFieldType := s.input.clientContext.inputFieldType }).putOutput E

/-! The rest. -/

def launchTool (mode : ToolMode) (s : Exec K V H) : Exec K V H :=
  (s.editOutput fun output => { output with launchToolMode := some mode }).doNothing E

def launchConfigDialog (s : Exec K V H) : Exec K V H := s.launchTool E .configDialog

def launchDictionaryTool (s : Exec K V H) : Exec K V H := s.launchTool E .dictionaryTool

def launchWordRegisterDialog (s : Exec K V H) : Exec K V H := s.launchTool E .wordRegisterDialog

def reportBug (s : Exec K V H) : Exec K V H := s.doNothing E

def imeAction (s : Exec K V H) : Bool × Exec K V H :=
  if s.state ≠ .precomposition ∨ s.composer.inputFieldType ≠ .normal then (false, s)
  else (true, s.editConverter (E.converterOps.commitContext s.composer s.input.clientContext))

end Exec

end Mozkey.Session
