import Mozkey.Composer.InsertionEnds

/-! `Composer::InsertCharacterKeyEvent` of `composer/composer.cc`: the loop over the modifier keys of an
event without a key code, and the insertions before and behind it. -/

namespace Mozkey.Composer

open Storage Base Session Lib

structure CharacterKeyEvent where
  keyCode : Option Nat := none
  keyString : Option Bytes := none
  specialKey : Option SpecialKey := none
  modifierKeys : List ModifierKey := []
  modifiers : Option UInt32 := none
  mode : Option CompositionMode := none
  timestampMsec : Option Int := none
  inputStyle : InputStyle := .followMode
  deriving DecidableEq

inductive ShiftKeyModeSwitch where
  | off | asciiInputMode | katakanaInputMode
  deriving DecidableEq

structure ComposerConfig where
  shiftKeyModeSwitch : ShiftKeyModeSwitch := .asciiInputMode
  autoSwitchCompositionMode : Bool := false
  /-- `preedit_method` is `ROMAN`. -/
  roman : Bool := true
  deriving DecidableEq

/-- The composer, with the limits and the clock of its insertions. -/
structure KeyComposer where
  composer : Session.Composer (List CharChunk)
  maxLength : Nat := 256
  timeoutThresholdMsec : Int := 0
  timestampMsec : Int := 0
  deriving DecidableEq

section modifierKeys

/-- How the loop over the modifier keys comes to its end. -/
inductive ModifierKeysLoop where
  | leaves
  | returns
  /-- `modifier_keys(i)` is read behind the last of them. -/
  | readsPast (i : Nat)
  deriving DecidableEq

/-- The loop over the modifier keys.  Its condition is their number, whatever `i` is. -/
def modifierKeysLoop (modifierKeys : List ModifierKey) (i : Nat) : ModifierKeysLoop :=
  if modifierKeys.length = 0 then .leaves
  else if h : i < modifierKeys.length then
    if modifierKeys[i] = .shift then .returns else modifierKeysLoop modifierKeys (i + 1)
  else .readsPast i
termination_by modifierKeys.length - i

variable {modifierKeys : List ModifierKey}

theorem modifierKeysLoop_nil (i : Nat) : modifierKeysLoop [] i = .leaves := by
  rw [modifierKeysLoop, if_pos List.length_nil]

theorem modifierKeysLoop_ne_leaves (hne : modifierKeys ≠ []) (i : Nat) :
    modifierKeysLoop modifierKeys i ≠ .leaves := by
  have hlength : modifierKeys.length ≠ 0 := fun h => hne (List.length_eq_zero_iff.mp h)
  fun_induction modifierKeysLoop modifierKeys i <;> simp_all

theorem modifierKeysLoop_returns_iff (hne : modifierKeys ≠ []) (i : Nat) :
    modifierKeysLoop modifierKeys i = .returns ↔ .shift ∈ modifierKeys.drop i := by
  have hlength : modifierKeys.length ≠ 0 := fun h => hne (List.length_eq_zero_iff.mp h)
  fun_induction modifierKeysLoop modifierKeys i with
  | case1 i hzero => exact absurd hzero hlength
  | case2 i _ hlt hshift =>
    rw [List.drop_eq_getElem_cons hlt, hshift]
    exact ⟨fun _ => List.mem_cons_self, fun _ => rfl⟩
  | case3 i _ hlt hshift ih =>
    rw [List.drop_eq_getElem_cons hlt, List.mem_cons]
    refine ih.trans ?_
    exact ⟨.inr, fun h => h.resolve_left fun heq => hshift heq.symm⟩
  | case4 i _ hle =>
    rw [List.drop_eq_nil_of_le (Nat.le_of_not_lt hle)]
    constructor <;> intro h <;> cases h

theorem modifierKeysLoop_in_bounds_iff :
    (∀ i, modifierKeysLoop modifierKeys 0 ≠ .readsPast i) ↔
      modifierKeys = [] ∨ .shift ∈ modifierKeys := by
  by_cases hne : modifierKeys = []
  · subst hne
    rw [modifierKeysLoop_nil]
    exact ⟨fun _ => .inl rfl, fun _ _ h => by cases h⟩
  · have hleaves := modifierKeysLoop_ne_leaves hne 0
    have hreturns := modifierKeysLoop_returns_iff hne 0
    rw [List.drop_zero] at hreturns
    rw [or_iff_right hne, ← hreturns]
    cases h : modifierKeysLoop modifierKeys 0 with
    | leaves => exact absurd h hleaves
    | returns => exact ⟨fun _ => rfl, fun _ _ h => by cases h⟩
    | readsPast i => exact ⟨fun hnot => absurd rfl (hnot i), fun h => by cases h⟩

end modifierKeys

section specialKeyInput

def SpecialKeyMap.parse (keys : SpecialKeyMap) (input : Bytes) : Bytes :=
  (parseBlockLoop (fun key _ =>
    if keys.contains key then (specialKey (keys.idxOf key), ())
    else (kSpecialKeyOpen :: key ++ [kSpecialKeyClose], ())) input.length input ()).1

def Table.parseSpecialKey (table : Table) (input : Bytes) : Bytes := table.specialKeyMap.parse input

end specialKeyInput

section modeSwitching

inductive ModeSwitching where
  | noChange | revertToPreviousMode | preferredAlphanumeric | halfAlphanumeric | fullAlphanumeric
  deriving DecidableEq

def isDriveLetter (key : Bytes) : Bool :=
  match key with
  | [letter, colon, backslash] =>
    ((0x41 ≤ letter && letter ≤ 0x5a) || (0x61 ≤ letter && letter ≤ 0x7a)) &&
      colon == 0x3a && backslash == 0x5c
  | _ => false

/-- `GetModeSwitchingRule`: the switching of the display mode and of the input mode. -/
def getModeSwitchingRule (key : Bytes) : ModeSwitching × ModeSwitching :=
  if ["google", "Google", "Chrome", "chrome", "Android", "android"].any fun s => key = utf8 s.toList then
    (.preferredAlphanumeric, .revertToPreviousMode)
  else if ["http", "www.", "\\\\"].any fun s => key = utf8 s.toList then
    (.halfAlphanumeric, .halfAlphanumeric)
  else if isDriveLetter key then (.halfAlphanumeric, .halfAlphanumeric)
  else (.noChange, .noChange)

end modeSwitching

section keyEvent

def modifierKeyBit : ModifierKey → UInt32
  | .ctrl => 1
  | .alt => 2
  | .shift => 4
  | .caps => 2048
  | .other n => UInt32.ofNat n

namespace CharacterKeyEvent

def getModifiers (key : CharacterKeyEvent) : UInt32 :=
  match key.modifiers with
  | some modifiers => modifiers
  | none => key.modifierKeys.foldl (fun (modifiers : UInt32) key => modifiers ||| modifierKeyBit key) 0

def hasCaps (key : CharacterKeyEvent) : Bool := key.getModifiers &&& modifierKeyBit .caps != 0

def toInput (specialKeyString : SpecialKey → Bytes) (table : Table) (isNewInput : Bool)
    (key : CharacterKeyEvent) : Option CompositionInput := do
  let raw ← match key.keyCode, key.keyString, key.specialKey with
    | some keyCode, _, _ => some (codepointToUtf8 keyCode)
    | none, some keyString, _ => some keyString
    | none, none, some special =>
      some (table.parseSpecialKey (braceOpen :: specialKeyString special ++ [braceClose]))
    | none, none, none => none
  return {
    raw
    conversion := key.keyString.getD []
    isNewInput
    isAsis := key.inputStyle = .asIs ∨ key.inputStyle = .directInput }

/-- The modifier keys are read only where there is no key code. -/
def readModifierKeys (key : CharacterKeyEvent) : ModifierKeysLoop :=
  if key.keyCode.isNone then modifierKeysLoop key.modifierKeys 0 else .leaves

theorem readModifierKeys_in_bounds_iff (key : CharacterKeyEvent) :
    (∀ i, key.readModifierKeys ≠ .readsPast i) ↔
      key.keyCode.isSome ∨ key.modifierKeys = [] ∨ .shift ∈ key.modifierKeys := by
  rw [readModifierKeys]
  cases key.keyCode with
  | none => simp only [Option.isNone_none, Option.isSome_none, if_true, Bool.false_eq_true, false_or,
      modifierKeysLoop_in_bounds_iff]
  | some keyCode => simp

end CharacterKeyEvent

end keyEvent

inductive InsertionFault where
  /-- A modifier key is read that the event does not have. -/
  | readsPast (i : Nat)
  /-- `InsertInput` throws or has not come to its end. -/
  | insertInput
  deriving DecidableEq

namespace KeyComposer

variable (transliterators : Transliterators) (table : Table) (config : ComposerConfig)
  (specialKeyString : SpecialKey → Bytes) (c : KeyComposer)

def composition : Composition := { chunks := c.composer.chunks, inputT12r := c.composer.inputT12r }

def enableInsert : Bool := c.composition.getLength transliterators < c.maxLength

def setInputMode (mode : TransliterationType) : KeyComposer :=
  { c with composer := c.composer.setInputMode mode }

def resetInputMode : KeyComposer := c.setInputMode c.composer.comebackInputMode

def setTemporaryInputMode (mode : TransliterationType) : KeyComposer :=
  { c with composer := { c.composer with
      comebackInputMode := c.composer.inputMode
      inputMode := mode
      shiftedSequenceCount := 0
      isNewInput := true
      inputT12r := transliteratorOf mode } }

def setOutputMode (mode : TransliterationType) : KeyComposer :=
  let composition := c.composition.setTransliterator transliterators 0
    (c.composition.getLength transliterators) (transliteratorOf mode)
  { c with composer := { c.composer with
      outputMode := mode
      chunks := composition.chunks
      position := composition.getLength transliterators } }

def setShiftedSequenceCount (count : Nat) : KeyComposer :=
  { c with composer := { c.composer with shiftedSequenceCount := count } }

/-- `ApplyTemporaryInputMode`.  The first byte of an empty text is the zero behind it. -/
def applyTemporaryInputMode (input : Bytes) (capsLocked : Bool) : KeyComposer :=
  let key := input.headD 0
  let upper : Bool := 0x41 ≤ key && key ≤ 0x5a
  let lower : Bool := 0x61 ≤ key && key ≤ 0x7a
  if oneCharLen key ≠ 1 then
    if c.composer.comebackInputMode ≠ c.composer.inputMode then c.resetInputMode else c
  else if (if capsLocked then lower else upper) then
    let c : KeyComposer := match config.shiftKeyModeSwitch with
      | .asciiInputMode =>
        if c.composer.inputMode = .halfAscii ∨ c.composer.inputMode = .fullAscii then c
        else c.setTemporaryInputMode .halfAscii
      | .katakanaInputMode =>
        if c.composer.inputMode = .hiragana then c.setTemporaryInputMode .fullKatakana else c
      | .off => c
    c.setShiftedSequenceCount (c.composer.shiftedSequenceCount + 1)
  else if (if capsLocked then upper else lower) then
    let c :=
      if 1 < c.composer.shiftedSequenceCount ∧ config.shiftKeyModeSwitch = .asciiInputMode then
        c.resetInputMode
      else c
    let c := if config.shiftKeyModeSwitch = .katakanaInputMode then c.resetInputMode else c
    c.setShiftedSequenceCount 0
  else c.setShiftedSequenceCount 0

def autoSwitchMode : KeyComposer :=
  if ¬ config.autoSwitchCompositionMode ∨ ¬ config.roman then c
  else
    let (displayMode, inputMode) := getModeSwitchingRule
      (c.composition.getStringWithTransliterator transliterators (some .halfAscii))
    let c : KeyComposer := match displayMode with
      | .noChange | .revertToPreviousMode => c
      | .preferredAlphanumeric =>
        c.setOutputMode transliterators
          (if c.composer.inputMode = .fullAscii then .fullAscii else .halfAscii)
      | .halfAlphanumeric => c.setOutputMode transliterators .halfAscii
      | .fullAlphanumeric => c.setOutputMode transliterators .fullAscii
    match inputMode with
    | .noChange => c
    | .revertToPreviousMode => c.resetInputMode
    | .preferredAlphanumeric =>
      if c.composer.inputMode ≠ .halfAscii ∧ c.composer.inputMode ≠ .fullAscii then
        c.setTemporaryInputMode .halfAscii
      else c
    | .halfAlphanumeric =>
      if c.composer.inputMode ≠ .halfAscii then c.setTemporaryInputMode .halfAscii else c
    | .fullAlphanumeric =>
      if c.composer.inputMode ≠ .fullAscii then c.setTemporaryInputMode .fullAscii else c

def processCompositionInput (fuel : Nat) (input : CompositionInput) : Except InsertionFault KeyComposer :=
  if c.enableInsert transliterators = false then .ok c
  else
    match c.composition.insertInput transliterators table fuel c.composer.position input with
    | none => .error .insertInput
    | some (position, composition) =>
      .ok { c with composer := { c.composer with
        chunks := composition.chunks
        inputT12r := composition.inputT12r
        position := position
        isNewInput := false } }

def stopKeyTogglingInput : CompositionInput where
  raw := table.parseSpecialKey (braceOpen :: utf8 ['!'] ++ [braceClose])
  isNewInput := c.composer.isNewInput

variable (now : Int) (key : CharacterKeyEvent)

/-- The time since the input before is over the threshold. -/
def isTimeout : Bool :=
  0 < c.timeoutThresholdMsec ∧ 0 < c.timestampMsec ∧
    c.timeoutThresholdMsec ≤ key.timestampMsec.getD now - c.timestampMsec

/-- What comes before the modifier keys: the check of the timeout, and the mode of the event. -/
def beforeModifierKeys (fuel : Nat) : Except InsertionFault KeyComposer := do
  let stopped ←
    if c.isTimeout now key then
      c.processCompositionInput transliterators table fuel (c.stopKeyTogglingInput table)
    else .ok c
  let timed :=
    if 0 < stopped.timeoutThresholdMsec then
      { stopped with timestampMsec := key.timestampMsec.getD now }
    else stopped
  return match key.mode with
    | none => timed
    | some mode =>
      -- The mode `DIRECT` is an error and counts as hiragana.
      let newInputMode : TransliterationType := match mode with
        | .hiragana | .direct => .hiragana
        | .fullKatakana => .fullKatakana
        | .halfAscii => .halfAscii
        | .fullAscii => .fullAscii
        | .halfKatakana => .halfKatakana
      if newInputMode ≠ timed.composer.inputMode then timed.setInputMode newInputMode else timed

/-- The modes in which the input of the event is inserted. -/
def beforeInsertion (input : CompositionInput) : KeyComposer :=
  if input.conversion ≠ [] then
    if input.isAsis then { c with composer := { c.composer with inputT12r := .conversionString } }
    else c
  else c.applyTemporaryInputMode config input.raw key.hasCaps

def insertCharacterKeyEvent (fuel : Nat) : Except InsertionFault (Bool × KeyComposer) :=
  if c.enableInsert transliterators = false then .ok (false, c)
  else do
    let c ← c.beforeModifierKeys transliterators table now key fuel
    match key.readModifierKeys with
    | .readsPast i => .error (.readsPast i)
    | .returns => .ok (true, c.resetInputMode)
    | .leaves =>
      match key.toInput specialKeyString table c.composer.isNewInput with
      | none => .ok (false, c)
      | some input =>
        let c ← (c.beforeInsertion config key input).processCompositionInput transliterators table fuel
          input
        let c := if input.conversion ≠ [] ∧ input.isAsis then c.resetInputMode else c
        .ok (true,
          if c.composer.comebackInputMode = c.composer.inputMode then
            c.autoSwitchMode transliterators config
          else c)

end KeyComposer

namespace Composition

section inputs

variable (transliterators : Transliterators) (table : Table)

def chunkTaking (composition : Composition) (position : Nat) (input : CompositionInput) : CharChunk :=
  let (left, right) := composition.maybeSplitChunkAt transliterators position
  let isInvisible := fun chunk : CharChunk =>
    chunk.getLength transliterators (some composition.inputT12r) = 0
  let (before, chunk) := composition.getInsertionChunk (left ++ right.takeWhile isInvisible)
  (composition.combinePendingChunks table input before chunk).2

/-- The loop of `InsertInput` ends on any input, and in every round of it that of `AddInput`. -/
inductive InputLoopEnds (composition : Composition) : CompositionInput → CharChunk → Prop
  | round {input : CompositionInput} {chunk : CharChunk}
    (inner : input.conversion = [] → CharChunk.shouldInsertNewChunk table chunk input = false →
      CharChunk.AddInputEnds table input.raw chunk)
    (next : ∀ fuel rest chunk', chunk.addCompositionInput table fuel input = some (rest, chunk') →
      ¬ (rest.raw = [] ∧ rest.conversion = []) →
        InputLoopEnds composition { rest with isNewInput := false }
          { transliterator := composition.inputT12r }) :
    InputLoopEnds composition input chunk

def InsertInputEnds (composition : Composition) (position : Nat) (input : CompositionInput) : Prop :=
  ¬ (input.raw = [] ∧ input.conversion = []) →
    InputLoopEnds table composition input (composition.chunkTaking transliterators table position input)

variable {transliterators table} {composition : Composition}

theorem addInputAndConvertedChar_fresh (t12r : Transliterator) (input : CompositionInput) :
    (CharChunk.addInputAndConvertedChar table { transliterator := t12r } input).1.raw = [] ∧
      (CharChunk.addInputAndConvertedChar table { transliterator := t12r } input).1.conversion = [] := by
  rw [CharChunk.addInputAndConvertedChar]
  cases input.isAsis <;> exact ⟨rfl, rfl⟩

theorem shouldInsertNewChunk_fresh (t12r : Transliterator) (input : CompositionInput) :
    CharChunk.shouldInsertNewChunk table { transliterator := t12r } input = false := rfl

theorem inputLoopEnds_fresh (hends : table.InputEnds) (input : CompositionInput) :
    InputLoopEnds table composition input { transliterator := composition.inputT12r } := by
  induction hn : input.raw.length using Nat.strong_induction_on generalizing input with
  | _ n ih =>
    refine .round (fun _ _ => CharChunk.addInputEnds hends _ _) fun fuel rest chunk' hadd hrest => ?_
    rw [CharChunk.addCompositionInput] at hadd
    split at hadd
    · obtain ⟨hraw, hconversion⟩ :=
        @addInputAndConvertedChar_fresh table composition.inputT12r input
      rw [Option.some.inj hadd] at hraw hconversion
      exact absurd ⟨hraw, hconversion⟩ hrest
    rename_i hconversion
    rw [shouldInsertNewChunk_fresh, if_neg Bool.false_ne_true] at hadd
    obtain ⟨⟨raw, next⟩, haddInput, hr⟩ := Option.map_eq_some_iff.mp hadd
    cases hr
    have hlength := CharChunk.addInput_length_le (fresh_fallback _) haddInput
    by_cases hinput : input.raw = []
    · rw [hinput] at hlength
      exact absurd ⟨List.length_eq_zero_iff.mp (Nat.le_zero.mp hlength), not_not.mp hconversion⟩ hrest
    · have huses := CharChunk.addInput_uses hends hinput (fresh_fallback _) .refl haddInput
      exact ih raw.length (hn ▸ huses) _ rfl

theorem insertInputEnds (hends : table.InputEnds) (position : Nat) (input : CompositionInput) :
    composition.InsertInputEnds transliterators table position input :=
  fun _ => .round (fun _ _ => CharChunk.addInputEnds hends _ _) fun _ _ _ _ _ =>
    inputLoopEnds_fresh hends _

end inputs

end Composition

namespace KeyComposer

variable (transliterators : Transliterators) (table : Table) (config : ComposerConfig)
  (specialKeyString : SpecialKey → Bytes) (now : Int) (key : CharacterKeyEvent) (c : KeyComposer)

/-- Where `ProcessCompositionInput` inserts, `InsertInput` ends. -/
def InsertionEnds (input : CompositionInput) : Prop :=
  c.enableInsert transliterators →
    c.composition.InsertInputEnds transliterators table c.composer.position input

/-- `InsertCharacterKeyEvent` ends, and reads only the modifier keys that the event has. -/
structure KeyEventEnds : Prop where
  toggling : c.isTimeout now key → c.InsertionEnds transliterators table (c.stopKeyTogglingInput table)
  reads : ∀ fuel i, c.insertCharacterKeyEvent transliterators table config specialKeyString now key fuel ≠
    .error (.readsPast i)
  insertion : ∀ fuel before input,
    c.beforeModifierKeys transliterators table now key fuel = .ok before →
    key.readModifierKeys = .leaves →
    key.toInput specialKeyString table before.composer.isNewInput = some input →
      (before.beforeInsertion config key input).InsertionEnds transliterators table input

variable {transliterators table config specialKeyString now key c}

theorem processCompositionInput_ne_readsPast {fuel i : Nat} {input : CompositionInput} :
    c.processCompositionInput transliterators table fuel input ≠ .error (.readsPast i) := by
  rw [processCompositionInput]
  split
  · exact fun h => by cases h
  · split <;> intro h <;> cases h

theorem beforeModifierKeys_ne_readsPast {fuel i : Nat} :
    c.beforeModifierKeys transliterators table now key fuel ≠ .error (.readsPast i) := by
  rw [beforeModifierKeys]
  intro h
  split at h
  · cases hstop : c.processCompositionInput transliterators table fuel (c.stopKeyTogglingInput table) with
    | error fault =>
      rw [hstop] at h
      cases h
      exact processCompositionInput_ne_readsPast hstop
    | ok stopped =>
      rw [hstop] at h
      cases h
  · cases h

/-- A modifier key is read behind the last one exactly if the loop over them is reached and does so. -/
theorem insertCharacterKeyEvent_readsPast_iff (henabled : c.enableInsert transliterators = true)
    {fuel i : Nat} :
    c.insertCharacterKeyEvent transliterators table config specialKeyString now key fuel =
        .error (.readsPast i) ↔
      (∃ before, c.beforeModifierKeys transliterators table now key fuel = .ok before) ∧
        key.readModifierKeys = .readsPast i := by
  rw [insertCharacterKeyEvent, henabled, if_neg (by decide)]
  cases hbefore : c.beforeModifierKeys transliterators table now key fuel with
  | error fault =>
    constructor
    · intro h
      cases h
      exact absurd hbefore beforeModifierKeys_ne_readsPast
    · rintro ⟨⟨before, h⟩, -⟩
      cases h
  | ok before =>
    constructor
    · intro h
      refine ⟨⟨before, rfl⟩, ?_⟩
      cases hread : key.readModifierKeys with
      | readsPast j =>
        simp only [Except.bind, bind, hread] at h
        cases h
        rfl
      | returns =>
        simp only [Except.bind, bind, hread] at h
        cases h
      | leaves =>
        simp only [Except.bind, bind, hread] at h
        split at h
        · cases h
        · rename_i input _
          cases hprocess : (before.beforeInsertion config key input).processCompositionInput
              transliterators table fuel input with
          | error fault =>
            rw [hprocess] at h
            cases h
            exact absurd hprocess processCompositionInput_ne_readsPast
          | ok next =>
            rw [hprocess] at h
            cases h
    · rintro ⟨-, hread⟩
      simp only [Except.bind, bind, hread]

/-- Over a table on which insertion ends, `InsertCharacterKeyEvent` ends and reads only modifier keys that
there are exactly if the loop over them is not reached, the event has none of them, or one is `SHIFT`. -/
theorem insertCharacterKeyEvent_ends_iff (hends : table.InputEnds)
    (henabled : c.enableInsert transliterators = true) :
    c.KeyEventEnds transliterators table config specialKeyString now key ↔
      ((∃ fuel before, c.beforeModifierKeys transliterators table now key fuel = .ok before) →
        key.keyCode.isSome ∨ key.modifierKeys = [] ∨ .shift ∈ key.modifierKeys) := by
  rw [← key.readModifierKeys_in_bounds_iff]
  constructor
  · rintro ⟨-, hreads, -⟩ ⟨fuel, before, hbefore⟩ i hread
    exact hreads fuel i ((insertCharacterKeyEvent_readsPast_iff henabled).mpr ⟨⟨before, hbefore⟩, hread⟩)
  · intro hwithin
    refine ⟨fun _ _ => Composition.insertInputEnds hends _ _, ?_,
      fun _ _ _ _ _ _ _ => Composition.insertInputEnds hends _ _⟩
    intro fuel i hpast
    obtain ⟨⟨before, hbefore⟩, hread⟩ := (insertCharacterKeyEvent_readsPast_iff henabled).mp hpast
    exact hwithin ⟨fuel, before, hbefore⟩ i hread

theorem lookUpPrefix_new (input : Bytes) : (Table.new.lookUpPrefix input).1 = none := by
  rw [Table.lookUpPrefix, Trie.lookUpPrefix]
  split <;> rfl

theorem inputEnds_new : Table.new.InputEnds := by
  refine Composition.inputEnds_of_acyclic ?_ fun input _ pending hcycle => ?_
  · rw [Table.lookUp, Table.normalized_nil, Trie.lookUp]
    rfl
  · obtain ⟨_, ⟨entry, hentry, -⟩, -⟩ := Relation.TransGen.head'_iff.mp hcycle
    rw [lookUpPrefix_new] at hentry
    cases hentry

/-- With `CTRL` and `SHIFT` the loop finds the second. -/
theorem insertCharacterKeyEvent_ends_shift :
    KeyEventEnds CharChunk.noTransliterators Table.new {} (fun _ => []) 0 { modifierKeys := [.ctrl, .shift] }
      { composer := { chunks := [] } } :=
  (insertCharacterKeyEvent_ends_iff inputEnds_new (by decide)).mpr fun _ => by decide

/-- With `CTRL` alone the loop goes on behind it. -/
theorem not_insertCharacterKeyEvent_ends :
    ¬ ∀ transliterators table config specialKeyString now key (c : KeyComposer),
      c.enableInsert transliterators = true →
        c.KeyEventEnds transliterators table config specialKeyString now key := by
  intro h
  have hends := h CharChunk.noTransliterators Table.new {} (fun _ => []) 0 { modifierKeys := [.ctrl] }
    { composer := { chunks := [] } } (by decide)
  refine hends.reads 0 1 ((insertCharacterKeyEvent_readsPast_iff (by decide)).mpr ⟨⟨_, rfl⟩, ?_⟩)
  simp [CharacterKeyEvent.readModifierKeys, modifierKeysLoop]

end KeyComposer

end Mozkey.Composer
