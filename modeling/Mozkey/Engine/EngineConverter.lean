import Mozkey.Composer.Composer

/-! The converter of a session, `engine/engine_converter.cc`: its state, the output it fills, and
as parameters its operations on segments and candidates. These also change what the engine has
learnt, which the converters of all contexts share. -/

namespace Mozkey.Session

inductive ConverterState where
  | composition | suggestion | prediction | conversion
  deriving DecidableEq

structure ConversionPreferences where
  useHistory : Bool := true
  requestSuggestion : Bool := true
  deriving DecidableEq

structure EngineConverter (V : Type) where
  /-- The segments, the candidate list and the focus. -/
  segments : V
  state : ConverterState := .composition
  candidateListVisible : Bool := false
  /-- The text that is committed and not yet part of an output. -/
  result : Option Result := none
  /-- The command of a selected candidate, 0 for `DEFAULT_COMMAND`. -/
  updatedCommand : Nat := 0
  selectionShortcut : Nat := 0
  conversionPreferences : ConversionPreferences := {}
  deriving DecidableEq

abbrev Engine (V H : Type) := EngineConverter V × H

/-- The operations that go through segments and candidates. -/
structure ConverterOps (K V H : Type) where
  convertWithPreferences : ConversionPreferences → Composer K → Engine V H → Bool × Engine V H
  convertToTransliteration : TransliterationType → Composer K → Engine V H → Bool × Engine V H
  convertToHalfWidth : Composer K → Engine V H → Bool × Engine V H
  switchKanaType : Composer K → Engine V H → Bool × Engine V H
  suggestWithPreferences :
    ConversionPreferences → Composer K → Context → Engine V H → Bool × Engine V H
  predict : Composer K → Engine V H → Bool × Engine V H
  cancel : Engine V H → Engine V H
  reset : Engine V H → Engine V H
  revert : Engine V H → Engine V H
  commit : Composer K → Context → Engine V H → Engine V H
  commitContext : Composer K → Context → Engine V H → Engine V H
  /-- The second part is the size of the key that the suggestion consumes. -/
  commitSuggestionByIndex : Nat → Composer K → Context → Engine V H → Bool × Nat × Engine V H
  commitSuggestionById : Int → Composer K → Context → Engine V H → Bool × Nat × Engine V H
  commitHeadToFocusedSegments : Composer K → Context → Engine V H → Nat × Engine V H
  commitFirstSegment : Composer K → Context → Engine V H → Nat × Engine V H
  commitPreedit : Composer K → Context → Bool → List Text → Engine V H → Engine V H
  commitHead : Nat → Composer K → Engine V H → Nat × Engine V H
  learnExternalConversionResult : Text → Text → Context → Engine V H → Bool × Engine V H
  getReadingText : Text → Engine V H → Option Text
  deleteCandidateFromHistory : Option Int → Engine V H → Bool × Engine V H
  onStartComposition : Context → Engine V H → Engine V H
  segmentFocusRight : Engine V H → Engine V H
  segmentFocusLast : Engine V H → Engine V H
  segmentFocusLeft : Engine V H → Engine V H
  segmentFocusLeftEdge : Engine V H → Engine V H
  segmentWidthExpand : Composer K → Engine V H → Engine V H
  segmentWidthShrink : Composer K → Engine V H → Engine V H
  candidateNext : Composer K → Engine V H → Engine V H
  candidateNextPage : Engine V H → Engine V H
  candidatePrev : Engine V H → Engine V H
  candidatePrevPage : Engine V H → Engine V H
  candidateMoveToId : Int → Composer K → Engine V H → Engine V H
  candidateMoveToShortcut : Nat → Engine V H → Bool × Engine V H
  getConversionSegmentKeys : EngineConverter V → Option (List Text)
  fillConversion : EngineConverter V → List PreeditSegment × Nat
  fillCandidateWindow : EngineConverter V → CandidateWindow
  fillAllCandidateWords : EngineConverter V → List (Int × Text)
  /-- `AddSegment` of a text that is not converted. -/
  preeditSegment : Text → List PreeditSegment

namespace EngineConverter

variable {K V H : Type} (composerOps : ComposerOps K) (ops : ConverterOps K V H)

def isActive (converter : EngineConverter V) : Bool := converter.state != .composition

def setCandidateListVisible (visible : Bool) (converter : EngineConverter V) : EngineConverter V :=
  { converter with candidateListVisible := visible }

/-- `FillPreedit`: the text of the composer goes behind what the preedit holds. -/
def fillPreedit (composer : Composer K) (preedit : Option Preedit) : Preedit :=
  { segments := (preedit.getD {}).segments ++
      ops.preeditSegment (composer.getStringForPreedit composerOps)
    cursor := composer.position }

def fillConversion (converter : EngineConverter V) (preedit : Option Preedit) : Preedit :=
  let (segments, cursor) := ops.fillConversion converter
  { segments := (preedit.getD {}).segments ++ segments, cursor := cursor }

/-- What `FillOutput` does with the preedit, by the state of the converter. -/
def outputPreedit (composer : Composer K) (converter : EngineConverter V)
    (preedit : Option Preedit) : Option Preedit :=
  match converter.state with
  | .composition | .suggestion =>
    if composer.isEmpty composerOps then preedit
    else some (fillPreedit composerOps ops composer preedit)
  | .prediction | .conversion => some (converter.fillConversion ops preedit)

def fillOutput (composer : Composer K) (converter : EngineConverter V) (output : Output) :
    Output :=
  { output with
    result := converter.result.or output.result
    preedit := outputPreedit composerOps ops composer converter output.preedit
    candidateWindow :=
      if converter.isActive ∧ converter.candidateListVisible then
        some (ops.fillCandidateWindow converter)
      else output.candidateWindow
    allCandidateWords :=
      if converter.isActive then ops.fillAllCandidateWords converter
      else output.allCandidateWords }

/-- What `PopOutput` leaves in the converter: the result and the command are given out. -/
def popped (converter : EngineConverter V) : EngineConverter V :=
  { converter with result := none, updatedCommand := 0 }

end EngineConverter

end Mozkey.Session
