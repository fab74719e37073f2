import Mozkey.Base.SubString
import Mozkey.Converter.InnerSegment
import Mozkey.Engine.ConversionSegments

/-! `UpdateResult` of `engine/engine_converter.cc`: the result of the first segments, with its tokens.
A read behind the end of a container, or of a string, leaves no result. -/

namespace Mozkey.Engine

open Base Storage
open Session (ConverterState)
open Converter (InnerSegment LengthData decodeLengths innerSegments fixInnerSegmentBoundary
  fixInnerSegmentBoundary_fits innerSegments_fit innerSegments_ne_nil innerSegments_flatMap)

structure ResultToken where
  key : Bytes
  value : Bytes
  lid : Int := -1
  rid : Int := -1
  deriving DecidableEq

structure ConversionResult where
  key : Bytes
  value : Bytes
  cursorOffset : Int
  tokens : List ResultToken
  deriving DecidableEq

/-- The tokens of an inner segment: its content word, and its functional word if it has one. -/
def addTokens (it : InnerSegment) : Option (List ResultToken) :=
  if it.key.length < it.contentKey.length ∨ it.value.length < it.contentValue.length then none
  else
    some ({ key := it.contentKey, value := it.contentValue } ::
      if it.functionalKey ≠ [] ∨ it.functionalValue ≠ [] then
        [{ key := it.functionalKey, value := it.functionalValue }]
      else [])

namespace SegmentCandidate

def innerSegments (candidate : SegmentCandidate) : List InnerSegment :=
  Converter.innerSegments candidate.key candidate.value
    (fixInnerSegmentBoundary candidate.key candidate.value candidate.contentKey
      candidate.contentValue candidate.innerSegmentBoundary)

/-- The tokens of a candidate, the first with its `lid` and the last with its `rid`. -/
def tokens (candidate : SegmentCandidate) : Option (List ResultToken) := do
  let tokens := (← candidate.innerSegments.mapM addTokens).flatten
  if tokens = [] then none
  else
    some ((tokens.modify 0 fun token => { token with lid := candidate.lid.toNat }).modify
      (tokens.length - 1) fun token => { token with rid := candidate.rid.toNat })

end SegmentCandidate

namespace EngineConverter

variable (s : EngineConverter) (isBracketPairText : Bytes → Bool)

def selectedCandidates (size : Nat) : Option (List SegmentCandidate) :=
  (List.range size).mapM s.selectedCandidate

/-- What `GetSelectedCandidateValue` gives for a candidate. -/
def selectedValue (candidate : SegmentCandidate) : Bytes :=
  if has candidate.attributes commandCandidate then [] else candidate.value

def getPreedit (size : Nat) : Option Bytes :=
  if s.state = .conversion then some ((s.segments.take size).flatMap ConversionSegment.key)
  else (s.selectedCandidates size).map fun candidates =>
    candidates.flatMap SegmentCandidate.contentKey

def getConversion (size : Nat) : Option Bytes :=
  (s.selectedCandidates size).map fun candidates => candidates.flatMap selectedValue

def updateResultTokens (size : Nat) : Option (List ResultToken) := do
  let candidates ← s.selectedCandidates size
  return (← candidates.mapM SegmentCandidate.tokens).flatten

/-- `GetConsumedPreeditSize`, where `none` stands for `kConsumedAllCharacters`. -/
def getConsumedPreeditSize (size : Nat) : Option Nat :=
  if s.state = .conversion then some ((s.segments.take size).map ConversionSegment.keyLen).sum
  else s.consumedPreeditSize

/-- `UpdateResult` of the first segments: its answer, `consumed_key_size` and the result. -/
def updateResult (size : Nat) : Option (Bool × Option (Option Nat × ConversionResult)) :=
  if s.performsCommandCandidate size then some (false, none)
  else do
    let preedit ← s.getPreedit size
    let conversion ← s.getConversion size
    let tokens ← s.updateResultTokens size
    return (true, some (s.getConsumedPreeditSize size,
      { key := preedit
        value := conversion
        cursorOffset := if isBracketPairText conversion then -1 else 0
        tokens }))

end EngineConverter

/-! The tokens of a candidate. -/

theorem addTokens_spec {it : InnerSegment} (hkey : ∃ rest, it.key = it.contentKey ++ rest)
    (hvalue : ∃ rest, it.value = it.contentValue ++ rest) :
    ∃ tokens, addTokens it = some tokens ∧ tokens ≠ [] ∧
      tokens.flatMap ResultToken.key = it.key ∧ tokens.flatMap ResultToken.value = it.value := by
  obtain ⟨functionalKey, hkey⟩ := hkey
  obtain ⟨functionalValue, hvalue⟩ := hvalue
  have hfunctionalKey : it.functionalKey = functionalKey := by
    rw [InnerSegment.functionalKey, hkey, List.drop_left]
  have hfunctionalValue : it.functionalValue = functionalValue := by
    rw [InnerSegment.functionalValue, hvalue, List.drop_left]
  have hle : ¬ (it.key.length < it.contentKey.length ∨
      it.value.length < it.contentValue.length) := by
    rw [hkey, hvalue, List.length_append, List.length_append]
    omega
  rw [addTokens, if_neg hle, hfunctionalKey, hfunctionalValue]
  refine ⟨_, rfl, by simp, ?_⟩
  split
  · simp [hkey, hvalue]
  · rename_i hnil
    rw [not_or, not_not, not_not] at hnil
    simp [hkey, hvalue, hnil.1, hnil.2]

theorem mapM_addTokens_spec {segments : List InnerSegment}
    (h : ∀ it ∈ segments, (∃ rest, it.key = it.contentKey ++ rest) ∧
      ∃ rest, it.value = it.contentValue ++ rest) :
    ∃ tokens, segments.mapM addTokens = some tokens ∧ (segments ≠ [] → tokens.flatten ≠ []) ∧
      tokens.flatten.flatMap ResultToken.key = segments.flatMap InnerSegment.key ∧
      tokens.flatten.flatMap ResultToken.value = segments.flatMap InnerSegment.value := by
  induction segments with
  | nil => exact ⟨[], rfl, by simp, rfl, rfl⟩
  | cons it segments ih =>
    obtain ⟨first, hfirst, hne, hkey, hvalue⟩ :=
      addTokens_spec (h it List.mem_cons_self).1 (h it List.mem_cons_self).2
    obtain ⟨rest, hrest, -, hkeys, hvalues⟩ := ih fun it hmem => h it (List.mem_cons_of_mem _ hmem)
    refine ⟨first :: rest, ?_, ?_, ?_, ?_⟩
    · rw [List.mapM_cons, hfirst, hrest]
      rfl
    · intro _ hnil
      rw [List.flatten_cons] at hnil
      exact hne (List.append_eq_nil_iff.mp hnil).1
    · rw [List.flatten_cons, List.flatMap_append, hkey, hkeys, List.flatMap_cons]
    · rw [List.flatten_cons, List.flatMap_append, hvalue, hvalues, List.flatMap_cons]

theorem flatMap_modify {f : ResultToken → Bytes} {g : ResultToken → ResultToken}
    (h : ∀ token, f (g token) = f token) (tokens : List ResultToken) (i : Nat) :
    (tokens.modify i g).flatMap f = tokens.flatMap f := by
  induction tokens generalizing i with
  | nil => rw [List.modify_nil]
  | cons token tokens ih =>
    cases i with
    | zero => rw [List.modify_zero_cons, List.flatMap_cons, List.flatMap_cons, h]
    | succ i => rw [List.modify_succ_cons, List.flatMap_cons, List.flatMap_cons, ih]

namespace SegmentCandidate

/-- The candidate has a text, and no content word of its boundary is longer than its segment, as
`EncodeLengths` makes sure. -/
def WellFormed (candidate : SegmentCandidate) : Prop :=
  (candidate.key ≠ [] ∨ candidate.value ≠ []) ∧
    ∀ encoded ∈ candidate.innerSegmentBoundary, (decodeLengths encoded).Fits

instance (candidate : SegmentCandidate) : Decidable candidate.WellFormed :=
  inferInstanceAs (Decidable (_ ∧ _))

structure Tokenizes (tokens : List ResultToken) (candidate : SegmentCandidate) : Prop where
  key : tokens.flatMap ResultToken.key = candidate.key
  value : tokens.flatMap ResultToken.value = candidate.value
  lid : tokens.head?.map ResultToken.lid = some (candidate.lid.toNat : Int)
  rid : tokens.getLast?.map ResultToken.rid = some (candidate.rid.toNat : Int)

theorem tokens_spec {candidate : SegmentCandidate} (h : candidate.WellFormed) :
    ∃ tokens, candidate.tokens = some tokens ∧ Tokenizes tokens candidate := by
  have hfit : ∀ it ∈ candidate.innerSegments, (∃ rest, it.key = it.contentKey ++ rest) ∧
      ∃ rest, it.value = it.contentValue ++ rest :=
    innerSegments_fit (fixInnerSegmentBoundary_fits h.2)
  obtain ⟨pieces, hpieces, hne, hkey, hvalue⟩ := mapM_addTokens_spec hfit
  obtain ⟨token, tokens, htokens⟩ :=
    List.exists_cons_of_ne_nil (hne (innerSegments_ne_nil _ h.1))
  have hall := innerSegments_flatMap candidate.key candidate.value
    (fixInnerSegmentBoundary candidate.key candidate.value candidate.contentKey
      candidate.contentValue candidate.innerSegmentBoundary)
  let setLid (token : ResultToken) : ResultToken := { token with lid := candidate.lid.toNat }
  let setRid (token : ResultToken) : ResultToken := { token with rid := candidate.rid.toNat }
  refine ⟨((token :: tokens).modify 0 setLid).modify tokens.length setRid, ?_, ?_, ?_, ?_, ?_⟩
  · rw [SegmentCandidate.tokens, hpieces, Option.bind_eq_bind, Option.bind_some, htokens,
      if_neg (List.cons_ne_nil token tokens), List.length_cons, Nat.add_sub_cancel]
  · rw [@flatMap_modify ResultToken.key setRid fun _ => rfl,
      @flatMap_modify ResultToken.key setLid fun _ => rfl, ← htokens, hkey]
    exact hall.1
  · rw [@flatMap_modify ResultToken.value setRid fun _ => rfl,
      @flatMap_modify ResultToken.value setLid fun _ => rfl, ← htokens, hvalue]
    exact hall.2
  · -- The last token, which the second change is made to, may be the first one.
    cases tokens <;> rfl
  · rw [List.getLast?_eq_getElem?, List.length_modify, List.length_modify, List.length_cons,
      Nat.add_sub_cancel, List.getElem?_modify_eq, List.getElem?_modify,
      List.getElem?_eq_getElem (Nat.lt_succ_self tokens.length)]
    rfl

theorem mapM_tokens_spec {candidates : List SegmentCandidate}
    (h : ∀ candidate ∈ candidates, candidate.WellFormed) :
    ∃ groups, candidates.mapM tokens = some groups ∧ List.Forall₂ Tokenizes groups candidates := by
  induction candidates with
  | nil => exact ⟨[], rfl, .nil⟩
  | cons candidate candidates ih =>
    obtain ⟨first, hfirst, hfirstOk⟩ := tokens_spec (h candidate List.mem_cons_self)
    obtain ⟨groups, hgroups, hgroupsOk⟩ := ih fun c hmem => h c (List.mem_cons_of_mem _ hmem)
    refine ⟨first :: groups, ?_, .cons hfirstOk hgroupsOk⟩
    rw [List.mapM_cons, hfirst, hgroups]
    rfl

theorem flatten_tokenizes {groups : List (List ResultToken)} {candidates : List SegmentCandidate}
    (h : List.Forall₂ Tokenizes groups candidates) :
    groups.flatten.flatMap ResultToken.key = candidates.flatMap SegmentCandidate.key ∧
      groups.flatten.flatMap ResultToken.value = candidates.flatMap SegmentCandidate.value := by
  induction h with
  | nil => exact ⟨rfl, rfl⟩
  | cons hfirst _ ih =>
    rw [List.flatten_cons, List.flatMap_append, List.flatMap_append, hfirst.key, hfirst.value, ih.1,
      ih.2, List.flatMap_cons, List.flatMap_cons]
    exact ⟨rfl, rfl⟩

end SegmentCandidate

namespace EngineConverter

open SegmentCandidate

variable {s : EngineConverter} {isBracketPairText : Bytes → Bool} {size : Nat}
  {candidates : List SegmentCandidate}

theorem mapM_eq_some {f : Nat → Option SegmentCandidate} {indices : List Nat}
    {candidates : List SegmentCandidate} (h : indices.mapM f = some candidates) :
    ∀ candidate ∈ candidates, ∃ i ∈ indices, f i = some candidate := by
  induction indices generalizing candidates with
  | nil =>
    obtain rfl := Option.some.inj h
    simp
  | cons i indices ih =>
    rw [List.mapM_cons, Option.bind_eq_bind, Option.bind_eq_some_iff] at h
    obtain ⟨first, hfirst, h⟩ := h
    rw [Option.bind_eq_bind, Option.bind_eq_some_iff] at h
    obtain ⟨rest, hrest, h⟩ := h
    obtain rfl := Option.some.inj h
    intro candidate hmem
    rcases List.mem_cons.mp hmem with rfl | hmem
    · exact ⟨i, List.mem_cons_self, hfirst⟩
    · obtain ⟨j, hj, hcandidate⟩ := ih hrest candidate hmem
      exact ⟨j, List.mem_cons_of_mem _ hj, hcandidate⟩

theorem flatMap_selectedValue (hselected : s.selectedCandidates size = some candidates)
    (hcommand : s.performsCommandCandidate size = false) :
    candidates.flatMap selectedValue = candidates.flatMap SegmentCandidate.value := by
  have hnone : ∀ candidate ∈ candidates, selectedValue candidate = candidate.value := by
    intro candidate hmem
    obtain ⟨i, hi, hcandidate⟩ := mapM_eq_some hselected candidate hmem
    have hfalse := List.any_eq_false.mp hcommand i hi
    rw [hcandidate, Option.any_some] at hfalse
    exact if_neg hfalse
  rw [List.flatMap_def, List.flatMap_def, List.map_congr_left hnone]

/-- What is promised of `UpdateResult` for the candidates that are selected: it answers true, the
value and the tokens are those of the candidates, and in a conversion the keys of the segments are
consumed. -/
def FillsResult (isBracketPairText : Bytes → Bool) (s : EngineConverter) (size : Nat)
    (candidates : List SegmentCandidate) : Prop :=
  ∃ consumed result groups, s.updateResult isBracketPairText size = some (true, some (consumed, result)) ∧
    result.value = candidates.flatMap SegmentCandidate.value ∧
    result.tokens.flatMap ResultToken.value = result.value ∧
    result.tokens.flatMap ResultToken.key = candidates.flatMap SegmentCandidate.key ∧
    result.tokens = groups.flatten ∧ List.Forall₂ Tokenizes groups candidates ∧
    (s.state = .conversion →
      consumed = some ((s.segments.take size).map fun segment => charsLen segment.key).sum)

/-- The two passes over the segments agree, whatever segment is focused and whatever candidates are
selected, as long as the candidates are well formed. -/
theorem updateResult_fillsResult (hselected : s.selectedCandidates size = some candidates)
    (hcommand : s.performsCommandCandidate size = false)
    (hcandidates : ∀ candidate ∈ candidates, candidate.WellFormed) :
    FillsResult isBracketPairText s size candidates := by
  obtain ⟨groups, hgroups, hall⟩ := mapM_tokens_spec hcandidates
  obtain ⟨hkey, hvalue⟩ := flatten_tokenizes hall
  obtain ⟨preedit, hpreedit⟩ : ∃ preedit, s.getPreedit size = some preedit := by
    rw [getPreedit, hselected]
    split
    · exact ⟨_, rfl⟩
    · exact ⟨_, rfl⟩
  have hconversion : s.getConversion size = some (candidates.flatMap SegmentCandidate.value) := by
    rw [getConversion, hselected, Option.map_some, flatMap_selectedValue hselected hcommand]
  have htokens : s.updateResultTokens size = some groups.flatten := by
    rw [updateResultTokens, hselected, Option.bind_eq_bind, Option.bind_some, hgroups]
    rfl
  have hresult : s.updateResult isBracketPairText size =
      some (true, some (s.getConsumedPreeditSize size,
        { key := preedit
          value := candidates.flatMap SegmentCandidate.value
          cursorOffset :=
            if isBracketPairText (candidates.flatMap SegmentCandidate.value) then -1 else 0
          tokens := groups.flatten })) := by
    rw [updateResult, hcommand, hpreedit, hconversion, htokens]
    rfl
  refine ⟨_, _, groups, hresult, rfl, hvalue, hkey, rfl, hall, ?_⟩
  · intro hstate
    rw [getConsumedPreeditSize, if_pos hstate]
    rfl

/-- A candidate with a content word and a functional word. -/
def inflected : SegmentCandidate where
  key := [0x62, 0x63]
  value := [0x42, 0x43]
  contentKey := [0x62]
  contentValue := [0x42]
  lid := 3
  rid := 4

def twoSegments : EngineConverter where
  state := .conversion
  segments := [
    { key := [0x61], candidates := [{ key := [0x61], value := [0x41], lid := 1, rid := 2 }] },
    { key := [0x62, 0x63], candidates := [inflected] }]
  candidateList := .mk {} [.leaf 0 0]

theorem updateResult_fillsResult_two : FillsResult (fun _ => false) twoSegments 2
    [{ key := [0x61], value := [0x41], lid := 1, rid := 2 }, inflected] :=
  updateResult_fillsResult (by decide) (by decide) (by simp [SegmentCandidate.WellFormed, inflected])

def textlessSegment : EngineConverter where
  state := .conversion
  segments := [{ key := [0x61], candidates := [{}] }]
  candidateList := .mk {} [.leaf 0 0]

/-- A candidate without any text has no token, and its `lid` is written to the token that there is
not. -/
theorem not_fillsResult_of_no_text : ¬ ∀ (s : EngineConverter) (size : Nat)
    (candidates : List SegmentCandidate), s.selectedCandidates size = some candidates →
    s.performsCommandCandidate size = false → FillsResult (fun _ => false) s size candidates := by
  intro h
  obtain ⟨_, _, _, hresult, -⟩ := h textlessSegment 1 [{}] rfl (by decide)
  have hnone : textlessSegment.updateResult (fun _ => false) 1 = none := by decide
  rw [hnone] at hresult
  cases hresult

end EngineConverter

end Mozkey.Engine
