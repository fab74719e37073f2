import Mozkey.Converter.NBestGenerator

/-! How `ImmutableConverter` turns the best path of a lattice into segments with candidates. -/

namespace Mozkey.Converter

inductive InsertCandidatesType where
  | multiSegments
  | singleSegment
  | onlyFirstSegment
  | firstInnerSegment
  deriving DecidableEq

inductive RequestType where
  | conversion
  | reverseConversion
  | prediction
  | suggestion
  deriving DecidableEq

inductive ScriptType where
  | hiragana
  | katakana
  | other
  deriving DecidableEq

/-- What `ImmutableConverter` refers to besides the modules of the generator. -/
structure ImmutableConverter (σ : Type) where
  modules : NBestModules σ
  scriptType : Bytes → ScriptType
  hiraganaToKatakana : Bytes → Bytes
  charsLen : Bytes → Nat

structure ConversionRequest where
  requestType : RequestType := .conversion
  maxConversionCandidatesSize : Nat := 200

def containsWhiteSpacesOnly : Bytes → Bool
  | [] => true
  | 0x09 :: rest => containsWhiteSpacesOnly rest
  | 0x20 :: rest => containsWhiteSpacesOnly rest
  | 0xe3 :: 0x80 :: 0x80 :: rest => containsWhiteSpacesOnly rest
  | _ => false

/-- The segment of each byte of the key as a 16-bit number, and one number for its end. -/
def makeGroup (segments : Segments) : List Nat :=
  (segments.segments.zipIdx.flatMap fun (segment, i) =>
    List.replicate segment.key.length (i % 2 ^ 16)) ++ [segments.segments.length % 2 ^ 16]

def Candidate.functionalKey (c : Candidate) : Bytes :=
  c.key.drop (min c.key.length c.contentKey.length)

def Candidate.functionalValue (c : Candidate) : Bytes :=
  c.value.drop (min c.value.length c.contentValue.length)

namespace ImmutableConverter

section

variable {σ : Type} (converter : ImmutableConverter σ) (request : ConversionRequest)
  (lattice : Lattice) (group : List Nat)

def isSegmentEndNode (segments : Segments) (node next : Nat) (isSingleSegment : Bool) : Bool :=
  let n := lattice.node node
  let nextN := lattice.node next
  if nextN.nodeType = .eosNode then true
  else
    let thisNodeIsWs := containsWhiteSpacesOnly n.key
    let nextNodeIsWs := containsWhiteSpacesOnly nextN.key
    if request.requestType = .reverseConversion ∧ thisNodeIsWs then !nextNodeIsWs
    else if request.requestType = .reverseConversion ∧ nextNodeIsWs then true
    else
      let oldSegment := segments.segment (group.getD n.beginPos 0)
      if group.getD n.beginPos 0 = group.getD nextN.beginPos 0 ∧
          oldSegment.segmentType = .fixedBoundary then false
      else if group.getD n.beginPos 0 ≠ group.getD nextN.beginPos 0 then true
      else if n.nodeType = .conNode then true
      else converter.modules.isBoundary n nextN isSingleSegment

/-- The first dummy candidate: the content of the top candidate in katakana. -/
def insertKatakanaContent (expandSize : Nat) (segment : Segment) : Segment :=
  match segment.candidates.head?, segment.candidates.getLast? with
  | some top, some last =>
    if segment.candidates.length < expandSize ∧ top.functionalKey ≠ [] ∧
        converter.scriptType top.contentKey = .hiragana then
      let contentValue := converter.hiraganaToKatakana top.contentKey
      { segment with
        candidates := segment.candidates ++
          [{ top with
             contentValue := contentValue
             value := contentValue ++ top.functionalValue
             cost := last.cost + 1
             wcost := last.wcost + 1
             structureCost := last.structureCost + 1
             attributes := 0
             innerSegmentBoundary := [] }] }
    else segment
  | _, _ => segment

def insertHiragana (expandSize : Nat) (segment : Segment) : Segment :=
  if segment.candidates = [] ∨
      (segment.candidates.length < expandSize ∧ converter.scriptType segment.key = .hiragana) then
    let attributes := if converter.charsLen segment.key ≤ 1 then Attribute.contextSensitive else 0
    let base : Candidate := match segment.candidates.getLast? with
      | some last =>
        { last with
          cost := last.cost + 1
          wcost := last.wcost + 1
          structureCost := last.structureCost + 1
          innerSegmentBoundary := [] }
      | none => {}
    { segment with
      candidates := segment.candidates ++
        [{ base with
           key := segment.key
           value := segment.key
           contentKey := segment.key
           contentValue := segment.key
           attributes := attributes }] }
  else segment

def insertKatakana (expandSize : Nat) (segment : Segment) : Segment :=
  let katakanaValue := converter.hiraganaToKatakana segment.key
  match segment.candidates.getLast? with
  | some last =>
    if segment.candidates.length < expandSize ∧
        converter.scriptType katakanaValue = .katakana then
      { segment with
        candidates := segment.candidates ++
          [{ key := segment.key
             value := katakanaValue
             contentKey := segment.key
             contentValue := katakanaValue
             cost := last.cost + 1
             wcost := last.wcost + 1
             structureCost := last.structureCost + 1
             lid := last.lid
             rid := last.rid
             attributes :=
               if converter.charsLen segment.key ≤ 1 then Attribute.contextSensitive else 0 }] }
    else segment
  | none => segment

def insertDummyCandidates (expandSize : Nat) (segment : Segment) : Segment :=
  insertKatakana converter expandSize
    (insertHiragana converter expandSize (insertKatakanaContent converter expandSize segment))

structure InsertState (σ : Type) where
  segments : Segments
  generator : NBestGenerator σ
  prev : Nat
  beginPos : Option Nat := none

/-- `GetInsertTargetSegment`: the segments before the target, and the target. -/
def getInsertTargetSegment (type : InsertCandidatesType) (beginPos node : Nat)
    (segments : Segments) : List Segment × Segment :=
  if type ≠ .multiSegments then
    (segments.segments.dropLast, segments.segments.getLast?.getD {})
  else
    let oldSegment := segments.segment (group.getD (lattice.node node).beginPos 0)
    (segments.segments,
      { key := (lattice.key.drop beginPos).take ((lattice.node node).endPos - beginPos)
        segmentType := oldSegment.segmentType })

/-- The options for the candidates of one segment. -/
def nBestOptions (type : InsertCandidatesType) (segment : Segment) : NBestOptions :=
  let options : NBestOptions :=
    if type = .singleSegment ∨ type = .firstInnerSegment then
      { boundaryMode := .onlyEdge, fillInnerSegmentInfo := true }
    else if segment.segmentType = .fixedBoundary then { boundaryMode := .onlyMid }
    else {}
  if type = .firstInnerSegment then
    { options with buildFromOnlyFirstInnerSegment := true, fillInnerSegmentInfo := true }
  else options

/-- The body of the loop behind the test for the end of a segment. -/
def insertSegment (type : InsertCandidatesType) (expandSize beginPos node next : Nat)
    (st : InsertState σ) : InsertState σ :=
  let (before, segment) := getInsertTargetSegment lattice group type beginPos node st.segments
  let generator := NBestGenerator.reset converter.modules lattice st.generator st.prev next
    (nBestOptions type segment)
  let (segment, generator) :=
    NBestGenerator.setCandidates converter.modules lattice expandSize expandSize generator segment
  let segment := if type = .multiSegments ∨ type = .singleSegment then
    insertDummyCandidates converter expandSize segment else segment
  let segment := if (lattice.node node).nodeType = .conNode then
    { segment with segmentType := .fixedValue } else segment
  { segments := ⟨before ++ [segment]⟩, generator := generator, prev := node, beginPos := none }

/-- The loop over the nodes behind the history, `fuel` bounding the length of the path. -/
def insertLoop (type : InsertCandidatesType) (expandSize : Nat) :
    Nat → Nat → InsertState σ → InsertState σ
  | 0, _, st => st
  | fuel + 1, node, st =>
    match (lattice.node node).next with
    | none => st
    | some next =>
      let beginPos := st.beginPos.getD (lattice.node node).beginPos
      let isSingleSegment := decide (type = .singleSegment ∨ type = .firstInnerSegment)
      if isSegmentEndNode converter request lattice group st.segments node next isSingleSegment then
        let st := insertSegment converter lattice group type expandSize beginPos node next st
        if type = .onlyFirstSegment then st else insertLoop type expandSize fuel next st
      else insertLoop type expandSize fuel next { st with beginPos := some beginPos }

/-- The last history node of the path behind `prev`. -/
def skipHistory : Nat → Nat → Nat
  | 0, prev => prev
  | fuel + 1, prev =>
    match (lattice.node prev).next with
    | none => prev
    | some node =>
      if (lattice.node node).next ≠ none ∧ (lattice.node node).nodeType = .hisNode then
        skipHistory fuel node
      else prev

def insertCandidates (segments : Segments) (filter : σ) (maxCandidatesSize : Nat)
    (type : InsertCandidatesType) : Segments :=
  let prev := skipHistory lattice lattice.size lattice.bosNode
  let expandSize := max 1 (min maxCandidatesSize 512)
  match (lattice.node prev).next with
  | none => segments
  | some node =>
    (insertLoop converter request lattice group type expandSize (lattice.size + 1) node
      { segments := segments
        generator := { beginNode := prev, endNode := prev, filter := filter }
        prev := prev }).segments

def insertCandidatesForConversion (segments : Segments) (filter : σ) : Segments :=
  let maxCandidatesSize := if request.requestType = .reverseConversion then 1
    else request.maxConversionCandidatesSize
  let oldConversionSegmentsSize := segments.conversionSegmentsSize
  let inserted := insertCandidates converter request lattice group segments filter
    maxCandidatesSize .multiSegments
  if oldConversionSegmentsSize > 0 then
    inserted.eraseSegments inserted.historySegmentsSize oldConversionSegmentsSize
  else inserted

end

end ImmutableConverter

end Mozkey.Converter
