import Mozkey.Converter.ViterbiCorrect

/-! `converter/nbest_generator.cc`: the search back from the end node of a segment to its begin node,
with the costs that `Viterbi` left in the lattice as estimates.  The segmenter, the matcher of parts
of speech and the candidate filter are parameters. -/

namespace Mozkey.Converter

inductive FilterResult where
  | goodCandidate
  | badCandidate
  | stopEnumeration
  deriving DecidableEq

inductive BoundaryCheckMode where
  | strict
  | onlyMid
  | onlyEdge
  deriving DecidableEq

inductive BoundaryCheckResult where
  | valid
  | validWeakConnected
  | invalid
  deriving DecidableEq

/-- `NBestGenerator::Options`, a flag for each bit of the candidate mode. -/
structure NBestOptions where
  boundaryMode : BoundaryCheckMode := .strict
  fillInnerSegmentInfo : Bool := false
  buildFromOnlyFirstInnerSegment : Bool := false
  deriving DecidableEq

/-- An element of the queue, without its `next` pointer. -/
structure QueueItem where
  node : Nat
  fx : Int
  gx : Int
  structureGx : Int
  wGx : Int
  deriving DecidableEq

/-- An element of the queue with the elements that its `next` pointers lead to. -/
structure QueueElement extends QueueItem where
  next : List QueueItem
  deriving DecidableEq

/-- The heap of the agenda.  The order of elements of one cost is the library's, so any choice of an
element of least cost will do. -/
structure Agenda where
  pop : List QueueElement → Option (QueueElement × List QueueElement)
  pop_nil : pop [] = none
  pop_cons : ∀ elements, elements ≠ [] → ∃ top rest, pop elements = some (top, rest) ∧
    elements.Perm (top :: rest) ∧ ∀ element ∈ rest, top.fx ≤ element.fx

def popLeast : List QueueElement → Option (QueueElement × List QueueElement)
  | [] => none
  | element :: elements =>
    match popLeast elements with
    | none => some (element, [])
    | some (top, rest) =>
      if top.fx < element.fx then some (top, element :: rest) else some (element, top :: rest)

theorem popLeast_cons (elements : List QueueElement) (h : elements ≠ []) :
    ∃ top rest, popLeast elements = some (top, rest) ∧ elements.Perm (top :: rest) ∧
      ∀ element ∈ rest, top.fx ≤ element.fx := by
  induction elements with
  | nil => exact absurd rfl h
  | cons element elements ih =>
    cases elements with
    | nil => exact ⟨element, [], rfl, List.Perm.refl _, by simp⟩
    | cons second elements =>
      obtain ⟨top, rest, heq, hperm, hmin⟩ := ih (by simp)
      rw [popLeast, heq]
      dsimp only
      split
      · next hlt =>
        refine ⟨top, element :: rest, rfl, (hperm.cons element).trans (List.Perm.swap _ _ _), ?_⟩
        intro e he
        rcases List.mem_cons.mp he with rfl | he
        · exact hlt.le
        · exact hmin e he
      · next hle =>
        refine ⟨element, top :: rest, rfl, hperm.cons element, ?_⟩
        intro e he
        rcases List.mem_cons.mp he with rfl | he
        · exact not_lt.mp hle
        · exact (not_lt.mp hle).trans (hmin e he)

def leastAgenda : Agenda := ⟨popLeast, rfl, popLeast_cons⟩

/-- What the generator refers to.  `σ` is the state of the candidate filter. -/
structure NBestModules (σ : Type) where
  connector : Connector
  agenda : Agenda
  isBoundary : Node → Node → Bool → Bool
  isFunctional : Nat → Bool
  isContentNoun : Nat → Bool
  isPronoun : Nat → Bool
  buildInnerSegments : List (Nat × Nat × Nat × Nat) → Bytes → Bytes → List Nat
  isSuggestion : Bool
  resetFilter : σ → σ
  filterCandidate : σ → Candidate → List Nat → List Nat → FilterResult × σ

/-- Modules of a segmenter with a boundary at BOS and EOS, and between all nodes unless a single
segment is asked for, and of a filter that takes every candidate. -/
def plainModules (connector : Connector) : NBestModules Unit where
  connector := connector
  agenda := leastAgenda
  isBoundary l r isSingleSegment :=
    l.nodeType = .bosNode || r.nodeType = .eosNode || !isSingleSegment
  isFunctional _ := false
  isContentNoun _ := false
  isPronoun _ := false
  buildInnerSegments _ _ _ := []
  isSuggestion := false
  resetFilter s := s
  filterCandidate s _ _ _ := (.goodCandidate, s)

/-- The fields of `NBestGenerator`.  `offered` and `tooManyTrials` are not in the source: they record
the nodes of the candidates that the filter was asked about, and that a call ran into the limit of
trials. -/
structure NBestGenerator (σ : Type) where
  beginNode : Nat
  endNode : Nat
  options : NBestOptions := {}
  agenda : List QueueElement := []
  topNodes : List Nat := []
  filter : σ
  viterbiResultChecked : Bool := false
  offered : List (List Nat) := []
  tooManyTrials : Bool := false

def isAsciiAlpha (c : UInt8) : Bool := (0x41 ≤ c ∧ c ≤ 0x5a) ∨ (0x61 ≤ c ∧ c ≤ 0x7a)

def isBetweenAlphabetKeys (left right : Node) : Bool :=
  match left.key.getLast?, right.key.head? with
  | some l, some r => isAsciiAlpha l && isAsciiAlpha r
  | _, _ => false

def kCostDiff : Int := 3453

def kWeakConnectedPenalty : Int := 3453

def kInvalidPenaltyCost : Int := 100000

def kMaxTrial : Nat := 500

namespace Attribute

def contextSensitive : Nat := 1 <<< 4
def spellingCorrection : Nat := 1 <<< 5
def noVariantsExpansion : Nat := 1 <<< 6
def realtimeConversion : Nat := 1 <<< 8
def userDictionary : Nat := 1 <<< 9
def suffixDictionary : Nat := 1 <<< 15
def keyExpandedInDictionary : Nat := 1 <<< 18

end Attribute

namespace NodeAttribute

def userDictionary : Nat := 1 <<< 1
def noVariantsExpansion : Nat := 1 <<< 2
def spellingCorrection : Nat := 1 <<< 5
def suffixDictionary : Nat := 1 <<< 8
def keyExpanded : Nat := 1 <<< 9

end NodeAttribute

namespace NBestGenerator

section

variable {σ : Type} (modules : NBestModules σ) (lattice : Lattice)

def reset (g : NBestGenerator σ) (beginNode endNode : Nat) (options : NBestOptions) :
    NBestGenerator σ :=
  let endN := lattice.node endNode
  { beginNode := beginNode
    endNode := endNode
    options := options
    agenda := (lattice.beginNodes endN.beginPos).filterMap fun node =>
      let n := lattice.node node
      if node = endNode ∨ (n.lid ≠ endN.lid ∧ ((n.cost - endN.cost).natAbs : Int) ≤ kCostDiff ∧
          n.prev ≠ endN.prev) then
        some { node := node, fx := n.cost, gx := 0, structureGx := 0, wGx := 0, next := [] }
      else none
    topNodes := []
    filter := modules.resetFilter g.filter
    viterbiResultChecked := false }

/-- The loop of `FillInnerSegmentInfo` over the nodes behind the first: the lengths given to the
builder, and the key and value lengths of the segment and its content so far. -/
def innerSegmentLengths (nodes : List Node) :
    List (Nat × Nat × Nat × Nat) × (Nat × Nat × Nat × Nat) × Bool :=
  match nodes with
  | [] => ([], (0, 0, 0, 0), false)
  | first :: rest =>
    let keyLen := first.key.length
    let valueLen := first.value.length
    let start := if modules.isFunctional first.rid then ((keyLen, valueLen, 0, 0), true)
      else ((keyLen, valueLen, keyLen, valueLen), false)
    ((first :: rest).zip rest).foldl
      (fun (added, (keyLen, valueLen, contentKeyLen, contentValueLen), isContentBoundary)
          (lnode, rnode) =>
        let (added, keyLen, valueLen, contentKeyLen, contentValueLen, isContentBoundary) :=
          if modules.isBoundary lnode rnode false then
            if contentKeyLen = 0 ∨ contentValueLen = 0 then
              (added ++ [(keyLen, valueLen, keyLen, valueLen)], 0, 0, 0, 0, false)
            else
              (added ++ [(keyLen, valueLen, contentKeyLen, contentValueLen)], 0, 0, 0, 0, false)
          else (added, keyLen, valueLen, contentKeyLen, contentValueLen, isContentBoundary)
        let keyLen := keyLen + rnode.key.length
        let valueLen := valueLen + rnode.value.length
        if isContentBoundary then
          (added, (keyLen, valueLen, contentKeyLen, contentValueLen), isContentBoundary)
        else if (modules.isContentNoun lnode.rid || modules.isPronoun lnode.rid) &&
            modules.isFunctional rnode.lid then
          (added, (keyLen, valueLen, contentKeyLen, contentValueLen), true)
        else
          (added, (keyLen, valueLen, contentKeyLen + rnode.key.length,
            contentValueLen + rnode.value.length), isContentBoundary))
      ([], start)

def fillInnerSegmentInfo (nodes : List Node) (candidate : Candidate) : Candidate :=
  let (added, (keyLen, valueLen, contentKeyLen, contentValueLen), _) :=
    innerSegmentLengths modules nodes
  let last := if contentKeyLen = 0 ∨ contentValueLen = 0 then (keyLen, valueLen, keyLen, valueLen)
    else (keyLen, valueLen, contentKeyLen, contentValueLen)
  { candidate with
    innerSegmentBoundary :=
      modules.buildInnerSegments (added ++ [last]) candidate.key candidate.value }

/-- The attributes that a node adds to the candidate. -/
def nodeAttributes (node : Nat) : Nat :=
  let n := lattice.node node
  let linked := match n.next with
    | some next => decide ((lattice.node next).constrainedPrev = some node)
    | none => false
  let flag (condition : Bool) (bit : Nat) : Nat := if condition then bit else 0
  flag (n.constrainedPrev.isSome || linked) Attribute.contextSensitive
    ||| flag (n.attributes &&& NodeAttribute.spellingCorrection != 0) Attribute.spellingCorrection
    ||| flag (n.attributes &&& NodeAttribute.noVariantsExpansion != 0) Attribute.noVariantsExpansion
    ||| flag (n.attributes &&& NodeAttribute.userDictionary != 0) Attribute.userDictionary
    ||| flag (n.attributes &&& NodeAttribute.suffixDictionary != 0) Attribute.suffixDictionary
    ||| flag (n.attributes &&& NodeAttribute.keyExpanded != 0) Attribute.keyExpandedInDictionary

def makeCandidate (options : NBestOptions) (cost structureCost wcost : Int) (nodes : List Nat) :
    Candidate :=
  let ns := nodes.map lattice.node
  -- the content ends before the first functional node
  let content := ns.takeWhile fun n => !modules.isFunctional n.lid
  let key := ns.flatMap Node.key
  let value := ns.flatMap Node.value
  let contentKey := content.flatMap Node.key
  let contentValue := content.flatMap Node.value
  let candidate : Candidate :=
    { key := key
      value := value
      contentKey := if contentKey = [] ∨ contentValue = [] then key else contentKey
      contentValue := if contentKey = [] ∨ contentValue = [] then value else contentValue
      cost := cost
      wcost := wcost
      structureCost := structureCost
      lid := (ns.head?.map Node.lid).getD 0
      rid := (ns.getLast?.map Node.rid).getD 0
      attributes := nodes.foldl (fun attributes node => attributes ||| nodeAttributes lattice node) 0
      innerSegmentBoundary := [] }
  if options.fillInnerSegmentInfo then fillInnerSegmentInfo modules ns candidate else candidate

/-- The loop of `MakeCandidateFromElement` for the first inner segment, over the elements from
`elm` on: the nodes, and the element where it stops, or `none` between alphabet keys. -/
def firstInnerSegment : QueueItem → List QueueItem → Option (List Nat × QueueItem)
  | elm, [] => some ([], elm)
  | elm, next :: rest =>
    if isBetweenAlphabetKeys (lattice.node elm.node) (lattice.node next.node) then none
    else if modules.isBoundary (lattice.node elm.node) (lattice.node next.node) false then
      some ([elm.node], elm)
    else (firstInnerSegment next rest).map fun (nodes, last) => (elm.node :: nodes, last)

def askFilter (g : NBestGenerator σ) (candidate : Candidate) (nodes : List Nat) :
    FilterResult × NBestGenerator σ :=
  let (result, filter) := modules.filterCandidate g.filter candidate g.topNodes nodes
  (result, { g with filter := filter, offered := g.offered ++ [nodes] })

def makeCandidateFromElement (g : NBestGenerator σ) (element : QueueElement)
    (candidate : Candidate) : FilterResult × Candidate × NBestGenerator σ :=
  match element.next with
  | [] => (.badCandidate, candidate, g)
  | elm :: rest =>
    if g.options.buildFromOnlyFirstInnerSegment then
      match firstInnerSegment modules lattice elm rest with
      | none => (.badCandidate, candidate, g)
      | some (nodes, last) =>
        let candidate := makeCandidate modules lattice g.options (element.gx - last.gx)
          (element.structureGx - last.structureGx) (element.wGx - last.wGx) nodes
        let (result, g) := askFilter modules g candidate nodes
        (result, candidate, g)
    else
      let nodes := ((elm :: rest).dropLast).map QueueItem.node
      let candidate := makeCandidate modules lattice g.options element.gx element.structureGx
        element.wGx nodes
      let (result, g) := askFilter modules g candidate nodes
      (result, candidate, g)

/-- The nodes from `node` along `next` up to `endNode`. -/
def pathUntil (endNode : Nat) : Nat → Nat → List Nat
  | 0, _ => []
  | fuel + 1, node =>
    if node = endNode then []
    else
      match (lattice.node node).next with
      | none => [node]
      | some next => node :: pathUntil endNode fuel next

/-- The nodes of the best path inside the segment. -/
def bestPathNodes (g : NBestGenerator σ) : List Nat :=
  match (lattice.node g.beginNode).next with
  | none => []
  | some first => pathUntil lattice g.endNode lattice.size first

/-- The cost of a node by its pointer; a null pointer is not followed in the source. -/
def costAt (node : Option Nat) : Int := (node.map fun v => (lattice.node v).cost).getD 0

def wcostAt (node : Option Nat) : Int := (node.map fun v => (lattice.node v).wcost).getD 0

/-- `MakeCandidateFromBestPath`, with the nodes it leaves in `top_nodes_`: it stops before the right
one of two nodes with alphabet keys. -/
def makeCandidateFromBestPath (g : NBestGenerator σ) : Option Candidate × List Nat :=
  let nodes := bestPathNodes lattice g
  let joined := nodes.zip (nodes.drop 1) |>.takeWhile fun (left, right) =>
    !isBetweenAlphabetKeys (lattice.node left) (lattice.node right)
  if joined.length < nodes.length - 1 then (none, nodes.take (joined.length + 1))
  else
    let beginN := lattice.node g.beginNode
    let endN := lattice.node g.endNode
    let totalWcost := ((nodes.drop 1).map fun node => (lattice.node node).wcost).sum
    let inner := costAt lattice endN.prev - costAt lattice beginN.next
    (some (makeCandidate modules lattice g.options ((endN.cost - endN.wcost) - beginN.cost)
      (inner - totalWcost) (inner + wcostAt lattice beginN.next) nodes), nodes)

/-- `MakePrefixCandidateFromBestPath`: the nodes up to the first boundary. -/
def makePrefixCandidateFromBestPath (g : NBestGenerator σ) : Candidate × List Nat :=
  let nodes := bestPathNodes lattice g
  let joined := nodes.zip (nodes.drop 1) |>.takeWhile fun (left, right) =>
    !modules.isBoundary (lattice.node left) (lattice.node right) false
  let topNodes := nodes.take (joined.length + 1)
  let beginN := lattice.node g.beginNode
  let totalExtraWcost := ((topNodes.drop 1).map fun node => (lattice.node node).wcost).sum
  let cost := costAt lattice topNodes.getLast?
  let inner := cost - costAt lattice beginN.next
  (makeCandidate modules lattice g.options cost (inner - totalExtraWcost)
    (inner + wcostAt lattice beginN.next) topNodes, topNodes)

def insertTopResult (g : NBestGenerator σ) (candidate : Candidate) :
    FilterResult × Candidate × NBestGenerator σ :=
  let (made, topNodes) :=
    if g.options.buildFromOnlyFirstInnerSegment then
      let (candidate, topNodes) := makePrefixCandidateFromBestPath modules lattice g
      (some candidate, topNodes)
    else makeCandidateFromBestPath modules lattice g
  let g := { g with topNodes := topNodes }
  match made with
  | none => (.stopEnumeration, candidate, g)
  | some candidate =>
    let candidate := if modules.isSuggestion then
      { candidate with attributes := candidate.attributes ||| Attribute.realtimeConversion }
      else candidate
    let (result, g) := askFilter modules g candidate topNodes
    (result, candidate, g)

def getTransitionCost (lnode rnode : Nat) : Int :=
  if (lattice.node rnode).constrainedPrev ≠ none ∧
      (lattice.node rnode).constrainedPrev ≠ some lnode then kInvalidPenaltyCost
  else modules.connector.getTransitionCost (lattice.node lnode).rid (lattice.node rnode).lid

/-- `CheckStrict`, `CheckOnlyMid` and `CheckOnlyEdge`, by the mode. -/
def checkMode (mode : BoundaryCheckMode) (lnode rnode : Node) (isEdge : Bool) :
    BoundaryCheckResult :=
  match mode with
  | .strict =>
    let isBoundary := lnode.nodeType = .hisNode || modules.isBoundary lnode rnode false
    if isEdge != isBoundary then .invalid else .valid
  | .onlyMid =>
    let isBoundary := lnode.nodeType = .hisNode || modules.isBoundary lnode rnode false
    if !isEdge && isBoundary then .invalid
    else if isEdge && !isBoundary then .validWeakConnected
    else .valid
  | .onlyEdge =>
    let isBoundary := lnode.nodeType = .hisNode || modules.isBoundary lnode rnode true
    if isEdge != isBoundary then .invalid else .valid

def boundaryCheck (mode : BoundaryCheckMode) (lnode rnode : Node) (isEdge : Bool) :
    BoundaryCheckResult :=
  if rnode.nodeType = .conNode ∨ lnode.nodeType = .conNode then .valid
  else if isBetweenAlphabetKeys lnode rnode then .invalid
  else checkMode modules mode lnode rnode isEdge

/-- The body of the loop of `Next` over the left nodes: the element created for `lnode`. -/
def leftElement (g : NBestGenerator σ) (top : QueueElement) (lnode : Nat) : Option QueueElement :=
  let beginN := lattice.node g.beginNode
  let endN := lattice.node g.endNode
  let rnode := lattice.node top.node
  let l := lattice.node lnode
  let isRightEdge := decide (rnode.beginPos = endN.beginPos)
  let isLeftEdge := decide (rnode.beginPos = beginN.endPos)
  if l.beginPos < beginN.endPos ∧ beginN.endPos < l.endPos then none
  else if isLeftEdge ∧ ¬ l.cost - beginN.cost ≤ kCostDiff then none
  else if isLeftEdge ∧ l.rid = beginN.rid ∧ lnode ≠ g.beginNode then none
  else
    match boundaryCheck modules g.options.boundaryMode l rnode (isRightEdge || isLeftEdge) with
    | .invalid => none
    | result =>
      let transitionCost := getTransitionCost modules lattice lnode top.node
      let (costDiff, structureCostDiff, wcostDiff) :=
        if isRightEdge then (transitionCost + (rnode.cost - endN.cost), 0, 0)
        else if isLeftEdge then
          (transitionCost + rnode.wcost + (l.cost - beginN.cost), 0, rnode.wcost)
        else (transitionCost + rnode.wcost, transitionCost, transitionCost + rnode.wcost)
      let (costDiff, structureCostDiff, wcostDiff) :=
        if result = .validWeakConnected then
          (costDiff + kWeakConnectedPenalty, structureCostDiff + kWeakConnectedPenalty / 2,
            wcostDiff + kWeakConnectedPenalty / 2)
        else (costDiff, structureCostDiff, wcostDiff)
      let gx := costDiff + top.gx
      some
        { node := lnode
          fx := l.cost + gx
          gx := gx
          structureGx := structureCostDiff + top.structureGx
          wGx := wcostDiff + top.wGx
          next := top.toQueueItem :: top.next }

/-- The elements pushed for `top`: at the left edge only the first one of least cost. -/
def expand (g : NBestGenerator σ) (top : QueueElement) : List QueueElement :=
  let rnode := lattice.node top.node
  let elements := (lattice.endNodes rnode.beginPos).filterMap (leftElement modules lattice g top)
  if rnode.beginPos = (lattice.node g.beginNode).endPos then
    (elements.foldl
      (fun (best : Option QueueElement) element =>
        match best with
        | none => some element
        | some b => if b.fx > element.fx then some element else best)
      none).toList
  else elements

/-- The loop of `Next`, with `trials` rounds left before the limit. -/
def nextLoop : Nat → NBestGenerator σ → Candidate → Bool × Candidate × NBestGenerator σ
  | 0, g, candidate =>
    match modules.agenda.pop g.agenda with
    | none => (false, candidate, g)
    | some (_, rest) => (false, candidate, { g with agenda := rest, tooManyTrials := true })
  | trials + 1, g, candidate =>
    match modules.agenda.pop g.agenda with
    | none => (false, candidate, g)
    | some (top, rest) =>
      let g := { g with agenda := rest }
      if (lattice.node top.node).endPos = (lattice.node g.beginNode).endPos then
        let (result, candidate, g) := makeCandidateFromElement modules lattice g top candidate
        match result with
        | .goodCandidate => (true, candidate, g)
        | .stopEnumeration => (false, candidate, g)
        | .badCandidate => nextLoop trials g candidate
      else
        nextLoop trials { g with agenda := g.agenda ++ expand modules lattice g top } candidate

/-- `num_trials++ > KMaxTrial` lets `KMaxTrial + 1` rounds pass. -/
def next (g : NBestGenerator σ) (candidate : Candidate) : Bool × Candidate × NBestGenerator σ :=
  if g.viterbiResultChecked then nextLoop modules lattice (kMaxTrial + 1) g candidate
  else
    let (result, candidate, g) :=
      insertTopResult modules lattice { g with viterbiResultChecked := true } candidate
    match result with
    | .goodCandidate => (true, candidate, g)
    | .stopEnumeration => (false, candidate, g)
    | .badCandidate => nextLoop modules lattice (kMaxTrial + 1) g candidate

/-- `SetCandidates`: candidates are pushed back until there are `expandSize` or `Next` returns
false.  `fuel` bounds the calls; `expandSize` calls are enough. -/
def setCandidates : Nat → Nat → NBestGenerator σ → Segment → Segment × NBestGenerator σ
  | 0, _, g, segment => (segment, g)
  | fuel + 1, expandSize, g, segment =>
    if segment.candidates.length < expandSize then
      match next modules lattice g {} with
      | (true, candidate, g) =>
        setCandidates fuel expandSize g
          { segment with candidates := segment.candidates ++ [candidate] }
      | (false, _, g) => (segment, g)
    else (segment, g)

end

end NBestGenerator

end Mozkey.Converter
