import Mathlib

/-! The candidate list of `engine/candidate_list.cc`: candidates with a focus, some of which stand
for a list of their own, and the moves of the focus. -/

namespace Mozkey.Engine

structure ListState where
  pageSize : Nat := 9
  focusedIndex : Nat := 0
  /-- The ids that are not stored in a candidate, with the id that has the same value. -/
  alternativeIds : List (Int × Int) := []
  rotate : Bool := false
  deriving DecidableEq

mutual

/-- A candidate with its id and its attributes. A candidate that stands for a list has them too. -/
inductive Candidate where
  | leaf (id : Int) (attributes : UInt32)
  | sub (id : Int) (attributes : UInt32) (subcandidateList : CandidateList)

inductive CandidateList where
  | mk (state : ListState) (candidates : List Candidate)

end

namespace Candidate

def id : Candidate → Int
  | leaf id _ | sub id _ _ => id

def attributes : Candidate → UInt32
  | leaf _ attributes | sub _ attributes _ => attributes

def hasAttributes (attributes : UInt32) (candidate : Candidate) : Bool :=
  candidate.attributes &&& attributes == attributes

/-- A change of the list that the candidate stands for. -/
def mapSub (f : CandidateList → CandidateList) : Candidate → Candidate
  | leaf id attributes => leaf id attributes
  | sub id attributes list => sub id attributes (f list)

end Candidate

namespace CandidateList

def state : CandidateList → ListState
  | mk state _ => state

def candidates : CandidateList → List Candidate
  | mk _ candidates => candidates

def size (list : CandidateList) : Nat := list.candidates.length

def focusedIndex (list : CandidateList) : Nat := list.state.focusedIndex

def setFocusedIndex (index : Nat) : CandidateList → CandidateList
  | mk state candidates => mk { state with focusedIndex := index } candidates

/-- The page at an index, from its begin up to its end. -/
def getPageRange (list : CandidateList) (index : Nat) : Nat × Nat :=
  let start := index - index % list.state.pageSize
  (start, min list.size (start + list.state.pageSize))

def isFirst (index : Nat) : Bool := index == 0

def isLast (list : CandidateList) (index : Nat) : Bool := index == list.size - 1

def isFirstPage (list : CandidateList) (index : Nat) : Bool := index < list.state.pageSize

def isLastPage (list : CandidateList) (index : Nat) : Bool :=
  (list.getPageRange index).2 == list.size

def moveFirst (list : CandidateList) : CandidateList := list.setFocusedIndex 0

def moveLast (list : CandidateList) : CandidateList := list.setFocusedIndex (list.size - 1)

/-- A change of the list that the focused candidate stands for. -/
def mapFocusedSub (f : CandidateList → CandidateList) : CandidateList → CandidateList
  | mk state candidates => mk state (candidates.modify state.focusedIndex (Candidate.mapSub f))

mutual

/-- The moves that the focused sublist makes, and where it does not move, the list itself. -/
def moveFocused (move : CandidateList → Bool × CandidateList) :
    CandidateList → Bool × CandidateList
  | mk state candidates =>
    let (moved, candidates) := moveFocusedSub move candidates state.focusedIndex
    if moved then (true, mk state candidates) else move (mk state candidates)

/-- The move of the sublist at an index, if there is one. -/
def moveFocusedSub (move : CandidateList → Bool × CandidateList) :
    List Candidate → Nat → Bool × List Candidate
  | [], _ => (false, [])
  | .leaf id attributes :: candidates, 0 => (false, .leaf id attributes :: candidates)
  | .sub id attributes list :: candidates, 0 =>
    let (moved, list) := moveFocused move list
    (moved, .sub id attributes list :: candidates)
  | candidate :: candidates, index + 1 =>
    let (moved, candidates) := moveFocusedSub move candidates index
    (moved, candidate :: candidates)

end

def moveNextHere (list : CandidateList) : Bool × CandidateList :=
  if list.isLast list.focusedIndex then
    if list.state.rotate then (true, list.moveFirst.mapFocusedSub moveFirst)
    else (false, list.moveFirst)
  else (true, (list.setFocusedIndex (list.focusedIndex + 1)).mapFocusedSub moveFirst)

def moveNext : CandidateList → Bool × CandidateList := moveFocused moveNextHere

def movePrevHere (list : CandidateList) : Bool × CandidateList :=
  if isFirst list.focusedIndex then
    if list.state.rotate then (true, list.moveLast.mapFocusedSub moveLast)
    else (false, list.moveLast)
  else (true, (list.setFocusedIndex (list.focusedIndex - 1)).mapFocusedSub moveLast)

def movePrev : CandidateList → Bool × CandidateList := moveFocused movePrevHere

/-- The focus goes to the beginning of its page, and to the first candidate of its sublist. -/
def enterPage (list : CandidateList) : CandidateList :=
  (list.setFocusedIndex
    (list.focusedIndex - list.focusedIndex % list.state.pageSize)).mapFocusedSub moveFirst

def moveNextPageHere (list : CandidateList) : Bool × CandidateList :=
  if list.isLastPage list.focusedIndex then
    if list.state.rotate then (true, list.moveFirst.enterPage) else (false, list)
  else (true, (list.setFocusedIndex (list.focusedIndex + list.state.pageSize)).enterPage)

def moveNextPage : CandidateList → Bool × CandidateList := moveFocused moveNextPageHere

def movePrevPageHere (list : CandidateList) : Bool × CandidateList :=
  if list.isFirstPage list.focusedIndex then
    if list.state.rotate then (true, list.moveLast.enterPage) else (false, list)
  else (true, (list.setFocusedIndex (list.focusedIndex - list.state.pageSize)).enterPage)

def movePrevPage : CandidateList → Bool × CandidateList := moveFocused movePrevPageHere

section Search

/-! `MoveToAttributes` and `MoveToId` differ in what they look for, in what a list makes of it, and
in where they begin. Where nothing is found, nothing is changed. -/

variable {A : Type} (goal : ListState → A → A) (start : ListState → Nat)
  (found : A → Candidate → Bool)

mutual

def moveTo (a : A) : CandidateList → Option CandidateList
  | mk state candidates =>
    let moved := moveToCandidates (goal state a) candidates
    let indices := (List.range candidates.length).map fun i =>
      (start state + i) % candidates.length
    indices.findSome? fun index =>
      (moved[index]?.join).map fun candidate =>
        mk { state with focusedIndex := index } (candidates.set index candidate)

/-- Each candidate as it is when it is what is looked for. -/
def moveToCandidates (a : A) : List Candidate → List (Option Candidate)
  | [] => []
  | .leaf id attributes :: candidates =>
    (if found a (.leaf id attributes) then some (.leaf id attributes) else none) ::
      moveToCandidates a candidates
  | .sub id attributes list :: candidates =>
    (match moveTo a list with
      | some list => some (.sub id attributes list)
      | none =>
        if found a (.sub id attributes list) then some (.sub id attributes list) else none) ::
      moveToCandidates a candidates

end

end Search

def found (list : CandidateList) : Option CandidateList → Bool × CandidateList
  | some list => (true, list)
  | none => (false, list)

def moveToAttributes (attributes : UInt32) (list : CandidateList) : Bool × CandidateList :=
  list.found (list.moveTo (fun _ attributes => attributes) ListState.focusedIndex
    Candidate.hasAttributes attributes)

def moveToId (id : Int) (list : CandidateList) : Bool × CandidateList :=
  list.found (list.moveTo (fun state id => (state.alternativeIds.lookup id).getD id) (fun _ => 0)
    (fun id candidate => candidate.id == id) id)

/-- The sum of the begin of the page and the index is one of 64 bits. -/
def moveToPageIndex (pageIndex : UInt64) (list : CandidateList) : Bool × CandidateList :=
  let (start, stop) := list.getPageRange list.focusedIndex
  let index := (start + pageIndex.toNat) % 2 ^ 64
  if index > stop then (false, list)
  else (true, (list.setFocusedIndex index).mapFocusedSub moveFirst)

mutual

/-- The focused candidate, in the lists that focused candidates stand for. There is none where the
focus is not one of the list. -/
def getDeepestFocusedCandidate : CandidateList → Option Candidate
  | mk state candidates => deepestFocusedCandidate candidates state.focusedIndex

def deepestFocusedCandidate : List Candidate → Nat → Option Candidate
  | [], _ => none
  | .leaf id attributes :: _, 0 => some (.leaf id attributes)
  | .sub _ _ list :: _, 0 => getDeepestFocusedCandidate list
  | _ :: candidates, index + 1 => deepestFocusedCandidate candidates index

end

end CandidateList

inductive Move where
  | first | last | next | prev | nextPage | prevPage
  | toId (id : Int)
  | toAttributes (attributes : UInt32)
  | toPageIndex (pageIndex : UInt64)

def Move.apply : Move → CandidateList → Bool × CandidateList
  | first, list => (true, list.moveFirst)
  | last, list => (true, list.moveLast)
  | next, list => list.moveNext
  | prev, list => list.movePrev
  | nextPage, list => list.moveNextPage
  | prevPage, list => list.movePrevPage
  | toId id, list => list.moveToId id
  | toAttributes attributes, list => list.moveToAttributes attributes
  | toPageIndex pageIndex, list => list.moveToPageIndex pageIndex

end Mozkey.Engine
