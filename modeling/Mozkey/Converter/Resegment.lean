import Mozkey.Base.ScriptType
import Mozkey.Converter.ScopedInsert

/-! The resegmentation rules of `converter/immutable_converter.cc`: a compound word of the lattice, of a
number and a suffix, of a prefix and a number, or of a last and a first name, gets a pair of nodes beside
it, the second constrained to the first. -/

namespace Mozkey.Converter

open Base

structure ResegmentModules where
  connector : Connector
  isNumber : Nat → Bool
  isBoundary : Node → Node → Bool → Bool
  firstNameId : Nat
  lastNameId : Nat

def isNumberByte (c : UInt8) : Bool := 0x30 ≤ c && c ≤ 0x39

def decomposeNumberAndSuffix (input : Bytes) : Bytes × Bytes :=
  let suffix := input.dropWhile isNumberByte
  (input.take (input.length - suffix.length), suffix)

def decomposePrefixAndNumber (input : Bytes) : Bytes × Bytes :=
  let pre := input.rdropWhile isNumberByte
  (pre, input.drop pre.length)

/-- The pair of nodes for the parts of a compound node, whose ids between them are zero. -/
def numberPair (compound : Node) (keys values : Bytes × Bytes) : Node × Node :=
  let wcost := max (compound.wcost.tdiv 2 - 1) 0
  ({ key := keys.1, value := values.1, lid := compound.lid, rid := 0, wcost := wcost },
    { key := keys.2, value := values.2, lid := 0, rid := compound.rid, wcost := wcost })

/-- The body of the loop of `ResegmentArabicNumberAndSuffix`. -/
def numberAndSuffix (modules : ResegmentModules) (compound : Node) : Option (Node × Node) :=
  if compound.value ≠ [] ∧ compound.key ≠ [] ∧ modules.isNumber compound.lid ∧
      ¬modules.isNumber compound.rid ∧ compound.value.head?.any isNumberByte ∧
      compound.key.head?.any isNumberByte then
    let values := decomposeNumberAndSuffix compound.value
    let keys := decomposeNumberAndSuffix compound.key
    if values.2 = [] ∨ keys.2 = [] then none
    else if values.1 ≠ keys.1 then none
    else some (numberPair compound keys values)
  else none

/-- The body of the loop of `ResegmentPrefixAndArabicNumber`. -/
def prefixAndNumber (compound : Node) : Option (Node × Node) :=
  if compound.value.length > 1 ∧ compound.key.length > 1 ∧
      ¬compound.value.head?.any isNumberByte ∧ ¬compound.key.head?.any isNumberByte ∧
      compound.value.getLast?.any isNumberByte ∧ compound.key.getLast?.any isNumberByte then
    let values := decomposePrefixAndNumber compound.value
    let keys := decomposePrefixAndNumber compound.key
    if values.1 = [] ∨ keys.1 = [] then none
    else if values.2 ≠ keys.2 then none
    else some (numberPair compound keys values)
  else none

section names

variable (modules : ResegmentModules) (l : Lattice)

def getCost (lnode rnode : Nat) : Int :=
  if (l.node rnode).constrainedPrev ≠ none ∧ some lnode ≠ (l.node rnode).constrainedPrev then 100000
  else modules.connector.getTransitionCost (l.node lnode).rid (l.node rnode).lid + (l.node rnode).wcost

def namesCost (names : Nat × Nat) : Int := (l.node names.1).wcost + getCost modules l names.1 names.2

def isLastNameOf (compound : Node) (lnode : Nat) : Bool :=
  compound.value.length > (l.node lnode).value.length &&
    compound.key.length > (l.node lnode).key.length &&
    (l.node lnode).value.isPrefixOf compound.value

def isFirstNameOf (compound : Node) (lnode rnode : Nat) : Bool :=
  (l.node lnode).value.length + (l.node rnode).value.length == compound.value.length &&
    (l.node lnode).value ++ (l.node rnode).value == compound.value &&
    modules.isBoundary (l.node lnode) (l.node rnode) false

/-- `best_last_name_node` and `best_first_name_node`, and `best_cost`. -/
abbrev BestNames := Option (Nat × Nat) × Int

/-- The search for the pair of a last and a first name of least cost. -/
def bestNames (pos : Nat) (compound : Node) : BestNames :=
  (l.beginNodes pos).foldl (fun best lnode =>
    if isLastNameOf l compound lnode then
      (l.beginNodes (pos + (l.node lnode).key.length)).foldl (fun best rnode =>
        if isFirstNameOf modules l compound lnode rnode then
          let cost := namesCost modules l (lnode, rnode)
          if cost < best.2 then (some (lnode, rnode), cost) else best
        else best) best
    else best) (none, 0x7fffffff)

/-- `compound_node` is a last name and a first name that the rule looks into. -/
def isPersonalName (compound : Node) : Bool :=
  compound.lid == modules.lastNameId && compound.rid == modules.firstNameId &&
    charsLen compound.value > 2 && Util.getScriptTypeOfText compound.value != .katakana

def isNamePos (compound : Node) (names : Nat × Nat) : Bool :=
  let len := charsLen compound.value
  let isLastName := (l.node names.1).lid == modules.lastNameId
  let isFirstName := (l.node names.2).rid == modules.firstNameId
  !(len ≥ 4 && (!isLastName && !isFirstName)) && !(len == 3 && (!isLastName || !isFirstName))

/-- The body of the loop of `ResegmentPersonalName`. -/
def personalName (pos : Nat) (compound : Node) : Option (Node × Node) :=
  if isPersonalName modules compound then
    match (bestNames modules l pos compound).1 with
    | none => none
    | some names =>
      if isNamePos modules l compound names then
        let transitionCost :=
          modules.connector.getTransitionCost modules.lastNameId modules.firstNameId
        let wcost := max ((compound.wcost - transitionCost).tdiv 2 - 1) 0
        some
          ({ key := (l.node names.1).key, value := (l.node names.1).value, lid := compound.lid,
             rid := modules.lastNameId, wcost := wcost },
           { key := (l.node names.2).key, value := (l.node names.2).value,
             lid := modules.firstNameId, rid := compound.rid, wcost := wcost })
      else none
  else none

end names

/-- A rule: the loop over the nodes of a position, and whether anything was inserted. -/
def resegment (parts : Node → Option (Node × Node)) (pos : Nat) (l : Lattice) : Bool × Lattice :=
  let inserter := (l.beginNodes pos).foldl (fun inserter compound =>
    match parts (l.node compound) with
    | some pair => inserter.insertPair pos pair
    | none => inserter) { lattice := l : ScopedLatticeNodeInserter }
  (inserter.isInserted, inserter.destruct)

def resegmentArabicNumberAndSuffix (modules : ResegmentModules) (pos : Nat) (l : Lattice) :
    Bool × Lattice :=
  resegment (numberAndSuffix modules) pos l

def resegmentPrefixAndArabicNumber (pos : Nat) (l : Lattice) : Bool × Lattice :=
  resegment prefixAndNumber pos l

def resegmentPersonalName (modules : ResegmentModules) (pos : Nat) (l : Lattice) : Bool × Lattice :=
  resegment (personalName modules l pos) pos l

end Mozkey.Converter
