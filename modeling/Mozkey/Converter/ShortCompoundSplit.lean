import Mozkey.Base.ScriptType
import Mozkey.Converter.NBestGenerator
import Mozkey.Converter.ScopedInsert

/-! `ApplyShortCompoundSplitGuard` of `converter/immutable_converter.cc`: where the input is two hiragana
letters, words of one letter and one kanji each get a penalty if a word for both letters competes with
the two of them. -/

namespace Mozkey.Converter

open Base

structure GuardModules where
  connector : Connector
  isUniqueNoun : Nat → Bool
  isNumber : Nat → Bool
  isKanjiNumber : Nat → Bool
  isCounterSuffixWord : Nat → Bool

def kMaxCost : Int := 32767

section nodes

variable (modules : GuardModules)

/-- The tests that the two kinds of words have in common but for the lengths. -/
def isKanjiWord (node : Node) (isLength : Bool) : Bool :=
  if node.nodeType ≠ .norNode then false
  else if node.attributes &&& NodeAttribute.userDictionary ≠ 0 then false
  else if node.key = [] ∨ node.value = [] then false
  else if node.key = node.value then false
  else if Util.getScriptTypeOfText node.key ≠ .hiragana then false
  else if ¬isLength then false
  else if ¬Util.containsScriptType node.value .kanji then false
  else if modules.isUniqueNoun node.lid ∨ modules.isUniqueNoun node.rid then false
  else true

def isOneKanaOneKanjiNode (node : Node) : Bool :=
  isKanjiWord modules node (charsLen node.key == 1 && charsLen node.value == 1)

def isShortWholeSpanCandidate (node : Node) : Bool :=
  isKanjiWord modules node (charsLen node.key == 2)

def isKanjiNumberNode (node : Node) : Bool :=
  modules.isKanjiNumber node.lid || modules.isKanjiNumber node.rid

def isNumericEvidenceNode (node : Node) : Bool :=
  (modules.isNumber node.lid || modules.isNumber node.rid) ||
    (modules.isKanjiNumber node.lid || modules.isKanjiNumber node.rid) ||
    (modules.isCounterSuffixWord node.lid || modules.isCounterSuffixWord node.rid)

def getShortCompoundSplitPenalty (node : Node) : Int :=
  let penalty : Int := 1600
  let penalty :=
    if isKanjiNumberNode modules node || isNumericEvidenceNode modules node then penalty - 700
    else penalty
  max 0 penalty

theorem getShortCompoundSplitPenalty_pos (node : Node) :
    0 < getShortCompoundSplitPenalty modules node := by
  rw [getShortCompoundSplitPenalty]
  split <;> decide

end nodes

def isTwoHiraganaCharSpan (text : Bytes) : Bool :=
  Util.getScriptTypeOfText text = .hiragana && charsLen text == 2

def hasCompetitiveShortWholeSpanCandidate (modules : GuardModules) (lattice : Lattice)
    (left right : Nat) : Bool :=
  let leftNode := lattice.node left
  let rightNode := lattice.node right
  if leftNode.endPos ≠ rightNode.beginPos then false
  else
    let spanKey :=
      (lattice.key.drop leftNode.beginPos).take (rightNode.endPos - leftNode.beginPos)
    if charsLen spanKey ≠ 2 then false
    else
      let splitCost := leftNode.wcost +
        modules.connector.getTransitionCost leftNode.rid rightNode.lid + rightNode.wcost
      let bestWholeCost := (lattice.beginNodes leftNode.beginPos).foldl (fun best whole =>
        if whole = left ∨ whole = right then best
        else if (lattice.node whole).endPos ≠ rightNode.endPos then best
        else if ¬isShortWholeSpanCandidate modules (lattice.node whole) then best
        else min best (lattice.node whole).wcost) kMaxCost
      if bestWholeCost = kMaxCost then false else bestWholeCost - splitCost ≤ 2302

structure SplitGuard where
  lattice : Lattice
  penalized : List Nat := []

section guard

variable (modules : GuardModules)

/-- Penalizes a node unless it was penalized before. -/
def SplitGuard.penalize (s : SplitGuard) (v : Nat) : SplitGuard :=
  if v ∈ s.penalized then s
  else
    let n := s.lattice.node v
    { lattice := { s.lattice with
        node := Function.update s.lattice.node v
          { n with wcost := n.wcost + getShortCompoundSplitPenalty modules n } }
      penalized := v :: s.penalized }

def SplitGuard.right (left : Nat) (s : SplitGuard) (right : Nat) : SplitGuard :=
  let keySize := s.lattice.key.length
  let n := s.lattice.node right
  if ¬isOneKanaOneKanjiNode modules n then s
  else if n.endPos ≤ n.beginPos ∨ keySize < n.endPos then s
  else if n.endPos ≠ keySize then s
  else if ¬hasCompetitiveShortWholeSpanCandidate modules s.lattice left right then s
  else (s.penalize modules left).penalize modules right

def SplitGuard.left (s : SplitGuard) (left : Nat) : SplitGuard :=
  let n := s.lattice.node left
  if ¬isOneKanaOneKanjiNode modules n then s
  else if n.endPos ≤ n.beginPos ∨ s.lattice.key.length < n.endPos then s
  else (s.lattice.beginNodes n.endPos).foldl (SplitGuard.right modules left) s

def applyShortCompoundSplitGuard (historyKey : Bytes) (lattice : Lattice) : Lattice :=
  let conversionBeginPos := historyKey.length
  if lattice.key.length ≤ conversionBeginPos then lattice
  else if ¬isTwoHiraganaCharSpan (lattice.key.drop conversionBeginPos) then lattice
  else ((lattice.beginNodes conversionBeginPos).foldl (SplitGuard.left modules)
    { lattice := lattice }).lattice

end guard

end Mozkey.Converter
