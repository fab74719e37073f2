import Mathlib
import Mozkey.Lib.PrefixTree
import Mozkey.Storage.Louds.BitStream

/-! `LoudsTrieBuilder`, and the tree of prefixes that its streams hold level by level. -/

namespace Mozkey.Storage

open Lib

structure Entry where
  word : Bytes
  originalIndex : Nat
  deriving DecidableEq

structure BuildState where
  trieStream : BitStream := {}
  terminalStream : BitStream := {}
  edgeCharacter : Bytes := []
  idList : List Int := []
  id : Nat := 0
  deriving DecidableEq

namespace BuildState

def start (size : Nat) : BuildState :=
  { trieStream := (({} : BitStream).pushBit true).pushBit false
    terminalStream := ({} : BitStream).pushBit false
    edgeCharacter := [0]
    idList := List.replicate size (-1) }

/-- The output of an edge to the node of the prefix of length `depth + 1`. -/
def pushEdge (depth : Nat) (entry : Entry) (st : BuildState) : BuildState :=
  let st :=
    { st with
      trieStream := st.trieStream.pushBit true
      edgeCharacter := st.edgeCharacter ++ [entry.word.getD depth 0] }
  if entry.word.length = depth + 1 then
    { st with
      terminalStream := st.terminalStream.pushBit true
      idList := st.idList.set entry.originalIndex st.id
      id := st.id + 1 }
  else { st with terminalStream := st.terminalStream.pushBit false }

def pushStop (st : BuildState) : BuildState :=
  { st with trieStream := st.trieStream.pushBit false }

end BuildState

/-- Whether the previous entry has another prefix of length `depth + 1`. -/
def isFirst (depth : Nat) (previous : Option Entry) (entry : Entry) : Bool :=
  match previous with
  | none => true
  | some previous => entry.word.take (depth + 1) ≠ previous.word.take (depth + 1)

/-- Whether the next entry has another prefix of length `depth`. -/
def isLast (depth : Nat) (entry : Entry) (rest : List Entry) : Bool :=
  match rest with
  | [] => true
  | next :: _ => entry.word.take depth ≠ next.word.take depth

def buildLevel (depth : Nat) : Option Entry → List Entry → BuildState → BuildState
  | _, [], st => st
  | previous, entry :: rest, st =>
    let st := if entry.word.length > depth ∧ isFirst depth previous entry then
      st.pushEdge depth entry else st
    let st := if isLast depth entry rest then st.pushStop else st
    buildLevel depth (some entry) rest st

def buildLevels : Nat → Nat → List Entry → BuildState → Option BuildState
  | _, _, [], st => some st
  | 0, _, _ :: _, _ => none
  | fuel + 1, depth, entry :: rest, st =>
    buildLevels fuel (depth + 1)
      ((entry :: rest).filter fun entry => ¬ entry.word.length < depth + 1)
      (buildLevel depth none (entry :: rest) st)

def sortWords (words : List Bytes) : List Bytes :=
  (words.insertionSort (· ≤ ·)).destutter (· ≠ ·)

def maxLength (words : List Bytes) : Nat := words.foldr (fun word n => max word.length n) 0

structure LoudsTrieBuilder where
  built : Bool := false
  wordList : List Bytes := []
  idList : List Int := []
  image : Bytes := []
  deriving DecidableEq

namespace LoudsTrieBuilder

variable (builder : LoudsTrieBuilder)

def add (word : Bytes) : Option LoudsTrieBuilder :=
  if builder.built ∨ word = [] then none
  else some { builder with wordList := builder.wordList ++ [word] }

def buildStreams (wordList : List Bytes) : Option BuildState :=
  buildLevels (maxLength wordList + 2) 0 (wordList.zipIdx.map fun (word, i) => ⟨word, i⟩)
    (BuildState.start wordList.length)

def output (trieImage terminalImage edgeCharacter image : Bytes) : Option Bytes := do
  let image ← pushInt32 trieImage.length image
  let image ← pushInt32 terminalImage.length image
  let image ← pushInt32 8 image
  let image ← pushInt32 edgeCharacter.length image
  some (image ++ trieImage ++ terminalImage ++ edgeCharacter)

def build : Option LoudsTrieBuilder :=
  if builder.built then none
  else do
    let wordList := sortWords builder.wordList
    let st ← buildStreams wordList
    let trieStream := st.trieStream.fillPadding32
    let terminalStream := st.terminalStream.fillPadding32
    let image ← output trieStream.image terminalStream.image st.edgeCharacter builder.image
    some { built := true, wordList := wordList, idList := st.idList, image := image }

def getId (word : Bytes) : Option Int :=
  if builder.built then
    let i := (builder.wordList.takeWhile (· < word)).length
    if builder.wordList[i]? = some word then builder.idList[i]? else some (-1)
  else none

/-- Adding words to a fresh builder, and building. -/
def ofWords (words : List Bytes) : Option LoudsTrieBuilder := do
  let builder ← words.foldlM add {}
  builder.build

end LoudsTrieBuilder

section

variable {words : List Bytes}

theorem pairwise_sortWords (words : List Bytes) : (sortWords words).Pairwise (· < ·) := by
  have hle := List.pairwise_insertionSort (· ≤ ·) words
  have hne : (sortWords words).Pairwise (· ≠ ·) := by
    rw [sortWords, hle.destutter_eq_dedup]
    exact List.nodup_dedup _
  refine ((hle.sublist (List.destutter_sublist _ _)).and hne).imp fun h => ?_
  exact (List.le_iff_lt_or_eq.mp h.1).resolve_right h.2

theorem mem_sortWords {word : Bytes} : word ∈ sortWords words ↔ word ∈ words := by
  rw [sortWords, (List.pairwise_insertionSort (· ≤ ·) words).destutter_eq_dedup, List.mem_dedup,
    List.mem_insertionSort]

theorem length_le_maxLength {word : Bytes} (h : word ∈ words) : word.length ≤ maxLength words := by
  induction words with
  | nil => cases h
  | cons first words ih =>
    rw [maxLength, List.foldr_cons, ← maxLength]
    rcases List.mem_cons.mp h with rfl | h
    · exact Nat.le_max_left _ _
    · exact le_trans (ih h) (Nat.le_max_right _ _)

end

section

variable {d : Nat} {p q : Bytes}

/-- A stop bit, if the next entry has another parent. -/
def stopIf (last : Bool) (st : BuildState) : BuildState := if last then st.pushStop else st

theorem buildLevel_node {entries : List Entry} (hne : entries ≠ [])
    (hentries : ∀ e ∈ entries, d < e.word.length ∧ e.word.take (d + 1) = q)
    (previous : Option Entry) (rest : List Entry) (st : BuildState) :
    ∃ first last, entries.head? = some first ∧ last ∈ entries ∧
      buildLevel d previous (entries ++ rest) st = buildLevel d (some last) rest
        (stopIf (isLast d last rest)
          (if isFirst d previous first then st.pushEdge d first else st)) := by
  induction entries generalizing previous st with
  | nil => exact absurd rfl hne
  | cons first entries ih =>
    have hfirst := hentries first List.mem_cons_self
    cases entries with
    | nil =>
      refine ⟨first, first, rfl, List.mem_singleton_self first, ?_⟩
      rw [List.singleton_append, buildLevel]
      simp only [hfirst.1, true_and, stopIf]
    | cons second entries =>
      have hsecond := hentries second (by simp)
      obtain ⟨_, last, hhead, hmem, heq⟩ := ih (List.cons_ne_nil _ _)
        (fun e he => hentries e (List.mem_cons_of_mem _ he)) (some first)
        (if isFirst d previous first then st.pushEdge d first else st)
      obtain rfl := Option.some.inj hhead
      refine ⟨first, last, rfl, List.mem_cons_of_mem _ hmem, ?_⟩
      have hsame : isFirst d (some first) second = false := by
        simp [isFirst, hfirst.2, hsecond.2]
      have hnotLast : isLast d first (second :: entries ++ rest) = false := by
        have htake := congrArg (List.take d) (hfirst.2.trans hsecond.2.symm)
        rw [List.take_take, List.take_take, Nat.min_eq_left (Nat.le_succ d)] at htake
        simp [isLast, htake]
      rw [hsame] at heq
      simp only [Bool.false_eq_true, if_false] at heq
      rw [List.cons_append, buildLevel]
      simp only [hfirst.1, true_and, hnotLast, Bool.false_eq_true, if_false]
      exact heq

theorem buildLevel_children {qs : List Bytes} (hne : qs ≠ []) (hnodup : qs.Nodup)
    {below : Bytes → List Entry} {first : Bytes → Entry}
    (hhead : ∀ q ∈ qs, (below q).head? = some (first q))
    (hbelow : ∀ q ∈ qs, ∀ e ∈ below q,
      d < e.word.length ∧ e.word.take (d + 1) = q ∧ e.word.take d = p)
    {previous : Option Entry} (hprevious : ∀ e, previous = some e → e.word.take (d + 1) ∉ qs)
    {rest : List Entry} (hrest : ∀ e tail, rest = e :: tail → e.word.take d ≠ p) (st : BuildState) :
    ∃ last, last.word.take d = p ∧
      buildLevel d previous (qs.flatMap below ++ rest) st = buildLevel d (some last) rest
        (qs.foldl (fun st q => st.pushEdge d (first q)) st).pushStop := by
  induction qs generalizing previous st with
  | nil => exact absurd rfl hne
  | cons q qs ih =>
    have hq := hbelow q List.mem_cons_self
    have hqhead := hhead q List.mem_cons_self
    obtain ⟨_, last, hfirst, hlast, heq⟩ := buildLevel_node (q := q) (d := d) (fun hnil => by simp [hnil] at hqhead)
      (fun e he => ⟨(hq e he).1, (hq e he).2.1⟩) previous (qs.flatMap below ++ rest) st
    obtain rfl := Option.some.inj (hqhead.symm.trans hfirst)
    have hnew : isFirst d previous (first q) = true := by
      cases hprev : previous with
      | none => rfl
      | some e =>
        have := hprevious e hprev
        have hmem : first q ∈ below q := List.mem_of_head? hqhead
        rw [isFirst, (hq _ hmem).2.1]
        simp only [decide_eq_true_eq, ne_eq]
        rintro rfl
        exact this List.mem_cons_self
    rw [hnew, if_pos rfl] at heq
    rw [List.flatMap_cons, List.append_assoc, heq, List.foldl_cons]
    rw [List.nodup_cons] at hnodup
    cases qs with
    | nil =>
      have hstop : isLast d last rest = true := by
        cases hr : rest with
        | nil => rfl
        | cons e tail =>
          rw [isLast, (hq last hlast).2.2]
          exact decide_eq_true fun h => hrest e tail hr h.symm
      refine ⟨last, (hq last hlast).2.2, ?_⟩
      rw [List.flatMap_nil, List.nil_append, hstop]
      rfl
    | cons q' qs =>
      have hq' := hhead q' (by simp)
      obtain ⟨tail, htail⟩ := List.head?_eq_some_iff.mp hq'
      have hstop : isLast d last ((q' :: qs).flatMap below ++ rest) = false := by
        rw [List.flatMap_cons, htail]
        simp only [List.cons_append, isLast, (hq last hlast).2.2,
          (hbelow q' (by simp) (first q') (by simp [htail])).2.2]
        simp
      rw [hstop, stopIf, if_neg (by decide)]
      refine ih (List.cons_ne_nil _ _) hnodup.2 (fun r hr => hhead r (List.mem_cons_of_mem _ hr))
        (fun r hr => hbelow r (List.mem_cons_of_mem _ hr)) (fun e he => ?_) _
      obtain rfl := Option.some.inj he
      rw [(hq last hlast).2.1]
      exact hnodup.1

variable {words : List Bytes}

def entryOf (words : List Bytes) (word : Bytes) : Entry := ⟨word, words.idxOf word⟩

def entriesBelow (words : List Bytes) (p : Bytes) : List Entry :=
  (wordsBelow words p).map (entryOf words)

/-- The entry that gives the edge to a node: the first one below it. -/
def firstEntry (words : List Bytes) (p : Bytes) : Entry := (entriesBelow words p).headD ⟨[], 0⟩

theorem head?_entriesBelow (h : ∃ w ∈ words, p <+: w) :
    (entriesBelow words p).head? = some (firstEntry words p) := by
  obtain ⟨w, hw, hp⟩ := h
  have hne : entriesBelow words p ≠ [] :=
    List.ne_nil_of_mem (List.mem_map_of_mem (mem_wordsBelow.mpr ⟨hw, hp⟩))
  obtain ⟨e, rest, he⟩ := List.exists_cons_of_ne_nil hne
  rw [firstEntry, he]
  rfl

theorem mem_entriesBelow {e : Entry} (h : e ∈ entriesBelow words p) :
    e.word ∈ words ∧ p <+: e.word ∧ e.word.take p.length = p ∧ e = entryOf words e.word := by
  obtain ⟨w, hw, rfl⟩ := List.mem_map.mp h
  obtain ⟨hmem, hp⟩ := mem_wordsBelow.mp hw
  exact ⟨hmem, hp, (List.prefix_iff_eq_take.mp hp).symm, rfl⟩

theorem firstEntry_word (hwords : words.Pairwise (· < ·)) (h : ∃ w ∈ words, p <+: w) :
    (firstEntry words p).word.length = p.length ↔ p ∈ words := by
  have hmem := mem_entriesBelow (List.mem_of_head? (head?_entriesBelow h))
  constructor
  · intro hlength
    have := hmem.2.2.1
    rw [← hlength, List.take_length] at this
    exact this ▸ hmem.1
  · intro hp
    rw [firstEntry, entriesBelow, wordsBelow_eq hwords, if_pos hp]
    rfl

/-- The edges of a parent's children and its stop bit. -/
def pushChildren (words : List Bytes) (d : Nat) (p : Bytes) (st : BuildState) : BuildState :=
  ((extensions words p).foldl (fun st q => st.pushEdge d (firstEntry words q)) st).pushStop

theorem buildLevel_parent (hwords : words.Pairwise (· < ·)) (hp : p.length = d)
    (hne : wordsBelow words p ≠ []) {previous : Option Entry}
    (hprevious : ∀ e, previous = some e → e.word.take d ≠ p) {rest : List Entry}
    (hrest : ∀ e tail, rest = e :: tail → e.word.take d ≠ p) (st : BuildState) :
    ∃ last, last.word.take d = p ∧
      buildLevel d previous (entriesBelow words p ++ rest) st =
        buildLevel d (some last) rest (pushChildren words d p st) := by
  have hchildren : ∀ previous : Option Entry, extensions words p ≠ [] →
      (∀ e, previous = some e → e.word.take (d + 1) ∉ extensions words p) → ∀ st : BuildState,
      ∃ last, last.word.take d = p ∧
        buildLevel d previous ((extensions words p).flatMap (entriesBelow words) ++ rest) st =
          buildLevel d (some last) rest (pushChildren words d p st) := by
    intro previous hext hprev st
    refine buildLevel_children hext (nodup_extensions words p)
      (fun q hq => head?_entriesBelow ?_) (fun q hq e he => ?_) hprev hrest st
    · obtain ⟨_, -, hw⟩ := mem_extensions.mp hq
      exact hw
    · obtain ⟨c, rfl, -⟩ := mem_extensions.mp hq
      obtain ⟨-, hpre, htake, -⟩ := mem_entriesBelow he
      have hlength := hpre.length_le
      rw [List.length_append, List.length_singleton, hp] at hlength htake
      refine ⟨hlength, htake, ?_⟩
      have := congrArg (List.take d) htake
      rwa [List.take_take, Nat.min_eq_left (Nat.le_succ d), List.take_left' hp] at this
  have hbelow : entriesBelow words p = (if p ∈ words then [entryOf words p] else []) ++
      (extensions words p).flatMap (entriesBelow words) := by
    rw [entriesBelow, wordsBelow_eq hwords, List.map_append, List.map_flatMap]
    split <;> rfl
  rw [hbelow]
  by_cases hmem : p ∈ words
  · rw [if_pos hmem, List.append_assoc, List.singleton_append, buildLevel]
    have hlength : ¬ (entryOf words p).word.length > d := by
      show ¬ p.length > d
      omega
    simp only [hlength, false_and, if_false]
    by_cases hext : extensions words p = []
    · have hstop : isLast d (entryOf words p) rest = true := by
        cases hr : rest with
        | nil => rfl
        | cons e tail =>
          refine decide_eq_true fun h => hrest e tail hr (h.symm.trans ?_)
          exact List.take_of_length_le (by omega)
      rw [hext, List.flatMap_nil, List.nil_append, hstop, if_pos rfl]
      refine ⟨entryOf words p, List.take_of_length_le (by omega), ?_⟩
      rw [pushChildren, hext]
      rfl
    · have hstop : isLast d (entryOf words p)
          ((extensions words p).flatMap (entriesBelow words) ++ rest) = false := by
        obtain ⟨q, qs, hqs⟩ := List.exists_cons_of_ne_nil hext
        have hq : q ∈ extensions words p := by simp [hqs]
        obtain ⟨c, rfl, hw⟩ := mem_extensions.mp hq
        obtain ⟨tail, htail⟩ := List.head?_eq_some_iff.mp (head?_entriesBelow hw)
        have hfirst := mem_entriesBelow (List.mem_of_head? (head?_entriesBelow hw))
        have htake := congrArg (List.take d) hfirst.2.2.1
        rw [List.length_append, List.length_singleton, hp, List.take_take,
          Nat.min_eq_left (Nat.le_succ d), List.take_left' hp] at htake
        rw [hqs, List.flatMap_cons, htail]
        refine decide_eq_false (not_not_intro ?_)
        rw [htake]
        exact List.take_of_length_le (by omega)
      rw [hstop, if_neg (by decide)]
      refine hchildren _ hext (fun e he => ?_) st
      obtain rfl := Option.some.inj he
      intro hin
      have := length_of_mem_extensions hin
      rw [List.length_take] at this
      have : (entryOf words p).word.length = d := hp
      omega
  · rw [if_neg hmem, List.nil_append]
    refine hchildren previous (fun hext => ?_) (fun e he hin => ?_) st
    · rw [wordsBelow_eq hwords, if_neg hmem, hext] at hne
      exact hne rfl
    · obtain ⟨c, heq, -⟩ := mem_extensions.mp hin
      have := congrArg (List.take d) heq
      rw [List.take_take, Nat.min_eq_left (Nat.le_succ d), List.take_left' hp] at this
      exact hprevious e he this

theorem buildLevel_parents (hwords : words.Pairwise (· < ·)) {ps : List Bytes} (hnodup : ps.Nodup)
    (hps : ∀ p ∈ ps, p.length = d ∧ wordsBelow words p ≠ []) {previous : Option Entry}
    (hprevious : ∀ e, previous = some e → e.word.take d ∉ ps) (st : BuildState) :
    buildLevel d previous (ps.flatMap (entriesBelow words)) st =
      ps.foldl (fun st p => pushChildren words d p st) st := by
  induction ps generalizing previous st with
  | nil => simp [buildLevel]
  | cons p ps ih =>
    obtain ⟨hp, hne⟩ := hps p List.mem_cons_self
    rw [List.nodup_cons] at hnodup
    obtain ⟨last, hlast, heq⟩ := buildLevel_parent hwords hp hne
      (fun e he h => hprevious e he (h ▸ List.mem_cons_self))
      (fun e tail (htail : ps.flatMap (entriesBelow words) = e :: tail) h => by
        have hmem : e ∈ ps.flatMap (entriesBelow words) := by rw [htail]; exact List.mem_cons_self
        obtain ⟨q, hq, he⟩ := List.mem_flatMap.mp hmem
        have := (mem_entriesBelow he).2.2.1
        rw [(hps q (List.mem_cons_of_mem p hq)).1, h] at this
        exact hnodup.1 (this ▸ hq)) st
    rw [List.flatMap_cons, heq, List.foldl_cons]
    refine ih hnodup.2 (fun q hq => hps q (List.mem_cons_of_mem p hq)) (fun e he => ?_) _
    obtain rfl := Option.some.inj he
    rw [hlast]
    exact hnodup.1

end

section

variable {words : List Bytes} {st : BuildState} {bits : List Bool} {nodes : List Bytes}
  {d : Nat} {p q : Bytes}

/-- What the build holds when it has pushed the nodes `nodes`, the root included. -/
structure Built (words : List Bytes) (st : BuildState) (bits : List Bool) (nodes : List Bytes) :
    Prop where
  trie : st.trieStream.Holds bits
  terminal : st.terminalStream.Holds (nodes.map fun p => decide (p ∈ words))
  edge : st.edgeCharacter = nodes.map fun p => p.getLastD 0
  id : st.id = (nodes.filter (· ∈ words)).length
  length : st.idList.length = words.length
  ids : ∀ (i : Nat) (w : Bytes), words[i]? = some w → st.idList[i]? =
    some (if w ∈ nodes then ((nodes.filter (· ∈ words)).idxOf w : Int) else -1)

theorem built_start (h : ∀ w ∈ words, w ≠ []) :
    Built words (BuildState.start words.length) [true, false] [[]] := by
  have hnil : ([] : Bytes) ∉ words := fun hmem => h [] hmem rfl
  refine
    { trie := ((BitStream.holds_nil.pushBit true).pushBit false)
      terminal := by
        rw [List.map_singleton, decide_eq_false hnil]
        exact BitStream.holds_nil.pushBit false
      edge := rfl
      id := by simp [hnil, BuildState.start]
      length := by simp [BuildState.start]
      ids := fun i w hw => ?_ }
  obtain ⟨hi, rfl⟩ := List.getElem?_eq_some_iff.mp hw
  rw [if_neg (by simpa using h _ (List.getElem_mem hi)), BuildState.start]
  simp [hi]

theorem Built.pushStop (h : Built words st bits nodes) :
    Built words st.pushStop (bits ++ [false]) nodes :=
  { h with trie := h.trie.pushBit false }

theorem Built.pushEdge (hwords : words.Pairwise (· < ·)) (h : Built words st bits nodes)
    (hp : p.length = d) (hq : q ∈ extensions words p) (hnew : q ∉ nodes) :
    Built words (st.pushEdge d (firstEntry words q)) (bits ++ [true]) (nodes ++ [q]) := by
  obtain ⟨c, rfl, hw⟩ := mem_extensions.mp hq
  have hfirst := mem_entriesBelow (List.mem_of_head? (head?_entriesBelow hw))
  have hterminal := firstEntry_word hwords hw
  have hlabel : (firstEntry words (p ++ [c])).word.getD d 0 = c := by
    obtain ⟨t, ht⟩ := hfirst.2.1
    rw [← ht, ← hp]
    simp
  have hnodup : words.Nodup := nodup_of_pairwise_lt hwords
  rw [List.length_append, List.length_singleton, hp] at hterminal
  unfold BuildState.pushEdge
  by_cases hmem : p ++ [c] ∈ words
  · have hword : (firstEntry words (p ++ [c])).word = p ++ [c] := by
      have := hfirst.2.2.1
      rwa [List.take_of_length_le (by rw [hterminal.mpr hmem]; simp [hp])] at this
    have hindex : (firstEntry words (p ++ [c])).originalIndex = words.idxOf (p ++ [c]) := by
      rw [hfirst.2.2.2, hword]
      rfl
    simp only [hterminal.mpr hmem, if_true]
    refine
      { trie := h.trie.pushBit true
        terminal := by
          rw [List.map_append, List.map_singleton, decide_eq_true hmem]
          exact h.terminal.pushBit true
        edge := by rw [h.edge, hlabel]; simp
        id := by simp [h.id, hmem]
        length := by rw [List.length_set, h.length]
        ids := fun i w hw => ?_ }
    have hkey : (nodes ++ [p ++ [c]]).filter (· ∈ words) =
        nodes.filter (· ∈ words) ++ [p ++ [c]] := by simp [hmem]
    dsimp only
    rw [hkey, hindex]
    obtain ⟨hi, rfl⟩ := List.getElem?_eq_some_iff.mp hw
    by_cases heq : words[i] = p ++ [c]
    · rw [← heq, hnodup.idxOf_getElem, List.getElem?_set_self (by rw [h.length]; exact hi),
        if_pos (by simp), List.idxOf_append_of_notMem (by simp [heq, hnew]), h.id]
      simp
    · have hne : words.idxOf (p ++ [c]) ≠ i := by
        rintro rfl
        exact heq (List.getElem_idxOf hi)
      rw [List.getElem?_set_ne hne, h.ids i _ hw]
      by_cases hin : words[i] ∈ nodes
      · rw [if_pos hin, if_pos (List.mem_append_left _ hin), List.idxOf_append_of_mem]
        simp [hin]
      · rw [if_neg hin, if_neg (by simp [hin, heq])]
  · have hnot : (firstEntry words (p ++ [c])).word.length ≠ d + 1 := mt hterminal.mp hmem
    have hkey : (nodes ++ [p ++ [c]]).filter (· ∈ words) = nodes.filter (· ∈ words) := by
      simp [hmem]
    rw [if_neg hnot]
    refine
      { trie := h.trie.pushBit true
        terminal := by
          rw [List.map_append, List.map_singleton, decide_eq_false hmem]
          exact h.terminal.pushBit false
        edge := by rw [h.edge, hlabel]; simp
        id := by rw [hkey, ← h.id]
        length := h.length
        ids := fun i w hw => ?_ }
    have hne : w ≠ p ++ [c] := by
      rintro rfl
      exact hmem (List.mem_of_getElem? hw)
    rw [hkey, h.ids i w hw]
    simp [hne]

theorem Built.pushEdges (hwords : words.Pairwise (· < ·)) (hp : p.length = d) {qs : List Bytes}
    (hqs : ∀ q ∈ qs, q ∈ extensions words p) (hnodup : (nodes ++ qs).Nodup)
    (h : Built words st bits nodes) :
    Built words (qs.foldl (fun st q => st.pushEdge d (firstEntry words q)) st)
      (bits ++ List.replicate qs.length true) (nodes ++ qs) := by
  induction qs generalizing st bits nodes with
  | nil => simpa using h
  | cons q qs ih =>
    have hnew : q ∉ nodes := fun hmem =>
      (List.nodup_append.mp hnodup).2.2 q hmem q List.mem_cons_self rfl
    have hedge := h.pushEdge hwords hp (hqs q List.mem_cons_self) hnew
    rw [List.append_cons] at hnodup ⊢
    rw [List.foldl_cons, List.length_cons, List.replicate_succ, List.append_cons]
    exact ih (fun r hr => hqs r (List.mem_cons_of_mem q hr)) hnodup hedge

theorem Built.pushLevel (hwords : words.Pairwise (· < ·)) {ps : List Bytes}
    (hps : ∀ p ∈ ps, p.length = d) (hnodup : (nodes ++ ps.flatMap (extensions words)).Nodup)
    (h : Built words st bits nodes) :
    Built words (ps.foldl (fun st p => pushChildren words d p st) st)
      (bits ++ (degrees (extensions words) ps).flatMap degreeBits)
      (nodes ++ ps.flatMap (extensions words)) := by
  induction ps generalizing st bits nodes with
  | nil => simpa [degrees] using h
  | cons p ps ih =>
    rw [List.flatMap_cons, ← List.append_assoc] at hnodup ⊢
    have hchildren := (h.pushEdges hwords (hps p List.mem_cons_self) (fun q hq => hq)
      (List.nodup_append.mp hnodup).1).pushStop
    rw [List.foldl_cons, degrees, List.map_cons, List.flatMap_cons, degreeBits,
      ← List.append_assoc bits, ← List.append_assoc bits]
    exact ih (fun r hr => hps r (List.mem_cons_of_mem p hr)) hnodup hchildren

variable (words) in
/-- The nodes of the tree in the order of their ids. -/
def prefixes : List Bytes := levels (extensions words) [] (maxLength words + 1)

theorem levelOrder_prefixes (words : List Bytes) :
    LevelOrder (extensions words) [] (prefixes words) :=
  ⟨levels_of_empty (level_of_length_lt (Nat.succ_pos _) fun _ hw =>
    Nat.lt_succ_of_le (length_le_maxLength hw))⟩

theorem mem_prefixes : p ∈ prefixes words ↔ p = [] ∨ ∃ w ∈ words, p <+: w := by
  rw [prefixes, mem_levels, and_iff_right_iff_imp]
  rintro (rfl | ⟨w, hw, hp⟩)
  · exact Nat.succ_pos _
  · exact Nat.lt_succ_of_le (hp.length_le.trans (length_le_maxLength hw))

theorem mem_prefixes_of_mem (h : p ∈ words) : p ∈ prefixes words :=
  mem_prefixes.mpr (Or.inr ⟨p, h, List.prefix_refl p⟩)

theorem louds_levels_succ (d : Nat) :
    louds (degrees (extensions words) (levels (extensions words) [] (d + 1))) =
      louds (degrees (extensions words) (levels (extensions words) [] d)) ++
        (degrees (extensions words) (level (extensions words) [] d)).flatMap degreeBits := by
  rw [levels_succ, louds, louds, degrees, degrees, degrees, List.map_append, List.flatMap_append]
  rfl

theorem buildLevels_eq (hwords : words.Pairwise (· < ·)) {fuel : Nat}
    (hfuel : maxLength words + 2 ≤ fuel + d)
    (h : Built words st (louds (degrees (extensions words) (levels (extensions words) [] d)))
      (levels (extensions words) [] (d + 1))) :
    ∃ st' D, buildLevels fuel d ((words.filter fun w => d ≤ w.length).map (entryOf words)) st =
        some st' ∧ (∀ w ∈ words, w.length < D) ∧
      Built words st' (louds (degrees (extensions words) (levels (extensions words) [] D)))
        (levels (extensions words) [] (D + 1)) := by
  have hall : (words.filter fun w => d ≤ w.length) = [] → ∀ w ∈ words, w.length < d := by
    intro hnil w hw
    by_contra hlt
    have : w ∈ words.filter fun w => d ≤ w.length := List.mem_filter.mpr ⟨hw, by simpa using hlt⟩
    rw [hnil] at this
    cases this
  induction fuel generalizing d st with
  | zero =>
    have hnil : (words.filter fun w => d ≤ w.length) = [] := by
      refine List.filter_eq_nil_iff.mpr fun w hw => ?_
      have := length_le_maxLength hw
      rw [decide_eq_true_iff]
      omega
    rw [hnil, List.map_nil, buildLevels]
    exact ⟨st, d, rfl, hall hnil, h⟩
  | succ fuel ih =>
    cases hentries : words.filter fun w => d ≤ w.length with
    | nil => exact ⟨st, d, by rw [List.map_nil, buildLevels], hall hentries, h⟩
    | cons w ws =>
      have hw : w ∈ words := (List.mem_filter.mp (hentries ▸ List.mem_cons_self)).1
      have hnext : ((entryOf words w :: ws.map (entryOf words)).filter
          fun entry => ¬ entry.word.length < d + 1) =
            (words.filter fun w => d + 1 ≤ w.length).map (entryOf words) := by
        rw [← List.map_cons, ← hentries, List.filter_map, List.filter_filter]
        congr 1
        refine List.filter_congr fun w _ => ?_
        have hiff : (¬ (entryOf words w).word.length < d + 1 ∧ d ≤ w.length) ↔ d + 1 ≤ w.length := by
          show (¬ w.length < d + 1 ∧ d ≤ w.length) ↔ d + 1 ≤ w.length
          omega
        rw [Function.comp_apply, ← Bool.decide_and, decide_eq_decide]
        exact hiff
      have hlevel : entryOf words w :: ws.map (entryOf words) =
          (level (extensions words) [] d).flatMap (entriesBelow words) := by
        rw [← List.map_cons, ← hentries, ← level_flatMap_wordsBelow hwords, List.map_flatMap]
        rfl
      have hps : ∀ p ∈ level (extensions words) [] d, p.length = d ∧ wordsBelow words p ≠ [] := by
        intro p hp
        obtain ⟨hlength, hbelow⟩ := mem_level.mp hp
        refine ⟨hlength, ?_⟩
        rcases hbelow with rfl | ⟨w', hw', hp'⟩
        · obtain rfl := List.length_eq_zero_iff.mp hlength
          exact List.ne_nil_of_mem (mem_wordsBelow.mpr ⟨hw, List.nil_prefix⟩)
        · exact List.ne_nil_of_mem (mem_wordsBelow.mpr ⟨hw', hp'⟩)
      have hnodup := @nodup_levels _ _ words (d + 2)
      rw [levels_succ, level] at hnodup
      have hbuilt := h.pushLevel hwords (fun p hp => (hps p hp).1) hnodup
      rw [← louds_levels_succ, ← level, ← levels_succ] at hbuilt
      rw [List.map_cons, buildLevels, hnext, hlevel, buildLevel_parents hwords (nodup_level d) hps
        (by simp)]
      refine ih (by omega) hbuilt fun hnil w hw => ?_
      by_contra hlt
      have : w ∈ words.filter fun w => d + 1 ≤ w.length :=
        List.mem_filter.mpr ⟨hw, by simpa using hlt⟩
      rw [hnil] at this
      cases this

theorem zipIdx_map_entry (hnodup : words.Nodup) :
    (words.zipIdx.map fun (word, i) => (⟨word, i⟩ : Entry)) = words.map (entryOf words) := by
  refine List.ext_getElem (by simp) fun i h h' => ?_
  simp only [List.getElem_map, List.getElem_zipIdx, Nat.zero_add, entryOf]
  rw [hnodup.idxOf_getElem]

theorem buildStreams_eq (hwords : words.Pairwise (· < ·)) (hne : ∀ w ∈ words, w ≠ []) :
    ∃ st bits, LoudsTrieBuilder.buildStreams words = some st ∧
      Built words st bits (prefixes words) ∧
      (bits = louds (degrees (extensions words) (prefixes words)) ∨
        bits.length = 2 ∧ bits ++ [false] = louds (degrees (extensions words) (prefixes words))) := by
  have hstart := built_start hne
  obtain ⟨st, D, heq, hD, hbuilt⟩ := buildLevels_eq (d := 0) hwords (le_refl _) hstart
  have hfilter : (words.filter fun w => 0 ≤ w.length) = words := by simp
  rw [hfilter] at heq
  have hstreams : LoudsTrieBuilder.buildStreams words = some st := by
    rw [LoudsTrieBuilder.buildStreams, zipIdx_map_entry (nodup_of_pairwise_lt hwords), heq]
  refine ⟨st, louds (degrees (extensions words) (levels (extensions words) [] D)), hstreams, ?_⟩
  have hmax : ∀ w ∈ words, w.length < maxLength words + 1 := fun w hw =>
    Nat.lt_succ_of_le (length_le_maxLength hw)
  rcases Nat.eq_zero_or_pos D with rfl | hpos
  · -- without words the padding is the stop bit of the root
    have hnil : words = [] := List.eq_nil_iff_forall_not_mem.mpr fun w hw =>
      absurd (hD w hw) (Nat.not_lt_zero _)
    subst hnil
    exact ⟨hbuilt, Or.inr ⟨rfl, rfl⟩⟩
  · have hprefixes : levels (extensions words) [] D = prefixes words := by
      rw [prefixes]
      rcases Nat.le_total D (maxLength words + 1) with hle | hle
      · exact (levels_of_length_lt hpos hD hle).symm
      · exact levels_of_length_lt (Nat.succ_pos _) hmax hle
    rw [levels_succ, level_of_length_lt hpos hD, List.append_nil, hprefixes] at hbuilt
    exact ⟨hprefixes ▸ hbuilt, Or.inl (by rw [hprefixes])⟩

end

end Mozkey.Storage
