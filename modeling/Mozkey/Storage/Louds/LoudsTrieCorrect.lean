import Mozkey.Storage.Louds.LoudsTrie

/-! A trie that stores a list of words finds exactly these, under the ids of its builder. -/

namespace Mozkey.Storage

open Lib

namespace LoudsTrie

/-- The parts of the trie hold the prefixes of the words in level order. -/
structure Stores (trie : LoudsTrie) (words : List Bytes) : Prop where
  louds : trie.louds.Represents (extensions words) [] (prefixes words)
  indexed : trie.terminalBitVector.Indexed
  terminal : ∃ padding, bitsOf trie.terminalBitVector.data =
    (prefixes words).map (fun p => decide (p ∈ words)) ++ padding
  edge : trie.edgeCharacter = (prefixes words).map fun p => p.getLastD 0

def IsAt (trie : LoudsTrie) (words : List Bytes) (p : Bytes) (node : Louds.Node) : Prop :=
  ∃ c, (prefixes words)[c]? = some p ∧ trie.louds.IsNode c node

section

variable {trie : LoudsTrie} {words : List Bytes} {p : Bytes} {node : Louds.Node}

theorem IsAt.mem (h : trie.IsAt words p node) : p ∈ prefixes words := by
  obtain ⟨c, hc, -⟩ := h
  exact List.mem_of_getElem? hc

theorem IsAt.unique {node' : Louds.Node} (h : trie.IsAt words p node)
    (h' : trie.IsAt words p node') : node = node' := by
  obtain ⟨c, hc, hnode⟩ := h
  obtain ⟨c', hc', hnode'⟩ := h'
  obtain rfl := (List.getElem?_inj (List.getElem?_eq_some_iff.mp hc).1 (nodup_prefixes words)).mp
    (hc.trans hc'.symm)
  exact hnode.unique hnode'

theorem IsAt.inj {q : Bytes} (h : trie.IsAt words p node) (h' : trie.IsAt words q node) : p = q := by
  obtain ⟨c, hc, hnode⟩ := h
  obtain ⟨c', hc', hnode'⟩ := h'
  obtain rfl : c = c' := Nat.succ.inj (hnode.nodeId.symm.trans hnode'.nodeId)
  exact Option.some.inj (hc.symm.trans hc')

theorem IsAt.isValidNode (h : trie.IsAt words p node) : trie.isValidNode node = some true := by
  obtain ⟨c, -, hc⟩ := h
  exact hc.isValidNode

namespace Stores

variable (h : trie.Stores words)
include h

theorem length_prefixes_lt : (prefixes words).length < 8 * trie.louds.index.data.length := by
  obtain ⟨padding, hbits⟩ := h.louds.bits
  have hlength := congrArg List.length hbits
  rw [length_bitsOf, List.length_append, length_louds_degrees] at hlength
  omega

theorem isAt_root : trie.IsAt words [] {} := ⟨0, h.louds.order.getElem_zero, h.louds.isNode_root⟩

theorem getEdgeLabelToParentNode_eq (hnode : trie.IsAt words p node) :
    trie.getEdgeLabelToParentNode node = some (p.getLastD 0) := by
  obtain ⟨c, hc, hnode⟩ := hnode
  rw [getEdgeLabelToParentNode, h.edge, hnode.nodeId, Nat.add_sub_cancel, List.getElem?_map, hc]
  rfl

theorem isTerminalNode_eq (hnode : trie.IsAt words p node) :
    trie.isTerminalNode node = some (decide (p ∈ words)) := by
  obtain ⟨c, hc, hnode⟩ := hnode
  obtain ⟨padding, hterminal⟩ := h.terminal
  have hlt : c < ((prefixes words).map fun p => decide (p ∈ words)).length := by
    rw [List.length_map]
    exact (List.getElem?_eq_some_iff.mp hc).1
  rw [isTerminalNode, SimpleSuccinctBitVectorIndex.get_eq, hterminal, hnode.nodeId,
    Nat.add_sub_cancel, List.getElem?_append_left hlt, List.getElem?_map, hc]
  rfl

theorem rank_terminal {c : Nat} (hc : (prefixes words)[c]? = some p) (hp : p ∈ words) :
    rank true (bitsOf trie.terminalBitVector.data) c = (keys words).idxOf p := by
  obtain ⟨padding, hterminal⟩ := h.terminal
  have hlt := (List.getElem?_eq_some_iff.mp hc).1
  have hsplit : prefixes words = (prefixes words).take c ++ p :: (prefixes words).drop (c + 1) := by
    rw [← (List.getElem?_eq_some_iff.mp hc).2, ← List.drop_eq_getElem_cons hlt,
      List.take_append_drop]
  have hnot : p ∉ ((prefixes words).take c).filter (· ∈ words) := by
    have hnodup := nodup_prefixes words
    rw [hsplit] at hnodup
    intro hmem
    exact (List.nodup_append.mp hnodup).2.2 p (List.mem_filter.mp hmem).1 p
      List.mem_cons_self rfl
  have hkeys : (keys words).idxOf p = (((prefixes words).take c).filter (· ∈ words)).length := by
    rw [keys, hsplit, List.filter_append, List.filter_cons_of_pos (by simpa using hp), ← hsplit,
      List.idxOf_append_of_notMem hnot, List.idxOf_cons_self, Nat.add_zero]
  rw [hterminal, rank_append_left _ _ (by rw [List.length_map]; exact hlt.le), hkeys, rank,
    ← List.map_take, List.count, List.countP_map, List.countP_eq_length_filter]
  congr 1
  exact List.filter_congr fun q _ => by simp

theorem getKeyIdOfTerminalNode_eq (hnode : trie.IsAt words p node) (hp : p ∈ words) :
    trie.getKeyIdOfTerminalNode node = some ((keys words).idxOf p) := by
  obtain ⟨c, hc, hnode⟩ := hnode
  have hlt := (List.getElem?_eq_some_iff.mp hc).1
  have hlength : c ≤ 8 * trie.terminalBitVector.data.length := by
    obtain ⟨padding, hterminal⟩ := h.terminal
    have hlen := congrArg List.length hterminal
    rw [length_bitsOf, List.length_append, List.length_map] at hlen
    omega
  rw [getKeyIdOfTerminalNode, hnode.nodeId, Nat.add_sub_cancel,
    SimpleSuccinctBitVectorIndex.rank1_eq h.indexed hlength, h.rank_terminal hc hp]

theorem moveToChildLoop_eq {i : Nat} (hp : (prefixes words)[i]? = some p) (label : UInt8)
    {fuel j : Nat} (hj : j ≤ (extensions words p).length)
    (hfuel : (extensions words p).length < fuel + j) :
    ∃ node, trie.moveToChildLoop label fuel (Louds.childNode (extensions words) (prefixes words) i j)
        = some (decide (p ++ [label] ∈ (extensions words p).drop j), node) ∧
      (p ++ [label] ∈ (extensions words p).drop j → trie.IsAt words (p ++ [label]) node) := by
  induction fuel generalizing j with
  | zero => omega
  | succ fuel ih =>
    rcases Nat.lt_or_ge j (extensions words p).length with hlt | hge
    · obtain ⟨q, hq⟩ : ∃ q, (extensions words p)[j]? = some q :=
        ⟨_, List.getElem?_eq_getElem hlt⟩
      have hat : trie.IsAt words q (Louds.childNode (extensions words) (prefixes words) i j) :=
        ⟨_, h.louds.order.getElem_child hp hq, h.louds.isNode_childNode hp hlt⟩
      have hdrop : (extensions words p).drop j = q :: (extensions words p).drop (j + 1) := by
        rw [List.drop_eq_getElem_cons hlt, (List.getElem?_eq_some_iff.mp hq).2]
      obtain ⟨c, rfl, -⟩ := mem_extensions.mp (List.mem_of_getElem? hq)
      rw [moveToChildLoop, hat.isValidNode, h.getEdgeLabelToParentNode_eq hat, hdrop]
      simp only [Option.bind_eq_bind, Option.bind_some, if_true, List.getLastD_concat]
      by_cases hc : c = label
      · subst hc
        rw [if_pos rfl]
        exact ⟨_, by simp, fun _ => hat⟩
      · obtain ⟨node, heq, hnode⟩ := ih (j := j + 1) hlt (by omega)
        have hmem : (p ++ [label] ∈ (p ++ [c]) :: (extensions words p).drop (j + 1)) ↔
            p ++ [label] ∈ (extensions words p).drop (j + 1) := by
          simp [Ne.symm hc]
        rw [if_neg hc, Louds.moveToNextSibling_childNode]
        refine ⟨node, ?_, fun hm => hnode (hmem.mp hm)⟩
        rw [heq, Option.some_inj, Prod.mk.injEq]
        exact ⟨by rw [decide_eq_decide]; exact hmem.symm, rfl⟩
    · obtain rfl : j = (extensions words p).length := by omega
      rw [moveToChildLoop, isValidNode, h.louds.isValidNode_end hp, List.drop_length]
      exact ⟨_, rfl, fun hm => by cases hm⟩

theorem length_extensions_lt (hp : p ∈ prefixes words) :
    (extensions words p).length < 8 * trie.louds.index.data.length := by
  obtain ⟨i, hi⟩ := List.getElem?_of_mem hp
  have hend := h.louds.isValidNode_end hi
  rw [Louds.isValidNode, SimpleSuccinctBitVectorIndex.get_eq] at hend
  have := (List.getElem?_eq_some_iff.mp hend).1
  rw [length_bitsOf, Louds.childNode] at this
  dsimp only at this
  omega

theorem moveToChildByLabel_eq (hnode : trie.IsAt words p node) (label : UInt8) :
    ∃ node', trie.moveToChildByLabel label node =
        some (decide (p ++ [label] ∈ prefixes words), node') ∧
      (p ++ [label] ∈ prefixes words → trie.IsAt words (p ++ [label]) node') := by
  have hlt := h.length_extensions_lt hnode.mem
  obtain ⟨i, hi, hnode⟩ := hnode
  obtain ⟨node', heq, hnode'⟩ := h.moveToChildLoop_eq hi label (j := 0) (Nat.zero_le _)
    (by omega : _ < 8 * trie.louds.index.data.length + 1 + 0)
  rw [List.drop_zero, ← mem_prefixes_concat] at hnode'
  refine ⟨node', ?_, hnode'⟩
  rw [moveToChildByLabel, h.louds.moveToFirstChild_eq hi hnode]
  refine heq.trans ?_
  rw [Option.some_inj, Prod.mk.injEq]
  exact ⟨by rw [decide_eq_decide, List.drop_zero]; exact mem_prefixes_concat.symm, rfl⟩

theorem traverse_eq (hnode : trie.IsAt words p node) (key : Bytes) :
    ∃ node', trie.traverse key node = some (decide (p ++ key ∈ prefixes words), node') ∧
      (p ++ key ∈ prefixes words → trie.IsAt words (p ++ key) node') := by
  induction key generalizing p node with
  | nil =>
    rw [List.append_nil, traverse]
    exact ⟨node, by rw [decide_eq_true hnode.mem], fun _ => hnode⟩
  | cons c key ih =>
    obtain ⟨child, heq, hchild⟩ := h.moveToChildByLabel_eq hnode c
    rw [traverse, heq]
    by_cases hc : p ++ [c] ∈ prefixes words
    · rw [decide_eq_true hc]
      have := ih (hchild hc)
      rwa [List.append_assoc, List.singleton_append] at this
    · have hnot : p ++ c :: key ∉ prefixes words := by
        intro hm
        refine hc (mem_prefixes_of_append (q := key) ?_)
        rwa [List.append_assoc, List.singleton_append]
      rw [decide_eq_false hc, decide_eq_false hnot]
      exact ⟨child, rfl, fun hm => absurd hm hnot⟩

theorem hasKey_eq (key : Bytes) : trie.hasKey key = some (decide (key ∈ words)) := by
  obtain ⟨node, heq, hnode⟩ := h.traverse_eq h.isAt_root key
  rw [List.nil_append] at heq hnode
  rw [hasKey, heq]
  by_cases hkey : key ∈ prefixes words
  · rw [decide_eq_true hkey]
    exact h.isTerminalNode_eq (hnode hkey)
  · rw [decide_eq_false hkey, decide_eq_false fun hm => hkey (mem_prefixes_of_mem hm)]
    rfl

theorem exactSearch_eq (key : Bytes) : trie.exactSearch key = some (keyId words key) := by
  obtain ⟨node, heq, hnode⟩ := h.traverse_eq h.isAt_root key
  rw [List.nil_append] at heq hnode
  rw [exactSearch, heq]
  by_cases hkey : key ∈ prefixes words
  · rw [decide_eq_true hkey]
    simp only [Option.bind_eq_bind, Option.bind_some]
    rw [h.isTerminalNode_eq (hnode hkey), keyId]
    by_cases hword : key ∈ words
    · rw [decide_eq_true hword, if_pos hword, Option.bind_some, if_pos rfl,
        h.getKeyIdOfTerminalNode_eq (hnode hkey) hword]
      rfl
    · rw [decide_eq_false hword, if_neg hword]
      rfl
  · rw [decide_eq_false hkey, keyId, if_neg fun hm => hkey (mem_prefixes_of_mem hm)]
    rfl

theorem getTerminalNodeFromKeyId_eq (hp : p ∈ words) :
    ∃ node, trie.getTerminalNodeFromKeyId ((keys words).idxOf p) = some node ∧
      trie.IsAt words p node := by
  obtain ⟨c, hc⟩ := List.getElem?_of_mem (mem_prefixes_of_mem hp)
  obtain ⟨node, hnode⟩ := h.louds.exists_isNode hc
  have hget : (bitsOf trie.terminalBitVector.data)[c]? = some true := by
    have := h.isTerminalNode_eq ⟨c, hc, hnode⟩
    rwa [isTerminalNode, SimpleSuccinctBitVectorIndex.get_eq, hnode.nodeId, Nat.add_sub_cancel,
      decide_eq_true hp] at this
  have hselect : SelectsAt true (bitsOf trie.terminalBitVector.data) ((keys words).idxOf p + 1) c :=
    ⟨hget, by rw [h.rank_terminal hc hp]⟩
  refine ⟨node, ?_, c, hc, hnode⟩
  rw [getTerminalNodeFromKeyId, SimpleSuccinctBitVectorIndex.select1_eq h.indexed hselect]
  exact h.louds.initNodeFromNodeId_eq hnode

theorem restoreLoop_eq (hnode : trie.IsAt words p node) {room : Nat} (hroom : p.length ≤ room)
    (key : Bytes) : trie.restoreLoop room node key = some (p ++ key) := by
  induction room generalizing p node key with
  | zero =>
    obtain rfl := List.length_eq_zero_iff.mp (Nat.le_zero.mp hroom)
    obtain rfl := hnode.unique h.isAt_root
    rfl
  | succ room ih =>
    rcases List.eq_nil_or_concat' p with rfl | ⟨q, c, rfl⟩
    · obtain rfl := hnode.unique h.isAt_root
      rfl
    · obtain ⟨i, hi⟩ := List.getElem?_of_mem (mem_prefixes_of_append hnode.mem)
      obtain ⟨j, hj⟩ := List.getElem?_of_mem (mem_prefixes_concat.mp hnode.mem)
      have hchild := h.louds.order.getElem_child hi hj
      have hlabel := h.getEdgeLabelToParentNode_eq hnode
      obtain ⟨k, hk, hnode⟩ := hnode
      obtain rfl := (List.getElem?_inj (List.getElem?_eq_some_iff.mp hk).1 (nodup_prefixes words)).mp
        (hk.trans hchild.symm)
      obtain ⟨parent, hparent, hat⟩ := h.louds.moveToParent_eq hi hj hnode
      have hroot : ¬ Louds.isRoot node = true := by
        rw [hnode.isRoot_iff]
        intro hzero
        rw [hzero, h.louds.order.getElem_zero] at hk
        exact List.cons_ne_nil c [] (List.append_eq_nil_iff.mp (Option.some.inj hk).symm).2
      rw [restoreLoop, if_neg hroot]
      simp only [hlabel, hparent, Option.bind_eq_bind, Option.bind_some, List.getLastD_concat]
      rw [List.length_append, List.length_singleton] at hroom
      rw [ih ⟨i, hi, hat⟩ (by omega), List.append_assoc, List.singleton_append]

theorem restoreKeyStringOfNode_eq (hnode : trie.IsAt words p node) (hlength : p.length ≤ kMaxDepth) :
    trie.restoreKeyStringOfNode node = some p := by
  rw [restoreKeyStringOfNode, h.restoreLoop_eq hnode hlength, List.append_nil]

theorem restoreKeyString_eq (hp : p ∈ words) (hlength : p.length ≤ kMaxDepth) :
    trie.restoreKeyString (keyId words p) = some p := by
  obtain ⟨node, heq, hnode⟩ := h.getTerminalNodeFromKeyId_eq hp
  rw [restoreKeyString, keyId, if_pos hp, if_neg (by omega), Int.toNat_natCast, heq]
  exact h.restoreKeyStringOfNode_eq hnode hlength

theorem prefixSearchLoop_eq (hnode : trie.IsAt words p node) (key : Bytes) :
    ∃ calls, trie.prefixSearchLoop key p.length node = some calls ∧
      calls.map Prod.fst = (List.range' (p.length + 1) key.length).filter
        (fun n => (p ++ key).take n ∈ words) ∧
      ∀ call ∈ calls, trie.IsAt words ((p ++ key).take call.1) call.2 := by
  induction key generalizing p node with
  | nil => exact ⟨[], rfl, rfl, fun _ hc => by cases hc⟩
  | cons c key ih =>
    obtain ⟨child, heq, hchild⟩ := h.moveToChildByLabel_eq hnode c
    have hsplit : p ++ c :: key = p ++ [c] ++ key := by simp
    rw [prefixSearchLoop, heq]
    by_cases hc : p ++ [c] ∈ prefixes words
    · obtain ⟨calls, hcalls, hmap, hall⟩ := ih (hchild hc)
      rw [decide_eq_true hc]
      simp only [Option.bind_eq_bind, Option.bind_some]
      rw [h.isTerminalNode_eq (hchild hc), hsplit]
      rw [List.length_append, List.length_singleton] at hcalls hmap
      rw [hcalls]
      simp only [Option.bind_some]
      have htake : (p ++ [c] ++ key).take (p.length + 1) = p ++ [c] := by
        rw [List.take_left' (by simp)]
      rw [List.length_cons, List.range'_succ, List.filter_cons, htake]
      by_cases hword : p ++ [c] ∈ words
      · simp only [hword, decide_true, if_true]
        refine ⟨_, rfl, by rw [List.map_cons, hmap], fun call hcall => ?_⟩
        rcases List.mem_cons.mp hcall with rfl | hcall
        · rw [htake]
          exact hchild hc
        · exact hall call hcall
      · simp only [hword, decide_false, Bool.false_eq_true, if_false]
        exact ⟨_, rfl, hmap, hall⟩
    · rw [decide_eq_false hc]
      refine ⟨[], rfl, ?_, fun _ hcall => by cases hcall⟩
      refine (List.filter_eq_nil_iff.mpr fun n hn hword => hc ?_).symm
      rw [List.mem_range'_1] at hn
      rw [decide_eq_true_iff, hsplit, List.take_append, List.take_of_length_le (by simp; omega)]
        at hword
      exact mem_prefixes_of_append (mem_prefixes_of_mem hword)

theorem prefixSearch_eq (key : Bytes) :
    ∃ calls, trie.prefixSearch key = some calls ∧
      calls.map Prod.fst = (List.range' 1 key.length).filter (fun n => key.take n ∈ words) ∧
      ∀ call ∈ calls, trie.IsAt words (key.take call.1) call.2 :=
  h.prefixSearchLoop_eq h.isAt_root key

end Stores

end

section

variable {trieImage terminalImage edgeCharacter image : Bytes}

theorem output_eq (htrie : trieImage.length ≤ 0xffffffff)
    (hterminal : terminalImage.length ≤ 0xffffffff) (hedge : edgeCharacter.length ≤ 0xffffffff) :
    ∃ header : Bytes, header.length = 16 ∧
      LoudsTrieBuilder.output trieImage terminalImage edgeCharacter [] =
        some (header ++ (trieImage ++ (terminalImage ++ edgeCharacter))) ∧
      ∀ rest, loadUint32 (header ++ rest) 0 = some trieImage.length ∧
        loadUint32 (header ++ rest) 4 = some terminalImage.length ∧
        loadUint32 (header ++ rest) 8 = some 8 ∧
        loadUint32 (header ++ rest) 12 = some edgeCharacter.length := by
  obtain ⟨w1, hw1, hpush1, hload1⟩ := pushInt32_eq htrie
  obtain ⟨w2, hw2, hpush2, hload2⟩ := pushInt32_eq hterminal
  obtain ⟨w3, hw3, hpush3, hload3⟩ := @pushInt32_eq 8 (by decide)
  obtain ⟨w4, hw4, hpush4, hload4⟩ := pushInt32_eq hedge
  refine ⟨w1 ++ w2 ++ w3 ++ w4, by simp only [List.length_append]; omega, ?_, fun rest => ?_⟩
  · simp only [LoudsTrieBuilder.output, hpush1, hpush2, hpush3, hpush4, Option.bind_eq_bind,
      Option.bind_some, List.nil_append, List.append_assoc]
  · have h1 := hload1 [] (w2 ++ w3 ++ w4 ++ rest)
    have h2 := hload2 w1 (w3 ++ w4 ++ rest)
    have h3 := hload3 (w1 ++ w2) (w4 ++ rest)
    have h4 := hload4 (w1 ++ w2 ++ w3) rest
    simp only [List.append_assoc, List.nil_append, List.length_append, List.length_nil, hw1, hw2,
      hw3] at h1 h2 h3 h4 ⊢
    exact ⟨h1, h2, h3, h4⟩

theorem toInt32_of_lt {value : Nat} (h : value < 2 ^ 31) : toInt32 value = value := if_pos h

theorem openImage_eq (htrie : trieImage.length < 2 ^ 31) (hterminal : terminalImage.length < 2 ^ 31)
    (hedge : edgeCharacter.length < 2 ^ 31) (hpos : edgeCharacter ≠ [])
    (himage : LoudsTrieBuilder.output trieImage terminalImage edgeCharacter [] = some image)
    (lb0 lb1 select0 select1 termvecLb1 : Nat) :
    openImage image lb0 lb1 select0 select1 termvecLb1 =
      (Louds.init trieImage lb0 lb1 select0 select1).bind fun louds =>
        (SimpleSuccinctBitVectorIndex.init 32 terminalImage 0 termvecLb1).map
          fun terminalBitVector => { louds, terminalBitVector, edgeCharacter } := by
  obtain ⟨header, hheader, houtput, hload⟩ := @output_eq trieImage
    terminalImage edgeCharacter (by omega) (by omega) (by omega)
  obtain rfl := Option.some.inj (houtput.symm.trans himage)
  obtain ⟨h1, h2, h3, h4⟩ := hload (trieImage ++ (terminalImage ++ edgeCharacter))
  have hne := List.length_pos_iff.mpr hpos
  rw [openImage, h1, h2, h3, h4]
  simp only [Option.bind_eq_bind, Option.bind_some]
  rw [toInt32_of_lt htrie, toInt32_of_lt hterminal, toInt32_of_lt hedge]
  rw [if_neg (by rw [show toInt32 8 = 8 from rfl]; omega),
    if_neg (by simp only [List.length_append, hheader]; omega)]
  have hdrop : (header ++ (trieImage ++ (terminalImage ++ edgeCharacter))).drop 16 =
      trieImage ++ (terminalImage ++ edgeCharacter) := by
    rw [← hheader, List.drop_left]
  simp only [hdrop, Int.toNat_natCast, List.take_left, List.drop_left, Option.map_eq_bind]
  rfl

theorem openImage_of_le (hlarge : 2 ^ 31 ≤ trieImage.length ∨ 2 ^ 31 ≤ terminalImage.length ∨
      2 ^ 31 ≤ edgeCharacter.length)
    (himage : LoudsTrieBuilder.output trieImage terminalImage edgeCharacter [] = some image)
    (lb0 lb1 select0 select1 termvecLb1 : Nat) :
    openImage image lb0 lb1 select0 select1 termvecLb1 = none := by
  have hbounds : trieImage.length ≤ 0xffffffff ∧ terminalImage.length ≤ 0xffffffff ∧
      edgeCharacter.length ≤ 0xffffffff := by
    unfold LoudsTrieBuilder.output at himage
    simp only [Option.bind_eq_bind, Option.bind_eq_some_iff] at himage
    obtain ⟨_, h1, _, h2, _, -, _, h4, -⟩ := himage
    exact ⟨le_of_pushInt32 h1, le_of_pushInt32 h2, le_of_pushInt32 h4⟩
  obtain ⟨header, -, houtput, hload⟩ := output_eq hbounds.1 hbounds.2.1 hbounds.2.2
  obtain rfl := Option.some.inj (houtput.symm.trans himage)
  obtain ⟨h1, h2, h3, h4⟩ := hload (trieImage ++ (terminalImage ++ edgeCharacter))
  rw [openImage, h1, h2, h3, h4]
  simp only [Option.bind_eq_bind, Option.bind_some]
  have hnegative : ∀ {value}, 2 ^ 31 ≤ value → value ≤ 0xffffffff → toInt32 value < 0 := by
    intro value hle hmax
    rw [toInt32, if_neg (by omega)]
    omega
  split
  · rfl
  · next hchecks =>
    rcases hlarge with htrie | hterminal | hedge
    · exact if_pos (Or.inl (hnegative htrie hbounds.1))
    · exact if_pos (Or.inr (Or.inl (hnegative hterminal hbounds.2.1)))
    · exact absurd (Or.inr (hnegative hedge hbounds.2.2).le) hchecks

end

theorem stores_of_built {words : List Bytes} {st : BuildState} {bits : List Bool}
    (hbuilt : Built words st bits (prefixes words))
    (hbits : bits = Lib.louds (degrees (extensions words) (prefixes words)) ∨ bits.length = 2 ∧
      bits ++ [false] = Lib.louds (degrees (extensions words) (prefixes words)))
    (htrieSize : 8 * st.trieStream.fillPadding32.image.length < 2 ^ 31)
    (hterminalSize : 8 * st.terminalStream.fillPadding32.image.length < 2 ^ 31)
    (lb0 lb1 select0 select1 termvecLb1 : Nat) :
    ∃ l vector, Louds.init st.trieStream.fillPadding32.image lb0 lb1 select0 select1 = some l ∧
      SimpleSuccinctBitVectorIndex.init 32 st.terminalStream.fillPadding32.image 0 termvecLb1 =
        some vector ∧
      Stores { louds := l, terminalBitVector := vector, edgeCharacter := st.edgeCharacter } words := by
  obtain ⟨htrie, hle, -, htrieBits⟩ := hbuilt.trie.fillPadding32
  obtain ⟨hterminal, -, -, hterminalBits⟩ := hbuilt.terminal.fillPadding32
  obtain ⟨l, hl, hdata, hopened⟩ := Louds.init_eq htrie htrieSize lb0 lb1 select0 select1
  obtain ⟨vector, hvector, hindexed, hvectorData, -⟩ := @SimpleSuccinctBitVectorIndex.init_eq
    _ 32 (by decide) (by decide) hterminal hterminalSize 0 termvecLb1
  refine ⟨l, vector, hl, hvector, ⟨hopened, levelOrder_prefixes words, ?_⟩, hindexed, ?_,
    hbuilt.edge⟩
  · rw [hdata, htrieBits]
    rcases hbits with rfl | ⟨htwo, hbits⟩
    · exact ⟨_, rfl⟩
    · obtain ⟨k, hk⟩ : ∃ k, 8 * st.trieStream.fillPadding32.image.length - bits.length = k + 1 :=
        ⟨8 * st.trieStream.fillPadding32.image.length - bits.length - 1, by omega⟩
      refine ⟨List.replicate k false, ?_⟩
      rw [hk, ← hbits, List.replicate_succ, List.append_assoc, List.singleton_append]
  · rw [hvectorData]
    exact ⟨_, hterminalBits⟩

end LoudsTrie

theorem ofWords_eq {words : List Bytes} {st : BuildState} (hne : ∀ w ∈ words, w ≠ [])
    (hstreams : LoudsTrieBuilder.buildStreams (sortWords words) = some st) :
    LoudsTrieBuilder.ofWords words =
      (LoudsTrieBuilder.output st.trieStream.fillPadding32.image
        st.terminalStream.fillPadding32.image st.edgeCharacter []).map fun image =>
        { built := true, wordList := sortWords words, idList := st.idList, image := image } := by
  have hadd : ∀ before : List Bytes, words.foldlM LoudsTrieBuilder.add { wordList := before } =
      some { wordList := before ++ words } := by
    clear hstreams
    induction words with
    | nil => exact fun before => by rw [List.append_nil]; rfl
    | cons w words ih =>
      intro before
      have hw : LoudsTrieBuilder.add { wordList := before } w =
          some { wordList := before ++ [w] } := by
        rw [LoudsTrieBuilder.add, if_neg (by simp [hne w List.mem_cons_self])]
      rw [List.foldlM_cons, hw]
      have := ih (fun w hw => hne w (List.mem_cons_of_mem _ hw)) (before ++ [w])
      rwa [List.append_assoc] at this
  rw [LoudsTrieBuilder.ofWords]
  refine (congrArg (fun b => b.bind LoudsTrieBuilder.build) (hadd [])).trans ?_
  rw [List.nil_append, Option.bind_some, LoudsTrieBuilder.build]
  simp only [Bool.false_eq_true, if_false, hstreams, Option.bind_eq_bind, Option.bind_some]
  cases LoudsTrieBuilder.output st.trieStream.fillPadding32.image
    st.terminalStream.fillPadding32.image st.edgeCharacter [] <;> rfl

theorem ne_nil_of_ofWords {words : List Bytes} {builder : LoudsTrieBuilder}
    (h : LoudsTrieBuilder.ofWords words = some builder) : ∀ w ∈ words, w ≠ [] := by
  have hadd : ∀ {b b' : LoudsTrieBuilder}, words.foldlM LoudsTrieBuilder.add b = some b' →
      ∀ w ∈ words, w ≠ [] := by
    clear h
    induction words with
    | nil => exact fun _ w hw => by cases hw
    | cons v words ih =>
      intro b b' h w hw
      rw [List.foldlM_cons] at h
      obtain ⟨c, hc, h⟩ := Option.bind_eq_some_iff.mp h
      rcases List.mem_cons.mp hw with rfl | hw
      · rintro rfl
        rw [LoudsTrieBuilder.add, if_pos (Or.inr rfl)] at hc
        cases hc
      · exact ih h w hw
  obtain ⟨b, hb, -⟩ := Option.bind_eq_some_iff.mp h
  exact hadd hb

theorem Built.edge_ne_nil {words : List Bytes} {st : BuildState} {bits : List Bool}
    (h : Built words st bits (prefixes words)) : st.edgeCharacter ≠ [] := by
  rw [h.edge, ne_eq, List.map_eq_nil_iff]
  exact (levelOrder_prefixes _).ne_nil

theorem getElem_takeWhile_lt {words : List Bytes} (hwords : words.Pairwise (· < ·)) (w : Bytes) :
    words[(words.takeWhile (· < w)).length]? = some w ↔ w ∈ words := by
  refine ⟨List.mem_of_getElem?, fun hw => ?_⟩
  induction hwords with
  | nil => cases hw
  | cons hlt _ ih =>
    rcases List.mem_cons.mp hw with rfl | hw
    · rw [List.takeWhile_cons_of_neg (by simp [List.lt_irrefl])]
      rfl
    · rw [List.takeWhile_cons_of_pos (by simpa using hlt w hw), List.length_cons,
        List.getElem?_cons_succ]
      exact ih hw

theorem exists_stores {words : List Bytes} (hne : ∀ w ∈ words, w ≠ [])
    (hsize : ∀ st, LoudsTrieBuilder.buildStreams (sortWords words) = some st →
      8 * st.trieStream.fillPadding32.image.length < 2 ^ 31)
    (lb0 lb1 select0 select1 termvecLb1 : Nat) :
    ∃ builder trie, LoudsTrieBuilder.ofWords words = some builder ∧
      LoudsTrie.openImage builder.image lb0 lb1 select0 select1 termvecLb1 = some trie ∧
      trie.Stores (sortWords words) ∧
      ∀ w, builder.getId w = some (keyId (sortWords words) w) := by
  have hsorted := pairwise_sortWords words
  obtain ⟨st, bits, hstreams, hbuilt, hbits⟩ := buildStreams_eq hsorted
    fun w hw => hne w (mem_sortWords.mp hw)
  have hlt := hsize st hstreams
  obtain ⟨-, hle, -, -⟩ := hbuilt.trie.fillPadding32
  obtain ⟨-, -, hterminal, -⟩ := hbuilt.terminal.fillPadding32
  have hnodes : 2 * (prefixes (sortWords words)).length ≤ bits.length := by
    have hlength := length_louds_degrees (extensions (sortWords words)) (prefixes (sortWords words))
    have horder := congrArg List.length (levelOrder_prefixes (sortWords words)).eq
    rw [List.length_cons] at horder
    rcases hbits with rfl | ⟨-, hbits⟩
    · omega
    · rw [← hbits, List.length_append, List.length_singleton] at hlength
      omega
  have hedge : st.edgeCharacter.length = (prefixes (sortWords words)).length := by
    rw [hbuilt.edge, List.length_map]
  rw [List.length_map] at hterminal
  obtain ⟨header, hheader, houtput, -⟩ := @LoudsTrie.output_eq
    st.trieStream.fillPadding32.image st.terminalStream.fillPadding32.image st.edgeCharacter
    (by omega) (by omega) (by omega)
  obtain ⟨l, vector, hl, hvector, hstores⟩ := LoudsTrie.stores_of_built hbuilt hbits hlt (by omega)
    lb0 lb1 select0 select1 termvecLb1
  have hopen := LoudsTrie.openImage_eq (by omega) (by omega) (by omega) hbuilt.edge_ne_nil houtput lb0
    lb1 select0 select1 termvecLb1
  rw [hl, hvector] at hopen
  refine ⟨_, _, by rw [ofWords_eq hne hstreams, houtput]; rfl, hopen, hstores, fun w => ?_⟩
  have hiff := getElem_takeWhile_lt hsorted w
  show (if _ then _ else _) = some (keyId (sortWords words) w)
  rw [if_pos rfl, keyId]
  dsimp only
  by_cases hw : w ∈ sortWords words
  · rw [if_pos (hiff.mpr hw), if_pos hw, hbuilt.ids _ w (hiff.mpr hw),
      if_pos (mem_prefixes_of_mem hw), keys]
  · rw [if_neg fun h => hw (hiff.mp h), if_neg hw]

theorem stores_of_openImage {words : List Bytes} {builder : LoudsTrieBuilder} {trie : LoudsTrie}
    (hbuilder : LoudsTrieBuilder.ofWords words = some builder)
    {lb0 lb1 select0 select1 termvecLb1 : Nat}
    (htrie : LoudsTrie.openImage builder.image lb0 lb1 select0 select1 termvecLb1 = some trie) :
    trie.Stores (sortWords words) ∧ (∀ w ∈ words, w ≠ []) ∧
      ∀ w, builder.getId w = some (keyId (sortWords words) w) := by
  have hne := ne_nil_of_ofWords hbuilder
  have hsize : ∀ st, LoudsTrieBuilder.buildStreams (sortWords words) = some st →
      8 * st.trieStream.fillPadding32.image.length < 2 ^ 31 := by
    intro st hst
    obtain ⟨_, bits, hstreams, hbuilt, -⟩ := buildStreams_eq (pairwise_sortWords words)
      fun w hw => hne w (mem_sortWords.mp hw)
    obtain rfl := Option.some.inj (hst.symm.trans hstreams)
    rw [ofWords_eq hne hstreams] at hbuilder
    obtain ⟨image, himage, rfl⟩ := Option.map_eq_some_iff.mp hbuilder
    by_contra hge
    by_cases hlarge : 2 ^ 31 ≤ st.trieStream.fillPadding32.image.length ∨
        2 ^ 31 ≤ st.terminalStream.fillPadding32.image.length ∨ 2 ^ 31 ≤ st.edgeCharacter.length
    · rw [LoudsTrie.openImage_of_le hlarge himage] at htrie
      cases htrie
    · rw [LoudsTrie.openImage_eq (by omega) (by omega) (by omega) hbuilt.edge_ne_nil himage] at htrie
      obtain ⟨l, hl, -⟩ := Option.bind_eq_some_iff.mp htrie
      exact hge (Louds.length_lt_of_init hl)
  obtain ⟨_, _, hbuilder', htrie', hstores, hids⟩ := exists_stores hne hsize lb0 lb1 select0 select1
    termvecLb1
  obtain rfl := Option.some.inj (hbuilder.symm.trans hbuilder')
  obtain rfl := Option.some.inj (htrie.symm.trans htrie')
  exact ⟨hstores, hne, hids⟩

theorem map_keyId_perm {words : List Bytes} {getId : Bytes → Option Int}
    (hids : ∀ w, getId w = some (keyId (sortWords words) w)) :
    (words.dedup.map getId).Perm ((List.range words.dedup.length).map fun i : Nat => some (i : Int)) := by
  have hperm : words.dedup.Perm (keys (sortWords words)) := by
    refine (List.perm_ext_iff_of_nodup (List.nodup_dedup _) (nodup_keys _)).mpr fun w => ?_
    rw [List.mem_dedup, mem_keys, mem_sortWords]
  have hkeys : (keys (sortWords words)).map getId =
      (List.range (keys (sortWords words)).length).map fun i : Nat => some (i : Int) := by
    refine List.ext_getElem (by simp) fun i hi hi' => ?_
    rw [List.length_map] at hi
    simp only [List.getElem_map, List.getElem_range]
    rw [hids, keyId, if_pos (mem_keys.mp (List.getElem_mem hi)), (nodup_keys _).idxOf_getElem]
  rw [hperm.length_eq, ← hkeys]
  exact hperm.map getId

/-- The trie of a list of words and its builder agree, on every word and with every cache. -/
theorem LoudsTrie.openImage_finds_words {words : List Bytes} (hne : ∀ w ∈ words, w ≠ [])
    (hsize : ∀ st, LoudsTrieBuilder.buildStreams (sortWords words) = some st →
      8 * st.trieStream.fillPadding32.image.length < 2 ^ 31)
    (loudsLb0CacheSize loudsLb1CacheSize loudsSelect0CacheSize loudsSelect1CacheSize
      termvecLb1CacheSize : Nat) :
    ∃ builder trie, LoudsTrieBuilder.ofWords words = some builder ∧
      LoudsTrie.openImage builder.image loudsLb0CacheSize loudsLb1CacheSize loudsSelect0CacheSize
        loudsSelect1CacheSize termvecLb1CacheSize = some trie ∧
      (∀ w, trie.exactSearch w = builder.getId w ∧ trie.hasKey w = some (decide (w ∈ words)) ∧
        (w ∉ words → trie.exactSearch w = some (-1))) ∧
      (words.dedup.map builder.getId).Perm
        ((List.range words.dedup.length).map fun i : Nat => some (i : Int)) ∧
      (∀ w ∈ words, w.length ≤ LoudsTrie.kMaxDepth → ∀ id, builder.getId w = some id →
        trie.restoreKeyString id = some w) ∧
      ∀ k, ∃ calls, trie.prefixSearch k = some calls ∧
        calls.map Prod.fst = (List.range' 1 k.length).filter (fun n => k.take n ∈ words) ∧
        ∀ call ∈ calls, (trie.getKeyIdOfTerminalNode call.2).map Int.ofNat =
          builder.getId (k.take call.1) := by
  obtain ⟨builder, trie, hbuilder, htrie, h, hids⟩ := exists_stores hne hsize loudsLb0CacheSize
    loudsLb1CacheSize loudsSelect0CacheSize loudsSelect1CacheSize termvecLb1CacheSize
  refine ⟨builder, trie, hbuilder, htrie, fun w => ⟨?_, ?_, fun hw => ?_⟩, ?_, ?_, fun k => ?_⟩
  · rw [h.exactSearch_eq, hids]
  · rw [h.hasKey_eq]
    exact congrArg some (decide_eq_decide.mpr mem_sortWords)
  · rw [h.exactSearch_eq, keyId, if_neg fun hm => hw (mem_sortWords.mp hm)]
  · exact map_keyId_perm hids
  · intro w hw hlength id hid
    obtain rfl := Option.some.inj ((hids w).symm.trans hid)
    exact h.restoreKeyString_eq (mem_sortWords.mpr hw) hlength
  · obtain ⟨calls, hcalls, hmap, hall⟩ := h.prefixSearch_eq k
    simp only [mem_sortWords] at hmap
    refine ⟨calls, hcalls, hmap, fun call hcall => ?_⟩
    have hword : k.take call.1 ∈ words := by
      have := List.mem_map_of_mem (f := Prod.fst) hcall
      rw [hmap, List.mem_filter, decide_eq_true_iff] at this
      exact this.2
    have hword := mem_sortWords.mpr hword
    rw [h.getKeyIdOfTerminalNode_eq (hall call hcall) hword, hids, keyId, if_pos hword]
    rfl

/-- The words "a", "ab" and "b", with "a" added twice and small caches. -/
theorem LoudsTrie.openImage_finds_three_words :
    ∃ builder trie, LoudsTrieBuilder.ofWords [[97, 98], [97], [98], [97]] = some builder ∧
      LoudsTrie.openImage builder.image 1 2 3 4 0 = some trie ∧
      trie.exactSearch [97, 98] = some 2 ∧ trie.hasKey [97, 97] = some false := by
  obtain ⟨builder, trie, hbuilder, htrie, hsearch, -, -, -⟩ :=
    @LoudsTrie.openImage_finds_words [[97, 98], [97], [98], [97]] (by decide)
      (fun st hst => by
        have heq : LoudsTrieBuilder.buildStreams (sortWords [[97, 98], [97], [98], [97]]) =
          some (((LoudsTrieBuilder.buildStreams (sortWords [[97, 98], [97], [98], [97]]))).getD {}) := by
          decide +kernel
        rw [heq] at hst
        obtain rfl := Option.some.inj hst
        decide +kernel) 1 2 3 4 0
  refine ⟨builder, trie, hbuilder, htrie, ?_, ?_⟩
  · have hid : (LoudsTrieBuilder.ofWords [[97, 98], [97], [98], [97]]).bind
        (fun builder => builder.getId [97, 98]) = some 2 := by decide +kernel
    rw [hbuilder] at hid
    rw [(hsearch _).1]
    exact hid
  · rw [(hsearch _).2.1]
    decide

/-- One word of `2 ^ 31` bytes: its edges are too many for an `int`. -/
theorem LoudsTrie.openImage_fails_on_long_word :
    ¬ ∃ builder trie, LoudsTrieBuilder.ofWords [List.replicate (2 ^ 31) 97] = some builder ∧
      LoudsTrie.openImage builder.image 0 0 0 0 0 = some trie := by
  rintro ⟨builder, trie, hbuilder, htrie⟩
  set w : Bytes := List.replicate (2 ^ 31) 97 with hw
  have hne : ∀ v ∈ [w], v ≠ [] := by
    intro v hv hnil
    rw [List.mem_singleton.mp hv, hw, List.replicate_eq_nil_iff] at hnil
    exact absurd hnil (by decide)
  obtain ⟨st, bits, hstreams, hbuilt, -⟩ := buildStreams_eq (pairwise_sortWords [w])
    fun v hv => hne v (mem_sortWords.mp hv)
  -- every shorter run of the byte is a node
  have hnodes : 2 ^ 31 ≤ (prefixes (sortWords [w])).length := by
    have hruns : ((List.range (2 ^ 31)).map fun n => List.replicate n (97 : UInt8)).Nodup :=
      List.nodup_range.map fun m n hmn => by simpa using congrArg List.length hmn
    have hsubset : ((List.range (2 ^ 31)).map fun n => List.replicate n (97 : UInt8)) ⊆
        prefixes (sortWords [w]) := by
      intro v hv
      obtain ⟨n, hn, rfl⟩ := List.mem_map.mp hv
      refine mem_prefixes.mpr (Or.inr ⟨w, mem_sortWords.mpr (List.mem_singleton_self w), ?_⟩)
      rw [hw, List.prefix_replicate_iff, List.length_replicate]
      exact ⟨(List.mem_range.mp hn).le, rfl⟩
    have := hruns.length_le_of_subset hsubset
    rwa [List.length_map, List.length_range] at this
  have hedge : 2 ^ 31 ≤ st.edgeCharacter.length := by
    rw [hbuilt.edge, List.length_map]
    exact hnodes
  rw [ofWords_eq hne hstreams] at hbuilder
  obtain ⟨image, himage, rfl⟩ := Option.map_eq_some_iff.mp hbuilder
  rw [LoudsTrie.openImage_of_le (Or.inr (Or.inr hedge)) himage] at htrie
  cases htrie

end Mozkey.Storage
