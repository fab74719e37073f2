import Mozkey.Storage.Louds.LoudsTrieCorrect

/-! `SystemDictionary::CollectPredictiveNodesInBfsOrder`, and the nodes it collects. -/

namespace Mozkey.Dictionary

open Lib Storage

abbrev ExpandedKey := Vector UInt32 8

theorem word_lt (value : UInt8) : value.toNat / 32 < 8 := by
  have := value.toNat_lt
  omega

def ExpandedKey.isHit (data : ExpandedKey) (value : UInt8) : Bool :=
  have := word_lt value
  data[value.toNat / 32].toNat.testBit (value.toNat % 32)

/-- The bitmaps by byte; `char` is unsigned in every build. -/
structure KeyExpansionTable where
  table : Vector ExpandedKey 256

namespace KeyExpansionTable

variable (t : KeyExpansionTable)

def expandKey (key : UInt8) : ExpandedKey :=
  have := key.toNat_lt
  t.table[key.toNat]

def setBit (key value : UInt8) : KeyExpansionTable :=
  have := word_lt value
  let row := t.expandKey key
  let word := row[value.toNat / 32] ||| UInt32.ofNat (1 <<< (value.toNat % 32))
  { table := t.table.set key.toNat (row.set (value.toNat / 32) word) key.toNat_lt }

def add (key : UInt8) (data : Bytes) : KeyExpansionTable := data.foldl (fun t c => t.setBit key c) t

def getDefaultInstance : KeyExpansionTable :=
  (List.range 256).foldl (fun t i => t.setBit (UInt8.ofNat i) (UInt8.ofNat i))
    { table := Vector.replicate 256 (Vector.replicate 8 0) }

theorem isHit_setBit (key value target c : UInt8) :
    ((t.setBit key value).expandKey target).isHit c =
      (decide (key = target ∧ value = c) || (t.expandKey target).isHit c) := by
  have hc := word_lt c
  have hvalue := word_lt value
  by_cases hkey : key = target
  · subst hkey
    have hrow : (t.setBit key value).expandKey key = (t.expandKey key).set (value.toNat / 32)
        ((t.expandKey key)[value.toNat / 32] ||| UInt32.ofNat (1 <<< (value.toNat % 32))) := by
      simp [setBit, expandKey]
    rw [ExpandedKey.isHit, hrow, ExpandedKey.isHit, Vector.getElem_set]
    by_cases hword : value.toNat / 32 = c.toNat / 32
    · have hbit : (UInt32.ofNat (1 <<< (value.toNat % 32))).toNat = 2 ^ (value.toNat % 32) := by
        rw [Nat.one_shiftLeft, UInt32.toNat_ofNat', Nat.mod_eq_of_lt]
        exact Nat.pow_lt_pow_right (by decide) (Nat.mod_lt _ (by decide))
      have hiff : value.toNat % 32 = c.toNat % 32 ↔ value = c := by
        rw [← UInt8.toNat_inj]
        omega
      rw [if_pos hword, UInt32.toNat_or, Nat.testBit_or, hbit, Nat.testBit_two_pow, Bool.or_comm]
      simp only [hword, hiff, true_and]
    · have hne : value ≠ c := fun h => hword (by rw [h])
      rw [if_neg hword, decide_eq_false fun h => hne h.2, Bool.false_or]
  · have hrow : (t.setBit key value).expandKey target = t.expandKey target := by
      have hne : key.toNat ≠ target.toNat := fun h => hkey (UInt8.toNat_inj.mp h)
      simp [setBit, expandKey, hne]
    rw [hrow, decide_eq_false fun h => hkey h.1, Bool.false_or]

theorem isHit_getDefaultInstance (target c : UInt8) :
    (getDefaultInstance.expandKey target).isHit c = decide (target = c) := by
  have hfold : ∀ (is : List Nat) (t : KeyExpansionTable),
      ((is.foldl (fun t i => t.setBit (UInt8.ofNat i) (UInt8.ofNat i)) t).expandKey target).isHit c =
        (decide (target = c ∧ ∃ i ∈ is, UInt8.ofNat i = c) || (t.expandKey target).isHit c) := by
    intro is
    induction is with
    | nil => simp
    | cons i is ih =>
      intro t
      rw [List.foldl_cons, ih, isHit_setBit, ← Bool.or_assoc, ← Bool.decide_or]
      congr 2
      rw [eq_iff_iff]
      constructor
      · rintro (⟨rfl, j, hj, hc⟩ | ⟨rfl, rfl⟩)
        · exact ⟨rfl, j, List.mem_cons_of_mem _ hj, hc⟩
        · exact ⟨rfl, i, List.mem_cons_self, rfl⟩
      · rintro ⟨rfl, j, hj, hc⟩
        rcases List.mem_cons.mp hj with rfl | hj
        · exact Or.inr ⟨hc, hc⟩
        · exact Or.inl ⟨rfl, j, hj, hc⟩
  have hzero : (({ table := Vector.replicate 256 (Vector.replicate 8 0) } :
      KeyExpansionTable).expandKey target).isHit c = false := by
    simp [ExpandedKey.isHit, expandKey]
  have hall : ∃ i ∈ List.range 256, UInt8.ofNat i = c :=
    ⟨c.toNat, List.mem_range.mpr c.toNat_lt, UInt8.ofNat_toNat⟩
  rw [getDefaultInstance, hfold, hzero, Bool.or_false, decide_eq_decide, and_iff_left hall]

end KeyExpansionTable

structure PredictiveLookupSearchState where
  node : Louds.Node := {}
  keyPos : Nat := 0
  numExpanded : Nat := 0
  deriving DecidableEq

section

variable (keyTrie : LoudsTrie) (encodedKey : Bytes) (table : KeyExpansionTable) (limit : Nat)

/-- The loop over a node and its right siblings, which pushes the states that `child` makes. -/
def pushChildren (child : Louds.Node → Option (Option PredictiveLookupSearchState)) :
    Nat → Louds.Node → List PredictiveLookupSearchState →
      Option (List PredictiveLookupSearchState)
  | 0, _, _ => none
  | fuel + 1, node, queue => do
    if ← keyTrie.isValidNode node then
      let state ← child node
      pushChildren child fuel (Louds.moveToNextSibling node) (queue ++ state.toList)
    else some queue

/-- The child of a state whose next character is `targetChar`. -/
def expandedChild (state : PredictiveLookupSearchState) (targetChar : UInt8) (node : Louds.Node) :
    Option (Option PredictiveLookupSearchState) := do
  let c ← keyTrie.getEdgeLabelToParentNode node
  if (table.expandKey targetChar).isHit c then
    let numExpanded := state.numExpanded + if c ≠ targetChar then 1 else 0
    some (some { node, keyPos := state.keyPos + 1, numExpanded })
  else some none

def predictedChild (state : PredictiveLookupSearchState) (node : Louds.Node) :
    Option (Option PredictiveLookupSearchState) :=
  some (some { node, keyPos := state.keyPos + 1, numExpanded := state.numExpanded })

/-- The remaining keys of the same length, once there are enough entries. -/
def collectSameLength (maxKeyLen : Nat) : List PredictiveLookupSearchState →
    List PredictiveLookupSearchState → Option (List PredictiveLookupSearchState)
  | [], result => some result
  | state :: queue, result =>
    if state.keyPos > maxKeyLen then some result
    else do
      if ← keyTrie.isTerminalNode state.node then collectSameLength maxKeyLen queue (result ++ [state])
      else collectSameLength maxKeyLen queue result

/-- The do-while loop. A bound on the steps of both kinds of loops is the size of the trie. -/
def collectLoop : Nat → List PredictiveLookupSearchState → List PredictiveLookupSearchState →
    Option (List PredictiveLookupSearchState)
  | _, [], result => some result
  | 0, _ :: _, _ => none
  | fuel + 1, state :: queue, result => do
    let bound := 8 * keyTrie.louds.index.data.length + 1
    match encodedKey[state.keyPos]? with
    | some targetChar =>
      let node ← keyTrie.louds.moveToFirstChild state.node
      let queue ← pushChildren keyTrie (expandedChild keyTrie table state targetChar) bound node queue
      collectLoop fuel queue result
    | none =>
      let terminal ← keyTrie.isTerminalNode state.node
      let result := if terminal then result ++ [state] else result
      if result.length > limit then collectSameLength keyTrie state.keyPos queue result
      else
        let node ← keyTrie.louds.moveToFirstChild state.node
        let queue ← pushChildren keyTrie (predictedChild state) bound node queue
        collectLoop fuel queue result

def collectPredictiveNodesInBfsOrder : Option (List PredictiveLookupSearchState) :=
  collectLoop keyTrie encodedKey table limit (8 * keyTrie.louds.index.data.length + 1)
    [{ node := {}, keyPos := 0, numExpanded := 0 }] []

end

/-- `e` is an expansion of `key`, character by character. -/
def IsExpansion (table : KeyExpansionTable) (key e : Bytes) : Prop :=
  List.Forall₂ (fun target c => (table.expandKey target).isHit c = true) key e

/-- The prefix and the key do not differ where both are defined, up to expansion. -/
def fits (table : KeyExpansionTable) (key p : Bytes) : Bool :=
  (key.zip p).all fun (target, c) => (table.expandKey target).isHit c

/-- The characters of the prefix that differ from those of the key. -/
def expandedCount (key p : Bytes) : Nat := (key.zip p).countP fun (target, c) => c ≠ target

def IsFound (words : List Bytes) (key p : Bytes) : Bool :=
  decide (key.length ≤ p.length) && words.contains p

section

variable {table : KeyExpansionTable} {key p q : Bytes} {c : UInt8} {words : List Bytes}

theorem zip_concat (key p : Bytes) (c : UInt8) : key.zip (p ++ [c]) =
    key.zip p ++ (key[p.length]?.map fun target => (target, c)).toList := by
  induction p generalizing key with
  | nil => cases key <;> simp
  | cons d p ih =>
    cases key with
    | nil => rfl
    | cons target key =>
      rw [List.cons_append, List.zip_cons_cons, ih, List.zip_cons_cons, List.length_cons,
        List.getElem?_cons_succ]
      rfl

theorem fits_concat : fits table key (p ++ [c]) = true ↔ fits table key p = true ∧
    ∀ target, key[p.length]? = some target → (table.expandKey target).isHit c = true := by
  rw [fits, zip_concat, List.all_append, Bool.and_eq_true]
  refine and_congr_right fun _ => ?_
  cases key[p.length]? <;> simp

theorem expandedCount_concat : expandedCount key (p ++ [c]) = expandedCount key p +
    (if ∃ target, key[p.length]? = some target ∧ c ≠ target then 1 else 0) := by
  rw [expandedCount, zip_concat, List.countP_append, ← expandedCount]
  congr 1
  cases key[p.length]? with
  | none => simp
  | some target => by_cases h : c = target <;> simp [h]

theorem fits_iff (h : key.length ≤ p.length) :
    fits table key p = true ↔ ∃ e, IsExpansion table key e ∧ e <+: p := by
  induction key generalizing p with
  | nil => exact ⟨fun _ => ⟨[], .nil, List.nil_prefix⟩, fun _ => rfl⟩
  | cons target key ih =>
    cases p with
    | nil => cases h
    | cons c p =>
      have hcons : fits table (target :: key) (c :: p) = true ↔
          (table.expandKey target).isHit c = true ∧ fits table key p = true := by
        simp [fits]
      rw [hcons, ih (Nat.le_of_succ_le_succ h)]
      constructor
      · rintro ⟨hc, e, he, hp⟩
        exact ⟨c :: e, .cons hc he, List.cons_prefix_cons.mpr ⟨rfl, hp⟩⟩
      · rintro ⟨e, he, hp⟩
        cases he with
        | cons hc he =>
          obtain ⟨rfl, htail⟩ := List.cons_prefix_cons.mp hp
          exact ⟨hc, _, he, htail⟩

end

structure Views (trie : LoudsTrie) (words : List Bytes) (key : Bytes)
    (state : PredictiveLookupSearchState) (p : Bytes) : Prop where
  isAt : trie.IsAt words p state.node
  keyPos : state.keyPos = p.length
  numExpanded : state.numExpanded = expandedCount key p

section

variable {trie : LoudsTrie} {words : List Bytes} {key p : Bytes} {table : KeyExpansionTable}
  {state : PredictiveLookupSearchState} {limit : Nat}

def visited (words : List Bytes) (table : KeyExpansionTable) (key p : Bytes) : List Bytes :=
  (extensions words p).filter (fits table key)

theorem pushChildren_eq (h : trie.Stores words) {i : Nat} (hi : (prefixes words)[i]? = some p)
    {child : Louds.Node → Option (Option PredictiveLookupSearchState)}
    (hchild : ∀ q ∈ extensions words p, ∀ node, trie.IsAt words q node →
      (fits table key q = true → ∃ s, child node = some (some s) ∧ Views trie words key s q) ∧
      (fits table key q ≠ true → child node = some none))
    {fuel j : Nat} (hj : j ≤ (extensions words p).length)
    (hfuel : (extensions words p).length < fuel + j) (queue : List PredictiveLookupSearchState) :
    ∃ states, pushChildren trie child fuel
        (Louds.childNode (extensions words) (prefixes words) i j) queue = some (queue ++ states) ∧
      List.Forall₂ (Views trie words key) states
        (((extensions words p).drop j).filter (fits table key)) := by
  induction fuel generalizing j queue with
  | zero => omega
  | succ fuel ih =>
    rcases Nat.lt_or_ge j (extensions words p).length with hlt | hge
    · obtain ⟨q, hq⟩ : ∃ q, (extensions words p)[j]? = some q :=
        ⟨_, List.getElem?_eq_getElem hlt⟩
      have hat : trie.IsAt words q (Louds.childNode (extensions words) (prefixes words) i j) :=
        ⟨_, h.louds.order.getElem_child hi hq, h.louds.isNode_childNode hi hlt⟩
      have hdrop : (extensions words p).drop j = q :: (extensions words p).drop (j + 1) := by
        rw [List.drop_eq_getElem_cons hlt, (List.getElem?_eq_some_iff.mp hq).2]
      obtain ⟨hfits, hnot⟩ := hchild q (List.mem_of_getElem? hq) _ hat
      rw [pushChildren, hat.isValidNode, hdrop]
      by_cases hq : fits table key q = true
      · obtain ⟨s, hs, hviews⟩ := hfits hq
        obtain ⟨states, heq, hall⟩ := ih (j := j + 1) hlt (by omega) (queue ++ [s])
        rw [List.filter_cons_of_pos hq]
        refine ⟨s :: states, ?_, .cons hviews hall⟩
        rw [List.append_assoc, List.singleton_append] at heq
        rw [← heq, hs]
        rfl
      · obtain ⟨states, heq, hall⟩ := ih (j := j + 1) hlt (by omega) queue
        rw [List.filter_cons_of_neg hq]
        refine ⟨states, ?_, hall⟩
        rw [← heq, hnot hq]
        simp only [Option.bind_eq_bind, Option.bind_some, if_true, Option.toList_none,
          List.append_nil]
        rfl
    · obtain rfl : j = (extensions words p).length := by omega
      rw [pushChildren, LoudsTrie.isValidNode, h.louds.isValidNode_end hi, List.drop_length]
      exact ⟨[], by rw [List.append_nil]; rfl, .nil⟩

theorem pushChildren_visited (h : trie.Stores words) (hstate : Views trie words key state p)
    (hfits : fits table key p = true)
    {child : Louds.Node → Option (Option PredictiveLookupSearchState)}
    (hchild : (∃ target, key[p.length]? = some target ∧ child = expandedChild trie table state target)
      ∨ key[p.length]? = none ∧ child = predictedChild state)
    (queue : List PredictiveLookupSearchState) :
    ∃ node states, trie.louds.moveToFirstChild state.node = some node ∧
      pushChildren trie child (8 * trie.louds.index.data.length + 1) node queue =
        some (queue ++ states) ∧
      List.Forall₂ (Views trie words key) states (visited words table key p) := by
  have hlt := h.length_extensions_lt hstate.isAt.mem
  obtain ⟨⟨i, hi, hnode⟩, hpos, hnum⟩ := hstate
  have hstates : ∀ q ∈ extensions words p, ∀ node, trie.IsAt words q node →
      (fits table key q = true → ∃ s, child node = some (some s) ∧ Views trie words key s q) ∧
      (fits table key q ≠ true → child node = some none) := by
    intro q hq node hat
    obtain ⟨c, rfl, -⟩ := mem_extensions.mp hq
    have hlabel := h.getEdgeLabelToParentNode_eq hat
    rw [List.getLastD_concat] at hlabel
    rw [ne_eq, fits_concat, and_iff_right hfits]
    rcases hchild with ⟨target, htarget, rfl⟩ | ⟨hnone, rfl⟩
    · rw [expandedChild, hlabel]
      simp only [htarget, Option.some_inj, forall_eq', Option.bind_eq_bind, Option.bind_some]
      refine ⟨fun hhit => ⟨_, if_pos hhit, hat, ?_, ?_⟩, fun hhit => if_neg hhit⟩
      · rw [hpos, List.length_append, List.length_singleton]
      · rw [expandedCount_concat, hnum]
        simp [htarget]
    · rw [predictedChild]
      simp only [hnone]
      refine ⟨fun _ => ⟨_, rfl, hat, ?_, ?_⟩, fun hnot => ?_⟩
      · rw [hpos, List.length_append, List.length_singleton]
      · rw [expandedCount_concat, hnum]
        simp [hnone]
      · exact absurd (fun _ htarget => by cases htarget) hnot
  obtain ⟨states, heq, hall⟩ := pushChildren_eq h hi hstates (Nat.zero_le _)
    (by omega : _ < 8 * trie.louds.index.data.length + 1 + 0) queue
  exact ⟨_, states, h.louds.moveToFirstChild_eq hi hnode, heq, hall⟩

def searchNodes (words : List Bytes) (table : KeyExpansionTable) (key : Bytes) : List Bytes :=
  (prefixes words).filter (fits table key)

theorem levelOrder_searchNodes (words : List Bytes) (table : KeyExpansionTable) (key : Bytes) :
    LevelOrder (visited words table key) [] (searchNodes words table key) := by
  refine (levelOrder_prefixes words).filter ?_ fun p q hq hfits => ?_
  · cases key <;> rfl
  · obtain ⟨c, rfl, -⟩ := mem_extensions.mp hq
    exact (fits_concat.mp hfits).1

theorem collectSameLength_eq (h : trie.Stores words) {queue result : List PredictiveLookupSearchState}
    {ps found : List Bytes} (hqueue : List.Forall₂ (Views trie words key) queue ps)
    (hresult : List.Forall₂ (Views trie words key) result found) (maxKeyLen : Nat) :
    ∃ states, collectSameLength trie maxKeyLen queue result = some states ∧
      List.Forall₂ (Views trie words key) states
        (found ++ (ps.takeWhile (·.length ≤ maxKeyLen)).filter (· ∈ words)) := by
  induction hqueue generalizing result found with
  | nil => exact ⟨result, rfl, by simpa using hresult⟩
  | @cons state p queue ps hstate _ ih =>
    rw [collectSameLength, hstate.keyPos]
    by_cases hlength : p.length ≤ maxKeyLen
    · rw [if_neg (by omega), h.isTerminalNode_eq hstate.isAt,
        List.takeWhile_cons_of_pos (by simpa using hlength)]
      by_cases hword : p ∈ words
      · obtain ⟨states, heq, hall⟩ := ih (List.rel_append hresult (.cons hstate .nil))
        rw [List.filter_cons_of_pos (by simpa using hword)]
        refine ⟨states, ?_, by simpa using hall⟩
        rw [← heq]
        simp [hword]
      · obtain ⟨states, heq, hall⟩ := ih hresult
        rw [List.filter_cons_of_neg (by simpa using hword)]
        refine ⟨states, ?_, hall⟩
        rw [← heq]
        simp [hword]
    · rw [if_pos (by omega), List.takeWhile_cons_of_neg (by simpa using hlength)]
      exact ⟨result, rfl, by simpa using hresult⟩

theorem takeWhile_length_eq_filter {ps : List Bytes}
    (hps : ps.Pairwise fun p q => p.length ≤ q.length) (n : Nat) :
    ps.takeWhile (fun p => decide (p.length ≤ n)) = ps.filter fun p => decide (p.length ≤ n) := by
  induction hps with
  | nil => rfl
  | @cons p ps hle _ ih =>
    by_cases hp : p.length ≤ n
    · rw [List.takeWhile_cons_of_pos (by simpa using hp), List.filter_cons_of_pos (by simpa using hp),
        ih]
    · rw [List.takeWhile_cons_of_neg (by simpa using hp), List.filter_cons_of_neg (by simpa using hp)]
      refine (List.filter_eq_nil_iff.mpr fun q hq hlength => hp ?_).symm
      exact (hle q hq).trans (of_decide_eq_true hlength)

/-- The search stops with all found nodes, or with those up to the length of the one that is too
many. -/
def IsResult (words : List Bytes) (table : KeyExpansionTable) (key : Bytes) (limit : Nat)
    (ps : List Bytes) : Prop :=
  ps.length ≤ limit ∧ ps = (searchNodes words table key).filter (IsFound words key) ∨
  ∃ last, ps[limit]? = some last ∧ ps = ((searchNodes words table key).filter
    (IsFound words key)).filter fun p => decide (p.length ≤ last.length)

theorem isResult_of_limit {popped ps : List Bytes}
    (hqueue : popped ++ p :: ps = [] :: popped.flatMap (visited words table key))
    (hpre : popped ++ p :: ps <+: searchNodes words table key)
    (hlimit : (popped.filter (IsFound words key)).length = limit)
    (hfound : IsFound words key p = true) :
    IsResult words table key limit ((popped ++ [p]).filter (IsFound words key) ++
      (ps.takeWhile fun q => decide (q.length ≤ p.length)).filter (· ∈ words)) := by
  have hsorted : (searchNodes words table key).Pairwise fun p q => p.length ≤ q.length :=
    (pairwise_length_prefixes words).filter _
  obtain ⟨rest, hrest⟩ := hpre
  have hN := (levelOrder_searchNodes words table key).eq
  rw [← hrest] at hsorted hN
  rw [List.append_assoc, List.flatMap_append, ← List.cons_append, ← hqueue, ← List.append_assoc,
    List.append_cancel_left_eq] at hN
  rw [List.append_assoc, List.cons_append, List.pairwise_append, List.pairwise_cons,
    List.pairwise_append] at hsorted
  obtain ⟨-, ⟨hp, hps, -, -⟩, hpopped⟩ := hsorted
  -- the nodes behind the queue are children of nodes of at least this length
  have hlong : ∀ q ∈ rest, p.length < q.length := by
    intro q hq
    rw [hN, List.mem_flatMap] at hq
    obtain ⟨parent, hparent, hq⟩ := hq
    rw [length_of_mem_extensions (List.mem_filter.mp hq).1]
    rcases List.mem_cons.mp hparent with rfl | hparent
    · omega
    · have := hp parent hparent
      omega
  have hkey : key.length ≤ p.length := by
    rw [IsFound, Bool.and_eq_true, decide_eq_true_iff] at hfound
    exact hfound.1
  have hwords : ∀ q ∈ ps, IsFound words key q = decide (q ∈ words) := by
    intro q hq
    have := hp q (List.mem_append_left _ hq)
    rw [IsFound, decide_eq_true (by omega), Bool.true_and, List.contains_eq_mem]
  have hfilter : (popped ++ [p]).filter (IsFound words key) =
      popped.filter (IsFound words key) ++ [p] := by
    rw [List.filter_append, List.filter_singleton, hfound]
    rfl
  refine Or.inr ⟨p, ?_, ?_⟩
  · rw [hfilter, List.append_assoc, List.getElem?_append_right hlimit.le, hlimit, Nat.sub_self]
    rfl
  · have hfirst : ((popped ++ [p]).filter (IsFound words key)).filter
        (fun q => decide (q.length ≤ p.length)) = (popped ++ [p]).filter (IsFound words key) := by
      refine List.filter_eq_self.mpr fun q hq => decide_eq_true ?_
      rcases List.mem_append.mp (List.mem_filter.mp hq).1 with hq | hq
      · exact hpopped q hq p List.mem_cons_self
      · rw [List.mem_singleton.mp hq]
    have hlast : (rest.filter (IsFound words key)).filter
        (fun q => decide (q.length ≤ p.length)) = [] := by
      refine List.filter_eq_nil_iff.mpr fun q hq hle => ?_
      have := hlong q (List.mem_filter.mp hq).1
      have := of_decide_eq_true hle
      omega
    have hmiddle : (ps.takeWhile fun q => decide (q.length ≤ p.length)).filter (· ∈ words) =
        (ps.filter (IsFound words key)).filter fun q => decide (q.length ≤ p.length) := by
      rw [takeWhile_length_eq_filter hps, List.filter_comm, List.filter_congr hwords]
    have hsplit : searchNodes words table key = popped ++ [p] ++ ps ++ rest := by
      rw [← hrest, List.append_cons]
    rw [hsplit, List.filter_append (popped ++ [p] ++ ps), List.filter_append (popped ++ [p]),
      List.filter_append (_ ++ _), List.filter_append (List.filter _ (popped ++ [p])), hfirst,
      hlast, List.append_nil, hmiddle]

theorem eq_searchNodes_of_nil {popped : List Bytes}
    (hnodes : popped ++ [] = [] :: popped.flatMap (visited words table key))
    (hpre : popped ++ [] <+: searchNodes words table key) :
    popped = searchNodes words table key := by
  rw [List.append_nil] at hnodes hpre
  obtain ⟨rest, hrest⟩ := hpre
  have hN := (levelOrder_searchNodes words table key).eq
  rw [← hrest, List.flatMap_append, ← List.cons_append, ← hnodes, List.append_cancel_left_eq] at hN
  cases rest with
  | nil => rw [← hrest, List.append_nil]
  | cons p rest =>
    -- the first of the remaining nodes would be the child of another one
    have hsorted : (searchNodes words table key).Pairwise fun p q => p.length ≤ q.length :=
      (pairwise_length_prefixes words).filter _
    rw [← hrest, List.pairwise_append, List.pairwise_cons] at hsorted
    obtain ⟨parent, hparent, hp⟩ := List.mem_flatMap.mp (hN ▸ List.mem_cons_self : p ∈ _)
    have hlength := length_of_mem_extensions (List.mem_filter.mp hp).1
    rcases List.mem_cons.mp hparent with rfl | hparent
    · omega
    · have := hsorted.2.1.1 parent hparent
      omega

theorem collectLoop_eq (h : trie.Stores words) {fuel : Nat}
    {queue result : List PredictiveLookupSearchState} {popped ps : List Bytes}
    (hqueue : List.Forall₂ (Views trie words key) queue ps)
    (hresult : List.Forall₂ (Views trie words key) result (popped.filter (IsFound words key)))
    (hlimit : (popped.filter (IsFound words key)).length ≤ limit)
    (hnodes : popped ++ ps = [] :: popped.flatMap (visited words table key))
    (hpre : popped ++ ps <+: searchNodes words table key)
    (hfuel : (searchNodes words table key).length ≤ popped.length + fuel) :
    ∃ states found, collectLoop trie key table limit fuel queue result = some states ∧
      List.Forall₂ (Views trie words key) states found ∧ IsResult words table key limit found := by
  induction fuel generalizing queue result popped ps with
  | zero =>
    cases hqueue with
    | nil =>
      obtain rfl := eq_searchNodes_of_nil hnodes hpre
      exact ⟨result, _, by rw [collectLoop], hresult, Or.inl ⟨hlimit, rfl⟩⟩
    | cons hstate hrest =>
      have := hpre.length_le
      rw [List.length_append, List.length_cons] at this
      omega
  | succ fuel ih =>
    cases hqueue with
    | nil =>
      obtain rfl := eq_searchNodes_of_nil hnodes hpre
      exact ⟨result, _, by rw [collectLoop], hresult, Or.inl ⟨hlimit, rfl⟩⟩
    | @cons state p queue ps hstate hrest =>
      have hfits : fits table key p = true :=
        (List.mem_filter.mp (hpre.subset (by simp : p ∈ popped ++ p :: ps))).2
      have hpopped : popped ++ [p] <+: searchNodes words table key := by
        refine List.IsPrefix.trans ?_ hpre
        exact ⟨ps, by simp⟩
      have hnodes' : (popped ++ [p]) ++ (ps ++ visited words table key p) =
          [] :: (popped ++ [p]).flatMap (visited words table key) := by
        rw [List.flatMap_append, ← List.cons_append, ← hnodes]
        simp
      have hpre' : (popped ++ [p]) ++ (ps ++ visited words table key p) <+:
          searchNodes words table key :=
        hnodes' ▸ (levelOrder_searchNodes words table key).isPrefix_cons_flatMap hpopped
      have hfuel' : (searchNodes words table key).length ≤ (popped ++ [p]).length + fuel := by
        rw [List.length_append, List.length_singleton]
        omega
      have hstep : ∀ found : Bool, IsFound words key p = found →
          (popped ++ [p]).filter (IsFound words key) =
            popped.filter (IsFound words key) ++ if found then [p] else [] := by
        rintro found rfl
        rw [List.filter_append, List.filter_singleton, Bool.cond_eq_ite]
      rw [collectLoop, hstate.keyPos]
      cases htarget : key[p.length]? with
      | some target =>
        have hnot := hstep false (by
          have := (List.getElem?_eq_some_iff.mp htarget).1
          rw [IsFound, decide_eq_false (by omega), Bool.false_and])
        rw [if_neg (by decide), List.append_nil] at hnot
        obtain ⟨node, states, hnode, hpush, hall⟩ := pushChildren_visited h hstate hfits
          (Or.inl ⟨target, htarget, rfl⟩) queue
        simp only [hnode, hpush, Option.bind_eq_bind, Option.bind_some]
        exact ih (List.rel_append hrest hall) (hnot ▸ hresult) (hnot ▸ hlimit) hnodes' hpre' hfuel'
      | none =>
        have hfound : IsFound words key p = decide (p ∈ words) := by
          have := List.getElem?_eq_none_iff.mp htarget
          rw [IsFound, decide_eq_true this, Bool.true_and, List.contains_eq_mem]
        have hfilter := hstep _ hfound
        have hresult' : List.Forall₂ (Views trie words key)
            (if decide (p ∈ words) then result ++ [state] else result)
            ((popped ++ [p]).filter (IsFound words key)) := by
          rw [hfilter]
          by_cases hword : p ∈ words
          · simpa [hword] using List.rel_append hresult (.cons hstate .nil)
          · simpa [hword] using hresult
        have hlength := hresult'.length_eq
        simp only [h.isTerminalNode_eq hstate.isAt, Option.bind_eq_bind, Option.bind_some]
        by_cases hmany : (if decide (p ∈ words) then result ++ [state] else result).length > limit
        · rw [if_pos hmany]
          have hword : p ∈ words := by
            by_contra hword
            rw [hlength, hfilter, decide_eq_false hword, if_neg (by decide), List.append_nil] at hmany
            omega
          rw [decide_eq_true hword, if_pos rfl] at hfilter
          obtain ⟨states, heq, hall⟩ := collectSameLength_eq h hrest hresult' p.length
          refine ⟨states, _, heq, hall, isResult_of_limit hnodes hpre ?_ ?_⟩
          · rw [hlength, hfilter, List.length_append, List.length_singleton] at hmany
            omega
          · rw [hfound, decide_eq_true hword]
        · rw [if_neg hmany]
          obtain ⟨node, states, hnode, hpush, hall⟩ := pushChildren_visited h hstate hfits
            (Or.inr ⟨htarget, rfl⟩) queue
          simp only [hnode, hpush, Option.bind_some]
          exact ih (List.rel_append hrest hall) hresult' (by omega) hnodes' hpre' hfuel'

theorem length_searchNodes_lt (h : trie.Stores words) :
    (searchNodes words table key).length < 8 * trie.louds.index.data.length :=
  (List.length_filter_le _ _).trans_lt h.length_prefixes_lt

theorem collectPredictiveNodesInBfsOrder_eq (h : trie.Stores words) (key : Bytes)
    (table : KeyExpansionTable) (limit : Nat) :
    ∃ states found, collectPredictiveNodesInBfsOrder trie key table limit = some states ∧
      List.Forall₂ (Views trie words key) states found ∧ IsResult words table key limit found := by
  have hroot : Views trie words key { node := {}, keyPos := 0, numExpanded := 0 } [] :=
    ⟨h.isAt_root, rfl, by cases key <;> rfl⟩
  have hlength := @length_searchNodes_lt _ _ key table h
  have hpre := (levelOrder_searchNodes words table key).isPrefix_cons_flatMap List.nil_prefix
  exact collectLoop_eq h (.cons hroot .nil) .nil (Nat.zero_le _) rfl hpre
    (by rw [List.length_nil]; omega)

theorem mem_searchNodes_filter : p ∈ (searchNodes words table key).filter (IsFound words key) ↔
    p ∈ words ∧ ∃ e, IsExpansion table key e ∧ e <+: p := by
  rw [List.mem_filter, searchNodes, List.mem_filter, IsFound, Bool.and_eq_true, decide_eq_true_iff,
    List.contains_iff_mem]
  constructor
  · rintro ⟨⟨-, hfits⟩, hlength, hword⟩
    exact ⟨hword, (fits_iff hlength).mp hfits⟩
  · rintro ⟨hword, e, he, hp⟩
    have hlength : key.length ≤ p.length := he.length_eq ▸ hp.length_le
    exact ⟨⟨mem_prefixes_of_mem hword, (fits_iff hlength).mpr ⟨e, he, hp⟩⟩, hlength, hword⟩

theorem IsResult.nodup {ps : List Bytes} (h : IsResult words table key limit ps) : ps.Nodup := by
  have hnodup := ((nodup_prefixes words).filter (fits table key)).filter (IsFound words key)
  rcases h with ⟨-, rfl⟩ | ⟨last, -, rfl⟩
  · exact hnodup
  · exact hnodup.filter _

theorem IsResult.mem_iff {ps : List Bytes} (h : IsResult words table key limit ps) : p ∈ ps ↔
    (p ∈ words ∧ ∃ e, IsExpansion table key e ∧ e <+: p) ∧
      ∀ last, ps[limit]? = some last → p.length ≤ last.length := by
  rcases h with ⟨hlength, rfl⟩ | ⟨last, hlast, hps⟩
  · rw [← mem_searchNodes_filter, List.getElem?_eq_none hlength]
    exact ⟨fun hp => ⟨hp, fun _ h => by cases h⟩, fun hp => hp.1⟩
  · rw [← mem_searchNodes_filter, hlast]
    simp only [Option.some_inj, forall_eq']
    conv_lhs => rw [hps]
    rw [List.mem_filter, decide_eq_true_iff]

theorem nodup_nodes {states : List PredictiveLookupSearchState} {ps : List Bytes}
    (hall : List.Forall₂ (Views trie words key) states ps) (hps : ps.Nodup) :
    (states.map fun state => state.node).Nodup := by
  induction hall with
  | nil => exact List.nodup_nil
  | @cons state p states ps hstate hall ih =>
    rw [List.nodup_cons] at hps
    rw [List.map_cons, List.nodup_cons]
    refine ⟨fun hmem => hps.1 ?_, ih hps.2⟩
    obtain ⟨state', hstate', heq⟩ := List.mem_map.mp hmem
    obtain ⟨i, hi, hget⟩ := List.getElem_of_mem hstate'
    have hlt : i < ps.length := hall.length_eq ▸ hi
    have hviews := hall.get hi hlt
    rw [List.get_eq_getElem, List.get_eq_getElem, hget] at hviews
    have hat : trie.IsAt words ps[i] state.node := heq ▸ hviews.isAt
    exact hat.inj hstate.isAt ▸ List.getElem_mem hlt

end

/-- What the traversal returns, for every trie that can be opened. -/
theorem collectPredictiveNodesInBfsOrder_collects {words : List Bytes} {builder : LoudsTrieBuilder}
    {keyTrie : LoudsTrie} (hbuilder : LoudsTrieBuilder.ofWords words = some builder)
    {lb0CacheSize lb1CacheSize select0CacheSize select1CacheSize termvecCacheSize : Nat}
    (hopen : LoudsTrie.openImage builder.image lb0CacheSize lb1CacheSize select0CacheSize
      select1CacheSize termvecCacheSize = some keyTrie)
    (encodedKey : Bytes) (table : KeyExpansionTable) (limit : Nat) :
    ∃ result actualKeys,
      collectPredictiveNodesInBfsOrder keyTrie encodedKey table limit = some result ∧
      (result.map fun state => state.node).Nodup ∧
      List.Forall₂ (fun state p => keyTrie.traverse p {} = some (true, state.node) ∧
        (p.length ≤ LoudsTrie.kMaxDepth → keyTrie.restoreKeyStringOfNode state.node = some p) ∧
        state.keyPos = p.length ∧ state.numExpanded = expandedCount encodedKey p) result actualKeys ∧
      (∀ p ∈ actualKeys, p ∈ words ∧ ∃ e, IsExpansion table encodedKey e ∧ e <+: p) ∧
      ∀ p ∈ words, (∃ e, IsExpansion table encodedKey e ∧ e <+: p) →
        (p ∈ actualKeys ↔ ∀ last, actualKeys[limit]? = some last → p.length ≤ last.length) := by
  obtain ⟨h, -, -⟩ := stores_of_openImage hbuilder hopen
  obtain ⟨result, found, heq, hall, hresult⟩ :=
    collectPredictiveNodesInBfsOrder_eq h encodedKey table limit
  refine ⟨result, found, heq, nodup_nodes hall hresult.nodup, hall.imp ?_, fun p hp => ?_,
    fun p hp hexpansion => ?_⟩
  · intro state p hstate
    refine ⟨?_, h.restoreKeyStringOfNode_eq hstate.isAt, hstate.keyPos, hstate.numExpanded⟩
    obtain ⟨node, htraverse, hat⟩ := h.traverse_eq h.isAt_root p
    rw [List.nil_append] at htraverse hat
    have hp := hstate.isAt.mem
    rw [htraverse, decide_eq_true hp, (hat hp).unique hstate.isAt]
  · obtain ⟨⟨hword, hexpansion⟩, -⟩ := hresult.mem_iff.mp hp
    exact ⟨mem_sortWords.mp hword, hexpansion⟩
  · rw [hresult.mem_iff, and_iff_right ⟨mem_sortWords.mpr hp, hexpansion⟩]

/-- The keys "a" and "ab", of which only the shorter one is below the limit of 0. -/
theorem collectPredictiveNodesInBfsOrder_collects_a :
    ∃ (builder : LoudsTrieBuilder) (keyTrie : LoudsTrie) (result : List PredictiveLookupSearchState)
      (actualKeys : List Bytes),
    LoudsTrieBuilder.ofWords [[97, 98], [97]] = some builder ∧
    LoudsTrie.openImage builder.image 1024 1024 4096 4096 1024 = some keyTrie ∧
    collectPredictiveNodesInBfsOrder keyTrie [97] KeyExpansionTable.getDefaultInstance 0 =
      some result ∧
    result.length = actualKeys.length ∧ [97] ∈ actualKeys := by
  obtain ⟨builder, keyTrie, hbuilder, hopen, -, -⟩ := @exists_stores [[97, 98], [97]]
    (by decide) (fun st hst => by
      have heq : LoudsTrieBuilder.buildStreams (sortWords [[97, 98], [97]]) =
          some ((LoudsTrieBuilder.buildStreams (sortWords [[97, 98], [97]])).getD {}) := by
        decide +kernel
      rw [heq] at hst
      obtain rfl := Option.some.inj hst
      decide +kernel) 1024 1024 4096 4096 1024
  obtain ⟨result, actualKeys, heq, -, hall, hfound, hexact⟩ :=
    collectPredictiveNodesInBfsOrder_collects hbuilder hopen [97]
      KeyExpansionTable.getDefaultInstance 0
  have hexpansion : IsExpansion KeyExpansionTable.getDefaultInstance [97] [97] :=
    .cons (by rw [KeyExpansionTable.isHit_getDefaultInstance]; rfl) .nil
  refine ⟨builder, keyTrie, result, actualKeys, hbuilder, hopen, heq, hall.length_eq, ?_⟩
  refine (hexact [97] (by decide) ⟨[97], hexpansion, List.prefix_refl _⟩).mpr fun last hlast => ?_
  have hword := (hfound last (List.mem_of_getElem? hlast)).1
  rcases List.mem_cons.mp hword with rfl | hword
  · decide
  · rw [List.mem_singleton.mp hword]

end Mozkey.Dictionary
