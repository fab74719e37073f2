import Mozkey.Prediction.UserHistoryLookupCorrect

/-! The entries that `LookupEntry` creates with a new key and value: the chains of
`GetKeyValueForExactAndRightPrefixMatch`, and the inner segment boundaries of what is created. -/

namespace Mozkey.Prediction

open Storage Base

section chains

variable (dic : Dic)

def LeadsTo (entry next : Entry) : Prop :=
  ∃ fp ∈ entry.nextEntryFps, RecencyList.lookup dic fp = some next

/-- A path of links from `entry` without repeated entries, and what its keys and values are. -/
structure JoinsPath (entry : Entry) (path : List Entry) (key value : Bytes) : Prop where
  head : path.head? = some entry
  chain : path.IsChain (LeadsTo dic)
  nodup : (path.map fun e => (e.key, e.value)).Nodup
  key : key = path.flatMap Entry.key
  value : value = path.flatMap Entry.value

end chains

variable {modules : Modules} {dic : Dic} {entry next : Entry}

theorem eq_or_mem_of_foldl {f : Option Entry → Entry → Option Entry}
    (hf : ∀ latest e, f latest e = latest ∨ f latest e = some e) {init : Option Entry}
    {entries : List Entry} (h : entries.foldl f init = some next) :
    init = some next ∨ next ∈ entries := by
  induction entries generalizing init with
  | nil => exact .inl h
  | cons e entries ih =>
    rcases ih h with hinit | hmem
    · rcases hf init e with hkeep | htake
      · exact .inl (hkeep.symm.trans hinit)
      · cases htake.symm.trans hinit
        exact .inr List.mem_cons_self
    · exact .inr (List.mem_cons_of_mem _ hmem)

theorem nextEntry_spec {accepts : Entry → Bool} {left leftMost : Nat} {fps : List UInt64}
    (h : nextEntry dic accepts left leftMost fps = some next) :
    (∃ fp ∈ fps, RecencyList.lookup dic fp = some next) ∧ next.key ≠ [] ∧ accepts next = true := by
  have hmem : next ∈ (fps.filterMap (RecencyList.lookup dic)).filter fun entry =>
      entry.key ≠ [] ∧ accepts entry := by
    rw [nextEntry] at h
    dsimp only at h
    generalize (fps.filterMap (RecencyList.lookup dic)).filter (fun entry =>
      decide (entry.key ≠ [] ∧ accepts entry = true)) = entries at h ⊢
    have htime : ∀ time, (entries.filter fun entry => entry.lastAccessTime = time).getLast? =
        some next → next ∈ entries := fun time h =>
      List.mem_of_mem_filter (List.mem_of_getLast? h)
    rcases Option.or_eq_some_iff.mp h with h | ⟨-, h⟩
    · exact htime _ h
    · rcases Option.or_eq_some_iff.mp h with h | ⟨-, h⟩
      · exact htime _ h
      · refine (eq_or_mem_of_foldl (fun latest e => ?_) h).resolve_left
          (Option.some_ne_none next).symm
        cases latest with
        | none => exact .inr rfl
        | some latest =>
          dsimp only
          split
          · exact .inr rfl
          · exact .inl rfl
  rw [List.mem_filter, decide_eq_true_eq, List.mem_filterMap] at hmem
  exact ⟨hmem.1, hmem.2⟩

theorem getMatchType_cases {lstr rstr : Bytes}
    (h : getMatchType lstr rstr ∉ [MatchType.noMatch, .leftEmptyMatch]) :
    lstr <+: rstr ∨ rstr <+: lstr := by
  rw [getMatchType] at h
  dsimp only at h
  split at h
  · exact (h (by simp)).elim
  split at h
  · exact (h (by simp)).elim
  split at h
  · exact (h (by simp)).elim
  · rename_i htake
    rw [not_not] at htake
    rcases Nat.le_total lstr.length rstr.length with hle | hle
    · rw [Nat.min_eq_left hle, List.take_length] at htake
      exact .inl (htake ▸ List.take_prefix _ _)
    · rw [Nat.min_eq_right hle, List.take_length] at htake
      exact .inr (htake ▸ List.take_prefix _ _)

namespace JoinedEntries

variable {requestKey : Bytes} {preferExactMatch : Bool} {joined : JoinedEntries}

structure Follows (dic : Dic) (entry : Entry) (path : List Entry) (joined : JoinedEntries) : Prop
    extends JoinsPath dic entry path joined.key joined.value where
  last : path.getLast? = some joined.currentEntry
  seen : joined.seen = (path.map fun e => (e.key, e.value)).reverse
  builder : joined.builder = path.foldl (fun builder e => appendInnerBoundary e builder) {}

theorem follows_ofEntry (modules : Modules) (dic : Dic) (entry : Entry) :
    Follows dic entry [entry] (ofEntry modules entry) where
  head := rfl
  chain := List.isChain_singleton _
  nodup := List.nodup_singleton _
  key := (List.append_nil _).symm
  value := (List.append_nil _).symm
  last := rfl
  seen := rfl
  builder := rfl

theorem Follows.append {path : List Entry} (h : Follows dic entry path joined)
    (hleads : LeadsTo dic joined.currentEntry next) (hnew : (next.key, next.value) ∉ joined.seen) :
    Follows dic entry (path ++ [next]) (joined.append modules next) where
  head := by
    rw [List.head?_append, h.head]
    rfl
  chain := by
    refine List.isChain_append.mpr ⟨h.chain, List.isChain_singleton _, fun e he e' he' => ?_⟩
    rw [h.last] at he
    cases he
    cases he'
    exact hleads
  nodup := by
    rw [List.map_append, List.map_singleton]
    refine List.nodup_append.mpr ⟨h.nodup, List.nodup_singleton _, fun e he e' he' heq => ?_⟩
    rw [List.mem_singleton.mp he'] at heq
    rw [h.seen, List.mem_reverse] at hnew
    exact hnew (heq ▸ he)
  key := by
    rw [JoinedEntries.append, h.key, List.flatMap_append, List.flatMap_singleton]
  value := by
    rw [JoinedEntries.append, h.value, List.flatMap_append, List.flatMap_singleton]
  last := List.getLast?_concat
  seen := by
    rw [JoinedEntries.append, h.seen, List.map_append, List.reverse_append]
    rfl
  builder := by
    rw [JoinedEntries.append, h.builder, List.foldl_append]
    rfl

theorem extend_spec {path : List Entry} (h : Follows dic entry path joined) :
    ∃ path', Follows dic entry path' (extend modules dic requestKey preferExactMatch joined) ∧
      (extend modules dic requestKey preferExactMatch joined = joined ∨
        (extend modules dic requestKey preferExactMatch joined).key <+: requestKey ∨
          requestKey <+: (extend modules dic requestKey preferExactMatch joined).key) := by
  fun_induction extend modules dic requestKey preferExactMatch joined generalizing path with
  | case1 | case2 | case3 | case4 | case5 => exact ⟨path, h, .inl rfl⟩
  | case6 joined hshort hexact accepts next hnext hstart hnew =>
    rename_i ih
    obtain ⟨⟨fp, hfp, hlookup⟩, -, haccepts⟩ := nextEntry_spec hnext
    obtain ⟨path', hpath, hend⟩ := ih (h.append ⟨fp, hfp, hlookup⟩ hnew)
    refine ⟨path', hpath, .inr ?_⟩
    rcases hend with heq | hfits
    · rw [heq]
      exact getMatchType_cases (of_decide_eq_true haccepts)
    · exact hfits

end JoinedEntries

theorem JoinsPath.startsWith {path : List Entry} {key value : Bytes}
    (h : JoinsPath dic entry path key value) : entry.key <+: key := by
  obtain ⟨rest, rfl⟩ : ∃ rest, path = entry :: rest := by
    cases path with
    | nil => cases h.head
    | cons e rest =>
      cases h.head
      exact ⟨rest, rfl⟩
  rw [h.key, List.flatMap_cons]
  exact List.prefix_append _ _

theorem getKeyValue_eq_some_iff {requestKey : Bytes} {preferExactMatch : Bool}
    {keyValue : KeyValue} :
    (getKeyValueForExactAndRightPrefixMatch modules dic requestKey preferExactMatch entry).1 =
        some keyValue ↔
      ∃ joined,
        (getKeyValueForExactAndRightPrefixMatch modules dic requestKey preferExactMatch entry).2 =
          joined ∧
        requestKey.length ≤ joined.key.length ∧
        keyValue = { key := joined.key, value := joined.value,
                     innerSegmentBoundary := joined.builder.build joined.key joined.value } := by
  rw [getKeyValueForExactAndRightPrefixMatch]
  generalize JoinedEntries.extend modules dic requestKey preferExactMatch
    (JoinedEntries.ofEntry modules entry) = joined
  split
  · rename_i hshort
    refine iff_of_false (Option.some_ne_none _).symm ?_
    rintro ⟨-, rfl, hlen, -⟩
    exact Nat.not_lt_of_le hlen hshort
  · rename_i hlong
    constructor
    · intro h
      exact ⟨joined, rfl, Nat.le_of_not_lt hlong, (Option.some.inj h).symm⟩
    · rintro ⟨-, rfl, -, rfl⟩
      rfl

/-- What is joined is a path of links, whose key begins with the request key where it is long enough,
unless the start entry is not shorter and does not. -/
theorem getKeyValue_follows (modules : Modules) (dic : Dic) (requestKey : Bytes)
    (preferExactMatch : Bool) (entry : Entry) :
    ∃ joined path,
      (getKeyValueForExactAndRightPrefixMatch modules dic requestKey preferExactMatch entry).2 =
        joined ∧
      JoinedEntries.Follows dic entry path joined ∧
      (requestKey.length ≤ joined.key.length →
        (requestKey <+: joined.key ↔
          (requestKey.length ≤ entry.key.length → requestKey <+: entry.key))) := by
  obtain ⟨path, hpath, hend⟩ := @JoinedEntries.extend_spec modules dic entry requestKey
    preferExactMatch _ _ (JoinedEntries.follows_ofEntry modules dic entry)
  refine ⟨_, path, ?_, hpath, fun hlen => ?_⟩
  · rw [getKeyValueForExactAndRightPrefixMatch]
    split <;> rfl
  constructor
  · exact fun hstarts hle => List.prefix_of_prefix_length_le hstarts hpath.startsWith hle
  · intro hstart
    rcases hend with heq | hfits | hfits
    · rw [heq] at hlen ⊢
      exact hstart hlen
    · rw [hfits.eq_of_length_le hlen]
    · exact hfits

/-! What the builder makes of the pieces that it is given. -/

/-- The encoded lengths that a call adds, or nothing where it fails. -/
abbrev Piece := Option (List UInt32)

def addedPiece (keyLen valueLen contentKeyLen contentValueLen : Nat) : Piece :=
  (Converter.encodeLengths (keyLen % 2 ^ 32) (valueLen % 2 ^ 32) (contentKeyLen % 2 ^ 32)
    (contentValueLen % 2 ^ 32)).map fun encoded => [encoded]

def pieceOf (entry : Entry) : Piece :=
  if 0 < entry.innerSegmentBoundary.length then some entry.innerSegmentBoundary
  else addedPiece entry.key.length entry.value.length entry.key.length entry.value.length

def segmentPiece (it : Converter.InnerSegment) : Piece :=
  addedPiece it.key.length it.value.length it.contentKey.length it.contentValue.length

/-- What the builder is given for an entry that a decoded suffix is put behind. -/
def partialPieces (modules : Modules) (entry : Entry) (suffix : DecodedResult) : List Piece :=
  match suffix.innerSegments with
  | [] => []
  | it :: segments =>
    (if modules.isFunctional suffix.lid ∧ it.functionalKey = [] ∧ it.functionalValue = [] then
      [addedPiece (entry.key.length + it.key.length) (entry.value.length + it.value.length)
        entry.key.length entry.value.length]
    else
      [addedPiece entry.key.length entry.value.length entry.key.length entry.value.length,
        segmentPiece it]) ++ segments.map segmentPiece

def keySum (boundary : List UInt32) : Nat :=
  (boundary.map fun encoded => (Converter.decodeLengths encoded).keyLen).sum

def valueSum (boundary : List UInt32) : Nat :=
  (boundary.map fun encoded => (Converter.decodeLengths encoded).valueLen).sum

def encodedLengths (pieces : List Piece) : List UInt32 := (pieces.filterMap id).flatten

def AddsUp (boundary : List UInt32) (key value : Bytes) : Prop :=
  keySum boundary = key.length ∧ valueSum boundary = value.length

/-- The slices of the boundary, if there is one, are the key and the value. -/
def Sliced (entry : Entry) : Prop :=
  entry.innerSegmentBoundary = [] ∨ AddsUp entry.innerSegmentBoundary entry.key entry.value

/-- The builder has a boundary for the key and the value, which it compares in 32 bits. -/
def BuilderAccepts (pieces : List Piece) (key value : Bytes) : Prop :=
  none ∉ pieces ∧ encodedLengths pieces ≠ [] ∧ keySum (encodedLengths pieces) % 2 ^ 32 = key.length ∧
    valueSum (encodedLengths pieces) % 2 ^ 32 = value.length

/-- The pieces add up, or the builder refuses them and the boundary of `base` is none or fits. -/
def KeepsBoundary (base : Entry) (pieces : List Piece) (key value : Bytes) : Prop :=
  BuilderAccepts pieces key value ∧ AddsUp (encodedLengths pieces) key value ∨
    ¬ BuilderAccepts pieces key value ∧
      (base.innerSegmentBoundary = [] ∨ AddsUp base.innerSegmentBoundary key value)

section builders

variable {builder : Converter.InnerSegmentBoundaryBuilder} {pieces : List Piece} {key value : Bytes}

structure Holds (builder : Converter.InnerSegmentBoundaryBuilder) (pieces : List Piece) : Prop where
  error : builder.error = true ↔ none ∈ pieces
  boundary : none ∉ pieces → builder.boundary = encodedLengths pieces
  keyConsumed : none ∉ pieces → builder.keyConsumed = keySum (encodedLengths pieces) % 2 ^ 32
  valueConsumed : none ∉ pieces → builder.valueConsumed = valueSum (encodedLengths pieces) % 2 ^ 32

theorem holds_nil : Holds {} [] :=
  ⟨by simp, fun _ => rfl, fun _ => rfl, fun _ => rfl⟩

theorem encodedLengths_append (pieces : List Piece) (boundary : List UInt32) :
    encodedLengths (pieces ++ [some boundary]) = encodedLengths pieces ++ boundary := by
  simp [encodedLengths]

theorem keySum_append (xs ys : List UInt32) : keySum (xs ++ ys) = keySum xs + keySum ys := by
  simp [keySum]

theorem valueSum_append (xs ys : List UInt32) : valueSum (xs ++ ys) = valueSum xs + valueSum ys := by
  simp [valueSum]

theorem Holds.none (h : Holds builder pieces) (herror : builder.error = true) (piece : Piece) :
    Holds builder (pieces ++ [piece]) := by
  have hmem : Option.none ∈ pieces ++ [piece] := List.mem_append_left _ (h.error.mp herror)
  exact ⟨iff_of_true herror hmem, fun hno => absurd hmem hno, fun hno => absurd hmem hno,
    fun hno => absurd hmem hno⟩

theorem Holds.add (h : Holds builder pieces) (keyLen valueLen contentKeyLen contentValueLen : Nat) :
    Holds (builder.add keyLen valueLen contentKeyLen contentValueLen)
      (pieces ++ [addedPiece keyLen valueLen contentKeyLen contentValueLen]) := by
  rw [Converter.InnerSegmentBoundaryBuilder.add, addedPiece]
  by_cases herror : builder.error = true
  · rw [if_pos herror]
    exact h.none herror _
  rw [if_neg herror]
  have hno : Option.none ∉ pieces := mt h.error.mpr herror
  cases hencode : Converter.encodeLengths (keyLen % 2 ^ 32) (valueLen % 2 ^ 32)
      (contentKeyLen % 2 ^ 32) (contentValueLen % 2 ^ 32) with
  | none =>
    have hmem : Option.none ∈ pieces ++ [(Option.none : Piece)] :=
      List.mem_append_right _ (List.mem_singleton_self _)
    exact ⟨iff_of_true rfl hmem, fun hno => absurd hmem hno, fun hno => absurd hmem hno,
      fun hno => absurd hmem hno⟩
  | some encoded =>
    obtain ⟨hdecode, -⟩ := Converter.decodeLengths_of_encodeLengths hencode
    have hnone : Option.none ∉ pieces ++ [some [encoded]] := by simpa using hno
    have hkey : keySum [encoded] = keyLen % 2 ^ 32 := by simp [keySum, hdecode]
    have hvalue : valueSum [encoded] = valueLen % 2 ^ 32 := by simp [valueSum, hdecode]
    refine ⟨iff_of_false herror hnone, fun _ => ?_, fun _ => ?_, fun _ => ?_⟩
    · exact (congrArg (· ++ [encoded]) (h.boundary hno)).trans (encodedLengths_append _ _).symm
    · refine (congrArg (fun n => (n + keyLen) % 2 ^ 32) (h.keyConsumed hno)).trans ?_
      simp only [Option.map_some, encodedLengths_append, keySum_append, hkey]
      omega
    · refine (congrArg (fun n => (n + valueLen) % 2 ^ 32) (h.valueConsumed hno)).trans ?_
      simp only [Option.map_some, encodedLengths_append, valueSum_append, hvalue]
      omega

theorem foldl_addEncoded (boundary : List UInt32) (builder : Converter.InnerSegmentBoundaryBuilder)
    (hkey : builder.keyConsumed < 2 ^ 32) (hvalue : builder.valueConsumed < 2 ^ 32) :
    boundary.foldl (fun builder encoded => builder.addEncoded encoded) builder =
      { error := builder.error
        boundary := builder.boundary ++ boundary
        keyConsumed := (builder.keyConsumed + keySum boundary) % 2 ^ 32
        valueConsumed := (builder.valueConsumed + valueSum boundary) % 2 ^ 32 } := by
  induction boundary generalizing builder with
  | nil =>
    obtain ⟨error, boundary, keyConsumed, valueConsumed⟩ := builder
    have hkey : keyConsumed % 2 ^ 32 = keyConsumed := Nat.mod_eq_of_lt hkey
    have hvalue : valueConsumed % 2 ^ 32 = valueConsumed := Nat.mod_eq_of_lt hvalue
    simp only [List.foldl_nil, keySum, valueSum, List.map_nil, List.sum_nil, Nat.add_zero,
      List.append_nil, hkey, hvalue]
  | cons encoded boundary ih =>
    have hlt : ∀ n, n % 2 ^ 32 < 2 ^ 32 := fun n => Nat.mod_lt n (by decide)
    rw [List.foldl_cons, ih _ (hlt _) (hlt _), Converter.InnerSegmentBoundaryBuilder.addEncoded]
    simp only [keySum, valueSum, List.map_cons, List.sum_cons, List.append_assoc,
      List.singleton_append, Nat.mod_add_mod, Nat.add_assoc]

theorem error_foldl_addEncoded (boundary : List UInt32)
    (builder : Converter.InnerSegmentBoundaryBuilder) :
    (boundary.foldl (fun builder encoded => builder.addEncoded encoded) builder).error =
      builder.error := by
  induction boundary generalizing builder with
  | nil => rfl
  | cons encoded boundary ih => exact ih (builder.addEncoded encoded)

theorem Holds.appendInnerBoundary (h : Holds builder pieces) (entry : Entry) :
    Holds (appendInnerBoundary entry builder) (pieces ++ [pieceOf entry]) := by
  rw [Prediction.appendInnerBoundary, pieceOf]
  by_cases hpos : 0 < entry.innerSegmentBoundary.length
  · rw [if_pos hpos, if_pos hpos]
    by_cases herror : builder.error = true
    · refine Holds.none ⟨?_, ?_, ?_, ?_⟩ ((error_foldl_addEncoded _ _).trans herror) _
      · rw [error_foldl_addEncoded, h.error]
      all_goals exact fun hno => absurd (h.error.mp herror) hno
    · have hno : Option.none ∉ pieces := mt h.error.mpr herror
      have hmod : ∀ n, n % 2 ^ 32 < 2 ^ 32 := fun n => Nat.mod_lt n (by decide)
      rw [foldl_addEncoded _ _ ((h.keyConsumed hno).symm ▸ hmod _)
        ((h.valueConsumed hno).symm ▸ hmod _)]
      refine ⟨iff_of_false herror (by simpa using hno), fun _ => ?_, fun _ => ?_, fun _ => ?_⟩
      · rw [h.boundary hno, encodedLengths_append]
      · rw [h.keyConsumed hno, encodedLengths_append, keySum_append, Nat.mod_add_mod]
      · rw [h.valueConsumed hno, encodedLengths_append, valueSum_append, Nat.mod_add_mod]
  · rw [if_neg hpos, if_neg hpos]
    exact h.add _ _ _ _

theorem holds_foldl_appendInnerBoundary (path : List Entry) (h : Holds builder pieces) :
    Holds (path.foldl (fun builder e => Prediction.appendInnerBoundary e builder) builder)
      (pieces ++ path.map pieceOf) := by
  induction path generalizing builder pieces with
  | nil => simpa using h
  | cons e path ih =>
    rw [List.foldl_cons, List.map_cons, ← List.singleton_append, ← List.append_assoc]
    exact ih (h.appendInnerBoundary e)

theorem holds_foldl_addSegment (segments : List Converter.InnerSegment) (h : Holds builder pieces) :
    Holds (segments.foldl (fun builder it => builder.addSegment it) builder)
      (pieces ++ segments.map segmentPiece) := by
  induction segments generalizing builder pieces with
  | nil => simpa using h
  | cons it segments ih =>
    rw [List.foldl_cons, List.map_cons, ← List.singleton_append, ← List.append_assoc]
    exact ih (h.add _ _ _ _)

theorem holds_partialMatchBoundary (modules : Modules) (entry : Entry) (suffix : DecodedResult) :
    Holds (partialMatchBoundary modules entry suffix) (partialPieces modules entry suffix) := by
  rw [partialMatchBoundary, partialPieces]
  cases suffix.innerSegments with
  | nil => exact holds_nil
  | cons it segments =>
    apply holds_foldl_addSegment
    split
    · exact holds_nil.add _ _ _ _
    · exact (holds_nil.add _ _ _ _).add _ _ _ _

theorem Holds.build (h : Holds builder pieces) (key value : Bytes) :
    (BuilderAccepts pieces key value → builder.build key value = encodedLengths pieces) ∧
      (¬ BuilderAccepts pieces key value → builder.build key value = []) := by
  rw [Converter.InnerSegmentBoundaryBuilder.build]
  constructor
  · rintro ⟨hno, -, hkey, hvalue⟩
    rw [if_neg, h.boundary hno]
    rintro (herror | hne | hne)
    · exact hno (h.error.mp herror)
    · exact hne ((h.keyConsumed hno).trans hkey)
    · exact hne ((h.valueConsumed hno).trans hvalue)
  · intro hrefuse
    split
    · rfl
    · rename_i haccept
      simp only [not_or, not_not] at haccept
      have hno : Option.none ∉ pieces := mt h.error.mpr haccept.1
      rw [h.boundary hno]
      by_contra hne
      exact hrefuse ⟨hno, hne, (h.keyConsumed hno).symm.trans haccept.2.1,
        (h.valueConsumed hno).symm.trans haccept.2.2⟩

theorem sliced_addEntryWithNewKeyValue (modules : Modules) (dic : Dic) (key value : Bytes)
    (boundary : List UInt32) (base : Entry) (queue : EntryPriorityQueue) :
    Sliced (addEntryWithNewKeyValue modules dic key value boundary base queue).1.entry ↔
      boundary ≠ [] ∧ AddsUp boundary key value ∨
        boundary = [] ∧
          (base.innerSegmentBoundary = [] ∨ AddsUp base.innerSegmentBoundary key value) := by
  rw [addEntryWithNewKeyValue, maybePopulateInnerSegmentBoundary]
  split
  · rename_i hempty
    simp only [hempty, ne_eq, not_true_eq_false, false_and, false_or, true_and]
    exact Iff.rfl
  · rename_i hbuilt
    simp only [hbuilt, ne_eq, not_false_eq_true, false_and, or_false, true_and]
    exact or_iff_right hbuilt

theorem Holds.sliced_iff (h : Holds builder pieces) (modules : Modules) (dic : Dic) (base : Entry)
    (queue : EntryPriorityQueue) :
    Sliced (addEntryWithNewKeyValue modules dic key value (builder.build key value) base
      queue).1.entry ↔ KeepsBoundary base pieces key value := by
  obtain ⟨haccept, hrefuse⟩ := h.build key value
  rw [sliced_addEntryWithNewKeyValue, KeepsBoundary]
  by_cases hbuilds : BuilderAccepts pieces key value
  · simp [haccept hbuilds, hbuilds, hbuilds.2.1]
  · simp [hrefuse hbuilds, hbuilds]

end builders

structure Lookup where
  modules : Modules
  request : LookupRequest
  dic : Dic
  requestKey : Bytes
  keyBase : Bytes
  keyExpanded : Option (Trie Bytes)
  entry : Entry
  prevEntry : Option Entry
  exactMatchOnly : Bool
  queue : EntryPriorityQueue

namespace Lookup

variable (lookup : Lookup)

def mtype : MatchType :=
  getMatchTypeFromInput lookup.requestKey lookup.keyBase lookup.keyExpanded lookup.entry.key

def Passes : Prop :=
  lookup.mtype ≠ .noMatch ∧
    ¬ (lookup.exactMatchOnly ∧ lookup.mtype ≠ .rightPrefixMatch ∧ lookup.mtype ≠ .exactMatch) ∧
    ¬ (¬ lookup.exactMatchOnly ∧ isLowFreqFullSentenceEntry lookup.request lookup.entry ∧
      ¬ allowLowFreqFullSentenceEntryMatch lookup.requestKey lookup.mtype lookup.entry)

/-- The lookup comes to `GetKeyValueForExactAndRightPrefixMatch`. -/
def Chains : Prop :=
  lookup.Passes ∧ lookup.exactMatchOnly = false ∧
    (lookup.mtype = .rightPrefixMatch ∨
      lookup.mtype = .exactMatch ∧ lookup.request.mixedConversion = false)

def chain : Option KeyValue × JoinedEntries :=
  getKeyValueForExactAndRightPrefixMatch lookup.modules lookup.dic lookup.requestKey
    (lookup.request.mixedConversion || lookup.exactMatchOnly) lookup.entry

def MatchesPartially : Prop :=
  lookup.Passes ∧ lookup.mtype = .rightPrefixMatch ∧
    (lookup.exactMatchOnly = true ∨ lookup.chain.1 = none)

def partialKeyValue : Option KeyValue :=
  (getKeyValueForPartialMatch lookup.modules lookup.request lookup.requestKey lookup.entry
    lookup.queue).1

def found : Option Match × EntryPriorityQueue :=
  matchEntry lookup.modules lookup.request lookup.dic lookup.requestKey lookup.mtype lookup.entry
    lookup.prevEntry lookup.exactMatchOnly lookup.queue

def result (found : Match) : Entry :=
  boostBigram lookup.modules lookup.mtype lookup.entry lookup.prevEntry found.result.entry

def entryBehind (found : Match) : Option Entry := do
  let lastEntry ← found.lastEntry
  guard (¬ (charsLen (lookup.result found).key < 1 ∨
    2 * charsLen lookup.requestKey < charsLen (lookup.result found).key))
  let next ← nextEntry lookup.dic (fun _ => true) found.leftLastAccessTime
    found.leftMostLastAccessTime lastEntry.nextEntryFps
  guard (next.key ≠ [] ∧ isWithin10Seconds next lastEntry ∧ ¬ startsWithPunctuation next.value ∧
    isContentWord lookup.modules next.value)
  some next

/-- The entry that is made of a key and a value for a match. -/
def created (keyValue : KeyValue) : Entry :=
  (addEntryWithNewKeyValue lookup.modules lookup.dic keyValue.key keyValue.value
    keyValue.innerSegmentBoundary lookup.entry lookup.queue).1.entry

/-- The entry that is made of a result and the entry behind it. -/
def createdJoined (result next : Entry) : Entry :=
  (addEntryWithNewKeyValue lookup.modules lookup.dic (result.key ++ next.key)
    (result.value ++ next.value)
    ((appendInnerBoundary next (appendInnerBoundary result {})).build (result.key ++ next.key)
      (result.value ++ next.value)) result lookup.queue).1.entry

/-- The lookup joins its result with the entry behind it. -/
def Joins (result next : Entry) : Prop :=
  lookup.Passes ∧ lookup.request.mixedConversion = false ∧ lookup.exactMatchOnly = false ∧
    ∃ found, lookup.found.1 = some found ∧ lookup.result found = result ∧
      lookup.entryBehind found = some next

/-- The entries that the lookup makes with a new key and value. -/
inductive Creates : Entry → Prop
  | chained {keyValue : KeyValue} (hchains : lookup.Chains)
      (hsucceeds : lookup.chain.1 = some keyValue) : Creates (lookup.created keyValue)
  | partially {keyValue : KeyValue} (hmatches : lookup.MatchesPartially)
      (hsucceeds : lookup.partialKeyValue = some keyValue) : Creates (lookup.created keyValue)
  | joined {result next : Entry} (hjoins : lookup.Joins result next) :
      Creates (lookup.createdJoined result next)

/-- What a chain produces is what a path of links spells, and what is made is sliced right. -/
structure Combines : Prop where
  chained : lookup.Chains → ∀ keyValue, lookup.chain.1 = some keyValue →
    (∃ path, JoinsPath lookup.dic lookup.entry path keyValue.key keyValue.value) ∧
      lookup.requestKey <+: keyValue.key
  created : ∀ entry, lookup.Creates entry → Sliced entry

/-- The start entry fits the request key, and the boundary is kept for what is put together: a path
of links, an entry with a decoded suffix, a result with the entry behind it. -/
structure KeepsBoundaries : Prop where
  start : lookup.Chains → lookup.requestKey.length ≤ lookup.entry.key.length →
    lookup.requestKey <+: lookup.entry.key
  chained : lookup.Chains → ∀ path, JoinedEntries.Follows lookup.dic lookup.entry path lookup.chain.2 →
    lookup.requestKey.length ≤ (path.flatMap Entry.key).length →
    KeepsBoundary lookup.entry (path.map pieceOf) (path.flatMap Entry.key)
      (path.flatMap Entry.value)
  partially : lookup.MatchesPartially → lookup.partialKeyValue.isSome → ∀ suffix,
    lookup.modules.decodeSuffix lookup.request lookup.modules.firstNameId
      (lookup.requestKey.drop lookup.entry.key.length) = some suffix →
    KeepsBoundary lookup.entry (partialPieces lookup.modules lookup.entry suffix)
      (lookup.entry.key ++ suffix.key) (lookup.entry.value ++ suffix.value)
  joined : ∀ result next, lookup.Joins result next →
    KeepsBoundary result [pieceOf result, pieceOf next] (result.key ++ next.key)
      (result.value ++ next.value)

variable {lookup}

theorem chained_iff (lookup : Lookup) :
    (∀ keyValue, lookup.chain.1 = some keyValue →
      (∃ path, JoinsPath lookup.dic lookup.entry path keyValue.key keyValue.value) ∧
        lookup.requestKey <+: keyValue.key) ↔
      (lookup.requestKey.length ≤ lookup.entry.key.length →
        lookup.requestKey <+: lookup.entry.key) := by
  obtain ⟨joined, path, hjoined, hpath, hstart⟩ := getKeyValue_follows lookup.modules lookup.dic
    lookup.requestKey (lookup.request.mixedConversion || lookup.exactMatchOnly) lookup.entry
  rw [chain]
  constructor
  · intro h hle
    have hlen := hle.trans hpath.startsWith.length_le
    exact (hstart hlen).mp (h _ (getKeyValue_eq_some_iff.mpr ⟨joined, hjoined, hlen, rfl⟩)).2 hle
  · intro h keyValue hsome
    obtain ⟨-, rfl, hlen, rfl⟩ := getKeyValue_eq_some_iff.mp hsome
    rw [hjoined] at hlen ⊢
    exact ⟨⟨path, hpath.toJoinsPath⟩, (hstart hlen).mpr h⟩

theorem sliced_chained_iff {path : List Entry} {keyValue : KeyValue}
    (hpath : JoinedEntries.Follows lookup.dic lookup.entry path lookup.chain.2)
    (hsome : lookup.chain.1 = some keyValue) :
    Sliced (lookup.created keyValue) ↔
      KeepsBoundary lookup.entry (path.map pieceOf) (path.flatMap Entry.key)
        (path.flatMap Entry.value) := by
  obtain ⟨joined, hjoined, -, rfl⟩ := getKeyValue_eq_some_iff.mp hsome
  have hholds := holds_foldl_appendInnerBoundary path holds_nil
  rw [chain, hjoined] at hpath
  rw [← hpath.builder, List.nil_append] at hholds
  rw [← hpath.key, ← hpath.value]
  exact hholds.sliced_iff _ _ _ _

theorem partialKeyValue_spec {keyValue : KeyValue} (hsome : lookup.partialKeyValue = some keyValue) :
    ∃ suffix,
      lookup.modules.decodeSuffix lookup.request lookup.modules.firstNameId
        (lookup.requestKey.drop lookup.entry.key.length) = some suffix ∧
      keyValue.key = lookup.entry.key ++ suffix.key ∧
      keyValue.value = lookup.entry.value ++ suffix.value ∧
      keyValue.innerSegmentBoundary =
        (partialMatchBoundary lookup.modules lookup.entry suffix).build keyValue.key
          keyValue.value := by
  have hmatch : ∃ disallowedCount, partialMatch lookup.modules lookup.request lookup.requestKey
      lookup.entry disallowedCount = some keyValue := by
    rw [partialKeyValue, getKeyValueForPartialMatch] at hsome
    split at hsome
    · cases hsome
    · dsimp only at hsome
      split at hsome
      · cases hsome
      · split at hsome
        · cases hsome
        · split at hsome
          · cases hsome
          · exact ⟨_, hsome⟩
  obtain ⟨disallowedCount, hmatch⟩ := hmatch
  rw [partialMatch] at hmatch
  simp only [Option.bind_eq_bind, Option.bind_eq_some_iff] at hmatch
  obtain ⟨full, -, suffix, hsuffix, hcost⟩ := hmatch
  split at hcost
  · cases hcost
    exact ⟨suffix, hsuffix, rfl, rfl, rfl⟩
  · split at hcost
    · cases hcost
      exact ⟨suffix, hsuffix, rfl, rfl, rfl⟩
    · cases hcost

theorem sliced_partially_iff {suffix : DecodedResult} {keyValue : KeyValue}
    (hsome : lookup.partialKeyValue = some keyValue)
    (hsuffix : lookup.modules.decodeSuffix lookup.request lookup.modules.firstNameId
      (lookup.requestKey.drop lookup.entry.key.length) = some suffix) :
    Sliced (lookup.created keyValue) ↔
      KeepsBoundary lookup.entry (partialPieces lookup.modules lookup.entry suffix)
        (lookup.entry.key ++ suffix.key) (lookup.entry.value ++ suffix.value) := by
  obtain ⟨suffix', hsuffix', hkey, hvalue, hboundary⟩ := partialKeyValue_spec hsome
  obtain rfl : suffix' = suffix := Option.some.inj (hsuffix'.symm.trans hsuffix)
  rw [created, hboundary, hkey, hvalue]
  exact (holds_partialMatchBoundary _ _ _).sliced_iff _ _ _ _

theorem sliced_joined_iff (lookup : Lookup) (result next : Entry) :
    Sliced (lookup.createdJoined result next) ↔
      KeepsBoundary result [pieceOf result, pieceOf next] (result.key ++ next.key)
        (result.value ++ next.value) :=
  ((holds_nil.appendInnerBoundary result).appendInnerBoundary next).sliced_iff _ _ _ _

/-- The entry as it is stored, or one that the lookup makes, with other bits and another time. -/
def Offers (offered : Entry) : Prop :=
  ∃ entry, (entry = lookup.entry ∨ lookup.Creates entry) ∧ offered.key = entry.key ∧
    offered.value = entry.value ∧ offered.innerSegmentBoundary = entry.innerSegmentBoundary

/-- What the lookup has put in the queue is what it offers. -/
def OffersOnly (queue : EntryPriorityQueue) : Prop :=
  ∀ x ∈ queue.agenda, x ∈ lookup.queue.agenda ∨ lookup.Offers x.pooled.entry

def OffersMatch (found : Option Match × EntryPriorityQueue) : Prop :=
  (∀ m, found.1 = some m → lookup.Offers m.result.entry) ∧ found.2.agenda = lookup.queue.agenda

theorem offersMatch_none {queue : EntryPriorityQueue} (h : queue.agenda = lookup.queue.agenda) :
    lookup.OffersMatch (none, queue) :=
  ⟨fun _ hnone => (Option.some_ne_none _ hnone.symm).elim, h⟩

theorem offersMatch_asStored (lookup : Lookup) :
    lookup.OffersMatch (matchAsStored lookup.modules lookup.entry lookup.queue) := by
  refine ⟨fun m hm => ?_, rfl⟩
  rw [← Option.some.inj hm]
  exact ⟨lookup.entry, .inl rfl, rfl, rfl, rfl⟩

theorem offersMatch_keyValue {keyValue : KeyValue} {queue : EntryPriorityQueue}
    (hcreates : lookup.Creates (lookup.created keyValue))
    (hqueue : queue.agenda = lookup.queue.agenda) (joined : JoinedEntries) :
    lookup.OffersMatch
      (matchKeyValue lookup.modules lookup.dic lookup.entry joined keyValue queue) := by
  refine ⟨fun m hm => ?_, hqueue⟩
  rw [← Option.some.inj hm]
  exact ⟨_, .inr hcreates, rfl, rfl, rfl⟩

theorem agenda_getKeyValueForPartialMatch (modules : Modules) (request : LookupRequest)
    (requestKey : Bytes) (entry : Entry) (queue : EntryPriorityQueue) :
    (getKeyValueForPartialMatch modules request requestKey entry queue).2.agenda = queue.agenda := by
  rw [getKeyValueForPartialMatch]
  split
  · rfl
  · dsimp only
    split
    · rfl
    · split
      · rfl
      · split <;> rfl

theorem offersMatch_found (hpasses : lookup.Passes) : lookup.OffersMatch lookup.found := by
  rw [found]
  cases hmtype : lookup.mtype with
  | noMatch => exact offersMatch_none rfl
  | leftEmptyMatch =>
    rw [matchEntry]
    split
    · exact lookup.offersMatch_asStored
    · exact offersMatch_none rfl
  | leftPrefixMatch => exact lookup.offersMatch_asStored
  | rightPrefixMatch =>
    have hagenda := agenda_getKeyValueForPartialMatch lookup.modules lookup.request
      lookup.requestKey lookup.entry lookup.queue
    rw [matchEntry]
    dsimp only
    split
    · rename_i keyValue hsome
      split at hsome
      · cases hsome
      · rename_i honly
        have hchains : lookup.Chains :=
          ⟨hpasses, Bool.eq_false_of_not_eq_true honly, .inl hmtype⟩
        exact offersMatch_keyValue (.chained hchains hsome) rfl _
    · rename_i hnone
      have hmatches : lookup.MatchesPartially := by
        refine ⟨hpasses, hmtype, ?_⟩
        split at hnone
        · exact .inl ‹_›
        · exact .inr hnone
      split
      · rename_i keyValue hsome
        exact offersMatch_keyValue (.partially hmatches hsome) hagenda _
      · exact offersMatch_none hagenda
  | exactMatch =>
    rw [matchEntry]
    dsimp only
    split
    · exact lookup.offersMatch_asStored
    · rename_i hprefer
      rw [Bool.or_eq_true, not_or, Bool.not_eq_true, Bool.not_eq_true] at hprefer
      have hchains : lookup.Chains := ⟨hpasses, hprefer.2, .inr ⟨hmtype, hprefer.1⟩⟩
      split
      · rename_i keyValue hsome
        exact offersMatch_keyValue (.chained hchains hsome) rfl _
      · exact offersMatch_none rfl

theorem offers_boostBigram {found : Match} (h : lookup.Offers found.result.entry) :
    lookup.Offers (lookup.result found) := by
  obtain ⟨entry, hentry, hkey, hvalue, hboundary⟩ := h
  have hsame : (lookup.result found).key = found.result.entry.key ∧
      (lookup.result found).value = found.result.entry.value ∧
      (lookup.result found).innerSegmentBoundary = found.result.entry.innerSegmentBoundary := by
    rw [result]
    cases lookup.prevEntry with
    | none => exact ⟨rfl, rfl, rfl⟩
    | some prevEntry =>
      unfold boostBigram
      dsimp only
      split
      · exact ⟨rfl, rfl, rfl⟩
      · split <;> exact ⟨rfl, rfl, rfl⟩
  exact ⟨entry, hentry, hsame.1.trans hkey, hsame.2.1.trans hvalue, hsame.2.2.trans hboundary⟩

theorem OffersOnly.push {queue : EntryPriorityQueue} (h : lookup.OffersOnly queue)
    {pooled : PooledEntry} (hpooled : lookup.Offers pooled.entry) :
    lookup.OffersOnly (queue.push lookup.modules pooled) := by
  rw [EntryPriorityQueue.push]
  split
  · exact h
  · intro x hx
    rcases List.mem_cons.mp hx with rfl | hx
    · exact .inr hpooled
    · exact h x hx

theorem entryBehind_eq_some {found : Match} {lastEntry next : Entry}
    (hlast : found.lastEntry = some lastEntry)
    (hchars : ¬ (charsLen (lookup.result found).key < 1 ∨
      2 * charsLen lookup.requestKey < charsLen (lookup.result found).key))
    (hnext : nextEntry lookup.dic (fun _ => true) found.leftLastAccessTime
      found.leftMostLastAccessTime lastEntry.nextEntryFps = some next)
    (hbehind : next.key ≠ [] ∧ isWithin10Seconds next lastEntry ∧
      ¬ startsWithPunctuation next.value ∧ isContentWord lookup.modules next.value) :
    lookup.entryBehind found = some next := by
  simp only [entryBehind, hlast, hnext, Option.bind_eq_bind, Option.bind_some, guard,
    if_pos hchars, if_pos hbehind]
  rfl

theorem offersOnly_pushJoined {queue : EntryPriorityQueue} (h : lookup.OffersOnly queue)
    (hpasses : lookup.Passes) (hmixed : lookup.request.mixedConversion = false)
    (honly : lookup.exactMatchOnly = false) {found : Match} (hfound : lookup.found.1 = some found) :
    lookup.OffersOnly (pushJoined lookup.modules lookup.dic lookup.requestKey found
      (lookup.result found) queue) := by
  rw [pushJoined]
  split
  · exact h
  · rename_i lastEntry hlast
    split
    · exact h
    · rename_i hchars
      split
      · exact h
      · rename_i next hnext
        split
        · rename_i hbehind
          have hjoins : lookup.Joins (lookup.result found) next :=
            ⟨hpasses, hmixed, honly, found, hfound, rfl,
              entryBehind_eq_some hlast hchars hnext hbehind⟩
          dsimp only
          split
          · exact h
          · apply OffersOnly.push
            · exact h
            · exact ⟨_, .inr (.joined hjoins), rfl, rfl, rfl⟩
        · exact h

/-- `LookupEntry` offers the entry as it is stored or what it makes. -/
theorem offersOnly_lookupEntry (lookup : Lookup) :
    lookup.OffersOnly (lookupEntry lookup.modules lookup.request lookup.dic lookup.requestKey
      lookup.keyBase lookup.keyExpanded lookup.entry lookup.prevEntry lookup.exactMatchOnly
      lookup.queue).2 := by
  have hqueue : lookup.OffersOnly lookup.queue := fun x hx => .inl hx
  rw [lookupEntry]
  dsimp only
  split
  · exact hqueue
  rename_i hmatch
  split
  · exact hqueue
  rename_i honly
  split
  · exact hqueue
  rename_i hfreq
  have hpasses : lookup.Passes := ⟨hmatch, honly, hfreq⟩
  obtain ⟨hoffers, hagenda⟩ := offersMatch_found hpasses
  split
  · rename_i queue heq
    have hfound : lookup.found = (none, queue) := heq
    rw [hfound] at hagenda
    exact fun x hx => .inl (hagenda ▸ hx)
  · rename_i found queue heq
    have hfound : lookup.found = (some found, queue) := heq
    rw [hfound] at hoffers hagenda
    have hresult := offers_boostBigram (hoffers found rfl)
    have hpushed : ∀ (c : Prop) [Decidable c], lookup.OffersOnly (if c then
        queue.push lookup.modules { found.result with entry := lookup.result found } else queue) := by
      intro c _
      have hstart : lookup.OffersOnly queue := fun x hx => .inl (hagenda ▸ hx)
      split
      · exact hstart.push hresult
      · exact hstart
    split
    · exact hpushed _
    · rename_i hjoins
      rw [not_or, Bool.not_eq_true, Bool.not_eq_true] at hjoins
      exact offersOnly_pushJoined (hpushed _) hpasses hjoins.1 hjoins.2 (by rw [hfound])

end Lookup

/-- The key is too long for a segment, but not for an entry. -/
def longKeyEntry : Entry :=
  { key := List.replicate 256 0x62, value := [0x62, 0x62], suggestionFreq := 1 }

/-- An entry of one segment that leads to the long one. -/
def entryBeforeLongKey : Entry :=
  { key := [0x61, 0x62], value := [0x61, 0x62], suggestionFreq := 1,
    nextEntryFps := [longKeyEntry.fp byteSum], innerSegmentBoundary := [0x02020202] }

def lookupBeforeLongKey : Lookup :=
  { modules := hiraganaModules, request := {},
    dic := [(longKeyEntry.fp byteSum, longKeyEntry),
      (entryBeforeLongKey.fp byteSum, entryBeforeLongKey)],
    requestKey := [0x61], keyBase := [0x61], keyExpanded := none, entry := entryBeforeLongKey,
    prevEntry := none, exactMatchOnly := false, queue := {} }

theorem nextEntry_first {fp : UInt64} {rest : Dic} (hkey : next.key ≠ [])
    (htime : next.lastAccessTime = 0) :
    nextEntry ((fp, next) :: rest) (fun _ => true) 0 0 [fp] = some next := by
  simp [nextEntry, RecencyList.lookup, hkey, htime]

theorem pieceOf_longKeyEntry : pieceOf longKeyEntry = none := by
  have hlength : longKeyEntry.key.length = 256 := List.length_replicate
  rw [pieceOf, if_neg (by decide), hlength]
  rfl

end Mozkey.Prediction
