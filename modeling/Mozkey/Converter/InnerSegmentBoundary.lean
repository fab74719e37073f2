import Mozkey.Converter.InnerSegment
import Mozkey.Converter.NBestGenerator

/-! The boundary that `InnerSegmentBoundaryBuilder` builds, read back by `InnerSegments`, and the
lengths that `FillInnerSegmentInfo` of `converter/nbest_generator.cc` gives to the builder. -/

namespace Mozkey.Converter

structure AddedLengths where
  keyLen : UInt32
  valueLen : UInt32
  contentKeyLen : UInt32
  contentValueLen : UInt32
  deriving DecidableEq

namespace AddedLengths

variable (lengths : AddedLengths)

def encode : Option UInt32 :=
  encodeLengths lengths.keyLen.toNat lengths.valueLen.toNat lengths.contentKeyLen.toNat
    lengths.contentValueLen.toNat

/-- The lengths with the content lengths as they are repaired. -/
def data : LengthData :=
  { keyLen := lengths.keyLen.toNat
    valueLen := lengths.valueLen.toNat
    contentKeyLen := fixContentLen lengths.contentKeyLen.toNat lengths.keyLen.toNat
    contentValueLen := fixContentLen lengths.contentValueLen.toNat lengths.valueLen.toNat }

def add (builder : InnerSegmentBoundaryBuilder) : InnerSegmentBoundaryBuilder :=
  builder.add lengths.keyLen.toNat lengths.valueLen.toNat lengths.contentKeyLen.toNat
    lengths.contentValueLen.toNat

end AddedLengths

def buildAdded (added : List AddedLengths) (key value : Bytes) : List UInt32 :=
  (added.foldl (fun builder (lengths : AddedLengths) => lengths.add builder) {}).build key value

def getPrefixKeyAndValue (key value : Bytes) (encodedLengths : List UInt32) (size : Int) :
    Bytes × Bytes :=
  if size < 0 then (key, value) else prefixKeyAndValue key value encodedLengths size.toNat

def getSuffixKeyAndValue (key value : Bytes) (encodedLengths : List UInt32) (size : Int) :
    Bytes × Bytes :=
  if size = 0 then ([], [])
  else if size < 0 then (key, value)
  else suffixKeyAndValue key value encodedLengths size.toNat

def InnerSegment.data (it : InnerSegment) : LengthData :=
  { keyLen := it.key.length
    valueLen := it.value.length
    contentKeyLen := it.contentKey.length
    contentValueLen := it.contentValue.length }

section iteration

variable {key value : Bytes}

theorem AddedLengths.add_of_encode {lengths : AddedLengths} {encoded : UInt32}
    {builder : InnerSegmentBoundaryBuilder} (h : lengths.encode = some encoded)
    (hok : builder.error = false) :
    lengths.add builder =
      { error := false
        boundary := builder.boundary ++ [encoded]
        keyConsumed := (builder.keyConsumed + lengths.keyLen.toNat) % 2 ^ 32
        valueConsumed := (builder.valueConsumed + lengths.valueLen.toNat) % 2 ^ 32 } := by
  have hmod : ∀ n : UInt32, n.toNat % 2 ^ 32 = n.toNat := fun n => Nat.mod_eq_of_lt n.toNat_lt
  rw [AddedLengths.encode] at h
  rw [AddedLengths.add, InnerSegmentBoundaryBuilder.add, hok, if_neg Bool.false_ne_true]
  simp only [hmod, h]

theorem foldl_add {added : List AddedLengths} (h : ∀ lengths ∈ added, lengths.encode.isSome)
    {builder : InnerSegmentBoundaryBuilder} (hok : builder.error = false)
    (hkey : builder.keyConsumed < 2 ^ 32) (hvalue : builder.valueConsumed < 2 ^ 32) :
    added.foldl (fun builder (lengths : AddedLengths) => lengths.add builder) builder =
      { error := false
        boundary := builder.boundary ++ added.filterMap AddedLengths.encode
        keyConsumed :=
          (builder.keyConsumed + (added.map fun lengths => lengths.keyLen.toNat).sum) % 2 ^ 32
        valueConsumed :=
          (builder.valueConsumed + (added.map fun lengths => lengths.valueLen.toNat).sum) %
            2 ^ 32 } := by
  induction added generalizing builder with
  | nil =>
    obtain ⟨error, boundary, keyConsumed, valueConsumed⟩ := builder
    subst hok
    have hkey : keyConsumed % 2 ^ 32 = keyConsumed := Nat.mod_eq_of_lt hkey
    have hvalue : valueConsumed % 2 ^ 32 = valueConsumed := Nat.mod_eq_of_lt hvalue
    simp only [List.foldl_nil, List.filterMap_nil, List.append_nil, List.map_nil, List.sum_nil,
      Nat.add_zero, hkey, hvalue]
  | cons lengths added ih =>
    obtain ⟨encoded, hencoded⟩ := Option.isSome_iff_exists.mp (h lengths List.mem_cons_self)
    have hlt : ∀ n, n % 2 ^ 32 < 2 ^ 32 := fun n => Nat.mod_lt n (by decide)
    rw [List.foldl_cons, lengths.add_of_encode hencoded hok,
      ih (fun l hl => h l (List.mem_cons_of_mem _ hl)) rfl (hlt _) (hlt _)]
    simp only [List.filterMap_cons, hencoded, List.map_cons, List.sum_cons, List.append_assoc,
      List.singleton_append, Nat.mod_add_mod, Nat.add_assoc]

theorem innerSegments_data {boundary : List UInt32}
    (h : ∀ encoded ∈ boundary, (decodeLengths encoded).Fits ∧ 0 < (decodeLengths encoded).keyLen)
    (hkey : (boundary.map fun encoded => (decodeLengths encoded).keyLen).sum = key.length)
    (hvalue : (boundary.map fun encoded => (decodeLengths encoded).valueLen).sum = value.length) :
    (innerSegments key value boundary).map InnerSegment.data = boundary.map decodeLengths := by
  induction boundary generalizing key value with
  | nil =>
    have hnil : key = [] ∧ value = [] :=
      ⟨List.length_eq_zero_iff.mp hkey.symm, List.length_eq_zero_iff.mp hvalue.symm⟩
    rw [innerSegments, if_pos hnil]
    rfl
  | cons encoded boundary ih =>
    rw [List.map_cons, List.sum_cons] at hkey hvalue
    obtain ⟨⟨hcontentKey, hcontentValue⟩, hpos⟩ := h encoded List.mem_cons_self
    have hne : ¬ (key = [] ∧ value = []) := by
      rintro ⟨rfl, -⟩
      rw [List.length_nil] at hkey
      omega
    rw [innerSegments, if_neg hne, List.map_cons, List.map_cons]
    congr 1
    · simp only [InnerSegment.data, List.length_take]
      rw [Nat.min_eq_left (by omega), Nat.min_eq_left (by omega), Nat.min_eq_left (by omega),
        Nat.min_eq_left (by omega)]
    · apply ih (fun e he => h e (List.mem_cons_of_mem _ he))
      · rw [List.length_drop]
        omega
      · rw [List.length_drop]
        omega

theorem sum_keys (segments : List InnerSegment) :
    (segments.map fun it => it.key.length).sum = (segments.flatMap InnerSegment.key).length := by
  rw [List.length_flatMap]

theorem sum_values (segments : List InnerSegment) :
    (segments.map fun it => it.value.length).sum = (segments.flatMap InnerSegment.value).length := by
  rw [List.length_flatMap]

theorem prefixLengths_eq {n : Nat} {segments : List InnerSegment} {keyLen valueLen : Nat}
    (hpos : ∀ it ∈ segments, it.key ≠ [] ∧ it.value ≠ []) (hn : n ≤ segments.length)
    (hkey : keyLen + (segments.map fun it => it.key.length).sum = key.length)
    (hvalue : valueLen + (segments.map fun it => it.value.length).sum = value.length) :
    prefixLengths key value n segments keyLen valueLen =
      (keyLen + ((segments.take n).map fun it => it.key.length).sum,
        valueLen + ((segments.take n).map fun it => it.value.length).sum) := by
  induction segments generalizing n keyLen valueLen with
  | nil =>
    obtain rfl := Nat.le_zero.mp hn
    rw [List.map_nil, List.sum_nil, Nat.add_zero] at hkey hvalue
    rw [prefixLengths, List.take_nil, List.map_nil, List.map_nil, List.sum_nil, hkey, hvalue]
    rfl
  | cons it segments ih =>
    cases n with
    | zero => rfl
    | succ n =>
      obtain ⟨hne, hneValue⟩ := hpos it List.mem_cons_self
      have hlen := List.length_pos_iff.mpr hne
      have hlenValue := List.length_pos_iff.mpr hneValue
      rw [List.map_cons, List.sum_cons] at hkey hvalue
      rw [prefixLengths, if_neg (by omega),
        ih (fun it' hit => hpos it' (List.mem_cons_of_mem _ hit)) (Nat.le_of_succ_le_succ hn)
          (by omega) (by omega)]
      rw [List.take_succ_cons, List.map_cons, List.sum_cons, List.map_cons, List.sum_cons,
        Nat.add_assoc, Nat.add_assoc]

theorem fixContentLen_pos {len fullLen : Nat} (h : fullLen ≠ 0) : fixContentLen len fullLen ≠ 0 := by
  rw [fixContentLen]
  split
  · exact h
  · omega

theorem AddedLengths.encode_isSome_iff (lengths : AddedLengths) :
    lengths.encode.isSome ↔ (lengths.keyLen.toNat ≠ 0 ∧ lengths.keyLen.toNat ≤ 255) ∧
      lengths.valueLen.toNat ≠ 0 ∧ lengths.valueLen.toNat ≤ 255 := by
  constructor
  · intro h
    obtain ⟨encoded, hencoded⟩ := Option.isSome_iff_exists.mp h
    exact (decodeLengths_of_encodeLengths hencoded).2
  · rintro ⟨⟨hkey, hkeyLe⟩, hvalue, hvalueLe⟩
    have hcontentKey := fixContentLen_le lengths.contentKeyLen.toNat lengths.keyLen.toNat
    have hcontentValue := fixContentLen_le lengths.contentValueLen.toNat lengths.valueLen.toNat
    rw [AddedLengths.encode, encodeLengths]
    dsimp only
    rw [if_pos ⟨⟨hkey, hkeyLe⟩, ⟨hvalue, hvalueLe⟩, ⟨fixContentLen_pos hkey, by omega⟩,
      fixContentLen_pos hvalue, by omega⟩]
    rfl

theorem map_decodeLengths {added : List AddedLengths}
    (h : ∀ lengths ∈ added, lengths.encode.isSome) :
    (added.filterMap AddedLengths.encode).map decodeLengths = added.map AddedLengths.data := by
  induction added with
  | nil => rfl
  | cons lengths added ih =>
    obtain ⟨encoded, hencoded⟩ := Option.isSome_iff_exists.mp (h lengths List.mem_cons_self)
    rw [List.filterMap_cons, hencoded]
    dsimp only
    rw [List.map_cons, List.map_cons, ih fun l hl => h l (List.mem_cons_of_mem _ hl),
      (decodeLengths_of_encodeLengths hencoded).1]
    rfl

/-- What the iteration over a boundary gives for the lengths that were added. -/
structure IteratesAs (added : List AddedLengths) (key value : Bytes) (boundary : List UInt32) :
    Prop where
  steps : (innerSegments key value boundary).length = added.length
  slices : (innerSegments key value boundary).map InnerSegment.data = added.map AddedLengths.data
  keys : (innerSegments key value boundary).flatMap InnerSegment.key = key
  values : (innerSegments key value boundary).flatMap InnerSegment.value = value
  parts : ∀ it ∈ innerSegments key value boundary,
    it.contentKey ++ it.functionalKey = it.key ∧ it.contentValue ++ it.functionalValue = it.value
  split : ∀ n ≤ added.length,
    (getPrefixKeyAndValue key value boundary n).1 ++
      (getSuffixKeyAndValue key value boundary (added.length - n)).1 = key ∧
    (getPrefixKeyAndValue key value boundary n).2 ++
      (getSuffixKeyAndValue key value boundary (added.length - n)).2 = value

theorem buildAdded_eq {added : List AddedLengths} (h : ∀ lengths ∈ added, lengths.encode.isSome)
    (hkey : (added.map fun lengths => lengths.keyLen.toNat).sum = key.length)
    (hvalue : (added.map fun lengths => lengths.valueLen.toNat).sum = value.length)
    (hkeyLt : key.length < 2 ^ 32) (hvalueLt : value.length < 2 ^ 32) :
    buildAdded added key value = added.filterMap AddedLengths.encode := by
  rw [buildAdded, foldl_add h rfl (by decide) (by decide), InnerSegmentBoundaryBuilder.build]
  dsimp only
  rw [hkey, hvalue, Nat.zero_add, Nat.zero_add, Nat.mod_eq_of_lt hkeyLt, Nat.mod_eq_of_lt hvalueLt,
    if_neg (by simp), List.nil_append]

theorem iteratesAs_buildAdded {added : List AddedLengths}
    (h : ∀ lengths ∈ added, lengths.encode.isSome)
    (hkey : (added.map fun lengths => lengths.keyLen.toNat).sum = key.length)
    (hvalue : (added.map fun lengths => lengths.valueLen.toNat).sum = value.length)
    (hkeyLt : key.length < 2 ^ 32) (hvalueLt : value.length < 2 ^ 32) :
    IteratesAs added key value (buildAdded added key value) := by
  rw [buildAdded_eq h hkey hvalue hkeyLt hvalueLt]
  have hdata := map_decodeLengths h
  have hdecoded : ∀ encoded ∈ added.filterMap AddedLengths.encode,
      (decodeLengths encoded).Fits ∧ 0 < (decodeLengths encoded).keyLen := by
    intro encoded hmem
    obtain ⟨lengths, -, hencoded⟩ := List.mem_filterMap.mp hmem
    obtain ⟨hdecode, hpos, -⟩ := decodeLengths_of_encodeLengths hencoded
    refine ⟨encodeLengths_fits hencoded, ?_⟩
    rw [hdecode]
    exact Nat.pos_of_ne_zero hpos.1
  have hsum : ∀ f : LengthData → Nat,
      ((added.filterMap AddedLengths.encode).map fun encoded => f (decodeLengths encoded)).sum =
        (added.map fun lengths => f lengths.data).sum := by
    intro f
    have hmap := congrArg (List.map f) hdata
    rw [List.map_map, List.map_map] at hmap
    exact congrArg List.sum hmap
  have hslices := innerSegments_data hdecoded ((hsum LengthData.keyLen).trans hkey)
    ((hsum LengthData.valueLen).trans hvalue)
  rw [hdata] at hslices
  obtain ⟨hkeys, hvalues⟩ := innerSegments_flatMap key value (added.filterMap AddedLengths.encode)
  have hfit := @innerSegments_fit key value _ fun e he => (hdecoded e he).1
  have hboundary : (added.filterMap AddedLengths.encode).length = added.length := by
    have hlength := congrArg List.length hdata
    rwa [List.length_map, List.length_map] at hlength
  have hsize : innerSegmentsSize key value (added.filterMap AddedLengths.encode) = added.length := by
    rw [innerSegmentsSize, hboundary]
    split
    · rename_i hnil
      -- Every length that is accepted is positive.
      cases added with
      | nil => rfl
      | cons lengths added =>
        have hpos := ((lengths.encode_isSome_iff).mp (h lengths List.mem_cons_self)).1.1
        rw [hnil.1, List.map_cons, List.sum_cons, List.length_nil] at hkey
        omega
    · rename_i hne
      have hadded : added ≠ [] := by
        rintro rfl
        exact hne ⟨List.length_eq_zero_iff.mp hkey.symm, List.length_eq_zero_iff.mp hvalue.symm⟩
      exact Nat.max_eq_right (List.length_pos_iff.mpr hadded)
  generalize added.filterMap AddedLengths.encode = boundary at hslices hkeys hvalues hfit hsize
  have hsteps : (innerSegments key value boundary).length = added.length := by
    have hlength := congrArg List.length hslices
    rwa [List.length_map, List.length_map] at hlength
  have hpos : ∀ it ∈ innerSegments key value boundary, it.key ≠ [] ∧ it.value ≠ [] := by
    intro it hit
    have hmem := List.mem_map_of_mem (f := InnerSegment.data) hit
    rw [hslices] at hmem
    obtain ⟨lengths, hlengths, heq⟩ := List.mem_map.mp hmem
    obtain ⟨hk, hv⟩ := lengths.encode_isSome_iff.mp (h lengths hlengths)
    have hkeyLen : lengths.keyLen.toNat = it.key.length := congrArg LengthData.keyLen heq
    have hvalueLen : lengths.valueLen.toNat = it.value.length := congrArg LengthData.valueLen heq
    refine ⟨fun hnil => hk.1 ?_, fun hnil => hv.1 ?_⟩
    · rw [hkeyLen, hnil, List.length_nil]
    · rw [hvalueLen, hnil, List.length_nil]
  refine ⟨hsteps, hslices, hkeys, hvalues, ?_, ?_⟩
  · intro it hit
    obtain ⟨⟨restKey, hrestKey⟩, restValue, hrestValue⟩ := hfit it hit
    rw [InnerSegment.functionalKey, InnerSegment.functionalValue, hrestKey, hrestValue, List.drop_left,
      List.drop_left]
    exact ⟨rfl, rfl⟩
  · intro n hn
    have hprefix := @prefixLengths_eq key value n _ 0 0 hpos (hsteps ▸ hn)
      (by rw [sum_keys, hkeys, Nat.zero_add]) (by rw [sum_values, hvalues, Nat.zero_add])
    rw [Nat.zero_add, Nat.zero_add] at hprefix
    rw [getPrefixKeyAndValue, if_neg (by omega), Int.toNat_natCast, prefixKeyAndValue, hprefix]
    dsimp only
    by_cases hall : n = added.length
    · have htake : (innerSegments key value boundary).take n = innerSegments key value boundary :=
        List.take_of_length_le (by rw [hsteps, hall])
      rw [getSuffixKeyAndValue, if_pos (by omega), htake, sum_keys, sum_values, hkeys, hvalues,
        List.take_length, List.take_length]
      exact ⟨List.append_nil key, List.append_nil value⟩
    · have hrest : ((added.length : Int) - n).toNat = added.length - n := by omega
      rw [getSuffixKeyAndValue, if_neg (by omega), if_neg (by omega), suffixKeyAndValue, hrest, hsize,
        Nat.sub_sub_self hn]
      exact ⟨List.take_append_drop _ _, List.take_append_drop _ _⟩

end iteration

section generator

variable {σ : Type} (modules : NBestModules σ)

/-- The lengths as they are given to `Add`, whose parameters are `uint32_t`. -/
def AddedLengths.ofSizes (lengths : Nat × Nat × Nat × Nat) : AddedLengths :=
  { keyLen := UInt32.ofNat lengths.1
    valueLen := UInt32.ofNat lengths.2.1
    contentKeyLen := UInt32.ofNat lengths.2.2.1
    contentValueLen := UInt32.ofNat lengths.2.2.2 }

/-- The modules with the builder of `converter/inner_segment.h`. -/
def NBestModules.withBuilder : NBestModules σ :=
  { modules with
    buildInnerSegments := fun lengths key value =>
      (buildAdded (lengths.map AddedLengths.ofSizes) key value).map UInt32.toNat }

/-- The lengths that `FillInnerSegmentInfo` gives to the builder. -/
def suppliedLengths (nodes : List Node) : List (Nat × Nat × Nat × Nat) :=
  let (added, (keyLen, valueLen, contentKeyLen, contentValueLen), _) :=
    NBestGenerator.innerSegmentLengths modules nodes
  added ++ [if contentKeyLen = 0 ∨ contentValueLen = 0 then (keyLen, valueLen, keyLen, valueLen)
    else (keyLen, valueLen, contentKeyLen, contentValueLen)]

/-- The segments of the nodes behind `lnode`, of which the nodes in `segment` are the first: a segment
ends at each boundary of the segmenter. -/
def segmentNodes (segment : List Node) (lnode : Node) : List Node → List (List Node)
  | [] => [segment]
  | rnode :: nodes =>
    if modules.isBoundary lnode rnode false then segment :: segmentNodes [rnode] rnode nodes
    else segmentNodes (segment ++ [rnode]) rnode nodes

def innerSegmentNodes : List Node → List (List Node)
  | [] => []
  | node :: nodes => segmentNodes modules [node] node nodes

/-- The lengths of the key and the value of some nodes. -/
def nodeLengths (nodes : List Node) : Nat × Nat :=
  ((nodes.flatMap Node.key).length, (nodes.flatMap Node.value).length)

theorem nodeLengths_concat (nodes : List Node) (node : Node) :
    nodeLengths (nodes ++ [node]) =
      ((nodeLengths nodes).1 + node.key.length, (nodeLengths nodes).2 + node.value.length) := by
  simp [nodeLengths]

theorem nodeLengths_singleton (node : Node) :
    nodeLengths [node] = (node.key.length, node.value.length) := by
  simp [nodeLengths]

variable {modules}

theorem flatten_segmentNodes (segment : List Node) (lnode : Node) (nodes : List Node) :
    (segmentNodes modules segment lnode nodes).flatten = segment ++ nodes := by
  induction nodes generalizing segment lnode with
  | nil => simp [segmentNodes]
  | cons rnode nodes ih =>
    rw [segmentNodes]
    split
    · rw [List.flatten_cons, ih, List.singleton_append]
    · rw [ih, List.append_assoc, List.singleton_append]

theorem flatten_innerSegmentNodes (nodes : List Node) :
    (innerSegmentNodes modules nodes).flatten = nodes := by
  cases nodes with
  | nil => rfl
  | cons node nodes => exact flatten_segmentNodes [node] node nodes

/-- The lengths of the segments so far, the one that has not ended last. -/
def LengthsSoFar (lengths : List (Nat × Nat))
    (state : List (Nat × Nat × Nat × Nat) × (Nat × Nat × Nat × Nat) × Bool) : Prop :=
  state.1.map (fun l => (l.1, l.2.1)) ++ [(state.2.1.1, state.2.1.2.1)] = lengths

theorem foldl_lengths
    {step : List (Nat × Nat × Nat × Nat) × (Nat × Nat × Nat × Nat) × Bool → Node × Node →
      List (Nat × Nat × Nat × Nat) × (Nat × Nat × Nat × Nat) × Bool}
    (hstep : ∀ state lnode rnode before segment,
      LengthsSoFar (before ++ [nodeLengths segment]) state →
      LengthsSoFar (if modules.isBoundary lnode rnode false then
          before ++ [nodeLengths segment, nodeLengths [rnode]]
        else before ++ [nodeLengths (segment ++ [rnode])]) (step state (lnode, rnode)))
    {state : List (Nat × Nat × Nat × Nat) × (Nat × Nat × Nat × Nat) × Bool} {lnode : Node}
    {nodes segment : List Node} {before : List (Nat × Nat)}
    (h : LengthsSoFar (before ++ [nodeLengths segment]) state) :
    LengthsSoFar (before ++ (segmentNodes modules segment lnode nodes).map nodeLengths)
      (((lnode :: nodes).zip nodes).foldl step state) := by
  induction nodes generalizing lnode segment before state with
  | nil => exact h
  | cons rnode nodes ih =>
    have hnext := hstep state lnode rnode before segment h
    rw [List.zip_cons_cons, List.foldl_cons, segmentNodes]
    split at hnext
    · rename_i hboundary
      rw [if_pos hboundary, List.map_cons]
      have hmore := @ih (step state (lnode, rnode)) rnode [rnode] (before ++ [nodeLengths segment])
        (by rwa [List.append_assoc, List.singleton_append])
      rwa [List.append_assoc, List.singleton_append] at hmore
    · rename_i hboundary
      rw [if_neg hboundary]
      exact ih hnext

theorem suppliedLengths_eq {nodes : List Node} (hne : nodes ≠ []) :
    (suppliedLengths modules nodes).map (fun l => (l.1, l.2.1)) =
      (innerSegmentNodes modules nodes).map nodeLengths := by
  obtain ⟨node, nodes, rfl⟩ := List.exists_cons_of_ne_nil hne
  have hloop : LengthsSoFar ((innerSegmentNodes modules (node :: nodes)).map nodeLengths)
      (NBestGenerator.innerSegmentLengths modules (node :: nodes)) := by
    rw [innerSegmentNodes, NBestGenerator.innerSegmentLengths, ← List.nil_append (List.map _ _)]
    refine foldl_lengths ?_ ?_
    · rintro ⟨added, ⟨keyLen, valueLen, contentKeyLen, contentValueLen⟩, boundary⟩ lnode rnode before
        segment h
      obtain ⟨rfl, hlast⟩ := List.append_inj' h rfl
      have hlast : (keyLen, valueLen) = nodeLengths segment := List.singleton_inj.mp hlast
      rw [nodeLengths_concat, nodeLengths_singleton, ← hlast]
      dsimp only [LengthsSoFar]
      split_ifs <;> simp
    · rw [nodeLengths_singleton]
      split <;> rfl
  rw [← hloop, suppliedLengths]
  dsimp only
  rw [List.map_append]
  split <;> rfl

theorem sum_nodeLengths (segments : List (List Node)) :
    ((segments.map nodeLengths).map Prod.fst).sum = (segments.flatten.flatMap Node.key).length ∧
      ((segments.map nodeLengths).map Prod.snd).sum = (segments.flatten.flatMap Node.value).length := by
  induction segments with
  | nil => exact ⟨rfl, rfl⟩
  | cons segment segments ih =>
    simp only [List.map_cons, List.sum_cons, List.flatten_cons, List.flatMap_append, List.length_append,
      ih.1, ih.2]
    exact ⟨rfl, rfl⟩

theorem sum_suppliedLengths {nodes : List Node} (hne : nodes ≠ []) :
    ((suppliedLengths modules nodes).map fun l => l.1).sum = (nodes.flatMap Node.key).length ∧
      ((suppliedLengths modules nodes).map fun l => l.2.1).sum =
        (nodes.flatMap Node.value).length := by
  have hsum := sum_nodeLengths (innerSegmentNodes modules nodes)
  rw [← suppliedLengths_eq hne, flatten_innerSegmentNodes, List.map_map, List.map_map] at hsum
  exact hsum

theorem buildAdded_of_rejected {added : List AddedLengths} {key value : Bytes}
    {lengths : AddedLengths} (hmem : lengths ∈ added) (h : lengths.encode = none) :
    buildAdded added key value = [] := by
  have hsticky : ∀ (added : List AddedLengths) {builder : InnerSegmentBoundaryBuilder},
      builder.error = true →
      (added.foldl (fun builder (lengths : AddedLengths) => lengths.add builder) builder).error =
        true := by
    intro added
    induction added with
    | nil => exact id
    | cons l added ih =>
      intro builder herror
      rw [List.foldl_cons]
      apply ih
      rw [AddedLengths.add, InnerSegmentBoundaryBuilder.add, if_pos herror]
      exact herror
  have hadd : ∀ builder : InnerSegmentBoundaryBuilder, (lengths.add builder).error = true := by
    intro builder
    have hmod : ∀ n : UInt32, n.toNat % 2 ^ 32 = n.toNat := fun n => Nat.mod_eq_of_lt n.toNat_lt
    rw [AddedLengths.encode] at h
    rw [AddedLengths.add, InnerSegmentBoundaryBuilder.add]
    simp only [hmod, h]
    split
    · assumption
    · rfl
  obtain ⟨before, after, rfl⟩ := List.append_of_mem hmem
  rw [buildAdded, List.foldl_append, List.foldl_cons, InnerSegmentBoundaryBuilder.build,
    if_pos (.inl (hsticky after (hadd _)))]

def Unencodable (lengths : Nat × Nat) : Prop :=
  lengths.1 = 0 ∨ 255 < lengths.1 ∨ lengths.2 = 0 ∨ 255 < lengths.2

theorem ofSizes_rejected_iff {l : Nat × Nat × Nat × Nat} (hkey : l.1 < 2 ^ 32)
    (hvalue : l.2.1 < 2 ^ 32) : (AddedLengths.ofSizes l).encode = none ↔ Unencodable (l.1, l.2.1) := by
  have hkeyLen : (AddedLengths.ofSizes l).keyLen.toNat = l.1 :=
    UInt32.toNat_ofNat_of_lt' hkey
  have hvalueLen : (AddedLengths.ofSizes l).valueLen.toNat = l.2.1 :=
    UInt32.toNat_ofNat_of_lt' hvalue
  rw [← Option.not_isSome_iff_eq_none, AddedLengths.encode_isSome_iff, hkeyLen, hvalueLen, Unencodable]
  omega

theorem buildAdded_suppliedLengths {nodes : List Node} (hne : nodes ≠ [])
    (hkeyLt : (nodes.flatMap Node.key).length < 2 ^ 32)
    (hvalueLt : (nodes.flatMap Node.value).length < 2 ^ 32) :
    buildAdded ((suppliedLengths modules nodes).map AddedLengths.ofSizes) (nodes.flatMap Node.key)
        (nodes.flatMap Node.value) = [] ↔
      ∃ segment ∈ innerSegmentNodes modules nodes, Unencodable (nodeLengths segment) := by
  obtain ⟨hkey, hvalue⟩ := @sum_suppliedLengths σ modules nodes hne
  have hlengths := @suppliedLengths_eq σ modules nodes hne
  have hnonempty : suppliedLengths modules nodes ≠ [] := by
    intro hnil
    rw [hnil] at hlengths
    have hflatten := @flatten_innerSegmentNodes σ modules nodes
    rw [List.map_eq_nil_iff.mp hlengths.symm] at hflatten
    exact hne hflatten.symm
  generalize suppliedLengths modules nodes = supplied at *
  have hlt : ∀ l ∈ supplied, l.1 < 2 ^ 32 ∧ l.2.1 < 2 ^ 32 := by
    intro l hl
    have hfst := List.le_sum_of_mem (List.mem_map.mpr ⟨l, hl, rfl⟩ : l.1 ∈ supplied.map fun l => l.1)
    have hsnd :=
      List.le_sum_of_mem (List.mem_map.mpr ⟨l, hl, rfl⟩ : l.2.1 ∈ supplied.map fun l => l.2.1)
    omega
  have hexists : (∃ segment ∈ innerSegmentNodes modules nodes, Unencodable (nodeLengths segment)) ↔
      ∃ l ∈ supplied, Unencodable (l.1, l.2.1) := by
    have hmap := fun lengths => congrArg (lengths ∈ ·) hlengths
    simp only [List.mem_map, eq_iff_iff] at hmap
    constructor
    · rintro ⟨segment, hmem, hun⟩
      obtain ⟨l, hl, heq⟩ := (hmap (nodeLengths segment)).mpr ⟨segment, hmem, rfl⟩
      exact ⟨l, hl, heq ▸ hun⟩
    · rintro ⟨l, hl, hun⟩
      obtain ⟨segment, hmem, heq⟩ := (hmap (l.1, l.2.1)).mp ⟨l, hl, rfl⟩
      exact ⟨segment, hmem, heq ▸ hun⟩
  rw [hexists]
  constructor
  · intro hnil
    by_contra hnone
    have haccepted : ∀ lengths ∈ supplied.map AddedLengths.ofSizes, lengths.encode.isSome := by
      intro lengths hmem
      obtain ⟨l, hl, rfl⟩ := List.mem_map.mp hmem
      obtain ⟨hk, hv⟩ := hlt l hl
      rw [Option.isSome_iff_ne_none]
      exact fun hrejected => hnone ⟨l, hl, (ofSizes_rejected_iff hk hv).mp hrejected⟩
    have hsum : ∀ f : AddedLengths → UInt32, ∀ g : Nat × Nat × Nat × Nat → Nat,
        (∀ l ∈ supplied, (f (AddedLengths.ofSizes l)).toNat = g l) →
        ((supplied.map AddedLengths.ofSizes).map fun lengths => (f lengths).toNat).sum =
          (supplied.map g).sum := by
      intro f g hfg
      rw [List.map_map]
      exact congrArg List.sum (List.map_congr_left hfg)
    have hbuilt := buildAdded_eq haccepted
      ((hsum AddedLengths.keyLen (fun l => l.1)
        fun l hl => UInt32.toNat_ofNat_of_lt' (hlt l hl).1).trans hkey)
      ((hsum AddedLengths.valueLen (fun l => l.2.1)
        fun l hl => UInt32.toNat_ofNat_of_lt' (hlt l hl).2).trans hvalue) hkeyLt hvalueLt
    rw [hbuilt, List.filterMap_eq_nil_iff] at hnil
    obtain ⟨l, rest, rfl⟩ := List.exists_cons_of_ne_nil hnonempty
    have haccept := haccepted (AddedLengths.ofSizes l) List.mem_cons_self
    rw [hnil _ List.mem_cons_self] at haccept
    cases haccept
  · rintro ⟨l, hl, hun⟩
    obtain ⟨hk, hv⟩ := hlt l hl
    exact buildAdded_of_rejected (List.mem_map_of_mem hl) ((ofSizes_rejected_iff hk hv).mpr hun)

/-- Accepted lengths that sum up to those of the key and the value are read back slice by slice.  The
lengths that `FillInnerSegmentInfo` supplies sum up to those of the candidate, and its boundary is
dropped exactly where an inner segment is empty or longer than 255 bytes. -/
theorem innerSegmentBoundary_spec :
    (∀ (added : List AddedLengths) (key value : Bytes), key.length < 2 ^ 32 → value.length < 2 ^ 32 →
      (∀ lengths ∈ added, lengths.encode.isSome) →
      (added.map fun lengths => lengths.keyLen.toNat).sum = key.length →
      (added.map fun lengths => lengths.valueLen.toNat).sum = value.length →
      IteratesAs added key value (buildAdded added key value)) ∧
    ∀ {σ : Type} (modules : NBestModules σ) (lattice : Lattice) (options : NBestOptions)
      (cost structureCost wcost : Int) (nodes : List Nat), nodes ≠ [] →
      let candidate := NBestGenerator.makeCandidate modules.withBuilder lattice
        { options with fillInnerSegmentInfo := true } cost structureCost wcost nodes
      candidate.key.length < 2 ^ 32 → candidate.value.length < 2 ^ 32 →
      let supplied := suppliedLengths modules (nodes.map lattice.node)
      let segments := innerSegmentNodes modules (nodes.map lattice.node)
      supplied.map (fun l => (l.1, l.2.1)) = segments.map nodeLengths ∧
      (supplied.map fun l => l.1).sum = candidate.key.length ∧
      (supplied.map fun l => l.2.1).sum = candidate.value.length ∧
      candidate.innerSegmentBoundary = (buildAdded (supplied.map AddedLengths.ofSizes) candidate.key
        candidate.value).map UInt32.toNat ∧
      (candidate.innerSegmentBoundary = [] ↔
        ∃ segment ∈ segments, Unencodable (nodeLengths segment)) := by
  constructor
  · intro added key value hkeyLt hvalueLt haccepted hkey hvalue
    exact iteratesAs_buildAdded haccepted hkey hvalue hkeyLt hvalueLt
  · intro σ modules lattice options cost structureCost wcost nodes hne candidate hkeyLt hvalueLt
      supplied segments
    have hnodes : nodes.map lattice.node ≠ [] := mt List.map_eq_nil_iff.mp hne
    have hboundary : candidate.innerSegmentBoundary =
        (buildAdded (supplied.map AddedLengths.ofSizes) candidate.key candidate.value).map
          UInt32.toNat := rfl
    obtain ⟨hkey, hvalue⟩ := @sum_suppliedLengths σ modules _ hnodes
    refine ⟨suppliedLengths_eq hnodes, hkey, hvalue, hboundary, ?_⟩
    rw [hboundary, List.map_eq_nil_iff]
    exact buildAdded_suppliedLengths hnodes hkeyLt hvalueLt

theorem innerSegmentBoundary_spec_two :
    IteratesAs [⟨2, 1, 1, 1⟩, ⟨1, 2, 0, 0⟩] [0x61, 0x62, 0x63] [0x64, 0x65, 0x66]
      (buildAdded [⟨2, 1, 1, 1⟩, ⟨1, 2, 0, 0⟩] [0x61, 0x62, 0x63] [0x64, 0x65, 0x66]) :=
  innerSegmentBoundary_spec.1 _ _ _ (by decide) (by decide) (by decide) (by decide) (by decide)

theorem keyConsumed_replicate (n : Nat) :
    ((List.replicate n (⟨1, 1, 1, 1⟩ : AddedLengths)).foldl
      (fun builder (lengths : AddedLengths) => lengths.add builder) {}).keyConsumed = n % 2 ^ 32 := by
  have haccepted : ∀ lengths ∈ List.replicate n (⟨1, 1, 1, 1⟩ : AddedLengths),
      lengths.encode.isSome := by
    intro lengths hmem
    rw [List.eq_of_mem_replicate hmem]
    decide
  rw [foldl_add haccepted rfl (by decide) (by decide), List.map_replicate, List.sum_replicate]
  dsimp only
  rw [Nat.zero_add, UInt32.toNat_one, smul_eq_mul, Nat.mul_one]

/-- What is consumed is counted modulo 2 ^ 32, and a node without a value makes an inner segment that
has no lengths. -/
theorem not_innerSegmentBoundary :
    (¬ ∀ (added : List AddedLengths) (key value : Bytes),
      (∀ lengths ∈ added, lengths.encode.isSome) →
      (added.map fun lengths => lengths.keyLen.toNat).sum = key.length →
      (added.map fun lengths => lengths.valueLen.toNat).sum = value.length →
      IteratesAs added key value (buildAdded added key value)) ∧
    ¬ ∀ (connector : Connector) (lattice : Lattice) (nodes : List Nat), nodes ≠ [] →
      (NBestGenerator.makeCandidate (plainModules connector).withBuilder lattice
        { fillInnerSegmentInfo := true } 0 0 0 nodes).innerSegmentBoundary = [] →
      ∃ segment ∈ innerSegmentNodes (plainModules connector) (nodes.map lattice.node),
        255 < (nodeLengths segment).1 ∨ 255 < (nodeLengths segment).2 := by
  constructor
  · intro h
    have hwrap : ∀ n : Nat, 1 < n → n % 2 ^ 32 = 0 → False := by
      intro n hn hmod
      have hiterates := h (List.replicate n ⟨1, 1, 1, 1⟩) (List.replicate n 0) (List.replicate n 0)
        (by
          intro lengths hmem
          rw [List.eq_of_mem_replicate hmem]
          decide)
        (by simp) (by simp)
      have hsteps := hiterates.steps
      rw [buildAdded, InnerSegmentBoundaryBuilder.build, if_pos, innerSegments, if_neg,
        List.length_singleton, List.length_replicate] at hsteps
      · omega
      · rintro ⟨hnil, -⟩
        have hlength := congrArg List.length hnil
        rw [List.length_replicate, List.length_nil] at hlength
        omega
      · rw [keyConsumed_replicate, hmod, List.length_replicate]
        exact .inr (.inl (by omega))
    exact hwrap (2 ^ 32) (by decide) (by decide)
  · intro h
    obtain ⟨segment, hmem, hlong⟩ := h ⟨0, by decide, fun _ _ => 0⟩
      { node := fun _ => { key := [0x61] } } [0] (by decide) (by decide)
    revert hlong
    rw [List.mem_singleton.mp hmem]
    decide

end generator

end Mozkey.Converter
