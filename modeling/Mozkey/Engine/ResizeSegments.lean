import Mozkey.Base.SubString
import Mozkey.Engine.ConversionSegments

/-! `ResizeSegment` and `ResizeSegments` of `converter/converter.cc` over `Segments::Resize`, and what
`SwitchKanaType` and `ConvertToTransliteration` make of several segments.  The conversion of the
segments that a resize leaves is a parameter. -/

namespace Mozkey.Engine

open Base Storage
open Session (ConverterState TransliterationType)

/-- The loop of `Resize` over the segments: the key, its number of characters and the number of
segments, until there are as many characters as wanted. -/
def gatherKey (totalSize : Nat) : Nat → List ConversionSegment → Bytes × Nat × Nat
  | keyLen, [] => ([], keyLen, 0)
  | keyLen, segment :: segments =>
    if totalSize ≤ keyLen + segment.keyLen then (segment.key, keyLen + segment.keyLen, 1)
    else
      let (key, total, size) := gatherKey totalSize (keyLen + segment.keyLen) segments
      (segment.key ++ key, total, size + 1)

/-- The loop of `Resize` over the new sizes: the new keys, and what they consume. -/
def cutKey (key : Bytes) (keyLen : Nat) : Nat → List UInt8 → List Bytes × Nat
  | consumed, [] => ([], consumed)
  | consumed, size :: sizes =>
    if size ≠ 0 ∧ consumed < keyLen then
      let (keys, total) := cutKey key keyLen (consumed + size.toNat) sizes
      (utf8SubString key consumed size.toNat :: keys, total)
    else cutKey key keyLen consumed sizes

def resize (startIndex : Nat) (newSizes : List UInt8) (segments : List ConversionSegment) :
    Option (List ConversionSegment) :=
  let totalSize := (newSizes.map UInt8.toNat).sum
  let (key, keyLen, modifiedSegmentsSize) := gatherKey totalSize 0 (segments.drop startIndex)
  if totalSize = 0 ∨ keyLen = 0 ∨ keyLen < totalSize then none
  else
    let (newKeys, consumed) := cutKey key keyLen 0 newSizes
    let resized : List ConversionSegment :=
      newKeys.map fun key => { key, segmentType := .fixedBoundary }
    let rest := segments.drop (startIndex + modifiedSegmentsSize)
    let rest : List ConversionSegment :=
      if consumed < keyLen then
        -- What is left of the key goes to the next segment.
        { key := utf8SubString key consumed (keyLen - consumed) ++
            (rest.head?.map ConversionSegment.key).getD [] } :: rest.tail
      else rest
    some (segments.take startIndex ++ resized ++ rest)

section converter

variable (applyConversion : List ConversionSegment → List ConversionSegment)

def resizeSegments (startIndex : Nat) (newSizes : List UInt8) (segments : List ConversionSegment) :
    Bool × List ConversionSegment :=
  if segments.length ≤ startIndex then (false, segments)
  else
    match resize startIndex newSizes segments with
    | none => (false, segments)
    | some resized => (true, applyConversion resized)

/-- `ResizeSegment` of a request for a conversion.  The new size is an `int`. -/
def resizeSegment (index : Nat) (offsetLength : Int) (segments : List ConversionSegment) :
    Bool × List ConversionSegment :=
  if offsetLength = 0 then (false, segments)
  else
    match segments[index]? with
    | none => (false, segments)
    | some segment =>
      let newSize := (segment.keyLen + offsetLength).bmod (2 ^ 32)
      if segment.keyLen = 0 ∨ newSize ≤ 0 ∨ 255 < newSize then (false, segments)
      else resizeSegments applyConversion index [UInt8.ofNat newSize.toNat] segments

/-- The converter with the resizes of `converter/converter.cc`. -/
def ConverterInterface.withResize (converter : ConverterInterface) : ConverterInterface :=
  { converter with
    resizeSegment := Engine.resizeSegment applyConversion
    resizeSegments := Engine.resizeSegments applyConversion }

@[simp] theorem ConverterInterface.withResize_resizeSegment (converter : ConverterInterface) :
    (converter.withResize applyConversion).resizeSegment = Engine.resizeSegment applyConversion := rfl

@[simp] theorem ConverterInterface.withResize_resizeSegments (converter : ConverterInterface) :
    (converter.withResize applyConversion).resizeSegments = Engine.resizeSegments applyConversion := rfl

end converter

/-! A resize from the first segment on. -/

/-- Segments whose keys are texts of one character or more. -/
def KeyedBy (texts : List (List Char)) (segments : List ConversionSegment) : Prop :=
  segments.map ConversionSegment.key = texts.map utf8 ∧ ∀ text ∈ texts, text ≠ []

theorem KeyedBy.cons {texts : List (List Char)} {segment : ConversionSegment}
    {segments : List ConversionSegment} (h : KeyedBy texts (segment :: segments)) :
    ∃ text rest, texts = text :: rest ∧ segment.key = utf8 text ∧ text ≠ [] ∧ KeyedBy rest segments := by
  obtain ⟨hkeys, hne⟩ := h
  cases texts with
  | nil => simp at hkeys
  | cons text rest =>
    rw [List.map_cons, List.map_cons, List.cons.injEq] at hkeys
    exact ⟨text, rest, rfl, hkeys.1, hne text List.mem_cons_self, hkeys.2,
      fun t ht => hne t (List.mem_cons_of_mem _ ht)⟩

theorem KeyedBy.length_eq {texts : List (List Char)} {segments : List ConversionSegment}
    (h : KeyedBy texts segments) : segments.length = texts.length := by
  have := congrArg List.length h.1
  simpa using this

theorem flatten_map_utf8 (texts : List (List Char)) : (texts.map utf8).flatten = utf8 texts.flatten := by
  induction texts with
  | nil => rfl
  | cons text texts ih => rw [List.map_cons, List.flatten_cons, ih, List.flatten_cons, utf8_append]

theorem KeyedBy.joinedKey {texts : List (List Char)} {segments : List ConversionSegment}
    (h : KeyedBy texts segments) : segments.flatMap ConversionSegment.key = utf8 texts.flatten := by
  rw [List.flatMap_def, h.1, flatten_map_utf8]

theorem KeyedBy.sum_keyLen {texts : List (List Char)} {segments : List ConversionSegment}
    (h : KeyedBy texts segments) :
    (segments.map ConversionSegment.keyLen).sum = texts.flatten.length := by
  have hlen : segments.map ConversionSegment.keyLen = texts.map List.length := by
    have hcomp : segments.map ConversionSegment.keyLen =
        (segments.map ConversionSegment.key).map charsLen := by
      rw [List.map_map]
      rfl
    rw [hcomp, h.1, List.map_map]
    exact List.map_congr_left fun text _ => charsLen_utf8 text
  rw [hlen, List.length_flatten]

theorem gatherKey_spec {totalSize : Nat} {texts : List (List Char)}
    {segments : List ConversionSegment} (h : KeyedBy texts segments) (keyLen : Nat)
    (hlt : keyLen < totalSize) (hle : totalSize ≤ keyLen + texts.flatten.length) :
    ∃ n, n ≤ texts.length ∧
      gatherKey totalSize keyLen segments =
        (utf8 (texts.take n).flatten, keyLen + (texts.take n).flatten.length, n) ∧
      totalSize ≤ keyLen + (texts.take n).flatten.length ∧
      (totalSize = keyLen + texts.flatten.length → n = texts.length) := by
  induction segments generalizing texts keyLen with
  | nil =>
    have hnil := h.length_eq
    rw [List.length_nil, eq_comm, List.length_eq_zero_iff] at hnil
    rw [hnil, List.flatten_nil, List.length_nil] at hle
    omega
  | cons segment segments ih =>
    obtain ⟨text, rest, rfl, hkey, hne, hrest⟩ := h.cons
    have hkeyLen : segment.keyLen = text.length := by
      rw [ConversionSegment.keyLen, hkey, charsLen_utf8]
    rw [List.flatten_cons, List.length_append] at hle ⊢
    rw [gatherKey, hkeyLen, hkey]
    split
    · rename_i hreached
      refine ⟨1, by simp, by simp, by simpa using hreached, ?_⟩
      intro htotal
      -- The texts behind the first one would have to be empty.
      cases rest with
      | nil => rfl
      | cons next rest =>
        have hnext : next ≠ [] := hrest.2 next List.mem_cons_self
        have hpos := List.length_pos_iff.mpr hnext
        rw [List.flatten_cons, List.length_append] at htotal
        omega
    · rename_i hshort
      obtain ⟨n, hn, hgather, hreached, hall⟩ := ih hrest (keyLen + text.length) (by omega) (by omega)
      refine ⟨n + 1, ?_, ?_, ?_, ?_⟩
      · rw [List.length_cons]
        omega
      · rw [hgather, List.take_succ_cons, List.flatten_cons, utf8_append, List.length_append,
          Nat.add_assoc]
      · rw [List.take_succ_cons, List.flatten_cons, List.length_append]
        omega
      · intro htotal
        rw [hall (by omega), List.length_cons]

theorem resize_spec {texts : List (List Char)} {segments : List ConversionSegment}
    (h : KeyedBy texts segments) {size : UInt8} (hpos : size ≠ 0)
    (hle : size.toNat ≤ texts.flatten.length) :
    ∃ first rest, resize 0 [size] segments = some (first :: rest) ∧
      first.segmentType = .fixedBoundary ∧ first.key = utf8 (texts.flatten.take size.toNat) ∧
      (size.toNat = texts.flatten.length → rest = []) := by
  have hsize : 0 < size.toNat := by
    rw [Nat.pos_iff_ne_zero]
    intro hzero
    exact hpos (UInt8.toNat_inj.mp hzero)
  obtain ⟨n, hn, hgather, hreached, hall⟩ :=
    gatherKey_spec h 0 hsize (by rw [Nat.zero_add]; exact hle)
  rw [Nat.zero_add] at hgather hreached hall
  have hsum : ([size].map UInt8.toNat).sum = size.toNat := by simp
  have hcut : cutKey (utf8 (texts.take n).flatten) (texts.take n).flatten.length 0 [size] =
      ([utf8 ((texts.take n).flatten.take size.toNat)], size.toNat) := by
    rw [cutKey, if_pos ⟨hpos, by omega⟩, cutKey, utf8SubString_utf8, List.drop_zero, Nat.zero_add]
  have htake : (texts.take n).flatten.take size.toNat = texts.flatten.take size.toNat := by
    have happend : texts.flatten = (texts.take n).flatten ++ (texts.drop n).flatten := by
      rw [← List.flatten_append, List.take_append_drop]
    rw [happend, List.take_append_of_le_length hreached]
  rw [resize, hsum, List.drop_zero, hgather]
  dsimp only
  rw [if_neg (by omega), hcut, htake]
  refine ⟨{ key := utf8 (texts.flatten.take size.toNat), segmentType := .fixedBoundary }, _, rfl, rfl,
    rfl, ?_⟩
  intro htotal
  have hlength := hall htotal
  have hnone : ¬ size.toNat < (texts.take n).flatten.length := by
    rw [hlength, List.take_length]
    omega
  rw [if_neg hnone, Nat.zero_add, hlength, ← h.length_eq, List.drop_length]
  rfl

section converter

variable {applyConversion : List ConversionSegment → List ConversionSegment}

/-- What the conversion keeps of resized segments: one with a fixed boundary cannot consist of
several, and keeps its key. -/
def KeepsFixedBoundary (applyConversion : List ConversionSegment → List ConversionSegment) : Prop :=
  ∀ (first : ConversionSegment) (rest : List ConversionSegment), first.segmentType = .fixedBoundary →
    ∃ first' rest', applyConversion (first :: rest) = first' :: rest' ∧ first'.key = first.key ∧
      (rest = [] → rest' = [])

theorem resize_fixedBoundary {size : UInt8} {segments resized : List ConversionSegment}
    (h : resize 0 [size] segments = some resized) :
    ∃ first rest, resized = first :: rest ∧ first.segmentType = .fixedBoundary := by
  have hsum : ([size].map UInt8.toNat).sum = size.toNat := by simp
  rw [resize, hsum] at h
  dsimp only at h
  split at h
  · cases h
  · rename_i hok
    have hne : size ≠ 0 := by
      rintro rfl
      exact hok (.inl rfl)
    rw [cutKey, if_pos ⟨hne, by omega⟩] at h
    obtain rfl := Option.some.inj h
    exact ⟨_, _, rfl, rfl⟩

theorem resizeSegments_ne_nil (happly : KeepsFixedBoundary applyConversion) {size : UInt8}
    {segments : List ConversionSegment} (hne : segments ≠ []) :
    (resizeSegments applyConversion 0 [size] segments).2 ≠ [] := by
  rw [resizeSegments]
  split
  · exact hne
  · split
    · exact hne
    · rename_i resized hresize
      obtain ⟨first, rest, rfl, hfixed⟩ := resize_fixedBoundary hresize
      obtain ⟨first', rest', heq, -⟩ := happly first rest hfixed
      dsimp only
      rw [heq]
      exact List.cons_ne_nil _ _

theorem resizeSegment_ne_nil (happly : KeepsFixedBoundary applyConversion) (offset : Int)
    {segments : List ConversionSegment} (hne : segments ≠ []) :
    (resizeSegment applyConversion 0 offset segments).2 ≠ [] := by
  rw [resizeSegment]
  split
  · exact hne
  split
  · exact hne
  · dsimp only
    split
    · exact hne
    · exact resizeSegments_ne_nil happly hne

theorem resizeSegments_one_iff (happly : KeepsFixedBoundary applyConversion)
    {texts : List (List Char)} {segments : List ConversionSegment} (h : KeyedBy texts segments)
    (hseveral : 2 ≤ segments.length) {size : UInt8} (hle : size.toNat ≤ texts.flatten.length) :
    (resizeSegments applyConversion 0 [size] segments).2.map ConversionSegment.key =
      [utf8 texts.flatten] ↔ size.toNat = texts.flatten.length := by
  have hunchanged : segments.map ConversionSegment.key ≠ [utf8 texts.flatten] := by
    intro heq
    have hlength := congrArg List.length heq
    rw [List.length_map, List.length_singleton] at hlength
    omega
  rw [resizeSegments, if_neg (by omega)]
  by_cases hzero : size = 0
  · have hnone : resize 0 [size] segments = none := by
      rw [resize, hzero]
      exact if_pos (.inl rfl)
    have hpos : 0 < texts.flatten.length := by
      obtain ⟨text, rest, rfl⟩ : ∃ text rest, texts = text :: rest := by
        apply List.exists_cons_of_length_pos
        rw [← h.length_eq]
        omega
      have htext := List.length_pos_iff.mpr (h.2 text List.mem_cons_self)
      rw [List.flatten_cons, List.length_append]
      omega
    rw [hnone]
    refine ⟨fun heq => absurd heq hunchanged, fun heq => ?_⟩
    rw [hzero, UInt8.toNat_zero] at heq
    omega
  · obtain ⟨first, rest, hresize, hfixed, hkey, hall⟩ := resize_spec h hzero hle
    obtain ⟨first', rest', happly, hkey', hrest⟩ := happly first rest hfixed
    rw [hresize]
    dsimp only
    rw [happly, List.map_cons, hkey', hkey, List.cons.injEq, List.map_eq_nil_iff]
    constructor
    · rintro ⟨heq, -⟩
      have hlength := congrArg charsLen heq
      rw [charsLen_utf8, charsLen_utf8, List.length_take] at hlength
      omega
    · intro htotal
      rw [htotal, List.take_length]
      exact ⟨rfl, hrest (hall htotal)⟩

theorem bmod_spec (x : Int) :
    ∃ q, x.bmod (2 ^ 32) = x - 2 ^ 32 * q ∧ -2 ^ 31 ≤ x.bmod (2 ^ 32) ∧ x.bmod (2 ^ 32) < 2 ^ 31 := by
  obtain ⟨q, hq⟩ : ((2 ^ 32 : Nat) : Int) ∣ x - x.bmod (2 ^ 32) := Int.dvd_self_sub_bmod
  have hle := Int.le_bmod (x := x) (m := 2 ^ 32) (by decide)
  have hlt := Int.bmod_lt (x := x) (m := 2 ^ 32) (by decide)
  refine ⟨q, ?_, ?_, ?_⟩ <;> omega

theorem resizeSegment_one_iff (happly : KeepsFixedBoundary applyConversion)
    {texts : List (List Char)} {segments : List ConversionSegment} (h : KeyedBy texts segments)
    (hseveral : 2 ≤ segments.length) :
    (resizeSegment applyConversion 0
      (Int.bmod ((segments.drop 1).map ConversionSegment.keyLen).sum (2 ^ 32))
      segments).2.map ConversionSegment.key = [utf8 texts.flatten] ↔
    texts.flatten.length ≤ 255 := by
  obtain ⟨first, segments, rfl⟩ := List.exists_cons_of_length_pos (Nat.lt_of_lt_of_le Nat.zero_lt_two hseveral)
  have hunchanged : (first :: segments).map ConversionSegment.key ≠ [utf8 texts.flatten] := by
    intro heq
    have hlength := congrArg List.length heq
    rw [List.length_map, List.length_singleton] at hlength
    omega
  have hall := h
  obtain ⟨text, rest, rfl, hkey, hne, hrest⟩ := h.cons
  have hfirst : first.keyLen = text.length := by
    rw [ConversionSegment.keyLen, hkey, charsLen_utf8]
  have hpos := List.length_pos_iff.mpr hne
  have htotal : (text :: rest).flatten.length = text.length + rest.flatten.length := by
    rw [List.flatten_cons, List.length_append]
  have hrestpos : 0 < rest.flatten.length := by
    obtain ⟨next, rest, rfl⟩ : ∃ next rest', rest = next :: rest' := by
      apply List.exists_cons_of_length_pos
      rw [← hrest.length_eq]
      rw [List.length_cons] at hseveral
      omega
    have hnext := List.length_pos_iff.mpr (hrest.2 next List.mem_cons_self)
    rw [List.flatten_cons, List.length_append]
    omega
  rw [List.drop_one, List.tail_cons, hrest.sum_keyLen, resizeSegment, List.getElem?_cons_zero]
  dsimp only
  rw [hfirst]
  obtain ⟨p, hp, hple, hplt⟩ := bmod_spec rest.flatten.length
  generalize Int.bmod rest.flatten.length (2 ^ 32) = offset at hp hple hplt ⊢
  obtain ⟨q, hq, hqle, hqlt⟩ := bmod_spec (text.length + offset)
  generalize Int.bmod (text.length + offset) (2 ^ 32) = newSize at hq hqle hqlt ⊢
  split
  · refine ⟨fun heq => absurd heq hunchanged, fun hle => ?_⟩
    omega
  split
  · refine ⟨fun heq => absurd heq hunchanged, fun hle => ?_⟩
    omega
  · -- The new size is one of a byte, and that of the whole key where this has one.
    have hsize : (UInt8.ofNat newSize.toNat).toNat = newSize.toNat := by
      rw [UInt8.toNat_ofNat']
      omega
    rw [resizeSegments_one_iff happly hall hseveral (by omega), hsize]
    omega

end converter

/-! `SwitchKanaType` and `ConvertToTransliteration` of several segments. -/

namespace EngineConverter

variable {fingerprint : Bytes → UInt64} {call : Call} {s s' : EngineConverter}

theorem updateCandidateList_spec (h : s.segmentIndex < s.segments.length) :
    ∃ list focused visible, s.updateCandidateList fingerprint call = some { s with
      candidateList := list, candidateListFocused := focused, candidateListVisible := visible } := by
  rw [updateCandidateList, List.getElem?_eq_getElem h]
  exact ⟨_, _, _, rfl⟩

theorem convert_spec (h : s.convert fingerprint call = some (true, s')) :
    s'.state = .conversion ∧ s'.segmentIndex = 0 ∧
      s'.selectedCandidateIndices = List.replicate s'.segments.length 0 := by
  dsimp only [convert] at h
  split at h
  · simp at h
  · obtain ⟨s₁, hupdate, heq⟩ := Option.map_eq_some_iff.mp h
    obtain ⟨-, rfl⟩ := Prod.mk.inj heq
    rw [updateCandidateList] at hupdate
    split at hupdate
    · cases hupdate
    · obtain rfl := Option.some.inj hupdate
      exact ⟨rfl, rfl, rfl⟩

/-- The operation has made one segment, of the whole key. -/
def MakesOneSegment (key : Bytes) (result : Option (Bool × EngineConverter)) : Prop :=
  ∃ s segment, result = some (true, s) ∧ s.segments = [segment] ∧ segment.key = key

/-- The converter keeps the keys when a candidate is focused. -/
def KeepsKeys (converter : ConverterInterface) : Prop :=
  ∀ i id segments, (converter.focusSegmentValue i id segments).2.map ConversionSegment.key =
    segments.map ConversionSegment.key

theorem focusTransliteration_one_iff (hkeeps : KeepsKeys call.converter) {key : Bytes}
    (hindex : s.segmentIndex < s.selectedCandidateIndices.length) :
    MakesOneSegment key (s.focusTransliteration call) ↔ s.segments.map ConversionSegment.key = [key] := by
  rw [focusTransliteration, setSelectedCandidateIndex, if_pos hindex, Option.map_some]
  dsimp only [segmentFocus]
  constructor
  · rintro ⟨s₁, segment, heq, hone, hkey⟩
    obtain ⟨-, rfl⟩ := Prod.mk.inj (Option.some.inj heq)
    dsimp only at hone
    rw [← hkeeps, hone, List.map_singleton, hkey]
  · intro hkeys
    rw [← hkeeps, List.map_eq_singleton_iff] at hkeys
    obtain ⟨segment, hone, hkey⟩ := hkeys
    exact ⟨_, segment, rfl, hone, hkey⟩

theorem updateThenFocus_one_iff (hkeeps : KeepsKeys call.converter) {key : Bytes}
    (f : EngineConverter → CandidateList) (hindex : s.segmentIndex = 0)
    (hpos : 0 < s.selectedCandidateIndices.length) :
    MakesOneSegment key ((s.updateCandidateList fingerprint call).bind fun s =>
      focusTransliteration call { s with candidateList := f s }) ↔
      s.segments.map ConversionSegment.key = [key] := by
  by_cases hlt : s.segmentIndex < s.segments.length
  · obtain ⟨list, focused, visible, hupdate⟩ := @updateCandidateList_spec fingerprint call s hlt
    rw [hupdate, Option.bind_some]
    apply focusTransliteration_one_iff hkeeps
    dsimp only
    omega
  · have hnil : s.segments = [] := List.length_eq_zero_iff.mp (by omega)
    rw [updateCandidateList, hindex, hnil]
    constructor
    · rintro ⟨_, _, heq, -⟩
      cases heq
    · intro heq
      cases heq

theorem resizeSegmentWidth_spec {delta : Int} (hstate : s.state = .conversion)
    (hindex : s.segmentIndex = 0) (hpos : 0 < s.selectedCandidateIndices.length)
    (hne : (call.converter.resizeSegment 0 delta s.segments).2 ≠ []) :
    ∃ s₁, s.resizeSegmentWidth fingerprint call delta = some s₁ ∧
      s₁.segments = (call.converter.resizeSegment 0 delta s.segments).2 ∧ s₁.segmentIndex = 0 ∧
      0 < s₁.selectedCandidateIndices.length := by
  have hlength := List.length_pos_iff.mpr hne
  obtain ⟨state, segments, segmentIndex, previous, list, focused, visible, indices, type⟩ := s
  dsimp only at hstate hindex hpos hlength
  subst hstate hindex
  dsimp only [resizeSegmentWidth]
  rw [if_neg (by decide)]
  split
  · exact ⟨_, rfl, rfl, rfl, hpos⟩
  · obtain ⟨list', focused', visible', hupdate⟩ := @updateCandidateList_spec fingerprint call
      (.mk .conversion (call.converter.resizeSegment 0 delta segments).2 0 previous list focused false
        indices type) hlength
    rw [hupdate, Option.bind_eq_bind, Option.bind_some]
    dsimp only
    rw [if_pos (by omega), updateSelectedCandidateIndex, setSelectedCandidateIndex, if_pos]
    · refine ⟨_, rfl, rfl, rfl, ?_⟩
      dsimp only
      rw [List.length_set, List.length_append, List.length_take]
      omega
    · dsimp only
      rw [List.length_append, List.length_take]
      omega

section resized

variable {applyConversion : List ConversionSegment → List ConversionSegment}
  {base : ConverterInterface} {texts : List (List Char)}

theorem cancelPrediction_eq (h : s.state = .composition ∨ s.state = .suggestion) :
    s.cancelPrediction = s := by
  rw [cancelPrediction, if_neg]
  rcases h with h | h <;> rw [h] <;> decide

theorem switchKanaType_one_iff (hcall : call.converter = base.withResize applyConversion)
    (happly : KeepsFixedBoundary applyConversion) (hkeeps : KeepsKeys base)
    (hstate : s.state = .composition ∨ s.state = .suggestion)
    (hconvert : s.convert fingerprint call = some (true, s')) (hseveral : 2 ≤ s'.segments.length)
    (hkeys : KeyedBy texts s'.segments) :
    MakesOneSegment (utf8 texts.flatten) (s.switchKanaType fingerprint call) ↔
      texts.flatten.length ≤ 255 := by
  obtain ⟨-, hindex, hindices⟩ := convert_spec hconvert
  have hne : s.state ≠ .conversion := by
    rcases hstate with h | h <;> rw [h] <;> decide
  have hkeeps : KeepsKeys call.converter := by
    rw [hcall]
    exact hkeeps
  have hsize : (UInt8.ofNat texts.flatten.length).toNat = texts.flatten.length % 256 := by
    rw [UInt8.toNat_ofNat']
  rw [switchKanaType, cancelPrediction_eq hstate]
  dsimp only
  rw [if_pos hne, hconvert, Option.bind_eq_bind, Option.bind_some]
  dsimp only
  rw [if_neg (by simp), resizeToOneSegment, if_neg (by omega), hkeys.sum_keyLen, Option.bind_eq_bind]
  have hpos : 0 < s'.selectedCandidateIndices.length := by
    rw [hindices, List.length_replicate]
    omega
  have hupdate := @updateThenFocus_one_iff fingerprint call { s' with
    segments := (call.converter.resizeSegments 0 [UInt8.ofNat texts.flatten.length] s'.segments).2 }
    hkeeps (utf8 texts.flatten)
    (fun s => s.candidateList.moveNextAttributes (fullWidth ||| katakana)) hindex hpos
  refine hupdate.trans ?_
  have hmod := Nat.mod_le texts.flatten.length 256
  dsimp only
  rw [hcall, ConverterInterface.withResize_resizeSegments]
  refine (resizeSegments_one_iff happly hkeys hseveral (by omega)).trans ?_
  omega

theorem convertToTransliteration_one_iff (hcall : call.converter = base.withResize applyConversion)
    (happly : KeepsFixedBoundary applyConversion) (hkeeps : KeepsKeys base)
    (hstate : s.state = .composition ∨ s.state = .suggestion)
    (hconvert : s.convert fingerprint call = some (true, s')) (hseveral : 2 ≤ s'.segments.length)
    (hkeys : KeyedBy texts s'.segments) (type : TransliterationType) :
    MakesOneSegment (utf8 texts.flatten) (s.convertToTransliteration fingerprint call type) ↔
      texts.flatten.length ≤ 255 := by
  obtain ⟨hconversion, hindex, hindices⟩ := convert_spec hconvert
  have hne : s.state ≠ .conversion := by
    rcases hstate with h | h <;> rw [h] <;> decide
  have hkeeps : KeepsKeys call.converter := by
    rw [hcall]
    exact hkeeps
  have hpos : 0 < s'.selectedCandidateIndices.length := by
    rw [hindices, List.length_replicate]
    omega
  rw [convertToTransliteration, cancelPrediction_eq hstate]
  dsimp only
  rw [if_pos hne, hconvert, Option.bind_eq_bind, Option.bind_some]
  dsimp only
  rw [if_neg (by simp), hindex, if_pos (by omega)]
  have hnil : s'.segments ≠ [] := by
    intro hnil
    rw [hnil] at hseveral
    cases hseveral
  obtain ⟨s₁, hresize, hsegments, hindex₁, hpos₁⟩ := @resizeSegmentWidth_spec fingerprint call s'
    (Int.bmod ((s'.segments.drop 1).map ConversionSegment.keyLen).sum (2 ^ 32)) hconversion hindex hpos
    (by
      rw [hcall, ConverterInterface.withResize_resizeSegment]
      exact resizeSegment_ne_nil happly _ hnil)
  rw [hresize, Option.bind_eq_bind, Option.bind_some]
  refine (focusTransliteration_one_iff hkeeps ?_).trans ?_
  · dsimp only
    rw [hindex₁]
    exact hpos₁
  · dsimp only
    rw [hsegments, hcall, ConverterInterface.withResize_resizeSegment]
    exact resizeSegment_one_iff happly hkeys hseveral

/-- Both operations make one segment of the whole key exactly when it has at most 255 characters. -/
theorem makesOneSegment_iff (hcall : call.converter = base.withResize applyConversion)
    (happly : KeepsFixedBoundary applyConversion) (hkeeps : KeepsKeys base)
    (hstate : s.state = .composition ∨ s.state = .suggestion)
    (hconvert : s.convert fingerprint call = some (true, s')) (hseveral : 2 ≤ s'.segments.length)
    (hkeys : KeyedBy texts s'.segments) (type : TransliterationType) :
    (MakesOneSegment (s'.segments.flatMap ConversionSegment.key) (s.switchKanaType fingerprint call) ∧
      MakesOneSegment (s'.segments.flatMap ConversionSegment.key)
        (s.convertToTransliteration fingerprint call type)) ↔
      (s'.segments.map ConversionSegment.keyLen).sum ≤ 255 := by
  rw [hkeys.joinedKey, hkeys.sum_keyLen,
    switchKanaType_one_iff hcall happly hkeeps hstate hconvert hseveral hkeys,
    convertToTransliteration_one_iff hcall happly hkeeps hstate hconvert hseveral hkeys type, and_self]

end resized

/-- A converter whose conversion has the segments of some texts. -/
def textConverter (texts : List (List Char)) : ConverterInterface where
  startConversion := fun _ => (true, texts.map fun text => { key := utf8 text })
  rerank := id
  startPrediction := fun segments => (false, segments)
  startPredictionWithPreviousSuggestion := fun segment segments => (false, segment :: segments)
  prependCandidates := fun segment segments => segment :: segments
  finishConversion := fun _ => []
  commitSegmentValue := fun _ _ segments => (true, segments)
  commitPartialSuggestionSegmentValue := fun _ _ segments => (true, segments)
  focusSegmentValue := fun _ _ segments => (true, segments)
  commitSegments := fun ids segments => (true, segments.drop ids.length)
  resizeSegment := fun _ _ segments => (false, segments)
  resizeSegments := fun _ _ segments => (false, segments)

def textCall (texts : List (List Char)) : Call where
  converter := (textConverter texts).withResize id

theorem id_keepsFixedBoundary : KeepsFixedBoundary id :=
  fun first rest _ => ⟨first, rest, rfl, rfl, id⟩

theorem textConverter_keepsKeys (texts : List (List Char)) : KeepsKeys (textConverter texts) :=
  fun _ _ _ => rfl

theorem makesOneSegment_iff_kana : ∃ s',
    convert (fun _ => 0) (textCall [['か', 'な'], ['だ']]) {} = some (true, s') ∧
    ((MakesOneSegment (s'.segments.flatMap ConversionSegment.key)
        (switchKanaType (fun _ => 0) (textCall [['か', 'な'], ['だ']]) {}) ∧
      MakesOneSegment (s'.segments.flatMap ConversionSegment.key)
        (convertToTransliteration (fun _ => 0) (textCall [['か', 'な'], ['だ']]) .halfAscii {})) ↔
      (s'.segments.map ConversionSegment.keyLen).sum ≤ 255) := by
  have hconvert : convert (fun _ => 0) (textCall [['か', 'な'], ['だ']]) {} = some (true, _) := rfl
  have hkeys : KeyedBy [['か', 'な'], ['だ']] ([['か', 'な'], ['だ']].map fun text =>
      ({ key := utf8 text } : ConversionSegment)) := ⟨rfl, by simp⟩
  exact ⟨_, hconvert, makesOneSegment_iff rfl id_keepsFixedBoundary (textConverter_keepsKeys _)
    (.inl rfl) hconvert (by decide) hkeys .halfAscii⟩

/-- A key of 256 characters in two segments: the one byte of its length is zero, and the new size of
the first segment is one that `ResizeSegment` refuses. -/
theorem not_makesOneSegment_long : ¬ ∀ (texts : List (List Char)) (s' : EngineConverter),
    convert (fun _ => 0) (textCall texts) {} = some (true, s') → KeyedBy texts s'.segments →
    2 ≤ s'.segments.length →
    MakesOneSegment (utf8 texts.flatten) (switchKanaType (fun _ => 0) (textCall texts) {}) ∨
      MakesOneSegment (utf8 texts.flatten)
        (convertToTransliteration (fun _ => 0) (textCall texts) .halfAscii {}) := by
  intro h
  obtain ⟨long, hlong⟩ : ∃ long : List Char, long.length = 255 :=
    ⟨List.replicate 255 'a', List.length_replicate⟩
  have hne : long ≠ [] := by
    rintro rfl
    cases hlong
  let texts := [long, ['b']]
  have hconvert : convert (fun _ => 0) (textCall texts) {} = some (true, _) := rfl
  have hkeys : KeyedBy texts (texts.map fun text => ({ key := utf8 text } : ConversionSegment)) :=
    ⟨rfl, by simp [texts, hne]⟩
  have hlength : texts.flatten.length = 256 := by simp [texts, hlong]
  rcases h texts _ hconvert hkeys (Nat.le_refl 2) with hone | hone
  · have hle := (switchKanaType_one_iff rfl id_keepsFixedBoundary (textConverter_keepsKeys texts)
      (.inl rfl) hconvert (Nat.le_refl 2) hkeys).mp hone
    omega
  · have hle := (convertToTransliteration_one_iff rfl id_keepsFixedBoundary
      (textConverter_keepsKeys texts) (.inl rfl) hconvert (Nat.le_refl 2) hkeys .halfAscii).mp hone
    omega

end EngineConverter

end Mozkey.Engine
