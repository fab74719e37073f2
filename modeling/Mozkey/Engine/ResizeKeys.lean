import Mozkey.Engine.ResizeSegments

/-! What `Segments::Resize` of `converter/segments.cc` does to the keys of any segments. -/

namespace Mozkey.Engine

open Base Storage

structure ResizableSegments where
  segments : List ConversionSegment := []
  resized : Bool := false
  deriving DecidableEq

def ResizableSegments.resize (startIndex : Nat) (newSizes : List UInt8) (s : ResizableSegments) :
    Bool × ResizableSegments :=
  match Engine.resize startIndex newSizes s.segments with
  | none => (false, s)
  | some segments => (true, { segments, resized := true })

/-- No character of a text is cut off at its end, so that the leading bytes count the characters of
whatever begins with it. -/
def WholeCharacters (text : Bytes) : Prop :=
  ∀ rest, charsLen (text ++ rest) = charsLen text + charsLen rest

theorem wholeCharacters_utf8 (cs : List Char) : WholeCharacters (utf8 cs) := by
  intro rest
  induction cs with
  | nil => rw [charsLen_utf8, List.length_nil, Nat.zero_add]; rfl
  | cons c cs ih =>
    rw [utf8_cons, List.append_assoc, charsLen_utf8EncodeChar_append,
      charsLen_utf8EncodeChar_append, ih]
    omega

theorem wholeCharacters_flatMap {segments : List ConversionSegment}
    (h : ∀ segment ∈ segments, WholeCharacters segment.key) :
    charsLen (segments.flatMap ConversionSegment.key) =
      (segments.map ConversionSegment.keyLen).sum := by
  induction segments with
  | nil => rfl
  | cons segment segments ih =>
    rw [List.flatMap_cons, h segment List.mem_cons_self, ih fun s hs => h s (List.mem_cons_of_mem _ hs),
      List.map_cons, List.sum_cons, ConversionSegment.keyLen]

theorem gatherKey_eq (totalSize keyLen : Nat) (segments : List ConversionSegment) :
    ∃ n ≤ segments.length, gatherKey totalSize keyLen segments =
      ((segments.take n).flatMap ConversionSegment.key,
        keyLen + ((segments.take n).map ConversionSegment.keyLen).sum, n) := by
  induction segments generalizing keyLen with
  | nil => exact ⟨0, le_rfl, rfl⟩
  | cons segment segments ih =>
    rw [gatherKey]
    split
    · exact ⟨1, Nat.succ_le_succ (Nat.zero_le _), by simp⟩
    · obtain ⟨n, hn, hgather⟩ := ih (keyLen + segment.keyLen)
      refine ⟨n + 1, Nat.succ_le_succ hn, ?_⟩
      rw [hgather, List.take_succ_cons, List.flatMap_cons, List.map_cons, List.sum_cons, Nat.add_assoc]

theorem cutKey_eq {key : Bytes} {keyLen : Nat} (hkey : charsLen key = keyLen) {sizes : List UInt8}
    {consumed : Nat} (hle : consumed + (sizes.map UInt8.toNat).sum ≤ keyLen) :
    ∃ keys, cutKey key keyLen consumed sizes = (keys, consumed + (sizes.map UInt8.toNat).sum) ∧
      keys.flatten = utf8Take (sizes.map UInt8.toNat).sum (utf8Drop consumed key) ∧
      keys.map charsLen = (sizes.filter (· ≠ 0)).map UInt8.toNat := by
  induction sizes generalizing consumed with
  | nil => exact ⟨[], rfl, rfl, rfl⟩
  | cons size sizes ih =>
    rw [List.map_cons, List.sum_cons] at hle ⊢
    rw [cutKey]
    by_cases hzero : size = 0
    · subst hzero
      rw [UInt8.toNat_zero, Nat.zero_add] at hle ⊢
      rw [if_neg fun h => h.1 rfl, List.filter_cons_of_neg (by decide)]
      exact ih hle
    · have hpos : 0 < size.toNat := by
        rw [Nat.pos_iff_ne_zero]
        exact fun heq => hzero (UInt8.toNat_inj.mp heq)
      obtain ⟨keys, hcut, hflatten, hsizes⟩ := @ih (consumed + size.toNat) (by omega)
      rw [if_pos ⟨hzero, by omega⟩, hcut]
      refine ⟨utf8SubString key consumed size.toNat :: keys, ?_, ?_, ?_⟩
      · rw [Nat.add_assoc]
      · rw [List.flatten_cons, hflatten, utf8SubString, utf8Take_add, utf8Drop_add]
      · rw [List.filter_cons_of_pos (by simpa using hzero), List.map_cons, List.map_cons, hsizes,
          utf8SubString, charsLen_utf8Take, charsLen_utf8Drop, hkey, Nat.min_eq_left (by omega)]

/-- The segments that a resize leaves: those before the start index, the new ones, and the rest, to
which the remainder of the key goes. -/
structure IsResized (startIndex : Nat) (newSizes : List UInt8)
    (segments resized : List ConversionSegment) : Prop where
  joinedKey : resized.flatMap ConversionSegment.key = segments.flatMap ConversionSegment.key
  before : resized.take startIndex = segments.take startIndex
  parts : ∃ new remainder modified rest,
    resized = segments.take startIndex ++ new ++ rest ∧
    new.map ConversionSegment.keyLen = (newSizes.filter (· ≠ 0)).map UInt8.toNat ∧
    (∀ segment ∈ new, segment.segmentType = .fixedBoundary) ∧
    new.flatMap ConversionSegment.key ++ remainder =
      ((segments.drop startIndex).take modified).flatMap ConversionSegment.key ∧
    -- A remainder goes to the segment behind, which is a new one behind the last.
    (remainder = [] ∧ rest = segments.drop (startIndex + modified) ∨
      remainder ≠ [] ∧ ∃ next : ConversionSegment,
        next.segmentType = .free ∧
        next.key = remainder ++
          ((segments.drop (startIndex + modified)).head?.map ConversionSegment.key).getD [] ∧
        rest = next :: segments.drop (startIndex + modified + 1))

theorem flatMap_head?_tail (segments : List ConversionSegment) :
    (segments.head?.map ConversionSegment.key).getD [] ++
      segments.tail.flatMap ConversionSegment.key = segments.flatMap ConversionSegment.key := by
  cases segments with
  | nil => rfl
  | cons segment segments =>
    rw [List.flatMap_cons]
    rfl

theorem IsResized.of_parts {startIndex modified : Nat} {newSizes : List UInt8}
    {segments new rest : List ConversionSegment} {remainder : Bytes}
    (hstart : startIndex ≤ segments.length)
    (hsizes : new.map ConversionSegment.keyLen = (newSizes.filter (· ≠ 0)).map UInt8.toNat)
    (htype : ∀ segment ∈ new, segment.segmentType = .fixedBoundary)
    (hkeys : new.flatMap ConversionSegment.key ++ remainder =
      ((segments.drop startIndex).take modified).flatMap ConversionSegment.key)
    (hrest : remainder = [] ∧ rest = segments.drop (startIndex + modified) ∨
      remainder ≠ [] ∧ ∃ next : ConversionSegment, next.segmentType = .free ∧
        next.key = remainder ++
          ((segments.drop (startIndex + modified)).head?.map ConversionSegment.key).getD [] ∧
        rest = next :: segments.drop (startIndex + modified + 1)) :
    IsResized startIndex newSizes segments (segments.take startIndex ++ new ++ rest) := by
  have hall : segments.flatMap ConversionSegment.key =
      (segments.take startIndex).flatMap ConversionSegment.key ++
        (new.flatMap ConversionSegment.key ++ remainder) ++
        (segments.drop (startIndex + modified)).flatMap ConversionSegment.key := by
    rw [hkeys, ← List.flatMap_append, ← List.flatMap_append, List.append_assoc, ← List.drop_drop,
      List.take_append_drop, List.take_append_drop]
  refine ⟨?_, ?_, new, remainder, modified, rest, rfl, hsizes, htype, hkeys, hrest⟩
  · rw [hall, List.flatMap_append, List.flatMap_append]
    rcases hrest with ⟨rfl, rfl⟩ | ⟨-, next, -, hnext, rfl⟩
    · rw [List.append_nil]
    · rw [List.flatMap_cons, hnext, ← flatMap_head?_tail (segments.drop (startIndex + modified)),
        List.tail_drop]
      simp only [List.append_assoc]
  · rw [List.append_assoc]
    exact List.take_left' (List.length_take_of_le hstart)

theorem isResized_of_resize {startIndex : Nat} {newSizes : List UInt8}
    {segments resized : List ConversionSegment}
    (hwhole : ∀ segment ∈ segments, WholeCharacters segment.key)
    (hstart : startIndex ≤ segments.length) (h : resize startIndex newSizes segments = some resized) :
    IsResized startIndex newSizes segments resized := by
  obtain ⟨modified, hmodified, hgather⟩ :=
    gatherKey_eq (newSizes.map UInt8.toNat).sum 0 (segments.drop startIndex)
  have hkeyLen := @wholeCharacters_flatMap ((segments.drop startIndex).take modified)
    fun segment hsegment => hwhole segment (List.mem_of_mem_drop (List.mem_of_mem_take hsegment))
  rw [Nat.zero_add, ← hkeyLen] at hgather
  rw [resize, hgather] at h
  dsimp only at h
  generalize hkey : ((segments.drop startIndex).take modified).flatMap ConversionSegment.key = key at h
  split at h
  · cases h
  rename_i henough
  obtain ⟨keys, hcut, hflatten, hsizes⟩ := @cutKey_eq key _ rfl newSizes 0 (by omega)
  rw [Nat.zero_add] at hcut
  rw [utf8Drop] at hflatten
  rw [hcut] at h
  obtain rfl := Option.some.inj h
  have hnewKeys : (keys.map fun key : Bytes =>
      ({ key, segmentType := .fixedBoundary } : ConversionSegment)).flatMap ConversionSegment.key =
        keys.flatten := by
    rw [List.flatMap_map]
    exact List.flatMap_id'
  have hnewSizes : (keys.map fun key : Bytes =>
      ({ key, segmentType := .fixedBoundary } : ConversionSegment)).map ConversionSegment.keyLen =
        (newSizes.filter (· ≠ 0)).map UInt8.toNat := by
    rw [List.map_map, ← hsizes]
    rfl
  have htype : ∀ segment ∈ keys.map fun key : Bytes =>
      ({ key, segmentType := .fixedBoundary } : ConversionSegment),
        segment.segmentType = .fixedBoundary := by
    intro segment hsegment
    obtain ⟨key, -, rfl⟩ := List.mem_map.mp hsegment
    rfl
  split
  · rename_i hleft
    have hremainder : utf8SubString key (newSizes.map UInt8.toNat).sum
        (charsLen key - (newSizes.map UInt8.toNat).sum) =
          utf8Drop (newSizes.map UInt8.toNat).sum key := by
      rw [utf8SubString, utf8Take_of_charsLen_le]
      rw [charsLen_utf8Drop]
    rw [hremainder]
    apply @IsResized.of_parts startIndex modified _ _ _ _ _ hstart hnewSizes htype
    · rw [hnewKeys, hflatten, utf8Take_append_utf8Drop, hkey]
    · refine .inr ⟨?_, {
        key := utf8Drop (newSizes.map UInt8.toNat).sum key ++
          ((segments.drop (startIndex + modified)).head?.map ConversionSegment.key).getD []
        segmentType := .free }, rfl, rfl, ?_⟩
      · intro hnil
        have hlen := charsLen_utf8Drop (newSizes.map UInt8.toNat).sum key
        rw [hnil, charsLen_nil] at hlen
        omega
      · rw [List.tail_drop]
  · rename_i hnone
    apply @IsResized.of_parts startIndex modified _ _ _ _ [] hstart hnewSizes htype
    · rw [hnewKeys, hflatten, List.append_nil, hkey, utf8Take_of_charsLen_le (by omega)]
    · exact .inl ⟨rfl, rfl⟩

/-- `Resize` of segments with keys of whole characters either returns false and leaves the segments
as they are, or cuts the keys from the start index on and keeps all of them. -/
theorem resize_cuts_keys {s : ResizableSegments} {startIndex : Nat} (newSizes : List UInt8)
    (hwhole : ∀ segment ∈ s.segments, WholeCharacters segment.key)
    (hstart : startIndex < s.segments.length) :
    s.resize startIndex newSizes = (false, s) ∨
      ∃ resized, s.resize startIndex newSizes = (true, { segments := resized, resized := true }) ∧
        IsResized startIndex newSizes s.segments resized := by
  rw [ResizableSegments.resize]
  cases h : Engine.resize startIndex newSizes s.segments with
  | none => exact .inl rfl
  | some resized => exact .inr ⟨resized, rfl, isResized_of_resize hwhole hstart.le h⟩

/-- A key that ends inside of a character takes the first bytes of the next key for the rest of it:
the new segment of three characters has two. -/
theorem not_resize_cuts_keys :
    ¬ ∀ (s : ResizableSegments) (startIndex : Nat) (newSizes : List UInt8),
      startIndex < s.segments.length →
        s.resize startIndex newSizes = (false, s) ∨
          ∃ resized, s.resize startIndex newSizes =
            (true, { segments := resized, resized := true }) ∧
              IsResized startIndex newSizes s.segments resized := by
  intro h
  have hresize : (ResizableSegments.mk [{ key := [0xe3] }, { key := [0x61, 0x62, 0x63] }] false).resize
      0 [3] = (true, ⟨[{ key := [0xe3, 0x61, 0x62, 0x63], segmentType := .fixedBoundary }, {}],
        true⟩) := by decide
  rcases h ⟨[{ key := [0xe3] }, { key := [0x61, 0x62, 0x63] }], false⟩ 0 [3] (by decide) with
    hfalse | ⟨resized, htrue, hresized⟩
  · rw [hresize] at hfalse
    exact absurd (congrArg Prod.fst hfalse) (by decide)
  · rw [hresize] at htrue
    obtain rfl := (congrArg (ResizableSegments.segments ∘ Prod.snd) htrue).symm
    obtain ⟨new, remainder, modified, rest, hparts, hsizes, -⟩ := hresized.parts
    cases new with
    | nil => exact absurd hsizes (by decide)
    | cons segment new =>
      have hsegment : segment = { key := [0xe3, 0x61, 0x62, 0x63], segmentType := .fixedBoundary } :=
        (List.cons.inj hparts).1.symm
      rw [hsegment] at hsizes
      exact absurd (List.cons.inj hsizes).1 (by decide)

/-- A size that reaches into the second of three segments, whose remainder goes to the third. -/
theorem resize_cuts_keys_three :
    let s : ResizableSegments :=
      { segments := [{ key := utf8 ['a'] }, { key := utf8 ['b', 'c'] }, { key := utf8 ['d'] }] }
    s.resize 0 [0, 2] = (false, s) ∨
      ∃ resized, s.resize 0 [0, 2] = (true, { segments := resized, resized := true }) ∧
        IsResized 0 [0, 2] s.segments resized := by
  refine resize_cuts_keys [0, 2] ?_ (by decide)
  intro segment hsegment
  rcases List.mem_cons.mp hsegment with rfl | hsegment
  · exact wholeCharacters_utf8 _
  rcases List.mem_cons.mp hsegment with rfl | hsegment
  · exact wholeCharacters_utf8 _
  · rw [List.mem_singleton.mp hsegment]
    exact wholeCharacters_utf8 _

end Mozkey.Engine
