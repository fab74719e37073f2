import Mozkey.Converter.Lattice

/-! `InnerSegments` of `converter/inner_segment.h`: the segments that a key and a value are made of,
by the lengths that the boundary encodes. -/

namespace Mozkey.Converter

structure LengthData where
  keyLen : Nat
  valueLen : Nat
  contentKeyLen : Nat
  contentValueLen : Nat
  deriving DecidableEq

/-- The first of the four bit fields has the lowest bits. -/
def decodeLengths (encoded : UInt32) : LengthData :=
  { keyLen := encoded.toNat % 256, valueLen := encoded.toNat / 2 ^ 8 % 256,
    contentKeyLen := encoded.toNat / 2 ^ 16 % 256, contentValueLen := encoded.toNat / 2 ^ 24 % 256 }

/-- A content length that cannot be right is that of the whole. -/
def fixContentLen (len fullLen : Nat) : Nat := if len = 0 ∨ fullLen < len then fullLen else len

def encodeLengths (keyLen valueLen contentKeyLen contentValueLen : Nat) : Option UInt32 :=
  let contentKeyLen := fixContentLen contentKeyLen keyLen
  let contentValueLen := fixContentLen contentValueLen valueLen
  let fits (len : Nat) : Prop := len ≠ 0 ∧ len ≤ 255
  if fits keyLen ∧ fits valueLen ∧ fits contentKeyLen ∧ fits contentValueLen then
    some (UInt32.ofNat
      (keyLen + valueLen * 2 ^ 8 + contentKeyLen * 2 ^ 16 + contentValueLen * 2 ^ 24))
  else none

def buildInnerSegmentBoundary (keyLen valueLen contentKeyLen contentValueLen : Nat)
    (key value : Bytes) : List UInt32 :=
  match encodeLengths keyLen valueLen contentKeyLen contentValueLen with
  | some encoded => if keyLen = key.length ∧ valueLen = value.length then [encoded] else []
  | none => []

structure InnerSegment where
  key : Bytes
  value : Bytes
  contentKey : Bytes
  contentValue : Bytes
  deriving DecidableEq

/-- What is left when the encoded lengths are used up is one segment. -/
def innerSegments : Bytes → Bytes → List UInt32 → List InnerSegment
  | key, value, [] =>
    if key = [] ∧ value = [] then []
    else [{ key, value, contentKey := key, contentValue := value }]
  | key, value, encoded :: encodedLengths =>
    if key = [] ∧ value = [] then []
    else
      let lengths := decodeLengths encoded
      { key := key.take lengths.keyLen, value := value.take lengths.valueLen,
        contentKey := key.take lengths.contentKeyLen,
        contentValue := value.take lengths.contentValueLen } ::
        innerSegments (key.drop lengths.keyLen) (value.drop lengths.valueLen) encodedLengths

def fixInnerSegmentBoundary (key value contentKey contentValue : Bytes) (boundary : List UInt32) :
    List UInt32 :=
  if boundary = [] then
    (encodeLengths key.length value.length contentKey.length contentValue.length).toList
  else boundary

namespace InnerSegment

def functionalKey (it : InnerSegment) : Bytes := it.key.drop it.contentKey.length

def functionalValue (it : InnerSegment) : Bytes := it.value.drop it.contentValue.length

end InnerSegment

def innerSegmentsSize (key value : Bytes) (encodedLengths : List UInt32) : Nat :=
  if key = [] ∧ value = [] then 0 else max 1 encodedLengths.length

/-- The loop of `GetPrefixKeyAndValue`: the lengths of the first `size` segments. -/
def prefixLengths (key value : Bytes) : Nat → List InnerSegment → Nat → Nat → Nat × Nat
  | _, [], _, _ => (key.length, value.length)
  | 0, _ :: _, keyLen, valueLen => (keyLen, valueLen)
  | size + 1, it :: segments, keyLen, valueLen =>
    if key.length ≤ keyLen ∨ value.length ≤ valueLen then (keyLen, valueLen)
    else
      prefixLengths key value size segments (keyLen + it.key.length) (valueLen + it.value.length)

/-- `GetPrefixKeyAndValue` for a size that is not negative. -/
def prefixKeyAndValue (key value : Bytes) (encodedLengths : List UInt32) (size : Nat) :
    Bytes × Bytes :=
  let (keyLen, valueLen) :=
    prefixLengths key value size (innerSegments key value encodedLengths) 0 0
  (key.take keyLen, value.take valueLen)

def suffixKeyAndValue (key value : Bytes) (encodedLengths : List UInt32) (size : Nat) :
    Bytes × Bytes :=
  let before := (innerSegments key value encodedLengths).take
    (innerSegmentsSize key value encodedLengths - size)
  (key.drop (before.map fun it => it.key.length).sum,
    value.drop (before.map fun it => it.value.length).sum)

structure InnerSegmentBoundaryBuilder where
  error : Bool := false
  boundary : List UInt32 := []
  keyConsumed : Nat := 0
  valueConsumed : Nat := 0

namespace InnerSegmentBoundaryBuilder

def add (keyLen valueLen contentKeyLen contentValueLen : Nat) (builder : InnerSegmentBoundaryBuilder) :
    InnerSegmentBoundaryBuilder :=
  if builder.error then builder
  else
    match encodeLengths (keyLen % 2 ^ 32) (valueLen % 2 ^ 32) (contentKeyLen % 2 ^ 32)
      (contentValueLen % 2 ^ 32) with
    | some encoded =>
      { builder with
        keyConsumed := (builder.keyConsumed + keyLen) % 2 ^ 32
        valueConsumed := (builder.valueConsumed + valueLen) % 2 ^ 32
        boundary := builder.boundary ++ [encoded] }
    | none => { builder with error := true }

def addSegment (it : InnerSegment) : InnerSegmentBoundaryBuilder → InnerSegmentBoundaryBuilder :=
  add it.key.length it.value.length it.contentKey.length it.contentValue.length

def addEncoded (encoded : UInt32) (builder : InnerSegmentBoundaryBuilder) :
    InnerSegmentBoundaryBuilder :=
  let lengths := decodeLengths encoded
  { builder with
    keyConsumed := (builder.keyConsumed + lengths.keyLen) % 2 ^ 32
    valueConsumed := (builder.valueConsumed + lengths.valueLen) % 2 ^ 32
    boundary := builder.boundary ++ [encoded] }

def build (key value : Bytes) (builder : InnerSegmentBoundaryBuilder) : List UInt32 :=
  if builder.error ∨ builder.keyConsumed ≠ key.length ∨ builder.valueConsumed ≠ value.length then []
  else builder.boundary

end InnerSegmentBoundaryBuilder

def LengthData.Fits (lengths : LengthData) : Prop :=
  lengths.contentKeyLen ≤ lengths.keyLen ∧ lengths.contentValueLen ≤ lengths.valueLen

instance (lengths : LengthData) : Decidable lengths.Fits := inferInstanceAs (Decidable (_ ∧ _))

theorem fixContentLen_le (len fullLen : Nat) : fixContentLen len fullLen ≤ fullLen := by
  rw [fixContentLen]
  split <;> omega

theorem decodeLengths_of_encodeLengths {keyLen valueLen contentKeyLen contentValueLen : Nat}
    {encoded : UInt32}
    (h : encodeLengths keyLen valueLen contentKeyLen contentValueLen = some encoded) :
    decodeLengths encoded =
      { keyLen, valueLen, contentKeyLen := fixContentLen contentKeyLen keyLen,
        contentValueLen := fixContentLen contentValueLen valueLen } ∧
    (keyLen ≠ 0 ∧ keyLen ≤ 255) ∧ valueLen ≠ 0 ∧ valueLen ≤ 255 := by
  dsimp only [encodeLengths] at h
  split at h
  · rename_i hfits
    obtain ⟨⟨hkpos, hk⟩, ⟨hvpos, hv⟩, ⟨-, hck⟩, -, hcv⟩ := hfits
    obtain rfl := Option.some.inj h
    refine ⟨?_, ⟨hkpos, hk⟩, hvpos, hv⟩
    generalize fixContentLen contentKeyLen keyLen = ck at hck ⊢
    generalize fixContentLen contentValueLen valueLen = cv at hcv ⊢
    have hlt : keyLen + valueLen * 2 ^ 8 + ck * 2 ^ 16 + cv * 2 ^ 24 < 2 ^ 32 := by omega
    rw [decodeLengths, UInt32.toNat_ofNat', Nat.mod_eq_of_lt hlt]
    generalize htotal : keyLen + valueLen * 2 ^ 8 + ck * 2 ^ 16 + cv * 2 ^ 24 = total
    have hfirst : total % 256 = keyLen := by omega
    have hsecond : total / 2 ^ 8 % 256 = valueLen := by omega
    have hthird : total / 2 ^ 16 % 256 = ck := by omega
    have hfourth : total / 2 ^ 24 % 256 = cv := by omega
    rw [hfirst, hsecond, hthird, hfourth]
  · cases h

theorem encodeLengths_fits {keyLen valueLen contentKeyLen contentValueLen : Nat} {encoded : UInt32}
    (h : encodeLengths keyLen valueLen contentKeyLen contentValueLen = some encoded) :
    (decodeLengths encoded).Fits := by
  rw [(decodeLengths_of_encodeLengths h).1]
  exact ⟨fixContentLen_le contentKeyLen keyLen, fixContentLen_le contentValueLen valueLen⟩

theorem fixInnerSegmentBoundary_fits {key value contentKey contentValue : Bytes}
    {boundary : List UInt32} (h : ∀ encoded ∈ boundary, (decodeLengths encoded).Fits) :
    ∀ encoded ∈ fixInnerSegmentBoundary key value contentKey contentValue boundary,
      (decodeLengths encoded).Fits := by
  rw [fixInnerSegmentBoundary]
  split
  · intro encoded hmem
    exact encodeLengths_fits (Option.mem_toList.mp hmem)
  · exact h

theorem innerSegments_fit {key value : Bytes} {boundary : List UInt32}
    (h : ∀ encoded ∈ boundary, (decodeLengths encoded).Fits) :
    ∀ it ∈ innerSegments key value boundary,
      (∃ rest, it.key = it.contentKey ++ rest) ∧ ∃ rest, it.value = it.contentValue ++ rest := by
  induction boundary generalizing key value with
  | nil =>
    rw [innerSegments]
    split
    · simp
    · intro it hmem
      obtain rfl := List.mem_singleton.mp hmem
      exact ⟨⟨[], (List.append_nil key).symm⟩, ⟨[], (List.append_nil value).symm⟩⟩
  | cons encoded boundary ih =>
    have hfits := h encoded List.mem_cons_self
    have htake : ∀ (text : Bytes) {m n : Nat}, m ≤ n → ∃ rest, text.take n = text.take m ++ rest := by
      intro text m n hle
      refine ⟨(text.take n).drop m, ?_⟩
      have hmin : text.take m = (text.take n).take m := by rw [List.take_take, Nat.min_eq_left hle]
      rw [hmin, List.take_append_drop]
    rw [innerSegments]
    split
    · simp
    · intro it hmem
      rcases List.mem_cons.mp hmem with rfl | hmem
      · exact ⟨htake key hfits.1, htake value hfits.2⟩
      · exact ih (fun e he => h e (List.mem_cons_of_mem _ he)) it hmem

theorem innerSegments_ne_nil {key value : Bytes} (boundary : List UInt32)
    (h : key ≠ [] ∨ value ≠ []) : innerSegments key value boundary ≠ [] := by
  have hne : ¬ (key = [] ∧ value = []) := by
    rintro ⟨rfl, rfl⟩
    simp at h
  cases boundary with
  | nil =>
    rw [innerSegments, if_neg hne]
    simp
  | cons encoded boundary =>
    rw [innerSegments, if_neg hne]
    simp

theorem innerSegments_flatMap (key value : Bytes) (boundary : List UInt32) :
    (innerSegments key value boundary).flatMap InnerSegment.key = key ∧
      (innerSegments key value boundary).flatMap InnerSegment.value = value := by
  induction boundary generalizing key value with
  | nil =>
    rw [innerSegments]
    split
    · rename_i hnil
      rw [hnil.1, hnil.2]
      exact ⟨rfl, rfl⟩
    · exact ⟨List.append_nil key, List.append_nil value⟩
  | cons encoded boundary ih =>
    rw [innerSegments]
    split
    · rename_i hnil
      rw [hnil.1, hnil.2]
      exact ⟨rfl, rfl⟩
    · obtain ⟨hkey, hvalue⟩ := ih (key.drop (decodeLengths encoded).keyLen)
        (value.drop (decodeLengths encoded).valueLen)
      dsimp only
      rw [List.flatMap_cons, List.flatMap_cons, hkey, hvalue]
      exact ⟨List.take_append_drop _ key, List.take_append_drop _ value⟩

theorem innerSegments_split {key value : Bytes} {boundary : List UInt32}
    {before after : List InnerSegment} {it : InnerSegment}
    (h : innerSegments key value boundary = before ++ it :: after) :
    (∃ rest, key = before.flatMap InnerSegment.key ++ it.key ++ rest) ∧
    (∃ rest, value = before.flatMap InnerSegment.value ++ it.value ++ rest) ∧
    (∃ rest, key = before.flatMap InnerSegment.key ++ it.contentKey ++ rest) ∧
    ∃ rest, value = before.flatMap InnerSegment.value ++ it.contentValue ++ rest := by
  induction before generalizing key value boundary with
  | nil =>
    have htake : ∀ (text : Bytes) (n : Nat), ∃ rest, text = [] ++ text.take n ++ rest :=
      fun text n => ⟨text.drop n, (List.take_append_drop n text).symm⟩
    have hself : ∀ text : Bytes, ∃ rest, text = [] ++ text ++ rest :=
      fun text => ⟨[], (List.append_nil text).symm⟩
    cases boundary with
    | nil =>
      rw [innerSegments] at h
      split at h
      · cases h
      · obtain ⟨rfl, -⟩ := List.cons.inj h
        exact ⟨hself key, hself value, hself key, hself value⟩
    | cons encoded boundary =>
      rw [innerSegments] at h
      split at h
      · cases h
      · obtain ⟨rfl, -⟩ := List.cons.inj h
        exact ⟨htake key _, htake value _, htake key _, htake value _⟩
  | cons first before ih =>
    cases boundary with
    | nil =>
      rw [innerSegments] at h
      split at h
      · cases h
      · have hnil := (List.cons.inj h).2
        simp at hnil
    | cons encoded boundary =>
      rw [innerSegments] at h
      split at h
      · cases h
      · obtain ⟨rfl, hrest⟩ := List.cons.inj h
        have hdrop : ∀ {text word : Bytes} {n : Nat} {middle : Bytes},
            (∃ rest, text.drop n = middle ++ word ++ rest) →
            ∃ rest, text = text.take n ++ middle ++ word ++ rest := by
          rintro text word n middle ⟨rest, hrest⟩
          refine ⟨rest, ?_⟩
          rw [List.append_assoc, List.append_assoc, ← List.append_assoc middle, ← hrest,
            List.take_append_drop]
        obtain ⟨hkey, hvalue, hcontentKey, hcontentValue⟩ := ih hrest
        exact ⟨hdrop hkey, hdrop hvalue, hdrop hcontentKey, hdrop hcontentValue⟩

end Mozkey.Converter
