import Mozkey.Lib.Loop
import Mozkey.Storage.Louds.LoudsTrie

/-! `DictionaryFileCodec` of `dictionary/file/codec.cc`.  A pointer into the image is its distance from
the first byte of the image. -/

namespace Mozkey.Dictionary

open Storage Lib

/-- The bytes of an `int32_t`, least significant first. -/
def writeInt32 (value : Int) : Bytes :=
  let word := (value % 2 ^ 32).toNat
  [UInt8.ofNat (word &&& 0xff), UInt8.ofNat ((word >>> 8) &&& 0xff),
    UInt8.ofNat ((word >>> 16) &&& 0xff), UInt8.ofNat ((word >>> 24) &&& 0xff)]

def roundUp4 (length : Int) : Option Int :=
  let rem := length.tmod 4
  let rounded := length + (4 - rem).tmod 4
  if rounded < 2 ^ 31 then some rounded else none

def pad4 (length : Int) : Bytes := List.replicate ((-length) % 4).toNat 0

structure DictionaryFileSection where
  image : Bytes
  name : Bytes
  deriving DecidableEq

structure DictionaryFileCodec where
  seed : Int := 2135654146
  deriving DecidableEq

def kFilemagic : Int := 20110701

def sizeToInt32 (size : Nat) : Int := toInt32 (size % 2 ^ 32)

namespace DictionaryFileCodec

def writeHeader (codec : DictionaryFileCodec) : Bytes := writeInt32 kFilemagic ++ writeInt32 codec.seed

def writeSection (section_ : DictionaryFileSection) : Bytes :=
  writeInt32 (sizeToInt32 section_.image.length) ++ section_.name ++ section_.image ++
    pad4 (sizeToInt32 section_.image.length)

def writeOrder : List DictionaryFileSection → List DictionaryFileSection
  | [s0, s1, s2, s3] => [s0, s2, s1, s3]
  | sections => sections

def writeSections (codec : DictionaryFileCodec) (sections : List DictionaryFileSection) : Bytes :=
  codec.writeHeader ++ (writeOrder sections).flatMap writeSection ++ writeInt32 0

end DictionaryFileCodec

inductive Status where
  | ok
  | failedPrecondition (message : String)
  | outOfRange (message : String)
  deriving DecidableEq

/-- A section that was read: its name, and where the `string_view` of its data begins and how long
it is. -/
structure SectionView where
  offset : Int
  size : Nat
  name : Bytes
  deriving DecidableEq

def SectionView.read (image : Bytes) (view : SectionView) : DictionaryFileSection where
  image := (image.drop view.offset.toNat).take view.size
  name := view.name

/-- A run returns a status and leaves the sections behind, or its behaviour is undefined: a read
outside of the image, or an overflow. -/
inductive ReadResult where
  | returned (status : Status) (sections : List SectionView)
  | undefined
  deriving DecidableEq

/-- The loop of `ReadSections` between two rounds. -/
structure ReadState where
  sectionIndex : Nat := 0
  ptr : Int := 8
  sections : List SectionView := []
  deriving DecidableEq

def loadInt32 (image : Bytes) (ptr : Int) : Option Int :=
  if 0 ≤ ptr then (loadUint32 image ptr.toNat).map toInt32 else none

def kFingerprintByteLength : Nat := 8

def loadFingerprint (image : Bytes) (ptr : Int) : Option Bytes :=
  if 0 ≤ ptr ∧ ptr + kFingerprintByteLength ≤ image.length then
    some ((image.drop ptr.toNat).take kFingerprintByteLength)
  else none

def toSizeT (value : Int) : Nat := (value % 2 ^ 64).toNat

/-- A round of the loop of `ReadSections`, with what comes behind the loop. -/
def readSection (image : Bytes) (s : ReadState) : ReadState ⊕ ReadResult :=
  if image.length - s.ptr < 4 then
    .inr (.returned (.outOfRange ("codec.cc: Section " ++ toString s.sectionIndex ++
      ": Insufficient image to read data_size(4 bytes), available size = " ++
      toString (image.length - s.ptr))) s.sections)
  else
    match loadInt32 image s.ptr with
    | none => .inr .undefined
    | some dataSize =>
      let ptr := s.ptr + 4
      if dataSize = 0 then
        if ptr ≠ image.length then
          .inr (.returned (.failedPrecondition ("codec.cc: " ++ toString (image.length - ptr) ++
            " bytes remaining out of " ++ toString image.length)) s.sections)
        else .inr (.returned .ok s.sections)
      else
        match roundUp4 dataSize with
        | none => .inr .undefined
        | some paddedDataSize =>
          let sectionEnd := ptr + kFingerprintByteLength + paddedDataSize
          if image.length < sectionEnd then
            .inr (.returned (.outOfRange ("codec.cc: Section " ++ toString s.sectionIndex ++
              ": Read pointer will pass the end: offset=" ++ toString sectionEnd ++
              ", image_size=" ++ toString image.length)) s.sections)
          else
            match loadFingerprint image ptr with
            | none => .inr .undefined
            | some fingerprint =>
              let ptr := ptr + kFingerprintByteLength
              .inl {
                sectionIndex := s.sectionIndex + 1
                ptr := ptr + paddedDataSize
                sections := s.sections ++ [{
                  offset := ptr, size := toSizeT dataSize, name := fingerprint }] }

/-- `ReadSections` on an image at an address, into an empty vector, and the codec that it leaves; it
has no result while the fuel does not do for its loop. -/
def DictionaryFileCodec.readSections (codec : DictionaryFileCodec) (address : Nat) (image : Bytes)
    (fuel : Nat) : Option (ReadResult × DictionaryFileCodec) :=
  if image.length < 12 then
    some (.returned (.failedPrecondition
      ("codec.cc: Insufficient data size: " ++ toString image.length ++ " bytes")) [], codec)
  else if address % 4 ≠ 0 then
    some (.returned (.failedPrecondition ("codec.cc: memory block of size " ++
      toString image.length ++ " is not aligned at 32-bit boundary")) [], codec)
  else
    match loadInt32 image 0, loadInt32 image 4 with
    | some filemagic, some seed =>
      if filemagic ≠ kFilemagic then
        some (.returned (.failedPrecondition
          ("codec.cc: Invalid dictionary file magic. Expected: " ++ toString kFilemagic ++
            " Actual: " ++ toString filemagic)) [], codec)
      else (loop (readSection image) fuel {}).map fun r => (r, { codec with seed := seed })
    | _, _ => some (.undefined, codec)

/-- The reader goes on from one header to the next one. -/
def NextHeader (image : Bytes) (p q : Int) : Prop :=
  ∃ dataSize padded, loadInt32 image p = some dataSize ∧ dataSize ≠ 0 ∧
    roundUp4 dataSize = some padded ∧ q = p + 12 + padded ∧ p + 12 ≤ image.length ∧ q ≤ image.length

def HeaderReached (image : Bytes) (p : Int) : Prop := Relation.ReflTransGen (NextHeader image) 8 p

/-- The places where the reader returns an error: no room for a header, an end marker with something
behind it, or a section that passes the end. -/
def HeaderRejected (image : Bytes) (p : Int) : Prop :=
  image.length - p < 4 ∨ (loadInt32 image p = some 0 ∧ p + 4 ≠ image.length) ∨
    ∃ dataSize padded, loadInt32 image p = some dataSize ∧ dataSize ≠ 0 ∧
      roundUp4 dataSize = some padded ∧ image.length < p + 12 + padded

inductive ReadRound (image : Bytes) (s : ReadState) : ReadState ⊕ ReadResult → Prop
  | rejected {status : Status} (hrejected : HeaderRejected image s.ptr) (hstatus : status ≠ .ok) :
      ReadRound image s (.inr (.returned status s.sections))
  | endMarker (hload : loadInt32 image s.ptr = some 0) (hend : s.ptr + 4 = image.length) :
      ReadRound image s (.inr (.returned .ok s.sections))
  | next {dataSize padded : Int} {fingerprint : Bytes}
      (hload : loadInt32 image s.ptr = some dataSize) (hne : dataSize ≠ 0)
      (hpad : roundUp4 dataSize = some padded) (hfit : s.ptr + 12 ≤ image.length)
      (hend : s.ptr + 12 + padded ≤ image.length)
      (hname : loadFingerprint image (s.ptr + 4) = some fingerprint) :
      ReadRound image s (.inl {
        sectionIndex := s.sectionIndex + 1
        ptr := s.ptr + 12 + padded
        sections := s.sections ++ [{
          offset := s.ptr + 12, size := toSizeT dataSize, name := fingerprint }] })
  | before (hroom : 4 ≤ image.length - s.ptr) (hload : loadInt32 image s.ptr = none) :
      ReadRound image s (.inr .undefined)
  | overflow {dataSize : Int} (hload : loadInt32 image s.ptr = some dataSize) (hne : dataSize ≠ 0)
      (hpad : roundUp4 dataSize = none) : ReadRound image s (.inr .undefined)
  | behind {dataSize padded : Int} (hload : loadInt32 image s.ptr = some dataSize)
      (hne : dataSize ≠ 0) (hpad : roundUp4 dataSize = some padded)
      (hend : s.ptr + 12 + padded ≤ image.length) (hfit : image.length < s.ptr + 12) :
      ReadRound image s (.inr .undefined)

theorem le_of_loadInt32 {image : Bytes} {p dataSize : Int} (h : loadInt32 image p = some dataSize) :
    0 ≤ p ∧ p + 4 ≤ image.length ∧ -2 ^ 31 ≤ dataSize ∧ dataSize < 2 ^ 31 := by
  unfold loadInt32 at h
  split at h
  · rename_i hp
    obtain ⟨word, hword, rfl⟩ := Option.map_eq_some_iff.mp h
    have hfit : p.toNat + 4 ≤ image.length := by
      by_contra hlt
      rw [loadUint32, if_neg hlt] at hword
      cases hword
    obtain ⟨word', hword', hlt, -⟩ := loadUint32_eq hfit
    obtain rfl : word' = word := Option.some.inj (hword'.symm.trans hword)
    unfold toInt32
    refine ⟨hp, by omega, ?_, ?_⟩ <;> split <;> omega
  · cases h

theorem loadInt32_isSome {image : Bytes} {p : Int} (hp : 0 ≤ p) (hfit : p + 4 ≤ image.length) :
    ∃ dataSize, loadInt32 image p = some dataSize := by
  obtain ⟨word, hword, -, -⟩ := @loadUint32_eq image p.toNat (by omega)
  refine ⟨toInt32 word, ?_⟩
  rw [loadInt32, if_pos hp, hword, Option.map_some]

theorem roundUp4_eq_some {length padded : Int} (h : roundUp4 length = some padded) :
    length ≤ padded ∧ padded < length + 4 ∧ padded % 4 = 0 ∧ padded < 2 ^ 31 := by
  unfold roundUp4 at h
  dsimp only at h
  split at h
  · rename_i hlt
    obtain rfl := Option.some.inj h
    have hrem := Int.tmod_add_mul_tdiv length 4
    have hbound := Int.tmod_lt_of_pos length (show (0 : Int) < 4 by decide)
    have hlower := Int.lt_tmod_of_pos length (show (0 : Int) < 4 by decide)
    rw [Int.tmod_eq_emod_of_nonneg (show 0 ≤ 4 - length.tmod 4 by omega)] at hlt ⊢
    omega
  · cases h

theorem roundUp4_isSome {length : Int} (h : length ≤ 2 ^ 31 - 4) : ∃ padded, roundUp4 length = some padded := by
  have hrem := Int.tmod_add_mul_tdiv length 4
  have hbound := Int.tmod_lt_of_pos length (show (0 : Int) < 4 by decide)
  refine ⟨_, if_pos ?_⟩
  rw [Int.tmod_eq_emod_of_nonneg (show 0 ≤ 4 - length.tmod 4 by omega)]
  omega

theorem readSection_round (image : Bytes) (s : ReadState) :
    ReadRound image s (readSection image s) := by
  unfold readSection
  split
  · rename_i hroom
    exact .rejected (.inl hroom) nofun
  rename_i hroom
  rcases hload : loadInt32 image s.ptr with _ | dataSize
  · exact .before (by omega) hload
  dsimp only
  by_cases hzero : dataSize = 0
  · rw [if_pos hzero]
    subst hzero
    split
    · rename_i hend
      exact .rejected (.inr (.inl ⟨hload, hend⟩)) nofun
    · rename_i hend
      exact .endMarker hload (not_not.mp hend)
  rw [if_neg hzero]
  rcases hpad : roundUp4 dataSize with _ | padded
  · exact .overflow hload hzero hpad
  dsimp only
  have hsum : s.ptr + 4 + (kFingerprintByteLength : Int) + padded = s.ptr + 12 + padded := by
    rw [kFingerprintByteLength]
    omega
  have hptr : s.ptr + 4 + (kFingerprintByteLength : Int) = s.ptr + 12 := by
    rw [kFingerprintByteLength]
    omega
  rw [hsum, hptr]
  split
  · rename_i hend
    exact .rejected (.inr (.inr ⟨dataSize, padded, hload, hzero, hpad, hend⟩)) nofun
  rename_i hend
  rcases hname : loadFingerprint image (s.ptr + 4) with _ | fingerprint
  · refine .behind hload hzero hpad (by omega) ?_
    by_contra hfit
    have hbounds := le_of_loadInt32 hload
    rw [loadFingerprint, if_pos ⟨by omega, by omega⟩] at hname
    cases hname
  · refine .next hload hzero hpad ?_ (by omega) hname
    by_contra hfit
    rw [loadFingerprint, if_neg (by omega)] at hname
    cases hname

theorem ReadRound.goes {image : Bytes} {s : ReadState} {x : ReadState ⊕ ReadResult}
    (h : ReadRound image s x) {dataSize padded : Int} (hload : loadInt32 image s.ptr = some dataSize)
    (hne : dataSize ≠ 0) (hpad : roundUp4 dataSize = some padded) (hfit : s.ptr + 12 ≤ image.length)
    (hend : s.ptr + 12 + padded ≤ image.length) :
    ∃ fingerprint, loadFingerprint image (s.ptr + 4) = some fingerprint ∧
      x = .inl {
        sectionIndex := s.sectionIndex + 1
        ptr := s.ptr + 12 + padded
        sections := s.sections ++ [{
          offset := s.ptr + 12, size := toSizeT dataSize, name := fingerprint }] } := by
  cases h with
  | rejected hrejected _ =>
    rcases hrejected with hroom | ⟨hzero, -⟩ | ⟨size, padded', hload', -, hpad', hpast⟩
    · omega
    · rw [hload] at hzero
      exact absurd (Option.some.inj hzero) hne
    · obtain rfl := Option.some.inj (hload.symm.trans hload')
      obtain rfl := Option.some.inj (hpad.symm.trans hpad')
      omega
  | endMarker hzero _ =>
    rw [hload] at hzero
    exact absurd (Option.some.inj hzero) hne
  | next hload' _ hpad' _ _ hname =>
    obtain rfl := Option.some.inj (hload.symm.trans hload')
    obtain rfl := Option.some.inj (hpad.symm.trans hpad')
    exact ⟨_, hname, rfl⟩
  | before _ hnone =>
    rw [hload] at hnone
    cases hnone
  | overflow hload' _ hnone =>
    obtain rfl := Option.some.inj (hload.symm.trans hload')
    rw [hpad] at hnone
    cases hnone
  | behind _ _ _ _ hlt => omega

theorem ReadRound.rejects {image : Bytes} {s : ReadState} {x : ReadState ⊕ ReadResult}
    (h : ReadRound image s x) (hrejected : HeaderRejected image s.ptr) :
    ∃ status, status ≠ .ok ∧ x = .inr (.returned status s.sections) := by
  have hnot : ∀ {dataSize padded : Int}, loadInt32 image s.ptr = some dataSize → dataSize ≠ 0 →
      roundUp4 dataSize = some padded → s.ptr + 12 + padded ≤ image.length → False := by
    intro dataSize padded hload hne hpad hend
    have hbounds := le_of_loadInt32 hload
    rcases hrejected with hroom | ⟨hzero, -⟩ | ⟨size, padded', hload', -, hpad', hpast⟩
    · omega
    · rw [hload] at hzero
      exact hne (Option.some.inj hzero)
    · obtain rfl := Option.some.inj (hload.symm.trans hload')
      obtain rfl := Option.some.inj (hpad.symm.trans hpad')
      omega
  cases h with
  | rejected _ hstatus => exact ⟨_, hstatus, rfl⟩
  | endMarker hload hend =>
    rcases hrejected with hroom | ⟨-, hpast⟩ | ⟨size, _, hload', hne, -⟩
    · omega
    · exact absurd hend hpast
    · exact absurd (Option.some.inj (hload'.symm.trans hload)) hne
  | next hload hne hpad _ hend _ => exact (hnot hload hne hpad hend).elim
  | before hroom hnone =>
    rcases hrejected with hlt | ⟨hload, -⟩ | ⟨_, _, hload, -⟩
    · omega
    · rw [hnone] at hload
      cases hload
    · rw [hnone] at hload
      cases hload
  | overflow hload hne hnone =>
    have hbounds := le_of_loadInt32 hload
    rcases hrejected with hlt | ⟨hzero, -⟩ | ⟨_, _, hload', -, hpad, -⟩
    · omega
    · exact absurd (Option.some.inj (hload.symm.trans hzero)) hne
    · obtain rfl := Option.some.inj (hload.symm.trans hload')
      rw [hnone] at hpad
      cases hpad
  | behind hload hne hpad hend _ => exact (hnot hload hne hpad hend).elim

end Mozkey.Dictionary
