import Mozkey.Storage.ExistenceFilterCorrect

/-! What `ExistenceFilter::Read` accepts of an arbitrary buffer: only a header of size 0 passes its
checks with a filter that cannot be asked. -/

namespace Mozkey.Storage

open BlockBitmap

/-- What `Exists` needs of a filter over the words behind the header: a modulus, spans inside of
the buffer, and for each hash value a block and a word inside of the spans. -/
structure WellDefined (filter : ExistenceFilter) (words : List UInt32) : Prop where
  modulus : filter.params.size ≠ 0
  spans : ((blockDimensions filter.params.size).count - 1).toNat * kBlockWords.toNat +
    (blockDimensions filter.params.size).lastSize.toNat ≤ words.length
  indices : ∀ hash, ∃ block word,
    filter.rep[blockIndex (hashIndex filter.params.size hash)]? = some block ∧
      block[wordIndex (hashIndex filter.params.size hash)]? = some word

def Accepted (hashes : UInt32) : Prop :=
  1 ≤ hashes.toNat % 2 ^ 16 ∧ hashes.toNat % 2 ^ 16 < 8 ∧ hashes.toNat / 2 ^ 16 < 2

theorem readHeader_eq_ok_iff {buf : List UInt32} {size : UInt32} :
    (∃ params, readHeader buf = .ok params ∧ params.size = size) ↔
      ∃ nelts hashes rest, buf = size :: nelts :: hashes :: rest ∧ Accepted hashes := by
  match buf with
  | [] | [_] | [_, _] => simp [readHeader]
  | first :: nelts :: hashes :: rest =>
    have hlt := hashes.toNat_lt
    have hlow : (hashes &&& 0xFFFF).toUInt16.toNat = hashes.toNat % 2 ^ 16 := by
      rw [UInt32.toNat_toUInt16, UInt32.toNat_and]
      have := Nat.and_two_pow_sub_one_eq_mod hashes.toNat 16
      exact (congrArg (· % 2 ^ 16) this).trans (Nat.mod_mod _ _)
    have hhigh : (hashes >>> 16).toUInt16.toNat = hashes.toNat / 2 ^ 16 := by
      rw [UInt32.toNat_toUInt16, UInt32.toNat_shiftRight, Nat.shiftRight_eq_div_pow]
      exact Nat.mod_eq_of_lt (by simp; omega)
    have hbad : ((hashes &&& 0xFFFF).toUInt16 ≥ 8 ∨ (hashes &&& 0xFFFF).toUInt16 ≤ 0) ↔
        ¬ (1 ≤ hashes.toNat % 2 ^ 16 ∧ hashes.toNat % 2 ^ 16 < 8) := by
      rw [ge_iff_le, UInt16.le_iff_toNat_le, UInt16.le_iff_toNat_le, hlow]
      simp only [UInt16.reduceToNat]
      omega
    have hfp : (hashes >>> 16).toUInt16 ≥ fpTypeSize ↔ ¬ hashes.toNat / 2 ^ 16 < 2 := by
      rw [ge_iff_le, UInt16.le_iff_toNat_le, hhigh]
      exact Nat.not_lt.symm
    simp only [readHeader, hbad, hfp]
    constructor
    · rintro ⟨params, hread, rfl⟩
      split at hread
      · cases hread
      · rename_i hhashes
        split at hread
        · cases hread
        · rename_i htype
          cases hread
          have hhashes := not_not.mp hhashes
          exact ⟨nelts, hashes, rest, rfl, hhashes.1, hhashes.2, not_not.mp htype⟩
    · rintro ⟨_, _, _, heq, haccepted⟩
      cases heq
      rw [if_neg (not_not.mpr ⟨haccepted.1, haccepted.2.1⟩), if_neg (not_not.mpr haccepted.2.2)]
      exact ⟨_, rfl, rfl⟩

theorem read_eq_ok {buf : List UInt32} {filter : ExistenceFilter}
    (h : ExistenceFilter.read buf = .ok filter) :
    readHeader buf = .ok filter.params ∧
      (bitsToWords filter.params.size).toNat ≤ (buf.drop kHeaderSize.toNat).length ∧
      filter.rep = .ofBuffer filter.params.size (buf.drop kHeaderSize.toNat) := by
  rw [ExistenceFilter.read] at h
  split at h
  · cases h
  · rename_i params hread
    dsimp only at h
    split at h
    · cases h
    · rename_i hlength
      cases h
      exact ⟨hread, Nat.le_of_not_lt hlength, rfl⟩

theorem blockDimensions_words {size : UInt32} (h : 1 ≤ size) :
    ((blockDimensions size).count - 1).toNat * kBlockWords.toNat +
      (blockDimensions size).lastSize.toNat = (bitsToWords size).toNat := by
  have hpos : 1 ≤ size.toNat := h
  have hblock : kBlockWords.toNat = 2 ^ 16 := rfl
  rw [(blockDimensions_eq h).1, (blockDimensions_eq h).2, bitsToWords_eq, hblock]
  omega

theorem WellDefined.of_read {buf : List UInt32} {filter : ExistenceFilter}
    (h : ExistenceFilter.read buf = .ok filter) (hsize : filter.params.size ≠ 0) :
    WellDefined filter (buf.drop kHeaderSize.toNat) := by
  obtain ⟨-, hlength, hrep⟩ := read_eq_ok h
  have hpos : 1 ≤ filter.params.size :=
    Nat.pos_of_ne_zero fun hzero => hsize (UInt32.toNat_inj.mp hzero)
  have hspans := (blockDimensions_words hpos).trans_le hlength
  have hsized : Sized filter.params.size filter.rep := by
    rw [hrep]
    exact Lib.splitBlocks_hasSizes hspans
  exact ⟨hsize, hspans, fun hash => hsized.exists_word hpos (hashIndex_lt hpos hash)⟩

theorem WellDefined.existsKey {Key : Type} {fingerprint : Key → UInt16 → UInt64}
    {filter : ExistenceFilter} {words : List UInt32} (h : WellDefined filter words) (key : Key) :
    ∃ found, filter.existsKey fingerprint key = some found := by
  rw [ExistenceFilter.existsKey]
  generalize filter.params.numHashes.toNat = hashes
  generalize fingerprint key filter.params.fpType = hash
  induction hashes generalizing hash with
  | zero => exact ⟨true, rfl⟩
  | succ hashes ih =>
    obtain ⟨block, word, hblock, hword⟩ := h.indices (rotl8 hash)
    obtain ⟨found, hfound⟩ := ih (rotl8 hash)
    rw [existsFrom, BlockBitmap.get, hblock]
    simp only [Option.bind_eq_bind, Option.bind_some, hword, Option.pure_def]
    split
    · exact ⟨found, hfound⟩
    · exact ⟨false, rfl⟩

/-- What is read can be asked, but for one kind of header that passes: that of size 0. -/
theorem read_wellDefined_iff (buf : List UInt32) :
    (∀ filter, ExistenceFilter.read buf = .ok filter →
      WellDefined filter (buf.drop kHeaderSize.toNat) ∧
      ∀ (Key : Type) (fingerprint : Key → UInt16 → UInt64) (key : Key),
        ∃ found, filter.existsKey fingerprint key = some found) ↔
    ¬ ∃ nelts hashes rest, buf = 0 :: nelts :: hashes :: rest ∧ Accepted hashes := by
  rw [← readHeader_eq_ok_iff]
  constructor
  · rintro hall ⟨params, hread, hzero⟩
    have hok : ExistenceFilter.read buf =
        .ok { params, rep := .ofBuffer params.size (buf.drop kHeaderSize.toNat) } := by
      rw [ExistenceFilter.read, hread]
      dsimp only
      rw [hzero]
      exact if_neg (Nat.not_lt_zero _)
    exact (hall _ hok).1.modulus hzero
  · intro hno filter hread
    have hdefined := WellDefined.of_read hread fun hzero =>
      hno ⟨filter.params, (read_eq_ok hread).1, hzero⟩
    exact ⟨hdefined, fun _ _ key => hdefined.existsKey key⟩

/-- A buffer with the header of an empty filter and nothing behind it. -/
theorem read_accepts_size_zero : ∃ filter, ExistenceFilter.read [0, 0, 1] = .ok filter ∧
    ¬ WellDefined filter [] :=
  ⟨{ params := { size := 0, expectedNelts := 0, numHashes := 1, fpType := 0 },
     rep := .ofBuffer 0 [] }, rfl, fun h => h.modulus rfl⟩

end Mozkey.Storage
