import Mozkey.Storage.ExistenceFilter

/-! A key that was inserted is found: in the filter that the builder gives and in the one that is
read back from its string, which are the same. -/

namespace Mozkey.Storage

/-! Sizes. -/

theorem blockDimensions_eq {size : UInt32} (h : 1 ≤ size) :
    ((blockDimensions size).count - 1).toNat = (size.toNat - 1) / 2 ^ 21 ∧
      (blockDimensions size).lastSize.toNat = (size.toNat - 1) % 2 ^ 21 / 32 + 1 := by
  have hpos : 1 ≤ size.toNat := h
  have hlt := size.toNat_lt
  have hcount : (size >>> kBlockShift).toNat = size.toNat / 2 ^ 21 := by
    rw [UInt32.toNat_shiftRight, Nat.shiftRight_eq_div_pow]
    rfl
  have hrest : (size &&& kBlockMask).toNat = size.toNat % 2 ^ 21 := by
    rw [UInt32.toNat_and]
    exact Nat.and_two_pow_sub_one_eq_mod _ 21
  dsimp only [blockDimensions]
  split
  · rename_i hne
    have hne : size.toNat % 2 ^ 21 ≠ 0 := by
      rw [← hrest]
      exact fun h => hne (UInt32.toNat_inj.mp h)
    constructor
    · rw [UInt32.add_sub_cancel, hcount]
      omega
    · rw [UInt32.toNat_div, UInt32.toNat_add, hrest]
      simp only [UInt32.reduceToNat]
      omega
  · rename_i hzero
    have hzero : size.toNat % 2 ^ 21 = 0 := by
      rw [← hrest, not_ne_iff.mp hzero]
      rfl
    constructor
    · rw [UInt32.toNat_sub_of_le _ _ (UInt32.le_iff_toNat_le.mpr (by rw [hcount]; simp; omega)),
        hcount]
      simp only [UInt32.reduceToNat]
      omega
    · have : kBlockWords.toNat = 2 ^ 16 := rfl
      rw [this]
      omega

theorem bitsToWords_eq (bits : UInt32) : (bitsToWords bits).toNat = (bits.toNat + 31) / 32 := by
  have hlt := bits.toNat_lt
  have hwords : ((bits + 31) >>> 5).toNat = (bits.toNat + 31) % 2 ^ 32 / 32 := by
    rw [UInt32.toNat_shiftRight, Nat.shiftRight_eq_div_pow, UInt32.toNat_add]
    rfl
  dsimp only [bitsToWords]
  split
  · rename_i hwrap
    have hzero : (bits.toNat + 31) % 2 ^ 32 / 32 = 0 := by
      rw [← hwords, hwrap.2]
      rfl
    have hpos : 0 < bits.toNat := hwrap.1
    have hres : ((1 : UInt32) <<< (32 - 5)).toNat = 2 ^ 27 := by decide
    rw [hres]
    omega
  · rename_i hno
    rw [hwords]
    by_cases hzero : bits = 0
    · subst hzero
      decide
    · have hpos : 0 < bits.toNat := Nat.pos_of_ne_zero fun h => hzero (UInt32.toNat_inj.mp h)
      have hne : (bits.toNat + 31) % 2 ^ 32 / 32 ≠ 0 := by
        rw [← hwords]
        exact fun h => hno ⟨hpos, UInt32.toNat_inj.mp h⟩
      omega

/-! Bits. -/

namespace BlockBitmap

theorem blockIndex_eq (index : UInt32) : blockIndex index = index.toNat / 2 ^ 21 := by
  rw [blockIndex, UInt32.toNat_shiftRight, Nat.shiftRight_eq_div_pow]
  rfl

theorem wordIndex_eq (index : UInt32) : wordIndex index = index.toNat % 2 ^ 21 / 32 := by
  rw [wordIndex, UInt32.toNat_shiftRight, Nat.shiftRight_eq_div_pow, UInt32.toNat_and]
  have := Nat.and_two_pow_sub_one_eq_mod index.toNat 21
  exact congrArg (· / 32) this

theorem bitPosition_lt (index : UInt32) : (bitPosition index).toNat < 32 := by
  rw [bitPosition, UInt32.toNat_and]
  exact Nat.lt_of_le_of_lt Nat.and_le_right (by decide)

theorem bit_eq_testBit (word position : UInt32) (h : position.toNat < 32) :
    ((word >>> position) &&& 1 != 0) = word.toNat.testBit position.toNat := by
  have hnat : ((word >>> position) &&& 1).toNat = 1 &&& word.toNat >>> position.toNat := by
    rw [UInt32.toNat_and, UInt32.toNat_shiftRight, Nat.mod_eq_of_lt h, Nat.and_comm]
    rfl
  rw [Nat.testBit, ← hnat]
  by_cases hzero : (word >>> position) &&& 1 = 0
  · rw [hzero]
    rfl
  · have hne : ((word >>> position) &&& 1).toNat ≠ 0 := fun h => hzero (UInt32.toNat_inj.mp h)
    rw [bne_iff_ne.mpr hzero, bne_iff_ne.mpr hne]

theorem or_bit (word position position' : UInt32) (h : position.toNat < 32)
    (h' : position'.toNat < 32) :
    (((word ||| (1 <<< position)) >>> position') &&& 1 != 0) =
      (((word >>> position') &&& 1 != 0) || position.toNat == position'.toNat) := by
  have hshift : ((1 : UInt32) <<< position).toNat = 2 ^ position.toNat := by
    rw [UInt32.toNat_shiftLeft, Nat.mod_eq_of_lt h, Nat.shiftLeft_eq]
    simp only [UInt32.reduceToNat, Nat.one_mul]
    exact Nat.mod_eq_of_lt (Nat.pow_lt_pow_right (by decide) h)
  rw [bit_eq_testBit _ _ h', bit_eq_testBit _ _ h', UInt32.toNat_or, hshift, Nat.testBit_or,
    Nat.testBit_two_pow]
  rfl

def Sized (size : UInt32) (blocks : BlockBitmap) : Prop :=
  Lib.HasSizes kBlockWords.toNat (blockDimensions size).lastSize.toNat
    ((blockDimensions size).count - 1).toNat blocks

variable {size index index' : UInt32} {blocks : BlockBitmap}

theorem zero_sized : Sized size (zero size) := Lib.HasSizes.replicate _ _

theorem Sized.set (h : Sized size blocks) : Sized size (blocks.set index) :=
  Lib.HasSizes.modify h _ _ _

theorem Sized.exists_word (hsize : 1 ≤ size) (h : Sized size blocks) (hindex : index < size) :
    ∃ block word, blocks[blockIndex index]? = some block ∧
      block[wordIndex index]? = some word := by
  have hlt : index.toNat < size.toNat := hindex
  apply Lib.HasSizes.exists_getElem h
  rw [blockIndex_eq, wordIndex_eq, (blockDimensions_eq hsize).1, (blockDimensions_eq hsize).2]
  have : kBlockWords.toNat = 2 ^ 16 := rfl
  rw [this]
  omega

theorem Sized.get_isSome (hsize : 1 ≤ size) (h : Sized size blocks) (hindex : index < size) :
    ∃ bit, blocks.get index = some bit := by
  obtain ⟨block, word, hblock, hword⟩ := h.exists_word hsize hindex
  exact ⟨_, by simp [get, hblock, hword]; rfl⟩

theorem Sized.get_set (hsize : 1 ≤ size) (h : Sized size blocks)
    (hindex' : index' < size) (hget : index = index' ∨ blocks.get index' = some true) :
    (blocks.set index).get index' = some true := by
  obtain ⟨block', word', hblock', hword'⟩ := h.exists_word hsize hindex'
  have hold : blocks.get index' = some ((word' >>> bitPosition index') &&& 1 != 0) := by
    simp [get, hblock', hword']
  rw [BlockBitmap.set, get]
  by_cases hsame : blockIndex index = blockIndex index' ∧ wordIndex index = wordIndex index'
  · rw [hsame.1, List.getElem?_modify_eq, hblock', hsame.2]
    simp only [Option.map_eq_map, Option.map_some, Option.bind_eq_bind, Option.bind_some,
      List.getElem?_modify_eq, hword', Option.pure_def, Option.some.injEq]
    rw [or_bit _ _ _ (bitPosition_lt _) (bitPosition_lt _)]
    rcases hget with rfl | hget
    · simp
    · rw [hold, Option.some.injEq] at hget
      rw [hget, Bool.true_or]
  · have hother : index ≠ index' := by
      rintro rfl
      exact hsame ⟨rfl, rfl⟩
    rw [← hget.resolve_left hother, get]
    by_cases hblock : blockIndex index = blockIndex index'
    · have hword : wordIndex index ≠ wordIndex index' := fun h => hsame ⟨hblock, h⟩
      rw [hblock, List.getElem?_modify_eq, hblock']
      simp [List.getElem?_modify_ne _ _ hword]
    · rw [List.getElem?_modify_ne _ _ hblock]

end BlockBitmap

/-! The loops. -/

section Loops

open BlockBitmap

variable {size : UInt32} {rep rep' : BlockBitmap}

theorem hashIndex_lt (hsize : 1 ≤ size) (hash : UInt64) : hashIndex size hash < size := by
  have hpos : 0 < size.toNat := hsize
  have hmod := Nat.mod_lt hash.toNat hpos
  have hlt := size.toNat_lt
  rw [UInt32.lt_iff_toNat_lt, hashIndex, UInt64.toNat_toUInt32, UInt64.toNat_mod,
    UInt32.toNat_toUInt64]
  exact Nat.lt_of_le_of_lt (Nat.mod_le _ _) hmod

def Keeps (size : UInt32) (rep rep' : BlockBitmap) : Prop :=
  ∀ index < size, rep.get index = some true → rep'.get index = some true

theorem insertFrom_sized (h : Sized size rep) (hashes : Nat) (hash : UInt64) :
    Sized size (insertFrom size hashes hash rep) := by
  induction hashes generalizing hash rep with
  | zero => exact h
  | succ hashes ih => exact ih h.set _

theorem insertFrom_keeps (hsize : 1 ≤ size) (h : Sized size rep) (hashes : Nat) (hash : UInt64) :
    Keeps size rep (insertFrom size hashes hash rep) := by
  induction hashes generalizing hash rep with
  | zero => exact fun _ _ hget => hget
  | succ hashes ih =>
    intro index hindex hget
    apply ih h.set _ index hindex
    exact h.get_set hsize hindex (.inr hget)

theorem existsFrom_mono (hsize : 1 ≤ size) (hkeeps : Keeps size rep rep') {hashes : Nat}
    {hash : UInt64} (hexists : existsFrom size rep hashes hash = some true) :
    existsFrom size rep' hashes hash = some true := by
  induction hashes generalizing hash with
  | zero => rfl
  | succ hashes ih =>
    rw [existsFrom] at hexists ⊢
    obtain ⟨bit, hbit, hrest⟩ := Option.bind_eq_some_iff.mp hexists
    cases bit with
    | false => cases hrest
    | true =>
      rw [hkeeps _ (hashIndex_lt hsize _) hbit]
      exact ih hrest

theorem existsFrom_insertFrom (hsize : 1 ≤ size) (h : Sized size rep) (hashes : Nat)
    (hash : UInt64) : existsFrom size (insertFrom size hashes hash rep) hashes hash = some true := by
  induction hashes generalizing hash rep with
  | zero => rfl
  | succ hashes ih =>
    have hindex := hashIndex_lt hsize (rotl8 hash)
    have hset : ((insertFrom size hashes (rotl8 hash)
        (rep.set (hashIndex size (rotl8 hash)))).get (hashIndex size (rotl8 hash))) = some true := by
      apply insertFrom_keeps hsize h.set _ _ _ hindex
      exact h.get_set hsize hindex (.inl rfl)
    rw [existsFrom, insertFrom, hset]
    exact ih h.set _

theorem existsFrom_isSome (hsize : 1 ≤ size) (h : Sized size rep) (hashes : Nat) (hash : UInt64) :
    ∃ found, existsFrom size rep hashes hash = some found := by
  induction hashes generalizing hash with
  | zero => exact ⟨true, rfl⟩
  | succ hashes ih =>
    obtain ⟨bit, hbit⟩ := h.get_isSome hsize (hashIndex_lt hsize (rotl8 hash))
    rw [existsFrom, hbit]
    cases bit with
    | false => exact ⟨false, rfl⟩
    | true => exact ih _

end Loops

/-! The string. -/

theorem wordsOf_append {bytes bytes' : List UInt8} (h : bytes.length = 4) :
    wordsOf (bytes ++ bytes') = UInt32.ofNat (Lib.valueOf bytes) :: wordsOf bytes' := by
  match bytes, h with
  | [a, b, c, d], _ => rfl

theorem wordsOf_word (word : UInt32) (bytes : List UInt8) :
    wordsOf (Lib.bytesOf 4 word.toNat ++ bytes) = word :: wordsOf bytes := by
  rw [wordsOf_append (by simp), Lib.valueOf_bytesOf word.toNat_lt, UInt32.ofNat_toNat]

theorem wordsOf_words (words : List UInt32) :
    wordsOf (words.flatMap fun word => Lib.bytesOf 4 word.toNat) = words := by
  induction words with
  | nil => rfl
  | cons word words ih => rw [List.flatMap_cons, wordsOf_word, ih]

theorem wordsOf_halves (low high : UInt16) (bytes : List UInt8) :
    ∃ word : UInt32, wordsOf (Lib.bytesOf 2 low.toNat ++ (Lib.bytesOf 2 high.toNat ++ bytes)) =
        word :: wordsOf bytes ∧
      (word &&& 0xFFFF).toUInt16 = low ∧ (word >>> 16).toUInt16 = high := by
  have hlow := low.toNat_lt
  have hhigh := high.toNat_lt
  refine ⟨_, by rw [← List.append_assoc, wordsOf_append (by simp)], ?_⟩
  rw [Lib.valueOf_append, Lib.valueOf_bytesOf hlow, Lib.valueOf_bytesOf hhigh, Lib.bytesOf_length]
  have hword : (UInt32.ofNat (low.toNat + 256 ^ 2 * high.toNat)).toNat =
      low.toNat + 2 ^ 16 * high.toNat := by
    rw [UInt32.toNat_ofNat_of_lt' (by simp [UInt32.size]; omega)]
    omega
  constructor
  · apply UInt16.toNat_inj.mp
    rw [UInt32.toNat_toUInt16, UInt32.toNat_and, hword]
    have := Nat.and_two_pow_sub_one_eq_mod (low.toNat + 2 ^ 16 * high.toNat) 16
    have hand : (low.toNat + 2 ^ 16 * high.toNat) &&& (0xFFFF : UInt32).toNat = low.toNat := by
      refine (Eq.trans this ?_)
      omega
    rw [hand, Nat.mod_eq_of_lt hlow]
  · apply UInt16.toNat_inj.mp
    have hshift : (16 : UInt32).toNat % 32 = 16 := rfl
    rw [UInt32.toNat_toUInt16, UInt32.toNat_shiftRight, hword, Nat.shiftRight_eq_div_pow, hshift]
    omega

section Builder

open BlockBitmap ExistenceFilterBuilder

variable {Key : Type} {f : Key → UInt16 → UInt64} {b : ExistenceFilterBuilder}

theorem wordsOf_writtenBytes : ∃ word : UInt32,
    wordsOf b.writtenBytes =
        b.params.size :: b.params.expectedNelts :: word :: b.rep.flatten ∧
      (word &&& 0xFFFF).toUInt16 = b.params.numHashes ∧
      (word >>> 16).toUInt16 = b.params.fpType := by
  obtain ⟨word, hword, hlow, hhigh⟩ := wordsOf_halves b.params.numHashes
    b.params.fpType
    (b.rep.flatMap fun block => block.flatMap fun word => Lib.bytesOf 4 word.toNat)
  refine ⟨word, ?_, hlow, hhigh⟩
  have hflatten : (b.rep.flatMap fun block =>
      block.flatMap fun word => Lib.bytesOf 4 word.toNat) =
      b.rep.flatten.flatMap fun word => Lib.bytesOf 4 word.toNat := by
    rw [List.flatMap_def, List.flatMap_def, List.map_flatten, List.flatten_flatten, List.map_map]
    rfl
  rw [writtenBytes, List.append_assoc, List.append_assoc, List.append_assoc, wordsOf_word,
    wordsOf_word, hword, hflatten, wordsOf_words]

theorem sized_length (hsize : 1 ≤ b.params.size)
    (h : Sized b.params.size b.rep) :
    b.rep.flatten.length = (bitsToWords b.params.size).toNat := by
  have hpos : 1 ≤ b.params.size.toNat := hsize
  have hblock : kBlockWords.toNat = 2 ^ 16 := rfl
  rw [Lib.HasSizes.length_flatten h, (blockDimensions_eq hsize).1, (blockDimensions_eq hsize).2,
    bitsToWords_eq, hblock]
  omega

theorem writtenBytes_length (hsize : 1 ≤ b.params.size)
    (h : Sized b.params.size b.rep) :
    b.writtenBytes.length = b.requiredBytes := by
  have hlength := sized_length hsize h
  have hwords : (b.rep.flatMap fun block =>
      block.flatMap fun word => Lib.bytesOf 4 word.toNat).length =
      b.rep.flatten.length * 4 := by
    simp [List.length_flatMap, List.length_flatten, List.sum_map_mul_right]
  have hlt : (bitsToWords b.params.size).toNat ≤ 2 ^ 27 := by
    have := b.params.size.toNat_lt
    rw [bitsToWords_eq]
    omega
  have hsum : (kHeaderSize + bitsToWords b.params.size).toNat =
      3 + (bitsToWords b.params.size).toNat := by
    rw [UInt32.toNat_add]
    have : kHeaderSize.toNat = 3 := rfl
    rw [this]
    exact Nat.mod_eq_of_lt (by omega)
  rw [writtenBytes, requiredBytes, hsum, List.length_append, List.length_append,
    List.length_append, List.length_append, hwords, hlength]
  simp only [Lib.bytesOf_length]
  omega

theorem serializeAsString_eq (hsize : 1 ≤ b.params.size)
    (h : Sized b.params.size b.rep) :
    b.serializeAsString = b.writtenBytes := by
  rw [serializeAsString, writtenBytes_length hsize h, Nat.sub_self, List.replicate_zero,
    List.append_nil]

theorem read_serializeAsString (hsize : 1 ≤ b.params.size)
    (hhashes : 1 ≤ b.params.numHashes ∧ b.params.numHashes ≤ 7)
    (hfp : b.params.fpType < fpTypeSize) (h : Sized b.params.size b.rep) :
    ExistenceFilter.read (wordsOf b.serializeAsString) = .ok b.build := by
  obtain ⟨word, hwords, hlow, hhigh⟩ := wordsOf_writtenBytes (b := b)
  have hread : readHeader (b.params.size :: b.params.expectedNelts :: word ::
      b.rep.flatten) = .ok b.params := by
    rw [readHeader]
    dsimp only
    rw [hlow, hhigh, if_neg, if_neg (UInt16.not_le.mpr hfp)]
    rintro (hbad | hbad)
    · exact absurd (UInt16.le_trans hbad hhashes.2) (by decide)
    · exact absurd (UInt16.le_trans hhashes.1 hbad) (by decide)
  have hlength := sized_length hsize h
  have hsplit : ofBuffer b.params.size b.rep.flatten = b.rep :=
    Lib.splitBlocks_flatten h
  rw [serializeAsString_eq hsize h, hwords, ExistenceFilter.read, hread]
  have hdrop : (b.params.size :: b.params.expectedNelts :: word ::
      b.rep.flatten).drop kHeaderSize.toNat = b.rep.flatten := rfl
  dsimp only
  rw [hdrop, if_neg (by omega), hsplit]
  rfl

theorem read_take (hsize : 1 ≤ b.params.size) (h : Sized b.params.size b.rep)
    {n : Nat} (hn : n < (wordsOf b.serializeAsString).length) :
    ∃ error, ExistenceFilter.read ((wordsOf b.serializeAsString).take n) = .error error := by
  obtain ⟨word, hwords, hlow, hhigh⟩ := wordsOf_writtenBytes (b := b)
  have hlength := sized_length hsize h
  rw [serializeAsString_eq hsize h, hwords] at hn ⊢
  match n, hn with
  | 0, _ | 1, _ | 2, _ => exact ⟨_, rfl⟩
  | n + 3, hn =>
    rw [List.take_succ_cons, List.take_succ_cons, List.take_succ_cons, ExistenceFilter.read]
    split
    · exact ⟨_, rfl⟩
    · rename_i params hread
      have hparams : params.size = b.params.size := by
        rw [readHeader] at hread
        dsimp only at hread
        split at hread
        · cases hread
        · split at hread
          · cases hread
          · cases hread
            rfl
      rw [hparams]
      have hdrop : (b.params.size :: b.params.expectedNelts :: word ::
          b.rep.flatten.take n).drop kHeaderSize.toNat = b.rep.flatten.take n := rfl
      dsimp only
      rw [hdrop, if_pos]
      · exact ⟨_, rfl⟩
      · simp only [List.length_cons] at hn
        rw [List.length_take]
        omega

def insertAll (f : Key → UInt16 → UInt64) (keys : List Key)
    (b : ExistenceFilterBuilder) : ExistenceFilterBuilder :=
  keys.foldl (fun b key => b.insert f key) b

theorem insertAll_params (keys : List Key) :
    (insertAll f keys b).params = b.params := by
  induction keys generalizing b with
  | nil => rfl
  | cons key keys ih => exact ih

theorem insertAll_sized (h : Sized b.params.size b.rep) (keys : List Key) :
    Sized b.params.size (insertAll f keys b).rep := by
  induction keys generalizing b with
  | nil => exact h
  | cons key keys ih =>
    exact ih (b := b.insert f key) (insertFrom_sized h _ _)

theorem insertAll_keeps (hsize : 1 ≤ b.params.size)
    (h : Sized b.params.size b.rep) (keys : List Key) :
    Keeps b.params.size b.rep (insertAll f keys b).rep := by
  induction keys generalizing b with
  | nil => exact fun _ _ hget => hget
  | cons key keys ih =>
    intro index hindex hget
    apply ih (b := b.insert f key) hsize (insertFrom_sized h _ _) index hindex
    exact insertFrom_keeps hsize h _ _ index hindex hget

theorem existsKey_of_existsFrom {built : ExistenceFilterBuilder} {key : Key}
    (hparams : built.params = b.params)
    (hexists : existsFrom b.params.size built.rep b.params.numHashes.toNat
      (f key b.params.fpType) = some true) :
    built.build.existsKey f key = some true := by
  rw [← hparams] at hexists
  exact hexists

theorem insertAll_exists (hsize : 1 ≤ b.params.size)
    (h : Sized b.params.size b.rep) {keys : List Key} {key : Key} (hkey : key ∈ keys) :
    (insertAll f keys b).build.existsKey f key = some true := by
  induction keys generalizing b with
  | nil => cases hkey
  | cons first keys ih =>
    have hinsert := insertFrom_sized h b.params.numHashes.toNat
      (f first b.params.fpType)
    rcases List.mem_cons.mp hkey with rfl | hkey
    · have hkeeps := insertAll_keeps (f := f) (b := b.insert f key) hsize hinsert keys
      have hfound := existsFrom_mono hsize hkeeps (existsFrom_insertFrom hsize h
        b.params.numHashes.toNat (f key b.params.fpType))
      exact existsKey_of_existsFrom (insertAll_params (b := b.insert f key) keys)
        hfound
    · exact ih (b := b.insert f first) hsize hinsert hkey

/-- Every key that was inserted is found in both filters, which agree on every key, and the string
has exactly the words that are read. -/
theorem filter_finds_inserted_keys (fingerprint : Key → UInt16 → UInt64)
    {p : ExistenceFilterParams} (hsize : 1 ≤ p.size)
    (hhashes : 1 ≤ p.numHashes ∧ p.numHashes ≤ 7) (hfp : p.fpType < fpTypeSize)
    (keys : List Key) {built : ExistenceFilterBuilder}
    (hbuilt : built = insertAll fingerprint keys (create p)) :
    ∃ filter, ExistenceFilter.read (wordsOf built.serializeAsString) = .ok filter ∧
      (∀ key ∈ keys, built.build.existsKey fingerprint key = some true ∧
        filter.existsKey fingerprint key = some true) ∧
      (∀ key, ∃ found, built.build.existsKey fingerprint key = some found ∧
        filter.existsKey fingerprint key = some found) ∧
      built.writtenBytes.length = built.requiredBytes ∧
      built.serializeAsString = built.writtenBytes ∧
      ∀ n < (wordsOf built.serializeAsString).length, ∃ error,
        ExistenceFilter.read ((wordsOf built.serializeAsString).take n) = .error error := by
  have hparams : built.params = p := hbuilt ▸ insertAll_params keys
  have hzero : Sized (create p).params.size (create p).rep := zero_sized
  have hsized : Sized built.params.size built.rep := by
    rw [hparams, hbuilt]
    exact insertAll_sized hzero keys
  rw [← hparams] at hsize hhashes hfp
  have hexists : ∀ key ∈ keys, built.build.existsKey fingerprint key = some true := by
    intro key hkey
    rw [hbuilt]
    exact insertAll_exists (hparams ▸ hsize) hzero hkey
  refine ⟨built.build, read_serializeAsString hsize hhashes hfp hsized,
    fun key hkey => ⟨hexists key hkey, hexists key hkey⟩, ?_, writtenBytes_length hsize hsized,
    serializeAsString_eq hsize hsized, fun n hn => read_take hsize hsized hn⟩
  intro key
  obtain ⟨found, hfound⟩ := existsFrom_isSome hsize hsized built.params.numHashes.toNat
    (fingerprint key built.params.fpType)
  exact ⟨found, hfound, hfound⟩

theorem filter_finds_inserted_keys_two : ∃ filter,
    ExistenceFilter.read (wordsOf (insertAll (fun key _ => key) [3, 77]
      (create { size := 40, numHashes := 2 })).serializeAsString) = .ok filter ∧
    filter.existsKey (fun key _ => key) 77 = some true := by
  obtain ⟨filter, hread, hfound, _⟩ := filter_finds_inserted_keys (fun (key : UInt64) _ => key)
    (p := { size := 40, numHashes := 2 }) (by decide) (by decide) (by decide) [3, 77] rfl
  exact ⟨filter, hread, (hfound 77 (by decide)).2⟩

end Builder

end Mozkey.Storage
