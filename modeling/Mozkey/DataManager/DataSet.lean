import Mozkey.Storage.LittleEndian
import Mozkey.Lib.KeyedList

/-! `DataSetWriter` of `data_manager/dataset_writer.cc` and `DataSetReader` of
`data_manager/dataset_reader.cc`: a file of aligned chunks with their metadata and a footer. -/

namespace Mozkey.DataManager

open Storage

structure Entry where
  name : Bytes
  offset : Nat
  size : Nat
  deriving DecidableEq

/-- The serialization of the metadata, which loses nothing of numbers of 64 bits. -/
structure MetadataFormat where
  serialize : List Entry → Bytes
  parse : Bytes → Option (List Entry)
  parse_serialize : ∀ entries : List Entry,
    (∀ entry ∈ entries, entry.offset < 2 ^ 64 ∧ entry.size < 2 ^ 64) →
      parse (serialize entries) = some entries
  serialize_nil : serialize [] = []

def serializeUint64 (x : Nat) : Bytes := (leBytes 8 x).reverse

def deserializeUint64 (s : Bytes) : Option Nat :=
  if s.length ≠ 8 then none else some (leValue s.reverse)

def isValidAlignment (alignment : Nat) : Bool :=
  8 ≤ alignment && alignment &&& (alignment - 1) == 0

structure Addition where
  name : Bytes
  alignment : Nat
  data : Bytes
  deriving DecidableEq

structure DataSetWriter where
  image : Bytes
  entries : List Entry := []
  seenNames : List Bytes := []
  deriving DecidableEq

def paddedImage (alignment : Nat) (image : Bytes) : Bytes :=
  if 0 < image.length % alignment then
    image ++ List.replicate (alignment - image.length % alignment) 0
  else image

namespace DataSetWriter

local instance : LawfulBEq Bytes := inferInstance

def add (writer : DataSetWriter) (addition : Addition) : Option DataSetWriter :=
  if addition.name ∈ writer.seenNames then none
  else if !isValidAlignment addition.alignment then none
  else
    let image := paddedImage (addition.alignment / 8) writer.image
    some
      { image := image ++ addition.data
        entries := writer.entries ++
          [{ name := addition.name, offset := image.length, size := addition.data.length }]
        seenNames := addition.name :: writer.seenNames }

def finish (format : MetadataFormat) (makeDigest : Bytes → Vector UInt8 20) (writer : DataSetWriter) :
    Option Bytes :=
  let s := format.serialize writer.entries
  let image := writer.image ++ s ++ serializeUint64 s.length
  let image := image ++ (makeDigest image).toList
  let image := image ++ serializeUint64 (image.length + 8)
  if image.length < 2 ^ 63 then some image else none

end DataSetWriter

structure Chunk where
  name : Bytes
  offset : Nat
  bytes : Bytes
  deriving DecidableEq

def kFooterSize : Nat := 36

def clippedSubstr (s : Bytes) (pos n : Nat) : Bytes := (s.drop pos).take n

/-- The loop over the entries, with the chunks read last in front. -/
def readEntries (memblock : Bytes) (metadataOffset : Nat) :
    (prevChunkEnd : Nat) → List Entry → List Chunk → Option (List Chunk)
  | _, [], chunks => some chunks
  | prevChunkEnd, e :: entries, chunks =>
    if e.offset < prevChunkEnd ∨ metadataOffset ≤ e.offset then none
    else if metadataOffset < e.size ∨ metadataOffset - e.size < e.offset then none
    else
      readEntries memblock metadataOffset (e.offset + e.size) entries
        ({ name := e.name, offset := e.offset, bytes := clippedSubstr memblock e.offset e.size } :: chunks)

/-- `Init` with the length of the magic string; nothing where it fails. -/
def initFrom (format : MetadataFormat) (memblock : Bytes) (magicLength : Nat) : Option (List Chunk) :=
  if memblock.length < magicLength + kFooterSize then none
  else do
    let filesize ← deserializeUint64 (clippedSubstr memblock (memblock.length - 8) 8)
    if filesize ≠ memblock.length then none
    else do
      let metadataSize ←
        deserializeUint64 (clippedSubstr memblock (memblock.length - kFooterSize) 8)
      if metadataSize = 0 ∨ memblock.length - magicLength - kFooterSize < metadataSize then none
      else do
        let metadataOffset := memblock.length - kFooterSize - metadataSize
        let metadata ← format.parse (clippedSubstr memblock metadataOffset metadataSize)
        readEntries memblock metadataOffset magicLength metadata []

def init (format : MetadataFormat) (memblock magic : Bytes) : Option (List Chunk) :=
  if magic.isPrefixOf memblock then initFrom format memblock magic.length else none

def get (name : Bytes) (chunks : List Chunk) : Option Chunk :=
  chunks.find? fun chunk => chunk.name = name

structure Valid (additions : List Addition) : Prop where
  nodup : (additions.map Addition.name).Nodup
  alignment : ∀ addition ∈ additions, isValidAlignment addition.alignment

def write (format : MetadataFormat) (makeDigest : Bytes → Vector UInt8 20) (magic : Bytes)
    (additions : List Addition) : Option Bytes :=
  (additions.foldlM DataSetWriter.add { image := magic }).bind (DataSetWriter.finish format makeDigest)

/-- The calls are taken, and what is written is read back, at aligned offsets. -/
def RoundTrips (format : MetadataFormat) (makeDigest : Bytes → Vector UInt8 20) (magic : Bytes)
    (additions : List Addition) : Prop :=
  Valid additions → (additions.foldlM DataSetWriter.add { image := magic }).isSome ∧
    ∀ file, write format makeDigest magic additions = some file →
      ∃ chunks, init format file magic = some chunks ∧ ∀ addition ∈ additions,
        ∃ offset, get addition.name chunks = some ⟨addition.name, offset, addition.data⟩ ∧
          addition.alignment / 8 ∣ offset

def LastNonempty (additions : List Addition) : Prop :=
  ∃ addition, additions.getLast? = some addition ∧ addition.data ≠ []

/-! The layout. -/

def imageFrom : (image : Bytes) → List Addition → Bytes
  | image, [] => image
  | image, addition :: additions =>
    imageFrom (paddedImage (addition.alignment / 8) image ++ addition.data) additions

def entriesFrom : (image : Bytes) → List Addition → List Entry
  | _, [] => []
  | image, addition :: additions =>
    let padded := paddedImage (addition.alignment / 8) image
    { name := addition.name, offset := padded.length, size := addition.data.length } ::
      entriesFrom (padded ++ addition.data) additions

section

variable {image : Bytes} {additions : List Addition} {addition : Addition} {alignment x : Nat}

theorem length_serializeUint64 (x : Nat) : (serializeUint64 x).length = 8 := by
  rw [serializeUint64, List.length_reverse, length_leBytes]

theorem deserializeUint64_serializeUint64 (h : x < 2 ^ 64) :
    deserializeUint64 (serializeUint64 x) = some x := by
  rw [deserializeUint64, if_neg (not_not.mpr (length_serializeUint64 x)), serializeUint64,
    List.reverse_reverse, leValue_leBytes, Nat.mod_eq_of_lt h]

theorem paddedImage_spec (halignment : 0 < alignment) (image : Bytes) :
    image <+: paddedImage alignment image ∧ alignment ∣ (paddedImage alignment image).length := by
  rw [paddedImage]
  split
  · refine ⟨List.prefix_append _ _, ?_⟩
    have hlt := Nat.mod_lt image.length halignment
    have hdiv := Nat.div_add_mod image.length alignment
    rw [List.length_append, List.length_replicate]
    refine ⟨image.length / alignment + 1, ?_⟩
    rw [Nat.mul_add, Nat.mul_one]
    omega
  · rename_i hzero
    exact ⟨List.prefix_rfl, Nat.dvd_of_mod_eq_zero (Nat.eq_zero_of_not_pos hzero)⟩

theorem alignment_pos (h : isValidAlignment addition.alignment) : 0 < addition.alignment / 8 := by
  rw [isValidAlignment, Bool.and_eq_true, decide_eq_true_eq] at h
  exact Nat.div_pos h.1 (by decide)

theorem prefix_paddedImage (alignment : Nat) (image : Bytes) :
    image <+: paddedImage alignment image := by
  rw [paddedImage]
  split
  · exact List.prefix_append _ _
  · exact List.prefix_rfl

theorem prefix_imageFrom (image : Bytes) (additions : List Addition) :
    image <+: imageFrom image additions := by
  induction additions generalizing image with
  | nil => exact List.prefix_rfl
  | cons addition additions ih =>
    exact (prefix_paddedImage _ image).trans ((List.prefix_append _ _).trans (ih _))

theorem add_eq_some (writer : DataSetWriter) (hnew : addition.name ∉ writer.seenNames)
    (halignment : isValidAlignment addition.alignment) :
    ∃ writer', writer.add addition = some writer' ∧
      writer'.image = paddedImage (addition.alignment / 8) writer.image ++ addition.data ∧
      writer'.entries = writer.entries ++ entriesFrom writer.image [addition] ∧
      writer'.seenNames = addition.name :: writer.seenNames := by
  refine ⟨⟨_, _, _⟩, ?_, rfl, rfl, rfl⟩
  rw [DataSetWriter.add, if_neg hnew, halignment]
  rfl

theorem foldlM_add (hvalid : Valid additions) (writer : DataSetWriter)
    (hnew : ∀ addition ∈ additions, addition.name ∉ writer.seenNames) :
    ∃ writer', additions.foldlM DataSetWriter.add writer = some writer' ∧
      writer'.image = imageFrom writer.image additions ∧
      writer'.entries = writer.entries ++ entriesFrom writer.image additions := by
  induction additions generalizing writer with
  | nil => exact ⟨writer, rfl, rfl, (List.append_nil _).symm⟩
  | cons addition additions ih =>
    obtain ⟨hnodup, halignment⟩ := hvalid
    rw [List.map_cons, List.nodup_cons] at hnodup
    obtain ⟨writer₁, hadd, himage₁, hentries₁, hnames₁⟩ := add_eq_some writer
      (hnew addition List.mem_cons_self) (halignment addition List.mem_cons_self)
    have hnew₁ : ∀ a ∈ additions, a.name ∉ writer₁.seenNames := by
      intro a ha hmem
      rw [hnames₁] at hmem
      rcases List.mem_cons.mp hmem with heq | hmem
      · exact hnodup.1 (List.mem_map.mpr ⟨a, ha, heq⟩)
      · exact hnew a (List.mem_cons_of_mem _ ha) hmem
    obtain ⟨writer', hrest, himage, hentries⟩ := ih
      ⟨hnodup.2, fun a ha => halignment a (List.mem_cons_of_mem _ ha)⟩ writer₁ hnew₁
    refine ⟨writer', ?_, ?_, ?_⟩
    · rw [List.foldlM_cons, hadd]
      exact hrest
    · rw [himage, himage₁, imageFrom]
    · rw [hentries, hentries₁, himage₁, List.append_assoc]
      rfl

/-! The loop of the reader over what was written. -/

theorem LastNonempty.tail {next : Addition} (h : LastNonempty (addition :: next :: additions)) :
    LastNonempty (next :: additions) := by
  rwa [LastNonempty, List.getLast?_cons_cons] at h

theorem offset_lt_imageFrom (image : Bytes) (addition : Addition) (additions : List Addition)
    (hlast : LastNonempty (addition :: additions)) :
    (paddedImage (addition.alignment / 8) image).length <
      (imageFrom image (addition :: additions)).length := by
  induction additions generalizing image addition with
  | nil =>
    obtain ⟨last, hget, hdata⟩ := hlast
    obtain rfl : addition = last := Option.some.inj hget
    have hpos := List.length_pos_iff.mpr hdata
    rw [imageFrom, imageFrom, List.length_append]
    omega
  | cons next additions ih =>
    have hlt := ih (paddedImage (addition.alignment / 8) image ++ addition.data) next hlast.tail
    have hle := (prefix_paddedImage (next.alignment / 8)
      (paddedImage (addition.alignment / 8) image ++ addition.data)).length_le
    rw [List.length_append] at hle
    rw [imageFrom]
    omega

/-- The chunks behind those of further calls, the last in front. -/
def chunksFrom : (image : Bytes) → List Addition → List Chunk → List Chunk
  | _, [], chunks => chunks
  | image, addition :: additions, chunks =>
    let padded := paddedImage (addition.alignment / 8) image
    chunksFrom (padded ++ addition.data) additions
      ({ name := addition.name, offset := padded.length, bytes := addition.data } :: chunks)

theorem clippedSubstr_imageFrom (image tail : Bytes) (addition : Addition) (additions : List Addition) :
    clippedSubstr (imageFrom image (addition :: additions) ++ tail)
      (paddedImage (addition.alignment / 8) image).length addition.data.length = addition.data := by
  obtain ⟨rest, hrest⟩ :=
    prefix_imageFrom (paddedImage (addition.alignment / 8) image ++ addition.data) additions
  rw [imageFrom, ← hrest, clippedSubstr, List.append_assoc, List.append_assoc, List.drop_left,
    List.take_left]

theorem readEntries_eq_some (image tail : Bytes) (hlast : additions = [] ∨ LastNonempty additions)
    {prevChunkEnd : Nat} (hprev : prevChunkEnd ≤ image.length) (chunks : List Chunk) :
    readEntries (imageFrom image additions ++ tail) (imageFrom image additions).length prevChunkEnd
      (entriesFrom image additions) chunks = some (chunksFrom image additions chunks) := by
  induction additions generalizing image prevChunkEnd chunks with
  | nil => rfl
  | cons addition additions ih =>
    have hpadded := (prefix_paddedImage (addition.alignment / 8) image).length_le
    have hend := (prefix_imageFrom (paddedImage (addition.alignment / 8) image ++ addition.data)
      additions).length_le
    have hlast : LastNonempty (addition :: additions) := hlast.resolve_left (List.cons_ne_nil _ _)
    have hlast' : additions = [] ∨ LastNonempty additions := by
      cases additions with
      | nil => exact .inl rfl
      | cons next additions => exact .inr hlast.tail
    have hlt := offset_lt_imageFrom image addition additions hlast
    rw [List.length_append] at hend
    rw [entriesFrom, readEntries]
    dsimp only
    rw [if_neg (by omega), if_neg (by rw [imageFrom]; omega), clippedSubstr_imageFrom]
    exact ih _ hlast' (by rw [List.length_append]) _

theorem readEntries_eq_none (image tail : Bytes) (hne : additions ≠ []) (hlast : ¬ LastNonempty additions)
    (prevChunkEnd : Nat) (chunks : List Chunk) :
    readEntries (imageFrom image additions ++ tail) (imageFrom image additions).length prevChunkEnd
      (entriesFrom image additions) chunks = none := by
  induction additions generalizing image prevChunkEnd chunks with
  | nil => exact absurd rfl hne
  | cons addition additions ih =>
    rw [entriesFrom, readEntries]
    cases additions with
    | nil =>
      have hempty : addition.data = [] := by
        by_contra hdata
        exact hlast ⟨addition, rfl, hdata⟩
      rw [if_pos (Or.inr (by rw [imageFrom, imageFrom, hempty, List.append_nil]))]
    | cons next additions =>
      have hlast' : ¬ LastNonempty (next :: additions) := by
        rwa [LastNonempty, List.getLast?_cons_cons] at hlast
      split
      · rfl
      · split
        · rfl
        · exact ih _ (List.cons_ne_nil _ _) hlast' _ _

theorem entry_le (image : Bytes) {e : Entry} (he : e ∈ entriesFrom image additions) :
    e.offset + e.size ≤ (imageFrom image additions).length := by
  induction additions generalizing image with
  | nil => cases he
  | cons addition additions ih =>
    rcases List.mem_cons.mp he with rfl | he
    · have hend := (prefix_imageFrom (paddedImage (addition.alignment / 8) image ++ addition.data)
        additions).length_le
      rwa [List.length_append] at hend
    · exact ih _ he

theorem map_name_chunksFrom (image : Bytes) (chunks : List Chunk) :
    (chunksFrom image additions chunks).map Chunk.name =
      (additions.map Addition.name).reverse ++ chunks.map Chunk.name := by
  induction additions generalizing image chunks with
  | nil => rfl
  | cons addition additions ih =>
    rw [chunksFrom, ih, List.map_cons, List.map_cons, List.reverse_cons, List.append_assoc]
    rfl

theorem mem_chunksFrom_of_mem (image : Bytes) {chunk : Chunk} {chunks : List Chunk}
    (h : chunk ∈ chunks) : chunk ∈ chunksFrom image additions chunks := by
  induction additions generalizing image chunks with
  | nil => exact h
  | cons addition additions ih => exact ih _ (List.mem_cons_of_mem _ h)

theorem exists_chunk (halignment : ∀ addition ∈ additions, isValidAlignment addition.alignment)
    (image : Bytes) (chunks : List Chunk) (hmem : addition ∈ additions) :
    ∃ offset, ⟨addition.name, offset, addition.data⟩ ∈ chunksFrom image additions chunks ∧
      addition.alignment / 8 ∣ offset := by
  induction additions generalizing image chunks with
  | nil => cases hmem
  | cons first additions ih =>
    rcases List.mem_cons.mp hmem with rfl | hmem
    · have hpos := alignment_pos (halignment addition List.mem_cons_self)
      refine ⟨_, ?_, (paddedImage_spec hpos image).2⟩
      rw [chunksFrom]
      exact mem_chunksFrom_of_mem _ List.mem_cons_self
    · exact ih (fun a ha => halignment a (List.mem_cons_of_mem _ ha)) _ _ hmem

end

section

variable {format : MetadataFormat} {makeDigest : Bytes → Vector UInt8 20} {magic file : Bytes}
  {writer : DataSetWriter} {additions : List Addition}

theorem finish_eq_some (h : writer.finish format makeDigest = some file) :
    ∃ digest : Bytes, digest.length = 20 ∧ file.length < 2 ^ 63 ∧
      file = writer.image ++ (format.serialize writer.entries ++
        (serializeUint64 (format.serialize writer.entries).length ++
          (digest ++ serializeUint64 file.length))) := by
  rw [DataSetWriter.finish] at h
  split at h
  · rename_i hlt
    cases h
    refine ⟨(makeDigest (writer.image ++ format.serialize writer.entries ++
      serializeUint64 (format.serialize writer.entries).length)).toList, Vector.length_toList, hlt, ?_⟩
    simp only [List.append_assoc, List.length_append, length_serializeUint64, Vector.length_toList,
      Nat.add_assoc]
  · cases h

theorem clippedSubstr_append {xs ys zs : Bytes} {pos n : Nat} (hpos : xs.length = pos)
    (hn : ys.length = n) : clippedSubstr (xs ++ (ys ++ zs)) pos n = ys := by
  subst hpos hn
  rw [clippedSubstr, List.drop_left, List.take_left]

theorem footer_eq (h : writer.finish format makeDigest = some file) :
    file.length = writer.image.length + (format.serialize writer.entries).length + kFooterSize ∧
      deserializeUint64 (clippedSubstr file (file.length - 8) 8) = some file.length ∧
      deserializeUint64 (clippedSubstr file (file.length - kFooterSize) 8) =
        some (format.serialize writer.entries).length ∧ file.length < 2 ^ 63 := by
  obtain ⟨digest, hdigest, hlt, hfile⟩ := finish_eq_some h
  have hlength := congrArg List.length hfile
  simp only [List.length_append, length_serializeUint64, hdigest] at hlength
  generalize hn : serializeUint64 file.length = size at hfile
  have hsize : size.length = 8 := hn ▸ length_serializeUint64 _
  have hfilesize : clippedSubstr file (file.length - 8) 8 = size := by
    have hparts : file = (writer.image ++ (format.serialize writer.entries ++
        (serializeUint64 (format.serialize writer.entries).length ++ digest))) ++ (size ++ []) := by
      rw [hfile]
      simp only [List.append_assoc, List.append_nil]
    rw [hparts]
    refine clippedSubstr_append ?_ hsize
    simp only [List.length_append, length_serializeUint64, hsize, List.length_nil]
    omega
  have hmetadataSize : clippedSubstr file (file.length - kFooterSize) 8 =
      serializeUint64 (format.serialize writer.entries).length := by
    have hparts : file = (writer.image ++ format.serialize writer.entries) ++
        (serializeUint64 (format.serialize writer.entries).length ++ (digest ++ size)) := by
      rw [hfile, List.append_assoc]
    rw [hparts]
    refine clippedSubstr_append ?_ (length_serializeUint64 _)
    simp only [List.length_append, length_serializeUint64, hsize, hdigest, kFooterSize]
    omega
  refine ⟨by rw [kFooterSize]; omega, ?_, ?_, hlt⟩
  · rw [hfilesize, ← hn, deserializeUint64_serializeUint64 (by omega)]
  · rw [hmetadataSize, deserializeUint64_serializeUint64 (by omega)]

theorem initFrom_eq_none (hnil : format.serialize writer.entries = [])
    (h : writer.finish format makeDigest = some file) (magicLength : Nat) :
    initFrom format file magicLength = none := by
  obtain ⟨hlength, hfilesize, hmetadataSize, hlt⟩ := footer_eq h
  rw [initFrom, hfilesize]
  split
  · rfl
  · simp only [Option.bind_eq_bind, Option.bind_some, ne_eq, not_true_eq_false, if_false]
    rw [hmetadataSize, Option.bind_some, if_pos (Or.inl (by rw [hnil]; rfl))]

theorem initFrom_eq (hnil : format.serialize writer.entries ≠ [])
    (hentries : ∀ entry ∈ writer.entries, entry.offset < 2 ^ 64 ∧ entry.size < 2 ^ 64)
    (h : writer.finish format makeDigest = some file) {magicLength : Nat}
    (hmagic : magicLength ≤ writer.image.length) :
    ∃ tail, file = writer.image ++ tail ∧ initFrom format file magicLength =
      readEntries (writer.image ++ tail) writer.image.length magicLength writer.entries [] := by
  obtain ⟨hlength, hfilesize, hmetadataSize, hlt⟩ := footer_eq h
  obtain ⟨digest, -, -, hfile⟩ := finish_eq_some h
  have hpos := List.length_pos_iff.mpr hnil
  have hmetadata : clippedSubstr file writer.image.length (format.serialize writer.entries).length =
      format.serialize writer.entries := by
    rw [hfile, clippedSubstr, List.drop_left, List.take_left]
  refine ⟨_, hfile, ?_⟩
  rw [initFrom, if_neg (by omega), hfilesize]
  simp only [Option.bind_eq_bind, Option.bind_some, ne_eq, not_true_eq_false, if_false]
  rw [hmetadataSize, Option.bind_some, if_neg (by omega),
    show file.length - kFooterSize - (format.serialize writer.entries).length = writer.image.length by
      omega,
    hmetadata, format.parse_serialize _ hentries, Option.bind_some, ← hfile]

theorem serialize_ne_nil {entries : List Entry} (hne : entries ≠ [])
    (hentries : ∀ entry ∈ entries, entry.offset < 2 ^ 64 ∧ entry.size < 2 ^ 64) :
    format.serialize entries ≠ [] := by
  intro hnil
  have hparse := format.parse_serialize entries hentries
  rw [hnil, ← format.serialize_nil, format.parse_serialize [] fun _ h => by cases h] at hparse
  exact hne (Option.some.inj hparse).symm

/-- A file is read back exactly if it has a chunk and the last one is not empty. -/
theorem dataSet_roundTrips_iff (format : MetadataFormat) (makeDigest : Bytes → Vector UInt8 20)
    (magic : Bytes) (additions : List Addition) :
    RoundTrips format makeDigest magic additions ↔
      (Valid additions → ∀ file, write format makeDigest magic additions = some file →
        LastNonempty additions) := by
  refine forall_congr' fun hvalid => ?_
  obtain ⟨writer, hadd, himage, hentries⟩ := foldlM_add hvalid { image := magic } fun _ _ h => by cases h
  replace himage : writer.image = imageFrom magic additions := himage
  replace hentries : writer.entries = entriesFrom magic additions := hentries
  rw [hadd, and_iff_right Option.isSome_some]
  refine forall₂_congr fun file hwrite => ?_
  rw [write, hadd, Option.bind_some] at hwrite
  obtain ⟨-, -, -, hlt⟩ := footer_eq hwrite
  obtain ⟨digest, -, -, hfile⟩ := finish_eq_some hwrite
  have hbounds : ∀ entry ∈ writer.entries, entry.offset < 2 ^ 64 ∧ entry.size < 2 ^ 64 := by
    intro entry hmem
    have hle := entry_le magic (hentries ▸ hmem)
    have hlength := congrArg List.length hfile
    rw [List.length_append, himage] at hlength
    omega
  have hmagic : magic <+: writer.image := himage ▸ prefix_imageFrom magic additions
  have hinit : init format file magic = initFrom format file magic.length := by
    refine if_pos (List.isPrefixOf_iff_prefix.mpr ?_)
    rw [hfile]
    exact hmagic.trans (List.prefix_append _ _)
  by_cases hnone : additions = []
  · have hlast : ¬ LastNonempty additions := by
      rw [hnone]
      rintro ⟨_, hget, -⟩
      cases hget
    have hnil : format.serialize writer.entries = [] := by
      rw [hentries, hnone]
      exact format.serialize_nil
    refine iff_of_false ?_ hlast
    rintro ⟨chunks, hchunks, -⟩
    rw [hinit, initFrom_eq_none hnil hwrite] at hchunks
    cases hchunks
  have hne : writer.entries ≠ [] := by
    rw [hentries]
    cases additions with
    | nil => exact absurd rfl hnone
    | cons addition additions => exact List.cons_ne_nil _ _
  obtain ⟨tail, -, hread⟩ :=
    initFrom_eq (serialize_ne_nil hne hbounds) hbounds hwrite hmagic.length_le
  rw [himage, hentries] at hread
  by_cases hlast : LastNonempty additions
  · rw [readEntries_eq_some magic tail (.inr hlast) (Nat.le_refl _) []] at hread
    refine iff_of_true ⟨_, hinit.trans hread, fun addition hmem => ?_⟩ hlast
    obtain ⟨offset, hchunk, hdvd⟩ := exists_chunk hvalid.alignment magic [] hmem
    have hnodup : ((chunksFrom magic additions []).map Chunk.name).Nodup := by
      rw [map_name_chunksFrom, List.map_nil, List.append_nil, List.nodup_reverse]
      exact hvalid.nodup
    exact ⟨offset, (Lib.find?_eq_some_iff_mem hnodup).mpr ⟨hchunk, rfl⟩, hdvd⟩
  · rw [readEntries_eq_none magic tail hnone hlast] at hread
    refine iff_of_false ?_ hlast
    rintro ⟨chunks, hchunks, -⟩
    rw [hinit, hread] at hchunks
    cases hchunks

end

def Entry.code (e : Entry) : List Nat × Nat × Nat := (e.name.map UInt8.toNat, e.offset, e.size)

def Entry.ofCode (code : List Nat × Nat × Nat) : Entry :=
  { name := code.1.map UInt8.ofNat, offset := code.2.1, size := code.2.2 }

/-- A serialization that loses nothing: as many bytes as the number of the entries says. -/
def unaryFormat : MetadataFormat where
  serialize entries := List.replicate (Encodable.encode (entries.map Entry.code)) 0
  parse bytes :=
    (Encodable.decode bytes.length : Option (List (List Nat × Nat × Nat))).map (List.map Entry.ofCode)
  parse_serialize := by
    intro entries _
    have hcode : ∀ e : Entry, Entry.ofCode e.code = e := by
      intro e
      have hname : UInt8.ofNat ∘ UInt8.toNat = id := funext fun c => UInt8.ofNat_toNat
      rw [Entry.ofCode, Entry.code, List.map_map, hname, List.map_id]
    rw [List.length_replicate, Encodable.encodek, Option.map_some, List.map_map]
    simp [Function.comp_def, hcode]
  serialize_nil := rfl

/-- The digest of the magic string `m` and of a metadata size of zero. -/
def emptyDigest : Vector UInt8 20 :=
  #v[0xe1, 0x94, 0x36, 0x7f, 0x9e, 0xc9, 0xee, 0x37, 0xdb, 0x92,
    0xcd, 0x7a, 0x90, 0xa9, 0x52, 0xfb, 0xc5, 0x07, 0xff, 0x44]

/-- A file without chunks is not read back. -/
theorem not_roundTrips_nil : ¬ RoundTrips unaryFormat (fun _ => emptyDigest) [0x6d] [] := by
  intro h
  obtain ⟨file, hfile⟩ : ∃ file,
      DataSetWriter.finish unaryFormat (fun _ => emptyDigest) { image := [0x6d] } = some file :=
    ⟨_, rfl⟩
  obtain ⟨-, hread⟩ := h ⟨List.nodup_nil, fun _ hmem => by cases hmem⟩
  obtain ⟨chunks, hchunks, -⟩ := hread file hfile
  rw [init] at hchunks
  split at hchunks
  · rw [initFrom_eq_none rfl hfile] at hchunks
    cases hchunks
  · cases hchunks

end Mozkey.DataManager
