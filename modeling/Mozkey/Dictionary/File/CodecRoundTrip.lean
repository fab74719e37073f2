import Mozkey.Dictionary.File.CodecCorrect

/-! `ReadSections` gives back what `WriteSections` wrote. -/

namespace Mozkey.Dictionary

open Storage Lib DictionaryFileCodec

theorem length_writeInt32 (value : Int) : (writeInt32 value).length = 4 := rfl

theorem toInt32_of_int32 {value : Int} (hle : -2 ^ 31 ≤ value) (hlt : value < 2 ^ 31) :
    toInt32 (value % 2 ^ 32).toNat = value := by
  unfold toInt32
  split <;> omega

theorem sizeToInt32_of_lt {size : Nat} (hlt : size < 2 ^ 31) : sizeToInt32 size = size := by
  rw [sizeToInt32, Nat.mod_eq_of_lt (by omega), toInt32, if_pos hlt]

theorem loadInt32_writeInt32 (value : Int) (before rest : Bytes) :
    loadInt32 (before ++ (writeInt32 value ++ rest)) before.length =
      some (toInt32 (value % 2 ^ 32).toNat) := by
  obtain ⟨word, -, hpush, hload⟩ := @pushInt32_eq (value % 2 ^ 32).toNat (by omega)
  have hword : some (writeInt32 value) = some word := by
    rw [← List.nil_append word, ← hpush [], pushInt32, if_pos (by omega)]
    rfl
  obtain rfl := Option.some.inj hword
  rw [loadInt32, if_pos (Int.natCast_nonneg _), Int.toNat_natCast, hload, Option.map_some]

theorem take_drop_middle (before middle rest : Bytes) :
    ((before ++ (middle ++ rest)).drop before.length).take middle.length = middle := by
  rw [List.drop_left, List.take_left]

theorem roundUp4_natCast {size : Nat} (hlt : size < 2 ^ 31 - 4) :
    roundUp4 size = some ((size + (pad4 size).length : Nat) : Int) := by
  obtain ⟨padded, hpad⟩ := @roundUp4_isSome (size : Int) (by omega)
  have hpadded := roundUp4_eq_some hpad
  rw [hpad, Option.some_inj, pad4, List.length_replicate]
  omega

structure WritableSection (section_ : DictionaryFileSection) : Prop where
  name : section_.name.length = 8
  nonempty : section_.image ≠ []
  fits : section_.image.length < 2 ^ 31 - 4

theorem readSection_writeSection {section_ : DictionaryFileSection} (hsection : WritableSection section_)
    (before rest : Bytes) {s : ReadState} (hptr : s.ptr = before.length) :
    ∃ t view, readSection (before ++ (writeSection section_ ++ rest)) s = .inl t ∧
      t.ptr = (before ++ writeSection section_).length ∧ t.sections = s.sections ++ [view] ∧
      view.read (before ++ (writeSection section_ ++ rest)) = section_ := by
  obtain ⟨hname, hnonempty, hfits⟩ := hsection
  have hpos := List.length_pos_iff.mpr hnonempty
  have hsize : sizeToInt32 section_.image.length = section_.image.length :=
    sizeToInt32_of_lt (by omega)
  have hpad := roundUp4_natCast hfits
  have hwritten : writeSection section_ = writeInt32 section_.image.length ++
      (section_.name ++ (section_.image ++ pad4 section_.image.length)) := by
    simp only [writeSection, hsize, List.append_assoc]
  have hlength : (writeSection section_).length =
      12 + section_.image.length + (pad4 section_.image.length).length := by
    simp only [hwritten, List.length_append, length_writeInt32, hname]
    omega
  have hload : loadInt32 (before ++ (writeSection section_ ++ rest)) s.ptr =
      some (section_.image.length : Int) := by
    rw [hptr, hwritten, List.append_assoc, loadInt32_writeInt32, toInt32_of_int32 (by omega) (by omega)]
  obtain ⟨fingerprint, hfingerprint, hround⟩ :=
    (readSection_round (before ++ (writeSection section_ ++ rest)) s).goes hload (by omega) hpad
      (by simp only [hptr, List.length_append, hlength]; omega)
      (by simp only [hptr, List.length_append, hlength]; omega)
  have hnamed : fingerprint = section_.name := by
    have hregroup : before ++ (writeSection section_ ++ rest) =
        (before ++ writeInt32 section_.image.length) ++
          (section_.name ++ (section_.image ++ pad4 section_.image.length ++ rest)) := by
      simp only [hwritten, List.append_assoc]
    have hoffset : (s.ptr + 4).toNat = (before ++ writeInt32 section_.image.length).length := by
      rw [hptr, List.length_append, length_writeInt32]
      omega
    have htake := take_drop_middle (before ++ writeInt32 section_.image.length) section_.name
      (section_.image ++ pad4 section_.image.length ++ rest)
    unfold loadFingerprint at hfingerprint
    split at hfingerprint
    · rw [hregroup, hoffset] at hfingerprint
      rw [hname] at htake
      exact (Option.some.inj hfingerprint).symm.trans htake
    · cases hfingerprint
  refine ⟨_, _, hround, ?_, rfl, ?_⟩
  · simp only [hptr, List.length_append, hlength]
    omega
  · have hregroup : before ++ (writeSection section_ ++ rest) =
        (before ++ writeInt32 section_.image.length ++ section_.name) ++
          (section_.image ++ (pad4 section_.image.length ++ rest)) := by
      simp only [hwritten, List.append_assoc]
    have hoffset : (s.ptr + 12).toNat =
        (before ++ writeInt32 section_.image.length ++ section_.name).length := by
      rw [hptr, List.length_append, List.length_append, length_writeInt32, hname]
      omega
    have hview : toSizeT section_.image.length = section_.image.length := by
      have hcast := toSizeT_of_nonneg (Int.natCast_nonneg section_.image.length) (by omega)
      omega
    rw [SectionView.read]
    dsimp only
    rw [hview, hoffset, hregroup, take_drop_middle, hnamed]

theorem loopReaches_flatMap {sections : List DictionaryFileSection}
    (hsections : ∀ section_ ∈ sections, WritableSection section_) (before rest : Bytes)
    {s : ReadState} (hptr : s.ptr = before.length) :
    ∃ t views, LoopReaches (readSection (before ++ (sections.flatMap writeSection ++ rest))) s t ∧
      t.ptr = (before ++ sections.flatMap writeSection).length ∧ t.sections = s.sections ++ views ∧
      views.map (·.read (before ++ (sections.flatMap writeSection ++ rest))) = sections := by
  induction sections generalizing before s with
  | nil => exact ⟨s, [], .refl, by simpa using hptr, by simp, rfl⟩
  | cons section_ sections ih =>
    obtain ⟨t, view, hround, hnext, hview, hread⟩ := readSection_writeSection
      (hsections section_ List.mem_cons_self) before (sections.flatMap writeSection ++ rest) hptr
    obtain ⟨u, views, hreach, hlast, hviews, hreads⟩ := ih
      (fun other hmem => hsections other (List.mem_cons_of_mem _ hmem))
      (before ++ writeSection section_) hnext
    simp only [List.flatMap_cons, List.append_assoc] at hreach hlast hreads ⊢
    refine ⟨u, view :: views, .head hround hreach, hlast, ?_, ?_⟩
    · rw [hviews, hview, List.append_assoc, List.singleton_append]
    · rw [List.map_cons, hread, hreads]

theorem mem_writeOrder {sections : List DictionaryFileSection} {section_ : DictionaryFileSection}
    (h : section_ ∈ writeOrder sections) : section_ ∈ sections := by
  unfold writeOrder at h
  split at h
  · simp only [List.mem_cons, List.not_mem_nil, or_false] at h ⊢
    tauto
  · exact h

/-- `ReadSections` on what `WriteSections` wrote succeeds, and finds the names and the images in the
order in which they were written, behind the seed of the writer. -/
theorem readSections_writeSections (writer reader : DictionaryFileCodec) {address : Nat}
    {sections : List DictionaryFileSection} (haligned : address % 4 = 0)
    (hnames : ∀ section_ ∈ sections, section_.name.length = 8)
    (himages : ∀ section_ ∈ sections, section_.image ≠ [])
    (htotal : (sections.map fun section_ => section_.image.length).sum < 2 ^ 31 - 4) :
    ∃ fuel views,
      reader.readSections address (writer.writeSections sections) fuel =
        some (.returned .ok views, { reader with seed := toInt32 (writer.seed % 2 ^ 32).toNat }) ∧
      views.map (·.read (writer.writeSections sections)) = writeOrder sections := by
  have hsections : ∀ section_ ∈ writeOrder sections, WritableSection section_ := by
    intro section_ hmem
    have hmem := mem_writeOrder hmem
    have hle : section_.image.length ≤ (sections.map fun section_ => section_.image.length).sum :=
      List.single_le_sum (fun _ _ => Nat.zero_le _) _ (List.mem_map.mpr ⟨section_, hmem, rfl⟩)
    exact ⟨hnames section_ hmem, himages section_ hmem, by omega⟩
  have hwritten : writer.writeSections sections = writer.writeHeader ++
      ((writeOrder sections).flatMap writeSection ++ writeInt32 0) := by
    rw [writeSections, List.append_assoc]
  have hheader : writer.writeHeader = writeInt32 kFilemagic ++ writeInt32 writer.seed := rfl
  obtain ⟨t, views, hreach, hptr, hviews, hreads⟩ := @loopReaches_flatMap _ hsections
    writer.writeHeader (writeInt32 0) {} rfl
  rw [← hwritten] at hreach hreads
  have hlength : (writer.writeSections sections).length = t.ptr + 4 := by
    rw [hwritten, hptr, ← List.append_assoc, List.length_append, length_writeInt32]
    rfl
  have hmarker : loadInt32 (writer.writeSections sections) t.ptr = some 0 := by
    have hload := loadInt32_writeInt32 0 (writer.writeHeader ++ (writeOrder sections).flatMap writeSection) []
    rw [List.append_nil, List.append_assoc, ← hwritten, ← hptr] at hload
    exact hload
  have hleave : readSection (writer.writeSections sections) t = .inr (.returned .ok views) := by
    rw [readSection, if_neg (by omega), hmarker]
    dsimp only
    rw [if_pos rfl, if_neg (by omega), hviews]
    rfl
  obtain ⟨fuel, hrun⟩ := loop_eq_some_iff.mpr ⟨t, hreach, hleave⟩
  have hmagic : loadInt32 (writer.writeSections sections) 0 = some kFilemagic := by
    have hload := loadInt32_writeInt32 kFilemagic []
      (writeInt32 writer.seed ++ ((writeOrder sections).flatMap writeSection ++ writeInt32 0))
    rw [List.nil_append, ← List.append_assoc, ← hheader, ← hwritten] at hload
    exact hload
  have hseed : loadInt32 (writer.writeSections sections) 4 =
      some (toInt32 (writer.seed % 2 ^ 32).toNat) := by
    have hload := loadInt32_writeInt32 writer.seed (writeInt32 kFilemagic)
      ((writeOrder sections).flatMap writeSection ++ writeInt32 0)
    rw [← List.append_assoc, ← hheader, ← hwritten] at hload
    exact hload
  have hmin : ¬ (writer.writeSections sections).length < 12 := by
    rw [hwritten]
    simp only [List.length_append, length_writeInt32, writeHeader]
    omega
  refine ⟨fuel, views, ?_, hreads⟩
  rw [readSections, if_neg hmin, if_neg (not_not.mpr haligned), hmagic, hseed]
  dsimp only
  rw [if_neg (not_not.mpr rfl), hrun, Option.map_some]

/-- Five bytes, which are padded with three zeros. -/
theorem readSections_writeSections_five :
    (∃ fuel views,
      ({} : DictionaryFileCodec).readSections 0
          (({} : DictionaryFileCodec).writeSections [⟨[1, 2, 3, 4, 5], List.replicate 8 9⟩]) fuel =
        some (.returned .ok views,
          { seed := toInt32 (({} : DictionaryFileCodec).seed % 2 ^ 32).toNat }) ∧
      views.map (·.read (({} : DictionaryFileCodec).writeSections
        [⟨[1, 2, 3, 4, 5], List.replicate 8 9⟩])) = [⟨[1, 2, 3, 4, 5], List.replicate 8 9⟩]) ∧
    toInt32 (({} : DictionaryFileCodec).seed % 2 ^ 32).toNat = 2135654146 :=
  ⟨readSections_writeSections {} {} rfl (by decide) (by decide) (by decide), by decide⟩

end Mozkey.Dictionary
