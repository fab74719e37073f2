import Mozkey.Dictionary.File.Codec

/-! What `ReadSections` returns: for any image when it returns sections of the image only, and for
the image that `WriteSections` writes the sections of it. -/

namespace Mozkey.Dictionary

open Storage Lib

/-- The sections lie in the image, one behind the other. -/
def WithinImage (image : Bytes) (sections : List SectionView) : Prop :=
  (∀ view ∈ sections, 0 ≤ view.offset ∧ view.offset + view.size ≤ image.length) ∧
    sections.Pairwise fun v w : SectionView => v.offset < w.offset ∧ v.offset + v.size ≤ w.offset

def ReadResult.Safe (image : Bytes) : ReadResult → Prop
  | .returned .ok sections => WithinImage image sections
  | .returned _ _ => True
  | .undefined => False

theorem ReadResult.safe_of_ne {image : Bytes} {status : Status} (h : status ≠ .ok)
    (sections : List SectionView) : (ReadResult.returned status sections).Safe image := by
  cases status with
  | ok => exact absurd rfl h
  | failedPrecondition => exact trivial
  | outOfRange => exact trivial

variable {image : Bytes} {s t : ReadState} {p q : Int}

theorem toSizeT_of_nonneg {value : Int} (hnonneg : 0 ≤ value) (hlt : value < 2 ^ 31) :
    (toSizeT value : Int) = value := by
  unfold toSizeT
  omega

theorem toSizeT_of_neg {value : Int} (hneg : value < 0) (hle : -2 ^ 31 ≤ value) :
    2 ^ 63 ≤ toSizeT value := by
  unfold toSizeT
  omega

theorem nextHeader_of_round (h : readSection image s = .inl t) : NextHeader image s.ptr t.ptr := by
  have hround := readSection_round image s
  rw [h] at hround
  cases hround with
  | next hload hne hpad hfit hend _ => exact ⟨_, _, hload, hne, hpad, rfl, hfit, hend⟩

theorem reached_of_loopReaches (h : LoopReaches (readSection image) s t) :
    Relation.ReflTransGen (NextHeader image) s.ptr t.ptr :=
  h.lift ReadState.ptr fun _ _ => nextHeader_of_round

theorem loopReaches_of_reached (h : Relation.ReflTransGen (NextHeader image) s.ptr p) :
    ∃ t, t.ptr = p ∧ LoopReaches (readSection image) s t := by
  induction h with
  | refl => exact ⟨s, rfl, .refl⟩
  | tail _ hnext ih =>
    obtain ⟨t, rfl, hreach⟩ := ih
    obtain ⟨dataSize, padded, hload, hne, hpad, rfl, hfit, hend⟩ := hnext
    obtain ⟨name, -, hround⟩ := (readSection_round image t).goes hload hne hpad hfit hend
    exact ⟨_, rfl, hreach.tail hround⟩

theorem sections_mono (h : LoopReaches (readSection image) s t) : s.sections ⊆ t.sections := by
  induction h with
  | refl => exact fun _ hmem => hmem
  | @tail u v _ hbody ih =>
    intro view hmem
    have hround := readSection_round image u
    rw [hbody] at hround
    cases hround with
    | next => exact List.mem_append_left _ (ih hmem)

def SizesInRange (image : Bytes) : Prop :=
  ∀ p, HeaderReached image p → ∀ dataSize, loadInt32 image p = some dataSize →
    0 ≤ dataSize ∧ dataSize ≤ 2 ^ 31 - 4

/-- With such sizes only, the sections that were read lie one behind the other before the pointer. -/
structure SectionsBefore (image : Bytes) (s : ReadState) : Prop where
  reached : HeaderReached image s.ptr
  start : 8 ≤ s.ptr
  le : s.ptr ≤ image.length
  before : ∀ view ∈ s.sections, 0 ≤ view.offset ∧ view.offset + view.size ≤ s.ptr
  apart : s.sections.Pairwise fun v w : SectionView => v.offset < w.offset ∧ v.offset + v.size ≤ w.offset

theorem SectionsBefore.within (h : SectionsBefore image s) : WithinImage image s.sections := by
  refine ⟨fun view hmem => ?_, h.apart⟩
  have hview := h.before view hmem
  have hle := h.le
  exact ⟨hview.1, by omega⟩

theorem SectionsBefore.round (hsizes : SizesInRange image) (h : SectionsBefore image s)
    (hbody : readSection image s = .inl t) :
    SectionsBefore image t ∧ image.length - t.ptr.toNat < image.length - s.ptr.toNat := by
  have hnext := nextHeader_of_round hbody
  have hround := readSection_round image s
  rw [hbody] at hround
  have hreached := h.reached.tail hnext
  have hstart := h.start
  have hle := h.le
  cases hround with
  | @next dataSize padded name hload hne hpad hfit hend hname =>
    obtain ⟨hnonneg, hmax⟩ := hsizes s.ptr h.reached dataSize hload
    have hpadded := roundUp4_eq_some hpad
    have hsize := toSizeT_of_nonneg hnonneg (by omega)
    refine ⟨⟨hreached, ?_, hend, ?_, ?_⟩, ?_⟩
    · dsimp only
      omega
    · intro view hmem
      dsimp only
      rcases List.mem_append.mp hmem with hold | hnew
      · have hview := h.before view hold
        omega
      · rw [List.mem_singleton.mp hnew, hsize]
        dsimp only
        omega
    · refine List.pairwise_append.mpr ⟨h.apart, List.pairwise_singleton _ _, ?_⟩
      intro v hv w hw
      have hview := h.before v hv
      rw [List.mem_singleton.mp hw]
      dsimp only
      omega
    · dsimp only
      omega

theorem safe_of_sizesInRange (hsizes : SizesInRange image) (hlen : 12 ≤ image.length) :
    ∃ t r, LoopReaches (readSection image) {} t ∧ readSection image t = .inr r ∧ r.Safe image := by
  have hinit : SectionsBefore image {} :=
    ⟨.refl, le_rfl, by dsimp only; omega, fun _ hmem => absurd hmem List.not_mem_nil, .nil⟩
  obtain ⟨t, r, hreach, hinv, hbody⟩ := loop_ends (SectionsBefore image)
    (fun s => image.length - s.ptr.toNat) hinit fun s t hs hst => hs.round hsizes hst
  refine ⟨t, r, hreach, hbody, ?_⟩
  have hround := readSection_round image t
  have hstart := hinv.start
  rw [hbody] at hround
  cases hround with
  | rejected _ hstatus => exact ReadResult.safe_of_ne hstatus _
  | endMarker _ _ => exact hinv.within
  | before hroom hnone =>
    obtain ⟨dataSize, hload⟩ := @loadInt32_isSome image t.ptr (by omega) (by omega)
    rw [hnone] at hload
    cases hload
  | overflow hload _ hnone =>
    obtain ⟨padded, hpad⟩ := roundUp4_isSome (hsizes t.ptr hinv.reached _ hload).2
    rw [hnone] at hpad
    cases hpad
  | behind hload _ hpad hend hfit =>
    have hnonneg := (hsizes t.ptr hinv.reached _ hload).1
    have hpadded := roundUp4_eq_some hpad
    omega

theorem sizesInRange_of_safe (hlen : image.length < 2 ^ 63)
    (hreach : LoopReaches (readSection image) {} t) (hbody : readSection image t = .inr (.returned .ok t.sections))
    (hwithin : WithinImage image t.sections) : SizesInRange image := by
  intro p hp dataSize hload
  obtain ⟨u, rfl, hu⟩ := @loopReaches_of_reached image {} p hp
  have hafter := LoopReaches.to_last hreach hbody hu
  rcases hafter.cases_head with rfl | ⟨v, huv, hvt⟩
  · have hround := readSection_round image u
    rw [hbody] at hround
    cases hround with
    | rejected _ hstatus => exact absurd rfl hstatus
    | endMarker hzero _ =>
      obtain rfl := Option.some.inj (hload.symm.trans hzero)
      exact ⟨le_rfl, by decide⟩
  · have hround := readSection_round image u
    rw [huv] at hround
    cases hround with
    | @next dataSize' padded name hload' _ hpad _ _ _ =>
      obtain rfl := Option.some.inj (hload.symm.trans hload')
      have hbounds := le_of_loadInt32 hload
      have hpadded := roundUp4_eq_some hpad
      refine ⟨?_, by omega⟩
      by_contra hneg
      have hview := hwithin.1 _ (sections_mono hvt (List.mem_append_right _ (List.mem_singleton_self _)))
      have hsize := toSizeT_of_neg (not_le.mp hneg) hbounds.2.2.1
      dsimp only at hview
      omega

theorem loop_safe_iff (hmin : 12 ≤ image.length) (hlen : image.length < 2 ^ 63) :
    (∃ fuel r, loop (readSection image) fuel {} = some r ∧ r.Safe image) ↔
      (∃ p, HeaderReached image p ∧ HeaderRejected image p) ∨ SizesInRange image := by
  have hiff : (∃ fuel r, loop (readSection image) fuel {} = some r ∧ r.Safe image) ↔
      ∃ t r, LoopReaches (readSection image) {} t ∧ readSection image t = .inr r ∧ r.Safe image := by
    constructor
    · rintro ⟨fuel, r, hrun, hsafe⟩
      obtain ⟨t, hreach, hbody⟩ := loop_eq_some_iff.mp ⟨fuel, hrun⟩
      exact ⟨t, r, hreach, hbody, hsafe⟩
    · rintro ⟨t, r, hreach, hbody, hsafe⟩
      obtain ⟨fuel, hrun⟩ := loop_eq_some_iff.mpr ⟨t, hreach, hbody⟩
      exact ⟨fuel, r, hrun, hsafe⟩
  rw [hiff]
  constructor
  · rintro ⟨t, r, hreach, hbody, hsafe⟩
    have hround := readSection_round image t
    rw [hbody] at hround
    cases hround with
    | rejected hrejected _ => exact .inl ⟨t.ptr, reached_of_loopReaches hreach, hrejected⟩
    | endMarker => exact .inr (sizesInRange_of_safe hlen hreach hbody hsafe)
    | before => exact hsafe.elim
    | overflow => exact hsafe.elim
    | behind => exact hsafe.elim
  · rintro (⟨p, hp, hrejected⟩ | hsizes)
    · obtain ⟨t, rfl, hreach⟩ := @loopReaches_of_reached image {} p hp
      obtain ⟨status, hstatus, hbody⟩ := (readSection_round image t).rejects hrejected
      exact ⟨t, _, hreach, hbody, ReadResult.safe_of_ne hstatus _⟩
    · exact safe_of_sizesInRange hsizes hmin

/-- `ReadSections` on an aligned image ends with an error or with sections of the image exactly if it
does not get to the sections, gets to a header for which it returns an error, or gets to no header
with a size below zero or so great that rounding it up overflows. -/
theorem readSections_safe_iff (codec : DictionaryFileCodec) {address : Nat} {image : Bytes}
    (haligned : address % 4 = 0) (hlen : image.length < 2 ^ 63) :
    (∃ fuel r, codec.readSections address image fuel = some r ∧ r.1.Safe image) ↔
      image.length < 12 ∨ loadInt32 image 0 ≠ some kFilemagic ∨
        (∃ p, HeaderReached image p ∧ HeaderRejected image p) ∨
        ∀ p, HeaderReached image p → ∀ dataSize, loadInt32 image p = some dataSize →
          0 ≤ dataSize ∧ dataSize ≤ 2 ^ 31 - 4 := by
  by_cases hmin : image.length < 12
  · have hread : codec.readSections address image 0 = some (.returned (.failedPrecondition
        ("codec.cc: Insufficient data size: " ++ toString image.length ++ " bytes")) [], codec) :=
      if_pos hmin
    exact ⟨fun _ => .inl hmin, fun _ => ⟨0, _, hread, trivial⟩⟩
  obtain ⟨filemagic, hmagic⟩ := @loadInt32_isSome image 0 le_rfl (by omega)
  obtain ⟨seed, hseed⟩ := @loadInt32_isSome image 4 (by decide) (by omega)
  have hread : ∀ fuel, codec.readSections address image fuel =
      if filemagic ≠ kFilemagic then
        some (.returned (.failedPrecondition
          ("codec.cc: Invalid dictionary file magic. Expected: " ++ toString kFilemagic ++
            " Actual: " ++ toString filemagic)) [], codec)
      else (loop (readSection image) fuel {}).map fun r => (r, { codec with seed := seed }) := by
    intro fuel
    rw [DictionaryFileCodec.readSections, if_neg hmin, if_neg (not_not.mpr haligned), hmagic, hseed]
  by_cases heq : filemagic = kFilemagic
  · have hloop := loop_safe_iff (not_lt.mp hmin) hlen
    have hsome : (∃ fuel r, codec.readSections address image fuel = some r ∧ r.1.Safe image) ↔
        ∃ fuel r, loop (readSection image) fuel {} = some r ∧ r.Safe image := by
      simp only [hread, if_neg (not_not.mpr heq), Option.map_eq_some_iff]
      constructor
      · rintro ⟨fuel, _, ⟨r, hrun, rfl⟩, hsafe⟩
        exact ⟨fuel, r, hrun, hsafe⟩
      · rintro ⟨fuel, r, hrun, hsafe⟩
        exact ⟨fuel, _, ⟨r, hrun, rfl⟩, hsafe⟩
    rw [hsome, hloop, hmagic, heq]
    exact ⟨fun h => .inr (.inr h), fun h => by
      rcases h with h | h | h
      · exact absurd h hmin
      · exact absurd rfl h
      · exact h⟩
  · refine ⟨fun _ => .inr (.inl ?_), fun _ => ⟨0, _, (hread 0).trans (if_pos heq), trivial⟩⟩
    rw [hmagic]
    exact fun hsome => heq (Option.some.inj hsome)

/-- The header, a section of size -4, and the end marker. -/
def negativeSizeImage : Bytes :=
  [0x6d, 0xdd, 0x32, 0x01, 0, 0, 0, 0, 0xfc, 0xff, 0xff, 0xff, 0, 0, 0, 0, 0, 0, 0, 0]

theorem readSections_safe_iff_negative :
    ((∃ fuel r, ({} : DictionaryFileCodec).readSections 0 negativeSizeImage fuel = some r ∧
        r.1.Safe negativeSizeImage) ↔
      negativeSizeImage.length < 12 ∨ loadInt32 negativeSizeImage 0 ≠ some kFilemagic ∨
        (∃ p, HeaderReached negativeSizeImage p ∧ HeaderRejected negativeSizeImage p) ∨
        ∀ p, HeaderReached negativeSizeImage p → ∀ dataSize,
          loadInt32 negativeSizeImage p = some dataSize → 0 ≤ dataSize ∧ dataSize ≤ 2 ^ 31 - 4) ∧
    loadInt32 negativeSizeImage 8 = some (-4) :=
  ⟨readSections_safe_iff {} rfl (by decide), by decide⟩

/-- A section of a negative size is returned as one that goes on far behind the image. -/
theorem not_readSections_safe :
    ¬ ∀ (codec : DictionaryFileCodec) (address : Nat) (image : Bytes), address % 4 = 0 →
      image.length < 2 ^ 63 →
      ∃ fuel r, codec.readSections address image fuel = some r ∧ r.1.Safe image := by
  intro hall
  obtain ⟨fuel, r, hrun, hsafe⟩ := hall {} 0 negativeSizeImage rfl (by decide)
  have hresult : r = (.returned .ok [{
      offset := 20, size := 18446744073709551612, name := List.replicate 8 0 }], { seed := 0 }) := by
    rcases fuel with _ | _ | fuel
    · cases hrun
    · cases hrun
    · exact (Option.some.inj hrun).symm
  subst hresult
  have hview := hsafe.1 _ (List.mem_singleton_self _)
  exact absurd hview.2 (by decide)

end Mozkey.Dictionary
