import Mathlib.Data.List.DropRight
import Mozkey.Composer.CharChunkInput
import Mozkey.Composer.CompositionDelete
import Mozkey.Composer.CompositionRuns

/-! What is typed at the end of a composition is added to its raw text. -/

namespace Mozkey.Composer

open Storage Base Session Lib

def rawOf (chunks : List CharChunk) : Bytes := chunks.flatMap CharChunk.raw

@[simp] theorem rawOf_nil : rawOf [] = [] := rfl

@[simp] theorem rawOf_append (l r : List CharChunk) : rawOf (l ++ r) = rawOf l ++ rawOf r :=
  List.flatMap_append

@[simp] theorem rawOf_singleton (chunk : CharChunk) : rawOf [chunk] = chunk.raw := by
  rw [rawOf, List.flatMap_singleton]

namespace Composition

variable (transliterators : Transliterators) (table : Table)

section

variable (composition : Composition) (input : Bytes)

def shownPart : List CharChunk :=
  composition.chunks.rdropWhile fun chunk => chunk.getLength transliterators none = 0

def hiddenPart : List CharChunk :=
  composition.chunks.rtakeWhile fun chunk => chunk.getLength transliterators none = 0

/-- The input is put behind the hidden chunks that show nothing in the input mode either. -/
def chunksBefore : List CharChunk :=
  composition.shownPart transliterators ++
    (composition.hiddenPart transliterators).takeWhile fun chunk =>
      chunk.getLength transliterators (some composition.inputT12r) = 0

def chunksBehind : List CharChunk :=
  (composition.hiddenPart transliterators).dropWhile fun chunk =>
    chunk.getLength transliterators (some composition.inputT12r) = 0

/-- The chunks before the one that takes the input, and that one. -/
def insertionTarget : List CharChunk × CharChunk :=
  let (before, chunk) := composition.getInsertionChunk (composition.chunksBefore transliterators)
  composition.combinePendingChunks table { raw := input } before chunk

/-- The last chunk takes the input with its pending text, unless the pending text of the chunk on its
left is put in front of it. -/
def PendingTakes : Prop :=
  input ≠ [] → ∀ last ∈ (composition.chunksBefore transliterators).getLast?,
    last.isAppendable composition.inputT12r →
      table.LooksUpWithin last.pending input ∨
        ∃ left ∈ (composition.chunksBefore transliterators).dropLast.getLast?,
          left.isConvertible table composition.inputT12r (last.pending ++ input)

/-- The raw text of what stays behind the input goes with it in either order. -/
def OrderKept : Prop :=
  input ++ rawOf (composition.chunksBehind transliterators) =
    rawOf (composition.chunksBehind transliterators) ++ input

/-- The input is inserted at the end, and added to the raw text. -/
def KeepsRaw : Prop :=
  ∃ fuel position composition',
    composition.insertAt transliterators table fuel (composition.getLength transliterators) input =
      some (position, composition') ∧
    rawOf composition'.chunks = rawOf composition.chunks ++ input

end

variable {transliterators table} {composition : Composition} {input : Bytes}

section parts

theorem shownPart_append_hiddenPart : composition.shownPart transliterators ++
    composition.hiddenPart transliterators = composition.chunks :=
  List.rdropWhile_append_rtakeWhile

theorem chunksBefore_append_chunksBehind : composition.chunksBefore transliterators ++
    composition.chunksBehind transliterators = composition.chunks := by
  rw [chunksBefore, chunksBehind, List.append_assoc, List.takeWhile_append_dropWhile,
    shownPart_append_hiddenPart]

theorem maybeSplitChunkAt_getLength :
    composition.maybeSplitChunkAt transliterators (composition.getLength transliterators) =
      (composition.shownPart transliterators, composition.hiddenPart transliterators) := by
  have hhidden : ∀ chunk ∈ composition.hiddenPart transliterators,
      chunk.getLength transliterators none = 0 := by
    intro chunk hchunk
    simpa using List.mem_rtakeWhile_imp hchunk
  have hlast : ∀ last ∈ (composition.shownPart transliterators).getLast?,
      0 < last.getLength transliterators none := by
    intro last hlast
    obtain ⟨hne, rfl⟩ := List.mem_getLast?_eq_getLast hlast
    have hnot := List.rdropWhile_last_not _ _ hne
    rw [decide_eq_true_eq] at hnot
    exact Nat.pos_of_ne_zero hnot
  have hlength : lengthOf transliterators none (composition.shownPart transliterators) =
      composition.getLength transliterators := by
    rw [getLength, ← shownPart_append_hiddenPart, lengthOf_append, lengthOf_invisible hhidden,
      Nat.add_zero]
  rw [← hlength]
  exact maybeSplitChunkAt_of_boundary shownPart_append_hiddenPart.symm hlast

theorem insertAt_eq (hinput : input ≠ []) (fuel : Nat) :
    composition.insertAt transliterators table fuel (composition.getLength transliterators) input =
      (composition.insertInputLoop table fuel { raw := input }
        (composition.insertionTarget transliterators table input).1
        (composition.insertionTarget transliterators table input).2).map fun r =>
          (lengthOf transliterators none (if r.2.isEmpty then r.1 else r.1 ++ [r.2]),
            { composition with
              chunks := (if r.2.isEmpty then r.1 else r.1 ++ [r.2]) ++
                composition.chunksBehind transliterators }) := by
  rw [insertAt, insertInput, if_neg fun h => hinput h.1, maybeSplitChunkAt_getLength]
  dsimp only
  rw [insertionTarget, ← chunksBefore, ← chunksBehind]
  dsimp only
  cases composition.insertInputLoop table fuel _ _ _ <;> rfl

end parts

section target

theorem isConvertible_iff {left : CharChunk} {t12r : Transliterator} {next : Bytes} :
    left.isConvertible table t12r next = true ↔ left.isAppendable t12r = true ∧
      ∃ entry, table.lookUpPrefix (left.pending ++ next) =
        (some entry, (left.pending ++ next).length, true) := by
  rw [CharChunk.isConvertible, Bool.and_eq_true]
  apply and_congr_right
  intro _
  rcases table.lookUpPrefix (left.pending ++ next) with ⟨_ | entry, used, fixed⟩
  · refine iff_of_false Bool.false_ne_true ?_
    rintro ⟨entry, hentry⟩
    cases hentry
  · dsimp only
    rw [Bool.and_eq_true, decide_eq_true_eq]
    constructor
    · rintro ⟨hlength, hfixed⟩
      exact ⟨entry, by rw [hlength, hfixed]⟩
    · rintro ⟨entry', hentry⟩
      cases hentry
      exact ⟨rfl, rfl⟩

theorem combine_within {left chunk : CharChunk} {t12r : Transliterator}
    (h : left.isConvertible table t12r (chunk.pending ++ input) = true) :
    table.LooksUpWithin (chunk.combine left).pending input := by
  obtain ⟨-, entry, hentry⟩ := isConvertible_iff.mp h
  change table.LooksUpWithin (left.pending ++ chunk.pending) input
  rw [← List.append_assoc] at hentry
  intro _ _
  rw [hentry]
  dsimp only
  rw [@List.length_append _ (left.pending ++ chunk.pending)]
  exact Nat.le_add_right _ _

theorem combineLoop_within {lefts : List CharChunk} {chunk : CharChunk}
    (h : table.LooksUpWithin chunk.pending input) :
    table.LooksUpWithin (combinePendingChunksLoop composition table input lefts chunk).2.pending
      input := by
  induction lefts generalizing chunk with
  | nil => exact h
  | cons left lefts ih =>
    rw [combinePendingChunksLoop]
    split
    · rename_i hconvertible
      exact ih (combine_within hconvertible)
    · exact h

theorem combineLoop_within_iff {before : List CharChunk} {chunk : CharChunk} :
    table.LooksUpWithin
        (combinePendingChunksLoop composition table input before.reverse chunk).2.pending input ↔
      table.LooksUpWithin chunk.pending input ∨
        ∃ left ∈ before.getLast?,
          left.isConvertible table composition.inputT12r (chunk.pending ++ input) = true := by
  cases hleft : before.getLast? with
  | none =>
    rw [List.getLast?_eq_none_iff.mp hleft]
    refine ⟨.inl, fun h => h.resolve_right ?_⟩
    rintro ⟨left, ⟨⟩, -⟩
  | some left =>
    obtain ⟨before, rfl⟩ := List.getLast?_eq_some_iff.mp hleft
    rw [List.reverse_append, List.reverse_singleton, List.singleton_append, combinePendingChunksLoop]
    by_cases hconvertible :
        left.isConvertible table composition.inputT12r (chunk.pending ++ input) = true
    · rw [if_pos hconvertible]
      exact iff_of_true (combineLoop_within (combine_within hconvertible))
        (.inr ⟨left, rfl, hconvertible⟩)
    · rw [if_neg hconvertible]
      refine ⟨.inl, fun h => h.resolve_right ?_⟩
      rintro ⟨_, ⟨⟩, h⟩
      exact hconvertible h

theorem combineLoop_raw {lefts : List CharChunk} {chunk : CharChunk} {next : Bytes} :
    rawOf (combinePendingChunksLoop composition table next lefts chunk).1.reverse ++
      (combinePendingChunksLoop composition table next lefts chunk).2.raw =
        rawOf lefts.reverse ++ chunk.raw := by
  induction lefts generalizing chunk with
  | nil => rfl
  | cons left lefts ih =>
    rw [combinePendingChunksLoop]
    split
    · rw [ih, List.reverse_cons, rawOf_append, rawOf_singleton, List.append_assoc]
      rfl
    · rfl

def TakesMore (chunk : CharChunk) : Prop := chunk.isEmpty = true ∨ chunk.pending ≠ []

theorem combineLoop_takesMore {lefts : List CharChunk} {chunk : CharChunk} {next : Bytes}
    (h : TakesMore chunk) :
    TakesMore (combinePendingChunksLoop composition table next lefts chunk).2 := by
  induction lefts generalizing chunk with
  | nil => exact h
  | cons left lefts ih =>
    rw [combinePendingChunksLoop]
    split
    · rename_i hconvertible
      have happendable := (isConvertible_iff.mp hconvertible).1
      rw [CharChunk.isAppendable, decide_eq_true_eq] at happendable
      exact ih (.inr (List.append_ne_nil_of_left_ne_nil happendable.1 _))
    · exact h

theorem takesMore_fresh (t12r : Transliterator) : TakesMore { transliterator := t12r } := .inl rfl

theorem insertionTarget_eq : composition.insertionTarget transliterators table input =
    (fun r : List CharChunk × CharChunk => (r.1.reverse, r.2))
      (combinePendingChunksLoop composition table input
        (composition.getInsertionChunk (composition.chunksBefore transliterators)).1.reverse
        (composition.getInsertionChunk (composition.chunksBefore transliterators)).2) := by
  rw [insertionTarget]
  rfl

theorem getInsertionChunk_raw {left : List CharChunk} :
    rawOf (composition.getInsertionChunk left).1 ++ (composition.getInsertionChunk left).2.raw =
      rawOf left := by
  rw [getInsertionChunk]
  split
  · rename_i hnone
    rw [List.getLast?_eq_none_iff.mp hnone]
    rfl
  · rename_i last hlast
    split
    · obtain ⟨before, rfl⟩ := List.getLast?_eq_some_iff.mp hlast
      rw [List.dropLast_concat, rawOf_append, rawOf_singleton]
    · exact List.append_nil _

theorem getInsertionChunk_takesMore {left : List CharChunk} :
    TakesMore (composition.getInsertionChunk left).2 := by
  rw [getInsertionChunk]
  split
  · exact takesMore_fresh _
  · split
    · rename_i happendable
      rw [CharChunk.isAppendable, decide_eq_true_eq] at happendable
      exact .inr happendable.1
    · exact takesMore_fresh _

theorem insertionTarget_raw : rawOf (composition.insertionTarget transliterators table input).1 ++
    (composition.insertionTarget transliterators table input).2.raw =
      rawOf (composition.chunksBefore transliterators) := by
  rw [insertionTarget_eq]
  dsimp only
  rw [combineLoop_raw, List.reverse_reverse, getInsertionChunk_raw]

theorem insertionTarget_takesMore :
    TakesMore (composition.insertionTarget transliterators table input).2 := by
  rw [insertionTarget_eq]
  exact combineLoop_takesMore getInsertionChunk_takesMore

theorem looksUpWithin_nil (input : Bytes) : table.LooksUpWithin [] input := fun _ _ => Nat.zero_le _

theorem pendingTakes_iff (hinput : input ≠ []) :
    composition.PendingTakes transliterators table input ↔
      table.LooksUpWithin (composition.insertionTarget transliterators table input).2.pending
        input := by
  rw [insertionTarget_eq, PendingTakes]
  dsimp only
  cases hlast : (composition.chunksBefore transliterators).getLast? with
  | none =>
    refine iff_of_true (fun _ => nofun) (combineLoop_within ?_)
    rw [getInsertionChunk, hlast]
    exact looksUpWithin_nil input
  | some last =>
    rw [getInsertionChunk, hlast]
    dsimp only
    by_cases happendable : last.isAppendable composition.inputT12r = true
    · rw [if_pos happendable, combineLoop_within_iff]
      refine ⟨fun h => h hinput last rfl happendable, ?_⟩
      rintro h - _ ⟨⟩ -
      exact h
    · rw [if_neg happendable]
      refine iff_of_true ?_ (combineLoop_within (looksUpWithin_nil input))
      rintro - _ ⟨⟩ h
      exact absurd h happendable

end target

section loop

variable {fuel : Nat} {before before' : List CharChunk} {chunk chunk' : CharChunk}

theorem shouldInsertNewChunk_eq_false (h : TakesMore chunk) (input : Bytes) :
    CharChunk.shouldInsertNewChunk table chunk { raw := input } = false := by
  rw [CharChunk.shouldInsertNewChunk]
  rcases h with hempty | hpending
  · rw [hempty]
    rfl
  · simp [hpending]

theorem addCompositionInput_eq
    (h : CharChunk.shouldInsertNewChunk table chunk { raw := input } = false) :
    chunk.addCompositionInput table fuel { raw := input } =
      (CharChunk.addInput table fuel input chunk).map fun r => ({ raw := r.1 }, r.2) := by
  rw [CharChunk.addCompositionInput, if_neg (not_not.mpr rfl), h, if_neg Bool.false_ne_true]

theorem addCompositionInput_raw (htable : table.SinglePending) (hchunk : chunk.Transliterated)
    {next : CompositionInput} (hspecial : NoSpecialKeys (chunk.raw ++ input))
    (h : chunk.addCompositionInput table fuel { raw := input } = some (next, chunk')) :
    ∃ rest, next = { raw := rest } ∧ chunk'.raw ++ rest = chunk.raw ++ input := by
  by_cases hnew : CharChunk.shouldInsertNewChunk table chunk { raw := input } = true
  · rw [CharChunk.addCompositionInput, if_neg (not_not.mpr rfl), if_pos hnew] at h
    cases h
    exact ⟨input, rfl, rfl⟩
  · rw [addCompositionInput_eq (Bool.eq_false_of_not_eq_true hnew)] at h
    obtain ⟨⟨rest, chunk''⟩, hadd, hr⟩ := Option.map_eq_some_iff.mp h
    cases hr
    exact ⟨rest, rfl, CharChunk.addInput_raw htable hchunk hspecial hadd⟩

theorem transliterated_fresh (t12r : Transliterator) :
    CharChunk.Transliterated { transliterator := t12r } :=
  ⟨CharChunk.not_noTransliteration, CharChunk.not_noTransliteration⟩

theorem insertInputLoop_raw (htable : table.SinglePending) (hchunk : chunk.Transliterated)
    (hspecial : NoSpecialKeys (chunk.raw ++ input))
    (h : composition.insertInputLoop table fuel { raw := input } before chunk =
      some (before', chunk')) :
    rawOf before' ++ chunk'.raw = rawOf before ++ (chunk.raw ++ input) := by
  induction fuel generalizing input before chunk with
  | zero => cases h
  | succ fuel ih =>
    rw [insertInputLoop] at h
    obtain ⟨⟨next, nextChunk⟩, hadd, hloop⟩ := Option.bind_eq_some_iff.mp h
    obtain ⟨rest, rfl, hraw⟩ := addCompositionInput_raw htable hchunk hspecial hadd
    dsimp only at hloop
    rw [← hraw] at hspecial ⊢
    split at hloop
    · rename_i hend
      cases hloop
      rw [hend.1, List.append_nil]
    · rw [ih (transliterated_fresh _) (hspecial.suffix (List.suffix_append _ _)) hloop, rawOf_append,
        rawOf_singleton, List.nil_append, List.append_assoc]

theorem insertInputLoop_of_step {m : Nat} {rest : Bytes} {r : List CharChunk × CharChunk}
    (hadd : ∀ fuel, m ≤ fuel →
      chunk.addCompositionInput table fuel { raw := input } = some ({ raw := rest }, chunk'))
    (hend : rest = [] → r = (before, chunk'))
    (hrest : rest ≠ [] → ∀ fuel, m ≤ fuel →
      composition.insertInputLoop table fuel { raw := rest } (before ++ [chunk'])
        { transliterator := composition.inputT12r } = some r) :
    ∀ fuel, m + 1 ≤ fuel →
      composition.insertInputLoop table fuel { raw := input } before chunk = some r := by
  intro fuel hfuel
  obtain ⟨fuel, rfl⟩ : ∃ n, fuel = n + 1 := ⟨fuel - 1, by omega⟩
  have hle : m ≤ fuel := by omega
  rw [insertInputLoop, hadd fuel hle, Option.bind_eq_bind, Option.bind_some]
  dsimp only
  by_cases hnil : rest = []
  · rw [if_pos ⟨hnil, rfl⟩, hend hnil]
  · rw [if_neg fun h => hnil h.1]
    exact hrest hnil fuel hle

theorem insertInputLoop_round (htable : table.SinglePending)
    (hacyclic : ∀ c, ¬ Relation.TransGen table.LeadsTo c c) (hchunk : chunk.Transliterated)
    (hmore : TakesMore chunk) (hspecial : NoSpecialKeys (chunk.raw ++ input))
    (hwithin : table.LooksUpWithin chunk.pending input) :
    ∃ m rest chunk', (∀ fuel, m ≤ fuel →
        chunk.addCompositionInput table fuel { raw := input } = some ({ raw := rest }, chunk')) ∧
      chunk'.raw ++ rest = chunk.raw ++ input ∧ (chunk.Takes input → chunk'.raw ≠ []) := by
  obtain ⟨m, ⟨rest, chunk'⟩, hadd⟩ := CharChunk.addInput_ends htable hacyclic hchunk
    (hspecial.suffix (List.suffix_append _ _)) hwithin
  have hlast := hadd m (Nat.le_refl m)
  refine ⟨m, rest, chunk', fun fuel hfuel => ?_,
    CharChunk.addInput_raw htable hchunk hspecial hlast,
    fun htakes => CharChunk.addInput_takes htable hchunk hspecial htakes hlast⟩
  rw [addCompositionInput_eq (shouldInsertNewChunk_eq_false hmore input), hadd fuel hfuel]
  rfl

theorem insertInputLoop_fresh_ends (htable : table.SinglePending)
    (hacyclic : ∀ c, ¬ Relation.TransGen table.LeadsTo c c) (composition : Composition)
    (hne : input ≠ []) (hspecial : NoSpecialKeys input) (before : List CharChunk) :
    ∃ m r, ∀ fuel, m ≤ fuel → composition.insertInputLoop table fuel { raw := input } before
      { transliterator := composition.inputT12r } = some r := by
  induction hn : input.length using Nat.strong_induction_on generalizing input before with
  | _ n ih =>
    obtain ⟨m, rest, chunk, hadd, hraw, htakes⟩ := insertInputLoop_round htable hacyclic
      (transliterated_fresh composition.inputT12r) (takesMore_fresh _) hspecial (looksUpWithin_nil _)
    by_cases hrest : rest = []
    · exact ⟨m + 1, (before, chunk),
        insertInputLoop_of_step hadd (fun _ => rfl) fun hnot => absurd hrest hnot⟩
    have hlength := congrArg List.length hraw
    have hpos := List.length_pos_iff.mpr (htakes (.inr ⟨rfl, hne⟩))
    rw [List.nil_append, List.length_append] at hlength
    have hsuffix : NoSpecialKeys rest := hspecial.suffix ⟨chunk.raw, hraw⟩
    obtain ⟨m', r, hends⟩ := ih rest.length (by omega) hrest hsuffix (before ++ [chunk]) rfl
    refine ⟨max m m' + 1, r, insertInputLoop_of_step (fun fuel hfuel => hadd fuel (by omega))
      (fun hnil => absurd hnil hrest) fun _ fuel hfuel => hends fuel (by omega)⟩

theorem insertInputLoop_ends (htable : table.SinglePending)
    (hacyclic : ∀ c, ¬ Relation.TransGen table.LeadsTo c c) (composition : Composition)
    (hchunk : chunk.Transliterated) (hmore : TakesMore chunk)
    (hspecial : NoSpecialKeys (chunk.raw ++ input))
    (hwithin : table.LooksUpWithin chunk.pending input) (before : List CharChunk) :
    ∃ m r, ∀ fuel, m ≤ fuel →
      composition.insertInputLoop table fuel { raw := input } before chunk = some r := by
  obtain ⟨m, rest, chunk', hadd, hraw, -⟩ :=
    insertInputLoop_round htable hacyclic hchunk hmore hspecial hwithin
  by_cases hrest : rest = []
  · exact ⟨m + 1, (before, chunk'),
      insertInputLoop_of_step hadd (fun _ => rfl) fun hnot => absurd hrest hnot⟩
  have hsuffix : NoSpecialKeys rest := by
    rw [← hraw] at hspecial
    exact hspecial.suffix (List.suffix_append _ _)
  obtain ⟨m', r, hends⟩ := insertInputLoop_fresh_ends htable hacyclic composition hrest hsuffix
    (before ++ [chunk'])
  exact ⟨max m m' + 1, r, insertInputLoop_of_step (fun fuel hfuel => hadd fuel (by omega))
    (fun hnil => absurd hnil hrest) fun _ fuel hfuel => hends fuel (by omega)⟩

theorem insertInputLoop_none (hmore : TakesMore chunk)
    (hwithin : ¬ table.LooksUpWithin chunk.pending input) (fuel : Nat) (before : List CharChunk) :
    composition.insertInputLoop table fuel { raw := input } before chunk = none := by
  cases fuel with
  | zero => rfl
  | succ fuel =>
    rw [insertInputLoop, addCompositionInput_eq (shouldInsertNewChunk_eq_false hmore input),
      CharChunk.addInput_none hwithin]
    rfl

end loop

section runs

theorem addInputAndConvertedChar_transliterated (htable : table.SinglePending) {chunk : CharChunk}
    (hchunk : chunk.Transliterated) (next : CompositionInput) :
    (CharChunk.addInputAndConvertedChar table chunk next).2.Transliterated := by
  rw [CharChunk.addInputAndConvertedChar]
  dsimp only
  split
  · split
    · exact ⟨hchunk.attributes, hchunk.fallback⟩
    · exact hchunk
  split
  · refine ⟨?_, hchunk.fallback⟩
    rw [CharChunk.takeConverted]
    dsimp only
    split
    · rename_i entry hentry
      exact htable.attributes entry (Trie.mem_allData_of_lookUp hentry)
    · exact hchunk.attributes
  split
  · exact hchunk
  · split
    · dsimp only
      split <;> exact ⟨hchunk.attributes, hchunk.fallback⟩
    split
    · exact hchunk
    · exact ⟨hchunk.attributes, hchunk.fallback⟩

theorem transliterated_invariant (htable : table.SinglePending) (transliterators : Transliterators) :
    ChunkInvariant transliterators table CharChunk.Transliterated where
  fresh := transliterated_fresh
  add fuel chunk next r hchunk h := by
    rw [CharChunk.addCompositionInput] at h
    split at h
    · cases h
      exact addInputAndConvertedChar_transliterated htable hchunk next
    split at h
    · cases h
      exact hchunk
    · obtain ⟨⟨rest, chunk'⟩, hadd, rfl⟩ := Option.map_eq_some_iff.mp h
      exact CharChunk.addInput_transliterated htable hchunk hadd
  combine chunk left hchunk _ := ⟨hchunk.attributes, hchunk.fallback⟩
  split chunk t12r position parts hchunk h := by
    have hleft : ∀ raw conversion pending, CharChunk.Transliterated
        { transliterator := chunk.transliterator, raw, conversion, pending } :=
      fun _ _ _ => ⟨CharChunk.not_noTransliteration, CharChunk.not_noTransliteration⟩
    rw [CharChunk.splitChunk] at h
    split at h
    · cases h
    dsimp only at h
    split at h
    · cases h
      exact ⟨hleft _ _ _, hchunk.attributes, hchunk.fallback⟩
    · cases h
      exact ⟨hleft _ _ _, hchunk.attributes, hchunk.fallback⟩
  setTransliterator chunk t12r hchunk := ⟨hchunk.attributes, hchunk.fallback⟩

theorem insertionTarget_transliterated (htable : table.SinglePending)
    (hchunks : ∀ chunk ∈ composition.chunks, chunk.Transliterated) (input : Bytes) :
    (composition.insertionTarget transliterators table input).2.Transliterated := by
  have hinvariant := transliterated_invariant htable transliterators
  have hbefore : ∀ chunk ∈ composition.chunksBefore transliterators, chunk.Transliterated := by
    intro chunk hchunk
    apply hchunks
    rw [← chunksBefore_append_chunksBehind]
    exact List.mem_append_left _ hchunk
  obtain ⟨hleft, hlast⟩ := hinvariant.getInsertionChunk composition hbefore
  exact (hinvariant.combinePendingChunks composition { raw := input } hleft hlast).2

theorem insertionTarget_noSpecialKeys
    (hspecial : NoSpecialKeys (rawOf (composition.chunksBefore transliterators) ++ input)) :
    NoSpecialKeys ((composition.insertionTarget transliterators table input).2.raw ++ input) := by
  rw [← @insertionTarget_raw transliterators table composition input, List.append_assoc] at hspecial
  exact hspecial.suffix (List.suffix_append _ _)

theorem insertAt_raw (htable : table.SinglePending)
    (hchunks : ∀ chunk ∈ composition.chunks, chunk.Transliterated)
    (hspecial : NoSpecialKeys (rawOf (composition.chunksBefore transliterators) ++ input))
    {fuel position : Nat} {composition' : Composition}
    (h : composition.insertAt transliterators table fuel (composition.getLength transliterators) input =
      some (position, composition')) :
    rawOf composition'.chunks = rawOf (composition.chunksBefore transliterators) ++ (input ++
      rawOf (composition.chunksBehind transliterators)) := by
  by_cases hinput : input = []
  · rw [insertAt, insertInput, if_pos ⟨hinput, rfl⟩] at h
    cases h
    rw [hinput, List.nil_append, ← rawOf_append, chunksBefore_append_chunksBehind]
  rw [insertAt_eq hinput] at h
  obtain ⟨⟨before, chunk⟩, hloop, hr⟩ := Option.map_eq_some_iff.mp h
  cases hr
  have hraw := insertInputLoop_raw htable (insertionTarget_transliterated htable hchunks input)
    (insertionTarget_noSpecialKeys hspecial) hloop
  rw [← List.append_assoc, insertionTarget_raw] at hraw
  have hleft : rawOf (if chunk.isEmpty then before else before ++ [chunk]) =
      rawOf before ++ chunk.raw := by
    split
    · rename_i hempty
      rw [CharChunk.isEmpty, decide_eq_true_eq] at hempty
      rw [hempty.1, List.append_nil]
    · rw [rawOf_append, rawOf_singleton]
  dsimp only
  rw [rawOf_append, hleft, hraw, List.append_assoc]

theorem insertAt_ends (htable : table.SinglePending)
    (hacyclic : ∀ c, ¬ Relation.TransGen table.LeadsTo c c)
    (hchunks : ∀ chunk ∈ composition.chunks, chunk.Transliterated)
    (hspecial : NoSpecialKeys (rawOf (composition.chunksBefore transliterators) ++ input))
    (hpending : composition.PendingTakes transliterators table input) :
    ∃ fuel, (composition.insertAt transliterators table fuel (composition.getLength transliterators)
      input).isSome := by
  by_cases hinput : input = []
  · refine ⟨0, ?_⟩
    rw [insertAt, insertInput, if_pos ⟨hinput, rfl⟩]
    rfl
  obtain ⟨m, r, hends⟩ := insertInputLoop_ends htable hacyclic composition
    (insertionTarget_transliterated htable hchunks input) insertionTarget_takesMore
    (insertionTarget_noSpecialKeys hspecial) ((pendingTakes_iff hinput).mp hpending)
    (composition.insertionTarget transliterators table input).1
  refine ⟨m, ?_⟩
  rw [insertAt_eq hinput, hends m (Nat.le_refl m)]
  rfl

theorem insertAt_none (hinput : input ≠ [])
    (hpending : ¬ composition.PendingTakes transliterators table input) (fuel : Nat) :
    composition.insertAt transliterators table fuel (composition.getLength transliterators) input =
      none := by
  rw [pendingTakes_iff hinput] at hpending
  rw [insertAt_eq hinput, insertInputLoop_none insertionTarget_takesMore hpending]
  rfl

theorem KeepsRaw.orderKept (htable : table.SinglePending)
    (hchunks : ∀ chunk ∈ composition.chunks, chunk.Transliterated)
    (hspecial : NoSpecialKeys (rawOf (composition.chunksBefore transliterators) ++ input))
    (h : composition.KeepsRaw transliterators table input) :
    composition.OrderKept transliterators input := by
  obtain ⟨fuel, position, composition', hinsert, hraw⟩ := h
  rw [insertAt_raw htable hchunks hspecial hinsert, ← @chunksBefore_append_chunksBehind
    transliterators composition, rawOf_append, List.append_assoc] at hraw
  exact List.append_cancel_left hraw

/-- In every composition that is reached, what is typed at the end is added to the raw text exactly if
the last chunk takes it with its pending text, and no hidden chunk stays behind it. -/
theorem keepsRaw_iff (htable : table.SinglePending)
    (hacyclic : ∀ c, ¬ Relation.TransGen table.LeadsTo c c) {fuel : Nat} {inputT12r : Transliterator}
    {events : List Event}
    (hrun : Run (step transliterators table fuel) (fun _ _ => True) { inputT12r := inputT12r } events
      composition)
    (hspecial : NoSpecialKeys (rawOf (composition.chunksBefore transliterators) ++ input)) :
    composition.KeepsRaw transliterators table input ↔
      composition.PendingTakes transliterators table input ∧
        composition.OrderKept transliterators input := by
  have hchunks := (transliterated_invariant htable transliterators).run hrun
  constructor
  · intro hkeeps
    refine ⟨fun hinput => ?_, hkeeps.orderKept htable hchunks hspecial⟩
    by_contra hnot
    have hpending : ¬ composition.PendingTakes transliterators table input := fun h => hnot (h hinput)
    obtain ⟨fuel', position, composition', hinsert, -⟩ := hkeeps
    rw [insertAt_none hinput hpending] at hinsert
    cases hinsert
  · rintro ⟨hpending, horder⟩
    obtain ⟨fuel', hsome⟩ := insertAt_ends htable hacyclic hchunks hspecial hpending
    obtain ⟨⟨position, composition'⟩, hinsert⟩ := Option.isSome_iff_exists.mp hsome
    refine ⟨fuel', position, composition', hinsert, ?_⟩
    rw [insertAt_raw htable hchunks hspecial hinsert, horder, ← List.append_assoc, ← rawOf_append,
      chunksBefore_append_chunksBehind]

theorem doubledTable_singlePending : CharChunk.doubledTable.SinglePending := by
  have hdata : CharChunk.doubledTable.entries.allData =
      [{ input := utf8 ['k', 'k'], result := utf8 ['x'], pending := utf8 ['k'], attributes := 0 }] := by
    decide +kernel
  refine ⟨by decide +kernel, ?_, ?_⟩
  · intro entry hentry
    rw [hdata] at hentry
    exact .inr ⟨'k', by rw [List.mem_singleton.mp hentry]⟩
  · intro entry hentry
    rw [hdata] at hentry
    rw [List.mem_singleton.mp hentry]
    decide

theorem doubledTable_acyclic (c : Char) : ¬ Relation.TransGen CharChunk.doubledTable.LeadsTo c c := by
  intro h
  obtain ⟨c', ⟨entry, hentry, -⟩, -⟩ := Relation.TransGen.head'_iff.mp h
  rw [Table.lookUp, Table.normalized_utf8, Trie.lookUp_eq, CharChunk.doubledTable_get,
    if_neg (by simp)] at hentry
  cases hentry

/-- One `k` typed. -/
def typedK : Composition where
  inputT12r := .hiragana
  chunks := [{ transliterator := .hiragana, raw := utf8 ['k'], pending := utf8 ['k'] }]

theorem keepsRaw_iff_doubled : ∃ composition, Run
    (step plainUtil.transliterators CharChunk.doubledTable 3) (fun _ _ => True)
      { inputT12r := .hiragana } [.insertInput 0 { raw := utf8 ['k'] }] composition ∧
    composition.KeepsRaw plainUtil.transliterators CharChunk.doubledTable (utf8 ['k']) := by
  have hstep : step plainUtil.transliterators CharChunk.doubledTable 3
      { inputT12r := .hiragana } (.insertInput 0 { raw := utf8 ['k'] }) = some typedK := by
    decide +kernel
  have hrun : Run (step plainUtil.transliterators CharChunk.doubledTable 3) (fun _ _ => True)
      { inputT12r := .hiragana } [.insertInput 0 { raw := utf8 ['k'] }] typedK :=
    Run.nil.snoc trivial hstep
  have hraw : rawOf (typedK.chunksBefore plainUtil.transliterators) ++ utf8 ['k'] =
      utf8 ['k', 'k'] := by
    decide +kernel
  have hlast : (typedK.chunksBefore plainUtil.transliterators).getLast? = typedK.chunks[0]? := by
    decide +kernel
  have hspecial := @noSpecialKeys_utf8 ['k', 'k'] (by
    simp [isSpecialKey, kSpecialKeyBegin, kSpecialKeyOpen])
  refine ⟨typedK, hrun,
    (keepsRaw_iff doubledTable_singlePending doubledTable_acyclic hrun (hraw ▸ hspecial)).mpr ⟨?_, ?_⟩⟩
  · rw [PendingTakes, hlast]
    rintro - _ ⟨⟩ -
    left
    intro entry _
    decide +kernel
  · rw [OrderKept]
    decide +kernel

/-- A chunk without converted text is hidden until the input mode shows what was typed, and what is typed
then comes before it. -/
theorem not_keepsRaw : ¬ ∀ util : JapaneseUtil, ∀ fuel text table,
    loadFromString fuel text = some table → table.SinglePending →
    ∀ fuel inputT12r events composition,
      Run (step util.transliterators table fuel) (fun _ _ => True) { inputT12r := inputT12r } events
        composition →
      ∀ cs, NoSpecialKeys (utf8 cs) → composition.KeepsRaw util.transliterators table (utf8 cs) := by
  intro h
  have hload : (loadFromString 3 (utf8 ['a', '\t'])).any fun table =>
      (table.lookUp [] = none && table.entries.allData.all fun entry =>
        entry.pending = [] && !hasAttribute entry.attributes NO_TRANSLITERATION) &&
      (step plainUtil.transliterators table 3 { inputT12r := .hiragana }
        (.insertInput 0 { raw := utf8 ['a'] })).any fun composition =>
          (composition.setInputMode .halfAscii).chunksBefore plainUtil.transliterators = [] &&
          rawOf ((composition.setInputMode .halfAscii).chunksBehind plainUtil.transliterators) =
            utf8 ['a'] := by
    decide +kernel
  obtain ⟨table, htable, hrest⟩ := (Option.any_eq_true _ _).mp hload
  simp only [Bool.and_eq_true, decide_eq_true_eq, List.all_eq_true, Bool.not_eq_true'] at hrest
  obtain ⟨⟨hinput, hrules⟩, hinsert⟩ := hrest
  obtain ⟨composition, hstep, hparts⟩ := (Option.any_eq_true _ _).mp hinsert
  simp only [Bool.and_eq_true, decide_eq_true_eq] at hparts
  obtain ⟨hbefore, hbehind⟩ := hparts
  have hsingle : table.SinglePending :=
    ⟨hinput, fun entry hentry => .inl (hrules entry hentry).1, fun entry hentry => (hrules entry hentry).2⟩
  have hrun : Run (step plainUtil.transliterators table 3) (fun _ _ => True)
      { inputT12r := .hiragana } [.insertInput 0 { raw := utf8 ['a'] }, .setInputMode .halfAscii]
      (composition.setInputMode .halfAscii) :=
    (Run.nil.snoc trivial hstep).snoc trivial rfl
  have hspecial := @noSpecialKeys_utf8 ['b'] (by
    simp [isSpecialKey, kSpecialKeyBegin, kSpecialKeyOpen])
  have hkeeps := h plainUtil 3 _ table htable hsingle 3 .hiragana _ _ hrun ['b'] hspecial
  have horder := hkeeps.orderKept hsingle ((transliterated_invariant hsingle _).run hrun)
    (by rw [hbefore]; exact hspecial)
  rw [OrderKept, hbehind] at horder
  exact absurd horder (by decide)

end runs

end Composition

end Mozkey.Composer
