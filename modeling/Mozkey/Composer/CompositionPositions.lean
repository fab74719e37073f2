import Mozkey.Composer.Composition

/-! The positions of a composition in its different transliterations, and the raw text between
them. -/

namespace Mozkey.Composer

open Storage Base Session

namespace Composition

section positions

variable {transliterators : Transliterators} {t12rFrom t12rTo : Option Transliterator}
  {chunks : List CharChunk}

def convertWithin (lengthFrom lengthTo inner : Nat) : Nat :=
  if inner = 0 then 0
  else if inner = lengthFrom then lengthTo
  else if lengthTo < inner then lengthTo
  else inner

theorem convertWithin_zero (lengthFrom lengthTo : Nat) : convertWithin lengthFrom lengthTo 0 = 0 :=
  if_pos rfl

theorem convertWithin_le (lengthFrom lengthTo inner : Nat) :
    convertWithin lengthFrom lengthTo inner ≤ lengthTo := by
  rw [convertWithin]
  split_ifs <;> omega

theorem convertWithin_mono {lengthFrom lengthTo p q : Nat} (hpq : p ≤ q) (hq : q ≤ lengthFrom) :
    convertWithin lengthFrom lengthTo p ≤ convertWithin lengthFrom lengthTo q := by
  rw [convertWithin, convertWithin]
  split_ifs <;> omega

variable (transliterators t12rFrom t12rTo) in
def convertLoop : List CharChunk → Nat → Nat
  | [], _ => 0
  | chunk :: chunks, position =>
    let lengthFrom := chunk.getLength transliterators t12rFrom
    let lengthTo := chunk.getLength transliterators t12rTo
    if position ≤ lengthFrom then convertWithin lengthFrom lengthTo position
    else if chunks = [] then convertWithin lengthFrom lengthTo lengthFrom
    else lengthTo + convertLoop chunks (position - lengthFrom)

@[simp] theorem lengthOf_nil (t12r : Option Transliterator) : lengthOf transliterators t12r [] = 0 := rfl

theorem lengthOf_cons (t12r : Option Transliterator) (chunk : CharChunk) (chunks : List CharChunk) :
    lengthOf transliterators t12r (chunk :: chunks) =
      chunk.getLength transliterators t12r + lengthOf transliterators t12r chunks := by
  rw [lengthOf, List.map_cons, List.sum_cons, lengthOf]

theorem lengthOf_append (t12r : Option Transliterator) (left right : List CharChunk) :
    lengthOf transliterators t12r (left ++ right) =
      lengthOf transliterators t12r left + lengthOf transliterators t12r right := by
  rw [lengthOf, List.map_append, List.sum_append, lengthOf, lengthOf]

theorem getLength_le_lengthOf {t12r : Option Transliterator} {chunk : CharChunk} (h : chunk ∈ chunks) :
    chunk.getLength transliterators t12r ≤ lengthOf transliterators t12r chunks :=
  List.le_sum_of_mem (List.mem_map_of_mem h)

theorem getChunkAtLoop_lt (t12r : Option Transliterator) (h : chunks ≠ []) (position : Nat) :
    (getChunkAtLoop transliterators t12r chunks position).1 < chunks.length := by
  induction chunks generalizing position with
  | nil => exact absurd rfl h
  | cons chunk chunks ih =>
    rw [getChunkAtLoop]
    split
    · exact Nat.succ_pos _
    split
    · exact Nat.succ_pos _
    · rename_i hrest
      exact Nat.succ_lt_succ (ih hrest _)

theorem convertLoop_eq (chunks : List CharChunk) (position : Nat) :
    convertLoop transliterators t12rFrom t12rTo chunks position =
      match chunks[(getChunkAtLoop transliterators t12rFrom chunks position).1]? with
      | none => 0
      | some chunk =>
        lengthOf transliterators t12rTo
            (chunks.take (getChunkAtLoop transliterators t12rFrom chunks position).1) +
          convertWithin (chunk.getLength transliterators t12rFrom)
            (chunk.getLength transliterators t12rTo)
            (getChunkAtLoop transliterators t12rFrom chunks position).2 := by
  induction chunks generalizing position with
  | nil => rfl
  | cons chunk chunks ih =>
    rw [convertLoop, getChunkAtLoop]
    dsimp only
    split
    · exact (Nat.zero_add _).symm
    split
    · exact (Nat.zero_add _).symm
    · rename_i hrest
      have hlt := @getChunkAtLoop_lt transliterators chunks t12rFrom hrest
        (position - chunk.getLength transliterators t12rFrom)
      rw [ih]
      generalize getChunkAtLoop transliterators t12rFrom chunks _ = found at hlt
      obtain ⟨index, inner⟩ := found
      dsimp only at hlt ⊢
      rw [List.getElem?_cons_succ, List.take_succ_cons, lengthOf_cons, List.getElem?_eq_getElem hlt]
      exact (Nat.add_assoc _ _ _).symm

theorem convertPosition_eq {composition : Composition} (h : t12rFrom ≠ t12rTo) (position : Nat) :
    composition.convertPosition transliterators position t12rFrom t12rTo =
      convertLoop transliterators t12rFrom t12rTo composition.chunks position := by
  rw [convertPosition, if_neg h, convertLoop_eq, getChunkAt]
  dsimp only
  cases composition.chunks[
      (getChunkAtLoop transliterators t12rFrom composition.chunks position).1]? with
  | none => rfl
  | some chunk =>
    dsimp only [getPosition]
    rw [convertWithin]
    split_ifs <;> rfl

theorem convertLoop_zero (chunks : List CharChunk) :
    convertLoop transliterators t12rFrom t12rTo chunks 0 = 0 := by
  cases chunks with
  | nil => rfl
  | cons chunk chunks =>
    rw [convertLoop]
    rw [if_pos (Nat.zero_le _), convertWithin_zero]

theorem convertLoop_le (chunks : List CharChunk) (position : Nat) :
    convertLoop transliterators t12rFrom t12rTo chunks position ≤
      lengthOf transliterators t12rTo chunks := by
  induction chunks generalizing position with
  | nil => exact Nat.le_refl _
  | cons chunk chunks ih =>
    rw [convertLoop, lengthOf_cons]
    split
    · exact Nat.le_add_right_of_le (convertWithin_le _ _ _)
    split
    · exact Nat.le_add_right_of_le (convertWithin_le _ _ _)
    · exact Nat.add_le_add_left (ih _) _

theorem convertLoop_mono {p q : Nat} (h : p ≤ q) :
    convertLoop transliterators t12rFrom t12rTo chunks p ≤
      convertLoop transliterators t12rFrom t12rTo chunks q := by
  induction chunks generalizing p q with
  | nil => exact Nat.le_refl _
  | cons chunk chunks ih =>
    rw [convertLoop, convertLoop]
    by_cases hq : q ≤ chunk.getLength transliterators t12rFrom
    · rw [if_pos hq, if_pos (Nat.le_trans h hq)]
      exact convertWithin_mono h hq
    rw [if_neg hq]
    by_cases hp : p ≤ chunk.getLength transliterators t12rFrom
    · rw [if_pos hp]
      split
      · exact convertWithin_mono hp (Nat.le_refl _)
      · exact Nat.le_add_right_of_le (convertWithin_le _ _ _)
    · rw [if_neg hp]
      split
      · exact Nat.le_refl _
      · exact Nat.add_le_add_left (ih (Nat.sub_le_sub_right h _)) _

theorem convertLoop_length (hlast : ∀ last ∈ chunks.getLast?, 0 < last.getLength transliterators t12rFrom) :
    convertLoop transliterators t12rFrom t12rTo chunks (lengthOf transliterators t12rFrom chunks) =
      lengthOf transliterators t12rTo chunks := by
  induction chunks with
  | nil => rfl
  | cons chunk chunks ih =>
    rw [convertLoop, lengthOf_cons, lengthOf_cons]
    cases chunks with
    | nil =>
      have hpos := hlast chunk rfl
      rw [lengthOf_nil, lengthOf_nil, Nat.add_zero, Nat.add_zero, if_pos (Nat.le_refl _), convertWithin, if_neg (by omega), if_pos rfl]
    | cons next chunks =>
      rw [List.getLast?_cons_cons] at hlast
      have hpos : 0 < lengthOf transliterators t12rFrom (next :: chunks) := by
        have hmem := List.getLast?_eq_some_getLast (List.cons_ne_nil next chunks)
        exact Nat.lt_of_lt_of_le (hlast _ hmem) (getLength_le_lengthOf (List.mem_of_getLast? hmem))
      rw [if_neg (by omega), if_neg (List.cons_ne_nil _ _), Nat.add_sub_cancel_left, ih hlast]

theorem convertPosition_zero (composition : Composition) :
    composition.convertPosition transliterators 0 t12rFrom t12rTo = 0 := by
  by_cases h : t12rFrom = t12rTo
  · rw [convertPosition, if_pos h]
  · rw [convertPosition_eq h, convertLoop_zero]

theorem convertPosition_mono (composition : Composition) {p q : Nat} (h : p ≤ q) :
    composition.convertPosition transliterators p t12rFrom t12rTo ≤
      composition.convertPosition transliterators q t12rFrom t12rTo := by
  by_cases hsame : t12rFrom = t12rTo
  · rw [convertPosition, convertPosition, if_pos hsame, if_pos hsame]
    exact h
  · rw [convertPosition_eq hsame, convertPosition_eq hsame]
    exact convertLoop_mono h

theorem convertPosition_le (composition : Composition) {position : Nat}
    (h : t12rFrom ≠ t12rTo ∨ position ≤ lengthOf transliterators t12rFrom composition.chunks) :
    composition.convertPosition transliterators position t12rFrom t12rTo ≤
      lengthOf transliterators t12rTo composition.chunks := by
  by_cases hsame : t12rFrom = t12rTo
  · rw [convertPosition, if_pos hsame, ← hsame]
    exact h.resolve_left fun hne => hne hsame
  · rw [convertPosition_eq hsame]
    exact convertLoop_le _ _

end positions

section rawText

theorem utf8SubString_append (s : Bytes) {i j k : Nat} (hij : i ≤ j) (hjk : j ≤ k) :
    utf8SubString s i (j - i) ++ utf8SubString s j (k - j) = utf8SubString s i (k - i) := by
  have hsize : k - i = (j - i) + (k - j) := by omega
  have hdrop : utf8Drop j s = utf8Drop (j - i) (utf8Drop i s) := by
    rw [← utf8Drop_add, Nat.add_sub_cancel' hij]
  rw [utf8SubString, utf8SubString, utf8SubString, hsize, utf8Take_add, hdrop]

theorem getRawSubString_append (transliterators : Transliterators) (composition : Composition)
    {i j k : Nat} (hij : i ≤ j) (hjk : j ≤ k) :
    composition.getRawSubString transliterators i (j - i) ++
        composition.getRawSubString transliterators j (k - j) =
      composition.getRawSubString transliterators i (k - i) := by
  rw [getRawSubString, getRawSubString, getRawSubString, getTransliteratedText,
    getTransliteratedText, getTransliteratedText]
  rw [Nat.add_sub_cancel' hij, Nat.add_sub_cancel' hjk, Nat.add_sub_cancel' (Nat.le_trans hij hjk)]
  exact utf8SubString_append _ (convertPosition_mono composition hij)
    (convertPosition_mono composition hjk)

variable (util : JapaneseUtil)

theorem result_rawString (chunk : CharChunk) :
    chunk.result util.transliterators (some .rawString) = deleteSpecialKeys chunk.raw := by
  rw [CharChunk.result, CharChunk.getTransliterator]
  simp only [reduceCtorEq, or_self, and_false, if_false]
  rfl

theorem fixedResult_rawString (chunk : CharChunk) :
    chunk.fixedResult util.transliterators (some .rawString) = deleteSpecialKeys chunk.raw := by
  rw [CharChunk.fixedResult, CharChunk.getTransliterator]
  simp only [reduceCtorEq, or_self, and_false, if_false]
  rfl

/-- The raw strings of the chunks without their special keys. -/
def rawText (composition : Composition) : Bytes :=
  composition.chunks.flatMap fun chunk => deleteSpecialKeys chunk.raw

theorem getStringWithTransliterator_rawString (composition : Composition) :
    composition.getStringWithTransliterator util.transliterators (some .rawString) =
      composition.rawText := by
  rw [getStringWithTransliterator, rawText]
  cases hlast : composition.chunks.getLast? with
  | none => rw [List.getLast?_eq_none_iff.mp hlast, List.flatMap_nil]
  | some last =>
    have hchunks : composition.chunks = composition.chunks.dropLast ++ [last] := by
      obtain ⟨chunks, hchunks⟩ := List.getLast?_eq_some_iff.mp hlast
      rw [hchunks, List.dropLast_concat]
    simp only [result_rawString, fixedResult_rawString]
    rw [hchunks, List.dropLast_concat, List.flatMap_append, List.flatMap_singleton]

theorem flatMap_utf8 {f : CharChunk → Bytes} {chunks : List CharChunk}
    (h : ∀ chunk ∈ chunks, ∃ cs, f chunk = utf8 cs) :
    ∃ cs, chunks.flatMap f = utf8 cs ∧ cs.length = (chunks.map fun chunk => charsLen (f chunk)).sum := by
  induction chunks with
  | nil => exact ⟨[], rfl, rfl⟩
  | cons chunk chunks ih =>
    obtain ⟨cs, hcs⟩ := h chunk List.mem_cons_self
    obtain ⟨ds, hds, hlength⟩ := ih fun c hc => h c (List.mem_cons_of_mem chunk hc)
    refine ⟨cs ++ ds, ?_, ?_⟩
    · rw [List.flatMap_cons, hcs, hds, utf8_append]
    · rw [List.length_append, List.map_cons, List.sum_cons, hlength, hcs, charsLen_utf8]

theorem charsLen_rawText {composition : Composition}
    (h : ∀ chunk ∈ composition.chunks, ∃ cs, deleteSpecialKeys chunk.raw = utf8 cs) :
    charsLen composition.rawText =
      lengthOf util.transliterators (some .rawString) composition.chunks := by
  obtain ⟨cs, hcs, hlength⟩ := flatMap_utf8 h
  have hchunk : ∀ chunk : CharChunk, chunk.getLength util.transliterators (some .rawString) =
      charsLen (deleteSpecialKeys chunk.raw) := by
    intro chunk
    rw [← result_rawString util chunk]
    rfl
  rw [rawText, hcs, charsLen_utf8, hlength, lengthOf]
  simp only [hchunk]

theorem getRawString_eq {composition : Composition}
    (hraw : ∀ chunk ∈ composition.chunks, ∃ cs, deleteSpecialKeys chunk.raw = utf8 cs)
    (hlast : ∀ last ∈ composition.chunks.getLast?, 0 < last.getLength util.transliterators none) :
    composition.getRawString util.transliterators = composition.rawText := by
  have hne : (none : Option Transliterator) ≠ some .rawString := nofun
  rw [getRawString, getRawSubString, getTransliteratedText, convertPosition_zero, Nat.zero_add,
    Nat.sub_zero, convertPosition_eq hne, getLength, convertLoop_length hlast,
    getStringWithTransliterator_rawString, utf8SubString, utf8Drop,
    ← charsLen_rawText util hraw, utf8Take_of_charsLen_le (Nat.le_refl _)]

/-- Positions are converted in order, and the raw text of consecutive ranges is put together; it is
that of all chunks without their special keys. -/
theorem rawText_correct (composition : Composition) :
    (∀ t12rFrom t12rTo p q, p ≤ q →
      composition.convertPosition util.transliterators p t12rFrom t12rTo ≤
        composition.convertPosition util.transliterators q t12rFrom t12rTo) ∧
    (∀ t12rFrom t12rTo, composition.convertPosition util.transliterators 0 t12rFrom t12rTo = 0) ∧
    (∀ t12rFrom t12rTo p,
      t12rFrom ≠ t12rTo ∨ p ≤ lengthOf util.transliterators t12rFrom composition.chunks →
        composition.convertPosition util.transliterators p t12rFrom t12rTo ≤
          lengthOf util.transliterators t12rTo composition.chunks) ∧
    (∀ i j k, i ≤ j → j ≤ k →
      composition.getRawSubString util.transliterators i (j - i) ++
          composition.getRawSubString util.transliterators j (k - j) =
        composition.getRawSubString util.transliterators i (k - i)) ∧
    ((∀ chunk ∈ composition.chunks, ∃ cs, deleteSpecialKeys chunk.raw = utf8 cs) →
      (∀ last ∈ composition.chunks.getLast?, 0 < last.getLength util.transliterators none) →
        composition.getRawString util.transliterators =
          composition.chunks.flatMap fun chunk => deleteSpecialKeys chunk.raw) :=
  ⟨fun _ _ _ _ h => convertPosition_mono composition h,
    fun _ _ => convertPosition_zero composition,
    fun _ _ _ h => convertPosition_le composition h,
    fun _ _ _ hij hjk => getRawSubString_append _ composition hij hjk,
    fun hraw hlast => getRawString_eq util hraw hlast⟩

def kanaComposition : Composition where
  chunks := [{ transliterator := .hiragana, raw := utf8 ['k', 'a'], conversion := utf8 ['か'] }]

theorem rawText_correct_kana :
    kanaComposition.getRawString plainUtil.transliterators = utf8 ['k', 'a'] := by
  have hraw : ∀ chunk ∈ kanaComposition.chunks, ∃ cs, deleteSpecialKeys chunk.raw = utf8 cs := by
    intro chunk hchunk
    rw [List.mem_singleton.mp hchunk]
    exact ⟨['k', 'a'], by decide⟩
  have hlast : ∀ last ∈ kanaComposition.chunks.getLast?,
      0 < last.getLength plainUtil.transliterators none := by decide
  exact ((rawText_correct plainUtil kanaComposition).2.2.2.2 hraw hlast).trans (by decide)

/-- The raw text of a chunk of the one special key of a rule is empty. -/
theorem not_rawText_of_specialKey :
    ¬ ∀ util : JapaneseUtil, ∀ fuel text table, loadFromString fuel text = some table →
      ∀ input position composition,
        ({} : Composition).insertAt util.transliterators table fuel 0 input =
          some (position, composition) →
        composition.getRawString util.transliterators = composition.chunks.flatMap CharChunk.raw := by
  intro h
  have hload : (loadFromString 3 (utf8 ['{', '!', '}', '\t', 'x'])).any fun table =>
      (({} : Composition).insertAt plainUtil.transliterators table 3 0 (specialKey 3)).any fun r =>
        r.2.getRawString plainUtil.transliterators ≠ r.2.chunks.flatMap CharChunk.raw := by
    decide +kernel
  obtain ⟨table, htable, hinsert⟩ := (Option.any_eq_true _ _).mp hload
  obtain ⟨⟨position, composition⟩, hr, hne⟩ := (Option.any_eq_true _ _).mp hinsert
  exact of_decide_eq_true hne (h plainUtil 3 _ table htable _ position composition hr)

end rawText

end Composition

end Mozkey.Composer
