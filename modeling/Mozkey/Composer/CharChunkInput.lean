import Mozkey.Base.SubString
import Mozkey.Base.Utf8Text
import Mozkey.Composer.CharChunkPending
import Mozkey.Composer.TableLooping
import Mozkey.Lib.Acyclic

/-! `AddInput` of a chunk: it keeps what is typed in the raw text, and it returns where no rules of
single characters lead from a character back to itself. -/

namespace Mozkey.Composer

open Storage Base Session Lib

/-- Nowhere in the text `TrimLeadingSpecialKey` has anything to trim. -/
def NoSpecialKeys (text : Bytes) : Prop := ∀ rest, rest <:+ text → trimLeadingSpecialKey rest = rest

theorem NoSpecialKeys.suffix {text rest : Bytes} (h : NoSpecialKeys text) (hrest : rest <:+ text) :
    NoSpecialKeys rest := fun _ hlast => h _ (hlast.trans hrest)

theorem NoSpecialKeys.not_trims {text : Bytes} (h : NoSpecialKeys text) :
    ¬ (trimLeadingSpecialKey text).length < text.length := by
  rw [h text (List.suffix_refl _)]
  exact Nat.lt_irrefl _

theorem trimLeadingSpecialKey_eq {text : Bytes} (hfirst : isSpecialKey (Trie.firstChar text).1 = false)
    (hopen : ¬ [kSpecialKeyOpen].isPrefixOf text) : trimLeadingSpecialKey text = text := by
  rw [trimLeadingSpecialKey]
  simp only [hfirst, Bool.false_eq_true, if_false, if_pos hopen]

theorem not_ascii_of_trailing : ∀ b : UInt8, isUtf8TrailingByte b = true → ¬ b < 0x80 := by
  decide +kernel

theorem noSpecialKeys_utf8 {cs : List Char}
    (h : ∀ c ∈ cs, isSpecialKey c.toNat = false ∧ c.toNat ≠ kSpecialKeyOpen.toNat) :
    NoSpecialKeys (utf8 cs) := by
  intro rest hrest
  rcases utf8_suffix hrest with ⟨b, bs, rfl, htrailing⟩ | ⟨ds, hds, rfl⟩
  · have hnone : splitFirstChar32 (b :: bs) = none := by
      rw [splitFirstChar32, if_neg (not_ascii_of_trailing b htrailing), if_pos htrailing]
    apply trimLeadingSpecialKey_eq
    · rw [Trie.firstChar, hnone]
      decide
    · rw [List.isPrefixOf_iff_prefix]
      intro hopen
      rw [← (List.cons_prefix_cons.mp hopen).1] at htrailing
      exact absurd htrailing (by decide)
  · cases ds with
    | nil => rfl
    | cons c ds =>
      obtain ⟨hspecial, hopen⟩ := h c (hds.subset List.mem_cons_self)
      have hsplit := splitFirstChar32_utf8 c (utf8 ds)
      rw [← utf8_cons] at hsplit
      apply trimLeadingSpecialKey_eq
      · rw [Trie.firstChar, hsplit]
        exact hspecial
      · rw [List.isPrefixOf_iff_prefix]
        rintro ⟨bs, hbs⟩
        rw [← hbs, List.singleton_append, splitFirstChar32, if_pos (by decide)] at hsplit
        exact hopen (Prod.mk.inj (Option.some.inj hsplit)).1.symm

namespace Table

variable {table : Table}

theorem lookUpPrefix_length_le (table : Table) (input : Bytes) :
    (table.lookUpPrefix input).2.1 ≤ input.length := by
  rw [← table.length_normalized input]
  exact Trie.lookUpPrefix_length_le _ _

theorem normalized_cons (table : Table) (c : Char) (rest : Bytes) :
    table.normalized (utf8 [c] ++ rest) = utf8 [table.foldChar c] ++ table.normalized rest := by
  have hchar (s : Bytes) : splitFirstChar32 (utf8 [c] ++ s) = some (c.toNat, s) := by
    rw [utf8_cons, show utf8 [] = [] from rfl, List.append_nil]
    exact splitFirstChar32_utf8 c s
  have hfold := table.normalized_utf8 [c]
  rw [normalized] at hfold ⊢
  split at hfold
  · rename_i h
    rw [if_pos h, normalized, if_pos h, hfold, List.map_singleton]
  · rename_i h
    have hhead := lowerString_some (hchar [])
    rw [List.append_nil, hfold, List.map_singleton, lowerString_nil, List.append_nil] at hhead
    rw [if_neg h, normalized, if_neg h, lowerString_some (hchar rest), ← hhead]

/-- The rules have an input, at most one character pending, and show what is converted. -/
structure SinglePending (table : Table) : Prop where
  input : table.lookUp [] = none
  pending : ∀ entry ∈ table.entries.allData, entry.pending = [] ∨ ∃ c, entry.pending = utf8 [c]
  attributes : ∀ entry ∈ table.entries.allData,
    hasAttribute entry.attributes NO_TRANSLITERATION = false

/-- The rule of a single character leaves a single character pending. -/
def LeadsTo (table : Table) (c c' : Char) : Prop :=
  ∃ entry, table.lookUp (utf8 [c]) = some entry ∧ entry.pending = utf8 [c']

theorem normalized_nil (table : Table) : table.normalized [] = [] := by
  rw [normalized]
  split <;> rfl

theorem data_of_lookUp_nil (h : table.lookUp [] = none) : table.entries.data = none := by
  rwa [lookUp, normalized_nil, Trie.lookUp, if_pos rfl] at h

theorem SinglePending.data (h : table.SinglePending) : table.entries.data = none :=
  data_of_lookUp_nil h.input

theorem lookUpPrefix_char (hdata : table.entries.data = none) {c : Char} {rest : Bytes} {entry : Entry}
    (h : (table.lookUpPrefix (utf8 [c] ++ rest)).1 = some entry) :
    (utf8 [c]).length ≤ (table.lookUpPrefix (utf8 [c] ++ rest)).2.1 ∧
      ((table.lookUpPrefix (utf8 [c] ++ rest)).2.1 = (utf8 [c]).length →
        table.lookUp (utf8 [c]) = some entry) := by
  have hkey : utf8 [table.foldChar c] ++ table.normalized rest ≠ [] := by
    rw [utf8_cons, List.append_assoc]
    exact List.append_ne_nil_of_left_ne_nil String.utf8EncodeChar_ne_nil _
  have hfirst : Trie.firstChar (utf8 [table.foldChar c] ++ table.normalized rest) =
      ((table.foldChar c).toNat, table.normalized rest) := by
    rw [utf8_cons, show utf8 [] = [] from rfl, List.append_nil, Trie.firstChar, splitFirstChar32_utf8]
    rfl
  have hlength : (utf8 [table.foldChar c]).length = (utf8 [c]).length := table.length_fold [c]
  rw [lookUpPrefix, normalized_cons] at h ⊢
  cases hfind : table.entries.find (table.foldChar c).toNat with
  | none =>
    rw [Trie.lookUpPrefix_of_find_none hfirst hfind, hdata] at h
    cases h
  | some sub =>
    obtain ⟨hfound, hused⟩ := Trie.lookUpPrefix_of_find hkey hfirst hfind
    rw [List.length_append, Nat.add_sub_cancel, hlength] at hused
    rw [hfound] at h
    rw [hused]
    refine ⟨Nat.le_add_left _ _, fun hall => ?_⟩
    have hunused : (Trie.lookUpPrefix (table.normalized rest) sub).2.1 = 0 := by omega
    rw [Trie.lookUpPrefix_of_unused hunused] at h
    rw [lookUp, normalized_utf8, Trie.lookUp_eq, List.map_singleton, Trie.get_of_find hfind]
    exact h

/-- A lookup that finds an entry uses all of the pending text. -/
def LooksUpWithin (table : Table) (pending input : Bytes) : Prop :=
  ∀ entry, (table.lookUpPrefix (pending ++ input)).1 = some entry →
    pending.length ≤ (table.lookUpPrefix (pending ++ input)).2.1

end Table

namespace CharChunk

variable {table : Table} {chunk chunk' : CharChunk} {input rest : Bytes} {loop : Bool}

section raw

/-- The converted text of the chunk is shown, also after the fallback. -/
structure Transliterated (chunk : CharChunk) : Prop where
  attributes : hasAttribute chunk.attributes NO_TRANSLITERATION = false
  fallback : hasAttribute chunk.displayAmbiguousResultAttributes NO_TRANSLITERATION = false

theorem not_noTransliteration : hasAttribute NO_TABLE_ATTRIBUTE NO_TRANSLITERATION = false := by decide

theorem setResult_raw (chunk : CharChunk) (entry : Entry) (key : Bytes) (resolved : Bool) :
    (chunk.setResult entry key resolved).raw = chunk.raw := by
  rw [setResult]
  split
  · rfl
  · dsimp only
    split <;> rfl

theorem setResult_attributes (chunk : CharChunk) (entry : Entry) (key : Bytes) (resolved : Bool) :
    (chunk.setResult entry key resolved).attributes = chunk.attributes := by
  rw [setResult]
  split
  · rfl
  · dsimp only
    split <;> rfl

theorem Transliterated.setResult (h : hasAttribute chunk.attributes NO_TRANSLITERATION = false)
    (entry : Entry) (key : Bytes) (resolved : Bool) :
    (chunk.setResult entry key resolved).Transliterated := by
  refine ⟨by rw [setResult_attributes, h], ?_⟩
  rw [CharChunk.setResult]
  split
  · exact not_noTransliteration
  · dsimp only
    split
    · exact h
    · exact not_noTransliteration

theorem useInput_some {used : Nat} {parts : Bytes × Bytes} (h : chunk.useInput used input = some parts) :
    chunk.pending.length ≤ used ∧ parts.1 ++ parts.2 = input ∧
      parts.2 = input.drop (used - chunk.pending.length) := by
  rw [useInput] at h
  split at h
  · cases h
  · rename_i hbounds
    cases h
    exact ⟨by omega, List.take_append_drop _ _, rfl⟩

theorem restore_raw (h : chunk.hasDisplayAmbiguousResultFallback = true) (input : Bytes) :
    (chunk.restoreDisplayAmbiguousResultFallback input).2.raw ++
      (chunk.restoreDisplayAmbiguousResultFallback input).1 = chunk.raw ++ input := by
  rw [hasDisplayAmbiguousResultFallback, decide_eq_true_eq, List.isPrefixOf_iff_prefix] at h
  obtain ⟨tail, htail⟩ := h.2.2
  change chunk.displayAmbiguousResultRaw ++
    (chunk.raw.drop chunk.displayAmbiguousResultRaw.length ++ input) = chunk.raw ++ input
  rw [← htail, List.drop_left, List.append_assoc]

theorem frontChar_append (input : Bytes) : (frontChar input).1 ++ (frontChar input).2 = input := by
  cases input with
  | nil => rfl
  | cons b bs => exact List.take_append_drop _ _

theorem addInputWithoutEntry_raw {used : Nat} (hspecial : NoSpecialKeys input)
    (h : addInputWithoutEntry table chunk used input = some ((loop, rest), chunk')) :
    loop = false ∧ chunk'.raw ++ rest = chunk.raw ++ input := by
  have hnot := hspecial.not_trims
  rw [addInputWithoutEntry] at h
  split at h
  · rename_i hfallback
    cases h
    exact ⟨rfl, restore_raw hfallback.2 input⟩
  split at h
  · dsimp only at h
    rw [if_neg hnot] at h
    split at h
    · cases h
      refine ⟨rfl, ?_⟩
      dsimp only
      rw [List.append_assoc, frontChar_append]
    · cases h
      exact ⟨rfl, rfl⟩
  split at h
  · dsimp only at h
    rw [if_neg fun hand => hnot hand.2.2] at h
    cases h
    exact ⟨rfl, rfl⟩
  split at h
  · cases h
    exact ⟨rfl, rfl⟩
  · obtain ⟨parts, huse, hparts⟩ := Option.bind_eq_some_iff.mp h
    obtain ⟨-, happend, -⟩ := useInput_some huse
    cases hparts
    refine ⟨rfl, ?_⟩
    dsimp only
    rw [List.append_assoc, happend]

theorem addInputWithoutEntry_transliterated {used : Nat} (hchunk : chunk.Transliterated)
    (h : addInputWithoutEntry table chunk used input = some ((loop, rest), chunk')) :
    chunk'.Transliterated := by
  rw [addInputWithoutEntry] at h
  split at h
  · cases h
    exact ⟨hchunk.fallback, not_noTransliteration⟩
  split at h
  · dsimp only at h
    split at h
    · cases h
      exact hchunk
    split at h
    · cases h
      exact ⟨hchunk.attributes, hchunk.fallback⟩
    · cases h
      exact hchunk
  split at h
  · dsimp only at h
    split at h <;> cases h <;> exact hchunk
  split at h
  · cases h
    exact hchunk
  · obtain ⟨parts, -, hparts⟩ := Option.bind_eq_some_iff.mp h
    cases hparts
    exact ⟨hchunk.attributes, hchunk.fallback⟩

/-- With an entry the raw text goes on with what is used, and the pending text is that of the entry, or
the whole key. -/
theorem addInputWithEntry_some {entry : Entry} {used : Nat} {fixed : Bool}
    (hchunk : chunk.Transliterated) (hentry : hasAttribute entry.attributes NO_TRANSLITERATION = false)
    (h : chunk.addInputWithEntry entry used fixed input = some ((loop, rest), chunk')) :
    ∃ head, chunk.useInput used input = some (head, rest) ∧ chunk'.raw = chunk.raw ++ head ∧
      chunk'.pending = (if fixed || used < (chunk.pending ++ input).length then entry.pending
        else chunk.pending ++ input) ∧
      loop = !(rest = [] ∨ chunk'.pending = []) ∧ chunk'.Transliterated := by
  rw [addInputWithEntry] at h
  obtain ⟨⟨head, tail⟩, huse, hparts⟩ := Option.bind_eq_some_iff.mp h
  dsimp only at hparts
  generalize hnext : CharChunk.setResult _ entry _ _ = next at hparts
  have hraw : next.raw = chunk.raw ++ head := by rw [← hnext, setResult_raw]
  have hpending := congrArg CharChunk.pending hnext
  rw [setResult_pending] at hpending
  have hshown : next.Transliterated := by
    rw [← hnext]
    apply Transliterated.setResult
    dsimp only
    split
    · exact hentry
    · exact hchunk.attributes
  rw [if_neg (by rw [hshown.attributes]; simp)] at hparts
  split at hparts
  · rename_i hend
    cases hparts
    exact ⟨head, huse, hraw, hpending.symm, by simp [hend], hshown⟩
  · rename_i hgo
    cases hparts
    exact ⟨head, huse, hraw, hpending.symm, by simp [hgo], hshown⟩

theorem addInputInternal_transliterated (htable : table.SinglePending) (hchunk : chunk.Transliterated)
    (h : chunk.addInputInternal table input = some ((loop, rest), chunk')) : chunk'.Transliterated := by
  rw [addInputInternal] at h
  rcases hlook : table.lookUpPrefix (chunk.pending ++ input) with ⟨_ | entry, used, fixed⟩
  · rw [hlook] at h
    exact addInputWithoutEntry_transliterated hchunk h
  · rw [hlook] at h
    have hentry := htable.attributes entry (Trie.mem_allData_of_lookUpPrefix (congrArg Prod.fst hlook))
    obtain ⟨-, -, -, -, -, hshown⟩ := addInputWithEntry_some hchunk hentry h
    exact hshown

theorem addInputInternal_raw (htable : table.SinglePending) (hchunk : chunk.Transliterated)
    (hspecial : NoSpecialKeys input)
    (h : chunk.addInputInternal table input = some ((loop, rest), chunk')) :
    chunk'.raw ++ rest = chunk.raw ++ input := by
  rw [addInputInternal] at h
  rcases hlook : table.lookUpPrefix (chunk.pending ++ input) with ⟨_ | entry, used, fixed⟩
  · rw [hlook] at h
    exact (addInputWithoutEntry_raw hspecial h).2
  · rw [hlook] at h
    have hentry := htable.attributes entry (Trie.mem_allData_of_lookUpPrefix (congrArg Prod.fst hlook))
    obtain ⟨head, huse, hraw, -, -, -⟩ := addInputWithEntry_some hchunk hentry h
    obtain ⟨-, happend, -⟩ := useInput_some huse
    rw [hraw, List.append_assoc]
    exact congrArg (chunk.raw ++ ·) happend

theorem addInput_transliterated (htable : table.SinglePending) (hchunk : chunk.Transliterated)
    {fuel : Nat} (h : addInput table fuel input chunk = some (rest, chunk')) :
    chunk'.Transliterated := by
  induction fuel generalizing input chunk with
  | zero => cases h
  | succ fuel ih =>
    rw [addInput] at h
    obtain ⟨⟨⟨loop, next⟩, nextChunk⟩, hinternal, hnext⟩ := Option.bind_eq_some_iff.mp h
    have hshown := addInputInternal_transliterated htable hchunk hinternal
    dsimp only at hnext
    split at hnext
    · exact ih hshown hnext
    · cases hnext
      exact hshown

theorem addInput_raw (htable : table.SinglePending) (hchunk : chunk.Transliterated)
    (hspecial : NoSpecialKeys (chunk.raw ++ input)) {fuel : Nat}
    (h : addInput table fuel input chunk = some (rest, chunk')) :
    chunk'.raw ++ rest = chunk.raw ++ input := by
  induction fuel generalizing input chunk with
  | zero => cases h
  | succ fuel ih =>
    rw [addInput] at h
    obtain ⟨⟨⟨loop, next⟩, nextChunk⟩, hinternal, hnext⟩ := Option.bind_eq_some_iff.mp h
    have hshown := addInputInternal_transliterated htable hchunk hinternal
    have hraw := addInputInternal_raw htable hchunk (hspecial.suffix (List.suffix_append _ _)) hinternal
    dsimp only at hnext
    split at hnext
    · rw [← hraw] at hspecial ⊢
      exact ih hshown hspecial hnext
    · cases hnext
      exact hraw

end raw

section progress

theorem frontChar_ne_nil (h : input ≠ []) : (frontChar input).1 ≠ [] := by
  cases input with
  | nil => exact absurd rfl h
  | cons b bs =>
    have hpos := oneCharLen_pos b
    rw [frontChar, ← List.length_pos_iff, List.length_take, List.length_cons]
    omega

/-- The chunk has raw text, or the input is the first that it takes. -/
def Takes (chunk : CharChunk) (input : Bytes) : Prop :=
  chunk.raw ≠ [] ∨ chunk.pending = [] ∧ input ≠ []

theorem Takes.raw_append (h : chunk.Takes input) {used : Nat} (hused : used ≠ 0)
    {parts : Bytes × Bytes} (huse : chunk.useInput used input = some parts) :
    chunk.raw ++ parts.1 ≠ [] := by
  rcases h with hraw | ⟨hpending, hinput⟩
  · exact List.append_ne_nil_of_left_ne_nil hraw _
  · obtain ⟨-, happend, hrest⟩ := useInput_some huse
    rw [hpending, List.length_nil, Nat.sub_zero] at hrest
    apply List.append_ne_nil_of_right_ne_nil
    intro hnil
    have hlength := congrArg List.length hrest
    rw [hnil, List.nil_append] at happend
    rw [happend, List.length_drop] at hlength
    have hpos := List.length_pos_iff.mpr hinput
    omega

theorem addInputWithoutEntry_takes {used : Nat} (hspecial : NoSpecialKeys input)
    (htakes : chunk.Takes input)
    (h : addInputWithoutEntry table chunk used input = some ((loop, rest), chunk')) :
    chunk'.raw ≠ [] := by
  have hnot := hspecial.not_trims
  rw [addInputWithoutEntry] at h
  split at h
  · rename_i hfallback
    cases h
    have hsaved := hfallback.2
    rw [hasDisplayAmbiguousResultFallback, decide_eq_true_eq] at hsaved
    exact hsaved.1
  split at h
  · dsimp only at h
    rw [if_neg hnot] at h
    split at h
    · cases h
      rcases htakes with hraw | ⟨-, hinput⟩
      · exact List.append_ne_nil_of_left_ne_nil hraw _
      · exact List.append_ne_nil_of_right_ne_nil _ (frontChar_ne_nil hinput)
    · rename_i hpending
      cases h
      exact htakes.resolve_right fun hfirst => hpending hfirst.1
  rename_i hused
  have hraw : used ≤ chunk.pending.length → chunk.raw ≠ [] := by
    intro hle
    refine htakes.resolve_right fun hfirst => hused ?_
    rw [hfirst.1] at hle
    exact Nat.le_zero.mp hle
  split at h
  · rename_i heq
    dsimp only at h
    rw [if_neg fun hand => hnot hand.2.2] at h
    cases h
    exact hraw (Nat.le_of_eq heq)
  split at h
  · rename_i hlt
    cases h
    exact hraw (Nat.le_of_lt hlt)
  · obtain ⟨parts, huse, hparts⟩ := Option.bind_eq_some_iff.mp h
    cases hparts
    exact htakes.raw_append hused huse

theorem addInputInternal_takes (htable : table.SinglePending) (hchunk : chunk.Transliterated)
    (hspecial : NoSpecialKeys input) (htakes : chunk.Takes input)
    (h : chunk.addInputInternal table input = some ((loop, rest), chunk')) : chunk'.raw ≠ [] := by
  rw [addInputInternal] at h
  rcases hlook : table.lookUpPrefix (chunk.pending ++ input) with ⟨_ | entry, used, fixed⟩
  · rw [hlook] at h
    exact addInputWithoutEntry_takes hspecial htakes h
  · rw [hlook] at h
    have hentry := htable.attributes entry (Trie.mem_allData_of_lookUpPrefix (congrArg Prod.fst hlook))
    obtain ⟨head, huse, hraw, -, -, -⟩ := addInputWithEntry_some hchunk hentry h
    have hused : used ≠ 0 := by
      rintro rfl
      have hroot := Trie.lookUpPrefix_of_unused (congrArg (·.2.1) hlook)
      rw [htable.data] at hroot
      have hfound := congrArg Prod.fst hlook
      rw [Table.lookUpPrefix, hroot] at hfound
      cases hfound
    rw [hraw]
    exact htakes.raw_append hused huse

theorem addInput_takes (htable : table.SinglePending) (hchunk : chunk.Transliterated)
    (hspecial : NoSpecialKeys (chunk.raw ++ input)) (htakes : chunk.Takes input) {fuel : Nat}
    (h : addInput table fuel input chunk = some (rest, chunk')) : chunk'.raw ≠ [] := by
  induction fuel generalizing input chunk with
  | zero => cases h
  | succ fuel ih =>
    rw [addInput] at h
    obtain ⟨⟨⟨loop, next⟩, nextChunk⟩, hinternal, hnext⟩ := Option.bind_eq_some_iff.mp h
    have hinput := hspecial.suffix (List.suffix_append _ _)
    have hraw := addInputInternal_raw htable hchunk hinput hinternal
    have hshown := addInputInternal_transliterated htable hchunk hinternal
    have hne := addInputInternal_takes htable hchunk hinput htakes hinternal
    dsimp only at hnext
    split at hnext
    · rw [← hraw] at hspecial
      exact ih hshown hspecial (.inl hne) hnext
    · cases hnext
      exact hne

end progress

section termination

theorem useInput_isSome {used : Nat} (hused : used ≤ (chunk.pending ++ input).length) :
    (chunk.useInput used input).isSome = true ↔ chunk.pending.length ≤ used := by
  rw [List.length_append] at hused
  rw [useInput]
  split
  · simp only [Option.isSome_none, Bool.false_eq_true, false_iff]
    omega
  · simp only [Option.isSome_some, true_iff]
    omega

theorem addInputWithEntry_isSome {entry : Entry} {used : Nat} {fixed : Bool} :
    (chunk.addInputWithEntry entry used fixed input).isSome = (chunk.useInput used input).isSome := by
  rw [addInputWithEntry]
  cases chunk.useInput used input with
  | none => rfl
  | some parts =>
    obtain ⟨head, tail⟩ := parts
    simp only [Option.bind_eq_bind, Option.bind_some]
    generalize CharChunk.setResult _ entry _ _ = next
    split
    · rfl
    split <;> rfl

theorem addInputWithoutEntry_isSome {used : Nat} (hused : used ≤ (chunk.pending ++ input).length) :
    (addInputWithoutEntry table chunk used input).isSome := by
  rw [addInputWithoutEntry]
  split
  · rfl
  split
  · dsimp only
    split
    · rfl
    split <;> rfl
  split
  · dsimp only
    split <;> rfl
  split
  · rfl
  · rename_i hlong
    obtain ⟨parts, hparts⟩ := Option.isSome_iff_exists.mp
      ((useInput_isSome hused).mpr (Nat.le_of_not_lt hlong))
    rw [hparts]
    rfl

theorem addInputInternal_isSome_iff :
    (chunk.addInputInternal table input).isSome = true ↔ table.LooksUpWithin chunk.pending input := by
  have hle := table.lookUpPrefix_length_le (chunk.pending ++ input)
  rw [addInputInternal, Table.LooksUpWithin]
  rcases hlook : table.lookUpPrefix (chunk.pending ++ input) with ⟨_ | entry, used, fixed⟩
  · rw [hlook] at hle
    exact iff_of_true (addInputWithoutEntry_isSome hle) fun _ h => absurd h (Option.some_ne_none _).symm
  · rw [hlook] at hle
    dsimp only
    rw [addInputWithEntry_isSome, useInput_isSome hle]
    exact ⟨fun h _ _ => h, fun h => h entry rfl⟩

theorem addInputInternal_loops (htable : table.SinglePending) (hchunk : chunk.Transliterated)
    (hspecial : NoSpecialKeys input)
    (h : chunk.addInputInternal table input = some ((true, rest), chunk')) :
    ∃ entry, (table.lookUpPrefix (chunk.pending ++ input)).1 = some entry ∧
      (∃ c, entry.pending = utf8 [c]) ∧ chunk'.pending = entry.pending ∧
      rest = input.drop ((table.lookUpPrefix (chunk.pending ++ input)).2.1 - chunk.pending.length) ∧
      rest ≠ [] := by
  rw [addInputInternal] at h
  rcases hlook : table.lookUpPrefix (chunk.pending ++ input) with ⟨_ | entry, used, fixed⟩
  · rw [hlook] at h
    exact absurd (addInputWithoutEntry_raw hspecial h).1 (by decide)
  · rw [hlook] at h
    have hmem := Trie.mem_allData_of_lookUpPrefix (congrArg Prod.fst hlook)
    obtain ⟨head, huse, -, hpending, hloop, -⟩ :=
      addInputWithEntry_some hchunk (htable.attributes entry hmem) h
    obtain ⟨-, -, hrest⟩ := useInput_some huse
    have hgo : ¬ (rest = [] ∨ chunk'.pending = []) := by simpa using hloop.symm
    have hlt : used < (chunk.pending ++ input).length := by
      by_contra hall
      apply hgo
      left
      have hdrop : rest = input.drop (used - chunk.pending.length) := hrest
      rw [hdrop, List.drop_eq_nil_iff]
      rw [List.length_append] at hall
      omega
    rw [decide_eq_true hlt, Bool.or_true, if_pos rfl] at hpending
    refine ⟨entry, rfl, ?_, hpending, hrest, fun hnil => hgo (.inl hnil)⟩
    apply (htable.pending entry hmem).resolve_left
    rw [← hpending]
    exact fun hnil => hgo (.inr hnil)

theorem addInput_of_step {m : Nat} {step : (Bool × Bytes) × CharChunk} {r : Bytes × CharChunk}
    (hstep : chunk.addInputInternal table input = some step)
    (hrest : step.1.1 = true → ∀ fuel, m ≤ fuel → addInput table fuel step.1.2 step.2 = some r)
    (hend : step.1.1 = false → r = (step.1.2, step.2)) :
    ∀ fuel, m + 1 ≤ fuel → addInput table fuel input chunk = some r := by
  intro fuel hfuel
  obtain ⟨fuel, rfl⟩ : ∃ n, fuel = n + 1 := ⟨fuel - 1, by omega⟩
  obtain ⟨⟨loop, next⟩, nextChunk⟩ := step
  rw [addInput, hstep, Option.bind_eq_bind, Option.bind_some]
  cases loop with
  | false => rw [hend rfl]; rfl
  | true => exact hrest rfl fuel (by omega)

theorem wellFounded_leadsTo (hacyclic : ∀ c, ¬ Relation.TransGen table.LeadsTo c c) :
    WellFounded fun c' c => table.LeadsTo c c' :=
  wellFounded_of_acyclic Set.finite_univ (fun _ _ _ => Set.mem_univ _) hacyclic

/-- With one character pending `AddInput` returns: it uses some of the input, or goes on to the next
character of the rules. -/
theorem addInput_char_ends (htable : table.SinglePending)
    (hacyclic : ∀ c, ¬ Relation.TransGen table.LeadsTo c c) (hchunk : chunk.Transliterated)
    (hspecial : NoSpecialKeys input) {c : Char} (hpending : chunk.pending = utf8 [c]) :
    ∃ m r, ∀ fuel, m ≤ fuel → addInput table fuel input chunk = some r := by
  induction hn : input.length using Nat.strong_induction_on generalizing input chunk c with
  | _ n ihn =>
    induction c using (wellFounded_leadsTo hacyclic).induction generalizing input chunk with
    | _ c ihc =>
      have hchar := @Table.lookUpPrefix_char table htable.data c input
      rw [← hpending] at hchar
      have hwithin : table.LooksUpWithin chunk.pending input := fun entry hentry => (hchar hentry).1
      obtain ⟨step, hstep⟩ := Option.isSome_iff_exists.mp (addInputInternal_isSome_iff.mpr hwithin)
      obtain ⟨⟨loop, rest⟩, next⟩ := step
      cases loop with
      | false => exact ⟨1, (rest, next), addInput_of_step hstep nofun fun _ => rfl⟩
      | true =>
        have hshown := addInputInternal_transliterated htable hchunk hstep
        obtain ⟨entry, hentry, ⟨c', hc'⟩, hnext, hrest, hne⟩ :=
          addInputInternal_loops htable hchunk hspecial hstep
        have hspecial' : NoSpecialKeys rest := hspecial.suffix (hrest ▸ List.drop_suffix _ _)
        suffices hends : ∃ m r, ∀ fuel, m ≤ fuel → addInput table fuel rest next = some r by
          obtain ⟨m, r, hends⟩ := hends
          exact ⟨m + 1, r, addInput_of_step hstep (fun _ => hends) nofun⟩
        rw [hc'] at hnext
        obtain ⟨hle, hlookUp⟩ := hchar hentry
        by_cases hused : (table.lookUpPrefix (chunk.pending ++ input)).2.1 = chunk.pending.length
        · rw [hused, Nat.sub_self, List.drop_zero] at hrest
          exact ihc c' ⟨entry, hpending ▸ hlookUp hused, hc'⟩ hshown hspecial' hnext (hrest ▸ hn)
        · have hshort : rest.length < n := by
            have hpos : 0 < rest.length := List.length_pos_iff.mpr hne
            have hlength := congrArg List.length hrest
            rw [List.length_drop] at hlength
            omega
          exact ihn rest.length hshort hshown hspecial' hnext rfl

theorem addInput_ends (htable : table.SinglePending)
    (hacyclic : ∀ c, ¬ Relation.TransGen table.LeadsTo c c) (hchunk : chunk.Transliterated)
    (hspecial : NoSpecialKeys input) (hwithin : table.LooksUpWithin chunk.pending input) :
    ∃ m r, ∀ fuel, m ≤ fuel → addInput table fuel input chunk = some r := by
  obtain ⟨step, hstep⟩ := Option.isSome_iff_exists.mp (addInputInternal_isSome_iff.mpr hwithin)
  obtain ⟨⟨loop, rest⟩, next⟩ := step
  cases loop with
  | false => exact ⟨1, (rest, next), addInput_of_step hstep nofun fun _ => rfl⟩
  | true =>
    have hshown := addInputInternal_transliterated htable hchunk hstep
    obtain ⟨entry, -, ⟨c, hc⟩, hnext, hrest, -⟩ := addInputInternal_loops htable hchunk hspecial hstep
    obtain ⟨m, r, hends⟩ := addInput_char_ends htable hacyclic hshown
      (hspecial.suffix (hrest ▸ List.drop_suffix _ _)) (hnext.trans hc)
    exact ⟨m + 1, r, addInput_of_step hstep (fun _ => hends) nofun⟩

theorem addInput_none (h : ¬ table.LooksUpWithin chunk.pending input) (fuel : Nat) :
    addInput table fuel input chunk = none := by
  cases fuel with
  | zero => rfl
  | succ fuel =>
    have hnone : chunk.addInputInternal table input = none := by
      rw [← Option.not_isSome_iff_eq_none]
      exact fun hsome => h (addInputInternal_isSome_iff.mp hsome)
    rw [addInput, hnone]
    rfl

end termination

end CharChunk

end Mozkey.Composer
