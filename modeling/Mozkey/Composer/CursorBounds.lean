import Mozkey.Composer.CompositionDelete
import Mozkey.Lib.Runs

/-! The cursor of the composer stays within the text, as long as the characters that `DeleteRange` takes
away are gone one by one. -/

namespace Mozkey.Composer

open Storage Base Session Lib Mozkey.Composer.Composition

/-- The composer with its chunks, or with none where an operation has not returned. -/
abbrev Editor := Session.Composer (Option (List CharChunk))

namespace Editor

section operations

variable (transliterators : Transliterators) (table : Table) (fuel maxLength : Nat)
  (rest : ComposerOps (Option (List CharChunk)))

/-- The operations of the composition; the others of the composer play no part here. -/
def ops : ComposerOps (Option (List CharChunk)) :=
  { rest with
    getLength := fun chunks => lengthOf transliterators none (chunks.getD [])
    erase := fun _ => some []
    deleteAt := fun chunks position =>
      match chunks.bind fun chunks =>
          ({ chunks } : Composition).deleteAt transliterators fuel position with
      | some (newPosition, composition) => (some composition.chunks, newPosition)
      | none => (none, position)
    setTransliterator := fun chunks positionFrom positionTo t12r => chunks.map fun chunks =>
      (({ chunks } : Composition).setTransliterator transliterators positionFrom positionTo t12r).chunks
    getTransliterator := fun chunks position =>
      (({ chunks := chunks.getD [] } : Composition).getTransliterator transliterators position).getD
        .conversionString }

def setTemporaryInputMode (mode : TransliterationType) (editor : Editor) : Editor :=
  { editor.setInputMode mode with comebackInputMode := editor.inputMode }

/-- Nothing is inserted into a text of the greatest length. -/
def processCompositionInput (input : CompositionInput) (editor : Editor) : Editor :=
  if maxLength ≤ editor.getLength (ops transliterators fuel rest) then editor
  else
    match editor.chunks.bind fun chunks =>
        ({ chunks, inputT12r := editor.inputT12r } : Composition).insertInput transliterators table fuel
          editor.position input with
    | some (position, composition) =>
      { editor with chunks := some composition.chunks, position, isNewInput := false }
    | none => { editor with chunks := none }

/-- The steps that the editing operations of the composer are made of. -/
inductive Event where
  | processCompositionInput (input : CompositionInput)
  | setInputT12r (t12r : Transliterator)
  | setInputMode (mode : TransliterationType)
  | setTemporaryInputMode (mode : TransliterationType)
  | updateInputMode
  | toggleInputMode
  | setNewInput
  | setOutputMode (mode : TransliterationType)
  | deleteAt (position : Nat)
  | deleteRange (position length : Nat)
  | delete
  | backspace
  | moveCursorLeft
  | moveCursorRight
  | moveCursorToBeginning
  | moveCursorToEnd
  | moveCursorTo (position : Nat)
  | editErase
  | reset

def apply (editor : Editor) : Event → Editor
  | .processCompositionInput input =>
    processCompositionInput transliterators table fuel maxLength rest input editor
  | .setInputT12r t12r => { editor with inputT12r := t12r }
  | .setInputMode mode => editor.setInputMode mode
  | .setTemporaryInputMode mode => setTemporaryInputMode mode editor
  | .updateInputMode => editor.updateInputMode (ops transliterators fuel rest)
  | .toggleInputMode => editor.toggleInputMode
  | .setNewInput => editor.setNewInput
  | .setOutputMode mode => editor.setOutputMode (ops transliterators fuel rest) mode
  | .deleteAt position => editor.deleteAt (ops transliterators fuel rest) position
  | .deleteRange position length => editor.deleteRange (ops transliterators fuel rest) position length
  | .delete => editor.delete (ops transliterators fuel rest)
  | .backspace => editor.backspace (ops transliterators fuel rest)
  | .moveCursorLeft => editor.moveCursorLeft (ops transliterators fuel rest)
  | .moveCursorRight => editor.moveCursorRight (ops transliterators fuel rest)
  | .moveCursorToBeginning => editor.moveCursorToBeginning
  | .moveCursorToEnd => editor.moveCursorToEnd (ops transliterators fuel rest)
  | .moveCursorTo position => editor.moveCursorTo (ops transliterators fuel rest) position
  | .editErase => editor.editErase (ops transliterators fuel rest)
  | .reset => editor.reset (ops transliterators fuel rest)

def step (editor : Editor) (event : Event) : Option Editor :=
  let editor := apply transliterators table fuel maxLength rest editor event
  if editor.chunks.isSome then some editor else none

/-- Where a character is deleted by its position, the chunk that holds it is cut evenly. -/
def EvenDeletion (editor : Editor) (position : Nat) : Prop :=
  ∀ chunks, editor.chunks = some chunks →
    ({ chunks } : Composition).CutsEvenlyAt transliterators position

def EvenRange (position : Nat) : (length : Nat) → Editor → Prop
  | 0, _ => True
  | length + 1, editor =>
    position < editor.getLength (ops transliterators fuel rest) →
      EvenDeletion transliterators editor position ∧
        EvenRange position length (editor.deleteAt (ops transliterators fuel rest) position)

def CutsOk (editor : Editor) : Event → Prop
  | .deleteAt position => EvenDeletion transliterators editor position
  | .deleteRange position length => EvenRange transliterators fuel rest position length editor
  | _ => True

def Within (chunks : Option (List CharChunk)) (position : Nat) : Prop :=
  ∀ text, chunks = some text → position ≤ lengthOf transliterators none text

end operations

section invariant

variable {transliterators : Transliterators} {table : Table} {fuel maxLength : Nat}
  {rest : ComposerOps (Option (List CharChunk))} {editor editor' : Editor}

theorem within_none (position : Nat) : Within transliterators none position := nofun

theorem Within.of_le {chunks : Option (List CharChunk)} {p q : Nat}
    (h : Within transliterators chunks p) (hle : q ≤ p) : Within transliterators chunks q :=
  fun text htext => Nat.le_trans hle (h text htext)

theorem within_length (chunks : Option (List CharChunk)) :
    Within transliterators chunks ((ops transliterators fuel rest).getLength chunks) := by
  rintro text rfl
  exact Nat.le_refl _

theorem updateInputMode_chunks (ops : ComposerOps (Option (List CharChunk))) (editor : Editor) :
    (editor.updateInputMode ops).chunks = editor.chunks := by
  rw [Composer.updateInputMode]
  dsimp only
  split <;> rfl

theorem updateInputMode_position (ops : ComposerOps (Option (List CharChunk))) (editor : Editor) :
    (editor.updateInputMode ops).position = editor.position := by
  rw [Composer.updateInputMode]
  dsimp only
  split <;> rfl

theorem ops_deleteAt_within {chunks : Option (List CharChunk)} {position : Nat}
    (h : Within transliterators chunks position) :
    Within transliterators ((ops transliterators fuel rest).deleteAt chunks position).1
      ((ops transliterators fuel rest).deleteAt chunks position).2 := by
  cases chunks with
  | none => exact within_none _
  | some text =>
    have hle := h text rfl
    simp only [ops, Option.bind_some]
    cases hdelete : ({ chunks := text } : Composition).deleteAt transliterators fuel position with
    | none => exact within_none _
    | some r =>
      rintro _ ⟨⟩
      exact deleteAtLoop_le hle hdelete

theorem deleteAt_within {position : Nat} (h : Within transliterators editor.chunks editor.position)
    (heven : EvenDeletion transliterators editor position) :
    Within transliterators (editor.deleteAt (ops transliterators fuel rest) position).chunks
      (editor.deleteAt (ops transliterators fuel rest) position).position := by
  rw [Composer.deleteAt]
  dsimp only
  cases hchunks : editor.chunks with
  | none => exact within_none _
  | some text =>
    have hle := h text hchunks
    simp only [ops, Option.bind_some]
    cases hdelete : ({ chunks := text } : Composition).deleteAt transliterators fuel position with
    | none => exact within_none _
    | some r =>
      rintro _ ⟨⟩
      by_cases hposition : position < lengthOf transliterators none text
      · have hlength := getLength_deleteAt hposition (heven text hchunks) hdelete
        change lengthOf transliterators none r.2.chunks + 1 = lengthOf transliterators none text at hlength
        split <;> omega
      · have hlength := deleteAtLoop_of_length_le rfl (Nat.le_of_not_lt hposition) hdelete
        change lengthOf transliterators none r.2.chunks = lengthOf transliterators none text at hlength
        rw [if_neg (by omega), hlength]
        exact hle

theorem deleteRange_within {position length : Nat}
    (h : Within transliterators editor.chunks editor.position)
    (heven : EvenRange transliterators fuel rest position length editor) :
    Within transliterators (editor.deleteRange (ops transliterators fuel rest) position length).chunks
      (editor.deleteRange (ops transliterators fuel rest) position length).position := by
  induction length generalizing editor with
  | zero => exact h
  | succ length ih =>
    rw [Composer.deleteRange]
    by_cases hposition : position < editor.getLength (ops transliterators fuel rest)
    · rw [if_pos hposition]
      obtain ⟨hfirst, hrest⟩ := heven hposition
      exact ih (deleteAt_within h hfirst) hrest
    · rw [if_neg hposition]
      exact h

theorem insertInput_within {composition composition' : Composition} {position newPosition : Nat}
    {input : CompositionInput} (hle : position ≤ composition.getLength transliterators)
    (h : composition.insertInput transliterators table fuel position input =
      some (newPosition, composition')) :
    newPosition ≤ lengthOf transliterators none composition'.chunks := by
  rw [Composition.insertInput] at h
  split at h
  · cases h
    exact hle
  · simp only [Option.bind_eq_bind, Option.bind_eq_some_iff] at h
    obtain ⟨parts, -, hr⟩ := h
    cases hr
    rw [lengthOf_append]
    exact Nat.le_add_right _ _

theorem processCompositionInput_within {input : CompositionInput}
    (h : Within transliterators editor.chunks editor.position) :
    Within transliterators
      (processCompositionInput transliterators table fuel maxLength rest input editor).chunks
      (processCompositionInput transliterators table fuel maxLength rest input editor).position := by
  rw [processCompositionInput]
  split
  · exact h
  cases hchunks : editor.chunks with
  | none => exact within_none _
  | some text =>
    simp only [Option.bind_some]
    cases hinsert : ({ chunks := text, inputT12r := editor.inputT12r } : Composition).insertInput
        transliterators table fuel editor.position input with
    | none => exact within_none _
    | some r =>
      rintro _ ⟨⟩
      exact insertInput_within (h text hchunks) hinsert

theorem apply_within (h : Within transliterators editor.chunks editor.position) {event : Event}
    (hcuts : CutsOk transliterators fuel rest editor event) :
    Within transliterators (apply transliterators table fuel maxLength rest editor event).chunks
      (apply transliterators table fuel maxLength rest editor event).position := by
  cases event with
  | processCompositionInput input => exact processCompositionInput_within h
  | setInputT12r t12r => exact h
  | setInputMode mode => exact h
  | setTemporaryInputMode mode => exact h
  | updateInputMode =>
    rw [apply, updateInputMode_chunks, updateInputMode_position]
    exact h
  | toggleInputMode =>
    rw [apply, Composer.toggleInputMode]
    split <;> exact h
  | setNewInput => exact h
  | setOutputMode mode => exact @within_length transliterators fuel rest _
  | deleteAt position => exact deleteAt_within h hcuts
  | deleteRange position length => exact deleteRange_within h hcuts
  | delete =>
    rw [apply, Composer.delete, updateInputMode_chunks, updateInputMode_position]
    exact @ops_deleteAt_within transliterators fuel rest _ _ h
  | backspace =>
    rw [apply, Composer.backspace]
    split
    · exact h
    · refine @ops_deleteAt_within transliterators fuel rest _ _ ?_
      rw [updateInputMode_chunks, updateInputMode_position]
      exact h.of_le (Nat.sub_le _ _)
  | moveCursorLeft =>
    rw [apply, Composer.moveCursorLeft, updateInputMode_chunks, updateInputMode_position]
    exact h.of_le (Nat.sub_le _ _)
  | moveCursorRight =>
    rw [apply, Composer.moveCursorRight, updateInputMode_chunks, updateInputMode_position]
    dsimp only
    split
    · rename_i hlt
      exact (@within_length transliterators fuel rest editor.chunks).of_le hlt
    · exact h
  | moveCursorToBeginning => exact fun _ _ => Nat.zero_le _
  | moveCursorToEnd => exact @within_length transliterators fuel rest _
  | moveCursorTo position =>
    rw [apply, Composer.moveCursorTo]
    split
    · rename_i hle
      rw [updateInputMode_chunks, updateInputMode_position]
      exact (@within_length transliterators fuel rest editor.chunks).of_le hle
    · exact h
  | editErase => exact fun _ _ => Nat.zero_le _
  | reset => exact @within_length transliterators fuel rest _

/-- In every run in which `DeleteRange` cuts chunks evenly, the cursor is never behind the end of the
text. -/
theorem cursor_within {events : List Event}
    (hrun : Run (step transliterators table fuel maxLength rest) (CutsOk transliterators fuel rest)
      { chunks := some [] } events editor) :
    ∃ text, editor.chunks = some text ∧ editor.position ≤ lengthOf transliterators none text := by
  have hboth : editor.chunks.isSome ∧ Within transliterators editor.chunks editor.position := by
    refine hrun.inv (p := fun editor : Editor => editor.chunks.isSome ∧
      Within transliterators editor.chunks editor.position) ⟨rfl, fun _ _ => Nat.zero_le _⟩ ?_
    intro s e s' hs hcuts hstep
    rw [step] at hstep
    split at hstep
    · rename_i hsome
      cases hstep
      exact ⟨hsome, apply_within hs.2 hcuts⟩
    · cases hstep
  obtain ⟨text, htext⟩ := Option.isSome_iff_exists.mp hboth.1
  exact ⟨text, htext, hboth.2 text htext⟩

end invariant

section examples

def plainOps : ComposerOps (Option (List CharChunk)) where
  getLength _ := 0
  getQueryForConversion _ := []
  getString _ := []
  getRawString _ := []
  isToggleable _ _ := false
  erase chunks := chunks
  deleteAt chunks position := (chunks, position)
  setTransliterator chunks _ _ _ := chunks
  getTransliterator _ _ := .hiragana
  shouldCommit _ := false
  fullWidthAsciiToHalfWidthAscii text := text
  insertCharacterKeyEvent _ editor := editor
  insertCharacterPreedit _ editor := editor
  rewind editor := editor
  stopKeyToggling editor := editor
  insertHandwriting _ editor := editor
  updateInputModeFromSurroundingText := false

def plainStep (table : Table) : Editor → Event → Option Editor :=
  step plainUtil.transliterators table 5 256 plainOps

/-- Two characters of chunks of their own, of which the first one is deleted. -/
theorem cursor_within_two : ∃ editor text,
    Run (plainStep Table.new) (CutsOk plainUtil.transliterators 5 plainOps) { chunks := some [] }
      [.processCompositionInput { raw := utf8 ['a', 'b'] }, .deleteRange 0 1] editor ∧
    editor.chunks = some text ∧ editor.position ≤ lengthOf plainUtil.transliterators none text := by
  have hrun : (plainStep Table.new { chunks := some [] }
      (.processCompositionInput { raw := utf8 ['a', 'b'] })).any fun editor =>
        (editor.chunks.any fun text => text.all fun chunk =>
          chunk.getLength plainUtil.transliterators none ≤ 1) &&
        (plainStep Table.new editor (.deleteRange 0 1)).isSome := by
    decide +kernel
  obtain ⟨typed, htyped, hrest⟩ := (Option.any_eq_true _ _).mp hrun
  obtain ⟨hshort, hdelete⟩ := Bool.and_eq_true_iff.mp hrest
  obtain ⟨editor, heditor⟩ := Option.isSome_iff_exists.mp hdelete
  have hcuts : CutsOk plainUtil.transliterators 5 plainOps typed (.deleteRange 0 1) := by
    refine fun _ => ⟨fun chunks hchunks => cutsEvenlyAt_of_short fun chunk hchunk => ?_, trivial⟩
    rw [hchunks, Option.any_some, List.all_eq_true] at hshort
    exact of_decide_eq_true (hshort chunk hchunk)
  have hfirst : CutsOk plainUtil.transliterators 5 plainOps { chunks := some [] }
      (.processCompositionInput { raw := utf8 ['a', 'b'] }) := trivial
  have hall := (Run.nil.snoc hfirst htyped).snoc hcuts heditor
  obtain ⟨text, htext, hle⟩ := cursor_within hall
  exact ⟨editor, text, hall, htext, hle⟩

/-- All three characters that are displayed for `x` go at once, and the cursor goes back by one. -/
theorem not_cursor_within : ¬ ∀ fuel text table, loadFromString fuel text = some table →
    ∀ events editor, Run (plainStep table) (fun _ _ => True) { chunks := some [] } events editor →
      ∃ text, editor.chunks = some text ∧
        editor.position ≤ lengthOf plainUtil.transliterators none text := by
  intro h
  have hload : (loadFromString 5 (utf8 ("x\tあいう\t\tDisplayAmbiguousResult\nxy\tえ").toList)).any
      fun table =>
        (plainStep table { chunks := some [] } (.processCompositionInput { raw := utf8 ['x'] })).any
          fun typed => (plainStep table typed (.deleteRange 0 1)).any fun editor =>
            editor.chunks.any fun text =>
              lengthOf plainUtil.transliterators none text < editor.position := by
    decide +kernel
  obtain ⟨table, htable, htyped⟩ := (Option.any_eq_true _ _).mp hload
  obtain ⟨typed, hstep, hdelete⟩ := (Option.any_eq_true _ _).mp htyped
  obtain ⟨editor, hstep', hbehind⟩ := (Option.any_eq_true _ _).mp hdelete
  obtain ⟨text, htext, hlt⟩ := (Option.any_eq_true _ _).mp hbehind
  obtain ⟨text', htext', hle⟩ := h 5 _ table htable _ editor
    ((Run.nil.snoc trivial hstep).snoc trivial hstep')
  rw [htext] at htext'
  obtain rfl := Option.some.inj htext'
  exact absurd hle (Nat.not_le_of_lt (of_decide_eq_true hlt))

end examples

end Editor

end Mozkey.Composer
