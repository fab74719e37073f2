import Mozkey.Session.ZenzPromptBuilder

/-! The fields of a prompt, read back by its markers. -/

namespace Mozkey.Session

open Storage Base

namespace ZenzPromptBuilder

/-- The field whose marker consists of three bytes. -/
def Field.ofBytes? (b0 b1 b2 : UInt8) : Option Field :=
  if b0 = 0xee ∧ b1 = 0xb8 then
    [.reading, .output, .context, .profile, .topic, .style, .settings, .rightContext].find?
      fun field : Field => field.lastByte = b2
  else none

def consText (b : UInt8) (r : Bytes × List (Field × Bytes)) : Bytes × List (Field × Bytes) :=
  (b :: r.1, r.2)

def startField (field : Field) (r : Bytes × List (Field × Bytes)) : Bytes × List (Field × Bytes) :=
  ([], (field, r.1) :: r.2)

/-- The text before the first marker, and the markers with the texts behind them. -/
def splitFields : Bytes → Bytes × List (Field × Bytes)
  | b0 :: b1 :: b2 :: s =>
    match Field.ofBytes? b0 b1 b2 with
    | some field => startField field (splitFields s)
    | none => consText b0 (splitFields (b1 :: b2 :: s))
  | s => (s, [])

def NoMarker (s : Bytes) : Prop := ∀ field : Field, ¬ field.marker <:+: s

theorem ofBytes?_eq_some {b0 b1 b2 : UInt8} {field : Field}
    (h : Field.ofBytes? b0 b1 b2 = some field) : field.marker = [b0, b1, b2] := by
  unfold Field.ofBytes? at h
  split at h
  · rename_i hbytes
    have hlast := List.find?_some h
    rw [decide_eq_true_eq] at hlast
    rw [Field.marker, hbytes.1, hbytes.2, hlast]
  · cases h

theorem ofBytes?_marker (field : Field) : Field.ofBytes? 0xee 0xb8 field.lastByte = some field := by
  cases field <;> rfl

theorem lastByte_ne (field : Field) : field.lastByte ≠ 0xee := by
  cases field <;> decide

theorem splitFields_marker (field : Field) (s : Bytes) :
    splitFields (field.marker ++ s) = startField field (splitFields s) := by
  show splitFields (0xee :: 0xb8 :: field.lastByte :: s) = _
  rw [splitFields, ofBytes?_marker]

theorem splitFields_cons {b : UInt8} {s : Bytes} (h : ∀ field : Field, ¬ field.marker <+: b :: s) :
    splitFields (b :: s) = consText b (splitFields s) := by
  match s with
  | [] => rfl
  | [b1] => rfl
  | b1 :: b2 :: s =>
    rw [splitFields]
    rcases hmarker : Field.ofBytes? b b1 b2 with _ | field
    · rfl
    · refine absurd ?_ (h field)
      rw [ofBytes?_eq_some hmarker]
      exact ⟨s, rfl⟩

theorem splitFields_cons_of_ne {b : UInt8} (h : b ≠ 0xee) (s : Bytes) :
    splitFields (b :: s) = consText b (splitFields s) := by
  apply splitFields_cons
  rintro field ⟨rest, heq⟩
  rw [Field.marker] at heq
  exact h (List.cons.inj heq).1.symm

theorem splitFields_prefix (s : Bytes) : (splitFields s).1 <+: s := by
  induction s using splitFields.induct with
  | case1 b0 b1 b2 s field hmarker _ =>
    rw [splitFields, hmarker]
    exact List.nil_prefix
  | case2 b0 b1 b2 s hmarker ih =>
    rw [splitFields, hmarker]
    exact List.cons_prefix_cons.mpr ⟨rfl, ih⟩
  | case3 s hshort =>
    rw [splitFields]
    exact hshort

theorem noMarker_nil : NoMarker [] := by
  intro field h
  exact absurd (List.infix_nil.mp h) (List.cons_ne_nil _ _)

theorem noMarker_splitFields (s : Bytes) : NoMarker (splitFields s).1 ∧
    ∀ e ∈ (splitFields s).2, NoMarker e.2 := by
  induction s using splitFields.induct with
  | case1 b0 b1 b2 s field hmarker ih =>
    rw [splitFields, hmarker]
    refine ⟨noMarker_nil, ?_⟩
    intro e he
    rcases List.mem_cons.mp he with rfl | he
    · exact ih.1
    · exact ih.2 e he
  | case2 b0 b1 b2 s hmarker ih =>
    rw [splitFields, hmarker]
    refine ⟨?_, ih.2⟩
    intro field h
    rcases List.infix_cons_iff.mp h with hprefix | hother
    · have hwhole : field.marker <+: b0 :: b1 :: b2 :: s :=
        hprefix.trans (List.cons_prefix_cons.mpr ⟨rfl, splitFields_prefix (b1 :: b2 :: s)⟩)
      obtain ⟨rest, heq⟩ := hwhole
      simp only [Field.marker, List.cons_append, List.nil_append, List.cons.injEq] at heq
      rw [← heq.1, ← heq.2.1, ← heq.2.2.1, ofBytes?_marker] at hmarker
      cases hmarker
    · exact ih.1 field hother
  | case3 s hshort =>
    rw [splitFields]
    · refine ⟨?_, fun e he => absurd he List.not_mem_nil⟩
      intro field h
      have hlength := h.length_le
      rcases s with _ | ⟨b0, _ | ⟨b1, _ | ⟨b2, s⟩⟩⟩
      · exact absurd hlength (by simp [Field.marker])
      · exact absurd hlength (by simp [Field.marker])
      · exact absurd hlength (by simp [Field.marker])
      · exact absurd rfl (hshort b0 b1 b2 s)
    · exact hshort

theorem splitFields_append_marker {x : Bytes} (h : NoMarker x) (field : Field) (s : Bytes) :
    splitFields (x ++ (field.marker ++ s)) =
      (x ++ (splitFields (field.marker ++ s)).1, (splitFields (field.marker ++ s)).2) := by
  induction x with
  | nil => rfl
  | cons b x ih =>
    have hx : NoMarker x := fun other hother => h other (hother.trans (List.suffix_cons b x).isInfix)
    rw [List.cons_append, splitFields_cons, ih hx]
    · rfl
    · -- a marker that begins in the text ends in it, since no marker begins in another one
      rintro other ⟨rest, heq⟩
      match x, heq with
      | [], heq =>
        simp only [Field.marker, List.cons_append, List.nil_append, List.cons.injEq] at heq
        exact absurd heq.2.1 (by decide)
      | [b1], heq =>
        simp only [Field.marker, List.cons_append, List.nil_append, List.cons.injEq] at heq
        exact lastByte_ne other heq.2.2.1
      | b1 :: b2 :: x, heq =>
        simp only [Field.marker, List.cons_append, List.nil_append, List.cons.injEq] at heq
        refine h other (List.IsPrefix.isInfix ⟨x, ?_⟩)
        rw [Field.marker, ← heq.1, ← heq.2.1, ← heq.2.2.1]
        rfl

theorem splitFields_of_noMarker {x : Bytes} (h : NoMarker x) : splitFields x = (x, []) := by
  induction x with
  | nil => rfl
  | cons b x ih =>
    have hx : NoMarker x := fun other hother => h other (hother.trans (List.suffix_cons b x).isInfix)
    rw [splitFields_cons fun other hprefix => h other hprefix.isInfix, ih hx]
    rfl

def joinFields (fields : List (Field × Bytes)) : Bytes := fields.flatMap fun e => e.1.marker ++ e.2

theorem splitFields_joinFields {fields : List (Field × Bytes)} (h : ∀ e ∈ fields, NoMarker e.2) :
    splitFields (joinFields fields) = ([], fields) := by
  induction fields with
  | nil => rfl
  | cons e fields ih =>
    obtain ⟨field, t⟩ := e
    have ht := h _ List.mem_cons_self
    have hrest := ih fun e he => h e (List.mem_cons_of_mem _ he)
    have hjoin : joinFields ((field, t) :: fields) = field.marker ++ (t ++ joinFields fields) := by
      rw [joinFields, List.flatMap_cons, List.append_assoc]
      rfl
    rw [hjoin, splitFields_marker]
    rcases fields with _ | ⟨⟨next, t'⟩, fields⟩
    · rw [joinFields, List.flatMap_nil, List.append_nil, splitFields_of_noMarker ht]
      rfl
    · have hnext : joinFields ((next, t') :: fields) = next.marker ++ (t' ++ joinFields fields) := by
        rw [joinFields, List.flatMap_cons, List.append_assoc]
        rfl
      rw [hnext] at hrest ⊢
      rw [splitFields_append_marker ht, hrest, startField]
      simp

end ZenzPromptBuilder

end Mozkey.Session
