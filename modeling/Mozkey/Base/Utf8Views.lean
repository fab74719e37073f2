import Mozkey.Base.SubString

/-! `Util::SplitStringToUtf8Chars` and `Util::Utf8SubString` of `base/util.cc` on the memory behind a
string: the views that they make, by position and size, and when these stay inside. -/

namespace Mozkey.Base

open Storage

/-- A `string_view` into the memory of a string, whose data is at position 0. A negative size stands
for the `size_t` that is as far below 2^64. -/
structure View where
  data : Nat
  size : Int
  deriving DecidableEq

namespace View

def Inside (s : Bytes) (v : View) : Prop := 0 ≤ v.size ∧ v.data + v.size ≤ s.length

instance (s : Bytes) (v : View) : Decidable (v.Inside s) := inferInstanceAs (Decidable (_ ∧ _))

def bytes (s : Bytes) (v : View) : Bytes := (s.drop v.data).take v.size.toNat

end View

/-- The loop of `AppendUtf8CharsImpl` from `begin` on. Each round takes a byte or more. -/
def appendUtf8CharsLoop (s : Bytes) : (fuel start : Nat) → List View
  | 0, _ => []
  | fuel + 1, start =>
    match s[start]? with
    | none => []
    | some b => ⟨start, oneCharLen b⟩ :: appendUtf8CharsLoop s fuel (start + oneCharLen b)

def splitStringToUtf8Chars (s : Bytes) : List View := appendUtf8CharsLoop s s.length 0

/-- The loops of `Util::Utf8SubString`: the position `count` characters behind `position`, or at the
end or past it. -/
def skipChars (s : Bytes) : (count position : Nat) → Nat
  | 0, position => position
  | count + 1, position =>
    match s[position]? with
    | none => position
    | some b => skipChars s count (position + oneCharLen b)

/-- `Util::Utf8SubString` to the end, where `src.size() - prefix_len` may wrap. -/
def utf8SubViewFrom (s : Bytes) (start : Nat) : View :=
  let start := skipChars s start 0
  ⟨start, (s.length : Int) - start⟩

/-- `Util::Utf8SubString`; `end` is that of the string again, also where the size has wrapped. -/
def utf8SubView (s : Bytes) (start length : Nat) : View :=
  let src := utf8SubViewFrom s start
  ⟨src.data, (skipChars s length src.data : Int) - src.data⟩

/-- A sequence of characters of as many bytes as their leading bytes say. -/
def WholeChars (pieces : List Bytes) : Prop :=
  ∀ p ∈ pieces, ∃ b bs, p = b :: bs ∧ p.length = oneCharLen b

def EndsWhole (s : Bytes) : Prop := ∃ pieces, s = pieces.flatten ∧ WholeChars pieces

section pieces

variable {pieces : List Bytes} {pre : Bytes}

theorem getElem?_append_cons (pre : Bytes) (b : UInt8) (rest : Bytes) :
    (pre ++ b :: rest)[pre.length]? = some b := by
  rw [List.getElem?_append_right (le_refl _), Nat.sub_self]
  rfl

theorem wholeChars_cons {p : Bytes} (h : WholeChars (p :: pieces)) :
    (∃ b bs, p = b :: bs ∧ p.length = oneCharLen b) ∧ WholeChars pieces :=
  List.forall_mem_cons.mp h

theorem bytes_piece (pre p rest : Bytes) :
    View.bytes (pre ++ (p ++ rest)) ⟨pre.length, (p.length : Int)⟩ = p := by
  rw [View.bytes, List.drop_left, Int.toNat_natCast, List.take_left]

theorem appendUtf8CharsLoop_whole (h : WholeChars pieces) {fuel : Nat} (hfuel : pieces.length ≤ fuel)
    (pre : Bytes) :
    (∀ v ∈ appendUtf8CharsLoop (pre ++ pieces.flatten) fuel pre.length,
        v.Inside (pre ++ pieces.flatten)) ∧
      (appendUtf8CharsLoop (pre ++ pieces.flatten) fuel pre.length).map
        (View.bytes (pre ++ pieces.flatten)) = pieces := by
  induction pieces generalizing fuel pre with
  | nil =>
    have hend : (pre ++ ([] : List Bytes).flatten)[pre.length]? = none := by
      rw [List.flatten_nil, List.append_nil]
      exact List.getElem?_eq_none (le_refl _)
    cases fuel with
    | zero => exact ⟨nofun, rfl⟩
    | succ fuel =>
      rw [appendUtf8CharsLoop, hend]
      exact ⟨nofun, rfl⟩
  | cons p pieces ih =>
    obtain ⟨⟨b, bs, rfl, hlength⟩, hrest⟩ := wholeChars_cons h
    obtain ⟨fuel, rfl⟩ := Nat.exists_eq_add_of_le' (Nat.le_trans (Nat.le_add_left 1 _) hfuel)
    obtain ⟨hinside, hbytes⟩ := ih hrest (Nat.le_of_succ_le_succ hfuel) (pre ++ b :: bs)
    rw [List.append_assoc, List.length_append] at hinside hbytes
    rw [List.flatten_cons, appendUtf8CharsLoop, List.cons_append, getElem?_append_cons,
      ← List.cons_append]
    simp only [← hlength]
    refine ⟨List.forall_mem_cons.mpr ⟨⟨Int.natCast_nonneg _, ?_⟩, hinside⟩, ?_⟩
    · simp only [List.length_append]
      omega
    · rw [List.map_cons, bytes_piece, hbytes]

theorem appendUtf8CharsLoop_cut (h : WholeChars pieces) {b : UInt8} {bs : Bytes}
    (hcut : (b :: bs).length < oneCharLen b) {fuel : Nat} (hfuel : pieces.length < fuel) (pre : Bytes) :
    ∃ v ∈ appendUtf8CharsLoop (pre ++ (pieces.flatten ++ b :: bs)) fuel pre.length,
      ¬ v.Inside (pre ++ (pieces.flatten ++ b :: bs)) := by
  obtain ⟨fuel, rfl⟩ := Nat.exists_eq_add_of_le' (Nat.succ_le_of_lt (Nat.zero_lt_of_lt hfuel))
  induction pieces generalizing fuel pre with
  | nil =>
    rw [List.flatten_nil, List.nil_append, appendUtf8CharsLoop, getElem?_append_cons]
    refine ⟨_, List.mem_cons_self, fun hinside => ?_⟩
    have hle : ((pre.length : Int)) + oneCharLen b ≤ (pre ++ b :: bs).length := hinside.2
    rw [List.length_append] at hle
    omega
  | cons p pieces ih =>
    obtain ⟨⟨c, cs, rfl, hlength⟩, hrest⟩ := wholeChars_cons h
    rw [List.length_cons] at hfuel
    obtain ⟨fuel, rfl⟩ := Nat.exists_eq_add_of_le' (show 1 ≤ fuel by omega)
    obtain ⟨v, hv, hinside⟩ := ih hrest (pre ++ c :: cs) fuel (by omega)
    rw [List.append_assoc, List.length_append, hlength] at hv
    rw [List.append_assoc] at hinside
    rw [List.flatten_cons, List.append_assoc, appendUtf8CharsLoop, List.cons_append,
      getElem?_append_cons, ← List.cons_append]
    exact ⟨v, List.mem_cons_of_mem _ hv, hinside⟩

theorem skipChars_whole (h : WholeChars pieces) (count : Nat) (pre : Bytes) :
    skipChars (pre ++ pieces.flatten) count pre.length =
      pre.length + (pieces.take count).flatten.length := by
  induction count generalizing pieces pre with
  | zero => rfl
  | succ count ih =>
    cases pieces with
    | nil =>
      rw [skipChars, List.flatten_nil, List.append_nil, List.getElem?_eq_none (le_refl _)]
      rfl
    | cons p pieces =>
      obtain ⟨⟨b, bs, rfl, hlength⟩, hrest⟩ := wholeChars_cons h
      have hih := ih hrest (pre ++ b :: bs)
      rw [List.append_assoc, List.length_append] at hih
      rw [List.flatten_cons, skipChars, List.cons_append, getElem?_append_cons, ← List.cons_append]
      simp only [← hlength]
      rw [hih, List.take_succ_cons, List.flatten_cons, List.length_append, Nat.add_assoc]

theorem charsLen_whole (h : WholeChars pieces) : charsLen pieces.flatten = pieces.length := by
  induction pieces with
  | nil => rfl
  | cons p pieces ih =>
    obtain ⟨⟨b, bs, rfl, hlength⟩, hrest⟩ := wholeChars_cons h
    rw [List.flatten_cons, List.cons_append, charsLen_cons, ← hlength, ← List.cons_append,
      List.drop_left, ih hrest, List.length_cons]

theorem exists_pieces (s : Bytes) : ∃ pieces, WholeChars pieces ∧
    (s = pieces.flatten ∨ ∃ b bs, s = pieces.flatten ++ b :: bs ∧ (b :: bs).length < oneCharLen b) := by
  induction hn : s.length using Nat.strong_induction_on generalizing s with
  | _ n ih =>
    cases s with
    | nil => exact ⟨[], nofun, .inl rfl⟩
    | cons b s =>
      by_cases hle : oneCharLen b ≤ (b :: s).length
      · have hpos := oneCharLen_pos b
        have hlength : ((b :: s).take (oneCharLen b)).length = oneCharLen b :=
          List.length_take_of_le hle
        obtain ⟨pieces, hpieces, hrest⟩ := ih ((b :: s).drop (oneCharLen b)).length (by
          rw [List.length_drop]
          omega) _ rfl
        have hfirst : ∃ c cs, (b :: s).take (oneCharLen b) = c :: cs ∧
            ((b :: s).take (oneCharLen b)).length = oneCharLen c := by
          obtain ⟨m, hm⟩ := Nat.exists_eq_add_of_le' hpos
          exact ⟨b, s.take m, by rw [hm, List.take_succ_cons], hlength⟩
        refine ⟨(b :: s).take (oneCharLen b) :: pieces,
          List.forall_mem_cons.mpr ⟨hfirst, hpieces⟩, ?_⟩
        rw [List.flatten_cons]
        rcases hrest with hwhole | ⟨c, cs, hcs, hcut⟩
        · exact .inl (by rw [← hwhole, List.take_append_drop])
        · exact .inr ⟨c, cs, by rw [List.append_assoc, ← hcs, List.take_append_drop], hcut⟩
      · exact ⟨[], nofun, .inr ⟨b, s, rfl, Nat.lt_of_not_le hle⟩⟩

theorem length_le_flatten (h : WholeChars pieces) : pieces.length ≤ pieces.flatten.length := by
  rw [← charsLen_whole h]
  induction pieces with
  | nil => exact Nat.zero_le _
  | cons p pieces ih =>
    obtain ⟨⟨b, bs, rfl, hlength⟩, hrest⟩ := wholeChars_cons h
    have hle := ih hrest
    rw [charsLen_whole hrest] at hle
    rw [charsLen_whole h, List.flatten_cons, List.length_append, List.length_cons, List.length_cons]
    omega

theorem splitStringToUtf8Chars_whole (h : WholeChars pieces) :
    (∀ v ∈ splitStringToUtf8Chars pieces.flatten, v.Inside pieces.flatten) ∧
      (splitStringToUtf8Chars pieces.flatten).map (View.bytes pieces.flatten) = pieces :=
  appendUtf8CharsLoop_whole h (length_le_flatten h) []

theorem drop_flatten (pieces : List Bytes) (i : Nat) :
    pieces.flatten.drop (pieces.take i).flatten.length = (pieces.drop i).flatten := by
  conv_lhs => rw [← List.take_append_drop i pieces, List.flatten_append, List.take_append_drop]
  exact List.drop_left

theorem utf8SubViewFrom_whole (h : WholeChars pieces) (start : Nat) :
    (utf8SubViewFrom pieces.flatten start).Inside pieces.flatten ∧
      (utf8SubViewFrom pieces.flatten start).data = (pieces.take start).flatten.length := by
  have hskip : skipChars pieces.flatten start 0 = 0 + (pieces.take start).flatten.length :=
    skipChars_whole h start []
  have hle : (pieces.take start).flatten.length ≤ pieces.flatten.length := by
    conv_rhs => rw [← List.take_append_drop start pieces, List.flatten_append, List.length_append]
    exact Nat.le_add_right _ _
  rw [Nat.zero_add] at hskip
  rw [utf8SubViewFrom, hskip, View.Inside]
  dsimp only
  exact ⟨⟨by omega, by omega⟩, rfl⟩

theorem utf8SubView_whole (h : WholeChars pieces) (start length : Nat) :
    (utf8SubView pieces.flatten start length).Inside pieces.flatten ∧
      (utf8SubView pieces.flatten start length).bytes pieces.flatten =
        ((pieces.drop start).take length).flatten := by
  obtain ⟨-, hdata⟩ := utf8SubViewFrom_whole h start
  have hrest : WholeChars (pieces.drop start) := fun p hp => h p (List.mem_of_mem_drop hp)
  have hsplit : pieces.flatten = (pieces.take start).flatten ++ (pieces.drop start).flatten := by
    rw [← List.flatten_append, List.take_append_drop]
  have hskip := skipChars_whole hrest length (pieces.take start).flatten
  rw [← hsplit] at hskip
  have hle : ((pieces.drop start).take length).flatten.length ≤
      (pieces.drop start).flatten.length := by
    conv_rhs => rw [← List.take_append_drop length (pieces.drop start), List.flatten_append,
      List.length_append]
    exact Nat.le_add_right _ _
  have hlength := congrArg List.length hsplit
  rw [List.length_append] at hlength
  rw [utf8SubView, hdata, hskip, View.Inside, View.bytes]
  dsimp only
  refine ⟨⟨by omega, by omega⟩, ?_⟩
  have htake := drop_flatten (pieces.drop start) length
  have hsize : ((((pieces.take start).flatten.length +
      ((pieces.drop start).take length).flatten.length : Nat) : Int) -
        ((pieces.take start).flatten.length : Nat)).toNat =
          ((pieces.drop start).take length).flatten.length := by
    omega
  rw [hsize, drop_flatten]
  conv_lhs => rw [← List.take_append_drop length (pieces.drop start), List.flatten_append,
    List.take_append_drop]
  exact List.take_left

/-- On a string without a cut-off character this is the substring of the clipped loops. -/
theorem bytes_utf8SubView (h : WholeChars pieces) (start length : Nat) :
    (utf8SubView pieces.flatten start length).bytes pieces.flatten =
      utf8SubString pieces.flatten start length := by
  rw [(utf8SubView_whole h start length).2, utf8SubString]
  have hdrop : utf8Drop start pieces.flatten = (pieces.drop start).flatten := by
    induction start generalizing pieces with
    | zero => rfl
    | succ start ih =>
      cases pieces with
      | nil => rfl
      | cons p pieces =>
        obtain ⟨⟨b, bs, rfl, hlength⟩, hrest⟩ := wholeChars_cons h
        rw [List.flatten_cons, List.cons_append, utf8Drop, ← hlength, ← List.cons_append,
          List.drop_left, ih hrest, List.drop_succ_cons]
  rw [hdrop]
  have hrest : WholeChars (pieces.drop start) := fun p hp => h p (List.mem_of_mem_drop hp)
  generalize pieces.drop start = rest at hrest
  induction length generalizing rest with
  | zero => rfl
  | succ length ih =>
    cases rest with
    | nil => rfl
    | cons p rest =>
      obtain ⟨⟨b, bs, rfl, hlength⟩, htail⟩ := wholeChars_cons hrest
      rw [List.flatten_cons, List.cons_append, utf8Take, ← hlength, ← List.cons_append,
        List.drop_left, List.take_left, ← ih rest htail, List.take_succ_cons, List.flatten_cons]

theorem bytes_utf8SubView_ab : (utf8SubView [[0x61], [0x62]].flatten 1 1).bytes
    [[0x61], [0x62]].flatten = utf8SubString [[0x61], [0x62]].flatten 1 1 := by
  refine bytes_utf8SubView (fun p hp => ?_) 1 1
  rcases List.mem_pair.mp hp with rfl | rfl <;> exact ⟨_, _, rfl, rfl⟩

end pieces

/-- What the three functions are to do with a string, a start and a length: stay inside, and agree on
the characters. -/
structure ReadsInside (s : Bytes) (i n : Nat) : Prop where
  split : ∀ v ∈ splitStringToUtf8Chars s, v.Inside s
  concat : ((splitStringToUtf8Chars s).map (View.bytes s)).flatten = s
  count : (splitStringToUtf8Chars s).length = charsLen s
  subFrom : (utf8SubViewFrom s i).Inside s
  sub : (utf8SubView s i n).Inside s ∧ (utf8SubView s i n).bytes s =
    ((((splitStringToUtf8Chars s).map (View.bytes s)).drop i).take n).flatten

/-- They do exactly on the strings that no character of is cut off at the end. -/
theorem readsInside_iff (s : Bytes) (i n : Nat) : ReadsInside s i n ↔ EndsWhole s := by
  constructor
  · intro h
    obtain ⟨pieces, hpieces, rfl | ⟨b, bs, rfl, hcut⟩⟩ := exists_pieces s
    · exact ⟨pieces, rfl, hpieces⟩
    · have hfuel : pieces.length < (pieces.flatten ++ b :: bs).length := by
        have hle := length_le_flatten hpieces
        rw [List.length_append, List.length_cons]
        omega
      obtain ⟨v, hv, hinside⟩ := appendUtf8CharsLoop_cut hpieces hcut hfuel []
      exact absurd (h.split v hv) hinside
  · rintro ⟨pieces, rfl, hpieces⟩
    obtain ⟨hinside, hbytes⟩ := splitStringToUtf8Chars_whole hpieces
    refine ⟨hinside, by rw [hbytes], ?_, (utf8SubViewFrom_whole hpieces i).1, ?_⟩
    · rw [charsLen_whole hpieces, ← List.length_map (View.bytes pieces.flatten), hbytes]
    · rw [hbytes]
      exact utf8SubView_whole hpieces i n

/-- A kana that is cut off: the split and the substring take a third byte, and behind it the size of
the rest has wrapped. -/
theorem not_readsInside_cut :
    splitStringToUtf8Chars [0x61, 0xe3, 0x81] = [⟨0, 1⟩, ⟨1, 3⟩] ∧
      charsLen [0x61, 0xe3, 0x81] = 2 ∧ utf8SubView [0x61, 0xe3, 0x81] 0 2 = ⟨0, 4⟩ ∧
        utf8SubViewFrom [0x61, 0xe3, 0x81] 2 = ⟨4, -1⟩ ∧ ¬ ReadsInside [0x61, 0xe3, 0x81] 0 2 := by
  refine ⟨by decide, by decide, by decide, by decide, fun h => ?_⟩
  exact absurd (h.split ⟨1, 3⟩ (by decide)) (by decide)

end Mozkey.Base
