import Mozkey.Base.Utf8Views

/-! `Util::SplitCSV` of `base/util.cc`, which unescapes in a copy of the line, on lines of quoted and
of bare fields. -/

namespace Mozkey.Base

open Storage

namespace SplitCsv

/-- `while (*str == ' ' || *str == '\t') ++str`; no result stands for a read outside the copy. -/
def skipBlanks (tmp : Bytes) : (fuel str : Nat) → Option Nat
  | 0, _ => none
  | fuel + 1, str => do
    let c ← tmp[str]?
    if c = 0x20 ∨ c = 0x09 then skipBlanks tmp fuel (str + 1) else some str

def write (tmp : Bytes) (p : Nat) (c : UInt8) : Option Bytes :=
  if p < tmp.length then some (tmp.set p c) else none

/-- The loop over a quoted field: the copy, `str` and `end`. -/
def copyQuoted (eos : Nat) : (fuel : Nat) → Bytes → (str stop : Nat) → Option (Bytes × Nat × Nat)
  | 0, _, _, _ => none
  | fuel + 1, tmp, str, stop =>
    if str < eos then do
      let c ← tmp[str]?
      if c = 0x22 then do
        let c ← tmp[str + 1]?
        if c ≠ 0x22 then some (tmp, str + 1, stop)
        else do
          let tmp ← write tmp stop c
          copyQuoted eos fuel tmp (str + 2) (stop + 1)
      else do
        let tmp ← write tmp stop c
        copyQuoted eos fuel tmp (str + 1) (stop + 1)
    else some (tmp, str, stop)

def findComma (tmp : Bytes) (str eos : Nat) : Option Nat :=
  if str ≤ eos then some (str + (((tmp.take eos).drop str).takeWhile (· ≠ 0x2c)).length) else none

/-- A field behind its blanks: the copy, `start`, `str` and `end`. -/
def readField (eos : Nat) (tmp : Bytes) (str : Nat) : Option (Bytes × Nat × Nat × Nat) := do
  let c ← tmp[str]?
  if c = 0x22 then do
    let (tmp, closing, stop) ← copyQuoted eos tmp.length tmp (str + 1) (str + 1)
    let comma ← findComma tmp closing eos
    some (tmp, str + 1, comma, stop)
  else do
    let comma ← findComma tmp str eos
    some (tmp, str, comma, comma)

/-- The fields that a round of the loop puts out: the one it has read, and an empty one behind a comma
at the end. -/
def outputs (eos : Nat) (tmp : Bytes) (start stop : Nat) : Option (List Bytes) := do
  let c ← tmp[stop]?
  let endIsEmpty := c = 0x2c ∧ stop = eos - 1
  let field := (tmp.take stop).drop start
  some (if endIsEmpty then [field, []] else [field])

def splitLoop (eos : Nat) : (fuel : Nat) → Bytes → (str : Nat) → Option (List Bytes)
  | 0, _, _ => none
  | fuel + 1, tmp, str =>
    if str < eos then do
      let str ← skipBlanks tmp tmp.length str
      let (tmp, start, str, stop) ← readField eos tmp str
      let fields ← outputs eos tmp start stop
      (splitLoop eos fuel tmp (str + 1)).map (fields ++ ·)
    else some []

end SplitCsv

/-- `Util::SplitCSV`, on a copy of the line with a NUL behind it; no result stands for a read or a
write outside that copy, or for a loop that does not end. -/
def Util.splitCSV (input : Bytes) : Option (List Bytes) :=
  SplitCsv.splitLoop input.length (input.length + 1) (input ++ [0]) 0

/-- A field and how it is written: bare only without commas, quotes and a blank in front. -/
structure CsvField where
  text : Bytes
  quoted : Bool
  bare : quoted = false → 0x2c ∉ text ∧ 0x22 ∉ text ∧ text.head? ≠ some 0x20 ∧ text.head? ≠ some 0x09

namespace CsvField

def doubled (text : Bytes) : Bytes := text.flatMap fun c => if c = 0x22 then [c, c] else [c]

def written (f : CsvField) : Bytes :=
  if f.quoted then 0x22 :: (doubled f.text ++ [0x22]) else f.text

def bareEmpty : CsvField := ⟨[], false, fun _ => by decide⟩

theorem eq_bareEmpty {f : CsvField} (htext : f.text = []) (hquoted : f.quoted = false) :
    f = bareEmpty := by
  obtain ⟨text, quoted, bare⟩ := f
  cases htext
  cases hquoted
  rfl

end CsvField

def csvLine (fields : List CsvField) : Bytes := [0x2c].intercalate (fields.map CsvField.written)

namespace SplitCsv

section safety

variable {eos : Nat} {tmp : Bytes}

/-- A copy of a line of `eos` bytes, with its NUL. -/
def IsCopy (eos : Nat) (tmp : Bytes) : Prop := tmp.length = eos + 1 ∧ tmp[eos]? = some 0

theorem IsCopy.exists_getElem? (h : IsCopy eos tmp) {str : Nat} (hle : str ≤ eos) :
    ∃ c, tmp[str]? = some c :=
  ⟨_, List.getElem?_eq_getElem (by rw [h.1]; omega)⟩

theorem IsCopy.lt_of_ne (h : IsCopy eos tmp) {str : Nat} {c : UInt8} (hle : str ≤ eos)
    (hc : tmp[str]? = some c) (hne : c ≠ 0) : str < eos := by
  refine lt_of_le_of_ne hle ?_
  rintro rfl
  rw [h.2] at hc
  exact hne (Option.some.inj hc).symm

theorem skipBlanks_some (h : IsCopy eos tmp) (fuel str : Nat) (hle : str ≤ eos)
    (hfuel : eos - str < fuel) : ∃ str', skipBlanks tmp fuel str = some str' ∧ str ≤ str' ∧ str' ≤ eos := by
  induction fuel generalizing str with
  | zero => exact absurd hfuel (Nat.not_lt_zero _)
  | succ fuel ih =>
    obtain ⟨c, hc⟩ := h.exists_getElem? hle
    rw [skipBlanks, hc]
    simp only [Option.bind_eq_bind, Option.bind_some]
    split
    · rename_i hblank
      have hlt := h.lt_of_ne hle hc (by rintro rfl; exact absurd hblank (by decide))
      obtain ⟨str', hstr', hmin, hmax⟩ := ih (str + 1) (by omega) (by omega)
      exact ⟨str', hstr', by omega, hmax⟩
    · exact ⟨str, rfl, le_rfl, hle⟩

theorem IsCopy.set (h : IsCopy eos tmp) (c : UInt8) {p : Nat} (hp : p < eos) :
    IsCopy eos (tmp.set p c) := by
  refine ⟨by rw [List.length_set]; exact h.1, ?_⟩
  rw [List.getElem?_set_ne (by omega)]
  exact h.2

theorem copyQuoted_some (h : IsCopy eos tmp) (fuel str stop : Nat) (hle : str ≤ eos)
    (hstop : stop ≤ str) (hfuel : eos - str < fuel) :
    ∃ tmp' str' stop', copyQuoted eos fuel tmp str stop = some (tmp', str', stop') ∧
      IsCopy eos tmp' ∧ str ≤ str' ∧ str' ≤ eos ∧ stop' ≤ str' := by
  induction fuel generalizing tmp str stop with
  | zero => exact absurd hfuel (Nat.not_lt_zero _)
  | succ fuel ih =>
    rw [copyQuoted]
    split
    · rename_i hlt
      have hwrite : ∀ c, write tmp stop c = some (tmp.set stop c) := fun c =>
        if_pos (by rw [h.1]; omega)
      obtain ⟨c, hc⟩ := h.exists_getElem? hle
      rw [hc]
      simp only [Option.bind_eq_bind, Option.bind_some, hwrite]
      split
      · obtain ⟨c', hc'⟩ := h.exists_getElem? (Nat.succ_le_of_lt hlt)
        rw [hc']
        simp only [Option.bind_some]
        split
        · exact ⟨tmp, str + 1, stop, rfl, h, by omega, by omega, by omega⟩
        · rename_i hquote
          have hlt' := h.lt_of_ne (Nat.succ_le_of_lt hlt) hc' (by
            rintro rfl
            exact hquote (by decide))
          obtain ⟨tmp', str', stop', hres, hcopy, hmin, hmax, hle'⟩ :=
            ih (h.set c' (show stop < eos by omega)) (str + 2) (stop + 1) (by omega) (by omega)
              (by omega)
          exact ⟨tmp', str', stop', hres, hcopy, by omega, hmax, hle'⟩
      · obtain ⟨tmp', str', stop', hres, hcopy, hmin, hmax, hle'⟩ :=
          ih (h.set c (show stop < eos by omega)) (str + 1) (stop + 1) (by omega) (by omega)
            (by omega)
        exact ⟨tmp', str', stop', hres, hcopy, by omega, hmax, hle'⟩
    · exact ⟨tmp, str, stop, rfl, h, le_rfl, hle, hstop⟩

theorem findComma_some (h : IsCopy eos tmp) {str : Nat} (hle : str ≤ eos) :
    ∃ comma, findComma tmp str eos = some comma ∧ str ≤ comma ∧ comma ≤ eos := by
  refine ⟨_, if_pos hle, Nat.le_add_right _ _, ?_⟩
  have hlength := (@List.takeWhile_prefix _ ((tmp.take eos).drop str) (· ≠ 0x2c)).length_le
  rw [List.length_drop, List.length_take, h.1] at hlength
  omega

theorem readField_some (h : IsCopy eos tmp) {str : Nat} (hle : str ≤ eos) :
    ∃ tmp' start str' stop, readField eos tmp str = some (tmp', start, str', stop) ∧
      IsCopy eos tmp' ∧ str ≤ str' ∧ stop ≤ eos := by
  obtain ⟨c, hc⟩ := h.exists_getElem? hle
  rw [readField, hc]
  simp only [Option.bind_eq_bind, Option.bind_some]
  split
  · rename_i hquote
    have hlt := h.lt_of_ne hle hc (by rintro rfl; exact absurd hquote (by decide))
    obtain ⟨tmp', closing, stop, hres, hcopy, hmin, hmax, hstop⟩ :=
      copyQuoted_some h tmp.length (str + 1) (str + 1) (by omega) le_rfl (by rw [h.1]; omega)
    obtain ⟨comma, hcomma, hminComma, -⟩ := findComma_some hcopy hmax
    rw [hres]
    simp only [Option.bind_some, hcomma]
    exact ⟨tmp', str + 1, comma, stop, rfl, hcopy, by omega, by omega⟩
  · obtain ⟨comma, hcomma, hmin, hmax⟩ := findComma_some h hle
    rw [hcomma]
    exact ⟨tmp, str, comma, comma, rfl, h, hmin, hmax⟩

theorem splitLoop_some (h : IsCopy eos tmp) (fuel str : Nat) (hfuel : eos - str < fuel) :
    ∃ fields, splitLoop eos fuel tmp str = some fields := by
  induction fuel generalizing tmp str with
  | zero => exact absurd hfuel (Nat.not_lt_zero _)
  | succ fuel ih =>
    rw [splitLoop]
    split
    · rename_i hlt
      obtain ⟨str', hskip, hmin, hmax⟩ :=
        skipBlanks_some h tmp.length str hlt.le (by rw [h.1]; omega)
      obtain ⟨tmp', start, str'', stop, hread, hcopy, hmin', hstop⟩ := readField_some h hmax
      obtain ⟨c, hc⟩ := hcopy.exists_getElem? hstop
      obtain ⟨fields, hfields⟩ := ih hcopy (str'' + 1) (by omega)
      rw [hskip]
      simp only [Option.bind_eq_bind, Option.bind_some, hread, outputs, hc, hfields, Option.map_some]
      exact ⟨_, rfl⟩
    · exact ⟨[], rfl⟩

end safety

section fields

open CsvField

theorem write_behind {u : Bytes} (hu : u ≠ []) (pre rest : Bytes) (c : UInt8) :
    write (pre ++ (u ++ rest)) pre.length c = some ((pre ++ [c]) ++ (u.tail ++ rest)) := by
  obtain ⟨x, xs, rfl⟩ := List.exists_cons_of_ne_nil hu
  rw [write, if_pos, List.set_append_right _ _ (le_refl _), Nat.sub_self]
  · rw [List.append_assoc]
    rfl
  · simp only [List.length_append, List.length_cons]
    omega

theorem getElem?_append_cons_succ (pre : Bytes) (b : UInt8) (rest : Bytes) :
    (pre ++ b :: rest)[pre.length + 1]? = rest.head? := by
  rw [List.getElem?_append_right (Nat.le_add_right _ 1), Nat.add_sub_cancel_left,
    List.getElem?_cons_succ, List.head?_eq_getElem?]

theorem doubled_cons (c : UInt8) (text : Bytes) :
    doubled (c :: text) = (if c = 0x22 then [c, c] else [c]) ++ doubled text := List.flatMap_cons

/-- The copying of a text with doubled quotes over itself: behind the copy there is a gap of as many
bytes as quotes have gone, and then the closing quote and the rest as they were. -/
theorem copyQuoted_doubled {rest : Bytes} {r : UInt8} (hrest : rest.head? = some r) (hr : r ≠ 0x22)
    (text : Bytes) {eos fuel : Nat} (hfuel : text.length < fuel) (pre gap : Bytes)
    (heos : (pre ++ (gap ++ (doubled text ++ 0x22 :: rest))).length = eos + 1) :
    ∃ gap' : Bytes, gap'.length + text.length = gap.length + (doubled text).length ∧
      copyQuoted eos fuel (pre ++ (gap ++ (doubled text ++ 0x22 :: rest)))
        (pre ++ gap).length pre.length =
        some ((pre ++ text) ++ (gap' ++ 0x22 :: rest), ((pre ++ text) ++ gap').length + 1,
          (pre ++ text).length) := by
  have hrestPos : 0 < rest.length := by
    cases rest with
    | nil => cases hrest
    | cons r rest => exact Nat.succ_pos _
  induction text generalizing fuel pre gap with
  | nil =>
    obtain ⟨fuel, rfl⟩ := Nat.exists_eq_succ_of_ne_zero hfuel.ne'
    have hquote : (pre ++ (gap ++ 0x22 :: rest))[(pre ++ gap).length]? = some 0x22 := by
      rw [← List.append_assoc, getElem?_append_cons]
    have hnext : (pre ++ (gap ++ 0x22 :: rest))[(pre ++ gap).length + 1]? = some r := by
      rw [← List.append_assoc, getElem?_append_cons_succ, hrest]
    have hlt : (pre ++ gap).length < eos := by
      simp only [doubled, List.flatMap_nil, List.nil_append, List.length_append,
        List.length_cons] at heos ⊢
      omega
    refine ⟨gap, rfl, ?_⟩
    rw [show doubled [] = [] by rfl, List.nil_append, List.append_nil, copyQuoted, if_pos hlt, hquote]
    simp only [Option.bind_eq_bind, Option.bind_some, if_true, hnext]
    rw [if_pos hr]
  | cons c text ih =>
    obtain ⟨fuel, rfl⟩ := Nat.exists_eq_succ_of_ne_zero (Nat.ne_zero_of_lt hfuel)
    have hfuel' : text.length < fuel := Nat.lt_of_succ_lt_succ hfuel
    have hlt : (pre ++ gap).length < eos := by
      rw [doubled_cons] at heos
      simp only [List.length_append, List.length_cons] at heos ⊢
      split at heos <;> simp only [List.length_cons] at heos <;> omega
    -- One step writes `c` over the first of the bytes `u` that are done with.
    have hstep : ∀ u : Bytes, u ≠ [] → (pre ++ (u ++ (doubled text ++ 0x22 :: rest))).length = eos + 1 →
        write (pre ++ (u ++ (doubled text ++ 0x22 :: rest))) pre.length c =
          some ((pre ++ [c]) ++ (u.tail ++ (doubled text ++ 0x22 :: rest))) ∧
        (pre ++ u).length = ((pre ++ [c]) ++ u.tail).length ∧
        ∃ gap' : Bytes, gap'.length + text.length = u.tail.length + (doubled text).length ∧
          copyQuoted eos fuel ((pre ++ [c]) ++ (u.tail ++ (doubled text ++ 0x22 :: rest)))
          ((pre ++ [c]) ++ u.tail).length (pre ++ [c]).length =
            some ((pre ++ c :: text) ++ (gap' ++ 0x22 :: rest),
              ((pre ++ c :: text) ++ gap').length + 1, (pre ++ c :: text).length) := by
      intro u hu hlength
      have hsame : (pre ++ u).length = ((pre ++ [c]) ++ u.tail).length := by
        have hpos := List.length_pos_iff.mpr hu
        simp only [List.length_append, List.length_cons, List.length_nil, List.length_tail]
        omega
      refine ⟨write_behind hu pre _ c, hsame, ?_⟩
      have hih := ih hfuel' (pre ++ [c]) u.tail (by
        simp only [List.length_append] at hsame hlength ⊢
        omega)
      rw [List.append_assoc pre [c] text, List.singleton_append] at hih
      exact hih
    have hstop : pre.length + 1 = (pre ++ [c]).length := by
      rw [List.length_append]
      rfl
    by_cases hc : c = 0x22
    · subst hc
      have hbuffer : gap ++ (doubled (0x22 :: text) ++ 0x22 :: rest) =
          (gap ++ [0x22, 0x22]) ++ (doubled text ++ 0x22 :: rest) := by
        rw [doubled_cons, if_pos rfl, List.append_assoc, List.append_assoc]
      rw [hbuffer] at heos ⊢
      obtain ⟨hwrite, hlength, gap', hgap, hcopy⟩ :=
        hstep (gap ++ [0x22, 0x22]) (List.append_ne_nil_of_right_ne_nil _ (List.cons_ne_nil _ _)) heos
      have hfirst : (pre ++ ((gap ++ [0x22, 0x22]) ++ (doubled text ++ 0x22 :: rest)))[
          (pre ++ gap).length]? = some 0x22 := by
        rw [List.append_assoc, ← List.append_assoc pre, List.cons_append, getElem?_append_cons]
      have hsecond : (pre ++ ((gap ++ [0x22, 0x22]) ++ (doubled text ++ 0x22 :: rest)))[
          (pre ++ gap).length + 1]? = some 0x22 := by
        rw [List.append_assoc, ← List.append_assoc pre, List.cons_append, getElem?_append_cons_succ]
        rfl
      have hstr : (pre ++ gap).length + 2 = ((pre ++ [(0x22 : UInt8)]) ++ (gap ++ [0x22, 0x22]).tail).length := by
        rw [← hlength]
        simp only [List.length_append, List.length_cons, List.length_nil]
        omega
      refine ⟨gap', ?_, ?_⟩
      · rw [doubled_cons, if_pos rfl]
        simp only [List.length_tail, List.length_append, List.length_cons, List.length_nil] at hgap ⊢
        omega
      rw [copyQuoted, if_pos hlt, hfirst]
      simp only [Option.bind_eq_bind, Option.bind_some, if_true, hsecond, ne_eq, not_true_eq_false,
        if_false]
      rw [hwrite, Option.bind_some, hstr, hstop, hcopy]
    · have hbuffer : gap ++ (doubled (c :: text) ++ 0x22 :: rest) =
          (gap ++ [c]) ++ (doubled text ++ 0x22 :: rest) := by
        rw [doubled_cons, if_neg hc, List.append_assoc, List.append_assoc]
      rw [hbuffer] at heos ⊢
      obtain ⟨hwrite, hlength, gap', hgap, hcopy⟩ :=
        hstep (gap ++ [c]) (List.append_ne_nil_of_right_ne_nil _ (List.cons_ne_nil _ _)) heos
      have hfirst : (pre ++ ((gap ++ [c]) ++ (doubled text ++ 0x22 :: rest)))[
          (pre ++ gap).length]? = some c := by
        rw [List.append_assoc, ← List.append_assoc pre, List.cons_append, getElem?_append_cons]
      have hstr : (pre ++ gap).length + 1 = ((pre ++ [c]) ++ (gap ++ [c]).tail).length := by
        rw [← hlength]
        simp only [List.length_append, List.length_cons, List.length_nil]
        omega
      refine ⟨gap', ?_, ?_⟩
      · rw [doubled_cons, if_neg hc]
        simp only [List.length_tail, List.length_append, List.length_cons, List.length_nil] at hgap ⊢
        omega
      rw [copyQuoted, if_pos hlt, hfirst]
      simp only [Option.bind_eq_bind, Option.bind_some, if_neg hc]
      rw [hwrite, Option.bind_some, hstr, hstop, hcopy]

/-- What is behind a field. -/
def behind : List CsvField → Bytes
  | [] => []
  | f :: fs => 0x2c :: csvLine (f :: fs)

theorem csvLine_cons (f : CsvField) (fs : List CsvField) : csvLine (f :: fs) = f.written ++ behind fs := by
  cases fs with
  | nil => simp [csvLine, behind]
  | cons g gs => rfl

theorem csvLine_eq_nil {f : CsvField} {fs : List CsvField} :
    csvLine (f :: fs) = [] ↔ f = bareEmpty ∧ fs = [] := by
  rw [csvLine_cons, List.append_eq_nil_iff]
  constructor
  · rintro ⟨hwritten, hbehind⟩
    cases fs with
    | cons g gs => cases hbehind
    | nil =>
      rw [written] at hwritten
      split at hwritten
      · cases hwritten
      · rename_i hquoted
        exact ⟨eq_bareEmpty hwritten (Bool.not_eq_true _ ▸ hquoted), rfl⟩
  · rintro ⟨rfl, rfl⟩
    exact ⟨rfl, rfl⟩

/-- The fields that `SplitCSV` gives: an empty one at the end is found from the bare one before it. -/
def readBack : List CsvField → List Bytes
  | [] => []
  | f :: fs =>
    if csvLine (f :: fs) = [] then []
    else
      f.text :: (if f.quoted = false ∧ fs ≠ [] ∧ csvLine fs = [] then [[]] else []) ++ readBack fs

theorem head_behind (fs : List CsvField) : ∃ r, (behind fs ++ [0]).head? = some r ∧
    (r = 0x2c ∧ fs ≠ [] ∨ r = 0 ∧ fs = []) := by
  cases fs with
  | nil => exact ⟨0, rfl, .inr ⟨rfl, rfl⟩⟩
  | cons f fs => exact ⟨0x2c, rfl, .inl ⟨rfl, List.cons_ne_nil _ _⟩⟩

theorem getElem?_length_append (pre rest : Bytes) : (pre ++ rest)[pre.length]? = rest.head? := by
  rw [List.getElem?_append_right (le_refl _), Nat.sub_self, List.head?_eq_getElem?]

theorem findComma_behind {text : Bytes} (htext : 0x2c ∉ text) (pre : Bytes) (fs : List CsvField) :
    findComma (pre ++ (text ++ (behind fs ++ [0]))) pre.length (pre ++ (text ++ behind fs)).length =
      some (pre.length + text.length) := by
  have htake : (pre ++ (text ++ (behind fs ++ [0]))).take (pre ++ (text ++ behind fs)).length =
      pre ++ (text ++ behind fs) := by
    have hnul : pre ++ (text ++ (behind fs ++ [0])) = (pre ++ (text ++ behind fs)) ++ [0] := by
      simp only [List.append_assoc]
    rw [hnul, List.take_left]
  have hwhile : (text ++ behind fs).takeWhile (· ≠ 0x2c) = text := by
    rw [List.takeWhile_append_of_pos]
    · have hnil : (behind fs).takeWhile (· ≠ 0x2c) = [] := by cases fs <;> rfl
      rw [hnil, List.append_nil]
    · intro c hc
      exact decide_eq_true fun heq => htext (heq ▸ hc)
  rw [findComma, if_pos, htake, List.drop_left, hwhile]
  rw [List.length_append]
  exact Nat.le_add_right _ _

theorem splitLoop_round {eos fuel : Nat} {pre rest tmp : Bytes} {c : UInt8} {start comma stop : Nat}
    {fields : List Bytes} (hlt : pre.length < eos) (hc : rest.head? = some c)
    (hblank : ¬ (c = 0x20 ∨ c = 0x09))
    (hread : readField eos (pre ++ rest) pre.length = some (tmp, start, comma, stop))
    (houtputs : outputs eos tmp start stop = some fields) :
    splitLoop eos (fuel + 1) (pre ++ rest) pre.length =
      (splitLoop eos fuel tmp (comma + 1)).map (fields ++ ·) := by
  have hskip : skipBlanks (pre ++ rest) (pre ++ rest).length pre.length = some pre.length := by
    obtain ⟨n, hn⟩ : ∃ n, (pre ++ rest).length = n + 1 := by
      cases rest with
      | nil => cases hc
      | cons b rest => exact ⟨pre.length + rest.length, by
          rw [List.length_append, List.length_cons, Nat.add_assoc]⟩
    rw [hn, skipBlanks, getElem?_length_append, hc]
    exact if_neg hblank
  rw [splitLoop, if_pos hlt, hskip]
  simp only [Option.bind_eq_bind, Option.bind_some, hread, houtputs]

theorem splitLoop_bare {f : CsvField} {fs : List CsvField} (hquoted : f.quoted = false)
    (hline : csvLine (f :: fs) ≠ []) (pre : Bytes) (fuel : Nat) :
    splitLoop (pre ++ csvLine (f :: fs)).length (fuel + 1) (pre ++ (csvLine (f :: fs) ++ [0]))
        pre.length =
      (splitLoop (pre ++ csvLine (f :: fs)).length fuel (pre ++ (csvLine (f :: fs) ++ [0]))
        (pre.length + f.text.length + 1)).map
          ((f.text :: if fs ≠ [] ∧ csvLine fs = [] then [[]] else []) ++ ·) := by
  obtain ⟨hcomma, hquote, hspace, htab⟩ := f.bare hquoted
  have hwritten : csvLine (f :: fs) = f.text ++ behind fs := by
    rw [csvLine_cons, written, hquoted]
    rfl
  obtain ⟨r, hr, hrcases⟩ := head_behind fs
  have hlt : pre.length < (pre ++ csvLine (f :: fs)).length := by
    have hpos := List.length_pos_iff.mpr hline
    rw [List.length_append]
    omega
  obtain ⟨c, hc, hfirst⟩ : ∃ c, (f.text ++ (behind fs ++ [0])).head? = some c ∧
      ¬ (c = 0x20 ∨ c = 0x09) ∧ c ≠ 0x22 := by
    cases htext : f.text with
    | nil =>
      refine ⟨r, hr, ?_⟩
      rcases hrcases with ⟨rfl, -⟩ | ⟨rfl, -⟩ <;> decide
    | cons c text =>
      rw [htext] at hquote hspace htab
      refine ⟨c, rfl, ?_, fun heq => hquote (heq ▸ List.mem_cons_self)⟩
      rintro (rfl | rfl)
      · exact hspace rfl
      · exact htab rfl
  rw [hwritten] at hlt ⊢
  rw [List.append_assoc]
  have hread : readField (pre ++ (f.text ++ behind fs)).length
      (pre ++ (f.text ++ (behind fs ++ [0]))) pre.length =
        some (pre ++ (f.text ++ (behind fs ++ [0])), pre.length, pre.length + f.text.length,
          pre.length + f.text.length) := by
    rw [readField, getElem?_length_append, hc]
    simp only [Option.bind_eq_bind, Option.bind_some, if_neg hfirst.2, findComma_behind hcomma]
  refine splitLoop_round hlt hc hfirst.1 hread ?_
  · have hstop : (pre ++ (f.text ++ (behind fs ++ [0])))[pre.length + f.text.length]? = some r := by
      rw [← List.append_assoc, ← List.length_append, getElem?_length_append, hr]
    have hfield : ((pre ++ (f.text ++ (behind fs ++ [0]))).take (pre.length + f.text.length)).drop
        pre.length = f.text := by
      rw [← List.append_assoc, ← List.length_append, List.take_left, List.drop_left]
    rw [outputs, hstop]
    simp only [Option.bind_eq_bind, Option.bind_some, hfield]
    have hiff : (r = 0x2c ∧ pre.length + f.text.length =
        (pre ++ (f.text ++ behind fs)).length - 1) ↔ fs ≠ [] ∧ csvLine fs = [] := by
      rcases hrcases with ⟨rfl, hne⟩ | ⟨rfl, rfl⟩
      · obtain ⟨g, gs, rfl⟩ := List.exists_cons_of_ne_nil hne
        rw [← List.length_eq_zero_iff, behind, List.length_append, List.length_append,
          List.length_cons]
        exact and_congr (iff_of_true rfl hne) (by omega)
      · exact iff_of_false (fun h => absurd h.1 (by decide)) (fun h => h.1 rfl)
    by_cases hempty : fs ≠ [] ∧ csvLine fs = []
    · rw [if_pos (hiff.mpr hempty), if_pos hempty]
    · rw [if_neg fun h => hempty (hiff.mp h), if_neg hempty]

theorem splitLoop_quoted {f : CsvField} {fs : List CsvField} (hquoted : f.quoted = true) (pre : Bytes)
    (fuel : Nat) :
    ∃ gap, (pre ++ csvLine (f :: fs)).length =
        ((pre ++ 0x22 :: f.text) ++ (gap ++ 0x22 :: behind fs)).length ∧
      splitLoop (pre ++ csvLine (f :: fs)).length (fuel + 1) (pre ++ (csvLine (f :: fs) ++ [0]))
          pre.length =
        (splitLoop (pre ++ csvLine (f :: fs)).length fuel
          ((pre ++ 0x22 :: f.text) ++ (gap ++ 0x22 :: (behind fs ++ [0])))
          (((pre ++ 0x22 :: f.text) ++ gap).length + 2)).map (f.text :: ·) := by
  have hwritten : csvLine (f :: fs) ++ [0] =
      0x22 :: (doubled f.text ++ 0x22 :: (behind fs ++ [0])) := by
    rw [csvLine_cons, written, if_pos hquoted]
    simp only [List.append_assoc, List.cons_append, List.nil_append]
  obtain ⟨r, hr, hrcases⟩ := head_behind fs
  have hrQuote : r ≠ 0x22 := by
    rcases hrcases with ⟨rfl, -⟩ | ⟨rfl, -⟩ <;> decide
  have hlength : (pre ++ (csvLine (f :: fs) ++ [0])).length = (pre ++ csvLine (f :: fs)).length + 1 := by
    rw [← List.append_assoc, List.length_append]
    rfl
  have hbuffer : pre ++ (csvLine (f :: fs) ++ [0]) =
      (pre ++ [0x22]) ++ ([] ++ (doubled f.text ++ 0x22 :: (behind fs ++ [0]))) := by
    rw [hwritten, List.append_assoc]
    rfl
  have htextLength : f.text.length ≤ (doubled f.text).length := by
    rw [doubled, List.length_flatMap]
    refine Nat.le_trans (le_of_eq (by simp)) (List.sum_le_sum (f := fun _ => 1) fun c _ => ?_)
    split <;> simp
  obtain ⟨gap, hgap, hcopy⟩ := copyQuoted_doubled hr hrQuote f.text
    (show f.text.length < (pre ++ (csvLine (f :: fs) ++ [0])).length by
      rw [hwritten]
      simp only [List.length_append, List.length_cons]
      omega) (pre ++ [0x22]) [] (hbuffer ▸ hlength)
  rw [← hbuffer, List.append_nil, List.append_assoc pre, List.singleton_append] at hcopy
  have htotal : (pre ++ csvLine (f :: fs)).length =
      ((pre ++ 0x22 :: f.text) ++ (gap ++ 0x22 :: behind fs)).length := by
    rw [hwritten] at hlength
    simp only [List.length_append, List.length_cons, List.length_nil] at hlength hgap ⊢
    omega
  refine ⟨gap, htotal, ?_⟩
  have hrest : (pre ++ 0x22 :: f.text) ++ (gap ++ 0x22 :: (behind fs ++ [0])) =
      ((pre ++ 0x22 :: f.text) ++ gap ++ [0x22]) ++ ([] ++ (behind fs ++ [0])) := by
    simp only [List.append_assoc, List.cons_append, List.nil_append]
  have hcomma : findComma ((pre ++ 0x22 :: f.text) ++ (gap ++ 0x22 :: (behind fs ++ [0])))
      (((pre ++ 0x22 :: f.text) ++ gap).length + 1) (pre ++ csvLine (f :: fs)).length =
        some (((pre ++ 0x22 :: f.text) ++ gap).length + 1) := by
    have hend : (pre ++ csvLine (f :: fs)).length =
        (((pre ++ 0x22 :: f.text) ++ gap ++ [0x22]) ++ ([] ++ behind fs)).length := by
      rw [htotal]
      simp only [List.append_assoc, List.cons_append, List.nil_append]
    have hfind := @findComma_behind [] List.not_mem_nil
      ((pre ++ 0x22 :: f.text) ++ gap ++ [0x22]) fs
    rw [← hrest, ← hend, List.length_append, List.length_singleton] at hfind
    exact hfind
  have hopening : (pre ++ [(0x22 : UInt8)]).length = pre.length + 1 := by
    rw [List.length_append]
    rfl
  have hread : readField (pre ++ csvLine (f :: fs)).length (pre ++ (csvLine (f :: fs) ++ [0]))
      pre.length = some ((pre ++ 0x22 :: f.text) ++ (gap ++ 0x22 :: (behind fs ++ [0])),
        pre.length + 1, ((pre ++ 0x22 :: f.text) ++ gap).length + 1,
          (pre ++ 0x22 :: f.text).length) := by
    have hquote : (pre ++ (csvLine (f :: fs) ++ [0]))[pre.length]? = some 0x22 := by
      rw [getElem?_length_append, hwritten]
      rfl
    rw [readField, hquote]
    simp only [Option.bind_eq_bind, Option.bind_some, if_true, ← hopening, hcopy, hcomma]
  have houtputs : outputs (pre ++ csvLine (f :: fs)).length
      ((pre ++ 0x22 :: f.text) ++ (gap ++ 0x22 :: (behind fs ++ [0]))) (pre.length + 1)
        (pre ++ 0x22 :: f.text).length = some [f.text] := by
    obtain ⟨e, he, hend⟩ : ∃ e, (gap ++ 0x22 :: (behind fs ++ [0])).head? = some e ∧
        ¬ (e = 0x2c ∧ (pre ++ 0x22 :: f.text).length = (pre ++ csvLine (f :: fs)).length - 1) := by
      cases gap with
      | nil => exact ⟨0x22, rfl, fun h => absurd h.1 (by decide)⟩
      | cons e gap =>
        refine ⟨e, rfl, fun h => ?_⟩
        have hlast := h.2
        rw [htotal] at hlast
        simp only [List.length_append, List.length_cons] at hlast
        omega
    have hfield : (((pre ++ 0x22 :: f.text) ++ (gap ++ 0x22 :: (behind fs ++ [0]))).take
        (pre ++ 0x22 :: f.text).length).drop (pre.length + 1) = f.text := by
      have hsplit : pre ++ 0x22 :: f.text = (pre ++ [0x22]) ++ f.text := by
        rw [List.append_assoc, List.singleton_append]
      rw [List.take_left, ← hopening, hsplit, List.drop_left]
    rw [outputs, getElem?_length_append, he]
    simp only [Option.bind_eq_bind, Option.bind_some, hfield]
    rw [if_neg hend]
  have hlt : pre.length < (pre ++ csvLine (f :: fs)).length := by
    rw [htotal]
    simp only [List.length_append, List.length_cons]
    omega
  have hhead : (csvLine (f :: fs) ++ [0]).head? = some 0x22 := by
    rw [hwritten]
    rfl
  exact splitLoop_round hlt hhead (by decide) hread houtputs

theorem splitLoop_line (fs : List CsvField) (pre : Bytes) (fuel : Nat)
    (hfuel : (csvLine fs).length < fuel) :
    splitLoop (pre ++ csvLine fs).length fuel (pre ++ (csvLine fs ++ [0])) pre.length =
      some (readBack fs) := by
  have hdone : ∀ (eos fuel str : Nat) (tmp : Bytes), eos ≤ str → 0 < fuel →
      splitLoop eos fuel tmp str = some [] := by
    intro eos fuel str tmp hle hpos
    obtain ⟨fuel, rfl⟩ := Nat.exists_eq_succ_of_ne_zero hpos.ne'
    rw [splitLoop, if_neg (Nat.not_lt.mpr hle)]
  induction fs generalizing pre fuel with
  | nil => exact hdone _ _ _ _ (by rw [csvLine]; simp) (Nat.zero_lt_of_lt hfuel)
  | cons f fs ih =>
    rw [readBack]
    split
    · rename_i hnil
      rw [hnil, List.append_nil]
      exact hdone _ _ _ _ le_rfl (Nat.zero_lt_of_lt hfuel)
    rename_i hline
    obtain ⟨fuel, rfl⟩ := Nat.exists_eq_succ_of_ne_zero (Nat.ne_zero_of_lt hfuel)
    have hpos := List.length_pos_iff.mpr hline
    cases hquoted : f.quoted with
    | false =>
      rw [splitLoop_bare hquoted hline]
      have hwritten : csvLine (f :: fs) = f.text ++ behind fs := by
        rw [csvLine_cons, written, hquoted]
        rfl
      suffices hrest : splitLoop (pre ++ csvLine (f :: fs)).length fuel
          (pre ++ (csvLine (f :: fs) ++ [0])) (pre.length + f.text.length + 1) =
            some (readBack fs) by
        rw [hrest, Option.map_some]
        simp only [true_and]
      rw [hwritten]
      cases fs with
      | nil =>
        refine hdone _ _ _ _ ?_ (by omega)
        simp only [behind, List.append_nil, List.length_append]
        omega
      | cons g gs =>
        have hih := ih (pre ++ (f.text ++ [0x2c])) fuel (by
          rw [hwritten, behind, List.length_append, List.length_cons] at hfuel
          omega)
        rw [behind]
        simp only [List.append_assoc, List.cons_append, List.nil_append, List.length_append,
          List.length_cons, List.length_nil] at hih ⊢
        rw [← hih]
        congr 1
    | true =>
      obtain ⟨gap, htotal, hround⟩ := @splitLoop_quoted f fs hquoted pre fuel
      rw [hround]
      suffices hrest : splitLoop (pre ++ csvLine (f :: fs)).length fuel
          ((pre ++ 0x22 :: f.text) ++ (gap ++ 0x22 :: (behind fs ++ [0])))
            (((pre ++ 0x22 :: f.text) ++ gap).length + 2) = some (readBack fs) by
        rw [hrest, Option.map_some]
        simp
      cases fs with
      | nil =>
        refine hdone _ _ _ _ ?_ (by omega)
        rw [htotal]
        simp only [behind, List.length_append, List.length_cons, List.length_nil]
        omega
      | cons g gs =>
        have hih := ih ((pre ++ 0x22 :: f.text) ++ (gap ++ [0x22, 0x2c])) fuel (by
          rw [csvLine_cons, behind, List.length_append, List.length_cons] at hfuel
          omega)
        rw [htotal, behind]
        simp only [List.append_assoc, List.cons_append, List.nil_append, List.length_append,
          List.length_cons, List.length_nil] at hih ⊢
        rw [← hih]
        congr 1

theorem readBack_eq_iff {fields : List CsvField} (hne : fields ≠ []) (hempty : fields ≠ [bareEmpty]) :
    readBack fields = fields.map CsvField.text ↔ ¬ ∃ f, f.quoted = true ∧ [f, bareEmpty] <:+ fields := by
  induction fields with
  | nil => exact absurd rfl hne
  | cons f fs ih =>
    have hline : csvLine (f :: fs) ≠ [] := fun hnil => by
      obtain ⟨rfl, rfl⟩ := csvLine_eq_nil.mp hnil
      exact hempty rfl
    rw [readBack, if_neg hline]
    cases fs with
    | nil =>
      refine iff_of_true (by simp [readBack]) ?_
      rintro ⟨g, -, hsuffix⟩
      exact absurd hsuffix.length_le (by simp)
    | cons g gs =>
      by_cases hlast : csvLine (g :: gs) = []
      · obtain ⟨rfl, rfl⟩ := csvLine_eq_nil.mp hlast
        have hsuffix : (∃ h : CsvField, h.quoted = true ∧ [h, bareEmpty] <:+ [f, bareEmpty]) ↔
            f.quoted = true := by
          constructor
          · rintro ⟨h, hquoted, hsuffix⟩
            rw [← (List.cons.inj (hsuffix.eq_of_length rfl)).1]
            exact hquoted
          · exact fun hquoted => ⟨f, hquoted, List.suffix_refl _⟩
        have htext : bareEmpty.text = [] := rfl
        rw [hsuffix, Bool.not_eq_true]
        cases hquoted : f.quoted with
        | false => simp [hlast, readBack, htext]
        | true => simp [hlast, readBack, htext]
      · have hgs : g :: gs ≠ [bareEmpty] := fun heq => hlast (heq ▸ rfl)
        have hsuffix : (∃ h : CsvField, h.quoted = true ∧ [h, bareEmpty] <:+ f :: g :: gs) ↔
            ∃ h : CsvField, h.quoted = true ∧ [h, bareEmpty] <:+ g :: gs := by
          refine exists_congr fun h => and_congr_right fun _ => ?_
          rw [List.suffix_cons_iff]
          refine or_iff_right fun heq => hgs ?_
          rw [← (List.cons.inj heq).2]
        rw [hsuffix, ← ih (List.cons_ne_nil _ _) hgs, if_neg fun h => hlast h.2.2,
          List.map_cons, List.cons_append, List.nil_append, List.cons.injEq]
        exact and_iff_right rfl

end fields

end SplitCsv

open SplitCsv

/-- `SplitCSV` stays inside its copy of any line, and it gives the fields of a written line back unless
an empty bare field is behind a quoted one at the end. -/
theorem splitCSV_iff (input : Bytes) {fields : List CsvField} (hne : fields ≠ [])
    (hempty : fields ≠ [CsvField.bareEmpty]) :
    Util.splitCSV input ≠ none ∧
      (Util.splitCSV (csvLine fields) = some (fields.map CsvField.text) ↔
        ¬ ∃ f, f.quoted = true ∧ [f, CsvField.bareEmpty] <:+ fields) := by
  constructor
  · obtain ⟨out, hout⟩ := @splitLoop_some input.length (input ++ [0])
      ⟨by rw [List.length_append]; rfl, List.getElem?_concat_length⟩ (input.length + 1) 0 (by omega)
    rw [Util.splitCSV, hout]
    exact Option.some_ne_none out
  · have hline := splitLoop_line fields [] ((csvLine fields).length + 1) (Nat.lt_succ_self _)
    rw [List.nil_append, List.nil_append, List.length_nil] at hline
    rw [Util.splitCSV, hline, Option.some.injEq, readBack_eq_iff hne hempty]

/-- `"a""b",c,` of a quoted field and two bare ones. -/
theorem splitCSV_iff_three :
    let fields : List CsvField := [⟨[0x61, 0x22, 0x62], true, nofun⟩, ⟨[0x63], false, by decide⟩,
      CsvField.bareEmpty]
    Util.splitCSV (csvLine fields) = some [[0x61, 0x22, 0x62], [0x63], []] := by
  intro fields
  refine (splitCSV_iff [] (List.cons_ne_nil _ _) (fun h => ?_)).2.mpr ?_
  · exact absurd (congrArg List.length h) (by decide)
  · rintro ⟨f, hquoted, hsuffix⟩
    have hlast := List.suffix_iff_eq_drop.mp hsuffix
    rw [← (List.cons.inj hlast).1.symm] at hquoted
    cases hquoted

/-- `"a",` of a quoted field and an empty bare one. -/
theorem not_splitCSV_quoted_empty :
    csvLine [⟨[0x61], true, nofun⟩, CsvField.bareEmpty] = [0x22, 0x61, 0x22, 0x2c] ∧
      Util.splitCSV [0x22, 0x61, 0x22, 0x2c] = some [[0x61]] := by
  decide

end Mozkey.Base
