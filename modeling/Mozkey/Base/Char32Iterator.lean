import Mozkey.Base.Codepoint
import Mozkey.Base.Utf8Append

/-! `ConstChar32Iterator` and `ConstChar32ReverseIterator` of `base/util.cc`, and which code points
`Util::CodepointToUtf8` writes so that `Util::SplitFirstChar32` reads them. -/

namespace Mozkey.Base

open Storage

def splitLastChar32 (s : Bytes) : Option (Bytes × Nat) :=
  let len := (s.reverse.takeWhile isUtf8TrailingByte).length + 1
  if s.length < len then none
  else
    match splitFirstChar32 (s.drop (s.length - len)) with
    | some (lastChar32, []) => some (s.take (s.length - len), lastChar32)
    | _ => none

/-- The members of `ConstChar32Iterator` and of `ConstChar32ReverseIterator`. -/
structure Char32Iterator where
  utf8String : Bytes
  current : Nat := 0
  done : Bool := false
  deriving DecidableEq

def ConstChar32Iterator.next (it : Char32Iterator) : Char32Iterator :=
  if it.done then it
  else
    match splitFirstChar32 it.utf8String with
    | some (current, rest) => { it with utf8String := rest, current := current }
    | none => ⟨[], 0, true⟩

def ConstChar32ReverseIterator.next (it : Char32Iterator) : Char32Iterator :=
  if it.done then it
  else
    match splitLastChar32 it.utf8String with
    | some (rest, current) => { it with utf8String := rest, current := current }
    | none => ⟨[], 0, true⟩

/-- `for (; !it.Done(); it.Next())`: the characters that `Get` gives, or nothing where the fuel does
not last until the iterator is done. -/
def Char32Iterator.visit (next : Char32Iterator → Char32Iterator) :
    Nat → Char32Iterator → Option (List Nat)
  | fuel, it =>
    if it.done then some []
    else
      match fuel with
      | 0 => none
      | fuel + 1 => (visit next fuel (next it)).map (it.current :: ·)

/-- The characters of a `ConstChar32Iterator` from its constructor on. -/
def ConstChar32Iterator.chars (s : Bytes) : Option (List Nat) :=
  Char32Iterator.visit next s.length (next { utf8String := s })

/-- The characters of a `ConstChar32ReverseIterator` from its constructor on. -/
def ConstChar32ReverseIterator.chars (s : Bytes) : Option (List Nat) :=
  Char32Iterator.visit next s.length (next { utf8String := s })

def Util.utf32ToUtf8 (str : List Nat) : Bytes := str.flatMap Util.codepointToUtf8

/-- The code points of five bytes by `CodepointToUtf8` and of six by `SplitFirstChar32`. -/
def WrittenShort (c : Nat) : Prop := 0x4000000 ≤ c ∧ c < 0x8000000

instance (c : Nat) : Decidable (WrittenShort c) := inferInstanceAs (Decidable (_ ∧ _))

/-- No byte zero, and no beginning of the six bytes of a code point that is written short. -/
def writtenBack : Bytes → Bool
  | [] => true
  | b :: bs =>
    b != 0 && !(b == 0xfc && bs.head?.any fun c => 0x84 ≤ c && c ≤ 0x87) && writtenBack bs

section encoder

theorem leadingByte_five : ∀ x < 4, ¬ UInt8.ofNat (x + 0xf8) < 0x80 ∧
    isUtf8TrailingByte (UInt8.ofNat (x + 0xf8)) = false ∧
    leadingByte (UInt8.ofNat (x + 0xf8)) = some (5, 0x0200000, 0x3ffffff, x) := by decide

theorem leadingByte_six : ∀ x < 2, ¬ UInt8.ofNat (x + 0xfc) < 0x80 ∧
    isUtf8TrailingByte (UInt8.ofNat (x + 0xfc)) = false ∧
    leadingByte (UInt8.ofNat (x + 0xfc)) = some (6, 0x4000000, 0x7fffffff, x) := by decide

theorem codepointToUtf8_five {c : Nat} (hmin : 0x200000 ≤ c) (hmax : c < 0x8000000) :
    Util.codepointToUtf8 c = [UInt8.ofNat (c / 2 ^ 24 % 4 + 0xf8),
      UInt8.ofNat (c / 2 ^ 18 % 64 + 0x80), UInt8.ofNat (c / 2 ^ 12 % 64 + 0x80),
      UInt8.ofNat (c / 2 ^ 6 % 64 + 0x80), UInt8.ofNat (c / 2 ^ 0 % 64 + 0x80)] := by
  have htrailing : ∀ shift, (c >>> shift) &&& 0x3f = c / 2 ^ shift % 64 := fun shift =>
    low_bits c shift 6
  have hlead : (c >>> 24) &&& 0x03 = c / 2 ^ 24 % 4 := low_bits c 24 2
  rw [Util.codepointToUtf8, if_neg (by omega), if_neg (by omega), if_neg (by omega),
    if_neg (by omega), if_neg (by omega), if_pos hmax]
  simp only [htrailing, hlead, Nat.add_comm 0x80, Nat.add_comm 0xf8]

theorem codepointToUtf8_six {c : Nat} (hmin : 0x8000000 ≤ c) :
    Util.codepointToUtf8 c = [UInt8.ofNat (c / 2 ^ 30 % 2 + 0xfc),
      UInt8.ofNat (c / 2 ^ 24 % 64 + 0x80), UInt8.ofNat (c / 2 ^ 18 % 64 + 0x80),
      UInt8.ofNat (c / 2 ^ 12 % 64 + 0x80), UInt8.ofNat (c / 2 ^ 6 % 64 + 0x80),
      UInt8.ofNat (c / 2 ^ 0 % 64 + 0x80)] := by
  have htrailing : ∀ shift, (c >>> shift) &&& 0x3f = c / 2 ^ shift % 64 := fun shift =>
    low_bits c shift 6
  have hlead : (c >>> 30) &&& 0x01 = c / 2 ^ 30 % 2 := low_bits c 30 1
  rw [Util.codepointToUtf8, if_neg (by omega), if_neg (by omega), if_neg (by omega),
    if_neg (by omega), if_neg (by omega), if_neg (by omega)]
  simp only [htrailing, hlead, Nat.add_comm 0x80, Nat.add_comm 0xfc]

theorem splitFirstChar32_written {c : Nat} (hpos : c ≠ 0) (hmax : c ≤ 0x7fffffff)
    (hshort : ¬ WrittenShort c) (t : Bytes) :
    splitFirstChar32 (Util.codepointToUtf8 c ++ t) = some (c, t) := by
  have hmod : ∀ n, n % 64 < 64 := fun n => Nat.mod_lt n (by decide)
  rw [WrittenShort] at hshort
  rcases Nat.lt_or_ge c 0x200000 with hfour | hfive
  · exact splitFirstChar32_codepointToUtf8 hpos hfour t
  rcases Nat.lt_or_ge c 0x4000000 with hlt | hge
  · obtain ⟨hascii, htrail, hleading⟩ := leadingByte_five (c / 2 ^ 24 % 4) (by omega)
    rw [codepointToUtf8_five hfive (by omega)]
    refine splitFirstChar32_cons hascii htrail hleading rfl
      ((addTrailingBytes_cons (hmod _) _ _).trans
        ((addTrailingBytes_cons (hmod _) _ _).trans
          ((addTrailingBytes_cons (hmod _) _ _).trans (addTrailingBytes_cons (hmod _) _ _))))
      ?_ ?_ |>.trans ?_
    · omega
    · omega
    · congr 2
      omega
  · obtain ⟨hascii, htrail, hleading⟩ := leadingByte_six (c / 2 ^ 30 % 2) (by omega)
    rw [codepointToUtf8_six (by omega)]
    refine splitFirstChar32_cons hascii htrail hleading rfl
      ((addTrailingBytes_cons (hmod _) _ _).trans
        ((addTrailingBytes_cons (hmod _) _ _).trans
          ((addTrailingBytes_cons (hmod _) _ _).trans
            ((addTrailingBytes_cons (hmod _) _ _).trans (addTrailingBytes_cons (hmod _) _ _)))))
      ?_ ?_ |>.trans ?_
    · omega
    · omega
    · congr 2
      omega

theorem splitFirstChar32_writtenShort {c : Nat} (h : WrittenShort c) (t : Bytes) :
    splitFirstChar32 (Util.codepointToUtf8 c ++ t) ≠ some (c, t) := by
  obtain ⟨hmin, hmax⟩ := h
  obtain ⟨hascii, -, hleading⟩ := leadingByte_five (c / 2 ^ 24 % 4) (by omega)
  rw [codepointToUtf8_five (by omega) hmax]
  intro hread
  rcases splitFirstChar32_cases hread with
    ⟨hlt, -⟩ | ⟨len, minValue, maxValue, result, hlead, -, -, -, hle, -⟩
  · exact hascii hlt
  · rw [hleading] at hlead
    cases hlead
    omega

end encoder

section characters

theorem splitFirstChar32_alone {b : UInt8} {bs : Bytes} {c : Nat}
    (h : splitFirstChar32 (b :: bs) = some (c, [])) :
    (b < 0x80 ∧ c = b.toNat ∧ bs = []) ∨
      (isUtf8TrailingByte b = false ∧ ∃ minValue maxValue result,
        leadingByte b = some (bs.length + 1, minValue, maxValue, result) ∧
          addTrailingBytes result bs = some c ∧ minValue ≤ c ∧ c ≤ maxValue) := by
  rcases splitFirstChar32_cases h with ⟨hascii, hc, hbs⟩ |
    ⟨len, minValue, maxValue, result, hleading, hshort, hrest, hmin, hmax, -, htrailing, hvalue⟩
  · exact .inl ⟨hascii, hc, hbs.symm⟩
  · have hlen : bs.length + 1 = len :=
      Nat.le_antisymm (List.drop_eq_nil_iff.mp hrest.symm) hshort
    rw [← hlen, Nat.add_sub_cancel, List.take_length] at hvalue
    exact .inr ⟨htrailing, minValue, maxValue, result, hlen ▸ hleading, hvalue, hmin, hmax⟩

theorem isUtf8TrailingByte_of_ascii {b : UInt8} (h : b < 0x80) : isUtf8TrailingByte b = false := by
  have hall : ∀ n < 0x80, isUtf8TrailingByte (UInt8.ofNat n) = false := by decide
  rw [UInt8.lt_iff_toNat_lt] at h
  rw [← UInt8.ofNat_toNat (x := b)]
  exact hall _ h

theorem trailing_of_addTrailingBytes {bs : Bytes} {result value : Nat}
    (h : addTrailingBytes result bs = some value) : ∀ b ∈ bs, isUtf8TrailingByte b = true := by
  induction bs generalizing result with
  | nil => exact fun b hb => absurd hb List.not_mem_nil
  | cons c cs ih =>
    rw [addTrailingBytes] at h
    split at h
    · rename_i htrailing
      exact List.forall_mem_cons.mpr ⟨htrailing, ih h⟩
    · cases h

structure IsChar32 (head : Bytes) (c : Nat) : Prop where
  read : ∀ x, splitFirstChar32 (head ++ x) = some (c, x)
  lead : ∃ b bs, head = b :: bs ∧ isUtf8TrailingByte b = false ∧
    ∀ t ∈ bs, isUtf8TrailingByte t = true

theorem isChar32_of_split {s rest : Bytes} {c : Nat} (h : splitFirstChar32 s = some (c, rest)) :
    ∃ head, s = head ++ rest ∧ IsChar32 head c := by
  obtain ⟨head, hs, hpos, -, hread⟩ := splitFirstChar32_some h
  refine ⟨head, hs, hread, ?_⟩
  cases head with
  | nil => exact absurd hpos (by decide)
  | cons b bs =>
    have halone := hread []
    rw [List.append_nil] at halone
    rcases splitFirstChar32_alone halone with
      ⟨hascii, -, rfl⟩ | ⟨hlead, minValue, maxValue, result, -, hvalue, -⟩
    · exact ⟨b, [], rfl, isUtf8TrailingByte_of_ascii hascii, fun t ht => absurd ht List.not_mem_nil⟩
    · exact ⟨b, bs, rfl, hlead, trailing_of_addTrailingBytes hvalue⟩

def joined (chars : List (Bytes × Nat)) : Bytes := chars.flatMap Prod.fst

theorem joined_cons (p : Bytes × Nat) (chars : List (Bytes × Nat)) :
    joined (p :: chars) = p.1 ++ joined chars := List.flatMap_cons

theorem joined_concat (chars : List (Bytes × Nat)) (p : Bytes × Nat) :
    joined (chars ++ [p]) = joined chars ++ p.1 := by
  rw [joined, List.flatMap_append, List.flatMap_singleton, joined]

theorem isValidUtf8_chars {s : Bytes} (h : isValidUtf8 s = true) :
    ∃ chars : List (Bytes × Nat), s = joined chars ∧ ∀ p ∈ chars, IsChar32 p.1 p.2 := by
  refine isValidUtf8_induction (p := fun s => ∃ chars : List (Bytes × Nat),
    s = joined chars ∧ ∀ p ∈ chars, IsChar32 p.1 p.2) ?_ ?_ h
  · exact ⟨[], rfl, fun p hp => absurd hp List.not_mem_nil⟩
  · rintro s rest c hsplit ⟨chars, rfl, hchars⟩
    obtain ⟨head, rfl, hhead⟩ := isChar32_of_split hsplit
    exact ⟨(head, c) :: chars, (joined_cons (head, c) chars).symm,
      List.forall_mem_cons.mpr ⟨hhead, hchars⟩⟩

theorem length_le_joined {chars : List (Bytes × Nat)} (h : ∀ p ∈ chars, IsChar32 p.1 p.2) :
    chars.length ≤ (joined chars).length := by
  induction chars with
  | nil => exact Nat.zero_le _
  | cons p chars ih =>
    obtain ⟨hhead, hchars⟩ := List.forall_mem_cons.mp h
    obtain ⟨b, bs, hbytes, -, -⟩ := hhead.lead
    have hle := ih hchars
    rw [joined_cons, List.length_append, hbytes]
    simp only [List.length_cons]
    omega

end characters

section iterators

theorem visit_done (next : Char32Iterator → Char32Iterator) (fuel : Nat) {it : Char32Iterator}
    (h : it.done = true) : Char32Iterator.visit next fuel it = some [] := by
  unfold Char32Iterator.visit
  rw [if_pos h]

theorem visit_succ (next : Char32Iterator → Char32Iterator) (fuel : Nat) {it : Char32Iterator}
    (h : it.done = false) : Char32Iterator.visit next (fuel + 1) it =
      (Char32Iterator.visit next fuel (next it)).map (it.current :: ·) := by
  conv_lhs => unfold Char32Iterator.visit
  rw [if_neg (by rw [h]; exact Bool.false_ne_true)]

theorem visit_next_joined {chars : List (Bytes × Nat)} (h : ∀ p ∈ chars, IsChar32 p.1 p.2)
    {fuel : Nat} (hfuel : chars.length ≤ fuel) (current : Nat) :
    Char32Iterator.visit ConstChar32Iterator.next fuel
      (ConstChar32Iterator.next ⟨joined chars, current, false⟩) = some (chars.map Prod.snd) := by
  induction chars generalizing fuel current with
  | nil => exact visit_done _ fuel rfl
  | cons p chars ih =>
    obtain ⟨hhead, hchars⟩ := List.forall_mem_cons.mp h
    obtain ⟨fuel, rfl⟩ := Nat.exists_eq_add_of_le' (Nat.le_trans (Nat.le_add_left 1 _) hfuel)
    have hnext : ConstChar32Iterator.next ⟨joined (p :: chars), current, false⟩ =
        ⟨joined chars, p.2, false⟩ := by
      rw [ConstChar32Iterator.next, joined_cons, hhead.read]
      rfl
    rw [hnext, visit_succ _ _ rfl, ih hchars (Nat.le_of_succ_le_succ hfuel), Option.map_some,
      List.map_cons]

theorem splitLastChar32_append {head : Bytes} {c : Nat} (h : IsChar32 head c) (s : Bytes) :
    splitLastChar32 (s ++ head) = some (s, c) := by
  have hread := h.read []
  rw [List.append_nil] at hread
  obtain ⟨b, bs, rfl, hlead, htrailing⟩ := h.lead
  have hwhile : ((s ++ b :: bs).reverse.takeWhile isUtf8TrailingByte).length = bs.length := by
    rw [List.reverse_append, List.reverse_cons, List.append_assoc,
      List.takeWhile_append_of_pos fun t ht => htrailing t (List.mem_reverse.mp ht),
      List.singleton_append, List.takeWhile_cons_of_neg (by rw [hlead]; exact Bool.false_ne_true),
      List.append_nil, List.length_reverse]
  have hstart : (s ++ b :: bs).length - (bs.length + 1) = s.length := by
    rw [List.length_append, List.length_cons, Nat.add_sub_cancel]
  rw [splitLastChar32]
  simp only [hwhile, hstart, List.drop_left, List.take_left, hread]
  rw [if_neg]
  rw [List.length_append, List.length_cons]
  omega

theorem visit_reverse_joined {chars : List (Bytes × Nat)} (h : ∀ p ∈ chars, IsChar32 p.1 p.2)
    {fuel : Nat} (hfuel : chars.length ≤ fuel) (current : Nat) :
    Char32Iterator.visit ConstChar32ReverseIterator.next fuel
      (ConstChar32ReverseIterator.next ⟨joined chars, current, false⟩) =
        some (chars.map Prod.snd).reverse := by
  induction chars using List.reverseRecOn generalizing fuel current with
  | nil => exact visit_done _ fuel rfl
  | append_singleton chars p ih =>
    rw [List.length_append, List.length_singleton] at hfuel
    obtain ⟨fuel, rfl⟩ := Nat.exists_eq_add_of_le' (Nat.le_trans (Nat.le_add_left 1 _) hfuel)
    have hhead : IsChar32 p.1 p.2 := h p (List.mem_append_right _ (List.mem_singleton_self p))
    have hnext : ConstChar32ReverseIterator.next ⟨joined (chars ++ [p]), current, false⟩ =
        ⟨joined chars, p.2, false⟩ := by
      rw [ConstChar32ReverseIterator.next, joined_concat, splitLastChar32_append hhead]
      rfl
    rw [hnext, visit_succ _ _ rfl,
      ih (fun q hq => h q (List.mem_append_left _ hq)) (Nat.le_of_succ_le_succ hfuel),
      Option.map_some, List.map_append, List.map_singleton, List.reverse_append,
      List.reverse_singleton, List.singleton_append]

theorem chars_joined {chars : List (Bytes × Nat)} (h : ∀ p ∈ chars, IsChar32 p.1 p.2) :
    ConstChar32Iterator.chars (joined chars) = some (chars.map Prod.snd) ∧
      ConstChar32ReverseIterator.chars (joined chars) = some (chars.map Prod.snd).reverse :=
  ⟨visit_next_joined h (length_le_joined h) 0, visit_reverse_joined h (length_le_joined h) 0⟩

end iterators

section reencoding

theorem trailingByte_ofNat {b : UInt8} (h : isUtf8TrailingByte b = true) :
    ∃ x < 64, b = UInt8.ofNat (x + 0x80) := by
  have hall : ∀ n < 256, isUtf8TrailingByte (UInt8.ofNat n) = true → 0x80 ≤ n ∧ n < 0xc0 := by
    decide +kernel
  have hrange := hall b.toNat b.toNat_lt (by rw [UInt8.ofNat_toNat]; exact h)
  refine ⟨b.toNat - 0x80, by omega, ?_⟩
  rw [Nat.sub_add_cancel hrange.1, UInt8.ofNat_toNat]

theorem leadingByte_toNat {b : UInt8} {len minValue maxValue result : Nat}
    (h : leadingByte b = some (len, minValue, maxValue, result)) :
    (len = 2 ∧ minValue = 0x80 ∧ maxValue = 0x7ff ∧ result < 0x20 ∧ b.toNat = 0xc0 + result) ∨
      (len = 3 ∧ minValue = 0x800 ∧ maxValue = 0xffff ∧ result < 0x10 ∧
        b.toNat = 0xe0 + result) ∨
      (len = 4 ∧ minValue = 0x10000 ∧ maxValue = 0x1fffff ∧ result < 0x08 ∧
        b.toNat = 0xf0 + result) ∨
      (len = 5 ∧ minValue = 0x200000 ∧ maxValue = 0x3ffffff ∧ result < 0x04 ∧
        b.toNat = 0xf8 + result) ∨
      (len = 6 ∧ minValue = 0x4000000 ∧ maxValue = 0x7fffffff ∧ result < 0x02 ∧
        b.toNat = 0xfc + result) := by
  have hall : ∀ b : UInt8,
      (b &&& 0xe0 = 0xc0 → (b &&& 0x1f).toNat < 0x20 ∧ b.toNat = 0xc0 + (b &&& 0x1f).toNat) ∧
      (b &&& 0xf0 = 0xe0 → (b &&& 0x0f).toNat < 0x10 ∧ b.toNat = 0xe0 + (b &&& 0x0f).toNat) ∧
      (b &&& 0xf8 = 0xf0 → (b &&& 0x07).toNat < 0x08 ∧ b.toNat = 0xf0 + (b &&& 0x07).toNat) ∧
      (b &&& 0xfc = 0xf8 → (b &&& 0x03).toNat < 0x04 ∧ b.toNat = 0xf8 + (b &&& 0x03).toNat) ∧
      (b &&& 0xfe = 0xfc → (b &&& 0x01).toNat < 0x02 ∧ b.toNat = 0xfc + (b &&& 0x01).toNat) := by
    apply forall_byte
    decide +kernel
  obtain ⟨htwo, hthree, hfour, hfive, hsix⟩ := hall b
  rw [leadingByte] at h
  split_ifs at h with h2 h3 h4 h5 h6
  · cases h
    exact .inl ⟨rfl, rfl, rfl, htwo h2⟩
  · cases h
    exact .inr (.inl ⟨rfl, rfl, rfl, hthree h3⟩)
  · cases h
    exact .inr (.inr (.inl ⟨rfl, rfl, rfl, hfour h4⟩))
  · cases h
    exact .inr (.inr (.inr (.inl ⟨rfl, rfl, rfl, hfive h5⟩)))
  · cases h
    exact .inr (.inr (.inr (.inr ⟨rfl, rfl, rfl, hsix h6⟩)))

theorem addTrailingBytes_inj {bs bs' : Bytes} {result result' value : Nat}
    (hlen : bs.length = bs'.length) (h : addTrailingBytes result bs = some value)
    (h' : addTrailingBytes result' bs' = some value) : result = result' ∧ bs = bs' := by
  induction bs generalizing bs' result result' with
  | nil =>
    obtain rfl := List.length_eq_zero_iff.mp hlen.symm
    cases h
    cases h'
    exact ⟨rfl, rfl⟩
  | cons b bs ih =>
    cases bs' with
    | nil => cases hlen
    | cons b' bs' =>
      obtain ⟨x, hx, rfl⟩ :=
        trailingByte_ofNat (trailing_of_addTrailingBytes h b List.mem_cons_self)
      obtain ⟨x', hx', rfl⟩ :=
        trailingByte_ofNat (trailing_of_addTrailingBytes h' b' List.mem_cons_self)
      rw [addTrailingBytes_cons hx] at h
      rw [addTrailingBytes_cons hx'] at h'
      obtain ⟨hresult, rfl⟩ := ih (Nat.succ.inj hlen) h h'
      obtain rfl : x = x' := by omega
      exact ⟨by omega, rfl⟩

theorem isChar32_unique {head head' : Bytes} {c : Nat} (h : IsChar32 head c)
    (h' : IsChar32 head' c) : head = head' := by
  obtain ⟨b, bs, rfl, -, -⟩ := h.lead
  obtain ⟨b', bs', rfl, -, -⟩ := h'.lead
  have hread := h.read []
  have hread' := h'.read []
  rw [List.append_nil] at hread hread'
  rcases splitFirstChar32_alone hread with
    ⟨hascii, hc, rfl⟩ | ⟨-, minValue, maxValue, result, hleading, hvalue, hmin, hmax⟩ <;>
  rcases splitFirstChar32_alone hread' with
    ⟨hascii', hc', rfl⟩ | ⟨-, minValue', maxValue', result', hleading', hvalue', hmin', hmax'⟩
  · rw [UInt8.toNat_inj.mp (hc.symm.trans hc')]
  · rw [UInt8.lt_iff_toNat_lt, ← hc] at hascii
    rcases leadingByte_toNat hleading' with hr | hr | hr | hr | hr <;>
      exact absurd hascii (Nat.not_lt.mpr (Nat.le_trans (hr.2.1 ▸ by decide) hmin'))
  · rw [UInt8.lt_iff_toNat_lt, ← hc'] at hascii'
    rcases leadingByte_toNat hleading with hr | hr | hr | hr | hr <;>
      exact absurd hascii' (Nat.not_lt.mpr (Nat.le_trans (hr.2.1 ▸ by decide) hmin))
  · have hbyte := leadingByte_toNat hleading
    have hbyte' := leadingByte_toNat hleading'
    have hlen : bs.length = bs'.length := by omega
    obtain ⟨rfl, rfl⟩ := addTrailingBytes_inj hlen hvalue hvalue'
    rw [UInt8.toNat_inj.mp (show b.toNat = b'.toNat by omega)]

theorem isChar32_codepointToUtf8 {c : Nat} (hpos : c ≠ 0) (hmax : c ≤ 0x7fffffff)
    (hshort : ¬ WrittenShort c) : IsChar32 (Util.codepointToUtf8 c) c := by
  obtain ⟨head, hhead, hchar⟩ := isChar32_of_split (splitFirstChar32_written hpos hmax hshort [])
  rw [List.append_nil, List.append_nil] at hhead
  rw [hhead]
  exact hchar

theorem le_of_isChar32 {head : Bytes} {c : Nat} (h : IsChar32 head c) : c ≤ 0x7fffffff := by
  obtain ⟨b, bs, rfl, -, -⟩ := h.lead
  have hread := h.read []
  rw [List.append_nil] at hread
  rcases splitFirstChar32_alone hread with
    ⟨-, rfl, -⟩ | ⟨-, minValue, maxValue, result, hleading, -, -, hmax⟩
  · exact Nat.le_trans (Nat.le_of_lt b.toNat_lt) (by decide)
  · have hbyte := leadingByte_toNat hleading
    omega

theorem length_of_writtenShort {head : Bytes} {c : Nat} (h : IsChar32 head c)
    (hshort : WrittenShort c) : head.length = 6 := by
  obtain ⟨hmin, hlt⟩ := hshort
  obtain ⟨b, bs, rfl, -, -⟩ := h.lead
  have hread := h.read []
  rw [List.append_nil] at hread
  rcases splitFirstChar32_alone hread with
    ⟨-, rfl, -⟩ | ⟨-, minValue, maxValue, result, hleading, -, -, hmax⟩
  · exact absurd b.toNat_lt (by omega)
  · have hbyte := leadingByte_toNat hleading
    rw [List.length_cons]
    omega

theorem codepointToUtf8_of_isChar32 {head : Bytes} {c : Nat} (h : IsChar32 head c) :
    (c ≠ 0 ∧ ¬ WrittenShort c → Util.codepointToUtf8 c = head) ∧
      (¬ (c ≠ 0 ∧ ¬ WrittenShort c) → (Util.codepointToUtf8 c).length < head.length) := by
  refine ⟨fun hgood => ?_, fun hbad => ?_⟩
  · exact isChar32_unique (isChar32_codepointToUtf8 hgood.1 (le_of_isChar32 h) hgood.2) h
  · by_cases hzero : c = 0
    · obtain ⟨b, bs, rfl, -, -⟩ := h.lead
      rw [hzero]
      exact Nat.succ_pos _
    · have hshort : WrittenShort c := by
        by_contra hnot
        exact hbad ⟨hzero, hnot⟩
      have hmin := hshort.1
      rw [length_of_writtenShort h hshort, codepointToUtf8_five (by omega) hshort.2]
      exact Nat.lt_succ_self 5

theorem utf32ToUtf8_joined {chars : List (Bytes × Nat)} (h : ∀ p ∈ chars, IsChar32 p.1 p.2) :
    (Util.utf32ToUtf8 (chars.map Prod.snd)).length ≤ (joined chars).length ∧
      (Util.utf32ToUtf8 (chars.map Prod.snd) = joined chars ↔
        ∀ p ∈ chars, p.2 ≠ 0 ∧ ¬ WrittenShort p.2) := by
  induction chars with
  | nil => exact ⟨le_rfl, fun _ p hp => absurd hp List.not_mem_nil, fun _ => rfl⟩
  | cons p chars ih =>
    obtain ⟨hhead, hchars⟩ := List.forall_mem_cons.mp h
    obtain ⟨hle, hiff⟩ := ih hchars
    obtain ⟨hsame, hfewer⟩ := codepointToUtf8_of_isChar32 hhead
    have hcons : Util.utf32ToUtf8 ((p :: chars).map Prod.snd) =
        Util.codepointToUtf8 p.2 ++ Util.utf32ToUtf8 (chars.map Prod.snd) := List.flatMap_cons
    rw [hcons, joined_cons, List.forall_mem_cons]
    by_cases hgood : p.2 ≠ 0 ∧ ¬ WrittenShort p.2
    · rw [hsame hgood, List.append_cancel_left_eq, List.length_append, List.length_append]
      exact ⟨Nat.add_le_add_left hle _, fun heq => ⟨hgood, hiff.mp heq⟩,
        fun hall => hiff.mpr hall.2⟩
    · have hlt : (Util.codepointToUtf8 p.2 ++ Util.utf32ToUtf8 (chars.map Prod.snd)).length <
          (p.1 ++ joined chars).length := by
        rw [List.length_append, List.length_append]
        exact Nat.add_lt_add_of_lt_of_le (hfewer hgood) hle
      exact ⟨hlt.le, fun heq => absurd (congrArg List.length heq) hlt.ne,
        fun hall => absurd hall.1 hgood⟩

end reencoding

section bytes

theorem addTrailingBytes_range {bs : Bytes} {result value : Nat}
    (h : addTrailingBytes result bs = some value) :
    result * 64 ^ bs.length ≤ value ∧ value < (result + 1) * 64 ^ bs.length := by
  induction bs generalizing result with
  | nil =>
    cases h
    simp
  | cons b bs ih =>
    obtain ⟨x, hx, rfl⟩ := trailingByte_ofNat (trailing_of_addTrailingBytes h b List.mem_cons_self)
    rw [addTrailingBytes_cons hx] at h
    obtain ⟨hmin, hmax⟩ := ih h
    rw [List.length_cons, pow_succ']
    constructor
    · calc result * (64 * 64 ^ bs.length) = (result * 64) * 64 ^ bs.length := by ring
        _ ≤ (result * 64 + x) * 64 ^ bs.length := Nat.mul_le_mul_right _ (Nat.le_add_right _ _)
        _ ≤ value := hmin
    · calc value < (result * 64 + x + 1) * 64 ^ bs.length := hmax
        _ ≤ ((result + 1) * 64) * 64 ^ bs.length := Nat.mul_le_mul_right _ (by omega)
        _ = (result + 1) * (64 * 64 ^ bs.length) := by ring

theorem ne_zero_of_writtenBack {s : Bytes} (h : writtenBack s = true) : ∀ b ∈ s, b ≠ 0 := by
  induction s with
  | nil => exact fun b hb => absurd hb List.not_mem_nil
  | cons b bs ih =>
    rw [writtenBack, Bool.and_eq_true, Bool.and_eq_true, bne_iff_ne] at h
    exact List.forall_mem_cons.mpr ⟨h.1.1, ih h.2⟩

theorem writtenBack_trailing {bs : Bytes} (h : ∀ b ∈ bs, isUtf8TrailingByte b = true)
    (rest : Bytes) : writtenBack (bs ++ rest) = writtenBack rest := by
  induction bs with
  | nil => rfl
  | cons b bs ih =>
    obtain ⟨hb, hbs⟩ := List.forall_mem_cons.mp h
    have hzero : (b != 0) = true := by
      rw [bne_iff_ne]
      rintro rfl
      cases hb
    have hlead : (b == 0xfc) = false := by
      rw [beq_eq_false_iff_ne]
      rintro rfl
      cases hb
    rw [List.cons_append, writtenBack, ih hbs, hzero, hlead]
    rfl

theorem writtenBack_append {head : Bytes} {c : Nat} (h : IsChar32 head c) (rest : Bytes) :
    writtenBack (head ++ rest) = true ↔
      (c ≠ 0 ∧ ¬ WrittenShort c) ∧ writtenBack rest = true := by
  obtain ⟨b, bs, rfl, -, htrailing⟩ := h.lead
  have hread := h.read []
  rw [List.append_nil] at hread
  rw [List.cons_append, writtenBack, writtenBack_trailing htrailing, Bool.and_eq_true]
  refine and_congr_left fun _ => ?_
  rw [WrittenShort, Bool.and_eq_true, bne_iff_ne, Bool.not_eq_true', ne_eq, ne_eq,
    ← UInt8.toNat_inj, UInt8.toNat_zero]
  rcases splitFirstChar32_alone hread with
    ⟨hascii, rfl, -⟩ | ⟨-, minValue, maxValue, result, hleading, hvalue, hmin, hmax⟩
  · rw [UInt8.lt_iff_toNat_lt] at hascii
    have hlead : (b == 0xfc) = false := by
      rw [beq_eq_false_iff_ne]
      rintro rfl
      exact absurd hascii (by decide)
    rw [hlead, Bool.false_and]
    have hlt := b.toNat_lt
    exact and_congr_right fun _ => iff_of_true rfl (by omega)
  have hbyte := leadingByte_toNat hleading
  refine and_congr (iff_of_true (by omega) (by omega)) ?_
  by_cases hsix : bs.length = 5
  · -- Six bytes: the second one tells the four topmost bits of the code point.
    cases bs with
    | nil => cases hsix
    | cons t bs =>
      obtain ⟨x, hx, rfl⟩ := trailingByte_ofNat (htrailing t List.mem_cons_self)
      rw [addTrailingBytes_cons hx] at hvalue
      obtain ⟨hlow, hhigh⟩ := addTrailingBytes_range hvalue
      have hfour : bs.length = 4 := Nat.succ.inj hsix
      have hle : ∀ n < 64, (decide (0x84 ≤ UInt8.ofNat (n + 0x80)) &&
          decide (UInt8.ofNat (n + 0x80) ≤ 0x87)) = (decide (4 ≤ n) && decide (n < 8)) := by decide
      have hlead : (b == 0xfc) = decide (result = 0) := by
        rw [Bool.eq_iff_iff, beq_iff_eq, decide_eq_true_eq, ← UInt8.toNat_inj]
        show b.toNat = 252 ↔ _
        omega
      rw [hfour] at hlow hhigh
      rw [hlead, List.cons_append, List.head?_cons, Option.any_some, hle x hx,
        Bool.eq_false_iff, ne_eq]
      simp only [Bool.and_eq_true, decide_eq_true_eq]
      omega
  · have hlead : (b == 0xfc) = false := by
      rw [beq_eq_false_iff_ne]
      rintro rfl
      have hnat : (252 : UInt8).toNat = 252 := rfl
      omega
    rw [hlead, Bool.false_and]
    exact iff_of_true rfl (by omega)

theorem writtenBack_joined {chars : List (Bytes × Nat)} (h : ∀ p ∈ chars, IsChar32 p.1 p.2) :
    writtenBack (joined chars) = true ↔ ∀ p ∈ chars, p.2 ≠ 0 ∧ ¬ WrittenShort p.2 := by
  induction chars with
  | nil => exact iff_of_true rfl fun p hp => absurd hp List.not_mem_nil
  | cons p chars ih =>
    obtain ⟨hhead, hchars⟩ := List.forall_mem_cons.mp h
    rw [joined_cons, writtenBack_append hhead, ih hchars, List.forall_mem_cons]

end bytes

section main

/-- The encoding of a code point in front of any text is read back. -/
def ReadsBack (c : Nat) : Prop :=
  ∀ t, splitFirstChar32 (Util.codepointToUtf8 c ++ t) = some (c, t)

/-- The two iterators visit the same code points in opposite order, and these are the string. -/
def IteratesBack (s : Bytes) : Prop :=
  ∃ cs, ConstChar32Iterator.chars s = some cs ∧
    ConstChar32ReverseIterator.chars s = some cs.reverse ∧ Util.utf32ToUtf8 cs = s

theorem readsBack_iff {c : Nat} (hpos : c ≠ 0) (hmax : c ≤ 0x7fffffff) :
    ReadsBack c ↔ ¬ WrittenShort c :=
  ⟨fun hread hshort => splitFirstChar32_writtenShort hshort [] (hread []),
    splitFirstChar32_written hpos hmax⟩

/-- The bytes of a valid text tell whether it is written back. -/
theorem iteratesBack_iff {s : Bytes} (hvalid : isValidUtf8 s = true) :
    IteratesBack s ↔ writtenBack s = true := by
  obtain ⟨chars, rfl, hchars⟩ := isValidUtf8_chars hvalid
  obtain ⟨hforward, hreverse⟩ := chars_joined hchars
  rw [writtenBack_joined hchars, ← (utf32ToUtf8_joined hchars).2]
  constructor
  · rintro ⟨cs, hcs, -, hsame⟩
    rw [hforward] at hcs
    rw [Option.some.inj hcs]
    exact hsame
  · exact fun hsame => ⟨_, hforward, hreverse, hsame⟩

theorem iteratesBack_iff_a : IteratesBack [0x61] ↔ writtenBack [0x61] = true :=
  iteratesBack_iff (by decide)

theorem utf32ToUtf8_filter {chars : List (Bytes × Nat)} (h : ∀ p ∈ chars, IsChar32 p.1 p.2)
    (hshort : ∀ c ∈ chars.map Prod.snd, ¬ WrittenShort c) :
    Util.utf32ToUtf8 (chars.map Prod.snd) = (joined chars).filter (· ≠ 0) := by
  induction chars with
  | nil => rfl
  | cons p chars ih =>
    obtain ⟨hhead, hchars⟩ := List.forall_mem_cons.mp h
    obtain ⟨hone, hrest⟩ := List.forall_mem_cons.mp hshort
    have hcons : Util.utf32ToUtf8 ((p :: chars).map Prod.snd) =
        Util.codepointToUtf8 p.2 ++ Util.utf32ToUtf8 (chars.map Prod.snd) := List.flatMap_cons
    rw [hcons, joined_cons, List.filter_append, ih hchars hrest, List.append_cancel_right_eq]
    by_cases hzero : p.2 = 0
    · have hnul : IsChar32 [0] 0 := ⟨fun x => rfl, 0, [], rfl, rfl, fun t ht => nomatch ht⟩
      rw [isChar32_unique hhead (hzero ▸ hnul), hzero]
      rfl
    · rw [(codepointToUtf8_of_isChar32 hhead).1 ⟨hzero, hone⟩, eq_comm, List.filter_eq_self]
      -- The character alone is written back, so that it has no byte zero.
      have hback := (writtenBack_append hhead []).mpr ⟨⟨hzero, hone⟩, rfl⟩
      rw [List.append_nil] at hback
      exact fun b hb => decide_eq_true (ne_zero_of_writtenBack hback b hb)

/-- The encodings are read back, and the iterators give back a text without its zeros. -/
theorem encodings_readBack {c : Nat} (hpos : 1 ≤ c) (hmax : c ≤ 0x7fffffff)
    (hshort : ¬ (0x4000000 ≤ c ∧ c < 0x8000000)) {s : Bytes} (hvalid : isValidUtf8 s = true) :
    (∀ t, splitFirstChar32 (Util.codepointToUtf8 c ++ t) = some (c, t)) ∧
      ∃ cs, ConstChar32Iterator.chars s = some cs ∧
        ConstChar32ReverseIterator.chars s = some cs.reverse ∧
          ((∀ c ∈ cs, ¬ (0x4000000 ≤ c ∧ c < 0x8000000)) →
            Util.utf32ToUtf8 cs = s.filter (· ≠ 0)) := by
  refine ⟨(readsBack_iff (Nat.pos_iff_ne_zero.mp hpos) hmax).mpr hshort, ?_⟩
  obtain ⟨chars, rfl, hchars⟩ := isValidUtf8_chars hvalid
  obtain ⟨hforward, hreverse⟩ := chars_joined hchars
  exact ⟨_, hforward, hreverse, utf32ToUtf8_filter hchars⟩

theorem encodings_readBack_one :
    (∀ t, splitFirstChar32 (Util.codepointToUtf8 0x3042 ++ t) = some (0x3042, t)) ∧
      ∃ cs, ConstChar32Iterator.chars [0x61, 0, 0xe3, 0x81, 0x82] = some cs ∧
        ConstChar32ReverseIterator.chars [0x61, 0, 0xe3, 0x81, 0x82] = some cs.reverse ∧
          ((∀ c ∈ cs, ¬ (0x4000000 ≤ c ∧ c < 0x8000000)) →
            Util.utf32ToUtf8 cs = [0x61, 0, 0xe3, 0x81, 0x82].filter (· ≠ 0)) :=
  encodings_readBack (by decide) (by decide) (by decide) (by decide)

/-- U+0000 is visited and not written. -/
theorem not_iteratesBack_nul : isValidUtf8 [0x61, 0, 0x62] = true ∧
    ConstChar32Iterator.chars [0x61, 0, 0x62] = some [0x61, 0, 0x62] ∧
      Util.utf32ToUtf8 [0x61, 0, 0x62] ≠ [0x61, 0, 0x62] ∧ ¬ IteratesBack [0x61, 0, 0x62] := by
  have hchars : ConstChar32Iterator.chars [0x61, 0, 0x62] = some [0x61, 0, 0x62] := by decide
  refine ⟨by decide, hchars, by decide, ?_⟩
  rintro ⟨cs, hcs, -, hsame⟩
  rw [hchars] at hcs
  obtain rfl := Option.some.inj hcs
  exact absurd hsame (by decide)

end main

end Mozkey.Base
