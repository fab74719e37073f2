import Mozkey.Base.Util

/-! `Util::Utf8SubString` and `Util::CharsLen` of `base/util.cc` on the characters of a text. -/

namespace Mozkey.Base

open Storage

def utf8Drop : Nat → Bytes → Bytes
  | 0, s => s
  | _ + 1, [] => []
  | start + 1, b :: s => utf8Drop start ((b :: s).drop (oneCharLen b))

def utf8Take : Nat → Bytes → Bytes
  | 0, _ => []
  | _ + 1, [] => []
  | length + 1, b :: s =>
    (b :: s).take (oneCharLen b) ++ utf8Take length ((b :: s).drop (oneCharLen b))

def utf8SubString (s : Bytes) (start length : Nat) : Bytes := utf8Take length (utf8Drop start s)

theorem oneCharLen_pos (b : UInt8) : 0 < oneCharLen b := by
  rw [oneCharLen]
  split_ifs <;> omega

/-! Any text, by its leading bytes. -/

theorem charsLenLoop_eq {fuel fuel' : Nat} {s : Bytes} (h : s.length ≤ fuel) (h' : s.length ≤ fuel') :
    charsLenLoop fuel s = charsLenLoop fuel' s := by
  induction fuel generalizing fuel' s with
  | zero =>
    obtain rfl := List.length_eq_zero_iff.mp (Nat.le_zero.mp h)
    cases fuel' <;> rfl
  | succ fuel ih =>
    cases s with
    | nil => cases fuel' <;> rfl
    | cons b s =>
      cases fuel' with
      | zero => cases h'
      | succ fuel' =>
        have hpos := oneCharLen_pos b
        rw [List.length_cons] at h h'
        have hdrop : ((b :: s).drop (oneCharLen b)).length ≤ s.length := by
          rw [List.length_drop, List.length_cons]
          omega
        rw [charsLenLoop, charsLenLoop]
        apply congrArg (· + 1)
        apply ih
        · omega
        · omega

@[simp] theorem charsLen_nil : charsLen [] = 0 := rfl

theorem charsLen_cons (b : UInt8) (s : Bytes) :
    charsLen (b :: s) = charsLen ((b :: s).drop (oneCharLen b)) + 1 := by
  have hpos := oneCharLen_pos b
  rw [charsLen, List.length_cons, charsLenLoop, charsLen]
  rw [charsLenLoop_eq _ (Nat.le_refl _)]
  rw [List.length_drop, List.length_cons]
  omega

theorem charsLen_eq_zero {s : Bytes} : charsLen s = 0 ↔ s = [] := by
  cases s with
  | nil => exact iff_of_true rfl rfl
  | cons b s => exact iff_of_false (by rw [charsLen_cons]; omega) (List.cons_ne_nil b s)

theorem utf8Drop_nil (n : Nat) : utf8Drop n [] = [] := by
  cases n <;> rfl

theorem utf8Take_nil (n : Nat) : utf8Take n [] = [] := by
  cases n <;> rfl

theorem utf8Take_append_utf8Drop (n : Nat) (s : Bytes) : utf8Take n s ++ utf8Drop n s = s := by
  induction n generalizing s with
  | zero => rfl
  | succ n ih =>
    cases s with
    | nil => rfl
    | cons b s => rw [utf8Take, utf8Drop, List.append_assoc, ih, List.take_append_drop]

theorem utf8Drop_add (m n : Nat) (s : Bytes) : utf8Drop (m + n) s = utf8Drop n (utf8Drop m s) := by
  induction m generalizing s with
  | zero => rw [Nat.zero_add, utf8Drop]
  | succ m ih =>
    cases s with
    | nil => rw [utf8Drop_nil, utf8Drop_nil, utf8Drop_nil]
    | cons b s => rw [Nat.succ_add, utf8Drop, utf8Drop, ih]

theorem utf8Take_add (m n : Nat) (s : Bytes) :
    utf8Take (m + n) s = utf8Take m s ++ utf8Take n (utf8Drop m s) := by
  induction m generalizing s with
  | zero => rw [Nat.zero_add, utf8Take, utf8Drop, List.nil_append]
  | succ m ih =>
    cases s with
    | nil => rw [utf8Take_nil, utf8Take_nil, utf8Drop_nil, utf8Take_nil, List.nil_append]
    | cons b s => rw [Nat.succ_add, utf8Take, utf8Take, utf8Drop, ih, List.append_assoc]

theorem charsLen_utf8Drop (n : Nat) (s : Bytes) : charsLen (utf8Drop n s) = charsLen s - n := by
  induction n generalizing s with
  | zero => rfl
  | succ n ih =>
    cases s with
    | nil => rw [utf8Drop_nil, charsLen_nil, Nat.zero_sub]
    | cons b s => rw [utf8Drop, ih, charsLen_cons, Nat.add_sub_add_right]

theorem charsLen_utf8Take (n : Nat) (s : Bytes) : charsLen (utf8Take n s) = min n (charsLen s) := by
  induction n generalizing s with
  | zero => rw [utf8Take, charsLen_nil, Nat.zero_min]
  | succ n ih =>
    cases s with
    | nil => rw [utf8Take_nil, charsLen_nil, Nat.min_zero]
    | cons b s =>
      obtain ⟨m, hm⟩ : ∃ m, oneCharLen b = m + 1 := ⟨oneCharLen b - 1, by
        have hpos := oneCharLen_pos b
        omega⟩
      have hrest : (b :: (s.take m ++ utf8Take n (s.drop m))).drop (m + 1) = utf8Take n (s.drop m) := by
        rw [List.drop_succ_cons]
        by_cases hshort : s.length < m
        · rw [List.drop_of_length_le (Nat.le_of_lt hshort), utf8Take_nil, List.append_nil,
            List.drop_take_self]
        · exact List.drop_left' (List.length_take_of_le (Nat.le_of_not_lt hshort))
      rw [utf8Take, hm, List.take_succ_cons, List.drop_succ_cons, List.cons_append, charsLen_cons, hm,
        hrest, ih, charsLen_cons, hm, List.drop_succ_cons, Nat.add_min_add_right]

theorem utf8Take_of_charsLen_le {n : Nat} {s : Bytes} (h : charsLen s ≤ n) : utf8Take n s = s := by
  induction n generalizing s with
  | zero =>
    cases s with
    | nil => rfl
    | cons b s => rw [charsLen_cons] at h; omega
  | succ n ih =>
    cases s with
    | nil => rfl
    | cons b s =>
      rw [charsLen_cons] at h
      rw [utf8Take, ih (by omega), List.take_append_drop]

/-! Valid text. -/

theorem oneCharLen_utf8 : ∀ x < 32, (x < 2 ∨ oneCharLen (UInt8.ofNat (x + 0xc0)) = 2) ∧
    (16 ≤ x ∨ oneCharLen (UInt8.ofNat (x + 0xe0)) = 3) ∧
    (5 ≤ x ∨ oneCharLen (UInt8.ofNat (x + 0xf0)) = 4) := by decide

theorem utf8EncodeChar_eq_cons (c : Char) : ∃ b bs, String.utf8EncodeChar c = b :: bs ∧
    oneCharLen b = bs.length + 1 := by
  have hmax : c.val.toNat < 0x110000 := by
    rcases c.valid with h | ⟨-, h⟩
    · exact Nat.lt_trans h (by decide)
    · exact h
  rw [String.utf8EncodeChar]
  show ∃ b bs, (if c.val.toNat ≤ 0x7f then _ else _) = b :: bs ∧ _
  generalize c.val.toNat = v at hmax
  split
  · rename_i hv
    refine ⟨_, _, rfl, ?_⟩
    have hb : (UInt8.ofNat v).toNat = v := by
      rw [UInt8.toNat_ofNat']
      omega
    rw [oneCharLen, if_pos]
    · rfl
    · rw [UInt8.lt_iff_toNat_lt, hb]
      exact Nat.lt_of_le_of_lt hv (by decide)
  split
  · refine ⟨_, _, rfl, ?_⟩
    have hlen := (oneCharLen_utf8 (v / 64 % 0x20) (by omega)).1
    rcases hlen with hlen | hlen
    · omega
    · exact hlen
  split
  · refine ⟨_, _, rfl, ?_⟩
    have hlen := (oneCharLen_utf8 (v / 4096 % 0x10) (by omega)).2.1
    rcases hlen with hlen | hlen
    · omega
    · exact hlen
  · refine ⟨_, _, rfl, ?_⟩
    have hlen := (oneCharLen_utf8 (v / 262144 % 0x08) (by omega)).2.2
    rcases hlen with hlen | hlen
    · omega
    · exact hlen

theorem charsLen_utf8EncodeChar_append (c : Char) (s : Bytes) :
    charsLen (String.utf8EncodeChar c ++ s) = charsLen s + 1 := by
  obtain ⟨b, bs, hc, hlen⟩ := utf8EncodeChar_eq_cons c
  rw [hc, List.cons_append, charsLen_cons, hlen, List.drop_succ_cons, List.drop_left]

@[simp] theorem charsLen_utf8 (cs : List Char) : charsLen (utf8 cs) = cs.length := by
  induction cs with
  | nil => rfl
  | cons c cs ih => rw [utf8_cons, charsLen_utf8EncodeChar_append, ih, List.length_cons]

theorem utf8Drop_utf8 (n : Nat) (cs : List Char) : utf8Drop n (utf8 cs) = utf8 (cs.drop n) := by
  induction n generalizing cs with
  | zero => rfl
  | succ n ih =>
    cases cs with
    | nil => rfl
    | cons c cs =>
      obtain ⟨b, bs, hc, hlen⟩ := utf8EncodeChar_eq_cons c
      rw [utf8_cons, hc, List.cons_append, utf8Drop, hlen, List.drop_succ_cons, List.drop_left, ih,
        List.drop_succ_cons]

theorem utf8Take_utf8 (n : Nat) (cs : List Char) : utf8Take n (utf8 cs) = utf8 (cs.take n) := by
  induction n generalizing cs with
  | zero => rfl
  | succ n ih =>
    cases cs with
    | nil => rfl
    | cons c cs =>
      obtain ⟨b, bs, hc, hlen⟩ := utf8EncodeChar_eq_cons c
      rw [utf8_cons, hc, List.cons_append, utf8Take, hlen, List.take_succ_cons, List.take_left,
        List.drop_succ_cons, List.drop_left, ih, List.take_succ_cons, utf8_cons, hc]

theorem utf8SubString_utf8 (cs : List Char) (start length : Nat) :
    utf8SubString (utf8 cs) start length = utf8 ((cs.drop start).take length) := by
  rw [utf8SubString, utf8Drop_utf8, utf8Take_utf8]

theorem length_le_length_utf8 (cs : List Char) : cs.length ≤ (utf8 cs).length := by
  induction cs with
  | nil => rfl
  | cons c cs ih =>
    have hpos : 0 < (String.utf8EncodeChar c).length :=
      List.length_pos_iff.mpr String.utf8EncodeChar_ne_nil
    rw [utf8_cons, List.length_append, List.length_cons]
    omega

end Mozkey.Base
