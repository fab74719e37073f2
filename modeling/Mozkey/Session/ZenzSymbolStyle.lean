import Mozkey.Session.ZenzOutputValidator

/-! `RestoreUserVisibleSymbolStyle` of `session/zenz_output_validator.cc`, which brings back the wave
dashes that a Zenz value has as tildes, and `RestorePreeditSegmentKeysForSymbolStyle` of
`session/session.cc`, which does so for the keys of a preedit. -/

namespace Mozkey.Session

open Storage Base ZenzPromptBuilder

namespace ZenzOutputValidator

structure Utf8CharForSymbolRestore where
  cp : Nat
  bytes : Bytes
  deriving DecidableEq

def isAsciiTilde (cp : Nat) : Bool := cp == 0x7e

def isJapaneseWaveDash (cp : Nat) : Bool := cp == 0xff5e || cp == 0x301c

/-- The loop of `SplitUtf8ForSymbolRestore`, with no result for a text that is not UTF-8. -/
def splitUtf8Loop : Nat → Bytes → Option (List Utf8CharForSymbolRestore)
  | _, [] => some []
  | 0, _ :: _ => none
  | fuel + 1, b :: s =>
    match decodeOneUtf8 (b :: s) with
    | none => none
    | some (cp, rest) =>
      (splitUtf8Loop fuel rest).map
        (⟨cp, (b :: s).take ((b :: s).length - rest.length)⟩ :: ·)

def splitUtf8ForSymbolRestore (text : Bytes) : List Utf8CharForSymbolRestore :=
  (splitUtf8Loop text.length text).getD []

def countCodePointLoop : Nat → Bytes → Nat → Nat → Nat
  | _, [], _, count => count
  | 0, _ :: _, _, _ => 0
  | fuel + 1, b :: s, target, count =>
    match decodeOneUtf8 (b :: s) with
    | none => 0
    | some (cp, rest) =>
      countCodePointLoop fuel rest target (if cp = target then count + 1 else count)

def countCodePoint (text : Bytes) (target : Nat) : Nat :=
  countCodePointLoop text.length text target 0

def countJapaneseWaveDashFamily (text : Bytes) : Nat :=
  countCodePoint text 0xff5e + countCodePoint text 0x301c

def countAsciiTilde (text : Bytes) : Nat := countCodePoint text 0x7e

def firstJapaneseWaveDashBytes (text : Bytes) : Bytes :=
  ((splitUtf8ForSymbolRestore text).find? fun ch => isJapaneseWaveDash ch.cp).elim [] (·.bytes)

def positionalRestore (sourceChars : List Utf8CharForSymbolRestore) (i : Nat) :
    Option Utf8CharForSymbolRestore :=
  sourceChars[i]?.filter fun ch => isJapaneseWaveDash ch.cp

def restoreLoop (sourceChars : List Utf8CharForSymbolRestore) (defaultReplacement : Bytes)
    (safeFallbackRestore : Bool) : Nat → Int → List Utf8CharForSymbolRestore → Bytes
  | _, _, [] => []
  | i, replacementBudget, ch :: zenzChars =>
    if replacementBudget > 0 ∧ isAsciiTilde ch.cp ∧
        ((positionalRestore sourceChars i).isSome ∨ safeFallbackRestore) then
      ((positionalRestore sourceChars i).elim defaultReplacement (·.bytes)) ++
        restoreLoop sourceChars defaultReplacement safeFallbackRestore (i + 1)
          (replacementBudget - 1) zenzChars
    else
      ch.bytes ++ restoreLoop sourceChars defaultReplacement safeFallbackRestore (i + 1)
        replacementBudget zenzChars

def styleSource (key mozcValue : Bytes) : Option Bytes :=
  if countJapaneseWaveDashFamily key > 0 then some key
  else if countJapaneseWaveDashFamily mozcValue > 0 then some mozcValue
  else none

def restoreUserVisibleSymbolStyle (key mozcValue zenzValue : Bytes) : Bytes :=
  match styleSource key mozcValue with
  | none => zenzValue
  | some styleSource =>
    let missingWaveDashCount : Int :=
      countJapaneseWaveDashFamily styleSource - countJapaneseWaveDashFamily zenzValue
    if missingWaveDashCount ≤ 0 then zenzValue
    else
      let sourceAsciiTildeCount := countAsciiTilde styleSource
      let replacementBudget : Int :=
        min missingWaveDashCount (countAsciiTilde zenzValue - sourceAsciiTildeCount)
      if replacementBudget ≤ 0 then zenzValue
      else
        let sourceChars := splitUtf8ForSymbolRestore styleSource
        let zenzChars := splitUtf8ForSymbolRestore zenzValue
        if sourceChars = [] ∨ zenzChars = [] then zenzValue
        else
          let defaultReplacement := firstJapaneseWaveDashBytes styleSource
          if defaultReplacement = [] then zenzValue
          else
            restoreLoop sourceChars defaultReplacement (sourceAsciiTildeCount == 0) 0
              replacementBudget zenzChars

end ZenzOutputValidator

/-- The fields of a preedit segment that the restoring of keys reads, as bytes. -/
structure SegmentBytes where
  key : Option Bytes := none
  value : Bytes
  deriving DecidableEq

namespace SegmentBytes

def segmentKey (segment : SegmentBytes) : Bytes :=
  match segment.key with
  | some key => if key ≠ [] then key else segment.value
  | none => segment.value

/-- The last loop of `RestorePreeditSegmentKeysForSymbolStyle`. -/
def distributeKeys (restoredKey : Bytes) : Nat → List SegmentBytes → List SegmentBytes
  | _, [] => []
  | offset, segment :: segments =>
    let segmentChars := charsLen segment.segmentKey
    { segment with key := some (utf8SubString restoredKey offset segmentChars) } ::
      distributeKeys restoredKey (offset + segmentChars) segments

def fullKey (segments : List SegmentBytes) : Bytes := segments.flatMap segmentKey

def restoredKey (symbolStyleSource : Bytes) (segments : List SegmentBytes) : Bytes :=
  ZenzOutputValidator.restoreUserVisibleSymbolStyle symbolStyleSource
    (segments.flatMap (·.value)) (fullKey segments)

def restorePreeditSegmentKeysForSymbolStyle (symbolStyleSource : Bytes)
    (segments : List SegmentBytes) : List SegmentBytes :=
  if symbolStyleSource = [] ∨ segments = [] then segments
  else
    let restored := restoredKey symbolStyleSource segments
    if restored = fullKey segments ∨ charsLen restored ≠ charsLen (fullKey segments) then segments
    else distributeKeys restored 0 segments

end SegmentBytes

namespace ZenzOutputValidator

section chars

variable {s rest text : Bytes} {cp : Nat} {c ch : Utf8CharForSymbolRestore}
  {cs chars : List Utf8CharForSymbolRestore}

/-- The bytes are decoded to the code point, whatever follows them, and count as `CharsLen` counts
them: as one character, but for the code points that no text has and the overlong two bytes. -/
structure Utf8CharForSymbolRestore.Decoded (c : Utf8CharForSymbolRestore) : Prop where
  decode : ∀ rest, decodeOneUtf8 (c.bytes ++ rest) = some (c.cp, rest)
  charsLen : ∀ rest, Base.charsLen (c.bytes ++ rest) = Base.charsLen rest + Base.charsLen c.bytes
  one : c.cp < 0x140000 → (c.bytes.length = 2 → 0x80 ≤ c.cp) → Base.charsLen c.bytes = 1

def bytesOf (cs : List Utf8CharForSymbolRestore) : Bytes := cs.flatMap (·.bytes)

@[simp] theorem bytesOf_cons : bytesOf (c :: cs) = c.bytes ++ bytesOf cs := rfl

theorem decoded_of_charsLen {bytes : Bytes} {n : Nat}
    (hdecode : ∀ rest, decodeOneUtf8 (bytes ++ rest) = some (cp, rest))
    (hlen : ∀ rest, charsLen (bytes ++ rest) = charsLen rest + n)
    (hone : cp < 0x140000 → (bytes.length = 2 → 0x80 ≤ cp) → n = 1) :
    (⟨cp, bytes⟩ : Utf8CharForSymbolRestore).Decoded := by
  have hn : charsLen bytes = n := by
    have h := hlen []
    rwa [List.append_nil, charsLen_nil, Nat.zero_add] at h
  exact ⟨hdecode, fun rest => by rw [hlen, ← hn], fun h htwo => hn.trans (hone h htwo)⟩

/-- A leading byte that `CharsLen` takes for a character of its own belongs to a code point that is
too large, or to two bytes that one would do for. -/
theorem leading_of_oneCharLen : ∀ x < 256, oneCharLen (UInt8.ofNat x) = 1 →
    (UInt8.ofNat x &&& 0xf8 = 0xf0 → 5 ≤ (UInt8.ofNat x &&& 0x07).toNat) ∧
      (UInt8.ofNat x &&& 0xe0 = 0xc0 → (UInt8.ofNat x &&& 0x1f).toNat < 2) := by
  decide +kernel

theorem decoded_of_decode (h : decodeOneUtf8 s = some (cp, rest)) :
    ∃ bytes, s = bytes ++ rest ∧ (⟨cp, bytes⟩ : Utf8CharForSymbolRestore).Decoded := by
  rcases decodeOneUtf8_cases h with ⟨c0, rfl, hascii, -⟩ | ⟨c0, c1, rfl, hascii, htwo, h1, hcp⟩ |
    ⟨c0, c1, c2, rfl, hascii, htwo, hthree, h1, h2, -⟩ |
    ⟨c0, c1, c2, c3, rfl, hascii, htwo, hthree, hfour, h1, h2, h3, hcp⟩
  · refine ⟨[c0], rfl, decoded_of_charsLen (n := 1) (fun rest' => ?_)
      (fun rest' => charsLen_ascii hascii rest') fun _ _ => rfl⟩
    simp [ZenzOutputValidator.decodeOneUtf8, ZenzPromptBuilder.decodeOneUtf8, hascii] at h ⊢
    exact h
  · have hdecode : ∀ rest', ZenzOutputValidator.decodeOneUtf8 ([c0, c1] ++ rest') =
        some (cp, rest') := by
      intro rest'
      simp [ZenzOutputValidator.decodeOneUtf8, ZenzPromptBuilder.decodeOneUtf8, hascii, htwo, h1] at h ⊢
      exact h
    rcases ((byte_form c0).2.1 htwo).1 with hlen | hlen
    · refine ⟨[c0, c1], rfl, decoded_of_charsLen (n := 1) hdecode (fun rest' => ?_) fun _ _ => rfl⟩
      rw [List.cons_append, charsLen_cons, hlen]
      rfl
    · refine ⟨[c0, c1], rfl, decoded_of_charsLen (n := 2) hdecode (fun rest' => ?_)
        fun _ hmin => ?_⟩
      · rw [List.cons_append, charsLen_cons, hlen, List.drop_succ_cons, List.drop_zero,
          List.cons_append, charsLen_trailing h1]
        rfl
      · have hlead := leading_of_oneCharLen c0.toNat c0.toNat_lt
        rw [UInt8.ofNat_toNat] at hlead
        have hlow := (hlead hlen).2 htwo
        have hge := hmin rfl
        have h64 : (c1 &&& 0x3f).toNat < 2 ^ 6 := toNat_and_lt c1 (by decide : (0x3f : UInt8) < 0x40)
        omega
  · refine ⟨[c0, c1, c2], rfl, decoded_of_charsLen (n := 1) (fun rest' => ?_) (fun rest' => ?_)
      fun _ _ => rfl⟩
    · simp [ZenzOutputValidator.decodeOneUtf8, ZenzPromptBuilder.decodeOneUtf8, hascii, htwo, hthree,
        h1, h2] at h ⊢
      exact h
    · rw [List.cons_append, charsLen_cons, ((byte_form c0).2.2.1 hthree).1]
      rfl
  · have hdecode : ∀ rest', ZenzOutputValidator.decodeOneUtf8 ([c0, c1, c2, c3] ++ rest') =
        some (cp, rest') := by
      intro rest'
      simp [ZenzOutputValidator.decodeOneUtf8, ZenzPromptBuilder.decodeOneUtf8, hascii, htwo, hthree,
        hfour, h1, h2, h3] at h ⊢
      exact h
    rcases ((byte_form c0).2.2.2 hfour).1 with hlen | hlen
    · refine ⟨[c0, c1, c2, c3], rfl, decoded_of_charsLen (n := 1) hdecode (fun rest' => ?_)
        fun _ _ => rfl⟩
      rw [List.cons_append, charsLen_cons, hlen]
      rfl
    · refine ⟨[c0, c1, c2, c3], rfl, decoded_of_charsLen (n := 4) hdecode (fun rest' => ?_)
        fun hlt _ => ?_⟩
      · rw [List.cons_append, charsLen_cons, hlen, List.drop_succ_cons, List.drop_zero,
          List.cons_append, charsLen_trailing h1, List.cons_append, charsLen_trailing h2,
          List.cons_append, charsLen_trailing h3]
        rfl
      · have hlead := leading_of_oneCharLen c0.toNat c0.toNat_lt
        rw [UInt8.ofNat_toNat] at hlead
        have hlow := (hlead hlen).1 hfour
        omega

theorem Utf8CharForSymbolRestore.Decoded.length_pos (h : c.Decoded) : 0 < c.bytes.length := by
  rcases hbytes : c.bytes with _ | ⟨b, bs⟩
  · have := h.decode []
    rw [hbytes] at this
    cases this
  · exact Nat.succ_pos _

theorem splitUtf8Loop_some {fuel : Nat} (h : splitUtf8Loop fuel s = some cs) :
    s = bytesOf cs ∧ ∀ c ∈ cs, c.Decoded := by
  induction fuel generalizing s cs with
  | zero =>
    cases s with
    | nil =>
      cases h
      exact ⟨rfl, fun c hc => (List.not_mem_nil hc).elim⟩
    | cons b s => cases h
  | succ fuel ih =>
    cases s with
    | nil =>
      cases h
      exact ⟨rfl, fun c hc => (List.not_mem_nil hc).elim⟩
    | cons b s =>
      rw [splitUtf8Loop] at h
      cases hdecode : decodeOneUtf8 (b :: s) with
      | none => rw [hdecode] at h; cases h
      | some r =>
        obtain ⟨cp, rest⟩ := r
        rw [hdecode] at h
        obtain ⟨cs', hcs', rfl⟩ := Option.map_eq_some_iff.mp h
        obtain ⟨bytes, hbytes, hdecoded⟩ := decoded_of_decode hdecode
        obtain ⟨hrest, hall⟩ := ih hcs'
        have htake : (b :: s).take ((b :: s).length - rest.length) = bytes := by
          rw [hbytes, List.length_append, Nat.add_sub_cancel, List.take_left]
        rw [htake]
        refine ⟨by rw [bytesOf_cons, ← hrest, hbytes], fun c hc => ?_⟩
        rcases List.mem_cons.mp hc with rfl | hc
        · exact hdecoded
        · exact hall c hc

theorem splitUtf8Loop_bytesOf {fuel : Nat} (hall : ∀ c ∈ cs, c.Decoded)
    (hfuel : (bytesOf cs).length ≤ fuel) : splitUtf8Loop fuel (bytesOf cs) = some cs := by
  induction cs generalizing fuel with
  | nil => cases fuel <;> rfl
  | cons c cs ih =>
    have hc := hall c List.mem_cons_self
    have hpos := hc.length_pos
    rw [bytesOf_cons, List.length_append] at hfuel
    rcases hbytes : bytesOf (c :: cs) with _ | ⟨b, s⟩
    · rw [bytesOf_cons] at hbytes
      rw [List.append_eq_nil_iff.mp hbytes |>.1] at hpos
      cases hpos
    · cases fuel with
      | zero => omega
      | succ fuel =>
        have htake : (c.bytes ++ bytesOf cs).take
            ((c.bytes ++ bytesOf cs).length - (bytesOf cs).length) = c.bytes := by
          rw [List.length_append, Nat.add_sub_cancel, List.take_left]
        rw [splitUtf8Loop, ← hbytes, bytesOf_cons, hc.decode]
        simp only [htake]
        rw [ih (fun c hc => hall c (List.mem_cons_of_mem _ hc)) (by omega)]
        rfl

theorem split_bytesOf (hall : ∀ c ∈ cs, c.Decoded) :
    splitUtf8ForSymbolRestore (bytesOf cs) = cs := by
  rw [splitUtf8ForSymbolRestore, splitUtf8Loop_bytesOf hall (Nat.le_refl _)]
  rfl

theorem bytesOf_split (h : splitUtf8ForSymbolRestore text ≠ []) :
    bytesOf (splitUtf8ForSymbolRestore text) = text ∧
      ∀ c ∈ splitUtf8ForSymbolRestore text, c.Decoded := by
  rw [splitUtf8ForSymbolRestore] at h ⊢
  cases hsplit : splitUtf8Loop text.length text with
  | none => rw [hsplit] at h; exact (h rfl).elim
  | some cs =>
    obtain ⟨htext, hall⟩ := splitUtf8Loop_some hsplit
    exact ⟨htext.symm, hall⟩

theorem countCodePointLoop_eq (fuel : Nat) (s : Bytes) (target count : Nat) :
    countCodePointLoop fuel s target count =
      match splitUtf8Loop fuel s with
      | none => 0
      | some cs => count + cs.countP fun c => c.cp = target := by
  induction fuel generalizing s count with
  | zero => cases s <;> rfl
  | succ fuel ih =>
    cases s with
    | nil => rfl
    | cons b s =>
      rw [countCodePointLoop, splitUtf8Loop]
      cases decodeOneUtf8 (b :: s) with
      | none => rfl
      | some r =>
        obtain ⟨cp, rest⟩ := r
        simp only
        rw [ih]
        cases splitUtf8Loop fuel rest with
        | none => rfl
        | some cs =>
          simp only [Option.map_some, List.countP_cons, decide_eq_true_eq]
          by_cases hcp : cp = target
          · rw [if_pos hcp, if_pos hcp, Nat.add_right_comm, Nat.add_assoc]
          · rw [if_neg hcp, if_neg hcp, Nat.add_zero]

theorem countCodePoint_eq (text : Bytes) (target : Nat) : countCodePoint text target =
    (splitUtf8ForSymbolRestore text).countP fun c => c.cp = target := by
  rw [countCodePoint, countCodePointLoop_eq, splitUtf8ForSymbolRestore]
  cases splitUtf8Loop text.length text with
  | none => rfl
  | some cs => exact Nat.zero_add _

def waves (cs : List Utf8CharForSymbolRestore) : Nat :=
  cs.countP fun c => isJapaneseWaveDash c.cp

def tildes (cs : List Utf8CharForSymbolRestore) : Nat := cs.countP fun c => isAsciiTilde c.cp

theorem countWaveDash_eq (text : Bytes) :
    countJapaneseWaveDashFamily text = waves (splitUtf8ForSymbolRestore text) := by
  rw [countJapaneseWaveDashFamily, countCodePoint_eq, countCodePoint_eq, waves]
  induction splitUtf8ForSymbolRestore text with
  | nil => rfl
  | cons c cs ih =>
    rw [List.countP_cons, List.countP_cons, List.countP_cons, ← ih]
    by_cases h1 : c.cp = 0xff5e
    · simp [isJapaneseWaveDash, h1]
      omega
    · by_cases h2 : c.cp = 0x301c
      · simp [isJapaneseWaveDash, h2]
        omega
      · simp [isJapaneseWaveDash, h1, h2]

theorem countAsciiTilde_eq (text : Bytes) :
    countAsciiTilde text = tildes (splitUtf8ForSymbolRestore text) := by
  rw [countAsciiTilde, countCodePoint_eq, tildes]
  exact List.countP_congr fun c _ => by simp [isAsciiTilde]

end chars

section restore

variable {source chars cs : List Utf8CharForSymbolRestore} {default : Utf8CharForSymbolRestore}
  {safe : Bool} {i : Nat} {budget : Int}

/-- The character at position `i` is a tilde that the loop replaces while it has a budget. -/
def Replaced (source : List Utf8CharForSymbolRestore) (safe : Bool) (i : Nat)
    (ch : Utf8CharForSymbolRestore) : Prop :=
  isAsciiTilde ch.cp ∧ ((positionalRestore source i).isSome ∨ safe)

instance (source : List Utf8CharForSymbolRestore) (safe : Bool) (i : Nat)
    (ch : Utf8CharForSymbolRestore) : Decidable (Replaced source safe i ch) :=
  inferInstanceAs (Decidable (_ ∧ _))

def restoreChars (source : List Utf8CharForSymbolRestore) (default : Utf8CharForSymbolRestore)
    (safe : Bool) : Nat → Int → List Utf8CharForSymbolRestore → List Utf8CharForSymbolRestore
  | _, _, [] => []
  | i, budget, ch :: chars =>
    if budget > 0 ∧ Replaced source safe i ch then
      (positionalRestore source i).getD default ::
        restoreChars source default safe (i + 1) (budget - 1) chars
    else ch :: restoreChars source default safe (i + 1) budget chars

theorem restoreLoop_eq : restoreLoop source default.bytes safe i budget chars =
    bytesOf (restoreChars source default safe i budget chars) := by
  induction chars generalizing i budget with
  | nil => rfl
  | cons ch chars ih =>
    rw [restoreLoop, restoreChars, ih, ih]
    by_cases h : budget > 0 ∧ Replaced source safe i ch
    · rw [if_pos h, bytesOf_cons]
      refine (if_pos h).trans ?_
      cases positionalRestore source i <;> rfl
    · rw [if_neg h, bytesOf_cons]
      exact if_neg h

def RestoresChar (source : List Utf8CharForSymbolRestore) (ch ch' : Utf8CharForSymbolRestore) : Prop :=
  ch' = ch ∨ isAsciiTilde ch.cp ∧ isJapaneseWaveDash ch'.cp ∧ ch' ∈ source

def differing (cs cs' : List Utf8CharForSymbolRestore) : Nat :=
  (cs.zip cs').countP fun p => p.1 ≠ p.2

theorem differing_cons (c c' : Utf8CharForSymbolRestore) (cs cs' : List Utf8CharForSymbolRestore) :
    differing (c :: cs) (c' :: cs') = differing cs cs' + if c ≠ c' then 1 else 0 := by
  rw [differing, List.zip_cons_cons, List.countP_cons]
  simp only [decide_eq_true_eq]
  rfl

theorem waves_cons (c : Utf8CharForSymbolRestore) (cs : List Utf8CharForSymbolRestore) :
    waves (c :: cs) = waves cs + if isJapaneseWaveDash c.cp then 1 else 0 := List.countP_cons

theorem tildes_cons (c : Utf8CharForSymbolRestore) (cs : List Utf8CharForSymbolRestore) :
    tildes (c :: cs) = tildes cs + if isAsciiTilde c.cp then 1 else 0 := List.countP_cons

theorem positionalRestore_spec {ch : Utf8CharForSymbolRestore}
    (h : positionalRestore source i = some ch) : isJapaneseWaveDash ch.cp ∧ ch ∈ source := by
  rw [positionalRestore, Option.filter_eq_some_iff] at h
  exact ⟨h.2, List.mem_of_getElem? h.1⟩

theorem not_tilde_of_wave {cp : Nat} (h : isJapaneseWaveDash cp = true) : isAsciiTilde cp = false := by
  simp only [isJapaneseWaveDash, Bool.or_eq_true, beq_iff_eq] at h
  rcases h with rfl | rfl <;> rfl

theorem not_wave_of_tilde {cp : Nat} (h : isAsciiTilde cp = true) : isJapaneseWaveDash cp = false := by
  rw [isAsciiTilde, beq_iff_eq] at h
  rw [h]
  rfl

theorem restoreChars_spec (hdefault : isJapaneseWaveDash default.cp ∧ default ∈ source)
    (hbudget : 0 ≤ budget) : ∃ n : Nat, (n : Int) ≤ budget ∧
      List.Forall₂ (RestoresChar source) chars (restoreChars source default safe i budget chars) ∧
      differing chars (restoreChars source default safe i budget chars) = n ∧
      waves (restoreChars source default safe i budget chars) = waves chars + n ∧
      tildes (restoreChars source default safe i budget chars) + n = tildes chars ∧
      ((n : Int) = budget ∨ ∀ budget', restoreChars source default safe i budget'
        (restoreChars source default safe i budget chars) =
          restoreChars source default safe i budget chars) := by
  induction chars generalizing i budget with
  | nil => exact ⟨0, hbudget, .nil, rfl, rfl, rfl, Or.inr fun _ => rfl⟩
  | cons ch chars ih =>
    rw [restoreChars]
    by_cases h : budget > 0 ∧ Replaced source safe i ch
    · obtain ⟨n, hn, hrel, hdiffer, hwaves, htildes, hrest⟩ := @ih (i + 1) (budget - 1) (by omega)
      obtain ⟨rep, hrep⟩ : ∃ rep, rep = (positionalRestore source i).getD default := ⟨_, rfl⟩
      have hspec : isJapaneseWaveDash rep.cp ∧ rep ∈ source := by
        rw [hrep]
        cases hpos : positionalRestore source i with
        | none => exact hdefault
        | some c => exact positionalRestore_spec hpos
      have htilde := h.2.1
      have hne : ch ≠ rep := fun heq => by
        have := not_wave_of_tilde htilde
        rw [heq, hspec.1] at this
        cases this
      rw [if_pos h, ← hrep]
      refine ⟨n + 1, by omega, .cons (Or.inr ⟨htilde, hspec⟩) hrel, ?_, ?_, ?_, ?_⟩
      · rw [differing_cons, if_pos hne, hdiffer]
      · rw [waves_cons, waves_cons, if_pos hspec.1, not_wave_of_tilde htilde, hwaves]
        rfl
      · rw [tildes_cons, tildes_cons, if_pos htilde, not_tilde_of_wave hspec.1, ← htildes]
        simp only [Bool.false_eq_true, if_false]
        omega
      · refine hrest.imp (fun heq => by omega) fun hsame budget' => ?_
        have hnot : ¬ (budget' > 0 ∧ Replaced source safe i rep) := fun hr => by
          have := hr.2.1
          rw [not_tilde_of_wave hspec.1] at this
          cases this
        rw [restoreChars, if_neg hnot, hsame]
    · obtain ⟨n, hn, hrel, hdiffer, hwaves, htildes, hrest⟩ := @ih (i + 1) budget hbudget
      rw [if_neg h]
      refine ⟨n, hn, .cons (Or.inl rfl) hrel, ?_, ?_, ?_, ?_⟩
      · rw [differing_cons, if_neg (not_not.mpr rfl), hdiffer, Nat.add_zero]
      · rw [waves_cons, waves_cons, hwaves, Nat.add_right_comm]
      · rw [tildes_cons, tildes_cons, ← htildes, Nat.add_right_comm]
      · by_cases hpos : budget > 0
        · refine hrest.imp id fun hsame budget' => ?_
          have hnot : ¬ (budget' > 0 ∧ Replaced source safe i ch) := fun hr => h ⟨hpos, hr.2⟩
          rw [restoreChars, if_neg hnot, hsame]
        · exact Or.inl (by omega)

/-- No tilde of the characters is of two bytes, an overlong form that the decoder here takes and
`CharsLen` counts as two characters. -/
def NoLongTilde (cs : List Utf8CharForSymbolRestore) : Prop :=
  ∀ ch ∈ cs, isAsciiTilde ch.cp → ch.bytes.length ≠ 2

theorem restored_decoded (hall : ∀ c ∈ chars, c.Decoded)
    (hsource : ∀ c ∈ source, c.Decoded) (hrel : List.Forall₂ (RestoresChar source) chars cs) :
    ∀ c ∈ cs, c.Decoded := by
  induction hrel with
  | nil => exact fun c hc => (List.not_mem_nil hc).elim
  | @cons ch ch' chars cs hch hrel ih =>
    have hcs := ih fun c hc => hall c (List.mem_cons_of_mem _ hc)
    refine List.forall_mem_cons.mpr ⟨?_, hcs⟩
    rcases hch with rfl | ⟨-, -, hmem⟩
    · exact hall ch' List.mem_cons_self
    · exact hsource ch' hmem

theorem charsLen_restored (hall : ∀ c ∈ chars, c.Decoded) (hsource : ∀ c ∈ source, c.Decoded)
    (hshort : NoLongTilde chars) (hrel : List.Forall₂ (RestoresChar source) chars cs) :
    charsLen (bytesOf cs) = charsLen (bytesOf chars) := by
  induction hrel with
  | nil => rfl
  | @cons ch ch' chars cs hch hrel ih =>
    have hlen := ih (fun c hc => hall c (List.mem_cons_of_mem _ hc))
      fun c hc => hshort c (List.mem_cons_of_mem _ hc)
    have hdecoded := hall ch List.mem_cons_self
    have hch' : ch'.Decoded ∧ charsLen ch'.bytes = charsLen ch.bytes := by
      rcases hch with rfl | ⟨htilde, hwave, hmem⟩
      · exact ⟨hdecoded, rfl⟩
      · refine ⟨hsource ch' hmem, ?_⟩
        have hone := hshort ch List.mem_cons_self htilde
        rw [isAsciiTilde, beq_iff_eq] at htilde
        simp only [isJapaneseWaveDash, Bool.or_eq_true, beq_iff_eq] at hwave
        rw [(hsource ch' hmem).one (by omega) (by omega),
          hdecoded.one (by omega) fun htwo => absurd htwo hone]
    rw [bytesOf_cons, bytesOf_cons, hch'.1.charsLen, hdecoded.charsLen, hlen, hch'.2]

/-- The wave dashes of `restored` that `zenzValue` has not are characters of `source` in the places of
tildes, and with them it has no more than `source`. -/
def StyleRestored (source zenzValue restored : Bytes) : Prop :=
  bytesOf (splitUtf8ForSymbolRestore zenzValue) = zenzValue ∧
  bytesOf (splitUtf8ForSymbolRestore restored) = restored ∧
  List.Forall₂ (RestoresChar (splitUtf8ForSymbolRestore source))
    (splitUtf8ForSymbolRestore zenzValue) (splitUtf8ForSymbolRestore restored) ∧
  differing (splitUtf8ForSymbolRestore zenzValue) (splitUtf8ForSymbolRestore restored) +
    countJapaneseWaveDashFamily zenzValue ≤ countJapaneseWaveDashFamily source

def budgetOf (source chars : List Utf8CharForSymbolRestore) : Int :=
  min ((waves source : Int) - waves chars) ((tildes chars : Int) - tildes source)

theorem styleSource_waves {key mozcValue text : Bytes} (h : styleSource key mozcValue = some text) :
    0 < waves (splitUtf8ForSymbolRestore text) := by
  rw [← countWaveDash_eq]
  rw [styleSource] at h
  split at h
  · rename_i hkey
    exact Option.some.inj h ▸ hkey
  · split at h
    · rename_i hmozc
      exact Option.some.inj h ▸ hmozc
    · cases h

theorem exists_default {text : Bytes} (h : 0 < waves (splitUtf8ForSymbolRestore text)) :
    ∃ default ∈ splitUtf8ForSymbolRestore text, isJapaneseWaveDash default.cp ∧
      firstJapaneseWaveDashBytes text = default.bytes := by
  obtain ⟨c, hc, hwave⟩ := List.countP_pos_iff.mp h
  rw [firstJapaneseWaveDashBytes]
  cases hfind : (splitUtf8ForSymbolRestore text).find?
      (fun ch => isJapaneseWaveDash ch.cp) with
  | none => exact absurd hwave (List.find?_eq_none.mp hfind c hc)
  | some default =>
    exact ⟨default, List.mem_of_find?_eq_some hfind,
      @List.find?_some Utf8CharForSymbolRestore (fun ch => isJapaneseWaveDash ch.cp) _ _ hfind, rfl⟩

theorem restore_eq {key mozcValue text : Bytes} (h : styleSource key mozcValue = some text) :
    ∃ default ∈ splitUtf8ForSymbolRestore text, isJapaneseWaveDash default.cp ∧
      ∀ zenzValue, restoreUserVisibleSymbolStyle key mozcValue zenzValue =
        let source := splitUtf8ForSymbolRestore text
        let chars := splitUtf8ForSymbolRestore zenzValue
        if budgetOf source chars ≤ 0 then zenzValue
        else bytesOf (restoreChars source default (tildes source == 0) 0 (budgetOf source chars)
          chars) := by
  have hwaves := styleSource_waves h
  obtain ⟨default, hmem, hwave, hbytes⟩ := exists_default hwaves
  refine ⟨default, hmem, hwave, fun zenzValue => ?_⟩
  have hall := (bytesOf_split (List.ne_nil_of_mem hmem)).2
  have hdefault : default.bytes ≠ [] := List.ne_nil_of_length_pos (hall default hmem).length_pos
  rw [restoreUserVisibleSymbolStyle, h]
  simp only [countWaveDash_eq, countAsciiTilde_eq, hbytes, if_neg hdefault, restoreLoop_eq]
  rw [budgetOf]
  by_cases hmissing : (waves (splitUtf8ForSymbolRestore text) : Int) -
      waves (splitUtf8ForSymbolRestore zenzValue) ≤ 0
  · rw [if_pos hmissing, if_pos (Int.le_trans (Int.min_le_left _ _) hmissing)]
  · rw [if_neg hmissing]
    by_cases hbudget : min ((waves (splitUtf8ForSymbolRestore text) : Int) -
        waves (splitUtf8ForSymbolRestore zenzValue))
        ((tildes (splitUtf8ForSymbolRestore zenzValue) : Int) -
          tildes (splitUtf8ForSymbolRestore text)) ≤ 0
    · rw [if_pos hbudget, if_pos hbudget]
    · have hchars : ¬ (splitUtf8ForSymbolRestore text = [] ∨
          splitUtf8ForSymbolRestore zenzValue = []) := by
        rintro (hnil | hnil)
        · exact List.ne_nil_of_mem hmem hnil
        · rw [hnil] at hbudget
          exact hbudget (Int.le_trans (Int.min_le_right _ _) (by simp [tildes]))
      rw [if_neg hbudget, if_neg hbudget, if_neg hchars]

theorem restore_spec (key mozcValue zenzValue : Bytes) :
    let restored := restoreUserVisibleSymbolStyle key mozcValue zenzValue
    (splitUtf8ForSymbolRestore restored).length = (splitUtf8ForSymbolRestore zenzValue).length ∧
      (NoLongTilde (splitUtf8ForSymbolRestore zenzValue) → charsLen restored = charsLen zenzValue) ∧
      (restored = zenzValue ∨
        ∃ source, styleSource key mozcValue = some source ∧ StyleRestored source zenzValue restored) ∧
      restoreUserVisibleSymbolStyle key mozcValue restored = restored := by
  intro restored
  cases hsource : styleSource key mozcValue with
  | none =>
    have hsame : ∀ value, restoreUserVisibleSymbolStyle key mozcValue value = value := fun value => by
      rw [restoreUserVisibleSymbolStyle, hsource]
    have hrestored : restored = zenzValue := hsame zenzValue
    exact ⟨by rw [hrestored], fun _ => by rw [hrestored], Or.inl hrestored, hsame restored⟩
  | some text =>
    obtain ⟨default, hmem, hwave, heq⟩ := restore_eq hsource
    obtain ⟨source, hsplit⟩ : ∃ source, source = splitUtf8ForSymbolRestore text := ⟨_, rfl⟩
    obtain ⟨chars, hchars⟩ : ∃ chars, chars = splitUtf8ForSymbolRestore zenzValue := ⟨_, rfl⟩
    by_cases hbudget : budgetOf source chars ≤ 0
    · have hsame : restored = zenzValue := by
        rw [hsplit, hchars] at hbudget
        exact (heq zenzValue).trans (if_pos hbudget)
      exact ⟨by rw [hsame], fun _ => by rw [hsame], Or.inl hsame, by rw [hsame]; exact hsame⟩
    · have hrestored : restored = bytesOf (restoreChars source default (tildes source == 0) 0
          (budgetOf source chars) chars) := by
        rw [hsplit, hchars] at hbudget ⊢
        exact (heq zenzValue).trans (if_neg hbudget)
      obtain ⟨n, hn, hrel, hdiffer, hwaves, htildes, hrest⟩ := @restoreChars_spec
        source chars _ (tildes source == 0) 0 _ ⟨hwave, hsplit ▸ hmem⟩ (Int.le_of_lt (Int.not_le.mp hbudget))
      obtain ⟨cs, hcs⟩ : ∃ cs, cs = restoreChars source default (tildes source == 0) 0
          (budgetOf source chars) chars := ⟨_, rfl⟩
      rw [← hcs] at hrestored hrel hdiffer hwaves htildes hrest
      have hne : chars ≠ [] := by
        rintro hnil
        rw [hnil] at hbudget
        exact hbudget (Int.le_trans (Int.min_le_right _ _) (by simp [tildes]))
      obtain ⟨hbytes, hall⟩ := bytesOf_split (hchars ▸ hne)
      rw [← hchars] at hbytes hall
      have hsourceAll := (bytesOf_split (List.ne_nil_of_mem hmem)).2
      rw [← hsplit] at hsourceAll
      have hcsAll := restored_decoded hall hsourceAll hrel
      have hsplit' : splitUtf8ForSymbolRestore restored = cs := by
        rw [hrestored, split_bytesOf hcsAll]
      refine ⟨by rw [hsplit', ← hchars, hrel.length_eq], fun hshort => ?_, Or.inr ⟨text, rfl, ?_⟩, ?_⟩
      · rw [hrestored, charsLen_restored hall hsourceAll (hchars ▸ hshort) hrel, hbytes]
      · refine ⟨hchars ▸ hbytes, by rw [hsplit', hrestored], ?_, ?_⟩
        · rw [hsplit', ← hchars, ← hsplit]
          exact hrel
        · rw [hsplit', countWaveDash_eq, countWaveDash_eq, ← hchars, ← hsplit, hdiffer]
          have hmin : budgetOf source chars ≤ (waves source : Int) - waves chars := Int.min_le_left _ _
          omega
      · -- the second pass has what the first one left of the budget
        have hleft : budgetOf source cs = budgetOf source chars - n := by
          rw [budgetOf, budgetOf, hwaves]
          omega
        refine (heq restored).trans ?_
        simp only [hsplit', ← hsplit]
        rcases hrest with hspent | hsame
        · exact if_pos (by omega)
        · split
          · rfl
          · rw [hsame, hrestored]

end restore

end ZenzOutputValidator

namespace SegmentBytes

open ZenzOutputValidator

section keys

variable {restored : Bytes} {segments : List SegmentBytes}

/-- The characters of the segment keys, as `CharsLen` counts them. -/
def keyLengths (segments : List SegmentBytes) : List Nat :=
  segments.map fun segment => charsLen segment.segmentKey

/-- No character begins in one segment key and ends in another. -/
def WholeCharacters (segments : List SegmentBytes) : Prop :=
  (keyLengths segments).sum = charsLen (fullKey segments)

theorem distributeKeys_flatMap (offset : Nat) :
    (distributeKeys restored offset segments).flatMap (·.key.getD []) =
      utf8Take (keyLengths segments).sum (utf8Drop offset restored) := by
  induction segments generalizing offset with
  | nil => rfl
  | cons segment segments ih =>
    have hsum : (keyLengths (segment :: segments)).sum =
        charsLen segment.segmentKey + (keyLengths segments).sum := List.sum_cons
    rw [distributeKeys, List.flatMap_cons, ih, hsum, utf8Take_add, ← utf8Drop_add]
    rfl

theorem distributeKeys_lengths (offset : Nat) :
    (distributeKeys restored offset segments).map (fun segment => charsLen (segment.key.getD [])) =
        keyLengths segments ↔
      (keyLengths segments).sum = 0 ∨ offset + (keyLengths segments).sum ≤ charsLen restored := by
  induction segments generalizing offset with
  | nil => exact iff_of_true rfl (Or.inl rfl)
  | cons segment segments ih =>
    have hhead : charsLen (utf8SubString restored offset (charsLen segment.segmentKey)) =
        min (charsLen segment.segmentKey) (charsLen restored - offset) := by
      rw [utf8SubString, charsLen_utf8Take, charsLen_utf8Drop]
    have hih := ih (offset + charsLen segment.segmentKey)
    rw [keyLengths] at hih
    rw [distributeKeys, keyLengths, List.map_cons, List.map_cons, List.cons.injEq, hih, List.sum_cons]
    show charsLen (utf8SubString restored offset (charsLen segment.segmentKey)) = _ ∧ _ ↔ _
    rw [hhead]
    omega

theorem restorePreedit_spec (source : Bytes) (segments : List SegmentBytes) :
    let after := restorePreeditSegmentKeysForSymbolStyle source segments
    (source = [] ∨ restoredKey source segments = fullKey segments ∨
        charsLen (restoredKey source segments) ≠ charsLen (fullKey segments) → after = segments) ∧
      (source ≠ [] → restoredKey source segments ≠ fullKey segments →
        charsLen (restoredKey source segments) = charsLen (fullKey segments) →
        (after.map (fun segment => charsLen (segment.key.getD [])) = keyLengths segments ∧
          after.flatMap (·.key.getD []) = restoredKey source segments ↔
            WholeCharacters segments)) := by
  intro after
  constructor
  · intro h
    show restorePreeditSegmentKeysForSymbolStyle source segments = segments
    rw [restorePreeditSegmentKeysForSymbolStyle]
    split
    · rfl
    · rename_i hsource
      exact if_pos (h.resolve_left fun hnil => hsource (Or.inl hnil))
  · intro hsource hchanged hlen
    have hsegments : segments ≠ [] := by
      rintro rfl
      have hnil : charsLen (restoredKey source []) = 0 := hlen
      exact hchanged (charsLen_eq_zero.mp hnil)
    have hafter : after = distributeKeys (restoredKey source segments) 0 segments := by
      show restorePreeditSegmentKeysForSymbolStyle source segments = _
      rw [restorePreeditSegmentKeysForSymbolStyle, if_neg (not_or.mpr ⟨hsource, hsegments⟩)]
      exact if_neg (not_or.mpr ⟨hchanged, not_not.mpr hlen⟩)
    rw [hafter, distributeKeys_lengths, distributeKeys_flatMap, WholeCharacters, ← hlen]
    constructor
    · rintro ⟨hle, htake⟩
      have hmin := congrArg charsLen htake
      rw [charsLen_utf8Take, utf8Drop] at hmin
      omega
    · intro hsum
      exact ⟨Or.inr (by omega), utf8Take_of_charsLen_le (by rw [utf8Drop]; omega)⟩

/-- What the restoring keeps: the number of characters, by `CharsLen` as well unless a tilde has two
bytes, all characters but some tildes, which become wave dashes of the source, and what a second pass
would change; and, if no segment key ends within a character, the number of characters of each key of a
preedit. -/
theorem restore_keeps_style (key mozcValue zenzValue : Bytes) (segments : List SegmentBytes) :
    let restored := restoreUserVisibleSymbolStyle key mozcValue zenzValue
    let after := restorePreeditSegmentKeysForSymbolStyle key segments
    ((splitUtf8ForSymbolRestore restored).length = (splitUtf8ForSymbolRestore zenzValue).length ∧
      (NoLongTilde (splitUtf8ForSymbolRestore zenzValue) → charsLen restored = charsLen zenzValue) ∧
      (restored = zenzValue ∨
        ∃ source, styleSource key mozcValue = some source ∧ StyleRestored source zenzValue restored) ∧
      restoreUserVisibleSymbolStyle key mozcValue restored = restored) ∧
    (key = [] ∨ restoredKey key segments = fullKey segments ∨
        charsLen (restoredKey key segments) ≠ charsLen (fullKey segments) → after = segments) ∧
      (key ≠ [] → restoredKey key segments ≠ fullKey segments →
        charsLen (restoredKey key segments) = charsLen (fullKey segments) →
        (after.map (fun segment => charsLen (segment.key.getD [])) = keyLengths segments ∧
          after.flatMap (·.key.getD []) = restoredKey key segments ↔ WholeCharacters segments)) :=
  ⟨restore_spec key mozcValue zenzValue, restorePreedit_spec key segments⟩

/-- The overlong tilde counts as two characters by `CharsLen`, the wave dash in its place as one. -/
example : charsLen [0xc1, 0xbe] = 2 ∧
    charsLen (restoreUserVisibleSymbolStyle [0xe3, 0x80, 0x9c] [] [0xc1, 0xbe]) = 1 := by decide

/-- Two keys of one character each, whose tilde becomes a wave dash. -/
theorem restore_keeps_style_two_keys :
    let segments : List SegmentBytes := [⟨some [0x61], [0x61]⟩, ⟨some [0x7e], [0x7e]⟩]
    (restorePreeditSegmentKeysForSymbolStyle [0x61, 0xe3, 0x80, 0x9c] segments).map
        (fun segment => charsLen (segment.key.getD [])) = [1, 1] ∧
      (restorePreeditSegmentKeysForSymbolStyle [0x61, 0xe3, 0x80, 0x9c] segments).flatMap
        (·.key.getD []) = restoredKey [0x61, 0xe3, 0x80, 0x9c] segments :=
  ((restore_keeps_style [0x61, 0xe3, 0x80, 0x9c] [] [] _).2.2 (by decide) (by decide)
    (by decide)).mpr rfl

/-- A wave dash that begins in one segment key and ends in the next one: after its bytes have moved to
the first key, the second one has no character left. -/
theorem not_restore_keeps_keys :
    let segments : List SegmentBytes := [⟨some [0x7e, 0xe3, 0x80], []⟩, ⟨some [0x9c], []⟩]
    keyLengths segments = [2, 1] ∧
      (restorePreeditSegmentKeysForSymbolStyle [0xef, 0xbd, 0x9e, 0xe3, 0x80, 0x9c] segments).map
        (fun segment => charsLen (segment.key.getD [])) = [2, 0] := by
  decide

end keys

end SegmentBytes

end Mozkey.Session
