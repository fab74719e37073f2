import Mozkey.Dictionary.System.TokenCodec

/-! `DecodeToken` and `ReadTokenForReverseLookup` on what `EncodeToken` writes, whatever follows it. -/

namespace Mozkey.Dictionary

open Storage Base

structure FlagsOf (info : TokenInfo) (last : Bool) (flags : Nat) : Prop where
  pos : getFlagForPos info = some (flags &&& kPosTypeFlagMask)
  value : flags &&& kValueTypeFlagMask = getFlagForValue info
  spelling : flags &&& kSpellingCorrectionFlag ≠ 0 ↔ info.token.isSpellingCorrection = true
  ends : flags &&& kLastTokenFlag = 0 ↔ last = false
  crammed : flags &&& kCrammedIDFlag ≠ 0 ↔ info.token.isSpellingCorrection = false ∧
    info.posType = .frequentPos ∧ info.valueType = .defaultValue
  alone : flags &&& kCrammedIDFlag ≠ 0 → flags = if last then 0xc0 else 0x40
  byte : flags < 256

/-- The flags that `GetFlagsForToken` puts together. -/
def joinFlags (last spelling : Bool) (pos value : Nat) : Nat :=
  let flags := if last then kLastTokenFlag else 0
  let flags := if spelling then flags ||| kSpellingCorrectionFlag else flags
  let flags := flags ||| pos ||| value
  if flags &&& kUpperCrammedIDMask = 0 then flags ||| kCrammedIDFlag else flags

theorem joinFlags_spec : ∀ last spelling, ∀ pos ∈ [kFrequentPosFlag, kFullPosFlag, kMonoPosFlag,
    kSameAsPrevPosFlag], ∀ value ∈ [kNormalValueFlag, kAsIsHiraganaValueFlag,
    kAsIsKatakanaValueFlag, kSameAsPrevValueFlag], let flags := joinFlags last spelling pos value
    flags &&& kPosTypeFlagMask = pos ∧ flags &&& kValueTypeFlagMask = value ∧
      (flags &&& kSpellingCorrectionFlag ≠ 0 ↔ spelling = true) ∧
      (flags &&& kLastTokenFlag = 0 ↔ last = false) ∧
      (flags &&& kCrammedIDFlag ≠ 0 ↔ spelling = false ∧ pos = kFrequentPosFlag ∧
        value = kNormalValueFlag) ∧
      (flags &&& kCrammedIDFlag ≠ 0 → flags = if last then 0xc0 else 0x40) ∧ flags < 256 := by
  decide

variable {info info' : TokenInfo} {tokens : List TokenInfo} {index flags offset : Nat}
  {last : Bool} {ptr rest : Bytes}

theorem getFlagForPos_mem {pos : Nat} (h : getFlagForPos info = some pos) :
    pos ∈ [kFrequentPosFlag, kFullPosFlag, kMonoPosFlag, kSameAsPrevPosFlag] ∧
      (pos = kFrequentPosFlag ↔ info.posType = .frequentPos) ∧
      (pos = kSameAsPrevPosFlag ↔ info.posType = .sameAsPrevPos) ∧
      (pos = kMonoPosFlag ↔ info.posType = .defaultPos ∧ info.token.lid = info.token.rid) ∧
      info.token.lid ≤ kPosMax ∧ info.token.rid ≤ kPosMax := by
  rw [getFlagForPos] at h
  split at h
  · cases h
  · rename_i hmax
    rw [not_or, not_lt, not_lt] at hmax
    rcases htype : info.posType <;> rw [htype] at h
    · by_cases heq : info.token.lid = info.token.rid <;> simp only [heq, if_true, if_false] at h <;>
        obtain rfl := Option.some.inj h <;> simp [heq, hmax] <;> decide
    all_goals obtain rfl := Option.some.inj h; simp [hmax]; decide

theorem getFlagForValue_mem (info : TokenInfo) :
    getFlagForValue info ∈ [kNormalValueFlag, kAsIsHiraganaValueFlag, kAsIsKatakanaValueFlag,
      kSameAsPrevValueFlag] ∧
      (getFlagForValue info = kNormalValueFlag ↔ info.valueType = .defaultValue) := by
  rw [getFlagForValue]
  cases info.valueType <;> decide

theorem flagsOf_getFlagsForToken (h : getFlagsForToken tokens index = some flags)
    (hinfo : tokens[index]? = some info) :
    FlagsOf info (decide (index = tokens.length - 1)) flags := by
  rw [getFlagsForToken, hinfo] at h
  simp only [Option.bind_eq_bind, Option.bind_some] at h
  obtain ⟨pos, hpos, h⟩ := Option.bind_eq_some_iff.mp h
  obtain ⟨-, h⟩ := Option.ite_none_left_eq_some.mp h
  obtain ⟨-, h⟩ := Option.ite_none_left_eq_some.mp h
  have hflags : flags = joinFlags (decide (index = tokens.length - 1))
      info.token.isSpellingCorrection pos (getFlagForValue info) := by
    rw [joinFlags]
    simp only [decide_eq_true_eq]
    exact (Option.some.inj h).symm
  obtain ⟨hposFlag, hvalue, hspelling, hlast, hcrammed, halone, hbyte⟩ := joinFlags_spec
    (decide (index = tokens.length - 1)) info.token.isSpellingCorrection pos
    (getFlagForPos_mem hpos).1 _ (getFlagForValue_mem info).1
  rw [← hflags] at hposFlag hvalue hspelling hlast hcrammed halone hbyte
  refine ⟨?_, hvalue, hspelling, hlast, ?_, halone, hbyte⟩
  · rw [hposFlag, hpos]
  · rw [hcrammed, (getFlagForPos_mem hpos).2.1, (getFlagForValue_mem info).2]

theorem byteAt_drop (h : ptr.drop offset = rest) (i : Nat) :
    byteAt ptr (offset + i) = rest[i]?.map UInt8.toNat := by
  rw [byteAt, ← h, List.getElem?_drop]

theorem toNat_byteOfInt (n : Int) : ((byteOfInt n).toNat : Int) = n % 256 := by
  rw [byteOfInt, toNat_byte (by omega)]
  omega

theorem encodeValueInfo_cases {upper : Nat} {value : Bytes}
    (h : encodeValueInfo info flags = some (upper, value)) :
    (flags &&& kValueTypeFlagMask ≠ kNormalValueFlag ∧ upper = 0 ∧ value = []) ∨
      (flags &&& kValueTypeFlagMask = kNormalValueFlag ∧ ∃ id ≤ kValueTrieIdMax,
        info.idInValueTrie = id ∧
        ((flags &&& kCrammedIDFlag ≠ 0 ∧ upper = id / 65536 ∧
            value = [UInt8.ofNat (id % 256), UInt8.ofNat (id / 256 % 256)]) ∨
          (¬ flags &&& kCrammedIDFlag ≠ 0 ∧ upper = 0 ∧
            value = [UInt8.ofNat (id % 256), UInt8.ofNat (id / 256 % 256),
              UInt8.ofNat (id / 65536)]))) := by
  rw [encodeValueInfo] at h
  by_cases hnormal : flags &&& kValueTypeFlagMask ≠ kNormalValueFlag
  · rw [if_pos hnormal] at h
    cases h
    exact Or.inl ⟨hnormal, rfl, rfl⟩
  · rw [if_neg hnormal] at h
    obtain ⟨hid, h⟩ := Option.ite_none_left_eq_some.mp h
    rw [not_or, not_lt, not_lt] at hid
    have hmax : info.idInValueTrie.toNat ≤ 4194303 := hid.2
    refine Or.inr ⟨not_not.mp hnormal, info.idInValueTrie.toNat, hid.2, by omega, ?_⟩
    have hupper : (info.idInValueTrie.toNat >>> 16) &&& kUpperCrammedIDMask =
        info.idInValueTrie.toNat / 65536 := by
      have hbits : (info.idInValueTrie.toNat >>> 16) &&& 0x3f =
          info.idInValueTrie.toNat / 65536 % 64 := low_bits info.idInValueTrie.toNat 16 6
      rw [kUpperCrammedIDMask, hbits]
      omega
    have hleft : info.idInValueTrie.toNat / 65536 % 256 = info.idInValueTrie.toNat / 65536 := by
      omega
    simp only [hupper, middle_byte, left_byte, hleft] at h
    simp only [low_byte] at h
    by_cases hcrammed : flags &&& kCrammedIDFlag ≠ 0
    · rw [if_pos hcrammed] at h
      cases h
      exact Or.inl ⟨hcrammed, rfl, rfl⟩
    · rw [if_neg hcrammed] at h
      cases h
      exact Or.inr ⟨hcrammed, rfl, rfl⟩

theorem readFlags_upper {upper : Nat} {value : Bytes} (h : FlagsOf info last flags)
    (hvalue : encodeValueInfo info flags = some (upper, value)) :
    flags ||| upper < 256 ∧ readFlags (flags ||| upper) = flags ∧
      (flags &&& kCrammedIDFlag ≠ 0 → (flags ||| upper) &&& kUpperCrammedIDMask = upper) := by
  have hcases : ∀ last : Bool, ∀ upper < 64, let flags := if last then 0xc0 else 0x40
      flags ||| upper < 256 ∧ readFlags (flags ||| upper) = flags ∧
        (flags ||| upper) &&& kUpperCrammedIDMask = upper := by
    decide
  by_cases hcrammed : flags &&& kCrammedIDFlag ≠ 0
  · have hupper : upper < 64 := by
      rcases encodeValueInfo_cases hvalue with ⟨-, rfl, -⟩ | ⟨-, id, hid, -, hsplit⟩
      · decide
      · have hmax : id ≤ 4194303 := hid
        rcases hsplit with ⟨-, rfl, -⟩ | ⟨-, rfl, -⟩ <;> omega
    rw [h.alone hcrammed]
    obtain ⟨hlt, hread, hmask⟩ := hcases last upper hupper
    exact ⟨hlt, hread, fun _ => hmask⟩
  · have hupper : upper = 0 := by
      rcases encodeValueInfo_cases hvalue with ⟨-, hzero, -⟩ | ⟨-, id, -, -, hsplit⟩
      · exact hzero
      · rcases hsplit with ⟨hc, -, -⟩ | ⟨-, hzero, -⟩
        · exact absurd hc hcrammed
        · exact hzero
    rw [hupper, Nat.or_zero, readFlags, if_neg hcrammed]
    exact ⟨h.byte, rfl, fun hc => absurd hc hcrammed⟩

def TokenInfo.readPos (info prev : TokenInfo) : TokenInfo :=
  match info.posType with
  | .frequentPos => { prev with
      posType := .frequentPos, idInFrequentPosMap := info.idInFrequentPosMap % 256 }
  | .sameAsPrevPos => { prev with posType := .sameAsPrevPos }
  | .defaultPos => { prev with token.lid := info.token.lid, token.rid := info.token.rid }

/-- The cost of a token that `DecodeCost` reads: what fits into one byte or into two. -/
def TokenInfo.readCost (info prev : TokenInfo) : TokenInfo :=
  { prev with token.cost := match info.costType with
      | .canUseSmallEncoding => info.token.cost / 256 % 128 * 256
      | .defaultCost => info.token.cost % 65536 }

/-- What `DecodeValueInfo` reads of the value of a token. -/
def TokenInfo.readValue (info prev : TokenInfo) : TokenInfo :=
  { prev with
    valueType := info.valueType
    idInValueTrie := if info.valueType = .defaultValue then info.idInValueTrie
      else prev.idInValueTrie }

def TokenInfo.readAttributes (info prev : TokenInfo) : TokenInfo :=
  if info.token.isSpellingCorrection
    then { prev with token.attributes := Token.spellingCorrection } else prev

/-- The first byte of a cost that is not small has not the bit of a small one. -/
def TokenInfo.CostFits (info : TokenInfo) : Prop :=
  info.costType = .defaultCost → info.token.cost / 256 % 256 < 128

theorem shiftRight_eight (n : Int) : n >>> (8 : Nat) = n / 256 := Int.shiftRight_eq_div_pow n 8

theorem smallCost_spec : ∀ x < 256,
    (x ||| kSmallCostFlag) &&& kSmallCostFlag ≠ 0 ∧
      (x ||| kSmallCostFlag) &&& kSmallCostMask = x % 128 ∧ x ||| kSmallCostFlag < 256 ∧
      (x < 128 → ¬ x &&& kSmallCostFlag ≠ 0) := by
  decide +kernel

theorem decodeCost_encodeCost {cost : Bytes} (hcost : encodeCost info = some cost)
    (hfits : info.CostFits) (hptr : ptr.drop offset = cost ++ rest) (prev : TokenInfo) :
    decodeCost ptr prev offset = some (info.readCost prev, offset + cost.length) := by
  obtain ⟨-, hcost⟩ := Option.ite_none_left_eq_some.mp hcost
  have h0 : byteAt ptr offset = _ := byteAt_drop hptr 0
  have h1 : byteAt ptr (offset + 1) = _ := byteAt_drop hptr 1
  have hhigh := toNat_byteOfInt (info.token.cost >>> (8 : Nat))
  rw [shiftRight_eight] at hhigh hcost
  rw [decodeCost, TokenInfo.readCost, h0]
  rcases htype : info.costType with _ | _
  · rw [htype] at hcost
    obtain rfl := Option.some.inj hcost
    have hlow := toNat_byteOfInt info.token.cost
    have hbit := (smallCost_spec _ (UInt8.toNat_lt (byteOfInt (info.token.cost / 256)))).2.2.2
      (by have := hfits htype; omega)
    simp only [List.cons_append, List.getElem?_cons_zero, Option.map_some, Option.bind_eq_bind,
      Option.bind_some]
    rw [if_neg hbit, h1]
    simp only [List.cons_append, List.getElem?_cons_succ, List.getElem?_cons_zero, Option.map_some,
      Option.bind_some, Nat.shiftLeft_eq, List.length_cons, List.length_nil]
    congr 4
    push_cast
    omega
  · rw [htype] at hcost
    obtain rfl := Option.some.inj hcost
    obtain ⟨hbit, hmask, hlt, -⟩ :=
      smallCost_spec _ (UInt8.toNat_lt (byteOfInt (info.token.cost / 256)))
    have hor : (byteOfInt (info.token.cost / 256) ||| UInt8.ofNat kSmallCostFlag).toNat =
        (byteOfInt (info.token.cost / 256)).toNat ||| kSmallCostFlag := UInt8.toNat_or _ _
    simp only [List.cons_append, List.getElem?_cons_zero, Option.map_some, Option.bind_eq_bind,
      Option.bind_some]
    rw [hor, if_pos hbit, hmask]
    simp only [Nat.shiftLeft_eq, List.length_cons, List.length_nil]
    congr 4
    push_cast
    omega

theorem fullPos_spec {lid rid : Nat} (hlid : lid ≤ kPosMax) (hrid : rid ≤ kPosMax) :
    ((rid <<< 4) &&& 255) ||| (lid >>> 8) = rid % 16 * 16 + lid / 256 ∧ rid % 16 * 16 + lid / 256 < 256 ∧
      (rid % 16 * 16 + lid / 256) &&& 0x0f = lid / 256 ∧
      (rid % 16 * 16 + lid / 256) >>> 4 = rid % 16 ∧ (rid >>> 4) &&& 255 = rid / 16 := by
  have hlid : lid ≤ 4095 := hlid
  have hrid : rid ≤ 4095 := hrid
  have hshift : rid <<< 4 = rid * 16 := Nat.shiftLeft_eq rid 4
  have hlow : lid >>> 8 = lid / 256 := Nat.shiftRight_eq_div_pow lid 8
  have hupper : (rid >>> 4) &&& 255 = rid / 16 % 256 := low_bits rid 4 8
  have hmask : (rid % 16 * 16 + lid / 256) &&& 0x0f = (rid % 16 * 16 + lid / 256) % 16 :=
    Nat.and_two_pow_sub_one_eq_mod _ 4
  have hor : rid % 16 * 16 ||| lid / 256 = rid % 16 * 16 + lid / 256 := by
    have := Nat.shiftLeft_add_eq_or_of_lt (show lid / 256 < 2 ^ 4 by omega) (rid % 16)
    rw [Nat.shiftLeft_eq] at this
    exact this.symm
  have hrest : (rid % 16 * 16 + lid / 256) >>> 4 = (rid % 16 * 16 + lid / 256) / 16 :=
    Nat.shiftRight_eq_div_pow _ 4
  have hmod : rid * 16 % 256 = rid % 16 * 16 := by omega
  refine ⟨?_, by omega, by omega, by omega, by omega⟩
  rw [hshift, low_byte, hlow, hmod, hor]

theorem decodePos_encodePos {pos : Bytes} (hflags : FlagsOf info last flags)
    (hpos : encodePos info flags = some pos) (hptr : ptr.drop offset = pos ++ rest)
    (prev : TokenInfo) :
    decodePos ptr flags prev offset = some (info.readPos prev, offset + pos.length) := by
  have h0 : byteAt ptr offset = _ := byteAt_drop hptr 0
  have h1 : byteAt ptr (offset + 1) = _ := byteAt_drop hptr 1
  have h2 : byteAt ptr (offset + 2) = _ := byteAt_drop hptr 2
  obtain ⟨-, hfrequent, hsame, hmono, hlid, hrid⟩ := getFlagForPos_mem hflags.pos
  have hlidLt : info.token.lid ≤ 4095 := hlid
  rw [encodePos] at hpos
  rw [decodePos, TokenInfo.readPos]
  dsimp only at hpos ⊢
  rcases htype : info.posType with _ | _ | _
  · by_cases heq : info.token.lid = info.token.rid
    · have hhigh : info.token.lid >>> 8 = info.token.lid / 256 := Nat.shiftRight_eq_div_pow _ 8
      rw [hmono.mpr ⟨htype, heq⟩, if_neg (by decide), if_pos rfl, low_byte, hhigh] at hpos
      obtain rfl := Option.some.inj hpos
      have hlow := toNat_byte (Nat.mod_lt info.token.lid (show 0 < 256 by decide))
      have hjoin : (info.token.lid / 256) <<< 8 ||| info.token.lid % 256 = info.token.lid := by
        rw [← Nat.shiftLeft_add_eq_or_of_lt (show info.token.lid % 256 < 2 ^ 8 by omega),
          Nat.shiftLeft_eq]
        omega
      rw [if_neg (mt hfrequent.mp (by rw [htype]; decide)),
        if_neg (mt hsame.mp (by rw [htype]; decide)), if_pos (hmono.mpr ⟨htype, heq⟩), h0, h1]
      simp only [List.cons_append, List.getElem?_cons_zero, List.getElem?_cons_succ,
        Option.map_some, Option.bind_eq_bind, Option.bind_some, hlow,
        toNat_byte (show info.token.lid / 256 < 256 by omega), hjoin, List.length_cons,
        List.length_nil, ← heq]
    · obtain ⟨hbyte, hlt, hleft, hright, hupper⟩ := fullPos_spec hlid hrid
      have hfull : flags &&& kPosTypeFlagMask = kFullPosFlag := by
        have := hflags.pos
        rw [getFlagForPos, if_neg (by omega), htype] at this
        simp only [heq, if_false, Option.some.injEq] at this
        exact this.symm
      have hlow := toNat_byte (Nat.mod_lt info.token.lid (show 0 < 256 by decide))
      have hridLt : info.token.rid ≤ 4095 := hrid
      have hlidSum : info.token.lid % 256 + (info.token.lid / 256) <<< 8 = info.token.lid := by
        rw [Nat.shiftLeft_eq]
        omega
      have hridSum : info.token.rid % 16 + (info.token.rid / 16) <<< 4 = info.token.rid := by
        rw [Nat.shiftLeft_eq]
        omega
      rw [if_pos hfull, hbyte, hupper, low_byte] at hpos
      obtain rfl := Option.some.inj hpos
      rw [if_neg (mt hfrequent.mp (by rw [htype]; decide)),
        if_neg (mt hsame.mp (by rw [htype]; decide)),
        if_neg (mt hmono.mp fun h => heq h.2), if_pos hfull, h0, h1, h2]
      simp only [List.cons_append, List.getElem?_cons_zero, List.getElem?_cons_succ,
        Option.map_some, Option.bind_eq_bind, Option.bind_some, hlow, toNat_byte hlt,
        toNat_byte (show info.token.rid / 16 < 256 by omega), hleft, hright, hlidSum, hridSum,
        List.length_cons, List.length_nil]
  · have hflag := hfrequent.mpr htype
    rw [hflag, if_neg (by decide), if_neg (by decide), if_pos rfl] at hpos
    obtain ⟨hid, hpos⟩ := Option.ite_none_left_eq_some.mp hpos
    obtain rfl := Option.some.inj hpos
    rw [if_pos hflag, h0]
    simp only [List.cons_append, List.getElem?_cons_zero, Option.map_some, Option.bind_eq_bind,
      Option.bind_some, toNat_byteOfInt, List.length_cons, List.length_nil]
  · have hflag := hsame.mpr htype
    rw [hflag, if_neg (by decide), if_neg (by decide), if_neg (by decide), if_pos rfl] at hpos
    obtain rfl := Option.some.inj hpos
    rw [hflag, if_neg (by decide), if_pos rfl]
    rfl

theorem joinId_eq (id : Nat) :
    ((id / 256 % 256) <<< 8 ||| id % 256) ||| (id / 65536) <<< 16 = id := by
  have hlow := Nat.shiftLeft_add_eq_or_of_lt (show id % 256 < 2 ^ 8 by omega) (id / 256 % 256)
  have hlt : (id / 256 % 256) <<< 8 + id % 256 < 2 ^ 16 := by
    rw [Nat.shiftLeft_eq]
    omega
  rw [← hlow, Nat.or_comm, ← Nat.shiftLeft_add_eq_or_of_lt hlt, Nat.shiftLeft_eq, Nat.shiftLeft_eq]
  omega

theorem decodeValueInfo_encodeValueInfo {upper : Nat} {value : Bytes}
    (hflags : FlagsOf info last flags) (hvalue : encodeValueInfo info flags = some (upper, value))
    (hfirst : byteAt ptr 0 = some (flags ||| upper)) (hptr : ptr.drop offset = value ++ rest)
    (prev : TokenInfo) :
    decodeValueInfo ptr flags prev offset = some (info.readValue prev, offset + value.length) := by
  have h0 : byteAt ptr offset = _ := byteAt_drop hptr 0
  have h1 : byteAt ptr (offset + 1) = _ := byteAt_drop hptr 1
  have h2 : byteAt ptr (offset + 2) = _ := byteAt_drop hptr 2
  have hmask := (readFlags_upper hflags hvalue).2.2
  rw [decodeValueInfo, TokenInfo.readValue]
  dsimp only
  rw [hflags.value]
  rcases encodeValueInfo_cases hvalue with ⟨hne, -, rfl⟩ | ⟨heq, id, hid, hidEq, hsplit⟩
  · rw [hflags.value] at hne
    rcases htype : info.valueType with _ | _ | _ | _
    · exact absurd ((getFlagForValue_mem info).2.mpr htype) hne
    all_goals
      rw [getFlagForValue, htype]
      rfl
  · have hmax : id ≤ 4194303 := hid
    rw [hflags.value] at heq
    have htype := (getFlagForValue_mem info).2.mp heq
    have hlow := toNat_byte (Nat.mod_lt id (show 0 < 256 by decide))
    have hmiddle := toNat_byte (Nat.mod_lt (id / 256) (show 0 < 256 by decide))
    have hjoin := joinId_eq id
    rw [heq, if_neg (by decide), if_neg (by decide), if_neg (by decide), readValueId, htype,
      if_pos rfl, hidEq, h0, h1]
    rcases hsplit with ⟨hcrammed, rfl, rfl⟩ | ⟨hcrammed, rfl, rfl⟩
    · simp only [List.cons_append, List.getElem?_cons_zero, List.getElem?_cons_succ,
        Option.map_some, Option.bind_eq_bind, Option.bind_some, if_pos hcrammed, hfirst, hlow,
        hmiddle, hmask hcrammed, hjoin]
      rfl
    · simp only [List.cons_append, List.getElem?_cons_zero, List.getElem?_cons_succ,
        Option.map_some, Option.bind_eq_bind, Option.bind_some, if_neg hcrammed, h2, hlow,
        hmiddle, toNat_byte (show id / 65536 < 256 by omega), hjoin]
      rfl

/-- What `DecodeToken` makes of a token over the information that it is given. -/
def TokenInfo.readToken (info prev : TokenInfo) : TokenInfo :=
  info.readValue (info.readCost (info.readPos (info.readAttributes prev)))

theorem readAttributes_eq (hflags : FlagsOf info last flags) (prev : TokenInfo) :
    (if flags &&& kSpellingCorrectionFlag ≠ 0
      then { prev with token.attributes := Token.spellingCorrection } else prev) =
      info.readAttributes prev := by
  rw [TokenInfo.readAttributes]
  simp only [hflags.spelling]

theorem encodeToken_parts {bytes : Bytes} (h : encodeToken tokens index = some bytes)
    (hinfo : tokens[index]? = some info) :
    ∃ flags upper pos cost value, FlagsOf info (decide (index = tokens.length - 1)) flags ∧
      encodePos info flags = some pos ∧ encodeCost info = some cost ∧
      encodeValueInfo info flags = some (upper, value) ∧
      bytes = UInt8.ofNat (flags ||| upper) :: (pos ++ cost ++ value) := by
  rw [encodeToken] at h
  obtain ⟨flags, hflags, h⟩ := Option.bind_eq_some_iff.mp h
  rw [hinfo] at h
  obtain ⟨_, heq, h⟩ := Option.bind_eq_some_iff.mp h
  obtain rfl := Option.some.inj heq
  obtain ⟨pos, hpos, h⟩ := Option.bind_eq_some_iff.mp h
  obtain ⟨cost, hcost, h⟩ := Option.bind_eq_some_iff.mp h
  obtain ⟨⟨upper, value⟩, hvalue, h⟩ := Option.bind_eq_some_iff.mp h
  obtain ⟨-, h⟩ := Option.ite_none_right_eq_some.mp h
  exact ⟨flags, upper, pos, cost, value, flagsOf_getFlagsForToken hflags hinfo, hpos, hcost,
    hvalue, (Option.some.inj h).symm⟩

theorem decodeToken_encodeToken {bytes : Bytes} (h : encodeToken tokens index = some bytes)
    (hinfo : tokens[index]? = some info) (hfits : info.CostFits) (rest : Bytes) (prev : TokenInfo) :
    decodeToken (bytes ++ rest) prev =
      some (info.readToken prev, bytes.length, !decide (index = tokens.length - 1)) := by
  obtain ⟨flags, upper, pos, cost, value, hflags, hpos, hcost, hvalue, rfl⟩ :=
    encodeToken_parts h hinfo
  obtain ⟨hlt, hread, -⟩ := readFlags_upper hflags hvalue
  set ptr : Bytes := UInt8.ofNat (flags ||| upper) :: (pos ++ cost ++ value) ++ rest with hptr
  have hfirst : byteAt ptr 0 = some (flags ||| upper) := by
    rw [byteAt, hptr, List.cons_append, List.getElem?_cons_zero, Option.map_some, toNat_byte hlt]
  have hposPtr : ptr.drop 1 = pos ++ (cost ++ (value ++ rest)) := by
    rw [hptr]
    simp only [List.cons_append, List.drop_succ_cons, List.drop_zero, List.append_assoc]
  have hcostPtr : ptr.drop (1 + pos.length) = cost ++ (value ++ rest) := by
    rw [← List.drop_drop, hposPtr, List.drop_left]
  have hvaluePtr : ptr.drop (1 + pos.length + cost.length) = value ++ rest := by
    rw [← List.drop_drop, hcostPtr, List.drop_left]
  have hends : decide (flags &&& kLastTokenFlag = 0) = !decide (index = tokens.length - 1) := by
    rw [Bool.eq_iff_iff, decide_eq_true_eq, hflags.ends, Bool.not_eq_true']
  rw [decodeToken, hfirst]
  simp only [Option.bind_eq_bind, Option.bind_some, hread]
  rw [readAttributes_eq hflags, decodePos_encodePos hflags hpos hposPtr]
  simp only [Option.bind_some]
  rw [decodeCost_encodeCost hcost hfits hcostPtr]
  simp only [Option.bind_some]
  rw [decodeValueInfo_encodeValueInfo hflags hvalue hfirst hvaluePtr]
  simp only [Option.bind_some, hends, TokenInfo.readToken]
  have hlength : 1 + pos.length + cost.length + value.length =
      (UInt8.ofNat (flags ||| upper) :: (pos ++ cost ++ value)).length := by
    rw [List.length_cons, List.length_append, List.length_append]
    omega
  rw [hlength]

/-- The tokens whose first byte is the termination flag, where they are last. -/
def TokenInfo.FillsFlags (info : TokenInfo) : Prop :=
  info.token.isSpellingCorrection = false ∧ info.posType = .frequentPos ∧
    info.valueType = .defaultValue ∧ 0x3f0000 ≤ info.idInValueTrie

theorem head_encodeToken {bytes : Bytes} (h : encodeToken tokens index = some bytes)
    (hinfo : tokens[index]? = some info) :
    bytes.head? = some (UInt8.ofNat kTokenTerminationFlag) ↔
      index = tokens.length - 1 ∧ info.FillsFlags := by
  obtain ⟨flags, upper, pos, cost, value, hflags, hpos, hcost, hvalue, rfl⟩ :=
    encodeToken_parts h hinfo
  obtain ⟨hlt, hread, -⟩ := readFlags_upper hflags hvalue
  have hbyte : (UInt8.ofNat (flags ||| upper) = UInt8.ofNat kTokenTerminationFlag) ↔
      flags ||| upper = 0xff := by
    rw [← UInt8.toNat_inj, toNat_byte hlt, toNat_byte (by decide)]
    rfl
  have hcases : ∀ last : Bool, ∀ upper < 64, (if last then 0xc0 else 0x40) ||| upper = 0xff ↔
      last = true ∧ upper = 63 := by
    decide
  rw [List.head?_cons, Option.some_inj, hbyte, TokenInfo.FillsFlags]
  by_cases hcrammed : flags &&& kCrammedIDFlag ≠ 0
  · obtain ⟨hspelling, hposType, htype⟩ := hflags.crammed.mp hcrammed
    have hnormal : flags &&& kValueTypeFlagMask = kNormalValueFlag := by
      rw [hflags.value, (getFlagForValue_mem info).2.mpr htype]
    rcases encodeValueInfo_cases hvalue with ⟨hne, -, -⟩ | ⟨-, id, hid, hidEq, hsplit⟩
    · exact absurd hnormal hne
    · have hmax : id ≤ 4194303 := hid
      rcases hsplit with ⟨-, hupper, -⟩ | ⟨hnot, -, -⟩
      · have hone := hcases (decide (index = tokens.length - 1)) upper (by omega)
        rw [← hflags.alone hcrammed, decide_eq_true_eq] at hone
        rw [hone, hidEq]
        constructor
        · rintro ⟨hlast, hsixty⟩
          exact ⟨hlast, hspelling, hposType, htype, by omega⟩
        · rintro ⟨hlast, -, -, -, hge⟩
          exact ⟨hlast, by omega⟩
      · exact absurd hcrammed hnot
  · constructor
    · intro hall
      exfalso
      rw [hall, readFlags, if_pos (by decide)] at hread
      exact hcrammed (by rw [← hread]; decide)
    · rintro ⟨-, hspelling, hposType, htype, -⟩
      exact absurd (hflags.crammed.mpr ⟨hspelling, hposType, htype⟩) hcrammed

theorem readTokenForReverseLookup_eq {prev : TokenInfo} {readBytes : Nat} {more : Bool}
    (h : decodeToken ptr prev = some (info, readBytes, more)) :
    readTokenForReverseLookup ptr =
      some (if info.valueType = .defaultValue then info.idInValueTrie else -1, readBytes, more) := by
  rw [decodeToken] at h
  obtain ⟨first, hfirst, h⟩ := Option.bind_eq_some_iff.mp h
  obtain ⟨⟨info1, offset1⟩, hpos, h⟩ := Option.bind_eq_some_iff.mp h
  obtain ⟨⟨info2, offset2⟩, hcost, h⟩ := Option.bind_eq_some_iff.mp h
  obtain ⟨⟨info3, offset3⟩, hvalue, h⟩ := Option.bind_eq_some_iff.mp h
  cases h
  have hoffset1 : offset1 = if readFlags first &&& kPosTypeFlagMask = kFrequentPosFlag then 2
      else if readFlags first &&& kPosTypeFlagMask = kMonoPosFlag then 3
      else if readFlags first &&& kPosTypeFlagMask = kFullPosFlag then 4 else 1 := by
    rw [decodePos] at hpos
    dsimp only at hpos
    split at hpos
    · obtain ⟨_, -, hpos⟩ := Option.bind_eq_some_iff.mp hpos
      cases hpos
      simp only [*, if_true]
    split at hpos
    · cases hpos
      simp only [*]
      decide
    split at hpos
    · obtain ⟨_, -, hpos⟩ := Option.bind_eq_some_iff.mp hpos
      obtain ⟨_, -, hpos⟩ := Option.bind_eq_some_iff.mp hpos
      cases hpos
      simp only [*, if_true]
      decide
    split at hpos
    · obtain ⟨_, -, hpos⟩ := Option.bind_eq_some_iff.mp hpos
      obtain ⟨_, -, hpos⟩ := Option.bind_eq_some_iff.mp hpos
      obtain ⟨_, -, hpos⟩ := Option.bind_eq_some_iff.mp hpos
      cases hpos
      simp only [*, if_true]
      decide
    · cases hpos
      simp only [*, if_false]
  obtain ⟨high, hhigh, hcost⟩ := Option.bind_eq_some_iff.mp hcost
  have hoffset2 : offset2 = if high &&& kSmallCostFlag ≠ 0 then offset1 + 1 else offset1 + 2 := by
    split at hcost
    · rename_i hsmall
      cases hcost
      rw [if_pos hsmall]
    · rename_i hsmall
      obtain ⟨_, -, hcost⟩ := Option.bind_eq_some_iff.mp hcost
      cases hcost
      rw [if_neg hsmall]
  have hid : readValueInfo ptr (readFlags first) offset2 =
      some (if info.valueType = .defaultValue then info.idInValueTrie else -1, readBytes) := by
    have hle : readFlags first &&& kValueTypeFlagMask ≤ 3 := Nat.and_le_right
    rw [decodeValueInfo] at hvalue
    dsimp only at hvalue
    rw [readValueInfo]
    split at hvalue
    · rename_i hflag
      cases hvalue
      rw [hflag, if_neg (by decide), if_neg (by simp)]
    split at hvalue
    · rename_i hflag
      cases hvalue
      rw [hflag, if_neg (by decide), if_neg (by simp)]
    split at hvalue
    · rename_i hflag
      cases hvalue
      rw [hflag, if_neg (by decide), if_neg (by simp)]
    · rename_i h1 h2 h3
      obtain ⟨⟨id, offset⟩, hread, hvalue⟩ := Option.bind_eq_some_iff.mp hvalue
      cases hvalue
      have hzero : readFlags first &&& kValueTypeFlagMask = kNormalValueFlag := by
        rw [kAsIsHiraganaValueFlag] at h1
        rw [kAsIsKatakanaValueFlag] at h2
        rw [kSameAsPrevValueFlag] at h3
        rw [kNormalValueFlag]
        omega
      rw [if_pos hzero, hread, if_pos rfl]
      rfl
  rw [readTokenForReverseLookup, hfirst]
  simp only [Option.bind_eq_bind, Option.bind_some, ← hoffset1, hhigh, ← hoffset2, hid]

end Mozkey.Dictionary
