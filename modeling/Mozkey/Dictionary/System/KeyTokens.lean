import Mozkey.Dictionary.System.TokenIteratorsCorrect

/-! How `SystemDictionaryBuilder` tells the tokens of a key to be encoded one behind the other, and
what `TokenDecodeIterator` reads of their block: the tokens themselves. -/

namespace Mozkey.Dictionary

open Storage Base TokenDecodeIterator

def getCombinedPos (lid rid : Nat) : Nat := (lid <<< 16) ||| rid

def combinedPos (token : Token) : Nat := getCombinedPos token.lid token.rid

def getValueType (hiraganaToKatakana : Bytes → Bytes) (token : Token) : ValueType :=
  if token.value = token.key then .asIsHiragana
  else if token.value = hiraganaToKatakana token.key then .asIsKatakana
  else .defaultValue

/-- What `SetPosType` makes of a token behind another one. -/
def posTypeAfter (frequentPos : List Nat) (prev : Option Token) (t : TokenInfo) : TokenInfo :=
  let pos := combinedPos t.token
  let t := if pos ∈ frequentPos
    then { t with posType := .frequentPos, idInFrequentPosMap := frequentPos.idxOf pos } else t
  if prev.any fun p => combinedPos p = pos then { t with posType := .sameAsPrevPos } else t

def setPosType (frequentPos : List Nat) (prev : Option Token) : List TokenInfo → List TokenInfo
  | [] => []
  | t :: rest => posTypeAfter frequentPos prev t :: setPosType frequentPos (some t.token) rest

/-- What `SetValueType` makes of a token behind another one. -/
def valueTypeAfter (prev : Option Token) (t : TokenInfo) : TokenInfo :=
  if t.valueType ≠ .asIsHiragana ∧ t.valueType ≠ .asIsKatakana ∧
      prev.any fun p => t.token.value = p.value then
    { t with valueType := .sameAsPrevValue }
  else t

def setValueType (prev : Option Token) : List TokenInfo → List TokenInfo
  | [] => []
  | t :: rest => valueTypeAfter prev t :: setValueType (some t.token) rest

/-- A token of a key before its types are set, with the sections that it is read back from. -/
structure Prepared (source : Source) (key : Bytes) (t : TokenInfo) : Prop where
  key_eq : t.token.key = key
  valueType_eq : t.valueType = getValueType source.hiraganaToKatakana t.token
  posType_eq : t.posType = .defaultPos
  lookup : t.valueType = .defaultValue → source.lookupValue t.idInValueTrie = t.token.value
  pos : t.token.lid < 2 ^ 16 ∧ t.token.rid < 2 ^ 16
  cost : 0 ≤ t.token.cost ∧ t.token.cost ≤ kCostMax

/-- The POS of an index of one byte is the one at this index. -/
def ListsPos (source : Source) (frequentPos : List Nat) : Prop :=
  ∀ pos ∈ frequentPos, source.frequentPos (UInt8.ofNat (frequentPos.idxOf pos)) = pos

/-- A token without the lower byte of a small cost and with no attribute but the one of a spelling
correction. -/
def TokenInfo.stored (t : TokenInfo) : Token :=
  { t.token with
    cost := if t.costType = .canUseSmallEncoding then t.token.cost / 256 * 256 else t.token.cost
    attributes := if t.token.isSpellingCorrection then Token.spellingCorrection else 0 }

section

variable {source : Source} {key : Bytes} {frequentPos : List Nat} {prev : Option Token}
  {t read : TokenInfo}

theorem posTypeAfter_frame : (posTypeAfter frequentPos prev t).token = t.token ∧
    (posTypeAfter frequentPos prev t).valueType = t.valueType ∧
    (posTypeAfter frequentPos prev t).costType = t.costType ∧
    (posTypeAfter frequentPos prev t).idInValueTrie = t.idInValueTrie := by
  dsimp only [posTypeAfter]
  split_ifs <;> exact ⟨rfl, rfl, rfl, rfl⟩

theorem valueTypeAfter_frame : (valueTypeAfter prev t).token = t.token ∧
    (valueTypeAfter prev t).posType = t.posType ∧ (valueTypeAfter prev t).costType = t.costType ∧
    (valueTypeAfter prev t).idInValueTrie = t.idInValueTrie ∧
    (valueTypeAfter prev t).idInFrequentPosMap = t.idInFrequentPosMap := by
  dsimp only [valueTypeAfter]
  split_ifs <;> exact ⟨rfl, rfl, rfl, rfl, rfl⟩

theorem getCombinedPos_shiftRight {lid rid : Nat} (h : rid < 2 ^ 16) :
    getCombinedPos lid rid >>> 16 = lid := by
  rw [getCombinedPos, Nat.shiftRight_or_distrib, Nat.shiftLeft_shiftRight,
    Nat.shiftRight_eq_zero rid 16 h, Nat.or_zero]

theorem getCombinedPos_and {lid rid : Nat} (h : rid < 2 ^ 16) :
    getCombinedPos lid rid &&& 0xffff = rid := by
  rw [getCombinedPos, ← Nat.shiftLeft_add_eq_or_of_lt h,
    show 0xffff = 2 ^ 16 - 1 from rfl, Nat.and_two_pow_sub_one_eq_mod, Nat.shiftLeft_eq,
    Nat.mul_add_mod_of_lt h]

theorem combinedPos_inj {p q : Token} (hp : p.rid < 2 ^ 16) (hq : q.rid < 2 ^ 16)
    (h : combinedPos p = combinedPos q) : p.lid = q.lid ∧ p.rid = q.rid := by
  rw [combinedPos, combinedPos] at h
  constructor
  · exact (getCombinedPos_shiftRight hp).symm.trans (h ▸ getCombinedPos_shiftRight hq)
  · exact (getCombinedPos_and hp).symm.trans (h ▸ getCombinedPos_and hq)

/-- What is read before the next token: the token of the same key that is left in the iterator. -/
def Behind (key : Bytes) (prev : Option Token) (read : TokenInfo) : Prop :=
  read.token.key = key ∧ ∀ p, prev = some p →
    p.rid < 2 ^ 16 ∧ read.token.value = p.value ∧ read.token.lid = p.lid ∧ read.token.rid = p.rid

theorem readToken_frame (u read : TokenInfo) :
    (u.readToken (clear read)).valueType = u.valueType ∧
    (u.readToken (clear read)).token.key = read.token.key ∧
    (u.readToken (clear read)).token.value = read.token.value ∧
    (u.readToken (clear read)).token.attributes =
      (if u.token.isSpellingCorrection then Token.spellingCorrection else 0) ∧
    (u.valueType = .defaultValue → (u.readToken (clear read)).idInValueTrie = u.idInValueTrie) := by
  dsimp only [TokenInfo.readToken, TokenInfo.readValue, TokenInfo.readCost, TokenInfo.readPos,
    TokenInfo.readAttributes, clear]
  refine ⟨rfl, ?_, ?_, ?_, fun h => if_pos h⟩ <;> cases u.posType <;> dsimp only <;> split_ifs <;> rfl

theorem readToken_cost (u read : TokenInfo) (hcost : 0 ≤ u.token.cost ∧ u.token.cost ≤ kCostMax) :
    (u.readToken (clear read)).token.cost =
      if u.costType = .canUseSmallEncoding then u.token.cost / 256 * 256 else u.token.cost := by
  rw [kCostMax] at hcost
  dsimp only [TokenInfo.readToken, TokenInfo.readValue, TokenInfo.readCost]
  cases u.costType with
  | canUseSmallEncoding =>
    rw [if_pos rfl]
    dsimp only
    omega
  | defaultCost =>
    rw [if_neg nofun]
    dsimp only
    omega

theorem readToken_pos (u read : TokenInfo) :
    (u.posType = .sameAsPrevPos → (u.readToken (clear read)).posType ≠ .frequentPos ∧
      (u.readToken (clear read)).token.lid = read.token.lid ∧
      (u.readToken (clear read)).token.rid = read.token.rid) ∧
    (u.posType = .defaultPos → (u.readToken (clear read)).posType ≠ .frequentPos ∧
      (u.readToken (clear read)).token.lid = u.token.lid ∧
      (u.readToken (clear read)).token.rid = u.token.rid) ∧
    (u.posType = .frequentPos → (u.readToken (clear read)).posType = .frequentPos ∧
      (u.readToken (clear read)).idInFrequentPosMap = u.idInFrequentPosMap % 256) := by
  dsimp only [TokenInfo.readToken, TokenInfo.readValue, TokenInfo.readCost, TokenInfo.readPos,
    TokenInfo.readAttributes, clear]
  refine ⟨fun h => ?_, fun h => ?_, fun h => ?_⟩ <;> rw [h]
  · split_ifs <;> simp
  · split_ifs <;> simp
  · exact ⟨rfl, rfl⟩

theorem fill_frame (id : Int) (info : TokenInfo) :
    (fill source id info).token.key = info.token.key ∧
    (fill source id info).token.cost = info.token.cost ∧
    (fill source id info).token.attributes = info.token.attributes ∧
    (info.posType ≠ .frequentPos → (fill source id info).token.lid = info.token.lid ∧
      (fill source id info).token.rid = info.token.rid) ∧
    (info.posType = .frequentPos →
      (fill source id info).token.lid =
        source.frequentPos (byteOfInt info.idInFrequentPosMap) >>> 16 ∧
      (fill source id info).token.rid =
        source.frequentPos (byteOfInt info.idInFrequentPosMap) &&& 0xffff) := by
  obtain ⟨token, idInValueTrie, idInFrequentPosMap, posType, valueType, costType⟩ := info
  dsimp only [fill]
  cases valueType <;> dsimp only <;> split_ifs with h <;> simp [h]

theorem fill_value (id : Int) (info : TokenInfo) :
    (info.valueType = .defaultValue →
      (fill source id info).token.value = source.lookupValue info.idInValueTrie) ∧
    (info.valueType = .sameAsPrevValue → (fill source id info).token.value = info.token.value) ∧
    (info.valueType = .asIsHiragana → (fill source id info).token.value = info.token.key) ∧
    (info.valueType = .asIsKatakana →
      (fill source id info).token.value = keyKatakana source info.token.key) := by
  obtain ⟨token, idInValueTrie, idInFrequentPosMap, posType, valueType, costType⟩ := info
  dsimp only [fill]
  cases valueType <;> dsimp only <;> split_ifs <;> simp

/-- The types that `SetPosType` and `SetValueType` leave in a token. -/
abbrev typed (frequentPos : List Nat) (prev : Option Token) (t : TokenInfo) : TokenInfo :=
  valueTypeAfter prev (posTypeAfter frequentPos prev t)

theorem posTypeAfter_cases (ht : t.posType = .defaultPos) :
    ((posTypeAfter frequentPos prev t).posType = .sameAsPrevPos ∧
      ∃ p, prev = some p ∧ combinedPos p = combinedPos t.token) ∨
    ((posTypeAfter frequentPos prev t).posType = .frequentPos ∧ combinedPos t.token ∈ frequentPos ∧
      (posTypeAfter frequentPos prev t).idInFrequentPosMap =
        frequentPos.idxOf (combinedPos t.token)) ∨
    (posTypeAfter frequentPos prev t).posType = .defaultPos := by
  dsimp only [posTypeAfter]
  cases prev with
  | none => split_ifs <;> simp_all
  | some p => split_ifs <;> simp_all

theorem valueTypeAfter_cases :
    (valueTypeAfter prev t).valueType = t.valueType ∨
      (valueTypeAfter prev t).valueType = .sameAsPrevValue ∧
        ∃ p, prev = some p ∧ t.token.value = p.value := by
  rw [valueTypeAfter]
  cases prev with
  | none => split_ifs <;> simp_all
  | some p => split_ifs <;> simp_all

theorem byteOfInt_mod (n : Nat) : byteOfInt ((n : Int) % 256) = UInt8.ofNat n := by
  rw [byteOfInt, Int.emod_emod_of_dvd _ (dvd_refl 256)]
  rw [show ((n : Int) % 256).toNat = n % 256 by omega]
  exact UInt8.ofNat_mod_size

theorem read_pos (hfreq : ListsPos source frequentPos) (ht : Prepared source key t)
    (hread : Behind key prev read) (id : Int) :
    (fill source id ((typed frequentPos prev t).readToken (clear read))).token.lid = t.token.lid ∧
      (fill source id ((typed frequentPos prev t).readToken (clear read))).token.rid =
        t.token.rid := by
  obtain ⟨htoken, hpos, -, -, hindex⟩ :=
    @valueTypeAfter_frame prev (posTypeAfter frequentPos prev t)
  have htoken' := htoken.trans (@posTypeAfter_frame frequentPos prev t).1
  obtain ⟨-, -, -, hother, hfrequent⟩ := @fill_frame source id
    ((typed frequentPos prev t).readToken (clear read))
  obtain ⟨hsame, hdefault, hfreqRead⟩ := readToken_pos (typed frequentPos prev t) read
  rcases @posTypeAfter_cases frequentPos prev t ht.posType_eq with ⟨htype, p, rfl, hp⟩ | ⟨htype, hmem, hidx⟩ | htype
  · obtain ⟨hne, hlid, hrid⟩ := hsame (hpos.trans htype)
    obtain ⟨hprid, -, hplid, hprid'⟩ := hread.2 p rfl
    obtain ⟨hlid', hrid'⟩ := combinedPos_inj hprid ht.pos.2 hp
    exact ⟨(hother hne).1.trans (hlid.trans (hplid.trans hlid')),
      (hother hne).2.trans (hrid.trans (hprid'.trans hrid'))⟩
  · obtain ⟨heq, hread'⟩ := hfreqRead (hpos.trans htype)
    obtain ⟨hlid, hrid⟩ := hfrequent heq
    rw [hread', hindex.trans hidx, byteOfInt_mod, hfreq _ hmem] at hlid hrid
    exact ⟨hlid.trans (getCombinedPos_shiftRight ht.pos.2), hrid.trans (getCombinedPos_and ht.pos.2)⟩
  · obtain ⟨hne, hlid, hrid⟩ := hdefault (hpos.trans htype)
    rw [htoken'] at hlid hrid
    exact ⟨(hother hne).1.trans hlid, (hother hne).2.trans hrid⟩

theorem read_value (hkey : key ≠ []) (ht : Prepared source key t) (hread : Behind key prev read)
    (id : Int) :
    (fill source id ((typed frequentPos prev t).readToken (clear read))).token.value =
      t.token.value := by
  obtain ⟨-, htype, -, hid⟩ := @posTypeAfter_frame frequentPos prev t
  have htoken := (@posTypeAfter_frame frequentPos prev t).1
  have hid' := (@valueTypeAfter_frame prev (posTypeAfter frequentPos prev t)).2.2.2.1.trans hid
  obtain ⟨hreadType, hreadKey, hreadValue, -, hreadId⟩ :=
    readToken_frame (typed frequentPos prev t) read
  obtain ⟨hdefault, hsame, hhiragana, hkatakana⟩ := @fill_value source id
    ((typed frequentPos prev t).readToken (clear read))
  rw [hreadType] at hdefault hsame hhiragana hkatakana
  rw [hreadKey, hread.1] at hhiragana hkatakana
  rcases @valueTypeAfter_cases prev (posTypeAfter frequentPos prev t) with
    hv | ⟨hv, p, rfl, hp⟩
  · rw [htype] at hv
    have hvalue := ht.valueType_eq
    rw [getValueType, ht.key_eq] at hvalue
    split_ifs at hvalue with hh hk
    · rw [hhiragana (hv.trans hvalue), hh]
    · rw [hkatakana (hv.trans hvalue), keyKatakana, if_pos hkey, hk]
    · rw [hdefault (hv.trans hvalue), hreadId (hv.trans hvalue), hid', ht.lookup hvalue]
  · rw [hsame hv, hreadValue, (hread.2 p rfl).2.1, ← hp, htoken]

theorem fill_readToken (hfreq : ListsPos source frequentPos) (hkey : key ≠ [])
    (ht : Prepared source key t) (hread : Behind key prev read) (id : Int) :
    (fill source id ((typed frequentPos prev t).readToken (clear read))).token = t.stored := by
  have hpos := read_pos hfreq ht hread id
  have hvalue := @read_value source key frequentPos prev t read hkey ht hread id
  obtain ⟨hkeyFrame, hcostFrame, hattributes, -⟩ := @fill_frame source id
    ((typed frequentPos prev t).readToken (clear read))
  obtain ⟨-, hreadKey, -, hreadAttributes, -⟩ := readToken_frame (typed frequentPos prev t) read
  have htoken : (typed frequentPos prev t).token = t.token :=
    (@valueTypeAfter_frame prev _).1.trans (@posTypeAfter_frame frequentPos prev t).1
  have hcostType : (typed frequentPos prev t).costType = t.costType :=
    (@valueTypeAfter_frame prev _).2.2.1.trans (@posTypeAfter_frame frequentPos prev t).2.2.1
  have hcost := readToken_cost (typed frequentPos prev t) read (htoken.symm ▸ ht.cost)
  rw [htoken] at hreadAttributes
  rw [htoken, hcostType] at hcost
  rw [hreadKey, hread.1, ← ht.key_eq] at hkeyFrame
  rw [hcost] at hcostFrame
  rw [hreadAttributes] at hattributes
  rw [TokenInfo.stored, ← hkeyFrame, ← hcostFrame, ← hattributes, ← hpos.1, ← hpos.2, ← hvalue]

theorem decodedFrom_typed (hfreq : ListsPos source frequentPos) (hkey : key ≠ [])
    {infos : List TokenInfo} (hinfos : ∀ t ∈ infos, Prepared source key t)
    (hread : Behind key prev read) :
    (decodedFrom source read (setValueType prev (setPosType frequentPos prev infos))).map
        TokenInfo.token = infos.map TokenInfo.stored := by
  induction infos generalizing prev read with
  | nil => rfl
  | cons t rest ih =>
    obtain ⟨ht, hrest⟩ := List.forall_mem_cons.mp hinfos
    have htoken := fill_readToken hfreq hkey ht hread read.idInValueTrie
    have hnext : Behind key (some t.token)
        (fill source read.idInValueTrie ((typed frequentPos prev t).readToken (clear read))) := by
      rw [Behind, htoken]
      refine ⟨ht.key_eq, ?_⟩
      rintro p ⟨⟩
      exact ⟨ht.pos.2, rfl, rfl, rfl⟩
    have hpos := (@posTypeAfter_frame frequentPos prev t).1
    rw [setPosType, setValueType, decodedFrom, List.map_cons, List.map_cons, htoken, hpos, ih hrest hnext]

theorem cost_of_mem_typed {infos : List TokenInfo}
    (hinfos : ∀ t ∈ infos, 0 ≤ t.token.cost ∧ t.token.cost ≤ kCostMax)
    (ht : t ∈ setValueType prev (setPosType frequentPos prev infos)) :
    0 ≤ t.token.cost ∧ t.token.cost ≤ kCostMax := by
  induction infos generalizing prev with
  | nil => cases ht
  | cons info rest ih =>
    obtain ⟨hinfo, hrest⟩ := List.forall_mem_cons.mp hinfos
    have hpos := (@posTypeAfter_frame frequentPos prev info).1
    rw [setPosType, setValueType, hpos] at ht
    rcases List.mem_cons.mp ht with rfl | ht
    · rw [(@valueTypeAfter_frame prev _).1, hpos]
      exact hinfo
    · exact ih hrest ht

/-- The block of a key gives back all of its tokens in their order, with what the types leave out of
it filled in from the token before and from the sections. -/
theorem decodeBlock_typed (hfreq : ListsPos source frequentPos) (hkey : key ≠ [])
    {infos : List TokenInfo} (hinfos : ∀ t ∈ infos, Prepared source key t) (hne : infos ≠ [])
    {block : Bytes}
    (hblock : encodeTokens (setValueType none (setPosType frequentPos none infos)) = some block)
    (rest : Bytes) :
    ∃ fuel read, decodeBlock source key (block ++ rest) fuel = some read ∧
      read.map TokenInfo.token = infos.map TokenInfo.stored := by
  have hfits : ∀ t ∈ setValueType none (setPosType frequentPos none infos), t.CostFits := by
    intro t ht _
    obtain ⟨hmin, hmax⟩ := cost_of_mem_typed (fun t ht => (hinfos t ht).cost) ht
    rw [kCostMax] at hmax
    omega
  have hne' : setValueType none (setPosType frequentPos none infos) ≠ [] := by
    obtain ⟨t, infos, rfl⟩ := List.exists_cons_of_ne_nil hne
    exact List.cons_ne_nil _ _
  obtain ⟨fuel, hdecode⟩ := decode_encodeTokens source hblock hne' hfits key rest
  refine ⟨fuel, _, hdecode, ?_⟩
  exact decodedFrom_typed hfreq hkey hinfos ⟨rfl, nofun⟩

/-- The second token has the POS of the first one and its own value. -/
theorem decodeBlock_typed_two :
    let source : Source := ⟨fun _ => [0x62], fun _ => 0, fun _ => [0x63]⟩
    let infos : List TokenInfo :=
      [{ token := ⟨[0x61], [0x61], 3, 1, 2, 1⟩, valueType := .asIsHiragana },
        { token := ⟨[0x61], [0x62], 0x123, 1, 2, 0⟩, idInValueTrie := 0,
          costType := .canUseSmallEncoding }]
    ∃ block fuel read, decodeBlock source [0x61] (block ++ []) fuel = some read ∧
      read.map TokenInfo.token = infos.map TokenInfo.stored := by
  intro source infos
  have hsome : (encodeTokens (setValueType none (setPosType [] none infos))).isSome := by decide
  obtain ⟨block, hblock⟩ := Option.isSome_iff_exists.mp hsome
  have hinfos : ∀ t ∈ infos, Prepared source [0x61] t := by
    intro t ht
    rcases List.mem_pair.mp ht with rfl | rfl <;>
      exact ⟨rfl, by decide, rfl, by decide, by decide, by decide⟩
  have hfreq : ListsPos source [] := fun _ h => nomatch h
  exact ⟨block, decodeBlock_typed hfreq (by decide) hinfos (by decide) hblock []⟩

end

end Mozkey.Dictionary
