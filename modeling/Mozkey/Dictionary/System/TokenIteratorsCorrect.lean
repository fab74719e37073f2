import Mozkey.Dictionary.System.TokenIterators

/-! `TokenScanIterator` visits the tokens that `TokenDecodeIterator` yields for each key, except
where the flags of a last token are those of the end. -/

namespace Mozkey.Dictionary

open Storage Base

theorem mapM_eq_some_map {α β : Type*} {f : α → Option β} (d : β) {xs : List α} {ys : List β}
    (h : xs.mapM f = some ys) : ys = xs.map (fun x => (f x).getD d) ∧ ∀ x ∈ xs, (f x).isSome := by
  induction xs generalizing ys with
  | nil =>
    cases h
    exact ⟨rfl, fun x hx => nomatch hx⟩
  | cons x xs ih =>
    rw [List.mapM_cons] at h
    obtain ⟨y, hy, h⟩ := Option.bind_eq_some_iff.mp h
    obtain ⟨zs, hzs, h⟩ := Option.bind_eq_some_iff.mp h
    cases h
    obtain ⟨rfl, hall⟩ := ih hzs
    refine ⟨by rw [List.map_cons, hy, Option.getD_some], fun z hz => ?_⟩
    rcases List.mem_cons.mp hz with rfl | hz
    · rw [hy]
      rfl
    · exact hall z hz

def piece (tokens : List TokenInfo) (index : Nat) : Bytes := (encodeToken tokens index).getD []

def blockFrom (tokens : List TokenInfo) (index : Nat) : Bytes :=
  (List.range' index (tokens.length - index)).flatMap (piece tokens)

section

variable {tokens : List TokenInfo} {block : Bytes} {index : Nat} {info : TokenInfo}

theorem blockFrom_of_lt (h : index < tokens.length) :
    blockFrom tokens index = piece tokens index ++ blockFrom tokens (index + 1) := by
  rw [blockFrom, blockFrom, show tokens.length - index = tokens.length - (index + 1) + 1 by omega,
    List.range'_succ, List.flatMap_cons]

theorem blockFrom_of_le (h : tokens.length ≤ index) : blockFrom tokens index = [] := by
  rw [blockFrom, Nat.sub_eq_zero_of_le h]
  rfl

theorem encodeTokens_spec (h : encodeTokens tokens = some block) :
    block = blockFrom tokens 0 ∧ block.head? ≠ some (UInt8.ofNat kTokenTerminationFlag) ∧
      ∀ index < tokens.length, encodeToken tokens index = some (piece tokens index) := by
  rw [encodeTokens] at h
  obtain ⟨pieces, hpieces, h⟩ := Option.bind_eq_some_iff.mp h
  obtain ⟨hhead, h⟩ := Option.ite_none_left_eq_some.mp h
  obtain rfl := Option.some.inj h
  obtain ⟨rfl, hall⟩ := mapM_eq_some_map [] hpieces
  refine ⟨?_, hhead, fun index hlt => ?_⟩
  · rw [blockFrom, ← List.flatMap_def, List.range_eq_range']
    rfl
  · obtain ⟨bytes, hbytes⟩ := Option.isSome_iff_exists.mp (hall index (List.mem_range.mpr hlt))
    rw [piece, hbytes]
    rfl

theorem piece_ne_nil (h : encodeToken tokens index = some (piece tokens index))
    (hinfo : tokens[index]? = some info) : piece tokens index ≠ [] := by
  obtain ⟨flags, upper, pos, cost, value, -, -, -, -, hpiece⟩ := encodeToken_parts h hinfo
  rw [hpiece]
  exact List.cons_ne_nil _ _

/-- No token of a block begins with the termination flag. -/
def FlagFree (tokens : List TokenInfo) : Prop :=
  ∀ index < tokens.length, (piece tokens index).head? ≠ some (UInt8.ofNat kTokenTerminationFlag)

theorem flagFree_iff (h : encodeTokens tokens = some block) :
    FlagFree tokens ↔ ∀ info, tokens.getLast? = some info → ¬ info.FillsFlags := by
  obtain ⟨-, -, hpieces⟩ := encodeTokens_spec h
  constructor
  · intro hfree info hlast hfills
    rw [List.getLast?_eq_getElem?] at hlast
    have hlt := (List.getElem?_eq_some_iff.mp hlast).1
    exact hfree _ hlt ((head_encodeToken (hpieces _ hlt) hlast).mpr ⟨rfl, hfills⟩)
  · intro hlast index hlt hhead
    obtain ⟨hindex, hfills⟩ :=
      (head_encodeToken (hpieces index hlt) (List.getElem?_eq_getElem hlt)).mp hhead
    refine hlast _ ?_ hfills
    rw [List.getLast?_eq_getElem?, ← hindex, List.getElem?_eq_getElem hlt]

/-- The id that a token stores, which is what a scan tells of it. -/
def TokenInfo.storedId (info : TokenInfo) : Int :=
  if info.valueType = .defaultValue then info.idInValueTrie else -1

end

section

open TokenDecodeIterator

variable (source : Source) {tokens : List TokenInfo} {block : Bytes}

/-- The tokens that `TokenDecodeIterator` makes of the tokens of a key, one over the other. -/
def decodedFrom (prev : TokenInfo) : List TokenInfo → List TokenInfo
  | [] => []
  | info :: rest =>
    let read := fill source prev.idInValueTrie (info.readToken (clear prev))
    read :: decodedFrom read rest

def decoded (key : Bytes) (tokens : List TokenInfo) : List TokenInfo :=
  decodedFrom source { token := { key } } tokens

theorem tokens_nextInternal
    (hpieces : ∀ index < tokens.length, encodeToken tokens index = some (piece tokens index))
    (hfits : ∀ info ∈ tokens, info.CostFits) (rest : Bytes) {index : Nat}
    (hlt : index < tokens.length) (it : TokenDecodeIterator) (hstate : it.state = .hasNext)
    (hptr : it.ptr = blockFrom tokens index ++ rest) :
    ∃ fuel next, nextInternal source it = some next ∧
      TokenDecodeIterator.tokens source fuel next =
        some (decodedFrom source it.tokenInfo (tokens.drop index)) := by
  induction hm : tokens.length - index generalizing index it with
  | zero => omega
  | succ m ih =>
    have hdecode := decodeToken_encodeToken (hpieces index hlt) (List.getElem?_eq_getElem hlt)
      (hfits _ (List.getElem_mem hlt)) (blockFrom tokens (index + 1) ++ rest) (clear it.tokenInfo)
    rw [← List.append_assoc, ← blockFrom_of_lt hlt, ← hptr] at hdecode
    rw [nextInternal, hdecode, List.drop_eq_getElem_cons hlt, decodedFrom]
    simp only [Option.bind_eq_bind, Option.bind_some]
    by_cases hlast : index = tokens.length - 1
    · have hend : tokens.drop (index + 1) = [] := List.drop_eq_nil_of_le (by omega)
      refine ⟨2, _, rfl, ?_⟩
      rw [decide_eq_true hlast, hend]
      rfl
    · have hptrNext : it.ptr.drop (piece tokens index).length =
          blockFrom tokens (index + 1) ++ rest := by
        rw [hptr, blockFrom_of_lt hlt, List.append_assoc, List.drop_left]
      obtain ⟨fuel, next, hnext, hrun⟩ := ih (by omega)
        { state := .hasNext, ptr := it.ptr.drop (piece tokens index).length
          tokenInfo := fill source it.tokenInfo.idInValueTrie
            (tokens[index].readToken (clear it.tokenInfo)) } rfl hptrNext (by omega)
      refine ⟨fuel + 1, _, rfl, ?_⟩
      rw [decide_eq_false hlast, hstate]
      rw [TokenDecodeIterator.tokens]
      simp only [Bool.not_false, if_true]
      rw [TokenDecodeIterator.next, if_neg (by simp), hnext]
      simp only [Option.bind_eq_bind, Option.bind_some, hrun]
      rfl

theorem decode_encodeTokens (h : encodeTokens tokens = some block) (hne : tokens ≠ [])
    (hfits : ∀ info ∈ tokens, info.CostFits) (key rest : Bytes) :
    ∃ fuel, decodeBlock source key (block ++ rest) fuel = some (decoded source key tokens) := by
  obtain ⟨rfl, -, hpieces⟩ := encodeTokens_spec h
  obtain ⟨fuel, next, hnext, hrun⟩ := tokens_nextInternal source hpieces hfits rest
    (List.length_pos_iff.mpr hne)
    { ptr := blockFrom tokens 0 ++ rest, tokenInfo := { token := { key } } } rfl rfl
  refine ⟨fuel, ?_⟩
  rw [decodeBlock, start, hnext]
  exact hrun

theorem storedId_fill (prev : Int) (info cleared : TokenInfo) :
    (fill source prev (info.readToken cleared)).storedId = info.storedId := by
  have htype : ∀ read : TokenInfo, read.valueType = info.valueType →
      (info.valueType = .defaultValue → read.idInValueTrie = info.idInValueTrie) →
      (fill source prev read).storedId = info.storedId := by
    intro read htype hid
    rw [fill, TokenInfo.storedId, TokenInfo.storedId]
    rcases hvalue : info.valueType with _ | _ | _ | _ <;> rw [hvalue] at htype hid <;>
      simp only [htype] <;> split <;> simp [hid]
  refine htype _ rfl fun hdefault => ?_
  rw [TokenInfo.readToken, TokenInfo.readValue]
  exact if_pos hdefault

theorem storedId_decoded (key : Bytes) (tokens : List TokenInfo) :
    (decoded source key tokens).map TokenInfo.storedId = tokens.map TokenInfo.storedId := by
  rw [decoded]
  generalize ({ token := { key } } : TokenInfo) = prev
  induction tokens generalizing prev with
  | nil => rfl
  | cons info rest ih => rw [decodedFrom, List.map_cons, List.map_cons, storedId_fill, ih]

end

section

open BitVectorBasedArrayBuilder

theorem numSteps_eq (length : Nat) : numSteps length = length - 4 := by
  induction length with
  | zero => rfl
  | succ length ih =>
    rw [numSteps, ih, baseLength]
    split <;> omega

theorem length_output (element : Bytes) : (output element).length = max 4 element.length := by
  rw [output, List.length_append, List.length_replicate, outputLength, numSteps_eq, baseLength,
    stepLength]
  omega

theorem data_cons (element : Bytes) (elements : List Bytes) :
    data (element :: elements) = element ++ (List.replicate (outputLength element - element.length) 0 ++
      data elements) := by
  rw [data, List.flatMap_cons, output, List.append_assoc]
  rfl

theorem length_data_cons (element : Bytes) (elements : List Bytes) :
    (data (element :: elements)).length = max 4 element.length + (data elements).length := by
  rw [data, List.flatMap_cons, List.length_append, length_output]
  rfl

theorem data_append (xs ys : List Bytes) : data (xs ++ ys) = data xs ++ data ys :=
  List.flatMap_append

end

namespace TokenScanIterator

variable {bytes : Bytes} {tokens : List TokenInfo} {fuel : Nat} {rs : List Result}

def resultsFrom (bytes : Bytes) (fuel : Nat) (it : TokenScanIterator) : Option (List Result) :=
  (it.nextInternal bytes).bind (results bytes fuel)

theorem resultsFrom_succ {it next : TokenScanIterator} (hnext : it.nextInternal bytes = some next)
    (hstate : next.state = .hasNext) (fuel : Nat) :
    resultsFrom bytes (fuel + 1) it = (resultsFrom bytes fuel next).map (next.result :: ·) := by
  rw [resultsFrom, hnext, Option.bind_some, results, hstate, resultsFrom]
  rcases next.nextInternal bytes with _ | following
  · rfl
  · simp only [Option.bind_eq_bind, Option.bind_some]
    rcases results bytes fuel following with _ | rs <;> rfl

/-- The place of an iterator before a token of the block of a key. -/
structure IsAt (bytes : Bytes) (tokens : List TokenInfo) (base key index : Nat) (rest : Bytes)
    (it : TokenScanIterator) : Prop where
  state : it.state = .hasNext
  keyId : it.index = key
  tokensOffset : it.tokensOffset = base
  offset : it.offset + (blockFrom tokens index).length = base + (blockFrom tokens 0).length
  ptr : bytes.drop it.offset = blockFrom tokens index ++ rest

theorem nextInternal_token {base key index : Nat} {rest : Bytes} {it : TokenScanIterator}
    (hpieces : ∀ index < tokens.length, encodeToken tokens index = some (piece tokens index))
    (hfits : ∀ info ∈ tokens, info.CostFits) (hat : IsAt bytes tokens base key index rest it)
    (hlt : index < tokens.length)
    (hhead : (piece tokens index).head? ≠ some (UInt8.ofNat kTokenTerminationFlag)) :
    it.nextInternal bytes = (do
      let next ← toInt (it.offset + (piece tokens index).length)
      let result : Result := { valueId := tokens[index].storedId, index := key, tokensOffset := base }
      if index + 1 < tokens.length then some { it with result, offset := next }
      else
        let tokensOffset ← toInt (base + max 4 (blockFrom tokens 0).length)
        some { it with result, tokensOffset, offset := tokensOffset, index := key + 1 }) := by
  have hinfo := List.getElem?_eq_getElem hlt
  have hptr := hat.ptr
  rw [blockFrom_of_lt hlt, List.append_assoc] at hptr
  have hread := readTokenForReverseLookup_eq (decodeToken_encodeToken (hpieces index hlt) hinfo
    (hfits _ (List.getElem_mem hlt)) (blockFrom tokens (index + 1) ++ rest)
    { token := {} })
  rw [← hptr] at hread
  have hbyte : byteAt bytes it.offset = _ := byteAt_drop hptr 0
  obtain ⟨b, bs, hpiece⟩ := List.exists_cons_of_ne_nil (piece_ne_nil (hpieces index hlt) hinfo)
  have hfirst : b.toNat ≠ kTokenTerminationFlag := by
    intro hflag
    refine hhead ?_
    rw [hpiece, List.head?_cons, ← hflag, UInt8.ofNat_toNat]
  have hstored : ∀ read : TokenInfo, read = tokens[index].readToken { token := {} } →
      (if read.valueType = .defaultValue then read.idInValueTrie else -1) =
        tokens[index].storedId := by
    rintro read rfl
    rw [TokenInfo.storedId, TokenInfo.readToken, TokenInfo.readValue]
    dsimp only
    split <;> rfl
  rw [nextInternal, hbyte, hpiece]
  simp only [List.cons_append, List.getElem?_cons_zero, Option.map_some, Option.bind_eq_bind,
    Option.bind_some]
  rw [if_neg hfirst, hread, hstored _ rfl, ← hpiece]
  simp only [Option.bind_some, hat.keyId, hat.tokensOffset]
  by_cases hlast : index = tokens.length - 1
  · have hend : blockFrom tokens (index + 1) = [] := blockFrom_of_le (by omega)
    have hoffset := hat.offset
    rw [blockFrom_of_lt hlt, hend, List.append_nil] at hoffset
    have hnot : ¬ index + 1 < tokens.length := by omega
    simp only [decide_eq_true hlast, hnot, if_false, Bool.not_true, Bool.false_eq_true, hoffset]
    rcases hsum : toInt (base + (blockFrom tokens 0).length) with _ | next
    · rfl
    · have hnext : next = base + (blockFrom tokens 0).length := by
        rw [toInt] at hsum
        split at hsum
        · exact (Option.some.inj hsum).symm
        · cases hsum
      have hsize : (if base + (blockFrom tokens 0).length - base < kMinTokenArrayBlobSize
          then kMinTokenArrayBlobSize else base + (blockFrom tokens 0).length - base) =
          max 4 (blockFrom tokens 0).length := by
        rw [kMinTokenArrayBlobSize]
        split <;> omega
      subst hnext
      simp only [Option.bind_some, hsize]
  · have hmore : index + 1 < tokens.length := by omega
    simp only [decide_eq_false hlast, hmore, if_true, Bool.not_false]

theorem toInt_of_le {n : Nat} (h : n ≤ 0x7fffffff) : toInt n = some n := if_pos h

def resultsOf (key base : Nat) (tokens : List TokenInfo) : List Result :=
  tokens.map fun info => { valueId := info.storedId, index := key, tokensOffset := base }

section

variable {base key index : Nat} {rest : Bytes}

theorem resultsFrom_block {it : TokenScanIterator}
    (hpieces : ∀ index < tokens.length, encodeToken tokens index = some (piece tokens index))
    (hfits : ∀ info ∈ tokens, info.CostFits) (hfree : FlagFree tokens)
    (hat : IsAt bytes tokens base key index rest it) (hlt : index < tokens.length)
    (hsize : base + max 4 (blockFrom tokens 0).length ≤ 0x7fffffff) :
    ∃ next : TokenScanIterator, next.state = .hasNext ∧ next.index = key + 1 ∧
      next.tokensOffset = base + max 4 (blockFrom tokens 0).length ∧
      next.offset = base + max 4 (blockFrom tokens 0).length ∧
      ∀ fuel, resultsFrom bytes (fuel + (tokens.length - index)) it =
        (resultsFrom bytes fuel next).map (resultsOf key base (tokens.drop index) ++ ·) := by
  induction hm : tokens.length - index generalizing index it with
  | zero => omega
  | succ m ih =>
    have hstep := nextInternal_token hpieces hfits hat hlt (hfree index hlt)
    have hoffset := hat.offset
    rw [blockFrom_of_lt hlt, List.length_append] at hoffset
    rw [toInt_of_le (by omega)] at hstep
    simp only [Option.bind_eq_bind, Option.bind_some] at hstep
    rw [List.drop_eq_getElem_cons hlt]
    by_cases hmore : index + 1 < tokens.length
    · rw [if_pos hmore] at hstep
      have hptr := hat.ptr
      rw [blockFrom_of_lt hlt, List.append_assoc] at hptr
      obtain ⟨next, hstate, hindex, htokens, hnextOffset, hrun⟩ := @ih (index + 1)
        { it with
          result := { valueId := tokens[index].storedId, index := key, tokensOffset := base }
          offset := it.offset + (piece tokens index).length }
        ⟨hat.state, hat.keyId, hat.tokensOffset, by dsimp only; omega,
          by dsimp only; rw [← List.drop_drop, hptr, List.drop_left]⟩ hmore (by omega)
      refine ⟨next, hstate, hindex, htokens, hnextOffset, fun fuel => ?_⟩
      rw [← Nat.add_assoc, resultsFrom_succ hstep hat.state, hrun, Option.map_map]
      rfl
    · rw [if_neg hmore, toInt_of_le hsize] at hstep
      simp only [Option.bind_some] at hstep
      refine ⟨{ it with
        result := { valueId := tokens[index].storedId, index := key, tokensOffset := base }
        tokensOffset := base + max 4 (blockFrom tokens 0).length
        offset := base + max 4 (blockFrom tokens 0).length
        index := key + 1 }, hat.state, rfl, rfl, rfl, fun fuel => ?_⟩
      rw [show m = 0 by omega, resultsFrom_succ hstep hat.state,
        List.drop_eq_nil_of_le (by omega)]
      rfl

theorem eq_of_toInt {n m : Nat} (h : toInt n = some m) : m = n ∧ n ≤ 0x7fffffff := by
  obtain ⟨hle, hm⟩ := Option.ite_none_right_eq_some.mp h
  exact ⟨(Option.some.inj hm).symm, hle⟩

theorem exists_fuel_of_resultsFrom {it next : TokenScanIterator}
    (hnext : it.nextInternal bytes = some next) (hstate : next.state = .hasNext)
    (h : resultsFrom bytes fuel it = some rs) :
    ∃ fuel' rest, resultsFrom bytes fuel' next = some rest ∧ rs = next.result :: rest := by
  cases fuel with
  | zero =>
    rw [resultsFrom, hnext] at h
    cases h
  | succ fuel =>
    rw [resultsFrom_succ hnext hstate] at h
    obtain ⟨rest, hrest, rfl⟩ := Option.map_eq_some_iff.mp h
    exact ⟨fuel, rest, hrest, rfl⟩

theorem of_resultsFrom_block {it : TokenScanIterator}
    (hpieces : ∀ index < tokens.length, encodeToken tokens index = some (piece tokens index))
    (hfits : ∀ info ∈ tokens, info.CostFits)
    (hat : IsAt bytes tokens base key index rest it) (hlt : index < tokens.length)
    (h : resultsFrom bytes fuel it = some rs) :
    ((∀ i, index ≤ i → i < tokens.length →
        (piece tokens i).head? ≠ some (UInt8.ofNat kTokenTerminationFlag)) ∧
      base + max 4 (blockFrom tokens 0).length ≤ 0x7fffffff ∧
      ∃ (next : TokenScanIterator) (fuel' : Nat) (rs' : List Result), next.state = .hasNext ∧
        next.index = key + 1 ∧ next.tokensOffset = base + max 4 (blockFrom tokens 0).length ∧
        next.offset = base + max 4 (blockFrom tokens 0).length ∧
        resultsFrom bytes fuel' next = some rs' ∧ rs.length = tokens.length - index + rs'.length) ∨
      rs.length < tokens.length - index := by
  induction hm : tokens.length - index generalizing index it fuel rs with
  | zero => omega
  | succ m ih =>
    by_cases hhead : (piece tokens index).head? = some (UInt8.ofNat kTokenTerminationFlag)
    · have hptr := hat.ptr
      rw [blockFrom_of_lt hlt, List.append_assoc] at hptr
      have hbyte : byteAt bytes it.offset = _ := byteAt_drop hptr 0
      have hdone : it.nextInternal bytes = some { it with state := .done } := by
        obtain ⟨b, bs, hpiece⟩ := List.exists_cons_of_ne_nil
          (piece_ne_nil (hpieces index hlt) (List.getElem?_eq_getElem hlt))
        rw [hpiece, List.head?_cons, Option.some_inj] at hhead
        rw [nextInternal, hbyte, hpiece, hhead]
        rfl
      rw [resultsFrom, hdone, Option.bind_some] at h
      cases fuel with
      | zero => cases h
      | succ fuel =>
        cases h
        exact Or.inr (Nat.succ_pos m)
    · have hstep := nextInternal_token hpieces hfits hat hlt hhead
      have hoffset := hat.offset
      rw [blockFrom_of_lt hlt, List.length_append] at hoffset
      obtain ⟨next, hnext, -⟩ := Option.bind_eq_some_iff.mp h
      have hnextStep := hnext
      rw [hstep] at hnextStep
      obtain ⟨sum, hsum, hnextStep⟩ := Option.bind_eq_some_iff.mp hnextStep
      obtain ⟨rfl, -⟩ := eq_of_toInt hsum
      by_cases hmore : index + 1 < tokens.length
      · simp only [hmore, if_true, Option.some.injEq] at hnextStep
        have hnextState : next.state = .hasNext := by
          rw [← hnextStep]
          exact hat.state
        have hptr := hat.ptr
        rw [blockFrom_of_lt hlt, List.append_assoc] at hptr
        have hatNext : IsAt bytes tokens base key (index + 1) rest next := by
          rw [← hnextStep]
          exact ⟨hat.state, hat.keyId, hat.tokensOffset, by dsimp only; omega,
            by dsimp only; rw [← List.drop_drop, hptr, List.drop_left]⟩
        obtain ⟨fuel', rest', hrest, rfl⟩ := exists_fuel_of_resultsFrom hnext hnextState h
        rcases ih hatNext hmore hrest (by omega) with
          ⟨hfree, hsize, following, fuel'', rs', hstate, hindex, htokens, hat', hrun, hlength⟩ |
          hshort
        · refine Or.inl ⟨fun i hi hilt => ?_, hsize, following, fuel'', rs', hstate, hindex, htokens,
            hat', hrun, ?_⟩
          · rcases Nat.eq_or_lt_of_le hi with rfl | hi
            · exact hhead
            · exact hfree i hi hilt
          · rw [List.length_cons, hlength]
            omega
        · rw [List.length_cons]
          exact Or.inr (by omega)
      · simp only [hmore, if_false] at hnextStep
        obtain ⟨size, hsize, hnextStep⟩ := Option.bind_eq_some_iff.mp hnextStep
        obtain ⟨rfl, hle⟩ := eq_of_toInt hsize
        rw [Option.some.injEq] at hnextStep
        have hnextState : next.state = .hasNext := by
          rw [← hnextStep]
          exact hat.state
        obtain ⟨fuel', rest', hrest, rfl⟩ := exists_fuel_of_resultsFrom hnext hnextState h
        refine Or.inl ⟨fun i hi hilt => ?_, hle, next, fuel', rest', hnextState, ?_, ?_, ?_, hrest, ?_⟩
        · rwa [show i = index by omega]
        · rw [← hnextStep]
        · rw [← hnextStep]
        · rw [← hnextStep]
        · rw [List.length_cons]
          omega

end

def blockOf (info : KeyInfo) : Bytes := blockFrom info.tokens 0

def arrayResults (key base : Nat) : List KeyInfo → List Result
  | [] => []
  | info :: table => resultsOf key base info.tokens ++
      arrayResults (key + 1) (base + max 4 (blockOf info).length) table

/-- The keys of a table have tokens, which `EncodeTokens` encodes. -/
structure Encodes (info : KeyInfo) : Prop where
  ne_nil : info.tokens ≠ []
  pieces : ∀ index < info.tokens.length,
    encodeToken info.tokens index = some (piece info.tokens index)
  fits : ∀ token ∈ info.tokens, token.CostFits

/-- The place of an iterator before the blocks of a table. -/
structure IsBefore (bytes : Bytes) (table : List KeyInfo) (key base : Nat) (it : TokenScanIterator) :
    Prop where
  state : it.state = .hasNext
  keyId : it.index = key
  tokensOffset : it.tokensOffset = base
  offset : it.offset = base
  ptr : bytes.drop base = BitVectorBasedArrayBuilder.data (table.map blockOf ++
    [[UInt8.ofNat kTokenTerminationFlag]])

section

variable {info : KeyInfo} {table : List KeyInfo} {key base : Nat} {it : TokenScanIterator}

open BitVectorBasedArrayBuilder

theorem IsBefore.isAt (h : IsBefore bytes (info :: table) key base it) :
    IsAt bytes info.tokens base key 0
      (List.replicate (outputLength (blockOf info) - (blockOf info).length) 0 ++
        data (table.map blockOf ++ [[UInt8.ofNat kTokenTerminationFlag]])) it where
  state := h.state
  keyId := h.keyId
  tokensOffset := h.tokensOffset
  offset := by rw [h.offset]
  ptr := by
    rw [h.offset, h.ptr, List.map_cons, List.cons_append, data_cons]
    rfl

theorem IsBefore.tail (h : IsBefore bytes (info :: table) key base it) {next : TokenScanIterator}
    (hstate : next.state = .hasNext) (hindex : next.index = key + 1)
    (htokens : next.tokensOffset = base + max 4 (blockFrom info.tokens 0).length)
    (hoffset : next.offset = base + max 4 (blockFrom info.tokens 0).length) :
    IsBefore bytes table (key + 1) (base + max 4 (blockOf info).length) next := by
  refine ⟨hstate, hindex, htokens, hoffset, ?_⟩
  rw [← List.drop_drop, h.ptr, List.map_cons, List.cons_append, data, List.flatMap_cons,
    ← length_output, List.drop_left]
  rfl

theorem IsBefore.nextInternal_nil (h : IsBefore bytes [] key base it) :
    it.nextInternal bytes = some { it with state := .done } := by
  have hptr : bytes.drop it.offset = _ := h.offset ▸ h.ptr
  have hbyte : byteAt bytes it.offset = _ := byteAt_drop hptr 0
  rw [nextInternal, hbyte]
  rfl

theorem resultsFrom_array (hencodes : ∀ info ∈ table, Encodes info)
    (hfree : ∀ info ∈ table, FlagFree info.tokens) (h : IsBefore bytes table key base it)
    (hsize : base + (data (table.map blockOf)).length ≤ 0x7fffffff) :
    ∃ fuel, resultsFrom bytes fuel it = some (arrayResults key base table) := by
  induction table generalizing key base it with
  | nil =>
    refine ⟨1, ?_⟩
    rw [resultsFrom, h.nextInternal_nil]
    rfl
  | cons info table ih =>
    have hinfo := hencodes info (List.mem_cons_self ..)
    rw [List.map_cons, length_data_cons] at hsize
    obtain ⟨next, hstate, hindex, htokens, hoffset, hrun⟩ := resultsFrom_block hinfo.pieces
      hinfo.fits (hfree info (List.mem_cons_self ..)) h.isAt
      (List.length_pos_iff.mpr hinfo.ne_nil) (by rw [blockOf] at hsize; omega)
    obtain ⟨fuel, hrest⟩ := ih (fun i hi => hencodes i (List.mem_cons_of_mem _ hi))
      (fun i hi => hfree i (List.mem_cons_of_mem _ hi)) (h.tail hstate hindex htokens hoffset)
      (by omega)
    refine ⟨fuel + (info.tokens.length - 0), ?_⟩
    rw [hrun, hrest, List.drop_zero]
    rfl

theorem of_resultsFrom_array (hencodes : ∀ info ∈ table, Encodes info)
    (h : IsBefore bytes table key base it) (hbase : base ≤ 0x7fffffff)
    (hrun : resultsFrom bytes fuel it = some rs) :
    ((∀ info ∈ table, FlagFree info.tokens) ∧
      base + (data (table.map blockOf)).length ≤ 0x7fffffff) ∨
      rs.length < (arrayResults key base table).length := by
  induction table generalizing key base it fuel rs with
  | nil => exact Or.inl ⟨fun _ hi => (nomatch hi), hbase⟩
  | cons info table ih =>
    have hinfo := hencodes info (List.mem_cons_self ..)
    rw [arrayResults, List.length_append, resultsOf, List.length_map]
    rcases of_resultsFrom_block hinfo.pieces hinfo.fits h.isAt
      (List.length_pos_iff.mpr hinfo.ne_nil) hrun with
      ⟨hfree, hle, next, fuel', rest, hstate, hindex, htokens, hoffset, hrest, hlength⟩ | hshort
    · rcases ih (fun i hi => hencodes i (List.mem_cons_of_mem _ hi))
        (h.tail hstate hindex htokens hoffset) hle hrest with ⟨hall, hsize⟩ | hshort
      · refine Or.inl ⟨fun i hi => ?_, ?_⟩
        · rcases List.mem_cons.mp hi with rfl | hi
          · exact fun index hlt => hfree index (Nat.zero_le index) hlt
          · exact hall i hi
        · rw [List.map_cons, length_data_cons]
          omega
      · exact Or.inr (by omega)
    · exact Or.inr (by omega)

theorem elementOffset_cons_succ (element : Bytes) (elements : List Bytes) (k : Nat) :
    elementOffset (element :: elements) (k + 1) =
      max 4 element.length + elementOffset elements k := by
  rw [elementOffset, List.take_succ_cons, length_data_cons]
  rfl

theorem arrayResults_eq (key base : Nat) (table : List KeyInfo) :
    arrayResults key base table = (table.mapIdx fun k info =>
      resultsOf (key + k) (base + elementOffset (table.map blockOf) k) info.tokens).flatten := by
  induction table generalizing key base with
  | nil => rfl
  | cons info table ih =>
    rw [arrayResults, ih, List.mapIdx_cons, List.flatten_cons]
    simp only [List.map_cons, elementOffset_cons_succ, Nat.add_assoc, Nat.add_comm 1]
    rfl

end

end TokenScanIterator

section

open TokenDecodeIterator TokenScanIterator BitVectorBasedArrayBuilder

theorem tokens_mono {source : Source} {fuel : Nat} {it : TokenDecodeIterator} {infos : List TokenInfo}
    (h : TokenDecodeIterator.tokens source fuel it = some infos) (more : Nat) :
    TokenDecodeIterator.tokens source (fuel + more) it = some infos := by
  induction fuel generalizing it infos with
  | zero => cases h
  | succ fuel ih =>
    have hgo : ∀ following, it.next source = some following → it.state ≠ .done →
        TokenDecodeIterator.tokens source (fuel + 1 + more) it =
          (TokenDecodeIterator.tokens source (fuel + more) following).map (it.tokenInfo :: ·) := by
      intro following hnext hstate
      rw [Nat.add_right_comm, TokenDecodeIterator.tokens]
      rcases hcase : it.state with _ | _ | _
      · rw [hnext]
        simp only [Option.bind_eq_bind, Option.bind_some]
        rcases TokenDecodeIterator.tokens source (fuel + more) following with _ | rest <;> rfl
      · rw [hnext]
        simp only [Option.bind_eq_bind, Option.bind_some]
        rcases TokenDecodeIterator.tokens source (fuel + more) following with _ | rest <;> rfl
      · exact absurd hcase hstate
    by_cases hdone : it.state = .done
    · rw [TokenDecodeIterator.tokens, hdone] at h
      rw [Nat.add_right_comm, TokenDecodeIterator.tokens, hdone]
      exact h
    · rw [TokenDecodeIterator.tokens] at h
      have hstep : (do
          let following ← it.next source
          return it.tokenInfo :: (← TokenDecodeIterator.tokens source fuel following)) =
            some infos := by
        rcases hcase : it.state with _ | _ | _
        · rwa [hcase] at h
        · rwa [hcase] at h
        · exact absurd hcase hdone
      obtain ⟨following, hnext, hstep⟩ := Option.bind_eq_some_iff.mp hstep
      obtain ⟨rest, hrest, hstep⟩ := Option.bind_eq_some_iff.mp hstep
      rw [hgo following hnext hdone, ih hrest]
      exact hstep

theorem decode_unique {source : Source} {key ptr : Bytes} {fuel fuel' : Nat}
    {infos infos' : List TokenInfo} (h : decodeBlock source key ptr fuel = some infos)
    (h' : decodeBlock source key ptr fuel' = some infos') : infos = infos' := by
  obtain ⟨it, hit, h⟩ := Option.bind_eq_some_iff.mp h
  obtain ⟨it', hit', h'⟩ := Option.bind_eq_some_iff.mp h'
  obtain rfl := Option.some.inj (hit.symm.trans hit')
  have hmore := tokens_mono h fuel'
  rw [Nat.add_comm, tokens_mono h' fuel] at hmore
  exact (Option.some.inj hmore).symm

/-- The scan of a token array visits what the iterator of each key yields, in the order of the ids
and with the place where the block of the key begins. -/
def VisitsTokens (source : Source) (table : List KeyInfo) (elements : List Bytes) : Prop :=
  ∃ infos : List (List TokenInfo), infos.length = table.length ∧
    (∀ k info tokens, table[k]? = some info → infos[k]? = some tokens →
      ∃ fuel, decodeBlock source info.key ((data elements).drop (elementOffset elements k)) fuel =
        some tokens) ∧
    ∃ fuel, scan (data elements) fuel = some
      (infos.mapIdx fun k tokens => resultsOf k (elementOffset elements k) tokens).flatten

variable {table : List KeyInfo} {elements : List Bytes}

theorem tokenArrayElements_spec (h : tokenArrayElements table = some elements)
    (hne : ∀ info ∈ table, info.tokens ≠ [])
    (hfits : ∀ info ∈ table, ∀ token ∈ info.tokens, token.CostFits) :
    elements = table.map blockOf ++ [[UInt8.ofNat kTokenTerminationFlag]] ∧
      (∀ info ∈ table, Encodes info) ∧
      ∀ info ∈ table, encodeTokens info.tokens = some (blockOf info) := by
  obtain ⟨blocks, hblocks, h⟩ := Option.bind_eq_some_iff.mp h
  obtain rfl := Option.some.inj h
  obtain ⟨rfl, hall⟩ := mapM_eq_some_map [] hblocks
  have hencode : ∀ info ∈ table, encodeTokens info.tokens = some (blockOf info) := by
    intro info hinfo
    obtain ⟨block, hblock⟩ := Option.isSome_iff_exists.mp (hall info hinfo)
    rw [hblock, (encodeTokens_spec hblock).1]
    rfl
  refine ⟨?_, fun info hinfo => ?_, hencode⟩
  · congr 1
    refine List.map_congr_left fun info hinfo => ?_
    rw [hencode info hinfo]
    rfl
  · exact ⟨hne info hinfo, (encodeTokens_spec (hencode info hinfo)).2.2, hfits info hinfo⟩

theorem isBefore_start (h : elements = table.map blockOf ++ [[UInt8.ofNat kTokenTerminationFlag]]) :
    IsBefore (data elements) table 0 0 {} :=
  ⟨rfl, rfl, rfl, rfl, by rw [h, List.drop_zero]⟩

theorem decode_block {source : Source}
    (h : elements = table.map blockOf ++ [[UInt8.ofNat kTokenTerminationFlag]])
    (hencode : ∀ info ∈ table, encodeTokens info.tokens = some (blockOf info))
    (hencodes : ∀ info ∈ table, Encodes info) {k : Nat} {info : KeyInfo}
    (hinfo : table[k]? = some info) :
    ∃ fuel, decodeBlock source info.key ((data elements).drop (elementOffset elements k)) fuel =
      some (decoded source info.key info.tokens) := by
  have hmem := List.mem_of_getElem? hinfo
  have hblock : elements[k]? = some (blockOf info) := by
    rw [h, List.getElem?_append_left (by
      rw [List.length_map]
      exact (List.getElem?_eq_some_iff.mp hinfo).1), List.getElem?_map, hinfo]
    rfl
  obtain ⟨hlt, hget⟩ := List.getElem?_eq_some_iff.mp hblock
  have hdrop : (data elements).drop (elementOffset elements k) = data (elements.drop k) := by
    conv_lhs => rw [← List.take_append_drop k elements, data_append]
    rw [elementOffset, List.take_append_drop, List.drop_left]
  rw [hdrop, List.drop_eq_getElem_cons hlt, hget, data_cons]
  exact decode_encodeTokens source (hencode info hmem) (hencodes info hmem).ne_nil
    (hencodes info hmem).fits info.key _

theorem length_data_elements
    (h : elements = table.map blockOf ++ [[UInt8.ofNat kTokenTerminationFlag]]) :
    (data elements).length = (data (table.map blockOf)).length + 4 := by
  rw [h, data_append, List.length_append]
  rfl

theorem flatten_decoded {source : Source}
    (h : elements = table.map blockOf ++ [[UInt8.ofNat kTokenTerminationFlag]]) :
    ((table.map fun info => decoded source info.key info.tokens).mapIdx fun k tokens =>
      resultsOf k (elementOffset elements k) tokens).flatten = arrayResults 0 0 table := by
  rw [arrayResults_eq]
  congr 1
  refine List.ext_getElem (by simp) fun k hk hk' => ?_
  have hle : k ≤ (table.map blockOf).length := by
    rw [List.length_mapIdx, List.length_map] at hk
    rw [List.length_map]
    exact hk.le
  have hoffset : elementOffset elements k = elementOffset (table.map blockOf) k := by
    rw [h, elementOffset, elementOffset, List.take_append_of_le_length hle]
  rw [List.getElem_mapIdx, List.getElem_mapIdx, List.getElem_map, hoffset, Nat.zero_add,
    Nat.zero_add, resultsOf, resultsOf]
  have hmap : ∀ (base : Nat) (tokens : List TokenInfo),
      (tokens.map fun info => (⟨info.storedId, k, base⟩ : TokenScanIterator.Result)) =
        (tokens.map TokenInfo.storedId).map fun id => ⟨id, k, base⟩ := by
    intro base tokens
    rw [List.map_map]
    rfl
  rw [hmap, hmap, storedId_decoded]

theorem flagFree_of_visitsTokens {source : Source} (helements : tokenArrayElements table = some elements)
    (hne : ∀ info ∈ table, info.tokens ≠ [])
    (hfits : ∀ info ∈ table, ∀ token ∈ info.tokens, token.CostFits)
    (h : VisitsTokens source table elements) :
    (∀ info ∈ table, FlagFree info.tokens) ∧ (data elements).length ≤ 0x7fffffff + 4 := by
  obtain ⟨heq, hencodes, hencode⟩ := tokenArrayElements_spec helements hne hfits
  obtain ⟨infos, hlength, hdecode, fuel, hscan⟩ := h
  have hinfos : infos = table.map fun info => decoded source info.key info.tokens := by
    refine List.ext_getElem (by rw [hlength, List.length_map]) fun k hk hk' => ?_
    have hlt : k < table.length := hlength ▸ hk
    obtain ⟨fuel, hfuel⟩ := hdecode k _ _ (List.getElem?_eq_getElem hlt) (List.getElem?_eq_getElem hk)
    obtain ⟨fuel', hfuel'⟩ := @decode_block _ _ source heq hencode hencodes _ _
      (List.getElem?_eq_getElem hlt)
    rw [List.getElem_map]
    exact decode_unique hfuel hfuel'
  have hrun : resultsFrom (data elements) fuel {} = some _ := hscan
  rcases of_resultsFrom_array hencodes (isBefore_start heq) (by decide) hrun with
    ⟨hfree, hsize⟩ | hshort
  · rw [length_data_elements heq]
    exact ⟨hfree, by omega⟩
  · exfalso
    rw [hinfos, flatten_decoded heq] at hshort
    exact Nat.lt_irrefl _ hshort

/-- `TokenScanIterator` visits the tokens that `TokenDecodeIterator` yields exactly if the array has
no offset beyond an `int`, and no key ends in a token whose six upper bits of the value id are all set
in its flags. Then no token begins with the termination flag. -/
theorem visitsTokens_iff (source : Source) (helements : tokenArrayElements table = some elements)
    (hne : ∀ info ∈ table, info.tokens ≠ [])
    (hfits : ∀ info ∈ table, ∀ token ∈ info.tokens, token.CostFits) :
    (VisitsTokens source table elements ↔ (data elements).length ≤ 0x7fffffff + 4 ∧
      ∀ info ∈ table, ∀ token, info.tokens.getLast? = some token → ¬ token.FillsFlags) ∧
    (VisitsTokens source table elements → ∀ info ∈ table, FlagFree info.tokens) := by
  obtain ⟨heq, hencodes, hencode⟩ := tokenArrayElements_spec helements hne hfits
  refine ⟨⟨fun h => ?_, fun ⟨hsize, hlast⟩ => ?_⟩,
    fun h => (flagFree_of_visitsTokens helements hne hfits h).1⟩
  · obtain ⟨hfree, hsize⟩ := flagFree_of_visitsTokens helements hne hfits h
    exact ⟨hsize, fun info hinfo => (flagFree_iff (hencode info hinfo)).mp (hfree info hinfo)⟩
  · rw [length_data_elements heq] at hsize
    have hfree : ∀ info ∈ table, FlagFree info.tokens := fun info hinfo =>
      (flagFree_iff (hencode info hinfo)).mpr (hlast info hinfo)
    obtain ⟨fuel, hrun⟩ := resultsFrom_array hencodes hfree (isBefore_start heq) (by omega)
    refine ⟨table.map fun info => decoded source info.key info.tokens, List.length_map .., ?_,
      fuel, ?_⟩
    · intro k info tokens hinfo htokens
      rw [List.getElem?_map, hinfo] at htokens
      obtain rfl := Option.some.inj htokens
      exact decode_block heq hencode hencodes hinfo
    · rw [flatten_decoded heq]
      exact hrun

/-- A key with the tokens of the value ids 0 and `lastId`, both of a frequent POS. -/
def twoTokens (lastId : Int) : List KeyInfo :=
  [{ key := [97], idInKeyTrie := 0, tokens := [
    { token := { key := [97], value := [98] }, idInValueTrie := 0, idInFrequentPosMap := 0,
      posType := .frequentPos },
    { token := { key := [97], value := [99] }, idInValueTrie := lastId, idInFrequentPosMap := 1,
      posType := .frequentPos }] }]

/-- With the largest id below those that fill the flags, a scan visits both tokens. -/
theorem visitsTokens_iff_twoTokens :
    ∃ elements, tokenArrayElements (twoTokens 0x3effff) = some elements ∧
      VisitsTokens ⟨fun _ => [], fun _ => 0, id⟩ (twoTokens 0x3effff) elements := by
  refine ⟨_, rfl, (visitsTokens_iff _ rfl (by decide) ?_).1.mpr ⟨by decide, ?_⟩⟩
  · intro info hinfo token htoken _
    rw [twoTokens, List.mem_singleton] at hinfo
    subst hinfo
    rcases List.mem_pair.mp htoken with rfl | rfl <;> decide
  · intro info hinfo token htoken hfills
    rw [twoTokens, List.mem_singleton] at hinfo
    subst hinfo
    obtain rfl := Option.some.inj htoken
    exact absurd hfills.2.2.2 (by decide)

/-- The token of the id `0x3f0000` that follows another one is taken for the end. -/
theorem not_visitsTokens :
    ¬ ∀ (source : Source) (table : List KeyInfo) (elements : List Bytes),
      tokenArrayElements table = some elements → (∀ info ∈ table, info.tokens ≠ []) →
      (∀ info ∈ table, ∀ token ∈ info.tokens, token.CostFits ∧
        token.idInValueTrie ≤ kValueTrieIdMax) → VisitsTokens source table elements := by
  intro hall
  have hfits : ∀ info ∈ twoTokens 0x3f0000, ∀ token ∈ info.tokens, token.CostFits ∧
      token.idInValueTrie ≤ kValueTrieIdMax := by
    intro info hinfo token htoken
    rw [twoTokens, List.mem_singleton] at hinfo
    subst hinfo
    rcases List.mem_pair.mp htoken with rfl | rfl <;> exact ⟨fun _ => by decide, by decide⟩
  have hvisits := hall ⟨fun _ => [], fun _ => 0, id⟩ (twoTokens 0x3f0000) _ rfl (by decide) hfits
  have hfree := (flagFree_of_visitsTokens rfl (by decide)
    (fun info hinfo token htoken => (hfits info hinfo token htoken).1) hvisits).1
  exact hfree _ (List.mem_singleton_self _) 1 (by decide) (by decide)

end

end Mozkey.Dictionary
