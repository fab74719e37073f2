import Mozkey.DataManager.SerializedDictionary
import Mozkey.Dictionary.UserDictionaryUtil

/-! `UserDictionary` of `dictionary/user_dictionary.cc`: the tokens that are loaded from a storage, and
the three lookups, each of which searches the sorted tokens by an order of its own. -/

namespace Mozkey.Dictionary.UserDictionary

open Storage Base
open DataManager (bytesLess bytesLess_iff not_bytesLess_iff)

structure TokenArrayData where
  valueSuffix : Bytes
  keySuffix : Bytes
  conjugationId : UInt16
  deriving DecidableEq

structure UserToken where
  key : Bytes
  value : Bytes
  id : UInt16 := 0
  attributes : UInt8 := 0
  posType : PosType := .noPos
  comment : Bytes := []
  deriving DecidableEq

structure Token where
  key : Bytes
  value : Bytes
  cost : Nat
  lid : UInt16
  rid : UInt16
  attributes : Nat
  deriving DecidableEq

/-- The data of the POS, the normalizers, the fingerprint and `std::sort`. -/
structure Modules where
  tokenArrayIndex : PosType → List TokenArrayData
  getCostFromPosType : PosType → Nat
  unknownId : UInt16
  normalizeReading : Bytes → Bytes
  normalizeVoicedSoundMark : Bytes → Bytes
  cityFingerprint : Bytes → UInt64
  sort : List UserToken → List UserToken

def orderByKeyThenById (lhs rhs : UserToken) : Bool :=
  if lhs.key = rhs.key then lhs.id < rhs.id else bytesLess lhs.key rhs.key

def Sorted (tokens : List UserToken) : Prop :=
  tokens.Pairwise fun a b => ¬orderByKeyThenById b a

/-- The normalizers and the data make UTF-8 out of UTF-8, and `std::sort` sorts. -/
structure Modules.Sound (modules : Modules) : Prop where
  keySuffix_valid : ∀ pos, ∀ data ∈ modules.tokenArrayIndex pos, isValidUtf8 data.keySuffix = true
  normalizeReading_valid : ∀ s, isValidUtf8 s = true → isValidUtf8 (modules.normalizeReading s) = true
  normalizeVoicedSoundMark_valid : ∀ s, isValidUtf8 s = true →
    isValidUtf8 (modules.normalizeVoicedSoundMark s) = true
  sort_perm : ∀ tokens, (modules.sort tokens).Perm tokens
  sort_sorted : ∀ tokens, Sorted (modules.sort tokens)

def nonJaLocale : UInt8 := 1

section load

variable (modules : Modules)

def getTokens (key value : Bytes) (posType : PosType) (locale : Bytes) : List UserToken :=
  if key = [] ∨ value = [] then []
  else
    let attributes := if locale ≠ [] ∧ ¬[0x6a, 0x61] <+: locale then nonJaLocale else 0 -- "ja"
    match modules.tokenArrayIndex posType with
    | [] => []
    | [first] => [{ key, value, id := first.conjugationId, attributes, posType }]
    | first :: rest =>
      let isBase := first.keySuffix.length < key.length ∧ first.valueSuffix.length < value.length ∧
        first.keySuffix <:+ key ∧ first.valueSuffix <:+ value
      let keyStem := if isBase then key.take (key.length - first.keySuffix.length) else key
      let valueStem := if isBase then value.take (value.length - first.valueSuffix.length) else value
      (first :: rest).map fun src =>
        { key := keyStem ++ src.keySuffix
          value := valueStem ++ src.valueSuffix
          id := src.conjugationId
          attributes
          posType }

structure SuppressionDictionary where
  keysValues : List (Bytes × Bytes) := []
  keysOnly : List Bytes := []
  valuesOnly : List Bytes := []

def SuppressionDictionary.addEntry (dic : SuppressionDictionary) (key value : Bytes) :
    SuppressionDictionary :=
  if key = [] ∧ value = [] then dic
  else if key = [] then { dic with valuesOnly := dic.valuesOnly ++ [value] }
  else if value = [] then { dic with keysOnly := dic.keysOnly ++ [key] }
  else { dic with keysValues := dic.keysValues ++ [(key, value)] }

structure TokensIndex where
  suppressionDictionary : SuppressionDictionary := {}
  userPosTokens : List UserToken := []

def isAsciiSpace (b : UInt8) : Bool := (0x09 ≤ b && b ≤ 0x0d) || b == 0x20

def stripAsciiWhitespace (s : Bytes) : Bytes := (s.dropWhile isAsciiSpace).rdropWhile isAsciiSpace

def readingOf (entry : Entry) : Bytes :=
  modules.normalizeVoicedSoundMark (modules.normalizeReading entry.key)

def fingerprintOf (entry : Entry) : UInt64 :=
  modules.cityFingerprint
    (readingOf modules entry ++ [0x09] ++ entry.value ++ [0x09, UInt8.ofNat entry.posType.toNat])

/-- The loop over the entries.  `canceled n` is what the signal says before the `n`-th entry; where it
is set, the index is left as it is. -/
def loadLoop (canceled : Nat → Bool) : (n : Nat) → List Entry → List UInt64 → TokensIndex →
    TokensIndex
  | _, [], _, index => { index with userPosTokens := modules.sort index.userPosTokens }
  | n, entry :: entries, seen, index =>
    if canceled n then index
    else if validateEntry entry ≠ .ok then loadLoop canceled (n + 1) entries seen index
    else
      let reading := readingOf modules entry
      let fp := fingerprintOf modules entry
      if fp ∈ seen then loadLoop canceled (n + 1) entries seen index
      else if entry.posType = .suppressionWord then
        loadLoop canceled (n + 1) entries (fp :: seen)
          { index with
            suppressionDictionary := index.suppressionDictionary.addEntry reading entry.value }
      else
        let tokens := (getTokens modules reading entry.value entry.posType []).map fun token =>
          { token with comment := stripAsciiWhitespace entry.comment }
        loadLoop canceled (n + 1) entries (fp :: seen)
          { index with userPosTokens := index.userPosTokens ++ tokens }

def load (canceled : Nat → Bool) (dictionaries : List (List Entry)) : TokensIndex :=
  loadLoop modules canceled 0 dictionaries.flatten [] {}

end load

/-! The lookups. -/

inductive RequestType where
  | prefixRequest
  | predictive
  | exact
  deriving DecidableEq

def atLeastCharsLen : Bytes → Nat → Nat
  | [], _ => 0
  | _, 0 => 0
  | b :: bs, n + 1 => atLeastCharsLen ((b :: bs).drop (oneCharLen b)) n + 1

def userDictionaryAttribute : Nat := 1 <<< 7

def populateTokenFromUserPosToken (modules : Modules) (userPosToken : UserToken)
    (requestType : RequestType) : Token :=
  let id := if userPosToken.posType = .suggestionOnly then modules.unknownId else userPosToken.id
  let cost :=
    if userPosToken.attributes &&& nonJaLocale ≠ 0 then 10000
    else modules.getCostFromPosType userPosToken.posType
  let cost :=
    if userPosToken.posType = .noPos ∧ (requestType = .prefixRequest ∨ requestType = .exact) then
      cost + (4 - atLeastCharsLen userPosToken.key 4) * 2000
    else cost
  { key := userPosToken.key
    value := userPosToken.value
    cost
    lid := id
    rid := id
    attributes := userDictionaryAttribute }

inductive ResultType where
  | traverseDone
  | traverseNextKey
  | traverseCull
  | traverseContinue
  deriving DecidableEq

structure Callback (σ : Type) where
  onKey : (key : Bytes) → σ → ResultType × σ
  onActualKey : (key actualKey : Bytes) → (numExpanded : Nat) → σ → ResultType × σ
  onToken : (key expandedKey : Bytes) → Token → σ → ResultType × σ

structure Callback.Continues {σ : Type} (cb : Callback σ) : Prop where
  onKey : ∀ key s, (cb.onKey key s).1 = .traverseContinue
  onActualKey : ∀ key actualKey n s, (cb.onActualKey key actualKey n s).1 = .traverseContinue
  onToken : ∀ key expandedKey token s, (cb.onToken key expandedKey token s).1 = .traverseContinue

/-- The range of `std::equal_range`: the tokens that are neither less than a key nor greater. -/
def equalRange (less greater : UserToken → Bool) (tokens : List UserToken) :
    Option (List UserToken) := do
  let (lower, upper) ← Lib.equalRange (fun i => tokens[i]?.map less) (fun i => tokens[i]?.map greater)
    tokens.length
  some ((tokens.drop lower).take (upper - lower))

section lookup

variable (modules : Modules) {σ : Type} (cb : Callback σ)

def predictiveLoop : List UserToken → σ → σ
  | [], s => s
  | token :: tokens, s =>
    match cb.onKey token.key s with
    | (.traverseDone, s) => s
    | (.traverseNextKey, s) => predictiveLoop tokens s
    | (.traverseCull, s) => predictiveLoop tokens s
    | (.traverseContinue, s) =>
      let (result, s) := cb.onActualKey token.key token.key 0 s
      if result = .traverseDone then s
      else
        let (result, s) := cb.onToken token.key token.key
          (populateTokenFromUserPosToken modules token .predictive) s
        if result = .traverseDone then s else predictiveLoop tokens s

/-- `LookupPredictive`, with no result where a search reads outside of the tokens. -/
def lookupPredictive (index : TokensIndex) (key : Bytes) (s : σ) : Option σ :=
  if key = [] then some s
  else if index.userPosTokens = [] then some s
  else do
    let range ← equalRange (fun token => bytesLess (token.key.take key.length) key)
      (fun token => bytesLess key (token.key.take key.length)) index.userPosTokens
    some (predictiveLoop modules cb range s)

/-- The loop of `LookupPrefix`, with no result where `LOG(FATAL)` is reached. -/
def prefixLoop (key : Bytes) : List UserToken → σ → Option σ
  | [], s => some s
  | token :: tokens, s =>
    if bytesLess key token.key then some s
    else if token.posType = .suggestionOnly then prefixLoop key tokens s
    else if ¬token.key <+: key then prefixLoop key tokens s
    else
      match cb.onKey token.key s with
      | (.traverseDone, s) => some s
      | (.traverseNextKey, s) => prefixLoop key tokens s
      | (.traverseCull, _) => none
      | (.traverseContinue, s) =>
        let (result, s) := cb.onActualKey token.key token.key 0 s
        if result = .traverseDone then some s
        else
          match cb.onToken token.key token.key
            (populateTokenFromUserPosToken modules token .prefixRequest) s with
          | (.traverseDone, s) => some s
          | (.traverseCull, _) => none
          | (_, s) => prefixLoop key tokens s

def frontOf (key : Bytes) : Bytes := key.take (Utf8Internal.decode key).bytesSeen

def lookupPrefix (index : TokensIndex) (key : Bytes) (s : σ) : Option σ :=
  if key = [] then some s
  else if index.userPosTokens = [] then some s
  else do
    let lower ← Lib.partitionPoint
      (fun i => index.userPosTokens[i]?.map fun token => bytesLess token.key (frontOf key))
      0 index.userPosTokens.length
    prefixLoop modules cb key (index.userPosTokens.drop lower) s

def exactLoop (key : Bytes) : List UserToken → σ → σ
  | [], s => s
  | token :: tokens, s =>
    if token.posType = .suggestionOnly then exactLoop key tokens s
    else
      let (result, s) := cb.onToken key key (populateTokenFromUserPosToken modules token .exact) s
      if result ≠ .traverseContinue then s else exactLoop key tokens s

def lookupExact (index : TokensIndex) (key : Bytes) (s : σ) : Option σ :=
  if key = [] ∨ index.userPosTokens = [] then some s
  else do
    let range ← equalRange (fun token => bytesLess token.key key) (fun token => bytesLess key token.key)
      index.userPosTokens
    if range = [] then some s
    else
      let (result, s) := cb.onKey key s
      if result ≠ .traverseContinue then some s
      else
        let (result, s) := cb.onActualKey key key 0 s
        if result ≠ .traverseContinue then some s else some (exactLoop modules cb key range s)

end lookup

/-! What the lookups are for. -/

section spec

variable (tokens : List UserToken) (key : Bytes)

def exactTokens : List UserToken :=
  tokens.filter fun token => token.key = key ∧ token.posType ≠ .suggestionOnly

def prefixTokens : List UserToken :=
  tokens.filter fun token => (token.key ≠ [] ∧ token.key <+: key) ∧ token.posType ≠ .suggestionOnly

def predictiveTokens : List UserToken := tokens.filter fun token => key <+: token.key

variable (modules : Modules) {σ : Type} (cb : Callback σ)

def visit (requestType : RequestType) (s : σ) (token : UserToken) : σ :=
  let s := (cb.onKey token.key s).2
  let s := (cb.onActualKey token.key token.key 0 s).2
  (cb.onToken token.key token.key (populateTokenFromUserPosToken modules token requestType) s).2

/-- The tokens of one key, which is reported before them if the index has it. -/
def visitKey (s : σ) : σ :=
  if ∀ token ∈ tokens, token.key ≠ key then s
  else
    let s := (cb.onKey key s).2
    let s := (cb.onActualKey key key 0 s).2
    (exactTokens tokens key).foldl (fun s token =>
      (cb.onToken key key (populateTokenFromUserPosToken modules token .exact) s).2) s

end spec

/-! The order of the keys, and the ranges that the orders of the searches bound. -/

section order

variable {tokens : List UserToken} {a b key : Bytes}

theorem lt_of_take_lt {n : Nat} {xs ys : List Nat} (h : xs.take n < ys.take n) : xs < ys := by
  induction n generalizing xs ys with
  | zero =>
    rw [List.take_zero, List.take_zero] at h
    exact absurd h (List.not_lt_nil _)
  | succ n ih =>
    cases ys with
    | nil =>
      rw [List.take_nil] at h
      exact absurd h (List.not_lt_nil _)
    | cons y ys =>
      cases xs with
      | nil => exact List.nil_lt_cons _ _
      | cons x xs =>
        rw [List.take_succ_cons, List.take_succ_cons, List.cons_lt_cons_iff] at h
        rw [List.cons_lt_cons_iff]
        exact h.imp_right fun ⟨heq, hlt⟩ => ⟨heq, ih hlt⟩

theorem take_le_take {xs ys : List Nat} (h : xs ≤ ys) (n : Nat) : xs.take n ≤ ys.take n :=
  not_lt.mp fun hlt => not_lt.mpr h (lt_of_take_lt hlt)

theorem not_append_lt (xs ys : List Nat) : ¬xs ++ ys < xs := by
  induction xs with
  | nil => exact List.not_lt_nil _
  | cons x xs ih =>
    rw [List.cons_append, List.cons_lt_cons_iff]
    rintro (hlt | ⟨-, hlt⟩)
    · exact lt_irrefl _ hlt
    · exact ih hlt

theorem not_bytesLess_of_prefix (h : a <+: b) : ¬bytesLess b a = true := by
  obtain ⟨c, rfl⟩ := h
  rw [bytesLess_iff, List.map_append]
  exact not_append_lt _ _

theorem Sorted.keys (h : Sorted tokens) :
    tokens.Pairwise fun a b => a.key.map UInt8.toNat ≤ b.key.map UInt8.toNat := by
  refine h.imp fun {a b} hab => ?_
  rw [orderByKeyThenById] at hab
  split at hab
  · next heq => exact le_of_eq (congrArg _ heq.symm)
  · exact not_bytesLess_iff.mp hab

theorem equalRange_eq {less greater : UserToken → Bool}
    (hless : tokens.Pairwise fun a b => less b = true → less a = true)
    (hgreater : tokens.Pairwise fun a b => greater a = true → greater b = true)
    (hnot : ∀ token, less token = true → greater token = false) :
    equalRange less greater tokens = some (tokens.filter fun token => !greater token && !less token) := by
  have hnotGreater : tokens.Pairwise fun a b => (!greater b) = true → (!greater a) = true := by
    refine hgreater.imp fun {a b} hab hb => ?_
    rw [Bool.not_eq_true'] at hb ⊢
    by_contra ha
    rw [hab (by simpa using ha)] at hb
    cases hb
  have hlower : Lib.partitionPoint (fun i => tokens[i]?.map less) 0 tokens.length =
      some (tokens.countP less) :=
    Lib.partitionPoint_countP hless fun i token htoken => by rw [htoken]; rfl
  have hupper : Lib.partitionPoint (fun i => (tokens[i]?.map greater).map not) 0 tokens.length =
      some (tokens.countP fun token => !greater token) :=
    Lib.partitionPoint_countP hnotGreater fun i token htoken => by rw [htoken]; rfl
  rw [equalRange, Lib.equalRange, hlower, hupper]
  refine congrArg some (Lib.take_drop_countP hless hnotGreater fun token htoken => ?_)
  rw [hnot token htoken]
  rfl

theorem equalRange_part {part : Bytes → Bytes}
    (hpart : tokens.Pairwise fun a b => (part a.key).map UInt8.toNat ≤ (part b.key).map UInt8.toNat)
    (key : Bytes) :
    equalRange (fun token => bytesLess (part token.key) key)
        (fun token => bytesLess key (part token.key)) tokens =
      some (tokens.filter fun token => part token.key = key) := by
  rw [equalRange_eq]
  · refine congrArg some (List.filter_congr fun token _ => ?_)
    rw [Bool.eq_iff_iff, Bool.and_eq_true, Bool.not_eq_true', Bool.not_eq_true', decide_eq_true_iff]
    constructor
    · rintro ⟨hgreater, hless⟩
      exact DataManager.eq_of_not_bytesLess (by simp [hless]) (by simp [hgreater])
    · intro heq
      rw [heq]
      exact ⟨by simpa using DataManager.bytesLess_irrefl key,
        by simpa using DataManager.bytesLess_irrefl key⟩
  · refine hpart.imp fun {a b} hab hb => ?_
    rw [bytesLess_iff] at hb ⊢
    exact lt_of_le_of_lt hab hb
  · refine hpart.imp fun {a b} hab ha => ?_
    rw [bytesLess_iff] at ha ⊢
    exact lt_of_lt_of_le ha hab
  · intro token htoken
    rw [bytesLess_iff] at htoken
    rw [← Bool.not_eq_true, not_bytesLess_iff]
    exact htoken.le

theorem equalRange_key (h : Sorted tokens) (key : Bytes) :
    equalRange (fun token => bytesLess token.key key) (fun token => bytesLess key token.key) tokens =
      some (tokens.filter fun token => token.key = key) :=
  @equalRange_part tokens id h.keys key

theorem equalRange_prefixed (h : Sorted tokens) (key : Bytes) :
    equalRange (fun token => bytesLess (token.key.take key.length) key)
        (fun token => bytesLess key (token.key.take key.length)) tokens =
      some (predictiveTokens tokens key) := by
  rw [@equalRange_part tokens (List.take key.length)]
  · refine congrArg some (List.filter_congr fun token _ => ?_)
    rw [decide_eq_decide, List.prefix_iff_eq_take]
    exact eq_comm
  · refine h.keys.imp fun {a b} hab => ?_
    rw [List.map_take, List.map_take]
    exact take_le_take hab _

end order

/-! The loops with a callback that goes on. -/

section loops

variable {modules : Modules} {σ : Type} {cb : Callback σ}

theorem Callback.Continues.onKey_eq (hcb : cb.Continues) (key : Bytes) (s : σ) :
    cb.onKey key s = (.traverseContinue, (cb.onKey key s).2) :=
  Prod.ext (hcb.onKey key s) rfl

theorem Callback.Continues.onToken_eq (hcb : cb.Continues) (key expandedKey : Bytes) (token : Token)
    (s : σ) : cb.onToken key expandedKey token s =
      (.traverseContinue, (cb.onToken key expandedKey token s).2) :=
  Prod.ext (hcb.onToken key expandedKey token s) rfl

theorem predictiveLoop_eq (hcb : cb.Continues) (tokens : List UserToken) (s : σ) :
    predictiveLoop modules cb tokens s = tokens.foldl (visit modules cb .predictive) s := by
  induction tokens generalizing s with
  | nil => rfl
  | cons token tokens ih =>
    rw [predictiveLoop, hcb.onKey_eq]
    dsimp only
    refine (if_neg ?_).trans ((if_neg ?_).trans (ih _))
    · exact fun hdone => nomatch (hcb.onActualKey _ _ _ _).symm.trans hdone
    · exact fun hdone => nomatch (hcb.onToken _ _ _ _).symm.trans hdone

theorem exactLoop_eq (hcb : cb.Continues) (key : Bytes) (tokens : List UserToken) (s : σ) :
    exactLoop modules cb key tokens s =
      (tokens.filter fun token => token.posType ≠ .suggestionOnly).foldl (fun s token =>
        (cb.onToken key key (populateTokenFromUserPosToken modules token .exact) s).2) s := by
  induction tokens generalizing s with
  | nil => rfl
  | cons token tokens ih =>
    rw [exactLoop]
    split
    · next hpos =>
      rw [List.filter_cons_of_neg (by simp [hpos])]
      exact ih s
    · next hpos =>
      rw [List.filter_cons_of_pos (by simp [hpos]), List.foldl_cons, hcb.onToken_eq]
      simp only [ne_eq, not_true_eq_false, if_false]
      exact ih _

/-- The loop over the keys from the first character on reports the beginnings of the key, and misses
none by stopping at a greater key. -/
theorem prefixLoop_eq (hcb : cb.Continues) {key : Bytes} {tokens : List UserToken}
    (hsorted : Sorted tokens) (s : σ) :
    prefixLoop modules cb key tokens s =
      some ((tokens.filter fun token => token.key <+: key ∧ token.posType ≠ .suggestionOnly).foldl
        (visit modules cb .prefixRequest) s) := by
  induction tokens generalizing s with
  | nil => rfl
  | cons token tokens ih =>
    obtain ⟨hall, htail⟩ := List.pairwise_cons.mp hsorted.keys
    have ih := ih (List.pairwise_cons.mp hsorted).2
    rw [prefixLoop]
    split
    · next hgreater =>
      have hnone : (token :: tokens).filter
          (fun token => token.key <+: key ∧ token.posType ≠ .suggestionOnly) = [] := by
        rw [List.filter_eq_nil_iff]
        intro other hother hpre
        have hle : ¬bytesLess key other.key = true :=
          not_bytesLess_of_prefix (of_decide_eq_true hpre).1
        rw [not_bytesLess_iff] at hle
        rw [bytesLess_iff] at hgreater
        rcases List.mem_cons.mp hother with rfl | hmem
        · exact not_le.mpr hgreater hle
        · exact not_le.mpr hgreater ((hall other hmem).trans hle)
      rw [hnone]
      rfl
    split
    · next hpos =>
      rw [List.filter_cons_of_neg (by simp [hpos])]
      exact ih s
    split
    · next hpre =>
      rw [List.filter_cons_of_neg (by simp [hpre])]
      exact ih s
    · next hpos hpre =>
      rw [not_not] at hpre
      rw [List.filter_cons_of_pos (by simp [hpos, hpre]), List.foldl_cons, hcb.onKey_eq]
      dsimp only
      refine (if_neg ?_).trans ?_
      · exact fun hdone => nomatch (hcb.onActualKey _ _ _ _).symm.trans hdone
      · rw [hcb.onToken_eq]
        exact ih _

end loops

/-! The tokens that are loaded. -/

section loaded

variable {modules : Modules}

def ValidKeys (tokens : List UserToken) : Prop := ∀ token ∈ tokens, isValidUtf8 token.key = true

theorem getTokens_valid (hm : modules.Sound) {key value locale : Bytes} {posType : PosType}
    (hkey : isValidUtf8 key = true) : ValidKeys (getTokens modules key value posType locale) := by
  rw [getTokens]
  split
  · exact nofun
  · have hsuffix := hm.keySuffix_valid posType
    dsimp only
    split
    · exact nofun
    · intro token htoken
      rw [List.mem_singleton] at htoken
      exact htoken ▸ hkey
    · next first rest _ hindex =>
      intro token htoken
      obtain ⟨src, hsrc, rfl⟩ := List.mem_map.mp htoken
      have hsrc := hsuffix src (hindex ▸ hsrc)
      have hfirst := hsuffix first (by rw [hindex]; exact List.mem_cons_self)
      rw [isValidUtf8_iff] at hsrc hfirst hkey ⊢
      refine WholeText.append ?_ hsrc
      split
      · next hbase =>
        obtain ⟨stem, rfl⟩ := hbase.2.2.1
        rw [List.length_append, Nat.add_sub_cancel, List.take_left]
        exact hkey.of_append hfirst
      · exact hkey

theorem loadLoop_spec (hm : modules.Sound) {canceled : Nat → Bool} (hcanceled : ∀ n, canceled n = false)
    (entries : List Entry) (n : Nat) (seen : List UInt64) {index : TokensIndex}
    (h : ValidKeys index.userPosTokens) :
    Sorted (loadLoop modules canceled n entries seen index).userPosTokens ∧
      ValidKeys (loadLoop modules canceled n entries seen index).userPosTokens := by
  induction entries generalizing n seen index with
  | nil =>
    rw [loadLoop]
    exact ⟨hm.sort_sorted _, fun token htoken => h token ((hm.sort_perm _).mem_iff.mp htoken)⟩
  | cons entry entries ih =>
    rw [loadLoop, hcanceled]
    simp only [Bool.false_eq_true, if_false]
    split
    · exact ih _ _ h
    · next hvalid =>
      rw [ne_eq, not_not, validateEntry_iff] at hvalid
      split
      · exact ih _ _ h
      split
      · exact ih _ _ h
      · refine ih _ _ fun token htoken => ?_
        rcases List.mem_append.mp htoken with hmem | hmem
        · exact h token hmem
        · obtain ⟨t, ht, rfl⟩ := List.mem_map.mp hmem
          exact getTokens_valid hm (hm.normalizeVoicedSoundMark_valid _
            (hm.normalizeReading_valid _ hvalid.key.valid)) t ht

end loaded

/-! The lookups in what was loaded. -/

section lookups

variable {modules : Modules} {σ : Type} {cb : Callback σ} {index : TokensIndex}

theorem lookupPredictive_eq (hsorted : Sorted index.userPosTokens) (hcb : cb.Continues) {key : Bytes}
    (hne : key ≠ []) (s : σ) :
    lookupPredictive modules cb index key s =
      some ((predictiveTokens index.userPosTokens key).foldl (visit modules cb .predictive) s) := by
  rw [lookupPredictive, if_neg hne]
  split
  · next hempty => simp [hempty, predictiveTokens]
  · rw [equalRange_prefixed hsorted, Option.bind_eq_bind, Option.bind_some, predictiveLoop_eq hcb]

theorem lookupPrefix_eq (hsorted : Sorted index.userPosTokens) (hkeys : ValidKeys index.userPosTokens)
    (hcb : cb.Continues) {key : Bytes} (hne : key ≠ []) (hvalid : isValidUtf8 key = true) (s : σ) :
    lookupPrefix modules cb index key s =
      some ((prefixTokens index.userPosTokens key).foldl (visit modules cb .prefixRequest) s) := by
  rw [lookupPrefix, if_neg hne]
  split
  · next hempty => simp [hempty, prefixTokens]
  have hless : index.userPosTokens.Pairwise fun a b =>
      bytesLess b.key (frontOf key) = true → bytesLess a.key (frontOf key) = true := by
    refine hsorted.keys.imp fun {a b} hab hb => ?_
    rw [bytesLess_iff] at hb ⊢
    exact lt_of_le_of_lt hab hb
  have hlower : Lib.partitionPoint
      (fun i => index.userPosTokens[i]?.map fun token => bytesLess token.key (frontOf key)) 0
      index.userPosTokens.length =
      some (index.userPosTokens.countP fun token => bytesLess token.key (frontOf key)) :=
    Lib.partitionPoint_countP hless fun i token htoken => by rw [htoken]; rfl
  have hdrop : index.userPosTokens.drop
      (index.userPosTokens.countP fun token => bytesLess token.key (frontOf key)) =
      index.userPosTokens.filter fun token => !bytesLess token.key (frontOf key) := by
    have hleft := @List.drop_left _
      (index.userPosTokens.filter fun token => bytesLess token.key (frontOf key))
      (index.userPosTokens.filter fun token => !bytesLess token.key (frontOf key))
    rwa [Lib.filter_append_filter_not hless, ← List.countP_eq_length_filter] at hleft
  rw [hlower, Option.bind_eq_bind, Option.bind_some, hdrop,
    prefixLoop_eq hcb (hsorted.sublist List.filter_sublist), List.filter_filter]
  congr 2
  refine List.filter_congr fun token htoken => ?_
  have hfront : frontOf key ≠ [] := by
    cases key with
    | nil => exact absurd rfl hne
    | cons b bs =>
      obtain ⟨w, rest, hs, hw⟩ : ∃ w rest, b :: bs = w ++ rest ∧ WellFormed w := by
        rw [isValidUtf8_iff] at hvalid
        generalize hs : b :: bs = u at hvalid
        cases hvalid with
        | nil => cases hs
        | cons hw _ => exact ⟨_, _, rfl, hw⟩
      rw [frontOf, hs, (decode_wellFormed hw rest).2, List.take_left]
      exact fun hnil => not_wellFormed_nil (hnil ▸ hw)
  rw [Bool.eq_iff_iff, Bool.and_eq_true, decide_eq_true_iff, decide_eq_true_iff, Bool.not_eq_true']
  constructor
  · rintro ⟨⟨hpre, hpos⟩, hnot⟩
    refine ⟨⟨fun hnil => ?_, hpre⟩, hpos⟩
    rw [hnil, ← Bool.not_eq_true, bytesLess_iff] at hnot
    cases hkey : frontOf key with
    | nil => exact hfront hkey
    | cons b bs =>
      rw [hkey] at hnot
      exact hnot (List.nil_lt_cons _ _)
  · rintro ⟨⟨hnil, hpre⟩, hpos⟩
    have hwhole := (isValidUtf8_iff token.key).mp (hkeys token htoken)
    refine ⟨⟨hpre, hpos⟩, ?_⟩
    rw [← Bool.not_eq_true]
    exact not_bytesLess_of_prefix (hwhole.take_of_prefix hnil hpre)

theorem lookupExact_eq (hsorted : Sorted index.userPosTokens) (hcb : cb.Continues) {key : Bytes}
    (hne : key ≠ []) (s : σ) :
    lookupExact modules cb index key s = some (visitKey index.userPosTokens key modules cb s) := by
  have hnone : (index.userPosTokens.filter fun token => token.key = key) = [] ↔
      ∀ token ∈ index.userPosTokens, token.key ≠ key := by
    rw [List.filter_eq_nil_iff]
    simp
  rw [lookupExact, visitKey]
  split
  · next hempty =>
    rw [if_pos]
    intro token htoken
    rw [hempty.resolve_left hne] at htoken
    cases htoken
  rw [equalRange_key hsorted, Option.bind_eq_bind, Option.bind_some]
  by_cases hrange : (index.userPosTokens.filter fun token => token.key = key) = []
  · rw [if_pos hrange, if_pos (hnone.mp hrange)]
  rw [if_neg hrange, if_neg fun h => hrange (hnone.mpr h)]
  dsimp only
  rw [if_neg fun hnot => hnot (hcb.onKey _ _), if_neg fun hnot => hnot (hcb.onActualKey _ _ _ _),
    exactLoop_eq hcb, List.filter_filter, exactTokens]
  congr 2
  refine List.filter_congr fun token _ => ?_
  rw [Bool.eq_iff_iff, Bool.and_eq_true]
  simp [and_comm]

theorem filter_prefixTokens (tokens : List UserToken) {key : Bytes} (hne : key ≠ []) :
    (prefixTokens tokens key).filter (fun token => token.key = key) = exactTokens tokens key := by
  rw [prefixTokens, exactTokens, List.filter_filter]
  refine List.filter_congr fun token _ => ?_
  rw [Bool.eq_iff_iff, Bool.and_eq_true, decide_eq_true_iff, decide_eq_true_iff, decide_eq_true_iff]
  constructor
  · rintro ⟨heq, -, hpos⟩
    exact ⟨heq, hpos⟩
  · rintro ⟨heq, hpos⟩
    exact ⟨heq, ⟨by rwa [heq], heq ▸ List.prefix_refl _⟩, hpos⟩

theorem exactTokens_sublist (tokens : List UserToken) (key : Bytes) :
    (exactTokens tokens key).Sublist (predictiveTokens tokens key) := by
  refine List.monotone_filter_right tokens fun token h => ?_
  exact decide_eq_true ((of_decide_eq_true h).1 ▸ List.prefix_refl _)

/-- The kind of a lookup only matters for the cost of a word without a POS, and then the lookups of
beginnings and of whole keys agree. -/
theorem populateTokenFromUserPosToken_eq (modules : Modules) (token : UserToken)
    {requestType : RequestType} (h : requestType ≠ .predictive ∨ token.posType ≠ .noPos) :
    populateTokenFromUserPosToken modules token requestType =
      populateTokenFromUserPosToken modules token .exact := by
  rw [populateTokenFromUserPosToken, populateTokenFromUserPosToken]
  rcases h with h | h
  · cases requestType with
    | prefixRequest => simp
    | predictive => exact absurd rfl h
    | exact => rfl
  · simp [h]

/-- Each lookup reports the tokens that it is for, each of them once and in the order in which the
index has them. -/
theorem lookups_report (hm : modules.Sound) {canceled : Nat → Bool}
    (hcanceled : ∀ n, canceled n = false) (dictionaries : List (List Entry)) (hcb : cb.Continues)
    {key : Bytes} (hne : key ≠ []) (hvalid : isValidUtf8 key = true) (s : σ)
    {tokens : List UserToken}
    (htokens : (load modules canceled dictionaries).userPosTokens = tokens) :
    Sorted tokens ∧
      lookupExact modules cb (load modules canceled dictionaries) key s =
        some (visitKey tokens key modules cb s) ∧
      lookupPrefix modules cb (load modules canceled dictionaries) key s =
        some ((prefixTokens tokens key).foldl (visit modules cb .prefixRequest) s) ∧
      lookupPredictive modules cb (load modules canceled dictionaries) key s =
        some ((predictiveTokens tokens key).foldl (visit modules cb .predictive) s) ∧
      (prefixTokens tokens key).filter (fun token => token.key = key) = exactTokens tokens key ∧
      (exactTokens tokens key).Sublist (predictiveTokens tokens key) ∧
      ∀ (token : UserToken) (requestType : RequestType),
        requestType ≠ .predictive ∨ token.posType ≠ .noPos →
          populateTokenFromUserPosToken modules token requestType =
            populateTokenFromUserPosToken modules token .exact := by
  have hnil : ValidKeys ({} : TokensIndex).userPosTokens := nofun
  obtain ⟨hsorted, hkeys⟩ := loadLoop_spec hm hcanceled dictionaries.flatten 0 [] hnil
  subst htokens
  exact ⟨hsorted, lookupExact_eq hsorted hcb hne s, lookupPrefix_eq hsorted hkeys hcb hne hvalid s,
    lookupPredictive_eq hsorted hcb hne s, filter_prefixTokens _ hne, exactTokens_sublist _ _,
    fun token _ h => populateTokenFromUserPosToken_eq modules token h⟩

/-! An entry with one token. -/

theorem orderByKeyThenById_iff (a b : UserToken) : orderByKeyThenById a b = true ↔
    toLex (a.key.map UInt8.toNat, a.id.toNat) < toLex (b.key.map UInt8.toNat, b.id.toNat) := by
  rw [Prod.Lex.toLex_lt_toLex, orderByKeyThenById]
  split
  · next heq => simp [heq, UInt16.lt_iff_toNat_lt]
  · next hne =>
    have hmap : a.key.map UInt8.toNat ≠ b.key.map UInt8.toNat :=
      fun heq => hne (DataManager.map_toNat_injective heq)
    simp [bytesLess_iff, hmap]

/-- A sort by insertion, for the sort of the standard library. -/
def sortTokens (tokens : List UserToken) : List UserToken :=
  tokens.insertionSort fun a b => ¬orderByKeyThenById b a = true

theorem sorted_sortTokens (tokens : List UserToken) : Sorted (sortTokens tokens) := by
  have hiff : ∀ a b : UserToken, ¬orderByKeyThenById b a = true ↔
      toLex (a.key.map UInt8.toNat, a.id.toNat) ≤ toLex (b.key.map UInt8.toNat, b.id.toNat) := by
    intro a b
    rw [orderByKeyThenById_iff, not_lt]
  have : Std.Total fun a b : UserToken => ¬orderByKeyThenById b a = true :=
    ⟨fun a b => by rw [hiff, hiff]; exact le_total _ _⟩
  have : IsTrans UserToken fun a b => ¬orderByKeyThenById b a = true :=
    ⟨fun a b c hab hbc => by rw [hiff] at hab hbc ⊢; exact hab.trans hbc⟩
  exact List.pairwise_insertionSort _ tokens

def nounModules : Modules where
  tokenArrayIndex pos := if pos = .noun then [⟨[], [], 1851⟩] else []
  getCostFromPosType _ := 5000
  unknownId := 1
  normalizeReading s := s
  normalizeVoicedSoundMark s := s
  cityFingerprint s := UInt64.ofNat s.length
  sort := sortTokens

theorem nounModules_sound : nounModules.Sound where
  keySuffix_valid pos data hdata := by
    simp only [nounModules] at hdata
    split at hdata
    · obtain rfl := List.mem_singleton.mp hdata
      rfl
    · cases hdata
  normalizeReading_valid _ h := h
  normalizeVoicedSoundMark_valid _ h := h
  sort_perm tokens := List.perm_insertionSort _ tokens
  sort_sorted := sorted_sortTokens

def recorder : Callback (List Token) where
  onKey _ s := (.traverseContinue, s)
  onActualKey _ _ _ s := (.traverseContinue, s)
  onToken _ _ token s := (.traverseContinue, s ++ [token])

theorem lookups_report_a :
    lookupPrefix nounModules recorder (load nounModules (fun _ => false) [[aEntry]]) aEntry.key [] =
      some ((prefixTokens (load nounModules (fun _ => false) [[aEntry]]).userPosTokens aEntry.key).foldl
        (visit nounModules recorder .prefixRequest) []) :=
  (lookups_report nounModules_sound (fun _ => rfl) [[aEntry]] ⟨fun _ _ => rfl, fun _ _ _ _ => rfl,
    fun _ _ _ _ => rfl⟩ (by decide) (by decide) [] rfl).2.2.1

end lookups

end Mozkey.Dictionary.UserDictionary
