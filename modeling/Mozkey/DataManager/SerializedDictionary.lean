import Mozkey.Base.Container.SerializedStringArrayImage
import Mozkey.Lib.BinarySearch
import Mozkey.Lib.KeyedList

/-! `SerializedDictionary` of `data_manager/serialized_dictionary.cc`: the compilation of a map to its
two images and the lookup in them, which gives the tokens of every key. -/

namespace Mozkey.DataManager

open Storage Base

structure CompilerToken where
  value : Bytes
  description : Bytes
  additionalDescription : Bytes
  lid : UInt16
  rid : UInt16
  cost : Int16
  deriving DecidableEq

def bytesLess (a b : Bytes) : Bool := decide (a.map UInt8.toNat < b.map UInt8.toNat)

structure TokenMap where
  entries : List (Bytes × List CompilerToken)
  sorted : entries.Pairwise fun kv kv' => bytesLess kv.1 kv'.1

namespace TokenMap

/-- The tokens of a key; none where the key is not in the map. -/
def tokensOf (dic : TokenMap) (key : Bytes) : List CompilerToken :=
  ((dic.entries.find? fun kv => kv.1 = key).map Prod.snd).getD []

end TokenMap

/-- The access to a key of `btree_map`, which inserts it where it is missing. -/
def insertString (str : Bytes) : List Bytes → List Bytes
  | [] => [str]
  | first :: strs =>
    if bytesLess str first then str :: first :: strs
    else if bytesLess first str then first :: insertString str strs
    else first :: strs

/-- The strings of an entry, in the order in which they are collected. -/
def entryStrings (kv : Bytes × List CompilerToken) : List Bytes :=
  kv.1 :: kv.2.flatMap fun token => [token.value, token.description, token.additionalDescription]

def collectStrings (entries : List (Bytes × List CompilerToken)) : List Bytes :=
  (entries.flatMap entryStrings).foldl (fun strs str => insertString str strs) []

def stringIndex (strs : List Bytes) (str : Bytes) : Nat :=
  strs.findIdx (fun other => other = str) % 2 ^ 32

def kTokenByteLength : Nat := 24

def tokenBytes (index : Bytes → Nat) (key : Bytes) (token : CompilerToken) : Bytes :=
  leBytes 4 (index key) ++ (leBytes 4 (index token.value) ++ (leBytes 4 (index token.description) ++
    (leBytes 4 (index token.additionalDescription) ++ (leBytes 2 token.lid.toNat ++
      (leBytes 2 token.rid.toNat ++ (leBytes 2 token.cost.toUInt16.toNat ++ leBytes 2 0))))))

/-- `Compile`, or nothing where the check of an index fails or the string array is not built. -/
def compile (dic : TokenMap) : Option (Bytes × Bytes) := do
  let strs := collectStrings dic.entries
  let tokenArray := dic.entries.flatMap fun kv => kv.2.flatMap (tokenBytes (stringIndex strs) kv.1)
  if 2 ^ 32 < strs.length then none
  else do
    let stringArray ← SerializedStringArray.serializeToBuffer strs
    some (tokenArray, stringArray)

/-- The loop of `VerifyData` over the tokens from the `i`-th on; nothing where it reads outside. -/
def verifyTokens (tokenArray : Bytes) (size : Nat) : (count : Nat) → (i : Nat) → Option Bool
  | 0, _ => some true
  | count + 1, i => do
    let key ← loadUint32 tokenArray (kTokenByteLength * i)
    let value ← loadUint32 tokenArray (kTokenByteLength * i + 4)
    let description ← loadUint32 tokenArray (kTokenByteLength * i + 8)
    let additionalDescription ← loadUint32 tokenArray (kTokenByteLength * i + 12)
    if size ≤ key ∨ size ≤ value ∨ size ≤ description ∨ size ≤ additionalDescription then some false
    else verifyTokens tokenArray size count (i + 1)

def verifyData (tokenArray stringArray : Bytes) : Option Bool :=
  if tokenArray.length % kTokenByteLength ≠ 0 then some false
  else do
    let valid ← SerializedStringArray.verifyData stringArray
    if !valid then some false
    else
      verifyTokens tokenArray (SerializedStringArray.size stringArray)
        (tokenArray.length / kTokenByteLength) 0

/-! The iterator at a token, by the index of the token. -/

section iterator

variable (tokenArray stringArray : Bytes) (i : Nat)

/-- A string of a token, by the place of its index in the block. -/
def stringOf (place : Nat) : Option Bytes := do
  let index ← loadUint32 tokenArray (kTokenByteLength * i + place)
  SerializedStringArray.dataAt stringArray index

def keyOf : Option Bytes := stringOf tokenArray stringArray i 0

def numberOf (place : Nat) : Option UInt16 :=
  (loadLe 2 tokenArray (kTokenByteLength * i + place)).map UInt16.ofNat

def tokenOf : Option CompilerToken := do
  let value ← stringOf tokenArray stringArray i 4
  let description ← stringOf tokenArray stringArray i 8
  let additionalDescription ← stringOf tokenArray stringArray i 12
  let lid ← numberOf tokenArray i 16
  let rid ← numberOf tokenArray i 18
  let cost ← numberOf tokenArray i 20
  some { value, description, additionalDescription, lid, rid, cost := cost.toInt16 }

end iterator

def equalRange (tokenArray stringArray key : Bytes) : Option (Nat × Nat) :=
  Lib.equalRange (fun i => (keyOf tokenArray stringArray i).map fun other => bytesLess other key)
    (fun i => (keyOf tokenArray stringArray i).map fun other => bytesLess key other)
    (tokenArray.length / kTokenByteLength)

def lookup (tokenArray stringArray key : Bytes) : Option (List CompilerToken) := do
  let (lower, upper) ← equalRange tokenArray stringArray key
  (List.range' lower (upper - lower)).mapM (tokenOf tokenArray stringArray)

/-- The images of a map are accepted, and give the tokens of every key. -/
def CompilesCorrectly (dic : TokenMap) : Prop :=
  ∃ tokenArray stringArray, compile dic = some (tokenArray, stringArray) ∧
    verifyData tokenArray stringArray = some true ∧
    ∀ key, lookup tokenArray stringArray key = some (dic.tokensOf key)

/-! The order of strings. -/

section order

variable {a b c str : Bytes} {strs : List Bytes}

theorem map_toNat_injective : Function.Injective (List.map UInt8.toNat) :=
  List.map_injective_iff.mpr fun _ _ => UInt8.toNat_inj.mp

theorem bytesLess_iff : bytesLess a b ↔ a.map UInt8.toNat < b.map UInt8.toNat :=
  decide_eq_true_iff

theorem not_bytesLess_iff : ¬ bytesLess a b ↔ b.map UInt8.toNat ≤ a.map UInt8.toNat := by
  rw [bytesLess_iff, not_lt]

theorem bytesLess_trans (hab : bytesLess a b) (hbc : bytesLess b c) : bytesLess a c :=
  bytesLess_iff.mpr ((bytesLess_iff.mp hab).trans (bytesLess_iff.mp hbc))

theorem bytesLess_irrefl (a : Bytes) : ¬ bytesLess a a :=
  not_bytesLess_iff.mpr (le_refl _)

theorem eq_of_not_bytesLess (hab : ¬ bytesLess a b) (hba : ¬ bytesLess b a) : a = b :=
  map_toNat_injective (le_antisymm (not_bytesLess_iff.mp hba) (not_bytesLess_iff.mp hab))

theorem mem_insertString : a ∈ insertString str strs ↔ a = str ∨ a ∈ strs := by
  induction strs with
  | nil => rw [insertString, List.mem_singleton, or_iff_left List.not_mem_nil]
  | cons first strs ih =>
    rw [insertString]
    split
    · exact List.mem_cons
    · rename_i hless
      split
      · rw [List.mem_cons, ih, List.mem_cons, or_left_comm]
      · rename_i hgreater
        obtain rfl := eq_of_not_bytesLess hless hgreater
        rw [List.mem_cons, ← or_assoc, or_self]

theorem sorted_insertString (h : strs.Pairwise fun a b => bytesLess a b) :
    (insertString str strs).Pairwise fun a b => bytesLess a b := by
  induction h with
  | nil => exact List.pairwise_singleton _ _
  | @cons first strs hall hstrs ih =>
    rw [insertString]
    split
    · rename_i hless
      refine List.Pairwise.cons (fun a ha => ?_) (.cons hall hstrs)
      rcases List.mem_cons.mp ha with rfl | ha
      · exact hless
      · exact bytesLess_trans hless (hall a ha)
    · split
      · rename_i hgreater
        refine .cons (fun a ha => ?_) ih
        rcases mem_insertString.mp ha with rfl | ha
        · exact hgreater
        · exact hall a ha
      · exact .cons hall hstrs

theorem foldl_insertString (more : List Bytes) (h : strs.Pairwise fun a b => bytesLess a b) :
    ((more.foldl (fun strs str => insertString str strs) strs).Pairwise fun a b => bytesLess a b) ∧
      ∀ a, a ∈ more.foldl (fun strs str => insertString str strs) strs ↔ a ∈ strs ∨ a ∈ more := by
  induction more generalizing strs with
  | nil => exact ⟨h, fun a => (or_iff_left List.not_mem_nil).symm⟩
  | cons str more ih =>
    obtain ⟨hsorted, hmem⟩ := ih (sorted_insertString h)
    refine ⟨hsorted, fun a => ?_⟩
    rw [List.foldl_cons, hmem, mem_insertString, List.mem_cons, or_comm (a := a = str), or_assoc]

end order

/-! The strings of a map and their indices. -/

section strings

variable {entries : List (Bytes × List CompilerToken)} {str : Bytes}

theorem mem_collectStrings : str ∈ collectStrings entries ↔ str ∈ entries.flatMap entryStrings := by
  rw [collectStrings, (foldl_insertString _ .nil).2, or_iff_right List.not_mem_nil]

theorem getElem?_stringIndex {strs : List Bytes} (hlength : strs.length ≤ 2 ^ 32) (hmem : str ∈ strs) :
    strs[stringIndex strs str]? = some str := by
  have hlt : strs.findIdx (fun other => other = str) < strs.length :=
    List.findIdx_lt_length_of_exists ⟨str, hmem, decide_eq_true rfl⟩
  rw [stringIndex, Nat.mod_eq_of_lt (by omega), List.getElem?_eq_getElem hlt, Option.some_inj]
  exact of_decide_eq_true (List.findIdx_getElem (w := hlt))

end strings

/-! The blocks of the tokens. -/

section blocks

variable {index : Bytes → Nat} {key : Bytes} {token : CompilerToken}

@[simp] theorem length_tokenBytes (index : Bytes → Nat) (key : Bytes) (token : CompilerToken) :
    (tokenBytes index key token).length = kTokenByteLength := by
  simp [tokenBytes, kTokenByteLength]

theorem loadLe_within {xs ys zs : Bytes} {width offset : Nat} (h : offset + width ≤ ys.length) :
    loadLe width (xs ++ (ys ++ zs)) (xs.length + offset) = loadLe width ys offset := by
  rw [loadLe, loadLe, if_pos h, if_pos (by simp only [List.length_append]; omega),
    ← List.drop_drop, List.drop_left, List.drop_append_of_le_length (by omega),
    List.take_append_of_le_length (by rw [List.length_drop]; omega)]

theorem loadLe_skip {rest : Bytes} {width n value offset : Nat} :
    loadLe width (leBytes n value ++ rest) (n + offset) = loadLe width rest offset := by
  have hlength := length_leBytes n value
  rw [loadLe, loadLe, List.length_append, hlength, ← List.drop_drop, List.drop_left' hlength]
  simp only [Nat.add_assoc, Nat.add_le_add_iff_left]

theorem loadLe_first {rest : Bytes} {n value : Nat} (h : value < 2 ^ (8 * n)) :
    loadLe n (leBytes n value ++ rest) 0 = some value :=
  loadLe_leBytes h List.length_nil

theorem loadLe_tokenBytes (hindex : ∀ str, index str < 2 ^ 32) (key : Bytes) (token : CompilerToken) :
    loadLe 4 (tokenBytes index key token) 0 = some (index key) ∧
      loadLe 4 (tokenBytes index key token) 4 = some (index token.value) ∧
      loadLe 4 (tokenBytes index key token) 8 = some (index token.description) ∧
      loadLe 4 (tokenBytes index key token) 12 = some (index token.additionalDescription) ∧
      loadLe 2 (tokenBytes index key token) 16 = some token.lid.toNat ∧
      loadLe 2 (tokenBytes index key token) 18 = some token.rid.toNat ∧
      loadLe 2 (tokenBytes index key token) 20 = some token.cost.toUInt16.toNat := by
  rw [tokenBytes]
  refine ⟨loadLe_first (hindex _), ?_, ?_, ?_, ?_, ?_, ?_⟩
  · rw [show 4 = 4 + 0 from rfl, loadLe_skip]
    exact loadLe_first (hindex _)
  · rw [show 8 = 4 + (4 + 0) from rfl, loadLe_skip, loadLe_skip]
    exact loadLe_first (hindex _)
  · rw [show 12 = 4 + (4 + (4 + 0)) from rfl, loadLe_skip, loadLe_skip, loadLe_skip]
    exact loadLe_first (hindex _)
  · rw [show 16 = 4 + (4 + (4 + (4 + 0))) from rfl, loadLe_skip, loadLe_skip, loadLe_skip, loadLe_skip]
    exact loadLe_first token.lid.toNat_lt
  · rw [show 18 = 4 + (4 + (4 + (4 + (2 + 0)))) from rfl, loadLe_skip, loadLe_skip, loadLe_skip,
      loadLe_skip, loadLe_skip]
    exact loadLe_first token.rid.toNat_lt
  · rw [show 20 = 4 + (4 + (4 + (4 + (2 + (2 + 0))))) from rfl, loadLe_skip, loadLe_skip, loadLe_skip,
      loadLe_skip, loadLe_skip, loadLe_skip]
    exact loadLe_first token.cost.toUInt16.toNat_lt

theorem loadLe_flatMap {α : Type} {f : α → Bytes} {n i width offset : Nat} {rows : List α} {row : α}
    (hlength : ∀ row, (f row).length = n) (hrow : rows[i]? = some row) (h : offset + width ≤ n) :
    loadLe width (rows.flatMap f) (n * i + offset) = loadLe width (f row) offset := by
  obtain ⟨hi, rfl⟩ := List.getElem?_eq_some_iff.mp hrow
  have hsplit : rows.flatMap f =
      (rows.take i).flatMap f ++ (f rows[i] ++ (rows.drop (i + 1)).flatMap f) := by
    rw [← List.flatMap_cons, List.cons_getElem_drop_succ, ← List.flatMap_append, List.take_append_drop]
  have hbefore : ((rows.take i).flatMap f).length = n * i := by
    rw [List.length_flatMap, List.map_congr_left fun row _ => hlength row, List.map_const',
      List.sum_replicate, List.length_take, Nat.min_eq_left hi.le, smul_eq_mul, Nat.mul_comm]
  rw [hsplit, ← hbefore]
  exact loadLe_within (by rw [hlength]; exact h)

end blocks

/-! The rows of a map: its keys with each of their tokens. -/

def rowsOf (entries : List (Bytes × List CompilerToken)) : List (Bytes × CompilerToken) :=
  entries.flatMap fun kv => kv.2.map fun token => (kv.1, token)

section rows

variable {dic : TokenMap} {key : Bytes}

theorem tokenArray_eq (entries : List (Bytes × List CompilerToken)) (index : Bytes → Nat) :
    (entries.flatMap fun kv => kv.2.flatMap (tokenBytes index kv.1)) =
      (rowsOf entries).flatMap fun row => tokenBytes index row.1 row.2 := by
  rw [rowsOf, List.flatMap_assoc]
  refine List.flatMap_congr fun kv _ => ?_
  rw [List.flatMap_map]

theorem sorted_rowsOf (dic : TokenMap) :
    (rowsOf dic.entries).Pairwise fun row row' => ¬ bytesLess row'.1 row.1 := by
  rw [rowsOf, List.pairwise_flatMap]
  refine ⟨fun kv _ => ?_, dic.sorted.imp fun hless row hrow row' hrow' => ?_⟩
  · rw [List.pairwise_map]
    exact List.pairwise_of_forall fun _ _ => bytesLess_irrefl _
  · obtain ⟨_, -, rfl⟩ := List.mem_map.mp hrow
    obtain ⟨_, -, rfl⟩ := List.mem_map.mp hrow'
    exact fun hgreater => bytesLess_irrefl _ (bytesLess_trans hless hgreater)

theorem filter_rowsOf {entries : List (Bytes × List CompilerToken)} (key : Bytes)
    (hsorted : entries.Pairwise fun kv kv' => bytesLess kv.1 kv'.1) :
    ((rowsOf entries).filter fun row => row.1 = key).map Prod.snd =
      ((entries.find? fun kv => kv.1 = key).map Prod.snd).getD [] := by
  induction hsorted with
  | nil => rfl
  | @cons kv entries hall _ ih =>
    have hrows : rowsOf (kv :: entries) = kv.2.map (fun token => (kv.1, token)) ++ rowsOf entries :=
      List.flatMap_cons
    rw [hrows, List.filter_append, List.map_append, ih, List.filter_map]
    simp only [Function.comp_def]
    by_cases hkey : kv.1 = key
    · have hnone : entries.find? (fun kv => kv.1 = key) = none := by
        refine Lib.find?_of_forall_ne fun kv' hmem heq => ?_
        have hless := hall kv' hmem
        rw [hkey, heq] at hless
        exact bytesLess_irrefl key hless
      rw [hnone, Lib.find?_cons_key, if_pos hkey,
        List.filter_eq_self.mpr fun token _ => decide_eq_true hkey, List.map_map]
      exact (List.append_nil _).trans (List.map_id _)
    · rw [Lib.find?_cons_key, if_neg hkey,
        List.filter_eq_nil_iff.mpr fun token _ h => hkey (of_decide_eq_true h)]
      rfl

end rows

/-! The images. -/

section images

variable {dic : TokenMap} {row : Bytes × CompilerToken} {i : Nat}

def tokenArrayOf (dic : TokenMap) : Bytes :=
  (rowsOf dic.entries).flatMap fun row =>
    tokenBytes (stringIndex (collectStrings dic.entries)) row.1 row.2

def stringArrayOf (dic : TokenMap) : Bytes :=
  SerializedStringArray.imageOf (collectStrings dic.entries)

/-- The strings of the map have an image with signed offsets. -/
def Fits (dic : TokenMap) : Prop :=
  SerializedStringArray.totalSize (collectStrings dic.entries) + 3 < 2 ^ 31

instance (dic : TokenMap) : Decidable (Fits dic) := inferInstanceAs (Decidable (_ < _))

theorem Fits.length_lt (h : Fits dic) : (collectStrings dic.entries).length < 2 ^ 31 := by
  rw [Fits, SerializedStringArray.totalSize] at h
  omega

theorem compile_eq (h : Fits dic) : compile dic = some (tokenArrayOf dic, stringArrayOf dic) := by
  have hlength := h.length_lt
  rw [compile, tokenArray_eq, if_neg (by omega), SerializedStringArray.serializeToBuffer_eq h]
  rfl

theorem dataAt_stringIndex (h : Fits dic) {str : Bytes} (hmem : str ∈ collectStrings dic.entries) :
    stringIndex (collectStrings dic.entries) str < (collectStrings dic.entries).length ∧
      SerializedStringArray.dataAt (stringArrayOf dic)
        (stringIndex (collectStrings dic.entries) str) = some str := by
  have hlength := h.length_lt
  have hget := getElem?_stringIndex (by omega) hmem
  exact ⟨(List.getElem?_eq_some_iff.mp hget).1, SerializedStringArray.dataAt_imageOf h hget⟩

theorem mem_collectStrings_of_row (hrow : row ∈ rowsOf dic.entries) :
    row.1 ∈ collectStrings dic.entries ∧ row.2.value ∈ collectStrings dic.entries ∧
      row.2.description ∈ collectStrings dic.entries ∧
      row.2.additionalDescription ∈ collectStrings dic.entries := by
  obtain ⟨kv, hkv, hmem⟩ := List.mem_flatMap.mp hrow
  obtain ⟨token, htoken, rfl⟩ := List.mem_map.mp hmem
  have hstr : ∀ str, str ∈ [token.value, token.description, token.additionalDescription] →
      str ∈ collectStrings dic.entries := by
    intro str hstr
    refine mem_collectStrings.mpr (List.mem_flatMap.mpr ⟨kv, hkv, List.mem_cons_of_mem _ ?_⟩)
    exact List.mem_flatMap.mpr ⟨token, htoken, hstr⟩
  refine ⟨mem_collectStrings.mpr (List.mem_flatMap.mpr ⟨kv, hkv, List.mem_cons_self⟩), ?_, ?_, ?_⟩
  · exact hstr _ (by simp)
  · exact hstr _ (by simp)
  · exact hstr _ (by simp)

theorem length_tokenArrayOf (dic : TokenMap) :
    (tokenArrayOf dic).length = kTokenByteLength * (rowsOf dic.entries).length := by
  rw [tokenArrayOf, List.length_flatMap, List.map_congr_left fun row _ => length_tokenBytes _ _ _,
    List.map_const', List.sum_replicate, smul_eq_mul, Nat.mul_comm]

theorem loadLe_tokenArrayOf {width place : Nat} (hrow : (rowsOf dic.entries)[i]? = some row)
    (h : place + width ≤ kTokenByteLength) :
    loadLe width (tokenArrayOf dic) (kTokenByteLength * i + place) =
      loadLe width (tokenBytes (stringIndex (collectStrings dic.entries)) row.1 row.2) place :=
  loadLe_flatMap (fun _ => length_tokenBytes _ _ _) hrow h

theorem stringIndex_lt (strs : List Bytes) (str : Bytes) : stringIndex strs str < 2 ^ 32 :=
  Nat.mod_lt _ (by decide)

theorem stringOf_eq (h : Fits dic) {place : Nat} {str : Bytes}
    (hload : loadLe 4 (tokenArrayOf dic) (kTokenByteLength * i + place) =
      some (stringIndex (collectStrings dic.entries) str))
    (hmem : str ∈ collectStrings dic.entries) :
    stringOf (tokenArrayOf dic) (stringArrayOf dic) i place = some str := by
  rw [stringOf, loadUint32_eq_loadLe, hload]
  exact (dataAt_stringIndex h hmem).2

theorem keyOf_eq (h : Fits dic) (hrow : (rowsOf dic.entries)[i]? = some row) :
    keyOf (tokenArrayOf dic) (stringArrayOf dic) i = some row.1 := by
  obtain ⟨hkey, -⟩ := loadLe_tokenBytes (stringIndex_lt (collectStrings dic.entries)) row.1 row.2
  refine stringOf_eq h ?_ (mem_collectStrings_of_row (List.mem_of_getElem? hrow)).1
  rw [loadLe_tokenArrayOf hrow (by decide), hkey]

theorem tokenOf_eq (h : Fits dic) (hrow : (rowsOf dic.entries)[i]? = some row) :
    tokenOf (tokenArrayOf dic) (stringArrayOf dic) i = some row.2 := by
  obtain ⟨-, hvalue, hdescription, hadditional, hlid, hrid, hcost⟩ :=
    loadLe_tokenBytes (stringIndex_lt (collectStrings dic.entries)) row.1 row.2
  obtain ⟨-, hmemValue, hmemDescription, hmemAdditional⟩ :=
    mem_collectStrings_of_row (List.mem_of_getElem? hrow)
  have hnumber : ∀ {place : Nat} {x : UInt16},
      loadLe 2 (tokenBytes (stringIndex (collectStrings dic.entries)) row.1 row.2) place =
        some x.toNat → place + 2 ≤ kTokenByteLength →
      numberOf (tokenArrayOf dic) i place = some x := by
    intro place x hload hplace
    rw [numberOf, loadLe_tokenArrayOf hrow hplace, hload, Option.map_some, UInt16.ofNat_toNat]
  rw [tokenOf, stringOf_eq h ((loadLe_tokenArrayOf hrow (by decide)).trans hvalue) hmemValue,
    stringOf_eq h ((loadLe_tokenArrayOf hrow (by decide)).trans hdescription) hmemDescription,
    stringOf_eq h ((loadLe_tokenArrayOf hrow (by decide)).trans hadditional) hmemAdditional,
    hnumber hlid (by decide), hnumber hrid (by decide), hnumber hcost (by decide)]
  simp only [Option.bind_eq_bind, Option.bind_some]
  rfl

theorem verifyTokens_eq (h : Fits dic) (count i : Nat) (hle : i + count = (rowsOf dic.entries).length) :
    verifyTokens (tokenArrayOf dic) (collectStrings dic.entries).length count i = some true := by
  induction count generalizing i with
  | zero => rfl
  | succ count ih =>
    have hi : i < (rowsOf dic.entries).length := by omega
    have hrow : (rowsOf dic.entries)[i]? = some (rowsOf dic.entries)[i] := List.getElem?_eq_getElem hi
    generalize (rowsOf dic.entries)[i] = row at hrow
    obtain ⟨hkey, hvalue, hdescription, hadditional, -⟩ :=
      loadLe_tokenBytes (stringIndex_lt (collectStrings dic.entries)) row.1 row.2
    obtain ⟨hmemKey, hmemValue, hmemDescription, hmemAdditional⟩ :=
      mem_collectStrings_of_row (List.mem_of_getElem? hrow)
    have hload : ∀ {place index : Nat},
        loadLe 4 (tokenBytes (stringIndex (collectStrings dic.entries)) row.1 row.2) place = some index →
          place + 4 ≤ kTokenByteLength →
            loadUint32 (tokenArrayOf dic) (kTokenByteLength * i + place) = some index :=
      fun hat hplace => (loadLe_tokenArrayOf hrow hplace).trans hat
    have hkeyLoad : loadUint32 (tokenArrayOf dic) (kTokenByteLength * i) =
        some (stringIndex (collectStrings dic.entries) row.1) := hload hkey (by decide)
    rw [verifyTokens, hkeyLoad, hload hvalue (by decide), hload hdescription (by decide),
      hload hadditional (by decide)]
    simp only [Option.bind_eq_bind, Option.bind_some]
    have hkeyLt := (dataAt_stringIndex h hmemKey).1
    have hvalueLt := (dataAt_stringIndex h hmemValue).1
    have hdescriptionLt := (dataAt_stringIndex h hmemDescription).1
    have hadditionalLt := (dataAt_stringIndex h hmemAdditional).1
    rw [if_neg (by omega)]
    exact ih (i + 1) (by omega)

theorem verifyData_eq (h : Fits dic) :
    verifyData (tokenArrayOf dic) (stringArrayOf dic) = some true := by
  have hcount : (tokenArrayOf dic).length / kTokenByteLength = (rowsOf dic.entries).length := by
    rw [length_tokenArrayOf, Nat.mul_div_cancel_left _ (by decide)]
  have hsize : SerializedStringArray.size (stringArrayOf dic) = (collectStrings dic.entries).length := by
    have hlt : SerializedStringArray.totalSize (collectStrings dic.entries) < 2 ^ 32 := by
      rw [Fits] at h
      omega
    exact SerializedStringArray.size_imageOf hlt
  have hverify : SerializedStringArray.verifyData (stringArrayOf dic) = some true :=
    SerializedStringArray.verifyData_imageOf h
  rw [verifyData, if_neg (by rw [length_tokenArrayOf, Nat.mul_mod_right]; exact not_not.mpr rfl), hverify,
    hsize, hcount]
  exact verifyTokens_eq h _ 0 (Nat.zero_add _)

theorem mapM_range'_tokenOf (h : Fits dic) (lower count : Nat)
    (hle : lower + count ≤ (rowsOf dic.entries).length) :
    (List.range' lower count).mapM (tokenOf (tokenArrayOf dic) (stringArrayOf dic)) =
      some ((((rowsOf dic.entries).drop lower).take count).map Prod.snd) := by
  induction count generalizing lower with
  | zero => rfl
  | succ count ih =>
    have hlower : lower < (rowsOf dic.entries).length := by omega
    rw [List.range'_succ, List.mapM_cons, tokenOf_eq h (List.getElem?_eq_getElem hlower),
      ih (lower + 1) (by omega), List.drop_eq_getElem_cons hlower, List.take_succ_cons, List.map_cons]
    rfl

theorem lookup_eq (h : Fits dic) (key : Bytes) :
    lookup (tokenArrayOf dic) (stringArrayOf dic) key = some (dic.tokensOf key) := by
  have hcount : (tokenArrayOf dic).length / kTokenByteLength = (rowsOf dic.entries).length := by
    rw [length_tokenArrayOf, Nat.mul_div_cancel_left _ (by decide)]
  have hless : (rowsOf dic.entries).Pairwise fun row row' =>
      bytesLess row'.1 key → bytesLess row.1 key := by
    refine (sorted_rowsOf dic).imp fun hsorted hlt => ?_
    rw [not_bytesLess_iff] at hsorted
    exact bytesLess_iff.mpr (hsorted.trans_lt (bytesLess_iff.mp hlt))
  have hnotGreater : (rowsOf dic.entries).Pairwise fun row row' =>
      !bytesLess key row'.1 → !bytesLess key row.1 := by
    refine (sorted_rowsOf dic).imp fun hsorted hle => ?_
    rw [Bool.not_eq_true', ← Bool.not_eq_true] at hle ⊢
    rw [not_bytesLess_iff] at hsorted hle ⊢
    exact hsorted.trans hle
  have hrange : equalRange (tokenArrayOf dic) (stringArrayOf dic) key =
      some ((rowsOf dic.entries).countP fun row => bytesLess row.1 key,
        (rowsOf dic.entries).countP fun row => !bytesLess key row.1) := by
    rw [equalRange, Lib.equalRange, hcount, Lib.partitionPoint_countP hless fun i row hrow => by
        rw [keyOf_eq h hrow, Option.map_some],
      Lib.partitionPoint_countP hnotGreater fun i row hrow => by
        rw [keyOf_eq h hrow, Option.map_some, Option.map_some]]
    rfl
  have hle : ∀ row : Bytes × CompilerToken, bytesLess row.1 key → !bytesLess key row.1 := by
    intro row hlt
    rw [Bool.not_eq_true', ← Bool.not_eq_true]
    exact fun hgt => bytesLess_irrefl _ (bytesLess_trans hlt hgt)
  rw [lookup, hrange]
  simp only [Option.bind_eq_bind, Option.bind_some]
  have hcountLe := List.countP_le_length (p := fun row : Bytes × CompilerToken => !bytesLess key row.1)
    (l := rowsOf dic.entries)
  have hcountLe' := List.countP_le_length (p := fun row : Bytes × CompilerToken => bytesLess row.1 key)
    (l := rowsOf dic.entries)
  rw [mapM_range'_tokenOf h _ _ (by omega), Lib.take_drop_countP hless hnotGreater hle,
    TokenMap.tokensOf, ← filter_rowsOf key dic.sorted]
  congr 3
  funext row
  rw [Bool.eq_iff_iff, Bool.and_eq_true, Bool.not_eq_true', Bool.not_eq_true', decide_eq_true_iff,
    ← Bool.not_eq_true, ← Bool.not_eq_true]
  constructor
  · rintro ⟨hge, hle⟩
    exact (eq_of_not_bytesLess hge hle).symm
  · rintro rfl
    exact ⟨bytesLess_irrefl _, bytesLess_irrefl _⟩

end images

/-- A map whose strings fit into an image is compiled correctly. -/
theorem compilesCorrectly_of_fits (dic : TokenMap) (h : Fits dic) : CompilesCorrectly dic :=
  ⟨_, _, compile_eq h, verifyData_eq h, lookup_eq h⟩

/-- A map with a value and nothing else. -/
def singleton (value : Bytes) : TokenMap where
  entries := [([], [{ value, description := [], additionalDescription := [], lid := 1, rid := 2, cost := 3 }])]
  sorted := List.pairwise_singleton _ _

theorem singleton_compilesCorrectly : Fits (singleton [0x61]) ∧ CompilesCorrectly (singleton [0x61]) :=
  ⟨by decide, compilesCorrectly_of_fits (singleton [0x61]) (by decide)⟩

theorem collectStrings_singleton {value : Bytes} (h : value ≠ []) :
    collectStrings (singleton value).entries = [[], value] := by
  cases value with
  | nil => exact absurd rfl h
  | cons c value =>
    have hless : bytesLess [] (c :: value) = true := by simp [bytesLess]
    have hnot : bytesLess (c :: value) [] = false := by simp [bytesLess]
    have hirrefl : bytesLess [] [] = false := by simp [bytesLess]
    simp [collectStrings, singleton, entryStrings, insertString, hless, hnot, hirrefl]

/-- A value of 2^31 bytes is not compiled. -/
theorem not_compilesCorrectly_large : ¬ CompilesCorrectly (singleton (List.replicate (2 ^ 31) 0)) := by
  have hne : List.replicate (2 ^ 31) (0 : UInt8) ≠ [] :=
    List.ne_nil_of_length_pos (by rw [List.length_replicate]; exact Nat.two_pow_pos 31)
  have hstrings := collectStrings_singleton hne
  have htotal : SerializedStringArray.totalSize [[], List.replicate (2 ^ 31) (0 : UInt8)] =
      2 ^ 31 + 22 := by
    rw [SerializedStringArray.totalSize, SerializedStringArray.stringsSize_cons,
      SerializedStringArray.stringsSize_cons, SerializedStringArray.stringsSize_nil, List.length_replicate]
    rfl
  have hnone := SerializedStringArray.serializeToBuffer_eq_none
    (show SerializedStringArray.totalSize [[], List.replicate (2 ^ 31) (0 : UInt8)] < 2 ^ 32 by omega)
    (by omega)
  rintro ⟨tokenArray, stringArray, hcompile, -⟩
  rw [compile, hstrings, hnone] at hcompile
  split at hcompile <;> cases hcompile

end Mozkey.DataManager
