import Mozkey.Base.Container.TrieCorrect
import Mozkey.Base.Utf8Bytes

/-! The trie with arbitrary bytes as keys.  Where no character can be read from a key, the rest of it
counts as the character zero. -/

namespace Mozkey.Base

open Storage

namespace Trie

variable {α : Type} {t sub : Trie α} {c : Nat}

section depth

mutual

/-- The bytes that a walk through the trie can look at. -/
def depth : Trie α → Nat
  | .node trie _ => subDepth trie + maxCharLen

def subDepth : List (Nat × Trie α) → Nat
  | [] => 0
  | (_, t) :: trie => max (depth t) (subDepth trie)

end

theorem depth_le_subDepth {trie : List (Nat × Trie α)} {x : Nat × Trie α} (h : x ∈ trie) :
    x.2.depth ≤ subDepth trie := by
  induction trie with
  | nil => cases h
  | cons y trie ih =>
    obtain ⟨c, t⟩ := y
    rw [subDepth]
    cases h with
    | head => exact Nat.le_max_left _ _
    | tail _ hmem => exact Nat.le_trans (ih hmem) (Nat.le_max_right _ _)

theorem depth_of_find (h : t.find c = some sub) : sub.depth + maxCharLen ≤ t.depth := by
  have hmem := depth_le_subDepth (mem_of_find h)
  cases t with
  | node trie data =>
    rw [depth]
    exact Nat.add_le_add_right hmem maxCharLen

theorem maxCharLen_le_depth (t : Trie α) : maxCharLen ≤ t.depth := by
  cases t with
  | node trie data =>
    rw [depth]
    exact Nat.le_add_left _ _

theorem allData_subset_allSubData {trie : List (Nat × Trie α)} {x : Nat × Trie α} (h : x ∈ trie) :
    x.2.allData ⊆ allSubData trie := by
  induction trie with
  | nil => cases h
  | cons y trie ih =>
    obtain ⟨c, t⟩ := y
    rw [allSubData]
    cases h with
    | head => exact List.subset_append_left _ _
    | tail _ hmem => exact List.subset_append_of_subset_right _ (ih hmem)

theorem allData_of_find (h : t.find c = some sub) : sub.allData ⊆ t.allData := by
  have hmem := allData_subset_allSubData (mem_of_find h)
  cases t with
  | node trie data =>
    rw [allData]
    exact List.subset_append_of_subset_right _ hmem

theorem data_mem_allData {v : α} (h : t.data = some v) : v ∈ t.allData := by
  cases t with
  | node trie data =>
    rw [allData]
    apply List.mem_append_left
    rw [show data = some v from h]
    exact List.mem_singleton_self v

end depth

section characters

/-- The characters along which a key is looked up. -/
def keyChars (key : Bytes) : List Nat :=
  if key = [] then [] else (firstChar key).1 :: keyChars (firstChar key).2
termination_by key.length
decreasing_by exact length_firstChar_lt ‹_›

theorem keyChars_nil : keyChars [] = [] := by rw [keyChars, if_pos rfl]

theorem keyChars_of_ne {key : Bytes} (hkey : key ≠ []) :
    keyChars key = (firstChar key).1 :: keyChars (firstChar key).2 := by
  rw [keyChars, if_neg hkey]

theorem keyChars_eq_nil {key : Bytes} : keyChars key = [] ↔ key = [] := by
  by_cases hkey : key = []
  · rw [hkey, keyChars_nil, eq_self, eq_self]
  · rw [keyChars_of_ne hkey]
    exact iff_of_false (List.cons_ne_nil _ _) hkey

theorem lookUp_empty (key : Bytes) : lookUp key (empty : Trie α) = none := by
  rw [lookUp]
  split
  · rfl
  · rfl

theorem lookUp_addEntry (t : Trie α) (key key' : Bytes) (v : α) :
    lookUp key' (t.addEntry key v) =
      if keyChars key' = keyChars key then some v else lookUp key' t := by
  induction hn : key.length using Nat.strong_induction_on generalizing t key key' with
  | _ n ih =>
    subst hn
    by_cases hkey : key = []
    · rw [addEntry, if_pos hkey, hkey, keyChars_nil]
      by_cases hkey' : key' = []
      · rw [hkey', keyChars_nil, if_pos rfl, lookUp, if_pos rfl]
        rfl
      · rw [if_neg fun h => hkey' (keyChars_eq_nil.mp h), lookUp, if_neg hkey', lookUp, if_neg hkey']
        rfl
    rw [addEntry, if_neg hkey]
    dsimp only
    by_cases hkey' : key' = []
    · rw [hkey', keyChars_nil, if_neg fun h => hkey (keyChars_eq_nil.mp h.symm), lookUp, if_pos rfl,
        data_setSubTrie, lookUp, if_pos rfl]
    rw [lookUp, if_neg hkey', find_setSubTrie, keyChars_of_ne hkey', keyChars_of_ne hkey, lookUp,
      if_neg hkey']
    by_cases hfirst : (firstChar key').1 = (firstChar key).1
    · rw [if_pos hfirst]
      dsimp only
      rw [ih _ (length_firstChar_lt hkey) _ _ _ rfl, hfirst]
      simp only [List.cons.injEq, true_and]
      cases t.find (firstChar key).1 with
      | none => rw [Option.getD_none, lookUp_empty]
      | some sub => rfl
    · rw [if_neg hfirst, if_neg fun h => hfirst (List.cons.inj h).1]

end characters

section prefixes

theorem lookUpPrefix_nil : lookUpPrefix [] t = (t.data, 0, t.data.isNone || t.subTries.isEmpty) := by
  rw [lookUpPrefix, if_pos rfl]

theorem lookUpPrefix_of_find_none {key rest : Bytes} (hfirst : firstChar key = (c, rest))
    (h : t.find c = none) :
    lookUpPrefix key t = (t.data, 0, t.data.isNone || t.subTries.isEmpty) := by
  rw [lookUpPrefix, hfirst, h]
  exact ite_self _

theorem lookUpPrefix_of_find {key rest : Bytes} (hkey : key ≠ []) (hfirst : firstChar key = (c, rest))
    (h : t.find c = some sub) :
    (lookUpPrefix key t).1 = (lookUpPrefix rest sub).1 ∧
      (lookUpPrefix key t).2.1 = (lookUpPrefix rest sub).2.1 + (key.length - rest.length) := by
  rw [lookUpPrefix, if_neg hkey, hfirst, h]
  exact ⟨rfl, rfl⟩

theorem mem_allData_of_lookUpPrefix {key : Bytes} {v : α} (h : (lookUpPrefix key t).1 = some v) :
    v ∈ t.allData := by
  induction hn : key.length using Nat.strong_induction_on generalizing t key with
  | _ n ih =>
    subst hn
    by_cases hkey : key = []
    · rw [hkey, lookUpPrefix_nil] at h
      exact data_mem_allData h
    rcases hfirst : firstChar key with ⟨c, rest⟩
    have hlt : rest.length < key.length := by
      have hfirstLt := length_firstChar_lt hkey
      rwa [hfirst] at hfirstLt
    cases hfind : t.find c with
    | none =>
      rw [lookUpPrefix_of_find_none hfirst hfind] at h
      exact data_mem_allData h
    | some sub =>
      rw [(lookUpPrefix_of_find hkey hfirst hfind).1] at h
      exact allData_of_find hfind (ih _ hlt h rfl)

theorem mem_allData_of_lookUp {key : Bytes} {v : α} (h : lookUp key t = some v) : v ∈ t.allData := by
  induction hn : key.length using Nat.strong_induction_on generalizing t key with
  | _ n ih =>
    subst hn
    rw [lookUp] at h
    split at h
    · exact data_mem_allData h
    · rename_i hkey
      cases hfind : t.find (firstChar key).1 with
      | none =>
        rw [hfind] at h
        cases h
      | some sub =>
        rw [hfind] at h
        exact allData_of_find hfind (ih _ (length_firstChar_lt hkey) h rfl)

theorem lookUpPrefix_length_le (key : Bytes) (t : Trie α) :
    (lookUpPrefix key t).2.1 ≤ key.length := by
  induction hn : key.length using Nat.strong_induction_on generalizing t key with
  | _ n ih =>
    subst hn
    by_cases hkey : key = []
    · rw [hkey, lookUpPrefix_nil]
      exact Nat.zero_le _
    rcases hfirst : firstChar key with ⟨c, rest⟩
    have hlt : rest.length < key.length := by
      have hfirstLt := length_firstChar_lt hkey
      rwa [hfirst] at hfirstLt
    cases hfind : t.find c with
    | none =>
      rw [lookUpPrefix_of_find_none hfirst hfind]
      exact Nat.zero_le _
    | some sub =>
      have hrest := ih _ hlt rest sub rfl
      rw [(lookUpPrefix_of_find hkey hfirst hfind).2]
      omega

theorem lookUpPrefix_of_unused {key : Bytes} (h : (lookUpPrefix key t).2.1 = 0) :
    (lookUpPrefix key t).1 = t.data := by
  by_cases hkey : key = []
  · rw [hkey, lookUpPrefix_nil]
  rcases hfirst : firstChar key with ⟨c, rest⟩
  cases hfind : t.find c with
  | none => rw [lookUpPrefix_of_find_none hfirst hfind]
  | some sub =>
    have hlt : rest.length < key.length := by
      have hfirstLt := length_firstChar_lt hkey
      rwa [hfirst] at hfirstLt
    rw [(lookUpPrefix_of_find hkey hfirst hfind).2] at h
    omega

theorem take_eq_of_le {s s' : Bytes} {m n : Nat} (hmn : m ≤ n) (h : s.take n = s'.take n) :
    s.take m = s'.take m := by
  rw [← Nat.min_eq_left hmn, ← List.take_take, h, List.take_take]

theorem splitFirstChar32_of_take_eq {s s' : Bytes} (hs : maxCharLen ≤ s.length)
    (h : s.take maxCharLen = s'.take maxCharLen)
    (hsplit : splitFirstChar32 s = none) : splitFirstChar32 s' = none := by
  have htake : maxCharLen ≤ (s.take maxCharLen).length := by
    rw [List.length_take]
    omega
  rw [← List.take_append_drop maxCharLen s, splitFirstChar32_append htake] at hsplit
  rw [← List.take_append_drop maxCharLen s', ← h, splitFirstChar32_append htake,
    Option.map_eq_none_iff.mp hsplit, Option.map_none]

theorem lookUpPrefix_local {key key' : Bytes} (hkey : t.depth ≤ key.length)
    (hkey' : t.depth ≤ key'.length) (h : key.take t.depth = key'.take t.depth) :
    (lookUpPrefix key t).1 = (lookUpPrefix key' t).1 ∧
      ((lookUpPrefix key t).2.1 ≤ t.depth ∧
          (lookUpPrefix key t).2.1 = (lookUpPrefix key' t).2.1 ∨
        (lookUpPrefix key t).2.1 = key.length ∧ (lookUpPrefix key' t).2.1 = key'.length) := by
  induction hn : key.length using Nat.strong_induction_on generalizing t key key' with
  | _ n ih =>
    subst hn
    have hdepth := maxCharLen_le_depth t
    have hne : key ≠ [] := by
      rintro rfl
      rw [maxCharLen, List.length_nil] at *
      omega
    have hne' : key' ≠ [] := by
      rintro rfl
      rw [maxCharLen, List.length_nil] at *
      omega
    cases hsplit : splitFirstChar32 key with
    | none =>
      -- No character can be read from the other key either, and all of both is passed over.
      have hsplit' := splitFirstChar32_of_take_eq (Nat.le_trans hdepth hkey) (take_eq_of_le hdepth h)
        hsplit
      have hfirst : firstChar key = (0, []) := by rw [firstChar, hsplit, Option.getD_none]
      have hfirst' : firstChar key' = (0, []) := by rw [firstChar, hsplit', Option.getD_none]
      cases hfind : t.find 0 with
      | none =>
        rw [lookUpPrefix_of_find_none hfirst hfind, lookUpPrefix_of_find_none hfirst' hfind]
        exact ⟨rfl, .inl ⟨Nat.zero_le _, rfl⟩⟩
      | some sub =>
        obtain ⟨hdata, hlength⟩ := lookUpPrefix_of_find hne hfirst hfind
        obtain ⟨hdata', hlength'⟩ := lookUpPrefix_of_find hne' hfirst' hfind
        rw [lookUpPrefix_nil] at hdata hlength hdata' hlength'
        refine ⟨hdata.trans hdata'.symm, .inr ⟨?_, ?_⟩⟩
        · rw [hlength, List.length_nil, Nat.sub_zero, Nat.zero_add]
        · rw [hlength', List.length_nil, Nat.sub_zero, Nat.zero_add]
    | some r =>
      obtain ⟨c, rest⟩ := r
      obtain ⟨head, rfl, hpos, hmax, hhead⟩ := splitFirstChar32_some hsplit
      obtain ⟨rest', rfl⟩ : ∃ rest', key' = head ++ rest' := by
        refine ⟨key'.drop head.length, ?_⟩
        have hsame := take_eq_of_le (Nat.le_trans hmax hdepth) h
        rw [List.take_left] at hsame
        nth_rw 1 [← List.take_append_drop head.length key', ← hsame]
      have hfirst : firstChar (head ++ rest) = (c, rest) := by rw [firstChar, hhead, Option.getD_some]
      have hfirst' : firstChar (head ++ rest') = (c, rest') := by
        rw [firstChar, hhead, Option.getD_some]
      cases hfind : t.find c with
      | none =>
        rw [lookUpPrefix_of_find_none hfirst hfind, lookUpPrefix_of_find_none hfirst' hfind]
        exact ⟨rfl, .inl ⟨Nat.zero_le _, rfl⟩⟩
      | some sub =>
        obtain ⟨hdata, hlength⟩ := lookUpPrefix_of_find hne hfirst hfind
        obtain ⟨hdata', hlength'⟩ := lookUpPrefix_of_find hne' hfirst' hfind
        have hsub := depth_of_find hfind
        simp only [List.length_append, Nat.add_sub_cancel] at hkey hkey' hlength hlength' ih ⊢
        have hrest : rest.take sub.depth = rest'.take sub.depth := by
          have hlonger := take_eq_of_le (show head.length + sub.depth ≤ t.depth by omega) h
          rw [List.take_length_add_append, List.take_length_add_append] at hlonger
          exact List.append_cancel_left hlonger
        obtain ⟨hih, hlengths⟩ := ih rest.length (by omega) (show sub.depth ≤ rest.length by omega)
          (show sub.depth ≤ rest'.length by omega) hrest rfl
        refine ⟨by rw [hdata, hdata', hih], ?_⟩
        rcases hlengths with ⟨hle, heq⟩ | ⟨hall, hall'⟩
        · exact .inl ⟨by omega, by omega⟩
        · exact .inr ⟨by omega, by omega⟩

end prefixes

end Trie

end Mozkey.Base
