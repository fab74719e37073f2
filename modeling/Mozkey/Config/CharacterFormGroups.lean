import Mozkey.Config.CharacterFormManager

/-! Groups of characters whose forms follow each other: the rules for which they do, over all calls
that change the shared storage, and an `LruStorage` as such a storage. -/

namespace Mozkey.Config

open Base Storage

namespace CharacterFormManagerImpl

section group

variable {m : CharacterFormManagerImpl} {storage : FormStorage} {c x key : UInt16}
  {form : CharacterForm}

def group (m : CharacterFormManagerImpl) (ucs2 : UInt16) : List UInt16 :=
  (m.groupTable.lookup ucs2).getD [ucs2]

def KeepsLast (m : CharacterFormManagerImpl) (ucs2 : UInt16) : Prop :=
  ucs2 ≠ 0 ∧ m.conversionTable.lookup ucs2 = some .lastForm

/-- The groups of the characters with last forms have either both or none of two characters of
one group. -/
def GroupsAgree (m : CharacterFormManagerImpl) : Prop :=
  ∀ c x y, m.KeepsLast c → m.KeepsLast x → m.KeepsLast y → y ∈ m.group c →
    (y ∈ m.group x ↔ c ∈ m.group x)

theorem foldl_insert (group : List UInt16) (value : Value) (storage : FormStorage) :
    group.foldl (fun storage key => storage.insert key value) storage key =
      if key ∈ group then some value else storage key := by
  induction group generalizing storage with
  | nil => rfl
  | cons c group ih =>
    rw [List.foldl_cons, ih, FormStorage.insert, Function.update_apply]
    by_cases hkey : key = c <;> by_cases hin : key ∈ group <;> simp [hkey, hin]

theorem save_of_matches (h : Matches storage c form) :
    m.saveCharacterFormToStorage storage c form = storage := by
  obtain ⟨value, hvalue, hform⟩ := h
  rw [saveCharacterFormToStorage]
  split
  · rfl
  · rw [if_pos (by rw [hvalue]; exact decide_eq_true hform)]

theorem save_of_not_matches (hform : form.Width)
    (h : ¬ Matches storage c form) (key : UInt16) :
    m.saveCharacterFormToStorage storage c form key =
      if key ∈ m.group c then some (storeUnaligned form.toUInt32) else storage key := by
  have hnamed : ¬ (form ≠ .fullWidth ∧ form ≠ .halfWidth) := fun hne => hform.elim hne.1 hne.2
  have hnew : ¬ (storage c).any (fun value => CharacterForm.ofUInt32 value[0].toUInt32 = form) := by
    intro hany
    cases hvalue : storage c with
    | none => rw [hvalue] at hany; cases hany
    | some value =>
      rw [hvalue] at hany
      exact h ⟨value, hvalue, of_decide_eq_true hany⟩
  rw [saveCharacterFormToStorage, if_neg hnamed, if_neg hnew, group]
  cases m.groupTable.lookup c with
  | none =>
    show (storage.insert c _) key = if key ∈ [c] then _ else _
    rw [FormStorage.insert, Function.update_apply]
    simp only [List.mem_singleton]
  | some group => exact foldl_insert group _ storage

theorem matches_iff {form' : CharacterForm} (hform' : form'.Width)
    (h : storage c = some (storeUnaligned form'.toUInt32)) : Matches storage c form ↔ form' = form := by
  rw [← hform'.firstByte]
  constructor
  · rintro ⟨value, hvalue, hfirst⟩
    rw [h] at hvalue
    exact Option.some.inj hvalue ▸ hfirst
  · exact fun hfirst => ⟨_, h, hfirst⟩

theorem not_matches_of_none (h : storage c = none) : ¬ Matches storage c form := by
  rintro ⟨value, hvalue, -⟩
  exact Option.some_ne_none value (hvalue.symm.trans h)

theorem getFromStorage_of_none (h : storage c = none) :
    getCharacterFormFromStorage storage c = .fullWidth := by
  rw [getCharacterFormFromStorage, h]

theorem getFromStorage_of_some (hform : form.Width)
    (h : storage c = some (storeUnaligned form.toUInt32)) :
    getCharacterFormFromStorage storage c = form := by
  rw [getCharacterFormFromStorage, h]
  exact hform.load

/-- Characters with last forms that share a group share their entry, which is none or has a width. -/
structure InStep (m : CharacterFormManagerImpl) (storage : FormStorage) : Prop where
  width : ∀ c value, storage c = some value →
    ∃ form : CharacterForm, form.Width ∧ value = storeUnaligned form.toUInt32
  same : ∀ c y, m.KeepsLast c → m.KeepsLast y → y ∈ m.group c → storage y = storage c

theorem inStep_empty (m : CharacterFormManagerImpl) : m.InStep .empty :=
  ⟨fun _ _ h => (Option.some_ne_none _ h.symm).elim, fun _ _ _ _ _ => rfl⟩

theorem save_inStep (hagree : m.GroupsAgree) (hx : m.KeepsLast x) (h : m.InStep storage)
    (form : CharacterForm) : m.InStep (m.saveCharacterFormToStorage storage x form) := by
  by_cases hform : form.Width
  · by_cases hmatch : Matches storage x form
    · rwa [save_of_matches hmatch]
    · have hsave := save_of_not_matches (m := m) hform hmatch
      refine ⟨fun c value hvalue => ?_, fun c y hc hy hin => ?_⟩
      · rw [hsave] at hvalue
        split at hvalue
        · exact ⟨form, hform, (Option.some.inj hvalue).symm⟩
        · exact h.width c value hvalue
      · rw [hsave, hsave]
        simp only [hagree c x y hc hx hy hin, h.same c y hc hy hin]
  · have hother : form ≠ .fullWidth ∧ form ≠ .halfWidth := not_or.mp hform
    rwa [saveCharacterFormToStorage, if_pos hother]

theorem InStep.get_save (h : m.InStep storage) (hform : form.Width) (hx : m.KeepsLast x)
    (hkey : m.KeepsLast key) (hin : key ∈ m.group x) :
    getCharacterFormFromStorage (m.saveCharacterFormToStorage storage x form) key = form := by
  by_cases hmatch : Matches storage x form
  · rw [save_of_matches hmatch]
    obtain ⟨value, hvalue, hfirst⟩ := hmatch
    obtain ⟨form', hform', rfl⟩ := h.width x value hvalue
    rw [hform'.firstByte] at hfirst
    rw [← h.same x key hx hkey hin, hfirst] at hvalue
    exact getFromStorage_of_some hform hvalue
  · refine getFromStorage_of_some hform ?_
    rw [save_of_not_matches hform hmatch, if_pos hin]

end group

section rules

variable (halfWidthToFullWidth : Bytes → Bytes)

/-- What the tables of all rules keep: their characters are those of texts, and a group has the
characters that lead to it. -/
structure Grouped (m : CharacterFormManagerImpl) : Prop where
  text : ∀ c form, m.conversionTable.lookup c = some form →
    ∃ str, getNormalizedCharacter halfWidthToFullWidth str = c
  mem : ∀ c group, m.groupTable.lookup c = some group → c ∈ group

variable {halfWidthToFullWidth} {m : CharacterFormManagerImpl} {storage : FormStorage}

theorem mem_unique {c : UInt16} {group : List UInt16} (h : c ∈ unique group) : c ∈ group := by
  induction group using unique.induct with
  | case1 a group ih =>
    rw [unique, if_pos rfl] at h
    exact List.mem_cons_of_mem _ (ih h)
  | case2 a b group hne ih =>
    rw [unique, if_neg hne] at h
    rcases List.mem_cons.mp h with rfl | h
    · exact List.mem_cons_self
    · exact List.mem_cons_of_mem _ (ih h)
  | case3 group hgroup =>
    rcases group with _ | ⟨a, _ | ⟨b, group⟩⟩
    · exact h
    · exact h
    · exact (hgroup a b group rfl).elim

theorem Grouped.addGroup (h : Grouped halfWidthToFullWidth m) {group : List UInt16}
    (htext : ∀ c ∈ group, ∃ str, getNormalizedCharacter halfWidthToFullWidth str = c)
    (form : CharacterForm) : Grouped halfWidthToFullWidth (addGroup group form m) := by
  rw [CharacterFormManagerImpl.addGroup]
  suffices hfold : ∀ cs ⊆ group, ∀ m, Grouped halfWidthToFullWidth m →
      Grouped halfWidthToFullWidth (cs.foldl (fun m ucs2 => {
        conversionTable := m.conversionTable.insert ucs2 form
        groupTable := if group.length > 1 then m.groupTable.insert ucs2 group
          else m.groupTable }) m) from hfold group (List.Subset.refl _) m h
  intro cs hcs
  induction cs with
  | nil => exact fun m h => h
  | cons c cs ih =>
    intro m h
    have hc : c ∈ group := hcs List.mem_cons_self
    refine ih (fun x hx => hcs (List.mem_cons_of_mem _ hx)) _ ⟨fun x form' hx => ?_, fun x g hx => ?_⟩
    · rcases eq_or_ne x c with rfl | hne
      · exact htext x hc
      · exact h.text x form' (by rwa [AList.lookup_insert_ne hne] at hx)
    · by_cases hlen : group.length > 1
      · simp only [if_pos hlen] at hx
        rcases eq_or_ne x c with rfl | hne
        · rw [AList.lookup_insert] at hx
          exact Option.some.inj hx ▸ hc
        · exact h.mem x g (by rwa [AList.lookup_insert_ne hne] at hx)
      · simp only [if_neg hlen] at hx
        exact h.mem x g hx

theorem Grouped.addRule (h : Grouped halfWidthToFullWidth m) (key : Bytes) (form : CharacterForm) :
    Grouped halfWidthToFullWidth (m.addRule halfWidthToFullWidth key form) := by
  rw [CharacterFormManagerImpl.addRule]
  split
  · exact h
  split
  · exact h
  split
  · exact h
  refine h.addGroup (fun c hc => ?_) form
  have hmem := (List.mem_insertionSort _).mp (mem_unique hc)
  obtain ⟨str, -, hstr⟩ := List.mem_map.mp (List.mem_of_mem_filter hmem)
  exact ⟨str, hstr⟩

theorem grouped_addRules (rules : List (Bytes × CharacterForm)) :
    Grouped halfWidthToFullWidth (addRules halfWidthToFullWidth rules) := by
  suffices hfold : ∀ m, Grouped halfWidthToFullWidth m → Grouped halfWidthToFullWidth
      (rules.foldl (fun m rule => m.addRule halfWidthToFullWidth rule.1 rule.2) m) from
    hfold clear ⟨fun c form hc => (Option.some_ne_none _ hc.symm).elim,
      fun c group hc => (Option.some_ne_none _ hc.symm).elim⟩
  induction rules with
  | nil => exact fun m h => h
  | cons rule rules ih => exact fun m h => ih _ (h.addRule rule.1 rule.2)

theorem Grouped.self_mem_group (h : Grouped halfWidthToFullWidth m) (c : UInt16) :
    c ∈ m.group c := by
  rw [group]
  cases hc : m.groupTable.lookup c with
  | none => exact List.mem_singleton.mpr rfl
  | some group => exact h.mem c group hc

variable (halfWidthToFullWidth)

theorem set_of_keepsLast {str : Bytes}
    (h : m.KeepsLast (getNormalizedCharacter halfWidthToFullWidth str)) (form : CharacterForm) :
    m.setCharacterForm halfWidthToFullWidth storage str form =
      m.saveCharacterFormToStorage storage (getNormalizedCharacter halfWidthToFullWidth str) form := by
  rw [setCharacterForm]
  simp only [if_neg h.1, h.2]

theorem set_of_not_keepsLast {str : Bytes}
    (h : ¬ m.KeepsLast (getNormalizedCharacter halfWidthToFullWidth str)) (form : CharacterForm) :
    m.setCharacterForm halfWidthToFullWidth storage str form = storage := by
  rw [setCharacterForm]
  by_cases hzero : getNormalizedCharacter halfWidthToFullWidth str = 0
  · simp only [if_pos hzero]
  · simp only [if_neg hzero]
    split
    · rename_i hlast
      exact absurd ⟨hzero, hlast⟩ h
    · rfl

theorem get_of_keepsLast {str : Bytes}
    (h : m.KeepsLast (getNormalizedCharacter halfWidthToFullWidth str)) :
    m.getCharacterForm halfWidthToFullWidth storage str =
      getCharacterFormFromStorage storage (getNormalizedCharacter halfWidthToFullWidth str) := by
  rw [getCharacterForm]
  simp only [if_neg h.1, h.2]

theorem set_inStep (hagree : m.GroupsAgree) (h : m.InStep storage) (str : Bytes)
    (form : CharacterForm) : m.InStep (m.setCharacterForm halfWidthToFullWidth storage str form) := by
  by_cases hlast : m.KeepsLast (getNormalizedCharacter halfWidthToFullWidth str)
  · rw [set_of_keepsLast halfWidthToFullWidth hlast]
    exact save_inStep hagree hlast h form
  · rwa [set_of_not_keepsLast halfWidthToFullWidth hlast]

theorem guessAndSet_inStep (hagree : m.GroupsAgree) (h : m.InStep storage) (str : Bytes) :
    m.InStep (m.guessAndSetCharacterForm halfWidthToFullWidth storage str) := by
  rw [guessAndSetCharacterForm]
  split
  · exact set_inStep halfWidthToFullWidth hagree h str _
  · exact set_inStep halfWidthToFullWidth hagree h str _
  · exact h

end rules

end CharacterFormManagerImpl

namespace CharacterFormManager

open CharacterFormManagerImpl

section runs

variable {halfWidthToFullWidth : Bytes → Bytes} {m : CharacterFormManager}

theorem run_append (ops ops' : List Op) : run halfWidthToFullWidth m (ops ++ ops') =
    run halfWidthToFullWidth (run halfWidthToFullWidth m ops) ops' := List.foldl_append

theorem conversion_step (op : Op) :
    (step halfWidthToFullWidth m op).conversion = m.conversion := by
  cases op <;> rfl

theorem conversion_run (ops : List Op) :
    (run halfWidthToFullWidth m ops).conversion = m.conversion := by
  induction ops generalizing m with
  | nil => rfl
  | cons op ops ih => exact ih.trans (conversion_step op)

theorem step_inStep (hagree : m.conversion.GroupsAgree) (h : m.conversion.InStep m.storage)
    (op : Op) : m.conversion.InStep (step halfWidthToFullWidth m op).storage := by
  cases op with
  | setCharacterForm input form => exact set_inStep halfWidthToFullWidth hagree h input form
  | guessAndSetCharacterForm input => exact guessAndSet_inStep halfWidthToFullWidth hagree h input
  | clearHistory => exact inStep_empty m.conversion

theorem run_inStep (hagree : m.conversion.GroupsAgree) (h : m.conversion.InStep m.storage)
    (ops : List Op) : m.conversion.InStep (run halfWidthToFullWidth m ops).storage := by
  induction ops generalizing m with
  | nil => exact h
  | cons op ops ih =>
    have hconversion : (step halfWidthToFullWidth m op).conversion = m.conversion :=
      conversion_step op
    have hstep : m.conversion.InStep (step halfWidthToFullWidth m op).storage :=
      step_inStep hagree h op
    rw [← hconversion] at hagree hstep ⊢
    exact ih hagree hstep

theorem storage_run_set {input : Bytes}
    (h : m.conversion.KeepsLast (getNormalizedCharacter halfWidthToFullWidth input))
    (ops : List Op) (form : CharacterForm) :
    (run halfWidthToFullWidth m (ops ++ [.setCharacterForm input form])).storage =
      m.conversion.saveCharacterFormToStorage (run halfWidthToFullWidth m ops).storage
        (getNormalizedCharacter halfWidthToFullWidth input) form := by
  rw [run_append]
  show (run halfWidthToFullWidth m ops).conversion.setCharacterForm halfWidthToFullWidth _ input form = _
  rw [conversion_run, set_of_keepsLast halfWidthToFullWidth h]

theorem get_run {input : Bytes}
    (h : m.conversion.KeepsLast (getNormalizedCharacter halfWidthToFullWidth input))
    (ops : List Op) :
    (run halfWidthToFullWidth m ops).getConversionCharacterForm halfWidthToFullWidth input =
      getCharacterFormFromStorage (run halfWidthToFullWidth m ops).storage
        (getNormalizedCharacter halfWidthToFullWidth input) := by
  rw [getConversionCharacterForm, conversion_run, get_of_keepsLast halfWidthToFullWidth h]

variable (halfWidthToFullWidth)

/-- After every run, a form that is set for a character is then the form of all characters with last
forms in its group. -/
def GroupsFollow (m : CharacterFormManager) : Prop :=
  ∀ (ops : List Op) (input other : Bytes) (form : CharacterForm), form.Width →
    m.conversion.KeepsLast (getNormalizedCharacter halfWidthToFullWidth input) →
    m.conversion.KeepsLast (getNormalizedCharacter halfWidthToFullWidth other) →
    getNormalizedCharacter halfWidthToFullWidth other ∈
      m.conversion.group (getNormalizedCharacter halfWidthToFullWidth input) →
    (run halfWidthToFullWidth m (ops ++ [.setCharacterForm input form])).getConversionCharacterForm
      halfWidthToFullWidth other = form

theorem groupsFollow_of_agree (hempty : m.storage = .empty) (hagree : m.conversion.GroupsAgree) :
    GroupsFollow halfWidthToFullWidth m := by
  intro ops input other form hform hinput hother hin
  have hstep : m.conversion.InStep (run halfWidthToFullWidth m ops).storage :=
    run_inStep hagree (hempty ▸ inStep_empty m.conversion) ops
  rw [get_run hother, storage_run_set hinput]
  exact hstep.get_save hform hinput hother hin

theorem agree_of_groupsFollow (hempty : m.storage = .empty)
    (hgrouped : Grouped halfWidthToFullWidth m.conversion)
    (hfollow : GroupsFollow halfWidthToFullWidth m) : m.conversion.GroupsAgree := by
  intro c x y hc hx hy hin
  obtain ⟨sc, rfl⟩ := hgrouped.text c _ hc.2
  obtain ⟨sx, rfl⟩ := hgrouped.text x _ hx.2
  obtain ⟨sy, rfl⟩ := hgrouped.text y _ hy.2
  have hhalf : CharacterForm.halfWidth.Width := Or.inr rfl
  have hfull : CharacterForm.fullWidth.Width := Or.inl rfl
  -- the storage after the first call, which finds no entry
  have hfirst : ∀ input, m.conversion.KeepsLast (getNormalizedCharacter halfWidthToFullWidth input) →
      ∀ key, (run halfWidthToFullWidth m [.setCharacterForm input .halfWidth]).storage key =
        if key ∈ m.conversion.group (getNormalizedCharacter halfWidthToFullWidth input) then
          some (storeUnaligned CharacterForm.halfWidth.toUInt32) else none := by
    intro input hinput key
    have hset := storage_run_set hinput [] .halfWidth
    rw [List.nil_append] at hset
    rw [hset]
    show m.conversion.saveCharacterFormToStorage m.storage _ _ key = _
    rw [hempty, save_of_not_matches hhalf (not_matches_of_none rfl)]
    rfl
  constructor
  · intro hyx
    by_contra hcx
    -- `x` takes `y` to the full width, and `c` stays as it is
    have hstorage := storage_run_set hx [.setCharacterForm sc .halfWidth] .fullWidth
    have hnot : ¬ Matches (run halfWidthToFullWidth m [.setCharacterForm sc .halfWidth]).storage
        (getNormalizedCharacter halfWidthToFullWidth sx) .fullWidth := by
      rintro ⟨value, hvalue, hform⟩
      rw [hfirst sc hc] at hvalue
      split at hvalue
      · rw [← Option.some.inj hvalue, hhalf.firstByte] at hform
        cases hform
      · cases hvalue
    have hsc : (run halfWidthToFullWidth m ([.setCharacterForm sc .halfWidth] ++
        [.setCharacterForm sx .fullWidth])).storage
          (getNormalizedCharacter halfWidthToFullWidth sc) =
        some (storeUnaligned CharacterForm.halfWidth.toUInt32) := by
      rw [hstorage, save_of_not_matches hfull hnot, if_neg hcx, hfirst sc hc,
        if_pos (hgrouped.self_mem_group _)]
    have hsy := hfollow ([.setCharacterForm sc .halfWidth] ++ [.setCharacterForm sx .fullWidth])
      sc sy .halfWidth hhalf hc hy hin
    rw [get_run hy, storage_run_set hc, save_of_matches ((matches_iff hhalf hsc).mpr rfl), hstorage,
      getFromStorage_of_some hfull (by rw [save_of_not_matches hfull hnot, if_pos hyx])] at hsy
    cases hsy
  · intro hcx
    by_contra hyx
    -- `c` has the half width by `x`, and `y` has no entry
    have hsc : (run halfWidthToFullWidth m [.setCharacterForm sx .halfWidth]).storage
        (getNormalizedCharacter halfWidthToFullWidth sc) =
        some (storeUnaligned CharacterForm.halfWidth.toUInt32) := by
      rw [hfirst sx hx, if_pos hcx]
    have hsy := hfollow [.setCharacterForm sx .halfWidth] sc sy .halfWidth hhalf hc hy hin
    rw [get_run hy, storage_run_set hc, save_of_matches ((matches_iff hhalf hsc).mpr rfl),
      getFromStorage_of_none (by rw [hfirst sx hx, if_neg hyx])] at hsy
    cases hsy

/-- The characters of a group follow each other exactly if no group of a third one tells them
apart. -/
theorem groupsFollow_iff (preeditRules conversionRules : List (Bytes × CharacterForm)) :
    GroupsFollow halfWidthToFullWidth
        (create halfWidthToFullWidth preeditRules conversionRules) ↔
      (addRules halfWidthToFullWidth conversionRules).GroupsAgree :=
  ⟨agree_of_groupsFollow halfWidthToFullWidth rfl (grouped_addRules conversionRules),
    groupsFollow_of_agree halfWidthToFullWidth
      (m := create halfWidthToFullWidth preeditRules conversionRules) rfl⟩

/-- `HalfWidthToFullWidth` of an ASCII symbol. -/
def fullWidthSymbol : Bytes → Bytes
  | [b] => codepointToUtf8 (0xfee0 + b.toNat)
  | str => str

/-- The groups `().` and `.,`: once `.` has its form by the second one, the form of `(` does not
change it any more. -/
theorem not_groupsFollow : ¬ GroupsFollow fullWidthSymbol (create fullWidthSymbol []
    [([0x28, 0x29, 0x2e], .lastForm), ([0x2e, 0x2c], .lastForm)]) := by
  intro h
  have hform := h [.setCharacterForm [0x28] .halfWidth, .setCharacterForm [0x2e] .fullWidth]
    [0x28] [0x2e] .halfWidth (Or.inr rfl) ⟨by decide, by decide +kernel⟩
    ⟨by decide, by decide +kernel⟩ (by decide +kernel)
  revert hform
  decide +kernel

end runs

end CharacterFormManager

end Mozkey.Config

namespace Mozkey.Storage.LruStorage

open Lib Config

section represents

variable {fingerprint : UInt16 → UInt64} {s : LruStorage 4} {storage : FormStorage}
  {header : Nat × UInt32} {items : List (Item 4)} {key : UInt16} {value : Value}

/-- The entries of characters in an `LruStorage`. -/
def Represents (fingerprint : UInt16 → UInt64) (s : LruStorage 4) (storage : FormStorage) : Prop :=
  ∀ key, s.lookup (fingerprint key) = storage key

/-- Below the capacity, or for a character that has an entry, `Insert` changes the entry of one
character. -/
theorem represents_insert (h : Holds header s items) (hstorage : Represents fingerprint s storage)
    (hinj : Function.Injective fingerprint) {now : UInt32} (hnow : now ≠ 0)
    (hlatest : ∀ x ∈ items, x.timestamp ≤ now)
    (hroom : items.length < header.1 ∨ storage key ≠ none) :
    ∃ s', s.insert now (fingerprint key) (some value) = some (true, s') ∧
      Represents fingerprint s' (storage.insert key value) := by
  obtain ⟨s', hinsert, h'⟩ := h.insert hnow hlatest (fingerprint key) value
  refine ⟨s', hinsert, fun key' => ?_⟩
  have hentry : ∀ key, (items.find? fun x => x.fp = fingerprint key).map Item.value = storage key :=
    fun key => (h.lookup_eq (fingerprint key)).symm.trans (hstorage key)
  rw [h'.lookup_eq, find?_cons_key, FormStorage.insert, Function.update_apply]
  by_cases hkey : key' = key
  · rw [if_pos hkey, if_pos (congrArg fingerprint hkey.symm)]
    rfl
  · have hfp : fingerprint key' ≠ fingerprint key := fun heq => hkey (hinj heq)
    rw [if_neg hkey, if_neg hfp.symm, ← hentry]
    split
    · rw [find?_filter_ne, if_neg hfp]
    · rename_i hnone
      have hsize : items.length < header.1 := by
        refine hroom.resolve_right fun hsome => hsome ?_
        rw [← hentry, Option.not_isSome_iff_eq_none.mp hnone]
        rfl
      rw [if_pos hsize]

theorem represents_clear (h : Holds header s items) :
    ∃ s', s.clear = some (true, s') ∧ Represents fingerprint s' .empty := by
  obtain ⟨s', hclear, h'⟩ := h.clear
  exact ⟨s', hclear, fun key => h'.lookup_eq (fingerprint key)⟩

end represents

end Mozkey.Storage.LruStorage
