import Mozkey.Prediction.UserHistoryClear

/-! What `ClearHistoryEntry` leaves of the chains that spell a key and a value. -/

namespace Mozkey.Prediction

open Storage Base

/-- A path of two or more entries along `next_entry_fps` from an entry on: it spells a key and a
value, and ends in a link. -/
inductive Chain (dic : Dic) : UInt64 → Bytes → Bytes → UInt64 × UInt64 → Prop
  | link {fp next entry last} : RecencyList.lookup dic fp = some entry → next ∈ entry.nextEntryFps →
      RecencyList.lookup dic next = some last →
      Chain dic fp (entry.key ++ last.key) (entry.value ++ last.value) (fp, next)
  | cons {fp next entry key value link} : RecencyList.lookup dic fp = some entry →
      next ∈ entry.nextEntryFps → Chain dic next key value link →
      Chain dic fp (entry.key ++ key) (entry.value ++ value) link

/-- A key and a value begin and end at boundaries of the entry, the end perhaps at that of a content
word. -/
def ContainsInnerSegments (key value : Bytes) (entry : Entry) : Prop :=
  ∃ before segments last after,
    Converter.innerSegments entry.key entry.value entry.innerSegmentBoundary =
      before ++ segments ++ last :: after ∧
    ((segments.flatMap Converter.InnerSegment.key ++ last.key = key ∧
        segments.flatMap Converter.InnerSegment.value ++ last.value = value) ∨
      (segments.flatMap Converter.InnerSegment.key ++ last.contentKey = key ∧
        segments.flatMap Converter.InnerSegment.value ++ last.contentValue = value))

/-- `dic'` has the entries of `dic`, without some links that end a chain for the key and the value;
only the entry of `fp` and those that contain the key and the value may be marked as removed. -/
structure Reduced (key value : Bytes) (fp : UInt64) (dic dic' : Dic) : Prop where
  keys : dic'.map Prod.fst = dic.map Prod.fst
  entries : ∀ fp' entry, RecencyList.lookup dic fp' = some entry → ∃ keep : UInt64 → Bool,
    (∀ next, keep next = false → ∃ start, Chain dic start key value (fp', next)) ∧
    (RecencyList.lookup dic' fp' = some { entry with nextEntryFps := entry.nextEntryFps.filter keep } ∨
      (fp' = fp ∨ ContainsInnerSegments key value entry) ∧ RecencyList.lookup dic' fp' =
        some { entry.remove with nextEntryFps := entry.nextEntryFps.filter keep })

/-- The entry of the key and the value, if there is one, is removed, no chain spells them, and all
else is as before. -/
structure Cleared (key value : Bytes) (fp : UInt64) (dic dic' : Dic) : Prop
    extends Reduced key value fp dic dic' where
  removed : ∀ entry, RecencyList.lookup dic' fp = some entry → entry.removed = true
  noChain : ∀ start link, ¬ Chain dic' start key value link

section dictionaries

variable {dic dic' : Dic} {fp fp' : UInt64} {entry : Entry} {key value : Bytes}
  {link : UInt64 × UInt64}

theorem lookup_modify (f : Entry → Entry) : RecencyList.lookup (dic.modify fp f) fp' =
    if fp' = fp then (RecencyList.lookup dic fp').map f else RecencyList.lookup dic fp' := by
  induction dic with
  | nil => split <;> rfl
  | cons x dic ih =>
    obtain ⟨k, e⟩ := x
    rw [Dic.modify, List.map_cons, ← Dic.modify]
    by_cases hk : k = fp
    · rw [if_pos hk, RecencyList.lookup_cons, RecencyList.lookup_cons, ih, hk]
      split <;> rfl
    · rw [if_neg hk, RecencyList.lookup_cons, RecencyList.lookup_cons, ih]
      by_cases hfp : fp' = k
      · rw [if_pos hfp, if_pos hfp, if_neg (hfp ▸ hk)]
      · rw [if_neg hfp, if_neg hfp]

theorem keys_modify (f : Entry → Entry) : (dic.modify fp f).map Prod.fst = dic.map Prod.fst := by
  rw [Dic.modify, List.map_map]
  refine List.map_congr_left fun x _ => ?_
  show (if x.1 = fp then (x.1, f x.2) else x).1 = x.1
  split <;> rfl

theorem mem_keys_of_lookup (h : RecencyList.lookup dic fp = some entry) : (fp, entry) ∈ dic := by
  obtain ⟨⟨fp', entry'⟩, hfind, rfl⟩ := Option.map_eq_some_iff.mp h
  obtain rfl : fp' = fp := by simpa using List.find?_some hfind
  exact List.mem_of_find?_eq_some hfind

theorem Chain.link_mem (h : Chain dic fp key value link) : ∃ entry,
    RecencyList.lookup dic link.1 = some entry ∧ link.2 ∈ entry.nextEntryFps := by
  induction h with
  | link he hnext _ => exact ⟨_, he, hnext⟩
  | cons _ _ _ ih => exact ih

theorem Chain.start_mem (h : Chain dic fp key value link) :
    ∃ entry, RecencyList.lookup dic fp = some entry := by
  cases h with
  | link he _ _ => exact ⟨_, he⟩
  | cons he _ _ => exact ⟨_, he⟩

theorem Reduced.lookup (h : Reduced key value fp dic dic')
    (he : RecencyList.lookup dic fp' = some entry) : ∃ entry',
      RecencyList.lookup dic' fp' = some entry' ∧ entry'.key = entry.key ∧
      entry'.value = entry.value ∧ entry'.innerSegmentBoundary = entry.innerSegmentBoundary ∧
      entry'.nextEntryFps ⊆ entry.nextEntryFps := by
  obtain ⟨keep, -, h' | ⟨-, h'⟩⟩ := h.entries fp' entry he
  · exact ⟨_, h', rfl, rfl, rfl, List.filter_subset_self _⟩
  · exact ⟨_, h', rfl, rfl, rfl, List.filter_subset_self _⟩

theorem lookup_isSome_iff : (RecencyList.lookup dic fp).isSome ↔ fp ∈ dic.map Prod.fst := by
  rw [RecencyList.lookup, Option.isSome_map, List.find?_isSome, List.mem_map]
  simp

theorem Reduced.lookup_back (h : Reduced key value fp dic dic') {entry' : Entry}
    (he : RecencyList.lookup dic' fp' = some entry') : ∃ entry,
      RecencyList.lookup dic fp' = some entry ∧ entry'.key = entry.key ∧
      entry'.value = entry.value ∧ entry'.innerSegmentBoundary = entry.innerSegmentBoundary ∧
      entry'.nextEntryFps ⊆ entry.nextEntryFps := by
  have hsome : (RecencyList.lookup dic fp').isSome := by
    rw [lookup_isSome_iff, ← h.keys, ← lookup_isSome_iff, he]
    rfl
  obtain ⟨entry, hentry⟩ := Option.isSome_iff_exists.mp hsome
  obtain ⟨entry'', he', hrest⟩ := h.lookup hentry
  rw [he] at he'
  obtain rfl := Option.some.inj he'
  exact ⟨entry, hentry, hrest⟩

theorem Reduced.chain {k v : Bytes} (h : Reduced key value fp dic dic')
    (hchain : Chain dic' fp' k v link) : Chain dic fp' k v link := by
  induction hchain with
  | link he hnext hlast =>
    obtain ⟨entry, hentry, hkey, hvalue, -, hsub⟩ := h.lookup_back he
    obtain ⟨last, hlast', hkey', hvalue', -⟩ := h.lookup_back hlast
    rw [hkey, hvalue, hkey', hvalue']
    exact .link hentry (hsub hnext) hlast'
  | cons he hnext _ ih =>
    obtain ⟨entry, hentry, hkey, hvalue, -, hsub⟩ := h.lookup_back he
    rw [hkey, hvalue]
    exact .cons hentry (hsub hnext) ih

theorem Reduced.refl (key value : Bytes) (fp : UInt64) (dic : Dic) : Reduced key value fp dic dic where
  keys := rfl
  entries fp' entry he := by
    refine ⟨fun _ => true, fun _ hfalse => Bool.noConfusion hfalse, .inl ?_⟩
    rw [List.filter_true]
    exact he

theorem Reduced.trans {dic'' : Dic} (h : Reduced key value fp dic dic')
    (h' : Reduced key value fp dic' dic'') : Reduced key value fp dic dic'' where
  keys := h'.keys.trans h.keys
  entries fp' entry he := by
    obtain ⟨keep, hkeep, hlookup⟩ := h.entries fp' entry he
    obtain ⟨entry', he', hkey, hvalue, hboundary, -⟩ := h.lookup he
    obtain ⟨keep', hkeep', hlookup'⟩ := h'.entries fp' entry' he'
    have hown : fp' = fp ∨ ContainsInnerSegments key value entry' →
        fp' = fp ∨ ContainsInnerSegments key value entry := by
      rw [ContainsInnerSegments, hkey, hvalue, hboundary]
      exact id
    refine ⟨fun next => keep' next && keep next, fun next hnext => ?_, ?_⟩
    · rcases Bool.and_eq_false_iff.mp hnext with hnext | hnext
      · obtain ⟨start, hchain⟩ := hkeep' next hnext
        exact ⟨start, h.chain hchain⟩
      · exact hkeep next hnext
    · rw [← List.filter_filter]
      rcases hlookup with hl | ⟨hcontains, hl⟩
      · obtain rfl := Option.some.inj (he'.symm.trans hl)
        exact hlookup'.imp_right fun hright => ⟨hown hright.1, hright.2⟩
      · obtain rfl := Option.some.inj (he'.symm.trans hl)
        refine .inr ⟨hcontains, ?_⟩
        rcases hlookup' with hl' | ⟨-, hl'⟩
        · exact hl'
        · exact hl'

theorem Reduced.cut {start : UInt64} (hchain : Chain dic start key value link) :
    Reduced key value fp dic (dic.modify link.1 (eraseNextEntries link.2)) where
  keys := keys_modify _
  entries fp' entry he := by
    rw [lookup_modify]
    by_cases hfp : fp' = link.1
    · refine ⟨fun next => decide (next ≠ link.2), fun next hnext => ?_, .inl ?_⟩
      · have hlink : next = link.2 := by simpa using hnext
        rw [hfp, hlink]
        exact ⟨start, hchain⟩
      · rw [if_pos hfp, he]
        rfl
    · refine ⟨fun _ => true, fun _ hfalse => Bool.noConfusion hfalse, .inl ?_⟩
      rw [if_neg hfp, List.filter_true]
      exact he

theorem Reduced.remove {f : Entry → Entry}
    (hf : ∀ entry, RecencyList.lookup dic fp' = some entry → f entry = entry ∨
      f entry = entry.remove ∧ (fp' = fp ∨ ContainsInnerSegments key value entry)) :
    Reduced key value fp dic (dic.modify fp' f) where
  keys := keys_modify _
  entries fp'' entry he := by
    refine ⟨fun _ => true, fun _ hfalse => Bool.noConfusion hfalse, ?_⟩
    rw [lookup_modify, List.filter_true]
    by_cases heq : fp'' = fp'
    · subst heq
      rw [if_pos rfl, he, Option.map_some]
      rcases hf entry he with hsame | ⟨hremove, hown⟩
      · exact .inl (congrArg some hsame)
      · exact .inr ⟨hown, congrArg some hremove⟩
    · rw [if_neg heq]
      exact .inl he

theorem Reduced.removed (h : Reduced key value fp dic dic')
    (hremoved : ∀ entry, RecencyList.lookup dic fp' = some entry → entry.removed = true) :
    ∀ entry, RecencyList.lookup dic' fp' = some entry → entry.removed = true := by
  intro entry' he'
  obtain ⟨entry, he, -⟩ := h.lookup_back he'
  obtain ⟨keep, -, hl | ⟨-, hl⟩⟩ := h.entries fp' entry he
  · rw [hl] at he'
    obtain rfl := Option.some.inj he'
    exact hremoved entry he
  · rw [hl] at he'
    obtain rfl := Option.some.inj he'
    rfl

theorem Reduced.not_chain_cut {start : UInt64}
    (h : Reduced key value fp (dic.modify link.1 (eraseNextEntries link.2)) dic') :
    ¬ Chain dic' start key value link := by
  intro hchain
  obtain ⟨entry', he', hmem⟩ := hchain.link_mem
  obtain ⟨entry, he, -, -, -, hsub⟩ := h.lookup_back he'
  have hmem' := hsub hmem
  rw [lookup_modify, if_pos rfl] at he
  obtain ⟨entry₀, -, rfl⟩ := Option.map_eq_some_iff.mp he
  simp [eraseNextEntries] at hmem'

end dictionaries

section search

variable {targetKey targetValue : Bytes} {dic dic' : Dic} {keyNgrams valueNgrams : List Bytes}
  {fp : UInt64} {entry : Entry} {result : RemoveNgramChainResult}

/-- The keys and the values are not empty, as `Load` and `Insert` see to. -/
def NonEmpty (dic : Dic) : Prop :=
  ∀ fp entry, RecencyList.lookup dic fp = some entry → entry.key ≠ [] ∧ entry.value ≠ []

/-- What the search finds at the entry of `fp` behind some ngrams: the end of a chain, a chain, whose
last link it cuts, or neither. -/
def Found (targetKey targetValue : Bytes) (keyNgrams valueNgrams : List Bytes) (fp : UInt64)
    (dic dic' : Dic) : RemoveNgramChainResult → Prop
  | .tail => dic' = dic ∧ ∃ entry, RecencyList.lookup dic fp = some entry ∧
      keyNgrams.flatten ++ entry.key = targetKey ∧ valueNgrams.flatten ++ entry.value = targetValue
  | .done => ∃ key value link, Chain dic fp key value link ∧ keyNgrams.flatten ++ key = targetKey ∧
      valueNgrams.flatten ++ value = targetValue ∧
      dic' = dic.modify link.1 (eraseNextEntries link.2)
  | .notFound => dic' = dic ∧
      (∀ entry, RecencyList.lookup dic fp = some entry →
        ¬ (keyNgrams.flatten ++ entry.key = targetKey ∧
          valueNgrams.flatten ++ entry.value = targetValue)) ∧
      ∀ key value link, Chain dic fp key value link →
        ¬ (keyNgrams.flatten ++ key = targetKey ∧ valueNgrams.flatten ++ value = targetValue)

/-- The chains from the entry that go on with one of the links `fps`. -/
def NoChainVia (targetKey targetValue : Bytes) (keyNgrams valueNgrams : List Bytes) (dic : Dic)
    (fps : List UInt64) : Prop :=
  ∀ next ∈ fps, (∀ entry, RecencyList.lookup dic next = some entry →
      ¬ (keyNgrams.flatten ++ entry.key = targetKey ∧
        valueNgrams.flatten ++ entry.value = targetValue)) ∧
    ∀ key value link, Chain dic next key value link →
      ¬ (keyNgrams.flatten ++ key = targetKey ∧ valueNgrams.flatten ++ value = targetValue)

theorem visitNextEntries_spec {visit : UInt64 → Dic → Option (RemoveNgramChainResult × Dic)}
    (hentry : RecencyList.lookup dic fp = some entry)
    (hvisit : ∀ next, (RecencyList.lookup dic next).isSome → ∃ result dic',
      visit next dic = some (result, dic') ∧
        Found targetKey targetValue (keyNgrams ++ [entry.key]) (valueNgrams ++ [entry.value]) next
          dic dic' result)
    (fps : List UInt64) (hfps : fps ⊆ entry.nextEntryFps) :
    ∃ result dic', visitNextEntries visit fp fps dic = some (result, dic') ∧
      (result = .notFound ∧ dic' = dic ∧ NoChainVia targetKey targetValue (keyNgrams ++ [entry.key])
          (valueNgrams ++ [entry.value]) dic fps ∨
        result = .done ∧ Found targetKey targetValue keyNgrams valueNgrams fp dic dic' .done) := by
  induction fps with
  | nil => exact ⟨.notFound, dic, rfl, .inl ⟨rfl, rfl, fun _ h => absurd h List.not_mem_nil⟩⟩
  | cons next fps ih =>
    obtain ⟨hnext, hfps⟩ := List.cons_subset.mp hfps
    obtain ⟨result, dic', hrest, hspec⟩ := ih hfps
    have hpass : ∀ hnone : (∀ entry', RecencyList.lookup dic next = some entry' →
          ¬ ((keyNgrams ++ [entry.key]).flatten ++ entry'.key = targetKey ∧
            (valueNgrams ++ [entry.value]).flatten ++ entry'.value = targetValue)) ∧
        ∀ key value link, Chain dic next key value link →
          ¬ ((keyNgrams ++ [entry.key]).flatten ++ key = targetKey ∧
            (valueNgrams ++ [entry.value]).flatten ++ value = targetValue),
        (result = .notFound ∧ dic' = dic ∧ NoChainVia targetKey targetValue
            (keyNgrams ++ [entry.key]) (valueNgrams ++ [entry.value]) dic (next :: fps) ∨
          result = .done ∧ Found targetKey targetValue keyNgrams valueNgrams fp dic dic' .done) :=
      fun hnone => hspec.imp_left fun ⟨hres, hdic, hvia⟩ =>
        ⟨hres, hdic, List.forall_mem_cons.mpr ⟨hnone, hvia⟩⟩
    rw [visitNextEntries]
    by_cases hlast : (RecencyList.lookup dic next).isNone
    · rw [if_pos hlast, hrest]
      refine ⟨_, _, rfl, hpass ⟨fun entry' he => ?_, fun key value link hchain => ?_⟩⟩
      · rw [he] at hlast
        cases hlast
      · obtain ⟨entry', he⟩ := hchain.start_mem
        rw [he] at hlast
        cases hlast
    · rw [if_neg hlast]
      obtain ⟨last, hlast⟩ : ∃ last, RecencyList.lookup dic next = some last := by
        cases h : RecencyList.lookup dic next with
        | none => exact absurd (h ▸ rfl) hlast
        | some last => exact ⟨last, rfl⟩
      obtain ⟨found, dic'', hcall, hfound⟩ := hvisit next (by rw [hlast]; rfl)
      rw [hcall]
      cases found with
      | done =>
        obtain ⟨key, value, link, hchain, hkey, hvalue, rfl⟩ := hfound
        refine ⟨_, _, rfl, .inr ⟨rfl, _, _, _, .cons hentry hnext hchain, ?_, ?_, rfl⟩⟩
        · rw [← hkey, List.flatten_append, List.flatten_singleton, List.append_assoc]
        · rw [← hvalue, List.flatten_append, List.flatten_singleton, List.append_assoc]
      | tail =>
        obtain ⟨rfl, last', hlast', hkey, hvalue⟩ := hfound
        refine ⟨_, _, rfl, .inr ⟨rfl, _, _, _, .link hentry hnext hlast', ?_, ?_, rfl⟩⟩
        · rw [← hkey, List.flatten_append, List.flatten_singleton, List.append_assoc]
        · rw [← hvalue, List.flatten_append, List.flatten_singleton, List.append_assoc]
      | notFound =>
        obtain ⟨rfl, hnone⟩ := hfound
        exact ⟨_, _, hrest, hpass hnone⟩

theorem length_lt_of_append {ks : List Bytes} {key rest target : Bytes} (hrest : rest ≠ [])
    (h : ks.flatten ++ (key ++ rest) = target) :
    ((ks ++ [key]).map List.length).sum < target.length := by
  have hpos := List.length_pos_of_ne_nil hrest
  rw [← h, ← List.length_flatten, List.flatten_append, List.flatten_singleton, List.length_append,
    List.length_append, List.length_append]
  omega

theorem Chain.ne_nil (hne : NonEmpty dic) {key value : Bytes} {link : UInt64 × UInt64}
    (h : Chain dic fp key value link) : key ≠ [] ∧ value ≠ [] := by
  cases h with
  | link he _ _ =>
    obtain ⟨hkey, hvalue⟩ := hne _ _ he
    exact ⟨List.append_ne_nil_of_left_ne_nil hkey _, List.append_ne_nil_of_left_ne_nil hvalue _⟩
  | cons he _ _ =>
    obtain ⟨hkey, hvalue⟩ := hne _ _ he
    exact ⟨List.append_ne_nil_of_left_ne_nil hkey _, List.append_ne_nil_of_left_ne_nil hvalue _⟩

theorem Chain.goes_on (hne : NonEmpty dic) (hentry : RecencyList.lookup dic fp = some entry)
    {key value : Bytes} {link : UInt64 × UInt64} (h : Chain dic fp key value link)
    (hkey : keyNgrams.flatten ++ key = targetKey) (hvalue : valueNgrams.flatten ++ value = targetValue) :
    (((keyNgrams ++ [entry.key]).map List.length).sum < targetKey.length ∧
      ((valueNgrams ++ [entry.value]).map List.length).sum < targetValue.length) ∧
    ¬ NoChainVia targetKey targetValue (keyNgrams ++ [entry.key]) (valueNgrams ++ [entry.value]) dic
      entry.nextEntryFps := by
  have happend : ∀ {ks : List Bytes} {k rest target : Bytes}, ks.flatten ++ (k ++ rest) = target →
      (ks ++ [k]).flatten ++ rest = target := by
    intro ks k rest target h
    rw [← h, List.flatten_append, List.flatten_singleton, List.append_assoc]
  cases h with
  | link he hnext hlast =>
    obtain rfl := Option.some.inj (hentry.symm.trans he)
    obtain ⟨hk, hv⟩ := hne _ _ hlast
    refine ⟨⟨length_lt_of_append hk hkey, length_lt_of_append hv hvalue⟩, fun hvia => ?_⟩
    exact (hvia _ hnext).1 _ hlast ⟨happend hkey, happend hvalue⟩
  | cons he hnext hchain =>
    obtain rfl := Option.some.inj (hentry.symm.trans he)
    obtain ⟨hk, hv⟩ := hchain.ne_nil hne
    refine ⟨⟨length_lt_of_append hk hkey, length_lt_of_append hv hvalue⟩, fun hvia => ?_⟩
    exact (hvia _ hnext).2 _ _ _ hchain ⟨happend hkey, happend hvalue⟩

theorem removeNgramChainInternal_spec (hne : NonEmpty dic) {fuel : Nat}
    (hfuel : targetKey.length < keyNgrams.flatten.length + fuel)
    (hshort : keyNgrams.flatten.length ≤ targetKey.length) :
    ∃ result dic', removeNgramChainInternal targetKey targetValue fuel keyNgrams valueNgrams fp dic =
        some (result, dic') ∧
      Found targetKey targetValue keyNgrams valueNgrams fp dic dic' result := by
  induction fuel generalizing keyNgrams valueNgrams fp with
  | zero => omega
  | succ fuel ih =>
    rw [removeNgramChainInternal]
    cases hentry : RecencyList.lookup dic fp with
    | none =>
      refine ⟨_, _, rfl, rfl, fun entry he => ?_, fun key value link hchain => ?_⟩
      · rw [hentry] at he
        cases he
      · obtain ⟨entry, he⟩ := hchain.start_mem
        rw [hentry] at he
        cases he
    | some entry =>
      have hlen : ((keyNgrams ++ [entry.key]).map List.length).sum =
          keyNgrams.flatten.length + entry.key.length := by
        rw [← List.length_flatten, List.flatten_append, List.flatten_singleton, List.length_append]
      have hpos := List.length_pos_of_ne_nil (hne fp entry hentry).1
      dsimp only
      by_cases hmore : ((keyNgrams ++ [entry.key]).map List.length).sum < targetKey.length ∧
          ((valueNgrams ++ [entry.value]).map List.length).sum < targetValue.length
      · have hmoreKey := hmore.1
        have hflat : (keyNgrams ++ [entry.key]).flatten.length =
            keyNgrams.flatten.length + entry.key.length := by rw [List.length_flatten, hlen]
        rw [if_pos hmore]
        obtain ⟨result, dic', hcall, ⟨rfl, rfl, hvia⟩ | ⟨rfl, hfound⟩⟩ :=
          @visitNextEntries_spec targetKey targetValue dic keyNgrams valueNgrams fp entry
            (removeNgramChainInternal targetKey targetValue fuel (keyNgrams ++ [entry.key])
              (valueNgrams ++ [entry.value]))
            hentry (fun next _ => ih (by omega) (by omega)) entry.nextEntryFps fun _ h => h
        · refine ⟨_, _, hcall, rfl, fun entry' he => ?_, fun key value link hchain => ?_⟩
          · obtain rfl := Option.some.inj (hentry.symm.trans he)
            rintro ⟨hkey, -⟩
            rw [hlen, ← hkey, List.length_append] at hmoreKey
            omega
          · rintro ⟨hkey, hvalue⟩
            exact (hchain.goes_on hne hentry hkey hvalue).2 hvia
        · exact ⟨_, _, hcall, hfound⟩
      · rw [if_neg hmore]
        have hnoChain : ∀ key value link, Chain dic fp key value link →
            ¬ (keyNgrams.flatten ++ key = targetKey ∧ valueNgrams.flatten ++ value = targetValue) :=
          fun key value link hchain ⟨hkey, hvalue⟩ =>
            hmore (hchain.goes_on hne hentry hkey hvalue).1
        have hflatten : ∀ (ks : List Bytes) (k : Bytes), (ks ++ [k]).flatten = ks.flatten ++ k :=
          fun ks k => by rw [List.flatten_append, List.flatten_singleton]
        by_cases heq : (keyNgrams ++ [entry.key]).flatten = targetKey ∧
            (valueNgrams ++ [entry.value]).flatten = targetValue
        · have hlens : ((keyNgrams ++ [entry.key]).map List.length).sum = targetKey.length ∧
              ((valueNgrams ++ [entry.value]).map List.length).sum = targetValue.length := by
            rw [← List.length_flatten, ← List.length_flatten, heq.1, heq.2]
            exact ⟨rfl, rfl⟩
          rw [if_pos hlens, if_pos heq]
          refine ⟨_, _, rfl, rfl, entry, hentry, ?_⟩
          rwa [hflatten, hflatten] at heq
        · have hnot : Found targetKey targetValue keyNgrams valueNgrams fp dic dic .notFound := by
            refine ⟨rfl, fun entry' he => ?_, hnoChain⟩
            obtain rfl := Option.some.inj (hentry.symm.trans he)
            rwa [hflatten, hflatten] at heq
          rw [if_neg heq]
          split
          · exact ⟨_, _, rfl, hnot⟩
          · exact ⟨_, _, rfl, hnot⟩

theorem removeNgramChain_spec (hne : NonEmpty dic) {fuel : Nat} (hfuel : targetKey.length < fuel) :
    (∃ link, Chain dic fp targetKey targetValue link ∧ removeNgramChain targetKey targetValue fuel fp
      dic = some (true, dic.modify link.1 (eraseNextEntries link.2))) ∨
    (∀ link, ¬ Chain dic fp targetKey targetValue link) ∧
      removeNgramChain targetKey targetValue fuel fp dic = some (false, dic) := by
  rw [removeNgramChain]
  cases hentry : RecencyList.lookup dic fp with
  | none =>
    refine .inr ⟨fun link hchain => ?_, rfl⟩
    obtain ⟨entry, he⟩ := hchain.start_mem
    rw [hentry] at he
    cases he
  | some entry =>
    dsimp only
    by_cases hprefix : entry.key.isPrefixOf targetKey = true ∧ entry.value.isPrefixOf targetValue = true
    · rw [if_neg (not_not.mpr hprefix)]
      obtain ⟨result, dic', hcall, hfound⟩ :=
        @removeNgramChainInternal_spec targetKey targetValue dic [] [] fp hne fuel
          (by simpa using hfuel) (Nat.zero_le _)
      rw [hcall]
      cases result with
      | done =>
        obtain ⟨key, value, link, hchain, rfl, rfl, rfl⟩ := hfound
        exact .inl ⟨link, hchain, rfl⟩
      | tail =>
        obtain ⟨rfl, entry', he, hkey, hvalue⟩ := hfound
        obtain rfl := Option.some.inj (hentry.symm.trans he)
        refine .inr ⟨fun link hchain => ?_, rfl⟩
        have hmore := (@Chain.goes_on _ _ _ [] [] _ _ hne hentry _ _ link hchain rfl rfl).1.1
        rw [← hkey] at hmore
        simp at hmore
      | notFound =>
        obtain ⟨rfl, -, hnone⟩ := hfound
        exact .inr ⟨fun link hchain => hnone _ _ link hchain ⟨rfl, rfl⟩, rfl⟩
    · rw [if_pos hprefix]
      refine .inr ⟨fun link hchain => hprefix ?_, rfl⟩
      cases hchain with
      | link he _ _ =>
        obtain rfl := Option.some.inj (hentry.symm.trans he)
        exact ⟨List.isPrefixOf_iff_prefix.mpr (List.prefix_append _ _),
          List.isPrefixOf_iff_prefix.mpr (List.prefix_append _ _)⟩
      | cons he _ _ =>
        obtain rfl := Option.some.inj (hentry.symm.trans he)
        exact ⟨List.isPrefixOf_iff_prefix.mpr (List.prefix_append _ _),
          List.isPrefixOf_iff_prefix.mpr (List.prefix_append _ _)⟩

end search

section innerSegments

variable {key value : Bytes} {entry : Entry}

theorem find_spec {str pattern : Bytes} {i : Nat} (h : find str pattern = some i) :
    ∃ rest, str.drop i = pattern ++ rest := by
  have hprefix := List.find?_some h
  obtain ⟨rest, hrest⟩ := List.isPrefixOf_iff_prefix.mp hprefix
  exact ⟨rest, hrest.symm⟩

theorem matchInnerSegments_spec {keyStart valueStart keyEnd valueEnd keyLen valueLen : Nat}
    {startMatch : Bool} {segments : List Converter.InnerSegment}
    (h : matchInnerSegments keyStart valueStart keyEnd valueEnd segments keyLen valueLen startMatch =
      true) :
    ∃ skipped middle last after, segments = skipped ++ middle ++ last :: after ∧
      (startMatch = true ∧ skipped = [] ∨
        keyLen + (skipped.flatMap Converter.InnerSegment.key).length = keyStart ∧
        valueLen + (skipped.flatMap Converter.InnerSegment.value).length = valueStart) ∧
      ((keyLen + (skipped.flatMap Converter.InnerSegment.key).length +
            (middle.flatMap Converter.InnerSegment.key).length + last.key.length = keyEnd ∧
          valueLen + (skipped.flatMap Converter.InnerSegment.value).length +
            (middle.flatMap Converter.InnerSegment.value).length + last.value.length = valueEnd) ∨
        (keyLen + (skipped.flatMap Converter.InnerSegment.key).length +
            (middle.flatMap Converter.InnerSegment.key).length + last.contentKey.length = keyEnd ∧
          valueLen + (skipped.flatMap Converter.InnerSegment.value).length +
            (middle.flatMap Converter.InnerSegment.value).length + last.contentValue.length =
              valueEnd)) := by
  induction segments generalizing keyLen valueLen startMatch with
  | nil => cases h
  | cons it segments ih =>
    dsimp only [matchInnerSegments] at h
    split at h
    · rename_i hend
      refine ⟨[], [], it, segments, rfl, ?_, by simpa using hend⟩
      rcases Bool.or_eq_true_iff.mp h with hstart | hstart
      · exact .inl ⟨hstart, rfl⟩
      · exact .inr (by simpa using hstart)
    · split at h
      · cases h
      · obtain ⟨skipped, middle, last, after, rfl, hstart, hend⟩ := ih h
        rcases hstart with ⟨hstart, rfl⟩ | hstart
        · refine ⟨[], it :: middle, last, after, rfl, ?_, ?_⟩
          · rcases Bool.or_eq_true_iff.mp hstart with hstart | hstart
            · exact .inl ⟨hstart, rfl⟩
            · exact .inr (by simpa using hstart)
          · simp only [List.flatMap_nil, List.flatMap_cons, List.length_append, List.length_nil]
              at hend ⊢
            omega
        · refine ⟨it :: skipped, middle, last, after, rfl, .inr ?_, ?_⟩
          · simp only [List.flatMap_cons, List.length_append]
            omega
          · simp only [List.flatMap_cons, List.length_append]
            omega

theorem flatMap_append_eq {segment : Converter.InnerSegment → Bytes}
    {skipped middle : List Converter.InnerSegment} {text word rest pattern after : Bytes} {start : Nat}
    (htext : text = (skipped ++ middle).flatMap segment ++ word ++ rest)
    (hfind : text.drop start = pattern ++ after) (hstart : (skipped.flatMap segment).length = start)
    (hend : (middle.flatMap segment).length + word.length = pattern.length) :
    middle.flatMap segment ++ word = pattern := by
  subst hstart htext
  rw [List.flatMap_append, List.append_assoc, List.append_assoc, List.drop_left,
    ← List.append_assoc] at hfind
  refine (List.append_inj hfind ?_).1
  rwa [List.length_append]

theorem contains_of_matches (h : matchesInnerSegment key value entry = true) :
    ContainsInnerSegments key value entry := by
  rw [matchesInnerSegment] at h
  split at h
  · cases h
  split at h
  swap
  · cases h
  rename_i valueStart keyStart hvalue hkey
  obtain ⟨keyRest, hkeyRest⟩ := find_spec hkey
  obtain ⟨valueRest, hvalueRest⟩ := find_spec hvalue
  obtain ⟨skipped, middle, last, after, hsegments, hstart, hend⟩ := matchInnerSegments_spec h
  obtain ⟨hstartKey, hstartValue⟩ := hstart.resolve_left fun hcon => Bool.noConfusion hcon.1
  obtain ⟨⟨r₁, hk⟩, ⟨r₂, hv⟩, ⟨r₃, hck⟩, ⟨r₄, hcv⟩⟩ := Converter.innerSegments_split hsegments
  refine ⟨skipped, middle, last, after, hsegments, hend.imp ?_ ?_⟩
  · rintro ⟨hendKey, hendValue⟩
    have hkeys := flatMap_append_eq hk hkeyRest (by omega) (by omega)
    have hvalues := flatMap_append_eq hv hvalueRest (by omega) (by omega)
    exact ⟨hkeys, hvalues⟩
  · rintro ⟨hendKey, hendValue⟩
    have hkeys := flatMap_append_eq hck hkeyRest (by omega) (by omega)
    have hvalues := flatMap_append_eq hcv hvalueRest (by omega) (by omega)
    exact ⟨hkeys, hvalues⟩

end innerSegments

section clear

variable {key value : Bytes} {dic dic' : Dic} {fp : UInt64} {fuel : Nat}

theorem Reduced.nonEmpty (h : Reduced key value fp dic dic') (hne : NonEmpty dic) : NonEmpty dic' := by
  intro fp' entry' he'
  obtain ⟨entry, he, hkey, hvalue, -⟩ := h.lookup_back he'
  rw [hkey, hvalue]
  exact hne fp' entry he

/-- From every entry, all chains that spell the key and the value end in one link. -/
def OneLink (key value : Bytes) (dic : Dic) : Prop :=
  ∀ start link link', Chain dic start key value link → Chain dic start key value link' → link = link'

theorem removeExactEntry_spec : Reduced key value fp dic (removeExactEntry fp dic).2 ∧
    ∀ entry, RecencyList.lookup (removeExactEntry fp dic).2 fp = some entry → entry.removed = true := by
  rw [removeExactEntry]
  cases hentry : RecencyList.lookup dic fp with
  | none =>
    refine ⟨Reduced.refl _ _ _ _, fun entry he => ?_⟩
    rw [show RecencyList.lookup dic fp = none from hentry] at he
    cases he
  | some entry =>
    dsimp only
    split
    · rename_i hremoved
      refine ⟨Reduced.refl _ _ _ _, fun entry' he => ?_⟩
      obtain rfl := Option.some.inj (hentry.symm.trans he)
      exact hremoved
    · refine ⟨Reduced.remove fun _ _ => .inr ⟨rfl, .inl rfl⟩, fun entry' he => ?_⟩
      rw [lookup_modify, if_pos rfl, hentry] at he
      obtain rfl := Option.some.inj he
      rfl

theorem clearChainAndInnerSegment_spec (hne : NonEmpty dic) (hone : OneLink key value dic)
    (hfuel : key.length < fuel) (h : Reduced key value fp dic dic') (deleted : Bool) (fp' : UInt64) :
    ∃ deleted' dic'', clearChainAndInnerSegment fuel key value (deleted, dic') fp' =
        some (deleted', dic'') ∧
      Reduced key value fp dic' dic'' ∧ ∀ link, ¬ Chain dic'' fp' key value link := by
  rw [clearChainAndInnerSegment]
  rcases @removeNgramChain_spec key value dic' fp' (h.nonEmpty hne) fuel hfuel with
    ⟨link, hchain, hcall⟩ | ⟨hnone, hcall⟩
  · rw [hcall]
    have hcut : Reduced key value fp dic' _ := Reduced.cut hchain
    refine ⟨true, _, rfl, hcut, fun link' hchain' => ?_⟩
    have hlink : link' = link :=
      hone fp' link' link (h.chain (hcut.chain hchain')) (h.chain hchain)
    rw [hlink] at hchain'
    exact (Reduced.refl key value fp _).not_chain_cut hchain'
  · rw [hcall]
    cases hentry : RecencyList.lookup dic' fp' with
    | none =>
      refine ⟨deleted, dic', ?_, Reduced.refl key value fp dic', hnone⟩
      simp [hentry]
    | some entry =>
      have hf : ∀ entry', RecencyList.lookup dic' fp' = some entry' →
          (removeEntryWithInnerSegment key value entry).2 = entry' ∨
          (removeEntryWithInnerSegment key value entry).2 = entry'.remove ∧
            (fp' = fp ∨ ContainsInnerSegments key value entry') := by
        intro entry' he
        obtain rfl := Option.some.inj (hentry.symm.trans he)
        rw [removeEntryWithInnerSegment]
        split
        · rename_i hmatch
          exact .inr ⟨rfl, .inr (contains_of_matches hmatch)⟩
        · exact .inl rfl
      have hremove : Reduced key value fp dic'
          (dic'.modify fp' fun _ => (removeEntryWithInnerSegment key value entry).2) :=
        Reduced.remove hf
      refine ⟨deleted || (removeEntryWithInnerSegment key value entry).1, _, ?_, hremove,
        fun link hchain => hnone link (hremove.chain hchain)⟩
      simp [hentry]

theorem clearLoop_spec (hne : NonEmpty dic) (hone : OneLink key value dic) (hfuel : key.length < fuel)
    (h : Reduced key value fp dic dic') (deleted : Bool) (fps : List UInt64) :
    ∃ deleted' dic'', fps.foldlM (clearChainAndInnerSegment fuel key value) (deleted, dic') =
        some (deleted', dic'') ∧
      Reduced key value fp dic' dic'' ∧ ∀ start ∈ fps, ∀ link, ¬ Chain dic'' start key value link := by
  induction fps generalizing dic' deleted with
  | nil => exact ⟨deleted, dic', rfl, Reduced.refl _ _ _ _, fun _ h => absurd h List.not_mem_nil⟩
  | cons fp' fps ih =>
    obtain ⟨deleted₁, dic₁, hcall, hstep, hnone⟩ :=
      clearChainAndInnerSegment_spec hne hone hfuel h deleted fp'
    obtain ⟨deleted₂, dic₂, hrest, hsteps, hnone₂⟩ := ih (h.trans hstep) deleted₁
    refine ⟨deleted₂, dic₂, ?_, hstep.trans hsteps, List.forall_mem_cons.mpr ⟨?_, hnone₂⟩⟩
    · rw [List.foldlM_cons, hcall]
      exact hrest
    · exact fun link hchain => hnone link (hsteps.chain hchain)

variable {cityFingerprint : Bytes → UInt64}

/-- `ClearHistoryEntry` ends, and leaves neither the entry nor a chain of the normalized key and
value, where all chains from one entry end in one link. -/
theorem clearHistoryEntry_clears (hne : NonEmpty dic)
    (hone : OneLink (maybeNormalizePrefixSpace key) (maybeNormalizePrefixSpace value) dic)
    (hfuel : (maybeNormalizePrefixSpace key).length < fuel) :
    ∃ deleted dic', clearHistoryEntry cityFingerprint fuel key value dic = some (deleted, dic') ∧
      Cleared (maybeNormalizePrefixSpace key) (maybeNormalizePrefixSpace value)
        (fingerprint cityFingerprint (maybeNormalizePrefixSpace key)
          (maybeNormalizePrefixSpace value)) dic dic' := by
  rw [clearHistoryEntry]
  generalize maybeNormalizePrefixSpace key = key' at *
  generalize maybeNormalizePrefixSpace value = value' at *
  generalize hfp : fingerprint cityFingerprint key' value' = fp
  dsimp only
  obtain ⟨h₁, hremoved⟩ := @removeExactEntry_spec key' value' dic fp
  obtain ⟨deleted', dic₂, hloop, h₂, hnone⟩ :=
    clearLoop_spec hne hone hfuel h₁ (removeExactEntry fp dic).1
      ((removeExactEntry fp dic).2.map Prod.fst)
  refine ⟨deleted', dic₂, hloop, h₁.trans h₂, h₂.removed hremoved, fun start link hchain => ?_⟩
  obtain ⟨entry, he⟩ := hchain.start_mem
  refine hnone start ?_ link hchain
  rw [← h₂.keys, ← lookup_isSome_iff, he]
  rfl

/-- Every entry is linked to one other at most. -/
def Single (dic : Dic) : Prop :=
  ∀ fp entry, RecencyList.lookup dic fp = some entry → entry.nextEntryFps.length ≤ 1

theorem Single.eq (h : Single dic) {entry : Entry} (he : RecencyList.lookup dic fp = some entry)
    {next next' : UInt64} (hnext : next ∈ entry.nextEntryFps) (hnext' : next' ∈ entry.nextEntryFps) :
    next = next' := by
  have hlen := h fp entry he
  generalize entry.nextEntryFps = fps at *
  match fps with
  | [_] => exact (List.mem_singleton.mp hnext).trans (List.mem_singleton.mp hnext').symm

theorem Chain.link_unique (hne : NonEmpty dic) (hsingle : Single dic) {start : UInt64}
    {key' value' : Bytes} {link link' : UInt64 × UInt64} (h : Chain dic start key value link)
    (h' : Chain dic start key' value' link') (hk : key = key') : link = link' := by
  induction h generalizing key' value' with
  | link he hmem hlast =>
    cases h' with
    | link he' hmem' _ =>
      obtain rfl := Option.some.inj (he.symm.trans he')
      rw [hsingle.eq he hmem hmem']
    | cons he' hmem' hchain =>
      obtain rfl := Option.some.inj (he.symm.trans he')
      obtain rfl := hsingle.eq he hmem hmem'
      have hlonger := List.append_cancel_left hk
      cases hchain with
      | link he₁ _ he₂ =>
        obtain rfl := Option.some.inj (hlast.symm.trans he₁)
        exact absurd (List.self_eq_append_right.mp hlonger) (hne _ _ he₂).1
      | cons he₁ _ hrest =>
        obtain rfl := Option.some.inj (hlast.symm.trans he₁)
        exact absurd (List.self_eq_append_right.mp hlonger) (hrest.ne_nil hne).1
  | cons he hmem hchain ih =>
    cases h' with
    | link he' hmem' hlast =>
      obtain rfl := Option.some.inj (he.symm.trans he')
      obtain rfl := hsingle.eq he hmem hmem'
      have hlonger := List.append_cancel_left hk
      cases hchain with
      | link he₁ _ he₂ =>
        obtain rfl := Option.some.inj (hlast.symm.trans he₁)
        exact absurd (List.append_right_eq_self.mp hlonger) (hne _ _ he₂).1
      | cons he₁ _ hrest =>
        obtain rfl := Option.some.inj (hlast.symm.trans he₁)
        exact absurd (List.append_right_eq_self.mp hlonger) (hrest.ne_nil hne).1
    | cons he' hmem' hchain' =>
      obtain rfl := Option.some.inj (he.symm.trans he')
      obtain rfl := hsingle.eq he hmem hmem'
      exact ih hchain' (List.append_cancel_left hk)

theorem oneLink_of_single (hne : NonEmpty dic) (hsingle : Single dic) : OneLink key value dic :=
  fun _ _ _ h h' => h.link_unique hne hsingle h' rfl

theorem forall_lookup {p : Entry → Prop} (h : ∀ x ∈ dic, p x.2) :
    ∀ fp entry, RecencyList.lookup dic fp = some entry → p entry :=
  fun _ _ he => h _ (mem_keys_of_lookup he)

/-- A fingerprint that tells the entries below apart. -/
def byteSum (bytes : Bytes) : UInt64 := (bytes.map UInt8.toUInt64).sum

def chained (key value : Bytes) (nextEntryFps : List UInt64) : UInt64 × Entry :=
  (fingerprint byteSum key value, { key, value, nextEntryFps })

/-- The entries of `a`, `b` and `c`, each linked to the next one. -/
def oneChain : Dic :=
  [chained [0x61] [0x41] [173], chained [0x62] [0x42] [175], chained [0x63] [0x43] []]

/-- The entry of `a` is linked to that of `bc`, too. -/
def twoChains : Dic :=
  [chained [0x61] [0x41] [173, 339], chained [0x62] [0x42] [175], chained [0x63] [0x43] [],
    chained [0x62, 0x63] [0x42, 0x43] []]

theorem clearHistoryEntry_clears_chain : ∃ deleted dic',
    clearHistoryEntry byteSum 4 [0x61, 0x62, 0x63] [0x41, 0x42, 0x43] oneChain =
      some (deleted, dic') ∧
    Cleared [0x61, 0x62, 0x63] [0x41, 0x42, 0x43] 501 oneChain dic' := by
  have hne : NonEmpty oneChain := forall_lookup (by decide)
  have hkey : maybeNormalizePrefixSpace [0x61, 0x62, 0x63] = [0x61, 0x62, 0x63] := by decide
  have hvalue : maybeNormalizePrefixSpace [0x41, 0x42, 0x43] = [0x41, 0x42, 0x43] := by decide
  have hclears := @clearHistoryEntry_clears [0x61, 0x62, 0x63] [0x41, 0x42, 0x43] oneChain 4 byteSum hne
  rw [hkey, hvalue, show fingerprint byteSum [0x61, 0x62, 0x63] [0x41, 0x42, 0x43] = 501 by decide]
    at hclears
  have hsingle : Single oneChain := forall_lookup (by decide)
  exact hclears (oneLink_of_single hne hsingle) (by decide)

/-- The search cuts the link to `c`; the one to `bc` spells `abc` all the same. -/
theorem clearHistoryEntry_keeps_chain :
    ¬ ∀ (cityFingerprint : Bytes → UInt64) (fuel : Nat) (key value : Bytes) (dic : Dic),
      NonEmpty dic → (maybeNormalizePrefixSpace key).length < fuel →
      ∃ deleted dic', clearHistoryEntry cityFingerprint fuel key value dic = some (deleted, dic') ∧
        Cleared (maybeNormalizePrefixSpace key) (maybeNormalizePrefixSpace value)
          (fingerprint cityFingerprint (maybeNormalizePrefixSpace key)
            (maybeNormalizePrefixSpace value)) dic dic' := by
  intro h
  have hne : NonEmpty twoChains := forall_lookup (by decide)
  obtain ⟨deleted, dic', hclear, hcleared⟩ :=
    h byteSum 4 [0x61, 0x62, 0x63] [0x41, 0x42, 0x43] twoChains hne (by decide)
  have hdic : clearHistoryEntry byteSum 4 [0x61, 0x62, 0x63] [0x41, 0x42, 0x43] twoChains =
      some (true, [chained [0x61] [0x41] [173, 339], chained [0x62] [0x42] [],
        chained [0x63] [0x43] [], chained [0x62, 0x63] [0x42, 0x43] []]) := by decide
  rw [hdic] at hclear
  obtain ⟨-, rfl⟩ := Prod.mk.inj (Option.some.inj hclear)
  refine hcleared.noChain 171 (171, 339) ?_
  exact @Chain.link _ 171 339 (chained [0x61] [0x41] [173, 339]).2
    (chained [0x62, 0x63] [0x42, 0x43] []).2 rfl (by decide) rfl

end clear

end Mozkey.Prediction
