import Mozkey.Prediction.UserHistoryLookup
import Mozkey.Prediction.UserHistoryRevert

/-! Which lookups keep removed entries out of the results.  The queue never holds the key and the
value of a removed entry, unless one of the two lookups puts it there that do not ask. -/

namespace Mozkey.Prediction

open Storage Base

/-- The entries of a storage stand under their own fingerprints, each once. -/
structure Keyed (cityFingerprint : Bytes → UInt64) (dic : Dic) : Prop where
  nodup : (dic.map Prod.fst).Nodup
  fp_eq : ∀ fp entry, RecencyList.lookup dic fp = some entry → entry.fp cityFingerprint = fp

/-- A stored entry with this key and value is marked as removed. -/
def IsRemoved (dic : Dic) (key value : Bytes) : Prop :=
  ∃ fp entry, RecencyList.lookup dic fp = some entry ∧ entry.key = key ∧ entry.value = value ∧
    entry.removed = true

/-- No candidate of the queue has the key and the value of a removed entry. -/
def Clean (dic : Dic) (queue : EntryPriorityQueue) : Prop :=
  ∀ element ∈ queue.agenda, ¬ IsRemoved dic element.pooled.entry.key element.pooled.entry.value

/-- An entry that is not marked as removed does not have the key and the value of a removed one. -/
def Marked (dic : Dic) (entry : Entry) : Prop :=
  entry.removed = false → ¬ IsRemoved dic entry.key entry.value

section queue

variable {modules : Modules} {dic : Dic} {queue : EntryPriorityQueue} {pooled : PooledEntry}
  {entry : Entry}

theorem clean_push (h : Clean dic queue) (hpooled : ¬ IsRemoved dic pooled.entry.key pooled.entry.value) :
    Clean dic (queue.push modules pooled) := by
  rw [EntryPriorityQueue.push]
  split
  · exact h
  · exact List.forall_mem_cons.mpr ⟨hpooled, h⟩

theorem clean_newEntry (h : Clean dic queue) : Clean dic (queue.newEntry modules entry).2 := h

theorem mem_top (element : QueueElement) (agenda : List QueueElement) :
    EntryPriorityQueue.top element agenda ∈ element :: agenda := by
  induction agenda generalizing element with
  | nil => exact List.mem_singleton_self element
  | cons x agenda ih =>
    have htop := ih (if element.Less x then x else element)
    rw [EntryPriorityQueue.top, List.foldl_cons]
    rcases List.mem_cons.mp htop with heq | hmem
    · rw [EntryPriorityQueue.top] at heq
      rw [heq]
      split
      · exact List.mem_cons_of_mem _ List.mem_cons_self
      · exact List.mem_cons_self
    · exact List.mem_cons_of_mem _ (List.mem_cons_of_mem _ hmem)

theorem pop_spec {rest : EntryPriorityQueue} (h : Clean dic queue)
    (hpop : queue.pop = some (entry, rest)) :
    ¬ IsRemoved dic entry.key entry.value ∧ Clean dic rest := by
  rw [EntryPriorityQueue.pop] at hpop
  split at hpop
  · cases hpop
  · rename_i element agenda hagenda
    obtain ⟨rfl, rfl⟩ := Prod.mk.inj (Option.some.inj hpop)
    refine ⟨h _ (hagenda ▸ mem_top element agenda), fun x hx => h x ?_⟩
    rw [hagenda]
    exact List.mem_of_mem_erase hx

end queue

section lookups

variable {modules : Modules} {request : LookupRequest} {dic : Dic} {queue : EntryPriorityQueue}
  {entry : Entry} {prevEntry : Option Entry}

theorem isRemoved_iff (hkeyed : Keyed modules.cityFingerprint dic) (entry : Entry) :
    IsRemoved dic entry.key entry.value ↔
      ∃ stored, RecencyList.lookup dic (entry.fp modules.cityFingerprint) = some stored ∧
        stored.key = entry.key ∧ stored.value = entry.value ∧ stored.removed = true := by
  constructor
  · rintro ⟨fp, stored, hstored, hkey, hvalue, hremoved⟩
    refine ⟨stored, ?_, hkey, hvalue, hremoved⟩
    have hfp := hkeyed.fp_eq fp stored hstored
    rw [Entry.fp] at hfp
    rw [Entry.fp, ← hkey, ← hvalue, hfp]
    exact hstored
  · rintro ⟨stored, hstored, hrest⟩
    exact ⟨_, stored, hstored, hrest⟩

theorem marked_addEntryWithNewKeyValue (hkeyed : Keyed modules.cityFingerprint dic)
    (key value : Bytes) (innerSegmentBoundary : List UInt32) :
    Marked dic (addEntryWithNewKeyValue modules dic key value innerSegmentBoundary entry
      queue).1.entry := by
  intro hremoved hisRemoved
  obtain ⟨stored, hstored, -, -, hstoredRemoved⟩ := (isRemoved_iff hkeyed _).mp hisRemoved
  have hany : (RecencyList.lookup dic ((maybePopulateInnerSegmentBoundary innerSegmentBoundary
      { entry with key, value }).fp modules.cityFingerprint)).any Entry.removed = false := hremoved
  have hfp : (maybePopulateInnerSegmentBoundary innerSegmentBoundary
      { entry with key, value }).fp modules.cityFingerprint =
        (addEntryWithNewKeyValue modules dic key value innerSegmentBoundary entry
          queue).1.entry.fp modules.cityFingerprint := rfl
  rw [hfp, hstored, Option.any_some, hstoredRemoved] at hany
  cases hany

theorem lookup_of_mem (hkeyed : Keyed modules.cityFingerprint dic) {x : UInt64 × Entry} (hx : x ∈ dic) :
    RecencyList.lookup dic x.1 = some x.2 := by
  obtain ⟨entry, hentry⟩ :=
    Option.isSome_iff_exists.mp (lookup_isSome_iff.mpr (List.mem_map_of_mem hx))
  have heq := List.inj_on_of_nodup_map hkeyed.nodup hx (mem_keys_of_lookup hentry) rfl
  rw [hentry, heq]

theorem marked_of_mem (hkeyed : Keyed modules.cityFingerprint dic) (hentry : entry ∈ dic.values) :
    Marked dic entry := by
  obtain ⟨x, hx, rfl⟩ := List.mem_map.mp hentry
  have hlookup := lookup_of_mem hkeyed hx
  have hfp := hkeyed.fp_eq _ _ hlookup
  intro hremoved hisRemoved
  obtain ⟨stored, hstored, -, -, hstoredRemoved⟩ := (isRemoved_iff hkeyed _).mp hisRemoved
  rw [hfp, hlookup] at hstored
  rw [Option.some.inj hstored, hstoredRemoved] at hremoved
  cases hremoved

theorem Marked.setAttribute (h : Marked dic entry) (v : UInt32) :
    Marked dic (setAttribute v entry) := h

theorem marked_boostBigram {mtype : MatchType} {result : Entry} (h : Marked dic result) :
    Marked dic (boostBigram modules mtype entry prevEntry result) := by
  cases prevEntry with
  | none => exact h
  | some prevEntry =>
    unfold boostBigram
    dsimp only
    split
    · exact h
    · split <;> exact h

/-- What a lookup finds says itself whether it was removed, and leaves the queue clean. -/
def MarkedMatch (dic : Dic) (found : Option Match × EntryPriorityQueue) : Prop :=
  (∀ m, found.1 = some m → Marked dic m.result.entry) ∧ Clean dic found.2

theorem markedMatch_none (h : Clean dic queue) : MarkedMatch dic (none, queue) :=
  ⟨fun _ hnone => (Option.some_ne_none _ hnone.symm).elim, h⟩

theorem markedMatch_asStored (hkeyed : Keyed modules.cityFingerprint dic)
    (hentry : entry ∈ dic.values) (h : Clean dic queue) :
    MarkedMatch dic (matchAsStored modules entry queue) := by
  refine ⟨?_, h⟩
  rintro m hm
  rw [← Option.some.inj hm]
  exact marked_of_mem hkeyed hentry

theorem markedMatch_keyValue (hkeyed : Keyed modules.cityFingerprint dic) (h : Clean dic queue)
    (joined : JoinedEntries) (keyValue : KeyValue) :
    MarkedMatch dic (matchKeyValue modules dic entry joined keyValue queue) := by
  refine ⟨?_, h⟩
  rintro m hm
  have hmarked := @marked_addEntryWithNewKeyValue modules dic queue entry hkeyed keyValue.key
    keyValue.value keyValue.innerSegmentBoundary
  rw [← Option.some.inj hm]
  exact hmarked.setAttribute keyValue.resultAttribute

theorem clean_getKeyValueForPartialMatch (h : Clean dic queue) (requestKey : Bytes) :
    Clean dic (getKeyValueForPartialMatch modules request requestKey entry queue).2 := by
  rw [getKeyValueForPartialMatch]
  split
  · exact h
  · dsimp only
    split
    · exact h
    · split
      · exact h
      · split <;> exact h

theorem markedMatch_matchEntry (hkeyed : Keyed modules.cityFingerprint dic)
    (hentry : entry ∈ dic.values) (h : Clean dic queue) (requestKey : Bytes) (mtype : MatchType)
    (exactMatchOnly : Bool) :
    MarkedMatch dic (matchEntry modules request dic requestKey mtype entry prevEntry exactMatchOnly
      queue) := by
  cases mtype with
  | noMatch => exact markedMatch_none h
  | leftEmptyMatch =>
    rw [matchEntry]
    split
    · exact markedMatch_asStored hkeyed hentry h
    · exact markedMatch_none h
  | leftPrefixMatch => exact markedMatch_asStored hkeyed hentry h
  | rightPrefixMatch =>
    rw [matchEntry]
    dsimp only
    split
    · exact markedMatch_keyValue hkeyed h _ _
    · have hpartial := @clean_getKeyValueForPartialMatch modules request dic queue entry h requestKey
      split
      · exact markedMatch_keyValue hkeyed hpartial _ _
      · exact markedMatch_none hpartial
  | exactMatch =>
    rw [matchEntry]
    dsimp only
    split
    · exact markedMatch_asStored hkeyed hentry h
    · split
      · exact markedMatch_keyValue hkeyed h _ _
      · exact markedMatch_none h

theorem clean_pushJoined (hkeyed : Keyed modules.cityFingerprint dic) (h : Clean dic queue)
    (requestKey : Bytes) (found : Match) (result : Entry) :
    Clean dic (pushJoined modules dic requestKey found result queue) := by
  rw [pushJoined]
  split
  · exact h
  · split
    · exact h
    · split
      · exact h
      · split
        · dsimp only
          split
          · exact h
          · rename_i hremoved
            apply clean_push
            · exact h
            · apply marked_addEntryWithNewKeyValue hkeyed
              exact Bool.eq_false_of_not_eq_true hremoved
        · exact h

theorem clean_lookupEntry (hkeyed : Keyed modules.cityFingerprint dic) (hentry : entry ∈ dic.values)
    (h : Clean dic queue) (requestKey keyBase : Bytes) (keyExpanded : Option (Trie Bytes))
    (exactMatchOnly : Bool) :
    Clean dic (lookupEntry modules request dic requestKey keyBase keyExpanded entry prevEntry
      exactMatchOnly queue).2 := by
  have hmatch := @markedMatch_matchEntry modules request dic queue entry prevEntry hkeyed hentry h
    requestKey (getMatchTypeFromInput requestKey keyBase keyExpanded entry.key) exactMatchOnly
  rw [lookupEntry]
  dsimp only
  split
  · exact h
  · split
    · exact h
    · split
      · exact h
      · split
        · rename_i queue' heq
          rw [heq] at hmatch
          exact hmatch.2
        · rename_i found queue' heq
          rw [heq] at hmatch
          obtain ⟨hmarked, hclean⟩ := hmatch
          have hboost := @marked_boostBigram modules dic entry prevEntry
            (getMatchTypeFromInput requestKey keyBase keyExpanded entry.key) _ (hmarked found rfl)
          have hpushed : Clean dic (if ¬ (boostBigram modules
              (getMatchTypeFromInput requestKey keyBase keyExpanded entry.key) entry prevEntry
              found.result.entry).removed = true ∧ 0 < (boostBigram modules
              (getMatchTypeFromInput requestKey keyBase keyExpanded entry.key) entry prevEntry
              found.result.entry).suggestionFreq then
              queue'.push modules { found.result with
                entry := boostBigram modules
                  (getMatchTypeFromInput requestKey keyBase keyExpanded entry.key) entry prevEntry
                  found.result.entry } else queue') := by
            split
            · rename_i hremoved
              apply clean_push hclean
              exact hboost (Bool.eq_false_of_not_eq_true hremoved.1)
            · exact hclean
          split
          · exact hpushed
          · exact clean_pushJoined hkeyed hpushed requestKey found _

end lookups

section visits

variable {modules : Modules} {request : LookupRequest} {dic : Dic} {queue : EntryPriorityQueue}
  {entry : Entry} {prevEntry : Option Entry}

/-- `RomanFuzzyLookupEntry` and `ZeroQueryLookupEntry` may get to see this entry. -/
def PassedOver (modules : Modules) (request : LookupRequest) (dic : Dic) (prevEntry : Option Entry)
    (entry : Entry) : Prop :=
  isValidEntryIgnoringRemovedField modules entry = true ∧
    isLowFreqFullSentenceEntry request entry = false ∧
    ∃ queue, (lookupEntry modules request dic (getInputKeyFromRequest request).1
      (getInputKeyFromRequest request).2.1 (getInputKeyFromRequest request).2.2 entry prevEntry false
      queue).1 = false

/-- No removed entry is a fuzzy match of the request, and none is what a zero query would offer. -/
structure OffersNoRemoved (modules : Modules) (request : LookupRequest) (dic : Dic)
    (prevEntry : Option Entry) : Prop where
  romanFuzzy : ∀ entry ∈ dic.values, PassedOver modules request dic prevEntry entry →
    getRomanMisspelledKey modules request ≠ [] →
    romanFuzzyPrefixMatch (modules.hiraganaToRomanji entry.key)
      (getRomanMisspelledKey modules request) = true → entry.removed = false
  zeroQuery : ∀ entry ∈ dic.values, PassedOver modules request dic prevEntry entry →
    ∀ key value, zeroQuerySuffix modules request request.stringForPreedit entry prevEntry =
      some (key, value) → ¬ IsRemoved dic key value

theorem clean_romanFuzzyLookupEntry (hkeyed : Keyed modules.cityFingerprint dic)
    (hentry : entry ∈ dic.values) (h : Clean dic queue) (romanRequestKey : Bytes)
    (hremoved : romanRequestKey ≠ [] → romanFuzzyPrefixMatch (modules.hiraganaToRomanji entry.key)
      romanRequestKey = true → entry.removed = false) :
    Clean dic (romanFuzzyLookupEntry modules romanRequestKey entry queue).2 := by
  rw [romanFuzzyLookupEntry]
  split
  · exact h
  · rename_i hne
    split
    · exact h
    · rename_i hmatch
      have hnot : ¬ IsRemoved dic entry.key entry.value :=
        marked_of_mem hkeyed hentry (hremoved hne (not_not.mp hmatch))
      exact clean_push (clean_newEntry h) hnot

theorem clean_zeroQueryLookupEntry (h : Clean dic queue) (requestKey : Bytes)
    (hremoved : ∀ key value, zeroQuerySuffix modules request requestKey entry prevEntry =
      some (key, value) → ¬ IsRemoved dic key value) :
    Clean dic (zeroQueryLookupEntry modules request requestKey entry prevEntry queue).2 := by
  rw [zeroQueryLookupEntry]
  split
  · exact h
  · rename_i key value hsuffix
    refine clean_push (clean_newEntry h) ?_
    exact hremoved key value hsuffix

theorem clean_lookupCorrected (hkeyed : Keyed modules.cityFingerprint dic)
    (hentry : entry ∈ dic.values) (h : Clean dic queue) (corrected : List TypeCorrectedQuery) :
    Clean dic (lookupCorrected modules request dic entry prevEntry corrected queue) := by
  induction corrected generalizing queue with
  | nil => exact h
  | cons c corrected ih =>
    rw [lookupCorrected]
    split
    · have hclean := @clean_lookupEntry modules request dic queue entry prevEntry hkeyed hentry h
        c.correction c.correction none false
      split
      · rename_i heq
        rw [heq] at hclean
        exact hclean
      · rename_i heq
        rw [heq] at hclean
        exact ih hclean
    · exact ih h

theorem clean_visitForPrediction (hkeyed : Keyed modules.cityFingerprint dic)
    (hoffers : OffersNoRemoved modules request dic prevEntry) (hentry : entry ∈ dic.values)
    (h : Clean dic queue) : Clean dic (visitForPrediction modules request dic prevEntry entry queue) := by
  rw [visitForPrediction]
  dsimp only
  split
  · exact h
  · rename_i hvalid
    have hlookup := @clean_lookupEntry modules request dic queue entry prevEntry hkeyed hentry h
      (getInputKeyFromRequest request).1 (getInputKeyFromRequest request).2.1
      (getInputKeyFromRequest request).2.2 false
    split
    · rename_i heq
      rw [heq] at hlookup
      exact hlookup
    · rename_i queue' heq
      rw [heq] at hlookup
      split
      · exact hlookup
      · rename_i hfreq
        have hpassed : PassedOver modules request dic prevEntry entry :=
          ⟨not_not.mp hvalid, Bool.eq_false_of_not_eq_true hfreq, queue, congrArg Prod.fst heq⟩
        have hroman := @clean_romanFuzzyLookupEntry modules dic queue' entry hkeyed hentry hlookup
          (getRomanMisspelledKey modules request) (hoffers.romanFuzzy entry hentry hpassed)
        split
        · rename_i heq'
          rw [heq'] at hroman
          exact hroman
        · rename_i queue'' heq'
          rw [heq'] at hroman
          have hzero := @clean_zeroQueryLookupEntry modules request dic queue'' entry prevEntry hroman
            (getInputKeyFromRequest request).1 (hoffers.zeroQuery entry hentry hpassed)
          split
          · rename_i heq''
            rw [heq''] at hzero
            exact hzero
          · rename_i heq''
            rw [heq''] at hzero
            exact clean_lookupCorrected hkeyed hentry hzero _

theorem clean_visitForConversion (hkeyed : Keyed modules.cityFingerprint dic)
    (hentry : entry ∈ dic.values) (h : Clean dic queue) :
    Clean dic (visitForConversion modules request dic prevEntry entry queue) := by
  rw [visitForConversion]
  split
  · exact h
  · exact clean_lookupEntry hkeyed hentry h _ _ _ _

theorem clean_createEntryQueue {visit : Entry → EntryPriorityQueue → EntryPriorityQueue}
    {maxEntryQueueSize : Nat} {entries : List Entry}
    (hvisit : ∀ entry ∈ entries, ∀ queue, Clean dic queue → Clean dic (visit entry queue))
    (h : Clean dic queue) : Clean dic (createEntryQueue visit maxEntryQueueSize entries queue) := by
  induction entries generalizing queue with
  | nil => exact h
  | cons entry entries ih =>
    obtain ⟨hhead, htail⟩ := List.forall_mem_cons.mp hvisit
    rw [createEntryQueue]
    split
    · exact h
    · exact ih htail (hhead queue h)

end visits

section results

variable {modules : Modules} {request : LookupRequest} {dic : Dic} {queue : EntryPriorityQueue}

theorem chooseEntries_spec {maxPredictionSize maxPredictionCharCoverage fuel : Nat}
    {entries : List Entry} {insertedCharCoverage : Nat} (h : Clean dic queue)
    (hentries : ∀ entry ∈ entries, ¬ IsRemoved dic entry.key entry.value) :
    ∀ entry ∈ chooseEntries modules maxPredictionSize maxPredictionCharCoverage fuel queue entries
      insertedCharCoverage, ¬ IsRemoved dic entry.key entry.value := by
  induction fuel generalizing queue entries insertedCharCoverage with
  | zero => exact hentries
  | succ fuel ih =>
    rw [chooseEntries]
    split
    · exact hentries
    · split
      · exact hentries
      · rename_i entry rest hpop
        obtain ⟨hentry, hrest⟩ := pop_spec h hpop
        split
        · exact ih hrest hentries
        · split
          · apply ih hrest
            intro e he
            rcases List.mem_or_eq_of_mem_set he with hmem | rfl
            · exact hentries e hmem
            · exact hentry
          · split
            · exact hentries
            · apply ih hrest
              intro e he
              rcases List.mem_append.mp he with hmem | hmem
              · exact hentries e hmem
              · rw [List.mem_singleton.mp hmem]
                exact hentry

/-- No result has the key and the value of a removed entry. -/
def NoneRemoved (dic : Dic) (results : List PredictionResult) : Prop :=
  ∀ result ∈ results, ¬ IsRemoved dic result.key result.value

theorem noneRemoved_makeEntries {maxPredictionSize maxPredictionCharCoverage : Nat}
    (h : Clean dic queue) :
    NoneRemoved dic ((makeEntries modules maxPredictionSize maxPredictionCharCoverage queue).map
      resultOfEntry) := by
  intro result hresult
  obtain ⟨entry, hentry, rfl⟩ := List.mem_map.mp hresult
  exact chooseEntries_spec h (fun _ hnil => absurd hnil List.not_mem_nil) entry hentry

theorem noneRemoved_nil : NoneRemoved dic [] := fun _ hnil => absurd hnil List.not_mem_nil

theorem clean_empty : Clean dic {} := fun _ hnil => absurd hnil List.not_mem_nil

end results

def hiraganaModules : Modules where
  cityFingerprint := byteSum
  hashOf := byteSum
  charScriptType _ := .hiragana
  scriptType _ := .hiragana
  firstScriptType _ := .hiragana
  isHiragana _ := true
  hiraganaToRomanji key := key
  isSuppressedEntry _ _ := false
  decodeSuffix _ _ _ := none
  correctComposition _ := none
  firstNameId := 0
  isFunctional _ := false
  prefixPenalty _ := 0
  transitionCost _ _ := 0
  address n := n

def hiraganaTa : Bytes := [0xe3, 0x81, 0x9f]

def hiraganaDe : Bytes := [0xe3, 0x81, 0xa7]

def storedWord (word : Bytes) (removed : Bool) : UInt64 × Entry :=
  (fingerprint byteSum word word,
    { key := word, value := word, suggestionFreq := if removed then 0 else 1, removed })

theorem keyed_of_forall {cityFingerprint : Bytes → UInt64} {dic : Dic} (hnodup : (dic.map Prod.fst).Nodup)
    (h : ∀ x ∈ dic, x.2.fp cityFingerprint = x.1) : Keyed cityFingerprint dic :=
  ⟨hnodup, fun fp entry hentry => h (fp, entry) (mem_keys_of_lookup hentry)⟩

/-- The second word was removed. -/
def storedWords : Dic :=
  [storedWord hiraganaTa false, storedWord hiraganaDe true,
    storedWord (hiraganaTa ++ hiraganaDe) false]

theorem keyed_storedWords : Keyed hiraganaModules.cityFingerprint storedWords :=
  keyed_of_forall (by decide) (by decide)

def typedRequest : LookupRequest :=
  { key := hiraganaTa, stringForPreedit := hiraganaTa, queriesForPrediction := (hiraganaTa, []) }

/-- The first word was committed, and nothing is typed. -/
def zeroQueryRequest : LookupRequest :=
  { zeroQuerySuggestion := true, historyResult := { key := hiraganaTa, value := hiraganaTa } }

end Mozkey.Prediction
