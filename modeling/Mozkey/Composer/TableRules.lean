import Mozkey.Base.Container.TrieBytes
import Mozkey.Composer.Table

/-! What `AddRuleWithAttributes` does to the lookups of a table. -/

namespace Mozkey.Composer

open Storage Base

namespace Table

variable (table : Table) (escapedInput output escapedPending : Bytes) (attributes : TableAttributes)

def ruleInput : Bytes := (table.specialKeyMap.register escapedInput).1

def rulePending : Bytes := ((table.specialKeyMap.register escapedInput).2.register escapedPending).1

def ruleKeys : SpecialKeyMap := ((table.specialKeyMap.register escapedInput).2.register escapedPending).2

def ruleEntry : Entry where
  input := table.ruleInput escapedInput
  result := output
  pending := table.rulePending escapedInput escapedPending
  attributes := attributes

def OverSize : Prop :=
  kMaxSize ≤ escapedInput.length ∨ kMaxSize ≤ output.length ∨ kMaxSize ≤ escapedPending.length

instance : Decidable (OverSize escapedInput output escapedPending) :=
  inferInstanceAs (Decidable (_ ∨ _ ∨ _))

def hasCapital (input : Bytes) : Bool :=
  (utf8ToUtf32 (deleteSpecialKeys input)).any fun c => 0x41 ≤ c && c ≤ 0x5a

/-- The table after a rule that is looping, and the one after a rule that is added. -/
def ruleResult (looping : Bool) : Option Entry × Table :=
  let keys := table.ruleKeys escapedInput escapedPending
  if looping then (none, { table with specialKeyMap := keys })
  else
    let entry := table.ruleEntry escapedInput output escapedPending attributes
    (some entry,
      { entries := table.entries.addEntry entry.input entry
        specialKeyMap := keys
        caseSensitive := table.caseSensitive || hasCapital entry.input })

variable {table escapedInput output escapedPending attributes} {fuel : Nat}

theorem insertRule_of_overSize (h : OverSize escapedInput output escapedPending) :
    table.insertRule fuel escapedInput output escapedPending attributes = some (none, table) := by
  rw [insertRule]
  exact if_pos h

theorem isLoopingEntry_setKeys (keys : SpecialKeyMap) (input pending : Bytes) :
    { table with specialKeyMap := keys }.isLoopingEntry fuel input pending =
      table.isLoopingEntry fuel input pending := by
  have hloop : ∀ key, { table with specialKeyMap := keys }.isLoopingEntryLoop input fuel key =
      table.isLoopingEntryLoop input fuel key := by
    induction fuel with
    | zero => exact fun _ => rfl
    | succ fuel ih =>
      intro key
      rw [isLoopingEntryLoop, isLoopingEntryLoop]
      simp only [ih]
      rfl
  rw [isLoopingEntry, isLoopingEntry, hloop]

theorem insertRule_eq (h : ¬ OverSize escapedInput output escapedPending) :
    table.insertRule fuel escapedInput output escapedPending attributes =
      (table.isLoopingEntry fuel (table.ruleInput escapedInput)
        (table.rulePending escapedInput escapedPending)).map
          (table.ruleResult escapedInput output escapedPending attributes) := by
  rw [insertRule]
  refine (if_neg h).trans ?_
  rw [← isLoopingEntry_setKeys (table.ruleKeys escapedInput escapedPending)]
  show Option.bind ({ table with
    specialKeyMap := table.ruleKeys escapedInput escapedPending }.isLoopingEntry fuel
      (table.ruleInput escapedInput) (table.rulePending escapedInput escapedPending)) _ = _
  generalize { table with
    specialKeyMap := table.ruleKeys escapedInput escapedPending }.isLoopingEntry fuel
      (table.ruleInput escapedInput) (table.rulePending escapedInput escapedPending) = looping
  rcases looping with _ | _ | _ <;> rfl

section lookups

variable {table' : Table} {returned : Option Entry}

def SameAnswers (table table' : Table) : Prop :=
  ∀ input, table'.lookUp input = table.lookUp input ∧
    table'.lookUpPrefix input = table.lookUpPrefix input ∧
    table'.hasNewChunkEntry input = table.hasNewChunkEntry input

/-- The entries are in the trie in this order, the first one as the last that was added. -/
def Added (table table' : Table) (added : List Entry) : Prop :=
  table'.entries = added.foldr (fun entry trie => trie.addEntry entry.input entry) table.entries ∧
    table'.caseSensitive = (table.caseSensitive || added.any fun entry => hasCapital entry.input)

theorem Added.sameAnswers (h : Added table table' []) : SameAnswers table table' := by
  obtain ⟨hentries, hcase⟩ := h
  have hcase' : table'.caseSensitive = table.caseSensitive := by
    rw [hcase, List.any_nil, Bool.or_false]
  have hprefix : ∀ input, table'.lookUpPrefix input = table.lookUpPrefix input := by
    intro input
    rw [lookUpPrefix, lookUpPrefix, normalized, normalized, hcase', hentries]
    rfl
  intro input
  refine ⟨?_, hprefix input, ?_⟩
  · rw [lookUp, lookUp, normalized, normalized, hcase', hentries]
    rfl
  · rw [hasNewChunkEntry, hasNewChunkEntry, hprefix]

theorem Added.trans {table₁ : Table} {added added' : List Entry} (h : Added table table₁ added)
    (h' : Added table₁ table' added') : Added table table' (added' ++ added) := by
  refine ⟨?_, ?_⟩
  · rw [h'.1, h.1, List.foldr_append]
  · rw [h'.2, h.2, List.any_append, Bool.or_assoc, Bool.or_comm (List.any added _)]

theorem Added.lookUp {added : List Entry} (h : Added table table' added) (input : Bytes) :
    table'.lookUp input =
      (added.find? fun entry =>
        Trie.keyChars (table'.normalized input) = Trie.keyChars entry.input).or
          ({ table with caseSensitive := table'.caseSensitive }.lookUp input) := by
  have hkey : { table with caseSensitive := table'.caseSensitive }.normalized input =
      table'.normalized input := rfl
  rw [Table.lookUp, Table.lookUp, hkey, h.1]
  clear h
  generalize table'.normalized input = key
  induction added with
  | nil => rfl
  | cons entry added ih =>
    rw [List.foldr_cons, Trie.lookUp_addEntry, List.find?_cons]
    by_cases hchars : Trie.keyChars key = Trie.keyChars entry.input
    · rw [if_pos hchars, decide_eq_true hchars]
      rfl
    · rw [if_neg hchars, decide_eq_false hchars, ih]

theorem insertRule_added
    (h : table.insertRule fuel escapedInput output escapedPending attributes =
      some (returned, table')) :
    (∀ entry, returned = some entry →
      entry = table.ruleEntry escapedInput output escapedPending attributes) ∧
      Added table table' returned.toList := by
  by_cases hsize : OverSize escapedInput output escapedPending
  · rw [insertRule_of_overSize hsize] at h
    cases h
    exact ⟨nofun, rfl, (Bool.or_false _).symm⟩
  · rw [insertRule_eq hsize, Option.map_eq_some_iff] at h
    obtain ⟨looping, -, hresult⟩ := h
    cases looping
    · cases hresult
      refine ⟨fun entry hentry => (Option.some.inj hentry).symm, rfl, ?_⟩
      simp only [Option.toList_some, List.any_cons, List.any_nil, Bool.or_false]
    · cases hresult
      exact ⟨nofun, rfl, (Bool.or_false _).symm⟩

/-- The first step of `AddRuleWithAttributes`: the entry that it adds for a new chunk, and the
table. -/
def NewChunkStep (table : Table) (fuel : Nat) (escapedInput output escapedPending : Bytes)
    (attributes : TableAttributes) (extra : Option Entry) (table₁ : Table) : Prop :=
  if hasAttribute attributes NEW_CHUNK then
    table.insertRule fuel (kNewChunkPrefix ++ escapedInput) output escapedPending
      NO_TABLE_ATTRIBUTE = some (extra, table₁)
  else extra = none ∧ table₁ = table

theorem NewChunkStep.added {extra : Option Entry} {table₁ : Table}
    (h : table.NewChunkStep fuel escapedInput output escapedPending attributes extra table₁) :
    Added table table₁ extra.toList := by
  rw [NewChunkStep] at h
  split at h
  · exact (insertRule_added h).2
  · obtain ⟨rfl, rfl⟩ := h
    exact ⟨rfl, (Bool.or_false _).symm⟩

theorem addRuleWithAttributes_cases
    (h : table.addRuleWithAttributes fuel escapedInput output escapedPending attributes =
      some (returned, table')) :
    ∃ extra table₁,
      table.NewChunkStep fuel escapedInput output escapedPending attributes extra table₁ ∧
      table₁.insertRule fuel escapedInput output escapedPending attributes =
        some (returned, table') := by
  rw [addRuleWithAttributes] at h
  by_cases hnew : hasAttribute attributes NEW_CHUNK
  · rw [if_pos hnew, Option.bind_eq_bind, Option.bind_eq_some_iff] at h
    obtain ⟨_, hfirst, hrule⟩ := h
    obtain ⟨⟨extra, table₁⟩, hstep, rfl⟩ := Option.map_eq_some_iff.mp hfirst
    exact ⟨extra, table₁, by rwa [NewChunkStep, if_pos hnew], hrule⟩
  · rw [if_neg hnew] at h
    exact ⟨none, table, by rw [NewChunkStep, if_neg hnew]; exact ⟨rfl, rfl⟩, h⟩

/-- A returned entry is found with all inputs that are folded to its characters, all others are
looked up in the old table; without any entry nothing changes. -/
theorem addRuleWithAttributes_lookUp
    (h : table.addRuleWithAttributes fuel escapedInput output escapedPending attributes =
      some (returned, table')) :
    ∃ extra table₁,
      table.NewChunkStep fuel escapedInput output escapedPending attributes extra table₁ ∧
      (∀ entry, returned = some entry →
        entry = table₁.ruleEntry escapedInput output escapedPending attributes ∧
        table'.caseSensitive = (table.caseSensitive ||
          (entry :: extra.toList).any fun added => hasCapital added.input) ∧
        (table'.normalized entry.input = entry.input → table'.lookUp entry.input = some entry) ∧
        ∀ input, table'.lookUp input =
          ((entry :: extra.toList).find? fun added =>
            Trie.keyChars (table'.normalized input) = Trie.keyChars added.input).or
              ({ table with caseSensitive := table'.caseSensitive }.lookUp input)) ∧
      (returned = none → extra = none → SameAnswers table table') := by
  obtain ⟨extra, table₁, hstep, hrule⟩ := addRuleWithAttributes_cases h
  obtain ⟨hentry, hadded⟩ := insertRule_added hrule
  have hboth := hstep.added.trans hadded
  refine ⟨extra, table₁, hstep, ?_, ?_⟩
  · rintro entry rfl
    refine ⟨hentry entry rfl, hboth.2, fun hnormalized => ?_, hboth.lookUp⟩
    rw [hboth.lookUp, hnormalized, Option.toList_some, List.singleton_append, List.find?_cons,
      decide_eq_true rfl]
    rfl
  · rintro rfl rfl
    exact hboth.sameAnswers

/-- The entry of `a`, as a rule of a new chunk, is found on a new table. -/
theorem addRuleWithAttributes_lookUp_new : ∃ entry table',
    Table.new.addRuleWithAttributes 1 (utf8 ['a']) (utf8 ['x']) [] NEW_CHUNK =
      some (some entry, table') ∧ table'.lookUp (utf8 ['a']) = some entry := by
  have hsome : (Table.new.addRuleWithAttributes 1 (utf8 ['a']) (utf8 ['x']) [] NEW_CHUNK).any
      fun r => r.1.any fun entry => entry.input = utf8 ['a'] := by decide +kernel
  obtain ⟨⟨returned, table'⟩, hr, hentry⟩ := (Option.any_eq_true _ _).mp hsome
  obtain ⟨entry, rfl, hinput⟩ := (Option.any_eq_true _ _).mp hentry
  refine ⟨entry, table', hr, ?_⟩
  obtain ⟨extra, table₁, -, hfound, -⟩ := addRuleWithAttributes_lookUp hr
  obtain ⟨-, -, hself, -⟩ := hfound entry rfl
  rw [of_decide_eq_true hinput] at hself
  apply hself
  rw [normalized, lowerString_utf8]
  split <;> rfl

/-- A rule with a capital letter makes the lookups of all others sensitive to the case. -/
theorem not_lookUp_unchanged : ¬ ∀ fuel text table, loadFromString fuel text = some table →
    ∀ escapedInput output escapedPending attributes entry table',
      table.addRuleWithAttributes fuel escapedInput output escapedPending attributes =
        some (some entry, table') →
      ∀ input, input ≠ entry.input → table'.lookUp input = table.lookUp input := by
  intro h
  have hload : (loadFromString 1 (utf8 ['b', '\t', 'x'])).any fun table =>
      (table.lookUp (utf8 ['B'])).isSome &&
        (table.addRuleWithAttributes 1 (utf8 ['A']) (utf8 ['y']) [] NO_TABLE_ATTRIBUTE).any fun r =>
          r.1.any fun entry => entry.input = utf8 ['A'] && (r.2.lookUp (utf8 ['B'])).isNone := by
    decide +kernel
  obtain ⟨table, htable, hrest⟩ := (Option.any_eq_true _ _).mp hload
  obtain ⟨hbefore, hadd⟩ := Bool.and_eq_true_iff.mp hrest
  obtain ⟨⟨returned, table'⟩, hr, hentry⟩ := (Option.any_eq_true _ _).mp hadd
  obtain ⟨entry, rfl, hcheck⟩ := (Option.any_eq_true _ _).mp hentry
  obtain ⟨hinput, hafter⟩ := Bool.and_eq_true_iff.mp hcheck
  have hsame := h 1 _ table htable _ _ _ _ entry table' hr (utf8 ['B']) (by
    rw [of_decide_eq_true hinput]
    decide)
  rw [hsame, Option.isNone_iff_eq_none] at hafter
  rw [hafter] at hbefore
  cases hbefore

end lookups

end Table

end Mozkey.Composer
