import Mozkey.Composer.TableRules
import Mozkey.Lib.PrefixRewriting

/-! When the calls of `AddRule` return: `IsLoopingEntry` rewrites the pending text of a new rule with
the rules of the table, and only finds out that its own input comes back. -/

namespace Mozkey.Composer

open Storage Base Lib.PrefixRewriting

namespace Table

variable (table : Table)

/-- A round of the loop of `IsLoopingEntry`; without result the loop ends. -/
def rewriteStep (input key : Bytes) : Option Bytes :=
  if input.isPrefixOf key ∨ key = [] then none
  else
    match table.lookUpPrefix key with
    | (none, _, _) => none
    | (some entry, keyLength, _) => some (entry.pending ++ key.drop keyLength)

variable {table} {input key : Bytes}

theorem isLoopingEntryLoop_of_end {fuel : Nat} (h : table.rewriteStep input key = none)
    (hkey : key ≠ []) : (table.isLoopingEntryLoop input (fuel + 1) key).isSome := by
  rw [rewriteStep] at h
  rw [isLoopingEntryLoop]
  split at h
  · rename_i hend
    rw [if_pos (hend.resolve_right hkey)]
    rfl
  · rename_i hgo
    rw [if_neg fun hprefix => hgo (.inl hprefix)]
    rcases hlook : table.lookUpPrefix key with ⟨_ | entry, keyLength, fixed⟩
    · rfl
    · rw [hlook] at h
      cases h

theorem isLoopingEntryLoop_of_step {fuel : Nat} {next : Bytes}
    (h : table.rewriteStep input key = some next) :
    table.isLoopingEntryLoop input (fuel + 1) key =
      if next = [] then some false else table.isLoopingEntryLoop input fuel next := by
  rw [rewriteStep] at h
  rw [isLoopingEntryLoop]
  split at h
  · cases h
  · rename_i hgo
    rw [if_neg fun hprefix => hgo (.inl hprefix)]
    rcases hlook : table.lookUpPrefix key with ⟨_ | entry, keyLength, fixed⟩
    · rw [hlook] at h
      cases h
    · rw [hlook] at h
      obtain rfl := Option.some.inj h
      rfl

theorem rewriteStep_nil : table.rewriteStep input [] = none := by
  rw [rewriteStep, if_pos (.inr rfl)]

theorem isLoopingEntryLoop_ends_iff (hkey : key ≠ []) :
    (∃ fuel, (table.isLoopingEntryLoop input fuel key).isSome) ↔
      Terminates (table.rewriteStep input) key := by
  constructor
  · rintro ⟨fuel, h⟩
    induction fuel generalizing key with
    | zero => cases h
    | succ fuel ih =>
      refine ⟨key, fun next hnext => ?_⟩
      by_cases hnil : next = []
      · refine ⟨next, fun last hlast => ?_⟩
        rw [Rewrites, hnil, rewriteStep_nil] at hlast
        cases hlast
      · rw [isLoopingEntryLoop_of_step hnext, if_neg hnil] at h
        exact ih hnil h
  · intro h
    induction h with
    | intro key _ ih =>
      cases hstep : table.rewriteStep input key with
      | none => exact ⟨1, isLoopingEntryLoop_of_end hstep hkey⟩
      | some next =>
        by_cases hnil : next = []
        · refine ⟨1, ?_⟩
          rw [isLoopingEntryLoop_of_step hstep, if_pos hnil]
          rfl
        · obtain ⟨fuel, hfuel⟩ := ih next hstep hnil
          refine ⟨fuel + 1, ?_⟩
          rwa [isLoopingEntryLoop_of_step hstep, if_neg hnil]

section bounds

def rewriteBound (table : Table) (input : Bytes) : Nat :=
  input.length + table.entries.depth + maxCharLen +
    (table.entries.allData.map fun entry => entry.pending.length).sum

theorem length_normalized (table : Table) (key : Bytes) : (table.normalized key).length = key.length := by
  rw [normalized]
  split
  · rfl
  · exact length_lowerString key

theorem take_normalized_append {depth : Nat} (hkey : depth + maxCharLen ≤ key.length) (x : Bytes) :
    (table.normalized key).take depth = (table.normalized (key ++ x)).take depth := by
  rw [normalized, normalized]
  split
  · exact (List.take_append_of_le_length (by omega)).symm
  · exact Trie.take_eq_of_le (by omega) (take_lowerString_append key x).symm

theorem pending_length_le {entry : Entry} (h : (table.lookUpPrefix key).1 = some entry) :
    entry.pending.length ≤ table.rewriteBound input := by
  have hmem := Trie.mem_allData_of_lookUpPrefix h
  have hsum := List.le_sum_of_mem (List.mem_map_of_mem (f := fun e : Entry => e.pending.length) hmem)
  rw [rewriteBound]
  omega

theorem lookUpPrefix_append (hkey : table.rewriteBound input ≤ key.length) (x : Bytes) :
    (table.lookUpPrefix (key ++ x)).1 = (table.lookUpPrefix key).1 ∧
      ((table.lookUpPrefix key).2.1 ≤ table.entries.depth ∧
          (table.lookUpPrefix (key ++ x)).2.1 = (table.lookUpPrefix key).2.1 ∨
        (table.lookUpPrefix key).2.1 = key.length ∧
          (table.lookUpPrefix (key ++ x)).2.1 = (key ++ x).length) := by
  rw [rewriteBound] at hkey
  have htake := @take_normalized_append table key table.entries.depth (by omega) x
  have hlocal := Trie.lookUpPrefix_local
    (by rw [length_normalized]; omega)
    (by rw [length_normalized, List.length_append]; omega) htake
  rw [length_normalized, length_normalized] at hlocal
  obtain ⟨hdata, hlength⟩ := hlocal
  refine ⟨hdata.symm, ?_⟩
  rcases hlength with ⟨hle, heq⟩ | hall
  · exact .inl ⟨hle, heq.symm⟩
  · exact .inr hall

theorem isPrefixOf_append (h : input.length ≤ key.length) (x : Bytes) :
    input.isPrefixOf (key ++ x) = input.isPrefixOf key := by
  rw [Bool.eq_iff_iff, List.isPrefixOf_iff_prefix, List.isPrefixOf_iff_prefix]
  refine ⟨fun hprefix => ?_, fun hprefix => hprefix.trans (List.prefix_append key x)⟩
  exact List.prefix_of_prefix_length_le hprefix (List.prefix_append key x) h

theorem rewriteStep_eq (table : Table) (input key : Bytes) : table.rewriteStep input key =
    if input.isPrefixOf key ∨ key = [] then none
    else (table.lookUpPrefix key).1.map fun entry =>
      entry.pending ++ key.drop (table.lookUpPrefix key).2.1 := by
  rw [rewriteStep]
  rcases table.lookUpPrefix key with ⟨_ | entry, keyLength, fixed⟩ <;> rfl

theorem rewriteStep_local (table : Table) (input : Bytes) :
    Local (table.rewriteStep input) (table.rewriteBound input) := by
  intro key hkey
  have hlong : input.length + maxCharLen + table.entries.depth ≤ key.length := by
    rw [rewriteBound] at hkey
    omega
  rw [maxCharLen] at hlong
  have hne : key ≠ [] := by
    rintro rfl
    rw [List.length_nil] at hlong
    omega
  have hstep : ∀ x, table.rewriteStep input (key ++ x) =
      if input.isPrefixOf key then none
      else (table.lookUpPrefix key).1.map fun entry =>
        entry.pending ++ (key ++ x).drop (table.lookUpPrefix (key ++ x)).2.1 := by
    intro x
    rw [rewriteStep_eq, isPrefixOf_append (by omega), (lookUpPrefix_append hkey x).1]
    simp only [List.append_ne_nil_of_left_ne_nil hne x, or_false]
  have hself : table.rewriteStep input key =
      if input.isPrefixOf key then none
      else (table.lookUpPrefix key).1.map fun entry =>
        entry.pending ++ key.drop (table.lookUpPrefix key).2.1 := by
    rw [rewriteStep_eq]
    simp only [hne, or_false]
  by_cases hinput : input.isPrefixOf key
  · left
    intro x
    rw [hstep, hself, if_pos hinput, if_pos hinput]
    rfl
  cases hdata : (table.lookUpPrefix key).1 with
  | none =>
    left
    intro x
    rw [hstep, hself, if_neg hinput, if_neg hinput, hdata]
    rfl
  | some entry =>
    rw [if_neg hinput, hdata] at hself
    by_cases hle : (table.lookUpPrefix key).2.1 ≤ table.entries.depth
    · left
      intro x
      have hsame : (table.lookUpPrefix (key ++ x)).2.1 = (table.lookUpPrefix key).2.1 := by
        rcases (lookUpPrefix_append hkey x).2 with ⟨-, heq⟩ | ⟨hall, -⟩
        · exact heq
        · omega
      rw [hstep, hself, if_neg hinput, hdata, hsame, Option.map_some, Option.map_some,
        Option.map_some, List.drop_append_of_le_length (by omega), List.append_assoc]
    · right
      refine ⟨entry.pending, pending_length_le hdata, fun x => ?_⟩
      rcases (lookUpPrefix_append hkey x).2 with ⟨hle', -⟩ | ⟨-, hall⟩
      · exact absurd hle' hle
      · rw [hstep, if_neg hinput, hdata, hall, Option.map_some, List.drop_length, List.append_nil]

end bounds

theorem isLoopingEntry_ends_iff (table : Table) (input pending : Bytes) :
    (∃ fuel, (table.isLoopingEntry fuel input pending).isSome) ↔
      input = [] ∨ ¬ Recurs (table.rewriteStep input) pending := by
  rw [← terminates_iff (rewriteStep_local table input)]
  by_cases hinput : input = []
  · refine iff_of_true ⟨0, ?_⟩ (.inl hinput)
    rw [isLoopingEntry, if_pos (.inl hinput)]
    rfl
  by_cases hpending : pending = []
  · refine iff_of_true ⟨0, ?_⟩ (.inr ⟨pending, fun next hnext => ?_⟩)
    · rw [isLoopingEntry, if_pos (.inr hpending)]
      rfl
    · rw [Rewrites, hpending, rewriteStep_nil] at hnext
      cases hnext
  simp only [isLoopingEntry, hinput, hpending, or_self, if_false, false_or]
  exact isLoopingEntryLoop_ends_iff hpending

/-- The rule passes the check of its size, and a text comes back that its pending text is rewritten
to. -/
def RuleRecurs (table : Table) (escapedInput output escapedPending : Bytes) : Prop :=
  ¬ OverSize escapedInput output escapedPending ∧ table.ruleInput escapedInput ≠ [] ∧
    Recurs (table.rewriteStep (table.ruleInput escapedInput))
      (table.rulePending escapedInput escapedPending)

theorem addRule_ends_iff (table : Table) (input output pending : Bytes) :
    (∃ fuel, (table.addRule fuel input output pending).isSome) ↔
      ¬ table.RuleRecurs input output pending := by
  have hrule : ∀ fuel, table.addRule fuel input output pending =
      table.insertRule fuel input output pending NO_TABLE_ATTRIBUTE := fun _ => rfl
  by_cases hsize : OverSize input output pending
  · refine iff_of_true ⟨0, ?_⟩ fun h => h.1 hsize
    rw [hrule, insertRule_of_overSize hsize]
    rfl
  · simp only [hrule, insertRule_eq hsize, Option.isSome_map, isLoopingEntry_ends_iff, RuleRecurs,
      hsize, not_false_eq_true, true_and, not_and_or, not_not, ne_eq]

section runs

structure Rule where
  input : Bytes
  output : Bytes
  pending : Bytes

def addRules (fuel : Nat) (table : Table) (rules : List Rule) : Option Table :=
  rules.foldlM (fun table rule =>
    (table.addRule fuel rule.input rule.output rule.pending).map Prod.snd) table

theorem isLoopingEntryLoop_mono {fuel fuel' : Nat} {b : Bool} (hle : fuel ≤ fuel')
    (h : table.isLoopingEntryLoop input fuel key = some b) :
    table.isLoopingEntryLoop input fuel' key = some b := by
  induction fuel generalizing key fuel' with
  | zero => cases h
  | succ fuel ih =>
    obtain ⟨fuel', rfl⟩ : ∃ n, fuel' = n + 1 := ⟨fuel' - 1, by omega⟩
    rw [isLoopingEntryLoop] at h ⊢
    by_cases hprefix : input.isPrefixOf key
    · rwa [if_pos hprefix] at h ⊢
    rw [if_neg hprefix] at h ⊢
    rcases hlook : table.lookUpPrefix key with ⟨_ | entry, keyLength, fixed⟩
    · rwa [hlook] at h
    · simp only [hlook] at h ⊢
      by_cases hnil : entry.pending ++ key.drop keyLength = []
      · rwa [if_pos hnil] at h ⊢
      · rw [if_neg hnil] at h ⊢
        exact ih (by omega) h

theorem addRule_mono {fuel fuel' : Nat} {input output pending : Bytes} {r : Option Entry × Table}
    (hle : fuel ≤ fuel') (h : table.addRule fuel input output pending = some r) :
    table.addRule fuel' input output pending = some r := by
  change table.insertRule fuel input output pending NO_TABLE_ATTRIBUTE = some r at h
  change table.insertRule fuel' input output pending NO_TABLE_ATTRIBUTE = some r
  by_cases hsize : OverSize input output pending
  · rw [insertRule_of_overSize hsize] at h ⊢
    exact h
  · rw [insertRule_eq hsize, Option.map_eq_some_iff] at h ⊢
    obtain ⟨looping, hlooping, hr⟩ := h
    refine ⟨looping, ?_, hr⟩
    rw [isLoopingEntry] at hlooping ⊢
    by_cases hempty : table.ruleInput input = [] ∨ table.rulePending input pending = []
    · rwa [if_pos hempty] at hlooping ⊢
    · rw [if_neg hempty] at hlooping ⊢
      exact isLoopingEntryLoop_mono hle hlooping

theorem addRules_cons {fuel : Nat} {rule : Rule} {rules : List Rule} :
    addRules fuel table (rule :: rules) =
      (table.addRule fuel rule.input rule.output rule.pending).bind fun r =>
        addRules fuel r.2 rules := by
  rw [addRules, List.foldlM_cons]
  cases table.addRule fuel rule.input rule.output rule.pending <;> rfl

theorem addRules_mono {fuel fuel' : Nat} {rules : List Rule} {table' : Table} (hle : fuel ≤ fuel')
    (h : addRules fuel table rules = some table') : addRules fuel' table rules = some table' := by
  induction rules generalizing table with
  | nil => exact h
  | cons rule rules ih =>
    rw [addRules_cons, Option.bind_eq_some_iff] at h ⊢
    obtain ⟨next, hnext, hrest⟩ := h
    exact ⟨next, addRule_mono hle hnext, ih hrest⟩

/-- A sequence of calls returns exactly if no rule of it comes to a table with which a text comes
back that its pending text is rewritten to. -/
theorem addRules_ends_iff (table : Table) (rules : List Rule) :
    (∃ fuel, (addRules fuel table rules).isSome) ↔
      ∀ before rule after, rules = before ++ rule :: after → ∀ fuel table',
        addRules fuel table before = some table' →
          ¬ table'.RuleRecurs rule.input rule.output rule.pending := by
  induction rules generalizing table with
  | nil =>
    refine iff_of_true ⟨0, rfl⟩ fun before rule after h => ?_
    exact absurd h.symm (List.append_ne_nil_of_right_ne_nil before (List.cons_ne_nil rule after))
  | cons rule rules ih =>
    constructor
    · rintro ⟨fuel, h⟩ before rule' after hsplit fuel' table' hbefore
      obtain ⟨last, hlast⟩ := Option.isSome_iff_exists.mp h
      rw [addRules_cons, Option.bind_eq_some_iff] at hlast
      obtain ⟨next, hnext, hrest⟩ := hlast
      cases before with
      | nil =>
        obtain ⟨rfl, -⟩ := List.cons.inj hsplit
        obtain rfl := Option.some.inj hbefore
        exact (addRule_ends_iff _ _ _ _).mp ⟨fuel, by rw [hnext]; rfl⟩
      | cons first before =>
        obtain ⟨rfl, hrules⟩ := List.cons.inj hsplit
        rw [addRules_cons, Option.bind_eq_some_iff] at hbefore
        obtain ⟨next', hnext', hbefore⟩ := hbefore
        have hsame : next' = next := by
          have hmax := addRule_mono (Nat.le_max_left fuel fuel') hnext
          rw [addRule_mono (Nat.le_max_right fuel fuel') hnext'] at hmax
          exact Option.some.inj hmax
        rw [hsame] at hbefore
        exact (ih next.2).mp ⟨fuel, by rw [hrest]; rfl⟩ before rule' after hrules fuel' table' hbefore
    · intro h
      obtain ⟨fuel, hfuel⟩ := (addRule_ends_iff _ _ _ _).mpr (h [] rule rules rfl 0 table rfl)
      obtain ⟨next, hnext⟩ := Option.isSome_iff_exists.mp hfuel
      have hrest : ∀ before rule' after, rules = before ++ rule' :: after → ∀ fuel' table',
          addRules fuel' next.2 before = some table' →
            ¬ table'.RuleRecurs rule'.input rule'.output rule'.pending := by
        intro before rule' after hsplit fuel' table' hbefore
        apply h (rule :: before) rule' after (by rw [hsplit, List.cons_append]) (max fuel fuel')
        rw [addRules_cons, addRule_mono (Nat.le_max_left _ _) hnext, Option.bind_some]
        exact addRules_mono (Nat.le_max_right _ _) hbefore
      obtain ⟨fuel', hfuel'⟩ := (ih next.2).mpr hrest
      obtain ⟨last, hlast⟩ := Option.isSome_iff_exists.mp hfuel'
      refine ⟨max fuel fuel', ?_⟩
      rw [addRules_cons, addRule_mono (Nat.le_max_left _ _) hnext, Option.bind_some,
        addRules_mono (Nat.le_max_right _ _) hlast]
      rfl

def cyclingRules : List Rule :=
  [⟨utf8 ['a', 'b'], [], utf8 ['c', 'b']⟩, ⟨utf8 ['c'], [], utf8 ['a']⟩]

def cyclingTable : Table := (addRules 3 Table.new cyclingRules).getD Table.new

/-- With `ab` pending as `cb` and `c` as `a`, a rule whose pending text is `ab` is never added. -/
theorem not_addRules_ends : ¬ ∀ rules, ∃ fuel, (addRules fuel Table.new rules).isSome := by
  intro h
  obtain ⟨fuel, hfuel⟩ := h (cyclingRules ++ [⟨utf8 ['x'], [], utf8 ['a', 'b']⟩])
  have hrule : (cyclingTable.addRule (max 3 fuel) (utf8 ['x']) [] (utf8 ['a', 'b'])).isSome := by
    obtain ⟨last, hlast⟩ := Option.isSome_iff_exists.mp hfuel
    have hmax := addRules_mono (Nat.le_max_right 3 fuel) hlast
    have htable : (addRules 3 Table.new cyclingRules).isSome := by decide +kernel
    obtain ⟨table, hcycling⟩ := Option.isSome_iff_exists.mp htable
    have hfirst := addRules_mono (Nat.le_max_left 3 fuel) hcycling
    have hsame : cyclingTable = table := by rw [cyclingTable, hcycling, Option.getD_some]
    rw [← hsame] at hfirst
    rw [addRules, List.foldlM_append, ← addRules, hfirst] at hmax
    change Option.bind _ _ = _ at hmax
    rw [Option.bind_some, ← addRules, addRules_cons, Option.bind_eq_some_iff] at hmax
    obtain ⟨r, hr, -⟩ := hmax
    exact Option.isSome_of_mem hr
  apply (addRule_ends_iff _ _ _ _).mp ⟨_, hrule⟩
  have hforth : cyclingTable.rewriteStep (utf8 ['x']) (utf8 ['a', 'b']) = some (utf8 ['c', 'b']) := by
    decide +kernel
  have hback : cyclingTable.rewriteStep (utf8 ['x']) (utf8 ['c', 'b']) = some (utf8 ['a', 'b']) := by
    decide +kernel
  refine ⟨by decide +kernel, by decide +kernel, ?_⟩
  have hinput : cyclingTable.ruleInput (utf8 ['x']) = utf8 ['x'] := by decide +kernel
  have hpending : cyclingTable.rulePending (utf8 ['x']) (utf8 ['a', 'b']) = utf8 ['a', 'b'] := by
    decide +kernel
  rw [hinput, hpending]
  exact .again .refl (.tail (.single hforth) hback)

end runs

end Table

end Mozkey.Composer
