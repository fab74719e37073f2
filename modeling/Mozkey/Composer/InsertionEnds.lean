import Mozkey.Composer.CompositionRaw

/-! When insertion ends: the loop of `AddInput`, which may rewrite the pending text without using any of
the input, and the loop of `InsertInput`, which goes on with a new chunk as long as there is input. -/

namespace Mozkey.Composer

open Storage Base Session Lib

namespace Table

section

variable (table : Table) (input : Bytes)

/-- With the input behind it, all of the pending text and no more is used for an entry, which leaves
other text pending. -/
def PendingStep (pending pending' : Bytes) : Prop :=
  ∃ entry, (table.lookUpPrefix (pending ++ input)).1 = some entry ∧
    (table.lookUpPrefix (pending ++ input)).2.1 = pending.length ∧
    entry.pending = pending' ∧ pending' ≠ []

def trimsSpecialKey : Bool := (trimLeadingSpecialKey input).length < input.length

/-- None of the input is used, and there is nothing to go on with. -/
def Stays (pending : Bytes) : Prop :=
  (∃ entry, (table.lookUpPrefix (pending ++ input)).1 = some entry ∧
    (table.lookUpPrefix (pending ++ input)).2.1 = pending.length ∧ entry.pending = []) ∨
  ((table.lookUpPrefix (pending ++ input)).1 = none ∧ pending ≠ [] ∧
    (table.lookUpPrefix (pending ++ input)).2.1 ≤ pending.length ∧
    ((table.lookUpPrefix (pending ++ input)).2.1 = 0 → ¬ trimsSpecialKey input) ∧
    ((table.lookUpPrefix (pending ++ input)).2.1 = pending.length →
      (table.lookUpPrefix input).1 = none → (table.lookUpPrefix input).2.1 = 0 →
        ¬ trimsSpecialKey input))

end

section

variable {table : Table} {input pending : Bytes} {used : Nat}

theorem stays_of_entry {entry : Entry}
    (hentry : (table.lookUpPrefix (pending ++ input)).1 = some entry)
    (hused : (table.lookUpPrefix (pending ++ input)).2.1 = used) (hall : used = pending.length)
    (hnil : entry.pending = []) : table.Stays input pending :=
  .inl ⟨entry, hentry, hused.trans hall, hnil⟩

theorem stays_of_none (hnone : (table.lookUpPrefix (pending ++ input)).1 = none)
    (hused : (table.lookUpPrefix (pending ++ input)).2.1 = used) (hpending : pending ≠ [])
    (hle : used ≤ pending.length) (hzero : used = 0 → ¬ trimsSpecialKey input)
    (hall : used = pending.length → (table.lookUpPrefix input).1 = none →
      (table.lookUpPrefix input).2.1 = 0 → ¬ trimsSpecialKey input) :
    table.Stays input pending := by
  subst hused
  exact .inr ⟨hnone, hpending, hle, hzero, hall⟩

end

/-- No pending text comes back with the same input, and a new chunk uses some of every input. -/
structure InputEnds (table : Table) : Prop where
  acyclic : ∀ input, input ≠ [] → ∀ pending,
    ¬ Relation.TransGen (table.PendingStep input) pending pending
  uses : ∀ input, input ≠ [] → ∀ pending,
    Relation.ReflTransGen (table.PendingStep input) [] pending → ¬ table.Stays input pending

end Table

namespace CharChunk

variable {table : Table} {chunk chunk' : CharChunk} {input rest : Bytes} {loop : Bool}

section cases

theorem setResult_fallback {entry : Entry} {key : Bytes} (chunk : CharChunk) :
    (chunk.setResult entry key true).hasDisplayAmbiguousResultFallback = false := by
  rw [hasDisplayAmbiguousResultFallback, decide_eq_false_iff_not]
  exact fun h => h.1 rfl

theorem useInput_shorter {used : Nat} {parts : Bytes × Bytes} (hused : chunk.pending.length < used)
    (hinput : input ≠ []) (h : chunk.useInput used input = some parts) :
    parts.2.length < input.length := by
  obtain ⟨-, -, hrest⟩ := useInput_some h
  have hpos := List.length_pos_iff.mpr hinput
  rw [hrest, List.length_drop]
  omega

theorem addInputWithoutEntry_cases {used : Nat} (hinput : input ≠ [])
    (hnone : (table.lookUpPrefix (chunk.pending ++ input)).1 = none)
    (hused : (table.lookUpPrefix (chunk.pending ++ input)).2.1 = used)
    (h : addInputWithoutEntry table chunk used input = some ((loop, rest), chunk')) :
    (loop = false ∧ chunk.hasDisplayAmbiguousResultFallback = true) ∨
    (rest.length < input.length ∧ (loop = true → chunk' = chunk)) ∨
    (loop = false ∧ rest = input ∧ table.Stays input chunk.pending) := by
  have hstays := @Table.stays_of_none table input chunk.pending used hnone hused
  rw [addInputWithoutEntry] at h
  split at h
  · rename_i hfallback
    cases h
    exact .inl ⟨rfl, hfallback.2⟩
  right
  split at h
  · rename_i hzero
    dsimp only at h
    split at h
    · rename_i htrims
      cases h
      exact .inl ⟨htrims, fun _ => rfl⟩
    rename_i htrims
    split at h
    · cases h
      have happend := congrArg List.length (frontChar_append input)
      have hfront := List.length_pos_iff.mpr (frontChar_ne_nil hinput)
      rw [List.length_append] at happend
      exact .inl ⟨by omega, fun h => absurd h Bool.false_ne_true⟩
    · rename_i hpending
      cases h
      refine .inr ⟨rfl, rfl, hstays hpending (by omega) (fun _ h => htrims (of_decide_eq_true h)) ?_⟩
      intro hall
      exact absurd (List.length_eq_zero_iff.mp (hall.symm.trans hzero)) hpending
  rename_i hpos
  split at h
  · rename_i hall
    have hpending : chunk.pending ≠ [] := by
      intro hnil
      rw [hnil] at hall
      exact hpos hall
    dsimp only at h
    split at h
    · rename_i htrims
      cases h
      exact .inl ⟨htrims.2.2, fun _ => rfl⟩
    · rename_i htrims
      cases h
      refine .inr ⟨rfl, rfl, hstays hpending (Nat.le_of_eq hall) (fun hzero => absurd hzero hpos) ?_⟩
      intro _ hnext hunused h
      exact htrims ⟨by rw [hnext]; rfl, hunused, of_decide_eq_true h⟩
  rename_i hall
  split at h
  · rename_i hlt
    have hpending : chunk.pending ≠ [] := by
      intro hnil
      rw [hnil] at hlt
      exact absurd hlt (Nat.not_lt_zero _)
    cases h
    exact .inr ⟨rfl, rfl, hstays hpending (Nat.le_of_lt hlt) (fun hzero => absurd hzero hpos)
      fun heq => absurd heq hall⟩
  · obtain ⟨parts, huse, hparts⟩ := Option.bind_eq_some_iff.mp h
    cases hparts
    exact .inl ⟨useInput_shorter (by omega) hinput huse, fun h => absurd h Bool.false_ne_true⟩

theorem addInputWithEntry_whole (hinput : input ≠ []) (chunk : CharChunk) (entry : Entry) (fixed : Bool) :
    ∃ next : CharChunk, chunk.addInputWithEntry entry chunk.pending.length fixed input =
        some ((decide (entry.pending ≠ []), input), next) ∧
      next.pending = entry.pending ∧ next.hasDisplayAmbiguousResultFallback = false := by
  have huse : chunk.useInput chunk.pending.length input = some ([], input) := by
    rw [useInput_eq (Nat.le_refl _) (by rw [List.length_append]; exact Nat.le_add_right _ _),
      Nat.sub_self, List.take_zero, List.drop_zero]
  have hresolved :
      (fixed || decide (chunk.pending.length < (chunk.pending ++ input).length)) = true := by
    have hpos := List.length_pos_iff.mpr hinput
    rw [List.length_append, decide_eq_true (by omega), Bool.or_true]
  rw [addInputWithEntry, huse]
  simp only [Option.bind_eq_bind, Option.bind_some, hresolved]
  rw [if_neg fun h => hinput h.2.1]
  generalize hnext : CharChunk.setResult _ entry _ _ = next
  have hpending : next.pending = entry.pending := by rw [← hnext, setResult_pending, if_pos rfl]
  have hcleared : next.hasDisplayAmbiguousResultFallback = false := by
    rw [← hnext]
    exact setResult_fallback _
  refine ⟨next, ?_, hpending, hcleared⟩
  by_cases hnil : entry.pending = []
  · rw [if_pos (.inr (hpending.trans hnil)), decide_eq_false (not_not.mpr hnil)]
    rfl
  · rw [if_neg (by rw [hpending]; exact not_or.mpr ⟨hinput, hnil⟩), decide_eq_true hnil]
    rfl

theorem addInputWithEntry_cases {entry : Entry} {used : Nat} {fixed : Bool} (hinput : input ≠ [])
    (hentry : (table.lookUpPrefix (chunk.pending ++ input)).1 = some entry)
    (hused : (table.lookUpPrefix (chunk.pending ++ input)).2.1 = used)
    (h : chunk.addInputWithEntry entry used fixed input = some ((loop, rest), chunk')) :
    (rest.length < input.length ∧
      (loop = true → chunk'.hasDisplayAmbiguousResultFallback = false)) ∨
    (loop = false ∧ rest = input ∧ table.Stays input chunk.pending) ∨
    (loop = true ∧ rest = input ∧ table.PendingStep input chunk.pending chunk'.pending ∧
      chunk'.hasDisplayAmbiguousResultFallback = false) := by
  by_cases hall : used = chunk.pending.length
  · right
    obtain ⟨next, hnext, hpending, hcleared⟩ := addInputWithEntry_whole hinput chunk entry fixed
    rw [hall, hnext] at h
    cases h
    by_cases hnil : entry.pending = []
    · exact .inl ⟨decide_eq_false (not_not.mpr hnil), rfl,
        Table.stays_of_entry hentry hused hall hnil⟩
    · exact .inr ⟨decide_eq_true hnil, rfl,
        ⟨entry, hentry, hused.trans hall, hpending.symm, hpending.symm ▸ hnil⟩, hcleared⟩
  · rw [addInputWithEntry] at h
    obtain ⟨⟨head, tail⟩, huse, hparts⟩ := Option.bind_eq_some_iff.mp h
    obtain ⟨hge, -, htail⟩ := useInput_some huse
    dsimp only at hparts htail
    left
    have hshort : tail.length < input.length := useInput_shorter (by omega) hinput huse
    by_cases hend : tail = []
    · -- With nothing left the loop ends.
      rw [hend] at hparts hshort
      generalize CharChunk.setResult _ entry _ _ = next at hparts
      split at hparts
      · cases hparts
        exact ⟨hshort, fun h => absurd h Bool.false_ne_true⟩
      · rw [if_pos (.inl rfl)] at hparts
        cases hparts
        exact ⟨hshort, fun h => absurd h Bool.false_ne_true⟩
    · have hresolved : (fixed || decide (used < (chunk.pending ++ input).length)) = true := by
        have htailPos := List.length_pos_iff.mpr hend
        rw [htail, List.length_drop] at htailPos
        rw [List.length_append, decide_eq_true (by omega), Bool.or_true]
      rw [hresolved, if_neg fun h => hend h.2.1] at hparts
      generalize hnext : CharChunk.setResult _ entry _ _ = next at hparts
      have hcleared : next.hasDisplayAmbiguousResultFallback = false := by
        rw [← hnext]
        exact setResult_fallback _
      split at hparts
      · cases hparts
        exact ⟨hshort, fun _ => hcleared⟩
      · cases hparts
        exact ⟨hshort, fun _ => hcleared⟩

/-- What `AddInputInternal` does to an input that is not empty: it goes back to the saved text, uses some
of the input, uses none and stops, or uses none and goes on with what an entry leaves pending. -/
theorem addInputInternal_cases (hinput : input ≠ [])
    (h : chunk.addInputInternal table input = some ((loop, rest), chunk')) :
    (loop = false ∧ chunk.hasDisplayAmbiguousResultFallback = true) ∨
    (rest.length < input.length ∧
      (loop = true → chunk' = chunk ∨ chunk'.hasDisplayAmbiguousResultFallback = false)) ∨
    (loop = false ∧ rest = input ∧ table.Stays input chunk.pending) ∨
    (loop = true ∧ rest = input ∧ table.PendingStep input chunk.pending chunk'.pending ∧
      chunk'.hasDisplayAmbiguousResultFallback = false) := by
  rw [addInputInternal] at h
  rcases hlook : table.lookUpPrefix (chunk.pending ++ input) with ⟨_ | entry, used, fixed⟩
  · rw [hlook] at h
    have hnone := congrArg Prod.fst hlook
    have hused : (table.lookUpPrefix (chunk.pending ++ input)).2.1 = used := by rw [hlook]
    rcases addInputWithoutEntry_cases hinput hnone hused h with hback | ⟨hlt, hkeep⟩ | hstays
    · exact .inl hback
    · exact .inr (.inl ⟨hlt, fun hloop => .inl (hkeep hloop)⟩)
    · exact .inr (.inr (.inl hstays))
  · rw [hlook] at h
    have hentry := congrArg Prod.fst hlook
    have hused : (table.lookUpPrefix (chunk.pending ++ input)).2.1 = used := by rw [hlook]
    rcases addInputWithEntry_cases hinput hentry hused h with ⟨hlt, hkeep⟩ | hstays | hsteps
    · exact .inr (.inl ⟨hlt, fun hloop => .inr (hkeep hloop)⟩)
    · exact .inr (.inr (.inl hstays))
    · exact .inr (.inr (.inr hsteps))

theorem addInputInternal_of_pendingStep (hinput : input ≠ []) {pending : Bytes}
    (h : table.PendingStep input chunk.pending pending) :
    ∃ next, chunk.addInputInternal table input = some ((true, input), next) ∧
      next.pending = pending ∧ next.hasDisplayAmbiguousResultFallback = false := by
  obtain ⟨entry, hentry, hused, hpending, hne⟩ := h
  obtain ⟨next, hnext, hleft, hcleared⟩ := addInputWithEntry_whole hinput chunk entry
    (table.lookUpPrefix (chunk.pending ++ input)).2.2
  refine ⟨next, ?_, hleft.trans hpending, hcleared⟩
  rw [addInputInternal]
  rcases hlook : table.lookUpPrefix (chunk.pending ++ input) with ⟨_ | entry', used, fixed⟩
  · rw [hlook] at hentry
    cases hentry
  · rw [hlook] at hentry hused hnext
    cases hentry
    dsimp only at hused hnext ⊢
    rw [hused, hnext, hpending, decide_eq_true hne]

theorem addInputInternal_of_stays (hinput : input ≠ [])
    (hfallback : chunk.hasDisplayAmbiguousResultFallback = false)
    (h : table.Stays input chunk.pending) :
    ∃ next, chunk.addInputInternal table input = some ((false, input), next) := by
  rcases h with ⟨entry, hentry, hused, hnil⟩ | ⟨hnone, hpending, hle, hzero, hall⟩
  · obtain ⟨next, hnext, -, -⟩ := addInputWithEntry_whole hinput chunk entry
      (table.lookUpPrefix (chunk.pending ++ input)).2.2
    refine ⟨next, ?_⟩
    rw [addInputInternal]
    rcases hlook : table.lookUpPrefix (chunk.pending ++ input) with ⟨_ | entry', used, fixed⟩
    · rw [hlook] at hentry
      cases hentry
    · rw [hlook] at hentry hused hnext
      cases hentry
      dsimp only at hused hnext ⊢
      rw [hused, hnext, decide_eq_false (not_not.mpr hnil)]
  · refine ⟨chunk, ?_⟩
    rw [addInputInternal]
    rcases hlook : table.lookUpPrefix (chunk.pending ++ input) with ⟨_ | entry, used, fixed⟩
    · rw [hlook] at hle hzero hall
      dsimp only at hle hzero hall ⊢
      rw [addInputWithoutEntry, if_neg fun h => by simp [hfallback] at h]
      by_cases hused : used = 0
      · have htrims : ¬ (trimLeadingSpecialKey input).length < input.length := fun h =>
          hzero hused (decide_eq_true h)
        rw [if_pos hused]
        dsimp only
        rw [if_neg htrims, if_neg hpending]
      rw [if_neg hused]
      by_cases hwhole : used = chunk.pending.length
      · rw [if_pos hwhole]
        dsimp only
        rw [if_neg]
        rintro ⟨hnext, hunused, htrims⟩
        exact hall hwhole (Option.isNone_iff_eq_none.mp hnext) hunused (decide_eq_true htrims)
      · rw [if_neg hwhole, if_pos (Nat.lt_of_le_of_ne hle hwhole)]
    · rw [hlook] at hnone
      cases hnone

end cases

section innerLoop

variable (table) in
/-- A round of the loop of `AddInput` after which the loop goes on. -/
def AddInputStep (s s' : Bytes × CharChunk) : Prop :=
  s.2.addInputInternal table s.1 = some ((true, s'.1), s'.2)

variable (table) in
def AddInputEnds (input : Bytes) (chunk : CharChunk) : Prop :=
  Acc (fun s' s => AddInputStep table s s') (input, chunk)

theorem addInputInternal_nil (h : chunk.addInputInternal table [] = some ((loop, rest), chunk')) :
    loop = false ∧ (chunk.hasDisplayAmbiguousResultFallback = false → rest = []) := by
  have htrims : ¬ (trimLeadingSpecialKey []).length < ([] : Bytes).length := Nat.not_lt_zero _
  have huse : ∀ used parts, chunk.useInput used [] = some parts → parts.2 = [] := by
    intro used parts hparts
    rw [(useInput_some hparts).2.2, List.drop_nil]
  rw [addInputInternal] at h
  rcases hlook : table.lookUpPrefix (chunk.pending ++ []) with ⟨_ | entry, used, fixed⟩ <;>
    rw [hlook] at h <;> dsimp only at h
  · rw [addInputWithoutEntry] at h
    split at h
    · rename_i hfallback
      cases h
      refine ⟨rfl, fun hnot => ?_⟩
      rw [hnot] at hfallback
      exact absurd hfallback.2 (by decide)
    split at h
    · dsimp only at h
      rw [if_neg htrims] at h
      split at h <;> cases h <;> exact ⟨rfl, fun _ => rfl⟩
    split at h
    · dsimp only at h
      rw [if_neg fun hand => htrims hand.2.2] at h
      cases h
      exact ⟨rfl, fun _ => rfl⟩
    split at h
    · cases h
      exact ⟨rfl, fun _ => rfl⟩
    · obtain ⟨parts, hparts, hr⟩ := Option.bind_eq_some_iff.mp h
      cases hr
      exact ⟨rfl, fun _ => huse _ _ hparts⟩
  · rw [addInputWithEntry] at h
    obtain ⟨parts, hparts, hr⟩ := Option.bind_eq_some_iff.mp h
    have hnil := huse _ _ hparts
    obtain ⟨head, tail⟩ := parts
    obtain rfl : tail = [] := hnil
    dsimp only at hr
    generalize CharChunk.setResult _ entry _ _ = next at hr
    split at hr
    · cases hr
      exact ⟨rfl, fun _ => rfl⟩
    · rw [if_pos (.inl rfl)] at hr
      cases hr
      exact ⟨rfl, fun _ => rfl⟩

theorem wellFounded_pendingStep (hacyclic : ∀ pending,
    ¬ Relation.TransGen (table.PendingStep input) pending pending) :
    WellFounded fun pending' pending => table.PendingStep input pending pending' := by
  refine wellFounded_of_acyclic (List.finite_toSet (table.entries.allData.map Entry.pending)) ?_ hacyclic
  rintro pending pending' ⟨entry, hentry, -, rfl, -⟩
  exact List.mem_map_of_mem (Trie.mem_allData_of_lookUpPrefix hentry)

theorem addInputEnds (hends : table.InputEnds) (input : Bytes) (chunk : CharChunk) :
    AddInputEnds table input chunk := by
  induction hn : input.length using Nat.strong_induction_on generalizing input chunk with
  | _ n ihn =>
    by_cases hinput : input = []
    · refine ⟨_, fun s' hstep => ?_⟩
      rw [hinput] at hstep
      exact absurd (addInputInternal_nil hstep).1 (by decide)
    generalize hp : chunk.pending = pending
    induction pending using (wellFounded_pendingStep (hends.acyclic input hinput)).induction
      generalizing chunk with
    | _ pending ihp =>
      refine ⟨_, fun s' hstep => ?_⟩
      rcases addInputInternal_cases hinput hstep with
        ⟨hfalse, -⟩ | ⟨hlt, -⟩ | ⟨hfalse, -⟩ | ⟨-, hrest, hpending, -⟩
      · cases hfalse
      · exact ihn _ (hn ▸ hlt) s'.1 s'.2 rfl
      · cases hfalse
      · have hnext := ihp s'.2.pending (hp ▸ hpending) s'.2 rfl
        rw [← hrest] at hnext
        exact hnext

theorem not_addInputEnds_of_cycle (hinput : input ≠ [])
    (hcycle : Relation.TransGen (table.PendingStep input) chunk.pending chunk.pending) :
    ¬ AddInputEnds table input chunk := by
  intro hends
  rw [AddInputEnds] at hends
  generalize hs : (input, chunk) = s at hends
  induction hends generalizing chunk with
  | intro s _ ih =>
    subst hs
    obtain ⟨pending, hpending, hback⟩ := Relation.TransGen.head'_iff.mp hcycle
    obtain ⟨next, hnext, rfl, -⟩ := addInputInternal_of_pendingStep hinput hpending
    exact ih (input, next) hnext (.tail' hback hpending) rfl

theorem addInput_length_le (hfallback : chunk.hasDisplayAmbiguousResultFallback = false) {fuel : Nat}
    (h : addInput table fuel input chunk = some (rest, chunk')) : rest.length ≤ input.length := by
  induction fuel generalizing input chunk with
  | zero => cases h
  | succ fuel ih =>
    rw [addInput] at h
    obtain ⟨⟨⟨loop, next⟩, nextChunk⟩, hinternal, hnext⟩ := Option.bind_eq_some_iff.mp h
    by_cases hinput : input = []
    · rw [hinput] at hinternal
      obtain ⟨rfl, hnil⟩ := addInputInternal_nil hinternal
      cases hnext
      rw [hnil hfallback]
      exact Nat.zero_le _
    dsimp only at hnext
    rcases addInputInternal_cases hinput hinternal with
      ⟨-, hback⟩ | ⟨hlt, hkeep⟩ | ⟨rfl, rfl, -⟩ | ⟨rfl, rfl, -, hcleared⟩
    · rw [hfallback] at hback
      cases hback
    · cases loop with
      | false =>
        cases hnext
        exact Nat.le_of_lt hlt
      | true =>
        refine Nat.le_trans (ih ?_ hnext) (Nat.le_of_lt hlt)
        rcases hkeep rfl with rfl | hcleared
        · exact hfallback
        · exact hcleared
    · cases hnext
      exact Nat.le_refl _
    · exact ih hcleared hnext

theorem addInput_uses (hends : table.InputEnds) (hinput : input ≠ [])
    (hfallback : chunk.hasDisplayAmbiguousResultFallback = false)
    (hreach : Relation.ReflTransGen (table.PendingStep input) [] chunk.pending) {fuel : Nat}
    (h : addInput table fuel input chunk = some (rest, chunk')) : rest.length < input.length := by
  induction fuel generalizing chunk with
  | zero => cases h
  | succ fuel ih =>
    rw [addInput] at h
    obtain ⟨⟨⟨loop, next⟩, nextChunk⟩, hinternal, hnext⟩ := Option.bind_eq_some_iff.mp h
    dsimp only at hnext
    rcases addInputInternal_cases hinput hinternal with
      ⟨-, hback⟩ | ⟨hlt, hkeep⟩ | ⟨-, -, hstays⟩ | ⟨rfl, rfl, hpending, hcleared⟩
    · rw [hfallback] at hback
      cases hback
    · cases loop with
      | false =>
        cases hnext
        exact hlt
      | true =>
        refine Nat.lt_of_le_of_lt (addInput_length_le ?_ hnext) hlt
        rcases hkeep rfl with rfl | hcleared
        · exact hfallback
        · exact hcleared
    · exact absurd hstays (hends.uses input hinput _ hreach)
    · exact ih hcleared (hreach.tail hpending) hnext

theorem exists_addInput_of_stays (hinput : input ≠ []) {pending last : Bytes}
    (hreach : Relation.ReflTransGen (table.PendingStep input) pending last)
    (hstays : table.Stays input last) (hpending : chunk.pending = pending)
    (hfallback : chunk.hasDisplayAmbiguousResultFallback = false) :
    ∃ fuel chunk', addInput table fuel input chunk = some (input, chunk') := by
  induction hreach using Relation.ReflTransGen.head_induction_on generalizing chunk with
  | refl =>
    obtain ⟨next, hnext⟩ := addInputInternal_of_stays hinput hfallback (hpending ▸ hstays)
    refine ⟨1, next, ?_⟩
    rw [addInput, hnext]
    rfl
  | head hstep _ ih =>
    obtain ⟨next, hnext, hleft, hcleared⟩ := addInputInternal_of_pendingStep hinput (hpending ▸ hstep)
    obtain ⟨fuel, chunk', hrest⟩ := ih hleft hcleared
    refine ⟨fuel + 1, chunk', ?_⟩
    rw [addInput, hnext, Option.bind_eq_bind, Option.bind_some]
    exact hrest

end innerLoop

end CharChunk

namespace Composition

section outerLoop

variable (transliterators : Transliterators) (table : Table)

/-- The chunks before the one that takes the input at a position, and that one. -/
def targetAt (composition : Composition) (position : Nat) (input : Bytes) :
    List CharChunk × CharChunk :=
  let (left, right) := composition.maybeSplitChunkAt transliterators position
  let isInvisible := fun chunk : CharChunk =>
    chunk.getLength transliterators (some composition.inputT12r) = 0
  let (before, chunk) := composition.getInsertionChunk (left ++ right.takeWhile isInvisible)
  composition.combinePendingChunks table { raw := input } before chunk

/-- The loop of `InsertInput` ends, and in every round of it that of `AddInput`. -/
inductive LoopEnds (composition : Composition) : Bytes → CharChunk → Prop
  | round {input : Bytes} {chunk : CharChunk}
    (inner : CharChunk.shouldInsertNewChunk table chunk { raw := input } = false →
      CharChunk.AddInputEnds table input chunk)
    (next : ∀ fuel rest chunk', chunk.addCompositionInput table fuel { raw := input } =
      some ({ raw := rest }, chunk') → rest ≠ [] →
        LoopEnds composition rest { transliterator := composition.inputT12r }) :
    LoopEnds composition input chunk

def InsertAtEnds (composition : Composition) (position : Nat) (input : Bytes) : Prop :=
  input ≠ [] →
    LoopEnds table composition input (composition.targetAt transliterators table position input).2

variable {transliterators table} {composition : Composition} {input : Bytes}

theorem targetAt_getLength :
    composition.targetAt transliterators table (composition.getLength transliterators) input =
      composition.insertionTarget transliterators table input := by
  rw [targetAt, maybeSplitChunkAt_getLength]
  rfl

theorem fresh_fallback (t12r : Transliterator) :
    CharChunk.hasDisplayAmbiguousResultFallback { transliterator := t12r } = false := rfl

theorem loopEnds_fresh (hends : table.InputEnds) (hinput : input ≠ []) :
    LoopEnds table composition input { transliterator := composition.inputT12r } := by
  induction hn : input.length using Nat.strong_induction_on generalizing input with
  | _ n ih =>
    refine .round (fun _ => CharChunk.addInputEnds hends _ _) fun fuel rest chunk' hadd hrest => ?_
    rw [addCompositionInput_eq (shouldInsertNewChunk_eq_false (takesMore_fresh _) input)] at hadd
    obtain ⟨⟨rest, chunk'⟩, haddInput, hr⟩ := Option.map_eq_some_iff.mp hadd
    cases hr
    have huses := CharChunk.addInput_uses hends hinput (fresh_fallback _) .refl haddInput
    exact ih rest.length (hn ▸ huses) hrest rfl

theorem loopEnds (hends : table.InputEnds) (composition : Composition) (input : Bytes)
    (chunk : CharChunk) : LoopEnds table composition input chunk :=
  .round (fun _ => CharChunk.addInputEnds hends _ _) fun _ _ _ _ hrest => loopEnds_fresh hends hrest

theorem not_loopEnds_of_stays (hinput : input ≠ []) {pending : Bytes}
    (hreach : Relation.ReflTransGen (table.PendingStep input) [] pending)
    (hstays : table.Stays input pending) :
    ¬ LoopEnds table composition input { transliterator := composition.inputT12r } := by
  obtain ⟨fuel, chunk', hadd⟩ := CharChunk.exists_addInput_of_stays hinput hreach hstays rfl
    (fresh_fallback composition.inputT12r)
  have hround : CharChunk.addCompositionInput table { transliterator := composition.inputT12r } fuel
      { raw := input } = some ({ raw := input }, chunk') := by
    rw [addCompositionInput_eq (shouldInsertNewChunk_eq_false (takesMore_fresh _) input), hadd]
    rfl
  intro hends
  generalize hchunk : ({ transliterator := composition.inputT12r } : CharChunk) = chunk at hends
  induction hends with
  | round _ _ ih =>
    subst hchunk
    exact ih fuel _ chunk' hround hinput hinput hreach hstays hadd hround rfl

end outerLoop

section always

variable {transliterators : Transliterators} {table : Table} {input pending : Bytes}

/-- The composition of a key with a preedit, which is pending. -/
def ofPreedit (table : Table) (key preedit : Bytes) : Composition where
  inputT12r := .conversionString
  chunks := [CharChunk.takeConverted table { transliterator := .conversionString }
    { raw := key, conversion := preedit }]

theorem step_ofPreedit (transliterators : Transliterators) (table : Table) {preedit : Bytes}
    (hpreedit : preedit ≠ []) (key : Bytes) :
    step transliterators table 1 { inputT12r := .conversionString }
      (.insertInput 0 { raw := key, conversion := preedit }) = some (ofPreedit table key preedit) := by
  have htaken : CharChunk.addCompositionInput table { transliterator := .conversionString } 0
      { raw := key, conversion := preedit } =
        some ({ raw := [] }, CharChunk.takeConverted table { transliterator := .conversionString }
          { raw := key, conversion := preedit }) := by
    rw [CharChunk.addCompositionInput, if_pos hpreedit]
    rfl
  have hnonempty : (CharChunk.takeConverted table { transliterator := .conversionString }
      { raw := key, conversion := preedit }).isEmpty = false := by
    rw [CharChunk.isEmpty, decide_eq_false_iff_not]
    exact fun h => hpreedit h.2.2
  rw [step, insertInput, if_neg fun h => hpreedit h.2, show maybeSplitChunkAt _ _ 0 = ([], []) from rfl]
  dsimp only
  rw [show combinePendingChunks _ _ _ _ _ = ([], { transliterator := .conversionString }) from rfl]
  dsimp only
  rw [insertInputLoop, htaken]
  simp only [Option.bind_eq_bind, Option.bind_some, true_and, if_true, hnonempty]
  rfl

theorem targetAt_ofPreedit (transliterators : Transliterators) (table : Table) {preedit : Bytes}
    (hpreedit : preedit ≠ []) (key input : Bytes) :
    ((ofPreedit table key preedit).targetAt transliterators table
      ((ofPreedit table key preedit).getLength transliterators) input).2.pending = preedit := by
  have hlength : ∀ chunk ∈ (ofPreedit table key preedit).chunks,
      chunk.getLength transliterators none =
        chunk.getLength transliterators (some (ofPreedit table key preedit).inputT12r) := by
    intro chunk hchunk
    obtain rfl := List.mem_singleton.mp hchunk
    have ht12r : ∀ chunk : CharChunk, chunk.transliterator = .conversionString →
        chunk.getTransliterator none = chunk.getTransliterator (some .conversionString) := by
      intro chunk hchunk
      rw [CharChunk.getTransliterator, CharChunk.getTransliterator, hchunk]
      split <;> split <;> rfl
    rw [CharChunk.getLength, CharChunk.getLength, ht12r _ rfl]
    rfl
  have hbehind : (ofPreedit table key preedit).chunksBehind transliterators = [] := by
    rw [chunksBehind, List.dropWhile_eq_nil_iff]
    intro chunk hchunk
    have hhidden := List.mem_rtakeWhile_imp hchunk
    rwa [hlength chunk ((List.rtakeWhile_suffix _ _).subset hchunk)] at hhidden
  have hbefore := @chunksBefore_append_chunksBehind transliterators (ofPreedit table key preedit)
  rw [hbehind, List.append_nil] at hbefore
  have happendable : CharChunk.isAppendable (CharChunk.takeConverted table
      { transliterator := .conversionString } { raw := key, conversion := preedit })
        .conversionString = true := decide_eq_true ⟨hpreedit, rfl⟩
  have hinsertion : (ofPreedit table key preedit).getInsertionChunk
      (ofPreedit table key preedit).chunks = ([], CharChunk.takeConverted table
        { transliterator := .conversionString } { raw := key, conversion := preedit }) :=
    if_pos happendable
  rw [targetAt_getLength, insertionTarget_eq, hbefore, hinsertion]
  rfl

/-- `InsertAt` always ends over a table exactly if with no input a pending text comes back, and a new
chunk uses some of every input. -/
theorem insertAt_always_ends_iff (transliterators : Transliterators) (table : Table) :
    (∀ fuel inputT12r events composition,
      Run (step transliterators table fuel) (fun _ _ => True) { inputT12r := inputT12r } events
        composition →
      ∀ position input, composition.InsertAtEnds transliterators table position input) ↔
    table.InputEnds := by
  constructor
  · intro hends
    constructor
    · intro input hinput pending hcycle
      obtain ⟨_, _, _, _, _, -, hpending⟩ := Relation.TransGen.tail'_iff.mp hcycle
      have hrun : Run (step transliterators table 1) (fun _ _ => True)
          { inputT12r := .conversionString } [.insertInput 0 { raw := [], conversion := pending }]
          (ofPreedit table [] pending) :=
        Run.nil.snoc trivial (step_ofPreedit transliterators table hpending [])
      have hends := hends 1 _ _ _ hrun ((ofPreedit table [] pending).getLength transliterators) input
        hinput
      have htarget := targetAt_ofPreedit transliterators table hpending [] input
      generalize targetAt _ _ _ _ _ = target at hends htarget
      cases hends with
      | round inner _ =>
        rw [← htarget] at hcycle hpending
        exact CharChunk.not_addInputEnds_of_cycle hinput hcycle
          (inner (shouldInsertNewChunk_eq_false (.inr hpending) input))
    · intro input hinput pending hreach hstays
      have hfirst := hends 0 .conversionString [] _ .nil 0 input hinput
      exact not_loopEnds_of_stays hinput hreach hstays hfirst
  · intro hends fuel inputT12r events composition _ position input _
    exact loopEnds hends composition input _

theorem inputEnds_of_acyclic (hnil : table.lookUp [] = none) (hacyclic : ∀ input, input ≠ [] →
    ∀ pending, ¬ Relation.TransGen (table.PendingStep input) pending pending) : table.InputEnds := by
  have hroot := Table.data_of_lookUp_nil hnil
  have hunused : ∀ input, (table.lookUpPrefix ([] ++ input)).2.1 = ([] : Bytes).length →
      (table.lookUpPrefix ([] ++ input)).1 = none :=
    fun input hused => (Trie.lookUpPrefix_of_unused hused).trans hroot
  refine ⟨hacyclic, fun input hinput pending hreach hstays => ?_⟩
  rcases Relation.ReflTransGen.cases_head hreach with rfl | ⟨next, ⟨entry, hentry, hused, -⟩, -⟩
  · rcases hstays with ⟨entry, hentry, hused, -⟩ | ⟨-, hne, -⟩
    · rw [hunused input hused] at hentry
      cases hentry
    · exact hne rfl
  · rw [hunused input hused] at hentry
    cases hentry

/-- With a rule for the empty input an `a` of which no rule begins is never used. -/
theorem not_insertAt_always_ends : ¬ ∀ (util : JapaneseUtil) fuel text table,
    loadFromString fuel text = some table →
    ∀ fuel inputT12r events composition,
      Run (step util.transliterators table fuel) (fun _ _ => True) { inputT12r := inputT12r } events
        composition →
      ∀ position cs, composition.InsertAtEnds util.transliterators table position (utf8 cs) := by
  intro h
  have hload : (loadFromString 2 (utf8 ['\t', 'x'])).any fun table =>
      (table.lookUpPrefix (utf8 ['a'])).1.any (fun entry => entry.pending = []) &&
        (table.lookUpPrefix (utf8 ['a'])).2.1 = 0 := by
    decide +kernel
  obtain ⟨table, htable, hlookUp⟩ := (Option.any_eq_true _ _).mp hload
  obtain ⟨hany, hused⟩ := Bool.and_eq_true_iff.mp hlookUp
  obtain ⟨entry, hentry, hnil⟩ := (Option.any_eq_true _ _).mp hany
  have hstays : table.Stays (utf8 ['a']) [] :=
    .inl ⟨entry, hentry, of_decide_eq_true hused, of_decide_eq_true hnil⟩
  exact not_loopEnds_of_stays (by decide) .refl hstays
    (h plainUtil 2 _ table htable 0 .hiragana [] _ .nil 0 ['a'] (by decide))

end always

end Composition

end Mozkey.Composer
