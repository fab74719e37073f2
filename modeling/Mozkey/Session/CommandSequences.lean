import Mozkey.Session.LiveHandlers
import Mozkey.Session.PlainEnv

/-! The output of a sequence of commands in `session/session.cc`: what `AccumulateCommandOutput`
makes of the outputs of the steps that `ExecuteCommandSequenceWithInitialOutput` executes. -/

namespace Mozkey.Session

variable {K V H : Type}

/-! Results one behind the other. -/

namespace Result

def valueText (result : Result) : Text := result.value.getD []

def keyText (result : Result) : Text := result.key.getD []

def hasText (result : Result) : Bool := result.key.isSome || result.value.isSome

def TokensSpell (result : Result) : Prop :=
  result.tokens = [] ∨ result.tokens.flatMap (·.value) = result.valueText

end Result

section Merge

variable {step accumulated : Result} {results : List Result}

/-- The results of the steps, merged into what there was before. -/
def mergeResults (accumulated : Result) (results : List Result) : Result :=
  results.foldl (fun accumulated step => mergeCommandResult step accumulated) accumulated

theorem mergeCommandResult_of_empty (h : accumulated.hasText = false) :
    mergeCommandResult step accumulated = step := by
  apply if_pos
  simpa [Result.hasText] using h

theorem mergeCommandResult_of_text (h : accumulated.hasText = true) :
    (mergeCommandResult step accumulated).hasText = true ∧
      (mergeCommandResult step accumulated).tokens = accumulated.tokens := by
  have hnot : ¬ (accumulated.key.isNone ∧ accumulated.value.isNone) := by
    simp only [Result.hasText, Bool.or_eq_true] at h
    rintro ⟨hkey, hvalue⟩
    rcases h with h | h
    · rw [Option.isNone_iff_eq_none.mp hkey] at h
      cases h
    · rw [Option.isNone_iff_eq_none.mp hvalue] at h
      cases h
  unfold mergeCommandResult
  rw [if_neg hnot]
  refine ⟨?_, rfl⟩
  simp only [Result.hasText, Bool.or_eq_true] at h ⊢
  rcases h with h | h
  · left
    split
    · rfl
    · exact h
  · right
    split
    · rfl
    · exact h

theorem mergeCommandResult_valueText :
    (mergeCommandResult step accumulated).valueText = accumulated.valueText ++ step.valueText := by
  unfold mergeCommandResult
  split
  · rename_i h
    simp [Result.valueText, Option.isNone_iff_eq_none.mp h.2]
  · cases hvalue : step.value <;> simp [Result.valueText, hvalue]

theorem mergeCommandResult_keyText :
    (mergeCommandResult step accumulated).keyText = accumulated.keyText ++ step.keyText := by
  unfold mergeCommandResult
  split
  · rename_i h
    simp [Result.keyText, Option.isNone_iff_eq_none.mp h.1]
  · cases hkey : step.key <;> simp [Result.keyText, hkey]

theorem mergeResults_valueText : (mergeResults accumulated results).valueText =
    accumulated.valueText ++ results.flatMap (·.valueText) := by
  induction results generalizing accumulated with
  | nil => simp [mergeResults]
  | cons step results ih =>
    show (mergeResults (mergeCommandResult step accumulated) results).valueText = _
    rw [ih, mergeCommandResult_valueText, List.flatMap_cons, List.append_assoc]

theorem mergeResults_keyText : (mergeResults accumulated results).keyText =
    accumulated.keyText ++ results.flatMap (·.keyText) := by
  induction results generalizing accumulated with
  | nil => simp [mergeResults]
  | cons step results ih =>
    show (mergeResults (mergeCommandResult step accumulated) results).keyText = _
    rw [ih, mergeCommandResult_keyText, List.flatMap_cons, List.append_assoc]

theorem mergeResults_tokens_of_text (h : accumulated.hasText = true) :
    (mergeResults accumulated results).tokens = accumulated.tokens := by
  induction results generalizing accumulated with
  | nil => rfl
  | cons step results ih =>
    have hmerge : (mergeCommandResult step accumulated).hasText = true ∧
      (mergeCommandResult step accumulated).tokens = accumulated.tokens :=
        mergeCommandResult_of_text h
    exact (ih hmerge.1).trans hmerge.2

/-- The first result with a text, and the ones behind it. -/
def fromFirstText (results : List Result) : List Result := results.dropWhile fun r => !r.hasText

theorem fromFirstText_valueText :
    results.flatMap (·.valueText) = (fromFirstText results).flatMap (·.valueText) := by
  induction results with
  | nil => rfl
  | cons step results ih =>
    unfold fromFirstText
    rw [List.dropWhile_cons]
    split
    · rename_i hempty
      have hvalue : step.value = none := by
        simp only [Result.hasText, Bool.not_eq_true', Bool.or_eq_false_iff,
          Option.isSome_eq_false_iff, Option.isNone_iff_eq_none] at hempty
        exact hempty.2
      rw [List.flatMap_cons, ih]
      simp [Result.valueText, hvalue, fromFirstText]
    · rfl

theorem mergeResults_tokens (h : accumulated.hasText = false) :
    (mergeResults accumulated results).tokens =
      match fromFirstText results with
      | first :: _ => first.tokens
      | [] => (results.getLast?.getD accumulated).tokens := by
  induction results generalizing accumulated with
  | nil => rfl
  | cons step results ih =>
    show (mergeResults (mergeCommandResult step accumulated) results).tokens = _
    rw [mergeCommandResult_of_empty h]
    cases hstep : step.hasText with
    | true =>
      rw [mergeResults_tokens_of_text hstep]
      simp [fromFirstText, hstep]
    | false =>
      rw [ih hstep]
      simp only [fromFirstText, List.dropWhile_cons, hstep, Bool.not_false, if_true]
      split
      · rfl
      · cases hlast : results.getLast? <;> simp [List.getLast?_cons, hlast]

end Merge

/-! Outputs one after the other. -/

def results (steps : List Output) : List Result := steps.filterMap (·.result)

def accumulateOutputs (accumulated : Accumulated) (steps : List Output) : Accumulated :=
  steps.foldl (fun accumulated step => accumulateCommandOutput step accumulated) accumulated

/-- Nothing that a step puts out once is lost: the texts are one behind the other, tokens that spelt
the texts of the steps spell the whole text, and what a step asks of the client is still there. -/
structure KeepsOneShots (steps : List Output) (final : Output) : Prop where
  value : (final.result.getD {}).valueText = (results steps).flatMap (·.valueText)
  key : (final.result.getD {}).keyText = (results steps).flatMap (·.keyText)
  tokens : (∀ result ∈ results steps, result.TokensSpell) →
    ∀ result ∈ final.result, result.TokensSpell
  callback : ∀ step ∈ steps, ∀ callback ∈ step.callback, final.callback = some callback
  deletionRange : ∀ step ∈ steps, ∀ range ∈ step.deletionRange, final.deletionRange = some range

/-- What only the last step hands on is what every step before it asks for, and no text comes behind
tokens. -/
structure LastHandsOn (steps : List Output) (last : Output) : Prop where
  tokens : (∀ result ∈ results steps, result.TokensSpell) →
    ∀ first rest, fromFirstText (results steps) = first :: rest →
      first.tokens = [] ∨ rest.flatMap (·.valueText) = []
  callback : ∀ step ∈ steps, step.callback.isSome → step.callback = last.callback
  deletionRange : ∀ step ∈ steps, step.deletionRange.isSome →
    step.deletionRange = last.deletionRange

section Accumulate

variable {accumulated : Accumulated} {step final : Output} {steps : List Output}

theorem accumulateCommandOutput_result :
    (accumulateCommandOutput step accumulated).bind (·.result) =
      match step.result with
      | none => accumulated.bind (·.result)
      | some result =>
        some (mergeCommandResult result ((accumulated.bind (·.result)).getD {})) := by
  cases accumulated with
  | some before => rfl
  | none =>
    cases hresult : step.result with
    | none => simp [accumulateCommandOutput, hresult]
    | some result =>
      simp only [accumulateCommandOutput, Option.bind_some, hresult, Option.bind_none,
        Option.getD_none]
      rw [mergeCommandResult_of_empty rfl]

theorem accumulateOutputs_append :
    accumulateOutputs accumulated (steps ++ [step]) =
      accumulateCommandOutput step (accumulateOutputs accumulated steps) := by
  simp [accumulateOutputs]

theorem accumulateOutputs_result : (accumulateOutputs none steps).bind (·.result) =
    if results steps = [] then none else some (mergeResults {} (results steps)) := by
  induction steps using List.reverseRecOn with
  | nil => rfl
  | append_singleton steps step ih =>
    rw [accumulateOutputs_append, accumulateCommandOutput_result, ih]
    cases hresult : step.result with
    | none => simp [results, hresult]
    | some result =>
      have happend : results (steps ++ [step]) = results steps ++ [result] := by
        simp [results, hresult]
      have hmerge : mergeResults {} (results steps ++ [result]) =
          mergeCommandResult result (mergeResults {} (results steps)) := by
        simp [mergeResults]
      have hne : results steps ++ [result] ≠ [] := by simp
      rw [happend, hmerge]
      dsimp only
      rw [if_neg hne]
      split
      · rename_i hnil
        rw [hnil]
        rfl
      · rfl

theorem accumulateCommandOutput_last (h : final ∈ accumulateCommandOutput step accumulated) :
    final.callback = step.callback ∧ final.deletionRange = step.deletionRange := by
  cases accumulated with
  | none =>
    obtain rfl := Option.some.inj h
    exact ⟨rfl, rfl⟩
  | some before =>
    obtain rfl := Option.some.inj h
    exact ⟨rfl, rfl⟩

theorem accumulateOutputs_last (hne : steps ≠ []) (h : final ∈ accumulateOutputs none steps) :
    final.callback = (steps.getLast hne).callback ∧
      final.deletionRange = (steps.getLast hne).deletionRange := by
  have hsplit := List.dropLast_append_getLast hne
  rw [← hsplit, accumulateOutputs_append] at h
  exact accumulateCommandOutput_last h

theorem accumulateOutputs_isSome (hne : steps ≠ []) : (accumulateOutputs none steps).isSome := by
  rw [← List.dropLast_append_getLast hne, accumulateOutputs_append]
  unfold accumulateCommandOutput
  split <;> rfl

theorem result_mem (h : final ∈ accumulateOutputs none steps) :
    final.result =
      if results steps = [] then none else some (mergeResults {} (results steps)) := by
  rw [← accumulateOutputs_result, Option.mem_def.mp h]
  rfl

theorem final_texts (h : final ∈ accumulateOutputs none steps) :
    (final.result.getD {}).valueText = (results steps).flatMap (·.valueText) ∧
      (final.result.getD {}).keyText = (results steps).flatMap (·.keyText) := by
  rw [result_mem h]
  split
  · rename_i hnil
    rw [hnil]
    exact ⟨rfl, rfl⟩
  · exact ⟨mergeResults_valueText, mergeResults_keyText⟩

theorem final_tokens_iff (h : final ∈ accumulateOutputs none steps)
    (hspell : ∀ result ∈ results steps, result.TokensSpell) :
    (∀ result ∈ final.result, result.TokensSpell) ↔
      ∀ first rest, fromFirstText (results steps) = first :: rest →
        first.tokens = [] ∨ rest.flatMap (·.valueText) = [] := by
  have htokens : (mergeResults {} (results steps)).tokens = _ := mergeResults_tokens rfl
  have hvalue : (mergeResults {} (results steps)).valueText =
      (fromFirstText (results steps)).flatMap (·.valueText) :=
    mergeResults_valueText.trans fromFirstText_valueText
  rw [result_mem h]
  cases hfirst : fromFirstText (results steps) with
  | nil =>
    -- Without a text in any result, the last one stands for all of them.
    rw [hfirst] at htokens hvalue
    refine iff_of_true ?_ (by simp)
    intro result hresult
    split at hresult
    · cases hresult
    · rename_i hne
      obtain rfl := Option.some.inj hresult
      have hlast := hspell _ (List.getLast_mem hne)
      have hempty : ((results steps).getLast hne).valueText = [] := by
        have hnone : ((results steps).getLast hne).hasText = false := by
          have hall := List.dropWhile_eq_nil_iff.mp hfirst _ (List.getLast_mem hne)
          simpa using hall
        simp only [Result.hasText, Bool.or_eq_false_iff, Option.isSome_eq_false_iff,
          Option.isNone_iff_eq_none] at hnone
        simp [Result.valueText, hnone.2]
      dsimp only at htokens
      rw [List.getLast?_eq_some_getLast hne, Option.getD_some] at htokens
      unfold Result.TokensSpell at hlast ⊢
      rw [htokens, hvalue]
      rwa [hempty] at hlast
  | cons first rest =>
    have hmem : first ∈ results steps :=
      (List.dropWhile_suffix _).subset (hfirst ▸ List.mem_cons_self)
    have hne : results steps ≠ [] := List.ne_nil_of_mem hmem
    rw [hfirst] at htokens hvalue
    rw [if_neg hne]
    have hspelt := hspell first hmem
    have hwhole : (mergeResults {} (results steps)).TokensSpell ↔
        first.tokens = [] ∨ rest.flatMap (·.valueText) = [] := by
      unfold Result.TokensSpell at hspelt ⊢
      rw [htokens, hvalue, List.flatMap_cons]
      refine or_congr_right' fun hsome => ?_
      rw [hspelt.resolve_left hsome]
      simp
    constructor
    · intro hfinal first' rest' heq
      obtain ⟨rfl, rfl⟩ := List.cons.inj heq
      exact hwhole.mp (hfinal _ rfl)
    · intro hcond result hresult
      obtain rfl := Option.some.inj hresult
      exact hwhole.mpr (hcond first rest rfl)

theorem keepsOneShots_iff (hne : steps ≠ []) (h : final ∈ accumulateOutputs none steps) :
    KeepsOneShots steps final ↔ LastHandsOn steps (steps.getLast hne) := by
  obtain ⟨hcallback, hrange⟩ := accumulateOutputs_last hne h
  obtain ⟨hvalue, hkey⟩ := final_texts h
  constructor
  · intro hkeeps
    refine ⟨fun hspell => (final_tokens_iff h hspell).mp (hkeeps.tokens hspell), ?_, ?_⟩
    · intro step hstep hsome
      obtain ⟨callback, hget⟩ := Option.isSome_iff_exists.mp hsome
      rw [hget, ← hcallback, hkeeps.callback step hstep callback hget]
    · intro step hstep hsome
      obtain ⟨range, hget⟩ := Option.isSome_iff_exists.mp hsome
      rw [hget, ← hrange, hkeeps.deletionRange step hstep range hget]
  · intro hlast
    refine ⟨hvalue, hkey, fun hspell => (final_tokens_iff h hspell).mpr (hlast.tokens hspell),
      ?_, ?_⟩
    · intro step hstep callback hget
      have hsome : step.callback.isSome := Option.isSome_iff_exists.mpr ⟨callback, hget⟩
      rw [hcallback, ← hlast.callback step hstep hsome]
      exact hget
    · intro step hstep range hget
      have hsome : step.deletionRange.isSome := Option.isSome_iff_exists.mpr ⟨range, hget⟩
      rw [hrange, ← hlast.deletionRange step hstep hsome]
      exact hget

end Accumulate

namespace Exec

variable (E : Env K V H)

/-- The outputs of the commands of a sequence, up to the first one that fails, and what the session
is then. -/
def stepOutputs : CommandSequence → Exec K V H → List Output × Exec K V H
  | [], s => ([], s)
  | name :: names, s =>
    let (executed, s) := (s.editOutput fun _ => {}).executeCommandName E name
    if !executed then ([], s)
    else
      let (outputs, t) := stepOutputs names s
      (s.output :: outputs, t)

variable {E} {s : Exec K V H} {names : CommandSequence} {accumulated : Accumulated}

theorem executeCommandSequenceFrom_eq :
    s.executeCommandSequenceFrom E names accumulated =
      (s.stepOutputs E names).2.finishSequence E
        (accumulateOutputs accumulated (s.stepOutputs E names).1) := by
  induction names generalizing s accumulated with
  | nil => rfl
  | cons name names ih =>
    dsimp only [executeCommandSequenceFrom, stepOutputs]
    split
    · rfl
    · exact ih

/-- What is pending in a session is applied by the callback of an output. -/
def AppliesPending (s : Exec K V H) (output : Output) : Prop :=
  (s.liveConversionPending = true → ∃ delayMillisec, output.callback = some
    { sessionCommand :=
        { type := .applyLiveConversion
          liveConversionGeneration := some s.pendingLiveConversionGeneration
          liveConversionKey := some s.pendingLiveConversionKey }
      delayMillisec }) ∧
  (s.pendingZenzLive.pending = true → ∃ delayMillisec, output.callback = some
    { sessionCommand :=
        { type := .applyZenzLiveCorrection
          liveConversionGeneration := some s.pendingZenzLive.generation
          liveConversionKey := some s.pendingZenzLive.key }
      delayMillisec })

theorem advancePendingZenzLiveCorrection_pending (refresh : Bool) :
    (s.advancePendingZenzLiveCorrection E refresh).live.pending = s.live.pending := by
  have happly : ∀ (t : Exec K V H) (response : ZenzLiveResponse),
      (t.applyZenzLiveCorrectionResult E response).live.pending = t.live.pending := by
    intro t response
    rcases applyZenzLiveCorrectionResult_live (E := E) (s := t) response with h | h <;> rw [h]
    rfl
  dsimp only [advancePendingZenzLiveCorrection]
  split
  · split <;> simp <;> rfl
  · split
    · simp
      rfl
    · split
      · exact happly _ _
      · split <;> simp <;> rfl

theorem maybeScheduleZenzLiveCorrection_pending :
    (s.maybeScheduleZenzLiveCorrection E).live.pending = s.live.pending := by
  dsimp only [maybeScheduleZenzLiveCorrection]
  split
  · rfl
  · split
    · exact advancePendingZenzLiveCorrection_pending false
    · rfl

theorem maybeApplyZenzFeedbackLiveCorrection_pending :
    (s.maybeApplyZenzFeedbackLiveCorrection E).2.live.pending = s.live.pending := by
  unfold maybeApplyZenzFeedbackLiveCorrection
  split
  · rfl
  · dsimp only
    split <;> rfl

theorem startLiveConversion_pending (key preedit : Text) (input : Input)
    (window : CandidateWindow) :
    (s.startLiveConversion E key preedit input window).live.pending = s.live.pending := by
  have hstart : ∀ t : Exec K V H, t.live.pending = s.live.pending →
      (t.maybeApplyZenzFeedbackLiveCorrection E).2.live.pending = s.live.pending := fun t ht =>
    maybeApplyZenzFeedbackLiveCorrection_pending.trans ht
  dsimp only [startLiveConversion]
  split
  · exact hstart _ rfl
  · rw [maybeScheduleZenzLiveCorrection_pending, live_ite,
      attachLiveConversionSuggestionCandidateWindow_live]
    · exact hstart _ rfl
    · rfl

theorem maybeStartLiveConversion_pending (h : (s.maybeStartLiveConversion E).1 = true) :
    (s.maybeStartLiveConversion E).2.live.pending = false := by
  dsimp only [maybeStartLiveConversion] at h ⊢
  split at h
  · cases h
  · rename_i hallowed
    rw [if_neg hallowed]
    split
    · rfl
    · rw [startLiveConversion_pending]
      rfl

/-- `MaybeScheduleLiveConversion` puts out the callback of what it leaves pending. -/
theorem maybeScheduleLiveConversion_applies (h : (s.maybeScheduleLiveConversion E).1 = true)
    (hpending : (s.maybeScheduleLiveConversion E).2.liveConversionPending = true) :
    ∃ delayMillisec, (s.maybeScheduleLiveConversion E).2.output.callback = some
      { sessionCommand :=
          { type := .applyLiveConversion
            liveConversionGeneration :=
              some (s.maybeScheduleLiveConversion E).2.pendingLiveConversionGeneration
            liveConversionKey :=
              some (s.maybeScheduleLiveConversion E).2.pendingLiveConversionKey }
        delayMillisec } := by
  have hstart : ∀ t : Exec K V H, (t.maybeStartLiveConversion E).1 = true →
      (t.maybeStartLiveConversion E).2.liveConversionPending = true → False := by
    intro t hstarted hleft
    have hnone := maybeStartLiveConversion_pending hstarted
    cases hnone.symm.trans hleft
  dsimp only [maybeScheduleLiveConversion] at h hpending ⊢
  split at h
  · cases h
  rename_i hallowed
  rw [if_neg hallowed] at hpending ⊢
  split at h
  · cases h
  rename_i hskip
  rw [if_neg hskip] at hpending ⊢
  split at h
  · rename_i hdelay
    rw [if_pos hdelay] at hpending
    exact (hstart _ h hpending).elim
  rename_i hdelay
  rw [if_neg hdelay] at hpending ⊢
  split at h
  · rename_i hshown
    rw [if_pos hshown] at hpending
    exact (hstart _ h hpending).elim
  · rename_i hshown
    rw [if_neg hshown]
    exact ⟨_, rfl⟩

/-- A key that is bound to the insertion of a character and a change of the input mode. -/
def insertAndToggle : KeyMapManager plainKeyEventUtil :=
  KeyMapManager.addCommand {}
    { state := .composition
      key := { keyCode := some 97 }
      sequence := [.insertCharacter, .toggleAlphanumericMode] }

def typedBefore : Session Text PlainSegments (List Text) :=
  { plainSession with
    context := { plainSession.context with
      state := .composition, composer := { chunks := text "き", position := 1 } } }

def keyA : Input := { type := .sendKey, key := some { keyCode := some 97, keyString := text "あ" } }

end Exec

end Mozkey.Session
