import Mozkey.Session.Session

/-! The pending Zenz feedback of a session, and a feedback store that keeps a log of what is written
to it. The converter knows nothing of this store. -/

namespace Mozkey.Session

variable {K V H A : Type}

structure FeedbackRecord where
  action : FeedbackAction
  key : Text
  contextClass : Text
  value : Text
  deriving DecidableEq

def PendingZenzFeedback.record (feedback : PendingZenzFeedback) : FeedbackRecord :=
  { action := feedback.action
    key := feedback.key
    contextClass := feedback.contextClass
    value := feedback.value }

abbrev FeedbackLog := List FeedbackRecord

/-! An operation of the converter next to a log. -/

def beside (engine : Engine V (H × FeedbackLog)) : Engine V H := (engine.1, engine.2.1)

def withLog (log : FeedbackLog) (engine : Engine V H) : Engine V (H × FeedbackLog) :=
  (engine.1, engine.2, log)

def loggedEdit (f : Engine V H → Engine V H) (engine : Engine V (H × FeedbackLog)) :
    Engine V (H × FeedbackLog) :=
  withLog engine.2.2 (f (beside engine))

def loggedCall (f : Engine V H → A × Engine V H) (engine : Engine V (H × FeedbackLog)) :
    A × Engine V (H × FeedbackLog) :=
  ((f (beside engine)).1, withLog engine.2.2 (f (beside engine)).2)

def loggedCommit (f : Engine V H → Bool × Nat × Engine V H)
    (engine : Engine V (H × FeedbackLog)) : Bool × Nat × Engine V (H × FeedbackLog) :=
  ((f (beside engine)).1, (f (beside engine)).2.1, withLog engine.2.2 (f (beside engine)).2.2)

@[simp] theorem loggedEdit_log (f : Engine V H → Engine V H)
    (engine : Engine V (H × FeedbackLog)) : (loggedEdit f engine).2.2 = engine.2.2 := rfl

@[simp] theorem loggedCall_log (f : Engine V H → A × Engine V H)
    (engine : Engine V (H × FeedbackLog)) : (loggedCall f engine).2.2.2 = engine.2.2 := rfl

@[simp] theorem loggedCommit_log (f : Engine V H → Bool × Nat × Engine V H)
    (engine : Engine V (H × FeedbackLog)) : (loggedCommit f engine).2.2.2.2 = engine.2.2 := rfl

@[simps] def ConverterOps.logged (ops : ConverterOps K V H) :
    ConverterOps K V (H × FeedbackLog) where
  convertWithPreferences preferences composer :=
    loggedCall (ops.convertWithPreferences preferences composer)
  convertToTransliteration type composer := loggedCall (ops.convertToTransliteration type composer)
  convertToHalfWidth composer := loggedCall (ops.convertToHalfWidth composer)
  switchKanaType composer := loggedCall (ops.switchKanaType composer)
  suggestWithPreferences preferences composer context :=
    loggedCall (ops.suggestWithPreferences preferences composer context)
  predict composer := loggedCall (ops.predict composer)
  cancel := loggedEdit ops.cancel
  reset := loggedEdit ops.reset
  revert := loggedEdit ops.revert
  commit composer context := loggedEdit (ops.commit composer context)
  commitContext composer context := loggedEdit (ops.commitContext composer context)
  commitSuggestionByIndex index composer context :=
    loggedCommit (ops.commitSuggestionByIndex index composer context)
  commitSuggestionById id composer context :=
    loggedCommit (ops.commitSuggestionById id composer context)
  commitHeadToFocusedSegments composer context :=
    loggedCall (ops.commitHeadToFocusedSegments composer context)
  commitFirstSegment composer context := loggedCall (ops.commitFirstSegment composer context)
  commitPreedit composer context reranked keys :=
    loggedEdit (ops.commitPreedit composer context reranked keys)
  commitHead count composer := loggedCall (ops.commitHead count composer)
  learnExternalConversionResult key value context :=
    loggedCall (ops.learnExternalConversionResult key value context)
  getReadingText text engine := ops.getReadingText text (beside engine)
  deleteCandidateFromHistory id := loggedCall (ops.deleteCandidateFromHistory id)
  onStartComposition context := loggedEdit (ops.onStartComposition context)
  segmentFocusRight := loggedEdit ops.segmentFocusRight
  segmentFocusLast := loggedEdit ops.segmentFocusLast
  segmentFocusLeft := loggedEdit ops.segmentFocusLeft
  segmentFocusLeftEdge := loggedEdit ops.segmentFocusLeftEdge
  segmentWidthExpand composer := loggedEdit (ops.segmentWidthExpand composer)
  segmentWidthShrink composer := loggedEdit (ops.segmentWidthShrink composer)
  candidateNext composer := loggedEdit (ops.candidateNext composer)
  candidateNextPage := loggedEdit ops.candidateNextPage
  candidatePrev := loggedEdit ops.candidatePrev
  candidatePrevPage := loggedEdit ops.candidatePrevPage
  candidateMoveToId id composer := loggedEdit (ops.candidateMoveToId id composer)
  candidateMoveToShortcut shortcut := loggedCall (ops.candidateMoveToShortcut shortcut)
  getConversionSegmentKeys := ops.getConversionSegmentKeys
  fillConversion := ops.fillConversion
  fillCandidateWindow := ops.fillCandidateWindow
  fillAllCandidateWords := ops.fillAllCandidateWords
  preeditSegment := ops.preeditSegment

@[simps] def FeedbackOps.logged (ops : FeedbackOps H) : FeedbackOps (H × FeedbackLog) where
  recordAccepted key contextClass value history :=
    (ops.recordAccepted key contextClass value history.1,
      ⟨.accepted, key, contextClass, value⟩ :: history.2)
  recordRejected key contextClass value reason history :=
    (ops.recordRejected key contextClass value reason history.1,
      ⟨.rejected, key, contextClass, value⟩ :: history.2)
  getAcceptedCandidates key contextClass history :=
    ops.getAcceptedCandidates key contextClass history.1
  decide key contextClass value history := ops.decide key contextClass value history.1

/-- The environment with a log behind its feedback store. -/
@[simps] def Env.logged (E : Env K V H) : Env K V (H × FeedbackLog) :=
  { E with converterOps := E.converterOps.logged, feedbackOps := E.feedbackOps.logged }

/-! What the log is about. -/

/-- The slot of a session, what has happened to it, and what has been written. -/
structure FeedbackView where
  slot : PendingZenzFeedback
  events : List FeedbackEvent
  log : FeedbackLog

namespace FeedbackView

def fill (feedback : PendingZenzFeedback) (v : FeedbackView) : FeedbackView :=
  { v with slot := feedback, events := .set feedback :: v.events }

def discard (v : FeedbackView) : FeedbackView :=
  if v.slot.pending then { v with slot := {}, events := .discarded :: v.events } else v

/-- A confirmation writes what it has found, unless nothing is to be learnt. -/
def confirm (learning : Bool) (v : FeedbackView) : FeedbackView :=
  if !v.slot.pending then v
  else if !learning ∨ v.slot.action = .none then
    { v with slot := {}, events := .confirmed none :: v.events }
  else
    { slot := {}
      events := .confirmed (some v.slot) :: v.events
      log := v.slot.record :: v.log }

def slotOf : List FeedbackEvent → PendingZenzFeedback
  | .set feedback :: _ => feedback
  | _ => {}

def written (events : List FeedbackEvent) : FeedbackLog :=
  events.filterMap fun
    | .confirmed (some feedback) => some feedback.record
    | _ => none

/-- A confirmation that writes comes right behind the call that has set what it writes. -/
def Ordered (events : List FeedbackEvent) : Prop :=
  ∀ newer feedback older, events = newer ++ .confirmed (some feedback) :: older →
    ∃ rest, older = .set feedback :: rest

/-- The events say what is in the slot and in the log. -/
structure Explained (v : FeedbackView) : Prop where
  slot : v.slot = slotOf v.events
  log : v.log = written v.events
  ordered : Ordered v.events

inductive Act (v : FeedbackView) : FeedbackView → Prop
  | fill (feedback : PendingZenzFeedback) : Act v (v.fill feedback)
  | discard : Act v v.discard
  | confirm (learning : Bool) : Act v (v.confirm learning)

def Steps : FeedbackView → FeedbackView → Prop := Relation.ReflTransGen Act

variable {v w u : FeedbackView}

@[simp] theorem discard_discard : v.discard.discard = v.discard := by
  by_cases h : v.slot.pending = true <;> simp [discard, h]

theorem discard_pending : v.discard.slot.pending = false := by
  unfold discard
  split
  · rfl
  · rename_i h
    simpa using h

theorem discard_log : v.discard.log = v.log := by
  unfold discard
  split <;> rfl

theorem Ordered.cons {event : FeedbackEvent} {events : List FeedbackEvent} (h : Ordered events)
    (hevent : ∀ feedback, event = .confirmed (some feedback) →
      ∃ rest, events = .set feedback :: rest) : Ordered (event :: events) := by
  intro newer feedback older heq
  cases newer with
  | nil =>
    obtain ⟨hhead, rfl⟩ := List.cons.inj heq
    exact hevent feedback hhead
  | cons first newer =>
    obtain ⟨_, htail⟩ := List.cons.inj heq
    exact h newer feedback older htail

theorem slotOf_pending {events : List FeedbackEvent} (h : (slotOf events).pending = true) :
    ∃ rest, events = .set (slotOf events) :: rest := by
  unfold slotOf at h ⊢
  split at h
  · exact ⟨_, rfl⟩
  · cases h

theorem Explained.fill (h : v.Explained) (feedback : PendingZenzFeedback) :
    (v.fill feedback).Explained :=
  ⟨rfl, h.log, h.ordered.cons fun _ hevent => by cases hevent⟩

theorem Explained.discard (h : v.Explained) : v.discard.Explained := by
  unfold FeedbackView.discard
  split
  · exact ⟨rfl, h.log, h.ordered.cons fun _ hevent => by cases hevent⟩
  · exact h

theorem Explained.confirm (h : v.Explained) (learning : Bool) : (v.confirm learning).Explained := by
  unfold FeedbackView.confirm
  split
  · exact h
  · rename_i hpending
    have hpending : v.slot.pending = true := by simpa using hpending
    split
    · exact ⟨rfl, h.log, h.ordered.cons fun _ hevent => by cases hevent⟩
    · refine ⟨rfl, ?_, h.ordered.cons fun feedback hevent => ?_⟩
      · rw [h.log]
        rfl
      · obtain rfl : v.slot = feedback := by
          injection hevent with hevent
          exact Option.some.inj hevent
        rw [h.slot] at hpending ⊢
        exact slotOf_pending hpending

theorem Steps.refl (v : FeedbackView) : Steps v v := Relation.ReflTransGen.refl

theorem Steps.of_eq (h : w = v) : Steps v w := h ▸ .refl v

theorem Steps.act (h : Act v w) : Steps v w := Relation.ReflTransGen.single h

theorem Steps.of_discard (h : w = v.discard) : Steps v w := h ▸ .act .discard

theorem Steps.trans (h : Steps v w) (h' : Steps w u) : Steps v u :=
  Relation.ReflTransGen.trans h h'

theorem Act.explained (hact : Act v w) (h : v.Explained) : w.Explained := by
  cases hact with
  | fill feedback => exact h.fill feedback
  | discard => exact h.discard
  | confirm learning => exact h.confirm learning

theorem Steps.explained (hsteps : Steps v w) (h : v.Explained) : w.Explained := by
  induction hsteps with
  | refl => exact h
  | tail _ hact ih => exact hact.explained ih

end FeedbackView

end Mozkey.Session
