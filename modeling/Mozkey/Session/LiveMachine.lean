import Mozkey.Session.LiveView

/-! What can happen to a live conversion, as a machine of small steps: the text changes, a conversion
is scheduled, cancelled, started or stopped, and a Zenz correction goes its way. The handlers of a
session are paths of this machine, and what every step keeps, every handler keeps. -/

namespace Mozkey.Session

variable {K V H : Type}

namespace LiveView

def cancelZenz (v : LiveView K) : LiveView K :=
  { v with
    zenzGeneration := v.zenzGeneration + 1
    pendingZenz := {}
    corrector := v.corrector.map ZenzLiveCorrector.cancelPending }

/-- The live conversion that was scheduled is forgotten. -/
def unscheduled (v : LiveView K) : LiveView K :=
  { v with pending := false, pendingGeneration := 0, pendingKey := [] }

def cancelPending (v : LiveView K) : LiveView K :=
  { v.unscheduled with generation := v.generation + 1 }.cancelZenz

def clear (v : LiveView K) : LiveView K :=
  { v.unscheduled with
    generation := v.generation + 1, active := false, key := [], value := [] }.cancelZenz

def schedule (key : Text) (v : LiveView K) : LiveView K :=
  { v with
    generation := v.generation + 1
    pending := true
    pendingGeneration := v.generation + 1
    pendingKey := key
    lastScheduled := some (v.generation + 1, key) }

def start (key value : Text) (v : LiveView K) : LiveView K :=
  { v with state := .conversion, active := true, key, value }.cancelZenz

end LiveView

variable (E : Env K V H) (leak : Prop)

def LiveView.query (v : LiveView K) : Text := E.composerOps.getQueryForConversion v.chunks

/-- A small step. The text and the state are left alone while a live conversion is active, unless
`leak` holds. -/
inductive LiveAct : LiveView K → LiveView K → Prop
  | edit {v} (chunks : K) (inputFieldType : InputFieldType) :
      leak ∨ v.active = false → LiveAct v { v with chunks, inputFieldType }
  | moveTo {v} (state : State) : leak ∨ v.active = false → LiveAct v { v with state }
  | stop {v} : LiveAct v { v with active := false }
  | forget {v} : leak ∨ v.active = false → LiveAct v { v with key := [], value := [] }
  | cancelPending {v} : LiveAct v v.cancelPending
  | clear {v} : LiveAct v v.clear
  | unschedule {v} : LiveAct v v.unscheduled
  | schedule {v} : LiveAct v (v.schedule (v.query E))
  | start {v} (value : Text) : v.inputFieldType ≠ .password →
      LiveAct v (v.start (v.query E) value)
  | cancelZenz {v} : LiveAct v v.cancelZenz
  /-- A correction that was accepted before is shown at once. -/
  | acceptZenz {v} : LiveAct v
      { v with zenzGeneration := v.zenzGeneration + 1, pendingZenz := {} }
  | scheduleZenz {v} (pendingZenz : PendingZenzLiveCorrection) :
      v.active = true → v.state = .conversion →
      pendingZenz.generation = v.zenzGeneration + 1 → pendingZenz.key = v.key →
      pendingZenz.mozcValue = v.value → pendingZenz.pending = true →
      pendingZenz.submitted = false →
      LiveAct v { v with zenzGeneration := v.zenzGeneration + 1, pendingZenz }
  | submitZenz {v} (issuedAt : Nat) (request : ZenzLiveRequest) :
      v.pendingZenz.pending = true → v.pendingZenz.submitted = false →
      request.generation = v.pendingZenz.generation → request.key = v.pendingZenz.key →
      request.mozcValue = v.pendingZenz.mozcValue →
      LiveAct v { v with
        pendingZenz := { v.pendingZenz with issuedAt, submitted := true, pollCount := 0 }
        corrector := some ((v.corrector.getD {}).submit request) }
  /-- The result is not there yet. -/
  | pollZenz {v} (corrector : ZenzLiveCorrector) :
      v.corrector = some corrector → v.pendingZenz.pending = true →
      v.pendingZenz.submitted = true →
      (corrector.takeResult v.pendingZenz.generation).1 = none →
      LiveAct v { v with
        corrector := some (corrector.takeResult v.pendingZenz.generation).2
        pendingZenz := { v.pendingZenz with pollCount := v.pendingZenz.pollCount + 1 } }
  /-- The result is there and is not used. -/
  | dropZenz {v} (corrector : ZenzLiveCorrector) (response : ZenzLiveResponse) :
      v.corrector = some corrector → v.pendingZenz.pending = true →
      v.pendingZenz.submitted = true →
      (corrector.takeResult v.pendingZenz.generation).1 = some response →
      LiveAct v { v with
        corrector := some (corrector.takeResult v.pendingZenz.generation).2 }.cancelZenz
  | showZenz {v} (corrector : ZenzLiveCorrector) (response : ZenzLiveResponse) :
      v.corrector = some corrector → v.pendingZenz.pending = true →
      v.pendingZenz.submitted = true →
      (corrector.takeResult v.pendingZenz.generation).1 = some response →
      LiveAct v { v with
        corrector := some (corrector.takeResult v.pendingZenz.generation).2
        pendingZenz := { v.pendingZenz with pending := false } }

def LiveSteps : LiveView K → LiveView K → Prop := Relation.ReflTransGen (LiveAct E leak)

variable {E leak} {v w u : LiveView K}

theorem LiveSteps.refl : LiveSteps E leak v v := Relation.ReflTransGen.refl

theorem LiveSteps.of_eq (h : w = v) : LiveSteps E leak v w := h ▸ .refl

theorem LiveSteps.act (h : LiveAct E leak v w) : LiveSteps E leak v w :=
  Relation.ReflTransGen.single h

theorem LiveSteps.trans (h : LiveSteps E leak v w) (h' : LiveSteps E leak w u) :
    LiveSteps E leak v u :=
  Relation.ReflTransGen.trans h h'

theorem LiveSteps.tail (h : LiveSteps E leak v w) (h' : LiveAct E leak w u) :
    LiveSteps E leak v u :=
  h.trans (.act h')

/-! The text, its field and its state. -/

/-- Nothing but the text, its field and its state is different. -/
def TextOnly (v w : LiveView K) : Prop :=
  ∃ state chunks inputFieldType, w = { v with state, chunks, inputFieldType }

theorem TextOnly.refl (v : LiveView K) : TextOnly v v := ⟨_, _, _, rfl⟩

theorem TextOnly.of_eq (h : w = v) : TextOnly v w := h ▸ .refl v

theorem TextOnly.trans (h : TextOnly v w) (h' : TextOnly w u) : TextOnly v u := by
  obtain ⟨state, chunks, inputFieldType, rfl⟩ := h
  obtain ⟨state', chunks', inputFieldType', rfl⟩ := h'
  exact ⟨state', chunks', inputFieldType', rfl⟩

theorem TextOnly.steps (h : TextOnly v w) (hactive : leak ∨ v.active = false) :
    LiveSteps E leak v w := by
  obtain ⟨state, chunks, inputFieldType, rfl⟩ := h
  exact (LiveSteps.act (.edit chunks inputFieldType hactive)).tail (.moveTo state hactive)

theorem TextOnly.clear_steps (h : TextOnly v w) : LiveSteps E leak v w.clear := by
  obtain ⟨state, chunks, inputFieldType, rfl⟩ := h
  have hactive : leak ∨ v.clear.active = false := .inr rfl
  exact ((LiveSteps.act .clear).tail (.edit chunks inputFieldType hactive)).tail
    (.moveTo state hactive)

/-! What every step keeps. -/

/-- A live conversion is active in the conversion state only. -/
def Guarded (leak : Prop) (v : LiveView K) : Prop := leak ∨ (v.active = true → v.state = .conversion)

def PendingIsScheduled (v : LiveView K) : Prop :=
  v.pending = true → v.lastScheduled = some (v.pendingGeneration, v.pendingKey)

theorem Guarded.inactive (h : Guarded leak v) (hstate : v.state ≠ .conversion) :
    leak ∨ v.active = false := by
  rcases h with h | h
  · exact .inl h
  · exact .inr (Bool.eq_false_iff.mpr fun hactive => hstate (h hactive))

theorem Guarded.of_inactive (h : leak ∨ v.active = false) : Guarded leak v :=
  h.imp_right fun h hactive => by simp [h] at hactive

theorem LiveAct.guarded (h : LiveAct E leak v w) (hv : Guarded leak v) : Guarded leak w := by
  cases h
  case edit | moveTo | forget =>
    apply Guarded.of_inactive
    assumption
  case stop | clear => exact .of_inactive (.inr rfl)
  case start => exact .inr fun _ => rfl
  all_goals exact hv

theorem LiveSteps.guarded (h : LiveSteps E leak v w) (hv : Guarded leak v) : Guarded leak w := by
  induction h with
  | refl => exact hv
  | tail _ hact ih => exact hact.guarded ih

theorem LiveAct.pendingIsScheduled (h : LiveAct E leak v w) (hv : PendingIsScheduled v) :
    PendingIsScheduled w := by
  cases h
  case cancelPending | clear | unschedule => exact fun hpending => by cases hpending
  case schedule => exact fun _ => rfl
  all_goals exact hv

theorem LiveSteps.pendingIsScheduled (h : LiveSteps E leak v w) (hv : PendingIsScheduled v) :
    PendingIsScheduled w := by
  induction h with
  | refl => exact hv
  | tail _ hact ih => exact hact.pendingIsScheduled ih

end Mozkey.Session
