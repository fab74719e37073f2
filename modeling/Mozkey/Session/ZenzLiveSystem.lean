import Mozkey.Session.LiveRuns
import Mozkey.Session.PlainEnv

/-! A session beside the worker thread of its live corrector. The small steps of the session and the
critical sections of `WorkerLoop` follow each other in any order. -/

namespace Mozkey.Session

variable {K V H : Type}

/-- What a small step does to the correction that is pending and to the corrector. -/
inductive ZenzEffect (v w : LiveView K) : Prop
  | none : w.zenzGeneration = v.zenzGeneration → w.pendingZenz = v.pendingZenz →
      w.corrector = v.corrector → ZenzEffect v w
  | advance : w.zenzGeneration = v.zenzGeneration + 1 → w.pendingZenz.submitted = false →
      (w.pendingZenz.pending = true → w.pendingZenz.generation = w.zenzGeneration) →
      (w.corrector = v.corrector ∨ w.corrector = v.corrector.map ZenzLiveCorrector.cancelPending) →
      ZenzEffect v w
  | submit (q : ZenzLiveRequest) (issuedAt : Nat) (c : ZenzLiveCorrector) :
      v.pendingZenz.pending = true → v.pendingZenz.submitted = false →
      q.generation = v.pendingZenz.generation → q.key = v.pendingZenz.key →
      q.mozcValue = v.pendingZenz.mozcValue → w.zenzGeneration = v.zenzGeneration →
      w.pendingZenz = { v.pendingZenz with issuedAt, submitted := true, pollCount := 0 } →
      w.corrector = some (c.submit q) → ZenzEffect v w
  | take (c : ZenzLiveCorrector) (generation : UInt32) (pollCount : UInt32) (pending : Bool) :
      v.corrector = some c → v.pendingZenz.pending = true → v.pendingZenz.submitted = true →
      w.zenzGeneration = v.zenzGeneration →
      w.pendingZenz = { v.pendingZenz with pollCount, pending } →
      w.corrector = some (c.takeResult generation).2 → ZenzEffect v w

theorem LiveAct.zenzEffect {E : Env K V H} {leak : Prop} {v w : LiveView K} (h : LiveAct E leak v w) :
    ZenzEffect v w := by
  cases h
  case cancelPending | clear | start | cancelZenz =>
    exact .advance rfl rfl (fun h => nomatch h) (.inr rfl)
  case acceptZenz => exact .advance rfl rfl (fun h => nomatch h) (.inl rfl)
  case scheduleZenz hgeneration _ _ _ hsubmitted =>
    exact .advance rfl hsubmitted (fun _ => hgeneration) (.inl rfl)
  case submitZenz issuedAt q hpending hsubmitted hgeneration hkey hvalue =>
    exact .submit q issuedAt _ hpending hsubmitted hgeneration hkey hvalue rfl rfl rfl
  case pollZenz c hc hpending hsubmitted _ =>
    exact .take c _ _ v.pendingZenz.pending hc hpending hsubmitted rfl rfl rfl
  case dropZenz c _ hc _ _ _ =>
    exact .advance rfl rfl (fun h => nomatch h) (.inr (by rw [hc]; rfl))
  case showZenz c _ hc hpending hsubmitted _ =>
    exact .take c _ v.pendingZenz.pollCount false hc hpending hsubmitted rfl rfl rfl
  all_goals exact .none rfl rfl rfl

/-- The session and the request that the worker converts. How often the session took a new
generation and what it submitted, the last first, is not part of the program. -/
structure ZenzLiveSystem (K : Type) where
  view : LiveView K
  running : Option ZenzLiveRequest := none
  advances : Nat := 0
  submitted : List ZenzLiveRequest := []

namespace ZenzLiveSystem

def submits (v w : LiveView K) : List ZenzLiveRequest :=
  if w.pendingZenz.submitted && !v.pendingZenz.submitted then
    (w.corrector.bind ZenzLiveCorrector.latestRequest).toList
  else []

def moved (s : ZenzLiveSystem K) (w : LiveView K) : ZenzLiveSystem K :=
  { view := w
    running := s.running
    advances := s.advances + if w.zenzGeneration = s.view.zenzGeneration then 0 else 1
    submitted := submits s.view w ++ s.submitted }

/-- A step of the session, or a critical section of the worker; `client` relates a request to the
responses that a round may make of it. -/
inductive Step (client : ZenzLiveRequest → ZenzLiveResponse → Prop) :
    ZenzLiveSystem K → ZenzLiveSystem K → Prop
  | session {s V H w} {E : Env K V H} : LiveAct E True s.view w → Step client s (s.moved w)
  | takeRequest {s} (c : ZenzLiveCorrector) (q : ZenzLiveRequest) :
      s.view.corrector = some c → s.running = none → c.takeRequest.1 = some q →
      Step client s
        { s with view := { s.view with corrector := some c.takeRequest.2 }, running := some q }
  | storeResult {s} (c : ZenzLiveCorrector) (q : ZenzLiveRequest) (r : ZenzLiveResponse) :
      s.view.corrector = some c → s.running = some q → client q r →
      Step client s
        { s with view := { s.view with corrector := some (c.storeResult r) }, running := none }

abbrev Steps (client : ZenzLiveRequest → ZenzLiveResponse → Prop) :
    ZenzLiveSystem K → ZenzLiveSystem K → Prop := Relation.ReflTransGen (Step client)

structure Initial (s : ZenzLiveSystem K) : Prop where
  generation : s.view.zenzGeneration = 0
  pendingZenz : s.view.pendingZenz = {}
  corrector : s.view.corrector = none
  running : s.running = none
  advances : s.advances = 0
  submitted : s.submitted = []

def Reachable (client : ZenzLiveRequest → ZenzLiveResponse → Prop) (s : ZenzLiveSystem K) : Prop :=
  ∃ init, Initial init ∧ Steps client init s

variable {client : ZenzLiveRequest → ZenzLiveResponse → Prop} {s t : ZenzLiveSystem K}

/-- The request of the pending correction is the last one, and all others are of an earlier
generation; the corrector and the worker have nothing that was not submitted. -/
structure Inv (client : ZenzLiveRequest → ZenzLiveResponse → Prop) (s : ZenzLiveSystem K) : Prop where
  generation : s.view.zenzGeneration = UInt32.ofNat s.advances
  current : s.view.pendingZenz.pending = true ∨ s.view.pendingZenz.submitted = true →
    s.view.pendingZenz.generation = s.view.zenzGeneration
  past : ∀ q ∈ s.submitted, q.generation.toNat ≤ s.advances
  unsubmitted : s.view.pendingZenz.submitted = false →
    ∀ q ∈ s.submitted, q.generation.toNat < s.advances
  last : s.view.pendingZenz.submitted = true → ∃ q rest, s.submitted = q :: rest ∧
    (q.generation = s.view.pendingZenz.generation ∧ q.key = s.view.pendingZenz.key ∧
      q.mozcValue = s.view.pendingZenz.mozcValue) ∧ ∀ q' ∈ rest, q'.generation.toNat < s.advances
  request : ∀ c, s.view.corrector = some c → ∀ q, c.latestRequest = some q → q ∈ s.submitted
  result : ∀ c, s.view.corrector = some c → ∀ r, c.latestResult = some r →
    ∃ q ∈ s.submitted, client q r
  running : ∀ q, s.running = some q → q ∈ s.submitted

theorem Initial.inv (h : Initial s) : Inv client s := by
  constructor <;> simp [h.generation, h.pendingZenz, h.corrector, h.running, h.advances, h.submitted]

theorem Inv.session (h : Inv client s) {w : LiveView K} (heffect : ZenzEffect s.view w) :
    Inv client (s.moved w) := by
  have hview : (s.moved w).view = w := rfl
  have hrunning : (s.moved w).running = s.running := rfl
  cases heffect with
  | none hgen hz hc =>
    have hadv : (s.moved w).advances = s.advances := by simp [moved, hgen]
    have hsub : (s.moved w).submitted = s.submitted := by simp [moved, submits, hz]
    constructor <;> simp only [hview, hrunning, hadv, hsub, hgen, hz, hc]
    exacts [h.generation, h.current, h.past, h.unsubmitted, h.last, h.request, h.result, h.running]
  | advance hgen hsubmitted hcurrent hc =>
    have hadv : (s.moved w).advances = s.advances + 1 := by simp [moved, hgen]
    have hsub : (s.moved w).submitted = s.submitted := by simp [moved, submits, hsubmitted]
    constructor <;> simp only [hview, hrunning, hadv, hsub, hsubmitted]
    · rw [hgen, h.generation, UInt32.ofNat_add]
      rfl
    · simpa using hcurrent
    · exact fun q hq => Nat.le_succ_of_le (h.past q hq)
    · exact fun _ q hq => Nat.lt_succ_of_le (h.past q hq)
    · exact fun hno => Bool.noConfusion hno
    · intro c hsome q hq
      rcases hc with hc | hc
      · exact h.request c (hc ▸ hsome) q hq
      · obtain ⟨c', -, rfl⟩ := Option.map_eq_some_iff.mp (hc.symm.trans hsome)
        cases hq
    · intro c hsome r hr
      rcases hc with hc | hc
      · exact h.result c (hc ▸ hsome) r hr
      · obtain ⟨c', -, rfl⟩ := Option.map_eq_some_iff.mp (hc.symm.trans hsome)
        cases hr
    · exact h.running
  | submit q issuedAt c hpending hsubmitted hq hkey hvalue hgen hz hc =>
    have hadv : (s.moved w).advances = s.advances := by simp [moved, hgen]
    have hsub : (s.moved w).submitted = q :: s.submitted := by
      simp [moved, submits, hz, hc, hsubmitted, ZenzLiveCorrector.submit]
    have hcurrent := h.current (.inl hpending)
    have hlt := h.unsubmitted hsubmitted
    constructor <;> simp only [hview, hrunning, hadv, hsub, hgen, hz, hc]
    · exact h.generation
    · exact fun _ => hcurrent
    · intro q' hq'
      rcases List.mem_cons.mp hq' with rfl | hq'
      · rw [hq, hcurrent, h.generation, UInt32.toNat_ofNat']
        exact Nat.mod_le _ _
      · exact h.past q' hq'
    · exact fun hno => Bool.noConfusion hno
    · exact fun _ => ⟨q, s.submitted, rfl, ⟨hq, hkey, hvalue⟩, hlt⟩
    · rintro _ ⟨⟩ _ ⟨⟩
      exact List.mem_cons_self
    · rintro _ ⟨⟩ _ ⟨⟩
    · exact fun q' hq' => List.mem_cons_of_mem _ (h.running q' hq')
  | take c generation pollCount pending hsome hpending hsubmitted hgen hz hc =>
    have hadv : (s.moved w).advances = s.advances := by simp [moved, hgen]
    have hsub : (s.moved w).submitted = s.submitted := by simp [moved, submits, hz]
    constructor <;> simp only [hview, hrunning, hadv, hsub, hgen, hz, hc]
    · exact h.generation
    · exact fun _ => h.current (.inl hpending)
    · exact h.past
    · exact h.unsubmitted
    · exact h.last
    · rintro _ ⟨⟩ q hq
      exact h.request c hsome q hq
    · rintro _ ⟨⟩ _ ⟨⟩
    · exact h.running

theorem Inv.step (h : Inv client s) (hstep : Step client s t) : Inv client t := by
  cases hstep with
  | session hact => exact h.session hact.zenzEffect
  | takeRequest c q hc _ hq =>
    refine { h with request := ?_, result := ?_, running := ?_ }
    · rintro _ ⟨⟩ _ ⟨⟩
    · rintro _ ⟨⟩ r hr
      exact h.result c hc r hr
    · rintro _ ⟨⟩
      exact h.request c hc q hq
  | storeResult c q r hc hq hr =>
    refine { h with request := ?_, result := ?_, running := ?_ }
    · rintro _ ⟨⟩ q' hq'
      exact h.request c hc q' hq'
    · rintro _ ⟨⟩ _ ⟨⟩
      exact ⟨q, h.running q hq, hr⟩
    · exact nofun

theorem Inv.steps (h : Inv client s) (hsteps : Steps client s t) : Inv client t := by
  induction hsteps with
  | refl => exact h
  | tail _ hstep ih => exact ih.step hstep

theorem Reachable.inv (h : Reachable client s) : Inv client s := by
  obtain ⟨init, hinit, hsteps⟩ := h
  exact hinit.inv.steps hsteps

def Delivers (v : LiveView K) (r : ZenzLiveResponse) : Prop :=
  v.pendingZenz.pending = true ∧ v.pendingZenz.submitted = true ∧
    ∃ c, v.corrector = some c ∧ (c.takeResult v.pendingZenz.generation).1 = some r

/-- A round leaves the generation and the key of the request in the response. -/
def Answering (client : ZenzLiveRequest → ZenzLiveResponse → Prop) : Prop :=
  ∀ q r, client q r → r.generation = q.generation ∧ r.key = q.key

theorem Inv.delivers (h : Inv client s) (hclient : Answering client) (hbound : s.advances < 2 ^ 32)
    {r : ZenzLiveResponse} (hr : Delivers s.view r) :
    r.generation.toNat = s.advances ∧ ∃ q rest, s.submitted = q :: rest ∧ client q r ∧
      q.generation = s.view.pendingZenz.generation ∧ q.key = s.view.pendingZenz.key ∧
      q.mozcValue = s.view.pendingZenz.mozcValue := by
  obtain ⟨hpending, hsubmitted, c, hc, hr⟩ := hr
  obtain ⟨hresult, hgeneration⟩ := Option.filter_eq_some_iff.mp hr
  have hnat : r.generation.toNat = s.advances := by
    rw [eq_of_beq hgeneration, h.current (.inl hpending), h.generation, UInt32.toNat_ofNat']
    exact Nat.mod_eq_of_lt hbound
  refine ⟨hnat, ?_⟩
  obtain ⟨q, rest, hsub, hq, hrest⟩ := h.last hsubmitted
  obtain ⟨q', hq', hanswer⟩ := h.result c hc r hresult
  have hsame := (hclient q' r hanswer).1
  rw [hsub] at hq'
  rcases List.mem_cons.mp hq' with rfl | hq'
  · exact ⟨q', rest, hsub, hanswer, hq⟩
  · have := hrest q' hq'
    rw [← hsame, hnat] at this
    exact absurd this (Nat.lt_irrefl _)

/-- Whatever the order of the steps, a response that the session is handed answers the request that
was submitted last, the one of the correction that is pending. -/
theorem delivers_last_request (hclient : Answering client) (h : Reachable client s)
    (hbound : s.advances < 2 ^ 32) {r : ZenzLiveResponse} (hr : Delivers s.view r) :
    ∃ q rest, s.submitted = q :: rest ∧ client q r ∧
      q.generation = s.view.pendingZenz.generation ∧ q.key = s.view.pendingZenz.key ∧
      q.mozcValue = s.view.pendingZenz.mozcValue :=
  (h.inv.delivers hclient hbound hr).2

/-- After a state in which no correction is pending. -/
structure After (s t : ZenzLiveSystem K) : Prop where
  advances : s.advances ≤ t.advances
  submitted : s.submitted <:+ t.submitted
  idle : t.advances = s.advances → t.view.pendingZenz.pending = false

theorem After.step {u : ZenzLiveSystem K} (h : After s t) (hstep : Step client t u) : After s u := by
  have hsubmitted : ∀ w, s.submitted <:+ (t.moved w).submitted := fun w =>
    h.submitted.trans (List.suffix_append _ _)
  cases hstep with
  | session hact =>
    refine ⟨h.advances.trans (Nat.le_add_right _ _), hsubmitted _, fun heq => ?_⟩
    have hsame : t.advances = s.advances :=
      Nat.le_antisymm ((Nat.le_add_right _ _).trans heq.le) h.advances
    have hidle := h.idle hsame
    cases hact.zenzEffect with
    | none _ hz _ => exact hz ▸ hidle
    | advance hgen _ _ _ =>
      simp [moved, hgen] at heq
      omega
    | submit _ _ _ hpending => exact Bool.noConfusion (hidle.symm.trans hpending)
    | take _ _ _ _ _ hpending => exact Bool.noConfusion (hidle.symm.trans hpending)
  | takeRequest => exact ⟨h.advances, h.submitted, h.idle⟩
  | storeResult => exact ⟨h.advances, h.submitted, h.idle⟩

theorem After.steps (hidle : s.view.pendingZenz.pending = false) (h : Steps client s t) :
    After s t := by
  induction h with
  | refl => exact ⟨le_refl _, List.suffix_refl _, fun _ => hidle⟩
  | tail _ hstep ih => exact ih.step hstep

/-- Once no correction is pending, as after a response was shown or dropped, only requests that are
submitted later are answered. -/
theorem delivers_later_requests (hclient : Answering client) (h : Reachable client s)
    (hidle : s.view.pendingZenz.pending = false) (hsteps : Steps client s t)
    (hbound : t.advances < 2 ^ 32) {r : ZenzLiveResponse} (hr : Delivers t.view r) :
    ∃ q rest, t.submitted = q :: rest ∧ client q r ∧ s.submitted <:+ rest ∧
      ∀ q' ∈ s.submitted, q'.generation ≠ r.generation := by
  have hafter := After.steps hidle hsteps
  obtain ⟨hgeneration, q, rest, hsub, hq, -⟩ := (h.inv.steps hsteps).delivers hclient hbound hr
  have hlt : s.advances < t.advances := by
    refine Nat.lt_of_le_of_ne hafter.advances fun heq => ?_
    exact Bool.noConfusion ((hafter.idle heq.symm).symm.trans hr.1)
  have hother : ∀ q' ∈ s.submitted, q'.generation ≠ r.generation := by
    intro q' hq' heq
    have := h.inv.past q' hq'
    rw [heq, hgeneration] at this
    omega
  refine ⟨q, rest, hsub, hq, ?_, hother⟩
  rcases List.suffix_cons_iff.mp (hsub ▸ hafter.submitted) with heq | hsuffix
  · exact absurd (hclient q r hq).1.symm (hother q (heq ▸ List.mem_cons_self))
  · exact hsuffix

/-- A call of the session is a path of the system, wherever the worker stands. -/
theorem steps_call (E : Env K V H) {session : Session K V H} (call : Call K V)
    (hview : s.view = session.live) :
    ∃ t, Steps client s t ∧ t.view = (session.call E call).live ∧ t.running = s.running := by
  have hpath : LiveSteps E True s.view (session.call E call).live := by
    rw [hview]
    cases call with
    | sendKey input => exact Exec.sendKey_path (s := session.exec input)
    | testSendKey input => exact Exec.testSendKey_live_steps (s := session.exec input)
    | sendCommand input => exact Exec.sendCommand_path (s := session.exec input)
    | configure context => exact .act (.edit _ _ (.inl trivial))
  generalize (session.call E call).live = w at hpath
  induction hpath with
  | refl => exact ⟨s, .refl, rfl, rfl⟩
  | tail _ hact ih =>
    obtain ⟨t, hsteps, rfl, hrunning⟩ := ih
    exact ⟨_, hsteps.tail (.session hact), rfl, hrunning⟩

/-- A client that gives the key back. -/
def Echoes (q : ZenzLiveRequest) (r : ZenzLiveResponse) : Prop :=
  r = { generation := q.generation, key := q.key, value := q.key, ok := true }

theorem answering_echoes : Answering Echoes := by
  rintro q r rfl
  exact ⟨rfl, rfl⟩

theorem steps_call_plain : ∃ t, Steps Echoes { view := plainSession.live } t ∧
    t.view = (plainSession.call (plainEnv {} {}) (.sendKey {})).live ∧ t.running = none :=
  steps_call _ _ rfl

def converting : ZenzLiveSystem Text :=
  { view := { plainSession.live with state := .conversion, active := true } }

theorem initial_converting : Initial converting := ⟨rfl, rfl, rfl, rfl, rfl, rfl⟩

/-- A correction was scheduled and submitted, and the worker made a round. -/
def answered : ZenzLiveSystem Text :=
  { view := { converting.view with
      zenzGeneration := 1
      pendingZenz := { generation := 1, pending := true, submitted := true }
      corrector := some { latestResult := some { generation := 1, key := [], ok := true } } }
    advances := 1
    submitted := [{ generation := 1, key := [] }] }

theorem steps_answered : Steps Echoes converting answered := by
  have hschedule : LiveAct (plainEnv {} {}) True converting.view _ :=
    .scheduleZenz { generation := 1, pending := true } rfl rfl rfl rfl rfl rfl rfl
  have hsubmit : LiveAct (plainEnv {} {}) True { converting.view with
      zenzGeneration := 1
      pendingZenz := { generation := 1, pending := true } } _ :=
    .submitZenz 0 { generation := 1, key := [] } rfl rfl rfl rfl rfl
  have hstore : Step Echoes { answered with
      view := { answered.view with corrector := some {} }
      running := some { generation := 1, key := [] } } answered := .storeResult {} _ _ rfl rfl rfl
  exact (((Relation.ReflTransGen.single (.session hschedule)).tail (.session hsubmit)).tail
    (.takeRequest (.submit { generation := 1, key := [] } {}) _ rfl rfl rfl)).tail hstore

theorem delivers_answered :
    Delivers answered.view { generation := 1, key := [], ok := true } :=
  ⟨rfl, rfl, _, rfl, rfl⟩

theorem delivers_last_request_answered : ∃ q rest, answered.submitted = q :: rest ∧
    Echoes q { generation := 1, key := [], ok := true } ∧
    q.generation = answered.view.pendingZenz.generation ∧
    q.key = answered.view.pendingZenz.key ∧
    q.mozcValue = answered.view.pendingZenz.mozcValue :=
  delivers_last_request answering_echoes ⟨_, initial_converting, steps_answered⟩ (by decide)
    delivers_answered

theorem delivers_later_requests_answered : ∃ q rest, answered.submitted = q :: rest ∧
    Echoes q { generation := 1, key := [], ok := true } ∧ converting.submitted <:+ rest ∧
    ∀ q' ∈ converting.submitted, q'.generation ≠ 1 :=
  delivers_later_requests answering_echoes ⟨_, initial_converting, .refl⟩ rfl steps_answered
    (by decide) delivers_answered

end ZenzLiveSystem

end Mozkey.Session
