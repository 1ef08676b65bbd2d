import SemanticClassifier.Classify
import SemanticClassifier.Library.Interleaving
import SemanticClassifier.Library.Tally

namespace SemanticClassifier.Handoff
open Classify Interleaving Tally

-- A `usize` bound that the channel and the semaphore both accept.
structure Bound where
  bound : Nat
  positive : 1 ≤ bound
  fits : bound < UInt64.size

-- `id` counts the admitted jobs in channel order and names the job's oneshot.
structure InferenceJob where
  id : Nat
  input : ClassificationInput
  queuedAt : Nat
  deadline : Option Nat

-- A thread inside `try_enqueue_with_deadline`. From `counting` to `sending` it
-- holds its permit; the failed `try_send` drops it with the job.
inductive Caller where
  | idle
  | counting (input : ClassificationInput) (deadline : Option Nat)
  | raising (n : Nat) (input : ClassificationInput) (deadline : Option Nat)
  | stamping (input : ClassificationInput) (deadline : Option Nat)
  | sending (input : ClassificationInput) (queuedAt : Nat) (deadline : Option Nat)
  | retracting
  | accepted (id : Nat)
  | rejected

-- A worker between two operations of its loop.
inductive Worker (σ : Type) where
  | waiting
  | receiving
  | received (job : Option InferenceJob)
  | reading (job : InferenceJob)
  | checking (job : InferenceJob) (expired : Bool)
  | abandoning (job : InferenceJob) (expired : Bool)
  | recording (job : InferenceJob) (expired : Bool)
  | dropping (job : InferenceJob)
  | expiring (job : InferenceJob)
  | recordingExpired (job : InferenceJob)
  | declining (job : InferenceJob)
  | sampling (job : InferenceJob)
  | classifying (job : InferenceJob)
  | responding (job : InferenceJob) (result : Outcome σ)
  | finishing (job : InferenceJob)
  | releasing (job : InferenceJob)
  | returned

inductive Event (σ : Type) where
  | classified (job : InferenceJob) (result : Outcome σ)
  | responded (job : InferenceJob) (result : Outcome σ)
  | declined (job : InferenceJob)
  | dropped (job : InferenceJob)

-- `admitted`, `dequeued` and `log` record the run and are never read.
structure State (κ ω σ : Type) where
  channel : List InferenceJob
  available : Nat
  current : Nat
  maximum : Nat
  receiver : Option ω
  sender : Bool
  clock : Nat
  closed : List Nat
  caller : κ → Caller
  worker : ω → Worker σ
  queueSamples : Nat
  queuedExpired : Nat
  queuedCancelled : Nat
  admitted : List InferenceJob
  dequeued : List InferenceJob
  log : List (Event σ)

inductive Action (κ ω σ : Type) where
  | enqueue (caller : κ) (input : ClassificationInput) (deadline : Option Nat)
  | call (caller : κ)
  | work (worker : ω)
  | forwarded (worker : ω) (result : Outcome σ)
  | cancel (id : Nat)
  | tick (elapsed : Nat)
  | shutdown

def Caller.Ready : Caller → Bool
  | .idle | .accepted _ | .rejected => true
  | _ => false

def Worker.Alive : Worker σ → Bool
  | .returned => false
  | _ => true

-- `fetch_add` and `fetch_sub` wrap.
def fetchAdd (n : Nat) : Nat := if n + 1 = UInt64.size then 0 else n + 1

def fetchSub (n : Nat) : Nat := if n = 0 then UInt64.size - 1 else n - 1

section Machine
variable {κ ω σ : Type} [DecidableEq κ] [DecidableEq ω] [Fintype κ] [Fintype ω]

def start (κ ω σ : Type) (bound : Bound) : State κ ω σ where
  channel := []
  available := bound.bound
  current := 0
  maximum := 0
  receiver := none
  sender := true
  clock := 0
  closed := []
  caller := fun _ => .idle
  worker := fun _ => .waiting
  queueSamples := 0
  queuedExpired := 0
  queuedCancelled := 0
  admitted := []
  dequeued := []
  log := []

def asks (s : State κ ω σ) (c : κ) (place : Caller) : State κ ω σ :=
  {s with caller := Function.update s.caller c place}

def works (s : State κ ω σ) (w : ω) (place : Worker σ) : State κ ω σ :=
  {s with worker := Function.update s.worker w place}

def maxAdmitted (s : State κ ω σ) : Nat := s.maximum

-- The channel takes a job while it has room and some worker still owns the receiver.
def trySend (bound : Bound) (s : State κ ω σ) (job : InferenceJob) : Option (State κ ω σ) :=
  if s.channel.length < bound.bound ∧ ∃ w, (s.worker w).Alive = true then
    some {s with channel := s.channel ++ [job],admitted := s.admitted ++ [job]}
  else none

def callStep (bound : Bound) (s : State κ ω σ) (c : κ) : Option (State κ ω σ) :=
  match s.caller c with
  | .counting input deadline =>
    some (asks {s with current := fetchAdd s.current} c (.raising (fetchAdd s.current) input deadline))
  | .raising n input deadline =>
    some (asks {s with maximum := max s.maximum n} c (.stamping input deadline))
  | .stamping input deadline => some (asks s c (.sending input s.clock deadline))
  | .sending input queuedAt deadline =>
    let id := s.admitted.length
    match trySend bound s ⟨id,input,queuedAt,deadline⟩ with
    | some sent => some (asks sent c (.accepted id))
    | none => some (asks {s with available := s.available + 1} c .retracting)
  | .retracting => some (asks {s with current := fetchSub s.current} c .rejected)
  | _ => none

def workStep (s : State κ ω σ) (w : ω) : Option (State κ ω σ) :=
  match s.worker w with
  | .waiting =>
    match s.receiver with
    | none => some (works {s with receiver := some w} w .receiving)
    | some _ => none
  | .receiving =>
    match s.channel with
    | job :: rest =>
      some (works {s with channel := rest,dequeued := s.dequeued ++ [job]} w (.received (some job)))
    | [] => if s.sender = true then none else some (works s w (.received none))
  | .received (some job) => some (works {s with receiver := none} w (.reading job))
  | .received none => some (works {s with receiver := none} w .returned)
  | .reading job =>
    some (works s w (.checking job (job.deadline.any fun deadline => deadline ≤ s.clock)))
  | .checking job expired =>
    some (works s w (if job.id ∈ s.closed then .abandoning job expired
      else if expired = true then .expiring job else .sampling job))
  | .abandoning job expired =>
    some (works {s with current := fetchSub s.current} w (.recording job expired))
  | .recording job expired =>
    some (works (if expired = true then {s with queuedExpired := s.queuedExpired + 1}
      else {s with queuedCancelled := s.queuedCancelled + 1}) w (.dropping job))
  | .dropping job =>
    some (works {s with available := s.available + 1,log := .dropped job :: s.log} w .waiting)
  | .expiring job =>
    some (works {s with current := fetchSub s.current} w (.recordingExpired job))
  | .recordingExpired job =>
    some (works {s with queuedExpired := s.queuedExpired + 1} w (.declining job))
  | .declining job => some (works {s with log := .declined job :: s.log} w (.releasing job))
  | .sampling job => some (works {s with queueSamples := s.queueSamples + 1} w (.classifying job))
  | .responding job result =>
    some (works {s with log := .responded job result :: s.log} w (.finishing job))
  | .finishing job => some (works {s with current := fetchSub s.current} w (.releasing job))
  | .releasing _ => some (works {s with available := s.available + 1} w .waiting)
  | .classifying _ | .returned => none

def advance (bound : Bound) (s : State κ ω σ) : Action κ ω σ → Option (State κ ω σ)
  | .enqueue c input deadline =>
    if s.sender = true ∧ (s.caller c).Ready = true then
      if 0 < s.available then
        some (asks {s with available := s.available - 1} c (.counting input deadline))
      else some (asks s c .rejected)
    else none
  | .call c => callStep bound s c
  | .work w => workStep s w
  | .forwarded w result =>
    match s.worker w with
    | .classifying job =>
      some (works {s with log := .classified job result :: s.log} w (.responding job result))
    | _ => none
  | .cancel id =>
    if id < s.admitted.length then some {s with closed := id :: s.closed} else none
  | .tick elapsed => some {s with clock := s.clock + elapsed}
  | .shutdown =>
    if ∀ c, (s.caller c).Ready = true then some {s with sender := false} else none

def Step (bound : Bound) (s : State κ ω σ) (action : Action κ ω σ) (next : State κ ω σ) : Prop :=
  advance bound s action = some next

-- Everything a step can do, branch by branch.
inductive Change (bound : Bound) (s : State κ ω σ) : Action κ ω σ → State κ ω σ → Prop where
  | permitted {c : κ} {input : ClassificationInput} {deadline : Option Nat} :
      s.sender = true → (s.caller c).Ready = true → 0 < s.available →
      Change bound s (.enqueue c input deadline)
        (asks {s with available := s.available - 1} c (.counting input deadline))
  | refused {c : κ} {input : ClassificationInput} {deadline : Option Nat} :
      s.sender = true → (s.caller c).Ready = true → s.available = 0 →
      Change bound s (.enqueue c input deadline) (asks s c .rejected)
  | counted {c : κ} {input : ClassificationInput} {deadline : Option Nat} :
      s.caller c = .counting input deadline →
      Change bound s (.call c) (asks {s with current := fetchAdd s.current} c
        (.raising (fetchAdd s.current) input deadline))
  | raised {c : κ} {n : Nat} {input : ClassificationInput} {deadline : Option Nat} :
      s.caller c = .raising n input deadline →
      Change bound s (.call c)
        (asks {s with maximum := max s.maximum n} c (.stamping input deadline))
  | stamped {c : κ} {input : ClassificationInput} {deadline : Option Nat} :
      s.caller c = .stamping input deadline →
      Change bound s (.call c) (asks s c (.sending input s.clock deadline))
  | sent {c : κ} {input : ClassificationInput} {queuedAt : Nat} {deadline : Option Nat}
      {job : InferenceJob} :
      s.caller c = .sending input queuedAt deadline →
      job = ⟨s.admitted.length,input,queuedAt,deadline⟩ →
      s.channel.length < bound.bound → (∃ w, (s.worker w).Alive = true) →
      Change bound s (.call c) (asks {s with
        channel := s.channel ++ [job]
        admitted := s.admitted ++ [job]} c (.accepted s.admitted.length))
  | bounced {c : κ} {input : ClassificationInput} {queuedAt : Nat} {deadline : Option Nat} :
      s.caller c = .sending input queuedAt deadline →
      ¬ (s.channel.length < bound.bound ∧ ∃ w, (s.worker w).Alive = true) →
      Change bound s (.call c) (asks {s with available := s.available + 1} c .retracting)
  | retracted {c : κ} : s.caller c = .retracting →
      Change bound s (.call c) (asks {s with current := fetchSub s.current} c .rejected)
  | locked {w : ω} : s.worker w = .waiting → s.receiver = none →
      Change bound s (.work w) (works {s with receiver := some w} w .receiving)
  | received {w : ω} {job : InferenceJob} {rest : List InferenceJob} :
      s.worker w = .receiving → s.channel = job :: rest →
      Change bound s (.work w)
        (works {s with channel := rest,dequeued := s.dequeued ++ [job]} w (.received (some job)))
  | disconnected {w : ω} : s.worker w = .receiving → s.channel = [] → s.sender = false →
      Change bound s (.work w) (works s w (.received none))
  | unlocked {w : ω} {job : InferenceJob} : s.worker w = .received (some job) →
      Change bound s (.work w) (works {s with receiver := none} w (.reading job))
  | ended {w : ω} : s.worker w = .received none →
      Change bound s (.work w) (works {s with receiver := none} w .returned)
  | read {w : ω} {job : InferenceJob} : s.worker w = .reading job →
      Change bound s (.work w)
        (works s w (.checking job (job.deadline.any fun deadline => deadline ≤ s.clock)))
  | foundClosed {w : ω} {job : InferenceJob} {expired : Bool} :
      s.worker w = .checking job expired → job.id ∈ s.closed →
      Change bound s (.work w) (works s w (.abandoning job expired))
  | foundExpired {w : ω} {job : InferenceJob} :
      s.worker w = .checking job true → job.id ∉ s.closed →
      Change bound s (.work w) (works s w (.expiring job))
  | foundOpen {w : ω} {job : InferenceJob} :
      s.worker w = .checking job false → job.id ∉ s.closed →
      Change bound s (.work w) (works s w (.sampling job))
  | abandoned {w : ω} {job : InferenceJob} {expired : Bool} :
      s.worker w = .abandoning job expired →
      Change bound s (.work w)
        (works {s with current := fetchSub s.current} w (.recording job expired))
  | recordedExpired {w : ω} {job : InferenceJob} : s.worker w = .recording job true →
      Change bound s (.work w)
        (works {s with queuedExpired := s.queuedExpired + 1} w (.dropping job))
  | recordedCancelled {w : ω} {job : InferenceJob} : s.worker w = .recording job false →
      Change bound s (.work w)
        (works {s with queuedCancelled := s.queuedCancelled + 1} w (.dropping job))
  | dropped {w : ω} {job : InferenceJob} : s.worker w = .dropping job →
      Change bound s (.work w)
        (works {s with available := s.available + 1,log := .dropped job :: s.log} w .waiting)
  | expired {w : ω} {job : InferenceJob} : s.worker w = .expiring job →
      Change bound s (.work w)
        (works {s with current := fetchSub s.current} w (.recordingExpired job))
  | recorded {w : ω} {job : InferenceJob} : s.worker w = .recordingExpired job →
      Change bound s (.work w)
        (works {s with queuedExpired := s.queuedExpired + 1} w (.declining job))
  | declined {w : ω} {job : InferenceJob} : s.worker w = .declining job →
      Change bound s (.work w) (works {s with log := .declined job :: s.log} w (.releasing job))
  | sampled {w : ω} {job : InferenceJob} : s.worker w = .sampling job →
      Change bound s (.work w)
        (works {s with queueSamples := s.queueSamples + 1} w (.classifying job))
  | classified {w : ω} {job : InferenceJob} {result : Outcome σ} : s.worker w = .classifying job →
      Change bound s (.forwarded w result)
        (works {s with log := .classified job result :: s.log} w (.responding job result))
  | responded {w : ω} {job : InferenceJob} {result : Outcome σ} :
      s.worker w = .responding job result →
      Change bound s (.work w)
        (works {s with log := .responded job result :: s.log} w (.finishing job))
  | finished {w : ω} {job : InferenceJob} : s.worker w = .finishing job →
      Change bound s (.work w) (works {s with current := fetchSub s.current} w (.releasing job))
  | released {w : ω} {job : InferenceJob} : s.worker w = .releasing job →
      Change bound s (.work w) (works {s with available := s.available + 1} w .waiting)
  | cancelled {id : Nat} : id < s.admitted.length →
      Change bound s (.cancel id) {s with closed := id :: s.closed}
  | ticked {elapsed : Nat} :
      Change bound s (.tick elapsed) {s with clock := s.clock + elapsed}
  | shut : (∀ c, (s.caller c).Ready = true) →
      Change bound s .shutdown {s with sender := false}

omit [Fintype κ] in
theorem callStep_change {bound : Bound} {s next : State κ ω σ} {c : κ}
    (step : callStep bound s c = some next) : Change bound s (.call c) next := by
  unfold callStep at step
  cases place : s.caller c with
  | idle | accepted | rejected => simp [place] at step
  | counting input deadline =>
      simp only [place] at step
      cases Option.some.inj step
      exact .counted place
  | raising n input deadline =>
      simp only [place] at step
      cases Option.some.inj step
      exact .raised place
  | stamping input deadline =>
      simp only [place] at step
      cases Option.some.inj step
      exact .stamped place
  | sending input queuedAt deadline =>
      simp only [place,trySend] at step
      by_cases room : s.channel.length < bound.bound ∧ ∃ w, (s.worker w).Alive = true
      · simp only [room,and_self,if_true] at step
        cases Option.some.inj step
        exact .sent place rfl room.1 room.2
      · simp only [room,if_false] at step
        cases Option.some.inj step
        exact .bounced place room
  | retracting =>
      simp only [place] at step
      cases Option.some.inj step
      exact .retracted place

omit [Fintype κ] [Fintype ω] in
theorem workStep_change {bound : Bound} {s next : State κ ω σ} {w : ω}
    (step : workStep s w = some next) : Change bound s (.work w) next := by
  unfold workStep at step
  cases place : s.worker w with
  | classifying | returned => simp [place] at step
  | waiting =>
      simp only [place] at step
      cases owner : s.receiver with
      | some u => simp [owner] at step
      | none =>
          simp only [owner] at step
          cases Option.some.inj step
          exact .locked place owner
  | receiving =>
      simp only [place] at step
      cases queue : s.channel with
      | cons job rest =>
          simp only [queue] at step
          cases Option.some.inj step
          exact .received place queue
      | nil =>
          simp only [queue] at step
          cases open_ : s.sender with
          | true => simp [open_] at step
          | false =>
              simp only [open_,Bool.false_eq_true,if_false] at step
              cases Option.some.inj step
              exact .disconnected place queue open_
  | received job =>
      cases job <;> simp only [place] at step
      · cases Option.some.inj step
        exact .ended place
      · cases Option.some.inj step
        exact .unlocked place
  | checking job expired =>
      simp only [place] at step
      by_cases gone : job.id ∈ s.closed
      · simp only [gone,if_true] at step
        cases Option.some.inj step
        exact .foundClosed place gone
      · simp only [gone,if_false] at step
        cases Option.some.inj step
        cases expired
        · exact .foundOpen place gone
        · exact .foundExpired place gone
  | recording job expired =>
      simp only [place] at step
      cases Option.some.inj step
      cases expired
      · exact .recordedCancelled place
      · exact .recordedExpired place
  | reading job =>
      simp only [place] at step
      cases Option.some.inj step
      exact .read place
  | abandoning job expired =>
      simp only [place] at step
      cases Option.some.inj step
      exact .abandoned place
  | dropping job =>
      simp only [place] at step
      cases Option.some.inj step
      exact .dropped place
  | expiring job =>
      simp only [place] at step
      cases Option.some.inj step
      exact .expired place
  | recordingExpired job =>
      simp only [place] at step
      cases Option.some.inj step
      exact .recorded place
  | declining job =>
      simp only [place] at step
      cases Option.some.inj step
      exact .declined place
  | sampling job =>
      simp only [place] at step
      cases Option.some.inj step
      exact .sampled place
  | responding job result =>
      simp only [place] at step
      cases Option.some.inj step
      exact .responded place
  | finishing job =>
      simp only [place] at step
      cases Option.some.inj step
      exact .finished place
  | releasing job =>
      simp only [place] at step
      cases Option.some.inj step
      exact .released place

theorem step_change {bound : Bound} {s next : State κ ω σ} (step : Step bound s action next) :
    Change bound s action next := by
  unfold Step advance at step
  cases action with
  | call c => exact callStep_change step
  | work w => exact workStep_change step
  | enqueue c input deadline =>
      dsimp only at step
      by_cases ready : s.sender = true ∧ (s.caller c).Ready = true
      · rw [if_pos ready] at step
        cases Nat.eq_zero_or_pos s.available with
        | inl full =>
            rw [if_neg (Nat.not_lt.mpr (Nat.le_of_eq full))] at step
            cases Option.some.inj step
            exact .refused ready.1 ready.2 full
        | inr free =>
            rw [if_pos free] at step
            cases Option.some.inj step
            exact .permitted ready.1 ready.2 free
      · simp only [ready,if_false] at step
        cases step
  | forwarded w result =>
      cases place : s.worker w <;> simp only [place,reduceCtorEq] at step
      cases Option.some.inj step
      exact .classified place
  | cancel id =>
      by_cases admitted : id < s.admitted.length
      · simp only [admitted,if_true] at step
        cases Option.some.inj step
        exact .cancelled admitted
      · simp only [admitted,if_false] at step
        cases step
  | tick elapsed =>
      cases Option.some.inj step
      exact .ticked
  | shutdown =>
      by_cases quiet : ∀ c, (s.caller c).Ready = true
      · simp only [quiet,implies_true,if_true] at step
        cases Option.some.inj step
        exact .shut quiet
      · simp only [quiet,if_false] at step
        cases step

end Machine

end SemanticClassifier.Handoff
