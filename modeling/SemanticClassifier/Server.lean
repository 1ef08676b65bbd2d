import SemanticClassifier.GrpcTimeout
import SemanticClassifier.HandoffChecks
import SemanticClassifier.ServiceProvenance
import SemanticClassifier.Telemetry

namespace SemanticClassifier.Server
open Classify Interleaving

structure ClassifyRequest where
  requestId : String
  sessionId : String
  context : String
  signals : List String
  contextCompleteness : Int

-- The wire's `RankedSignal`; its scores are f32.
structure WireSignal (φ : Type) where
  label : String
  score : φ
  deriving DecidableEq

structure ClassifyResponse (φ : Type) where
  requestId : String
  classifierId : String
  modelRevision : String
  tokenizerRevision : String
  taxonomyRevision : String
  status : Int
  ranked : List (WireSignal φ)
  deriving DecidableEq

inductive Code where
  | invalidArgument | resourceExhausted | deadlineExceeded | unavailable
  deriving DecidableEq

structure Status where
  code : Code
  message : String
  deriving DecidableEq

abbrev Reply (φ : Type) := Except Status (ClassifyResponse φ)

-- Instants and durations count nanoseconds; an `Instant` has 63 bits of seconds.
def checkedAdd (now timeout : Nat) : Option Nat :=
  if (now + timeout) / 1000000000 < 2 ^ 63 then some (now + timeout) else none

-- `timeout` is the header where it reads as text.
def requestDeadline (extension : Option Nat) (timeout : Option String) (now : Nat) : Option Nat :=
  match extension with
  | some deadline => some deadline
  | none => (timeout.bind Grpc.parseGrpcTimeout).bind (checkedAdd now)

def completeness : Int → ContextCompleteness
  | 1 => .full
  | 2 => .delta
  | _ => .unspecified

def inputOf (req : ClassifyRequest) : ClassificationInput where
  text := req.context
  requestedSignals := req.signals
  sessionMetadata := Finmap.singleton "session_id" req.sessionId
  contextCompleteness := completeness req.contextCompleteness

def display : ClassifyError → String
  | .notReady => "classifier not ready"
  | .resourceExhausted => "resource exhausted"
  | .requestExpired => "request expired"
  | .tokenizer e => "tokenizer error: " ++ e
  | .embedding e => "embedding error: " ++ e
  | .unavailable m => "classifier unavailable: " ++ m

def queueFull : Status := ⟨.resourceExhausted,"inference queue is full"⟩

def stopped : Status := ⟨.unavailable,"inference executor stopped"⟩

def unsupported (signal supported : String) : Status :=
  ⟨.invalidArgument,"unsupported signal '" ++ signal ++ "'; this instance serves '" ++ supported ++ "'"⟩

def errorStatus : ClassifyError → Status
  | .resourceExhausted => queueFull
  | .requestExpired => ⟨.deadlineExceeded,"request deadline expired"⟩
  | e => ⟨.unavailable,display e⟩

def wireStatus : ClassifyStatus → Int
  | .ok => 1
  | .abstain => 2
  | .error => 3

def response (narrow : σ → φ) (req : ClassifyRequest) (result : ClassificationResult σ) : ClassifyResponse φ where
  requestId := req.requestId
  classifierId := result.classifierId
  modelRevision := result.modelRevision
  tokenizerRevision := result.tokenizerRevision
  taxonomyRevision := result.taxonomyRevision
  status := wireStatus result.status
  ranked := result.ranked.map fun s => ⟨s.id,narrow s.score⟩

-- `narrow` rounds an f64 to an f32.
structure ClassifyServiceImpl (φ σ : Type) where
  core : Service.ServiceCore
  bound : Handoff.Bound
  narrow : σ → φ

-- A task inside `classify`, between two operations that others can see.
inductive Handler (φ : Type) where
  | idle
  | received (request : ClassifyRequest) (deadline : Option Nat)
  | checked (request : ClassifyRequest) (deadline : Option Nat)
  | admitting (request : ClassifyRequest)
  | awaiting (request : ClassifyRequest) (id : Nat)
  | replied (request : ClassifyRequest) (reply : Reply φ)

def Handler.Settled : Handler φ → Bool
  | .idle | .replied .. => true
  | _ => false

-- The executor's threads are the threads of the core.
structure State (κ ω φ σ : Type) where
  executor : Handoff.State κ ω σ
  core : Service.State ω φ σ
  handler : κ → Handler φ
  telemetry : Telemetry
  totalSamples : Nat

inductive Action (κ ω φ σ : Type) where
  | arrive (task : κ) (request : ClassifyRequest) (extension : Option Nat) (timeout : Option String)
  | handle (task : κ)
  | disconnect (task : κ)
  | work (worker : ω)
  | core (action : Service.Action ω φ σ)
  | deliver (worker : ω)
  | tick (elapsed : Nat)
  | shutdown

def told (id : Nat) : Handoff.Event σ → Option (Outcome σ)
  | .responded job result => if job.id = id then some result else none
  | .declined job => if job.id = id then some (.error .requestExpired) else none
  | _ => none

-- What the oneshot of a job holds, and whether its sender is gone without a word.
def sent (log : List (Handoff.Event σ)) (id : Nat) : Option (Outcome σ) := log.findSome? (told id)

def lost (log : List (Handoff.Event σ)) (id : Nat) : Bool :=
  log.any fun
    | .dropped job => job.id = id
    | _ => false

section Machine
variable {κ ω φ σ : Type} [DecidableEq κ] [DecidableEq ω] [Fintype κ] [Fintype ω]
variable (server : ClassifyServiceImpl φ σ)

def start (κ ω φ σ : Type) (bound : Handoff.Bound) (capacity traces : Nat) : State κ ω φ σ where
  executor := Handoff.start κ ω σ bound
  core := Service.start ω φ σ capacity
  handler := fun _ => .idle
  telemetry := Telemetry.withCapacity traces
  totalSamples := 0

def stands (s : State κ ω φ σ) (c : κ) (place : Handler φ) : State κ ω φ σ :=
  {s with handler := Function.update s.handler c place}

-- One step of the executor below, and where the task stands after it.
def through (s : State κ ω φ σ) (action : Handoff.Action κ ω σ) (c : κ) (place : Handler φ) :
    Option (State κ ω φ σ) :=
  (Handoff.advance server.bound s.executor action).map fun executor =>
    stands {s with executor := executor} c place

def supported : String := server.core.metadata.signal

def unserved (request : ClassifyRequest) : Option String :=
  request.signals.find? fun signal => signal ≠ supported server

def handle (s : State κ ω φ σ) (c : κ) : Option (State κ ω φ σ) :=
  match s.handler c with
  | .received request deadline =>
    (Telemetry.recordRequest server.core.blake3 s.telemetry
      ⟨request.requestId,request.sessionId,request.context⟩).map fun telemetry =>
        stands {s with telemetry := telemetry} c (match unserved server request with
          | some signal => .replied request (.error (unsupported signal (supported server)))
          | none => .checked request deadline)
  | .checked request deadline => through server s (.enqueue c (inputOf request) deadline) c (.admitting request)
  | .admitting request =>
    match s.executor.caller c with
    | .accepted id => some (stands s c (.awaiting request id))
    | .rejected => some (stands s c (.replied request (.error queueFull)))
    | _ => through server s (.call c) c (.admitting request)
  | .awaiting request id =>
    match sent s.executor.log id with
    | some (.ok result) => some (stands {s with totalSamples := s.totalSamples + 1} c
        (.replied request (.ok (response server.narrow request result))))
    | some (.error e) => some (stands s c (.replied request (.error (errorStatus e))))
    | none => if lost s.executor.log id then some (stands s c (.replied request (.error stopped))) else none
  | .idle | .replied .. => none

def begins : Service.Action ω φ σ → Bool
  | .classify .. => true
  | _ => false

-- A worker enters the core in the step that records its queue wait.
def work (s : State κ ω φ σ) (w : ω) : Option (State κ ω φ σ) :=
  match s.executor.worker w with
  | .sampling job =>
    (Handoff.advance server.bound s.executor (.work w)).bind fun executor =>
      (Service.advance server.core s.core (.classify w job.input)).map fun core =>
        {s with executor := executor,core := core}
  | _ => (Handoff.advance server.bound s.executor (.work w)).map fun executor => {s with executor := executor}

def deliver (s : State κ ω φ σ) (w : ω) : Option (State κ ω φ σ) :=
  match s.executor.worker w,s.core.stage w with
  | .classifying _,.answered _ outcome =>
    (Handoff.advance server.bound s.executor (.forwarded w outcome)).map fun executor =>
      {s with executor := executor}
  | _,_ => none

def advance (s : State κ ω φ σ) : Action κ ω φ σ → Option (State κ ω φ σ)
  | .arrive c request extension timeout =>
    if (s.handler c).Settled then
      some (stands s c (.received request (requestDeadline extension timeout s.executor.clock)))
    else none
  | .handle c => handle server s c
  | .disconnect c =>
    match s.handler c with
    | .awaiting _ id => through server s (.cancel id) c .idle
    | _ => none
  | .work w => work server s w
  | .core action =>
    if begins action then none
    else (Service.advance server.core s.core action).map fun core => {s with core := core}
  | .deliver w => deliver server s w
  | .tick elapsed =>
    (Handoff.advance server.bound s.executor (.tick elapsed)).map fun executor => {s with executor := executor}
  | .shutdown =>
    if ∀ c, (s.handler c).Settled = true then
      (Handoff.advance server.bound s.executor .shutdown).map fun executor => {s with executor := executor}
    else none

def Step (s : State κ ω φ σ) (action : Action κ ω φ σ) (next : State κ ω φ σ) : Prop :=
  advance server s action = some next

-- Everything a step can do, branch by branch.
inductive Change (s : State κ ω φ σ) : Action κ ω φ σ → State κ ω φ σ → Prop where
  | arrived {c : κ} {request : ClassifyRequest} {extension : Option Nat} {timeout : Option String} :
      (s.handler c).Settled = true →
      Change s (.arrive c request extension timeout)
        (stands s c (.received request (requestDeadline extension timeout s.executor.clock)))
  | unserved {c : κ} {request : ClassifyRequest} {deadline : Option Nat} {signal : String}
      {telemetry : Telemetry} :
      s.handler c = .received request deadline → unserved server request = some signal →
      Change s (.handle c) (stands {s with telemetry := telemetry} c
        (.replied request (.error (unsupported signal (supported server)))))
  | served {c : κ} {request : ClassifyRequest} {deadline : Option Nat} {telemetry : Telemetry} :
      s.handler c = .received request deadline → Server.unserved server request = none →
      Change s (.handle c) (stands {s with telemetry := telemetry} c (.checked request deadline))
  | enqueued {c : κ} {request : ClassifyRequest} {deadline : Option Nat} {executor : Handoff.State κ ω σ} :
      s.handler c = .checked request deadline →
      Handoff.Step server.bound s.executor (.enqueue c (inputOf request) deadline) executor →
      Change s (.handle c) (stands {s with executor := executor} c (.admitting request))
  | called {c : κ} {request : ClassifyRequest} {executor : Handoff.State κ ω σ} :
      s.handler c = .admitting request → Handoff.Step server.bound s.executor (.call c) executor →
      Change s (.handle c) (stands {s with executor := executor} c (.admitting request))
  | accepted {c : κ} {request : ClassifyRequest} {id : Nat} :
      s.handler c = .admitting request → s.executor.caller c = .accepted id →
      Change s (.handle c) (stands s c (.awaiting request id))
  | rejected {c : κ} {request : ClassifyRequest} :
      s.handler c = .admitting request → s.executor.caller c = .rejected →
      Change s (.handle c) (stands s c (.replied request (.error queueFull)))
  | answered {c : κ} {request : ClassifyRequest} {id : Nat} {result : ClassificationResult σ} :
      s.handler c = .awaiting request id → sent s.executor.log id = some (.ok result) →
      Change s (.handle c) (stands {s with totalSamples := s.totalSamples + 1} c
        (.replied request (.ok (response server.narrow request result))))
  | failed {c : κ} {request : ClassifyRequest} {id : Nat} {e : ClassifyError} :
      s.handler c = .awaiting request id → sent s.executor.log id = some (.error e) →
      Change s (.handle c) (stands s c (.replied request (.error (errorStatus e))))
  | abandoned {c : κ} {request : ClassifyRequest} {id : Nat} :
      s.handler c = .awaiting request id → sent s.executor.log id = none → lost s.executor.log id = true →
      Change s (.handle c) (stands s c (.replied request (.error stopped)))
  | disconnected {c : κ} {request : ClassifyRequest} {id : Nat} {executor : Handoff.State κ ω σ} :
      s.handler c = .awaiting request id → Handoff.Step server.bound s.executor (.cancel id) executor →
      Change s (.disconnect c) (stands {s with executor := executor} c .idle)
  | began {w : ω} {job : Handoff.InferenceJob} {executor : Handoff.State κ ω σ} {core : Service.State ω φ σ} :
      s.executor.worker w = .sampling job → Handoff.Step server.bound s.executor (.work w) executor →
      Service.Step server.core s.core (.classify w job.input) core →
      Change s (.work w) {s with executor := executor,core := core}
  | worked {w : ω} {executor : Handoff.State κ ω σ} :
      (∀ job, s.executor.worker w ≠ .sampling job) →
      Handoff.Step server.bound s.executor (.work w) executor →
      Change s (.work w) {s with executor := executor}
  | ran {action : Service.Action ω φ σ} {core : Service.State ω φ σ} :
      begins action = false → Service.Step server.core s.core action core →
      Change s (.core action) {s with core := core}
  | delivered {w : ω} {job : Handoff.InferenceJob} {input : ClassificationInput} {outcome : Outcome σ}
      {executor : Handoff.State κ ω σ} :
      s.executor.worker w = .classifying job → s.core.stage w = .answered input outcome →
      Handoff.Step server.bound s.executor (.forwarded w outcome) executor →
      Change s (.deliver w) {s with executor := executor}
  | ticked {elapsed : Nat} {executor : Handoff.State κ ω σ} :
      Handoff.Step server.bound s.executor (.tick elapsed) executor →
      Change s (.tick elapsed) {s with executor := executor}
  | shut {executor : Handoff.State κ ω σ} :
      (∀ c, (s.handler c).Settled = true) → Handoff.Step server.bound s.executor .shutdown executor →
      Change s .shutdown {s with executor := executor}

theorem through_parts {s next : State κ ω φ σ} {action : Handoff.Action κ ω σ} {c : κ} {place : Handler φ}
    (taken : through server s action c place = some next) :
    ∃ executor, Handoff.Step server.bound s.executor action executor ∧
      stands {s with executor := executor} c place = next :=
  Option.map_eq_some_iff.mp taken

theorem handle_change {s next : State κ ω φ σ} {c : κ} (taken : handle server s c = some next) :
    Change server s (.handle c) next := by
  unfold handle at taken
  cases place : s.handler c <;> simp only [place,reduceCtorEq] at taken
  case received request deadline =>
      obtain ⟨telemetry,_,rfl⟩ := Option.map_eq_some_iff.mp taken
      cases found : unserved server request with
      | some signal => exact .unserved place found
      | none => exact .served place found
  case checked request deadline =>
      obtain ⟨executor,step,rfl⟩ := through_parts server taken
      exact .enqueued place step
  case admitting request =>
      cases inside : s.executor.caller c <;> simp only [inside] at taken
      case accepted id =>
          cases Option.some.inj taken
          exact .accepted place inside
      case rejected =>
          cases Option.some.inj taken
          exact .rejected place inside
      all_goals
        obtain ⟨executor,step,rfl⟩ := through_parts server taken
        exact .called place step
  case awaiting request id =>
      cases holds : sent s.executor.log id with
      | none =>
          simp only [holds,Option.ite_none_right_eq_some,Option.some.injEq] at taken
          obtain ⟨gone,rfl⟩ := taken
          exact .abandoned place holds gone
      | some outcome =>
          cases outcome with
          | ok result =>
              simp only [holds,Option.some.injEq] at taken
              cases taken
              exact .answered place holds
          | error e =>
              simp only [holds,Option.some.injEq] at taken
              cases taken
              exact .failed place holds

theorem work_change {s next : State κ ω φ σ} {w : ω} (taken : work server s w = some next) :
    Change server s (.work w) next := by
  unfold work at taken
  split at taken
  · rename_i job place
    obtain ⟨executor,step,entered⟩ := Option.bind_eq_some_iff.mp taken
    obtain ⟨core,begun,rfl⟩ := Option.map_eq_some_iff.mp entered
    exact .began place step begun
  · rename_i elsewhere
    obtain ⟨executor,step,rfl⟩ := Option.map_eq_some_iff.mp taken
    exact .worked elsewhere step

theorem deliver_change {s next : State κ ω φ σ} {w : ω} (taken : deliver server s w = some next) :
    Change server s (.deliver w) next := by
  unfold deliver at taken
  split at taken
  · rename_i job input outcome place answer
    obtain ⟨executor,step,rfl⟩ := Option.map_eq_some_iff.mp taken
    exact .delivered place answer step
  · cases taken

theorem step_change {s next : State κ ω φ σ} (step : Step server s action next) :
    Change server s action next := by
  unfold Step advance at step
  cases action with
  | arrive c request extension timeout =>
      obtain ⟨settled,equal⟩ := Option.ite_none_right_eq_some.mp step
      cases Option.some.inj equal
      exact .arrived settled
  | handle c => exact handle_change server step
  | disconnect c =>
      cases place : s.handler c <;> simp only [place,reduceCtorEq] at step
      obtain ⟨executor,cancelled,rfl⟩ := through_parts server step
      exact .disconnected place cancelled
  | work w => exact work_change server step
  | core action =>
      obtain ⟨inside,run⟩ := Option.ite_none_left_eq_some.mp step
      obtain ⟨core,ran,rfl⟩ := Option.map_eq_some_iff.mp run
      exact .ran (Bool.eq_false_iff.mpr inside) ran
  | deliver w => exact deliver_change server step
  | tick elapsed =>
      obtain ⟨executor,ticked,rfl⟩ := Option.map_eq_some_iff.mp step
      exact .ticked ticked
  | shutdown =>
      obtain ⟨settled,ended⟩ := Option.ite_none_right_eq_some.mp step
      obtain ⟨executor,shut,rfl⟩ := Option.map_eq_some_iff.mp ended
      exact .shut settled shut

-- The step each part takes, if it takes one.
def executorAction (s : State κ ω φ σ) : Action κ ω φ σ → Option (Handoff.Action κ ω σ)
  | .handle c =>
    match s.handler c,s.executor.caller c with
    | .checked request deadline,_ => some (.enqueue c (inputOf request) deadline)
    | .admitting _,.accepted _ | .admitting _,.rejected => none
    | .admitting _,_ => some (.call c)
    | _,_ => none
  | .disconnect c =>
    match s.handler c with
    | .awaiting _ id => some (.cancel id)
    | _ => none
  | .work w => some (.work w)
  | .deliver w =>
    match s.core.stage w with
    | .answered _ outcome => some (.forwarded w outcome)
    | _ => none
  | .tick elapsed => some (.tick elapsed)
  | .shutdown => some .shutdown
  | .arrive .. | .core _ => none

def coreAction (s : State κ ω φ σ) : Action κ ω φ σ → Option (Service.Action ω φ σ)
  | .work w =>
    match s.executor.worker w with
    | .sampling job => some (.classify w job.input)
    | _ => none
  | .core action => some action
  | _ => none

def executorTrace (trace : List (State κ ω φ σ × Action κ ω φ σ)) :
    List (Handoff.State κ ω σ × Handoff.Action κ ω σ) := projected State.executor executorAction trace

def coreTrace (trace : List (State κ ω φ σ × Action κ ω φ σ)) :
    List (Service.State ω φ σ × Service.Action ω φ σ) := projected State.core coreAction trace

omit [DecidableEq κ] [DecidableEq ω] [Fintype κ] [Fintype ω] in
theorem coreTrace_append (early late : List (State κ ω φ σ × Action κ ω φ σ)) :
    coreTrace (early ++ late) = coreTrace early ++ coreTrace late := projected_append ..

theorem called_open {bound : Handoff.Bound} {s next : Handoff.State κ ω σ} {c : κ}
    (step : Handoff.Step bound s (.call c) next) :
    (∀ id, s.caller c ≠ .accepted id) ∧ s.caller c ≠ .rejected := by
  cases Handoff.step_change step <;> simp_all

theorem step_executor {s next : State κ ω φ σ} (step : Step server s action next) :
    Follows (Handoff.Step server.bound) s.executor (executorAction s action) next.executor := by
  cases step_change server step with
  | arrived _ | ran _ _ => rfl
  | unserved place _ | served place _ => simp [Follows,executorAction,place,stands]
  | enqueued place taken | disconnected place taken =>
      simp only [Follows,executorAction,place]
      exact taken
  | @called c request executor place taken =>
      obtain ⟨unaccepted,unrejected⟩ := called_open taken
      cases inside : s.executor.caller c <;> simp_all [Follows,executorAction,stands]
  | accepted place inside | rejected place inside => simp [Follows,executorAction,place,inside,stands]
  | answered place _ | failed place _ | abandoned place _ _ => simp [Follows,executorAction,place,stands]
  | began _ taken _ | worked _ taken | ticked taken | shut _ taken => exact taken
  | delivered _ answer taken =>
      simp only [Follows,executorAction,answer]
      exact taken

omit [DecidableEq κ] [DecidableEq ω] [Fintype κ] [Fintype ω] in
theorem coreAction_elsewhere {s : State κ ω φ σ} {w : ω}
    (elsewhere : ∀ job, s.executor.worker w ≠ .sampling job) : coreAction s (.work w) = none := by
  cases place : s.executor.worker w with
  | sampling job => exact absurd place (elsewhere job)
  | _ => simp only [coreAction,place]

theorem step_core {s next : State κ ω φ σ} (step : Step server s action next) :
    Follows (Service.Step server.core) s.core (coreAction s action) next.core := by
  cases step_change server step with
  | began place _ begun =>
      simp only [Follows,coreAction,place]
      exact begun
  | worked elsewhere _ => simp only [Follows,coreAction_elsewhere elsewhere]
  | ran _ taken => exact taken
  | _ => rfl

-- A run of the server is a run of its executor and a run of its core.
theorem path_executor {trace : List (State κ ω φ σ × Action κ ω φ σ)} {origin s : State κ ω φ σ}
    (path : Path (Step server) origin trace s) :
    Path (Handoff.Step server.bound) origin.executor (executorTrace trace) s.executor :=
  path.project fun _ _ _ step => step_executor server step

theorem path_core {trace : List (State κ ω φ σ × Action κ ω φ σ)} {origin s : State κ ω φ σ}
    (path : Path (Step server) origin trace s) :
    Path (Service.Step server.core) origin.core (coreTrace trace) s.core :=
  path.project fun _ _ _ step => step_core server step

end Machine

end SemanticClassifier.Server
