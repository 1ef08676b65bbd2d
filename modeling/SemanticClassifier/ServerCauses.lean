import SemanticClassifier.ServerReplies

namespace SemanticClassifier.Server
open Classify Interleaving Tally

variable {κ ω φ σ : Type} [DecidableEq κ] [DecidableEq ω] [Fintype κ] [Fintype ω]

section Causes
variable (server : ClassifyServiceImpl φ σ)

-- The core answered the call a worker made for this job.
def Delivered (trace : List (State κ ω φ σ × Action κ ω φ σ)) (job : Handoff.InferenceJob)
    (outcome : Outcome σ) : Prop :=
  ∃ before w, (before,.deliver w) ∈ trace ∧ before.executor.worker w = .classifying job ∧
    before.core.stage w = .answered job.input outcome

-- The job was past its deadline when its worker read the clock.
def ReadLate (trace : List (State κ ω φ σ × Action κ ω φ σ)) (job : Handoff.InferenceJob) : Prop :=
  ∃ before w, (before,.work w) ∈ trace ∧ before.executor.worker w = .reading job ∧
    ∃ deadline ∈ job.deadline, deadline ≤ before.executor.clock

def Action.task : Action κ ω φ σ → Option κ
  | .arrive c .. | .handle c | .disconnect c => some c
  | _ => none

-- A request that the task is given, with its deadline reckoned from the clock then.
def arrival (c : κ) (row : State κ ω φ σ × Action κ ω φ σ) : Option (ClassifyRequest × Option Nat) :=
  match row.2 with
  | .arrive d request extension timeout =>
    if d = c then some (request,requestDeadline extension timeout row.1.executor.clock) else none
  | _ => none

-- The last request that the task was given.
def Arrived (trace : List (State κ ω φ σ × Action κ ω φ σ)) (c : κ) (request : ClassifyRequest)
    (deadline : Option Nat) : Prop :=
  (trace.filterMap (arrival c)).getLast? = some (request,deadline)

-- The last step of the task was taken in `before`, at the end of `front`.
def Latest (trace : List (State κ ω φ σ × Action κ ω φ σ)) (c : κ)
    (front : List (State κ ω φ σ × Action κ ω φ σ)) (before : State κ ω φ σ) : Prop :=
  ∃ back, trace = front ++ (before,.handle c) :: back ∧ ∀ row ∈ back, row.2.task ≠ some c

-- The task last came to a queue that was at its bound.
def Refused (trace : List (State κ ω φ σ × Action κ ω φ σ)) (c : κ) (request : ClassifyRequest)
    (deadline : Option Nat) : Prop :=
  ∃ front before, Latest trace c front before ∧ before.handler c = .checked request deadline ∧
    Handoff.outstanding before.executor = server.bound.bound

-- The input is the request's own.
structure OwnInput (request : ClassifyRequest) (input : ClassificationInput) : Prop where
  text : input.text = request.context
  signals : input.requestedSignals = request.signals
  session : input.sessionMetadata = Finmap.singleton "session_id" request.sessionId
  context : request.contextCompleteness = 1 ∧ input.contextCompleteness = .full ∨
    request.contextCompleteness = 2 ∧ input.contextCompleteness = .delta ∨
    request.contextCompleteness ≠ 1 ∧ request.contextCompleteness ≠ 2 ∧ input.contextCompleteness = .unspecified

-- The result, field by field.
structure Mapped (narrow : σ → φ) (request : ClassifyRequest) (result : ClassificationResult σ)
    (wire : ClassifyResponse φ) : Prop where
  request : wire.requestId = request.requestId
  classifier : wire.classifierId = result.classifierId
  model : wire.modelRevision = result.modelRevision
  tokenizer : wire.tokenizerRevision = result.tokenizerRevision
  taxonomy : wire.taxonomyRevision = result.taxonomyRevision
  status : result.status = .ok ∧ wire.status = 1 ∨ result.status = .abstain ∧ wire.status = 2 ∨
    result.status = .error ∧ wire.status = 3
  ranked : wire.ranked = result.ranked.map fun signal => ⟨signal.id,narrow signal.score⟩

-- How an error of the core's is told.
inductive Reported : ClassifyError → Status → Prop where
  | exhausted : Reported .resourceExhausted ⟨.resourceExhausted,"inference queue is full"⟩
  | expired : Reported .requestExpired ⟨.deadlineExceeded,"request deadline expired"⟩
  | notReady : Reported .notReady ⟨.unavailable,"classifier not ready"⟩
  | tokenizer {e : String} : Reported (.tokenizer e) ⟨.unavailable,"tokenizer error: " ++ e⟩
  | embedding {e : String} : Reported (.embedding e) ⟨.unavailable,"embedding error: " ++ e⟩
  | unavailable {m : String} : Reported (.unavailable m) ⟨.unavailable,"classifier unavailable: " ++ m⟩

-- The job that a waiting task was given out for its request.
structure Awaited (trace : List (State κ ω φ σ × Action κ ω φ σ)) (s : State κ ω φ σ) (c : κ)
    (request : ClassifyRequest) (job : Handoff.InferenceJob) : Prop where
  served : ∀ signal ∈ request.signals, signal = server.core.metadata.signal
  arrived : Arrived trace c request job.deadline
  waiting : s.handler c = .awaiting request job.id
  admitted : s.executor.admitted[job.id]? = some job
  input : OwnInput request job.input

-- Why a task that replies in this state replies as it does.
inductive Caused (trace : List (State κ ω φ σ × Action κ ω φ σ)) (s : State κ ω φ σ) (c : κ)
    (request : ClassifyRequest) : Reply φ → Prop where
  | unserved {deadline : Option Nat} {early late : List String} {signal : String} :
      Arrived trace c request deadline → s.handler c = .received request deadline →
      request.signals = early ++ signal :: late → (∀ other ∈ early, other = server.core.metadata.signal) →
      signal ≠ server.core.metadata.signal →
      Caused trace s c request (.error ⟨.invalidArgument,"unsupported signal '" ++ signal ++
        "'; this instance serves '" ++ server.core.metadata.signal ++ "'"⟩)
  | full {deadline : Option Nat} : (∀ signal ∈ request.signals, signal = server.core.metadata.signal) →
      Arrived trace c request deadline → Refused server trace c request deadline →
      Caused trace s c request (.error ⟨.resourceExhausted,"inference queue is full"⟩)
  | expired {job : Handoff.InferenceJob} : Awaited server trace s c request job →
      .declined job ∈ s.executor.log → ReadLate trace job →
      Caused trace s c request (.error ⟨.deadlineExceeded,"request deadline expired"⟩)
  | failed {job : Handoff.InferenceJob} {e : ClassifyError} {status : Status} :
      Awaited server trace s c request job → Delivered trace job (.error e) → Reported e status →
      Caused trace s c request (.error status)
  | answered {job : Handoff.InferenceJob} {result : ClassificationResult σ} {wire : ClassifyResponse φ} :
      Awaited server trace s c request job → Delivered trace job (.ok result) →
      Mapped server.narrow request result wire → Caused trace s c request (.ok wire)

-- What a task has to show for its request.
def Handler.Due (trace : List (State κ ω φ σ × Action κ ω φ σ)) (s : State κ ω φ σ) (c : κ) :
    Handler φ → Prop
  | .idle => True
  | .received request deadline => Arrived trace c request deadline
  | .checked request deadline => unserved server request = none ∧ Arrived trace c request deadline
  | .admitting request => unserved server request = none ∧ ∃ deadline, Arrived trace c request deadline ∧
    ((s.executor.caller c).Carries s.executor.admitted (inputOf request) deadline ∨
      s.executor.caller c = .rejected ∧ Refused server trace c request deadline)
  | .awaiting request id => unserved server request = none ∧ ∃ job, Arrived trace c request job.deadline ∧
    s.executor.admitted[id]? = some job ∧ job.input = inputOf request
  | .replied request reply =>
    ∃ front before, Latest trace c front before ∧ Caused server front before c request reply

structure Kept (trace : List (State κ ω φ σ × Action κ ω φ σ)) (s : State κ ω φ σ) : Prop where
  due : ∀ c, (s.handler c).Due server trace s c
  left : ∀ id ∈ s.executor.closed, 0 < trace.countP (leaves (only id))
  delivered : ∀ job outcome, .classified job outcome ∈ s.executor.log → Delivered trace job outcome

end Causes

variable {server : ClassifyServiceImpl φ σ} {bound : Handoff.Bound} {capacity traces : Nat}

theorem ownInput_iff {request : ClassifyRequest} {input : ClassificationInput} :
    OwnInput request input ↔ input = inputOf request := by
  constructor
  · rintro ⟨text,signals,session,context⟩
    have complete : input.contextCompleteness = completeness request.contextCompleteness := by
      rcases context with ⟨wire,here⟩ | ⟨wire,here⟩ | ⟨full,delta,here⟩
      · rw [wire,here]
        rfl
      · rw [wire,here]
        rfl
      · rw [here,completeness]
        · exact full
        · exact delta
    cases input
    cases text
    cases signals
    cases session
    cases complete
    rfl
  · rintro rfl
    refine ⟨rfl,rfl,rfl,?_⟩
    by_cases full : request.contextCompleteness = 1
    · exact .inl ⟨full,by rw [inputOf,full]; rfl⟩
    · by_cases delta : request.contextCompleteness = 2
      · exact .inr (.inl ⟨delta,by rw [inputOf,delta]; rfl⟩)
      · refine .inr (.inr ⟨full,delta,?_⟩)
        rw [inputOf,completeness]
        · exact full
        · exact delta

theorem mapped_iff {narrow : σ → φ} {request : ClassifyRequest} {result : ClassificationResult σ}
    {wire : ClassifyResponse φ} : Mapped narrow request result wire ↔ wire = response narrow request result := by
  constructor
  · rintro ⟨own,classifier,model,tokenizer,taxonomy,status,ranked⟩
    have told : wire.status = wireStatus result.status := by
      rcases status with ⟨here,sent⟩ | ⟨here,sent⟩ | ⟨here,sent⟩ <;> rw [here,sent] <;> rfl
    cases wire
    cases own
    cases classifier
    cases model
    cases tokenizer
    cases taxonomy
    cases told
    cases ranked
    rfl
  · rintro rfl
    refine ⟨rfl,rfl,rfl,rfl,rfl,?_,rfl⟩
    cases here : result.status <;> simp [response,wireStatus,here]

theorem reported_iff {e : ClassifyError} {status : Status} : Reported e status ↔ status = errorStatus e := by
  constructor
  · rintro (_ | _ | _ | _ | _ | _) <;> rfl
  · rintro rfl
    cases e <;> constructor

theorem served_iff {request : ClassifyRequest} :
    (∀ signal ∈ request.signals, signal = server.core.metadata.signal) ↔ unserved server request = none := by
  constructor
  · exact fun served => List.find?_eq_none.mpr fun signal member other =>
      of_decide_eq_true other (served signal member)
  · intro none signal member
    by_contra other
    exact List.find?_eq_none.mp none signal member (decide_eq_true other)

omit [DecidableEq κ] [DecidableEq ω] [Fintype κ] [Fintype ω] in
theorem Delivered.append {trace : List (State κ ω φ σ × Action κ ω φ σ)} {outcome : Outcome σ}
    (delivered : Delivered trace job outcome) (more : List (State κ ω φ σ × Action κ ω φ σ)) :
    Delivered (trace ++ more) job outcome := by
  obtain ⟨before,w,member,place,answer⟩ := delivered
  exact ⟨before,w,List.mem_append_left _ member,place,answer⟩

omit [DecidableEq ω] [Fintype κ] [Fintype ω] in
theorem Arrived.grow {trace : List (State κ ω φ σ × Action κ ω φ σ)} {c : κ} {deadline : Option Nat}
    {row : State κ ω φ σ × Action κ ω φ σ} (arrived : Arrived trace c request deadline)
    (other : arrival c row = none) : Arrived (trace ++ [row]) c request deadline := by
  rw [Arrived,List.filterMap_append,List.filterMap_cons_none other,List.filterMap_nil,List.append_nil]
  exact arrived

omit [DecidableEq ω] [Fintype κ] [Fintype ω] in
theorem arrival_other {c : κ} {row : State κ ω φ σ × Action κ ω φ σ} (other : row.2.task ≠ some c) :
    arrival c row = none := by
  obtain ⟨s,action⟩ := row
  cases action with
  | arrive d request extension timeout =>
      have apart : d ≠ c := fun same => other (congrArg some same)
      simp [arrival,apart]
  | _ => rfl

omit [DecidableEq κ] [DecidableEq ω] [Fintype κ] [Fintype ω] in
theorem Latest.grow {trace front : List (State κ ω φ σ × Action κ ω φ σ)} {c : κ} {before : State κ ω φ σ}
    {row : State κ ω φ σ × Action κ ω φ σ} (latest : Latest trace c front before)
    (other : row.2.task ≠ some c) : Latest (trace ++ [row]) c front before := by
  obtain ⟨back,rfl,others⟩ := latest
  refine ⟨back ++ [row],by simp,?_⟩
  intro also member
  rcases List.mem_append.mp member with old | new
  · exact others also old
  · exact List.mem_singleton.mp new ▸ other

omit [DecidableEq κ] [DecidableEq ω] [Fintype κ] [Fintype ω] in
theorem latest_here (trace : List (State κ ω φ σ × Action κ ω φ σ)) (s : State κ ω φ σ) (c : κ) :
    Latest (trace ++ [(s,.handle c)]) c trace s := ⟨[],rfl,List.forall_mem_nil _⟩

omit [DecidableEq κ] [DecidableEq ω] in
theorem Refused.grow {trace : List (State κ ω φ σ × Action κ ω φ σ)} {c : κ} {deadline : Option Nat}
    {row : State κ ω φ σ × Action κ ω φ σ} (refused : Refused server trace c request deadline)
    (other : row.2.task ≠ some c) : Refused server (trace ++ [row]) c request deadline := by
  obtain ⟨front,before,latest,place,full⟩ := refused
  exact ⟨front,before,latest.grow other,place,full⟩

-- What the executor has recorded in `s` it still has in `next`.
structure Extends (s next : State κ ω φ σ) : Prop where
  admitted : s.executor.admitted <+: next.executor.admitted
  log : ∀ event ∈ s.executor.log, event ∈ next.executor.log

omit [DecidableEq κ] [DecidableEq ω] [Fintype κ] [Fintype ω] in
theorem Extends.found {s next : State κ ω φ σ} {i : Nat} (more : Extends s next)
    (found : s.executor.admitted[i]? = some job) : next.executor.admitted[i]? = some job := by
  obtain ⟨rest,same⟩ := more.admitted
  obtain ⟨inside,_⟩ := List.getElem?_eq_some_iff.mp found
  rw [← same,List.getElem?_append_left inside]
  exact found

theorem step_extends {s next : State κ ω φ σ} (step : Step server s action next) : Extends s next := by
  have taken := step_executor server step
  unfold Follows at taken
  split at taken
  · exact ⟨(Handoff.step_grows taken).1,(Handoff.step_grows taken).2⟩
  · exact ⟨taken ▸ List.prefix_rfl,fun event member => taken ▸ member⟩

omit [DecidableEq ω] in
-- The steps of the others leave a task what it has.
theorem Handler.Due.grow {trace : List (State κ ω φ σ × Action κ ω φ σ)} {s next : State κ ω φ σ} {c : κ}
    {place : Handler φ} {row : State κ ω φ σ × Action κ ω φ σ} (due : place.Due server trace s c)
    (more : Extends s next) (caller : next.executor.caller c = s.executor.caller c)
    (other : row.2.task ≠ some c) : place.Due server (trace ++ [row]) next c := by
  have apart := arrival_other other
  cases place with
  | idle => trivial
  | received request deadline => exact Arrived.grow due apart
  | checked request deadline => exact ⟨due.1,due.2.grow apart⟩
  | admitting request =>
      obtain ⟨screened,deadline,arrived,carries | ⟨rejected,refused⟩⟩ := due
      · refine ⟨screened,deadline,arrived.grow apart,.inl ?_⟩
        rw [caller]
        cases inside : s.executor.caller c with
        | accepted id =>
            rw [inside] at carries
            obtain ⟨job,found,named⟩ := carries
            exact ⟨job,more.found found,named⟩
        | _ =>
            rw [inside] at carries
            exact carries
      · exact ⟨screened,deadline,arrived.grow apart,.inr ⟨caller.trans rejected,refused.grow other⟩⟩
  | awaiting request id =>
      obtain ⟨screened,job,arrived,found,named⟩ := due
      exact ⟨screened,job,arrived.grow apart,more.found found,named⟩
  | replied request reply =>
      obtain ⟨front,before,latest,caused⟩ := due
      exact ⟨front,before,latest.grow other,caused⟩

omit [DecidableEq ω] in
theorem due_moved {trace : List (State κ ω φ σ × Action κ ω φ σ)} {s next : State κ ω φ σ} {c : κ}
    {place : Handler φ} {action : Action κ ω φ σ} (due : ∀ d, (s.handler d).Due server trace s d)
    (more : Extends s next) (mine : action.task = some c)
    (handler : next.handler = Function.update s.handler c place)
    (callers : ∀ d, d ≠ c → next.executor.caller d = s.executor.caller d)
    (here : place.Due server (trace ++ [(s,action)]) next c) :
    ∀ d, (next.handler d).Due server (trace ++ [(s,action)]) next d := by
  rw [handler]
  refine (Function.forall_update_iff s.handler
    (p := fun d place => place.Due server (trace ++ [(s,action)]) next d)).mpr ⟨here,fun d other => ?_⟩
  refine (due d).grow more (callers d other) fun same => other ?_
  exact Option.some.inj (same.symm.trans mine)

omit [DecidableEq ω] in
theorem due_stays {trace : List (State κ ω φ σ × Action κ ω φ σ)} {s next : State κ ω φ σ}
    {action : Action κ ω φ σ} (due : ∀ d, (s.handler d).Due server trace s d) (more : Extends s next)
    (nobody : action.task = none) (handler : next.handler = s.handler)
    (callers : next.executor.caller = s.executor.caller) :
    ∀ d, (next.handler d).Due server (trace ++ [(s,action)]) next d := by
  intro d
  rw [handler]
  exact (due d).grow more (congrFun callers d) (by simp [nobody])

-- What the oneshot holds was put there by a worker.
theorem sent_logged {log : List (Handoff.Event σ)} {id : Nat} {outcome : Outcome σ}
    (holds : sent log id = some outcome) : ∃ job : Handoff.InferenceJob, job.id = id ∧
      (.responded job outcome ∈ log ∨ .declined job ∈ log ∧ outcome = .error .requestExpired) := by
  obtain ⟨event,member,tells⟩ := List.exists_of_findSome?_eq_some holds
  cases event with
  | responded job result =>
      simp only [told,Option.ite_none_right_eq_some,Option.some.injEq] at tells
      obtain ⟨named,rfl⟩ := tells
      exact ⟨job,named,.inl member⟩
  | declined job =>
      simp only [told,Option.ite_none_right_eq_some,Option.some.injEq] at tells
      obtain ⟨named,rfl⟩ := tells
      exact ⟨job,named,.inr ⟨member,rfl⟩⟩
  | _ => cases tells

-- The job a task waits for is the one that answers it.
theorem awaited_job {s : State κ ω φ σ} (reached : Handoff.Run bound s.executor) {id : Nat}
    {event : Handoff.Event σ} (found : s.executor.admitted[id]? = some job)
    (member : event ∈ s.executor.log) (named : event.job.id = id) : event.job = job := by
  have dequeued := (Handoff.reached_known reached).events event member
  have same := (Handoff.reached_ordered reached).found dequeued
  rw [named,found] at same
  exact (Option.some.inj same).symm

-- A row in which a worker went on is one of the executor's own.
omit [DecidableEq κ] [DecidableEq ω] [Fintype κ] [Fintype ω] in
theorem readLate_surfaces {trace : List (State κ ω φ σ × Action κ ω φ σ)} {w : ω}
    (late : Handoff.ReadLate (executorTrace trace) w job) : ReadLate trace job := by
  obtain ⟨executor,member,place,deadline,due,past⟩ := late
  obtain ⟨before,action,member,does,rfl⟩ := mem_projected.mp member
  cases action with
  | work u =>
      cases does
      exact ⟨before,w,member,place,deadline,due,past⟩
  | handle c =>
      simp only [executorAction] at does
      split at does <;> cases does
  | disconnect c =>
      simp only [executorAction] at does
      split at does <;> cases does
  | deliver u =>
      simp only [executorAction] at does
      split at does <;> cases does
  | _ => cases does

-- What comes back over the oneshot has its cause.
theorem Kept.heard {trace : List (State κ ω φ σ × Action κ ω φ σ)} {s : State κ ω φ σ} {c : κ} {id : Nat}
    {outcome : Outcome σ} (kept : Kept server trace s)
    (path : Path (Step server) (start κ ω φ σ server.bound capacity traces) trace s)
    (place : s.handler c = .awaiting request id) (holds : sent s.executor.log id = some outcome) :
    Caused server trace s c request (match outcome with
      | .ok result => .ok (response server.narrow request result)
      | .error e => .error (errorStatus e)) := by
  have reached := path_run path
  have justified := Handoff.path_justified (path_executor server path)
  have due := kept.due c
  rw [place] at due
  obtain ⟨screened,job,arrived,found,input⟩ := due
  obtain ⟨also,named,logged⟩ := sent_logged holds
  have same : also = job := by
    rcases logged with responded | ⟨declined,_⟩
    · exact awaited_job reached found responded named
    · exact awaited_job reached found declined named
  subst same
  subst named
  have awaited : Awaited server trace s c request also :=
    ⟨served_iff.mpr screened,arrived,place,found,ownInput_iff.mpr input⟩
  rcases logged with responded | ⟨declined,rfl⟩
  · have delivered := kept.delivered also outcome (justified.events _ responded)
    cases outcome with
    | ok result => exact .answered awaited delivered (mapped_iff.mpr rfl)
    | error e => exact .failed awaited delivered (reported_iff.mpr rfl)
  · obtain ⟨w,late,_⟩ := justified.events _ declined
    exact .expired awaited declined (readLate_surfaces late)

-- The receiver of a task that still waits is open, so its job is not dropped.
theorem Kept.unlost {trace : List (State κ ω φ σ × Action κ ω φ σ)} {s : State κ ω φ σ} {c : κ} {id : Nat}
    (kept : Kept server trace s) (held : HeldOnce trace s)
    (path : Path (Step server) (start κ ω φ σ server.bound capacity traces) trace s)
    (place : s.handler c = .awaiting request id) : lost s.executor.log id = false := by
  have below := path_executor server path
  rw [Bool.eq_false_iff]
  intro gone
  obtain ⟨event,member,dropped⟩ := List.any_eq_true.mp gone
  cases event with
  | dropped job =>
      have named : job.id = id := by simpa using dropped
      obtain ⟨w,found⟩ := (Handoff.path_justified below).events _ member
      have away := kept.left job.id (found.closed below)
      have share := share_le_tally (holding (only id)) (places s) c
      have mine : holding (only id) (places s c) = 1 := by simp [places,holding,place,only]
      have once := held (only id)
      have most : issued s.executor (only id) ≤ 1 := List.nodup_iff_count_le_one.mp List.nodup_range id
      rw [named] at away
      omega
  | _ => cases dropped

theorem step_due [Inhabited ω] {trace : List (State κ ω φ σ × Action κ ω φ σ)} {s next : State κ ω φ σ}
    (kept : Kept server trace s) (held : HeldOnce trace s)
    (path : Path (Step server) (start κ ω φ σ server.bound capacity traces) trace s)
    (step : Step server s action next) :
    ∀ d, (next.handler d).Due server (trace ++ [(s,action)]) next d := by
  have more := step_extends step
  have balanced := Handoff.reached_balanced (path_run path)
  have due (c : κ) : ∀ place, s.handler c = place → place.Due server trace s c := by
    rintro _ rfl
    exact kept.due c
  -- a task's own step of `classify` is no arrival, and its reply is told here
  have onwards {c : κ} {request : ClassifyRequest} {deadline : Option Nat}
      (arrived : Arrived trace c request deadline) :
      Arrived (trace ++ [(s,.handle c)]) c request deadline := arrived.grow rfl
  have replies {c : κ} {request : ClassifyRequest} {reply : Reply φ}
      (caused : Caused server trace s c request reply) :
      (Handler.replied request reply).Due server (trace ++ [(s,.handle c)]) next c :=
    ⟨trace,s,latest_here trace s c,caused⟩
  cases step_change server step with
  | @arrived c request extension timeout _ =>
      refine due_moved kept.due more rfl rfl (fun _ _ => rfl) ?_
      simp [Handler.Due,Arrived,arrival]
  | unserved place found =>
      obtain ⟨other,early,late,split,before⟩ := List.find?_eq_some_iff_append.mp found
      refine due_moved kept.due more rfl rfl (fun _ _ => rfl)
        (replies (.unserved (due _ _ place) place split (fun signal member => ?_) (of_decide_eq_true other)))
      have same := before signal member
      rw [Bool.not_eq_true'] at same
      exact not_not.mp (of_decide_eq_false same)
  | served place screened =>
      exact due_moved kept.due more rfl rfl (fun _ _ => rfl) ⟨screened,onwards (due _ _ place)⟩
  | @enqueued c request deadline executor place taken =>
      obtain ⟨screened,arrived⟩ := due _ _ place
      obtain ⟨caller | ⟨caller,full⟩,_⟩ := Handoff.enqueue_change taken
      · refine due_moved kept.due more rfl rfl (fun d other => ?_)
          ⟨screened,deadline,onwards arrived,.inl ?_⟩
        · exact (congrFun caller d).trans (Function.update_of_ne other _ _)
        · rw [stands_executor,caller,Function.update_self]
          exact ⟨rfl,rfl⟩
      · refine due_moved kept.due more rfl rfl (fun d other => ?_)
          ⟨screened,deadline,onwards arrived,.inr ⟨?_,trace,s,latest_here trace s c,place,?_⟩⟩
        · exact (congrFun caller d).trans (Function.update_of_ne other _ _)
        · rw [stands_executor,caller,Function.update_self]
        · have permits := balanced.permits
          rw [full] at permits
          exact (Nat.zero_add _).symm.trans permits
  | @called c request executor place taken =>
      obtain ⟨screened,deadline,arrived,carries | ⟨rejected,_⟩⟩ := due _ _ place
      · obtain ⟨after,caller,_,passed⟩ := Handoff.call_change balanced taken
        refine due_moved kept.due more rfl rfl (fun d other => ?_)
          ⟨screened,deadline,onwards arrived,.inl ?_⟩
        · exact (congrFun caller d).trans (Function.update_of_ne other _ _)
        · rw [stands_executor,caller,Function.update_self]
          obtain ⟨admitted,_,carried⟩ | ⟨job,rfl,admitted,carried⟩ := passed
          · rw [admitted]
            exact carried _ _ carries
          · rw [admitted]
            exact ⟨job,by simp,carried _ _ carries⟩
      · exact absurd rejected (called_open taken).2
  | @accepted c request id place inside =>
      obtain ⟨screened,deadline,arrived,carries | ⟨rejected,_⟩⟩ := due _ _ place
      · rw [inside] at carries
        obtain ⟨job,found,input,rfl⟩ := carries
        exact due_moved kept.due more rfl rfl (fun _ _ => rfl)
          ⟨screened,job,onwards arrived,found,input⟩
      · rw [inside] at rejected
        cases rejected
  | @rejected c request place inside =>
      obtain ⟨screened,deadline,arrived,carries | ⟨_,refused⟩⟩ := due _ _ place
      · rw [inside] at carries
        exact carries.elim
      · exact due_moved kept.due more rfl rfl (fun _ _ => rfl)
          (replies (.full (served_iff.mpr screened) arrived refused))
  | answered place holds | failed place holds =>
      exact due_moved kept.due more rfl rfl (fun _ _ => rfl) (replies (kept.heard path place holds))
  | abandoned place _ gone =>
      rw [kept.unlost held path place] at gone
      cases gone
  | disconnected place taken =>
      refine due_moved kept.due more rfl rfl (fun d _ => ?_) trivial
      exact congrFun (Handoff.callers_stay taken (by simp) (by simp)).1 d
  | began _ taken _ | worked _ taken | delivered _ _ taken | ticked taken | shut _ taken =>
      exact due_stays kept.due more rfl rfl (Handoff.callers_stay taken (by simp) (by simp)).1
  | ran _ _ => exact due_stays kept.due more rfl rfl rfl

theorem step_left {trace : List (State κ ω φ σ × Action κ ω φ σ)} {s next : State κ ω φ σ}
    (kept : Kept server trace s) (step : Step server s action next) :
    ∀ id ∈ next.executor.closed, 0 < (trace ++ [(s,action)]).countP (leaves (only id)) := by
  intro id member
  rw [Service.countP_snoc]
  have taken := step_executor server step
  unfold Follows at taken
  split at taken
  · rename_i below does
    rcases Handoff.step_cancels taken id member with old | rfl
    · exact Nat.lt_of_lt_of_le (kept.left id old) (Nat.le_add_right _ _)
    · have cut : leaves (only id) (s,action) = true := by
        cases step_change server step with
        | disconnected place _ => simpa [executorAction,leaves,place,only] using does
        | @delivered w job input outcome executor place answer _ => simp [executorAction,answer] at does
        | @accepted c request job place inside => simp [executorAction,place,inside] at does
        | @rejected c request place inside => simp [executorAction,place,inside] at does
        | @called c request executor place _ =>
            cases inside : s.executor.caller c <;> simp [executorAction,place,inside] at does
        | unserved place _ | served place _ | enqueued place _ | answered place _ | failed place _
        | abandoned place _ _ => simp [executorAction,place] at does
        | _ => simp [executorAction] at does
      rw [cut]
      exact Nat.succ_pos _
  · exact Nat.lt_of_lt_of_le (kept.left id (taken ▸ member)) (Nat.le_add_right _ _)

theorem step_delivered {trace : List (State κ ω φ σ × Action κ ω φ σ)} {s next : State κ ω φ σ}
    (kept : Kept server trace s) (joined : Joined s) (step : Step server s action next) :
    ∀ job outcome, .classified job outcome ∈ next.executor.log → Delivered (trace ++ [(s,action)]) job outcome := by
  intro job outcome member
  have old : .classified job outcome ∈ s.executor.log → Delivered (trace ++ [(s,action)]) job outcome :=
    fun before => (kept.delivered job outcome before).append _
  cases step_change server step with
  | arrived _ | unserved _ _ | served _ _ | accepted _ _ | rejected _ _ | answered _ _ | failed _ _
  | abandoned _ _ _ | ran _ _ => exact old member
  | enqueued _ taken | called _ taken | disconnected _ taken | began _ taken _ | worked _ taken
  | ticked taken | shut _ taken =>
      rcases Handoff.step_classified taken job outcome member with before | ⟨w,same,_⟩
      · exact old before
      · cases same
  | @delivered w doing input answer executor place answered taken =>
      rcases Handoff.step_classified taken job outcome member with before | ⟨u,same,here⟩
      · exact old before
      · cases same
        refine ⟨s,w,by simp,here,?_⟩
        rcases joined.inside w job here with busy | ⟨given,also⟩
        · rw [answered] at busy
          cases busy
        · rw [answered] at also
          cases also
          exact answered

theorem path_kept [Inhabited ω] {trace : List (State κ ω φ σ × Action κ ω φ σ)} {s : State κ ω φ σ}
    (path : Path (Step server) (start κ ω φ σ server.bound capacity traces) trace s) : Kept server trace s := by
  induction path with
  | nil => exact ⟨fun _ => trivial,by simp [start,Handoff.start],by simp [start,Handoff.start]⟩
  | snoc prior step ih =>
      exact ⟨step_due ih (path_held prior) prior step,step_left ih step,
        step_delivered ih (path_joined prior) step⟩

theorem path_extends {trace : List (State κ ω φ σ × Action κ ω φ σ)} {origin s : State κ ω φ σ}
    (path : Path (Step server) origin trace s) : ∀ event ∈ origin.executor.log, event ∈ s.executor.log := by
  apply path.preserves (motive := fun s => ∀ event ∈ origin.executor.log, event ∈ s.executor.log)
  · intro before action after valid step event member
    exact (step_extends step).log event (valid event member)
  · exact fun _ member => member

theorem Delivered.logged {trace : List (State κ ω φ σ × Action κ ω φ σ)} {origin s : State κ ω φ σ}
    {outcome : Outcome σ} (path : Path (Step server) origin trace s) (delivered : Delivered trace job outcome) :
    .classified job outcome ∈ s.executor.log := by
  obtain ⟨before,w,member,place,answer⟩ := delivered
  obtain ⟨early,next,late,_,_,here,back⟩ := path.split member
  refine path_extends back _ ?_
  have taken := step_executor server here
  simp only [Follows,executorAction,answer] at taken
  exact Handoff.forwarded_logs taken place

theorem append_head {front : String} (some_ : front.toList ≠ []) (back : String) :
    (front ++ back).toList.head? = front.toList.head? := by
  rw [String.toList_append,List.head?_append_of_ne_nil _ some_]

theorem display_head (e : ClassifyError) : (display e).toList.head? ≠ some 'i' := by
  cases e with
  | notReady | resourceExhausted | requestExpired => decide
  | tokenizer e =>
      have text : (display (.tokenizer e)).toList.head? = "tokenizer error: ".toList.head? :=
        append_head (by decide) e
      rw [text]
      decide
  | embedding e =>
      have text : (display (.embedding e)).toList.head? = "embedding error: ".toList.head? :=
        append_head (by decide) e
      rw [text]
      decide
  | unavailable m =>
      have text : (display (.unavailable m)).toList.head? = "classifier unavailable: ".toList.head? :=
        append_head (by decide) m
      rw [text]
      decide

theorem errorStatus_running (e : ClassifyError) : errorStatus e ≠ stopped := by
  intro same
  cases e with
  | resourceExhausted | requestExpired => exact Code.noConfusion (congrArg Status.code same)
  | notReady | tokenizer | embedding | unavailable =>
      exact display_head _ (congrArg (fun status => status.message.toList.head?) same)

omit [DecidableEq ω] in
theorem Caused.running {trace : List (State κ ω φ σ × Action κ ω φ σ)} {s : State κ ω φ σ} {c : κ}
    {reply : Reply φ} (caused : Caused server trace s c request reply) : reply ≠ .error stopped := by
  intro told
  cases caused with
  | unserved _ _ _ _ _ | full _ _ _ | expired _ _ _ =>
      exact Code.noConfusion (congrArg Status.code (Except.error.inj told))
  | answered _ _ _ => cases told
  | failed _ _ reported =>
      exact errorStatus_running _ ((reported_iff.mp reported).symm.trans (Except.error.inj told))

theorem path_visits {trace : List (State κ ω φ σ × Action κ ω φ σ)} {origin s before : State κ ω φ σ}
    (path : Path (Step server) origin trace s) (seen : Visited trace s before) :
    ∀ event ∈ before.executor.log, event ∈ s.executor.log := by
  rcases seen with rfl | ⟨action,member⟩
  · exact fun _ member => member
  · obtain ⟨early,next,late,_,_,here,back⟩ := path.split member
    exact fun event member => path_extends back event ((step_extends here).log event member)

theorem replies_caused [Inhabited ω] {trace : List (State κ ω φ σ × Action κ ω φ σ)} {s : State κ ω φ σ}
    (path : Path (Step server) (start κ ω φ σ server.bound capacity traces) trace s) :
    (∀ c request reply, s.handler c = .replied request reply → ∃ front before,
      Latest trace c front before ∧ Caused server front before c request reply ∧
      reply ≠ .error ⟨.unavailable,"inference executor stopped"⟩) ∧
    ∀ before, Visited trace s before → ∀ job, .declined job ∈ before.executor.log →
      ReadLate trace job ∧ ∀ outcome, ¬ Delivered trace job outcome := by
  refine ⟨fun c request reply place => ?_,fun before seen job declined => ?_⟩
  · have due := (path_kept path).due c
    rw [place] at due
    obtain ⟨front,before,latest,caused⟩ := due
    exact ⟨front,before,latest,caused,caused.running⟩
  · have logged := path_visits path seen _ declined
    refine ⟨?_,fun outcome delivered => ?_⟩
    · obtain ⟨w,late,_⟩ := (Handoff.path_justified (path_executor server path)).events _ logged
      exact readLate_surfaces late
    · exact Handoff.declined_unclassified (path_run path) logged outcome (delivered.logged path)

-- A job that left the queue and every worker has been answered, or its receiver
-- was closed.
theorem ended_heard {s : State κ ω φ σ} {id : Nat} (reached : Handoff.Run bound s.executor)
    (found : s.executor.admitted[id]? = some job) (unqueued : job ∉ s.executor.channel)
    (free : ∀ w, (s.executor.worker w).unsettled id = 0) (unlost : lost s.executor.log id = false) :
    (sent s.executor.log id).isSome := by
  have ordered := Handoff.reached_ordered reached
  have named := ordered.named found
  subst named
  have dequeued : job ∈ s.executor.dequeued := by
    have member := List.mem_of_getElem? found
    rw [ordered.queue] at member
    exact (List.mem_append.mp member).resolve_right unqueued
  have put {event : Handoff.Event σ} (member : event ∈ s.executor.log) (tells : (told job.id event).isSome) :
      (sent s.executor.log job.id).isSome := List.findSome?_isSome_iff.mpr ⟨event,member,tells⟩
  rcases Handoff.dequeued_ending reached dequeued free with classified | declined | dropped
  · have one : Handoff.sumBy (Handoff.responses job.id) s.executor.log = 1 :=
      congrArg Handoff.Ending.responded classified
    obtain ⟨event,member,gains⟩ := Handoff.sumBy_pos (one ▸ Nat.one_pos)
    cases event with
    | responded also result => exact put member (by simp [told,Handoff.about_pos gains])
    | _ => exact absurd gains (Nat.lt_irrefl 0)
  · have one : Handoff.sumBy (Handoff.declines job.id) s.executor.log = 1 :=
      congrArg Handoff.Ending.declined declined
    obtain ⟨event,member,gains⟩ := Handoff.sumBy_pos (one ▸ Nat.one_pos)
    cases event with
    | declined also => exact put member (by simp [told,Handoff.about_pos gains])
    | _ => exact absurd gains (Nat.lt_irrefl 0)
  · have one : Handoff.sumBy (Handoff.drops job.id) s.executor.log = 1 :=
      congrArg Handoff.Ending.dropped dropped
    obtain ⟨event,member,gains⟩ := Handoff.sumBy_pos (one ▸ Nat.one_pos)
    cases event with
    | dropped also =>
        have gone : lost s.executor.log job.id = true :=
          List.any_eq_true.mpr ⟨_,member,by simp [Handoff.about_pos gains]⟩
        rw [unlost] at gone
        cases gone
    | _ => exact absurd gains (Nat.lt_irrefl 0)

theorem heard_replied {s : State κ ω φ σ} {c : κ} {id : Nat} (place : s.handler c = .awaiting request id)
    (heard : (sent s.executor.log id).isSome) :
    ∃ next reply, Step server s (.handle c) next ∧ next.handler c = .replied request reply := by
  obtain ⟨outcome,holds⟩ := Option.isSome_iff_exists.mp heard
  unfold Step advance handle
  simp only [place,holds]
  cases outcome with
  | ok result => exact ⟨_,_,rfl,Function.update_self ..⟩
  | error e => exact ⟨_,_,rfl,Function.update_self ..⟩

omit [DecidableEq κ] [DecidableEq ω] [Fintype ω] in
theorem settled_holding {s : State κ ω φ σ} (ids : Nat → Bool) (settled : ∀ c, (s.handler c).Settled = true) :
    tally (holding ids) (places s) = 0 := by
  refine tally_zero _ _ fun c => ?_
  have here := settled c
  cases place : s.handler c <;> simp_all [places,holding,Handler.Settled]

omit [DecidableEq κ] [DecidableEq ω] [Fintype κ] [Fintype ω] in
theorem issued_only {executor : Handoff.State κ ω σ} {id : Nat} (below : id < executor.admitted.length) :
    issued executor (only id) = 1 :=
  List.count_eq_one_of_mem List.nodup_range (List.mem_range.mpr below)

theorem admitted_once [Inhabited ω] {trace : List (State κ ω φ σ × Action κ ω φ σ)} {s : State κ ω φ σ}
    (path : Path (Step server) (start κ ω φ σ server.bound capacity traces) trace s) :
    HeldOnce trace s ∧
    (∀ c request id, s.handler c = .awaiting request id → ∃ job, s.executor.admitted[id]? = some job ∧
      job.input = inputOf request ∧ lost s.executor.log id = false ∧
      (job ∉ s.executor.channel → (∀ w, (s.executor.worker w).unsettled id = 0) →
        ∃ next reply, Step server s (.handle c) next ∧ next.handler c = .replied request reply)) ∧
    ((∀ c, (s.handler c).Settled = true) → ∀ id, id < s.executor.admitted.length →
      trace.countP (tells (only id)) + trace.countP (leaves (only id)) = 1) := by
  have kept := path_kept path
  have held := path_held path
  have reached := path_run path
  refine ⟨held,fun c request id place => ?_,fun settled id below => ?_⟩
  · have due := kept.due c
    rw [place] at due
    obtain ⟨_,job,_,found,input⟩ := due
    have unlost := kept.unlost held path place
    exact ⟨job,found,input,unlost,fun unqueued free =>
      heard_replied place (ended_heard reached found unqueued free unlost)⟩
  · have once := held (only id)
    rw [settled_holding _ settled,issued_only below] at once
    exact once

-- Two requests of one text: the first is answered, and while it is, the other's
-- deadline passes in the queue.
def twinServer : ClassifyServiceImpl Nat Nat := ⟨Service.pairCore,Handoff.threeBound,id⟩

def twin (requestId : String) : ClassifyRequest := ⟨requestId,"s"," text",["domain"],1⟩

def admission (c : Bool) (requestId : String) (deadline : Option Nat) : List (Action Bool Unit Nat Nat) :=
  [.arrive c (twin requestId) deadline none,.handle c,.handle c,.handle c,.handle c,.handle c,.handle c,
    .handle c]

def computation : List (Action Bool Unit Nat Nat) :=
  [.core (.run ()),.core (.run ()),.core (.run ()),.core (.run ()),.core (.prefilterLookup () none),
    .core (.embed () (.ok ⟨[4],none⟩)),.core (.semanticLookup () none),.core (.rank () (.ok Service.pairResult)),
    .core (.semanticInsert ()),.core (.prefilterInsert ()),.core (.run ()),.core (.run ()),.core (.run ()),
    .core (.run ()),.core (.run ()),.core (.run ()),.core (.run ()),.core (.record ())]

def works (n : Nat) : List (Action Bool Unit Nat Nat) := List.replicate n (.work ())

def twinActions : List (Action Bool Unit Nat Nat) :=
  admission false "a" none ++ admission true "b" (some 5) ++ works 6 ++ computation ++
    [.deliver (),.work (),.tick 5,.handle false] ++ works 10 ++ [.handle true] ++ works 1

def twinRun : List (State Bool Unit Nat Nat × Action Bool Unit Nat Nat) × State Bool Unit Nat Nat :=
  (follow (advance twinServer) (start Bool Unit Nat Nat twinServer.bound 1 1) twinActions).getD
    ([],start Bool Unit Nat Nat twinServer.bound 1 1)

theorem twin_followed :
    follow (advance twinServer) (start Bool Unit Nat Nat twinServer.bound 1 1) twinActions = some twinRun := rfl

def twinReply : Reply Nat := .ok ⟨"a","domain","m","t","x",1,[⟨"law",4⟩]⟩

def lateReply : Reply Nat := .error (errorStatus .requestExpired)

theorem replies_caused_twins :
    twinRun.2.handler false = .replied (twin "a") twinReply ∧
    twinRun.2.handler true = .replied (twin "b") lateReply ∧
    (∃ front before, Latest twinRun.1 false front before ∧
      Caused twinServer front before false (twin "a") twinReply) ∧
    ∃ front before, Latest twinRun.1 true front before ∧
      Caused twinServer front before true (twin "b") lateReply := by
  have first : twinRun.2.handler false = .replied (twin "a") twinReply := rfl
  have second : twinRun.2.handler true = .replied (twin "b") lateReply := rfl
  obtain ⟨caused,_⟩ := replies_caused (follow_path twin_followed)
  obtain ⟨front,before,latest,one,_⟩ := caused false _ _ first
  obtain ⟨rear,also,last,two,_⟩ := caused true _ _ second
  exact ⟨first,second,⟨front,before,latest,one⟩,rear,also,last,two⟩

theorem admitted_once_twins :
    (∀ id, id < 2 → twinRun.1.countP (tells (only id)) + twinRun.1.countP (leaves (only id)) = 1) ∧
    twinRun.1.countP (tells fun _ => true) = 2 := by
  have once := admitted_once (follow_path twin_followed)
  have settled : ∀ c, (twinRun.2.handler c).Settled = true := by
    rintro (_ | _) <;> rfl
  exact ⟨once.2.2 settled,rfl⟩

end SemanticClassifier.Server
