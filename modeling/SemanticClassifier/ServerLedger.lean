import SemanticClassifier.ServerCauses

namespace SemanticClassifier.Handoff
open Classify Interleaving

variable {κ ω σ : Type} [DecidableEq κ] [DecidableEq ω] [Fintype κ] [Fintype ω]
variable {bound : Bound} {s next : State κ ω σ}

-- The queue sample is taken in one place of the loop only.
theorem step_samples (step : Step bound s action next) :
    (next.queueSamples = s.queueSamples ∧ ∀ w job, action = .work w → s.worker w ≠ .sampling job) ∨
    next.queueSamples = s.queueSamples + 1 ∧ ∃ w job, action = .work w ∧ s.worker w = .sampling job := by
  cases step_change step with
  | sampled place => exact .inr ⟨rfl,_,_,rfl,place⟩
  | foundOpen place _ | locked place _ | received place _ | disconnected place _ _ | unlocked place
  | ended place | read place | foundClosed place _ | foundExpired place _ | abandoned place
  | recordedExpired place | recordedCancelled place | dropped place | expired place | recorded place
  | declined place | responded place | finished place | released place =>
      refine .inl ⟨rfl,fun u job same => ?_⟩
      cases same
      simp [place]
  | _ => exact .inl ⟨rfl,fun u job same => by cases same⟩

end SemanticClassifier.Handoff

namespace SemanticClassifier.Server
open Classify Interleaving Tally

variable {κ ω φ σ : Type} [DecidableEq κ] [DecidableEq ω] [Fintype κ] [Fintype ω]
variable (server : ClassifyServiceImpl φ σ)

-- What a reader of the run can count at the surface.
def arrives (row : State κ ω φ σ × Action κ ω φ σ) : Bool :=
  match row.2 with
  | .arrive .. => true
  | _ => false

def refuses (row : State κ ω φ σ × Action κ ω φ σ) : Bool :=
  match row.2 with
  | .handle c => match row.1.handler c with
    | .received request _ => (unserved server request).isSome
    | .admitting _ => match row.1.executor.caller c with
      | .rejected => true
      | _ => false
    | _ => false
  | _ => false

def hears : State κ ω φ σ × Action κ ω φ σ → Bool := tells fun _ => true

def departs : State κ ω φ σ × Action κ ω φ σ → Bool := leaves fun _ => true

def succeeds (row : State κ ω φ σ × Action κ ω φ σ) : Bool :=
  match row.2 with
  | .handle c => match row.1.handler c with
    | .awaiting _ id => match sent row.1.executor.log id with
      | some (.ok _) => true
      | _ => false
    | _ => false
  | _ => false

def Handler.busy (place : Handler φ) : Nat := (!place.Settled).toNat

-- An abstention for an incomplete context.
def abstains : Service.State ω φ σ × Service.Action ω φ σ → Bool
  | (_,.classify _ input) => input.contextCompleteness = .delta
  | _ => false

structure Books (trace : List (State κ ω φ σ × Action κ ω φ σ)) (s : State κ ω φ σ) : Prop where
  requests : trace.countP arrives = trace.countP (refuses server) + trace.countP hears +
    trace.countP departs + tally Handler.busy s.handler
  total : s.totalSamples = trace.countP succeeds
  calls : s.executor.queueSamples = (coreTrace trace).countP fun row => begins row.2

variable {server}

theorem step_total {s next : State κ ω φ σ} (step : Step server s action next) :
    next.totalSamples = s.totalSamples + (succeeds (s,action)).toNat := by
  cases step_change server step with
  | answered place holds => simp [succeeds,place,holds,stands]
  | failed place holds | abandoned place holds _ => simp [succeeds,place,holds,stands]
  | unserved place _ | served place _ | enqueued place _ | called place _ | accepted place _
  | rejected place _ => simp [succeeds,place,stands]
  | _ => rfl

omit [DecidableEq ω] [Fintype ω] in
theorem moved_busy {s next : State κ ω φ σ} {c : κ} {place : Handler φ} {gain cost : Nat}
    (moved : next.handler = Function.update s.handler c place)
    (balance : gain + (s.handler c).busy = cost + place.busy) :
    gain + tally Handler.busy s.handler = cost + tally Handler.busy next.handler := by
  have traded := tally_update Handler.busy s.handler c place
  rw [moved]
  omega

theorem step_requests {s next : State κ ω φ σ} (step : Step server s action next) :
    (arrives (s,action)).toNat + tally Handler.busy s.handler =
      (refuses server (s,action)).toNat + (hears (s,action)).toNat + (departs (s,action)).toNat +
        tally Handler.busy next.handler := by
  cases step_change server step with
  | @arrived c request extension timeout settled =>
      have before : (s.handler c).busy = 0 := by rw [Handler.busy,settled]; rfl
      refine moved_busy rfl ?_
      rw [before]
      rfl
  | unserved place found | served place found =>
      exact moved_busy rfl
        (by simp [arrives,refuses,hears,departs,tells,leaves,place,found,Handler.busy,Handler.Settled])
  | @called c request executor place taken =>
      have unrefused : refuses server (s,.handle c) = false := by
        have open_ := (called_open taken).2
        cases inside : s.executor.caller c with
        | rejected => exact absurd inside open_
        | _ => simp only [refuses,place,inside]
      exact moved_busy rfl
        (by simp [arrives,unrefused,hears,departs,tells,leaves,place,Handler.busy,Handler.Settled])
  | enqueued place _ | answered place _ | failed place _ | abandoned place _ _ | disconnected place _ =>
      exact moved_busy rfl
        (by simp [arrives,refuses,hears,departs,tells,leaves,place,Handler.busy,Handler.Settled])
  | accepted place inside | rejected place inside =>
      exact moved_busy rfl
        (by simp [arrives,refuses,hears,departs,tells,leaves,place,inside,Handler.busy,Handler.Settled])
  | _ => simp [arrives,refuses,hears,departs,tells,leaves]

theorem step_calls {s next : State κ ω φ σ} (step : Step server s action next) :
    next.executor.queueSamples = s.executor.queueSamples +
      (coreTrace [(s,action)]).countP fun row => begins row.2 := by
  have still {executor : Handoff.State κ ω σ} {below : Handoff.Action κ ω σ}
      (taken : Handoff.Step server.bound s.executor below executor)
      (elsewhere : ∀ w job, below = .work w → s.executor.worker w ≠ .sampling job) :
      executor.queueSamples = s.executor.queueSamples := by
    rcases Handoff.step_samples taken with ⟨same,_⟩ | ⟨_,w,job,work,place⟩
    · exact same
    · exact absurd place (elsewhere w job work)
  cases step_change server step with
  | arrived _ | unserved _ _ | served _ _ | accepted _ _ | rejected _ _ | answered _ _ | failed _ _
  | abandoned _ _ _ => rfl
  | enqueued _ taken | called _ taken | disconnected _ taken | delivered _ _ taken | ticked taken | shut _ taken =>
      exact still taken fun w job same => by cases same
  | @began w job executor core place taken _ =>
      rcases Handoff.step_samples taken with ⟨_,elsewhere⟩ | ⟨more,_⟩
      · exact absurd place (elsewhere w job rfl)
      · simp [coreTrace,projected,coreAction,place,begins,more]
  | @worked w executor elsewhere taken =>
      have same := still taken fun u job here => by cases here; exact elsewhere job
      simp [coreTrace,projected,coreAction_elsewhere elsewhere,same]
  | ran away _ => simp [coreTrace,projected,coreAction,away]

variable {capacity traces : Nat}

theorem path_books {trace : List (State κ ω φ σ × Action κ ω φ σ)} {s : State κ ω φ σ}
    (path : Path (Step server) (start κ ω φ σ server.bound capacity traces) trace s) : Books server trace s := by
  induction path with
  | nil =>
      have idle : tally Handler.busy (fun _ : κ => (.idle : Handler φ)) = 0 := tally_zero _ _ fun _ => rfl
      exact ⟨by simp [start,idle],rfl,rfl⟩
  | snoc prior step ih =>
      refine ⟨?_,?_,?_⟩
      · have before := ih.requests
        have here := step_requests step
        simp only [Service.countP_snoc]
        omega
      · rw [step_total step,ih.total,Service.countP_snoc]
      · rw [step_calls step,ih.calls,coreTrace_append,List.countP_append]

-- Nothing is asked, queued or worked on.
structure Idle (s : State κ ω φ σ) : Prop where
  settled : ∀ c, (s.handler c).Settled = true
  queue : s.executor.channel = []
  workers : ∀ w, (s.executor.worker w).job = none

omit [DecidableEq ω] [Fintype ω] in
theorem begins_or (calls : List (Service.State ω φ σ × Service.Action ω φ σ)) :
    calls.countP (fun row => begins row.2) =
      calls.countP (fun row => Service.starts row.2) + calls.countP abstains := by
  induction calls with
  | nil => rfl
  | cons row rest ih =>
      obtain ⟨s,action⟩ := row
      rw [List.countP_cons,List.countP_cons,List.countP_cons,ih]
      cases action with
      | classify t input =>
          by_cases delta : input.contextCompleteness = .delta <;>
            simp [begins,Service.starts,abstains,delta] <;> omega
      | _ => rfl

omit [DecidableEq κ] [DecidableEq ω] [Fintype κ] [Fintype ω] in
theorem idle_quiescent {s : State κ ω φ σ} (joined : Joined s) (idle : Idle s) : Service.Quiescent s.core := by
  intro w
  refine joined.outside w fun job place => ?_
  have none := idle.workers w
  rw [place] at none
  cases none

theorem Idle.ended [Inhabited ω] {trace : List (State κ ω φ σ × Action κ ω φ σ)} {s : State κ ω φ σ}
    (idle : Idle s) (path : Path (Step server) (start κ ω φ σ server.bound capacity traces) trace s) :
    ∀ job ∈ s.executor.admitted, Handoff.Ended (Handoff.ending s.executor job.id) := by
  intro job member
  have reached := path_run path
  rw [(Handoff.reached_ordered reached).queue,idle.queue,List.append_nil] at member
  refine Handoff.dequeued_ending reached member fun w => ?_
  have nothing := idle.workers w
  cases place : s.executor.worker w <;>
    simp_all [Handoff.Worker.job,Handoff.Worker.unsettled,Handoff.Worker.undecided]

-- Every call of the core moved one cache counter or was an abstention.
theorem calls_counted {trace : List (State κ ω φ σ × Action κ ω φ σ)} {s : State κ ω φ σ}
    (path : Path (Step server) (start κ ω φ σ server.bound capacity traces) trace s)
    (quiet : Service.Quiescent s.core) : s.executor.queueSamples =
      s.core.cacheHits + s.core.cacheMisses + s.core.cacheCoalesced + (coreTrace trace).countP abstains := by
  obtain ⟨_,events,ledger⟩ := Service.path_ledger (path_core server path)
  have called := ledger.calls quiet
  rw [(path_books path).calls,begins_or,ledger.starts,ledger.hits,ledger.misses,ledger.coalesced]
  omega

theorem requests_counted [Inhabited ω] {trace : List (State κ ω φ σ × Action κ ω φ σ)} {s : State κ ω φ σ}
    (path : Path (Step server) (start κ ω φ σ server.bound capacity traces) trace s) :
    trace.countP arrives = trace.countP (refuses server) + trace.countP hears + trace.countP departs +
      tally Handler.busy s.handler ∧
    s.executor.admitted.length = trace.countP hears + trace.countP departs +
      tally (holding fun _ => true) (places s) ∧
    s.totalSamples = trace.countP succeeds ∧
    (Idle s → (∀ job ∈ s.executor.admitted, Handoff.Ended (Handoff.ending s.executor job.id)) ∧
      trace.countP arrives = trace.countP (refuses server) + s.executor.admitted.length ∧
      s.executor.admitted.length = trace.countP hears + trace.countP departs ∧
      s.executor.admitted.length = s.core.cacheHits + s.core.cacheMisses + s.core.cacheCoalesced +
        (coreTrace trace).countP abstains + s.executor.queuedExpired + s.executor.queuedCancelled) := by
  have books := path_books path
  have held : trace.countP hears + trace.countP departs + tally (holding fun _ => true) (places s) =
      s.executor.admitted.length := by
    have once := path_held path fun _ => true
    rwa [issued,List.countP_true,List.length_range] at once
  refine ⟨books.requests,held.symm,books.total,fun idle => ?_⟩
  have requests := books.requests
  have calm : tally Handler.busy s.handler = 0 :=
    tally_zero _ _ fun c => by rw [Handler.busy,idle.settled c]; rfl
  have none := settled_holding (fun _ => true) idle.settled
  have counted := calls_counted path (idle_quiescent (path_joined path) idle)
  have recorded := Handoff.reached_recorded (path_run path)
  have free : tally Handoff.Worker.unrecorded s.executor.worker = 0 := by
    refine tally_zero _ _ fun w => ?_
    have nothing := idle.workers w
    cases place : s.executor.worker w <;> simp_all [Handoff.Worker.job,Handoff.Worker.unrecorded]
  have queue := congrArg List.length (Handoff.reached_ordered (path_run path)).queue
  rw [idle.queue,List.append_nil] at queue
  rw [Handoff.Recorded,free] at recorded
  refine ⟨idle.ended path,?_⟩
  omega

theorem requests_counted_twins :
    (∀ job ∈ twinRun.2.executor.admitted, Handoff.Ended (Handoff.ending twinRun.2.executor job.id)) ∧
    twinRun.2.core.cacheHits + twinRun.2.core.cacheMisses + twinRun.2.core.cacheCoalesced +
      (coreTrace twinRun.1).countP abstains + twinRun.2.executor.queuedExpired +
        twinRun.2.executor.queuedCancelled = 2 := by
  have idle : Idle twinRun.2 := by
    refine ⟨?_,rfl,fun () => rfl⟩
    rintro (_ | _) <;> rfl
  obtain ⟨ended,_,_,counted⟩ := (requests_counted (follow_path twin_followed)).2.2.2 idle
  exact ⟨ended,counted.symm⟩

end SemanticClassifier.Server
