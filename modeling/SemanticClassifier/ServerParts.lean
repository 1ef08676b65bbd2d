import SemanticClassifier.Server
import SemanticClassifier.ServiceAccounting

namespace SemanticClassifier.Handoff
open Classify Interleaving

def Event.job : Event σ → InferenceJob
  | .classified job _ | .responded job _ | .declined job | .dropped job => job

variable {κ ω σ : Type} [DecidableEq κ] [DecidableEq ω] [Fintype κ] [Fintype ω]
variable {bound : Bound} {s next : State κ ω σ}

-- Everything on record is about a job that was taken from the channel.
structure Known (s : State κ ω σ) : Prop where
  workers : ∀ w job, (s.worker w).job = some job → job ∈ s.dequeued
  events : ∀ event ∈ s.log, event.job ∈ s.dequeued

theorem move_jobs {result : Outcome σ} {place after : Worker σ} {deed : Deed σ}
    (move : Move now closed result place deed after) :
    (∀ job, after.job = some job → place.job = some job ∨ job ∈ deed.taken) ∧
    ∀ event ∈ deed.logged, place.job = some event.job := by
  cases move <;> simp [Worker.job,Deed.none,Deed.logs,Event.job]

theorem step_taken (step : Step bound s action next) :
    (∀ job ∈ s.dequeued, job ∈ next.dequeued) ∧
    (∀ w job, (next.worker w).job = some job → (s.worker w).job = some job ∨ job ∈ next.dequeued) ∧
    ∀ event ∈ next.log, event ∈ s.log ∨ ∃ w, (s.worker w).job = some event.job := by
  rcases step_moves step with aside | ⟨w,result,deed,after,_,move,did⟩
  · rw [aside.dequeued,aside.worker,aside.log]
    exact ⟨fun _ member => member,fun _ _ here => .inl here,fun _ member => .inl member⟩
  · obtain ⟨jobs,logged⟩ := move_jobs move
    rw [did.dequeued,did.worker,did.log]
    refine ⟨fun job member => List.mem_append_left _ member,fun u job here => ?_,fun event member => ?_⟩
    · by_cases same : u = w
      · subst same
        rw [Function.update_self] at here
        exact (jobs job here).imp_right fun taken => List.mem_append_right _ taken
      · rw [Function.update_of_ne same] at here
        exact .inl here
    · rcases List.mem_append.mp member with new | old
      · exact .inr ⟨w,logged event new⟩
      · exact .inl old

theorem step_known (known : Known s) (step : Step bound s action next) : Known next := by
  obtain ⟨kept,workers,events⟩ := step_taken step
  refine ⟨fun w job here => ?_,fun event member => ?_⟩
  · exact (workers w job here).elim (fun old => kept _ (known.workers w job old)) id
  · rcases events event member with old | ⟨w,here⟩
    · exact kept _ (known.events event old)
    · exact kept _ (known.workers w _ here)

theorem reached_known (reached : Run bound s) : Known s := by
  apply reached.preserves
  · intro origin fresh
    rw [fresh]
    exact ⟨by simp [start,Worker.job],by simp [start]⟩
  · intro before action after known step
    exact step_known known step

-- A receiver that is closed stays so, and only a closed one was found closed.
theorem step_closed (step : Step bound s action next) : ∀ id ∈ s.closed, id ∈ next.closed := by
  cases step_change step with
  | cancelled _ => exact fun _ member => List.mem_cons_of_mem _ member
  | _ => exact fun _ member => member

theorem FoundClosed.closed {trace : List (State κ ω σ × Action κ ω σ)} {origin : State κ ω σ}
    (path : Path (Step bound) origin trace s) (found : FoundClosed trace w job) : job.id ∈ s.closed := by
  obtain ⟨expired,before,member,_,gone⟩ := found
  obtain ⟨early,next,late,_,_,here,back⟩ := path.split member
  refine back.preserves (motive := fun s => job.id ∈ s.closed) ?_ (step_closed here _ gone)
  exact fun _ _ _ closed step => step_closed step _ closed

omit [DecidableEq κ] [DecidableEq ω] [Fintype κ] [Fintype ω] in
theorem Ordered.named {s : State κ ω σ} {i : Nat} (ordered : Ordered s) (found : s.admitted[i]? = some job) :
    job.id = i := by
  have named := congrArg (·[i]?) ordered.ids
  simp only [List.getElem?_map,found,Option.map_some] at named
  obtain ⟨_,same⟩ := List.getElem?_eq_some_iff.mp named.symm
  rw [List.getElem_range] at same
  exact same.symm

-- A job is found again under its id.
omit [DecidableEq κ] [DecidableEq ω] [Fintype κ] [Fintype ω] in
theorem Ordered.found {s : State κ ω σ} (ordered : Ordered s) (member : job ∈ s.dequeued) :
    s.admitted[job.id]? = some job := by
  have inside : job ∈ s.admitted := ordered.queue ▸ List.mem_append_left _ member
  obtain ⟨i,here⟩ := List.mem_iff_getElem?.mp inside
  rw [ordered.named here]
  exact here

-- Only the step after the queue sample brings a worker to its forward.
theorem step_workers (step : Step bound s action next) :
    (next.worker = s.worker ∧ ∀ w, action ≠ .work w) ∨
    ∃ w after, next.worker = Function.update s.worker w after ∧
      ((action = .work w ∧ (∀ job, s.worker w ≠ .classifying job) ∧
        (∀ job, after = .classifying job ↔ s.worker w = .sampling job)) ∨
      ∃ job result, action = .forwarded w result ∧ s.worker w = .classifying job ∧
        after = .responding job result) := by
  cases step_change step with
  | permitted _ _ _ | refused _ _ _ | counted _ | raised _ | stamped _ | sent _ _ _ _ | bounced _ _
  | retracted _ | cancelled _ | ticked | shut _ => exact .inl ⟨rfl,by simp⟩
  | classified place => exact .inr ⟨_,_,rfl,.inr ⟨_,_,rfl,place,rfl⟩⟩
  | sampled place =>
      refine .inr ⟨_,_,rfl,.inl ⟨rfl,by simp [place],fun job => ?_⟩⟩
      simp [place]
  | foundOpen place _ | locked place _ | received place _ | disconnected place _ _ | unlocked place
  | ended place | read place | foundClosed place _ | foundExpired place _ | abandoned place
  | recordedExpired place | recordedCancelled place | dropped place | expired place | recorded place
  | declined place | responded place | finished place | released place =>
      refine .inr ⟨_,_,rfl,.inl ⟨rfl,by simp [place],fun job => ?_⟩⟩
      simp [place]

theorem step_classified (step : Step bound s action next) :
    ∀ job result, .classified job result ∈ next.log → .classified job result ∈ s.log ∨
      ∃ w, action = .forwarded w result ∧ s.worker w = .classifying job := by
  cases step_change step with
  | @classified w job result place =>
      intro also outcome member
      rcases List.mem_cons.mp member with new | old
      · cases new
        exact .inr ⟨w,rfl,place⟩
      · exact .inl old
  | _ =>
      intro also outcome member
      simpa [works,asks] using member

end SemanticClassifier.Handoff

namespace SemanticClassifier.Service
open Classify Interleaving

variable {τ φ σ : Type} [DecidableEq τ] {core : ServiceCore} {s next : State τ φ σ}

-- The thread is in a call for this input, or holds its outcome.
def Stage.Serves (input : ClassificationInput) (stage : Stage φ σ) : Prop :=
  stage.input = some input ∨ ∃ outcome, stage = .answered input outcome

theorem classify_serves (step : Step core s (.classify t input) next) :
    ∃ after, next.stage = Function.update s.stage t after ∧ after.Serves input := by
  cases step_change core step with
  | declined _ _ => exact ⟨_,rfl,.inr ⟨_,rfl⟩⟩
  | called _ _ _ => exact ⟨_,rfl,.inl rfl⟩

-- Every other step belongs to a call that is on its way.
theorem step_serves (linked : Linked s) (step : Step core s action next)
    (inside : ∀ t input, action ≠ .classify t input) :
    ∃ t after input, next.stage = Function.update s.stage t after ∧ (s.stage t).input = some input ∧
      after.Serves input := by
  cases step_change core step with
  | declined _ _ | called _ _ _ => exact absurd rfl (inside _ _)
  | ran taken =>
      obtain ⟨input,place⟩ := linked.waiting taken (.inl rfl)
      exact ⟨_,_,input,rfl,by rw [place]; rfl,.inl (by rw [place]; rfl)⟩
  | woke taken =>
      obtain ⟨input,place⟩ := linked.waiting taken (.inr rfl)
      exact ⟨_,_,input,rfl,by rw [place]; rfl,.inl (by rw [place]; rfl)⟩
  | prefilterHit place _ | prefilterMissed place _ | embedded place | embedFailed place _
  | semanticHit place _ | semanticMissed place | ranked place | rankFailed place _ | wroteSemantic place
  | wrotePrefilter place _ => exact ⟨_,_,_,rfl,by rw [place]; rfl,.inl rfl⟩
  | @recorded t input key outcome path place inside =>
      cases path <;> exact ⟨t,_,input,rfl,by rw [place]; rfl,.inr ⟨outcome,rfl⟩⟩

end SemanticClassifier.Service

namespace SemanticClassifier.Server
open Classify Interleaving Service

variable {κ ω φ σ : Type} [DecidableEq κ] [DecidableEq ω] [Fintype κ] [Fintype ω]
variable {server : ClassifyServiceImpl φ σ}

-- A thread is inside the core exactly while its worker waits for the answer, and
-- the call is the job's.
structure Joined (s : State κ ω φ σ) : Prop where
  linked : Linked s.core
  inside : ∀ w job, s.executor.worker w = .classifying job → (s.core.stage w).Serves job.input
  outside : ∀ w, (∀ job, s.executor.worker w ≠ .classifying job) → (s.core.stage w).Ready

omit [DecidableEq κ] [Fintype κ] [Fintype ω] in
theorem Joined.moved {s next : State κ ω φ σ} {after : Handoff.Worker σ} (joined : Joined s) (stage : Stage φ σ)
    (linked : Linked next.core)
    (worker : next.executor.worker = Function.update s.executor.worker w after)
    (core : next.core.stage = Function.update s.core.stage w stage)
    (inside : ∀ job, after = .classifying job → stage.Serves job.input)
    (outside : (∀ job, after ≠ .classifying job) → stage.Ready) : Joined next where
  linked := linked
  inside := by
    intro u job here
    rw [worker] at here
    rw [core]
    by_cases same : u = w
    · subst same
      rw [Function.update_self] at here ⊢
      exact inside job here
    · rw [Function.update_of_ne same] at here ⊢
      exact joined.inside u job here
  outside := by
    intro u here
    rw [worker] at here
    rw [core]
    by_cases same : u = w
    · subst same
      rw [Function.update_self] at here ⊢
      exact outside here
    · rw [Function.update_of_ne same] at here ⊢
      exact joined.outside u here

omit [DecidableEq κ] [DecidableEq ω] [Fintype κ] [Fintype ω] in
-- A step of neither a worker nor the core.
theorem Joined.aside {s next : State κ ω φ σ} (joined : Joined s) (core : next.core = s.core)
    (worker : next.executor.worker = s.executor.worker) : Joined next :=
  ⟨core ▸ joined.linked,worker ▸ core ▸ joined.inside,worker ▸ core ▸ joined.outside⟩

theorem unmoved {bound : Handoff.Bound} {s next : Handoff.State κ ω σ}
    (step : Handoff.Step bound s action next) (unworked : ∀ w, action ≠ .work w)
    (unforwarded : ∀ w result, action ≠ .forwarded w result) : next.worker = s.worker := by
  rcases Handoff.step_workers step with ⟨same,_⟩ | ⟨w,after,_,⟨rfl,_⟩ | ⟨job,result,rfl,_⟩⟩
  · exact same
  · exact absurd rfl (unworked w)
  · exact absurd rfl (unforwarded w result)

theorem step_joined {s next : State κ ω φ σ} (joined : Joined s) (step : Step server s action next) :
    Joined next := by
  cases step_change server step with
  | arrived _ | unserved _ _ | served _ _ | accepted _ _ | rejected _ _ | answered _ _ | failed _ _
  | abandoned _ _ _ => exact joined.aside rfl rfl
  | enqueued _ taken | called _ taken | disconnected _ taken | ticked taken | shut _ taken =>
      exact joined.aside rfl (unmoved taken (by simp) (by simp))
  | @began w job executor core place taken begun =>
      obtain ⟨stage,core_,serves⟩ := classify_serves begun
      rcases Handoff.step_workers taken with ⟨_,idle⟩ | ⟨u,after,worker,⟨same,_,enters⟩ | ⟨_,_,other,_⟩⟩
      · exact absurd rfl (idle w)
      · cases same
        have entered : after = .classifying job := (enters job).mpr place
        subst entered
        refine joined.moved _ (step_linked joined.linked begun) worker core_ ?_ fun away => absurd rfl (away job)
        intro other same
        cases same
        exact serves
      · cases other
  | @worked w executor elsewhere taken =>
      rcases Handoff.step_workers taken with ⟨_,idle⟩ | ⟨u,after,worker,⟨same,free,enters⟩ | ⟨_,_,other,_⟩⟩
      · exact absurd rfl (idle w)
      · cases same
        refine joined.moved (s.core.stage w) joined.linked worker
          (Function.update_eq_self w _).symm ?_ fun _ => joined.outside w free
        intro job here
        exact absurd ((enters job).mp here) (elsewhere job)
      · cases other
  | @ran action core away taken =>
      have inside : ∀ t input, action ≠ .classify t input := by
        rintro t input rfl
        cases away
      obtain ⟨t,stage,input,moved,here,serves⟩ := step_serves joined.linked taken inside
      refine joined.moved _ (step_linked joined.linked taken)
        (Function.update_eq_self t s.executor.worker).symm moved ?_ fun out => ?_
      · intro job place
        rcases joined.inside t job place with busy | ⟨outcome,answered⟩
        · rw [here] at busy
          cases busy
          exact serves
        · rw [answered] at here
          cases here
      · rcases (joined.outside t out).cases with idle | ⟨_,_,idle⟩ <;> rw [idle] at here <;> cases here
  | @delivered w job input outcome executor place answer taken =>
      rcases Handoff.step_workers taken with ⟨_,_⟩ | ⟨u,after,worker,⟨other,_⟩ | ⟨job,result,same,_,after_⟩⟩
      · rename_i same idle
        exact joined.aside rfl same
      · cases other
      · cases same
        refine joined.moved (s.core.stage w) joined.linked worker
          (Function.update_eq_self w _).symm ?_ fun _ => by rw [answer]; trivial
        simp [after_]

variable {bound : Handoff.Bound} {capacity traces : Nat}

omit [DecidableEq κ] [DecidableEq ω] [Fintype κ] [Fintype ω] in
theorem start_joined : Joined (start κ ω φ σ bound capacity traces) where
  linked := start_linked capacity
  inside := by simp [start,Handoff.start]
  outside := fun _ _ => trivial

theorem path_joined {trace : List (State κ ω φ σ × Action κ ω φ σ)} {s : State κ ω φ σ}
    (path : Path (Step server) (start κ ω φ σ bound capacity traces) trace s) : Joined s := by
  apply path.preserves
  · intro before action after joined step
    exact step_joined joined step
  · exact start_joined

theorem path_run {trace : List (State κ ω φ σ × Action κ ω φ σ)} {s : State κ ω φ σ}
    (path : Path (Step server) (start κ ω φ σ server.bound capacity traces) trace s) :
    Handoff.Run server.bound s.executor := (path_executor server path).reached rfl

end SemanticClassifier.Server
