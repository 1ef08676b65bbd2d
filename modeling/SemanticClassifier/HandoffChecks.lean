import SemanticClassifier.HandoffOutcomes

namespace SemanticClassifier.Handoff
open Classify Interleaving Tally

def Worker.job : Worker σ → Option InferenceJob
  | .received job => job
  | .reading job | .checking job _ | .abandoning job _ | .recording job _ | .dropping job | .expiring job
  | .recordingExpired job | .declining job | .sampling job | .classifying job | .responding job _
  | .finishing job | .releasing job => some job
  | .waiting | .receiving | .returned => none

-- The turns at most before the worker has let go of the job in its hands.
def Worker.left : Worker σ → Nat
  | .received (some _) => 8
  | .reading _ => 7
  | .checking .. => 6
  | .sampling _ => 5
  | .classifying _ | .expiring _ => 4
  | .responding .. | .recordingExpired _ | .abandoning .. => 3
  | .finishing _ | .declining _ | .recording .. => 2
  | .releasing _ | .dropping _ => 1
  | .waiting | .receiving | .received none | .returned => 0

variable {κ ω σ : Type} [DecidableEq κ] [DecidableEq ω] [Fintype κ] [Fintype ω]
variable {trace : List (State κ ω σ × Action κ ω σ)} {w : ω} {job : InferenceJob}

-- Worker `w` took a step from this place of its loop, in a state of which this held.
def Took (trace : List (State κ ω σ × Action κ ω σ)) (w : ω) (place : Worker σ)
    (held : State κ ω σ → Prop) : Prop :=
  ∃ before, (before,.work w) ∈ trace ∧ before.worker w = place ∧ held before

-- What the clock and the job's receiver showed when the worker looked at them.
def ReadInTime (trace : List (State κ ω σ × Action κ ω σ)) (w : ω) (job : InferenceJob) : Prop :=
  Took trace w (.reading job) fun before => ∀ deadline ∈ job.deadline, before.clock < deadline

def ReadLate (trace : List (State κ ω σ × Action κ ω σ)) (w : ω) (job : InferenceJob) : Prop :=
  Took trace w (.reading job) fun before => ∃ deadline ∈ job.deadline, deadline ≤ before.clock

def FoundOpen (trace : List (State κ ω σ × Action κ ω σ)) (w : ω) (job : InferenceJob) : Prop :=
  ∃ expired, Took trace w (.checking job expired) fun before => job.id ∉ before.closed

def FoundClosed (trace : List (State κ ω σ × Action κ ω σ)) (w : ω) (job : InferenceJob) : Prop :=
  ∃ expired, Took trace w (.checking job expired) fun before => job.id ∈ before.closed

def Forwarded (trace : List (State κ ω σ × Action κ ω σ)) (w : ω) (job : InferenceJob)
    (result : Outcome σ) : Prop :=
  ∃ before, (before,.forwarded w result) ∈ trace ∧ before.worker w = .classifying job

def Worker.Justified (trace : List (State κ ω σ × Action κ ω σ)) (log : List (Event σ)) (w : ω) :
    Worker σ → Prop
  | .checking job expired => if expired = true then ReadLate trace w job else ReadInTime trace w job
  | .abandoning job _ | .recording job _ | .dropping job => FoundClosed trace w job
  | .expiring job | .recordingExpired job | .declining job =>
    ReadLate trace w job ∧ FoundOpen trace w job
  | .sampling job | .classifying job => ReadInTime trace w job ∧ FoundOpen trace w job
  | .responding job result => .classified job result ∈ log
  | _ => True

def Event.Justified (trace : List (State κ ω σ × Action κ ω σ)) (log : List (Event σ)) :
    Event σ → Prop
  | .classified job result =>
    ∃ w, ReadInTime trace w job ∧ FoundOpen trace w job ∧ Forwarded trace w job result
  | .responded job result => .classified job result ∈ log
  | .declined job => ∃ w, ReadLate trace w job ∧ FoundOpen trace w job
  | .dropped job => ∃ w, FoundClosed trace w job

structure Justified (trace : List (State κ ω σ × Action κ ω σ)) (s : State κ ω σ) : Prop where
  workers : ∀ w, (s.worker w).Justified trace s.log w
  events : ∀ event ∈ s.log, event.Justified trace s.log

section Grow
variable (row : State κ ω σ × Action κ ω σ)

omit [DecidableEq κ] [DecidableEq ω] [Fintype κ] [Fintype ω] in
theorem Took.grow {place : Worker σ} {held : State κ ω σ → Prop} (took : Took trace w place held) :
    Took (trace ++ [row]) w place held := by
  obtain ⟨before,member,here,holds⟩ := took
  exact ⟨before,List.mem_append_left _ member,here,holds⟩

omit [DecidableEq κ] [DecidableEq ω] [Fintype κ] [Fintype ω] in
theorem FoundOpen.grow (found : FoundOpen trace w job) : FoundOpen (trace ++ [row]) w job := by
  obtain ⟨expired,took⟩ := found
  exact ⟨expired,took.grow row⟩

omit [DecidableEq κ] [DecidableEq ω] [Fintype κ] [Fintype ω] in
theorem FoundClosed.grow (found : FoundClosed trace w job) : FoundClosed (trace ++ [row]) w job := by
  obtain ⟨expired,took⟩ := found
  exact ⟨expired,took.grow row⟩

omit [DecidableEq κ] [DecidableEq ω] [Fintype κ] [Fintype ω] in
theorem Forwarded.grow {result : Outcome σ} (forwarded : Forwarded trace w job result) :
    Forwarded (trace ++ [row]) w job result := by
  obtain ⟨before,member,here⟩ := forwarded
  exact ⟨before,List.mem_append_left _ member,here⟩

variable {log : List (Event σ)} (more : List (Event σ))

omit [DecidableEq κ] [DecidableEq ω] [Fintype κ] [Fintype ω] in
theorem worker_justified_grow (place : Worker σ) (valid : place.Justified trace log w) :
    place.Justified (trace ++ [row]) (more ++ log) w := by
  cases place with
  | checking job expired =>
      cases expired
      · exact Took.grow row valid
      · exact Took.grow row valid
  | abandoning | recording | dropping => exact FoundClosed.grow row valid
  | expiring | recordingExpired | declining | sampling | classifying =>
      exact ⟨Took.grow row valid.1,valid.2.grow row⟩
  | responding => exact List.mem_append_right _ valid
  | _ => trivial

omit [DecidableEq κ] [DecidableEq ω] [Fintype κ] [Fintype ω] in
theorem event_justified_grow (event : Event σ) (valid : event.Justified trace log) :
    event.Justified (trace ++ [row]) (more ++ log) := by
  cases event with
  | classified =>
      obtain ⟨w,read,found,forwarded⟩ := valid
      exact ⟨w,Took.grow row read,found.grow row,forwarded.grow row⟩
  | responded => exact List.mem_append_right _ valid
  | declined =>
      obtain ⟨w,read,found⟩ := valid
      exact ⟨w,Took.grow row read,found.grow row⟩
  | dropped =>
      obtain ⟨w,found⟩ := valid
      exact ⟨w,found.grow row⟩

end Grow

omit [DecidableEq κ] [DecidableEq ω] [Fintype κ] [Fintype ω] in
-- The flag that the worker computes from the clock says what the clock showed.
theorem read_justified {s : State κ ω σ} (here : s.worker w = .reading job) (log : List (Event σ)) :
    (Worker.checking job (job.deadline.any fun deadline => deadline ≤ s.clock)).Justified
      (trace ++ [(s,.work w)]) log w := by
  have last : (s,.work w) ∈ trace ++ [(s,.work w)] :=
    List.mem_append_right _ (List.mem_singleton.mpr rfl)
  unfold Worker.Justified
  cases due : job.deadline with
  | none =>
      simp only [Option.any_none,Bool.false_eq_true,if_false]
      exact ⟨s,last,here,by simp [due]⟩
  | some deadline =>
      by_cases late : deadline ≤ s.clock
      · simp only [Option.any_some,late,decide_true,if_true]
        exact ⟨s,last,here,deadline,due,late⟩
      · simp only [Option.any_some,late,decide_false,Bool.false_eq_true,if_false]
        exact ⟨s,last,here,by simpa [due] using late⟩

omit [DecidableEq κ] [DecidableEq ω] [Fintype κ] [Fintype ω] in
theorem move_justified {s : State κ ω σ} {result : Outcome σ} {place after : Worker σ} {deed : Deed σ}
    (here : s.worker w = place) (move : Move s.clock s.closed result place deed after)
    (valid : place.Justified trace s.log w) :
    after.Justified (trace ++ [(s,place.turn w result)]) (deed.logged ++ s.log) w ∧
    ∀ event ∈ deed.logged,
      event.Justified (trace ++ [(s,place.turn w result)]) (deed.logged ++ s.log) := by
  have last : (s,place.turn w result) ∈ trace ++ [(s,place.turn w result)] :=
    List.mem_append_right _ (List.mem_singleton.mpr rfl)
  cases move with
  | read => exact ⟨read_justified here _,List.forall_mem_nil _⟩
  | findClosed gone => exact ⟨⟨_,s,last,here,gone⟩,List.forall_mem_nil _⟩
  | findExpired open_ =>
      exact ⟨⟨Took.grow _ valid,_,s,last,here,open_⟩,List.forall_mem_nil _⟩
  | findOpen open_ =>
      exact ⟨⟨Took.grow _ valid,_,s,last,here,open_⟩,List.forall_mem_nil _⟩
  | drop => exact ⟨trivial,List.forall_mem_singleton.mpr ⟨w,valid.grow _⟩⟩
  | decline =>
      exact ⟨trivial,List.forall_mem_singleton.mpr ⟨w,Took.grow _ valid.1,valid.2.grow _⟩⟩
  | classify =>
      exact ⟨List.mem_cons_self,List.forall_mem_singleton.mpr
        ⟨w,Took.grow _ valid.1,valid.2.grow _,s,last,here⟩⟩
  | respond => exact ⟨trivial,List.forall_mem_singleton.mpr (List.mem_cons_of_mem _ valid)⟩
  | abandon | recordExpired | recordCancelled =>
      exact ⟨FoundClosed.grow _ valid,List.forall_mem_nil _⟩
  | expire | record | sample =>
      exact ⟨⟨Took.grow _ valid.1,valid.2.grow _⟩,List.forall_mem_nil _⟩
  | lock | receive | disconnect | unlock | return_ | finish | release =>
      exact ⟨trivial,List.forall_mem_nil _⟩

theorem step_justified {bound : Bound} {s next : State κ ω σ} (valid : Justified trace s)
    (step : Step bound s action next) : Justified (trace ++ [(s,action)]) next := by
  rcases step_moves step with aside | ⟨w,result,deed,after,rfl,move,did⟩
  · constructor
    · rw [aside.worker,aside.log]
      exact fun w => worker_justified_grow _ [] _ (valid.workers w)
    · rw [aside.log]
      exact fun event member => event_justified_grow _ [] event (valid.events event member)
  · obtain ⟨place,logged⟩ := move_justified rfl move (valid.workers w)
    constructor
    · rw [did.worker,did.log]
      exact (Function.forall_update_iff s.worker (p := fun u place => place.Justified _ _ u)).mpr
        ⟨place,fun u _ => worker_justified_grow _ _ _ (valid.workers u)⟩
    · rw [did.log]
      intro event member
      rcases List.mem_append.mp member with new | old
      · exact logged event new
      · exact event_justified_grow _ _ event (valid.events event old)

theorem path_justified {bound : Bound} {s : State κ ω σ}
    (path : Path (Step bound) (start κ ω σ bound) trace s) : Justified trace s := by
  induction path with
  | nil => exact ⟨fun _ => trivial,List.forall_mem_nil _⟩
  | snoc _ step ih => exact step_justified ih step

theorem turn_taken (bound : Bound) {s : State κ ω σ} (holds : (s.worker w).job = some job)
    (result : Outcome σ) :
    ∃ next, Step bound s ((s.worker w).turn w result) next ∧ (next.worker w).left < (s.worker w).left := by
  unfold Step
  cases place : s.worker w with
  | waiting | receiving | returned => simp [place,Worker.job] at holds
  | received taken =>
      cases taken with
      | none => simp [place,Worker.job] at holds
      | some held =>
          simp only [Worker.turn,advance,workStep,place]
          exact ⟨_,rfl,by simp [works,Worker.left]⟩
  | checking held expired =>
      simp only [Worker.turn,advance,workStep,place]
      refine ⟨_,rfl,?_⟩
      simp only [works,Function.update_self]
      split
      · simp [Worker.left]
      · cases expired <;> simp [Worker.left]
  | classifying held =>
      simp only [Worker.turn,advance,place]
      exact ⟨_,rfl,by simp [works,Worker.left]⟩
  | reading held | abandoning held expired | recording held expired | dropping held | expiring held
  | recordingExpired held | declining held | sampling held | responding held answer | finishing held
  | releasing held =>
      simp only [Worker.turn,advance,workStep,place]
      exact ⟨_,rfl,by simp [works,Worker.left]⟩

-- The receiver's lock is with a worker that is at the channel, and no worker
-- leaves the pool before the channel is closed and empty.
structure Manned (s : State κ ω σ) : Prop where
  owner : ∀ w, s.receiver = some w → s.worker w = .receiving ∨ ∃ job, s.worker w = .received job
  gone : ∀ w, s.worker w = .returned ∨ s.worker w = .received none → s.channel = [] ∧ s.sender = false

omit [DecidableEq κ] [Fintype κ] [Fintype ω] in
theorem Manned.moves {s next : State κ ω σ} {after : Worker σ} (valid : Manned s)
    (worker : next.worker = Function.update s.worker w after) (sender : next.sender = s.sender)
    (channel : s.channel = [] → next.channel = [])
    (receiver : ∀ u, next.receiver = some u → s.receiver = some u ∨ u = w)
    (owner : next.receiver = some w → after = .receiving ∨ ∃ job, after = .received job)
    (gone : after = .returned ∨ after = .received none → s.channel = [] ∧ s.sender = false) :
    Manned next where
  owner := by
    intro u holds
    rw [worker]
    by_cases same : u = w
    · subst same
      rw [Function.update_self]
      exact owner holds
    · rw [Function.update_of_ne same]
      exact valid.owner u ((receiver u holds).resolve_right same)
  gone := by
    intro u left
    rw [worker] at left
    have empty : s.channel = [] ∧ s.sender = false := by
      by_cases same : u = w
      · subst same
        rw [Function.update_self] at left
        exact gone left
      · rw [Function.update_of_ne same] at left
        exact valid.gone u left
    exact ⟨channel empty.1,sender.trans empty.2⟩

omit [DecidableEq κ] [Fintype κ] [Fintype ω] in
-- A worker away from the channel does not hold the lock.
theorem Manned.away {s middle : State κ ω σ} {place after : Worker σ} (valid : Manned s)
    (here : s.worker w = place) (away : place ≠ .receiving ∧ ∀ job, place ≠ .received job)
    (stays : after ≠ .returned ∧ after ≠ .received none) (worker : middle.worker = s.worker)
    (receiver : middle.receiver = s.receiver) (channel : middle.channel = s.channel)
    (sender : middle.sender = s.sender) : Manned (works middle w after) := by
  refine valid.moves (by rw [works,worker]) sender (fun empty => channel.trans empty)
    (fun u holds => .inl (receiver ▸ holds)) (fun holds => ?_) (fun left => absurd left (not_or.mpr stays))
  rcases valid.owner w (receiver ▸ holds) with at_ | ⟨job,at_⟩
  · exact absurd (here.symm.trans at_) away.1
  · exact absurd (here.symm.trans at_) (away.2 job)

theorem step_manned {bound : Bound} {s next : State κ ω σ} (valid : Manned s)
    (balanced : Balanced bound s) (step : Step bound s action next) : Manned next := by
  cases step_change step with
  | permitted _ _ _ | refused _ _ _ | counted _ | raised _ | stamped _ | bounced _ _
  | retracted _ | cancelled _ | ticked => exact ⟨valid.owner,valid.gone⟩
  | shut _ => exact ⟨valid.owner,fun w left => ⟨(valid.gone w left).1,rfl⟩⟩
  | @sent c input queuedAt deadline job place _ _ _ =>
      have open_ := balanced.opened (c := c) (by simp [place,Caller.Ready])
      refine ⟨valid.owner,fun w left => ?_⟩
      have closed := (valid.gone w left).2
      rw [open_] at closed
      cases closed
  | locked place free =>
      exact valid.moves rfl rfl id (fun u holds => .inr (Option.some.inj holds).symm)
        (fun _ => .inl rfl) (by simp)
  | received place queue =>
      exact valid.moves rfl rfl (by simp [queue]) (fun u holds => .inl holds)
        (fun _ => .inr ⟨_,rfl⟩) (by simp)
  | disconnected place empty closed =>
      exact valid.moves rfl rfl id (fun u holds => .inl holds) (fun _ => .inr ⟨_,rfl⟩)
        fun _ => ⟨empty,closed⟩
  | unlocked place => exact valid.moves rfl rfl id (by simp [works]) (by simp [works]) (by simp)
  | @ended w place =>
      exact valid.moves rfl rfl id (by simp [works]) (by simp [works])
        fun _ => valid.gone w (.inr place)
  | read place | foundClosed place _ | foundExpired place _ | foundOpen place _ | abandoned place
  | recordedExpired place | recordedCancelled place | dropped place | expired place | recorded place
  | declined place | sampled place | classified place | responded place | finished place
  | released place =>
      exact valid.away place (by simp) (by simp) rfl rfl rfl rfl

theorem reached_manned [Inhabited ω] {bound : Bound} {s : State κ ω σ}
    (path : Path (Step bound) (start κ ω σ bound) trace s) : Manned s := by
  induction path with
  | nil => exact ⟨by simp [start],by simp [start]⟩
  | snoc prior step ih => exact step_manned ih (reached_balanced (prior.reached rfl)) step

-- While a job waits in the channel some worker can go on.
theorem Manned.goes [Inhabited ω] (bound : Bound) {s : State κ ω σ} (manned : Manned s)
    (waits : s.channel ≠ []) (result : Outcome σ) :
    ∃ w next, Step bound s ((s.worker w).turn w result) next := by
  obtain ⟨job,rest,queue⟩ := List.exists_cons_of_ne_nil waits
  have receives {w : ω} (here : s.worker w = .receiving) :
      ∃ next, Step bound s ((s.worker w).turn w result) next := by
    simp [here,Worker.turn,Step,advance,workStep,queue]
  have carries {w : ω} {held : InferenceJob} (here : (s.worker w).job = some held) :
      ∃ next, Step bound s ((s.worker w).turn w result) next := by
    obtain ⟨next,step,_⟩ := turn_taken bound here result
    exact ⟨next,step⟩
  have arrives {w : ω} {taken : Option InferenceJob} (here : s.worker w = .received taken) :
      ∃ next, Step bound s ((s.worker w).turn w result) next := by
    cases taken with
    | none => exact absurd (manned.gone w (.inr here)).1 waits
    | some held => exact carries (by rw [here]; rfl)
  cases lock : s.receiver with
  | some w =>
      rcases manned.owner w lock with here | ⟨taken,here⟩
      · exact ⟨w,receives here⟩
      · exact ⟨w,arrives here⟩
  | none =>
      refine ⟨default,?_⟩
      cases here : s.worker default with
      | waiting => simp [Worker.turn,Step,advance,workStep,here,lock]
      | receiving => exact here ▸ receives here
      | received taken => exact here ▸ arrives here
      | returned => exact absurd (manned.gone default (.inl here)).1 waits
      | _ => exact here ▸ carries (by rw [here]; rfl)

-- The classifier is called on the job with this id.
def forwards (id : Nat) (row : State κ ω σ × Action κ ω σ) : Bool :=
  match row.2 with
  | .forwarded w _ => (row.1.worker w).job.any fun job => job.id = id
  | _ => false

theorem step_forwards {bound : Bound} {s next : State κ ω σ} (step : Step bound s action next) (id : Nat) :
    sumBy (classifications id) next.log =
      sumBy (classifications id) s.log + if forwards id (s,action) = true then 1 else 0 := by
  cases step_change step with
  | classified place =>
      simp [works,sumBy,classifications,about,forwards,place,Worker.job,Nat.add_comm]
  | dropped _ | declined _ | responded _ => simp [works,sumBy,classifications,forwards]
  | _ => simp [works,asks,forwards]

theorem path_forwards {bound : Bound} {s : State κ ω σ}
    (path : Path (Step bound) (start κ ω σ bound) trace s) (id : Nat) :
    trace.countP (forwards id) = (ending s id).classified := by
  induction path with
  | nil => rfl
  | snoc _ step ih =>
      rw [List.countP_append,List.countP_singleton,ih]
      exact (step_forwards step id).symm

theorem jobs_end_once [Inhabited ω] {bound : Bound} {s : State κ ω σ}
    (path : Path (Step bound) (start κ ω σ bound) trace s) :
    s.admitted = s.dequeued ++ s.channel ∧ (s.dequeued.map InferenceJob.id).Nodup ∧
    (∀ id, trace.countP (forwards id) = (ending s id).classified ∧
      (ending s id).classified + (ending s id).declined + (ending s id).dropped ≤ 1) ∧
    (∀ job ∈ s.dequeued, (∀ w, (s.worker w).unsettled job.id = 0) → Ended (ending s job.id)) ∧
    (∀ w job, s.worker w = .classifying job → ReadInTime trace w job ∧ FoundOpen trace w job) ∧
    (∀ job result, .classified job result ∈ s.log →
      ∃ w, ReadInTime trace w job ∧ FoundOpen trace w job ∧ Forwarded trace w job result) ∧
    (∀ job result, .responded job result ∈ s.log → .classified job result ∈ s.log) ∧
    (∀ job, .declined job ∈ s.log → ∃ w, ReadLate trace w job ∧ FoundOpen trace w job) ∧
    (∀ job, .dropped job ∈ s.log → ∃ w, FoundClosed trace w job) ∧
    ((∀ w, (s.worker w).unrecorded = 0) →
      s.queueSamples + s.queuedExpired + s.queuedCancelled = s.dequeued.length) ∧
    (∀ w job result, (s.worker w).job = some job →
      ∃ next, Step bound s ((s.worker w).turn w result) next ∧ (next.worker w).left < (s.worker w).left) ∧
    (s.channel ≠ [] → ∀ result, ∃ w next, Step bound s ((s.worker w).turn w result) next) := by
  have reached : Run bound s := path.reached rfl
  have ordered := reached_ordered reached
  have justified := path_justified path
  refine ⟨ordered.queue,ordered.distinct,fun id => ⟨path_forwards path id,decided_once reached id⟩,
    fun job member settled => dequeued_ending reached member settled,?_,
    fun job result member => justified.events _ member,
    fun job result member => justified.events _ member,
    fun job member => justified.events _ member,fun job member => justified.events _ member,?_,
    fun w job result holds => turn_taken bound holds result,
    fun waits result => (reached_manned path).goes bound waits result⟩
  · intro w job place
    have here := justified.workers w
    rw [place] at here
    exact here
  · intro quiet
    have recorded := reached_recorded reached
    rw [Recorded,tally_zero _ _ quiet] at recorded
    exact recorded

-- Three jobs and two workers: the first is classified while the second's deadline
-- passes and the third's caller goes away.
def threeBound : Bound := ⟨3,by decide,by decide⟩

def admits (deadline : Option Nat) : List (Action Unit Bool Nat) :=
  [.enqueue () anyInput deadline,.call (),.call (),.call (),.call ()]

def servedActions : List (Action Unit Bool Nat) :=
  admits none ++ admits (some 5) ++ admits none ++
    [.work false,.work false,.work false,.work true,.work false,.work false,.work true,.work false,
      .tick 5,.cancel 2,.work true,.work true,.work true,.work true,.work true,.work true,.work true,
      .forwarded false (.error .notReady),.work true,.work true,.work false,.work false,.work true,
      .work true,.work true,.work false,.work true,.work true,.work true]

def threeRun (actions : List (Action Unit Bool Nat)) :
    List (State Unit Bool Nat × Action Unit Bool Nat) × State Unit Bool Nat :=
  (follow (advance threeBound) (start Unit Bool Nat threeBound) actions).getD
    ([],start Unit Bool Nat threeBound)

def servedRun : List (State Unit Bool Nat × Action Unit Bool Nat) × State Unit Bool Nat :=
  threeRun servedActions

-- Its first job is in a worker's hands and the other two wait.
def heldRun : List (State Unit Bool Nat × Action Unit Bool Nat) × State Unit Bool Nat :=
  threeRun (servedActions.take 17)

def servedJob (id : Nat) (deadline : Option Nat) : InferenceJob := ⟨id,anyInput,0,deadline⟩

theorem jobs_end_once_served :
    servedRun.2.dequeued = [servedJob 0 none,servedJob 1 (some 5),servedJob 2 none] ∧
    (∀ job ∈ servedRun.2.dequeued, Ended (ending servedRun.2 job.id)) ∧
    (∃ w, ReadInTime servedRun.1 w (servedJob 0 none) ∧ FoundOpen servedRun.1 w (servedJob 0 none) ∧
      Forwarded servedRun.1 w (servedJob 0 none) (.error .notReady)) ∧
    (∃ w, ReadLate servedRun.1 w (servedJob 1 (some 5)) ∧ FoundOpen servedRun.1 w (servedJob 1 (some 5))) ∧
    (∃ w, FoundClosed servedRun.1 w (servedJob 2 none)) ∧
    servedRun.2.queueSamples + servedRun.2.queuedExpired + servedRun.2.queuedCancelled = 3 ∧
    (∃ next, Step threeBound heldRun.2 (.work false) next ∧ (next.worker false).left < 8) ∧
    ∃ w next, Step threeBound heldRun.2
      ((heldRun.2.worker w).turn w (.error .notReady)) next := by
  have path : Path (Step threeBound) (start Unit Bool Nat threeBound) servedRun.1 servedRun.2 :=
    follow_path (show follow (advance threeBound) (start Unit Bool Nat threeBound) servedActions =
      some servedRun from rfl)
  have held : Path (Step threeBound) (start Unit Bool Nat threeBound) heldRun.1 heldRun.2 :=
    follow_path (show follow (advance threeBound) (start Unit Bool Nat threeBound)
      (servedActions.take 17) = some heldRun from rfl)
  have log : servedRun.2.log = [.dropped (servedJob 2 none),
    .responded (servedJob 0 none) (.error .notReady),.classified (servedJob 0 none) (.error .notReady),
    .declined (servedJob 1 (some 5))] := rfl
  have done : ∀ id w, (servedRun.2.worker w).unsettled id = 0 := by
    rintro id (_ | _) <;> rfl
  obtain ⟨_,_,_,ended,_,classified,_,declined,dropped,counted,_⟩ := jobs_end_once path
  refine ⟨rfl,fun job member => ended job member (done job.id),classified _ _ (by simp [log]),
    declined _ (by simp [log]),dropped _ (by simp [log]),counted ?_,?_,?_⟩
  · rintro (_ | _) <;> rfl
  · obtain ⟨_,_,_,_,_,_,_,_,_,_,goes,_⟩ := jobs_end_once held
    exact goes false (servedJob 0 none) (.error .notReady) rfl
  · obtain ⟨_,_,_,_,_,_,_,_,_,_,_,goes⟩ := jobs_end_once held
    exact goes (List.cons_ne_nil (servedJob 1 (some 5)) [servedJob 2 none]) (.error .notReady)

end SemanticClassifier.Handoff
