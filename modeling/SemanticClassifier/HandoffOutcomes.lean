import SemanticClassifier.HandoffAdmission

namespace SemanticClassifier.Handoff
open Classify Interleaving Tally

-- What one move of a worker adds to the record of the run.
structure Deed (σ : Type) where
  taken : List InferenceJob
  logged : List (Event σ)
  samples : Nat
  expired : Nat
  cancelled : Nat

def Deed.none (σ : Type) : Deed σ := ⟨[],[],0,0,0⟩

def Deed.logs (event : Event σ) : Deed σ := ⟨[],[event],0,0,0⟩

-- A worker's loop by itself, without the locks and queues it runs on: `now` and
-- `closed` are what it would find, `result` what the core would hand it.
inductive Move (now : Nat) (closed : List Nat) (result : Outcome σ) :
    Worker σ → Deed σ → Worker σ → Prop where
  | lock : Move now closed result .waiting (.none σ) .receiving
  | receive (job : InferenceJob) :
      Move now closed result .receiving ⟨[job],[],0,0,0⟩ (.received (some job))
  | disconnect : Move now closed result .receiving (.none σ) (.received none)
  | unlock : Move now closed result (.received (some job)) (.none σ) (.reading job)
  | return_ : Move now closed result (.received none) (.none σ) .returned
  | read : Move now closed result (.reading job) (.none σ)
      (.checking job (job.deadline.any fun deadline => deadline ≤ now))
  | findClosed : job.id ∈ closed →
      Move now closed result (.checking job expired) (.none σ) (.abandoning job expired)
  | findExpired : job.id ∉ closed →
      Move now closed result (.checking job true) (.none σ) (.expiring job)
  | findOpen : job.id ∉ closed →
      Move now closed result (.checking job false) (.none σ) (.sampling job)
  | abandon : Move now closed result (.abandoning job expired) (.none σ) (.recording job expired)
  | recordExpired : Move now closed result (.recording job true) ⟨[],[],0,1,0⟩ (.dropping job)
  | recordCancelled : Move now closed result (.recording job false) ⟨[],[],0,0,1⟩ (.dropping job)
  | drop : Move now closed result (.dropping job) (.logs (.dropped job)) .waiting
  | expire : Move now closed result (.expiring job) (.none σ) (.recordingExpired job)
  | record : Move now closed result (.recordingExpired job) ⟨[],[],0,1,0⟩ (.declining job)
  | decline : Move now closed result (.declining job) (.logs (.declined job)) (.releasing job)
  | sample : Move now closed result (.sampling job) ⟨[],[],1,0,0⟩ (.classifying job)
  | classify : Move now closed result (.classifying job) (.logs (.classified job result))
      (.responding job result)
  | respond : Move now closed result (.responding job answer) (.logs (.responded job answer))
      (.finishing job)
  | finish : Move now closed result (.finishing job) (.none σ) (.releasing job)
  | release : Move now closed result (.releasing job) (.none σ) .waiting

variable {κ ω σ : Type} [DecidableEq κ] [DecidableEq ω] [Fintype κ] [Fintype ω]

-- `next` is `s` after worker `w` has moved to `after` and done `deed`.
structure Did (s next : State κ ω σ) (w : ω) (deed : Deed σ) (after : Worker σ) : Prop where
  worker : next.worker = Function.update s.worker w after
  dequeued : next.dequeued = s.dequeued ++ deed.taken
  log : next.log = deed.logged ++ s.log
  samples : next.queueSamples = s.queueSamples + deed.samples
  expired : next.queuedExpired = s.queuedExpired + deed.expired
  cancelled : next.queuedCancelled = s.queuedCancelled + deed.cancelled

-- The step that takes a worker on from here.
def Worker.turn (w : ω) (result : Outcome σ) : Worker σ → Action κ ω σ
  | .classifying _ => .forwarded w result
  | _ => .work w

-- No worker moves and nothing is recorded.
structure Aside (s next : State κ ω σ) : Prop where
  worker : next.worker = s.worker
  dequeued : next.dequeued = s.dequeued
  log : next.log = s.log
  samples : next.queueSamples = s.queueSamples
  expired : next.queuedExpired = s.queuedExpired
  cancelled : next.queuedCancelled = s.queuedCancelled

-- A step in which worker `w` moved.
def Moved (s next : State κ ω σ) (action : Action κ ω σ) : Prop :=
  ∃ w result deed after, action = (s.worker w).turn w result ∧
    Move s.clock s.closed result (s.worker w) deed after ∧ Did s next w deed after

omit [DecidableEq κ] [Fintype κ] [Fintype ω] in
theorem moved {s next : State κ ω σ} {w : ω} {deed : Deed σ} {place after : Worker σ}
    (here : s.worker w = place) (turn : place.turn w (.error .notReady) = (.work w : Action κ ω σ))
    (move : Move s.clock s.closed (.error .notReady) place deed after) (did : Did s next w deed after) :
    Moved s next (.work w) := by
  subst here
  exact ⟨w,.error .notReady,deed,after,turn.symm,move,did⟩

omit [DecidableEq κ] [Fintype κ] [Fintype ω] in
theorem Did.silent {s middle : State κ ω σ} (aside : Aside s middle) (w : ω) (after : Worker σ) :
    Did s (works middle w after) w (.none σ) after where
  worker := by rw [works,aside.worker]
  dequeued := aside.dequeued.trans (List.append_nil _).symm
  log := aside.log
  samples := aside.samples
  expired := aside.expired
  cancelled := aside.cancelled

omit [DecidableEq κ] [Fintype κ] [Fintype ω] in
theorem Did.logged {s middle : State κ ω σ} {event : Event σ} (aside : Aside s {middle with log := s.log})
    (logged : middle.log = event :: s.log) (w : ω) (after : Worker σ) :
    Did s (works middle w after) w (.logs event) after where
  worker := by rw [works,← aside.worker]
  dequeued := aside.dequeued.trans (List.append_nil _).symm
  log := logged
  samples := aside.samples
  expired := aside.expired
  cancelled := aside.cancelled

theorem step_moves {bound : Bound} {s next : State κ ω σ} (step : Step bound s action next) :
    Aside s next ∨ Moved s next action := by
  cases step_change step with
  | permitted _ _ _ | refused _ _ _ | counted _ | raised _ | stamped _ | sent _ _ _ _ | bounced _ _
  | retracted _ | cancelled _ | ticked | shut _ => exact .inl (by constructor <;> simp only [asks])
  | @received w job rest place _ =>
      exact .inr (moved place rfl (.receive job) (by constructor <;> simp [works]))
  | locked place _ => exact .inr (moved place rfl .lock (.silent (by constructor <;> rfl) _ _))
  | disconnected place _ _ =>
      exact .inr (moved place rfl .disconnect (.silent (by constructor <;> rfl) _ _))
  | unlocked place => exact .inr (moved place rfl .unlock (.silent (by constructor <;> rfl) _ _))
  | ended place => exact .inr (moved place rfl .return_ (.silent (by constructor <;> rfl) _ _))
  | read place => exact .inr (moved place rfl .read (.silent (by constructor <;> rfl) _ _))
  | foundClosed place gone =>
      exact .inr (moved place rfl (.findClosed gone) (.silent (by constructor <;> rfl) _ _))
  | foundExpired place open_ =>
      exact .inr (moved place rfl (.findExpired open_) (.silent (by constructor <;> rfl) _ _))
  | foundOpen place open_ =>
      exact .inr (moved place rfl (.findOpen open_) (.silent (by constructor <;> rfl) _ _))
  | abandoned place => exact .inr (moved place rfl .abandon (.silent (by constructor <;> rfl) _ _))
  | recordedExpired place =>
      exact .inr (moved place rfl .recordExpired (by constructor <;> simp [works]))
  | recordedCancelled place =>
      exact .inr (moved place rfl .recordCancelled (by constructor <;> simp [works]))
  | dropped place => exact .inr (moved place rfl .drop (.logged (by constructor <;> rfl) rfl _ _))
  | expired place => exact .inr (moved place rfl .expire (.silent (by constructor <;> rfl) _ _))
  | recorded place => exact .inr (moved place rfl .record (by constructor <;> simp [works]))
  | declined place => exact .inr (moved place rfl .decline (.logged (by constructor <;> rfl) rfl _ _))
  | sampled place => exact .inr (moved place rfl .sample (by constructor <;> simp [works]))
  | @classified w job result place =>
      refine .inr ⟨w,result,_,_,?_,place ▸ .classify,.logged (by constructor <;> rfl) rfl _ _⟩
      rw [place]
      rfl
  | responded place => exact .inr (moved place rfl .respond (.logged (by constructor <;> rfl) rfl _ _))
  | finished place => exact .inr (moved place rfl .finish (.silent (by constructor <;> rfl) _ _))
  | released place => exact .inr (moved place rfl .release (.silent (by constructor <;> rfl) _ _))

def sumBy {α : Type} (gain : α → Nat) : List α → Nat
  | [] => 0
  | item :: rest => gain item + sumBy gain rest

theorem sumBy_append {α : Type} (gain : α → Nat) (front back : List α) :
    sumBy gain (front ++ back) = sumBy gain front + sumBy gain back := by
  induction front with
  | nil => exact (Nat.zero_add _).symm
  | cons item rest ih => simp only [List.cons_append,sumBy,ih,Nat.add_assoc]

theorem sumBy_add {α : Type} (one two : α → Nat) (items : List α) :
    sumBy (fun item => one item + two item) items = sumBy one items + sumBy two items := by
  induction items with
  | nil => rfl
  | cons item rest ih =>
      simp only [sumBy,ih]
      omega

-- A quantity every move conserves: what the taken jobs bring in is what the
-- events have paid out and what the workers still hold.
structure Conserved (due : InferenceJob → Nat) (paid : Event σ → Nat) (held : Worker σ → Nat) : Prop where
  move : ∀ now closed result place deed after, Move now closed result place deed after →
    held place + sumBy due deed.taken = sumBy paid deed.logged + held after
  waiting : held .waiting = 0

def Accounted (due : InferenceJob → Nat) (paid : Event σ → Nat) (held : Worker σ → Nat)
    (s : State κ ω σ) : Prop :=
  sumBy due s.dequeued = sumBy paid s.log + tally held s.worker

section Account
variable {due : InferenceJob → Nat} {paid : Event σ → Nat} {held : Worker σ → Nat}

theorem Conserved.step {bound : Bound} {s next : State κ ω σ} (conserved : Conserved due paid held)
    (valid : Accounted due paid held s) (step : Step bound s action next) :
    Accounted due paid held next := by
  unfold Accounted at valid ⊢
  cases step_moves step with
  | inl aside => rw [aside.dequeued,aside.log,aside.worker,valid]
  | inr moves =>
      obtain ⟨w,result,deed,after,_,move,did⟩ := moves
      have traded := tally_update held s.worker w after
      have kept := conserved.move _ _ _ _ _ _ move
      rw [did.dequeued,did.log,did.worker,sumBy_append,sumBy_append]
      omega

theorem Conserved.reached {bound : Bound} {s : State κ ω σ} (conserved : Conserved due paid held)
    (reached : Run bound s) : Accounted due paid held s := by
  apply reached.preserves
  · intro origin fresh
    have idle := tally_zero held (fun _ : ω => (.waiting : Worker σ)) fun _ => conserved.waiting
    rw [fresh]
    simp [Accounted,start,sumBy,idle]
  · intro before action after valid step
    exact conserved.step valid step

end Account

-- One if it is about the job with this id.
def about (id : Nat) (job : InferenceJob) : Nat := if job.id = id then 1 else 0

def classifications (id : Nat) : Event σ → Nat
  | .classified job _ => about id job
  | _ => 0

def responses (id : Nat) : Event σ → Nat
  | .responded job _ => about id job
  | _ => 0

def declines (id : Nat) : Event σ → Nat
  | .declined job => about id job
  | _ => 0

def drops (id : Nat) : Event σ → Nat
  | .dropped job => about id job
  | _ => 0

-- The worker holds the job and has neither classified, declined nor dropped it.
def Worker.undecided (id : Nat) : Worker σ → Nat
  | .received (some job) | .reading job | .checking job _ | .abandoning job _ | .recording job _
  | .dropping job | .expiring job | .recordingExpired job | .declining job | .sampling job
  | .classifying job => about id job
  | _ => 0

-- The worker holds the job and has neither answered nor dropped it.
def Worker.unsettled (id : Nat) : Worker σ → Nat
  | .responding job _ => about id job
  | place => place.undecided id

theorem decisions_conserved (id : Nat) : Conserved (about id)
    (fun event : Event σ => classifications id event + declines id event + drops id event)
    (Worker.undecided id) where
  move := by
    intro now closed result place deed after move
    cases move <;>
      simp [sumBy,Deed.none,Deed.logs,classifications,declines,drops,Worker.undecided]
  waiting := rfl

theorem settlements_conserved (id : Nat) : Conserved (about id)
    (fun event : Event σ => responses id event + declines id event + drops id event)
    (Worker.unsettled id) where
  move := by
    intro now closed result place deed after move
    cases move <;>
      simp [sumBy,Deed.none,Deed.logs,responses,declines,drops,Worker.unsettled,Worker.undecided]
  waiting := rfl

-- Between the dequeue of a job and the counter that records it.
def Worker.unrecorded : Worker σ → Nat
  | .received (some _) | .reading _ | .checking .. | .abandoning .. | .recording .. | .expiring _
  | .recordingExpired _ | .sampling _ => 1
  | _ => 0

def Recorded (s : State κ ω σ) : Prop :=
  s.queueSamples + s.queuedExpired + s.queuedCancelled + tally Worker.unrecorded s.worker =
    s.dequeued.length

theorem move_recorded {result : Outcome σ} {place after : Worker σ} {deed : Deed σ}
    (move : Move now closed result place deed after) :
    place.unrecorded + deed.taken.length =
      deed.samples + deed.expired + deed.cancelled + after.unrecorded := by
  cases move <;> simp [Deed.none,Deed.logs,Worker.unrecorded]

theorem step_recorded {bound : Bound} {s next : State κ ω σ} (valid : Recorded s)
    (step : Step bound s action next) : Recorded next := by
  unfold Recorded at valid ⊢
  cases step_moves step with
  | inl aside =>
      rw [aside.samples,aside.expired,aside.cancelled,aside.worker,aside.dequeued,valid]
  | inr moves =>
      obtain ⟨w,result,deed,after,_,move,did⟩ := moves
      have traded := tally_update Worker.unrecorded s.worker w after
      have kept := move_recorded move
      rw [did.samples,did.expired,did.cancelled,did.worker,did.dequeued,List.length_append]
      omega

theorem reached_recorded {bound : Bound} {s : State κ ω σ} (reached : Run bound s) : Recorded s := by
  apply reached.preserves
  · intro origin fresh
    have idle := tally_zero Worker.unrecorded (fun _ : ω => (.waiting : Worker σ)) fun _ => rfl
    rw [fresh]
    simp [Recorded,start,idle]
  · intro before action after valid step
    exact step_recorded valid step

-- The channel is a queue: what was admitted left it in order or is in it still.
structure Ordered (s : State κ ω σ) : Prop where
  queue : s.admitted = s.dequeued ++ s.channel
  ids : s.admitted.map InferenceJob.id = List.range s.admitted.length

theorem step_ordered {bound : Bound} {s next : State κ ω σ} (valid : Ordered s)
    (step : Step bound s action next) : Ordered next := by
  cases step_change step with
  | @sent c input queuedAt deadline job _ named _ _ =>
      refine ⟨?_,?_⟩
      · simp only [asks]
        rw [valid.queue,List.append_assoc]
      · simp only [asks]
        rw [List.map_append,valid.ids,List.length_append,List.length_singleton,List.range_succ,named]
        rfl
  | @received w job rest _ queue =>
      refine ⟨?_,valid.ids⟩
      simp only [works]
      rw [valid.queue,queue,List.append_assoc]
      rfl
  | _ => exact ⟨valid.queue,valid.ids⟩

theorem reached_ordered {bound : Bound} {s : State κ ω σ} (reached : Run bound s) : Ordered s := by
  apply reached.preserves
  · intro origin fresh
    rw [fresh]
    exact ⟨rfl,rfl⟩
  · intro before action after valid step
    exact step_ordered valid step

omit [DecidableEq κ] [DecidableEq ω] [Fintype κ] [Fintype ω] in
theorem Ordered.distinct {s : State κ ω σ} (ordered : Ordered s) :
    (s.dequeued.map InferenceJob.id).Nodup := by
  have all : (s.admitted.map InferenceJob.id).Nodup := ordered.ids ▸ List.nodup_range
  rw [ordered.queue,List.map_append] at all
  exact all.of_append_left

theorem sumBy_about (id : Nat) (jobs : List InferenceJob) :
    sumBy (about id) jobs = (jobs.map InferenceJob.id).count id := by
  induction jobs with
  | nil => rfl
  | cons first rest ih =>
      have split : sumBy (about id) (first :: rest) = about id first + sumBy (about id) rest := rfl
      rw [split,ih,List.map_cons,List.count_cons,Nat.add_comm]
      simp [about]

-- How often a job was classified, answered, declined and dropped.
structure Ending where
  classified : Nat
  responded : Nat
  declined : Nat
  dropped : Nat
  deriving DecidableEq

def ending (s : State κ ω σ) (id : Nat) : Ending where
  classified := sumBy (classifications id) s.log
  responded := sumBy (responses id) s.log
  declined := sumBy (declines id) s.log
  dropped := sumBy (drops id) s.log

-- Classified once and answered with the result, declined as expired, or dropped.
def Ended (ending : Ending) : Prop :=
  ending = ⟨1,1,0,0⟩ ∨ ending = ⟨0,0,1,0⟩ ∨ ending = ⟨0,0,0,1⟩

theorem undecided_le_unsettled (id : Nat) (place : Worker σ) :
    place.undecided id ≤ place.unsettled id := by
  cases place <;> simp [Worker.undecided,Worker.unsettled]

theorem decisions_reached {bound : Bound} {s : State κ ω σ} (reached : Run bound s) (id : Nat) :
    (s.dequeued.map InferenceJob.id).count id =
      (ending s id).classified + (ending s id).declined + (ending s id).dropped +
        tally (Worker.undecided id) s.worker := by
  have account := (decisions_conserved id).reached reached
  rw [Accounted,sumBy_about,sumBy_add,sumBy_add] at account
  exact account

theorem settlements_reached {bound : Bound} {s : State κ ω σ} (reached : Run bound s) (id : Nat) :
    (s.dequeued.map InferenceJob.id).count id =
      (ending s id).responded + (ending s id).declined + (ending s id).dropped +
        tally (Worker.unsettled id) s.worker := by
  have account := (settlements_conserved id).reached reached
  rw [Accounted,sumBy_about,sumBy_add,sumBy_add] at account
  exact account

theorem decided_once {bound : Bound} {s : State κ ω σ} (reached : Run bound s) (id : Nat) :
    (ending s id).classified + (ending s id).declined + (ending s id).dropped ≤ 1 := by
  have once := List.nodup_iff_count_le_one.mp (reached_ordered reached).distinct id
  have decisions := decisions_reached reached id
  omega

-- Once no worker has the job in hand any more, it has ended in one way.
theorem dequeued_ending {bound : Bound} {s : State κ ω σ} (reached : Run bound s)
    (member : job ∈ s.dequeued) (settled : ∀ w, (s.worker w).unsettled job.id = 0) :
    Ended (ending s job.id) := by
  have one := List.count_eq_one_of_mem (reached_ordered reached).distinct (List.mem_map_of_mem member)
  have decisions := decisions_reached reached job.id
  have settlements := settlements_reached reached job.id
  rw [one,tally_zero _ _ fun w => Nat.le_zero.mp (settled w ▸ undecided_le_unsettled job.id _)] at decisions
  rw [one,tally_zero _ _ settled] at settlements
  cases counts : ending s job.id with
  | mk classified responded declined dropped =>
      simp only [counts] at decisions settlements
      simp only [Ended,Ending.mk.injEq]
      omega

end SemanticClassifier.Handoff
