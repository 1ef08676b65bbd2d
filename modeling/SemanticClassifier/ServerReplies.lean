import SemanticClassifier.ServerParts

namespace SemanticClassifier.Handoff
open Classify Interleaving Tally

variable {κ ω σ : Type} [DecidableEq κ] [DecidableEq ω] [Fintype κ] [Fintype ω]
variable {bound : Bound} {s next : State κ ω σ}

-- The input and the deadline that a thread is admitting, or has had admitted.
def Caller.Carries (admitted : List InferenceJob) (input : ClassificationInput) (deadline : Option Nat) :
    Caller → Prop
  | .counting also due | .raising _ also due | .stamping also due | .sending also _ due =>
    also = input ∧ due = deadline
  | .accepted id => ∃ job, admitted[id]? = some job ∧ job.input = input ∧ job.deadline = deadline
  | .idle | .retracting | .rejected => False

theorem callers_stay (step : Step bound s action next)
    (unasked : ∀ c input deadline, action ≠ .enqueue c input deadline) (uncalled : ∀ c, action ≠ .call c) :
    next.caller = s.caller ∧ next.admitted = s.admitted := by
  cases step_change step with
  | permitted _ _ _ | refused _ _ _ => exact absurd rfl (unasked _ _ _)
  | counted _ | raised _ | stamped _ | sent _ _ _ _ | bounced _ _ | retracted _ => exact absurd rfl (uncalled _)
  | _ => exact ⟨rfl,rfl⟩

theorem enqueue_change (step : Step bound s (.enqueue c input deadline) next) :
    (next.caller = Function.update s.caller c (.counting input deadline) ∨
      next.caller = Function.update s.caller c .rejected ∧ s.available = 0) ∧ next.admitted = s.admitted := by
  cases step_change step with
  | permitted _ _ _ => exact ⟨.inl rfl,rfl⟩
  | refused _ _ full => exact ⟨.inr ⟨rfl,full⟩,rfl⟩

theorem step_grows (step : Step bound s action next) :
    s.admitted <+: next.admitted ∧ ∀ event ∈ s.log, event ∈ next.log := by
  refine ⟨?_,?_⟩
  · cases step_change step with
    | sent _ _ _ _ => exact List.prefix_append _ _
    | _ => exact List.prefix_rfl
  · rcases step_moves step with aside | ⟨w,result,deed,after,_,_,did⟩
    · rw [aside.log]
      exact fun _ member => member
    · rw [did.log]
      exact fun _ member => List.mem_append_right _ member

theorem step_cancels (step : Step bound s action next) :
    ∀ id ∈ next.closed, id ∈ s.closed ∨ action = .cancel id := by
  cases step_change step with
  | cancelled _ =>
      intro id member
      rcases List.mem_cons.mp member with rfl | old
      · exact .inr rfl
      · exact .inl old
  | _ => exact fun id member => .inl member

-- A step inside `try_enqueue_with_deadline`, where the channel has room for all
-- permits: the id given out is the next one.
theorem call_change [Inhabited ω] (balanced : Balanced bound s) (step : Step bound s (.call c) next) :
    ∃ after, next.caller = Function.update s.caller c after ∧ (∀ id, s.caller c ≠ .accepted id) ∧
      ((next.admitted = s.admitted ∧ (∀ id, after ≠ .accepted id) ∧
        ∀ input deadline, (s.caller c).Carries s.admitted input deadline →
          after.Carries s.admitted input deadline) ∨
      ∃ job, after = .accepted s.admitted.length ∧ next.admitted = s.admitted ++ [job] ∧
        ∀ input deadline, (s.caller c).Carries s.admitted input deadline →
          job.input = input ∧ job.deadline = deadline) := by
  have calm := (step_balanced balanced step).calm c
  cases step_change step with
  | counted place | raised place | stamped place =>
      refine ⟨_,rfl,by simp [place],.inl ⟨rfl,by simp,fun input deadline carries => ?_⟩⟩
      rw [place] at carries
      exact carries
  | @sent c input queuedAt deadline job place named _ _ =>
      refine ⟨_,rfl,by simp [place],.inr ⟨job,rfl,rfl,fun also due carries => ?_⟩⟩
      rw [place] at carries
      rw [named]
      exact carries
  | bounced _ _ => simp [asks] at calm
  | retracted place => exact absurd place (balanced.calm c)

theorem forwarded_logs (step : Step bound s (.forwarded w result) next) (place : s.worker w = .classifying job) :
    .classified job result ∈ next.log := by
  cases step_change step with
  | classified also =>
      rw [place] at also
      cases also
      exact List.mem_cons_self

theorem mem_sumBy {α : Type} (gain : α → Nat) {items : List α} {item : α} (member : item ∈ items) :
    gain item ≤ sumBy gain items := by
  induction items with
  | nil => cases member
  | cons first rest ih =>
      have split : sumBy gain (first :: rest) = gain first + sumBy gain rest := rfl
      rcases List.mem_cons.mp member with rfl | later
      · omega
      · have below := ih later
        omega

theorem sumBy_pos {α : Type} {gain : α → Nat} {items : List α} (pos : 0 < sumBy gain items) :
    ∃ item ∈ items, 0 < gain item := by
  induction items with
  | nil => exact absurd pos (Nat.lt_irrefl 0)
  | cons first rest ih =>
      have split : sumBy gain (first :: rest) = gain first + sumBy gain rest := rfl
      by_cases here : 0 < gain first
      · exact ⟨first,List.mem_cons_self,here⟩
      · obtain ⟨item,member,gains⟩ := ih (by omega)
        exact ⟨item,List.mem_cons_of_mem _ member,gains⟩

theorem about_pos {job : InferenceJob} {id : Nat} (pos : 0 < about id job) : job.id = id := by
  unfold about at pos
  split at pos
  · assumption
  · exact absurd pos (Nat.lt_irrefl 0)

theorem declined_unclassified (reached : Run bound s) (declined : .declined job ∈ s.log) (result : Outcome σ) :
    .classified job result ∉ s.log := by
  intro classified
  have once := decided_once reached job.id
  have one : about job.id job ≤ (ending s job.id).declined :=
    mem_sumBy (declines job.id) declined
  have two : about job.id job ≤ (ending s job.id).classified :=
    mem_sumBy (classifications job.id) classified
  have mine : about job.id job = 1 := if_pos rfl
  omega

end SemanticClassifier.Handoff

namespace SemanticClassifier.Server
open Classify Interleaving Tally

variable {κ ω φ σ : Type} [DecidableEq κ] [DecidableEq ω] [Fintype κ] [Fintype ω]
variable (server : ClassifyServiceImpl φ σ)

-- A task was told about one of these jobs, or dropped its receiver.
def tells (ids : Nat → Bool) (row : State κ ω φ σ × Action κ ω φ σ) : Bool :=
  match row.2 with
  | .handle c => match row.1.handler c with
    | .awaiting _ id => ids id
    | _ => false
  | _ => false

def leaves (ids : Nat → Bool) (row : State κ ω φ σ × Action κ ω φ σ) : Bool :=
  match row.2 with
  | .disconnect c => match row.1.handler c with
    | .awaiting _ id => ids id
    | _ => false
  | _ => false

def places (s : State κ ω φ σ) (c : κ) : Handler φ × Handoff.Caller := (s.handler c,s.executor.caller c)

def holding (ids : Nat → Bool) : Handler φ × Handoff.Caller → Nat
  | (.awaiting _ id,_) | (.admitting _,.accepted id) => (ids id).toNat
  | _ => 0

def issued (executor : Handoff.State κ ω σ) (ids : Nat → Bool) : Nat :=
  (List.range executor.admitted.length).countP ids

def only (id : Nat) : Nat → Bool := fun also => also == id

-- Every job given out is held by one task, or was told or left once.
def HeldOnce (trace : List (State κ ω φ σ × Action κ ω φ σ)) (s : State κ ω φ σ) : Prop :=
  ∀ ids, trace.countP (tells ids) + trace.countP (leaves ids) + tally (holding ids) (places s) =
    issued s.executor ids

variable {server}

omit [DecidableEq ω] [Fintype κ] [Fintype ω] in
@[simp] theorem stands_executor (s : State κ ω φ σ) (c : κ) (place : Handler φ) :
    (stands s c place).executor = s.executor := rfl

omit [DecidableEq κ] [DecidableEq ω] [Fintype κ] [Fintype ω] in
theorem issued_same {executor : Handoff.State κ ω σ} (s : State κ ω φ σ)
    (admitted : executor.admitted = s.executor.admitted) (ids : Nat → Bool) :
    issued executor ids = issued s.executor ids := by
  rw [issued,issued,admitted]

omit [DecidableEq ω] [Fintype κ] [Fintype ω] in
theorem places_stands (s : State κ ω φ σ) (c : κ) (place : Handler φ) :
    places (stands s c place) = Function.update (places s) c (place,s.executor.caller c) := by
  funext d
  by_cases same : d = c
  · subst same
    simp [places,stands]
  · simp [places,stands,same]

omit [DecidableEq ω] [Fintype κ] [Fintype ω] in
theorem places_passed (s : State κ ω φ σ) {executor : Handoff.State κ ω σ} {c : κ} {place : Handler φ}
    {after : Handoff.Caller} (caller : executor.caller = Function.update s.executor.caller c after) :
    places (stands {s with executor := executor} c place) = Function.update (places s) c (place,after) := by
  funext d
  by_cases same : d = c
  · subst same
    simp [places,stands,caller]
  · simp [places,stands,caller,same]

-- A task moves and the books balance.
omit [DecidableEq ω] [Fintype ω] in
theorem moved_held {s next : State κ ω φ σ} {c : κ} {place : Handler φ × Handoff.Caller} {ids : Nat → Bool} {gain : Nat}
    (moved : places next = Function.update (places s) c place)
    (balance : gain + holding ids place + issued s.executor ids = holding ids (places s c) + issued next.executor ids) :
    gain + tally (holding ids) (places next) + issued s.executor ids =
      tally (holding ids) (places s) + issued next.executor ids := by
  have traded := tally_update (holding ids) (places s) c place
  rw [moved]
  omega

-- Seen by the tasks, a step of a worker, the core or the clock is none.
theorem unasked_held {s : State κ ω φ σ} {executor : Handoff.State κ ω σ} {core : Service.State ω φ σ}
    (taken : Handoff.Step server.bound s.executor action executor)
    (unasked : ∀ c input deadline, action ≠ .enqueue c input deadline) (uncalled : ∀ c, action ≠ .call c)
    (ids : Nat → Bool) :
    tally (holding ids) (places {s with executor := executor,core := core}) + issued s.executor ids =
      tally (holding ids) (places s) + issued executor ids := by
  obtain ⟨callers,admitted⟩ := Handoff.callers_stay taken unasked uncalled
  have same : places {s with executor := executor,core := core} = places s := by
    funext c
    simp only [places,callers]
  rw [same,issued_same s admitted ids]

theorem step_held [Inhabited ω] {s next : State κ ω φ σ}
    (balanced : Handoff.Balanced server.bound s.executor) (step : Step server s action next) (ids : Nat → Bool) :
    (tells ids (s,action)).toNat + (leaves ids (s,action)).toNat + tally (holding ids) (places next) +
      issued s.executor ids = tally (holding ids) (places s) + issued next.executor ids := by
  cases step_change server step with
  | @arrived c request extension timeout settled =>
      simp only [tells,leaves,Bool.toNat_false,Nat.add_zero]
      refine moved_held (places_stands s c _) ?_
      cases place : s.handler c <;> simp_all [Handler.Settled,places,holding]
  | @unserved c request deadline signal telemetry place _ | @served c request deadline telemetry place _ =>
      simp only [tells,leaves,place,Bool.toNat_false,Nat.add_zero]
      refine moved_held (places_stands {s with telemetry := telemetry} c _) ?_
      simp [places,holding,place]
  | @enqueued c request deadline executor place taken =>
      simp only [tells,leaves,place,Bool.toNat_false,Nat.add_zero]
      obtain ⟨caller,admitted⟩ := Handoff.enqueue_change taken
      rcases caller with caller | ⟨caller,_⟩ <;>
        exact moved_held (places_passed s caller) (by simp [places,holding,place,issued_same s admitted])
  | @called c request executor place taken =>
      simp only [tells,leaves,place,Bool.toNat_false,Nat.add_zero]
      obtain ⟨after,caller,fresh,⟨admitted,unaccepted,_⟩ | ⟨job,rfl,admitted,_⟩⟩ :=
        Handoff.call_change balanced taken
      · refine moved_held (places_passed s caller) ?_
        have before : holding ids (places s c) = 0 := by
          cases inside : s.executor.caller c <;> simp_all [places,holding]
        have later : holding ids ((.admitting request,after) : Handler φ × Handoff.Caller) = 0 := by
          cases after <;> simp_all [holding]
        simp only [before,later,stands_executor,issued_same s admitted]
      · refine moved_held (places_passed s caller) ?_
        have before : holding ids (places s c) = 0 := by
          cases inside : s.executor.caller c <;> simp_all [places,holding]
        have now : holding ids ((.admitting request,.accepted s.executor.admitted.length) : Handler φ × _) =
            (ids s.executor.admitted.length).toNat := rfl
        have issues : issued executor ids =
            issued s.executor ids + (ids s.executor.admitted.length).toNat := by
          rw [issued,issued,admitted,List.length_append,List.length_singleton,List.range_succ,
            Service.countP_snoc]
        simp only [before,now,stands_executor,issues]
        omega
  | @accepted c request job place inside =>
      simp only [tells,leaves,place,Bool.toNat_false,Nat.add_zero]
      refine moved_held (places_stands s c _) ?_
      simp [places,holding,place,inside]
  | @rejected c request place inside =>
      simp only [tells,leaves,place,Bool.toNat_false,Nat.add_zero]
      refine moved_held (places_stands s c _) ?_
      simp [places,holding,place,inside]
  | @answered c request job result place _ =>
      simp only [tells,leaves,place,Bool.toNat_false,Nat.add_zero]
      refine moved_held (places_stands {s with totalSamples := s.totalSamples + 1} c _) ?_
      simp [places,holding,place,Bool.toNat]
  | @failed c request job e place _ | @abandoned c request job place _ _ =>
      simp only [tells,leaves,place,Bool.toNat_false,Nat.add_zero]
      refine moved_held (places_stands s c _) ?_
      simp [places,holding,place,Bool.toNat]
  | @disconnected c request job executor place taken =>
      simp only [tells,leaves,place,Bool.toNat_false,Nat.zero_add]
      obtain ⟨callers,admitted⟩ := Handoff.callers_stay taken (by simp) (by simp)
      have caller : executor.caller = Function.update s.executor.caller c (s.executor.caller c) := by
        rw [callers,Function.update_eq_self]
      refine moved_held (places_passed s caller) ?_
      simp [places,holding,place,issued_same s admitted,Bool.toNat]
  | began _ taken _ | worked _ taken | delivered _ _ taken | ticked taken | shut _ taken =>
      simpa [tells,leaves] using unasked_held taken (by simp) (by simp) ids
  | ran _ _ =>
      simp only [tells,leaves,Bool.toNat_false,Nat.zero_add]
      rfl

variable {bound : Handoff.Bound} {capacity traces : Nat}

theorem path_held [Inhabited ω] {trace : List (State κ ω φ σ × Action κ ω φ σ)} {s : State κ ω φ σ}
    (path : Path (Step server) (start κ ω φ σ server.bound capacity traces) trace s) : HeldOnce trace s := by
  induction path with
  | nil =>
      intro ids
      have idle : tally (holding ids) (places (start κ ω φ σ server.bound capacity traces)) = 0 :=
        tally_zero _ _ fun _ => rfl
      simp only [List.countP_nil,idle]
      rfl
  | snoc prior step ih =>
      intro ids
      have before := ih ids
      have here := step_held (Handoff.reached_balanced (path_run prior)) step ids
      rw [Service.countP_snoc,Service.countP_snoc]
      omega

end SemanticClassifier.Server
