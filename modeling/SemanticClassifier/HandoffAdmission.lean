import SemanticClassifier.Handoff

namespace SemanticClassifier.Handoff
open Classify Interleaving Tally

def Caller.permit : Caller → Nat
  | .counting .. | .raising .. | .stamping .. | .sending .. => 1
  | _ => 0

-- Already in `current`.
def Caller.counted : Caller → Nat
  | .raising .. | .stamping .. | .sending .. | .retracting => 1
  | _ => 0

def Worker.permit : Worker σ → Nat
  | .waiting | .receiving | .received none | .returned => 0
  | _ => 1

def Worker.counted : Worker σ → Nat
  | .received (some _) | .reading _ | .checking .. | .abandoning .. | .expiring _ | .sampling _
  | .classifying _ | .responding .. | .finishing _ => 1
  | _ => 0

theorem worker_counted_le (place : Worker σ) : place.counted ≤ place.permit := by
  unfold Worker.counted Worker.permit
  split <;> simp

theorem fetchAdd_below (below : n + 1 < UInt64.size) : fetchAdd n = n + 1 :=
  if_neg (Nat.ne_of_lt below)

theorem fetchSub_above (above : 0 < n) : fetchSub n = n - 1 := if_neg (Nat.ne_of_gt above)

variable {κ ω σ : Type} [DecidableEq κ] [DecidableEq ω] [Fintype κ] [Fintype ω]

-- Permits that somebody holds: a caller before its `try_send`, a job in the
-- channel, a job in the hands of a worker.
def outstanding (s : State κ ω σ) : Nat :=
  tally Caller.permit s.caller + s.channel.length + tally Worker.permit s.worker

structure Balanced (bound : Bound) (s : State κ ω σ) : Prop where
  permits : s.available + outstanding s = bound.bound
  counted : s.current =
    tally Caller.counted s.caller + s.channel.length + tally Worker.counted s.worker
  calm : ∀ c, s.caller c ≠ .retracting
  raising : ∀ c n input deadline, s.caller c = .raising n input deadline → n ≤ bound.bound
  maximum : s.maximum ≤ bound.bound
  borrowed : s.sender = true ∨ ∀ c, (s.caller c).Ready = true
  alive : s.sender = true → ∀ w, s.worker w ≠ .returned ∧ s.worker w ≠ .received none

theorem caller_counted_le {place : Caller} (calm : place ≠ .retracting) :
    place.counted ≤ place.permit := by
  cases place <;> simp_all [Caller.counted,Caller.permit]

omit [DecidableEq κ] [DecidableEq ω] in
theorem Balanced.current_le {bound : Bound} {s : State κ ω σ} (valid : Balanced bound s) :
    s.current ≤ outstanding s := by
  have callers : tally Caller.counted s.caller ≤ tally Caller.permit s.caller :=
    tally_mono fun c => caller_counted_le (valid.calm c)
  have workers : tally Worker.counted s.worker ≤ tally Worker.permit s.worker :=
    tally_mono fun w => worker_counted_le (s.worker w)
  have counted := valid.counted
  unfold outstanding
  omega

omit [DecidableEq κ] [DecidableEq ω] in
theorem Balanced.outstanding_le {bound : Bound} {s : State κ ω σ} (valid : Balanced bound s) :
    outstanding s ≤ bound.bound := valid.permits ▸ Nat.le_add_left _ _

omit [DecidableEq κ] [DecidableEq ω] in
-- Whoever is about to subtract is counted itself.
theorem Balanced.subtract {bound : Bound} {s : State κ ω σ} (valid : Balanced bound s) {w : ω}
    (mine : (s.worker w).counted = 1) : 0 < s.current ∧ fetchSub s.current = s.current - 1 := by
  have share := share_le_tally Worker.counted s.worker w
  have counted := valid.counted
  have above : 0 < s.current := by omega
  exact ⟨above,fetchSub_above above⟩

omit [DecidableEq κ] in
-- A worker moves; what it hands over and what it keeps add up.
theorem Balanced.works {bound : Bound} {s : State κ ω σ} (valid : Balanced bound s)
    (permits : available + channel.length + after.permit =
      s.available + s.channel.length + (s.worker w).permit)
    (counted : current + s.channel.length + (s.worker w).counted =
      s.current + channel.length + after.counted)
    (alive : s.sender = true → after ≠ .returned ∧ after ≠ .received none) :
    Balanced bound (works {s with
      available := available
      channel := channel
      current := current
      receiver := receiver
      queueSamples := queueSamples
      queuedExpired := queuedExpired
      queuedCancelled := queuedCancelled
      dequeued := dequeued
      log := log} w after) where
  permits := by
    have held := tally_update Worker.permit s.worker w after
    have before := valid.permits
    simp only [outstanding,Handoff.works] at before ⊢
    omega
  counted := by
    have held := tally_update Worker.counted s.worker w after
    have before := valid.counted
    simp only [Handoff.works] at before ⊢
    omega
  calm := valid.calm
  raising := valid.raising
  maximum := valid.maximum
  borrowed := valid.borrowed
  alive := by
    intro open_ u
    by_cases same : u = w
    · subst same
      simpa [Handoff.works] using alive open_
    · simpa [Handoff.works,same] using valid.alive open_ u

omit [DecidableEq ω] in
-- A caller moves likewise.
theorem Balanced.asks {bound : Bound} {s : State κ ω σ} (valid : Balanced bound s)
    (open_ : s.sender = true)
    (permits : available + channel.length + after.permit =
      s.available + s.channel.length + (s.caller c).permit)
    (counted : current + s.channel.length + (s.caller c).counted =
      s.current + channel.length + after.counted)
    (calm : after ≠ .retracting)
    (raising : ∀ n input deadline, after = .raising n input deadline → n ≤ bound.bound)
    (below : peak ≤ bound.bound) :
    Balanced bound (asks {s with
      available := available
      channel := channel
      current := current
      maximum := peak
      admitted := admitted} c after) where
  permits := by
    have held := tally_update Caller.permit s.caller c after
    have before := valid.permits
    simp only [outstanding,Handoff.asks] at before ⊢
    omega
  counted := by
    have held := tally_update Caller.counted s.caller c after
    have before := valid.counted
    simp only [Handoff.asks] at before ⊢
    omega
  calm := by
    intro u
    by_cases same : u = c
    · subst same
      simpa [Handoff.asks] using calm
    · simpa [Handoff.asks,same] using valid.calm u
  raising := by
    intro u
    by_cases same : u = c
    · subst same
      simpa [Handoff.asks] using raising
    · simpa [Handoff.asks,same] using valid.raising u
  maximum := below
  borrowed := .inl open_
  alive := valid.alive

omit [DecidableEq κ] [DecidableEq ω] in
-- A caller inside `try_enqueue` borrows the executor, so its sender is there.
theorem Balanced.opened {bound : Bound} {s : State κ ω σ} (valid : Balanced bound s)
    (busy : (s.caller c).Ready = false) : s.sender = true := by
  cases valid.borrowed with
  | inl open_ => exact open_
  | inr quiet =>
      rw [quiet c] at busy
      cases busy

omit [DecidableEq κ] [DecidableEq ω] in
-- A caller with a permit leaves room for its job.
theorem Balanced.room {bound : Bound} {s : State κ ω σ} (valid : Balanced bound s)
    (mine : (s.caller c).permit = 1) : s.channel.length < bound.bound := by
  have share := share_le_tally Caller.permit s.caller c
  have most := valid.outstanding_le
  unfold outstanding at most
  omega

omit [DecidableEq ω] in
-- A caller with a permit that it has not counted yet keeps `current` below the bound.
theorem Balanced.headroom {bound : Bound} {s : State κ ω σ} (valid : Balanced bound s)
    (place : s.caller c = .counting input deadline) : s.current + 1 ≤ bound.bound := by
  let after := Function.update s.caller c (.stamping input deadline)
  have held := tally_update Caller.permit s.caller c (.stamping input deadline)
  have added := tally_update Caller.counted s.caller c (.stamping input deadline)
  have callers : tally Caller.counted after ≤ tally Caller.permit after := by
    refine tally_mono fun u => caller_counted_le ?_
    by_cases same : u = c
    · simp [after,same]
    · simpa [after,same] using valid.calm u
  have workers : tally Worker.counted s.worker ≤ tally Worker.permit s.worker :=
    tally_mono fun w => worker_counted_le (s.worker w)
  have counted := valid.counted
  have most := valid.outstanding_le
  simp only [place,Caller.permit,Caller.counted] at held added
  simp only [outstanding,after] at most callers
  omega

theorem ready_weightless {place : Caller} (ready : place.Ready = true) :
    place.permit = 0 ∧ place.counted = 0 := by
  cases place <;> simp_all [Caller.Ready,Caller.permit,Caller.counted]

theorem step_balanced [Inhabited ω] {bound : Bound} {s next : State κ ω σ} (valid : Balanced bound s)
    (step : Step bound s action next) : Balanced bound next := by
  cases step_change step with
  | @permitted c input deadline open_ ready free =>
      obtain ⟨permit,counted⟩ := ready_weightless ready
      refine valid.asks open_ ?_ ?_ (by simp) (by simp) valid.maximum
      · rw [permit]
        simp only [Caller.permit]
        omega
      · rw [counted]
        rfl
  | @refused c input deadline open_ ready full =>
      obtain ⟨permit,counted⟩ := ready_weightless ready
      refine valid.asks open_ ?_ ?_ (by simp) (by simp) valid.maximum
      · rw [permit]
        rfl
      · rw [counted]
        rfl
  | @counted c input deadline place =>
      have below := valid.headroom place
      have exact_ := fetchAdd_below (Nat.lt_of_le_of_lt below bound.fits)
      refine valid.asks (valid.opened (c := c) (by simp [place,Caller.Ready])) ?_ ?_ (by simp) ?_
        valid.maximum
      · simp only [place,Caller.permit]
      · simp only [place,Caller.counted,exact_]
        omega
      · intro n input' deadline' equal
        cases equal
        exact exact_ ▸ below
  | @raised c n input deadline place =>
      refine valid.asks (valid.opened (c := c) (by simp [place,Caller.Ready])) ?_ ?_ (by simp) (by simp)
        (max_le valid.maximum (valid.raising c n input deadline place))
      · simp only [place,Caller.permit]
      · simp only [place,Caller.counted]
  | @stamped c input deadline place =>
      refine valid.asks (valid.opened (c := c) (by simp [place,Caller.Ready])) ?_ ?_ (by simp) (by simp)
        valid.maximum
      · simp only [place,Caller.permit]
      · simp only [place,Caller.counted]
  | @sent c input queuedAt deadline job place _ _ _ =>
      refine valid.asks (valid.opened (c := c) (by simp [place,Caller.Ready])) ?_ ?_ (by simp) (by simp)
        valid.maximum
      · simp only [place,Caller.permit,List.length_append,List.length_singleton]
        omega
      · simp only [place,Caller.counted,List.length_append,List.length_singleton]
        omega
  | @bounced c input queuedAt deadline place full =>
      have open_ := valid.opened (c := c) (by simp [place,Caller.Ready])
      refine absurd ⟨valid.room (c := c) (by simp [place,Caller.permit]),default,?_⟩ full
      have alive := (valid.alive open_ default).1
      cases here : s.worker default <;> simp_all [Worker.Alive]
  | retracted place => exact absurd place (valid.calm _)
  | @disconnected w place empty closed =>
      refine valid.works ?_ ?_ (fun open_ => by simp [closed] at open_)
      · simp only [place,Worker.permit]
      · simp only [place,Worker.counted]
  | @ended w place =>
      refine valid.works ?_ ?_ (fun open_ => absurd place (valid.alive open_ w).2)
      · simp only [place,Worker.permit]
      · simp only [place,Worker.counted]
  | @received w job rest place queue =>
      refine valid.works ?_ ?_ (by simp)
      · simp only [place,queue,Worker.permit,List.length_cons]
        omega
      · simp only [place,queue,Worker.counted,List.length_cons]
        omega
  | abandoned place | expired place | finished place =>
      obtain ⟨above,less⟩ := valid.subtract (by rw [place]; rfl)
      refine valid.works ?_ ?_ (by simp)
      · simp only [place,Worker.permit]
      · simp only [place,Worker.counted,less]
        omega
  | dropped place | released place =>
      refine valid.works ?_ ?_ (by simp)
      · simp only [place,Worker.permit]
        omega
      · simp only [place,Worker.counted]
  | locked place _ | unlocked place | read place | foundClosed place _ | foundExpired place _
  | foundOpen place _ | recordedExpired place | recordedCancelled place | recorded place
  | declined place | sampled place | classified place | responded place =>
      refine valid.works ?_ ?_ (by simp)
      · simp only [place,Worker.permit]
      · simp only [place,Worker.counted]
  | cancelled _ | ticked => exact {valid with}
  | shut quiet => exact {valid with borrowed := .inr quiet,alive := by simp}

omit [DecidableEq κ] [DecidableEq ω] in
theorem start_balanced (bound : Bound) : Balanced bound (start κ ω σ bound) where
  permits := by
    have callers := tally_zero Caller.permit (fun _ : κ => .idle) fun _ => rfl
    have workers := tally_zero Worker.permit (fun _ : ω => (.waiting : Worker σ)) fun _ => rfl
    simp [outstanding,start,callers,workers]
  counted := by
    have callers := tally_zero Caller.counted (fun _ : κ => .idle) fun _ => rfl
    have workers := tally_zero Worker.counted (fun _ : ω => (.waiting : Worker σ)) fun _ => rfl
    simp [start,callers,workers]
  calm := by simp [start]
  raising := by simp [start]
  maximum := Nat.zero_le _
  borrowed := .inl rfl
  alive := by simp [start]

abbrev Run (bound : Bound) (s : State κ ω σ) : Prop :=
  Reached (fun origin => origin = start κ ω σ bound) (Step bound) s

theorem reached_balanced [Inhabited ω] {bound : Bound} {s : State κ ω σ} (reached : Run bound s) :
    Balanced bound s := by
  apply reached.preserves
  · intro origin fresh
    exact fresh ▸ start_balanced bound
  · intro before action after valid step
    exact step_balanced valid step

-- The places where the next operation is the worker's `fetch_sub`.
def Worker.Subtracts : Worker σ → Prop
  | .abandoning .. | .expiring _ | .finishing _ => True
  | _ => False

theorem admission_bounded [Inhabited ω] {bound : Bound} {s : State κ ω σ} (reached : Run bound s) :
    (∀ w, (s.worker w).Subtracts → 0 < s.current ∧ fetchSub s.current = s.current - 1) ∧
    s.current ≤ outstanding s ∧ outstanding s ≤ bound.bound ∧ maxAdmitted s ≤ bound.bound ∧
    (∀ c, s.caller c ≠ .retracting) ∧
    (∀ c input queuedAt deadline job, s.caller c = .sending input queuedAt deadline →
      (trySend bound s job).isSome) ∧
    (∀ c input deadline next, Step bound s (.enqueue c input deadline) next →
      next.caller c = .rejected → outstanding s = bound.bound) := by
  have valid := reached_balanced reached
  refine ⟨?_,valid.current_le,valid.outstanding_le,valid.maximum,valid.calm,?_,?_⟩
  · intro w subtracts
    apply valid.subtract (w := w)
    cases place : s.worker w <;> simp_all [Worker.Subtracts,Worker.counted]
  · intro c input queuedAt deadline job place
    have open_ := valid.opened (c := c) (by simp [place,Caller.Ready])
    have alive : (s.worker default).Alive = true := by
      have here := (valid.alive open_ default).1
      cases there : s.worker default <;> simp_all [Worker.Alive]
    have room := valid.room (c := c) (by simp [place,Caller.permit])
    rw [trySend,if_pos ⟨room,default,alive⟩]
    rfl
  · intro c input deadline next step rejected
    have permits := valid.permits
    cases step_change step with
    | permitted _ _ _ => simp [asks] at rejected
    | refused _ _ full =>
        rw [full] at permits
        exact (Nat.zero_add _).symm.trans permits

-- A bound of one, one job admitted and waiting in the channel.
def oneBound : Bound := ⟨1,by decide,by decide⟩

def anyInput : ClassificationInput := ⟨"",[],∅,.full⟩

def fullRun : List (State Bool Unit Nat × Action Bool Unit Nat) × State Bool Unit Nat :=
  (follow (advance oneBound) (start Bool Unit Nat oneBound)
    [.enqueue false anyInput none,.call false,.call false,.call false,.call false]).getD
      ([],start Bool Unit Nat oneBound)

theorem admission_bounded_full : maxAdmitted fullRun.2 ≤ 1 ∧ outstanding fullRun.2 = 1 ∧
    (asks fullRun.2 true .rejected).caller true = .rejected := by
  have path : Path (Step oneBound) (start Bool Unit Nat oneBound) fullRun.1 fullRun.2 :=
    follow_path (show follow (advance oneBound) (start Bool Unit Nat oneBound)
      [.enqueue false anyInput none,.call false,.call false,.call false,.call false] =
        some fullRun from rfl)
  have step : Step oneBound fullRun.2 (.enqueue true anyInput none) (asks fullRun.2 true .rejected) := rfl
  obtain ⟨_,_,_,most,_,_,full⟩ := admission_bounded (path.reached rfl)
  exact ⟨most,full true anyInput none _ step rfl,rfl⟩

end SemanticClassifier.Handoff
