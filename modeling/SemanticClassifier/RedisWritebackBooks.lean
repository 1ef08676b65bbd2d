import SemanticClassifier.RedisWriteback
import SemanticClassifier.ServiceAccounting

namespace SemanticClassifier.Writeback
open Classify Interleaving Tally

variable {ι φ σ ρ : Type} [DecidableEq ι] {cache : RedisSemanticCache φ σ ρ}

def Call.about (wanted : Request φ σ → Bool) : Call φ σ → Nat
  | .idle => 0
  | .asked request | .admitted request | .sending request | .degraded request => (wanted request).toNat

def Worker.about (wanted : WriteJob → Bool) : Worker → Nat
  | .receiving => 0
  | .received job | .connecting job | .creating job | .writing job | .expiring job | .succeeding job
  | .failing job | .counting job => (wanted job).toNat

-- Every request and every job is in one place, and every loss is counted.
structure Books [Fintype ι] (cache : RedisSemanticCache φ σ ρ) (s : State ι φ σ) : Prop where
  requests : ∀ wanted, s.begun.countP wanted =
    s.dropped.countP wanted + s.sent.countP wanted + tally (Call.about wanted) s.calls
  queue : s.sent.map (jobOf cache) = s.taken ++ s.queue
  bounded : s.queue.length ≤ queueBound
  jobs : ∀ wanted, s.taken.countP wanted =
    s.written.countP wanted + s.lost.countP wanted + s.worker.about wanted
  degraded : s.shared.counters.l2Degraded = s.dropped.length + s.lost.length + s.looked

variable [Fintype ι]

-- A call moves on with its request, or hands it over.
theorem requests_moved {s next : State ι φ σ} {i : ι} {place : Call φ σ} {wanted : Request φ σ → Bool}
    (requests : s.begun.countP wanted =
      s.dropped.countP wanted + s.sent.countP wanted + tally (Call.about wanted) s.calls)
    (calls : next.calls = Function.update s.calls i place)
    (balance : next.begun.countP wanted + (s.dropped.countP wanted + s.sent.countP wanted) +
        (s.calls i).about wanted =
      next.dropped.countP wanted + next.sent.countP wanted + s.begun.countP wanted + place.about wanted) :
    next.begun.countP wanted =
      next.dropped.countP wanted + next.sent.countP wanted + tally (Call.about wanted) next.calls := by
  have traded := tally_update (Call.about wanted) s.calls i place
  rw [calls]
  omega

theorem looked_degraded (effect : L2.Effect) (shared : L2.Shared) :
    (effect.onShared cache.reader shared).counters.l2Degraded = shared.counters.l2Degraded + lookedBy effect := by
  cases effect with
  | counted counter => cases counter <;> rfl
  | _ => rfl

omit [DecidableEq ι] [Fintype ι] in
-- EXPIRE is about the times to live alone.
theorem expire_frame (s : State ι φ σ) (key : String) :
    ∃ expires, expire s key = {s with expires := expires} := by
  unfold expire
  split
  · exact ⟨_,rfl⟩
  · exact ⟨s.expires,rfl⟩

theorem step_books {s next : State ι φ σ} (books : Books cache s) (step : Step cache s action next) :
    Books cache next := by
  cases step_change step with
  | began place =>
      refine ⟨fun wanted => requests_moved (books.requests wanted) rfl ?_,books.queue,books.bounded,books.jobs,
        books.degraded⟩
      simp only [place,goes,Call.about,Service.countP_snoc]
      omega
  | @asked i now request shared after place counters target =>
      refine ⟨fun wanted => requests_moved (books.requests wanted) rfl ?_,books.queue,books.bounded,books.jobs,?_⟩
      · rcases target with rfl | rfl <;> simp only [place,goes,Call.about] <;> omega
      · simpa only [goes,counters] using books.degraded
  | encoded place _ | unencoded place _ | full place _ =>
      refine ⟨fun wanted => requests_moved (books.requests wanted) rfl ?_,books.queue,books.bounded,books.jobs,
        books.degraded⟩
      simp only [place,goes,Call.about]
      omega
  | sent place room =>
      refine ⟨fun wanted => requests_moved (books.requests wanted) rfl ?_,?_,?_,books.jobs,books.degraded⟩
      · simp only [place,goes,Call.about,Service.countP_snoc]
        omega
      · simp only [goes,List.map_append,books.queue,List.append_assoc]
        rfl
      · simp only [goes,List.length_append,List.length_singleton]
        exact room
  | counted place =>
      refine ⟨fun wanted => requests_moved (books.requests wanted) rfl ?_,books.queue,books.bounded,books.jobs,?_⟩
      · simp only [place,goes,Call.about,Service.countP_snoc]
        omega
      · have degraded := books.degraded
        simp only [goes,degrade,L2.Counters.record,List.length_append,List.length_singleton]
        omega
  | @received now exchange job rest place queue =>
      refine ⟨books.requests,?_,?_,fun wanted => ?_,books.degraded⟩
      · have same := books.queue
        rw [queue] at same
        simpa [takes] using same
      · have most := books.bounded
        rw [queue,List.length_cons] at most
        exact Nat.le_of_succ_le most
      · have jobs := books.jobs wanted
        simp only [takes,place,Worker.about,Service.countP_snoc] at jobs ⊢
        omega
  | allowed place target | connected place target =>
      refine ⟨books.requests,books.queue,books.bounded,fun wanted => ?_,books.degraded⟩
      have jobs := books.jobs wanted
      rw [place] at jobs
      rcases target with rfl | rfl <;> exact jobs
  | wrote place target =>
      refine ⟨books.requests,books.queue,books.bounded,fun wanted => ?_,books.degraded⟩
      have jobs := books.jobs wanted
      rw [place] at jobs
      rcases target with ⟨_,rfl⟩ | ⟨_,rfl⟩ <;> exact jobs
  | @expired now exchange job after place target =>
      obtain ⟨expires,same⟩ := expire_frame s (keyOf cache job)
      have moved : ∀ wanted, s.taken.countP wanted =
          s.written.countP wanted + s.lost.countP wanted + after.about wanted := by
        intro wanted
        have jobs := books.jobs wanted
        rw [place] at jobs
        rcases target with ⟨_,rfl⟩ | ⟨_,rfl⟩ <;> exact jobs
      rw [same]
      exact ⟨books.requests,books.queue,books.bounded,moved,books.degraded⟩
  | created place _ | unwritten place | unexpired place | failed place =>
      refine ⟨books.requests,books.queue,books.bounded,fun wanted => ?_,books.degraded⟩
      have jobs := books.jobs wanted
      rw [place] at jobs
      exact jobs
  | succeeded place =>
      refine ⟨books.requests,books.queue,books.bounded,fun wanted => ?_,books.degraded⟩
      have jobs := books.jobs wanted
      simp only [takes,place,Worker.about,Service.countP_snoc] at jobs ⊢
      omega
  | gaveUp place =>
      refine ⟨books.requests,books.queue,books.bounded,fun wanted => ?_,?_⟩
      · have jobs := books.jobs wanted
        simp only [takes,place,Worker.about,Service.countP_snoc] at jobs ⊢
        omega
      · have degraded := books.degraded
        simp only [takes,degrade,L2.Counters.record,List.length_append,List.length_singleton]
        omega
  | @looked effect =>
      refine ⟨books.requests,books.queue,books.bounded,books.jobs,?_⟩
      rw [looked_degraded,books.degraded]
      exact Nat.add_assoc _ _ _
  | lapsed => exact ⟨books.requests,books.queue,books.bounded,books.jobs,books.degraded⟩

theorem path_books {trace : List (State ι φ σ × Action ι φ σ)} {s : State ι φ σ}
    (path : Path (Step cache) (start ι φ σ) trace s) : Books cache s := by
  apply path.preserves
  · intro before action after books step
    exact step_books books step
  · have none (wanted : Request φ σ → Bool) : tally (Call.about wanted) (fun _ : ι => .idle) = 0 :=
      tally_zero _ _ fun _ => rfl
    exact ⟨fun wanted => by simp [start,none],rfl,Nat.zero_le _,fun _ => rfl,rfl⟩

-- How many lines of `insert` a call has left at most.
def Call.left : Call φ σ → Nat
  | .idle => 0
  | .degraded _ => 1
  | .sending _ => 2
  | .admitted _ => 3
  | .asked _ => 4

def own (i : ι) (row : State ι φ σ × Action ι φ σ) : Bool :=
  match row.2 with
  | .call j _ => j = i
  | _ => false

def again (i : ι) : Action ι φ σ → Prop
  | .insert j _ => j = i
  | _ => False

omit [Fintype ι] in
theorem call_enabled {s : State ι φ σ} {i : ι} (busy : s.calls i ≠ .idle) (now : Nat) :
    ∃ next, Step cache s (.call i now) next := by
  cases place : s.calls i with
  | idle => exact absurd place busy
  | sending request =>
      simp only [Step,advance,callStep,place]
      split <;> exact ⟨_,rfl⟩
  | _ =>
      simp only [Step,advance,callStep,place]
      exact ⟨_,rfl⟩

omit [Fintype ι] in
theorem step_left {s next : State ι φ σ} {i : ι} (step : Step cache s action next) (once : ¬ again i action) :
    (own i (s,action)).toNat + (next.calls i).left ≤ (s.calls i).left := by
  have moved {j : ι} {now : Nat} {place : Call φ σ} {other : State ι φ σ} (same : other.calls = s.calls)
      (less : place.left < (s.calls j).left) :
      (own i (s,.call j now)).toNat + ((goes other j place).calls i).left ≤ (s.calls i).left := by
    by_cases mine : j = i
    · subst mine
      simp only [own,goes,Function.update_self,decide_true,Bool.toNat_true]
      omega
    · simp [own,goes,same,mine,Function.update_of_ne (Ne.symm mine)]
  cases step_change step with
  | @began j request place =>
      have other : i ≠ j := fun same => once same.symm
      simp [own,goes,Function.update_of_ne other]
  | asked place _ target =>
      refine moved rfl ?_
      rcases target with rfl | rfl <;> simp [place,Call.left]
  | encoded place _ | unencoded place _ | sent place _ | full place _ | counted place =>
      exact moved rfl (by simp [place,Call.left])
  | @expired now exchange job after place target =>
      obtain ⟨expires,same⟩ := expire_frame s (keyOf cache job)
      rw [same]
      exact Nat.le_of_eq (Nat.zero_add _)
  | _ => exact Nat.le_of_eq (Nat.zero_add _)

omit [Fintype ι] in
theorem path_left {trace : List (State ι φ σ × Action ι φ σ)} {s last : State ι φ σ} {i : ι}
    (path : Path (Step cache) s trace last) (once : Met (fun _ action => ¬ again i action) trace) :
    trace.countP (own i) + (last.calls i).left ≤ (s.calls i).left := by
  induction path with
  | nil => exact Nat.le_of_eq (Nat.zero_add _)
  | snoc _ step ih =>
      obtain ⟨earlier,here⟩ := met_snoc.mp once
      have before := ih earlier
      have taken := step_left step here
      rw [Service.countP_snoc]
      omega

section Answers

-- The server has answered HSET, and after it EXPIRE, for a wanted job.
def hsetAnswered (wanted : WriteJob → Bool) (row : State ι φ σ × Action ι φ σ) : Bool :=
  match row.2,row.1.worker with
  | .work _ .answered,.writing job => wanted job
  | _,_ => false

def expireAnswered (wanted : WriteJob → Bool) (row : State ι φ σ × Action ι φ σ) : Bool :=
  match row.2,row.1.worker with
  | .work _ .answered,.expiring job => wanted job
  | _,_ => false

def Worker.stored (wanted : WriteJob → Bool) : Worker → Nat
  | .expiring job => (wanted job).toNat
  | _ => 0

def Worker.kept (wanted : WriteJob → Bool) : Worker → Nat
  | .succeeding job => (wanted job).toNat
  | _ => 0

-- Nothing is written but what both commands were answered for, one after the other.
structure Answered (trace : List (State ι φ σ × Action ι φ σ)) (s : State ι φ σ) : Prop where
  hset : ∀ wanted, trace.countP (hsetAnswered wanted) ≤ s.applied.countP wanted
  expire : ∀ wanted,
    trace.countP (expireAnswered wanted) + s.worker.stored wanted ≤ trace.countP (hsetAnswered wanted)
  written : ∀ wanted, s.written.countP wanted + s.worker.kept wanted = trace.countP (expireAnswered wanted)

omit [DecidableEq ι] [Fintype ι] in
theorem Answered.moved {trace : List (State ι φ σ × Action ι φ σ)} {s next : State ι φ σ} {action : Action ι φ σ}
    (answered : Answered trace s)
    (hset : ∀ wanted, (hsetAnswered wanted (s,action)).toNat + s.applied.countP wanted ≤ next.applied.countP wanted)
    (expire : ∀ wanted, (expireAnswered wanted (s,action)).toNat + next.worker.stored wanted ≤
      (hsetAnswered wanted (s,action)).toNat + s.worker.stored wanted)
    (written : ∀ wanted, next.written.countP wanted + next.worker.kept wanted =
      s.written.countP wanted + s.worker.kept wanted + (expireAnswered wanted (s,action)).toNat) :
    Answered (trace ++ [(s,action)]) next := by
  refine ⟨fun wanted => ?_,fun wanted => ?_,fun wanted => ?_⟩ <;> simp only [Service.countP_snoc]
  · have before := answered.hset wanted
    have here := hset wanted
    omega
  · have before := answered.expire wanted
    have here := expire wanted
    omega
  · have before := answered.written wanted
    have here := written wanted
    omega

omit [DecidableEq ι] [Fintype ι] in
theorem hsetAnswered_elsewhere {s : State ι φ σ} (other : ∀ job, s.worker ≠ .writing job)
    (wanted : WriteJob → Bool) (action : Action ι φ σ) : hsetAnswered wanted (s,action) = false := by
  unfold hsetAnswered
  split
  · rename_i place
    exact absurd place (other _)
  · rfl

omit [DecidableEq ι] [Fintype ι] in
theorem expireAnswered_elsewhere {s : State ι φ σ} (other : ∀ job, s.worker ≠ .expiring job)
    (wanted : WriteJob → Bool) (action : Action ι φ σ) : expireAnswered wanted (s,action) = false := by
  unfold expireAnswered
  split
  · rename_i place
    exact absurd place (other _)
  · rfl

omit [DecidableEq ι] [Fintype ι] in
-- The server is asked something else, or nothing at all.
theorem Answered.aside {trace : List (State ι φ σ × Action ι φ σ)} {s next : State ι φ σ} {action : Action ι φ σ}
    (answered : Answered trace s) (hset : ∀ wanted, hsetAnswered wanted (s,action) = false)
    (expire : ∀ wanted, expireAnswered wanted (s,action) = false) (applied : next.applied = s.applied)
    (stored : ∀ wanted, next.worker.stored wanted ≤ s.worker.stored wanted)
    (written : ∀ wanted, next.written.countP wanted + next.worker.kept wanted =
      s.written.countP wanted + s.worker.kept wanted) : Answered (trace ++ [(s,action)]) next := by
  refine answered.moved (fun wanted => ?_) (fun wanted => ?_) (fun wanted => ?_)
  · rw [hset,applied]
    exact Nat.le_of_eq (Nat.zero_add _)
  · rw [hset,expire]
    exact Nat.add_le_add_left (stored wanted) _
  · rw [expire]
    exact written wanted

omit [DecidableEq ι] [Fintype ι] in
theorem Answered.elsewhere {trace : List (State ι φ σ × Action ι φ σ)} {s next : State ι φ σ} {action : Action ι φ σ}
    (answered : Answered trace s) (writing : ∀ job, s.worker ≠ .writing job)
    (expiring : ∀ job, s.worker ≠ .expiring job) (applied : next.applied = s.applied)
    (stored : ∀ wanted, next.worker.stored wanted ≤ s.worker.stored wanted)
    (written : ∀ wanted, next.written.countP wanted + next.worker.kept wanted =
      s.written.countP wanted + s.worker.kept wanted) : Answered (trace ++ [(s,action)]) next :=
  answered.aside (fun _ => hsetAnswered_elsewhere writing _ _) (fun _ => expireAnswered_elsewhere expiring _ _)
    applied stored written

omit [Fintype ι] in
theorem step_answered {trace : List (State ι φ σ × Action ι φ σ)} {s next : State ι φ σ} {action : Action ι φ σ}
    (answered : Answered trace s) (step : Step cache s action next) :
    Answered (trace ++ [(s,action)]) next := by
  cases step_change step with
  | began _ | asked _ _ _ | encoded _ _ | unencoded _ _ | sent _ _ | full _ _ | counted _ | looked | lapsed =>
      exact answered.aside (fun _ => rfl) (fun _ => rfl) rfl (fun _ => Nat.le_refl _) (fun _ => rfl)
  | received place _ | created place _ | failed place | gaveUp place =>
      refine answered.elsewhere (by simp [place]) (by simp [place]) rfl (fun _ => Nat.zero_le _) fun _ => ?_
      rw [place]
      rfl
  | allowed place target | connected place target =>
      refine answered.elsewhere (by simp [place]) (by simp [place]) rfl (fun _ => ?_) fun _ => ?_
      · rcases target with rfl | rfl <;> exact Nat.zero_le _
      · rw [place]
        rcases target with rfl | rfl <;> rfl
  | @wrote now exchange job after place target =>
      have another (wanted : WriteJob → Bool) := expireAnswered_elsewhere (s := s) (by simp [place]) wanted
      have heard (wanted : WriteJob → Bool) :
          hsetAnswered wanted (s,.work now exchange) = (decide (exchange = .answered) && wanted job) := by
        cases exchange <;> simp [hsetAnswered,place]
      have applied (wanted : WriteJob → Bool) : (takes (carryOut cache s job) after).applied.countP wanted =
          s.applied.countP wanted + (wanted job).toNat := Service.countP_snoc wanted _ _
      refine answered.moved (fun wanted => ?_) (fun wanted => ?_) fun wanted => ?_
      · rw [heard,applied,Nat.add_comm]
        rcases target with ⟨rfl,_⟩ | ⟨rfl,_⟩ <;> simp
      · rw [heard,another,place]
        rcases target with ⟨rfl,rfl⟩ | ⟨rfl,rfl⟩ <;> simp [takes,Worker.stored]
      · rw [another,place]
        rcases target with ⟨_,rfl⟩ | ⟨_,rfl⟩ <;> rfl
  | unwritten place =>
      have another (wanted : WriteJob → Bool) := expireAnswered_elsewhere (s := s) (by simp [place]) wanted
      refine answered.aside (fun _ => rfl) (fun _ => another _ _) rfl (fun _ => Nat.zero_le _) fun _ => ?_
      rw [place]
      rfl
  | unexpired place =>
      have other (wanted : WriteJob → Bool) := hsetAnswered_elsewhere (s := s) (by simp [place]) wanted
      refine answered.aside (fun _ => other _ _) (fun _ => rfl) rfl (fun _ => Nat.zero_le _) fun _ => ?_
      rw [place]
      rfl
  | @expired now exchange job after place target =>
      obtain ⟨expires,same⟩ := expire_frame s (keyOf cache job)
      have other (wanted : WriteJob → Bool) := hsetAnswered_elsewhere (s := s) (by simp [place]) wanted
      have heard (wanted : WriteJob → Bool) :
          expireAnswered wanted (s,.work now exchange) = (decide (exchange = .answered) && wanted job) := by
        cases exchange <;> simp [expireAnswered,place]
      rw [same]
      refine answered.moved (fun wanted => ?_) (fun wanted => ?_) fun wanted => ?_
      · rw [other]
        exact Nat.le_of_eq (Nat.zero_add _)
      · rw [heard,other,place]
        rcases target with ⟨rfl,rfl⟩ | ⟨rfl,rfl⟩ <;> simp [takes,Worker.stored]
      · rw [heard,place]
        rcases target with ⟨rfl,rfl⟩ | ⟨rfl,rfl⟩ <;> simp [takes,Worker.kept]
  | @succeeded now exchange job writer place =>
      refine answered.elsewhere (by simp [place]) (by simp [place]) rfl (fun _ => Nat.zero_le _) fun wanted => ?_
      rw [place]
      exact Service.countP_snoc wanted _ _

omit [Fintype ι] in
theorem path_answered {trace : List (State ι φ σ × Action ι φ σ)} {s : State ι φ σ}
    (path : Path (Step cache) (start ι φ σ) trace s) : Answered trace s := by
  induction path with
  | nil => exact ⟨fun _ => Nat.le_refl _,fun _ => Nat.le_refl _,fun _ => rfl⟩
  | snoc _ step ih => exact step_answered ih step

end Answers

-- Nothing drops out of the books, nothing waits, and what counts as written was
-- answered for.
theorem inserts_accounted {trace : List (State ι φ σ × Action ι φ σ)} {s : State ι φ σ}
    (path : Path (Step cache) (start ι φ σ) trace s) :
    Books cache s ∧
    (∀ wanted, s.written.countP wanted ≤ trace.countP (expireAnswered wanted) ∧
      trace.countP (expireAnswered wanted) ≤ trace.countP (hsetAnswered wanted) ∧
      trace.countP (hsetAnswered wanted) ≤ s.applied.countP wanted) ∧
    (∀ i, s.calls i ≠ .idle → ∀ now, ∃ next, Step cache s (.call i now) next) ∧
    (∀ i later last, Path (Step cache) s later last → Met (fun _ action => ¬ again i action) later →
      later.countP (own i) ≤ 4) ∧
    ((∀ i, s.calls i = .idle) → s.queue = [] → s.worker = .receiving →
      s.begun.length + s.looked = s.written.length + s.shared.counters.l2Degraded) := by
  have books := path_books path
  have answered := path_answered path
  refine ⟨books,fun wanted => ⟨?_,?_,answered.hset wanted⟩,fun i busy now => call_enabled busy now,
    fun i later last path once => ?_,fun quiet empty free => ?_⟩
  · exact answered.written wanted ▸ Nat.le_add_right _ _
  · exact (Nat.le_add_right _ _).trans (answered.expire wanted)
  · have left := path_left path once
    have most : (s.calls i).left ≤ 4 := by cases s.calls i <;> simp [Call.left]
    omega
  · have requests := books.requests fun _ => true
    have jobs := books.jobs fun _ => true
    have queue := congrArg List.length books.queue
    have degraded := books.degraded
    have none : tally (Call.about fun _ => true) s.calls = 0 := tally_zero _ _ fun i => by rw [quiet i]; rfl
    simp only [List.countP_true,none,free,Worker.about] at requests jobs
    rw [List.length_map,List.length_append,empty,List.length_nil] at queue
    omega

-- One write that is carried out, and one whose answers are lost.
def plainCache : RedisSemanticCache UInt32 Nat Nat where
  reader := ⟨Breaker.new 5 10,0,fun _ => "",fun _ => none,fun _ => none⟩
  toLeBytes := fun n => [n.toUInt8,(n >>> 8).toUInt8,(n >>> 16).toUInt8,(n >>> 24).toUInt8]
  isFinite := fun _ => true
  encodeResult := fun result => result.classifierId
  blake3 := fun blob => Vector.replicate 32 (blob.headD 0)

def plainRequest (n : UInt32) : Request UInt32 Nat := ⟨⟨[n],none⟩,⟨"c","m","t","x",.ok,[⟨"law",1⟩]⟩,"tag"⟩

def plainInsert (n : UInt32) : List (Action Unit UInt32 Nat) :=
  [.insert () (plainRequest n),.call () 0,.call () 0,.call () 0]

def plainWork (exchange : Exchange) (steps : Nat) : List (Action Unit UInt32 Nat) :=
  List.replicate 4 (.work 0 .answered) ++ List.replicate steps (.work 0 exchange)

def plainRun : List (State Unit UInt32 Nat × Action Unit UInt32 Nat) × State Unit UInt32 Nat :=
  (follow (advance plainCache) (start Unit UInt32 Nat)
    (plainInsert 1 ++ plainWork .answered 3 ++ plainInsert 2 ++ plainWork .unanswered 3)).getD
      ([],start Unit UInt32 Nat)

theorem plain_path : Path (Step plainCache) (start Unit UInt32 Nat) plainRun.1 plainRun.2 :=
  follow_path (show follow (advance plainCache) (start Unit UInt32 Nat)
    (plainInsert 1 ++ plainWork .answered 3 ++ plainInsert 2 ++ plainWork .unanswered 3) = some plainRun from rfl)

theorem inserts_accounted_plain : plainRun.2.written.length + plainRun.2.shared.counters.l2Degraded = 2 ∧
    1 ≤ plainRun.1.countP (expireAnswered fun job => job.dim = 1) ∧
    1 ≤ plainRun.2.applied.countP fun job => job.dim = 1 := by
  obtain ⟨_,commands,_,_,settled⟩ := inserts_accounted plain_path
  obtain ⟨expired,after,applied⟩ := commands fun job => job.dim = 1
  have wrote : plainRun.2.written.countP (fun job => job.dim = 1) = 1 := rfl
  exact ⟨(settled (fun () => rfl) rfl rfl).symm,wrote ▸ expired,wrote ▸ (expired.trans after).trans applied⟩

end SemanticClassifier.Writeback
