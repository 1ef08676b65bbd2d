import SemanticClassifier.SharedCacheSafety

namespace SemanticClassifier.Cache
open Interleaving SingleFlight

variable {τ κ ε ρ : Type} [DecidableEq τ] [DecidableEq κ]

-- Whoever registers a slot goes straight into the forward closure.
def entersForward (k : κ) : Event τ κ (Except ε ρ) → Bool
  | .registered _ key _ => key = k
  | _ => false

def forwards (s : State τ κ ε ρ) (k : κ) : Nat := s.log.countP (entersForward k)

def misses (s : State τ κ ε ρ) (k : κ) : Nat :=
  s.returns.countP fun row => row.2.1 = k ∧ row.2.2.2 = .miss

def Succeeds : Action τ κ ε ρ → Prop
  | .forwarded _ (.error _) => False
  | _ => True

instance : DecidablePred (Succeeds : Action τ κ ε ρ → Prop)
  | .forwarded _ (.error _) => isFalse fun h => h
  | .forwarded _ (.ok _) | .call .. | .run _ | .spurious _ => isTrue trivial

-- The step does not evict the key.
def Keeps (k : κ) (s : State τ κ ε ρ) (action : Action τ κ ε ρ) : Prop :=
  ∀ next ∈ advance s action, (cachedValue s.inner k).isSome → (cachedValue next.inner k).isSome

instance (k : κ) (s : State τ κ ε ρ) (action : Action τ κ ε ρ) : Decidable (Keeps k s action) :=
  inferInstanceAs (Decidable (∀ next ∈ advance s action,
    (cachedValue s.inner k).isSome → (cachedValue next.inner k).isSome))

def Registers (k : κ) (s : State τ κ ε ρ) : Action τ κ ε ρ → Prop
  | .run t => s.pc t = .checkHeld k ∧ s.inFlight.lookup k = none
  | _ => False

-- A slot is registered for the key only while `inner` does not hold it.
def Rechecked (k : κ) (s : State τ κ ε ρ) (action : Action τ κ ε ρ) : Prop :=
  Registers k s action → cachedValue s.inner k = none

-- From entering the forward to returning what it gave.
def Pc.Flies : Pc κ ε ρ → κ → Prop
  | .forward key _,k | .store key _ _,k | .storeHeld key _ _,k | .remove key _ _,k
  | .removeHeld key _ _,k | .publish key _ _,k | .publishHeld key _ _,k | .notify key _ _,k => key = k
  | _,_ => False

-- Its result is not in `inner` yet.
def Pc.Unstored : Pc κ ε ρ → κ → Prop
  | .forward key _,k | .store key _ _,k | .storeHeld key _ _,k => key = k
  | _,_ => False

-- The key's whole history on a run that rechecks: nothing yet, one flight
-- under way, or one flight over and its result cached.
inductive Phase (k : κ) (s : State τ κ ε ρ) : Prop where
  | fresh : forwards s k = 0 → (∀ row ∈ s.returns, row.2.1 ≠ k) → cachedValue s.inner k = none →
      (∀ t, ¬ (s.pc t).Flies k) → Phase k s
  | flying (t : τ) : forwards s k = 1 → misses s k = 0 → (s.pc t).Flies k →
      (∀ u, (s.pc u).Flies k → u = t) → ((s.pc t).Unstored k ∨ (cachedValue s.inner k).isSome) →
      Phase k s
  | landed : forwards s k = 1 → misses s k = 1 → (cachedValue s.inner k).isSome →
      (∀ t, ¬ (s.pc t).Flies k) → Phase k s

omit [DecidableEq κ] in
theorem everywhere {p : τ → Pc κ ε ρ → Prop} {f : τ → Pc κ ε ρ} (here : p t after)
    (others : ∀ u, p u (f u)) (u : τ) : p u (Function.update f t after u) :=
  (Function.forall_update_iff f p).mpr ⟨here,fun u _ => others u⟩ u

omit [DecidableEq τ] in
-- Nothing that concerns the key happens.
theorem Phase.steady {s next : State τ κ ε ρ} (phase : Phase k s) (log : forwards next k = forwards s k)
    (missed : misses next k = misses s k)
    (answered : 0 < forwards s k ∨ ∀ row ∈ next.returns, row.2.1 = k → row ∈ s.returns)
    (lost : cachedValue s.inner k = none → cachedValue next.inner k = none)
    (kept : (cachedValue s.inner k).isSome → (cachedValue next.inner k).isSome)
    (flies : ∀ u, (next.pc u).Flies k ↔ (s.pc u).Flies k)
    (unstored : ∀ u, (s.pc u).Unstored k → (next.pc u).Unstored k) : Phase k next := by
  cases phase with
  | fresh none silent empty grounded =>
      refine .fresh (log.trans none) ?_ (lost empty) (fun t => (flies t).not.mpr (grounded t))
      cases answered with
      | inl some => exact absurd none (Nat.ne_of_gt some)
      | inr old => exact fun row member same => silent row (old row member same) same
  | flying t one zero here only stored =>
      refine .flying t (log.trans one) (missed.trans zero) ((flies t).mpr here)
        (fun u also => only u ((flies u).mp also)) ?_
      exact stored.imp (unstored t) kept
  | landed one single cached grounded =>
      exact .landed (log.trans one) (missed.trans single) (kept cached)
        (fun t => (flies t).not.mpr (grounded t))

omit [DecidableEq τ] in
theorem registered_forwards {s : State τ κ ε ρ} (member : .registered u k i ∈ s.log) :
    0 < forwards s k :=
  List.countP_pos_iff.mpr ⟨_,member,by simp [entersForward]⟩

-- One thread moves on within its call.
theorem Phase.moved {s next : State τ κ ε ρ} (phase : Phase k s)
    (pc : next.pc = Function.update s.pc t after) (flies : after.Flies k ↔ (s.pc t).Flies k)
    (unstored : (s.pc t).Unstored k → after.Unstored k) (log : forwards next k = forwards s k)
    (missed : misses next k = misses s k)
    (answered : 0 < forwards s k ∨ ∀ row ∈ next.returns, row.2.1 = k → row ∈ s.returns)
    (lost : cachedValue s.inner k = none → cachedValue next.inner k = none)
    (kept : (cachedValue s.inner k).isSome → (cachedValue next.inner k).isSome) : Phase k next := by
  refine phase.steady log missed answered lost kept ?_ ?_
  · rw [pc]
    exact everywhere (p := fun u pc => pc.Flies k ↔ (s.pc u).Flies k) flies (fun _ => Iff.rfl)
  · rw [pc]
    exact everywhere (p := fun u pc => (s.pc u).Unstored k → pc.Unstored k) unstored (fun _ h => h)

theorem Phase.quiet {s : State τ κ ε ρ} {after : Pc κ ε ρ} (phase : Phase k s)
    (flies : after.Flies k ↔ (s.pc t).Flies k) (unstored : (s.pc t).Unstored k → after.Unstored k) :
    Phase k {s with
      inFlight := inFlight
      locks := locks
      pc := Function.update s.pc t after} :=
  phase.moved rfl flies unstored rfl rfl (.inr fun _ old _ => old) (fun none => none) (fun some => some)

omit [DecidableEq τ] in
theorem Phase.cached_forwards {s : State τ κ ε ρ} (phase : Phase k s)
    (cached : (cachedValue s.inner k).isSome) : 0 < forwards s k := by
  cases phase with
  | fresh _ _ empty _ => simp [empty] at cached
  | flying _ one _ _ _ _ => exact one ▸ Nat.one_pos
  | landed one _ _ _ => exact one ▸ Nat.one_pos

omit [DecidableEq τ] [DecidableEq κ] in
-- A returned answer for another key is none of the key's business.
theorem answered_old {returns : List (τ × κ × Except ε ρ × CachePath)}
    (first : 0 < n ∨ key ≠ k) :
    0 < n ∨ ∀ row ∈ (t,key,result,path) :: returns, row.2.1 = k → row ∈ returns := by
  refine first.imp_right fun other row member same => ?_
  cases List.mem_cons.mp member with
  | inl here =>
      subst here
      exact absurd same other
  | inr earlier => exact earlier

omit [DecidableEq τ] [DecidableEq κ] in
theorem enter_flies {pc after : Pc κ ε ρ} (entering : pc.enter = some (lock,after)) :
    (after.Flies k ↔ pc.Flies k) ∧ (pc.Unstored k → after.Unstored k) := by
  cases pc <;> simp only [Pc.enter,Option.some.injEq,reduceCtorEq] at entering
  all_goals
    obtain ⟨rfl,rfl⟩ := Prod.mk.inj entering
    simp [Pc.Flies,Pc.Unstored]

omit [DecidableEq τ] [DecidableEq κ] in
@[simp] theorem woken_flies (pc : Pc κ ε ρ) : (pc.woken i).Flies k ↔ pc.Flies k := by
  cases pc with
  | asleep key slot =>
      simp only [Pc.woken]
      split <;> rfl
  | _ => rfl

omit [DecidableEq τ] [DecidableEq κ] in
@[simp] theorem woken_unstored (pc : Pc κ ε ρ) : (pc.woken i).Unstored k ↔ pc.Unstored k := by
  cases pc with
  | asleep key slot =>
      simp only [Pc.woken]
      split <;> rfl
  | _ => rfl

omit [DecidableEq τ] [DecidableEq κ] in
theorem unstored_designated {pc : Pc κ ε ρ} (unstored : pc.Unstored k) : pc.Designated k := by
  cases pc <;> simp_all [Pc.Unstored,Pc.Designated]

-- The only registration a rechecking run makes starts the first flight.
theorem Phase.register {s : State τ κ ε ρ} (valid : Valid s) (phase : Phase k s)
    (absent : s.inFlight.lookup k = none)
    (empty : cachedValue s.inner k = none) : Phase k (drop {s with
      inFlight := s.inFlight.insert k s.slots.length
      slots := s.slots ++ [none]
      log := .registered t k s.slots.length :: s.log} t .inFlight (.forward k s.slots.length)) := by
  cases phase with
  | fresh none silent _ grounded =>
      refine .flying t ?_ ?_ ?_ ?_ (.inl ?_)
      · simpa [forwards,entersForward,drop,goto] using none
      · refine List.countP_eq_zero.mpr fun row member => ?_
        simp [silent row member]
      · simp [drop,goto,Pc.Flies]
      · intro u flies
        by_contra other
        simp only [drop,goto,Function.update_of_ne other] at flies
        exact grounded u flies
      · simp [drop,goto,Pc.Unstored]
  | flying u one zero here only stored =>
      refine absurd ?_ (Finmap.lookup_eq_none.mp absent)
      cases stored with
      | inl unstored =>
          obtain ⟨i,flying⟩ := (designated_iff _ _).mp (unstored_designated unstored)
          have found := (valid.sound.flights k i).mpr ⟨u,flying⟩
          exact Finmap.lookup_isSome.mp (Option.isSome_iff_exists.mpr ⟨i,found⟩)
      | inr cached => simp [empty] at cached
  | landed _ _ cached _ => simp [empty] at cached

-- The forwarder returns its own result and the flight is over.
theorem Phase.land {s : State τ κ ε ρ} (phase : Phase k s) (place : s.pc t = .notify k i r) :
    Phase k (answer {s with pc := fun u => (s.pc u).woken i} t k r .miss) := by
  cases phase with
  | fresh none silent _ grounded => exact absurd (by simp [place,Pc.Flies]) (grounded t)
  | landed _ _ _ grounded => exact absurd (by simp [place,Pc.Flies]) (grounded t)
  | flying u one zero here only stored =>
      obtain rfl : t = u := only t (by simp [place,Pc.Flies])
      refine .landed one ?_ ?_ ?_
      · simpa [misses,answer,goto] using zero
      · exact stored.resolve_left (by simp [place,Pc.Unstored])
      · intro v flies
        by_cases same : v = t
        · subst same
          simp [answer,goto,Pc.Flies] at flies
        · simp only [answer,goto,Function.update_of_ne same,woken_flies] at flies
          exact same (only v flies)

-- A store under the key itself comes from the flight under way.
theorem Phase.store {s : State τ κ ε ρ} (phase : Phase k s) (place : s.pc t = .storeHeld k i value) :
    Phase k (drop {s with inner := storeAfterForward s.inner k value} t .inner
      (.remove k i (.ok value))) := by
  have flies : ∀ u, (Function.update s.pc t (.remove k i (.ok value)) u).Flies k ↔ (s.pc u).Flies k :=
    everywhere (p := fun u pc => pc.Flies k ↔ (s.pc u).Flies k) (by simp [place,Pc.Flies])
      (fun _ => Iff.rfl)
  have cached : (cachedValue (storeAfterForward s.inner k value) k).isSome := by
    rw [cachedValue_stored]
    rfl
  cases phase with
  | fresh none silent _ grounded => exact absurd (by simp [place,Pc.Flies]) (grounded t)
  | landed _ _ _ grounded => exact absurd (by simp [place,Pc.Flies]) (grounded t)
  | flying u one zero here only stored =>
      exact .flying u one zero ((flies u).mpr here) (fun v also => only v ((flies v).mp also))
        (.inr cached)

theorem step_phase {s next : State τ κ ε ρ} (valid : Valid s) (phase : Phase k s)
    (succeeds : Succeeds action) (keeps : Keeps k s action) (rechecked : Rechecked k s action)
    (step : Step s action next) : Phase k next := by
  have kept := keeps next step
  cases step_change step with
  | @called t key ready =>
      rcases ready.cases with place | ⟨_,_,_,place⟩ <;>
        exact phase.quiet (by simp [place,Pc.Flies]) (by simp [place,Pc.Unstored])
  | entered entering _ => exact phase.quiet (enter_flies entering).1 (enter_flies entering).2
  | missed place _ | joined place _ | slept place _ | woke place | succeeded place | removed place _ =>
      exact phase.quiet (by simp [place,Pc.Flies]) (by simp [place,Pc.Unstored])
  | failed _ => cases succeeds
  | unwrapped place found =>
      rw [unwrap_present valid.sound place] at found
      cases found
  | @hit t key value place found =>
      refine phase.moved (t := t) rfl (by simp [place,Pc.Flies]) (by simp [place,Pc.Unstored]) rfl
        ?_ (answered_old ?_) (fun none => none) kept
      · simp [misses,answer,goto]
      · by_cases same : key = k
        · exact .inl (phase.cached_forwards (by rw [← same,found]; rfl))
        · exact .inr same
  | @collected t key i result place found =>
      refine phase.moved (t := t) rfl (by simp [place,Pc.Flies]) (by simp [place,Pc.Unstored]) ?_
        ?_ (answered_old ?_) (fun none => none) kept
      · simp [forwards,answer,goto,entersForward]
      · simp [misses,answer,goto]
      · by_cases same : key = k
        · subst same
          obtain ⟨u,registered⟩ := valid.sound.waits t key i (by simp [flights,place,Pc.role,Role.Waits])
          exact .inl (registered_forwards registered)
        · exact .inr same
  | @registered t key place found =>
      by_cases same : key = k
      · subst same
        exact phase.register valid found (rechecked ⟨place,found⟩)
      · refine phase.moved (t := t) rfl (by simp [place,Pc.Flies,same]) (by simp [place,Pc.Unstored]) ?_
          rfl (.inr fun _ old _ => old) (fun none => none) kept
        simp [forwards,drop,goto,entersForward,same]
  | @stored t key i value place =>
      by_cases same : key = k
      · subst same
        exact phase.store place
      · refine phase.moved (t := t) rfl (by simp [place,Pc.Flies]) (by simp [place,Pc.Unstored,same])
          rfl rfl (.inr fun _ old _ => old) (fun empty => ?_) kept
        refine Option.eq_none_iff_forall_ne_some.mpr fun r found => ?_
        cases cachedValue_after found with
        | inl here => exact same here.1.symm
        | inr earlier => simp [empty] at earlier
  | @published t key i result place =>
      refine phase.moved (t := t) rfl (by simp [place,Pc.Flies]) (by simp [place,Pc.Unstored]) ?_
        rfl (.inr fun _ old _ => old) (fun none => none) kept
      simp [forwards,drop,goto,entersForward]
  | @notified t key i result place =>
      by_cases same : key = k
      · subst same
        exact phase.land place
      · refine phase.steady rfl ?_ (answered_old (.inr same)) (fun none => none) kept ?_ ?_
        · simp [misses,answer,goto,same]
        · exact everywhere (p := fun u pc => pc.Flies k ↔ (s.pc u).Flies k)
            (by simp [place,Pc.Flies,same]) (by simp)
        · exact everywhere (p := fun u pc => (s.pc u).Unstored k → pc.Unstored k)
            (by simp [place,Pc.Unstored]) (by simp)

omit [DecidableEq τ] in
theorem start_phase (inner : ExactCache κ ρ) (absent : cachedValue inner k = none) :
    Phase k (start inner : State τ κ ε ρ) :=
  .fresh rfl (by simp [start]) absent (fun t => by simp [start,Pc.Flies])

theorem path_phase {inner : ExactCache κ ρ} {s : State τ κ ε ρ} (absent : cachedValue inner k = none)
    (path : Path Step (start inner) trace s) (succeeds : Met (fun _ a => Succeeds a) trace)
    (keeps : Met (Keeps k) trace) (rechecked : Met (Rechecked k) trace) : Phase k s := by
  induction path with
  | nil => exact start_phase inner absent
  | snoc prior step ih =>
      obtain ⟨succeeded,succeeds⟩ := met_snoc.mp succeeds
      obtain ⟨kept,keeps⟩ := met_snoc.mp keeps
      obtain ⟨earlier,rechecks⟩ := met_snoc.mp rechecked
      exact step_phase (reached_valid (prior.reached ⟨inner,rfl⟩)) (ih succeeded kept earlier)
        succeeds keeps rechecks step

-- Whatever is cached under the key was forwarded in this run.
def Forwarded (k : κ) (s : State τ κ ε ρ) : Prop :=
  (cachedValue s.inner k).isSome → 0 < forwards s k

theorem step_forwarded {s next : State τ κ ε ρ} (valid : Valid s) (forwarded : Forwarded k s)
    (step : Step s action next) : Forwarded k next := by
  intro cached
  cases step_change step with
  | @stored t key i value place =>
      obtain ⟨r,found⟩ := Option.isSome_iff_exists.mp cached
      cases cachedValue_after found with
      | inl here =>
          obtain ⟨rfl,_⟩ := here
          have carries : (s.pc t).role.Carries k i := by simp [place,Pc.role,Role.Carries]
          exact registered_forwards (valid.sound.carried t k i carries).1
      | inr earlier => exact forwarded (Option.isSome_iff_exists.mpr ⟨r,earlier⟩)
  | registered _ _ | collected _ _ | published _ =>
      exact Nat.lt_of_lt_of_le (forwarded cached) ((List.sublist_cons_self _ _).countP_le)
  | _ => exact forwarded cached

theorem path_forwarded {inner : ExactCache κ ρ} {s : State τ κ ε ρ}
    (absent : cachedValue inner k = none) (path : Path Step (start inner) trace s) : Forwarded k s := by
  induction path with
  | nil =>
      intro cached
      simp [start,absent] at cached
  | snoc prior step ih => exact step_forwarded (reached_valid (prior.reached ⟨inner,rfl⟩)) ih step

theorem registers_forwards {s next : State τ κ ε ρ} (registers : Registers k s action)
    (step : Step s action next) : forwards next k = forwards s k + 1 := by
  cases action with
  | run t =>
      obtain ⟨place,absent⟩ := registers
      have taken := step.symm.trans (change_step (.registered place absent))
      cases Option.some.inj taken
      simp [forwards,drop,goto,entersForward]
  | call | forwarded | spurious => cases registers

-- At most one forward of the key at any time, and once everybody is back and
-- somebody asked for it, exactly one caller reports a miss.
def OneForward (k : κ) (trace : List (State τ κ ε ρ × Action τ κ ε ρ)) (last : State τ κ ε ρ) : Prop :=
  (∀ s, Visited trace last s → forwards s k ≤ 1) ∧
    ((∀ t, (last.pc t).Ready) → (∃ row ∈ last.returns, row.2.1 = k) → misses last k = 1)

theorem one_forward_iff_rechecked {inner : ExactCache κ ρ} {last : State τ κ ε ρ}
    (absent : cachedValue inner k = none) (path : Path Step (start inner) trace last)
    (succeeds : Met (fun _ a => Succeeds a) trace) (keeps : Met (Keeps k) trace) :
    OneForward k trace last ↔ Met (Rechecked k) trace := by
  constructor
  · intro one row member registers
    refine Option.eq_none_iff_forall_ne_some.mpr fun r found => ?_
    obtain ⟨early,next,front,step,visited⟩ := path.visited_after member
    have once := one.1 next visited
    have before := path_forwarded absent front (Option.isSome_iff_exists.mpr ⟨r,found⟩)
    rw [registers_forwards registers step] at once
    exact Nat.not_lt_of_le once (Nat.succ_lt_succ before)
  · intro rechecked
    constructor
    · intro s visited
      obtain ⟨early,front,initial⟩ := path.visited visited
      cases path_phase absent front (succeeds.of_prefix initial) (keeps.of_prefix initial)
        (rechecked.of_prefix initial) with
      | fresh none _ _ _ => exact none ▸ Nat.zero_le 1
      | flying _ one _ _ _ _ => exact Nat.le_of_eq one
      | landed one _ _ _ => exact Nat.le_of_eq one
    · intro quiet asked
      obtain ⟨row,member,same⟩ := asked
      cases path_phase absent path succeeds keeps rechecked with
      | fresh _ silent _ _ => exact absurd same (silent row member)
      | flying t _ _ here _ _ =>
          rcases (quiet t).cases with place | ⟨_,_,_,place⟩ <;> rw [place] at here <;> exact here.elim
      | landed _ single _ _ => exact single

-- One caller misses `inner`; before it looks into `in_flight`, the other one's
-- whole flight passes. Then it registers again and forwards again.
def lateActions : List (Action Bool Nat Unit Nat) :=
  [.call true 0,.run true,.run true,
    .call false 0,.run false,.run false,.run false,.run false,.forwarded false (.ok 7),
    .run false,.run false,.run false,.run false,.run false,.run false,.run false,
    .run true,.run true,.forwarded true (.ok 7),
    .run true,.run true,.run true,.run true,.run true,.run true,.run true]

def lateRun : List (State Bool Nat Unit Nat × Action Bool Nat Unit Nat) × State Bool Nat Unit Nat :=
  (follow advance pairStart lateActions).getD ([],pairStart)

theorem late_path : Path Step pairStart lateRun.1 lateRun.2 :=
  follow_path (show follow advance pairStart lateActions = some lateRun from rfl)

theorem late_succeeds : Met (fun _ a => Succeeds a) lateRun.1 := by
  unfold Met
  decide

theorem late_keeps : Met (Keeps 0) lateRun.1 := by
  unfold Met
  decide

theorem one_forward_iff_rechecked_late :
    OneForward 0 lateRun.1 lateRun.2 ↔ Met (Rechecked 0) lateRun.1 :=
  one_forward_iff_rechecked rfl late_path late_succeeds late_keeps

theorem two_forwards_of_one_key : ∃ (trace : List (State Bool Nat Unit Nat × Action Bool Nat Unit Nat))
    (last : State Bool Nat Unit Nat), Path Step pairStart trace last ∧
      cachedValue pairStart.inner 0 = none ∧ Met (fun _ a => Succeeds a) trace ∧ Met (Keeps 0) trace ∧
      (∀ t, (last.pc t).Ready) ∧ forwards last 0 = 2 ∧ misses last 0 = 2 ∧ ¬ OneForward 0 trace last := by
  have twice : forwards lateRun.2 0 = 2 := by decide
  have both : misses lateRun.2 0 = 2 := by decide
  refine ⟨_,_,late_path,rfl,late_succeeds,late_keeps,?_,twice,both,?_⟩
  · intro t
    cases t <;> exact trivial
  · intro one
    have once := one.1 _ (.inl rfl)
    rw [twice] at once
    exact absurd once (by decide)

end SemanticClassifier.Cache
