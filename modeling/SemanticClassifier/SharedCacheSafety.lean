import SemanticClassifier.SharedCache

namespace SemanticClassifier.Cache
open Interleaving SingleFlight

variable {τ κ ε ρ : Type} [DecidableEq τ] [DecidableEq κ]

-- What a place in the code means for the flights.
def Pc.role : Pc κ ε ρ → Role κ (Except ε ρ)
  | .forward key i | .store key i _ | .storeHeld key i _ | .remove key i _
  | .removeHeld key i _ => .flying key i
  | .publish key i result | .publishHeld key i result => .publishing key i result
  | .notify _ i _ => .notifying i
  | .join key i | .joinHeld key i => .waiting key i
  | .asleep key i => .sleeping key i
  | _ => .out

def flights (s : State τ κ ε ρ) : SingleFlight.State τ κ (Except ε ρ) :=
  ⟨s.inFlight,s.slots,fun t => (s.pc t).role,s.log⟩

omit [DecidableEq κ] in
theorem role_update (pc : τ → Pc κ ε ρ) (t : τ) (after : Pc κ ε ρ) :
    (fun u => (Function.update pc t after u).role) =
      Function.update (fun u => (pc u).role) t after.role :=
  Function.comp_update Pc.role pc t after

omit [DecidableEq κ] in
theorem role_unmoved {pc : τ → Pc κ ε ρ} {t : τ} {after : Pc κ ε ρ}
    (same : after.role = (pc t).role) :
    (fun u => (Function.update pc t after u).role) = fun u => (pc u).role := by
  rw [role_update,same]
  exact Function.update_eq_self t _

omit [DecidableEq τ] [DecidableEq κ] in
theorem role_woken (pc : Pc κ ε ρ) (i : Nat) : (pc.woken i).role = pc.role.woken i := by
  cases pc with
  | asleep key slot =>
      simp only [Pc.woken,Pc.role,Role.woken]
      by_cases same : slot = i
      · rw [if_pos same,if_pos same]
      · rw [if_neg same,if_neg same]
  | _ => rfl

omit [DecidableEq τ] [DecidableEq κ] in
theorem enter_role {pc after : Pc κ ε ρ} (entering : pc.enter = some (lock,after)) :
    after.role = pc.role := by
  cases pc <;> simp only [Pc.enter,Option.some.injEq,reduceCtorEq] at entering
  all_goals
    obtain ⟨rfl,rfl⟩ := Prod.mk.inj entering
    rfl

-- The key a designated forwarder registered is still there when it comes back.
omit [DecidableEq τ] in
theorem unwrap_present {s : State τ κ ε ρ} (sound : Sound (flights s))
    (place : s.pc t = .removeHeld key i result) : s.inFlight.lookup key = some i :=
  (sound.flights key i).mpr ⟨t,by simp [flights,place,Pc.role]⟩

-- Every lock-granular step is one step of the protocol or none.
theorem change_simulates {s next : State τ κ ε ρ}
    (listed : ∀ t k i, (s.pc t).role = .flying k i → s.inFlight.lookup k = some i)
    (change : Change s action next) :
    flights next = flights s ∨ SingleFlight.Step (flights s) (flights next) := by
  cases change with
  | @called t key ready =>
      refine .inl ?_
      unfold flights goto
      rw [role_unmoved]
      rcases ready.cases with place | ⟨_,_,_,place⟩ <;> rw [place] <;> rfl
  | entered entering _ =>
      refine .inl ?_
      unfold flights goto
      rw [role_unmoved (enter_role entering)]
  | hit place _ | missed place _ | stored place | succeeded place | failed place =>
      refine .inl ?_
      simp only [flights,answer,drop,goto]
      rw [role_unmoved (by simp [place,Pc.role])]
  | unwrapped place found =>
      rw [listed _ _ _ (congrArg Pc.role place)] at found
      cases found
  | joined place found =>
      refine .inr ?_
      simp only [flights,drop,goto,role_update]
      exact .join (by simp [place,Pc.role]) found
  | registered place found =>
      refine .inr ?_
      simp only [flights,drop,goto,role_update]
      exact .register (by simp [place,Pc.role]) found
  | collected place found =>
      refine .inr ?_
      simp only [flights,answer,goto,role_update]
      exact .collect (by simp [place,Pc.role]) found
  | slept place found =>
      refine .inr ?_
      simp only [flights,drop,goto,role_update]
      exact .sleep (by simp [place,Pc.role]) found
  | woke place =>
      refine .inr ?_
      simp only [flights,goto,role_update]
      exact .wake (by simp [place,Pc.role])
  | removed place found =>
      refine .inr ?_
      simp only [flights,drop,goto,role_update]
      exact .remove (congrArg Pc.role place) found
  | published place =>
      refine .inr ?_
      simp only [flights,drop,goto,role_update]
      exact .publish (congrArg Pc.role place)
  | notified place =>
      refine .inr ?_
      simp only [flights,answer,goto,role_update,role_woken]
      exact .notify (by simp [place,Pc.role])

theorem step_flights {s next : State τ κ ε ρ} (sound : Sound (flights s))
    (step : Step s action next) : Sound (flights next) := by
  cases change_simulates (fun t k i here => (sound.flights k i).mpr ⟨t,here⟩) (step_change step) with
  | inl same => exact same ▸ sound
  | inr moved => exact step_sound sound moved

def Owned (s : State τ κ ε ρ) : Prop := Mutex.Agrees s.locks (fun t => (s.pc t).Holds)

omit [DecidableEq τ] [DecidableEq κ] in
theorem woken_holds (pc : Pc κ ε ρ) (i : Nat) : (pc.woken i).Holds = pc.Holds := by
  cases pc with
  | asleep key slot =>
      simp only [Pc.woken]
      split <;> rfl
  | _ => rfl

omit [DecidableEq τ] [DecidableEq κ] in
theorem enter_holds {pc after : Pc κ ε ρ} (entering : pc.enter = some (lock,after)) :
    ∀ other, after.Holds other ↔ other = lock ∨ pc.Holds other := by
  intro other
  cases pc <;> simp only [Pc.enter,Option.some.injEq,reduceCtorEq] at entering
  all_goals
    obtain ⟨rfl,rfl⟩ := Prod.mk.inj entering
    simp [Pc.Holds]

theorem step_owned {s next : State τ κ ε ρ} (valid : Owned s) (step : Step s action next) :
    Owned next := by
  cases step_change step with
  | @called t key ready =>
      refine valid.keep ?_
      rcases ready.cases with place | ⟨_,_,_,place⟩ <;> simp [place,Pc.Holds]
  | entered entering free => exact valid.take free (enter_holds entering)
  | hit place _ | missed place _ | joined place _ | registered place _ | collected place _
  | slept place _ | stored place | removed place _ | unwrapped place _ | published place =>
      exact valid.drop (by simp [place,Pc.Holds]) (by simp [place,Pc.Holds])
  | woke place | succeeded place | failed place => exact valid.keep (by simp [place,Pc.Holds])
  | @notified t key i result place =>
      have still : Owned {s with pc := fun u => (s.pc u).woken i} := by
        unfold Owned
        simp only [woken_holds]
        exact valid
      exact still.keep (by simp [place,Pc.woken,Pc.Holds])

-- What a coalesced caller was handed is what it read in the slot it joined.
def Collected (s : State τ κ ε ρ) : Prop := ∀ t k r, s.pc t = .returned k r .coalesced →
  ∃ i, .collected t k i r ∈ s.log

omit [DecidableEq κ] in
theorem update_elsewhere {f : τ → Pc κ ε ρ} (here : Function.update f t after u = place)
    (other : after ≠ place) : f u = place := by
  cases eq_or_ne u t with
  | inl same =>
      subst same
      rw [Function.update_self] at here
      exact absurd here other
  | inr apart => rwa [Function.update_of_ne apart] at here

omit [DecidableEq τ] [DecidableEq κ] in
theorem enter_inside {pc after : Pc κ ε ρ} (entering : pc.enter = some (lock,after)) :
    after.Holds lock := (enter_holds entering lock).mpr (.inl rfl)

omit [DecidableEq τ] [DecidableEq κ] in
-- A wakeup takes a thread nowhere but to `join`.
theorem woken_same {pc place : Pc κ ε ρ} (here : pc.woken i = place)
    (elsewhere : ∀ key slot, place ≠ .join key slot) : pc = place := by
  cases pc with
  | asleep key slot =>
      simp only [Pc.woken] at here
      split at here
      · exact absurd here.symm (elsewhere key slot)
      · exact here
  | _ => exact here

theorem step_collected {s next : State τ κ ε ρ} (valid : Collected s) (step : Step s action next) :
    Collected next := by
  intro u k r here
  cases step_change step with
  | called _ | woke _ | succeeded _ | failed _ | missed _ _ | joined _ _ | slept _ _ | stored _
  | removed _ _ | unwrapped _ _ | hit _ _ => exact valid u k r (update_elsewhere here (by simp))
  | entered entering _ =>
      refine valid u k r (update_elsewhere here ?_)
      rintro rfl
      exact enter_inside entering
  | registered _ _ | published _ =>
      obtain ⟨i,member⟩ := valid u k r (update_elsewhere here (by simp))
      exact ⟨i,List.mem_cons_of_mem _ member⟩
  | @collected t key i result place found =>
      cases eq_or_ne u t with
      | inl same =>
          subst same
          simp only [answer,goto,Function.update_self] at here
          cases here
          exact ⟨i,List.mem_cons_self⟩
      | inr apart =>
          simp only [answer,goto,Function.update_of_ne apart] at here
          obtain ⟨j,member⟩ := valid u k r here
          exact ⟨j,List.mem_cons_of_mem _ member⟩
  | @notified t key i result _ =>
      have before := update_elsewhere (f := fun v => (s.pc v).woken i) here (by simp)
      exact valid u k r (woken_same before (by simp))

def Calm (s : State τ κ ε ρ) : Prop := ∀ t, s.pc t ≠ .panicked

theorem step_calm {s next : State τ κ ε ρ} (sound : Sound (flights s)) (valid : Calm s)
    (step : Step s action next) : Calm next := by
  intro u here
  cases step_change step with
  | called _ | woke _ | succeeded _ | failed _ | missed _ _ | joined _ _ | slept _ _ | stored _
  | removed _ _ | registered _ _ | published _ | collected _ _ | hit _ _ =>
      exact valid u (update_elsewhere here (by simp))
  | entered entering _ =>
      refine valid u (update_elsewhere here ?_)
      rintro rfl
      exact enter_inside entering
  | unwrapped place found =>
      rw [unwrap_present sound place] at found
      cases found
  | notified _ =>
      have before := update_elsewhere here (by simp)
      exact valid u (woken_same before (by simp))

structure Valid (s : State τ κ ε ρ) : Prop where
  owned : Owned s
  sound : Sound (flights s)
  collected : Collected s
  calm : Calm s

omit [DecidableEq τ] in
theorem start_valid (inner : ExactCache κ ρ) : Valid (start inner : State τ κ ε ρ) where
  owned := by
    intro lock thread
    simp [start,Pc.Holds]
  sound := start_sound ⟨rfl,rfl,fun _ => rfl,rfl⟩
  collected := by
    intro t k r here
    cases here
  calm := by
    intro t here
    cases here

theorem step_valid {s next : State τ κ ε ρ} (valid : Valid s) (step : Step s action next) :
    Valid next :=
  ⟨step_owned valid.owned step,step_flights valid.sound step,step_collected valid.collected step,
    step_calm valid.sound valid.calm step⟩

abbrev Start (s : State τ κ ε ρ) : Prop := ∃ inner, s = start inner

theorem reached_valid {s : State τ κ ε ρ} (reached : Reached Start Step s) : Valid s := by
  apply reached.preserves
  · intro s fresh
    obtain ⟨inner,rfl⟩ := fresh
    exact start_valid inner
  · intro s action next valid step
    exact step_valid valid step

-- Between registering the slot of a key and removing it.
def Pc.Designated : Pc κ ε ρ → κ → Prop
  | .forward key _,k | .store key _ _,k | .storeHeld key _ _,k | .remove key _ _,k
  | .removeHeld key _ _,k => key = k
  | _,_ => False

-- From registering a slot to waking those who sleep on it.
def Pc.Serves : Pc κ ε ρ → Nat → Prop
  | .forward _ i,j | .store _ i _,j | .storeHeld _ i _,j | .remove _ i _,j | .removeHeld _ i _,j
  | .publish _ i _,j | .publishHeld _ i _,j | .notify _ i _,j => i = j
  | _,_ => False

omit [DecidableEq τ] [DecidableEq κ] in
theorem designated_iff (pc : Pc κ ε ρ) (k : κ) : pc.Designated k ↔ ∃ i, pc.role = .flying k i := by
  cases pc <;> simp [Pc.Designated,Pc.role]

omit [DecidableEq τ] [DecidableEq κ] in
theorem carries_serves {pc : Pc κ ε ρ} (carries : pc.role.Carries k i) : pc.Serves i := by
  cases pc <;> simp_all [Pc.role,Role.Carries,Pc.Serves]

omit [DecidableEq τ] in
theorem in_flight_iff_designated {s : State τ κ ε ρ} (valid : Valid s) (k : κ) :
    k ∈ s.inFlight ↔ ∃! t, (s.pc t).Designated k := by
  constructor
  · intro present
    obtain ⟨i,found⟩ := Option.isSome_iff_exists.mp (Finmap.lookup_isSome.mpr present)
    obtain ⟨t,flying⟩ := (valid.sound.flights k i).mp found
    refine ⟨t,(designated_iff _ _).mpr ⟨i,flying⟩,fun u also => ?_⟩
    obtain ⟨j,other⟩ := (designated_iff _ _).mp also
    exact (valid.sound.alone flying other).symm
  · intro designated
    obtain ⟨t,here,_⟩ := designated
    obtain ⟨i,flying⟩ := (designated_iff _ _).mp here
    exact Finmap.lookup_isSome.mp
      (Option.isSome_iff_exists.mpr ⟨i,(valid.sound.flights k i).mpr ⟨t,flying⟩⟩)

omit [DecidableEq τ] in
-- One publication a slot: none while somebody carries it, exactly one after.
theorem publications_once {s : State τ κ ε ρ} (valid : Valid s) (inside : i < s.slots.length) :
    (publications s.log i = 0 ∧ ∃ t, (s.pc t).Serves i) ∨
      (publications s.log i = 1 ∧ ∃ u r, .published u i r ∈ s.log ∧ s.slots[i]? = some (some r)) := by
  have here : s.slots[i]? = some s.slots[i] := List.getElem?_eq_getElem inside
  cases content : s.slots[i] with
  | none =>
      rw [content] at here
      obtain ⟨none,t,k,carries⟩ := valid.sound.empty i here
      exact .inl ⟨none,t,carries_serves carries⟩
  | some r =>
      rw [content] at here
      obtain ⟨one,u,published⟩ := valid.sound.filled i r here
      exact .inr ⟨one,u,r,published,here⟩

omit [DecidableEq τ] in
theorem coalesced_result {s : State τ κ ε ρ} (valid : Valid s)
    (here : s.pc t = .returned k r .coalesced) : ∃ u i, .collected t k i r ∈ s.log ∧
      .registered u k i ∈ s.log ∧ .published u i r ∈ s.log := by
  obtain ⟨i,collected⟩ := valid.collected t k r here
  obtain ⟨u,registered,published⟩ := valid.sound.collected t k i r collected
  exact ⟨u,i,collected,registered,published⟩

omit [DecidableEq τ] in
-- Whoever sleeps on a slot has its forwarder still at work, on another thread.
theorem asleep_served {s : State τ κ ε ρ} (valid : Valid s) (asleep : s.pc t = .asleep k i) :
    ∃ u, u ≠ t ∧ .registered u k i ∈ s.log ∧ (s.pc u).Serves i := by
  have role : (flights s).role t = .sleeping k i := congrArg Pc.role asleep
  obtain ⟨v,registered⟩ := valid.sound.waits t k i (by simp [role,Role.Waits])
  have working : ∃ u l, .registered u l i ∈ s.log ∧ (s.pc u).Serves i := by
    cases valid.sound.sleepers t k i role with
    | inl vacant =>
        obtain ⟨_,u,l,carries⟩ := valid.sound.empty i vacant
        exact ⟨u,l,(valid.sound.carried u l i carries).1,carries_serves carries⟩
    | inr waking =>
        obtain ⟨u,notifying⟩ := waking
        obtain ⟨l,also⟩ := valid.sound.notifier u i notifying
        refine ⟨u,l,also,?_⟩
        have place : (s.pc u).role = .notifying i := notifying
        cases at_ : s.pc u <;> simp_all [Pc.role,Pc.Serves]
  obtain ⟨u,l,also,serves⟩ := working
  obtain ⟨rfl,rfl⟩ := valid.sound.owner _ _ _ _ _ registered also
  refine ⟨v,?_,registered,serves⟩
  intro same
  rw [same,asleep] at serves
  exact serves

-- A step the thread itself takes inside its call.
def Moves (s : State τ κ ε ρ) (t : τ) : Prop :=
  (∃ next, Step s (.run t) next) ∨ ∃ r next, Step s (.forwarded t r) next

theorem inside_moves {s : State τ κ ε ρ} (valid : Valid s) (inside : ∃ lock, (s.pc t).Holds lock) :
    Moves s t := by
  obtain ⟨lock,inside⟩ := inside
  refine .inl ?_
  cases place : s.pc t with
  | lookupHeld key =>
      cases found : cachedValue s.inner key with
      | none => exact ⟨_,change_step (.missed place found)⟩
      | some value => exact ⟨_,change_step (.hit place found)⟩
  | checkHeld key =>
      cases found : s.inFlight.lookup key with
      | none => exact ⟨_,change_step (.registered place found)⟩
      | some i => exact ⟨_,change_step (.joined place found)⟩
  | joinHeld key i =>
      obtain ⟨u,registered⟩ := valid.sound.waits t key i (by simp [flights,place,Pc.role,Role.Waits])
      have bound : i < s.slots.length := valid.sound.allocated u key i registered
      have found : s.slots[i]? = some s.slots[i] := List.getElem?_eq_getElem bound
      cases content : s.slots[i] with
      | none => exact ⟨_,change_step (.slept place (found.trans (by rw [content])))⟩
      | some result => exact ⟨_,change_step (.collected place (found.trans (by rw [content])))⟩
  | storeHeld key i value => exact ⟨_,change_step (.stored place)⟩
  | removeHeld key i result =>
      exact ⟨_,change_step (.removed place (unwrap_present valid.sound place))⟩
  | publishHeld key i result => exact ⟨_,change_step (.published place)⟩
  | _ => simp [place,Pc.Holds] at inside

omit [DecidableEq τ] [DecidableEq κ] in
theorem holds_busy {pc : Pc κ ε ρ} (inside : pc.Holds lock) : ¬ pc.Ready := by
  cases pc <;> simp_all [Pc.Holds,Pc.Ready]

omit [DecidableEq τ] [DecidableEq κ] in
theorem enter_busy {pc after : Pc κ ε ρ} (entering : pc.enter = some (lock,after)) : ¬ pc.Ready := by
  intro ready
  rcases ready.cases with rfl | ⟨_,_,_,rfl⟩ <;> cases entering

theorem entering_progress {s : State τ κ ε ρ} (valid : Valid s)
    (entering : (s.pc t).enter = some (lock,pc)) : ∃ u, ¬ (s.pc u).Ready ∧ Moves s u := by
  cases owner : s.locks lock with
  | none =>
      exact ⟨t,enter_busy entering,.inl ⟨_,change_step (.entered entering owner)⟩⟩
  | some u =>
      have inside := (valid.owned lock u).mp owner
      exact ⟨u,holds_busy inside,inside_moves valid ⟨lock,inside⟩⟩

theorem serving_progress [Inhabited ρ] {s : State τ κ ε ρ} (valid : Valid s)
    (serves : (s.pc t).Serves i) : ∃ u, ¬ (s.pc u).Ready ∧ Moves s u := by
  cases place : s.pc t with
  | forward key j =>
      exact ⟨t,by simp [place,Pc.Ready],.inr ⟨.ok default,_,change_step (.succeeded place)⟩⟩
  | notify key j result => exact ⟨t,by simp [place,Pc.Ready],.inl ⟨_,change_step (.notified place)⟩⟩
  | store | remove | publish =>
      apply entering_progress valid (t := t)
      rw [place]
      rfl
  | storeHeld | removeHeld | publishHeld =>
      refine ⟨t,by simp [place,Pc.Ready],inside_moves valid (t := t) ?_⟩
      rw [place]
      exact ⟨_,rfl⟩
  | _ => simp [place,Pc.Serves] at serves

theorem unfinished_progress [Inhabited ρ] {s : State τ κ ε ρ} (valid : Valid s)
    (unfinished : ¬ (s.pc t).Ready) : ∃ u, ¬ (s.pc u).Ready ∧ Moves s u := by
  cases place : s.pc t with
  | idle | returned => simp [place,Pc.Ready] at unfinished
  | panicked => exact absurd place (valid.calm t)
  | asleep key i =>
      obtain ⟨u,_,_,serves⟩ := asleep_served valid place
      exact serving_progress valid serves
  | lookup | check | join | store | remove | publish =>
      apply entering_progress valid (t := t)
      rw [place]
      rfl
  | lookupHeld | checkHeld | joinHeld | storeHeld | removeHeld | publishHeld =>
      refine ⟨t,unfinished,inside_moves valid (t := t) ?_⟩
      rw [place]
      exact ⟨_,rfl⟩
  | forward | notify =>
      apply serving_progress valid (t := t)
      rw [place]
      rfl

theorem single_flight_safe [Inhabited ρ] {s : State τ κ ε ρ} (reached : Reached Start Step s) :
    (∀ k, k ∈ s.inFlight ↔ ∃! t, (s.pc t).Designated k) ∧
    (∀ t u k i j, s.pc t = .forward k i → s.pc u = .forward k j → t = u) ∧
    (∀ t, s.pc t ≠ .panicked) ∧
    (∀ i < s.slots.length, (publications s.log i = 0 ∧ ∃ t, (s.pc t).Serves i) ∨
      (publications s.log i = 1 ∧ ∃ u r, .published u i r ∈ s.log ∧ s.slots[i]? = some (some r))) ∧
    (∀ t k r, s.pc t = .returned k r .coalesced → ∃ u i, .collected t k i r ∈ s.log ∧
      .registered u k i ∈ s.log ∧ .published u i r ∈ s.log) ∧
    (∀ t k i, s.pc t = .asleep k i →
      ∃ u, u ≠ t ∧ .registered u k i ∈ s.log ∧ (s.pc u).Serves i) ∧
    ((∃ t, ¬ (s.pc t).Ready) → ∃ u, ¬ (s.pc u).Ready ∧ Moves s u) := by
  have valid := reached_valid reached
  refine ⟨in_flight_iff_designated valid,?_,valid.calm,fun i inside => publications_once valid inside,
    fun t k r here => coalesced_result valid here,fun t k i asleep => asleep_served valid asleep,?_⟩
  · intro t u k i j one two
    exact valid.sound.alone (congrArg Pc.role one) (congrArg Pc.role two)
  · intro unfinished
    obtain ⟨t,busy⟩ := unfinished
    exact unfinished_progress valid busy

-- One caller inside its forward, a second one asleep on its slot.
def pairStart : State Bool Nat Unit Nat := start (withCapacity Nat Nat 4)

def pairActions : List (Action Bool Nat Unit Nat) :=
  [.call false 0,.run false,.run false,.run false,.run false,
    .call true 0,.run true,.run true,.run true,.run true,.run true,.run true]

def pairRun : List (State Bool Nat Unit Nat × Action Bool Nat Unit Nat) × State Bool Nat Unit Nat :=
  (follow advance pairStart pairActions).getD ([],pairStart)

theorem single_flight_safe_pair : pairRun.2.pc true = .asleep 0 0 ∧
    (0 ∈ pairRun.2.inFlight ↔ ∃! t, (pairRun.2.pc t).Designated 0) ∧
    ∃ u, ¬ (pairRun.2.pc u).Ready ∧ Moves pairRun.2 u := by
  have followed : follow advance pairStart pairActions = some pairRun := rfl
  have reached : Reached Start Step pairRun.2 := (follow_path followed).reached ⟨_,rfl⟩
  obtain ⟨designated,_,_,_,_,_,progress⟩ := single_flight_safe reached
  have asleep : pairRun.2.pc true = .asleep 0 0 := rfl
  exact ⟨asleep,designated 0,progress ⟨true,by simp [asleep,Pc.Ready]⟩⟩

end SemanticClassifier.Cache
