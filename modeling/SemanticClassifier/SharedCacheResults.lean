import SemanticClassifier.SharedCacheSafety

namespace SemanticClassifier.Cache
open Interleaving SingleFlight

variable {τ κ ε ρ : Type} [DecidableEq τ] [DecidableEq κ]

-- A result the thread is about to store, publish or hand to its caller.
def Pc.Brings : Pc κ ε ρ → κ → Except ε ρ → Prop
  | .store key _ value,k,r | .storeHeld key _ value,k,r => key = k ∧ .ok value = r
  | .remove key _ result,k,r | .removeHeld key _ result,k,r | .publish key _ result,k,r
  | .publishHeld key _ result,k,r | .notify key _ result,k,r | .returned key result _,k,r =>
    key = k ∧ result = r
  | _,_,_ => False

-- Forwards of a key give only what is good for that key.
def Delivers (good : κ → Except ε ρ → Prop) (s : State τ κ ε ρ) : Action τ κ ε ρ → Prop
  | .forwarded t result => ∀ k i, s.pc t = .forward k i → good k result
  | _ => True

structure Trusted (good : κ → Except ε ρ → Prop) (s : State τ κ ε ρ) : Prop where
  cached : ∀ k value, cachedValue s.inner k = some value → good k (.ok value)
  brought : ∀ t k r, (s.pc t).Brings k r → good k r
  filled : ∀ u k i r, .registered u k i ∈ s.log → s.slots[i]? = some (some r) → good k r

variable {good : κ → Except ε ρ → Prop}

omit [DecidableEq τ] [DecidableEq κ] in
theorem enter_brings {pc after : Pc κ ε ρ} (entering : pc.enter = some (lock,after))
    (brings : after.Brings k r) : pc.Brings k r := by
  cases pc <;> simp only [Pc.enter,Option.some.injEq,reduceCtorEq] at entering
  all_goals
    obtain ⟨rfl,rfl⟩ := Prod.mk.inj entering
    exact brings

omit [DecidableEq τ] [DecidableEq κ] in
theorem woken_brings {pc : Pc κ ε ρ} (brings : (pc.woken i).Brings k r) : pc.Brings k r := by
  cases pc with
  | asleep key slot =>
      simp only [Pc.woken] at brings
      split at brings <;> exact brings
  | _ => exact brings

omit [DecidableEq κ] in
theorem brought_update {f : τ → Pc κ ε ρ} (brought : ∀ u k r, (f u).Brings k r → good k r)
    (brings : ∀ k r, after.Brings k r → good k r) :
    ∀ u k r, (Function.update f t after u).Brings k r → good k r :=
  (Function.forall_update_iff f (p := fun _ pc => ∀ k r, pc.Brings k r → good k r)).mpr
    ⟨brings,fun u _ => brought u⟩

omit [DecidableEq κ] in
theorem good_one {key : κ} {result : Except ε ρ} (mine : good key result) (k : κ) (r : Except ε ρ)
    (same : key = k ∧ result = r) : good k r := by
  obtain ⟨rfl,rfl⟩ := same
  exact mine

-- One thread moves on; what it brings is good and all else stays.
theorem Trusted.moved {s next : State τ κ ε ρ} (trusted : Trusted good s)
    (pc : next.pc = Function.update s.pc t after) (brings : ∀ k r, after.Brings k r → good k r)
    (inner : next.inner = s.inner) (slots : next.slots = s.slots)
    (log : ∀ u k i, .registered u k i ∈ next.log → .registered u k i ∈ s.log) :
    Trusted good next where
  cached := inner ▸ trusted.cached
  brought := pc ▸ brought_update trusted.brought brings
  filled := slots ▸ fun u k i r member => trusted.filled u k i r (log u k i member)

theorem step_trusted {s next : State τ κ ε ρ} (valid : Valid s) (trusted : Trusted good s)
    (delivers : Delivers good s action) (step : Step s action next) : Trusted good next := by
  cases step_change step with
  | called _ => exact trusted.moved rfl (by simp [Pc.Brings]) rfl rfl (fun _ _ _ old => old)
  | missed _ _ | joined _ _ | slept _ _ | woke _ | unwrapped _ _ =>
      exact trusted.moved rfl (by simp [Pc.Brings]) rfl rfl (fun _ _ _ old => old)
  | @entered t lock pc entering _ =>
      exact trusted.moved rfl (fun k r brings => trusted.brought t k r (enter_brings entering brings))
        rfl rfl (fun _ _ _ old => old)
  | @hit t key value place found =>
      exact trusted.moved rfl (good_one (trusted.cached key value found)) rfl rfl (fun _ _ _ old => old)
  | @registered t key place found =>
      refine ⟨trusted.cached,brought_update trusted.brought (by simp [Pc.Brings]),?_⟩
      intro u k i r member full
      cases List.mem_cons.mp member with
      | inl here =>
          cases here
          simp [drop,goto] at full
      | inr earlier =>
          have inside : i < s.slots.length := valid.sound.allocated u k i earlier
          simp only [drop,goto,List.getElem?_append_left inside] at full
          exact trusted.filled u k i r earlier full
  | @collected t key i result place found =>
      obtain ⟨u,registered⟩ := valid.sound.waits t key i (by simp [flights,place,Pc.role,Role.Waits])
      refine trusted.moved rfl (good_one (trusted.filled u key i result registered found)) rfl rfl ?_
      simp [answer,goto]
  | @succeeded t key i value place =>
      exact trusted.moved rfl (good_one (delivers key i place)) rfl rfl (fun _ _ _ old => old)
  | @failed t key i e place =>
      exact trusted.moved rfl (good_one (delivers key i place)) rfl rfl (fun _ _ _ old => old)
  | @stored t key i value place =>
      have mine : good key (.ok value) := trusted.brought t key _ (by simp [place,Pc.Brings])
      refine ⟨?_,brought_update trusted.brought (good_one mine),trusted.filled⟩
      intro k r found
      cases cachedValue_after found with
      | inl here =>
          obtain ⟨rfl,rfl⟩ := here
          exact mine
      | inr earlier => exact trusted.cached k r earlier
  | @removed t key i j result place found =>
      refine trusted.moved rfl ?_ rfl rfl (fun _ _ _ old => old)
      intro k r brings
      exact trusted.brought t k r (by simpa [place,Pc.Brings] using brings)
  | @published t key i result place =>
      have mine : good key result := trusted.brought t key _ (by simp [place,Pc.Brings])
      have registered := (valid.sound.carried t key i (by simp [flights,place,Pc.role,Role.Carries])).1
      refine ⟨trusted.cached,brought_update trusted.brought (good_one mine),?_⟩
      intro u k j r member full
      have old : .registered u k j ∈ s.log := by simpa [drop,goto] using member
      by_cases same : j = i
      · subst same
        obtain ⟨_,rfl⟩ := valid.sound.owner _ _ _ _ _ old registered
        have inside : j < s.slots.length := valid.sound.allocated u k j old
        simp only [drop,goto,List.getElem?_set_self inside,Option.some.injEq] at full
        exact full ▸ mine
      · simp only [drop,goto,List.getElem?_set_ne (Ne.symm same)] at full
        exact trusted.filled u k j r old full
  | @notified t key i result place =>
      have mine : good key result := trusted.brought t key _ (by simp [place,Pc.Brings])
      refine ⟨trusted.cached,brought_update (fun u k r brings => ?_) (good_one mine),trusted.filled⟩
      exact trusted.brought u k r (woken_brings brings)

omit [DecidableEq τ] in
theorem start_trusted (capacity : Nat) :
    Trusted good (start (withCapacity κ ρ capacity) : State τ κ ε ρ) where
  cached k value found := by
    have none := cachedValue_new κ ρ capacity k
    cases none.symm.trans found
  brought := by simp [start,Pc.Brings]
  filled := by simp [start]

-- The key of the call a thread is in.
def Pc.key : Pc κ ε ρ → Option κ
  | .lookup k | .lookupHeld k | .check k | .checkHeld k | .join k _ | .joinHeld k _ | .asleep k _
  | .forward k _ | .store k _ _ | .storeHeld k _ _ | .remove k _ _ | .removeHeld k _ _
  | .publish k _ _ | .publishHeld k _ _ | .notify k _ _ | .returned k _ _ => some k
  | .idle | .panicked => none

omit [DecidableEq τ] [DecidableEq κ] in
theorem enter_key {pc after : Pc κ ε ρ} (entering : pc.enter = some (lock,after)) :
    after.key = pc.key := by
  cases pc <;> simp only [Pc.enter,Option.some.injEq,reduceCtorEq] at entering
  all_goals
    obtain ⟨rfl,rfl⟩ := Prod.mk.inj entering
    rfl

omit [DecidableEq τ] [DecidableEq κ] in
theorem woken_key (pc : Pc κ ε ρ) (i : Nat) : (pc.woken i).key = pc.key := by
  cases pc with
  | asleep key slot =>
      simp only [Pc.woken]
      split <;> rfl
  | _ => rfl

omit [DecidableEq κ] in
theorem key_update {f : τ → Pc κ ε ρ} (same : after.key = (f t).key) (u : τ) :
    (Function.update f t after u).key = (f u).key :=
  (Function.forall_update_iff f (p := fun u pc => pc.key = (f u).key)).mpr ⟨same,fun _ _ => rfl⟩ u

-- A step keeps every thread's key, unless it begins a call.
theorem step_key {s next : State τ κ ε ρ} (valid : Valid s) (step : Step s action next)
    (inside : ∀ t k, action ≠ .call t k) (u : τ) : (next.pc u).key = (s.pc u).key := by
  cases step_change step with
  | @called t key _ => exact absurd rfl (inside t key)
  | entered entering _ => exact key_update (enter_key entering) u
  | unwrapped place found =>
      rw [unwrap_present valid.sound place] at found
      cases found
  | @notified t key i result place =>
      refine (key_update (f := fun v => (s.pc v).woken i) ?_ u).trans (woken_key _ _)
      simp [place,Pc.key,Pc.woken]
  | hit place _ | missed place _ | joined place _ | registered place _ | collected place _
  | slept place _ | removed place _ | woke place | succeeded place | failed place | stored place
  | published place => exact key_update (by simp [place,Pc.key]) u

theorem call_key {s next : State τ κ ε ρ} (step : Step s (.call t k) next) (u : τ) :
    (next.pc u).key = if u = t then some k else (s.pc u).key := by
  cases step_change step with
  | called _ =>
      simp only [goto,Function.update_apply]
      split <;> rfl

def Action.thread : Action τ κ ε ρ → τ
  | .call t _ | .run t | .forwarded t _ | .spurious t => t

-- Everybody else stays where it is, or is woken there.
theorem step_others {s next : State τ κ ε ρ} (step : Step s action next) (u : τ)
    (other : u ≠ action.thread) : next.pc u = s.pc u ∨ ∃ i, next.pc u = (s.pc u).woken i := by
  cases step_change step with
  | @notified t key i result place =>
      refine .inr ⟨i,?_⟩
      have elsewhere : u ≠ t := other
      simp [answer,goto,elsewhere]
  | called _ | entered _ _ | hit _ _ | missed _ _ | joined _ _ | registered _ _ | collected _ _
  | slept _ _ | woke _ | succeeded _ | failed _ | stored _ | removed _ _ | unwrapped _ _
  | published _ =>
      refine .inl ?_
      simp only [Action.thread] at other
      simp [answer,drop,goto,other]

-- Steps of its own are taken by a thread inside a call and outside the forward.
theorem own_step_inside {s next : State τ κ ε ρ} (step : Step s action next)
    (own : action = .run t ∨ action = .spurious t) :
    ¬ (s.pc t).Ready ∧ ∀ k i, s.pc t ≠ .forward k i := by
  rcases own with rfl | rfl
  · cases step_change step with
    | entered entering _ =>
        refine ⟨enter_busy entering,fun k i place => ?_⟩
        rw [place] at entering
        cases entering
    | hit place _ | missed place _ | joined place _ | registered place _ | collected place _
    | slept place _ | removed place _ | unwrapped place _ | stored place | published place
    | notified place => simp [place,Pc.Ready]
  · cases step_change step with
    | woke place => simp [place,Pc.Ready]

end SemanticClassifier.Cache
