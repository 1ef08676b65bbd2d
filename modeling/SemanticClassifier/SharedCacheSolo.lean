import SemanticClassifier.ExactCacheFifo
import SemanticClassifier.SharedCacheBound
import SemanticClassifier.SharedCacheResults

namespace SemanticClassifier.Cache

variable {τ κ ε ρ : Type} [DecidableEq κ]

-- A store that has no need to evict.
structure Room (kept : Finset κ) (cache : ExactCache κ ρ) : Prop where
  within : ∀ k ∈ cache.entries, k ∈ kept
  fits : kept.card ≤ cache.capacity

omit [DecidableEq κ] in
theorem Room.free {kept : Finset κ} {cache : ExactCache κ ρ} (room : Room kept cache)
    (member : key ∈ kept) (absent : key ∉ cache.entries) : cache.entries.keys.card < cache.capacity := by
  refine Nat.lt_of_lt_of_le (Finset.card_lt_card ?_) room.fits
  refine Finset.ssubset_iff_of_subset ?_ |>.mpr ⟨key,member,fun there => absent (Finmap.mem_keys.mp there)⟩
  intro k there
  exact room.within k (Finmap.mem_keys.mp there)

theorem store_entries {cache : ExactCache κ ρ}
    (room : key ∉ cache.entries → cache.entries.keys.card < cache.capacity) (result : ρ) (k : κ) :
    k ∈ (store cache key result).entries ↔ k = key ∨ k ∈ cache.entries := by
  by_cases present : key ∈ cache.entries
  · rw [store,if_pos present]
    exact Finmap.mem_insert
  · rw [store,if_neg present,evict_room (room present)]
    exact Finmap.mem_insert

theorem storeAfterForward_entries {cache : ExactCache κ ρ}
    (room : key ∉ cache.entries → cache.entries.keys.card < cache.capacity) (result : ρ) (k : κ) :
    k ∈ (storeAfterForward cache key result).entries ↔ k = key ∨ k ∈ cache.entries := by
  let counted : ExactCache κ ρ := {cache with forwardCount := cache.forwardCount+1}
  have free : key ∉ counted.entries → counted.entries.keys.card < counted.capacity := room
  exact store_entries free result k

theorem storeAfterForward_capacity (cache : ExactCache κ ρ) (key : κ) (result : ρ) :
    (storeAfterForward cache key result).capacity = cache.capacity := by
  unfold storeAfterForward store
  split <;> rfl

theorem Room.stored {kept : Finset κ} {cache : ExactCache κ ρ} (room : Room kept cache)
    (member : key ∈ kept) (result : ρ) : Room kept (storeAfterForward cache key result) where
  within := by
    intro k there
    rcases (storeAfterForward_entries (room.free member) result k).mp there with rfl | before
    · exact member
    · exact room.within k before
  fits := by
    rw [storeAfterForward_capacity]
    exact room.fits

-- Where a call stands that shares its key with no other call. `warm` are the
-- keys that were cached before, `held` those that are now.
def Pc.Alone (warm held : κ → Prop) : Pc κ ε ρ → Prop
  | .lookup k | .lookupHeld k => held k → warm k
  | .check k | .checkHeld k | .forward k _ | .store k _ _ | .storeHeld k _ _ => ¬ warm k
  | .remove k _ _ | .removeHeld k _ _ | .publish k _ _ | .publishHeld k _ _ | .notify k _ _ =>
    ¬ warm k ∧ held k
  | .returned k _ path => held k ∧ ((path = .hit ∧ warm k) ∨ (path = .miss ∧ ¬ warm k))
  | _ => False

omit [DecidableEq κ] in
theorem enter_alone {pc after : Pc κ ε ρ} {warm held : κ → Prop} (alone : pc.Alone warm held)
    (entering : pc.enter = some (lock,after)) : after.Alone warm held := by
  cases pc <;> simp only [Pc.enter,Option.some.injEq,reduceCtorEq] at entering
  all_goals
    obtain ⟨rfl,rfl⟩ := Prod.mk.inj entering
    exact alone

omit [DecidableEq κ] in
-- What is cached only grows, and never by the call's own key while it looks it up.
theorem Pc.Alone.grown {pc : Pc κ ε ρ} {warm held later : κ → Prop} (alone : pc.Alone warm held)
    (grows : ∀ k, held k → later k) (own : ∀ k, pc.key = some k → later k → held k) :
    pc.Alone warm later := by
  cases pc with
  | lookup k | lookupHeld k => exact fun there => alone (own k rfl there)
  | remove k | removeHeld k | publish k | publishHeld k | notify k => exact ⟨alone.1,grows k alone.2⟩
  | returned k result path => exact ⟨grows k alone.1,alone.2⟩
  | _ => exact alone

omit [DecidableEq κ] in
theorem designated_key {pc : Pc κ ε ρ} (designated : pc.Designated k) : pc.key = some k := by
  cases pc <;> simp_all [Pc.Designated,Pc.key]

variable [DecidableEq τ]

theorem step_inner {s next : State τ κ ε ρ} (step : Step s action next) : next.inner = s.inner ∨
    ∃ k i value, s.pc action.thread = .storeHeld k i value ∧
      next.inner = storeAfterForward s.inner k value := by
  cases step_change step with
  | stored place => exact .inr ⟨_,_,_,place,rfl⟩
  | _ => exact .inl rfl

-- A step of a run that never evicts.
structure Growing (kept : Finset κ) (s : State τ κ ε ρ) (t : τ) (next : State τ κ ε ρ) : Prop where
  room : Room kept next.inner
  grows : ∀ k, k ∈ s.inner.entries → k ∈ next.inner.entries
  new : ∀ k, k ∈ next.inner.entries → k ∈ s.inner.entries ∨ (s.pc t).Designated k

theorem step_growing {kept : Finset κ} {s next : State τ κ ε ρ} (room : Room kept s.inner)
    (member : ∀ k, (s.pc action.thread).key = some k → k ∈ kept) (step : Step s action next) :
    Growing kept s action.thread next := by
  rcases step_inner step with same | ⟨k,i,value,place,stored⟩
  · exact ⟨same ▸ room,fun _ there => same ▸ there,fun _ there => .inl (same ▸ there)⟩
  · have mine : k ∈ kept := member k (by rw [place]; rfl)
    have entries := storeAfterForward_entries (room.free mine) value
    rw [← stored] at entries
    refine ⟨stored ▸ room.stored mine value,fun l there => (entries l).mpr (.inr there),fun l there => ?_⟩
    rcases (entries l).mp there with rfl | before
    · exact .inr (by rw [place]; rfl)
    · exact .inl before

-- No other thread is responsible for the key of this call.
def Solo (s : State τ κ ε ρ) (t : τ) : Prop :=
  ∀ u k, (s.pc t).key = some k → (s.pc u).Designated k → u = t

-- The call takes a step itself.
theorem own_alone {s next : State τ κ ε ρ} {warm : κ → Prop} (valid : Valid s)
    (old : ∀ k, warm k → k ∈ s.inner.entries) (solo : Solo s action.thread)
    (inside : ∀ t k, action ≠ .call t k) (succeeds : Succeeds action)
    (alone : (s.pc action.thread).Alone warm (· ∈ s.inner.entries)) (step : Step s action next) :
    (next.pc action.thread).Alone warm (· ∈ next.inner.entries) := by
  cases step_change step with
  | called _ => exact absurd rfl (inside _ _)
  | entered entering _ =>
      simp only [Action.thread,goto,Function.update_self]
      exact enter_alone alone entering
  | @hit t k value place found =>
      simp only [Action.thread,answer,goto,Function.update_self]
      simp only [Action.thread,place] at alone
      have there : k ∈ s.inner.entries := Finmap.mem_of_lookup_eq_some found
      exact ⟨there,.inl ⟨rfl,alone there⟩⟩
  | @missed t k place found =>
      simp only [Action.thread,drop,goto,Function.update_self]
      intro warm
      exact Finmap.lookup_eq_none.mp found (old k warm)
  | @joined t k i place found =>
      obtain ⟨u,designated,_⟩ := (in_flight_iff_designated valid k).mp
        (Finmap.lookup_isSome.mp (Option.isSome_iff_exists.mpr ⟨i,found⟩))
      have same : u = t := solo u k (by rw [Action.thread,place]; rfl) designated
      rw [same,place] at designated
      exact designated.elim
  | registered place _ =>
      simp only [Action.thread,place] at alone
      simp only [Action.thread,drop,goto,Function.update_self]
      exact alone
  | collected place _ | slept place _ | woke place =>
      simp only [Action.thread,place] at alone
      exact alone.elim
  | succeeded place =>
      simp only [Action.thread,place] at alone
      simp only [Action.thread,goto,Function.update_self]
      exact alone
  | failed _ => exact succeeds.elim
  | @stored t k i value place =>
      simp only [Action.thread,place] at alone
      simp only [Action.thread,drop,goto,Function.update_self]
      exact ⟨alone,Finmap.mem_of_lookup_eq_some (cachedValue_stored s.inner k value)⟩
  | removed place _ | published place =>
      simp only [Action.thread,place] at alone
      simp only [Action.thread,drop,goto,Function.update_self]
      exact alone
  | unwrapped place found =>
      rw [unwrap_present valid.sound place] at found
      cases found
  | notified place =>
      simp only [Action.thread,place] at alone
      simp only [Action.thread,answer,goto,Function.update_self]
      exact ⟨alone.2,.inr ⟨rfl,alone.1⟩⟩

-- A call that shares its key with nobody stays alone, whoever takes the step.
theorem step_alone {kept : Finset κ} {s next : State τ κ ε ρ} {warm : κ → Prop} (valid : Valid s)
    (old : ∀ k, warm k → k ∈ s.inner.entries) (growing : Growing kept s action.thread next)
    (solo : Solo s t) (inside : ∀ t k, action ≠ .call t k) (succeeds : Succeeds action)
    (alone : (s.pc t).Alone warm (· ∈ s.inner.entries)) (step : Step s action next) :
    (next.pc t).Alone warm (· ∈ next.inner.entries) := by
  by_cases mine : t = action.thread
  · subst mine
    exact own_alone valid old solo inside succeeds alone step
  · have still : next.pc t = s.pc t := by
      rcases step_others step t mine with same | ⟨i,woken⟩
      · exact same
      · rw [woken]
        cases place : s.pc t with
        | asleep k j =>
            rw [place] at alone
            exact alone.elim
        | _ => rfl
    rw [still]
    refine alone.grown growing.grows fun k key there => ?_
    rcases growing.new k there with before | designated
    · exact before
    · exact absurd (solo action.thread k key designated).symm mine

end SemanticClassifier.Cache
