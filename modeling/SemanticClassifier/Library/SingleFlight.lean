import Mathlib.Data.Finmap

namespace SingleFlight

-- Request coalescing: the first thread that misses a key registers a slot and
-- computes, the others wait on that slot. Everything here is one atomic access
-- to the table of flights, to a slot, or to the set of sleepers.
inductive Role (κ α : Type) where
  | out
  | flying (key : κ) (slot : Nat)
  | publishing (key : κ) (slot : Nat) (result : α)
  | notifying (slot : Nat)
  | waiting (key : κ) (slot : Nat)
  | sleeping (key : κ) (slot : Nat)

inductive Event (τ κ α : Type) where
  | registered (thread : τ) (key : κ) (slot : Nat)
  | published (thread : τ) (slot : Nat) (result : α)
  | collected (thread : τ) (key : κ) (slot : Nat) (result : α)

-- The log is newest first and nothing reads it.
structure State (τ κ α : Type) where
  inFlight : Finmap fun _ : κ => Nat
  slots : List (Option α)
  role : τ → Role κ α
  log : List (Event τ κ α)

-- Responsible for filling the slot.
def Role.Carries : Role κ α → κ → Nat → Prop
  | .flying key slot,k,i => key = k ∧ slot = i
  | .publishing key slot _,k,i => key = k ∧ slot = i
  | _,_,_ => False

def Role.Waits : Role κ α → κ → Nat → Prop
  | .waiting key slot,k,i => key = k ∧ slot = i
  | .sleeping key slot,k,i => key = k ∧ slot = i
  | _,_,_ => False

def Role.woken (slot : Nat) : Role κ α → Role κ α
  | .sleeping key i => if i = slot then .waiting key i else .sleeping key i
  | role => role

theorem Role.woken_sleeper {role : Role κ α} : role.woken j = role ∨
    ∃ k, role = .sleeping k j ∧ role.woken j = .waiting k j := by
  cases role with
  | sleeping k i =>
      by_cases same : i = j
      · exact .inr ⟨k,by rw [same],by simp [woken,same]⟩
      · exact .inl (by simp [woken,same])
  | _ => exact .inl rfl

theorem Role.woken_asleep {role : Role κ α} (asleep : role.woken j = .sleeping k i) :
    role = .sleeping k i ∧ i ≠ j := by
  cases role <;> simp_all [woken]
  rename_i key slot
  by_cases same : slot = j <;> simp_all

@[simp] theorem Role.woken_flying {role : Role κ α} :
    role.woken j = .flying k i ↔ role = .flying k i := by
  rcases role.woken_sleeper (j := j) with same | ⟨l,asleep,woken⟩
  · rw [same]
  · rw [woken,asleep]
    simp

@[simp] theorem Role.woken_notifying {role : Role κ α} :
    role.woken j = .notifying i ↔ role = .notifying i := by
  rcases role.woken_sleeper (j := j) with same | ⟨l,asleep,woken⟩
  · rw [same]
  · rw [woken,asleep]
    simp

@[simp] theorem Role.woken_carries {role : Role κ α} :
    (role.woken j).Carries k i ↔ role.Carries k i := by
  rcases role.woken_sleeper (j := j) with same | ⟨l,asleep,woken⟩
  · rw [same]
  · rw [woken,asleep]
    simp [Carries]

@[simp] theorem Role.woken_waits {role : Role κ α} : (role.woken j).Waits k i ↔ role.Waits k i := by
  rcases role.woken_sleeper (j := j) with same | ⟨l,asleep,woken⟩
  · rw [same]
  · rw [woken,asleep]
    simp [Waits]

def Event.Publishes (i : Nat) : Event τ κ α → Bool
  | .published _ slot _ => slot == i
  | _ => false

def publications (log : List (Event τ κ α)) (i : Nat) : Nat := log.countP (·.Publishes i)

variable {τ κ α : Type} [DecidableEq τ] [DecidableEq κ]

inductive Step : State τ κ α → State τ κ α → Prop where
  | register : s.role t = .out → s.inFlight.lookup k = none →
      Step s {
        inFlight := s.inFlight.insert k s.slots.length
        slots := s.slots ++ [none]
        role := Function.update s.role t (.flying k s.slots.length)
        log := .registered t k s.slots.length :: s.log}
  | join {t : τ} {k : κ} {i : Nat} : s.role t = .out → s.inFlight.lookup k = some i →
      Step s {s with role := Function.update s.role t (.waiting k i)}
  | sleep {t : τ} {k : κ} {i : Nat} : s.role t = .waiting k i → s.slots[i]? = some none →
      Step s {s with role := Function.update s.role t (.sleeping k i)}
  | wake {t : τ} {k : κ} {i : Nat} : s.role t = .sleeping k i →
      Step s {s with role := Function.update s.role t (.waiting k i)}
  | collect {t : τ} {k : κ} {i : Nat} {r : α} : s.role t = .waiting k i → s.slots[i]? = some (some r) →
      Step s {s with
        role := Function.update s.role t .out
        log := .collected t k i r :: s.log}
  | remove : s.role t = .flying k i → s.inFlight.lookup k = some j →
      Step s {s with
        inFlight := s.inFlight.erase k
        role := Function.update s.role t (.publishing k j r)}
  | publish : s.role t = .publishing k i r →
      Step s {s with
        slots := s.slots.set i (some r)
        role := Function.update s.role t (.notifying i)
        log := .published t i r :: s.log}
  | notify : s.role t = .notifying i →
      Step s {s with role := Function.update (fun u => (s.role u).woken i) t .out}

def Start (s : State τ κ α) : Prop :=
  s.inFlight = ∅ ∧ s.slots = [] ∧ (∀ t, s.role t = .out) ∧ s.log = []

structure Sound (s : State τ κ α) : Prop where
  flights : ∀ k i, s.inFlight.lookup k = some i ↔ ∃ t, s.role t = .flying k i
  carried : ∀ t k i, (s.role t).Carries k i → .registered t k i ∈ s.log ∧ s.slots[i]? = some none
  owner : ∀ t u k l i, .registered t k i ∈ s.log → .registered u l i ∈ s.log → t = u ∧ k = l
  allocated : ∀ t k i, .registered t k i ∈ s.log → i < s.slots.length
  empty : ∀ i, s.slots[i]? = some none → publications s.log i = 0 ∧ ∃ t k, (s.role t).Carries k i
  filled : ∀ i r, s.slots[i]? = some (some r) →
    publications s.log i = 1 ∧ ∃ u, .published u i r ∈ s.log
  kept : ∀ u i r, .published u i r ∈ s.log →
    s.slots[i]? = some (some r) ∧ ∃ k, .registered u k i ∈ s.log
  waits : ∀ t k i, (s.role t).Waits k i → ∃ u, .registered u k i ∈ s.log
  sleepers : ∀ t k i, s.role t = .sleeping k i →
    s.slots[i]? = some none ∨ ∃ u, s.role u = .notifying i
  notifier : ∀ u i, s.role u = .notifying i → ∃ k, .registered u k i ∈ s.log
  collected : ∀ t k i r, .collected t k i r ∈ s.log →
    ∃ u, .registered u k i ∈ s.log ∧ .published u i r ∈ s.log

omit [DecidableEq τ] in
theorem start_sound {s : State τ κ α} (start : Start s) : Sound s := by
  obtain ⟨flights,slots,roles,log⟩ := start
  constructor <;> simp [flights,slots,roles,log,Role.Carries,Role.Waits]

-- Neither responsible for a slot nor about to wake its sleepers.
def Role.Passive : Role κ α → Prop
  | .out | .waiting .. | .sleeping .. => True
  | _ => False

omit [DecidableEq κ] [DecidableEq τ] in
theorem Role.Passive.not_carries {role : Role κ α} (passive : role.Passive) : ¬ role.Carries k i := by
  cases role <;> simp_all [Passive,Carries]

omit [DecidableEq κ] in
theorem updated_cases {roles : τ → Role κ α} {role : Role κ α} (p : Role κ α → Prop)
    (here : p (Function.update roles t role u)) : (u = t ∧ p role) ∨ (u ≠ t ∧ p (roles u)) := by
  by_cases own : u = t
  · rw [own,Function.update_self] at here
    exact .inl ⟨own,here⟩
  · rw [Function.update_of_ne own] at here
    exact .inr ⟨own,here⟩

omit [DecidableEq κ] in
-- What the new role never satisfies held before it was given.
theorem of_updated {roles : τ → Role κ α} {role : Role κ α} (p : Role κ α → Prop)
    (never : ¬ p role) (here : p (Function.update roles t role u)) : p (roles u) := by
  rcases updated_cases p here with ⟨_,own⟩ | ⟨_,before⟩
  · exact absurd own never
  · exact before

omit [DecidableEq κ] in
-- What the old role never satisfied is not lost with it.
theorem updated_of {roles : τ → Role κ α} {role : Role κ α} (p : Role κ α → Prop)
    (never : ¬ p (roles t)) (here : p (roles u)) : p (Function.update roles t role u) := by
  have other : u ≠ t := fun own => never (own ▸ here)
  rwa [Function.update_of_ne other]

theorem Sound.passive {s : State τ κ α} (valid : Sound s) (before : (s.role t).Passive)
    (after : role.Passive) (waits : ∀ k i, role.Waits k i → ∃ u, .registered u k i ∈ s.log)
    (sleeps : ∀ k i, role = .sleeping k i → s.slots[i]? = some none) :
    Sound {s with role := Function.update s.role t role} := by
  have steady : ∀ u active, ¬ Role.Passive active →
      (Function.update s.role t role u = active ↔ s.role u = active) := by
    intro u active busy
    constructor
    · apply of_updated (· = active)
      exact fun same => busy (same ▸ after)
    · apply updated_of (· = active)
      exact fun same => busy (same ▸ before)
  have carries : ∀ u k i, (Function.update s.role t role u).Carries k i ↔ (s.role u).Carries k i :=
    fun _ k i => ⟨of_updated (·.Carries k i) after.not_carries,
      updated_of (·.Carries k i) before.not_carries⟩
  refine {valid with
    flights := ?_,carried := ?_,empty := ?_,waits := ?_,sleepers := ?_,notifier := ?_}
  · intro k i
    simp only [steady _ (.flying k i) (by simp [Role.Passive])]
    exact valid.flights k i
  · intro u k i carries'
    exact valid.carried u k i ((carries u k i).mp carries')
  · intro i vacant
    obtain ⟨none,u,k,busy⟩ := valid.empty i vacant
    exact ⟨none,u,k,(carries u k i).mpr busy⟩
  · intro u k i waiting
    rcases updated_cases (·.Waits k i) waiting with ⟨_,own⟩ | ⟨_,before⟩
    · exact waits k i own
    · exact valid.waits u k i before
  · intro u k i asleep
    simp only [steady _ (.notifying i) (by simp [Role.Passive])]
    rcases updated_cases (· = .sleeping k i) asleep with ⟨_,own⟩ | ⟨_,before⟩
    · exact .inl (sleeps k i own)
    · exact valid.sleepers u k i before
  · intro u i waking
    exact valid.notifier u i ((steady u _ (by simp [Role.Passive])).mp waking)

omit [DecidableEq τ] in
theorem Sound.collect {s : State τ κ α} (valid : Sound s) (waiting : (s.role t).Waits k i)
    (full : s.slots[i]? = some (some r)) : Sound {s with log := .collected t k i r :: s.log} := by
  obtain ⟨u,registered⟩ := valid.waits t k i waiting
  obtain ⟨_,v,published⟩ := valid.filled i r full
  obtain ⟨_,l,also⟩ := valid.kept v i r published
  obtain ⟨rfl,rfl⟩ := valid.owner _ _ _ _ _ registered also
  refine {
    flights := valid.flights
    carried := by simpa using valid.carried
    owner := by simpa using valid.owner
    allocated := by simpa using valid.allocated
    empty := by simpa [publications,Event.Publishes] using valid.empty
    filled := by simpa [publications,Event.Publishes] using valid.filled
    kept := by simpa using valid.kept
    waits := by simpa using valid.waits
    sleepers := valid.sleepers
    notifier := by simpa using valid.notifier
    collected := ?_}
  intro w l j q member
  rcases List.mem_cons.mp member with here | earlier
  · cases here
    exact ⟨u,by simp [registered],by simp [published]⟩
  · obtain ⟨x,one,two⟩ := valid.collected w l j q earlier
    exact ⟨x,by simp [one],by simp [two]⟩

omit [DecidableEq τ] in
theorem Sound.unpublished {s : State τ κ α} (valid : Sound s) (beyond : s.slots.length ≤ i) :
    publications s.log i = 0 := by
  refine List.countP_eq_zero.mpr fun event member publishes => ?_
  cases event with
  | published u j r =>
      have kept := (valid.kept u j r member).1
      have same : j = i := by simpa [Event.Publishes] using publishes
      rw [same,List.getElem?_eq_none beyond] at kept
      cases kept
  | registered | collected => simp [Event.Publishes] at publishes

omit [DecidableEq τ] in
theorem Sound.single {s : State τ κ α} (valid : Sound s) (one : (s.role t).Carries k i)
    (two : (s.role u).Carries l i) : t = u :=
  (valid.owner _ _ _ _ _ (valid.carried t k i one).1 (valid.carried u l i two).1).1

-- Two forwarders of one key are one thread.
omit [DecidableEq τ] in
theorem Sound.alone {s : State τ κ α} (valid : Sound s) (one : s.role t = .flying k i)
    (two : s.role u = .flying k j) : t = u := by
  have same : some i = some j :=
    ((valid.flights k i).mpr ⟨t,one⟩).symm.trans ((valid.flights k j).mpr ⟨u,two⟩)
  cases same
  exact valid.single (k := k) (l := k) (i := i) (by simp [one,Role.Carries]) (by simp [two,Role.Carries])

theorem Sound.register {s : State τ κ α} (valid : Sound s) (out : s.role t = .out)
    (absent : s.inFlight.lookup k = none) : Sound {
      inFlight := s.inFlight.insert k s.slots.length
      slots := s.slots ++ [none]
      role := Function.update s.role t (.flying k s.slots.length)
      log := .registered t k s.slots.length :: s.log} := by
  have others : ∀ u l i, s.role u = .flying l i → l ≠ k := by
    intro u l i flying same
    have present := (valid.flights l i).mpr ⟨u,flying⟩
    rw [same,absent] at present
    cases present
  have allocated := valid.allocated
  have count : ∀ i, publications (.registered t k s.slots.length :: s.log) i = publications s.log i := by
    simp [publications,Event.Publishes]
  refine {
    flights := ?flights,carried := ?carried,owner := ?owner,allocated := ?allocated,empty := ?empty,
    filled := ?filled,kept := ?kept,waits := ?waits,sleepers := ?sleepers,notifier := ?notifier,
    collected := ?collected} <;> simp only [count]
  case flights =>
    intro l i
    by_cases same : l = k
    · subst same
      rw [Finmap.lookup_insert]
      constructor
      · intro here
        cases here
        exact ⟨t,Function.update_self ..⟩
      · intro ⟨u,flying⟩
        rcases updated_cases (· = .flying l i) flying with ⟨_,own⟩ | ⟨_,before⟩
        · cases own
          rfl
        · exact absurd rfl (others u l i before)
    · rw [Finmap.lookup_insert_of_ne _ same,valid.flights l i]
      apply exists_congr
      intro u
      constructor
      · exact updated_of ((· = .flying l i)) (by simp [out])
      · exact of_updated ((· = .flying l i)) (by simp [Ne.symm same])
  case carried =>
    intro u l i carries
    rcases updated_cases (·.Carries l i) carries with ⟨mine,own⟩ | ⟨_,before⟩
    · obtain ⟨rfl,rfl⟩ := own
      exact ⟨mine ▸ List.mem_cons_self,by simp⟩
    · obtain ⟨registered,vacant⟩ := valid.carried u l i before
      refine ⟨List.mem_cons_of_mem _ registered,?_⟩
      rw [List.getElem?_append_left (allocated u l i registered)]
      exact vacant
  case owner =>
    intro u v l m i one two
    rcases List.mem_cons.mp one with new | old
    · cases new
      rcases List.mem_cons.mp two with new | old
      · cases new
        exact ⟨rfl,rfl⟩
      · exact absurd (allocated v m _ old) (lt_irrefl _)
    · rcases List.mem_cons.mp two with new | also
      · cases new
        exact absurd (allocated u l _ old) (lt_irrefl _)
      · exact valid.owner u v l m i old also
  case allocated =>
    intro u l i member
    rw [List.length_append]
    rcases List.mem_cons.mp member with new | old
    · cases new
      exact Nat.lt_succ_self _
    · exact Nat.lt_succ_of_lt (allocated u l i old)
  case empty =>
    intro i vacant
    rcases Nat.lt_or_ge i s.slots.length with old | new
    · rw [List.getElem?_append_left old] at vacant
      obtain ⟨none,u,l,busy⟩ := valid.empty i vacant
      exact ⟨none,u,l,updated_of ((·.Carries l i)) (by simp [out,Role.Carries]) busy⟩
    · have inside := (List.getElem?_eq_some_iff.mp vacant).1
      rw [List.length_append] at inside
      have here : s.slots.length = i := Nat.le_antisymm new (Nat.lt_succ_iff.mp inside)
      refine ⟨valid.unpublished new,t,k,?_⟩
      rw [Function.update_self]
      exact ⟨rfl,here⟩
  case filled =>
    intro i r full
    rcases Nat.lt_or_ge i s.slots.length with old | new
    · rw [List.getElem?_append_left old] at full
      obtain ⟨one,u,published⟩ := valid.filled i r full
      exact ⟨one,u,List.mem_cons_of_mem _ published⟩
    · rw [List.getElem?_append_right new,List.getElem?_singleton] at full
      split at full <;> cases full
  case kept =>
    intro u i r member
    rcases List.mem_cons.mp member with new | old
    · cases new
    · obtain ⟨full,l,registered⟩ := valid.kept u i r old
      refine ⟨?_,l,List.mem_cons_of_mem _ registered⟩
      rw [List.getElem?_append_left (allocated u l i registered)]
      exact full
  case waits =>
    intro u l i waiting
    have before := of_updated ((·.Waits l i)) (by simp [Role.Waits]) waiting
    exact (valid.waits u l i before).imp fun _ => List.mem_cons_of_mem _
  case sleepers =>
    intro u l i asleep
    have before := of_updated ((· = .sleeping l i)) (by simp) asleep
    rcases valid.sleepers u l i before with vacant | ⟨v,waking⟩
    · rw [List.getElem?_append_left (List.getElem?_eq_some_iff.mp vacant).1]
      exact .inl vacant
    · exact .inr ⟨v,updated_of ((· = .notifying i)) (by simp [out]) waking⟩
  case notifier =>
    intro u i waking
    have before := of_updated ((· = .notifying i)) (by simp) waking
    exact (valid.notifier u i before).imp fun _ => List.mem_cons_of_mem _
  case collected =>
    intro u l i r member
    rcases List.mem_cons.mp member with new | old
    · cases new
    · obtain ⟨v,registered,published⟩ := valid.collected u l i r old
      exact ⟨v,List.mem_cons_of_mem _ registered,List.mem_cons_of_mem _ published⟩

theorem Sound.remove {s : State τ κ α} (valid : Sound s) (flying : s.role t = .flying k i)
    (present : s.inFlight.lookup k = some j) : Sound {s with
      inFlight := s.inFlight.erase k
      role := Function.update s.role t (.publishing k j r)} := by
  obtain rfl : i = j := by
    rw [(valid.flights k i).mpr ⟨t,flying⟩] at present
    exact Option.some.inj present
  have others : ∀ u l j, u ≠ t → s.role u = .flying l j → l ≠ k := by
    intro u l j other also same
    subst same
    exact other (valid.alone also flying)
  have mine : (s.role t).Carries k i := by simp [flying,Role.Carries]
  have before := valid.carried t k i mine
  have carries : ∀ u l j, (Function.update s.role t (.publishing k i r) u).Carries l j ↔
      (s.role u).Carries l j := by
    intro u l j
    by_cases same : u = t
    · subst same
      simp [flying,Role.Carries]
    · rw [Function.update_of_ne same]
  refine {valid with
    flights := ?_,carried := ?_,empty := ?_,waits := ?_,sleepers := ?_,notifier := ?_} <;>
    simp only [carries]
  · intro l j
    by_cases same : l = k
    · subst same
      rw [Finmap.lookup_erase]
      constructor
      · intro here
        cases here
      · intro ⟨u,also⟩
        rcases updated_cases (· = .flying l j) also with ⟨_,own⟩ | ⟨other,before⟩
        · cases own
        · exact absurd rfl (others u l j other before)
    · rw [Finmap.lookup_erase_ne same,valid.flights l j]
      apply exists_congr
      intro u
      constructor
      · exact updated_of ((· = .flying l j)) (by simp [flying,Ne.symm same])
      · exact of_updated ((· = .flying l j)) (by simp)
  · exact valid.carried
  · exact valid.empty
  · intro u l j waiting
    exact valid.waits u l j (of_updated ((·.Waits l j)) (by simp [Role.Waits]) waiting)
  · intro u l j asleep
    have before := of_updated ((· = .sleeping l j)) (by simp) asleep
    refine (valid.sleepers u l j before).imp_right ?_
    intro ⟨v,waking⟩
    exact ⟨v,updated_of ((· = .notifying j)) (by simp [flying]) waking⟩
  · intro u j waking
    exact valid.notifier u j (of_updated ((· = .notifying j)) (by simp) waking)

theorem Sound.publish {s : State τ κ α} (valid : Sound s) (publishing : s.role t = .publishing k i r) :
    Sound {s with
      slots := s.slots.set i (some r)
      role := Function.update s.role t (.notifying i)
      log := .published t i r :: s.log} := by
  have mine : (s.role t).Carries k i := by simp [publishing,Role.Carries]
  obtain ⟨registered,vacant⟩ := valid.carried t k i mine
  have inside : i < s.slots.length := (List.getElem?_eq_some_iff.mp vacant).1
  have here : publications (.published t i r :: s.log) i = publications s.log i + 1 := by
    simp [publications,Event.Publishes]
  have elsewhere : ∀ j, j ≠ i → publications (.published t i r :: s.log) j = publications s.log j := by
    intro j other
    simp [publications,Event.Publishes,Ne.symm other]
  have old : ∀ u l j, .registered u l j ∈ .published t i r :: s.log → .registered u l j ∈ s.log := by
    intro u l j member
    rcases List.mem_cons.mp member with new | earlier
    · cases new
    · exact earlier
  refine {
    flights := ?flights,carried := ?carried,owner := ?owner,allocated := ?allocated,empty := ?empty,
    filled := ?filled,kept := ?kept,waits := ?waits,sleepers := ?sleepers,notifier := ?notifier,
    collected := ?collected} <;> dsimp only
  case flights =>
    intro l j
    rw [valid.flights l j]
    apply exists_congr
    intro u
    constructor
    · exact updated_of ((· = .flying l j)) (by simp [publishing])
    · exact of_updated ((· = .flying l j)) (by simp)
  case carried =>
    intro u l j carries
    have before := of_updated ((·.Carries l j)) (by simp [Role.Carries]) carries
    obtain ⟨also,still⟩ := valid.carried u l j before
    have other : i ≠ j := by
      intro same
      have own : u = t := valid.single before (same ▸ mine)
      rw [own,Function.update_self] at carries
      exact carries
    exact ⟨List.mem_cons_of_mem _ also,(List.getElem?_set_ne other).trans still⟩
  case owner =>
    intro u v l m j one two
    exact valid.owner u v l m j (old u l j one) (old v m j two)
  case allocated =>
    intro u l j member
    rw [List.length_set]
    exact valid.allocated u l j (old u l j member)
  case empty =>
    intro j still
    have other : j ≠ i := by
      intro same
      rw [same,List.getElem?_set_self inside] at still
      cases still
    rw [List.getElem?_set_ne other.symm] at still
    obtain ⟨none,u,l,busy⟩ := valid.empty j still
    rw [elsewhere j other]
    have apart : ¬ (s.role t).Carries l j := by
      intro carries
      rw [publishing] at carries
      exact other carries.2.symm
    exact ⟨none,u,l,updated_of ((·.Carries l j)) apart busy⟩
  case filled =>
    intro j q full
    by_cases same : j = i
    · subst same
      rw [List.getElem?_set_self inside] at full
      cases full
      rw [here,(valid.empty j vacant).1]
      exact ⟨rfl,t,List.mem_cons_self⟩
    · rw [List.getElem?_set_ne (Ne.symm same)] at full
      obtain ⟨one,u,published⟩ := valid.filled j q full
      rw [elsewhere j same]
      exact ⟨one,u,List.mem_cons_of_mem _ published⟩
  case kept =>
    intro u j q member
    rcases List.mem_cons.mp member with new | earlier
    · cases new
      exact ⟨List.getElem?_set_self inside,k,List.mem_cons_of_mem _ registered⟩
    · obtain ⟨full,l,also⟩ := valid.kept u j q earlier
      have other : i ≠ j := by
        intro same
        rw [← same,vacant] at full
        cases full
      exact ⟨(List.getElem?_set_ne other).trans full,l,List.mem_cons_of_mem _ also⟩
  case waits =>
    intro u l j waiting
    have before := of_updated ((·.Waits l j)) (by simp [Role.Waits]) waiting
    exact (valid.waits u l j before).imp fun _ => List.mem_cons_of_mem _
  case sleepers =>
    intro u l j asleep
    have before := of_updated ((· = .sleeping l j)) (by simp) asleep
    -- Those asleep on the slot just filled are owed the wakeup to come.
    by_cases same : j = i
    · exact .inr ⟨t,by rw [Function.update_self,same]⟩
    · refine (valid.sleepers u l j before).imp (List.getElem?_set_ne (Ne.symm same)).trans ?_
      intro ⟨v,waking⟩
      exact ⟨v,updated_of ((· = .notifying j)) (by simp [publishing]) waking⟩
  case notifier =>
    intro u j waking
    rcases updated_cases (· = .notifying j) waking with ⟨mine,own⟩ | ⟨_,before⟩
    · cases own
      exact ⟨k,List.mem_cons_of_mem _ (mine ▸ registered)⟩
    · exact (valid.notifier u j before).imp fun _ => List.mem_cons_of_mem _
  case collected =>
    intro u l j q member
    rcases List.mem_cons.mp member with new | earlier
    · cases new
    · obtain ⟨v,also,published⟩ := valid.collected u l j q earlier
      exact ⟨v,List.mem_cons_of_mem _ also,List.mem_cons_of_mem _ published⟩

theorem Sound.notify {s : State τ κ α} (valid : Sound s) (notifying : s.role t = .notifying i) :
    Sound {s with role := Function.update (fun u => (s.role u).woken i) t .out} := by
  refine {valid with
    flights := ?_,carried := ?_,empty := ?_,waits := ?_,sleepers := ?_,notifier := ?_} <;> dsimp only
  · intro k j
    rw [valid.flights k j]
    apply exists_congr
    intro u
    constructor
    · intro flying
      refine updated_of (· = .flying k j) (by simp [notifying,Role.woken]) ?_
      exact Role.woken_flying.mpr flying
    · intro flying
      have before := of_updated (· = .flying k j) (by simp) flying
      exact Role.woken_flying.mp before
  · intro u k j carries
    have before := of_updated (·.Carries k j) (by simp [Role.Carries]) carries
    exact valid.carried u k j (Role.woken_carries.mp before)
  · intro j vacant
    obtain ⟨none,u,k,busy⟩ := valid.empty j vacant
    refine ⟨none,u,k,updated_of (·.Carries k j) ?_ ?_⟩
    · rw [notifying]
      exact id
    · exact Role.woken_carries.mpr busy
  · intro u k j waiting
    have before := of_updated (·.Waits k j) (by simp [Role.Waits]) waiting
    exact valid.waits u k j (Role.woken_waits.mp before)
  · intro u k j asleep
    have before := of_updated (· = .sleeping k j) (by simp) asleep
    obtain ⟨was,other⟩ := Role.woken_asleep before
    refine (valid.sleepers u k j was).imp_right ?_
    intro ⟨v,waking⟩
    refine ⟨v,updated_of (· = .notifying j) ?_ ?_⟩
    · intro same
      rw [notifying] at same
      cases same
      exact other rfl
    · exact Role.woken_notifying.mpr waking
  · intro u j waking
    have before := of_updated (· = .notifying j) (by simp) waking
    exact valid.notifier u j (Role.woken_notifying.mp before)

theorem step_sound {s next : State τ κ α} (valid : Sound s) (step : Step s next) : Sound next := by
  cases step with
  | register out absent => exact valid.register out absent
  | @join _ t k i out present =>
      obtain ⟨u,flying⟩ := (valid.flights _ _).mp present
      have registered := (valid.carried u k i (by simp [flying,Role.Carries])).1
      refine valid.passive (by simp [out,Role.Passive]) trivial ?_ (by simp)
      rintro l j ⟨rfl,rfl⟩
      exact ⟨u,registered⟩
  | @sleep _ t k i waiting vacant =>
      refine valid.passive (by simp [waiting,Role.Passive]) trivial ?_ ?_
      · rintro l j ⟨rfl,rfl⟩
        exact valid.waits t k i (by simp [waiting,Role.Waits])
      · rintro l j equal
        cases equal
        exact vacant
  | @wake _ t k i asleep =>
      refine valid.passive (by simp [asleep,Role.Passive]) trivial ?_ (by simp)
      rintro l j ⟨rfl,rfl⟩
      exact valid.waits t k i (by simp [asleep,Role.Waits])
  | @collect _ t k i r waiting full =>
      have logged := valid.collect (t := t) (k := k) (by simp [waiting,Role.Waits]) full
      exact logged.passive (by simp [waiting,Role.Passive]) trivial (by simp [Role.Waits]) (by simp)
  | remove flying present => exact valid.remove flying present
  | publish publishing => exact valid.publish publishing
  | notify notifying => exact valid.notify notifying

end SingleFlight
