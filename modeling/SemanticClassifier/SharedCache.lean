import SemanticClassifier.ExactCache
import SemanticClassifier.Library.Interleaving
import SemanticClassifier.Library.Mutex
import SemanticClassifier.Library.SingleFlight

namespace SemanticClassifier.Cache
open Interleaving SingleFlight

inductive CachePath where
  | hit | miss | coalesced
  deriving DecidableEq

inductive Lock where
  | inner | inFlight | slot (id : Nat)
  deriving DecidableEq

-- Where a thread stands in `classify_concurrent`; a name with `Held` is inside
-- the critical section. The slot a forwarder carries is only recorded: the
-- code takes it back out of `in_flight`.
inductive Pc (κ ε ρ : Type) where
  | idle
  | lookup (key : κ)
  | lookupHeld (key : κ)
  | check (key : κ)
  | checkHeld (key : κ)
  | join (key : κ) (slot : Nat)
  | joinHeld (key : κ) (slot : Nat)
  | asleep (key : κ) (slot : Nat)
  | forward (key : κ) (slot : Nat)
  | store (key : κ) (slot : Nat) (value : ρ)
  | storeHeld (key : κ) (slot : Nat) (value : ρ)
  | remove (key : κ) (slot : Nat) (result : Except ε ρ)
  | removeHeld (key : κ) (slot : Nat) (result : Except ε ρ)
  | publish (key : κ) (slot : Nat) (result : Except ε ρ)
  | publishHeld (key : κ) (slot : Nat) (result : Except ε ρ)
  | notify (key : κ) (slot : Nat) (result : Except ε ρ)
  | returned (key : κ) (result : Except ε ρ) (path : CachePath)
  | panicked

def Pc.Holds : Pc κ ε ρ → Lock → Prop
  | .lookupHeld _,l | .storeHeld ..,l => l = .inner
  | .checkHeld _,l | .removeHeld ..,l => l = .inFlight
  | .joinHeld _ i,l | .publishHeld _ i _,l => l = .slot i
  | _,_ => False

def Pc.Ready : Pc κ ε ρ → Prop
  | .idle | .returned .. => True
  | _ => False

theorem Pc.Ready.cases {pc : Pc κ ε ρ} (ready : pc.Ready) :
    pc = .idle ∨ ∃ key result path, pc = .returned key result path := by
  cases pc with
  | idle => exact .inl rfl
  | returned key result path => exact .inr ⟨key,result,path,rfl⟩
  | _ => exact ready.elim

def Pc.woken (slot : Nat) : Pc κ ε ρ → Pc κ ε ρ
  | .asleep key i => if i = slot then .join key i else .asleep key i
  | pc => pc

-- `log` and `returns` are newest first and nothing reads them.
structure State (τ κ ε ρ : Type) where
  inner : ExactCache κ ρ
  inFlight : Finmap fun _ : κ => Nat
  slots : List (Option (Except ε ρ))
  locks : Mutex.Table τ Lock
  pc : τ → Pc κ ε ρ
  log : List (Event τ κ (Except ε ρ))
  returns : List (τ × κ × Except ε ρ × CachePath)

inductive Action (τ κ ε ρ : Type) where
  | call (thread : τ) (key : κ)
  | run (thread : τ)
  | forwarded (thread : τ) (result : Except ε ρ)
  | spurious (thread : τ)

variable {τ κ ε ρ : Type} [DecidableEq τ] [DecidableEq κ]

def start (inner : ExactCache κ ρ) : State τ κ ε ρ :=
  ⟨inner,∅,[],fun _ => none,fun _ => .idle,[],[]⟩

def goto (s : State τ κ ε ρ) (t : τ) (pc : Pc κ ε ρ) : State τ κ ε ρ :=
  {s with pc := Function.update s.pc t pc}

def take (s : State τ κ ε ρ) (t : τ) (lock : Lock) (pc : Pc κ ε ρ) : Option (State τ κ ε ρ) :=
  (Mutex.acquire s.locks t lock).map fun locks => goto {s with locks := locks} t pc

def drop (s : State τ κ ε ρ) (t : τ) (lock : Lock) (pc : Pc κ ε ρ) : State τ κ ε ρ :=
  goto {s with locks := Mutex.release s.locks lock} t pc

def answer (s : State τ κ ε ρ) (t : τ) (key : κ) (result : Except ε ρ) (path : CachePath) :
    State τ κ ε ρ :=
  goto {s with returns := (t,key,result,path) :: s.returns} t (.returned key result path)

-- One lock operation, or the work done while a guard is live and its drop.
def advance (s : State τ κ ε ρ) : Action τ κ ε ρ → Option (State τ κ ε ρ)
  | .call t key =>
    match s.pc t with
    | .idle | .returned .. => some (goto s t (.lookup key))
    | _ => none
  | .forwarded t result =>
    match s.pc t,result with
    | .forward key i,.ok value => some (goto s t (.store key i value))
    | .forward key i,.error e => some (goto s t (.remove key i (.error e)))
    | _,_ => none
  | .spurious t =>
    match s.pc t with
    | .asleep key i => some (goto s t (.join key i))
    | _ => none
  | .run t =>
    match s.pc t with
    | .lookup key => take s t .inner (.lookupHeld key)
    | .lookupHeld key =>
      match cachedValue s.inner key with
      | some value => some (answer {s with locks := Mutex.release s.locks .inner} t key (.ok value) .hit)
      | none => some (drop s t .inner (.check key))
    | .check key => take s t .inFlight (.checkHeld key)
    | .checkHeld key =>
      match s.inFlight.lookup key with
      | some i => some (drop s t .inFlight (.join key i))
      | none =>
        let i := s.slots.length
        some (drop {s with
          inFlight := s.inFlight.insert key i
          slots := s.slots ++ [none]
          log := .registered t key i :: s.log} t .inFlight (.forward key i))
    | .join key i => take s t (.slot i) (.joinHeld key i)
    | .joinHeld key i =>
      match s.slots[i]? with
      | some (some result) =>
        some (answer {s with
          locks := Mutex.release s.locks (.slot i)
          log := .collected t key i result :: s.log} t key result .coalesced)
      | some none => some (drop s t (.slot i) (.asleep key i))
      | none => none
    | .store key i value => take s t .inner (.storeHeld key i value)
    | .storeHeld key i value =>
      some (drop {s with inner := storeAfterForward s.inner key value} t .inner
        (.remove key i (.ok value)))
    | .remove key i result => take s t .inFlight (.removeHeld key i result)
    | .removeHeld key _ result =>
      match s.inFlight.lookup key with
      | some j =>
        some (drop {s with inFlight := s.inFlight.erase key} t .inFlight (.publish key j result))
      | none => some (drop s t .inFlight .panicked)
    | .publish key i result => take s t (.slot i) (.publishHeld key i result)
    | .publishHeld key i result =>
      some (drop {s with
        slots := s.slots.set i (some result)
        log := .published t i result :: s.log} t (.slot i) (.notify key i result))
    | .notify key i result =>
      some (answer {s with pc := fun u => (s.pc u).woken i} t key result .miss)
    | _ => none

def Step (s : State τ κ ε ρ) (action : Action τ κ ε ρ) (next : State τ κ ε ρ) : Prop :=
  advance s action = some next

-- The critical section a thread is about to enter, and where it stands then.
def Pc.enter : Pc κ ε ρ → Option (Lock × Pc κ ε ρ)
  | .lookup key => some (.inner,.lookupHeld key)
  | .check key => some (.inFlight,.checkHeld key)
  | .join key i => some (.slot i,.joinHeld key i)
  | .store key i value => some (.inner,.storeHeld key i value)
  | .remove key i result => some (.inFlight,.removeHeld key i result)
  | .publish key i result => some (.slot i,.publishHeld key i result)
  | _ => none

-- Everything a step can do, branch by branch.
inductive Change (s : State τ κ ε ρ) : Action τ κ ε ρ → State τ κ ε ρ → Prop where
  | called {t : τ} {key : κ} : (s.pc t).Ready → Change s (.call t key) (goto s t (.lookup key))
  | entered {t : τ} {lock : Lock} {pc : Pc κ ε ρ} :
      (s.pc t).enter = some (lock,pc) → s.locks lock = none →
      Change s (.run t) (goto {s with locks := Function.update s.locks lock (some t)} t pc)
  | hit {t : τ} {key : κ} {value : ρ} :
      s.pc t = .lookupHeld key → cachedValue s.inner key = some value →
      Change s (.run t)
        (answer {s with locks := Mutex.release s.locks .inner} t key (.ok value) .hit)
  | missed {t : τ} {key : κ} :
      s.pc t = .lookupHeld key → cachedValue s.inner key = none →
      Change s (.run t) (drop s t .inner (.check key))
  | joined {t : τ} {key : κ} {i : Nat} :
      s.pc t = .checkHeld key → s.inFlight.lookup key = some i →
      Change s (.run t) (drop s t .inFlight (.join key i))
  | registered {t : τ} {key : κ} :
      s.pc t = .checkHeld key → s.inFlight.lookup key = none →
      Change s (.run t) (drop {s with
        inFlight := s.inFlight.insert key s.slots.length
        slots := s.slots ++ [none]
        log := .registered t key s.slots.length :: s.log} t .inFlight (.forward key s.slots.length))
  | collected {t : τ} {key : κ} {i : Nat} {result : Except ε ρ} :
      s.pc t = .joinHeld key i → s.slots[i]? = some (some result) →
      Change s (.run t) (answer {s with
        locks := Mutex.release s.locks (.slot i)
        log := .collected t key i result :: s.log} t key result .coalesced)
  | slept {t : τ} {key : κ} {i : Nat} :
      s.pc t = .joinHeld key i → s.slots[i]? = some none →
      Change s (.run t) (drop s t (.slot i) (.asleep key i))
  | woke {t : τ} {key : κ} {i : Nat} :
      s.pc t = .asleep key i → Change s (.spurious t) (goto s t (.join key i))
  | succeeded {t : τ} {key : κ} {i : Nat} {value : ρ} :
      s.pc t = .forward key i → Change s (.forwarded t (.ok value)) (goto s t (.store key i value))
  | failed {t : τ} {key : κ} {i : Nat} {e : ε} :
      s.pc t = .forward key i →
      Change s (.forwarded t (.error e)) (goto s t (.remove key i (.error e)))
  | stored {t : τ} {key : κ} {i : Nat} {value : ρ} :
      s.pc t = .storeHeld key i value →
      Change s (.run t) (drop {s with inner := storeAfterForward s.inner key value} t .inner
        (.remove key i (.ok value)))
  | removed {t : τ} {key : κ} {i j : Nat} {result : Except ε ρ} :
      s.pc t = .removeHeld key i result → s.inFlight.lookup key = some j →
      Change s (.run t)
        (drop {s with inFlight := s.inFlight.erase key} t .inFlight (.publish key j result))
  | unwrapped {t : τ} {key : κ} {i : Nat} {result : Except ε ρ} :
      s.pc t = .removeHeld key i result → s.inFlight.lookup key = none →
      Change s (.run t) (drop s t .inFlight .panicked)
  | published {t : τ} {key : κ} {i : Nat} {result : Except ε ρ} :
      s.pc t = .publishHeld key i result →
      Change s (.run t) (drop {s with
        slots := s.slots.set i (some result)
        log := .published t i result :: s.log} t (.slot i) (.notify key i result))
  | notified {t : τ} {key : κ} {i : Nat} {result : Except ε ρ} :
      s.pc t = .notify key i result →
      Change s (.run t) (answer {s with pc := fun u => (s.pc u).woken i} t key result .miss)

omit [DecidableEq κ] in
theorem take_parts {s next : State τ κ ε ρ} {t : τ} {lock : Lock} {pc : Pc κ ε ρ}
    (taken : take s t lock pc = some next) : s.locks lock = none ∧
      goto {s with locks := Function.update s.locks lock (some t)} t pc = next := by
  unfold take at taken
  cases got : Mutex.acquire s.locks t lock with
  | none => simp [got] at taken
  | some locks =>
      obtain ⟨free,rfl⟩ := Mutex.acquire_parts got
      simp only [got,Option.map_some,Option.some.injEq] at taken
      exact ⟨free,taken⟩

omit [DecidableEq κ] in
theorem take_free {s : State τ κ ε ρ} {t : τ} {lock : Lock} {pc : Pc κ ε ρ}
    (free : s.locks lock = none) :
    take s t lock pc = some (goto {s with locks := Function.update s.locks lock (some t)} t pc) := by
  rw [take,Mutex.acquire_free free]
  rfl

theorem step_change {s next : State τ κ ε ρ} (step : Step s action next) : Change s action next := by
  unfold Step advance at step
  cases action with
  | call t key =>
      cases place : s.pc t <;> simp only [place,Option.some.injEq,reduceCtorEq] at step
      all_goals
        subst step
        exact .called (by simp [place,Pc.Ready])
  | forwarded t result =>
      cases place : s.pc t <;> simp only [place,reduceCtorEq] at step
      cases result with
      | ok value =>
          cases Option.some.inj step
          exact .succeeded place
      | error e =>
          cases Option.some.inj step
          exact .failed place
  | spurious t =>
      cases place : s.pc t <;> simp only [place,Option.some.injEq,reduceCtorEq] at step
      subst step
      exact .woke place
  | run t =>
      cases place : s.pc t with
      | idle | asleep | forward | returned | panicked => simp [place] at step
      | lookup | check | join | store | remove | publish =>
          simp only [place] at step
          obtain ⟨free,rfl⟩ := take_parts step
          exact .entered (by simp [place,Pc.enter]) free
      | lookupHeld key =>
          simp only [place] at step
          cases found : cachedValue s.inner key with
          | none =>
              simp only [found] at step
              cases Option.some.inj step
              exact .missed place found
          | some value =>
              simp only [found] at step
              cases Option.some.inj step
              exact .hit place found
      | checkHeld key =>
          simp only [place] at step
          cases found : s.inFlight.lookup key with
          | none =>
              simp only [found] at step
              cases Option.some.inj step
              exact .registered place found
          | some i =>
              simp only [found] at step
              cases Option.some.inj step
              exact .joined place found
      | joinHeld key i =>
          simp only [place] at step
          split at step
          · cases Option.some.inj step
            exact .collected place (by assumption)
          · cases Option.some.inj step
            exact .slept place (by assumption)
          · cases step
      | storeHeld key i value =>
          simp only [place] at step
          cases Option.some.inj step
          exact .stored place
      | removeHeld key i result =>
          simp only [place] at step
          cases found : s.inFlight.lookup key with
          | none =>
              simp only [found] at step
              cases Option.some.inj step
              exact .unwrapped place found
          | some j =>
              simp only [found] at step
              cases Option.some.inj step
              exact .removed place found
      | publishHeld key i result =>
          simp only [place] at step
          cases Option.some.inj step
          exact .published place
      | notify key i result =>
          simp only [place] at step
          cases Option.some.inj step
          exact .notified place

theorem change_step {s next : State τ κ ε ρ} (change : Change s action next) : Step s action next := by
  unfold Step advance
  cases change with
  | @called t key ready => rcases ready.cases with place | ⟨_,_,_,place⟩ <;> simp only [place]
  | @entered t lock pc entering free =>
      cases place : s.pc t <;> simp only [place,Pc.enter,Option.some.injEq,reduceCtorEq] at entering
      all_goals
        obtain ⟨rfl,rfl⟩ := Prod.mk.inj entering
        simp only [place]
        exact take_free free
  | hit place found | missed place found | joined place found | registered place found
  | collected place found | slept place found | removed place found | unwrapped place found =>
      simp only [place,found]
  | woke place | succeeded place | failed place | stored place | published place
  | notified place => simp only [place]

end SemanticClassifier.Cache
