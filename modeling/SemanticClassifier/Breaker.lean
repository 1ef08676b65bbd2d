import Mathlib.Data.List.Chain
import Mathlib.Data.List.Count
import Mathlib.Tactic.Basic

namespace SemanticClassifier.Breaker

-- Instants and the cooldown are counted in one unit; `consecutiveFailures` is a u32.
structure State where
  consecutiveFailures : Nat
  openUntil : Option Nat
  deriving DecidableEq

structure CircuitBreaker where
  failureThreshold : Nat
  cooldown : Nat
  positive : 1 ≤ failureThreshold
  bounded : failureThreshold < UInt32.size

def new (failureThreshold : UInt32) (cooldown : Nat) : CircuitBreaker where
  failureThreshold := max failureThreshold.toNat 1
  cooldown := cooldown
  positive := by omega
  bounded := max_lt failureThreshold.toNat_lt_size (by decide)

def initial : State := ⟨0,none⟩

variable (cb : CircuitBreaker)

def allow (s : State) (now : Nat) : Bool × State :=
  match s.openUntil with
  | some t => if now < t then (false,s) else (true,⟨0,none⟩)
  | none => (true,s)

def recordSuccess (_ : State) : State := ⟨0,none⟩

def recordFailure (s : State) (now : Nat) : State :=
  let failures := (s.consecutiveFailures + 1) % UInt32.size
  if failures ≥ cb.failureThreshold then ⟨failures,some (now + cb.cooldown)⟩
  else ⟨failures,s.openUntil⟩

inductive Event where
  | allow (now : Nat) (admitted : Bool)
  | failure (now : Nat) (opened : Bool)
  deriving DecidableEq

def Event.admits : Event → Bool
  | .allow _ admitted => admitted
  | .failure .. => false

def Event.opens : Event → Bool
  | .allow .. => false
  | .failure _ opened => opened

-- A dead Redis: whoever is admitted fails before anybody asks again. `waiting`
-- says that an admitted call has not failed yet, and the clock never runs back.
inductive Outage : List Event → State → Nat → Bool → Prop where
  | start : Outage [] initial clock false
  | allow : Outage events s clock false → clock ≤ now →
      Outage (events ++ [.allow now (allow s now).1]) (Breaker.allow s now).2 now (Breaker.allow s now).1
  | failure : Outage events s clock true → clock ≤ now →
      Outage (events ++ [.failure now (recordFailure cb s now).openUntil.isSome])
        (recordFailure cb s now) now false

-- Between two consecutive openings at most one call was let through.
def OneProbePerWindow (events : List Event) : Prop :=
  ∀ before first window second after,
    events = before ++ first :: window ++ second :: after →
    first.opens = true → second.opens = true → (∀ e ∈ window, e.opens = false) →
    window.countP Event.admits ≤ 1

variable {cb}

theorem allow_closed (s : State) (now : Nat) (admitted : (allow s now).1 = true) :
    (allow s now).2.openUntil = none := by
  cases opened : s.openUntil with
  | none => simp [allow,opened]
  | some t =>
      by_cases early : now < t
      · simp [allow,opened,early] at admitted
      · simp [allow,opened,early]

-- While no opening is in force the count stays below the threshold, so the u32
-- never wraps; an admitted call always finds the breaker closed.
theorem outage_below (run : Outage cb events s clock waiting) :
    (waiting = true → s.openUntil = none) ∧
      (s.openUntil = none → s.consecutiveFailures < cb.failureThreshold) := by
  induction run with
  | start => exact ⟨nofun,fun _ => cb.positive⟩
  | @allow events s clock now prior later ih =>
      refine ⟨allow_closed s now,?_⟩
      cases opened : s.openUntil with
      | none => simpa [allow,opened] using ih.2 opened
      | some t =>
          by_cases early : now < t
          · simp [allow,opened,early]
          · simpa [allow,opened,early] using Nat.lt_of_lt_of_le Nat.zero_lt_one cb.positive
  | @failure events s clock now prior later ih =>
      refine ⟨nofun,?_⟩
      unfold recordFailure
      dsimp only
      split
      · exact nofun
      · rename_i short
        exact fun _ => Nat.not_le.mp short

theorem Outage.admitted (run : Outage cb events s clock false) (later : clock ≤ now)
    (passed : Breaker.allow s now = (true,after)) :
    Outage cb (events ++ [.allow now true]) after now true := by
  have asked := run.allow later
  rwa [passed] at asked

-- Exactly the failure that reaches the threshold opens.
theorem Outage.fail_short (run : Outage cb events s clock true) (later : clock ≤ now)
    (short : s.consecutiveFailures + 1 < cb.failureThreshold) :
    Outage cb (events ++ [.failure now false]) ⟨s.consecutiveFailures + 1,none⟩ now false := by
  have fits : (s.consecutiveFailures + 1) % UInt32.size = s.consecutiveFailures + 1 :=
    Nat.mod_eq_of_lt (Nat.lt_trans short cb.bounded)
  have counted : recordFailure cb s now = ⟨s.consecutiveFailures + 1,none⟩ := by
    simp only [recordFailure,fits,Nat.not_le.mpr short,(outage_below run).1 rfl,if_false]
  have failed := run.failure later
  rwa [counted] at failed

theorem Outage.fail_reached (run : Outage cb events s clock true) (later : clock ≤ now)
    (reached : s.consecutiveFailures + 1 = cb.failureThreshold) :
    Outage cb (events ++ [.failure now true])
      ⟨cb.failureThreshold,some (now + cb.cooldown)⟩ now false := by
  have fits : (s.consecutiveFailures + 1) % UInt32.size = cb.failureThreshold := by
    rw [reached]
    exact Nat.mod_eq_of_lt cb.bounded
  have counted : recordFailure cb s now = ⟨cb.failureThreshold,some (now + cb.cooldown)⟩ := by
    simp only [recordFailure,fits,ge_iff_le,Nat.le_refl,if_true]
  have failed := run.failure later
  rwa [counted] at failed

-- A run of failing calls that stays below the threshold admits each of them.
theorem calls_fail (k : Nat) (run : Outage cb events s clock false) (closed : s.openUntil = none)
    (short : s.consecutiveFailures + k < cb.failureThreshold) :
    ∃ calls, Outage cb (events ++ calls) ⟨s.consecutiveFailures + k,none⟩ clock false ∧
      calls.countP Event.admits = k ∧ ∀ e ∈ calls, e.opens = false := by
  induction k with
  | zero =>
      obtain ⟨failures,openUntil⟩ := s
      cases closed
      exact ⟨[],by simpa using run,rfl,by simp⟩
  | succ k ih =>
      obtain ⟨calls,reached,count,quiet⟩ := ih (by omega)
      have asked := reached.admitted (Nat.le_refl clock) rfl
      have failed := asked.fail_short (Nat.le_refl clock) (by simpa [Nat.add_assoc] using short)
      refine ⟨calls ++ [.allow clock true,.failure clock false],
        by simpa [Nat.add_assoc] using failed,?_,?_⟩
      · rw [List.countP_append,count]
        rfl
      · intro e member
        rcases List.mem_append.mp member with old | new
        · exact quiet e old
        · simp only [List.mem_cons,List.not_mem_nil,or_false] at new
          rcases new with rfl | rfl <;> rfl

-- The half-open transition clears the count, so a window lasts until the
-- threshold is reached anew: every threshold of calls is let through.
theorem window_admits (cb : CircuitBreaker) (many : 1 < cb.failureThreshold) :
    ∃ before first window second s clock,
      Outage cb (before ++ first :: window ++ [second]) s clock false ∧
      first.opens = true ∧ second.opens = true ∧ (∀ e ∈ window, e.opens = false) ∧
      window.countP Event.admits = cb.failureThreshold := by
  obtain ⟨k,size⟩ : ∃ k, cb.failureThreshold = k + 2 := ⟨cb.failureThreshold - 2,by omega⟩
  let wake := 0 + cb.cooldown
  have begin : Outage cb [] initial 0 false := .start
  obtain ⟨calls,closed,_,_⟩ := calls_fail (k + 1) begin rfl (by simp [initial,size])
  have opened := (closed.admitted (Nat.le_refl 0) rfl).fail_reached (Nat.le_refl 0) (by simp [initial,size])
  have woken : allow ⟨cb.failureThreshold,some wake⟩ wake = (true,⟨0,none⟩) := by simp [allow]
  have probe := opened.admitted (Nat.zero_le wake) woken
  have failed := probe.fail_short (Nat.le_refl wake) (by simp [size])
  obtain ⟨more,still,count,quiet⟩ := calls_fail k failed rfl (by simp [size]; omega)
  have again := (still.admitted (Nat.le_refl wake) rfl).fail_reached (Nat.le_refl wake)
    (by simp [size]; omega)
  refine ⟨calls ++ [.allow 0 true],.failure 0 true,
    .allow wake true :: .failure wake false :: more ++ [.allow wake true],.failure wake true,_,_,
    by simpa using again,rfl,rfl,?_,?_⟩
  · intro e member
    simp only [List.cons_append,List.mem_cons,List.mem_append,List.not_mem_nil,or_false] at member
    rcases member with rfl | rfl | old | rfl
    · rfl
    · rfl
    · exact quiet e old
    · rfl
  · simp [List.countP_append,List.countP_cons,Event.admits,count,size]

-- At threshold one the failure of an admitted call reopens the breaker at once.
theorem admitted_then_opens (one : cb.failureThreshold = 1) (run : Outage cb events s clock waiting) :
    events.IsChain (fun e next => e.admits = true → next.opens = true) ∧
      ∀ e ∈ events.getLast?, e.admits = true → waiting = true := by
  induction run with
  | start => exact ⟨.nil,by simp⟩
  | @allow events s clock now prior later ih =>
      refine ⟨List.isChain_append.mpr ⟨ih.1,.singleton _,?_⟩,?_⟩
      · intro e last next _ admits
        exact nomatch ih.2 e last admits
      · simp [Event.admits]
  | @failure events s clock now prior later ih =>
      have below := (outage_below prior).2 ((outage_below prior).1 rfl)
      have zero : s.consecutiveFailures = 0 := by omega
      have opened : (recordFailure cb s now).openUntil.isSome = true := by
        simp [recordFailure,zero,one]
      refine ⟨List.isChain_append.mpr ⟨ih.1,.singleton _,?_⟩,by simp [Event.admits]⟩
      intro e last next new _
      cases Option.some.inj new
      exact opened

theorem quiet_chain_admits {window : List Event}
    (chain : window.IsChain (fun e next => e.admits = true → next.opens = true))
    (quiet : ∀ e ∈ window, e.opens = false) : window.countP Event.admits ≤ 1 := by
  induction window with
  | nil => exact Nat.zero_le 1
  | cons e rest ih =>
      cases rest with
      | nil => exact List.countP_le_length
      | cons next rest =>
          obtain ⟨here,tail⟩ := List.isChain_cons_cons.mp chain
          have refused : ¬ e.admits = true := by
            intro admits
            have closed := quiet next (by simp)
            rw [here admits] at closed
            cases closed
          rw [List.countP_cons_of_neg refused]
          exact ih tail (fun later member => quiet later (List.mem_cons_of_mem _ member))

-- One probe per cooldown window, on every run against a dead Redis, is a matter
-- of the threshold alone.
theorem one_probe_iff_threshold_one (cb : CircuitBreaker) :
    (∀ events s clock waiting, Outage cb events s clock waiting → OneProbePerWindow events) ↔
      cb.failureThreshold = 1 := by
  constructor
  · intro bounded
    by_contra other
    have many : 1 < cb.failureThreshold := Nat.lt_of_le_of_ne cb.positive (Ne.symm other)
    obtain ⟨before,first,window,second,s,clock,run,opens,reopens,quiet,count⟩ := window_admits cb many
    have atMost := bounded _ s clock false run before first window second [] rfl opens reopens quiet
    omega
  · intro one events s clock waiting run before first window second after split _ _ quiet
    have chain := (admitted_then_opens one run).1
    rw [split] at chain
    have inner : window.IsChain (fun e next => e.admits = true → next.opens = true) :=
      chain.left_of_append.right_of_append.tail
    exact quiet_chain_admits inner quiet

-- Two failures open; after the cooldown two more calls pass before it opens again.
theorem two_probes_in_one_window :
    ∃ events s clock waiting, Outage (new 2 10) events s clock waiting ∧ ¬ OneProbePerWindow events := by
  obtain ⟨before,first,window,second,s,clock,run,opens,reopens,quiet,count⟩ :=
    window_admits (new 2 10) (by decide)
  refine ⟨_,s,clock,false,run,?_⟩
  intro bounded
  have atMost := bounded before first window second [] rfl opens reopens quiet
  rw [count] at atMost
  exact absurd atMost (by decide)

end SemanticClassifier.Breaker
