import SemanticClassifier.Breaker

namespace SemanticClassifier.Breaker

-- What a breaker has been through: its answers, and the results of admitted calls
-- whenever they came in.
inductive Entry where
  | refused (now : Nat)
  | passed (now : Nat)
  | halfOpen (now : Nat)
  | success (now : Nat)
  | failure (now : Nat)
  deriving DecidableEq

def Entry.clears : Entry → Bool
  | .halfOpen _ | .success _ => true
  | .refused _ | .passed _ | .failure _ => false

def Entry.failed : Entry → Bool
  | .failure _ => true
  | .refused _ | .passed _ | .halfOpen _ | .success _ => false

def asked (s : State) (now : Nat) : Entry :=
  match s.openUntil with
  | some t => if now < t then .refused now else .halfOpen now
  | none => .passed now

-- Each call takes the lock once, in any order; the clock never runs back.
inductive History (cb : CircuitBreaker) : List Entry → State → Nat → Prop where
  | start : History cb [] initial clock
  | allow : History cb trace s clock → clock ≤ now →
      History cb (trace ++ [asked s now]) (Breaker.allow s now).2 now
  | success : History cb trace s clock → clock ≤ now →
      History cb (trace ++ [.success now]) (recordSuccess s) now
  | failure : History cb trace s clock → clock ≤ now →
      History cb (trace ++ [.failure now]) (recordFailure cb s now) now

-- A stretch without success or half-open step that has `threshold` failures, the
-- last of them at `last`.
def Row (threshold : Nat) (trace : List Entry) (last : Nat) : Prop :=
  ∃ before early quiet, trace = before ++ (early ++ .failure last :: quiet) ∧
    (∀ e ∈ early ++ .failure last :: quiet, e.clears = false) ∧
    threshold ≤ early.countP Entry.failed + 1 ∧ ∀ e ∈ quiet, e.failed = false

-- The count is that of the failures since the last clearing entry.
def Counted (trace : List Entry) (failures : Nat) : Prop :=
  ∃ before stretch, trace = before ++ stretch ∧ (∀ e ∈ stretch, e.clears = false) ∧
    stretch.countP Entry.failed = failures

structure Tracked (cb : CircuitBreaker) (trace : List Entry) (s : State) (clock : Nat) : Prop where
  past : ∀ now, Entry.failure now ∈ trace → now ≤ clock
  closed : s.openUntil = none → s.consecutiveFailures < cb.failureThreshold ∧
    Counted trace s.consecutiveFailures
  opened : ∀ t, s.openUntil = some t → ∃ last, Row cb.failureThreshold trace last ∧ t ≤ last + cb.cooldown

section Rows
variable {threshold last failures : Nat} {trace : List Entry}

theorem extended {flag : Entry → Bool} {entries : List Entry} (none : ∀ e ∈ entries, flag e = false) {e : Entry}
    (here : flag e = false) : ∀ other ∈ entries ++ [e], flag other = false := by
  intro other member
  rcases List.mem_append.mp member with old | new
  · exact none other old
  · rw [List.mem_singleton.mp new]
    exact here

theorem Row.mem (row : Row threshold trace last) : Entry.failure last ∈ trace := by
  obtain ⟨before,early,quiet,rfl,_⟩ := row
  simp

theorem Row.quiet (row : Row threshold trace last) {e : Entry} (keeps : e.clears = false)
    (fine : e.failed = false) : Row threshold (trace ++ [e]) last := by
  obtain ⟨before,early,quiet,rfl,kept,many,after⟩ := row
  refine ⟨before,early,quiet ++ [e],by simp,?_,many,extended after fine⟩
  rw [← List.cons_append,← List.append_assoc]
  exact extended kept keeps

theorem Row.failure (row : Row threshold trace last) (now : Nat) :
    Row threshold (trace ++ [.failure now]) now := by
  obtain ⟨before,early,quiet,rfl,kept,many,_⟩ := row
  refine ⟨before,early ++ .failure last :: quiet,[],by simp,extended kept rfl,?_,by simp⟩
  rw [List.countP_append,List.countP_cons_of_pos rfl]
  omega

theorem Counted.row (counted : Counted trace failures) (now : Nat) (enough : threshold ≤ failures + 1) :
    Row threshold (trace ++ [.failure now]) now := by
  obtain ⟨before,stretch,rfl,kept,rfl⟩ := counted
  exact ⟨before,stretch,[],by simp,extended kept rfl,enough,by simp⟩

theorem Counted.append (counted : Counted trace failures) {e : Entry} (keeps : e.clears = false) :
    Counted (trace ++ [e]) (failures + if e.failed then 1 else 0) := by
  obtain ⟨before,stretch,rfl,kept,rfl⟩ := counted
  refine ⟨before,stretch ++ [e],by simp,extended kept keeps,?_⟩
  rw [List.countP_append,List.countP_singleton]

theorem counted_none (trace : List Entry) : Counted trace 0 :=
  ⟨trace,[],(List.append_nil trace).symm,by simp,rfl⟩

end Rows

variable {cb : CircuitBreaker} {trace : List Entry} {s : State} {clock now : Nat}

theorem past_append (past : ∀ at', Entry.failure at' ∈ trace → at' ≤ clock) (later : clock ≤ now) {e : Entry}
    (timed : ∀ at', e = .failure at' → at' = now) :
    ∀ at', Entry.failure at' ∈ trace ++ [e] → at' ≤ now := by
  intro at' member
  rcases List.mem_append.mp member with old | new
  · exact (past at' old).trans later
  · exact (timed at' (List.mem_singleton.mp new).symm).le

theorem past_quiet (past : ∀ at', Entry.failure at' ∈ trace → at' ≤ clock) (later : clock ≤ now) {e : Entry}
    (quiet : e.failed = false) : ∀ at', Entry.failure at' ∈ trace ++ [e] → at' ≤ now := by
  apply past_append past later
  intro at' same
  rw [same] at quiet
  cases quiet

theorem Tracked.cleared {e : Entry} (past : ∀ at', Entry.failure at' ∈ trace ++ [e] → at' ≤ now) :
    Tracked cb (trace ++ [e]) ⟨0,none⟩ now where
  past := past
  closed := fun _ => ⟨cb.positive,counted_none _⟩
  opened := nofun

theorem Tracked.allow (tracked : Tracked cb trace s clock) (later : clock ≤ now) :
    Tracked cb (trace ++ [asked s now]) (Breaker.allow s now).2 now := by
  cases opened : s.openUntil with
  | none =>
      have past := past_quiet tracked.past later (e := .passed now) rfl
      simp only [asked,Breaker.allow,opened]
      refine ⟨past,fun none => ?_,fun t some => ?_⟩
      · obtain ⟨below,counted⟩ := tracked.closed none
        exact ⟨below,counted.append rfl⟩
      · rw [opened] at some
        cases some
  | some t =>
      by_cases early : now < t
      · have past := past_quiet tracked.past later (e := .refused now) rfl
        simp only [asked,Breaker.allow,opened,early,if_true]
        refine ⟨past,fun none => ?_,fun until' some => ?_⟩
        · rw [opened] at none
          cases none
        · obtain ⟨last,row,limit⟩ := tracked.opened until' some
          exact ⟨last,row.quiet rfl rfl,limit⟩
      · simp only [asked,Breaker.allow,opened,early,if_false]
        exact Tracked.cleared (past_quiet tracked.past later rfl)

theorem Tracked.failure (tracked : Tracked cb trace s clock) (later : clock ≤ now) :
    Tracked cb (trace ++ [.failure now]) (recordFailure cb s now) now := by
  have past := past_append tracked.past later (e := .failure now) (fun _ same => (Entry.failure.inj same).symm)
  cases opened : s.openUntil with
  | none =>
      obtain ⟨below,counted⟩ := tracked.closed opened
      have fits : (s.consecutiveFailures + 1) % UInt32.size = s.consecutiveFailures + 1 :=
        Nat.mod_eq_of_lt (Nat.lt_of_le_of_lt below cb.bounded)
      simp only [recordFailure,fits]
      split
      · rename_i reached
        refine ⟨past,fun none => ?_,fun t some => ⟨now,counted.row now reached,?_⟩⟩
        · cases none
        · exact (Option.some.inj some).ge
      · rename_i short
        refine ⟨past,fun _ => ⟨Nat.lt_of_not_ge short,counted.append rfl⟩,fun t some => ?_⟩
        rw [opened] at some
        cases some
  | some t =>
      obtain ⟨last,row,limit⟩ := tracked.opened t opened
      have before := tracked.past last row.mem
      simp only [recordFailure]
      split
      · refine ⟨past,fun none => ?_,fun t some => ⟨now,row.failure now,?_⟩⟩
        · cases none
        · exact (Option.some.inj some).ge
      · -- The wrapped count leaves the window as it was; the last failure is later still.
        refine ⟨past,fun none => ?_,fun until' some => ⟨now,row.failure now,?_⟩⟩
        · rw [opened] at none
          cases none
        · rw [opened] at some
          cases some
          omega

theorem History.tracked (run : History cb trace s clock) : Tracked cb trace s clock := by
  induction run with
  | start => exact ⟨by simp,fun _ => ⟨cb.positive,counted_none []⟩,nofun⟩
  | allow _ later ih => exact ih.allow later
  | success _ later ih => exact Tracked.cleared (past_quiet ih.past later rfl)
  | failure _ later ih => exact ih.failure later

-- Two failures open; the third one's call was let in before that, and its failure
-- puts the end of the cooldown off.
def lateFailure : List Entry :=
  [.passed 0,.passed 0,.passed 0,.failure 1,.failure 3,.failure 8]

theorem lateFailure_history : History (new 2 10) lateFailure ⟨3,some 18⟩ 8 := by
  have admitted : History (new 2 10) [.passed 0,.passed 0,.passed 0] initial 0 :=
    ((History.start.allow (Nat.le_refl 0)).allow (Nat.le_refl 0)).allow (Nat.le_refl 0)
  exact ((admitted.failure (by decide : 0 ≤ 1)).failure (by decide : 1 ≤ 3)).failure (by decide : 3 ≤ 8)

end SemanticClassifier.Breaker
