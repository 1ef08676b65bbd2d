import Mathlib.Algebra.BigOperators.Group.List.Basic
import Mathlib.Algebra.GroupWithZero.Nat
import Mathlib.Data.Finset.Card
import Mathlib.Logic.Function.Basic

namespace Flow
universe u v w

-- Threads walk over a chart of places, one event a step. All of them start out
-- at one place; how many threads there are is left open.
inductive Walk {τ : Type u} {π : Type v} {ε : Type w} [DecidableEq τ] (source target : ε → π) (origin : π) :
    List ε → (τ → π) → Prop where
  | start : Walk source target origin [] fun _ => origin
  | move : Walk source target origin events place → place t = source e →
      Walk source target origin (events ++ [e]) (Function.update place t (target e))

-- The flow in and out of calls, each call with a label of its own.
inductive Turn (ι : Type u) where
  | enter (label : ι)
  | leave (label : ι)

section Turns
variable {ι : Type u}

def Turn.source : Turn ι → Option ι
  | .enter _ => none
  | .leave label => some label

def Turn.target : Turn ι → Option ι
  | .enter label => some label
  | .leave _ => none

def arrivals (turns : List (Turn ι)) : List ι := turns.filterMap Turn.target

def departures (turns : List (Turn ι)) : List ι := turns.filterMap Turn.source

end Turns

variable {τ : Type u} {π : Type v} {ε : Type w} [DecidableEq τ]
variable {source target : ε → π} {origin : π} {events : List ε} {place : τ → π}

def entries (source target : ε → π) (inside : π → Bool) (events : List ε) : Nat :=
  events.countP fun e => inside (target e) && !inside (source e)

def exits (source target : ε → π) (inside : π → Bool) (events : List ε) : Nat :=
  events.countP fun e => inside (source e) && !inside (target e)

-- Who stands in a region after one thread has moved.
theorem member_moved {inside : π → Bool} {who after : Finset τ} {q : π}
    (member : ∀ u, u ∈ who ↔ inside (place u) = true) (own : t ∈ after ↔ inside q = true)
    (others : ∀ u, u ≠ t → (u ∈ after ↔ u ∈ who)) (u : τ) :
    u ∈ after ↔ inside (Function.update place t q u) = true := by
  by_cases same : u = t
  · subst same
    rw [Function.update_self]
    exact own
  · rw [Function.update_of_ne same,others u same]
    exact member u

-- Whoever came into a region and did not leave is there now.
theorem Walk.census (inside : π → Bool) (away : inside origin = false)
    (walk : Walk source target origin events place) :
    ∃ who : Finset τ, (∀ t, t ∈ who ↔ inside (place t) = true) ∧
      who.card + exits source target inside events = entries source target inside events := by
  induction walk with
  | start => exact ⟨∅,by simp [away],rfl⟩
  | @move events place t e _ here ih =>
      obtain ⟨who,member,balance⟩ := ih
      have mine : t ∈ who ↔ inside (source e) = true := here ▸ member t
      unfold entries exits at balance
      simp only [entries,exits,List.countP_append,List.countP_singleton]
      cases before : inside (source e) <;> cases after : inside (target e)
      case false.false | true.true =>
          refine ⟨who,member_moved member ?_ fun _ _ => Iff.rfl,by simpa using balance⟩
          rw [mine,before,after]
      case false.true =>
          have absent : t ∉ who := fun there => by simp [before] at mine; exact mine there
          refine ⟨insert t who,member_moved member (by simp [after]) fun u other => ?_,?_⟩
          · rw [Finset.mem_insert,or_iff_right other]
          · rw [Finset.card_insert_of_notMem absent]
            simp
            omega
      case true.false =>
          have counted := Finset.card_erase_add_one (mine.mpr before)
          refine ⟨who.erase t,member_moved member (by simp [after]) fun u other => ?_,?_⟩
          · rw [Finset.mem_erase,and_iff_right other]
          · simp
            omega

-- With nobody left in a region, as many threads left it as came.
theorem Walk.conserved (inside : π → Bool) (away : inside origin = false)
    (walk : Walk source target origin events place) (rest : ∀ t, inside (place t) = false) :
    exits source target inside events = entries source target inside events := by
  obtain ⟨who,member,balance⟩ := walk.census inside away
  have nobody : who = ∅ := by
    apply Finset.eq_empty_of_forall_notMem
    intro t there
    rw [member t,rest t] at there
    cases there
  rw [nobody,Finset.card_empty,Nat.zero_add] at balance
  exact balance

section Kinds
variable [DecidableEq ε]

-- One more event of one of the kinds.
theorem sum_count_cons (kinds : List ε) (distinct : kinds.Nodup) (e : ε) (events : List ε) :
    (kinds.map fun kind => (e :: events).count kind).sum =
      (kinds.map fun kind => events.count kind).sum + if e ∈ kinds then 1 else 0 := by
  induction kinds with
  | nil => rfl
  | cons kind kinds ih =>
      obtain ⟨new,rest⟩ := List.nodup_cons.mp distinct
      rw [List.map_cons,List.sum_cons,ih rest,List.map_cons,List.sum_cons,List.count_cons]
      by_cases same : e = kind
      · subst same
        simp only [beq_self_eq_true,new,List.mem_cons,or_false,if_false,if_true]
        omega
      · simp only [beq_iff_eq,same,List.mem_cons,false_or,if_false]
        omega

theorem countP_kinds {p : ε → Bool} (kinds : List ε) (distinct : kinds.Nodup)
    (exact : ∀ e, p e = decide (e ∈ kinds)) (events : List ε) :
    events.countP p = (kinds.map fun kind => events.count kind).sum := by
  induction events with
  | nil => simp
  | cons e events ih =>
      rw [sum_count_cons kinds distinct,List.countP_cons,ih,exact]
      simp

-- The same, read off the events that lead into the region and out of it.
theorem Walk.balance (inside : π → Bool) (away : inside origin = false)
    (walk : Walk source target origin events place) (rest : ∀ t, inside (place t) = false)
    (coming going : List ε) (once : coming.Nodup ∧ going.Nodup)
    (arrive : ∀ e, (inside (target e) && !inside (source e)) = decide (e ∈ coming))
    (leave : ∀ e, (inside (source e) && !inside (target e)) = decide (e ∈ going)) :
    (going.map fun e => events.count e).sum = (coming.map fun e => events.count e).sum := by
  have settled := walk.conserved inside away rest
  unfold exits entries at settled
  rwa [countP_kinds going once.2 leave,countP_kinds coming once.1 arrive] at settled

end Kinds

section Calls
variable {ι : Type u}

-- Calls with different keys, and one more with a key of its own.
theorem apart_entered {κ : Type w} {key : ι → κ} {place : τ → Option ι}
    (apart : ∀ t u a b, place t = some a → place u = some b → key a = key b → t = u)
    (fresh : ∀ u b, place u = some b → key b ≠ key label) (t : τ) :
    ∀ u v a b, Function.update place t (some label) u = some a →
      Function.update place t (some label) v = some b → key a = key b → u = v := by
  intro u v a b one two same
  by_cases mine : u = t
  · by_cases yours : v = t
    · exact mine.trans yours.symm
    · rw [mine,Function.update_self] at one
      rw [Function.update_of_ne yours] at two
      cases one
      exact absurd same.symm (fresh v b two)
  · rw [Function.update_of_ne mine] at one
    by_cases yours : v = t
    · rw [yours,Function.update_self] at two
      cases two
      exact absurd same (fresh u a one)
    · rw [Function.update_of_ne yours] at two
      exact apart u v a b one two same

-- Whoever is still in a call after one has left was in it before.
theorem still_inside {place : τ → Option ι} (here : Function.update place t none u = some label) :
    place u = some label := by
  by_cases mine : u = t
  · rw [mine,Function.update_self] at here
    cases here
  · rwa [Function.update_of_ne mine] at here

-- With everybody out again, every call that was entered has been left.
theorem Walk.turns {turns : List (Turn ι)} {place : τ → Option ι}
    (walk : Walk Turn.source Turn.target none turns place) (rest : ∀ t, place t = none) :
    (arrivals turns).Perm (departures turns) := by
  classical
  refine List.perm_iff_count.mpr fun label => ?_
  have settled := walk.conserved (fun spot => decide (spot = some label)) rfl
    (fun t => by rw [rest t]; rfl)
  unfold exits entries at settled
  rw [arrivals,departures,List.count_eq_countP,List.count_eq_countP,List.countP_filterMap,List.countP_filterMap]
  refine Eq.trans ?_ (settled.symm.trans ?_)
  · refine List.countP_congr fun turn _ => ?_
    cases turn <;> simp [Turn.target,Turn.source]
  · refine List.countP_congr fun turn _ => ?_
    cases turn <;> simp [Turn.target,Turn.source]

end Calls

end Flow
