import Mathlib.Data.List.Induction
import SemanticClassifier.Library.Interleaving

namespace Linearization
open Interleaving
universe u v w

-- A sequential object: what a call makes of the state, and its answer if it has
-- one. Served one after another, calls leave a state and each caller's answers.
section Sequential
variable {τ : Type u} {κ : Type v} {σ α : Type w} [DecidableEq τ] (perform : σ → κ → σ × Option α)

def serve (served : σ × (τ → List α)) (call : τ × κ) : σ × (τ → List α) :=
  let done := perform served.1 call.2
  (done.1,Function.update served.2 call.1 (served.2 call.1 ++ done.2.toList))

def replay (initial : σ) (calls : List (τ × κ)) : σ × (τ → List α) :=
  calls.foldl (serve perform) (initial,fun _ => [])

def own (t : τ) (calls : List (τ × κ)) : List κ :=
  calls.filterMap fun call => if call.1 = t then some call.2 else none

variable {perform} {initial : σ} {calls : List (τ × κ)}

@[simp] theorem replay_snoc (call : τ × κ) :
    replay perform initial (calls ++ [call]) = serve perform (replay perform initial calls) call := by
  simp [replay]

@[simp] theorem own_snoc (t : τ) (call : τ × κ) :
    own t (calls ++ [call]) = own t calls ++ if call.1 = t then [call.2] else [] := by
  by_cases mine : call.1 = t <;> simp [own,List.filterMap_append,mine]

theorem serve_self (served : σ × (τ → List α)) (call : τ × κ) :
    (serve perform served call).2 call.1 = served.2 call.1 ++ (perform served.1 call.2).2.toList :=
  Function.update_self ..

theorem serve_others {served : σ × (τ → List α)} {call : τ × κ} {t : τ} (other : t ≠ call.1) :
    (serve perform served call).2 t = served.2 t := Function.update_of_ne other _ _

-- An answer, once given, stays where it is.
theorem replay_early (calls late : List (τ × κ)) (t : τ) :
    (replay perform initial calls).2 t <+: (replay perform initial (calls ++ late)).2 t := by
  induction late using List.reverseRecOn with
  | nil => simp
  | append_singleton late call ih =>
      rw [← List.append_assoc,replay_snoc]
      by_cases mine : t = call.1
      · subst mine
        rw [serve_self]
        exact ih.trans (List.prefix_append _ _)
      · rwa [serve_others mine]

theorem replay_answer {early late : List (τ × κ)} {t : τ} {call : κ} {answer : α}
    (answers : (perform (replay perform initial early).1 call).2 = some answer) :
    (replay perform initial early).2 t ++ [answer] <+:
      (replay perform initial (early ++ (t,call) :: late)).2 t := by
  have here : (replay perform initial (early ++ [(t,call)])).2 t <+:
      (replay perform initial (early ++ [(t,call)] ++ late)).2 t := replay_early _ late t
  have told : (replay perform initial (early ++ [(t,call)])).2 t =
      (replay perform initial early).2 t ++ [answer] := by
    rw [replay_snoc]
    exact (serve_self _ (t,call)).trans (by rw [answers]; rfl)
  rw [told,List.append_assoc,List.singleton_append] at here
  exact here

end Sequential

-- A run of a machine, and the calls that took effect in it, in that order.
section Points
variable {ς β : Type u} {τ : Type v} {κ : Type w} {step : ς → β → ς → Prop}

def points (point : ς → β → Option (τ × κ)) (trace : List (ς × β)) : List (τ × κ) :=
  trace.filterMap fun row => point row.1 row.2

@[simp] theorem points_snoc (point : ς → β → Option (τ × κ)) (trace : List (ς × β)) :
    points point (trace ++ [(s,action)]) = points point trace ++ (point s action).toList := by
  cases takes : point s action <;> simp [points,takes]

-- What every step keeps, given the calls so far and the one that takes effect in it.
theorem path_points {point : ς → β → Option (τ × κ)} (related : ς → List (τ × κ) → Prop)
    (start : related origin [])
    (each : ∀ calls s action next, related s calls → step s action next →
      related next (calls ++ (point s action).toList))
    (path : Path step origin trace last) : related last (points point trace) := by
  induction path with
  | nil => exact start
  | snoc _ taken ih =>
      rw [points_snoc]
      exact each _ _ _ _ ih taken

end Points

end Linearization
