import SemanticClassifier.ServiceOutcomes
import SemanticClassifier.TextCacheLinear

namespace SemanticClassifier.Prefiltered
open Classify Interleaving Service TextCacheLocks

-- A core whose L0 tier is a `MemoryTextCache`. `inside` says which threads are in
-- a call to it.
structure State (τ φ σ : Type) where
  core : Service.State τ φ σ
  tier : TextCacheLocks.State τ (ClassificationResult σ)
  inside : τ → Bool

inductive Action (τ φ σ : Type) where
  | core (action : Service.Action τ φ σ)
  | enter (thread : τ)
  | tier (thread : τ)
  | leave (thread : τ)

variable {τ φ σ : Type} [DecidableEq τ]

def start (τ φ σ : Type) (capacity held : Nat) (threshold : ℚ) : State τ φ σ where
  core := Service.start τ φ σ capacity
  tier := TextCacheLocks.start (TextCache.new _ held threshold) fun _ => []
  inside := fun _ => false

-- The steps of the closure that are a call to L0.
def consults : Service.Action τ φ σ → Bool
  | .prefilterLookup .. | .prefilterInsert _ => true
  | _ => false

section Machine
variable (core : ServiceCore) (hashOne : UInt64 × List UInt64 → UInt64)

def lookupOf (σ : Type) (input : ClassificationInput) : Call (ClassificationResult σ) :=
  .lookup (core.signature (normalize input).text) core.tag

-- The call a thread is about to make.
def asking (s : State τ φ σ) (t : τ) : Option (Call (ClassificationResult σ)) :=
  match s.core.stage t,s.core.cache.pc t with
  | .waiting input,.forward .. => some (lookupOf core σ input)
  | .populating input _ result,_ => some (.insert (core.signature (normalize input).text) result core.tag)
  | _,_ => none

-- What the closure goes on with when its call is over.
def returned (s : State τ φ σ) (t : τ) : Option (Service.Action τ φ σ) :=
  match s.core.stage t,s.tier.answers t with
  | .waiting _,[answer] => some (.prefilterLookup t answer)
  | .populating ..,_ => some (.prefilterInsert t)
  | _,_ => none

def finished (tier : TextCacheLocks.State τ (ClassificationResult σ)) (t : τ) : Bool :=
  match tier.pc t,tier.program t with
  | .idle,[] => true
  | _,_ => false

def entered (s : State τ φ σ) (t : τ) (call : Call (ClassificationResult σ)) : State τ φ σ :=
  {s with
    tier := {s.tier with program := Function.update s.tier.program t [call]}
    inside := Function.update s.inside t true}

def left (s : State τ φ σ) (t : τ) (next : Service.State τ φ σ) : State τ φ σ where
  core := next
  tier := {s.tier with answers := Function.update s.tier.answers t []}
  inside := Function.update s.inside t false

def advance (s : State τ φ σ) : Action τ φ σ → Option (State τ φ σ)
  | .core action =>
    if s.inside action.thread || consults action then none
    else (Service.advance core s.core action).map fun next => {s with core := next}
  | .enter t => if s.inside t then none else (asking core s t).map (entered s t)
  | .tier t =>
    if s.inside t then (TextCacheLocks.advance hashOne s.tier t).map fun tier => {s with tier := tier} else none
  | .leave t =>
    if s.inside t && finished s.tier t then
      (returned s t).bind fun action => (Service.advance core s.core action).map (left s t)
    else none

def Step (s : State τ φ σ) (action : Action τ φ σ) (next : State τ φ σ) : Prop :=
  advance core hashOne s action = some next

inductive Change (s : State τ φ σ) : Action τ φ σ → State τ φ σ → Prop where
  | ran {action : Service.Action τ φ σ} {next : Service.State τ φ σ} :
      s.inside action.thread = false → consults action = false → Service.Step core s.core action next →
      Change s (.core action) {s with core := next}
  | entered {t : τ} {call : Call (ClassificationResult σ)} : s.inside t = false → asking core s t = some call →
      Change s (.enter t) (entered s t call)
  | locked {t : τ} {tier : TextCacheLocks.State τ (ClassificationResult σ)} : s.inside t = true →
      TextCacheLocks.Step hashOne s.tier t tier → Change s (.tier t) {s with tier := tier}
  | left {t : τ} {action : Service.Action τ φ σ} {next : Service.State τ φ σ} : s.inside t = true →
      finished s.tier t = true → returned s t = some action → Service.Step core s.core action next →
      Change s (.leave t) (left s t next)

theorem step_change {s next : State τ φ σ} (step : Step core hashOne s action next) :
    Change core hashOne s action next := by
  unfold Step advance at step
  cases action with
  | core action =>
      simp only at step
      split at step
      · cases step
      · rename_i free
        obtain ⟨core,taken,rfl⟩ := Option.map_eq_some_iff.mp step
        simp only [Bool.or_eq_true,not_or,Bool.not_eq_true] at free
        exact .ran free.1 free.2 taken
  | enter t =>
      simp only at step
      split at step
      · cases step
      · rename_i out
        obtain ⟨call,asks,rfl⟩ := Option.map_eq_some_iff.mp step
        exact .entered (Bool.not_eq_true _ ▸ out) asks
  | tier t =>
      simp only at step
      split at step
      · rename_i inside
        obtain ⟨tier,taken,rfl⟩ := Option.map_eq_some_iff.mp step
        exact .locked inside taken
      · cases step
  | leave t =>
      simp only at step
      split at step
      · rename_i ready
        obtain ⟨action,returns,later⟩ := Option.bind_eq_some_iff.mp step
        obtain ⟨core,taken,rfl⟩ := Option.map_eq_some_iff.mp later
        rw [Bool.and_eq_true] at ready
        exact .left ready.1 ready.2 returns taken
      · cases step

-- The step the core takes, if it takes one.
def coreAction (s : State τ φ σ) : Action τ φ σ → Option (Service.Action τ φ σ)
  | .core action => some action
  | .leave t => returned s t
  | .enter _ | .tier _ => none

def coreTrace (trace : List (State τ φ σ × Action τ φ σ)) :
    List (Service.State τ φ σ × Service.Action τ φ σ) := projected State.core coreAction trace

theorem step_core {s next : State τ φ σ} (step : Step core hashOne s action next) :
    Follows (Service.Step core) s.core (coreAction s action) next.core := by
  cases step_change core hashOne step with
  | ran _ _ taken => exact taken
  | entered _ _ | locked _ _ => rfl
  | left _ _ returns taken =>
      simp only [Follows,coreAction,returns]
      exact taken

theorem path_core {trace : List (State τ φ σ × Action τ φ σ)} {origin s : State τ φ σ}
    (path : Path (Step core hashOne) origin trace s) :
    Path (Service.Step core) origin.core (coreTrace trace) s.core :=
  path.project fun _ _ _ step => step_core core hashOne step

end Machine

end SemanticClassifier.Prefiltered
