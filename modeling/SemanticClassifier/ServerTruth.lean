import SemanticClassifier.ServerCauses
import SemanticClassifier.ServiceOutcomes

namespace SemanticClassifier.Server
open Classify Interleaving

variable {κ ω φ σ : Type} [DecidableEq κ] [DecidableEq ω] [Fintype κ] [Fintype ω]
variable {server : ClassifyServiceImpl φ σ} {runtime : ClassifierRuntime φ σ} {capacity traces : Nat}

omit [DecidableEq κ] [DecidableEq ω] [Fintype κ] [Fintype ω] in
theorem coreTrace_early {early trace : List (State κ ω φ σ × Action κ ω φ σ)} (initial : early <+: trace) :
    coreTrace early <+: coreTrace trace := by
  obtain ⟨late,rfl⟩ := initial
  rw [coreTrace_append]
  exact List.prefix_append _ _

-- What the core answered a worker with, at the end of a run of its own.
theorem Delivered.early {trace : List (State κ ω φ σ × Action κ ω φ σ)} {s : State κ ω φ σ}
    {outcome : Outcome σ} (path : Path (Step server) (start κ ω φ σ server.bound capacity traces) trace s)
    (delivered : Delivered trace job outcome) :
    ∃ early last w, Path (Service.Step server.core) (Service.start ω φ σ capacity) early last ∧
      early <+: coreTrace trace ∧ last.stage w = .answered job.input outcome := by
  obtain ⟨before,w,member,_,answer⟩ := delivered
  obtain ⟨early,next,late,rfl,front,_,_⟩ := path.split member
  exact ⟨coreTrace early,before.core,w,path_core server front,coreTrace_early (List.prefix_append _ _),answer⟩

-- What a request that reached the core may be answered with.
structure Truthful (server : ClassifyServiceImpl φ σ) (runtime : ClassifierRuntime φ σ)
    (calls : List (Service.State ω φ σ × Service.Action ω φ σ)) (request : ClassifyRequest)
    (outcome : Outcome σ) : Prop where
  declined : (inputOf request).contextCompleteness = .delta →
    outcome = .ok (insufficientContextAbstention σ server.core.metadata)
  computed : ∀ result, outcome = .ok result → (inputOf request).contextCompleteness ≠ .delta →
    Service.OneHop server.core runtime calls (Service.normalize (inputOf request)).text result
  failed : ∀ e, outcome = .error e → runtime.classify (Service.normalize (inputOf request)) = .error e

theorem delivered_true {trace : List (State κ ω φ σ × Action κ ω φ σ)} {s : State κ ω φ σ}
    {outcome : Outcome σ} (textual : Service.Textual runtime)
    (path : Path (Step server) (start κ ω φ σ server.bound capacity traces) trace s)
    (free : Service.CollisionFree server.core (Service.asked (coreTrace trace)))
    (answers : Met (Service.Answers runtime) (coreTrace trace))
    (recalls : Met (Service.Recalls server.core) (coreTrace trace))
    (delivered : Delivered trace job outcome) (input : job.input = inputOf request) :
    Truthful server runtime (coreTrace trace) request outcome := by
  obtain ⟨early,last,w,front,initial,answer⟩ := delivered.early path
  rw [input] at answer
  have screened := Service.path_screened front w
  have sourced := (Service.path_sourced textual free front initial (answers.of_prefix initial)
    (recalls.of_prefix initial)).entrusted.answered w
  have failed := (Service.path_failed textual free front initial (answers.of_prefix initial)).answered w
  rw [answer] at screened sourced failed
  refine ⟨screened,fun result same complete => sourced complete result same,fun e same => ?_⟩
  refine failed (fun delta => ?_) e same
  rw [screened delta] at same
  cases same

theorem twin_calls : (coreTrace twinRun.1).map Prod.snd =
    .classify () (inputOf (twin "a")) :: computation.filterMap fun
      | .core action => some action
      | _ => none := rfl

theorem twin_free : Service.CollisionFree twinServer.core (Service.asked (coreTrace twinRun.1)) := by
  have one : ∀ input ∈ Service.asked (coreTrace twinRun.1), input = inputOf (twin "a") := by
    rintro input ⟨s,t,member⟩
    have named := twin_calls ▸ List.mem_map_of_mem (f := Prod.snd) member
    simpa [computation] using named
  rintro _ ⟨a,first,rfl⟩ _ ⟨b,second,rfl⟩ _
  rw [one a first,one b second]

end SemanticClassifier.Server
