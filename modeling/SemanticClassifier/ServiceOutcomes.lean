import SemanticClassifier.ServiceProvenance

namespace SemanticClassifier.Service
open Classify Interleaving

variable {τ φ σ : Type} [DecidableEq τ] {core : ServiceCore} {runtime : ClassifierRuntime φ σ}

-- An incomplete context is declined, and nothing else is on its way with one.
def Stage.Screened (core : ServiceCore) : Stage φ σ → Prop
  | .answered input outcome => input.contextCompleteness = .delta →
    outcome = .ok (insufficientContextAbstention σ core.metadata)
  | stage => ∀ input, stage.input = some input → input.contextCompleteness ≠ .delta

theorem step_screened {s next : State τ φ σ} (screened : ∀ t, (s.stage t).Screened core)
    (step : Step core s action next) : ∀ t, (next.stage t).Screened core := by
  have kept {t : τ} {input : ClassificationInput} (here : (s.stage t).input = some input) :
      input.contextCompleteness ≠ .delta := by
    have mine := screened t
    cases place : s.stage t <;> rw [place] at mine here
    case answered => cases here
    all_goals exact mine input here
  cases step_change core step with
  | declined _ _ => exact stage_update screened rfl fun _ => rfl
  | @called t input cache _ complete _ =>
      refine stage_update screened rfl fun also same => ?_
      cases same
      exact complete
  | @ran t cache _ | @woke t cache _ => exact stage_update screened rfl (screened t)
  | @recorded t input key outcome path place _ =>
      have complete : input.contextCompleteness ≠ .delta := kept (by rw [place]; rfl)
      cases path <;> exact stage_update screened rfl fun delta => absurd delta complete
  | prefilterHit place _ | prefilterMissed place _ | embedded place | embedFailed place _
  | semanticHit place _ | semanticMissed place | ranked place | rankFailed place _ | wroteSemantic place
  | wrotePrefilter place _ =>
      refine stage_update screened rfl fun also same => ?_
      cases same
      exact kept (by rw [place]; rfl)

theorem path_screened {trace : List (State τ φ σ × Action τ φ σ)} {s : State τ φ σ}
    (path : Path (Step core) (start τ φ σ capacity) trace s) : ∀ t, (s.stage t).Screened core := by
  apply path.preserves (motive := fun s => ∀ t, (s.stage t).Screened core)
  · intro before action after screened step
    exact step_screened screened step
  · exact fun _ input same => by cases same

-- An error is the backend's own for the text it was asked about.
def Failed (runtime : ClassifierRuntime φ σ) (input : ClassificationInput) (outcome : Outcome σ) : Prop :=
  ∀ e, outcome = .error e → runtime.classify (normalize input) = .error e

theorem gives_failed {s next : State τ φ σ} (hand : ∀ t, (s.stage t).InHand runtime)
    (answers : Answers runtime s action) (step : Step core s action next)
    (given : gives s action = some (t,outcome)) (here : (s.stage t).input = some input) :
    Failed runtime input outcome := by
  cases step_change core step with
  | prefilterHit _ _ | semanticHit _ _ =>
      cases Option.some.inj given
      exact fun e same => by cases same
  | @embedFailed u also e cache place taken =>
      cases Option.some.inj given
      have answered : (.error e : Except ClassifyError (Embedding φ)) = runtime.embed (normalize also) := by
        simpa [Answers,place] using answers
      rw [place] at here
      cases here
      intro e same
      cases same
      simp only [ClassifierRuntime.classify,← answered]
  | @rankFailed u also embedding e cache place taken =>
      cases Option.some.inj given
      have answered : (.error e : Outcome σ) = runtime.rank embedding (normalize also) := by
        simpa [Answers,place] using answers
      have honest : runtime.embed (normalize also) = .ok embedding := by
        have hand := hand t
        rwa [place] at hand
      rw [place] at here
      cases here
      intro e same
      cases same
      simp only [ClassifierRuntime.classify,honest,← answered]
  | @wrotePrefilter u also embedding result cache place taken =>
      simp only [gives,place,Option.some.injEq,Prod.mk.injEq] at given
      obtain ⟨_,rfl⟩ := given
      exact fun e same => by cases same
  | _ => cases given

theorem path_failed {whole trace : List (State τ φ σ × Action τ φ σ)} {s : State τ φ σ}
    (textual : Textual runtime) (free : CollisionFree core (asked whole))
    (path : Path (Step core) (start τ φ σ capacity) trace s) (initial : trace <+: whole)
    (answers : Met (Answers runtime) trace) :
    Entrusted core runtime (asked whole) (Failed runtime) s := by
  induction path with
  | nil => exact start_entrusted capacity
  | @snoc trace before action after prior step ih =>
      obtain ⟨answered,answers⟩ := met_snoc.mp answers
      have earlier := ih ((List.prefix_append _ _).trans initial) answered
      refine step_entrusted free ?_ earlier ?_ answers ?_ step
      · intro a b outcome same failed e equal
        exact classify_textual textual same ▸ failed e equal
      · intro t input equal
        exact ⟨before,t,equal ▸ initial.subset (by simp)⟩
      · intro t outcome input given here
        exact gives_failed earlier.hand answers step given here

end SemanticClassifier.Service
