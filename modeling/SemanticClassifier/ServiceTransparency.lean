import SemanticClassifier.Candle
import SemanticClassifier.ServiceTrust

namespace SemanticClassifier.Service
open Classify Interleaving

variable {τ φ σ : Type} [DecidableEq τ]

-- The default tiers.
def noopTextLookup (σ : Type) : Option (ClassificationResult σ) := none

def noopSemanticLookup (σ : Type) : Option (ClassificationResult σ) := none

def NoopTiers (_ : State τ φ σ) : Action τ φ σ → Prop
  | .prefilterLookup _ answer => answer = noopTextLookup σ
  | .semanticLookup _ answer => answer = noopSemanticLookup σ
  | _ => True

instance [DecidableEq φ] [DecidableEq σ] (s : State τ φ σ) : ∀ action, Decidable (NoopTiers s action)
  | .prefilterLookup _ answer => inferInstanceAs (Decidable (answer = noopTextLookup σ))
  | .semanticLookup _ answer => inferInstanceAs (Decidable (answer = noopSemanticLookup σ))
  | .classify .. | .run .. | .spurious .. | .embed .. | .rank .. | .semanticInsert ..
  | .prefilterInsert .. | .record .. => .isTrue trivial

-- The resident model is such a backend.
theorem candle_textual [Floating φ] [Floating σ] [Widening φ σ] (classifier : Candle.CandleClassifier φ) :
    Textual (classifier.runtime σ) := by
  intro a b same
  refine ⟨?_,fun _ => rfl⟩
  simp only [Candle.CandleClassifier.runtime,Candle.CandleClassifier.embed,same]

theorem classify_textual {runtime : ClassifierRuntime φ σ} (textual : Textual runtime)
    {a b : ClassificationInput} (same : (normalize a).text = (normalize b).text) :
    runtime.classify (normalize a) = runtime.classify (normalize b) := by
  obtain ⟨embed,rank⟩ := textual (normalize a) (normalize b) (congrArg Cache.trim same)
  simp only [ClassifierRuntime.classify,embed,rank]

variable {core : ServiceCore} {runtime : ClassifierRuntime φ σ} {inputs : Set ClassificationInput}

-- With the default tiers the closure gives back the plain answer.
theorem gives_plain {s next : State τ φ σ} (hand : ∀ t, (s.stage t).InHand runtime)
    (answers : Answers runtime s action) (noop : NoopTiers s action) (step : Step core s action next)
    (given : gives s action = some (t,outcome)) (here : (s.stage t).input = some input) :
    outcome = runtime.classify (normalize input) := by
  cases step_change core step with
  | prefilterHit _ _ => cases noop
  | semanticHit _ _ => cases noop
  | @embedFailed u also e cache place taken =>
      obtain ⟨rfl,rfl⟩ := Prod.mk.inj (Option.some.inj given)
      have answered : (.error e : Except ClassifyError (Embedding φ)) =
          runtime.embed (normalize also) := by simpa [Answers,place] using answers
      rw [place] at here
      cases here
      simp only [ClassifierRuntime.classify,← answered]
  | @rankFailed u also embedding e cache place taken =>
      obtain ⟨rfl,rfl⟩ := Prod.mk.inj (Option.some.inj given)
      have answered : (.error e : Outcome σ) = runtime.rank embedding (normalize also) := by
        simpa [Answers,place] using answers
      have honest : runtime.embed (normalize also) = .ok embedding := by
        have hand := hand u
        rwa [place] at hand
      rw [place] at here
      cases here
      simp only [ClassifierRuntime.classify,honest,← answered]
  | @wrotePrefilter u also embedding result cache place taken =>
      simp only [gives,place,Option.some.injEq,Prod.mk.injEq] at given
      obtain ⟨rfl,rfl⟩ := given
      have honest := hand u
      rw [place] at honest here
      cases here
      simp only [ClassifierRuntime.classify,honest.1,honest.2]
  | _ => cases given

theorem path_entrusted {trace : List (State τ φ σ × Action τ φ σ)} {s : State τ φ σ}
    (textual : Textual runtime) (free : CollisionFree core inputs)
    (path : Path (Step core) (start τ φ σ capacity) trace s) (named : asked trace ⊆ inputs)
    (answers : Met (Answers runtime) trace) (noop : Met NoopTiers trace) :
    Entrusted core runtime inputs (fun input outcome => outcome = runtime.classify (normalize input)) s := by
  induction path with
  | nil => exact start_entrusted capacity
  | @snoc trace before action after prior step ih =>
      obtain ⟨answered,answers⟩ := met_snoc.mp answers
      obtain ⟨missed,noop⟩ := met_snoc.mp noop
      have earlier := ih (fun input ⟨s,t,member⟩ => named ⟨s,t,List.mem_append_left _ member⟩) answered missed
      refine step_entrusted free (fun a b outcome same plain => ?_) earlier ?_ answers
        (fun t outcome input => gives_plain earlier.hand answers noop step) step
      · exact plain.trans (classify_textual textual same)
      · intro t input equal
        exact named ⟨before,t,by simp [equal]⟩

-- Two callers of one text; the second sleeps on the slot of the first.
def pairMetadata : RuntimeMetadata := ⟨"domain","domain","m","t","x",none,.anchorCosine⟩

def pairRuntime : ClassifierRuntime Nat Nat where
  embed := fun input => .ok ⟨[(Cache.trim input.text).length],none⟩
  rank := fun embedding _ => .ok ⟨"domain","m","t","x",.ok,embedding.vector.map (⟨"law",·⟩)⟩
  metadata := pairMetadata

def pairCore : ServiceCore := ⟨pairMetadata,fun _ => Vector.replicate 32 0,fun _ => ⟨[]⟩⟩

def textInput (text : String) : ClassificationInput := ⟨text,[],∅,.full⟩

def pairResult : ClassificationResult Nat := ⟨"domain","m","t","x",.ok,[⟨"law",4⟩]⟩

def pairActions : List (Action Bool Nat Nat) :=
  [.classify false (textInput "text"),.run false,.run false,.run false,.run false,
    .classify true (textInput " text"),.run true,.run true,.run true,.run true,.run true,.run true,
    .prefilterLookup false none,.embed false (.ok ⟨[4],none⟩),.semanticLookup false none,
    .rank false (.ok pairResult),.semanticInsert false,.prefilterInsert false,
    .run false,.run false,.run false,.run false,.run false,.run false,.run false,
    .run true,.run true,.record true]

def pairRun : List (State Bool Nat Nat × Action Bool Nat Nat) × State Bool Nat Nat :=
  (follow (advance pairCore) (start Bool Nat Nat 1) pairActions).getD ([],start Bool Nat Nat 1)

theorem pair_followed :
    follow (advance pairCore) (start Bool Nat Nat 1) pairActions = some pairRun := rfl

theorem pair_free : CollisionFree pairCore (asked pairRun.1) := by
  have one : ∀ input ∈ asked pairRun.1, (normalize input).text = "text" := by
    rintro input ⟨s,t,member⟩
    have named : Action.classify t input ∈ pairActions :=
      follow_actions pair_followed ▸ List.mem_map_of_mem member
    simp only [pairActions,List.mem_cons,Action.classify.injEq,reduceCtorEq,List.not_mem_nil,
      false_or,or_false] at named
    rcases named with ⟨_,rfl⟩ | ⟨_,rfl⟩ <;> decide
  rintro _ ⟨a,first,rfl⟩ _ ⟨b,second,rfl⟩ _
  simp only [one a first,one b second]

end SemanticClassifier.Service
