import SemanticClassifier.ServicePlaces

namespace SemanticClassifier.Service
open Classify Interleaving

variable {τ φ σ : Type} [DecidableEq τ]

-- The backend answers every call of the closure as one fixed runtime does.
def Answers (runtime : ClassifierRuntime φ σ) (s : State τ φ σ) : Action τ φ σ → Prop
  | .embed t outcome =>
    match s.stage t with
    | .embedding input => outcome = runtime.embed (normalize input)
    | _ => True
  | .rank t outcome =>
    match s.stage t with
    | .ranking input embedding => outcome = runtime.rank embedding (normalize input)
    | _ => True
  | _ => True

instance [DecidableEq φ] [DecidableEq σ] (runtime : ClassifierRuntime φ σ) (s : State τ φ σ) :
    ∀ action, Decidable (Answers runtime s action)
  | .embed .. | .rank .. => by
    dsimp only [Answers]
    cases s.stage _ <;> infer_instance
  | .classify .. | .run .. | .spurious .. | .prefilterLookup .. | .semanticLookup ..
  | .semanticInsert .. | .prefilterInsert .. | .record .. => .isTrue trivial

-- `embed` and `rank` read nothing of the input but its trimmed text.
def Textual (runtime : ClassifierRuntime φ σ) : Prop :=
  ∀ a b : ClassificationInput, Cache.trim a.text = Cache.trim b.text →
    runtime.embed a = runtime.embed b ∧ ∀ embedding, runtime.rank embedding a = runtime.rank embedding b

def asked (trace : List (State τ φ σ × Action τ φ σ)) : Set ClassificationInput :=
  {input | ∃ s t, (s,.classify t input) ∈ trace}

-- No two of the streams hashed for these inputs collide.
def CollisionFree (core : ServiceCore) (inputs : Set ClassificationInput) : Prop :=
  Set.InjOn core.blake3
    ((fun input => Cache.keyStream core.metadata.cacheIdentity (normalize input).text) '' inputs)

theorem key_text {core : ServiceCore} {inputs : Set ClassificationInput}
    (free : CollisionFree core inputs) (one : a ∈ inputs) (two : b ∈ inputs)
    (same : core.key a = core.key b) : (normalize a).text = (normalize b).text :=
  Cache.keyStream_injective
    (free ⟨a,one,rfl⟩ ⟨b,two,rfl⟩ (congrArg Cache.CacheKey.fingerprint same))

-- The input of the call a thread is in.
def Stage.input : Stage φ σ → Option ClassificationInput
  | .waiting input | .embedding input | .querying input _ | .ranking input _ | .writing input _ _
  | .populating input _ _ => some input
  | .idle | .answered .. => none

-- What the closure has in hand is what the runtime gives.
def Stage.InHand (runtime : ClassifierRuntime φ σ) : Stage φ σ → Prop
  | .querying input vector | .ranking input vector => runtime.embed (normalize input) = .ok vector
  | .writing input vector result | .populating input vector result =>
    runtime.embed (normalize input) = .ok vector ∧ runtime.rank vector (normalize input) = .ok result
  | _ => True

def Stage.Answered (good : ClassificationInput → Outcome σ → Prop) : Stage φ σ → Prop
  | .answered input outcome => input.contextCompleteness ≠ .delta → good input outcome
  | _ => True

-- What the closure gives back to the cache in a step.
def gives (s : State τ φ σ) : Action τ φ σ → Option (τ × Outcome σ)
  | .prefilterLookup t (some hit) | .semanticLookup t (some hit) => some (t,.ok hit)
  | .embed t (.error e) | .rank t (.error e) => some (t,.error e)
  | .prefilterInsert t =>
    match s.stage t with
    | .populating _ _ result => some (t,.ok result)
    | _ => none
  | _ => none

section Invariant
variable (core : ServiceCore) (runtime : ClassifierRuntime φ σ) (inputs : Set ClassificationInput)
variable (good : ClassificationInput → Outcome σ → Prop)

-- What may stand under a key: an outcome that is good for every input with that
-- key.
def GoodFor (key : Cache.CacheKey) (outcome : Outcome σ) : Prop :=
  ∀ input ∈ inputs, core.key input = key → good input outcome

-- A call is in the cache under its own key.
def Keyed (s : State τ φ σ) : Prop :=
  ∀ t input, (s.stage t).input = some input →
    input ∈ inputs ∧ (s.cache.pc t).key = some (core.key input)

structure Entrusted (s : State τ φ σ) : Prop where
  linked : Linked s
  trusted : Cache.Trusted (GoodFor core inputs good) s.cache
  keyed : Keyed core inputs s
  hand : ∀ t, (s.stage t).InHand runtime
  answered : ∀ t, (s.stage t).Answered good

end Invariant

variable {core : ServiceCore} {runtime : ClassifierRuntime φ σ} {inputs : Set ClassificationInput}
variable {good : ClassificationInput → Outcome σ → Prop}

-- The step the cache takes, if it takes one.
theorem step_below {s next : State τ φ σ} (step : Step core s action next) :
    next.cache = s.cache ∨ ∃ below, Cache.Step s.cache below next.cache ∧
      ∀ t outcome, below = .forwarded t outcome →
        gives s action = some (t,outcome) ∧ ∃ input, (s.stage t).input = some input := by
  cases step_change core step with
  | declined _ _ | prefilterMissed _ _ | embedded _ | semanticMissed _ | ranked _ | wroteSemantic _ =>
      exact .inl rfl
  | @recorded t input key outcome path place inside => cases path <;> exact .inl rfl
  | called _ _ taken | ran taken | woke taken => exact .inr ⟨_,taken,by simp⟩
  | prefilterHit place taken | embedFailed place taken | semanticHit place taken
  | rankFailed place taken | wrotePrefilter place taken =>
      refine .inr ⟨_,taken,fun t outcome same => ?_⟩
      obtain ⟨rfl,rfl⟩ := Cache.Action.forwarded.inj same
      simp [gives,place,Stage.input]

theorem step_trust {s next : State τ φ σ} (free : CollisionFree core inputs)
    (texts : ∀ a b outcome, (normalize a).text = (normalize b).text → good a outcome → good b outcome)
    (entrusted : Entrusted core runtime inputs good s)
    (delivered : ∀ t outcome input, gives s action = some (t,outcome) → (s.stage t).input = some input →
      good input outcome)
    (step : Step core s action next) : Cache.Trusted (GoodFor core inputs good) next.cache := by
  rcases step_below step with same | ⟨below,taken,closure⟩
  · exact same ▸ entrusted.trusted
  · refine Cache.step_trusted entrusted.linked.valid entrusted.trusted ?_ taken
    cases below with
    | forwarded t outcome =>
        intro k i forward also member same
        obtain ⟨given,input,here⟩ := closure t outcome rfl
        obtain ⟨mine,key⟩ := entrusted.keyed t input here
        rw [forward] at key
        cases key
        exact texts _ _ _ (key_text free mine member same.symm) (delivered t outcome input given here)
    | _ => trivial

theorem Keyed.kept {s next : State τ φ σ} (keyed : Keyed core inputs s)
    (keys : ∀ u, (next.cache.pc u).key = (s.cache.pc u).key)
    (stage : next.stage = Function.update s.stage t after)
    (same : ∀ input, after.input = some input → (s.stage t).input = some input) :
    Keyed core inputs next := by
  unfold Keyed
  simp only [keys,stage]
  exact (Function.forall_update_iff s.stage (p := fun u stage => ∀ input, stage.input = some input →
    input ∈ inputs ∧ (s.cache.pc u).key = some (core.key input))).mpr
      ⟨fun input here => keyed t input (same input here),fun u _ => keyed u⟩

theorem Keyed.called {s : State τ φ σ} {cache : CacheState τ σ} (keyed : Keyed core inputs s)
    (member : input ∈ inputs) (taken : Cache.Step s.cache (.call t (core.key input)) cache) :
    Keyed core inputs (goto {s with cache := cache} t (.waiting input)) := by
  have keys := Cache.call_key taken
  refine (Function.forall_update_iff s.stage (p := fun u stage => ∀ input, stage.input = some input →
    input ∈ inputs ∧ (cache.pc u).key = some (core.key input))).mpr ⟨?_,fun u other => ?_⟩
  · intro also equal
    cases equal
    exact ⟨member,(keys t).trans (if_pos rfl)⟩
  · rw [(keys u).trans (if_neg other)]
    exact keyed u

theorem step_keyed {s next : State τ φ σ} (valid : Cache.Valid s.cache) (keyed : Keyed core inputs s)
    (named : ∀ t input, action = .classify t input → input ∈ inputs)
    (step : Step core s action next) : Keyed core inputs next := by
  cases step_change core step with
  | declined _ _ => exact keyed.kept (fun _ => rfl) rfl (by simp [Stage.input])
  | called _ _ taken => exact keyed.called (named _ _ rfl) taken
  | ran taken | woke taken => exact keyed.kept (Cache.step_key valid taken (by simp)) rfl (fun _ same => same)
  | prefilterHit place taken | embedFailed place taken | semanticHit place taken
  | rankFailed place taken | wrotePrefilter place taken =>
      exact keyed.kept (Cache.step_key valid taken (by simp)) rfl (by simp [place,Stage.input])
  | prefilterMissed place _ | embedded place | semanticMissed place | ranked place | wroteSemantic place =>
      exact keyed.kept (fun _ => rfl) rfl (by simp [place,Stage.input])
  | @recorded t input key outcome path place inside =>
      cases path <;> exact keyed.kept (fun _ => rfl) rfl (by simp [Stage.input])

theorem stage_update {s next : State τ φ σ} {P : Stage φ σ → Prop} (before : ∀ t, P (s.stage t))
    (stage : next.stage = Function.update s.stage t after) (here : P after) : ∀ t, P (next.stage t) := by
  rw [stage]
  exact (Function.forall_update_iff s.stage (p := fun _ stage => P stage)).mpr ⟨here,fun u _ => before u⟩

theorem step_hand {s next : State τ φ σ} (hand : ∀ t, (s.stage t).InHand runtime)
    (answers : Answers runtime s action) (step : Step core s action next) :
    ∀ t, (next.stage t).InHand runtime := by
  cases step_change core step with
  | declined _ _ | called _ _ _ | prefilterHit _ _ | prefilterMissed _ _ | embedFailed _ _
  | semanticHit _ _ | rankFailed _ _ | wrotePrefilter _ _ => exact stage_update hand rfl trivial
  | @ran t cache taken | @woke t cache taken => exact stage_update hand rfl (hand t)
  | @embedded t input embedding place =>
      have answered : (.ok embedding : Except ClassifyError (Embedding φ)) =
          runtime.embed (normalize input) := by simpa [Answers,place] using answers
      exact stage_update hand rfl answered.symm
  | @ranked t input embedding result place =>
      have answered : (.ok result : Outcome σ) = runtime.rank embedding (normalize input) := by
        simpa [Answers,place] using answers
      have honest := hand t
      rw [place] at honest
      exact stage_update hand rfl ⟨honest,answered.symm⟩
  | @semanticMissed t input embedding place | @wroteSemantic t input embedding result place =>
      have honest := hand t
      rw [place] at honest
      exact stage_update hand rfl honest
  | @recorded t input key outcome path place inside =>
      cases path <;> exact stage_update hand rfl trivial

theorem step_answered {s next : State τ φ σ} (entrusted : Entrusted core runtime inputs good s)
    (step : Step core s action next) : ∀ t, (next.stage t).Answered good := by
  have answered := entrusted.answered
  cases step_change core step with
  | declined _ delta => exact stage_update answered rfl fun complete => absurd delta complete
  | called _ _ _ | prefilterHit _ _ | prefilterMissed _ _ | embedded _ | embedFailed _ _
  | semanticHit _ _ | semanticMissed _ | ranked _ | rankFailed _ _ | wroteSemantic _
  | wrotePrefilter _ _ => exact stage_update answered rfl trivial
  | @ran t cache taken | @woke t cache taken => exact stage_update answered rfl (answered t)
  | @recorded t input key outcome path place inside =>
      obtain ⟨member,named⟩ := entrusted.keyed t input (by simp [place,Stage.input])
      rw [inside] at named
      cases named
      have brings : (s.cache.pc t).Brings (core.key input) outcome := by
        rw [inside]
        exact ⟨rfl,rfl⟩
      have mine : good input outcome := entrusted.trusted.brought t _ _ brings input member rfl
      cases path <;> exact stage_update answered rfl fun _ => mine

theorem step_entrusted {s next : State τ φ σ} (free : CollisionFree core inputs)
    (texts : ∀ a b outcome, (normalize a).text = (normalize b).text → good a outcome → good b outcome)
    (entrusted : Entrusted core runtime inputs good s)
    (named : ∀ t input, action = .classify t input → input ∈ inputs)
    (answers : Answers runtime s action)
    (delivered : ∀ t outcome input, gives s action = some (t,outcome) → (s.stage t).input = some input →
      good input outcome)
    (step : Step core s action next) : Entrusted core runtime inputs good next where
  linked := step_linked entrusted.linked step
  trusted := step_trust free texts entrusted delivered step
  keyed := step_keyed entrusted.linked.valid entrusted.keyed named step
  hand := step_hand entrusted.hand answers step
  answered := step_answered entrusted step

omit [DecidableEq τ] in
theorem start_entrusted (capacity : Nat) :
    Entrusted core runtime inputs good (start τ φ σ capacity) where
  linked := start_linked capacity
  trusted := Cache.start_trusted capacity
  keyed := by simp [Keyed,start,Stage.input]
  hand := fun _ => trivial
  answered := fun _ => trivial

end SemanticClassifier.Service
