import SemanticClassifier.CacheKey
import SemanticClassifier.Classify
import SemanticClassifier.Prefilter
import SemanticClassifier.SharedCache

namespace SemanticClassifier.Service
open Classify Interleaving

-- The L2 isolation tag; L0 entries carry the same one.
def identityTag (identity : String × String × String × String × Option String) : String :=
  let fields := identity.1 ++ "|" ++ identity.2.1 ++ "|" ++ identity.2.2.1 ++ "|" ++ identity.2.2.2.1
  match identity.2.2.2.2 with
  | some digest => fields ++ "|" ++ digest
  | none => fields

-- What a core is built around. The wrapped backend and the two approximate
-- tiers answer from outside: their answers come with the actions.
structure ServiceCore where
  metadata : RuntimeMetadata
  blake3 : List UInt8 → Vector UInt8 32
  signature : String → Prefilter.Signature

def normalize (input : ClassificationInput) : ClassificationInput :=
  {input with text := Cache.trim input.text}

def ServiceCore.key (core : ServiceCore) (input : ClassificationInput) : Cache.CacheKey :=
  Cache.newWithArtifactDigest core.blake3 core.metadata.cacheIdentity (normalize input).text

def ServiceCore.tag (core : ServiceCore) : String := identityTag core.metadata.cacheIdentity

-- `waiting` is a call inside `classify_concurrent` whose closure has not begun
-- or is over; the places up to `populating` are inside the closure.
inductive Stage (φ σ : Type) where
  | idle
  | waiting (input : ClassificationInput)
  | embedding (input : ClassificationInput)
  | querying (input : ClassificationInput) (embedding : Embedding φ)
  | ranking (input : ClassificationInput) (embedding : Embedding φ)
  | writing (input : ClassificationInput) (embedding : Embedding φ) (result : ClassificationResult σ)
  | populating (input : ClassificationInput) (embedding : Embedding φ) (result : ClassificationResult σ)
  | answered (input : ClassificationInput) (outcome : Outcome σ)

abbrev CacheState (τ σ : Type) :=
  Cache.State τ Cache.CacheKey ClassifyError (ClassificationResult σ)

-- `embeds` and the two lists of inserts record the run and are never read.
structure State (τ φ σ : Type) where
  cache : CacheState τ σ
  stage : τ → Stage φ σ
  cacheHits : Nat
  cacheMisses : Nat
  cacheCoalesced : Nat
  embeds : Nat
  prefilterInserts : List (Prefilter.Signature × ClassificationResult σ × String)
  semanticInserts : List (Embedding φ × ClassificationResult σ × String)

inductive Action (τ φ σ : Type) where
  | classify (thread : τ) (input : ClassificationInput)
  | run (thread : τ)
  | spurious (thread : τ)
  | prefilterLookup (thread : τ) (answer : Option (ClassificationResult σ))
  | embed (thread : τ) (outcome : Except ClassifyError (Embedding φ))
  | semanticLookup (thread : τ) (answer : Option (ClassificationResult σ))
  | rank (thread : τ) (outcome : Outcome σ)
  | semanticInsert (thread : τ)
  | prefilterInsert (thread : τ)
  | record (thread : τ)

variable {τ φ σ : Type} [DecidableEq τ]

def start (τ φ σ : Type) (capacity : Nat) : State τ φ σ :=
  ⟨Cache.start (Cache.withCapacity _ _ capacity),fun _ => .idle,0,0,0,0,[],[]⟩

def goto (s : State τ φ σ) (t : τ) (stage : Stage φ σ) : State τ φ σ :=
  {s with stage := Function.update s.stage t stage}

-- One step of the cache machine below, and where the thread stands after it.
def through (s : State τ φ σ) (action : Cache.Action τ Cache.CacheKey ClassifyError (ClassificationResult σ))
    (t : τ) (stage : Stage φ σ) : Option (State τ φ σ) :=
  (Cache.advance s.cache action).map fun cache => goto {s with cache := cache} t stage

-- The closure is over: its result goes back into `classify_concurrent`.
def give (s : State τ φ σ) (t : τ) (input : ClassificationInput) (outcome : Outcome σ) :
    Option (State τ φ σ) := through s (.forwarded t outcome) t (.waiting input)

def count (s : State τ φ σ) : Cache.CachePath → State τ φ σ
  | .hit => {s with cacheHits := s.cacheHits + 1}
  | .miss => {s with cacheMisses := s.cacheMisses + 1}
  | .coalesced => {s with cacheCoalesced := s.cacheCoalesced + 1}

variable (core : ServiceCore)

def advance (s : State τ φ σ) : Action τ φ σ → Option (State τ φ σ)
  | .classify t input =>
    match s.stage t with
    | .idle | .answered .. =>
      if input.contextCompleteness = .delta then
        some (goto s t (.answered input (.ok (insufficientContextAbstention σ core.metadata))))
      else through s (.call t (core.key input)) t (.waiting input)
    | _ => none
  | .run t => through s (.run t) t (s.stage t)
  | .spurious t => through s (.spurious t) t (s.stage t)
  | .prefilterLookup t answer =>
    match s.stage t,s.cache.pc t,answer with
    | .waiting input,.forward ..,some hit => give s t input (.ok hit)
    | .waiting input,.forward ..,none => some (goto s t (.embedding input))
    | _,_,_ => none
  | .embed t outcome =>
    match s.stage t,outcome with
    | .embedding input,.ok embedding =>
      some (goto {s with embeds := s.embeds + 1} t (.querying input embedding))
    | .embedding input,.error e => give {s with embeds := s.embeds + 1} t input (.error e)
    | _,_ => none
  | .semanticLookup t answer =>
    match s.stage t,answer with
    | .querying input _,some hit => give s t input (.ok hit)
    | .querying input embedding,none => some (goto s t (.ranking input embedding))
    | _,_ => none
  | .rank t outcome =>
    match s.stage t,outcome with
    | .ranking input embedding,.ok result => some (goto s t (.writing input embedding result))
    | .ranking input _,.error e => give s t input (.error e)
    | _,_ => none
  | .semanticInsert t =>
    match s.stage t with
    | .writing input embedding result =>
      some (goto {s with semanticInserts := (embedding,result,core.tag) :: s.semanticInserts} t
        (.populating input embedding result))
    | _ => none
  | .prefilterInsert t =>
    match s.stage t with
    | .populating input _ result =>
      give {s with
        prefilterInserts := (core.signature (normalize input).text,result,core.tag) :: s.prefilterInserts}
        t input (.ok result)
    | _ => none
  | .record t =>
    match s.stage t,s.cache.pc t with
    | .waiting input,.returned _ outcome path => some (goto (count s path) t (.answered input outcome))
    | _,_ => none

def Step (s : State τ φ σ) (action : Action τ φ σ) (next : State τ φ σ) : Prop :=
  advance core s action = some next

def Stage.Ready : Stage φ σ → Prop
  | .idle | .answered .. => True
  | _ => False

theorem Stage.Ready.cases {stage : Stage φ σ} (ready : stage.Ready) :
    stage = .idle ∨ ∃ input outcome, stage = .answered input outcome := by
  cases stage with
  | idle => exact .inl rfl
  | answered input outcome => exact .inr ⟨input,outcome,rfl⟩
  | _ => exact ready.elim

-- Everything a step can do, branch by branch. `cache` is the cache machine's
-- own next state where the step goes through it.
inductive Change (s : State τ φ σ) : Action τ φ σ → State τ φ σ → Prop where
  | declined {t : τ} {input : ClassificationInput} :
      (s.stage t).Ready → input.contextCompleteness = .delta →
      Change s (.classify t input)
        (goto s t (.answered input (.ok (insufficientContextAbstention σ core.metadata))))
  | called {t : τ} {input : ClassificationInput} {cache : CacheState τ σ} :
      (s.stage t).Ready → input.contextCompleteness ≠ .delta →
      Cache.Step s.cache (.call t (core.key input)) cache →
      Change s (.classify t input) (goto {s with cache := cache} t (.waiting input))
  | ran {t : τ} {cache : CacheState τ σ} :
      Cache.Step s.cache (.run t) cache →
      Change s (.run t) (goto {s with cache := cache} t (s.stage t))
  | woke {t : τ} {cache : CacheState τ σ} :
      Cache.Step s.cache (.spurious t) cache →
      Change s (.spurious t) (goto {s with cache := cache} t (s.stage t))
  | prefilterHit {t : τ} {input : ClassificationInput} {hit : ClassificationResult σ}
      {cache : CacheState τ σ} :
      s.stage t = .waiting input → Cache.Step s.cache (.forwarded t (.ok hit)) cache →
      Change s (.prefilterLookup t (some hit)) (goto {s with cache := cache} t (.waiting input))
  | prefilterMissed {t : τ} {input : ClassificationInput} {key : Cache.CacheKey} {slot : Nat} :
      s.stage t = .waiting input → s.cache.pc t = .forward key slot →
      Change s (.prefilterLookup t none) (goto s t (.embedding input))
  | embedded {t : τ} {input : ClassificationInput} {embedding : Embedding φ} :
      s.stage t = .embedding input →
      Change s (.embed t (.ok embedding))
        (goto {s with embeds := s.embeds + 1} t (.querying input embedding))
  | embedFailed {t : τ} {input : ClassificationInput} {e : ClassifyError} {cache : CacheState τ σ} :
      s.stage t = .embedding input → Cache.Step s.cache (.forwarded t (.error e)) cache →
      Change s (.embed t (.error e))
        (goto {s with cache := cache,embeds := s.embeds + 1} t (.waiting input))
  | semanticHit {t : τ} {input : ClassificationInput} {embedding : Embedding φ}
      {hit : ClassificationResult σ} {cache : CacheState τ σ} :
      s.stage t = .querying input embedding → Cache.Step s.cache (.forwarded t (.ok hit)) cache →
      Change s (.semanticLookup t (some hit)) (goto {s with cache := cache} t (.waiting input))
  | semanticMissed {t : τ} {input : ClassificationInput} {embedding : Embedding φ} :
      s.stage t = .querying input embedding →
      Change s (.semanticLookup t none) (goto s t (.ranking input embedding))
  | ranked {t : τ} {input : ClassificationInput} {embedding : Embedding φ}
      {result : ClassificationResult σ} :
      s.stage t = .ranking input embedding →
      Change s (.rank t (.ok result)) (goto s t (.writing input embedding result))
  | rankFailed {t : τ} {input : ClassificationInput} {embedding : Embedding φ} {e : ClassifyError}
      {cache : CacheState τ σ} :
      s.stage t = .ranking input embedding → Cache.Step s.cache (.forwarded t (.error e)) cache →
      Change s (.rank t (.error e)) (goto {s with cache := cache} t (.waiting input))
  | wroteSemantic {t : τ} {input : ClassificationInput} {embedding : Embedding φ}
      {result : ClassificationResult σ} :
      s.stage t = .writing input embedding result →
      Change s (.semanticInsert t) (goto {s with
        semanticInserts := (embedding,result,core.tag) :: s.semanticInserts} t
          (.populating input embedding result))
  | wrotePrefilter {t : τ} {input : ClassificationInput} {embedding : Embedding φ}
      {result : ClassificationResult σ} {cache : CacheState τ σ} :
      s.stage t = .populating input embedding result →
      Cache.Step s.cache (.forwarded t (.ok result)) cache →
      Change s (.prefilterInsert t) (goto {s with
        cache := cache
        prefilterInserts := (core.signature (normalize input).text,result,core.tag) ::
          s.prefilterInserts} t (.waiting input))
  | recorded {t : τ} {input : ClassificationInput} {key : Cache.CacheKey} {outcome : Outcome σ}
      {path : Cache.CachePath} :
      s.stage t = .waiting input → s.cache.pc t = .returned key outcome path →
      Change s (.record t) (goto (count s path) t (.answered input outcome))

theorem through_parts {s next : State τ φ σ} {t : τ} {stage : Stage φ σ}
    (taken : through s action t stage = some next) :
    ∃ cache, Cache.Step s.cache action cache ∧ goto {s with cache := cache} t stage = next :=
  Option.map_eq_some_iff.mp taken

theorem classify_change {s next : State τ φ σ} {t : τ} {input : ClassificationInput}
    (ready : (s.stage t).Ready)
    (step : (if input.contextCompleteness = .delta then
      some (goto s t (.answered input (.ok (insufficientContextAbstention σ core.metadata))))
      else through s (.call t (core.key input)) t (.waiting input)) = some next) :
    Change core s (.classify t input) next := by
  split at step
  · cases Option.some.inj step
    exact .declined ready (by assumption)
  · obtain ⟨cache,taken,rfl⟩ := through_parts step
    exact .called ready (by assumption) taken

theorem step_change {s next : State τ φ σ} (step : Step core s action next) :
    Change core s action next := by
  unfold Step advance at step
  cases action with
  | classify t input =>
      cases place : s.stage t with
      | idle | answered =>
          simp only [place] at step
          exact classify_change core (by simp [place,Stage.Ready]) step
      | waiting | embedding | querying | ranking | writing | populating => simp [place] at step
  | run t =>
      obtain ⟨cache,taken,rfl⟩ := through_parts step
      exact .ran taken
  | spurious t =>
      obtain ⟨cache,taken,rfl⟩ := through_parts step
      exact .woke taken
  | prefilterLookup t answer =>
      cases place : s.stage t <;> simp only [place,reduceCtorEq] at step
      cases inside : s.cache.pc t <;> simp only [inside,reduceCtorEq] at step
      cases answer with
      | none =>
          cases Option.some.inj step
          exact .prefilterMissed place inside
      | some hit =>
          obtain ⟨cache,taken,rfl⟩ := through_parts step
          exact .prefilterHit place taken
  | embed t outcome =>
      cases place : s.stage t <;> simp only [place,reduceCtorEq] at step
      cases outcome with
      | ok embedding =>
          cases Option.some.inj step
          exact .embedded place
      | error e =>
          obtain ⟨cache,taken,rfl⟩ := through_parts step
          exact .embedFailed place taken
  | semanticLookup t answer =>
      cases place : s.stage t <;> simp only [place,reduceCtorEq] at step
      cases answer with
      | none =>
          cases Option.some.inj step
          exact .semanticMissed place
      | some hit =>
          obtain ⟨cache,taken,rfl⟩ := through_parts step
          exact .semanticHit place taken
  | rank t outcome =>
      cases place : s.stage t <;> simp only [place,reduceCtorEq] at step
      cases outcome with
      | ok result =>
          cases Option.some.inj step
          exact .ranked place
      | error e =>
          obtain ⟨cache,taken,rfl⟩ := through_parts step
          exact .rankFailed place taken
  | semanticInsert t =>
      cases place : s.stage t <;> simp only [place,reduceCtorEq] at step
      cases Option.some.inj step
      exact .wroteSemantic place
  | prefilterInsert t =>
      cases place : s.stage t <;> simp only [place,reduceCtorEq] at step
      obtain ⟨cache,taken,rfl⟩ := through_parts step
      exact .wrotePrefilter place taken
  | record t =>
      cases place : s.stage t <;> simp only [place,reduceCtorEq] at step
      cases inside : s.cache.pc t <;> simp only [inside,reduceCtorEq] at step
      cases Option.some.inj step
      exact .recorded place inside

end SemanticClassifier.Service
