import SemanticClassifier.Library.Flow
import SemanticClassifier.Service
import SemanticClassifier.SharedCacheResults

namespace SemanticClassifier.Service
open Classify Interleaving

variable {τ φ σ : Type} [DecidableEq τ] {core : ServiceCore}

def Stage.InClosure : Stage φ σ → Prop
  | .embedding _ | .querying .. | .ranking .. | .writing .. | .populating .. => True
  | _ => False

-- Where the two machines stand together: outside a call the cache thread is
-- free, and inside the closure it is in its forward.
structure Linked (s : State τ φ σ) : Prop where
  valid : Cache.Valid s.cache
  ready : ∀ t, (s.stage t).Ready → (s.cache.pc t).Ready
  closure : ∀ t, (s.stage t).InClosure → ∃ k i, s.cache.pc t = .forward k i

-- A thread that is outside the cache's critical work moves on alone.
theorem Linked.moved {s next : State τ φ σ} (linked : Linked s) (cache : next.cache = s.cache)
    (stage : next.stage = Function.update s.stage t after)
    (ready : after.Ready → (s.cache.pc t).Ready)
    (inside : after.InClosure → ∃ k i, s.cache.pc t = .forward k i) : Linked next where
  valid := cache ▸ linked.valid
  ready := by
    rw [cache,stage]
    exact (Function.forall_update_iff s.stage
      (p := fun u stage => stage.Ready → (s.cache.pc u).Ready)).mpr ⟨ready,fun u _ => linked.ready u⟩
  closure := by
    rw [cache,stage]
    exact (Function.forall_update_iff s.stage
      (p := fun u stage => stage.InClosure → ∃ k i, s.cache.pc u = .forward k i)).mpr
        ⟨inside,fun u _ => linked.closure u⟩

-- A thread takes the cache one step further.
theorem Linked.passed {s next : State τ φ σ} (linked : Linked s)
    (taken : Cache.Step s.cache action next.cache)
    (stage : next.stage = Function.update s.stage action.thread after)
    (ready : after.Ready → (next.cache.pc action.thread).Ready)
    (inside : after.InClosure → ∃ k i, next.cache.pc action.thread = .forward k i) : Linked next where
  valid := Cache.step_valid linked.valid taken
  ready := by
    rw [stage]
    refine (Function.forall_update_iff s.stage
      (p := fun u stage => stage.Ready → (next.cache.pc u).Ready)).mpr ⟨ready,fun u other here => ?_⟩
    have before := linked.ready u here
    rcases Cache.step_others taken u other with same | ⟨i,woken⟩
    · rwa [same]
    · rw [woken]
      rcases before.cases with place | ⟨_,_,_,place⟩ <;> rw [place] <;> trivial
  closure := by
    rw [stage]
    refine (Function.forall_update_iff s.stage
      (p := fun u stage => stage.InClosure → ∃ k i, next.cache.pc u = .forward k i)).mpr
        ⟨inside,fun u other busy => ?_⟩
    obtain ⟨k,i,forward⟩ := linked.closure u busy
    refine ⟨k,i,?_⟩
    rcases Cache.step_others taken u other with same | ⟨j,woken⟩
    · rw [same,forward]
    · rw [woken,forward]
      rfl

-- A step of its own is taken by the cache for a call that waits for it.
theorem Linked.waiting {s : State τ φ σ} {cache : CacheState τ σ} (linked : Linked s)
    (taken : Cache.Step s.cache action cache) (own : action = .run t ∨ action = .spurious t) :
    ∃ input, s.stage t = .waiting input := by
  obtain ⟨busy,outside⟩ := Cache.own_step_inside taken own
  cases place : s.stage t with
  | waiting input => exact ⟨input,rfl⟩
  | idle | answered => exact absurd (linked.ready t (by simp [place,Stage.Ready])) busy
  | embedding | querying | ranking | writing | populating =>
      obtain ⟨k,i,forward⟩ := linked.closure t (by simp [place,Stage.InClosure])
      exact absurd forward (outside k i)

theorem Linked.ran {s : State τ φ σ} {cache : CacheState τ σ} (linked : Linked s)
    (taken : Cache.Step s.cache action cache) (own : action = .run t ∨ action = .spurious t) :
    Linked (goto {s with cache := cache} t (s.stage t)) := by
  obtain ⟨input,place⟩ := linked.waiting taken own
  have mine : action.thread = t := by rcases own with rfl | rfl <;> rfl
  subst mine
  exact linked.passed taken rfl (by simp [place,Stage.Ready]) (by simp [place,Stage.InClosure])

omit [DecidableEq τ] in
theorem start_linked (capacity : Nat) : Linked (start τ φ σ capacity) where
  valid := Cache.start_valid _
  ready := fun _ _ => trivial
  closure := by simp [start,Stage.InClosure]

theorem step_linked {s next : State τ φ σ} (linked : Linked s) (step : Step core s action next) :
    Linked next := by
  cases step_change core step with
  | declined ready _ => exact linked.moved rfl rfl (fun _ => linked.ready _ ready) (fun busy => busy.elim)
  | called _ _ taken =>
      exact linked.passed taken rfl (fun ready => ready.elim) (fun busy => busy.elim)
  | ran taken => exact linked.ran taken (.inl rfl)
  | woke taken => exact linked.ran taken (.inr rfl)
  | prefilterHit _ taken | embedFailed _ taken | semanticHit _ taken | rankFailed _ taken
  | wrotePrefilter _ taken =>
      exact linked.passed taken rfl (fun ready => ready.elim) (fun busy => busy.elim)
  | prefilterMissed _ inside =>
      exact linked.moved rfl rfl (fun ready => ready.elim) (fun _ => ⟨_,_,inside⟩)
  | embedded place | semanticMissed place | ranked place | wroteSemantic place =>
      exact linked.moved rfl rfl (fun ready => ready.elim)
        (fun _ => linked.closure _ (by simp [place,Stage.InClosure]))
  | @recorded t input key outcome path place inside =>
      have free : (s.cache.pc t).Ready := by simp [inside,Cache.Pc.Ready]
      cases path <;> exact linked.moved rfl rfl (fun _ => free) (fun busy => busy.elim)

-- Where a call stands, over both machines.
inductive Place where
  | ready | seeking | forwarding | embedding | querying | ranking | writing | populating
  | storing | landing | done (path : Cache.CachePath)
  deriving DecidableEq

def cachePlace {κ ε ρ : Type} : Cache.Pc κ ε ρ → Place
  | .forward .. => .forwarding
  | .store .. | .storeHeld .. => .storing
  | .remove .. | .removeHeld .. | .publish .. | .publishHeld .. | .notify .. => .landing
  | .returned _ _ path => .done path
  | _ => .seeking

def placeAt : Stage φ σ → Place → Place
  | .idle,_ | .answered ..,_ => .ready
  | .waiting _,place => place
  | .embedding _,_ => .embedding
  | .querying ..,_ => .querying
  | .ranking ..,_ => .ranking
  | .writing ..,_ => .writing
  | .populating ..,_ => .populating

def places (s : State τ φ σ) (t : τ) : Place := placeAt (s.stage t) (cachePlace (s.cache.pc t))

-- What a step means for the call that takes it.
inductive Event where
  | declined | called | sought | hit | coalesced | registered
  | prefilterHit | prefilterMissed | embedded | embedFailed | semanticHit | semanticMissed
  | ranked | rankFailed | wroteSemantic | wrotePrefilter
  | storing | stored | landing | published | recorded (path : Cache.CachePath)
  deriving DecidableEq

def Event.source : Event → Place
  | .declined | .called => .ready
  | .sought | .hit | .coalesced | .registered => .seeking
  | .prefilterHit | .prefilterMissed => .forwarding
  | .embedded | .embedFailed => .embedding
  | .semanticHit | .semanticMissed => .querying
  | .ranked | .rankFailed => .ranking
  | .wroteSemantic => .writing
  | .wrotePrefilter => .populating
  | .storing | .stored => .storing
  | .landing | .published => .landing
  | .recorded path => .done path

def Event.target : Event → Place
  | .declined | .recorded _ => .ready
  | .called | .sought => .seeking
  | .hit => .done .hit
  | .coalesced => .done .coalesced
  | .registered => .forwarding
  | .prefilterMissed => .embedding
  | .embedded => .querying
  | .semanticMissed => .ranking
  | .ranked => .writing
  | .wroteSemantic => .populating
  | .prefilterHit | .semanticHit | .wrotePrefilter | .storing => .storing
  | .embedFailed | .rankFailed | .stored | .landing => .landing
  | .published => .done .miss

theorem cachePlace_woken {κ ε ρ : Type} (pc : Cache.Pc κ ε ρ) (i : Nat) :
    cachePlace (pc.woken i) = cachePlace pc := by
  cases pc with
  | asleep key slot =>
      simp only [Cache.Pc.woken]
      split <;> rfl
  | _ => rfl

-- What a reader of the run can count.
def starts : Action τ φ σ → Bool
  | .classify _ input => input.contextCompleteness ≠ .delta
  | _ => false

def runsClosure : Action τ φ σ → Bool
  | .prefilterLookup .. => true
  | _ => false

def prefilterAnswers : Action τ φ σ → Bool
  | .prefilterLookup _ answer => answer.isSome
  | _ => false

def fails : Action τ φ σ → Bool
  | .embed _ (.error _) | .rank _ (.error _) => true
  | _ => false

-- The cache finds the result on its fast path.
def foundFast (cache : CacheState τ σ) (t : τ) : Bool :=
  match cache.pc t with
  | .lookupHeld key => (Cache.cachedValue cache.inner key).isSome
  | _ => false

def answersFast (s : State τ φ σ) : Action τ φ σ → Bool
  | .run t => foundFast s.cache t
  | _ => false

-- One step is one event of the thread that takes it, and counts as that event.
structure Marks (s : State τ φ σ) (action : Action τ φ σ) (next : State τ φ σ) (e : Event) : Prop where
  moves : ∃ t, places s t = e.source ∧ places next = Function.update (places s) t e.target
  hits : next.cacheHits = s.cacheHits + [e].count (.recorded .hit)
  misses : next.cacheMisses = s.cacheMisses + [e].count (.recorded .miss)
  coalesced : next.cacheCoalesced = s.cacheCoalesced + [e].count (.recorded .coalesced)
  embeds : next.embeds = s.embeds + ([e].count .embedded + [e].count .embedFailed)
  forwards : next.cache.inner.forwardCount = s.cache.inner.forwardCount + [e].count .stored
  starts : (starts action).toNat = [e].count .called
  closures : (runsClosure action).toNat = [e].count .prefilterHit + [e].count .prefilterMissed
  prefilterAnswers : (prefilterAnswers action).toNat = [e].count .prefilterHit
  fails : (fails action).toNat = [e].count .embedFailed + [e].count .rankFailed
  fast : (answersFast s action).toNat = [e].count .hit

theorem places_moved {s next : State τ φ σ} (stage : next.stage = Function.update s.stage t after)
    (others : ∀ u, u ≠ t → cachePlace (next.cache.pc u) = cachePlace (s.cache.pc u))
    (own : placeAt after (cachePlace (next.cache.pc t)) = place) :
    places next = Function.update (places s) t place := by
  funext u
  unfold places
  rw [stage]
  by_cases same : u = t
  · subst same
    rw [Function.update_self,Function.update_self,own]
  · rw [Function.update_of_ne same,Function.update_of_ne same,others u same]

theorem others_stay {s next : CacheState τ σ} (taken : Cache.Step s action next) (u : τ)
    (other : u ≠ action.thread) : cachePlace (next.pc u) = cachePlace (s.pc u) := by
  rcases Cache.step_others taken u other with same | ⟨i,woken⟩
  · rw [same]
  · rw [woken,cachePlace_woken]

-- The forward hands its result over: a success is stored first.
def handed : Outcome σ → Place
  | .ok _ => .storing
  | .error _ => .landing

theorem forwarded_place {s next : CacheState τ σ} (taken : Cache.Step s (.forwarded t outcome) next) :
    cachePlace (s.pc t) = .forwarding ∧ next.inner = s.inner ∧
      cachePlace (next.pc t) = handed outcome := by
  cases Cache.step_change taken with
  | succeeded place => exact ⟨by rw [place]; rfl,rfl,by simp [Cache.goto]; rfl⟩
  | failed place => exact ⟨by rw [place]; rfl,rfl,by simp [Cache.goto]; rfl⟩

def Event.ofCache : Event → Bool
  | .sought | .hit | .coalesced | .registered | .storing | .stored | .landing | .published => true
  | _ => false

omit [DecidableEq τ] in
theorem entered_event {κ ε ρ : Type} {pc held : Cache.Pc κ ε ρ} (entering : pc.enter = some (lock,held)) :
    ∃ e : Event, e.ofCache = true ∧ cachePlace pc = e.source ∧ cachePlace held = e.target ∧
      e ≠ .hit ∧ e ≠ .stored := by
  cases pc <;> simp only [Cache.Pc.enter,Option.some.injEq,reduceCtorEq] at entering
  all_goals obtain ⟨rfl,rfl⟩ := Prod.mk.inj entering
  case lookup | check | join => exact ⟨.sought,rfl,rfl,rfl,by simp,by simp⟩
  case store => exact ⟨.storing,rfl,rfl,rfl,by simp,by simp⟩
  case remove | publish => exact ⟨.landing,rfl,rfl,rfl,by simp,by simp⟩

-- What the cache's own steps are.
theorem run_event {s next : CacheState τ σ} (valid : Cache.Valid s) (taken : Cache.Step s (.run t) next) :
    ∃ e : Event, e.ofCache = true ∧ cachePlace (s.pc t) = e.source ∧ cachePlace (next.pc t) = e.target ∧
      next.inner.forwardCount = s.inner.forwardCount + [e].count .stored ∧
      (foundFast s t).toNat = [e].count .hit := by
  have quiet {place} (here : s.pc t = place) (outside : ∀ key, place ≠ .lookupHeld key) :
      foundFast s t = false := by
    unfold foundFast
    rw [here]
    cases place with
    | lookupHeld key => exact absurd rfl (outside key)
    | _ => rfl
  cases Cache.step_change taken with
  | @entered t lock held entering _ =>
      obtain ⟨e,own,source,target,cold,unstored⟩ := entered_event entering
      refine ⟨e,own,source,by simpa [Cache.goto] using target,by simp [Cache.goto,unstored],?_⟩
      have outside : ∀ key, s.pc t ≠ .lookupHeld key := by
        intro key here
        simp [here,Cache.Pc.enter] at entering
      rw [quiet rfl outside]
      simp [cold]
  | @hit t key value place found =>
      refine ⟨.hit,rfl,by rw [place]; rfl,by simp [Cache.answer,Cache.goto]; rfl,rfl,?_⟩
      simp [foundFast,place,found]
  | missed place found =>
      refine ⟨.sought,rfl,by rw [place]; rfl,by simp [Cache.drop,Cache.goto]; rfl,rfl,?_⟩
      simp [foundFast,place,found]
  | joined place found | slept place found =>
      refine ⟨.sought,rfl,by rw [place]; rfl,by simp [Cache.drop,Cache.goto]; rfl,rfl,?_⟩
      rw [quiet place (by simp)]
      rfl
  | registered place found =>
      refine ⟨.registered,rfl,by rw [place]; rfl,by simp [Cache.drop,Cache.goto]; rfl,rfl,?_⟩
      rw [quiet place (by simp)]
      rfl
  | collected place found =>
      refine ⟨.coalesced,rfl,by rw [place]; rfl,by simp [Cache.answer,Cache.goto]; rfl,rfl,?_⟩
      rw [quiet place (by simp)]
      rfl
  | @stored t key i value place =>
      refine ⟨.stored,rfl,by rw [place]; rfl,by simp [Cache.drop,Cache.goto]; rfl,?_,?_⟩
      · simpa [Cache.drop,Cache.goto] using Cache.storeAfterForward_forwards s.inner key value
      · rw [quiet place (by simp)]
        rfl
  | removed place found =>
      refine ⟨.landing,rfl,by rw [place]; rfl,by simp [Cache.drop,Cache.goto]; rfl,rfl,?_⟩
      rw [quiet place (by simp)]
      rfl
  | unwrapped place found =>
      rw [Cache.unwrap_present valid.sound place] at found
      cases found
  | published place =>
      refine ⟨.landing,rfl,by rw [place]; rfl,by simp [Cache.drop,Cache.goto]; rfl,rfl,?_⟩
      rw [quiet place (by simp)]
      rfl
  | notified place =>
      refine ⟨.published,rfl,by rw [place]; rfl,by simp [Cache.answer,Cache.goto]; rfl,rfl,?_⟩
      rw [quiet place (by simp)]
      rfl

end SemanticClassifier.Service
