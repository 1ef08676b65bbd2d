import SemanticClassifier.ServiceTransparency

namespace SemanticClassifier.Service
open Classify Flow Interleaving

variable {τ φ σ : Type} [DecidableEq τ] {core : ServiceCore}

-- A step that leaves the cache alone.
theorem stage_moves {s next : State τ φ σ} {after : Stage φ σ} {e : Event}
    (source : places s t = e.source) (cache : next.cache = s.cache)
    (stage : next.stage = Function.update s.stage t after)
    (target : placeAt after (cachePlace (s.cache.pc t)) = e.target) :
    ∃ t, places s t = e.source ∧ places next = Function.update (places s) t e.target :=
  ⟨t,source,places_moved stage (fun _ _ => by rw [cache]) (by rw [cache]; exact target)⟩

-- A step through the cache.
theorem cache_moves {s next : State τ φ σ} {after : Stage φ σ} {e : Event}
    (taken : Cache.Step s.cache action next.cache) (mine : action.thread = t)
    (source : places s t = e.source) (stage : next.stage = Function.update s.stage t after)
    (target : placeAt after (cachePlace (next.cache.pc t)) = e.target) :
    ∃ t, places s t = e.source ∧ places next = Function.update (places s) t e.target :=
  ⟨t,source,places_moved stage (mine ▸ others_stay taken) target⟩

theorem run_marks {s : State τ φ σ} {cache : CacheState τ σ} (linked : Linked s)
    (taken : Cache.Step s.cache (.run t) cache) :
    ∃ e, Marks s (.run t) (goto {s with cache := cache} t (s.stage t)) e := by
  obtain ⟨input,place⟩ := linked.waiting taken (.inl rfl)
  obtain ⟨e,own,source,target,forwards,fast⟩ := run_event linked.valid taken
  have moves : ∃ u, places s u = e.source ∧
      places (goto {s with cache := cache} t (s.stage t)) = Function.update (places s) u e.target := by
    refine cache_moves (t := t) taken rfl ?_ rfl ?_
    · rw [places,place,placeAt,source]
    · rw [place,placeAt]
      exact target
  refine ⟨e,?_⟩
  cases e <;> first
    | exact ⟨moves,rfl,rfl,rfl,rfl,forwards,rfl,rfl,rfl,rfl,fast⟩
    | cases own

theorem woke_marks {s : State τ φ σ} {cache : CacheState τ σ} (linked : Linked s)
    (taken : Cache.Step s.cache (.spurious t) cache) :
    Marks s (.spurious t) (goto {s with cache := cache} t (s.stage t)) .sought := by
  obtain ⟨input,place⟩ := linked.waiting taken (.inr rfl)
  cases Cache.step_change taken with
  | woke asleep =>
      refine ⟨cache_moves (t := t) taken rfl ?_ rfl ?_,rfl,rfl,rfl,rfl,rfl,rfl,rfl,rfl,rfl,rfl⟩
      · rw [places,place,asleep]
        rfl
      · rw [place]
        simp [goto,Cache.goto,placeAt]
        rfl

-- The closure's result goes back into the cache.
theorem given_moves {s next : State τ φ σ} {e : Event}
    (taken : Cache.Step s.cache (.forwarded t outcome) next.cache) (source : places s t = e.source)
    (stage : next.stage = Function.update s.stage t (.waiting input))
    (target : handed outcome = e.target) :
    ∃ t, places s t = e.source ∧ places next = Function.update (places s) t e.target :=
  cache_moves taken rfl source stage ((forwarded_place taken).2.2.trans target)

omit [DecidableEq τ] in
theorem ready_places {s : State τ φ σ} (ready : (s.stage t).Ready) : places s t = .ready := by
  rcases ready.cases with place | ⟨_,_,place⟩ <;> rw [places,place] <;> rfl

theorem step_marks {s next : State τ φ σ} (linked : Linked s) (step : Step core s action next) :
    ∃ e, Marks s action next e := by
  cases step_change core step with
  | ran taken => exact run_marks linked taken
  | woke taken => exact ⟨.sought,woke_marks linked taken⟩
  | @declined t input ready delta =>
      refine ⟨.declined,stage_moves (ready_places ready) rfl rfl rfl,rfl,rfl,rfl,rfl,rfl,?_,rfl,rfl,rfl,rfl⟩
      simp [starts,delta]
  | @called t input cache ready complete taken =>
      have kept : cache.inner = s.cache.inner := by cases Cache.step_change taken; rfl
      have looks : cachePlace (cache.pc t) = .seeking := by
        cases Cache.step_change taken
        simp [Cache.goto]
        rfl
      refine ⟨.called,cache_moves taken rfl (ready_places ready) rfl looks,rfl,rfl,rfl,rfl,
        congrArg (·.forwardCount) kept,?_,rfl,rfl,rfl,rfl⟩
      simp [starts,complete]
  | @prefilterHit t input hit cache place taken =>
      refine ⟨.prefilterHit,given_moves taken ?_ rfl rfl,rfl,rfl,rfl,rfl,
        congrArg (·.forwardCount) (forwarded_place taken).2.1,rfl,rfl,rfl,rfl,rfl⟩
      rw [places,place,placeAt,(forwarded_place taken).1]
      rfl
  | @prefilterMissed t input key slot place inside =>
      refine ⟨.prefilterMissed,stage_moves (t := t) ?_ rfl rfl rfl,rfl,rfl,rfl,rfl,rfl,rfl,rfl,rfl,rfl,rfl⟩
      rw [places,place,inside]
      rfl
  | @embedded t input embedding place =>
      refine ⟨.embedded,stage_moves (t := t) ?_ rfl rfl rfl,rfl,rfl,rfl,rfl,rfl,rfl,rfl,rfl,rfl,rfl⟩
      rw [places,place]
      rfl
  | @embedFailed t input e cache place taken =>
      refine ⟨.embedFailed,given_moves taken ?_ rfl rfl,rfl,rfl,rfl,rfl,
        congrArg (·.forwardCount) (forwarded_place taken).2.1,rfl,rfl,rfl,rfl,rfl⟩
      rw [places,place]
      rfl
  | @semanticHit t input embedding hit cache place taken =>
      refine ⟨.semanticHit,given_moves taken ?_ rfl rfl,rfl,rfl,rfl,rfl,
        congrArg (·.forwardCount) (forwarded_place taken).2.1,rfl,rfl,rfl,rfl,rfl⟩
      rw [places,place]
      rfl
  | @semanticMissed t input embedding place =>
      refine ⟨.semanticMissed,stage_moves (t := t) ?_ rfl rfl rfl,rfl,rfl,rfl,rfl,rfl,rfl,rfl,rfl,rfl,rfl⟩
      rw [places,place]
      rfl
  | @ranked t input embedding result place =>
      refine ⟨.ranked,stage_moves (t := t) ?_ rfl rfl rfl,rfl,rfl,rfl,rfl,rfl,rfl,rfl,rfl,rfl,rfl⟩
      rw [places,place]
      rfl
  | @rankFailed t input embedding e cache place taken =>
      refine ⟨.rankFailed,given_moves taken ?_ rfl rfl,rfl,rfl,rfl,rfl,
        congrArg (·.forwardCount) (forwarded_place taken).2.1,rfl,rfl,rfl,rfl,rfl⟩
      rw [places,place]
      rfl
  | @wroteSemantic t input embedding result place =>
      refine ⟨.wroteSemantic,stage_moves (t := t) ?_ rfl rfl rfl,rfl,rfl,rfl,rfl,rfl,rfl,rfl,rfl,rfl,rfl⟩
      rw [places,place]
      rfl
  | @wrotePrefilter t input embedding result cache place taken =>
      refine ⟨.wrotePrefilter,given_moves taken ?_ rfl rfl,rfl,rfl,rfl,rfl,
        congrArg (·.forwardCount) (forwarded_place taken).2.1,rfl,rfl,rfl,rfl,rfl⟩
      rw [places,place]
      rfl
  | @recorded t input key outcome path place inside =>
      have source : places s t = .done path := by rw [places,place,inside]; rfl
      refine ⟨.recorded path,?_⟩
      cases path <;>
        exact ⟨stage_moves source rfl rfl rfl,rfl,rfl,rfl,rfl,rfl,rfl,rfl,rfl,rfl,rfl⟩

-- The run as the events of its calls, and everything that is counted as a
-- count of events.
structure Ledger (trace : List (State τ φ σ × Action τ φ σ)) (s : State τ φ σ) (events : List Event) :
    Prop where
  walk : Walk Event.source Event.target .ready events (places s)
  hits : s.cacheHits = events.count (.recorded .hit)
  misses : s.cacheMisses = events.count (.recorded .miss)
  coalesced : s.cacheCoalesced = events.count (.recorded .coalesced)
  embeds : s.embeds = events.count .embedded + events.count .embedFailed
  forwards : s.cache.inner.forwardCount = events.count .stored
  starts : trace.countP (fun row => starts row.2) = events.count .called
  closures : trace.countP (fun row => runsClosure row.2) =
    events.count .prefilterHit + events.count .prefilterMissed
  prefilterAnswers : trace.countP (fun row => prefilterAnswers row.2) = events.count .prefilterHit
  fails : trace.countP (fun row => fails row.2) = events.count .embedFailed + events.count .rankFailed
  fast : trace.countP (fun row => answersFast row.1 row.2) = events.count .hit

theorem countP_snoc {α : Type} (p : α → Bool) (rows : List α) (row : α) :
    (rows ++ [row]).countP p = rows.countP p + (p row).toNat := by
  rw [List.countP_append,List.countP_singleton]
  cases p row <;> rfl

theorem Ledger.snoc {trace : List (State τ φ σ × Action τ φ σ)} {s next : State τ φ σ}
    (ledger : Ledger trace s events) (marks : Marks s action next e) :
    Ledger (trace ++ [(s,action)]) next (events ++ [e]) := by
  obtain ⟨t,source,target⟩ := marks.moves
  refine ⟨target ▸ ledger.walk.move source,?_,?_,?_,?_,?_,?_,?_,?_,?_,?_⟩
  · rw [marks.hits,ledger.hits,List.count_append]
  · rw [marks.misses,ledger.misses,List.count_append]
  · rw [marks.coalesced,ledger.coalesced,List.count_append]
  · rw [marks.embeds,ledger.embeds,List.count_append,List.count_append]
    omega
  · rw [marks.forwards,ledger.forwards,List.count_append]
  · rw [countP_snoc,ledger.starts,marks.starts,List.count_append]
  · rw [countP_snoc,ledger.closures,marks.closures,List.count_append,List.count_append]
    omega
  · rw [countP_snoc,ledger.prefilterAnswers,marks.prefilterAnswers,List.count_append]
  · rw [countP_snoc,ledger.fails,marks.fails,List.count_append,List.count_append]
    omega
  · rw [countP_snoc,ledger.fast,marks.fast,List.count_append]

theorem path_ledger {trace : List (State τ φ σ × Action τ φ σ)} {s : State τ φ σ}
    (path : Path (Step core) (start τ φ σ capacity) trace s) :
    Linked s ∧ ∃ events, Ledger trace s events := by
  induction path with
  | nil =>
      refine ⟨start_linked capacity,[],?_,rfl,rfl,rfl,rfl,rfl,rfl,rfl,rfl,rfl,rfl⟩
      exact .start
  | snoc _ step ih =>
      obtain ⟨linked,events,ledger⟩ := ih
      obtain ⟨e,marks⟩ := step_marks linked step
      exact ⟨step_linked linked step,events ++ [e],ledger.snoc marks⟩

-- Nobody is inside a call.
def Quiescent (s : State τ φ σ) : Prop := ∀ t, (s.stage t).Ready

omit [DecidableEq τ] in
theorem quiescent_places {s : State τ φ σ} (quiet : Quiescent s) (t : τ) : places s t = .ready :=
  ready_places (quiet t)

def Event.all : List Event :=
  [.declined,.called,.sought,.hit,.coalesced,.registered,.prefilterHit,.prefilterMissed,.embedded,
    .embedFailed,.semanticHit,.semanticMissed,.ranked,.rankFailed,.wroteSemantic,.wrotePrefilter,
    .storing,.stored,.landing,.published,.recorded .hit,.recorded .miss,.recorded .coalesced]

theorem Event.mem_all (e : Event) : e ∈ Event.all := by
  cases e with
  | recorded path => cases path <;> decide
  | _ => decide

-- The events that lead into a region, and those that lead out of it.
def Borders (region : Place → Bool) (coming going : List Event) : Prop :=
  ∀ e ∈ Event.all, (region e.target && !region e.source) = decide (e ∈ coming) ∧
    (region e.source && !region e.target) = decide (e ∈ going)

instance (region : Place → Bool) (coming going : List Event) : Decidable (Borders region coming going) :=
  inferInstanceAs (Decidable (∀ e ∈ Event.all, _))

-- In a quiescent state every region that is not `ready` was left as often as it
-- was entered.
theorem Ledger.settled {trace : List (State τ φ σ × Action τ φ σ)} {s : State τ φ σ}
    (ledger : Ledger trace s events) (quiet : Quiescent s) (region : Place → Bool)
    (away : region .ready = false) {coming going : List Event} (once : coming.Nodup ∧ going.Nodup)
    (borders : Borders region coming going) :
    (going.map fun e => events.count e).sum = (coming.map fun e => events.count e).sum :=
  ledger.walk.balance region away (fun t => by rw [quiescent_places quiet t,away]) coming going once
    (fun e => (borders e e.mem_all).1) (fun e => (borders e e.mem_all).2)

def inCall : Place → Bool
  | .ready => false
  | _ => true

-- From the closure's first step to the end of its call.
def missing : Place → Bool
  | .ready | .seeking | .forwarding | .done .hit | .done .coalesced => false
  | _ => true

-- From a miss in L0 to the end of the closure.
def computing : Place → Bool
  | .embedding | .querying | .ranking | .writing | .populating => true
  | _ => false

theorem Ledger.calls {trace : List (State τ φ σ × Action τ φ σ)} {s : State τ φ σ}
    (ledger : Ledger trace s events) (quiet : Quiescent s) :
    events.count (.recorded .hit) + events.count (.recorded .miss) + events.count (.recorded .coalesced) =
      events.count .called := by
  have borders : Borders inCall [.called] [.recorded .hit,.recorded .miss,.recorded .coalesced] := by decide
  simpa [add_assoc] using ledger.settled quiet inCall rfl (by decide) borders

theorem Ledger.closures_missed {trace : List (State τ φ σ × Action τ φ σ)} {s : State τ φ σ}
    (ledger : Ledger trace s events) (quiet : Quiescent s) :
    events.count (.recorded .miss) = events.count .prefilterHit + events.count .prefilterMissed := by
  have borders : Borders missing [.prefilterHit,.prefilterMissed] [.recorded .miss] := by decide
  simpa using ledger.settled quiet missing rfl (by decide) borders

theorem Ledger.hits_answered {trace : List (State τ φ σ × Action τ φ σ)} {s : State τ φ σ}
    (ledger : Ledger trace s events) (quiet : Quiescent s) :
    events.count (.recorded .hit) = events.count .hit := by
  have borders : Borders (fun place => place = .done .hit) [.hit] [.recorded .hit] := by decide
  simpa using ledger.settled quiet _ rfl (by decide) borders

theorem Ledger.embeds_begun {trace : List (State τ φ σ × Action τ φ σ)} {s : State τ φ σ}
    (ledger : Ledger trace s events) (quiet : Quiescent s) :
    events.count .embedded + events.count .embedFailed = events.count .prefilterMissed := by
  have borders : Borders (fun place => place = .embedding) [.prefilterMissed] [.embedded,.embedFailed] := by
    decide
  simpa using ledger.settled quiet _ rfl (by decide) borders

-- A computation ends in an error, in an L2 answer or in a computed result.
theorem Ledger.computations {trace : List (State τ φ σ × Action τ φ σ)} {s : State τ φ σ}
    (ledger : Ledger trace s events) (quiet : Quiescent s) :
    events.count .embedFailed + events.count .semanticHit + events.count .rankFailed +
      events.count .wrotePrefilter = events.count .prefilterMissed := by
  have borders : Borders computing [.prefilterMissed]
      [.embedFailed,.semanticHit,.rankFailed,.wrotePrefilter] := by decide
  simpa [add_assoc] using ledger.settled quiet computing rfl (by decide) borders

theorem Ledger.stores {trace : List (State τ φ σ × Action τ φ σ)} {s : State τ φ σ}
    (ledger : Ledger trace s events) (quiet : Quiescent s) :
    events.count .stored = events.count .prefilterHit + events.count .semanticHit +
      events.count .wrotePrefilter := by
  have borders : Borders (fun place => place = .storing) [.prefilterHit,.semanticHit,.wrotePrefilter]
      [.stored] := by decide
  simpa [add_assoc] using ledger.settled quiet _ rfl (by decide) borders

-- An answer from L0 is counted without a forward, and a failed forward is not
-- counted.
theorem forwards_match_embeds_iff {trace : List (State τ φ σ × Action τ φ σ)} {s : State τ φ σ}
    (path : Path (Step core) (start τ φ σ capacity) trace s) (quiet : Quiescent s) :
    s.cache.inner.forwardCount = s.embeds ↔
      trace.countP (fun row => prefilterAnswers row.2) = trace.countP (fun row => fails row.2) := by
  obtain ⟨_,events,ledger⟩ := path_ledger path
  have begun := ledger.embeds_begun quiet
  have computed := ledger.computations quiet
  have stores := ledger.stores quiet
  rw [ledger.forwards,ledger.embeds,ledger.prefilterAnswers,ledger.fails]
  omega

-- A call that went through the cache is over.
def completes : Action τ φ σ → Bool
  | .record _ => true
  | _ => false

omit [DecidableEq τ] in
theorem count_total (s : State τ φ σ) (path : Cache.CachePath) :
    (count s path).cacheHits + (count s path).cacheMisses + (count s path).cacheCoalesced =
      s.cacheHits + s.cacheMisses + s.cacheCoalesced + 1 := by
  cases path <;> simp only [count] <;> omega

theorem step_completes {s next : State τ φ σ} (step : Step core s action next) :
    next.cacheHits + next.cacheMisses + next.cacheCoalesced =
      s.cacheHits + s.cacheMisses + s.cacheCoalesced + (completes action).toNat := by
  cases step_change core step with
  | recorded place inside => exact count_total s _
  | _ => rfl

theorem path_completes {trace : List (State τ φ σ × Action τ φ σ)} {s : State τ φ σ}
    (path : Path (Step core) (start τ φ σ capacity) trace s) :
    s.cacheHits + s.cacheMisses + s.cacheCoalesced = trace.countP fun row => completes row.2 := by
  induction path with
  | nil => rfl
  | snoc _ step ih => rw [step_completes step,countP_snoc,ih]

theorem delta_step (s : State τ φ σ) {t : τ} {input : ClassificationInput} (ready : (s.stage t).Ready)
    (delta : input.contextCompleteness = .delta) :
    Step core s (.classify t input) next ↔ next = {s with
      stage := Function.update s.stage t
        (.answered input (.ok (insufficientContextAbstention σ core.metadata)))} := by
  have taken : advance core s (.classify t input) = some (goto s t
      (.answered input (.ok (insufficientContextAbstention σ core.metadata)))) := by
    cases place : s.stage t with
    | idle | answered => simp only [advance,place,delta,if_true]
    | waiting | embedding | querying | ranking | writing | populating =>
        rw [place] at ready
        exact ready.elim
  rw [Step,taken,Option.some_inj]
  exact eq_comm

theorem counters_partition {trace : List (State τ φ σ × Action τ φ σ)} {s : State τ φ σ}
    (path : Path (Step core) (start τ φ σ capacity) trace s) :
    (Quiescent s →
      trace.countP (fun row => completes row.2) = trace.countP (fun row => starts row.2) ∧
      s.cacheHits + s.cacheMisses + s.cacheCoalesced = trace.countP (fun row => completes row.2) ∧
      s.cacheMisses = trace.countP (fun row => runsClosure row.2) ∧
      s.cacheHits = trace.countP (fun row => answersFast row.1 row.2)) ∧
    ∀ t input, input.contextCompleteness = .delta → (s.stage t).Ready →
      ∃ result : ClassificationResult σ,
        (result.status = .abstain ∧ result.ranked = [] ∧ result.classifierId = core.metadata.classifierId ∧
          result.modelRevision = core.metadata.modelRevision ∧
          result.tokenizerRevision = core.metadata.tokenizerRevision ∧
          result.taxonomyRevision = core.metadata.taxonomyRevision) ∧
        ∀ next, Step core s (.classify t input) next ↔
          next = {s with stage := Function.update s.stage t (.answered input (.ok result))} := by
  refine ⟨fun quiet => ?_,fun t input delta ready => ?_⟩
  · obtain ⟨_,events,ledger⟩ := path_ledger path
    have total := path_completes path
    refine ⟨?_,total,?_,?_⟩
    · rw [← total,ledger.hits,ledger.misses,ledger.coalesced,ledger.starts,ledger.calls quiet]
    · rw [ledger.misses,ledger.closures,ledger.closures_missed quiet]
    · rw [ledger.hits,ledger.fast,ledger.hits_answered quiet]
  · exact ⟨insufficientContextAbstention σ core.metadata,⟨rfl,rfl,rfl,rfl,rfl,rfl⟩,
      fun next => delta_step s ready delta⟩

-- The two callers of one text, then the text once more and a delta.
def fourActions : List (Action Bool Nat Nat) :=
  pairActions ++ [.record false,.classify true (textInput "text"),.run true,.run true,.record true,
    .classify false ⟨"text",[],∅,.delta⟩]

def fourRun : List (State Bool Nat Nat × Action Bool Nat Nat) × State Bool Nat Nat :=
  (follow (advance pairCore) (start Bool Nat Nat 1) fourActions).getD ([],start Bool Nat Nat 1)

theorem four_followed :
    follow (advance pairCore) (start Bool Nat Nat 1) fourActions = some fourRun := rfl

theorem four_quiescent : Quiescent fourRun.2
  | false => trivial
  | true => trivial

theorem counters_partition_four :
    fourRun.2.cacheHits + fourRun.2.cacheMisses + fourRun.2.cacheCoalesced = 3 ∧
    ∃ (result : ClassificationResult Nat) (next : State Bool Nat Nat), result.status = .abstain ∧
      Step pairCore fourRun.2 (.classify true ⟨"text",[],∅,.delta⟩) next := by
  obtain ⟨counted,declined⟩ := counters_partition (follow_path four_followed)
  obtain ⟨result,parts,step⟩ := declined true ⟨"text",[],∅,.delta⟩ rfl trivial
  exact ⟨(counted four_quiescent).2.1.trans rfl,result,_,parts.1,(step _).mpr rfl⟩

theorem forwards_match_embeds_iff_four : fourRun.2.cache.inner.forwardCount = fourRun.2.embeds :=
  (forwards_match_embeds_iff (follow_path four_followed) four_quiescent).mpr rfl

-- One call, answered by L0.
def firstTierActions : List (Action Unit Nat Nat) :=
  [.classify () (textInput "text"),.run (),.run (),.run (),.run (),
    .prefilterLookup () (some pairResult),.run (),.run (),.run (),.run (),.run (),.run (),.run (),
    .record ()]

def firstTierRun : List (State Unit Nat Nat × Action Unit Nat Nat) × State Unit Nat Nat :=
  (follow (advance pairCore) (start Unit Nat Nat 1) firstTierActions).getD ([],start Unit Nat Nat 1)

theorem first_tier_followed :
    follow (advance pairCore) (start Unit Nat Nat 1) firstTierActions = some firstTierRun := rfl

theorem forwards_exceed_embeds : ¬ ∀ trace s, Path (Step pairCore) (start Unit Nat Nat 1) trace s →
    Quiescent s → s.cache.inner.forwardCount = s.embeds := by
  intro equal
  have same : firstTierRun.2.cache.inner.forwardCount = firstTierRun.2.embeds :=
    equal _ _ (follow_path first_tier_followed) fun () => trivial
  have counted : firstTierRun.2.cache.inner.forwardCount = 1 := rfl
  have none : firstTierRun.2.embeds = 0 := rfl
  omega

end SemanticClassifier.Service
