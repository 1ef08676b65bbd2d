import SemanticClassifier.ServiceTransparency

namespace SemanticClassifier.Service
open Classify Interleaving

variable {τ φ σ : Type} [DecidableEq τ]

def Action.thread : Action τ φ σ → τ
  | .classify t _ | .run t | .spurious t | .prefilterLookup t _ | .embed t _ | .semanticLookup t _
  | .rank t _ | .semanticInsert t | .prefilterInsert t | .record t => t

-- What a thread did since it began its last call, the cache's own steps apart.
def noted (t : τ) (history : List (Action τ φ σ)) (action : Action τ φ σ) : List (Action τ φ σ) :=
  if action.thread = t then
    match action with
    | .classify .. => [action]
    | .run _ | .spurious _ => history
    | _ => history ++ [action]
  else history

def sinceCall (t : τ) (trace : List (State τ φ σ × Action τ φ σ)) : List (Action τ φ σ) :=
  (trace.map Prod.snd).foldl (noted t) []

@[simp] theorem sinceCall_snoc (t : τ) (trace : List (State τ φ σ × Action τ φ σ)) :
    sinceCall t (trace ++ [(s,action)]) = noted t (sinceCall t trace) action := by
  simp [sinceCall]

-- A call that no tier answered, up to the backend's result.
def ownRun (t : τ) (input : ClassificationInput) (embedding : Embedding φ)
    (result : ClassificationResult σ) : List (Action τ φ σ) :=
  [.classify t input,.prefilterLookup t none,.embed t (.ok embedding),.semanticLookup t none,
    .rank t (.ok result)]

-- The history of a call is told by where it stands.
def Stage.Told (t : τ) (place : Place) (history : List (Action τ φ σ)) : Stage φ σ → Prop
  | .idle | .answered .. => True
  | .waiting input => place = .seeking ∨ place = .forwarding → history = [.classify t input]
  | .embedding input => history = [.classify t input,.prefilterLookup t none]
  | .querying input vector =>
    history = [.classify t input,.prefilterLookup t none,.embed t (.ok vector)]
  | .ranking input vector =>
    history = [.classify t input,.prefilterLookup t none,.embed t (.ok vector),.semanticLookup t none]
  | .writing input vector result => history = ownRun t input vector result
  | .populating input vector result =>
    history = ownRun t input vector result ++ [.semanticInsert t]

def Told (s : State τ φ σ) (history : τ → List (Action τ φ σ)) : Prop :=
  ∀ t, (s.stage t).Told t (cachePlace (s.cache.pc t)) (history t)

variable {core : ServiceCore}

theorem noted_others {t u : τ} (other : u ≠ t) {action : Action τ φ σ} (mine : action.thread = t)
    (history : List (Action τ φ σ)) : noted u history action = history :=
  if_neg fun same => other (same.symm.trans mine)

theorem Told.moved {s next : State τ φ σ} {history : τ → List (Action τ φ σ)} (told : Told s history)
    (mine : action.thread = t) (stage : next.stage = Function.update s.stage t after)
    (others : ∀ u, u ≠ t → cachePlace (next.cache.pc u) = cachePlace (s.cache.pc u))
    (here : after.Told t (cachePlace (next.cache.pc t)) (noted t (history t) action)) :
    Told next fun u => noted u (history u) action := by
  unfold Told
  rw [stage]
  refine (Function.forall_update_iff s.stage (p := fun u stage =>
    stage.Told u (cachePlace (next.cache.pc u)) (noted u (history u) action))).mpr ⟨here,fun u other => ?_⟩
  rw [noted_others other mine,others u other]
  exact told u

theorem Event.fresh_source (e : Event) (own : e.ofCache = true)
    (fresh : e.target = .seeking ∨ e.target = .forwarding) : e.source = .seeking := by
  cases e <;> simp [Event.ofCache,Event.target,Event.source] at own fresh ⊢

-- A step of the cache's own is no part of the history.
theorem Told.ran {s : State τ φ σ} {cache : CacheState τ σ} {history : τ → List (Action τ φ σ)}
    (told : Told s history) (taken : Cache.Step s.cache below cache) (mine : below.thread = t)
    (place : s.stage t = .waiting input) (thread : action.thread = t)
    (unseen : noted t (history t) action = history t)
    (fresh : cachePlace (cache.pc t) = .seeking ∨ cachePlace (cache.pc t) = .forwarding →
      cachePlace (s.cache.pc t) = .seeking) :
    Told (goto {s with cache := cache} t (s.stage t)) fun u => noted u (history u) action := by
  refine told.moved thread rfl (mine ▸ others_stay taken) ?_
  have before := told t
  rw [unseen]
  rw [place] at before ⊢
  exact fun after => before (.inl (fresh after))

-- What the closure gives back is not handed to another closure.
theorem Told.given {s next : State τ φ σ} {history : τ → List (Action τ φ σ)} (told : Told s history)
    (taken : Cache.Step s.cache (.forwarded t outcome) next.cache) (thread : action.thread = t)
    (stage : next.stage = Function.update s.stage t (.waiting input)) :
    Told next fun u => noted u (history u) action := by
  refine told.moved thread stage (others_stay taken) fun fresh => ?_
  rw [(forwarded_place taken).2.2] at fresh
  cases outcome <;> simp [handed] at fresh

theorem step_told {s next : State τ φ σ} {history : τ → List (Action τ φ σ)} (linked : Linked s)
    (told : Told s history) (step : Step core s action next) :
    Told next fun u => noted u (history u) action := by
  cases step_change core step with
  | declined _ _ => exact told.moved rfl rfl (fun _ _ => rfl) trivial
  | called _ _ taken =>
      refine told.moved rfl rfl (others_stay taken) fun _ => ?_
      simp [noted,Action.thread]
  | @ran t cache taken =>
      obtain ⟨input,place⟩ := linked.waiting taken (.inl rfl)
      obtain ⟨e,own,source,target,_,_⟩ := run_event linked.valid taken
      refine told.ran taken rfl place rfl (if_pos rfl) fun fresh => ?_
      rw [target] at fresh
      exact source.trans (e.fresh_source own fresh)
  | @woke t cache taken =>
      obtain ⟨input,place⟩ := linked.waiting taken (.inr rfl)
      refine told.ran taken rfl place rfl (if_pos rfl) fun _ => ?_
      cases Cache.step_change taken with
      | woke asleep =>
          rw [asleep]
          rfl
  | prefilterHit place taken | embedFailed place taken | semanticHit place taken
  | rankFailed place taken | wrotePrefilter place taken => exact told.given taken rfl rfl
  | @prefilterMissed t input key slot place inside =>
      have before := told t
      rw [place,inside] at before
      refine told.moved (t := t) rfl rfl (fun _ _ => rfl) ?_
      simp [noted,Action.thread,Stage.Told,before (.inr rfl)]
  | @embedded t _ _ place | @semanticMissed t _ _ place | @ranked t _ _ _ place
  | @wroteSemantic t _ _ _ place =>
      have before := told t
      rw [place] at before
      simp only [Stage.Told] at before
      refine told.moved (t := t) rfl rfl (fun _ _ => rfl) ?_
      simp [noted,Action.thread,Stage.Told,before,ownRun]
  | @recorded t input key outcome path place inside =>
      cases path <;> exact told.moved (t := t) rfl rfl (fun _ _ => rfl) trivial

-- A tier returns only what was inserted into it before, under the tag asked for.
def Recalls (core : ServiceCore) (s : State τ φ σ) : Action τ φ σ → Prop
  | .prefilterLookup _ (some hit) => ∃ signature, (signature,hit,core.tag) ∈ s.prefilterInserts
  | .semanticLookup _ (some hit) => ∃ vector, (vector,hit,core.tag) ∈ s.semanticInserts
  | _ => True

instance [DecidableEq σ] (core : ServiceCore) (s : State τ φ σ) : ∀ action, Decidable (Recalls core s action)
  | .prefilterLookup _ (some hit) =>
    decidable_of_iff (∃ entry ∈ s.prefilterInserts, entry.2 = (hit,core.tag)) (by simp [Recalls])
  | .semanticLookup _ (some hit) =>
    decidable_of_iff (∃ entry ∈ s.semanticInserts, entry.2 = (hit,core.tag)) (by simp [Recalls])
  | .prefilterLookup _ none | .semanticLookup _ none | .classify .. | .run .. | .spurious .. | .embed ..
  | .rank .. | .semanticInsert .. | .prefilterInsert .. | .record .. => .isTrue trivial

-- `embed` and `rank` on a trimmed text.
def Computes (runtime : ClassifierRuntime φ σ) (text : String) (vector : Embedding φ)
    (result : ClassificationResult σ) : Prop :=
  ∀ input, (normalize input).text = text → runtime.embed (normalize input) = .ok vector ∧
    runtime.rank vector (normalize input) = .ok result

section Statement
variable (core : ServiceCore) (runtime : ClassifierRuntime φ σ)
variable (whole : List (State τ φ σ × Action τ φ σ))

-- The backend itself ran for a call.
def Ran (t : τ) (input : ClassificationInput) (vector : Embedding φ)
    (result : ClassificationResult σ) : Prop :=
  (∃ early, early <+: whole ∧ ownRun t input vector result <+: sinceCall t early) ∧
    Computes runtime (normalize input).text vector result

-- A step of the run was taken by a call for which the backend itself had run.
def LearntBy (action : Action τ φ σ) (t : τ) (input : ClassificationInput) (vector : Embedding φ)
    (result : ClassificationResult σ) : Prop :=
  (∃ early before, early ++ [(before,action)] <+: whole ∧
    ownRun t input vector result <+: sinceCall t early) ∧
    Computes runtime (normalize input).text vector result

def PrefilterLearnt (signature : Prefilter.Signature) (result : ClassificationResult σ) (tag : String) : Prop :=
  ∃ t input vector, LearntBy runtime whole (.prefilterInsert t) t input vector result ∧
    signature = core.signature (normalize input).text ∧ tag = core.tag

def SemanticLearnt (vector : Embedding φ) (result : ClassificationResult σ) (tag : String) : Prop :=
  ∃ t input, LearntBy runtime whole (.semanticInsert t) t input vector result ∧ tag = core.tag

-- One lookup for `text` returned what was inserted for `origin`.
def Matched (text origin : String) (vector : Embedding φ) (result : ClassificationResult σ) : Prop :=
  (∃ before t input, (before,.prefilterLookup t (some result)) ∈ whole ∧
    before.stage t = .waiting input ∧ (normalize input).text = text ∧
    (core.signature origin,result,core.tag) ∈ before.prefilterInserts) ∨
  (∃ before t input key, (before,.semanticLookup t (some result)) ∈ whole ∧
    before.stage t = .querying input key ∧ (normalize input).text = text ∧
    (vector,result,core.tag) ∈ before.semanticInserts)

-- At most one approximation between a text and the text that was computed.
def OneHop (text : String) (result : ClassificationResult σ) : Prop :=
  ∃ t origin vector, Ran runtime whole t origin vector result ∧
    ((normalize origin).text = text ∨ Matched core whole text (normalize origin).text vector result)

structure Sourced (trace : List (State τ φ σ × Action τ φ σ)) (s : State τ φ σ) : Prop where
  entrusted : Entrusted core runtime (asked whole)
    (fun input outcome => ∀ result, outcome = .ok result →
      OneHop core runtime whole (normalize input).text result) s
  told : Told s fun t => sinceCall t trace
  prefilter : ∀ signature result tag, (signature,result,tag) ∈ s.prefilterInserts →
    PrefilterLearnt core runtime whole signature result tag
  semantic : ∀ vector result tag, (vector,result,tag) ∈ s.semanticInserts →
    SemanticLearnt core runtime whole vector result tag

end Statement

variable {runtime : ClassifierRuntime φ σ} {whole : List (State τ φ σ × Action τ φ σ)}

theorem LearntBy.ran {action : Action τ φ σ} {t : τ}
    (learnt : LearntBy runtime whole action t input vector result) :
    Ran runtime whole t input vector result := by
  obtain ⟨⟨early,before,initial,history⟩,computes⟩ := learnt
  exact ⟨⟨early,(List.prefix_append _ _).trans initial,history⟩,computes⟩

theorem computes_text (textual : Textual runtime)
    (embed : runtime.embed (normalize input) = .ok vector)
    (rank : runtime.rank vector (normalize input) = .ok result) :
    Computes runtime (normalize input).text vector result := by
  intro also same
  obtain ⟨embeds,ranks⟩ := textual (normalize also) (normalize input) (congrArg Cache.trim same)
  exact ⟨embeds.trans embed,(ranks vector).trans rank⟩

-- The call that is about to learn its result ran the backend itself.
theorem Sourced.learning {trace : List (State τ φ σ × Action τ φ σ)} {s : State τ φ σ}
    (sourced : Sourced core runtime whole trace s) (textual : Textual runtime)
    (initial : trace ++ [(s,action)] <+: whole)
    (place : s.stage t = .writing input vector result ∨ s.stage t = .populating input vector result) :
    LearntBy runtime whole action t input vector result := by
  have told := sourced.told t
  have hand := sourced.entrusted.hand t
  rcases place with place | place <;> rw [place] at told hand
  · have history : sinceCall t trace = ownRun t input vector result := told
    exact ⟨⟨trace,s,initial,history ▸ List.prefix_rfl⟩,computes_text textual hand.1 hand.2⟩
  · have history : sinceCall t trace = ownRun t input vector result ++ [.semanticInsert t] := told
    exact ⟨⟨trace,s,initial,history ▸ List.prefix_append _ _⟩,computes_text textual hand.1 hand.2⟩

theorem Sourced.delivers {trace : List (State τ φ σ × Action τ φ σ)} {s : State τ φ σ}
    (sourced : Sourced core runtime whole trace s) (textual : Textual runtime)
    (initial : trace ++ [(s,action)] <+: whole) (recalls : Recalls core s action)
    (step : Step core s action next) (given : gives s action = some (t,.ok result))
    (here : (s.stage t).input = some input) : OneHop core runtime whole (normalize input).text result := by
  have member : (s,action) ∈ whole := initial.subset (by simp)
  cases step_change core step with
  | @prefilterHit u also hit cache place taken =>
      cases Option.some.inj given
      rw [place] at here
      cases here
      obtain ⟨signature,inserted⟩ := recalls
      obtain ⟨v,origin,vector,learnt,rfl,_⟩ := sourced.prefilter _ _ _ inserted
      exact ⟨v,origin,vector,learnt.ran,.inr (.inl ⟨s,t,input,member,place,rfl,inserted⟩)⟩
  | @semanticHit u also key hit cache place taken =>
      cases Option.some.inj given
      rw [place] at here
      cases here
      obtain ⟨vector,inserted⟩ := recalls
      obtain ⟨v,origin,learnt,_⟩ := sourced.semantic _ _ _ inserted
      exact ⟨v,origin,vector,learnt.ran,.inr (.inr ⟨s,t,input,key,member,place,rfl,inserted⟩)⟩
  | @wrotePrefilter u also vector computed cache place taken =>
      simp only [gives,place,Option.some.injEq,Prod.mk.injEq,Except.ok.injEq] at given
      obtain ⟨rfl,rfl⟩ := given
      have learnt := sourced.learning textual initial (.inr place)
      rw [place] at here
      cases here
      exact ⟨u,input,vector,learnt.ran,.inl rfl⟩
  | _ => cases given

-- Only the two insert steps teach a tier anything.
theorem step_inserts {s next : State τ φ σ} (step : Step core s action next) :
    (next.prefilterInserts = s.prefilterInserts ∨ ∃ t input vector result,
      action = .prefilterInsert t ∧ s.stage t = .populating input vector result ∧
      next.prefilterInserts = (core.signature (normalize input).text,result,core.tag) :: s.prefilterInserts) ∧
    (next.semanticInserts = s.semanticInserts ∨ ∃ t input vector result,
      action = .semanticInsert t ∧ s.stage t = .writing input vector result ∧
      next.semanticInserts = (vector,result,core.tag) :: s.semanticInserts) := by
  cases step_change core step with
  | @wroteSemantic t input vector result place =>
      exact ⟨.inl rfl,.inr ⟨t,input,vector,result,rfl,place,rfl⟩⟩
  | @wrotePrefilter t input vector result cache place _ =>
      exact ⟨.inr ⟨t,input,vector,result,rfl,place,rfl⟩,.inl rfl⟩
  | @recorded t input key outcome path place inside => cases path <;> exact ⟨.inl rfl,.inl rfl⟩
  | _ => exact ⟨.inl rfl,.inl rfl⟩

theorem step_sourced {trace : List (State τ φ σ × Action τ φ σ)} {s next : State τ φ σ}
    (textual : Textual runtime) (free : CollisionFree core (asked whole))
    (sourced : Sourced core runtime whole trace s) (initial : trace ++ [(s,action)] <+: whole)
    (answers : Answers runtime s action) (recalls : Recalls core s action)
    (step : Step core s action next) : Sourced core runtime whole (trace ++ [(s,action)]) next where
  entrusted := by
    refine step_entrusted free ?_ sourced.entrusted ?_ answers ?_ step
    · intro a b outcome same hop
      exact same ▸ hop
    · intro t input equal
      exact ⟨s,t,equal ▸ initial.subset (by simp)⟩
    · intro t outcome input given here result equal
      subst equal
      exact sourced.delivers textual initial recalls step given here
  told := by
    simp only [sinceCall_snoc]
    exact step_told sourced.entrusted.linked sourced.told step
  prefilter := by
    intro signature result tag inserted
    rcases (step_inserts step).1 with same | ⟨t,input,vector,computed,rfl,place,grown⟩
    · exact sourced.prefilter _ _ _ (same ▸ inserted)
    · rw [grown] at inserted
      rcases List.mem_cons.mp inserted with new | old
      · cases new
        exact ⟨t,input,vector,sourced.learning textual initial (.inr place),rfl,rfl⟩
      · exact sourced.prefilter _ _ _ old
  semantic := by
    intro vector result tag inserted
    rcases (step_inserts step).2 with same | ⟨t,input,key,computed,rfl,place,grown⟩
    · exact sourced.semantic _ _ _ (same ▸ inserted)
    · rw [grown] at inserted
      rcases List.mem_cons.mp inserted with new | old
      · cases new
        exact ⟨t,input,sourced.learning textual initial (.inl place),rfl⟩
      · exact sourced.semantic _ _ _ old

theorem path_sourced {trace : List (State τ φ σ × Action τ φ σ)} {s : State τ φ σ}
    (textual : Textual runtime) (free : CollisionFree core (asked whole))
    (path : Path (Step core) (start τ φ σ capacity) trace s) (initial : trace <+: whole)
    (answers : Met (Answers runtime) trace) (recalls : Met (Recalls core) trace) :
    Sourced core runtime whole trace s := by
  induction path with
  | nil => exact ⟨start_entrusted capacity,fun _ => trivial,by simp [start],by simp [start]⟩
  | snoc prior step ih =>
      obtain ⟨answered,answers⟩ := met_snoc.mp answers
      obtain ⟨recalled,recalls⟩ := met_snoc.mp recalls
      have earlier := ih ((List.prefix_append _ _).trans initial) answered recalled
      exact step_sourced textual free earlier initial answers recalls step

theorem pair_textual : Textual pairRuntime :=
  fun a b same => ⟨by simp only [pairRuntime,same],fun _ => rfl⟩

-- A text is computed, and L0 gives its result for another one.
def hopCore : ServiceCore :=
  ⟨pairMetadata,fun stream => Vector.replicate 32 stream.length.toUInt8,fun _ => ⟨[]⟩⟩

def hopActions : List (Action Unit Nat Nat) :=
  [.classify () (textInput "text"),.run (),.run (),.run (),.run (),.prefilterLookup () none,
    .embed () (.ok ⟨[4],none⟩),.semanticLookup () none,.rank () (.ok pairResult),.semanticInsert (),
    .prefilterInsert (),.run (),.run (),.run (),.run (),.run (),.run (),.run (),.record (),
    .classify () (textInput "other"),.run (),.run (),.run (),.run (),
    .prefilterLookup () (some pairResult),.run (),.run (),.run (),.run (),.run (),.run (),.run (),
    .record ()]

def hopRun : List (State Unit Nat Nat × Action Unit Nat Nat) × State Unit Nat Nat :=
  (follow (advance hopCore) (start Unit Nat Nat 1) hopActions).getD ([],start Unit Nat Nat 1)

theorem hop_followed :
    follow (advance hopCore) (start Unit Nat Nat 1) hopActions = some hopRun := rfl

theorem hop_asked : ∀ input ∈ asked hopRun.1,
    (normalize input).text = "text" ∨ (normalize input).text = "other" := by
  rintro input ⟨s,t,member⟩
  have named : Action.classify t input ∈ hopActions :=
    follow_actions hop_followed ▸ List.mem_map_of_mem member
  simp only [hopActions,List.mem_cons,Action.classify.injEq,reduceCtorEq,List.not_mem_nil,
    false_or,or_false] at named
  rcases named with ⟨_,rfl⟩ | ⟨_,rfl⟩ <;> decide

theorem hop_free : CollisionFree hopCore (asked hopRun.1) := by
  have apart : ∀ a b : String, (a = "text" ∨ a = "other") → (b = "text" ∨ b = "other") →
      hopCore.blake3 (Cache.keyStream hopCore.metadata.cacheIdentity a) =
        hopCore.blake3 (Cache.keyStream hopCore.metadata.cacheIdentity b) → a = b := by
    rintro a b (rfl | rfl) (rfl | rfl) <;> decide
  rintro _ ⟨a,first,rfl⟩ _ ⟨b,second,rfl⟩ same
  exact congrArg _ (apart _ _ (hop_asked a first) (hop_asked b second) same)

def deltaInput : ClassificationInput := ⟨"text",[],∅,.delta⟩

def deltaRun : List (State Unit Nat Nat × Action Unit Nat Nat) × State Unit Nat Nat :=
  (follow (advance pairCore) (start Unit Nat Nat 1) [.classify () deltaInput]).getD ([],start Unit Nat Nat 1)

theorem delta_followed :
    follow (advance pairCore) (start Unit Nat Nat 1) [.classify () deltaInput] = some deltaRun := rfl

end SemanticClassifier.Service
