import SemanticClassifier.PrefilterSignature
import SemanticClassifier.ServicePrefilter

namespace SemanticClassifier.TextCacheLocks
open TextCache

variable {ρ : Type}

theorem place_entries (hashOne : UInt64 × List UInt64 → UInt64) (c : MemoryTextCache ρ) (entry : Entry ρ) :
    (place hashOne c entry).1.threshold = c.threshold ∧
      ∀ e ∈ (place hashOne c entry).1.entries, e ∈ c.entries ∨ e = entry := by
  unfold place
  split
  · exact ⟨rfl,fun e member => (List.mem_append.mp member).imp_right List.mem_singleton.mp⟩
  · exact ⟨rfl,fun e member => List.mem_or_eq_of_mem_set member⟩

end SemanticClassifier.TextCacheLocks

namespace SemanticClassifier.Prefiltered
open Classify Interleaving Service TextCacheLocks

variable {τ φ σ : Type} [DecidableEq τ]

-- L2 returns only what was inserted into it before, under the core's tag.
def SemanticRecalls (core : ServiceCore) (s : Service.State τ φ σ) : Service.Action τ φ σ → Prop
  | .semanticLookup _ (some hit) => ∃ vector, (vector,hit,core.tag) ∈ s.semanticInserts
  | _ => True

-- The share of the slots in which two signatures of one length agree.
def alike (sig other : Prefilter.Signature) : ℚ :=
  if sig.slots.length = other.slots.length then
    ((sig.slots.zip other.slots).countP fun pair => pair.1 == pair.2 : ℚ) / sig.slots.length
  else 0

theorem jaccard_alike (sig other : Prefilter.Signature) : sig.jaccard other = alike sig other := by
  unfold Prefilter.Signature.jaccard alike
  by_cases same : sig.slots.length = other.slots.length
  · cases slots : sig.slots with
    | nil => simp
    | cons slot rest =>
        rw [slots] at same
        simp [same]
  · simp [same]

section Statement
variable (core : ServiceCore) (runtime : ClassifierRuntime φ σ)
variable (whole : List (Service.State τ φ σ × Service.Action τ φ σ)) (threshold : ℚ)

-- The backend's own result for a text the core was asked about.
def ComputedFor (origin : ClassificationInput) (vector : Embedding φ) (result : ClassificationResult σ) : Prop :=
  origin ∈ asked whole ∧ Computes runtime (normalize origin).text vector result

-- What the ring may hold: nothing that is itself an approximation.
structure Learnt (e : TextCache.Entry (ClassificationResult σ)) : Prop where
  tag : e.identity = core.tag
  computed : ∃ origin vector, ComputedFor runtime whole origin vector e.result ∧
    e.sig = core.signature (normalize origin).text

def Near (text : String) (result : ClassificationResult σ) : Prop :=
  ∃ origin vector, ComputedFor runtime whole origin vector result ∧
    threshold ≤ alike (core.signature text) (core.signature (normalize origin).text)

-- Where the answer for a text comes from.
inductive Traced (text : String) (result : ClassificationResult σ) : Prop where
  | own {origin : ClassificationInput} {vector : Embedding φ} :
      ComputedFor runtime whole origin vector result → (normalize origin).text = text → Traced text result
  | near : Near core runtime whole threshold text result → Traced text result
  | semantic {before : Service.State τ φ σ} {t : τ} {input origin : ClassificationInput}
      {key vector : Embedding φ} :
      (before,.semanticLookup t (some result)) ∈ whole → before.stage t = .querying input key →
      (normalize input).text = text → (vector,result,core.tag) ∈ before.semanticInserts →
      ComputedFor runtime whole origin vector result → Traced text result

-- A call of a thread is about the input it is classifying.
def Proper (stage : Stage φ σ) : Call (ClassificationResult σ) → Prop
  | .lookup sig identity => ∃ input, stage.input = some input ∧
    sig = core.signature (normalize input).text ∧ identity = core.tag
  | .insert sig result identity => Learnt core runtime whole ⟨sig,identity,result⟩

def Told (stage : Stage φ σ) (answer : Option (ClassificationResult σ)) : Prop :=
  ∀ result, answer = some result → ∃ input, stage.input = some input ∧
    Near core runtime whole threshold (normalize input).text result

structure Supplied (s : State τ φ σ) : Prop where
  entrusted : Entrusted core runtime (asked whole) (fun input outcome => ∀ result, outcome = .ok result →
    Traced core runtime whole threshold (normalize input).text result) s.core
  clamped : s.tier.cache.threshold = threshold
  entries : ∀ e ∈ s.tier.cache.entries, Learnt core runtime whole e
  calls : ∀ t, ∀ call ∈ (s.tier.pc t).pending.toList ++ s.tier.program t,
    Proper core runtime whole (s.core.stage t) call
  told : ∀ t, ∀ answer ∈ s.tier.answers t ++ (s.tier.pc t).answer.toList,
    Told core runtime whole threshold (s.core.stage t) answer
  outside : ∀ t, s.inside t = false → s.tier.pc t = .idle ∧ s.tier.program t = [] ∧ s.tier.answers t = []
  semantic : ∀ vector result tag, (vector,result,tag) ∈ s.core.semanticInserts →
    ∃ origin, ComputedFor runtime whole origin vector result

end Statement

variable {core : ServiceCore} {hashOne : UInt64 × List UInt64 → UInt64} {runtime : ClassifierRuntime φ σ}
variable {whole : List (Service.State τ φ σ × Service.Action τ φ σ)} {threshold : ℚ} {s next : State τ φ σ}

-- A thread moves only its own stage.
theorem step_stage {s next : Service.State τ φ σ} (step : Service.Step core s action next) :
    ∃ after, next.stage = Function.update s.stage action.thread after := by
  cases Service.step_change core step with
  | @recorded t input key outcome path place inside => cases path <;> exact ⟨_,rfl⟩
  | _ => exact ⟨_,rfl⟩

omit [DecidableEq τ] in
theorem Supplied.computed (supplied : Supplied core runtime whole threshold s) (textual : Textual runtime)
    (place : s.core.stage t = .writing input vector result ∨ s.core.stage t = .populating input vector result) :
    ComputedFor runtime whole input vector result := by
  have hand := supplied.entrusted.hand t
  have keyed := supplied.entrusted.keyed t input
  rcases place with place | place <;> rw [place] at hand keyed
  · exact ⟨(keyed rfl).1,computes_text textual hand.1 hand.2⟩
  · exact ⟨(keyed rfl).1,computes_text textual hand.1 hand.2⟩

-- What the core does in a step, and what that leaves of the tier's part.
theorem Supplied.core_step (supplied : Supplied core runtime whole threshold s) (textual : Textual runtime)
    (free : CollisionFree core (asked whole)) {action : Service.Action τ φ σ} {after : Service.State τ φ σ}
    (member : (s.core,action) ∈ whole) (answers : Answers runtime s.core action)
    (recalls : SemanticRecalls core s.core action)
    (hits : ∀ t hit, action = .prefilterLookup t (some hit) →
      Told core runtime whole threshold (s.core.stage t) (some hit))
    (step : Service.Step core s.core action after) :
    Entrusted core runtime (asked whole) (fun input outcome => ∀ result, outcome = .ok result →
      Traced core runtime whole threshold (normalize input).text result) after ∧
    ∀ vector result tag, (vector,result,tag) ∈ after.semanticInserts →
      ∃ origin, ComputedFor runtime whole origin vector result := by
  constructor
  · refine step_entrusted free ?_ supplied.entrusted ?_ answers ?_ step
    · intro a b outcome same traced result equal
      exact same ▸ traced result equal
    · rintro t input rfl
      exact ⟨s.core,t,member⟩
    · rintro t outcome input given here result rfl
      cases Service.step_change core step with
      | prefilterHit place taken =>
          cases Option.some.inj given
          obtain ⟨also,mine,near⟩ := hits t result rfl result rfl
          cases Option.some.inj (mine.symm.trans here)
          exact .near near
      | semanticHit place taken =>
          cases Option.some.inj given
          obtain ⟨vector,inserted⟩ := recalls
          obtain ⟨origin,computed⟩ := supplied.semantic _ _ _ inserted
          rw [place] at here
          cases here
          exact .semantic member place rfl inserted computed
      | wrotePrefilter place taken =>
          simp only [gives,place,Option.some.injEq,Prod.mk.injEq,Except.ok.injEq] at given
          obtain ⟨rfl,rfl⟩ := given
          have computed := supplied.computed textual (.inr place)
          rw [place] at here
          cases here
          exact .own computed rfl
      | _ => cases given
  · intro vector result tag inserted
    rcases (step_inserts step).2 with same | ⟨t,input,key,computed,rfl,place,grown⟩
    · exact supplied.semantic _ _ _ (same ▸ inserted)
    · rw [grown] at inserted
      rcases List.mem_cons.mp inserted with new | old
      · cases new
        exact ⟨input,supplied.computed textual (.inl place)⟩
      · exact supplied.semantic _ _ _ old

-- One operation on the cache's locks.
theorem Supplied.locked (supplied : Supplied core runtime whole threshold s) (inside : s.inside t = true)
    {tier : TextCacheLocks.State τ (ClassificationResult σ)} (step : TextCacheLocks.Step hashOne s.tier t tier) :
    Supplied core runtime whole threshold {s with tier := tier} := by
  obtain ⟨n,_,turn⟩ := step_turn step
  have others {after : Pc (ClassificationResult σ)} {rest : List (Call (ClassificationResult σ))}
      {told : List (Option (ClassificationResult σ))} (moved : Moved s.tier t after rest told tier) :
      ∀ u, u ≠ t → tier.pc u = s.tier.pc u ∧ tier.program u = s.tier.program u ∧
        tier.answers u = s.tier.answers u := by
    intro u other
    rw [moved.pc,moved.program,moved.answers]
    exact ⟨Function.update_of_ne other _ _,Function.update_of_ne other _ _,Function.update_of_ne other _ _⟩
  have mine {after : Pc (ClassificationResult σ)} {rest : List (Call (ClassificationResult σ))}
      {told : List (Option (ClassificationResult σ))} (moved : Moved s.tier t after rest told tier) :
      tier.pc t = after ∧ tier.program t = rest ∧ tier.answers t = told := by
    rw [moved.pc,moved.program,moved.answers]
    exact ⟨Function.update_self ..,Function.update_self ..,Function.update_self ..⟩
  have assembled {after : Pc (ClassificationResult σ)} {rest : List (Call (ClassificationResult σ))}
      {told : List (Option (ClassificationResult σ))} (moved : Moved s.tier t after rest told tier)
      (same : tier.cache.threshold = s.tier.cache.threshold)
      (entries : ∀ e ∈ tier.cache.entries, Learnt core runtime whole e)
      (calls : ∀ call ∈ after.pending.toList ++ rest, Proper core runtime whole (s.core.stage t) call)
      (answers : ∀ answer ∈ told ++ after.answer.toList,
        Told core runtime whole threshold (s.core.stage t) answer) :
      Supplied core runtime whole threshold {s with tier := tier} := by
    obtain ⟨pc,program,handed⟩ := mine moved
    refine ⟨supplied.entrusted,same.trans supplied.clamped,entries,?_,?_,?_,supplied.semantic⟩
    · intro u
      by_cases own : u = t
      · subst own
        rw [pc,program]
        exact calls
      · rw [(others moved u own).1,(others moved u own).2.1]
        exact supplied.calls u
    · intro u
      by_cases own : u = t
      · subst own
        rw [pc,handed]
        exact answers
      · rw [(others moved u own).1,(others moved u own).2.2]
        exact supplied.told u
    · intro u out
      have own : u ≠ t := by
        rintro rfl
        exact absurd (inside.symm.trans out) (by decide)
      obtain ⟨one,two,three⟩ := others moved u own
      rw [one,two,three]
      exact supplied.outside u out
  cases turn with
  | quiet moved same calls answers _ _ =>
      refine assembled moved (congrArg _ same) (same ▸ supplied.entries) (calls ▸ supplied.calls t) ?_
      exact answers ▸ supplied.told t
  | @looked sig identity place moved same =>
      have pending := supplied.calls t
      have told := supplied.told t
      rw [place] at pending told
      refine assembled moved (congrArg _ same) (same ▸ supplied.entries) ?_ ?_
      · exact fun call member => pending call (List.mem_cons_of_mem _ member)
      · intro answer member
        rcases List.mem_append.mp member with old | new
        · exact told answer (List.mem_append_left _ old)
        · cases List.mem_singleton.mp new
          intro result hit
          obtain ⟨input,here,rfl,rfl⟩ := pending (.lookup sig identity) List.mem_cons_self
          obtain ⟨e,live,_,rfl,close⟩ := TextCache.lookup_live hit
          obtain ⟨origin,vector,computed,named⟩ := (supplied.entries e live).computed
          rw [jaccard_alike] at close
          exact ⟨input,here,origin,vector,computed,named ▸ supplied.clamped ▸ close⟩
  | @placed sig result identity pending silent _ _ moved written =>
      obtain ⟨same,entries⟩ := place_entries hashOne s.tier.cache ⟨sig,identity,result⟩
      have calls := supplied.calls t
      have told := supplied.told t
      rw [pending] at calls
      rw [silent] at told
      refine assembled moved (written ▸ same) ?_ ?_ told
      · intro e member
        rw [written] at member
        rcases entries e member with old | rfl
        · exact supplied.entries e old
        · exact calls _ List.mem_cons_self
      · exact fun call member => calls call (List.mem_cons_of_mem _ member)
  | @indexed sig id place moved written =>
      have calls := supplied.calls t
      have told := supplied.told t
      rw [place] at calls told
      refine assembled moved (written ▸ rfl) ?_ calls told
      rw [written]
      exact supplied.entries

-- A step of the core by a thread that has nothing left in the tier.
theorem Supplied.cored (supplied : Supplied core runtime whole threshold s)
    {action : Service.Action τ φ σ} {after : Service.State τ φ σ}
    {tier : TextCacheLocks.State τ (ClassificationResult σ)} {inside : τ → Bool}
    (step : Service.Step core s.core action after)
    (entrusted : Entrusted core runtime (asked whole) (fun input outcome => ∀ result, outcome = .ok result →
      Traced core runtime whole threshold (normalize input).text result) after)
    (semantic : ∀ vector result tag, (vector,result,tag) ∈ after.semanticInserts →
      ∃ origin, ComputedFor runtime whole origin vector result)
    (cache : tier.cache = s.tier.cache)
    (mine : tier.pc action.thread = .idle ∧ tier.program action.thread = [] ∧ tier.answers action.thread = [])
    (others : ∀ u, u ≠ action.thread → tier.pc u = s.tier.pc u ∧ tier.program u = s.tier.program u ∧
      tier.answers u = s.tier.answers u ∧ inside u = s.inside u) :
    Supplied core runtime whole threshold ⟨after,tier,inside⟩ := by
  obtain ⟨stage,moved⟩ := step_stage step
  have kept (u : τ) (other : u ≠ action.thread) : after.stage u = s.core.stage u := by
    rw [moved,Function.update_of_ne other]
  refine ⟨entrusted,by rw [cache,supplied.clamped],by rw [cache]; exact supplied.entries,?_,?_,?_,semantic⟩
  · intro u call member
    by_cases own : u = action.thread
    · subst own
      simp [mine.1,mine.2.1,Pc.pending] at member
    · simp only [(others u own).1,(others u own).2.1,kept u own] at member ⊢
      exact supplied.calls u call member
  · intro u answer member
    by_cases own : u = action.thread
    · subst own
      simp [mine.1,mine.2.2,Pc.answer] at member
    · simp only [(others u own).1,(others u own).2.2.1,kept u own] at member ⊢
      exact supplied.told u answer member
  · intro u out
    by_cases own : u = action.thread
    · subst own
      exact mine
    · obtain ⟨one,two,three,four⟩ := others u own
      simp only [one,two,three]
      exact supplied.outside u (four ▸ out)

omit [DecidableEq τ] in
theorem asking_proper (supplied : Supplied core runtime whole threshold s) (textual : Textual runtime)
    (asks : asking core s t = some call) : Proper core runtime whole (s.core.stage t) call := by
  unfold asking at asks
  split at asks
  · rename_i input key slot place forward
    cases Option.some.inj asks
    exact ⟨input,by rw [place]; rfl,rfl,rfl⟩
  · rename_i input vector result place
    cases Option.some.inj asks
    exact ⟨rfl,input,vector,supplied.computed textual (.inr place),rfl⟩
  · cases asks

omit [DecidableEq τ] in
theorem finished_idle {tier : TextCacheLocks.State τ (ClassificationResult σ)} (done : finished tier t = true) :
    tier.pc t = .idle ∧ tier.program t = [] := by
  unfold finished at done
  split at done
  · exact ⟨by assumption,by assumption⟩
  · cases done

omit [DecidableEq τ] in
theorem returned_parts {action : Service.Action τ φ σ} (returns : returned s t = some action) :
    action.thread = t ∧ ∀ u hit, action = .prefilterLookup u (some hit) → s.tier.answers t = [some hit] := by
  unfold returned at returns
  split at returns
  · rename_i answer _ answers
    cases Option.some.inj returns
    refine ⟨rfl,fun u hit same => ?_⟩
    cases same
    exact answers
  · cases Option.some.inj returns
    exact ⟨rfl,nofun⟩
  · cases returns

theorem step_supplied {trace : List (State τ φ σ × Action τ φ σ)} (textual : Textual runtime)
    (free : CollisionFree core (asked whole)) (supplied : Supplied core runtime whole threshold s)
    (initial : coreTrace (trace ++ [(s,action)]) <+: whole)
    (answers : Met (Answers runtime) (coreTrace (trace ++ [(s,action)])))
    (recalls : Met (SemanticRecalls core) (coreTrace (trace ++ [(s,action)])))
    (step : Step core hashOne s action next) : Supplied core runtime whole threshold next := by
  have seen (act : Service.Action τ φ σ) (taken : coreAction s action = some act) :
      (s.core,act) ∈ coreTrace (trace ++ [(s,action)]) := by
    simp [coreTrace,projected,taken]
  cases step_change core hashOne step with
  | @ran act after out silent taken =>
      have member := seen act rfl
      have hits (t : τ) (hit : ClassificationResult σ) (same : act = .prefilterLookup t (some hit)) :
          Told core runtime whole threshold (s.core.stage t) (some hit) := by
        rw [same] at silent
        cases silent
      obtain ⟨entrusted,semantic⟩ := supplied.core_step textual free (initial.subset member)
        (answers _ member) (recalls _ member) hits taken
      exact supplied.cored taken entrusted semantic rfl (supplied.outside _ out) fun u _ => ⟨rfl,rfl,rfl,rfl⟩
  | @entered t call out asks =>
      obtain ⟨idle,empty,silent⟩ := supplied.outside t out
      have proper : Proper core runtime whole (s.core.stage t) call := asking_proper supplied textual asks
      refine ⟨supplied.entrusted,supplied.clamped,supplied.entries,?_,supplied.told,?_,supplied.semantic⟩
      · intro u also member
        by_cases own : u = t
        · subst own
          simp only [entered,idle,Pc.pending,Function.update_self,Option.toList_none,List.nil_append,
            List.mem_singleton] at member
          cases member
          exact proper
        · simp only [entered,Function.update_of_ne own] at member
          exact supplied.calls u also member
      · intro u free
        have own : u ≠ t := by
          rintro rfl
          simp [entered] at free
        simp only [entered,Function.update_of_ne own] at free ⊢
        exact supplied.outside u free
  | locked inside taken => exact supplied.locked inside taken
  | @left t act after inside done returns taken =>
      have member := seen act returns
      obtain ⟨thread,given⟩ := returned_parts returns
      obtain ⟨idle,empty⟩ := finished_idle done
      have hits (u : τ) (hit : ClassificationResult σ) (same : act = .prefilterLookup u (some hit)) :
          Told core runtime whole threshold (s.core.stage u) (some hit) := by
        have mine : u = t := by
          rw [same] at thread
          exact thread
        subst mine
        exact supplied.told u (some hit) (by simp [given u hit same])
      obtain ⟨entrusted,semantic⟩ := supplied.core_step textual free (initial.subset member)
        (answers _ member) (recalls _ member) hits taken
      subst thread
      refine supplied.cored taken entrusted semantic rfl ⟨idle,empty,Function.update_self ..⟩ fun u other => ?_
      exact ⟨rfl,rfl,Function.update_of_ne other _ _,Function.update_of_ne other _ _⟩

omit [DecidableEq τ] in
theorem start_supplied (capacity held : Nat) (bar : ℚ) :
    Supplied core runtime whole (max 0 (min bar 1)) (start τ φ σ capacity held bar) where
  entrusted := start_entrusted capacity
  clamped := rfl
  entries := nofun
  calls := nofun
  told := nofun
  outside := fun _ _ => ⟨rfl,rfl,rfl⟩
  semantic := nofun

omit [DecidableEq τ] in
theorem coreTrace_early (early late : List (State τ φ σ × Action τ φ σ)) :
    coreTrace early <+: coreTrace (early ++ late) := by
  rw [coreTrace,coreTrace,projected_append]
  exact List.prefix_append _ _

theorem path_supplied {trace : List (State τ φ σ × Action τ φ σ)} {bar : ℚ} (textual : Textual runtime)
    (free : CollisionFree core (asked whole))
    (path : Path (Step core hashOne) (start τ φ σ capacity held bar) trace s)
    (initial : coreTrace trace <+: whole) (answers : Met (Answers runtime) (coreTrace trace))
    (recalls : Met (SemanticRecalls core) (coreTrace trace)) :
    Supplied core runtime whole (max 0 (min bar 1)) s := by
  induction path with
  | nil => exact start_supplied capacity held bar
  | @snoc trace before action after prior step ih =>
      have shorter := coreTrace_early trace [(before,action)]
      have earlier := ih (shorter.trans initial) (answers.of_prefix shorter) (recalls.of_prefix shorter)
      exact step_supplied textual free earlier initial answers recalls step

-- What a call may be answered with.
structure Accounted (core : ServiceCore) (runtime : ClassifierRuntime φ σ)
    (whole : List (Service.State τ φ σ × Service.Action τ φ σ)) (threshold : ℚ) (input : ClassificationInput)
    (outcome : Outcome σ) : Prop where
  declined : input.contextCompleteness = .delta → outcome = .ok ⟨core.metadata.classifierId,
    core.metadata.modelRevision,core.metadata.tokenizerRevision,core.metadata.taxonomyRevision,.abstain,[]⟩
  traced : input.contextCompleteness ≠ .delta → ∀ result, outcome = .ok result →
    Traced core runtime whole threshold (normalize input).text result
  failed : ∀ e, outcome = .error e → runtime.classify (normalize input) = .error e

-- A text is computed, and L0 finds its result for another one: 101 of the 128 slots
-- of their signatures agree.
def hashWord (word : String) : UInt64 :=
  word.toList.foldl (fun h c => (h ^^^ c.toNat.toUInt64) * 0x100000001B3) 0xCBF29CE484222325

def hashBand (fed : UInt64 × List UInt64) : UInt64 := fed.2.foldl (fun h slot => h * 31 + slot) fed.1

def nearCore : ServiceCore :=
  ⟨pairMetadata,fun stream => Vector.replicate 32 stream.length.toUInt8,Prefilter.signature id hashWord⟩

def noon : String := "reset my badge at noon"

def noonPlease : String := "reset my badge at noon please"

def noonResult : ClassificationResult Nat := ⟨"domain","m","t","x",.ok,[⟨"law",22⟩]⟩

def consultation (steps : Nat) : List (Action Unit Nat Nat) :=
  .enter () :: List.replicate steps (.tier ()) ++ [.leave ()]

def nearActions : List (Action Unit Nat Nat) :=
  [.core (.classify () (textInput noon))] ++ List.replicate 4 (.core (.run ())) ++ consultation 4 ++
    [.core (.embed () (.ok ⟨[22],none⟩)),.core (.semanticLookup () none),.core (.rank () (.ok noonResult)),
      .core (.semanticInsert ())] ++ consultation 5 ++ List.replicate 7 (.core (.run ())) ++
    [.core (.record ()),.core (.classify () (textInput noonPlease))] ++
    List.replicate 4 (.core (.run ())) ++ consultation 4 ++ List.replicate 7 (.core (.run ())) ++
    [.core (.record ())]

abbrev NearTrace := List (State Unit Nat Nat × Action Unit Nat Nat)

section Near
variable {trace : NearTrace} {last : State Unit Nat Nat}

theorem near_asked {action : Service.Action Unit Nat Nat} {before : Service.State Unit Nat Nat}
    (taken : trace.map Prod.snd = nearActions) (member : (before,action) ∈ coreTrace trace)
    (direct : consults action = false) : .core action ∈ nearActions := by
  obtain ⟨s,act,row,does,_⟩ := mem_projected.mp member
  have named : act ∈ nearActions := by
    rw [← taken]
    exact List.mem_map_of_mem row
  cases act with
  | core also =>
      cases Option.some.inj does
      exact named
  | leave t =>
      have does : returned s t = some action := does
      unfold returned at does
      split at does
      · cases Option.some.inj does
        cases direct
      · cases Option.some.inj does
        cases direct
      · cases does
  | enter t | tier t => cases does

theorem near_free (taken : trace.map Prod.snd = nearActions) : CollisionFree nearCore (asked (coreTrace trace)) := by
  have texts : ∀ input ∈ asked (coreTrace trace),
      (normalize input).text = noon ∨ (normalize input).text = noonPlease := by
    rintro input ⟨s,t,member⟩
    have named := near_asked taken member rfl
    simp only [nearActions,consultation,List.mem_append,List.mem_cons,List.mem_replicate,Action.core.injEq,
      Service.Action.classify.injEq,reduceCtorEq,List.not_mem_nil,and_false,false_or,or_false] at named
    rcases named with ⟨_,rfl⟩ | ⟨_,rfl⟩ <;> decide
  have apart : ∀ a b : String, (a = noon ∨ a = noonPlease) → (b = noon ∨ b = noonPlease) →
      nearCore.blake3 (Cache.keyStream nearCore.metadata.cacheIdentity a) =
        nearCore.blake3 (Cache.keyStream nearCore.metadata.cacheIdentity b) → a = b := by
    rintro a b (rfl | rfl) (rfl | rfl) <;> decide
  rintro _ ⟨a,first,rfl⟩ _ ⟨b,second,rfl⟩ same
  exact congrArg _ (apart _ _ (texts a first) (texts b second) same)

theorem near_recalls (taken : trace.map Prod.snd = nearActions) :
    Met (SemanticRecalls nearCore) (coreTrace trace) := by
  rintro ⟨before,action⟩ member
  cases action with
  | semanticLookup t answer =>
      have named := near_asked taken member rfl
      simp only [nearActions,consultation,List.mem_append,List.mem_cons,List.mem_replicate,Action.core.injEq,
        Service.Action.semanticLookup.injEq,reduceCtorEq,List.not_mem_nil,and_false,false_or,or_false] at named
      rw [named.2]
      trivial
  | _ => trivial

end Near

def answersPlease : Stage Nat Nat → Bool
  | .answered input (.ok _) => decide ((normalize input).text = noonPlease ∧ input.contextCompleteness ≠ .delta)
  | _ => false

def hitsFirst : Service.State Unit Nat Nat × Service.Action Unit Nat Nat → Bool
  | (_,.prefilterLookup _ (some _)) => true
  | _ => false

theorem answersPlease_parts {stage : Stage Nat Nat} (same : answersPlease stage = true) :
    ∃ input result, stage = .answered input (.ok result) ∧ (normalize input).text = noonPlease ∧
      input.contextCompleteness ≠ .delta := by
  unfold answersPlease at same
  split at same
  · rename_i input result
    exact ⟨input,result,rfl,of_decide_eq_true same⟩
  · cases same

theorem hitsFirst_parts {row : Service.State Unit Nat Nat × Service.Action Unit Nat Nat}
    (same : hitsFirst row = true) : ∃ before t hit, row = (before,.prefilterLookup t (some hit)) := by
  unfold hitsFirst at same
  split at same
  · exact ⟨_,_,_,rfl⟩
  · cases same

def nearHolds (run : NearTrace × State Unit Nat Nat) : Bool :=
  decide (Met (Answers pairRuntime) (coreTrace run.1)) && answersPlease (run.2.core.stage ()) &&
    (coreTrace run.1).any hitsFirst

theorem near_followed : ∃ trace last,
    follow (advance nearCore hashBand) (start Unit Nat Nat 1 1 (3 / 4)) nearActions = some (trace,last) ∧
    nearHolds (trace,last) = true := by
  have holds : ((follow (advance nearCore hashBand) (start Unit Nat Nat 1 1 (3 / 4)) nearActions).any
      nearHolds) = true := by decide +kernel
  obtain ⟨run,same,holds⟩ := (Option.any_eq_true _ _).mp holds
  exact ⟨run.1,run.2,same,holds⟩

end SemanticClassifier.Prefiltered
