import SemanticClassifier.ServiceAccounting
import SemanticClassifier.SharedCacheSolo

namespace SemanticClassifier.Service
open Classify Flow Interleaving

variable {τ φ σ : Type} [DecidableEq τ] {core : ServiceCore}

-- Who comes into a call through the cache, and who is through with it.
def turn (s : State τ φ σ) : Action τ φ σ → Option (Turn ClassificationInput)
  | .classify _ input => if input.contextCompleteness = .delta then none else some (.enter input)
  | .record t => (s.stage t).input.map .leave
  | _ => none

def turns (trace : List (State τ φ σ × Action τ φ σ)) : List (Turn ClassificationInput) :=
  trace.filterMap fun row => turn row.1 row.2

def begun (trace : List (State τ φ σ × Action τ φ σ)) : List ClassificationInput := arrivals (turns trace)

def ended (trace : List (State τ φ σ × Action τ φ σ)) : List ClassificationInput := departures (turns trace)

omit [DecidableEq τ] in
theorem turns_quiet {s : State τ φ σ} (quiet : turn s action = none)
    (trace : List (State τ φ σ × Action τ φ σ)) : turns (trace ++ [(s,action)]) = turns trace := by
  simp [turns,quiet]

omit [DecidableEq τ] in
theorem turns_snoc {s : State τ φ σ} (here : turn s action = some e)
    (trace : List (State τ φ σ × Action τ φ σ)) : turns (trace ++ [(s,action)]) = turns trace ++ [e] := by
  simp [turns,here]

omit [DecidableEq τ] in
theorem begun_entered {s : State τ φ σ} (here : turn s action = some (.enter input))
    (trace : List (State τ φ σ × Action τ φ σ)) : begun (trace ++ [(s,action)]) = begun trace ++ [input] ∧
      ended (trace ++ [(s,action)]) = ended trace := by
  simp [begun,ended,arrivals,departures,turns_snoc here,Turn.target,Turn.source]

omit [DecidableEq τ] in
theorem begun_left {s : State τ φ σ} (here : turn s action = some (.leave input))
    (trace : List (State τ φ σ × Action τ φ σ)) : begun (trace ++ [(s,action)]) = begun trace ∧
      ended (trace ++ [(s,action)]) = ended trace ++ [input] := by
  simp [begun,ended,arrivals,departures,turns_snoc here,Turn.target,Turn.source]

-- A step that begins no call and ends none.
structure Quiet (s : State τ φ σ) (action : Action τ φ σ) (next : State τ φ σ) : Prop where
  input : ∀ t, (next.stage t).input = (s.stage t).input
  counters : next.cacheHits = s.cacheHits ∧ next.cacheMisses = s.cacheMisses ∧
    next.cacheCoalesced = s.cacheCoalesced
  cache : next.cache = s.cache ∨ ∃ below, Cache.Step s.cache below next.cache ∧
    (∀ t k, below ≠ .call t k) ∧ (fails action = false → Cache.Succeeds below) ∧
    (s.stage below.thread).input.isSome

theorem input_update {stage : τ → Stage φ σ} {after : Stage φ σ} (same : after.input = (stage t).input)
    (u : τ) : (Function.update stage t after u).input = (stage u).input :=
  (Function.forall_update_iff stage (p := fun u after => after.input = (stage u).input)).mpr
    ⟨same,fun _ _ => rfl⟩ u

omit [DecidableEq τ] in
theorem ready_input {stage : Stage φ σ} (ready : stage.Ready) : stage.input = none := by
  rcases ready.cases with rfl | ⟨_,_,rfl⟩ <;> rfl

theorem step_quiet {s next : State τ φ σ} (linked : Linked s) (step : Step core s action next)
    (none : turn s action = none) : Quiet s action next := by
  cases step_change core step with
  | @declined t input ready _ =>
      exact ⟨input_update (ready_input ready).symm,⟨rfl,rfl,rfl⟩,.inl rfl⟩
  | called _ complete _ => simp [turn,complete] at none
  | @ran t cache taken =>
      obtain ⟨input,place⟩ := linked.waiting taken (.inl rfl)
      exact ⟨input_update rfl,⟨rfl,rfl,rfl⟩,.inr ⟨_,taken,by simp,fun _ => trivial,
        by simp [Cache.Action.thread,place,Stage.input]⟩⟩
  | @woke t cache taken =>
      obtain ⟨input,place⟩ := linked.waiting taken (.inr rfl)
      exact ⟨input_update rfl,⟨rfl,rfl,rfl⟩,.inr ⟨_,taken,by simp,fun _ => trivial,
        by simp [Cache.Action.thread,place,Stage.input]⟩⟩
  | prefilterHit place taken | semanticHit place taken | wrotePrefilter place taken =>
      exact ⟨input_update (by simp [place,Stage.input]),⟨rfl,rfl,rfl⟩,.inr ⟨_,taken,by simp,
        fun _ => trivial,by simp [Cache.Action.thread,place,Stage.input]⟩⟩
  | embedFailed place taken | rankFailed place taken =>
      exact ⟨input_update (by simp [place,Stage.input]),⟨rfl,rfl,rfl⟩,.inr ⟨_,taken,by simp,
        by simp [fails],by simp [Cache.Action.thread,place,Stage.input]⟩⟩
  | prefilterMissed place _ | embedded place | semanticMissed place | ranked place | wroteSemantic place =>
      exact ⟨input_update (by simp [place,Stage.input]),⟨rfl,rfl,rfl⟩,.inl rfl⟩
  | recorded place _ => simp [turn,place,Stage.input] at none

def Cached (s : State τ φ σ) (k : Cache.CacheKey) : Prop := k ∈ s.cache.inner.entries

instance (s : State τ φ σ) (k : Cache.CacheKey) : Decidable (Cached s k) :=
  inferInstanceAs (Decidable (k ∈ s.cache.inner.entries))

-- A stretch of a run in which no two calls have the same key and nothing is
-- evicted, from `origin` on. A call hits exactly if its key was cached there.
structure Window (core : ServiceCore) (kept : Finset Cache.CacheKey) (origin : State τ φ σ)
    (trace : List (State τ φ σ × Action τ φ σ)) (s : State τ φ σ) : Prop where
  linked : Linked s
  room : Cache.Room kept s.cache.inner
  keyed : Keyed core {input | input ∈ begun trace} s
  alone : ∀ t, (s.stage t).input.isSome → (s.cache.pc t).Alone (Cached origin) (Cached s)
  apart : ∀ t u a b, (s.stage t).input = some a → (s.stage u).input = some b →
    core.key a = core.key b → t = u
  old : ∀ k, Cached origin k → Cached s k
  new : ∀ k, Cached s k → Cached origin k ∨ k ∈ (begun trace).map core.key
  landed : ∀ input ∈ ended trace, Cached s (core.key input)
  walk : Walk Turn.source Turn.target none (turns trace) fun t => (s.stage t).input
  hits : s.cacheHits = origin.cacheHits + (ended trace).countP fun input => Cached origin (core.key input)
  misses : s.cacheMisses = origin.cacheMisses +
    (ended trace).countP fun input => ¬ Cached origin (core.key input)
  coalesced : s.cacheCoalesced = origin.cacheCoalesced

variable {kept : Finset Cache.CacheKey} {origin : State τ φ σ}

omit [DecidableEq τ] in
theorem busy_input {s : State τ φ σ} (linked : Linked s) (busy : ¬ (s.cache.pc t).Ready) :
    ∃ input, (s.stage t).input = some input := by
  cases place : s.stage t with
  | idle | answered => exact absurd (linked.ready t (by simp [place,Stage.Ready])) busy
  | _ => exact ⟨_,rfl⟩

theorem Window.solo {trace : List (State τ φ σ × Action τ φ σ)} {s : State τ φ σ}
    (window : Window core kept origin trace s) (here : (s.stage t).input.isSome) : Cache.Solo s.cache t := by
  intro u k mine designated
  obtain ⟨a,input⟩ := Option.isSome_iff_exists.mp here
  have busy : ¬ (s.cache.pc u).Ready := by
    intro ready
    rcases ready.cases with place | ⟨_,_,_,place⟩ <;> rw [place] at designated <;> exact designated.elim
  obtain ⟨b,also⟩ := busy_input window.linked busy
  have keyA := (window.keyed t a input).2
  have keyB := (window.keyed u b also).2
  rw [mine] at keyA
  rw [Cache.designated_key designated] at keyB
  exact window.apart u t b a also input ((Option.some.inj keyB).symm.trans (Option.some.inj keyA))

-- What the cache machine does in a quiet step of the window.
theorem Window.grow {trace : List (State τ φ σ × Action τ φ σ)} {s next : State τ φ σ}
    (window : Window core kept origin trace s) (members : ∀ input ∈ begun trace, core.key input ∈ kept)
    (quiet : Quiet s action next) (works : fails action = false) :
    Cache.Room kept next.cache.inner ∧ (∀ k, Cached s k → Cached next k) ∧
      (∀ k, Cached next k → Cached s k ∨ k ∈ (begun trace).map core.key) ∧
      (∀ t, (next.cache.pc t).key = (s.cache.pc t).key) ∧
      ∀ t, (s.stage t).input.isSome → (next.cache.pc t).Alone (Cached origin) (Cached next) := by
  rcases quiet.cache with same | ⟨below,taken,inside,succeeds,busy⟩
  · unfold Cached
    rw [same]
    exact ⟨window.room,fun _ there => there,fun _ there => .inl there,fun _ => rfl,window.alone⟩
  · obtain ⟨input,here⟩ := Option.isSome_iff_exists.mp busy
    obtain ⟨asked,key⟩ := window.keyed below.thread input here
    have growing : Cache.Growing kept s.cache below.thread next.cache := by
      refine Cache.step_growing window.room (fun k mine => ?_) taken
      rw [key] at mine
      cases mine
      exact members input asked
    refine ⟨growing.room,growing.grows,fun k there => ?_,Cache.step_key window.linked.valid taken inside,
      fun t also => ?_⟩
    · rcases growing.new k there with before | designated
      · exact .inl before
      · rw [Cache.designated_key designated] at key
        cases key
        exact .inr (List.mem_map_of_mem asked)
    · exact Cache.step_alone window.linked.valid window.old growing (window.solo also) inside
        (succeeds works) (window.alone t also) taken

theorem Window.quiet {trace : List (State τ φ σ × Action τ φ σ)} {s next : State τ φ σ}
    (window : Window core kept origin trace s) (members : ∀ input ∈ begun trace, core.key input ∈ kept)
    (step : Step core s action next) (none : turn s action = none) (works : fails action = false) :
    Window core kept origin (trace ++ [(s,action)]) next := by
  have quiet := step_quiet window.linked step none
  obtain ⟨room,grows,new,keys,alone⟩ := window.grow members quiet works
  have same := turns_quiet none trace
  have begins : begun (trace ++ [(s,action)]) = begun trace := congrArg arrivals same
  have ends : ended (trace ++ [(s,action)]) = ended trace := congrArg departures same
  refine ⟨step_linked window.linked step,room,?_,?_,?_,fun k there => grows k (window.old k there),?_,?_,?_,
    ?_,?_,?_⟩
  · intro t input here
    rw [quiet.input] at here
    rw [begins,keys]
    exact window.keyed t input here
  · intro t here
    rw [quiet.input] at here
    exact alone t here
  · intro t u a b one two
    rw [quiet.input] at one two
    exact window.apart t u a b one two
  · intro k there
    rw [begins]
    rcases new k there with before | mine
    · exact window.new k before
    · exact .inr mine
  · intro input inside
    rw [ends] at inside
    exact grows _ (window.landed input inside)
  · rw [same]
    simpa only [quiet.input] using window.walk
  · rw [ends,quiet.counters.1,window.hits]
  · rw [ends,quiet.counters.2.1,window.misses]
  · rw [quiet.counters.2.2,window.coalesced]

theorem input_moved (s : State τ φ σ) (t : τ) (stage : Stage φ σ) (u : τ) :
    ((goto s t stage).stage u).input = Function.update (fun u => (s.stage u).input) t stage.input u := by
  simp only [goto,Function.update_apply]
  split <;> rfl

-- A call under a key nobody has asked for in this window.
theorem Window.called {trace : List (State τ φ σ × Action τ φ σ)} {s next : State τ φ σ}
    (window : Window core kept origin trace s) (fresh : core.key input ∉ (begun trace).map core.key)
    (step : Step core s (.classify t input) next)
    (enters : turn s (.classify t input) = some (.enter input)) :
    Window core kept origin (trace ++ [(s,.classify t input)]) next := by
  obtain ⟨begins,ends⟩ := begun_entered enters trace
  have linked := step_linked window.linked step
  cases step_change core step with
  | declined _ delta => simp [turn,delta] at enters
  | @called _ _ cache ready complete taken =>
      have out := ready_input ready
      have moved : cache = Cache.goto s.cache t (.lookup (core.key input)) := by
        cases Cache.step_change taken
        rfl
      have differs (u : τ) (b : ClassificationInput) (here : (s.stage u).input = some b) :
          core.key b ≠ core.key input := by
        intro same
        apply fresh
        rw [← same]
        exact List.mem_map_of_mem (window.keyed u b here).1
      have stages := input_moved {s with cache := cache} t (.waiting input)
      have grown : Keyed core {other | other ∈ begun trace ++ [input]} s := by
        intro u b here
        obtain ⟨inside,key⟩ := window.keyed u b here
        exact ⟨List.mem_append_left _ inside,key⟩
      subst moved
      refine ⟨linked,window.room,?_,?_,?_,window.old,?_,?_,?_,?_,?_,window.coalesced⟩
      · rw [begins]
        exact grown.called (List.mem_append_right _ (by simp)) taken
      · intro u here
        rw [stages] at here
        by_cases mine : u = t
        · subst mine
          simp only [goto,Cache.goto,Function.update_self]
          intro there
          exact (window.new _ there).resolve_right fresh
        · rw [Function.update_of_ne mine] at here
          simp only [goto,Cache.goto,Function.update_of_ne mine]
          exact window.alone u here
      · intro u v a b one two
        rw [stages] at one two
        exact apart_entered window.apart differs t u v a b one two
      · intro k there
        rw [begins,List.map_append]
        rcases window.new k there with before | mine
        · exact .inl before
        · exact .inr (List.mem_append_left _ mine)
      · rw [ends]
        exact window.landed
      · rw [turns_snoc enters,funext stages]
        exact window.walk.move out
      · rw [ends]
        exact window.hits
      · rw [ends]
        exact window.misses

omit [DecidableEq τ] in
theorem count_alone (s : State τ φ σ) {path : Cache.CachePath} {warm : Prop} [Decidable warm]
    (alone : (path = .hit ∧ warm) ∨ (path = .miss ∧ ¬ warm)) :
    (count s path).cacheHits = s.cacheHits + (decide warm).toNat ∧
      (count s path).cacheMisses = s.cacheMisses + (decide ¬ warm).toNat ∧
      (count s path).cacheCoalesced = s.cacheCoalesced := by
  rcases alone with ⟨rfl,here⟩ | ⟨rfl,here⟩
  · simp [count,here]
  · simp [count,here]

theorem Window.recorded {trace : List (State τ φ σ × Action τ φ σ)} {s next : State τ φ σ}
    (window : Window core kept origin trace s) (step : Step core s (.record t) next)
    (leaves : turn s (.record t) = some (.leave input)) :
    Window core kept origin (trace ++ [(s,.record t)]) next := by
  obtain ⟨begins,ends⟩ := begun_left leaves trace
  have linked := step_linked window.linked step
  cases step_change core step with
  | @recorded _ also key outcome path place inside =>
      have here : (s.stage t).input = some also := by rw [place]; rfl
      have same : also = input := by simpa [turn,here] using leaves
      subst same
      have cache : (goto (count s path) t (.answered also outcome)).cache = s.cache := by cases path <;> rfl
      have stage : (count s path).stage = s.stage := by cases path <;> rfl
      have stages (u : τ) : ((goto (count s path) t (.answered also outcome)).stage u).input =
          Function.update (fun u => (s.stage u).input) t none u := by
        rw [input_moved,stage]
        rfl
      have still (u : τ) (b : ClassificationInput)
          (there : ((goto (count s path) t (.answered also outcome)).stage u).input = some b) :
          (s.stage u).input = some b := by
        rw [stages] at there
        have before := still_inside there
        exact before
      have named := (window.keyed t also here).2
      have alone := window.alone t (by rw [here]; rfl)
      rw [inside] at named alone
      cases named
      have cached : Cached (goto (count s path) t (.answered also outcome)) = Cached s := by
        unfold Cached
        rw [cache]
      obtain ⟨hits,misses,coalesced⟩ := count_alone s alone.2
      refine ⟨linked,cache ▸ window.room,?_,?_,?_,?_,?_,?_,?_,?_,?_,coalesced.trans window.coalesced⟩
      · intro u b there
        rw [begins,cache]
        exact window.keyed u b (still u b there)
      · intro u there
        obtain ⟨b,input⟩ := Option.isSome_iff_exists.mp there
        rw [cached,cache]
        exact window.alone u (by rw [still u b input]; rfl)
      · intro u v a b one two
        exact window.apart u v a b (still u a one) (still v b two)
      · rw [cached]
        exact window.old
      · rw [cached,begins]
        exact window.new
      · intro other there
        rw [cached]
        rw [ends] at there
        rcases List.mem_append.mp there with before | last
        · exact window.landed other before
        · obtain rfl := List.mem_singleton.mp last
          exact alone.1
      · rw [turns_snoc leaves,funext stages]
        exact window.walk.move here
      · rw [ends,List.countP_append,List.countP_singleton,← Nat.add_assoc,← window.hits]
        exact hits.trans (by split <;> simp_all)
      · rw [ends,List.countP_append,List.countP_singleton,← Nat.add_assoc,← window.misses]
        exact misses.trans (by split <;> simp_all)

omit [DecidableEq τ] in
theorem quiescent_input {s : State τ φ σ} (idle : Quiescent s) (t : τ) : (s.stage t).input = none :=
  ready_input (idle t)

theorem Window.start (linked : Linked origin) (room : Cache.Room kept origin.cache.inner)
    (idle : Quiescent origin) : Window core kept origin [] origin := by
  have outside : (fun t => (origin.stage t).input) = fun _ => none :=
    funext fun t => quiescent_input idle t
  refine ⟨linked,room,?_,?_,?_,fun _ there => there,fun _ there => .inl there,?_,?_,rfl,rfl,rfl⟩
  · intro t input here
    rw [quiescent_input idle t] at here
    cases here
  · intro t here
    rw [quiescent_input idle t] at here
    cases here
  · intro t u a b one
    rw [quiescent_input idle t] at one
    cases one
  · intro input inside
    cases inside
  · rw [outside]
    exact .start

theorem step_window {trace : List (State τ φ σ × Action τ φ σ)} {s next : State τ φ σ}
    (window : Window core kept origin trace s)
    (distinct : ((begun (trace ++ [(s,action)])).map core.key).Nodup)
    (members : ∀ input ∈ begun trace, core.key input ∈ kept) (works : fails action = false)
    (step : Step core s action next) : Window core kept origin (trace ++ [(s,action)]) next := by
  cases mark : turn s action with
  | none => exact window.quiet members step mark works
  | some e =>
      cases e with
      | enter input =>
          have fresh : core.key input ∉ (begun trace).map core.key := by
            rw [(begun_entered mark trace).1,List.map_append] at distinct
            exact fun inside => List.disjoint_of_nodup_append distinct inside (by simp)
          cases action with
          | classify t asked =>
              have same : asked = input := by
                by_cases delta : asked.contextCompleteness = .delta
                · simp [turn,delta] at mark
                · simpa [turn,delta] using mark
              subst same
              exact window.called fresh step mark
          | record t => simp [turn] at mark
          | _ => cases mark
      | leave input =>
          cases action with
          | classify t asked =>
              by_cases delta : asked.contextCompleteness = .delta
              · simp [turn,delta] at mark
              · simp [turn,delta] at mark
          | record t => exact window.recorded step mark
          | _ => cases mark

theorem path_window {trace : List (State τ φ σ × Action τ φ σ)} {s : State τ φ σ} (linked : Linked origin)
    (room : Cache.Room kept origin.cache.inner) (idle : Quiescent origin)
    (path : Path (Step core) origin trace s) (distinct : ((begun trace).map core.key).Nodup)
    (members : ∀ input ∈ begun trace, core.key input ∈ kept)
    (works : Met (fun _ action => fails action = false) trace) : Window core kept origin trace s := by
  induction path with
  | nil => exact .start linked room idle
  | @snoc trace before action after prior step ih =>
      obtain ⟨earlier,now⟩ := met_snoc.mp works
      have initial : begun trace <+: begun (trace ++ [(before,action)]) := by
        cases mark : turn before action with
        | none =>
            rw [begun,begun,turns_quiet mark]
        | some e =>
            rw [begun,begun,turns_snoc mark,arrivals,arrivals,List.filterMap_append]
            exact List.prefix_append _ _
      have inside : ∀ input ∈ begun trace, core.key input ∈ kept :=
        fun input there => members input (initial.subset there)
      exact step_window (ih ((initial.map core.key).sublist.nodup distinct) inside earlier)
        distinct inside now step

-- From one quiescent state to another, with pairwise different keys and no
-- eviction: the counters tell exactly which keys were cached before.
theorem window_counted {trace : List (State τ φ σ × Action τ φ σ)} {s : State τ φ σ}
    (window : Window core kept origin trace s) (idle : Quiescent s) :
    s.cacheHits = origin.cacheHits + (begun trace).countP (fun input => Cached origin (core.key input)) ∧
      s.cacheMisses = origin.cacheMisses +
        (begun trace).countP (fun input => ¬ Cached origin (core.key input)) ∧
      s.cacheCoalesced = origin.cacheCoalesced ∧
      ∀ k, Cached s k ↔ Cached origin k ∨ k ∈ (begun trace).map core.key := by
  have settled : (begun trace).Perm (ended trace) := window.walk.turns fun t => quiescent_input idle t
  refine ⟨?_,?_,window.coalesced,fun k => ⟨window.new k,?_⟩⟩
  · rw [settled.countP_eq]
    exact window.hits
  · rw [settled.countP_eq]
    exact window.misses
  · intro either
    rcases either with before | asked
    · exact window.old k before
    · obtain ⟨input,inside,rfl⟩ := List.mem_map.mp asked
      exact window.landed input (settled.subset inside)

-- The requests of a stretch, in the order in which their calls begin.
def sends : Action τ φ σ → Option ClassificationInput
  | .classify _ input => some input
  | _ => none

def sent (trace : List (State τ φ σ × Action τ φ σ)) : List ClassificationInput :=
  trace.filterMap fun row => sends row.2

omit [DecidableEq τ] in
theorem mem_sent {trace : List (State τ φ σ × Action τ φ σ)} : input ∈ sent trace ↔ input ∈ asked trace := by
  rw [sent,List.mem_filterMap]
  constructor
  · intro found
    obtain ⟨⟨s,action⟩,row,sends⟩ := found
    cases action with
    | classify t also =>
        cases sends
        exact ⟨s,t,row⟩
    | _ => cases sends
  · intro found
    obtain ⟨s,t,row⟩ := found
    exact ⟨_,row,rfl⟩

omit [DecidableEq τ] in
theorem begun_sent {trace : List (State τ φ σ × Action τ φ σ)}
    (complete : ∀ input ∈ sent trace, input.contextCompleteness ≠ .delta) : begun trace = sent trace := by
  rw [begun,arrivals,turns,List.filterMap_filterMap,sent]
  refine List.filterMap_congr fun row inside => ?_
  obtain ⟨s,action⟩ := row
  cases action with
  | classify t input =>
      have whole := complete input (mem_sent.mpr ⟨s,t,inside⟩)
      simp [turn,whole,sends,Turn.target]
  | record t =>
      cases here : (s.stage t).input with
      | none => simp [turn,sends,here]
      | some input => simp [turn,sends,here,Turn.target]
  | _ => rfl

-- What any run keeps of its cache as long as nothing has to be evicted.
structure Stocked (core : ServiceCore) (inputs : Set ClassificationInput) (kept : Finset Cache.CacheKey)
    (s : State τ φ σ) : Prop where
  linked : Linked s
  keyed : Keyed core inputs s
  room : Cache.Room kept s.cache.inner
  known : ∀ k, Cached s k → ∃ input ∈ inputs, core.key input = k

theorem step_stocked {inputs : Set ClassificationInput} {s next : State τ φ σ}
    (stocked : Stocked core inputs kept s) (members : ∀ input ∈ inputs, core.key input ∈ kept)
    (named : ∀ t input, action = .classify t input → input ∈ inputs) (step : Step core s action next) :
    Stocked core inputs kept next := by
  have linked := step_linked stocked.linked step
  have keyed := step_keyed stocked.linked.valid stocked.keyed named step
  have still (same : next.cache.inner = s.cache.inner) : Stocked core inputs kept next := by
    refine ⟨linked,keyed,same ▸ stocked.room,fun k there => stocked.known k ?_⟩
    rwa [Cached,same] at there
  rcases step_below step with same | ⟨below,taken,_⟩
  · exact still (congrArg _ same)
  · rcases Cache.step_inner taken with same | ⟨k,i,value,place,stored⟩
    · exact still same
    · obtain ⟨input,here⟩ := busy_input stocked.linked (t := below.thread) (by simp [place,Cache.Pc.Ready])
      obtain ⟨asked,key⟩ := stocked.keyed _ input here
      rw [place] at key
      cases key
      have mine := members input asked
      refine ⟨linked,keyed,stored ▸ stocked.room.stored mine value,fun l there => ?_⟩
      rw [Cached,stored,Cache.storeAfterForward_entries (stocked.room.free mine)] at there
      rcases there with rfl | before
      · exact ⟨input,asked,rfl⟩
      · exact stocked.known l before

omit [DecidableEq τ] in
theorem start_stocked (inputs : Set ClassificationInput) (fits : kept.card ≤ capacity) :
    Stocked core inputs kept (start τ φ σ capacity) where
  linked := start_linked capacity
  keyed := by simp [Keyed,start,Stage.input]
  room := ⟨fun _ there => absurd there Finmap.notMem_empty,fits.trans (Nat.le_max_left _ _)⟩
  known := fun _ there => absurd there Finmap.notMem_empty

theorem path_stocked {inputs : Set ClassificationInput} {trace : List (State τ φ σ × Action τ φ σ)}
    {s : State τ φ σ} (stocked : Stocked core inputs kept origin)
    (members : ∀ input ∈ inputs, core.key input ∈ kept) (named : asked trace ⊆ inputs)
    (path : Path (Step core) origin trace s) : Stocked core inputs kept s := by
  induction path with
  | nil => exact stocked
  | @snoc trace before action after prior step ih =>
      have earlier : asked trace ⊆ inputs := by
        intro input found
        obtain ⟨s,t,row⟩ := found
        exact named ⟨s,t,List.mem_append_left _ row⟩
      refine step_stocked (ih earlier) members (fun t input same => ?_) step
      exact named ⟨before,t,by simp [same]⟩

end SemanticClassifier.Service
