import SemanticClassifier.Bench

namespace SemanticClassifier.Bench
open Classify Interleaving Service Shuffle

variable {τ φ σ : Type} [DecidableEq τ] {core : ServiceCore} {run : BenchmarkRun}

-- The inputs the service gets from a run, by index.
def BenchmarkRun.measuredInput (run : BenchmarkRun) (index : Nat) : ClassificationInput :=
  classifyInput (sendOne (run.measuredContext index) index)

def BenchmarkRun.warmInput (run : BenchmarkRun) (index : Nat) : ClassificationInput :=
  classifyInput (sendOne (run.warmContext index) index)

-- Serial or split over workers, the window brings every index once.
theorem clients_inputs (run : BenchmarkRun) (n : Nat) (concurrency : Option Nat) :
    ((run.clients n concurrency).map (List.map classifyInput)).flatten =
      (List.range n).map run.measuredInput := by
  cases concurrency with
  | none => simp [BenchmarkRun.clients,BenchmarkRun.measure,Function.comp_def,BenchmarkRun.measuredInput]
  | some concurrency =>
      rw [← workerIndices_flatten n concurrency,List.map_flatten,BenchmarkRun.clients,
        BenchmarkRun.runConcurrent,List.map_map]
      congr 1
      refine List.map_congr_left fun indices _ => ?_
      rw [Function.comp_apply,List.map_map]
      rfl

theorem warmup_inputs (run : BenchmarkRun) (n : Nat) :
    (run.warmup n).map classifyInput = (List.range n).map run.warmInput := by
  rw [BenchmarkRun.warmup,List.map_map]
  rfl

-- The piece that tells warmups from measurements, and one run from another.
def BenchmarkRun.warmMark (run : BenchmarkRun) : List Char :=
  match run.cacheMode with
  | .hit => decimal run.runId
  | .miss => "warm".toList

theorem measured_stem (run : BenchmarkRun) (index : Nat) :
    stem (Service.normalize (run.measuredInput index)).text = [decimal index,decimal run.runId] :=
  measure_stem run.seed run.runId index

theorem warmed_stem (run : BenchmarkRun) (index : Nat) :
    stem (Service.normalize (run.warmInput index)).text = [decimal index,run.warmMark] := by
  have warm := warm_stem run.seed run.runId index
  have measured := measure_stem run.seed run.runId index
  cases mode : run.cacheMode with
  | hit =>
      simp only [Service.normalize,BenchmarkRun.warmInput,classifyInput,sendOne,BenchmarkRun.warmContext,mode,
        seededWarmContext,measured,BenchmarkRun.warmMark]
  | miss =>
      simp only [Service.normalize,BenchmarkRun.warmInput,classifyInput,sendOne,BenchmarkRun.warmContext,mode,
        warm,BenchmarkRun.warmMark]

theorem sends_measured (run : BenchmarkRun) (index : Nat) : run.Sends (run.measuredInput index) := by
  refine ⟨index + 1,.inr ⟨none,_,List.mem_singleton_self _,sendOne (run.measuredContext index) index,?_,rfl⟩⟩
  exact List.mem_map_of_mem (List.mem_range.mpr (Nat.lt_succ_self index))

-- Whatever a run sends, it shows its own number or none.
theorem sends_stem (sends : run.Sends input) :
    ∃ index mark, stem (Service.normalize input).text = [decimal index,mark] ∧
      (mark = decimal run.runId ∨ mark = "warm".toList) := by
  obtain ⟨n,warm | ⟨concurrency,requests,client,req,inside,rfl⟩⟩ := sends
  · obtain ⟨req,inside,rfl⟩ := warm
    have listed : classifyInput req ∈ (List.range n).map run.warmInput :=
      warmup_inputs run n ▸ List.mem_map_of_mem inside
    obtain ⟨i,_,same⟩ := List.mem_map.mp listed
    refine ⟨i,run.warmMark,same ▸ warmed_stem run i,?_⟩
    unfold BenchmarkRun.warmMark
    cases run.cacheMode with
    | hit => exact .inl rfl
    | miss => exact .inr rfl
  · have listed : classifyInput req ∈ (List.range n).map run.measuredInput := by
      rw [← clients_inputs run n concurrency]
      exact List.mem_flatten.mpr ⟨_,List.mem_map_of_mem client,List.mem_map_of_mem inside⟩
    obtain ⟨i,_,same⟩ := List.mem_map.mp listed
    exact ⟨i,_,same ▸ measured_stem run i,.inl rfl⟩

-- A run's own number shows in none of the requests of another.
theorem others_apart {other : BenchmarkRun} (differs : other.runId ≠ run.runId) (sends : other.Sends input) :
    stem (Service.normalize input).text ≠ stem (Service.normalize (run.measuredInput index)).text := by
  obtain ⟨i,mark,stem,named⟩ := sends_stem sends
  rw [stem,measured_stem]
  intro same
  have marks : mark = decimal run.runId := (List.cons.inj (List.cons.inj same).2).1
  rcases named with own | warm
  · exact differs (decimal_injective (own.symm.trans marks))
  · exact decimal_not_warm run.runId (marks.symm.trans warm)

-- What may happen to one service: anything other runs send, then a warmup of
-- this run, then its measured window with nobody else around. How the calls of
-- the clients interleave is open, and so is what L0 and L2 answer.
structure Session (core : ServiceCore) (run : BenchmarkRun) (capacity w n : Nat) (concurrency : Option Nat)
    (past warm window : List (State τ φ σ × Action τ φ σ)) (before after : State τ φ σ) : Prop where
  history : ∃ settled, Path (Step core) (start τ φ σ capacity) past settled ∧ Quiescent settled ∧
    Path (Step core) settled warm before
  others : ∀ input ∈ sent past, ∃ other : BenchmarkRun, other.runId ≠ run.runId ∧ other.Sends input
  warmed : Shuffled [(run.warmup w).map classifyInput] (sent warm)
  ready : Quiescent before
  measured : Path (Step core) before window after
  clients : Shuffled ((run.clients n concurrency).map (List.map classifyInput)) (sent window)
  finished : Quiescent after
  works : Met (fun _ action => fails action = false) (past ++ (warm ++ window))
  free : CollisionFree core (asked (past ++ (warm ++ window)))
  room : ((sent (past ++ (warm ++ window))).map core.key).toFinset.card ≤ capacity

section Run
variable {w n : Nat} {concurrency : Option Nat} {past warm window : List (State τ φ σ × Action τ φ σ)}
variable {before after : State τ φ σ}

omit [DecidableEq τ] in
theorem sent_append (early late : List (State τ φ σ × Action τ φ σ)) :
    sent (early ++ late) = sent early ++ sent late := List.filterMap_append

def Session.keys (_ : Session core run capacity w n concurrency past warm window before after) :
    Finset Cache.CacheKey := ((sent (past ++ (warm ++ window))).map core.key).toFinset

theorem Session.warm_inputs (session : Session core run capacity w n concurrency past warm window before after) :
    (sent warm).Perm ((List.range w).map run.warmInput) := by
  have perm := session.warmed.perm
  rwa [List.flatten_singleton,warmup_inputs] at perm

theorem Session.window_inputs
    (session : Session core run capacity w n concurrency past warm window before after) :
    (sent window).Perm ((List.range n).map run.measuredInput) := by
  have perm := session.clients.perm
  rwa [clients_inputs] at perm

theorem Session.members (session : Session core run capacity w n concurrency past warm window before after) :
    ∀ input ∈ asked (past ++ (warm ++ window)), core.key input ∈ session.keys :=
  fun _ asked => List.mem_toFinset.mpr (List.mem_map_of_mem (mem_sent.mpr asked))

-- Two requests with one key show the same last pieces.
theorem Session.stems (session : Session core run capacity w n concurrency past warm window before after)
    (one : a ∈ asked (past ++ (warm ++ window))) (two : b ∈ asked (past ++ (warm ++ window)))
    (same : core.key a = core.key b) : stem (Service.normalize a).text = stem (Service.normalize b).text :=
  congrArg stem (key_text session.free one two same)

-- Requests told apart by their numbers have different keys.
theorem numbered_distinct {inputs : List ClassificationInput} {input : Nat → ClassificationInput} {count : Nat}
    (listed : inputs.Perm ((List.range count).map input))
    (marked : ∀ i, stem (Service.normalize (input i)).text = [decimal i,mark])
    (stems : ∀ a ∈ inputs, ∀ b ∈ inputs, core.key a = core.key b →
      stem (Service.normalize a).text = stem (Service.normalize b).text) : (inputs.map core.key).Nodup := by
  refine (listed.map core.key).nodup_iff.mpr ?_
  rw [List.map_map]
  refine (List.nodup_map_iff_inj_on List.nodup_range).mpr fun i inI j inJ same => ?_
  have there (k : Nat) (inside : k ∈ List.range count) : input k ∈ inputs :=
    listed.symm.subset (List.mem_map_of_mem inside)
  have equal := stems _ (there i inI) _ (there j inJ) same
  rw [marked,marked] at equal
  exact decimal_injective (List.cons.inj equal).1

omit [DecidableEq τ] in
theorem asked_append {early late : List (State τ φ σ × Action τ φ σ)} :
    input ∈ asked (early ++ late) ↔ input ∈ asked early ∨ input ∈ asked late := by
  rw [← mem_sent,sent_append,List.mem_append,mem_sent,mem_sent]

omit [DecidableEq τ] in
theorem warm_asked (inside : input ∈ sent warm) : input ∈ asked (past ++ (warm ++ window)) :=
  asked_append.mpr (.inr (asked_append.mpr (.inl (mem_sent.mp inside))))

omit [DecidableEq τ] in
theorem window_asked (inside : input ∈ sent window) : input ∈ asked (past ++ (warm ++ window)) :=
  asked_append.mpr (.inr (asked_append.mpr (.inr (mem_sent.mp inside))))

theorem Session.warm_distinct
    (session : Session core run capacity w n concurrency past warm window before after) :
    ((sent warm).map core.key).Nodup :=
  numbered_distinct session.warm_inputs (warmed_stem run) fun _ one _ two same =>
    session.stems (warm_asked one) (warm_asked two) same

theorem Session.window_distinct
    (session : Session core run capacity w n concurrency past warm window before after) :
    ((sent window).map core.key).Nodup :=
  numbered_distinct session.window_inputs (measured_stem run) fun _ one _ two same =>
    session.stems (window_asked one) (window_asked two) same

theorem numbered_complete {inputs : List ClassificationInput} {context : Nat → String} {count : Nat}
    (listed : inputs.Perm ((List.range count).map fun i => classifyInput (sendOne (context i) i))) :
    ∀ input ∈ inputs, input.contextCompleteness ≠ .delta := by
  intro input inside
  obtain ⟨i,_,rfl⟩ := List.mem_map.mp (listed.subset inside)
  intro delta
  cases delta

theorem Session.warm_begun (session : Session core run capacity w n concurrency past warm window before after) :
    begun warm = sent warm := begun_sent (numbered_complete session.warm_inputs)

theorem Session.window_begun
    (session : Session core run capacity w n concurrency past warm window before after) :
    begun window = sent window := begun_sent (numbered_complete session.window_inputs)

-- The cache before the window: nothing but what was sent, and all the warmup.
theorem Session.stocked (session : Session core run capacity w n concurrency past warm window before after) :
    Stocked core (asked (past ++ warm)) session.keys before ∧
      ∀ input ∈ sent warm, Cached before (core.key input) := by
  obtain ⟨settled,history,quiet,warming⟩ := session.history
  have initial : asked (past ++ warm) ⊆ asked (past ++ (warm ++ window)) := by
    intro input inside
    rw [← List.append_assoc]
    exact asked_append.mpr (.inl inside)
  have members : ∀ input ∈ asked (past ++ warm), core.key input ∈ session.keys :=
    fun input inside => session.members input (initial inside)
  have first : Stocked core (asked (past ++ warm)) session.keys settled :=
    path_stocked (start_stocked _ session.room) members (fun _ inside => asked_append.mpr (.inl inside)) history
  refine ⟨path_stocked first members (fun _ inside => asked_append.mpr (.inr inside)) warming,?_⟩
  have works : Met (fun _ action => fails action = false) warm :=
    fun row inside => session.works row (by simp [inside])
  have opened : Window core session.keys settled warm before := by
    refine path_window first.linked first.room quiet warming ?_ ?_ works
    · rw [session.warm_begun]
      exact session.warm_distinct
    · rw [session.warm_begun]
      exact fun input inside => session.members input (warm_asked inside)
  intro input inside
  refine ((window_counted opened session.ready).2.2.2 _).mpr (.inr ?_)
  rw [session.warm_begun]
  exact List.mem_map_of_mem inside

-- Only a warmup of its own can have put a measured key into the cache.
theorem Session.cached_measured
    (session : Session core run capacity w n concurrency past warm window before after)
    (inside : run.measuredInput i ∈ sent window) :
    Cached before (core.key (run.measuredInput i)) ↔ run.cacheMode = .hit ∧ i < w := by
  obtain ⟨stocked,warmed⟩ := session.stocked
  have mine : run.measuredInput i ∈ asked (past ++ (warm ++ window)) := window_asked inside
  constructor
  · intro there
    obtain ⟨input,earlier,same⟩ := stocked.known _ there
    rcases asked_append.mp earlier with before | warming
    · obtain ⟨other,differs,sends⟩ := session.others input (mem_sent.mpr before)
      exact absurd (session.stems (asked_append.mpr (.inl before)) mine same) (others_apart differs sends)
    · have sent := mem_sent.mpr warming
      obtain ⟨j,below,rfl⟩ := List.mem_map.mp (session.warm_inputs.subset sent)
      have stems := session.stems (warm_asked sent) mine same
      rw [warmed_stem,measured_stem] at stems
      obtain rfl := decimal_injective (List.cons.inj stems).1
      have marks : run.warmMark = decimal run.runId := (List.cons.inj (List.cons.inj stems).2).1
      cases mode : run.cacheMode with
      | hit => exact ⟨rfl,List.mem_range.mp below⟩
      | miss =>
          rw [BenchmarkRun.warmMark,mode] at marks
          exact absurd marks.symm (decimal_not_warm run.runId)
  · intro prewarmed
    have same : run.warmInput i = run.measuredInput i := by
      rw [BenchmarkRun.warmInput,BenchmarkRun.warmContext,prewarmed.1]
      rfl
    rw [← same]
    refine warmed _ (session.warm_inputs.symm.subset ?_)
    exact List.mem_map_of_mem (List.mem_range.mpr prewarmed.2)

-- The counters over the window.
theorem Session.counted (session : Session core run capacity w n concurrency past warm window before after) :
    after.cacheHits = before.cacheHits +
        (sent window).countP (fun input => Cached before (core.key input)) ∧
      after.cacheMisses = before.cacheMisses +
        (sent window).countP (fun input => ¬ Cached before (core.key input)) ∧
      after.cacheCoalesced = before.cacheCoalesced := by
  have stocked := session.stocked.1
  have works : Met (fun _ action => fails action = false) window :=
    fun row inside => session.works row (by simp [inside])
  have opened : Window core session.keys before window after := by
    refine path_window stocked.linked stocked.room session.ready session.measured ?_ ?_ works
    · rw [session.window_begun]
      exact session.window_distinct
    · rw [session.window_begun]
      exact fun input inside => session.members input (window_asked inside)
  have counts := window_counted opened session.finished
  rw [session.window_begun] at counts
  exact ⟨counts.1,counts.2.1,counts.2.2.1⟩

theorem Session.numbered (session : Session core run capacity w n concurrency past warm window before after)
    (inside : input ∈ sent window) : ∃ i < n, input = run.measuredInput i := by
  obtain ⟨i,below,same⟩ := List.mem_map.mp (session.window_inputs.subset inside)
  exact ⟨i,List.mem_range.mp below,same.symm⟩

theorem Session.window_length
    (session : Session core run capacity w n concurrency past warm window before after) :
    (sent window).length = n := by
  rw [session.window_inputs.length_eq,List.length_map,List.length_range]

theorem Session.window_split
    (session : Session core run capacity w n concurrency past warm window before after) :
    (sent window).countP (fun input => Cached before (core.key input)) +
      (sent window).countP (fun input => ¬ Cached before (core.key input)) = n := by
  have split := List.length_eq_countP_add_countP (fun input => decide (Cached before (core.key input)))
    (l := sent window)
  simp only [decide_eq_true_eq] at split
  rw [← split,session.window_length]

theorem Session.none_cached
    (session : Session core run capacity w n concurrency past warm window before after)
    (mode : run.cacheMode = .miss) :
    (sent window).countP (fun input => Cached before (core.key input)) = 0 := by
  refine List.countP_eq_zero.mpr fun input inside => ?_
  obtain ⟨i,_,rfl⟩ := session.numbered inside
  intro there
  have warm := ((session.cached_measured inside).mp (of_decide_eq_true there)).1
  rw [mode] at warm
  cases warm

theorem Session.all_cached
    (session : Session core run capacity w n concurrency past warm window before after)
    (mode : run.cacheMode = .hit) :
    (sent window).countP (fun input => Cached before (core.key input)) = (sent window).length ↔ n ≤ w := by
  rw [List.countP_eq_length]
  constructor
  · intro all
    by_contra short
    have last : run.measuredInput w ∈ sent window :=
      session.window_inputs.symm.subset (List.mem_map_of_mem (List.mem_range.mpr (by omega)))
    have there := ((session.cached_measured last).mp (of_decide_eq_true (all _ last))).2
    omega
  · intro enough input inside
    obtain ⟨i,below,rfl⟩ := session.numbered inside
    have there := (session.cached_measured inside).mpr ⟨mode,by omega⟩
    exact decide_eq_true there

-- The self-check passes every miss window, and a hit window exactly if enough
-- was warmed; the workers bring each index once, however many they are.
theorem self_check (session : Session core run capacity w n concurrency past warm window before after) :
    (∀ workers, (workerIndices n workers).flatten = List.range n) ∧
      (sent window).Perm ((List.range n).map run.measuredInput) ∧
      (run.cacheMode = .miss →
        verifyWindow run.cacheMode (snapshot before) (snapshot after) n = .ok ()) ∧
      (run.cacheMode = .hit →
        (verifyWindow run.cacheMode (snapshot before) (snapshot after) n = .ok () ↔ n ≤ w)) := by
  obtain ⟨hits,misses,coalesced⟩ := session.counted
  have split := session.window_split
  refine ⟨workerIndices_flatten n,session.window_inputs,fun mode => ?_,fun mode => ?_⟩
  · have cold := session.none_cached mode
    rw [verifyWindow_ok,mode]
    simp only [CacheMode.expects,snapshot]
    omega
  · have warm := session.all_cached mode
    rw [verifyWindow_ok,mode,← warm,session.window_length]
    simp only [CacheMode.expects,snapshot]
    omega

end Run

def otherRun : BenchmarkRun := ⟨.hit,3,""⟩

def seededRun : BenchmarkRun := ⟨.hit,7,"s"⟩

-- The hash's own values on the three contexts that are sent.
def benchHash (bytes : List UInt8) : Vector UInt8 32 :=
  if bytes.getLast? = some 0x35 then
    ⟨#[204,216,202,244,127,172,239,92,109,250,150,100,173,249,173,194,
      186,112,171,48,238,249,138,223,218,29,139,141,24,171,41,234],rfl⟩
  else if bytes.getLast? = some 0x30 then
    ⟨#[171,55,123,125,106,232,20,182,196,13,76,252,88,38,177,163,
      221,12,149,86,140,34,187,13,23,221,66,55,203,212,42,248],rfl⟩
  else
    ⟨#[58,62,150,204,36,106,83,64,87,239,135,223,78,142,88,143,
      48,217,219,150,20,85,49,19,119,235,19,254,212,148,39,128],rfl⟩

def benchCore : ServiceCore := ⟨pairMetadata,benchHash,fun _ => ⟨[]⟩⟩

def missCall (t : Bool) (input : ClassificationInput) : List (Action Bool Nat Nat) :=
  [.classify t input,.run t,.run t,.run t,.run t,.prefilterLookup t none,.embed t (.ok ⟨[4],none⟩),
    .semanticLookup t none,.rank t (.ok pairResult),.semanticInsert t,.prefilterInsert t,
    .run t,.run t,.run t,.run t,.run t,.run t,.run t,.record t]

def pastActions : List (Action Bool Nat Nat) := missCall false (otherRun.measuredInput 5)

def warmActions : List (Action Bool Nat Nat) :=
  missCall false (seededRun.warmInput 0) ++ missCall true (seededRun.warmInput 1)

-- Two workers, each with one index, at the same time.
def windowActions : List (Action Bool Nat Nat) :=
  [.classify true (seededRun.measuredInput 1),.run true,.classify false (seededRun.measuredInput 0),
    .run true,.run false,.run false,.record false,.record true]

def benchStart : State Bool Nat Nat := start Bool Nat Nat 5

def pastRun : List (State Bool Nat Nat × Action Bool Nat Nat) × State Bool Nat Nat :=
  (follow (advance benchCore) benchStart pastActions).getD ([],benchStart)

def warmRun : List (State Bool Nat Nat × Action Bool Nat Nat) × State Bool Nat Nat :=
  (follow (advance benchCore) pastRun.2 warmActions).getD ([],benchStart)

def windowRun : List (State Bool Nat Nat × Action Bool Nat Nat) × State Bool Nat Nat :=
  (follow (advance benchCore) warmRun.2 windowActions).getD ([],benchStart)

theorem past_followed : follow (advance benchCore) benchStart pastActions = some pastRun := (rfl)

theorem warm_followed : follow (advance benchCore) pastRun.2 warmActions = some warmRun := (rfl)

theorem window_followed : follow (advance benchCore) warmRun.2 windowActions = some windowRun := (rfl)

theorem followed_actions {s : State Bool Nat Nat} {actions : List (Action Bool Nat Nat)}
    {run : List (State Bool Nat Nat × Action Bool Nat Nat) × State Bool Nat Nat}
    (followed : follow (advance benchCore) s actions = some run) : run.1.map Prod.snd = actions :=
  follow_actions followed

theorem sent_followed {s : State Bool Nat Nat} {actions : List (Action Bool Nat Nat)}
    {run : List (State Bool Nat Nat × Action Bool Nat Nat) × State Bool Nat Nat}
    (followed : follow (advance benchCore) s actions = some run) : sent run.1 = actions.filterMap sends := by
  rw [← followed_actions followed,List.filterMap_map]
  rfl

theorem bench_sent : sent (pastRun.1 ++ (warmRun.1 ++ windowRun.1)) =
    [otherRun.measuredInput 5,seededRun.warmInput 0,seededRun.warmInput 1,seededRun.measuredInput 1,
      seededRun.measuredInput 0] := by
  rw [sent_append,sent_append,sent_followed past_followed,sent_followed warm_followed,
    sent_followed window_followed]
  rfl

def benchTexts : List String := ["measure-3-5","s-measure-7-0","s-measure-7-1"]

theorem benchHash_apart : ∀ a ∈ benchTexts, ∀ b ∈ benchTexts,
    benchCore.blake3 (Cache.keyStream benchCore.metadata.cacheIdentity a) =
      benchCore.blake3 (Cache.keyStream benchCore.metadata.cacheIdentity b) → a = b := by decide

theorem bench_texts (inside : input ∈ asked (pastRun.1 ++ (warmRun.1 ++ windowRun.1))) :
    (Service.normalize input).text ∈ benchTexts := by
  rw [← mem_sent,bench_sent] at inside
  simp only [List.mem_cons,List.not_mem_nil,or_false] at inside
  rcases inside with rfl | rfl | rfl | rfl | rfl <;> decide

theorem bench_free : CollisionFree benchCore (asked (pastRun.1 ++ (warmRun.1 ++ windowRun.1))) := by
  intro x inX y inY same
  obtain ⟨a,first,rfl⟩ := inX
  obtain ⟨b,second,rfl⟩ := inY
  have equal := benchHash_apart _ (bench_texts first) _ (bench_texts second) same
  exact congrArg (Cache.keyStream benchCore.metadata.cacheIdentity) equal

theorem bench_works : Met (fun _ action => fails action = false) (pastRun.1 ++ (warmRun.1 ++ windowRun.1)) := by
  have all : ∀ action ∈ pastActions ++ (warmActions ++ windowActions), fails action = false := by decide
  have actions : (pastRun.1 ++ (warmRun.1 ++ windowRun.1)).map Prod.snd =
      pastActions ++ (warmActions ++ windowActions) := by
    rw [List.map_append,List.map_append,followed_actions past_followed,followed_actions warm_followed,
      followed_actions window_followed]
  intro row inside
  exact all row.2 (actions ▸ List.mem_map_of_mem inside)

theorem bench_session : Session benchCore seededRun 5 2 2 (some 2) pastRun.1 warmRun.1 windowRun.1
    warmRun.2 windowRun.2 where
  history := ⟨pastRun.2,follow_path past_followed,fun | false => trivial | true => trivial,
    follow_path warm_followed⟩
  others := by
    rw [sent_followed past_followed]
    intro input inside
    obtain rfl := List.mem_singleton.mp inside
    exact ⟨otherRun,by decide,sends_measured otherRun 5⟩
  warmed := by
    rw [sent_followed warm_followed]
    exact shuffled_single _
  ready := fun | false => trivial | true => trivial
  measured := follow_path window_followed
  clients := by
    rw [sent_followed window_followed]
    have last : Shuffled [([] : List ClassificationInput),[]] [] := .done (by simp)
    have first : Shuffled ([] ++ [seededRun.measuredInput 0] :: [[]]) [seededRun.measuredInput 0] := .next last
    have both : Shuffled ([[seededRun.measuredInput 0]] ++ [seededRun.measuredInput 1] :: [])
        [seededRun.measuredInput 1,seededRun.measuredInput 0] := .next first
    exact both
  finished := fun | false => trivial | true => trivial
  works := bench_works
  free := bench_free
  room := by
    rw [bench_sent]
    exact List.toFinset_card_le _

theorem self_check_seeded :
    verifyWindow .hit (snapshot warmRun.2) (snapshot windowRun.2) 2 = .ok () :=
  ((self_check bench_session).2.2.2 rfl).mpr (Nat.le_refl 2)

end SemanticClassifier.Bench
