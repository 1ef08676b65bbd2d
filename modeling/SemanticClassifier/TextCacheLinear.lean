import SemanticClassifier.Library.Linearization
import SemanticClassifier.TextCacheLocks
import SemanticClassifier.TextCacheRecall

namespace SemanticClassifier.TextCacheLocks
open Prefilter TextCache Interleaving Linearization

variable {τ ρ : Type} [DecidableEq τ] {hashOne : UInt64 × List UInt64 → UInt64}

-- The cache as one thread alone would use it.
def perform (hashOne : UInt64 × List UInt64 → UInt64) (c : MemoryTextCache ρ) :
    Call ρ → MemoryTextCache ρ × Option (Option ρ)
  | .lookup sig identity => (c,some (lookup hashOne c sig identity))
  | .insert sig result identity => (insert hashOne c sig result identity,none)

-- The call that takes effect in a step: a lookup when it has both locks, an insert
-- when it writes its slot.
def point (s : State τ ρ) (t : τ) : Option (τ × Call ρ) :=
  match s.pc t with
  | .lookupEntries sig identity => some (t,.lookup sig identity)
  | .insertIndex sig result identity =>
    if s.cache.entries.length < s.cache.capacity then some (t,.insert sig result identity) else none
  | .insertCursor sig result identity => some (t,.insert sig result identity)
  | _ => none

-- The call a thread is in and that is still to take effect.
def Pc.pending : Pc ρ → Option (Call ρ)
  | .lookupIndex sig identity | .lookupEntries sig identity => some (.lookup sig identity)
  | .insertEntries sig result identity | .insertIndex sig result identity
  | .insertCursor sig result identity => some (.insert sig result identity)
  | .idle | .lookupAnswered _ | .insertPlaced .. | .insertIndexed => none

-- The answer a thread has and is still to hand out.
def Pc.answer : Pc ρ → Option (Option ρ)
  | .lookupAnswered answer => some answer
  | _ => none

-- Between writing its slot and indexing it an insert has the lock `index`, and
-- what it leaves unindexed is all that sets the cache apart.
structure Linearized (hashOne : UInt64 × List UInt64 → UInt64) (cache : MemoryTextCache ρ)
    (program : τ → List (Call ρ)) (s : State τ ρ) (calls : List (τ × Call ρ)) : Prop where
  owned : Owned s
  order : ∀ t, program t = own t calls ++ (s.pc t).pending.toList ++ s.program t
  answers : ∀ t, (replay (perform hashOne) cache calls).2 t = s.answers t ++ (s.pc t).answer.toList
  settled : (∀ t sig id, s.pc t ≠ .insertPlaced sig id) → s.cache = (replay (perform hashOne) cache calls).1
  placed : ∀ t sig id, s.pc t = .insertPlaced sig id →
    indexKeys hashOne s.cache sig id = (replay (perform hashOne) cache calls).1

variable {cache : MemoryTextCache ρ} {program : τ → List (Call ρ)} {s next : State τ ρ}
variable {calls : List (τ × Call ρ)} {t : τ}

-- Nobody is half way through an insert while a thread has the lock `index`.
theorem Linearized.seen (linear : Linearized hashOne cache program s calls) (holds : (s.pc t).Holds .index)
    (whole : ∀ sig id, s.pc t ≠ .insertPlaced sig id) :
    (∀ u sig id, s.pc u ≠ .insertPlaced sig id) ∧ s.cache = (replay (perform hashOne) cache calls).1 := by
  have alone : ∀ u sig id, s.pc u ≠ .insertPlaced sig id := by
    intro u sig id other
    have also : (s.pc u).Holds .index := by rw [other]; exact .inl rfl
    cases linear.owned.exclusive holds also
    exact whole sig id other
  exact ⟨alone,linear.settled alone⟩

-- What a step of one thread leaves to the others.
structure Moved (s : State τ ρ) (t : τ) (after : Pc ρ) (rest : List (Call ρ)) (told : List (Option ρ))
    (next : State τ ρ) : Prop where
  pc : next.pc = Function.update s.pc t after
  program : next.program = Function.update s.program t rest
  answers : next.answers = Function.update s.answers t told

theorem Moved.walks (pc : next.pc = Function.update s.pc t after) (program : next.program = s.program)
    (answers : next.answers = s.answers) : Moved s t after (s.program t) (s.answers t) next where
  pc := pc
  program := program.trans (Function.update_eq_self t _).symm
  answers := answers.trans (Function.update_eq_self t _).symm

-- The four kinds of step, by what takes effect in it.
inductive Turn (hashOne : UInt64 × List UInt64 → UInt64) (s : State τ ρ) (t : τ) (next : State τ ρ) :
    Option (Call ρ) → Prop where
  | quiet {after : Pc ρ} {rest : List (Call ρ)} {told : List (Option ρ)} :
      Moved s t after rest told next → next.cache = s.cache →
      (s.pc t).pending.toList ++ s.program t = after.pending.toList ++ rest →
      told ++ after.answer.toList = s.answers t ++ (s.pc t).answer.toList →
      (∀ sig id, s.pc t ≠ .insertPlaced sig id) → (∀ sig id, after ≠ .insertPlaced sig id) →
      Turn hashOne s t next none
  | looked {sig : Signature} {identity : String} : s.pc t = .lookupEntries sig identity →
      Moved s t (.lookupAnswered (lookup hashOne s.cache sig identity)) (s.program t) (s.answers t) next →
      next.cache = s.cache → Turn hashOne s t next (some (.lookup sig identity))
  | placed {sig : Signature} {result : ρ} {identity : String} :
      (s.pc t).pending = some (.insert sig result identity) → (s.pc t).answer = none →
      (s.pc t).Holds .index → (∀ sig id, s.pc t ≠ .insertPlaced sig id) →
      Moved s t (.insertPlaced sig (place hashOne s.cache ⟨sig,identity,result⟩).2) (s.program t)
        (s.answers t) next →
      next.cache = (place hashOne s.cache ⟨sig,identity,result⟩).1 →
      Turn hashOne s t next (some (.insert sig result identity))
  | indexed {sig : Signature} {id : Nat} : s.pc t = .insertPlaced sig id →
      Moved s t .insertIndexed (s.program t) (s.answers t) next →
      next.cache = indexKeys hashOne s.cache sig id → Turn hashOne s t next none

theorem step_turn (step : Step hashOne s t next) :
    ∃ n, point s t = n.map (t,·) ∧ Turn hashOne s t next n := by
  unfold Step advance at step
  unfold point
  cases place : s.pc t with
  | idle =>
      refine ⟨none,rfl,?_⟩
      simp only [place] at step
      cases waiting : s.program t with
      | nil => simp [waiting] at step
      | cons call rest =>
          cases call <;> simp only [waiting] at step <;> obtain ⟨_,rfl⟩ := take_parts step
          all_goals
            refine .quiet ⟨rfl,rfl,(Function.update_eq_self t _).symm⟩ rfl ?_ ?_ ?_ (by simp) <;> rw [place]
            · rw [waiting]
              rfl
            · rfl
            · simp
  | lookupIndex sig identity | insertEntries sig result identity =>
      refine ⟨none,rfl,?_⟩
      simp only [place] at step
      obtain ⟨_,rfl⟩ := take_parts step
      refine .quiet (.walks rfl rfl rfl) rfl ?_ ?_ ?_ (by simp) <;> rw [place]
      · rfl
      · rfl
      · simp
  | lookupEntries sig identity =>
      simp only [place,Option.some.injEq] at step
      subst step
      exact ⟨_,rfl,.looked place (.walks rfl rfl rfl) rfl⟩
  | lookupAnswered answer =>
      refine ⟨none,rfl,?_⟩
      simp only [place,Option.some.injEq] at step
      subst step
      refine .quiet ⟨rfl,(Function.update_eq_self t _).symm,rfl⟩ rfl ?_ ?_ ?_ (by simp) <;> rw [place]
      · rfl
      · simp [Pc.answer]
      · simp
  | insertIndex sig result identity =>
      simp only [place] at step
      split at step
      · rename_i room
        cases Option.some.inj step
        have slot : TextCache.place hashOne s.cache ⟨sig,identity,result⟩ =
            (pushEntry s.cache ⟨sig,identity,result⟩ room,s.cache.entries.length) := dif_pos room
        refine ⟨some (.insert sig result identity),if_pos room,.placed (by rw [place]; rfl) (by rw [place]; rfl)
          (by rw [place]; exact .inl rfl) (by rw [place]; simp) (.walks ?_ rfl rfl) ?_⟩ <;> rw [slot]
      · rename_i full
        obtain ⟨_,rfl⟩ := take_parts step
        refine ⟨none,if_neg full,.quiet (.walks rfl rfl rfl) rfl ?_ ?_ ?_ (by simp)⟩ <;> rw [place]
        · rfl
        · rfl
        · simp
  | insertCursor sig result identity =>
      simp only [place,Option.some.injEq] at step
      subst step
      exact ⟨_,rfl,.placed (by rw [place]; rfl) (by rw [place]; rfl) (by rw [place]; exact .inr (.inl rfl))
        (by rw [place]; simp) (.walks rfl rfl rfl) rfl⟩
  | insertPlaced sig id =>
      simp only [place,Option.some.injEq] at step
      subst step
      exact ⟨none,rfl,.indexed place (.walks rfl rfl rfl) rfl⟩
  | insertIndexed =>
      refine ⟨none,rfl,?_⟩
      simp only [place,Option.some.injEq] at step
      subst step
      refine .quiet (.walks rfl rfl rfl) rfl ?_ ?_ ?_ (by simp) <;> rw [place]
      · rfl
      · rfl
      · simp

theorem Linearized.order_moved (linear : Linearized hashOne cache program s calls)
    (moved : Moved s t after rest told next) (n : Option (Call ρ))
    (mine : (s.pc t).pending.toList ++ s.program t = n.toList ++ after.pending.toList ++ rest) (u : τ) :
    program u = own u (calls ++ (n.map (t,·)).toList) ++ (next.pc u).pending.toList ++ next.program u := by
  rw [moved.pc,moved.program,linear.order u]
  by_cases same : u = t
  · subst same
    rw [Function.update_self,Function.update_self,List.append_assoc,mine]
    cases n <;> simp
  · rw [Function.update_of_ne same,Function.update_of_ne same]
    cases n <;> simp [Ne.symm same]

theorem Linearized.answers_moved (linear : Linearized hashOne cache program s calls)
    (moved : Moved s t after rest told next) (n : Option (Call ρ))
    (mine : told ++ after.answer.toList = s.answers t ++ (s.pc t).answer.toList ++
      (n.bind fun call => (perform hashOne (replay (perform hashOne) cache calls).1 call).2).toList) (u : τ) :
    (replay (perform hashOne) cache (calls ++ (n.map (t,·)).toList)).2 u =
      next.answers u ++ (next.pc u).answer.toList := by
  rw [moved.pc,moved.answers]
  by_cases same : u = t
  · subst same
    rw [Function.update_self,Function.update_self,mine,← linear.answers u]
    cases n with
    | none => simp
    | some call =>
        rw [Option.map_some,Option.toList_some,replay_snoc]
        exact serve_self _ (u,call)
  · rw [Function.update_of_ne same,Function.update_of_ne same,← linear.answers u]
    cases n with
    | none => simp
    | some call =>
        rw [Option.map_some,Option.toList_some,replay_snoc]
        exact serve_others same

-- A thread that is not about to index stands where nobody else is either.
theorem Moved.unplaced (moved : Moved s t after rest told next)
    (others : ∀ u, u ≠ t → ∀ sig id, s.pc u ≠ .insertPlaced sig id)
    (mine : ∀ sig id, after ≠ .insertPlaced sig id) : ∀ u sig id, next.pc u ≠ .insertPlaced sig id := by
  intro u sig id
  rw [moved.pc]
  by_cases same : u = t
  · subst same
    rw [Function.update_self]
    exact mine sig id
  · rw [Function.update_of_ne same]
    exact others u same sig id

theorem turn_linearized {n : Option (Call ρ)} (linear : Linearized hashOne cache program s calls)
    (owned : Owned next) (turn : Turn hashOne s t next n) :
    Linearized hashOne cache program next (calls ++ (n.map (t,·)).toList) := by
  cases turn with
  | quiet moved same mine answers before behind =>
      refine ⟨owned,linear.order_moved moved none mine,linear.answers_moved moved none (by simpa using answers),
        ?_,?_⟩
      · intro alone
        rw [same,Option.map_none,Option.toList_none,List.append_nil]
        refine linear.settled fun u sig id here => ?_
        by_cases one : u = t
        · exact before sig id (one ▸ here)
        · refine alone u sig id ?_
          rw [moved.pc,Function.update_of_ne one,here]
      · intro u sig id here
        rw [moved.pc] at here
        by_cases one : u = t
        · subst one
          rw [Function.update_self] at here
          exact absurd here (behind sig id)
        · rw [Function.update_of_ne one] at here
          rw [same,Option.map_none,Option.toList_none,List.append_nil]
          exact linear.placed u sig id here
  | @looked sig identity place moved same =>
      obtain ⟨alone,current⟩ := linear.seen (t := t) (by rw [place]; exact .inl rfl) (by rw [place]; exact nofun)
      have served : (replay (perform hashOne) cache (calls ++ [(t,.lookup sig identity)])).1 =
          (replay (perform hashOne) cache calls).1 := by rw [replay_snoc]; rfl
      refine ⟨owned,linear.order_moved moved _ (by rw [place]; rfl),linear.answers_moved moved _ ?_,
        fun _ => same.trans (current.trans served.symm),?_⟩
      · rw [place]
        simp [perform,Pc.answer,current]
      · intro u sig id other
        exact absurd other (moved.unplaced (fun u _ => alone u) nofun u sig id)
  | @placed sig result identity pending silent holds whole moved written =>
      obtain ⟨alone,current⟩ := linear.seen holds whole
      have served : (replay (perform hashOne) cache (calls ++ [(t,.insert sig result identity)])).1 =
          TextCache.insert hashOne s.cache sig result identity := by
        rw [replay_snoc,serve,perform,← current]
      refine ⟨owned,linear.order_moved moved _ (by rw [pending]; rfl),linear.answers_moved moved _ ?_,?_,?_⟩
      · rw [silent]
        simp [perform,Pc.answer]
      · intro other
        exact absurd (moved.pc ▸ Function.update_self t _ s.pc) (other t _ _)
      · intro u sig id place
        rw [moved.pc] at place
        by_cases one : u = t
        · subst one
          rw [Function.update_self] at place
          cases place
          exact (congrArg (indexKeys hashOne · _ _) written).trans served.symm
        · rw [Function.update_of_ne one] at place
          exact absurd place (alone u sig id)
  | @indexed sig id place moved written =>
      refine ⟨owned,linear.order_moved moved none (by rw [place]; rfl),
        linear.answers_moved moved none (by rw [place]; simp [Pc.answer]),?_,?_⟩
      · intro _
        rw [written,Option.map_none,Option.toList_none,List.append_nil]
        exact linear.placed t sig id place
      · intro u other also here
        refine absurd here (moved.unplaced (fun v other sig id there => ?_) nofun u other also)
        have holds : (s.pc v).Holds .index := by rw [there]; exact .inl rfl
        have mine : (s.pc t).Holds .index := by rw [place]; exact .inl rfl
        exact other (linear.owned.exclusive holds mine)

theorem step_linearized (linear : Linearized hashOne cache program s calls) (step : Step hashOne s t next) :
    Linearized hashOne cache program next (calls ++ (point s t).toList) := by
  obtain ⟨n,took,turn⟩ := step_turn step
  rw [took]
  exact turn_linearized linear (step_owned linear.owned step) turn

theorem path_linearized {trace : List (State τ ρ × τ)}
    (path : Path (Step hashOne) (start cache program) trace s) :
    Linearized hashOne cache program s (points point trace) := by
  refine path_points (Linearized hashOne cache program) ?_ ?_ path
  · exact ⟨start_owned cache program,fun t => rfl,fun t => rfl,fun _ => rfl,nofun⟩
  · intro calls before t after linear step
    exact step_linearized linear step

theorem calls_linearize {trace : List (State τ ρ × τ)}
    (path : Path (Step hashOne) (start cache program) trace s) :
    (∀ t, program t = own t (points point trace) ++ (s.pc t).pending.toList ++ s.program t) ∧
    (∀ t, (replay (perform hashOne) cache (points point trace)).2 t =
      s.answers t ++ (s.pc t).answer.toList) ∧
    ((∀ t sig id, s.pc t ≠ .insertPlaced sig id) →
      s.cache = (replay (perform hashOne) cache (points point trace)).1) := by
  have linear := path_linearized path
  exact ⟨linear.order,linear.answers,linear.settled⟩

-- A lookup beside two inserts: it begins before the first is over, and the second
-- begins before it is.
def zeros : Signature := ⟨List.replicate 128 0⟩

def besideProgram : Bool → List (Call Nat)
  | false => [.lookup zeros "m"]
  | true => [.insert zeros 7 "m",.insert zeros 8 "m"]

def besideThreads : List Bool :=
  [true,true,true,true,false,true,false,false,true,false,true,true,true,true,true]

def besideRun : List (State Bool Nat × Bool) × State Bool Nat :=
  (follow (advance fun fed => fed.1) (start (new Nat 1 1) besideProgram) besideThreads).getD
    ([],start (new Nat 1 1) besideProgram)

theorem beside_path :
    Path (Step fun fed => fed.1) (start (new Nat 1 1) besideProgram) besideRun.1 besideRun.2 :=
  follow_path (show follow (advance fun fed => fed.1) (start (new Nat 1 1) besideProgram) besideThreads =
    some besideRun from rfl)

theorem beside_points : points point besideRun.1 =
    [(true,.insert zeros 7 "m"),(false,.lookup zeros "m"),(true,.insert zeros 8 "m")] := rfl

theorem calls_linearize_beside : besideRun.2.cache =
    TextCache.insert (fun fed => fed.1) (TextCache.insert (fun fed => fed.1) (new Nat 1 1) zeros 7 "m")
      zeros 8 "m" := by
  obtain ⟨_,_,settled⟩ := calls_linearize beside_path
  rw [beside_points] at settled
  exact settled fun t => by cases t <;> exact nofun

def Call.sig : Call ρ → Signature
  | .lookup sig _ | .insert sig _ _ => sig

def Call.entry : Call ρ → Option (Entry ρ)
  | .lookup .. => none
  | .insert sig result identity => some ⟨sig,identity,result⟩

def inserted (calls : List (τ × Call ρ)) : List (Entry ρ) := calls.filterMap (·.2.entry)

theorem replay_inserts (calls : List (τ × Call ρ)) :
    (replay (perform hashOne) cache calls).1 = insertAll hashOne cache (inserted calls) := by
  induction calls using List.reverseRecOn with
  | nil => rfl
  | append_singleton calls call ih =>
      obtain ⟨t,call⟩ := call
      rw [replay_snoc,serve,ih]
      cases call <;> simp [perform,inserted,Call.entry,List.filterMap_append,insertAll]

omit [DecidableEq τ] in
theorem mem_own [DecidableEq τ] {call : Call ρ} (member : (t,call) ∈ calls) : call ∈ own t calls :=
  List.mem_filterMap.mpr ⟨_,member,if_pos rfl⟩

theorem lookup_window {capacity : Nat} {threshold : ℚ} {held : List (Entry ρ)} {sig : Signature}
    (identity : String) (above : 97 / 128 ≤ max 0 (min threshold 1))
    (full : ∀ e ∈ held, e.sig.slots.length = 128) (query : sig.slots.length = 128) :
    Scanned (max 0 (min threshold 1)) (Fifo.window (max capacity 1) held) sig identity
      (lookup hashOne (insertAll hashOne (new ρ capacity threshold) held) sig identity) := by
  have valid : InStep hashOne _ held := insertAll_inStep capacity threshold held
  have clamped : (insertAll hashOne (new ρ capacity threshold) held).threshold = max 0 (min threshold 1) :=
    insertAll_threshold _ _
  rw [← clamped] at above ⊢
  exact (valid.lookup_scanned identity above full query).perm (insertAll_window capacity threshold held)

-- With every signature whole, each lookup answers what a plain search of the
-- newest inserts before it would, whatever runs beside it.
theorem answers_scanned {capacity : Nat} {threshold : ℚ} {trace : List (State τ ρ × τ)}
    (path : Path (Step hashOne) (start (new ρ capacity threshold) program) trace s)
    (above : 97 / 128 ≤ max 0 (min threshold 1))
    (full : ∀ t, ∀ call ∈ program t, call.sig.slots.length = 128) {early late : List (τ × Call ρ)}
    {identity : String} (took : points point trace = early ++ (t,.lookup sig identity) :: late) :
    ∃ answer, (replay (perform hashOne) (new ρ capacity threshold) early).2 t ++ [answer] <+:
        s.answers t ++ (s.pc t).answer.toList ∧
      Scanned (max 0 (min threshold 1)) (Fifo.window (max capacity 1) (inserted early)) sig identity answer := by
  have linear := path_linearized path
  have whole (u : τ) (call : Call ρ) (member : (u,call) ∈ points point trace) :
      call.sig.slots.length = 128 := by
    refine full u call ?_
    rw [linear.order u,List.append_assoc]
    exact List.mem_append_left _ (mem_own member)
  refine ⟨lookup hashOne (replay (perform hashOne) (new ρ capacity threshold) early).1 sig identity,?_,?_⟩
  · rw [← linear.answers t,took]
    exact replay_answer rfl
  · rw [replay_inserts]
    have query : (Call.lookup sig identity : Call ρ).sig.slots.length = 128 :=
      whole t _ (by rw [took]; simp)
    refine lookup_window identity above ?_ query
    intro e member
    obtain ⟨⟨u,call⟩,among,same⟩ := List.mem_filterMap.mp member
    have sized := whole u call (by rw [took]; exact List.mem_append_left _ among)
    cases call with
    | lookup => cases same
    | insert sig result identity =>
        cases same
        exact sized

theorem answers_scanned_beside : [some 7] <+: besideRun.2.answers false := by
  have full : ∀ t, ∀ call ∈ besideProgram t, call.sig.slots.length = 128 := by
    rintro (_ | _) call member
    · cases List.mem_singleton.mp member
      exact List.length_replicate
    · simp only [besideProgram,List.mem_cons,List.not_mem_nil,or_false] at member
      rcases member with rfl | rfl <;> exact List.length_replicate
  have took : points point besideRun.1 =
      [(true,.insert zeros 7 "m")] ++ (false,.lookup zeros "m") :: [(true,.insert zeros 8 "m")] :=
    beside_points
  obtain ⟨answer,told,scanned⟩ := answers_scanned beside_path (by norm_num) full took
  have alike : share zeros zeros = 1 := by
    simp [share,zeros]
  obtain ⟨r,rfl⟩ := Option.isSome_iff_exists.mp
    (scanned.served.mpr ⟨⟨zeros,"m",7⟩,List.mem_singleton.mpr rfl,rfl,by rw [alike]; norm_num⟩)
  obtain ⟨e,only,_,result,_⟩ := scanned.best r rfl
  cases List.mem_singleton.mp only
  rw [← result] at told
  exact told

end SemanticClassifier.TextCacheLocks
