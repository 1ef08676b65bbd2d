import SemanticClassifier.Library.Interleaving
import SemanticClassifier.Library.Mutex
import SemanticClassifier.TextCache

namespace SemanticClassifier.TextCacheLocks
open Prefilter TextCache Interleaving

inductive Lock where
  | index | entries | cursor
  deriving DecidableEq

inductive Call (ρ : Type) where
  | lookup (sig : Signature) (identity : String)
  | insert (sig : Signature) (result : ρ) (identity : String)

-- Where a thread stands between two lock operations; `lookupIndex` and
-- `insertEntries` are the two places that hold one of the first two locks and ask for the other.
inductive Pc (ρ : Type) where
  | idle
  | lookupIndex (sig : Signature) (identity : String)
  | lookupEntries (sig : Signature) (identity : String)
  | lookupAnswered (answer : Option ρ)
  | insertEntries (sig : Signature) (result : ρ) (identity : String)
  | insertIndex (sig : Signature) (result : ρ) (identity : String)
  | insertCursor (sig : Signature) (result : ρ) (identity : String)
  | insertPlaced (sig : Signature) (id : Nat)
  | insertIndexed

def Pc.Holds : Pc ρ → Lock → Prop
  | .idle,_ => False
  | .lookupIndex ..,l => l = .index
  | .lookupEntries ..,l => l = .index ∨ l = .entries
  | .lookupAnswered _,l => l = .index
  | .insertEntries ..,l => l = .entries
  | .insertIndex ..,l => l = .index ∨ l = .entries
  | .insertCursor ..,l => l = .cursor ∨ l = .index ∨ l = .entries
  | .insertPlaced ..,l => l = .index ∨ l = .entries
  | .insertIndexed,l => l = .entries

structure State (τ ρ : Type) where
  cache : MemoryTextCache ρ
  locks : Mutex.Table τ Lock
  pc : τ → Pc ρ
  program : τ → List (Call ρ)
  answers : τ → List (Option ρ)

variable {τ ρ : Type} [DecidableEq τ] (hashOne : UInt64 × List UInt64 → UInt64)

def start (cache : MemoryTextCache ρ) (program : τ → List (Call ρ)) : State τ ρ :=
  ⟨cache,fun _ => none,fun _ => .idle,program,fun _ => []⟩

def take (s : State τ ρ) (t : τ) (lock : Lock) (pc : Pc ρ) : Option (State τ ρ) :=
  (Mutex.acquire s.locks t lock).map fun locks =>
    {s with locks := locks,pc := Function.update s.pc t pc}

def drop (s : State τ ρ) (t : τ) (lock : Lock) (pc : Pc ρ) : State τ ρ :=
  {s with locks := Mutex.release s.locks lock,pc := Function.update s.pc t pc}

-- One lock operation of one thread. Guards leave in the reverse order of their
-- declaration, so a lookup drops `entries` first and an insert drops `index` first.
def advance (s : State τ ρ) (t : τ) : Option (State τ ρ) :=
  match s.pc t with
  | .idle =>
    match s.program t with
    | [] => none
    | .lookup sig identity :: rest =>
      take {s with program := Function.update s.program t rest} t .index (.lookupIndex sig identity)
    | .insert sig result identity :: rest =>
      take {s with program := Function.update s.program t rest} t .entries
        (.insertEntries sig result identity)
  | .lookupIndex sig identity => take s t .entries (.lookupEntries sig identity)
  | .lookupEntries sig identity =>
    some (drop s t .entries (.lookupAnswered (lookup hashOne s.cache sig identity)))
  | .lookupAnswered answer =>
    some (drop {s with answers := Function.update s.answers t (s.answers t ++ [answer])} t .index .idle)
  | .insertEntries sig result identity => take s t .index (.insertIndex sig result identity)
  | .insertIndex sig result identity =>
    if room : s.cache.entries.length < s.cache.capacity then
      some {s with
        cache := pushEntry s.cache ⟨sig,identity,result⟩ room
        pc := Function.update s.pc t (.insertPlaced sig s.cache.entries.length)}
    else take s t .cursor (.insertCursor sig result identity)
  | .insertCursor sig result identity =>
    let placed := place hashOne s.cache ⟨sig,identity,result⟩
    some (drop {s with cache := placed.1} t .cursor (.insertPlaced sig placed.2))
  | .insertPlaced sig id =>
    some (drop {s with cache := indexKeys hashOne s.cache sig id} t .index .insertIndexed)
  | .insertIndexed => some (drop s t .entries .idle)

def Step (s : State τ ρ) (t : τ) (next : State τ ρ) : Prop := advance hashOne s t = some next

def Unfinished (s : State τ ρ) (t : τ) : Prop := s.pc t ≠ .idle ∨ s.program t ≠ []

-- The lock a thread's next operation asks for, if it asks for one.
def request (s : State τ ρ) (t : τ) : Option Lock :=
  match s.pc t with
  | .idle =>
    match s.program t with
    | [] => none
    | .lookup .. :: _ => some .index
    | .insert .. :: _ => some .entries
  | .lookupIndex .. => some .entries
  | .insertEntries .. => some .index
  | .insertIndex .. => if s.cache.entries.length < s.cache.capacity then none else some .cursor
  | _ => none

variable {hashOne}

theorem take_parts {s next : State τ ρ} {t : τ} {lock : Lock} {pc : Pc ρ}
    (taken : take s t lock pc = some next) : s.locks lock = none ∧
      next = {s with
        locks := Function.update s.locks lock (some t)
        pc := Function.update s.pc t pc} := by
  unfold take at taken
  cases got : Mutex.acquire s.locks t lock with
  | none => simp [got] at taken
  | some locks =>
      obtain ⟨free,rfl⟩ := Mutex.acquire_parts got
      simp only [got,Option.map_some,Option.some.injEq] at taken
      exact ⟨free,taken.symm⟩

theorem take_free {s : State τ ρ} {t : τ} {lock : Lock} {pc : Pc ρ} (free : s.locks lock = none) :
    take s t lock pc = some {s with
      locks := Function.update s.locks lock (some t)
      pc := Function.update s.pc t pc} := by
  rw [take,Mutex.acquire_free free]
  rfl

theorem take_held {s : State τ ρ} {t owner : τ} {lock : Lock} {pc : Pc ρ}
    (held : s.locks lock = some owner) : take s t lock pc = none := by
  rw [take,Mutex.acquire_held held]
  rfl

def Owned (s : State τ ρ) : Prop := Mutex.Agrees s.locks (fun t => (s.pc t).Holds)

omit [DecidableEq τ] in
theorem start_owned (cache : MemoryTextCache ρ) (program : τ → List (Call ρ)) :
    Owned (start cache program) := by
  intro lock thread
  simp [start,Pc.Holds]

theorem step_owned {s next : State τ ρ} {t : τ} (valid : Owned s) (step : Step hashOne s t next) :
    Owned next := by
  unfold Step advance at step
  cases place : s.pc t with
  | idle =>
      simp only [place] at step
      cases calls : s.program t with
      | nil => simp [calls] at step
      | cons call rest =>
          cases call with
          | lookup sig identity =>
              simp only [calls] at step
              obtain ⟨free,rfl⟩ := take_parts step
              exact valid.take free (by simp [place,Pc.Holds])
          | insert sig result identity =>
              simp only [calls] at step
              obtain ⟨free,rfl⟩ := take_parts step
              exact valid.take free (by simp [place,Pc.Holds])
  | lookupIndex sig identity =>
      simp only [place] at step
      obtain ⟨free,rfl⟩ := take_parts step
      exact valid.take free (by intro l; cases l <;> simp [place,Pc.Holds])
  | lookupEntries sig identity =>
      simp only [place,Option.some.injEq] at step
      subst step
      exact valid.drop (by simp [place,Pc.Holds]) (by intro l; cases l <;> simp [place,Pc.Holds])
  | lookupAnswered answer =>
      simp only [place,Option.some.injEq] at step
      subst step
      exact valid.drop (by simp [place,Pc.Holds]) (by intro l; cases l <;> simp [place,Pc.Holds])
  | insertEntries sig result identity =>
      simp only [place] at step
      obtain ⟨free,rfl⟩ := take_parts step
      exact valid.take free (by intro l; cases l <;> simp [place,Pc.Holds])
  | insertIndex sig result identity =>
      simp only [place] at step
      split at step
      · cases Option.some.inj step
        exact valid.keep (by simp [place,Pc.Holds])
      · obtain ⟨free,rfl⟩ := take_parts step
        exact valid.take free (by intro l; cases l <;> simp [place,Pc.Holds])
  | insertCursor sig result identity =>
      simp only [place,Option.some.injEq] at step
      subst step
      exact valid.drop (by simp [place,Pc.Holds]) (by intro l; cases l <;> simp [place,Pc.Holds])
  | insertPlaced sig id =>
      simp only [place,Option.some.injEq] at step
      subst step
      exact valid.drop (by simp [place,Pc.Holds]) (by intro l; cases l <;> simp [place,Pc.Holds])
  | insertIndexed =>
      simp only [place,Option.some.injEq] at step
      subst step
      exact valid.drop (by simp [place,Pc.Holds]) (by intro l; cases l <;> simp [place,Pc.Holds])

theorem path_owned {cache : MemoryTextCache ρ} {program : τ → List (Call ρ)} {s : State τ ρ}
    (path : Path (Step hashOne) (start cache program) trace s) : Owned s :=
  path.preserves (fun _ _ _ valid step => step_owned valid step) (start_owned cache program)

-- Half way: one of the two outer locks is held and the other still asked for.
def Pc.LookupHalf : Pc ρ → Prop
  | .lookupIndex .. => True
  | _ => False

def Pc.InsertHalf : Pc ρ → Prop
  | .insertEntries .. => True
  | _ => False

def StartsLookup (s : State τ ρ) (t : τ) : Prop :=
  s.pc t = .idle ∧ ∃ sig identity rest, s.program t = .lookup sig identity :: rest

def StartsInsert (s : State τ ρ) (t : τ) : Prop :=
  s.pc t = .idle ∧ ∃ sig result identity rest, s.program t = .insert sig result identity :: rest

-- The step takes the first lock of a call while a call of the other kind holds
-- its own first lock and not yet its second.
def Crosses (s : State τ ρ) (t : τ) : Prop :=
  (StartsLookup s t ∧ ∃ u, (s.pc u).InsertHalf) ∨ (StartsInsert s t ∧ ∃ u, (s.pc u).LookupHalf)

def Uncrossed (s : State τ ρ) (t : τ) : Prop := ¬ Crosses s t

def Apart (s : State τ ρ) : Prop := ∀ t u, (s.pc t).LookupHalf → ¬ (s.pc u).InsertHalf

-- Only the first lock of a call leads half way into it.
theorem step_place {s next : State τ ρ} {t : τ} (step : Step hashOne s t next) :
    ∃ after, next.pc = Function.update s.pc t after ∧
      (after.LookupHalf ↔ StartsLookup s t) ∧ (after.InsertHalf ↔ StartsInsert s t) := by
  unfold StartsLookup StartsInsert
  unfold Step advance at step
  cases place : s.pc t with
  | idle =>
      simp only [place] at step
      cases calls : s.program t with
      | nil => simp [calls] at step
      | cons call rest =>
          cases call with
          | lookup sig identity =>
              simp only [calls] at step
              obtain ⟨_,rfl⟩ := take_parts step
              exact ⟨_,rfl,by simp [Pc.LookupHalf],by simp [Pc.InsertHalf]⟩
          | insert sig result identity =>
              simp only [calls] at step
              obtain ⟨_,rfl⟩ := take_parts step
              exact ⟨_,rfl,by simp [Pc.LookupHalf],by simp [Pc.InsertHalf]⟩
  | lookupIndex sig identity =>
      simp only [place] at step
      obtain ⟨_,rfl⟩ := take_parts step
      exact ⟨_,rfl,by simp [Pc.LookupHalf],by simp [Pc.InsertHalf]⟩
  | insertEntries sig result identity =>
      simp only [place] at step
      obtain ⟨_,rfl⟩ := take_parts step
      exact ⟨_,rfl,by simp [Pc.LookupHalf],by simp [Pc.InsertHalf]⟩
  | insertIndex sig result identity =>
      simp only [place] at step
      split at step
      · cases Option.some.inj step
        exact ⟨_,rfl,by simp [Pc.LookupHalf],by simp [Pc.InsertHalf]⟩
      · obtain ⟨_,rfl⟩ := take_parts step
        exact ⟨_,rfl,by simp [Pc.LookupHalf],by simp [Pc.InsertHalf]⟩
  | lookupEntries | lookupAnswered | insertCursor | insertPlaced | insertIndexed =>
      simp only [place,Option.some.injEq] at step
      subst step
      exact ⟨_,rfl,by simp [Pc.LookupHalf],by simp [Pc.InsertHalf]⟩

theorem step_apart {s next : State τ ρ} {t : τ} (apart : Apart s) (uncrossed : Uncrossed s t)
    (step : Step hashOne s t next) : Apart next := by
  obtain ⟨after,moved,lookups,inserts⟩ := step_place step
  intro u v
  rw [moved]
  by_cases one : u = t
  · subst one
    by_cases two : v = u
    · subst two
      rw [Function.update_self]
      intro half other
      cases after <;> simp only [Pc.LookupHalf,Pc.InsertHalf] at half other
    · rw [Function.update_self,Function.update_of_ne two]
      exact fun half other => uncrossed (.inl ⟨lookups.mp half,v,other⟩)
  · by_cases two : v = t
    · subst two
      rw [Function.update_self,Function.update_of_ne one]
      exact fun half other => uncrossed (.inr ⟨inserts.mp other,u,half⟩)
    · rw [Function.update_of_ne one,Function.update_of_ne two]
      exact apart u v

theorem path_apart {cache : MemoryTextCache ρ} {program : τ → List (Call ρ)} {s : State τ ρ}
    (path : Path (Step hashOne) (start cache program) trace s) (met : Met Uncrossed trace) :
    Apart s :=
  path.preserves_where (fun _ _ _ apart uncrossed step => step_apart apart uncrossed step) met
    (fun _ _ half => False.elim half)

theorem step_ready {s : State τ ρ} {t : τ} (unfinished : Unfinished s t)
    (free : ∀ lock, request s t = some lock → s.locks lock = none) :
    ∃ next, Step hashOne s t next := by
  unfold Step advance
  unfold request at free
  cases place : s.pc t with
  | idle =>
      cases calls : s.program t with
      | nil => rcases unfinished with moved | more <;> contradiction
      | cons call rest => cases call <;> exact ⟨_,take_free (free _ (by simp [place,calls]))⟩
  | lookupIndex | insertEntries => exact ⟨_,take_free (free _ (by simp [place]))⟩
  | insertIndex =>
      by_cases room : s.cache.entries.length < s.cache.capacity
      · exact ⟨_,by simp [room]; rfl⟩
      · simp only [room,dite_false]
        exact ⟨_,take_free (free _ (by simp [place,room]))⟩
  | lookupEntries | lookupAnswered | insertCursor | insertPlaced | insertIndexed => exact ⟨_,rfl⟩

-- Lookups climb from `index` to `entries`, inserts from `entries` to `index`;
-- either order alone is a lock order, with `cursor` above both.
def rank (lookups : Bool) : Lock → Nat
  | .index => if lookups then 0 else 1
  | .entries => if lookups then 1 else 0
  | .cursor => 2

omit [DecidableEq τ] in
theorem request_above (lookups : Bool) {s : State τ ρ} {t : τ} {held lock : Lock}
    (one : lookups = true → ¬ (s.pc t).InsertHalf) (two : lookups = false → ¬ (s.pc t).LookupHalf)
    (holds : (s.pc t).Holds held) (asks : request s t = some lock) :
    rank lookups held < rank lookups lock := by
  unfold request at asks
  cases place : s.pc t with
  | idle => simp [place,Pc.Holds] at holds
  | lookupIndex =>
      simp only [place,Pc.Holds,Option.some.injEq] at holds asks
      subst holds asks
      cases lookups with
      | true => simp [rank]
      | false => exact absurd (by rw [place]; trivial) (two rfl)
  | insertEntries =>
      simp only [place,Pc.Holds,Option.some.injEq] at holds asks
      subst holds asks
      cases lookups with
      | true => exact absurd (by rw [place]; trivial) (one rfl)
      | false => simp [rank]
  | insertIndex =>
      simp only [place,Pc.Holds] at holds asks
      split at asks
      · cases asks
      · cases Option.some.inj asks
        rcases holds with rfl | rfl <;> cases lookups <;> simp [rank]
  | lookupEntries | lookupAnswered | insertCursor | insertPlaced | insertIndexed =>
      simp [place] at asks

theorem apart_progress {s : State τ ρ} (owned : Owned s) (apart : Apart s)
    (unfinished : ∃ t, Unfinished s t) : ∃ t next, Step hashOne s t next := by
  obtain ⟨t,live⟩ := unfinished
  have blocked : ∀ u, Unfinished s u → ¬ (∃ next, Step hashOne s u next) →
      ∃ lock owner, request s u = some lock ∧ (s.pc owner).Holds lock := by
    intro u alive stuck
    by_contra none
    apply stuck
    apply step_ready alive
    intro lock asks
    cases got : s.locks lock with
    | none => rfl
    | some owner => exact absurd ⟨lock,owner,asks,(owned lock owner).mp got⟩ none
  have owners : ∀ u lock, (s.pc u).Holds lock → Unfinished s u := by
    intro u lock holds
    apply Or.inl
    intro idle
    rw [idle] at holds
    exact holds
  have bounded : ∀ lookups lock, rank lookups lock ≤ 2 := by
    intro lookups lock
    cases lookups <;> cases lock <;> simp [rank]
  by_cases half : ∃ u, (s.pc u).LookupHalf
  · obtain ⟨u,half⟩ := half
    obtain ⟨v,_,next,step⟩ := Mutex.ordered_progress (rank true) 2 (bounded true) blocked owners
      (fun v _ _ holds asks =>
        request_above true (fun _ => apart u v half) (fun no => nomatch no) holds asks) live
    exact ⟨v,next,step⟩
  · obtain ⟨v,_,next,step⟩ := Mutex.ordered_progress (rank false) 2 (bounded false) blocked owners
      (fun v _ _ holds asks =>
        request_above false (fun no => nomatch no) (fun _ on => half ⟨v,on⟩) holds asks) live
    exact ⟨v,next,step⟩

-- Nobody can move once one thread holds `index`, another holds `entries` and each
-- asks for the other's lock: whoever stands outside a call needs one of the two.
theorem halves_stuck {s : State τ ρ} (owned : Owned s) {t u : τ} (lookup : (s.pc t).LookupHalf)
    (insert : (s.pc u).InsertHalf) (v : τ) (next : State τ ρ) : ¬ Step hashOne s v next := by
  have holdsIndex : (s.pc t).Holds .index := by
    cases place : s.pc t <;> simp [place,Pc.LookupHalf,Pc.Holds] at lookup ⊢
  have holdsEntries : (s.pc u).Holds .entries := by
    cases place : s.pc u <;> simp [place,Pc.InsertHalf,Pc.Holds] at insert ⊢
  have indexHeld := (owned .index t).mpr holdsIndex
  have entriesHeld := (owned .entries u).mpr holdsEntries
  have index : (s.pc v).Holds .index → (s.pc v).LookupHalf :=
    fun holds => owned.exclusive holdsIndex holds ▸ lookup
  have entries : (s.pc v).Holds .entries → (s.pc v).InsertHalf :=
    fun holds => owned.exclusive holdsEntries holds ▸ insert
  intro step
  unfold Step advance at step
  cases place : s.pc v with
  | idle =>
      simp only [place] at step
      cases calls : s.program v with
      | nil => simp [calls] at step
      | cons call rest =>
          cases call with
          | lookup =>
              simp only [calls] at step
              exact nomatch (take_parts step).1.symm.trans indexHeld
          | insert =>
              simp only [calls] at step
              exact nomatch (take_parts step).1.symm.trans entriesHeld
  | lookupIndex => simp [place,take_held entriesHeld] at step
  | insertEntries => simp [place,take_held indexHeld] at step
  | lookupEntries | lookupAnswered | insertIndex | insertCursor | insertPlaced =>
      simp [place,Pc.Holds,Pc.LookupHalf] at index
  | insertIndexed => simp [place,Pc.Holds,Pc.InsertHalf] at entries

theorem crossing_halves {s next : State τ ρ} {t : τ} (step : Step hashOne s t next)
    (crosses : Crosses s t) : ∃ u v, (next.pc u).LookupHalf ∧ (next.pc v).InsertHalf := by
  obtain ⟨after,moved,lookups,inserts⟩ := step_place step
  have still : ∀ u, s.pc t = .idle → (s.pc u).LookupHalf ∨ (s.pc u).InsertHalf →
      next.pc u = s.pc u := by
    intro u idle half
    rw [moved,Function.update_of_ne]
    rintro rfl
    simp [idle,Pc.LookupHalf,Pc.InsertHalf] at half
  have here : next.pc t = after := by rw [moved,Function.update_self]
  rcases crosses with ⟨starts,u,half⟩ | ⟨starts,u,half⟩
  · exact ⟨t,u,here ▸ lookups.mpr starts,still u starts.1 (.inr half) ▸ half⟩
  · exact ⟨u,t,still u starts.1 (.inl half) ▸ half,here ▸ inserts.mpr starts⟩

abbrev Hung (hashOne : UInt64 × List UInt64 → UInt64) (s : State τ ρ) : Prop :=
  Deadlocked (Step hashOne) (fun s => ∃ t, Unfinished s t) s

-- A run keeps clear of deadlock exactly as long as no step crosses: the crossing
-- step itself already leaves nobody able to move.
theorem deadlock_free_iff_uncrossed {cache : MemoryTextCache ρ} {program : τ → List (Call ρ)}
    {trace : List (State τ ρ × τ)} {last : State τ ρ}
    (path : Path (Step hashOne) (start cache program) trace last) :
    (∀ s, Visited trace last s → ¬ Hung hashOne s) ↔ Met Uncrossed trace := by
  constructor
  · intro free row member crosses
    obtain ⟨early,next,front,step,visited⟩ := path.visited_after member
    have owned := step_owned (path_owned front) step
    obtain ⟨u,v,lookup,insert⟩ := crossing_halves step crosses
    refine free next visited ⟨⟨u,.inl ?_⟩,halves_stuck owned lookup insert⟩
    intro idle
    simp [idle,Pc.LookupHalf] at lookup
  · rintro met s visited ⟨unfinished,stuck⟩
    obtain ⟨early,front,initial⟩ := path.visited visited
    obtain ⟨t,next,step⟩ := apart_progress (path_owned front)
      (path_apart front (met.of_prefix initial)) unfinished
    exact stuck t next step

-- One lookup and one insert on two threads.
def crossProgram : Bool → List (Call Nat)
  | false => [.lookup ⟨[]⟩ "m"]
  | true => [.insert ⟨[]⟩ 7 "m"]

def crossStart : State Bool Nat := start (new Nat 1 1) crossProgram

def crossed (s : State Bool Nat) (t : Bool) : State Bool Nat := (advance (fun fed => fed.1) s t).getD s

theorem cross_path : Path (Step (fun fed => fed.1)) crossStart
    [(crossStart,false),(crossed crossStart false,true)]
    (crossed (crossed crossStart false) true) := by
  have first : Step (fun fed => fed.1) crossStart false (crossed crossStart false) := rfl
  have second : Step (fun fed => fed.1) (crossed crossStart false) true
      (crossed (crossed crossStart false) true) := rfl
  exact (Path.nil.snoc first).snoc second

theorem deadlock_free_iff_uncrossed_cross :
    (∀ s, Visited [(crossStart,false),(crossed crossStart false,true)]
        (crossed (crossed crossStart false) true) s → ¬ Hung (fun fed => fed.1) s) ↔
      Met Uncrossed [(crossStart,false),(crossed crossStart false,true)] :=
  deadlock_free_iff_uncrossed cross_path

theorem lookup_insert_deadlock : ∃ s : State Bool Nat,
    Reached (fun s => s = crossStart) (Step (fun fed => fed.1)) s ∧ Hung (fun fed => fed.1) s := by
  have owned : Owned (crossed (crossed crossStart false) true) := path_owned cross_path
  refine ⟨crossed (crossed crossStart false) true,cross_path.reached rfl,⟨false,.inl nofun⟩,?_⟩
  exact fun v next => halves_stuck (t := false) (u := true) owned trivial trivial v next

end SemanticClassifier.TextCacheLocks
