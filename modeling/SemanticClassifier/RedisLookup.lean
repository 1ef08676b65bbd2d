import SemanticClassifier.Classify
import SemanticClassifier.Library.IeeeSums
import SemanticClassifier.Library.Interleaving
import SemanticClassifier.RedisReply

namespace SemanticClassifier.L2
open Classify Floating Interleaving

structure Counters where
  l2Hits : Nat
  l2Misses : Nat
  l2Degraded : Nat

inductive Counter where
  | hit
  | miss
  | degraded
  deriving DecidableEq

def Counters.record (counters : Counters) : Counter → Counters
  | .hit => {counters with l2Hits := counters.l2Hits + 1}
  | .miss => {counters with l2Misses := counters.l2Misses + 1}
  | .degraded => {counters with l2Degraded := counters.l2Degraded + 1}

structure Shared where
  breaker : Breaker.State
  counters : Counters

variable {φ ρ : Type} [Floating φ]

def cosineScoreFromDistance (distance : φ) : φ := sub (ofNat 1) distance

section Judge
variable (cache : Cache φ ρ)

-- What a reply comes to: the result, and the counter that says so.
def judge (value : Value) : Option ρ × Counter :=
  match parseKnnReply cache value with
  | some (distance,payload) =>
    if AtLeast (cosineScoreFromDistance distance) cache.threshold then
      match cache.decodeResult payload with
      | some result => (some result,.hit)
      | none => (none,.degraded)
    else (none,.miss)
  | none => (none,.miss)

def lookup (s : Shared) (asked : Nat) (outcome : Except String Value) (answered : Nat) : Option ρ × Shared :=
  let breaker := (Breaker.allow s.breaker asked).2
  if (Breaker.allow s.breaker asked).1 then
    match outcome with
    | .ok value =>
      ((judge cache value).1,⟨Breaker.recordSuccess breaker,s.counters.record (judge cache value).2⟩)
    | .error _ => (none,⟨Breaker.recordFailure cache.breaker breaker answered,s.counters.record .degraded⟩)
  else (none,⟨breaker,s.counters.record .degraded⟩)

-- What a hit rests on.
def HitReply (value : Value) (result : ρ) : Prop :=
  ∃ items fields text d payload, value = .array items ∧ items[2]? = some (Value.array fields) ∧
    Holds cache fields "dist" text ∧ cache.parseF32 text = some d ∧ ¬ IsNan d ∧
    AtLeast (cosineScoreFromDistance d) cache.threshold ∧
    Holds cache fields "payload" payload ∧ cache.decodeResult payload = some result

theorem judge_perm {front behind : List Value} {pairs others : List (Value × Value)} {left : List Value}
    (third : front.length = 2) (few : left.length ≤ 1) (same : pairs.Perm others)
    (distinct : (pairs.map fun pair => asString cache pair.1).Nodup) :
    judge cache (.array (front ++ .array (fieldsOf pairs left) :: behind)) =
      judge cache (.array (front ++ .array (fieldsOf others left) :: behind)) := by
  have here (fields : List Value) : (front ++ .array fields :: behind)[2]? = some (.array fields) := by
    rw [List.getElem?_append_right third.le,third]
    rfl
  have read : readFields cache (fieldsOf pairs left) (none,none) =
      readFields cache (fieldsOf others left) (none,none) := by
    rw [readFields_last,readFields_last,pairsOf_fields pairs few,pairsOf_fields others few,
      lastField_perm cache same distinct,lastField_perm cache same distinct]
  simp only [judge,parseKnnReply,here,read]

theorem judge_served {value : Value} {result : Option ρ} {counter : Counter}
    (judged : judge cache value = (result,counter)) : result.isSome = true ↔ counter = .hit := by
  rw [show result = (judge cache value).1 by rw [judged],show counter = (judge cache value).2 by rw [judged]]
  unfold judge
  split
  · split
    · split <;> simp
    · simp
  · simp

end Judge

section Numbers
-- What is no number stays none under subtraction and compares with nothing.
variable (propagates : ∀ x y : φ, IsNan y → IsNan (sub x y))
  (unordered : ∀ x y : φ, IsNan x → partialCmp x y = none)
include propagates unordered

theorem score_number {d threshold : φ} (above : AtLeast (cosineScoreFromDistance d) threshold) : ¬ IsNan d := by
  intro nan
  have none := unordered _ threshold (propagates (ofNat 1) d nan)
  rcases above with greater | equal
  · rw [cosineScoreFromDistance,none] at greater
    cases greater
  · rw [cosineScoreFromDistance,none] at equal
    cases equal

theorem judge_hit {cache : Cache φ ρ} {value : Value} {result : ρ} (served : (judge cache value).1 = some result) :
    HitReply cache value result := by
  unfold judge at served
  split at served
  · rename_i distance payload parsed
    split at served
    · rename_i above
      split at served
      · rename_i decoded read
        cases served
        obtain ⟨items,fields,text,shape,third,dist,number,stored⟩ := parse_parts cache parsed
        exact ⟨items,fields,text,distance,payload,shape,third,dist,number,
          score_number propagates unordered above,above,stored,read⟩
      · cases served
    · cases served
  · cases served

end Numbers

-- Where a call stands.
inductive Phase (ρ : Type) where
  | ready
  | refused
  | admitted
  | answered (outcome : Except String Value)
  | settled (outcome : Except String Value)
  | returned (result : Option ρ)

-- What a call does to the outside, one lock or one exchange at a time.
inductive Effect where
  | refused (now : Nat)
  | allowed (now : Nat)
  | answered (outcome : Except String Value)
  | success
  | failure (now : Nat)
  | counted (counter : Counter)

def Effect.counter : Effect → Option Counter
  | .counted counter => some counter
  | .refused _ | .allowed _ | .answered _ | .success | .failure _ => none

structure World (ρ : Type) where
  shared : Shared
  calls : Nat → Phase ρ

section Runs
variable (cache : Cache φ ρ)

def Effect.onBreaker (s : Breaker.State) : Effect → Breaker.State
  | .refused now | .allowed now => (Breaker.allow s now).2
  | .success => Breaker.recordSuccess s
  | .failure now => Breaker.recordFailure cache.breaker s now
  | .answered _ | .counted _ => s

def Effect.onShared (s : Shared) (effect : Effect) : Shared :=
  ⟨effect.onBreaker cache s.breaker,effect.counter.elim s.counters s.counters.record⟩

def verdict : Phase ρ → Option (Option ρ × Counter)
  | .refused | .settled (.error _) => some (none,.degraded)
  | .settled (.ok value) => some (judge cache value)
  | .ready | .admitted | .answered _ | .returned _ => none

-- The lines of `lookup` a call may execute next; the server's answer is anybody's.
inductive Turn (s : Shared) : Phase ρ → Effect → Phase ρ → Prop where
  | refused : (Breaker.allow s.breaker now).1 = false → Turn s .ready (.refused now) .refused
  | allowed : (Breaker.allow s.breaker now).1 = true → Turn s .ready (.allowed now) .admitted
  | answered : Turn s .admitted (.answered outcome) (.answered outcome)
  | success : Turn s (.answered (.ok value)) .success (.settled (.ok value))
  | failure : Turn s (.answered (.error e)) (.failure now) (.settled (.error e))
  | counted : verdict cache phase = some (result,counter) → Turn s phase (.counted counter) (.returned result)

def advance (w : World ρ) (act : Nat × Effect) (phase : Phase ρ) : World ρ :=
  ⟨act.2.onShared cache w.shared,Function.update w.calls act.1 phase⟩

def Step (w : World ρ) (act : Nat × Effect) (next : World ρ) : Prop :=
  ∃ phase, Turn cache w.shared (w.calls act.1) act.2 phase ∧ next = advance cache w act phase

-- The effects of one call in a run, oldest first.
def course (id : Nat) (trace : List (World ρ × (Nat × Effect))) : List Effect :=
  (trace.filter fun row => row.2.1 = id).map fun row => row.2.2

-- What a call has done by the time it stands where it stands.
inductive Course : Phase ρ → List Effect → Prop where
  | ready : Course .ready []
  | refused : Course .refused [.refused now]
  | admitted : Course .admitted [.allowed now]
  | answered : Course (.answered outcome) [.allowed now,.answered outcome]
  | success : Course (.settled (.ok value)) [.allowed now,.answered (.ok value),.success]
  | failure : Course (.settled (.error e)) [.allowed now,.answered (.error e),.failure after]
  | shut : Course (.returned none) [.refused now,.counted .degraded]
  | served : judge cache value = (result,counter) → Course (.returned result)
      [.allowed now,.answered (.ok value),.success,.counted counter]
  | failed : Course (.returned none)
      [.allowed now,.answered (.error e),.failure after,.counted .degraded]

variable {cache}

theorem Turn.course {s : Shared} {phase next : Phase ρ} {effect : Effect} {done : List Effect}
    (turn : Turn cache s phase effect next) (before : Course cache phase done) :
    Course cache next (done ++ [effect]) := by
  cases turn with
  | refused => cases before; exact .refused
  | allowed => cases before; exact .admitted
  | answered => cases before; exact .answered
  | success => cases before; exact .success
  | failure => cases before; exact .failure
  | counted concluded =>
      cases before with
      | ready | admitted | answered | shut | served | failed => cases concluded
      | refused => cases concluded; exact .shut
      | failure => cases concluded; exact .failed
      | success =>
          exact .served (Option.some.inj concluded)

theorem course_snoc (id : Nat) (trace : List (World ρ × (Nat × Effect))) (w : World ρ) (act : Nat × Effect) :
    course id (trace ++ [(w,act)]) = course id trace ++ if act.1 = id then [act.2] else [] := by
  rw [course,List.filter_append,List.map_append]
  by_cases here : act.1 = id <;> simp [course,here]

theorem run_course {start w : World ρ} {trace : List (World ρ × (Nat × Effect))}
    (ready : ∀ id, start.calls id = .ready) (path : Path (Step cache) start trace w) (id : Nat) :
    Course cache (w.calls id) (course id trace) := by
  induction path with
  | nil =>
      rw [ready id]
      exact .ready
  | @snoc trace before act after _ taken ih =>
      obtain ⟨phase,turn,rfl⟩ := taken
      rw [course_snoc]
      change Course cache (Function.update before.calls act.1 phase id) _
      by_cases here : act.1 = id
      · subst here
        rw [if_pos rfl,Function.update_self]
        exact turn.course ih
      · rw [if_neg here,List.append_nil,Function.update_of_ne (Ne.symm here)]
        exact ih

-- How often a counter was incremented in a run.
def increments (counter : Counter) (trace : List (World ρ × (Nat × Effect))) : Nat :=
  (trace.filterMap fun row => row.2.2.counter).count counter

theorem increments_snoc (counter : Counter) (trace : List (World ρ × (Nat × Effect))) (w : World ρ)
    (act : Nat × Effect) : increments counter (trace ++ [(w,act)]) =
      increments counter trace + if act.2.counter = some counter then 1 else 0 := by
  rw [increments,List.filterMap_append,List.count_append,increments]
  cases counted : act.2.counter with
  | none => simp [counted]
  | some other => simp [counted,List.count_singleton]

theorem run_counters {start w : World ρ} {trace : List (World ρ × (Nat × Effect))}
    (path : Path (Step cache) start trace w) :
    w.shared.counters.l2Hits = start.shared.counters.l2Hits + increments .hit trace ∧
    w.shared.counters.l2Misses = start.shared.counters.l2Misses + increments .miss trace ∧
    w.shared.counters.l2Degraded = start.shared.counters.l2Degraded + increments .degraded trace := by
  induction path with
  | nil => exact ⟨rfl,rfl,rfl⟩
  | @snoc trace before act after _ taken ih =>
      obtain ⟨phase,_,rfl⟩ := taken
      rw [increments_snoc,increments_snoc,increments_snoc]
      cases counted : act.2.counter with
      | none => simpa [advance,Effect.onShared,counted] using ih
      | some counter =>
          cases counter <;> simp [advance,Effect.onShared,counted,Counters.record] <;> omega

theorem run_breaker {start w : World ρ} {trace : List (World ρ × (Nat × Effect))}
    (path : Path (Step cache) start trace w) :
    w.shared.breaker = trace.foldl (fun s row => row.2.2.onBreaker cache s) start.shared.breaker := by
  induction path with
  | nil => rfl
  | snoc _ taken ih =>
      obtain ⟨phase,_,rfl⟩ := taken
      rw [List.foldl_append,← ih]
      rfl

variable (cache) in
-- One call's books.
structure Accounted (result : Option ρ) (done : List Effect) : Prop where
  once : ∃ counter, done.filterMap Effect.counter = [counter]
  served : result.isSome = true ↔ done.filterMap Effect.counter = [.hit]
  grounds : ∀ r, result = some r → (∃ now, .allowed now ∈ done) ∧
    ∃ value, .answered (.ok value) ∈ done ∧ HitReply cache value r
  success : .success ∈ done ↔ ∃ value, .answered (.ok value) ∈ done
  failure : (∃ now, .failure now ∈ done) ↔ ∃ e, .answered (.error e) ∈ done

theorem Course.accounted (propagates : ∀ x y : φ, IsNan y → IsNan (sub x y))
    (unordered : ∀ x y : φ, IsNan x → partialCmp x y = none) {result : Option ρ} {done : List Effect}
    (course : Course cache (.returned result) done) : Accounted cache result done := by
  cases course with
  | shut | failed =>
      refine ⟨⟨.degraded,rfl⟩,?_,nofun,by simp,by simp⟩
      simp [List.filterMap_cons,Effect.counter]
  | served judged =>
      refine ⟨⟨_,rfl⟩,?_,?_,?_,?_⟩
      · have hit := judge_served cache judged
        simpa [List.filterMap_cons,Effect.counter] using hit
      · intro r same
        subst same
        have reply := judge_hit propagates unordered (congrArg Prod.fst judged)
        exact ⟨⟨_,List.mem_cons_self⟩,_,by simp,reply⟩
      · simp
      · simp

theorem Turn.extend {start w : World ρ} {trace : List (World ρ × (Nat × Effect))} {id : Nat} {effect : Effect}
    {phase next : Phase ρ} (turn : Turn cache w.shared phase effect next) (here : w.calls id = phase)
    (path : Path (Step cache) start trace w) :
    Path (Step cache) start (trace ++ [(w,(id,effect))]) (advance cache w (id,effect) next) ∧
      (advance cache w (id,effect) next).calls id = next := by
  refine ⟨path.snoc ⟨next,here ▸ turn,rfl⟩,?_⟩
  change Function.update w.calls id next id = next
  rw [Function.update_self]

variable (cache) in
-- Undisturbed, the steps of a call are `lookup`.
theorem lookup_alone (w : World ρ) (id asked answered : Nat) (outcome : Except String Value)
    (ready : w.calls id = .ready) : ∃ trace next, Path (Step cache) w trace next ∧
      next.calls id = .returned (lookup cache w.shared asked outcome answered).1 ∧
      next.shared = (lookup cache w.shared asked outcome answered).2 := by
  cases allowed : (Breaker.allow w.shared.breaker asked).1 with
  | false =>
      have shut : Turn cache w.shared .ready (.refused asked) .refused := .refused allowed
      obtain ⟨first,refused⟩ := shut.extend ready .nil
      obtain ⟨second,done⟩ := Turn.extend (.counted rfl) refused first
      have skipped : lookup cache w.shared asked outcome answered =
          (none,⟨(Breaker.allow w.shared.breaker asked).2,w.shared.counters.record .degraded⟩) := by
        simp [lookup,allowed]
      refine ⟨_,_,second,?_,?_⟩
      · rw [done,skipped]
      · rw [skipped]
        rfl
  | true =>
      have passed : Turn cache w.shared .ready (.allowed asked) .admitted := .allowed allowed
      obtain ⟨first,admitted⟩ := passed.extend ready .nil
      obtain ⟨second,heard⟩ := Turn.extend (.answered : Turn cache _ _ (.answered outcome) _) admitted first
      cases outcome with
      | ok value =>
          obtain ⟨third,settled⟩ := Turn.extend .success heard second
          obtain ⟨fourth,done⟩ := Turn.extend (.counted rfl) settled third
          refine ⟨_,_,fourth,?_,?_⟩
          · rw [done,lookup,allowed]
            rfl
          · rw [lookup,allowed]
            rfl
      | error e =>
          obtain ⟨third,settled⟩ := Turn.extend (.failure : Turn cache _ _ (.failure answered) _) heard second
          obtain ⟨fourth,done⟩ := Turn.extend (.counted rfl) settled third
          refine ⟨_,_,fourth,?_,?_⟩
          · rw [done,lookup,allowed]
            rfl
          · rw [lookup,allowed]
            rfl

end Runs

def storedText : String := "\x7b\"classifier_id\":\"complexity\",\"model_revision\":\"m\"," ++
  "\"tokenizer_revision\":\"t\",\"taxonomy_revision\":\"x\",\"status\":\"Ok\",\"ranked\":[]\x7d"

def stored : ClassificationResult (Ieee ℚ) := ⟨"complexity","m","t","x",.ok,[]⟩

def nearbyCache : Cache (Ieee ℚ) (ClassificationResult (Ieee ℚ)) where
  breaker := Breaker.new 5 10
  threshold := .finite (9/10)
  lossy bytes := String.ofList (bytes.map fun byte => Char.ofNat byte.toNat)
  parseF32 text := if text = "0.05" then some (.finite (1/20)) else none
  decodeResult text := if text = storedText then some stored else none

def bulk (text : String) : Value := .bulkString (text.toList.map fun c => c.toNat.toUInt8)

def nearbyReply : Value :=
  .array [.other "int",bulk "sc:some-key",.array [bulk "payload",bulk storedText,bulk "dist",bulk "0.05"]]

def idle : World (ClassificationResult (Ieee ℚ)) := ⟨⟨Breaker.initial,⟨0,0,0⟩⟩,fun _ => .ready⟩

end SemanticClassifier.L2
