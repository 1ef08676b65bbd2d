import SemanticClassifier.Library.Tally
import SemanticClassifier.ModelCarDigest
import SemanticClassifier.RedisLookup
import SemanticClassifier.RedisTags

namespace SemanticClassifier.Writeback
open Classify Interleaving Tally

structure WriteJob where
  blob : List UInt8
  dim : Nat
  payload : String
  identity : String

-- What a caller of `insert` passes.
structure Request (φ σ : Type) where
  embedding : Embedding φ
  result : ClassificationResult σ
  identity : String

-- The reader's cache, and what the write side takes from elsewhere.
structure RedisSemanticCache (φ σ ρ : Type) where
  reader : L2.Cache φ ρ
  toLeBytes : φ → List UInt8
  isFinite : σ → Bool
  encodeResult : ClassificationResult σ → String
  blake3 : List UInt8 → Vector UInt8 32

def queueBound : Nat := 1024

inductive Call (φ σ : Type) where
  | idle
  | asked (request : Request φ σ)
  | admitted (request : Request φ σ)
  | sending (request : Request φ σ)
  | degraded (request : Request φ σ)

-- The `sc-l2-writeback` thread.
inductive Worker where
  | receiving
  | received (job : WriteJob)
  | connecting (job : WriteJob)
  | creating (job : WriteJob)
  | writing (job : WriteJob)
  | expiring (job : WriteJob)
  | succeeding (job : WriteJob)
  | failing (job : WriteJob)
  | counting (job : WriteJob)

-- How an exchange with the server ends. After a timeout the command may have
-- been carried out or not.
inductive Exchange where
  | answered | unanswered | failed
  deriving DecidableEq

-- `expires` says which keys carry a time to live. The lists record the run and
-- are never read.
structure State (ι φ σ : Type) where
  shared : L2.Shared
  writer : Breaker.State
  queue : List WriteJob
  calls : ι → Call φ σ
  worker : Worker
  server : Redis.Server
  expires : String → Bool
  begun : List (Request φ σ)
  dropped : List (Request φ σ)
  sent : List (Request φ σ)
  taken : List WriteJob
  applied : List WriteJob
  written : List WriteJob
  lost : List WriteJob
  looked : Nat

inductive Action (ι φ σ : Type) where
  | insert (call : ι) (request : Request φ σ)
  | call (call : ι) (now : Nat)
  | work (now : Nat) (exchange : Exchange)
  | lookup (effect : L2.Effect)
  | lapse (key : String)

section Machine
variable {ι φ σ ρ : Type} [DecidableEq ι] (cache : RedisSemanticCache φ σ ρ)

def vectorToBytes (vector : List φ) : List UInt8 := vector.flatMap cache.toLeBytes

def jobOf (request : Request φ σ) : WriteJob where
  blob := vectorToBytes cache request.embedding.vector
  dim := request.embedding.vector.length
  payload := cache.encodeResult request.result
  identity := request.identity

def finite (request : Request φ σ) : Bool := request.result.ranked.all fun r => cache.isFinite r.score

def keyOf (job : WriteJob) : String := Redis.Kind.semantic.key cache.blake3 job.identity job.blob

def hashOf (job : WriteJob) : Redis.Hash := Redis.Kind.semantic.hash job.identity job.blob job.payload

def start (ι φ σ : Type) : State ι φ σ where
  shared := ⟨Breaker.initial,⟨0,0,0⟩⟩
  writer := Breaker.initial
  queue := []
  calls := fun _ => .idle
  worker := .receiving
  server := Redis.empty
  expires := fun _ => false
  begun := []
  dropped := []
  sent := []
  taken := []
  applied := []
  written := []
  lost := []
  looked := 0

def goes (s : State ι φ σ) (i : ι) (place : Call φ σ) : State ι φ σ :=
  {s with calls := Function.update s.calls i place}

def degrade (shared : L2.Shared) : L2.Shared := {shared with counters := shared.counters.record .degraded}

-- One line of `insert`; the last one records what was dropped.
def callStep (s : State ι φ σ) (i : ι) (now : Nat) : Option (State ι φ σ) :=
  match s.calls i with
  | .idle => none
  | .asked request =>
    let (admitted,breaker) := Breaker.allow s.shared.breaker now
    some (goes {s with shared := {s.shared with breaker := breaker}} i
      (if admitted then .admitted request else .degraded request))
  | .admitted request => some (goes s i (if finite cache request then .sending request else .degraded request))
  | .sending request =>
    if s.queue.length < queueBound then
      some (goes {s with queue := s.queue ++ [jobOf cache request],sent := s.sent ++ [request]} i .idle)
    else some (goes s i (.degraded request))
  | .degraded request =>
    some (goes {s with shared := degrade s.shared,dropped := s.dropped ++ [request]} i .idle)

def carryOut (s : State ι φ σ) (job : WriteJob) : State ι φ σ :=
  let key := keyOf cache job
  {s with
    server := Redis.hset key (hashOf job) s.server
    expires := Function.update s.expires key ((s.server.hashes key).isSome && s.expires key)
    applied := s.applied ++ [job]}

-- EXPIRE does nothing to a key that is not there.
def expire (s : State ι φ σ) (key : String) : State ι φ σ :=
  if (s.server.hashes key).isSome then {s with expires := Function.update s.expires key true} else s

def takes (s : State ι φ σ) (place : Worker) : State ι φ σ := {s with worker := place}

def workStep (s : State ι φ σ) (now : Nat) (exchange : Exchange) : Option (State ι φ σ) :=
  match s.worker with
  | .receiving =>
    match s.queue with
    | [] => none
    | job :: rest => some (takes {s with queue := rest,taken := s.taken ++ [job]} (.received job))
  | .received job =>
    let (admitted,breaker) := Breaker.allow s.writer now
    some (takes {s with writer := breaker} (if admitted then .connecting job else .counting job))
  | .connecting job => some (takes s (if exchange = .failed then .failing job else .creating job))
  | .creating job =>
    some (takes {s with server :=
      if exchange = .failed then s.server else Redis.ftCreate Redis.Kind.semantic.index s.server} (.writing job))
  | .writing job =>
    match exchange with
    | .answered => some (takes (carryOut cache s job) (.expiring job))
    | .unanswered => some (takes (carryOut cache s job) (.failing job))
    | .failed => some (takes s (.failing job))
  | .expiring job =>
    match exchange with
    | .answered => some (takes (expire s (keyOf cache job)) (.succeeding job))
    | .unanswered => some (takes (expire s (keyOf cache job)) (.failing job))
    | .failed => some (takes s (.failing job))
  | .succeeding job =>
    some (takes {s with writer := Breaker.recordSuccess s.writer,written := s.written ++ [job]} .receiving)
  | .failing job =>
    some (takes {s with writer := Breaker.recordFailure cache.reader.breaker s.writer now} (.counting job))
  | .counting job => some (takes {s with shared := degrade s.shared,lost := s.lost ++ [job]} .receiving)

def lookedBy : L2.Effect → Nat
  | .counted .degraded => 1
  | _ => 0

def advance (s : State ι φ σ) : Action ι φ σ → Option (State ι φ σ)
  | .insert i request =>
    match s.calls i with
    | .idle => some (goes {s with begun := s.begun ++ [request]} i (.asked request))
    | _ => none
  | .call i now => callStep cache s i now
  | .work now exchange => workStep cache s now exchange
  | .lookup effect => some {s with shared := effect.onShared cache.reader s.shared,looked := s.looked + lookedBy effect}
  | .lapse key =>
    some {s with server := Redis.lapse key s.server,expires := Function.update s.expires key false}

def Step (s : State ι φ σ) (action : Action ι φ σ) (next : State ι φ σ) : Prop :=
  advance cache s action = some next

-- Everything a step can do, branch by branch.
inductive Change (s : State ι φ σ) : Action ι φ σ → State ι φ σ → Prop where
  | began {i : ι} {request : Request φ σ} : s.calls i = .idle →
      Change s (.insert i request) (goes {s with begun := s.begun ++ [request]} i (.asked request))
  | asked {i : ι} {now : Nat} {request : Request φ σ} {shared : L2.Shared} {place : Call φ σ} :
      s.calls i = .asked request → shared.counters = s.shared.counters →
      (place = .admitted request ∨ place = .degraded request) →
      Change s (.call i now) (goes {s with shared := shared} i place)
  | encoded {i : ι} {now : Nat} {request : Request φ σ} :
      s.calls i = .admitted request → finite cache request = true →
      Change s (.call i now) (goes s i (.sending request))
  | unencoded {i : ι} {now : Nat} {request : Request φ σ} :
      s.calls i = .admitted request → finite cache request = false →
      Change s (.call i now) (goes s i (.degraded request))
  | sent {i : ι} {now : Nat} {request : Request φ σ} :
      s.calls i = .sending request → s.queue.length < queueBound →
      Change s (.call i now)
        (goes {s with queue := s.queue ++ [jobOf cache request],sent := s.sent ++ [request]} i .idle)
  | full {i : ι} {now : Nat} {request : Request φ σ} :
      s.calls i = .sending request → ¬ s.queue.length < queueBound →
      Change s (.call i now) (goes s i (.degraded request))
  | counted {i : ι} {now : Nat} {request : Request φ σ} : s.calls i = .degraded request →
      Change s (.call i now)
        (goes {s with shared := degrade s.shared,dropped := s.dropped ++ [request]} i .idle)
  | received {now : Nat} {exchange : Exchange} {job : WriteJob} {rest : List WriteJob} :
      s.worker = .receiving → s.queue = job :: rest →
      Change s (.work now exchange) (takes {s with queue := rest,taken := s.taken ++ [job]} (.received job))
  | allowed {now : Nat} {exchange : Exchange} {job : WriteJob} {writer : Breaker.State} {place : Worker} :
      s.worker = .received job → (place = .connecting job ∨ place = .counting job) →
      Change s (.work now exchange) (takes {s with writer := writer} place)
  | connected {now : Nat} {exchange : Exchange} {job : WriteJob} {place : Worker} :
      s.worker = .connecting job → (place = .creating job ∨ place = .failing job) →
      Change s (.work now exchange) (takes s place)
  | created {now : Nat} {exchange : Exchange} {job : WriteJob} {server : Redis.Server} :
      s.worker = .creating job →
      (server = s.server ∨ server = Redis.ftCreate Redis.Kind.semantic.index s.server) →
      Change s (.work now exchange) (takes {s with server := server} (.writing job))
  | wrote {now : Nat} {exchange : Exchange} {job : WriteJob} {place : Worker} :
      s.worker = .writing job →
      (exchange = .answered ∧ place = .expiring job ∨ exchange = .unanswered ∧ place = .failing job) →
      Change s (.work now exchange) (takes (carryOut cache s job) place)
  | unwritten {now : Nat} {job : WriteJob} : s.worker = .writing job →
      Change s (.work now .failed) (takes s (.failing job))
  | expired {now : Nat} {exchange : Exchange} {job : WriteJob} {place : Worker} :
      s.worker = .expiring job →
      (exchange = .answered ∧ place = .succeeding job ∨ exchange = .unanswered ∧ place = .failing job) →
      Change s (.work now exchange) (takes (expire s (keyOf cache job)) place)
  | unexpired {now : Nat} {job : WriteJob} : s.worker = .expiring job →
      Change s (.work now .failed) (takes s (.failing job))
  | succeeded {now : Nat} {exchange : Exchange} {job : WriteJob} {writer : Breaker.State} :
      s.worker = .succeeding job →
      Change s (.work now exchange) (takes {s with writer := writer,written := s.written ++ [job]} .receiving)
  | failed {now : Nat} {exchange : Exchange} {job : WriteJob} {writer : Breaker.State} :
      s.worker = .failing job → Change s (.work now exchange) (takes {s with writer := writer} (.counting job))
  | gaveUp {now : Nat} {exchange : Exchange} {job : WriteJob} : s.worker = .counting job →
      Change s (.work now exchange) (takes {s with shared := degrade s.shared,lost := s.lost ++ [job]} .receiving)
  | looked {effect : L2.Effect} : Change s (.lookup effect)
      {s with shared := effect.onShared cache.reader s.shared,looked := s.looked + lookedBy effect}
  | lapsed {key : String} : Change s (.lapse key)
      {s with server := Redis.lapse key s.server,expires := Function.update s.expires key false}

variable {cache}

theorem callStep_change {s next : State ι φ σ} {i : ι} {now : Nat} (taken : callStep cache s i now = some next) :
    Change cache s (.call i now) next := by
  unfold callStep at taken
  cases place : s.calls i <;> simp only [place,reduceCtorEq] at taken <;> rename_i request
  case asked =>
      cases Option.some.inj taken
      refine .asked place rfl ?_
      split
      · exact .inl rfl
      · exact .inr rfl
  case admitted =>
      cases Option.some.inj taken
      cases whole : finite cache request
      · exact .unencoded place whole
      · exact .encoded place whole
  case sending =>
      split at taken <;> cases Option.some.inj taken
      · exact .sent place (by assumption)
      · exact .full place (by assumption)
  case degraded =>
      cases Option.some.inj taken
      exact .counted place

theorem workStep_change {s next : State ι φ σ} {now : Nat} {exchange : Exchange}
    (taken : workStep cache s now exchange = some next) : Change cache s (.work now exchange) next := by
  unfold workStep at taken
  cases place : s.worker <;> simp only [place] at taken
  case receiving =>
      cases queue : s.queue with
      | nil => simp [queue] at taken
      | cons job rest =>
          simp only [queue] at taken
          cases Option.some.inj taken
          exact .received place queue
  case received job =>
      cases Option.some.inj taken
      refine .allowed place ?_
      split
      · exact .inl rfl
      · exact .inr rfl
  case connecting job =>
      cases Option.some.inj taken
      refine .connected place ?_
      split
      · exact .inr rfl
      · exact .inl rfl
  case creating job =>
      cases Option.some.inj taken
      refine .created place ?_
      split
      · exact .inl rfl
      · exact .inr rfl
  case writing job =>
      cases exchange <;> cases Option.some.inj taken
      · exact .wrote place (.inl ⟨rfl,rfl⟩)
      · exact .wrote place (.inr ⟨rfl,rfl⟩)
      · exact .unwritten place
  case expiring job =>
      cases exchange <;> cases Option.some.inj taken
      · exact .expired place (.inl ⟨rfl,rfl⟩)
      · exact .expired place (.inr ⟨rfl,rfl⟩)
      · exact .unexpired place
  case succeeding job =>
      cases Option.some.inj taken
      exact .succeeded place
  case failing job =>
      cases Option.some.inj taken
      exact .failed place
  case counting job =>
      cases Option.some.inj taken
      exact .gaveUp place

theorem step_change {s next : State ι φ σ} (step : Step cache s action next) : Change cache s action next := by
  unfold Step advance at step
  cases action with
  | insert i request =>
      cases place : s.calls i <;> simp only [place,reduceCtorEq] at step
      cases Option.some.inj step
      exact .began place
  | call i now => exact callStep_change step
  | work now exchange => exact workStep_change step
  | lookup effect =>
      cases Option.some.inj step
      exact .looked
  | lapse key =>
      cases Option.some.inj step
      exact .lapsed

end Machine

end SemanticClassifier.Writeback
