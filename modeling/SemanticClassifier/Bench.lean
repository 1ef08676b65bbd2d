import SemanticClassifier.BenchKeys
import SemanticClassifier.Library.Shuffle
import SemanticClassifier.ServiceWindow

namespace SemanticClassifier.Bench
open Classify Interleaving Service Shuffle

structure BenchmarkRun where
  cacheMode : CacheMode
  runId : Nat
  seed : String

structure DummyRequest where
  requestId : String
  sessionId : String
  context : String
  signals : List String

-- The typed input the gRPC surface makes of a gateway's request.
def classifyInput (req : DummyRequest) : ClassificationInput where
  text := req.context
  requestedSignals := req.signals
  sessionMetadata := Finmap.singleton "session_id" req.sessionId
  contextCompleteness := .unspecified

def sendOne (context : String) (index : Nat) : DummyRequest where
  requestId := "bench-" ++ toString index
  sessionId := "bench-session-" ++ toString (index % 4)
  context := context
  signals := []

def sendConcurrent (context : String) (index : Nat) : DummyRequest where
  requestId := "bench-concurrent-" ++ toString index
  sessionId := "bench-session-" ++ toString (index % 4)
  context := context
  signals := []

-- The loop that hands every worker its share, from worker `w` on.
def shares (base extra : Nat) : Nat → Nat → Nat → List (List Nat)
  | _,_,0 => []
  | start,w,left + 1 =>
    let count := base + if w < extra then 1 else 0
    List.range' start count :: shares base extra (start + count) (w + 1) left

-- The indices each worker sends, in order.
def workerIndices (n concurrency : Nat) : List (List Nat) :=
  let workers := max concurrency 1
  shares (n / workers) (n % workers) 0 0 workers

example : workerIndices 7 3 = [[0,1,2],[3,4],[5,6]] := by decide

namespace BenchmarkRun
variable (run : BenchmarkRun)

def measuredContext (index : Nat) : String := seededMeasureContext run.seed run.runId index

def warmContext (index : Nat) : String := seededWarmContext run.cacheMode run.seed run.runId index

-- The requests of one client, in order.
def warmup (n : Nat) : List DummyRequest := (List.range n).map fun i => sendOne (run.warmContext i) i

def measure (n : Nat) : List DummyRequest := (List.range n).map fun i => sendOne (run.measuredContext i) i

-- One list for each worker.
def runConcurrent (n concurrency : Nat) : List (List DummyRequest) :=
  (workerIndices n concurrency).map fun indices =>
    indices.map fun i => sendConcurrent (seededMeasureContext run.seed run.runId i) i

-- `measure` and `measure_concurrent`: the clients at work in the window.
def clients (n : Nat) : Option Nat → List (List DummyRequest)
  | none => [run.measure n]
  | some concurrency => run.runConcurrent n concurrency

-- A request of a warmup or a measurement of this run.
def Sends (input : ClassificationInput) : Prop :=
  ∃ n, (∃ req ∈ run.warmup n, classifyInput req = input) ∨
    ∃ concurrency, ∃ requests ∈ run.clients n concurrency, ∃ req ∈ requests, classifyInput req = input

end BenchmarkRun

structure MetricsSnapshot where
  cacheHits : Nat
  cacheMisses : Nat
  cacheCoalesced : Nat

def snapshot (s : State τ φ σ) : MetricsSnapshot := ⟨s.cacheHits,s.cacheMisses,s.cacheCoalesced⟩

inductive BenchError where
  | methodology (message : String)
  deriving DecidableEq

def verifyWindow (cacheMode : CacheMode) (before after : MetricsSnapshot) (measured : Nat) :
    Except BenchError Unit :=
  let deltaHits := after.cacheHits - before.cacheHits
  let deltaMisses := after.cacheMisses - before.cacheMisses
  let deltaCoalesced := after.cacheCoalesced - before.cacheCoalesced
  match cacheMode with
  | .miss =>
    if deltaMisses ≠ measured then
      .error (.methodology ("miss-mode methodology violation: expected " ++ toString measured ++
        " cache misses in the measured window, observed delta_misses=" ++ toString deltaMisses ++
        "; measured keys must never be pre-warmed"))
    else if deltaHits ≠ 0 then
      .error (.methodology ("miss-mode methodology violation: expected 0 cache hits in the measured window, " ++
        "observed delta_hits=" ++ toString deltaHits))
    else if deltaCoalesced ≠ 0 then
      .error (.methodology ("miss-mode methodology violation: expected 0 coalesced waits in the measured " ++
        "window, observed delta_coalesced=" ++ toString deltaCoalesced ++
        "; serial measurement must not coalesce"))
    else .ok ()
  | .hit =>
    if deltaHits ≠ measured then
      .error (.methodology ("hit-mode methodology violation: expected " ++ toString measured ++
        " cache hits in the measured window, observed delta_hits=" ++ toString deltaHits ++
        "; measured keys must be pre-warmed"))
    else if deltaMisses ≠ 0 then
      .error (.methodology ("hit-mode methodology violation: expected 0 cache misses in the measured window, " ++
        "observed delta_misses=" ++ toString deltaMisses))
    else if deltaCoalesced ≠ 0 then
      .error (.methodology ("hit-mode methodology violation: expected 0 coalesced waits in the measured " ++
        "window, observed delta_coalesced=" ++ toString deltaCoalesced ++
        "; serial measurement must not coalesce"))
    else .ok ()

-- The counters the window has to move, and those it must not.
def CacheMode.expects (cacheMode : CacheMode) (hits misses measured : Nat) : Prop :=
  match cacheMode with
  | .miss => misses = measured ∧ hits = 0
  | .hit => hits = measured ∧ misses = 0

theorem verifyWindow_ok {cacheMode : CacheMode} {before after : MetricsSnapshot} {measured : Nat} :
    verifyWindow cacheMode before after measured = .ok () ↔
      cacheMode.expects (after.cacheHits - before.cacheHits) (after.cacheMisses - before.cacheMisses) measured ∧
        after.cacheCoalesced - before.cacheCoalesced = 0 := by
  unfold verifyWindow CacheMode.expects
  cases cacheMode <;> dsimp only <;> split <;> simp_all <;> split <;> simp_all

theorem shares_flatten (base extra start w left : Nat) : (shares base extra start w left).flatten =
    List.range' start (base * left + (min extra (w + left) - min extra w)) := by
  induction left generalizing start w with
  | zero => simp [shares]
  | succ left ih =>
      rw [shares,List.flatten_cons,ih,List.range'_append_1]
      congr 1
      have step : base * (left + 1) = base * left + base := Nat.mul_succ base left
      split <;> omega

-- Every index from 0 to n falls to exactly one worker.
theorem workerIndices_flatten (n concurrency : Nat) : (workerIndices n concurrency).flatten = List.range n := by
  have positive : 0 < max concurrency 1 := by omega
  have below := Nat.mod_lt n positive
  have whole := Nat.div_add_mod n (max concurrency 1)
  rw [workerIndices,shares_flatten,List.range_eq_range']
  congr 1
  rw [Nat.mul_comm (n / _)]
  omega

end SemanticClassifier.Bench
