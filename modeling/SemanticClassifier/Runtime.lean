import SemanticClassifier.Library.Interleaving
import SemanticClassifier.ModelCarDigest

namespace SemanticClassifier
open Interleaving Cache

-- `τ` is what the `tokenizers` crate holds of a loaded tokenizer.
structure Runtime (τ : Type) where
  ready : Bool
  residentTokenizer : Option τ
  activeRevision : Option String
  tokenizerLoadCount : UInt64
  artifactDigest : Option String

namespace Runtime

def new : Runtime τ := ⟨false,none,none,0,none⟩

def pathExists (files : Snapshot) (path : PathBuf) : Bool := (files.metadata path).isOk

def isFile (files : Snapshot) (path : PathBuf) : Bool :=
  match files.metadata path with
  | .ok kind => kind = .file
  | .error _ => false

section Operations
variable (display : PathBuf → String) (blake3 : List UInt8 → Vector UInt8 32)

def warmup (files : Snapshot) (path : PathBuf) (r : Runtime τ) : Except String Unit × Runtime τ :=
  if pathExists files path = false then (.error ("model path does not exist: " ++ display path),r)
  else
    match files.metadata path with
    | .error e => (.error ("model path is not readable: " ++ display path ++ ": " ++ e),r)
    | .ok _ => (.ok (),{r with ready := true})

def warmupModelcar (files : Snapshot) (path : PathBuf) (requiredFiles : List String) (r : Runtime τ) :
    Except String Unit × Runtime τ :=
  match requiredFiles.find? fun f => !isFile files (join path f) with
  | some f => (.error ("ModelCar missing required file " ++ f ++ " at " ++ display (join path f)),r)
  | none =>
    match modelcarDigest display blake3 files path requiredFiles with
    | .error e => (.error e,r)
    | .ok digest => warmup display files path {r with artifactDigest := some digest}

-- `fromFile` is the crate's loader, with the text of its error.
def loadTokenizerOnce (fromFile : PathBuf → Except String τ) (revision : String) (tokenizerPath : PathBuf)
    (r : Runtime τ) : Except String Unit × Runtime τ :=
  if r.activeRevision = some revision then (.ok (),r)
  else
    match fromFile tokenizerPath with
    | .error e => (.error ("tokenizer error: " ++ e),r)
    | .ok tokenizer =>
      (.ok (),{r with
        residentTokenizer := some tokenizer
        activeRevision := some revision
        tokenizerLoadCount := r.tokenizerLoadCount + 1})

-- One call, with what the disk answers while it runs.
inductive Call (τ : Type) where
  | warmup (files : Snapshot) (path : PathBuf)
  | warmupModelcar (files : Snapshot) (path : PathBuf) (requiredFiles : List String)
  | loadTokenizerOnce (fromFile : PathBuf → Except String τ) (revision : String) (tokenizerPath : PathBuf)

def Call.run (r : Runtime τ) : Call τ → Except String Unit × Runtime τ
  | .warmup files path => r.warmup display files path
  | .warmupModelcar files path requiredFiles => r.warmupModelcar display blake3 files path requiredFiles
  | .loadTokenizerOnce fromFile revision tokenizerPath => r.loadTokenizerOnce fromFile revision tokenizerPath

def Step (r : Runtime τ) (call : Call τ) (next : Runtime τ) : Prop :=
  (call.run display blake3 r).2 = next

def Failed (r : Runtime τ) (call : Call τ) : Prop := ∃ e, (call.run display blake3 r).1 = .error e

-- What is said of failing calls, and of a runtime that is not ready.
structure Atomic (trace : List (Runtime τ × Call τ)) (last : Runtime τ) : Prop where
  unchanged : ∀ row ∈ trace, Failed display blake3 row.1 row.2 → (row.2.run display blake3 row.1).2 = row.1
  undigested : ∀ r, Visited trace last r → r.ready = false → r.artifactDigest = none

-- A ModelCar all of whose files are there and readable, although its path is
-- not, and whose digest is new to the runtime.
def Premature (r : Runtime τ) : Call τ → Prop
  | .warmupModelcar files path requiredFiles =>
    (∀ f ∈ requiredFiles, isFile files (join path f) = true) ∧ pathExists files path = false ∧
      ∃ digest, modelcarDigest display blake3 files path requiredFiles = .ok digest ∧
        r.artifactDigest ≠ some digest
  | _ => False

end Operations

variable {display : PathBuf → String} {blake3 : List UInt8 → Vector UInt8 32}

theorem warmup_there (there : pathExists files path = true) (r : Runtime τ) :
    r.warmup display files path = (.ok (),{r with ready := true}) := by
  rw [warmup,if_neg (by simp [there])]
  cases answer : files.metadata path with
  | error e =>
      rw [pathExists,answer] at there
      cases there
  | ok kind => rfl

theorem warmup_gone (gone : pathExists files path = false) (r : Runtime τ) :
    r.warmup display files path = (.error ("model path does not exist: " ++ display path),r) :=
  if_pos gone

variable (display blake3) in
-- Either a call gives up before it touches the runtime, or it comes to `warmup`
-- with the digest recorded.
theorem warmupModelcar_cases (files : Snapshot) (path : PathBuf) (requiredFiles : List String) (r : Runtime τ) :
    (∃ e, r.warmupModelcar display blake3 files path requiredFiles = (.error e,r) ∧
      ((∃ f ∈ requiredFiles, isFile files (join path f) = false) ∨
        modelcarDigest display blake3 files path requiredFiles = .error e)) ∨
    ∃ digest, (∀ f ∈ requiredFiles, isFile files (join path f) = true) ∧
      modelcarDigest display blake3 files path requiredFiles = .ok digest ∧
      r.warmupModelcar display blake3 files path requiredFiles =
        warmup display files path {r with artifactDigest := some digest} := by
  unfold warmupModelcar
  cases search : requiredFiles.find? fun f => !isFile files (join path f) with
  | some f =>
      have absent := List.find?_some search
      exact .inl ⟨_,rfl,.inl ⟨f,List.mem_of_find?_eq_some search,by simpa using absent⟩⟩
  | none =>
      have present := List.find?_eq_none.mp search
      cases digested : modelcarDigest display blake3 files path requiredFiles with
      | error e => exact .inl ⟨e,rfl,.inr rfl⟩
      | ok digest => exact .inr ⟨digest,fun f inside => by simpa using present f inside,rfl,rfl⟩

theorem loadTokenizerOnce_cases (fromFile : PathBuf → Except String τ) (revision : String)
    (tokenizerPath : PathBuf) (r : Runtime τ) :
    (∃ e, r.loadTokenizerOnce fromFile revision tokenizerPath = (.error e,r)) ∨
    ∃ next, r.loadTokenizerOnce fromFile revision tokenizerPath = (.ok (),next) ∧
      next.ready = r.ready ∧ next.artifactDigest = r.artifactDigest := by
  unfold loadTokenizerOnce
  split
  · exact .inr ⟨r,rfl,rfl,rfl⟩
  · cases fromFile tokenizerPath with
    | error e => exact .inl ⟨_,rfl⟩
    | ok tokenizer => exact .inr ⟨_,rfl,rfl,rfl⟩

def Undigested (r : Runtime τ) : Prop := r.ready = false → r.artifactDigest = none

-- All a call can do: give up without a trace, succeed, or give up with a digest
-- left behind.
theorem run_cases (r : Runtime τ) (call : Call τ) :
    (∃ e, call.run display blake3 r = (.error e,r) ∧ ¬ Premature display blake3 r call) ∨
    (∃ next, call.run display blake3 r = (.ok (),next) ∧ (Undigested r → Undigested next) ∧
      ¬ Premature display blake3 r call) ∨
    ∃ e digest, call.run display blake3 r = (.error e,{r with artifactDigest := some digest}) ∧
      (Premature display blake3 r call ↔ r.artifactDigest ≠ some digest) := by
  cases call with
  | warmup files path =>
      cases there : pathExists files path with
      | false => exact .inl ⟨_,warmup_gone there r,not_false⟩
      | true => exact .inr (.inl ⟨_,warmup_there there r,fun _ => Bool.noConfusion,not_false⟩)
  | warmupModelcar files path requiredFiles =>
      rcases warmupModelcar_cases display blake3 files path requiredFiles r with
        ⟨e,gives,why⟩ | ⟨digest,present,digested,comes⟩
      · refine .inl ⟨e,gives,fun premature => ?_⟩
        obtain ⟨present,_,digest,digested,_⟩ := premature
        rcases why with ⟨f,inside,absent⟩ | failed
        · rw [present f inside] at absent
          cases absent
        · rw [digested] at failed
          cases failed
      · cases there : pathExists files path with
        | true =>
            refine .inr (.inl ⟨_,comes.trans (warmup_there there _),fun _ => Bool.noConfusion,fun premature => ?_⟩)
            rw [premature.2.1] at there
            cases there
        | false =>
            refine .inr (.inr ⟨_,digest,comes.trans (warmup_gone there _),?_⟩)
            constructor
            · intro premature
              obtain ⟨_,_,other,again,differs⟩ := premature
              rw [digested] at again
              cases again
              exact differs
            · exact fun differs => ⟨present,there,digest,digested,differs⟩
  | loadTokenizerOnce fromFile revision tokenizerPath =>
      rcases loadTokenizerOnce_cases fromFile revision tokenizerPath r with ⟨e,gives⟩ | ⟨next,loads,ready,same⟩
      · exact .inl ⟨e,gives,not_false⟩
      · refine .inr (.inl ⟨next,loads,fun kept idle => ?_,not_false⟩)
        rw [same]
        exact kept (ready ▸ idle)

-- The one way a failing call can leave a mark.
theorem failed_unchanged (r : Runtime τ) (call : Call τ) :
    (Failed display blake3 r call → (call.run display blake3 r).2 = r) ↔ ¬ Premature display blake3 r call := by
  unfold Failed
  rcases run_cases r call with ⟨e,gives,fine⟩ | ⟨next,succeeds,_,fine⟩ | ⟨e,digest,leaves,premature⟩
  · rw [gives]
    exact iff_of_true (fun _ => rfl) fine
  · rw [succeeds]
    refine iff_of_true (fun failed => ?_) fine
    obtain ⟨e,failed⟩ := failed
    cases failed
  · rw [leaves,premature,not_ne_iff]
    constructor
    · intro unchanged
      exact (congrArg artifactDigest (unchanged ⟨e,rfl⟩)).symm
    · intro same _
      rw [← same]

theorem step_undigested (kept : Undigested r) (fine : ¬ Premature display blake3 r call)
    (taken : Step display blake3 r call next) : Undigested next := by
  cases taken
  rcases run_cases r call with ⟨e,gives,_⟩ | ⟨next,succeeds,keeps,_⟩ | ⟨e,digest,leaves,premature⟩
  · rw [gives]
    exact kept
  · rw [succeeds]
    exact keeps kept
  · have same : r.artifactDigest = some digest :=
      by_contra fun differs => fine (premature.mpr differs)
    rw [leaves]
    exact fun idle => same ▸ kept idle

theorem path_undigested (path : Path (Step display blake3) (new : Runtime τ) trace last)
    (met : Met (fun r call => ¬ Premature display blake3 r call) trace) : Undigested last :=
  path.preserves_where (fun _ _ _ kept fine taken => step_undigested kept fine taken) met fun _ => rfl

-- In a run from a fresh runtime every failing call is without effect, and no
-- digest stands while it is not ready, exactly if no ModelCar was premature.
theorem failed_calls_atomic (path : Path (Step display blake3) (new : Runtime τ) trace last) :
    Atomic display blake3 trace last ↔ Met (fun r call => ¬ Premature display blake3 r call) trace := by
  constructor
  · intro atomic row inside
    exact (failed_unchanged row.1 row.2).mp (atomic.unchanged row inside)
  · intro met
    refine ⟨fun row inside => (failed_unchanged row.1 row.2).mpr (met row inside),?_⟩
    intro r seen
    obtain ⟨early,front,initial⟩ := path.visited seen
    exact path_undigested front (met.of_prefix initial)

-- A disk with these paths alone, and the byte `x` in each of them.
def holdingAt (paths : List PathBuf) : Snapshot where
  metadata path := if path ∈ paths then .ok .file else .error "No such file or directory (os error 2)"
  openFile path := if path ∈ paths then .ok (.ok (utf8 "x")) else .error "No such file or directory (os error 2)"

def unmounted : Call Unit := .warmupModelcar (holdingAt []) (utf8 "/models") []

-- The hash's own value on no bytes at all.
def emptyHash (_ : List UInt8) : Vector UInt8 32 :=
  ⟨#[175,19,73,185,245,249,161,166,160,64,77,234,54,220,201,73,
    155,203,37,201,173,193,18,183,204,154,147,202,228,31,50,98],rfl⟩

def showPath (_ : PathBuf) : String := "/models"

def unmountedDigest : String := "blake3:af1349b9f5f9a1a6a0404dea36dcc9499bcb25c9adc112b7cc9a93cae41f3262"

-- A list of no files is complete on any disk; its digest stays behind when the
-- path turns out to be missing.
theorem unmounted_run : unmounted.run showPath emptyHash new =
    (.error "model path does not exist: /models",{new with artifactDigest := some unmountedDigest}) := by
  have digested : modelcarDigest showPath emptyHash (holdingAt []) (utf8 "/models") [] =
      .ok unmountedDigest := by
    rw [modelcarDigest_readable (by simp)]
    decide
  simp only [unmounted,Call.run,warmupModelcar,List.find?_nil,digested]
  exact warmup_gone rfl _

theorem unmounted_not_atomic :
    unmounted.run showPath emptyHash new =
      (.error "model path does not exist: /models",{new with artifactDigest := some unmountedDigest}) ∧
    Path (Step showPath emptyHash) new [(new,unmounted)] {new with artifactDigest := some unmountedDigest} ∧
    ¬ Atomic showPath emptyHash [(new,unmounted)] {new with artifactDigest := some unmountedDigest} := by
  refine ⟨unmounted_run,Path.single (congrArg Prod.snd unmounted_run),?_⟩
  intro atomic
  have bare := atomic.undigested _ (.inl rfl) rfl
  cases bare

def incomplete : Call Unit := .warmupModelcar (holdingAt [utf8 "/models"]) (utf8 "/models") ["a"]

def complete : Call Unit :=
  .warmupModelcar (holdingAt [utf8 "/models",utf8 "/models/a"]) (utf8 "/models") ["a"]

def mounting : List (Runtime Unit × Call Unit) := [(new,incomplete),(new,complete)]

theorem failed_calls_atomic_mounting :
    Atomic showPath editedHash mounting (complete.run showPath editedHash new).2 := by
  have first : Step showPath editedHash new incomplete new := rfl
  have run : Path (Step showPath editedHash) new mounting (complete.run showPath editedHash new).2 :=
    (Path.single first).snoc rfl
  refine (failed_calls_atomic run).mpr ?_
  intro row inside premature
  rcases List.mem_cons.mp inside with rfl | rest
  · exact absurd (premature.1 "a" (by decide)) (by decide)
  · obtain rfl := List.mem_singleton.mp rest
    exact absurd premature.2.1 (by decide)

end SemanticClassifier.Runtime
