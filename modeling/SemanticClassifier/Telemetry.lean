import Mathlib.Data.List.Forall2
import SemanticClassifier.Library.Boundaries
import SemanticClassifier.Library.Fifo
import SemanticClassifier.RedisTags

namespace SemanticClassifier
open Boundaries Cache

structure TraceEvent where
  requestId : String
  contextHash : String
  sessionHash : String
  deriving DecidableEq

structure RequestEvent where
  requestId : String
  sessionId : String
  context : String

-- The recorder: a ring of events, oldest first.
structure Telemetry where
  events : List TraceEvent
  capacity : Nat
  positive : 1 ≤ capacity

namespace Telemetry

def withCapacity (capacity : Nat) : Telemetry := ⟨[],max capacity 1,Nat.le_max_right _ _⟩

def maxRequestIdBytes : Nat := 256

-- A byte that does not continue a character.
def leads (b : UInt8) : Bool := b < 0x80 || 0xC0 ≤ b

def isCharBoundary (s : String) (i : Nat) : Bool := boundary leads (utf8 s) i

-- `none` is the panic off a boundary.
def truncate (s : String) (newLen : Nat) : Option String :=
  if newLen ≤ s.utf8ByteSize then
    if isCharBoundary s newLen then String.fromUTF8? (s.toByteArray.extract 0 newLen) else none
  else some s

def boundedId (requestId : String) : Option String :=
  if requestId.utf8ByteSize > maxRequestIdBytes then
    truncate requestId
      (((List.range (maxRequestIdBytes + 1)).reverse.find? (isCharBoundary requestId)).getD 0)
  else some requestId

-- The `while` loop that makes room for one more.
def makeRoom (capacity : Nat) : List TraceEvent → List TraceEvent
  | [] => []
  | oldest :: events => if capacity ≤ events.length + 1 then makeRoom capacity events else oldest :: events

-- The first sixteen hexadecimal digits of a digest, two for a byte.
def sixteenDigits (digest : Vector UInt8 32) : String :=
  String.ofList ((digest.toList.take 8).flatMap fun b =>
    ["0123456789abcdef".toList.getD (b.toNat / 16) '0',"0123456789abcdef".toList.getD (b.toNat % 16) '0'])

-- The longest start of an id that fits; a string starts with whole characters only.
structure Kept (limit : Nat) (id kept : String) : Prop where
  starts : ∃ rest, id = kept ++ rest
  fits : kept.utf8ByteSize ≤ limit
  longest : ∀ other rest, id = other ++ rest → other.utf8ByteSize ≤ limit →
    other.utf8ByteSize ≤ kept.utf8ByteSize

section Record
variable (blake3 : List UInt8 → Vector UInt8 32)

def hash (s : String) : String := String.ofList ((Redis.toHex (blake3 (utf8 s))).toList.take 16)

def recordRequest (telemetry : Telemetry) (event : RequestEvent) : Option Telemetry :=
  (boundedId event.requestId).map fun requestId =>
    {telemetry with events := makeRoom telemetry.capacity telemetry.events ++
      [⟨requestId,"ctx_" ++ hash blake3 event.context,"sess_" ++ hash blake3 event.sessionId⟩]}

def traceCapture (telemetry : Telemetry) : List TraceEvent := telemetry.events

def recordAll (telemetry : Telemetry) (requests : List RequestEvent) : Option Telemetry :=
  requests.foldlM (recordRequest blake3) telemetry

structure Captured (request : RequestEvent) (event : TraceEvent) : Prop where
  requestId : Kept 256 request.requestId event.requestId
  contextHash : event.contextHash = "ctx_" ++ sixteenDigits (blake3 request.context.toByteArray.data.toList)
  sessionHash : event.sessionHash = "sess_" ++ sixteenDigits (blake3 request.sessionId.toByteArray.data.toList)

end Record

theorem leads_ofNat {n : Nat} (small : n < 256) : leads (UInt8.ofNat n) = decide (n < 128 ∨ 192 ≤ n) := by
  have whole : (UInt8.ofNat n).toNat = n := by
    rw [UInt8.toNat_ofNat']
    omega
  simp only [leads,UInt8.lt_iff_toNat_lt,UInt8.le_iff_toNat_le,whole]
  simp

theorem leads_continuation (n : Nat) : leads (UInt8.ofNat (n % 64 + 128)) = false := by
  rw [leads_ofNat (by omega),decide_eq_false_iff_not]
  omega

theorem utf8_synchronizing : Synchronizing String.utf8EncodeChar leads := by
  intro c
  have lead : ∀ n, n < 128 ∨ (192 ≤ n ∧ n < 256) → leads (UInt8.ofNat n) = true := by
    intro n range
    rw [leads_ofNat (by omega),decide_eq_true_eq]
    omega
  unfold String.utf8EncodeChar
  simp only
  -- One byte, then two, three and four.
  split
  · exact ⟨_,_,rfl,lead _ (by omega),fun b tail => by cases tail⟩
  · split
    · refine ⟨_,_,rfl,lead _ (by omega),?_⟩
      simp only [List.forall_mem_cons,List.not_mem_nil,false_imp_iff,forall_const,leads_continuation,and_self]
    · split
      · refine ⟨_,_,rfl,lead _ (by omega),?_⟩
        simp only [List.forall_mem_cons,List.not_mem_nil,false_imp_iff,forall_const,leads_continuation,and_self]
      · refine ⟨_,_,rfl,lead _ (by omega),?_⟩
        simp only [List.forall_mem_cons,List.not_mem_nil,false_imp_iff,forall_const,leads_continuation,and_self]

theorem utf8_words (s : String) : utf8 s = s.toList.flatMap String.utf8EncodeChar := by
  rw [utf8,← String.utf8Encode_toList]
  simp [List.utf8Encode]

-- The boundaries of a string are where its starts end.
theorem isCharBoundary_iff (s : String) (i : Nat) :
    isCharBoundary s i = true ↔ ∃ front back : String, s = front ++ back ∧ front.utf8ByteSize = i := by
  have size (cs : List Char) : (cs.flatMap String.utf8EncodeChar).length = (String.ofList cs).utf8ByteSize := by
    rw [← utf8_length,utf8_words,String.toList_ofList]
  rw [isCharBoundary,utf8_words,utf8_synchronizing.boundary_iff]
  constructor
  · intro split
    obtain ⟨front,back,whole,rfl⟩ := split
    refine ⟨String.ofList front,String.ofList back,?_,(size front).symm⟩
    rw [← String.ofList_append,← whole,String.ofList_toList]
  · intro split
    obtain ⟨front,back,rfl,rfl⟩ := split
    refine ⟨front.toList,back.toList,String.toList_append,?_⟩
    rw [size,String.ofList_toList]

theorem truncate_start (front back : String) : truncate (front ++ back) front.utf8ByteSize = some front := by
  have inside : front.utf8ByteSize ≤ (front ++ back).utf8ByteSize := by
    rw [String.utf8ByteSize_append]
    exact Nat.le_add_right _ _
  have here : isCharBoundary (front ++ back) front.utf8ByteSize = true :=
    (isCharBoundary_iff _ _).mpr ⟨front,back,rfl,rfl⟩
  have bytes : (front ++ back).toByteArray.extract 0 front.utf8ByteSize = front.toByteArray := by
    rw [String.toByteArray_append]
    exact ByteArray.extract_append_eq_left rfl
  rw [truncate,if_pos inside,if_pos here,bytes,String.fromUTF8?,dif_pos front.isValidUTF8]
  rfl

-- Whatever the id, the search ends on a boundary and nothing panics.
theorem boundedId_kept (requestId : String) :
    ∃ kept, boundedId requestId = some kept ∧ Kept maxRequestIdBytes requestId kept := by
  by_cases long : requestId.utf8ByteSize > maxRequestIdBytes
  · obtain ⟨bounded,here,greatest⟩ := floor_spec leads (utf8 requestId) maxRequestIdBytes
    obtain ⟨front,back,whole,size⟩ := (isCharBoundary_iff requestId _).mp here
    refine ⟨front,?_,⟨back,whole⟩,size.trans_le bounded,fun other rest same fits => ?_⟩
    · rw [boundedId,if_pos long]
      change truncate requestId (floor leads (utf8 requestId) maxRequestIdBytes) = some front
      rw [← size]
      conv_lhs => rw [whole]
      exact truncate_start front back
    · rw [size]
      exact greatest _ fits ((isCharBoundary_iff requestId _).mpr ⟨other,rest,same,rfl⟩)
  · refine ⟨requestId,if_neg long,⟨"",by simp⟩,Nat.le_of_not_gt long,fun other rest same _ => ?_⟩
    rw [same,String.utf8ByteSize_append]
    exact Nat.le_add_right _ _

theorem makeRoom_short {capacity : Nat} {events : List TraceEvent} (short : events.length < capacity) :
    makeRoom capacity events = events := by
  cases events with
  | nil => rfl
  | cons oldest events => exact if_neg (Nat.not_le.mpr short)

theorem makeRoom_full {capacity : Nat} {oldest : TraceEvent} {events : List TraceEvent}
    (full : events.length + 1 = capacity) : makeRoom capacity (oldest :: events) = events := by
  rw [makeRoom,if_pos full.ge]
  exact makeRoom_short (by omega)

theorem take_pairs {α β : Type} (one two : α → β) (items : List α) (n : Nat) :
    (items.flatMap fun item => [one item,two item]).take (2 * n) =
      (items.take n).flatMap fun item => [one item,two item] := by
  induction items generalizing n with
  | nil => simp
  | cons item rest ih =>
      cases n with
      | zero => rfl
      | succ n =>
          rw [Nat.mul_succ,List.flatMap_cons,List.take_succ_cons,List.flatMap_cons,← ih n]
          rfl

variable {blake3 : List UInt8 → Vector UInt8 32}

theorem hash_digits (s : String) : hash blake3 s = sixteenDigits (blake3 s.toByteArray.data.toList) := by
  rw [hash,Redis.toHex,String.toList_ofList]
  exact congrArg String.ofList (take_pairs _ _ _ 8)

-- The ring holds the captured suffix of the requests it was given.
def Holds (blake3 : List UInt8 → Vector UInt8 32) (requests : List RequestEvent) (telemetry : Telemetry) : Prop :=
  List.Forall₂ (Captured blake3) (Fifo.window telemetry.capacity requests) telemetry.events

theorem record_holds {requests : List RequestEvent} {telemetry : Telemetry}
    (holds : Holds blake3 requests telemetry) (request : RequestEvent) :
    ∃ next, recordRequest blake3 telemetry request = some next ∧ next.capacity = telemetry.capacity ∧
      Holds blake3 (requests ++ [request]) next := by
  obtain ⟨kept,read,longest⟩ := boundedId_kept request.requestId
  have recorded : recordRequest blake3 telemetry request =
      some {telemetry with events := makeRoom telemetry.capacity telemetry.events ++
        [⟨kept,"ctx_" ++ hash blake3 request.context,"sess_" ++ hash blake3 request.sessionId⟩]} := by
    rw [recordRequest,read]
    rfl
  refine ⟨_,recorded,rfl,?_⟩
  unfold Holds at holds ⊢
  dsimp only
  have size := holds.length_eq
  have captured : List.Forall₂ (Captured blake3) [request]
      [⟨kept,"ctx_" ++ hash blake3 request.context,"sess_" ++ hash blake3 request.sessionId⟩] :=
    .cons ⟨longest,congrArg ("ctx_" ++ ·) (hash_digits _),congrArg ("sess_" ++ ·) (hash_digits _)⟩ .nil
  by_cases room : telemetry.events.length < telemetry.capacity
  · rw [makeRoom_short room,Fifo.window_room request (size ▸ room)]
    exact List.rel_append holds captured
  · have bounded := Fifo.length_window telemetry.capacity requests
    have full : telemetry.events.length = telemetry.capacity := by omega
    have some := telemetry.positive
    cases seen : Fifo.window telemetry.capacity requests with
    | nil =>
        rw [seen] at size
        simp only [List.length_nil] at size
        omega
    | cons oldest rest =>
        rw [seen] at holds size
        cases events : telemetry.events with
        | nil =>
            rw [events] at size
            cases size
        | cons event others =>
            rw [events] at holds full
            rw [makeRoom_full full,Fifo.window_full request seen (by rw [seen,size,events,full])]
            cases holds with
            | cons _ later => exact List.rel_append later captured

theorem recordAll_holds {seen : List RequestEvent} {telemetry : Telemetry} (holds : Holds blake3 seen telemetry)
    (requests : List RequestEvent) : ∃ last, recordAll blake3 telemetry requests = some last ∧
      last.capacity = telemetry.capacity ∧ Holds blake3 (seen ++ requests) last := by
  induction requests generalizing seen telemetry with
  | nil => exact ⟨telemetry,rfl,rfl,by rwa [List.append_nil]⟩
  | cons request rest ih =>
      obtain ⟨next,recorded,same,holds⟩ := record_holds holds request
      obtain ⟨last,finished,kept,all⟩ := ih holds
      refine ⟨last,?_,kept.trans same,?_⟩
      · rw [recordAll,List.foldlM_cons,recorded]
        exact finished
      · rwa [List.append_assoc] at all

-- Whatever was asked for, the capture is the end of the history.
theorem trace_capture_suffix (blake3 : List UInt8 → Vector UInt8 32) (capacity : Nat)
    (requests : List RequestEvent) : ∃ telemetry, recordAll blake3 (withCapacity capacity) requests = some telemetry ∧
      (traceCapture telemetry).length = min requests.length (max capacity 1) ∧
      List.Forall₂ (Captured blake3) (requests.drop (requests.length - min requests.length (max capacity 1)))
        (traceCapture telemetry) := by
  have empty : Holds blake3 [] (withCapacity capacity) := by
    rw [Holds,Fifo.window_nil]
    exact .nil
  obtain ⟨telemetry,recorded,same,holds⟩ := recordAll_holds empty requests
  have bound : telemetry.capacity = max capacity 1 := same
  rw [Holds,bound,List.nil_append] at holds
  have size := holds.length_eq
  rw [Fifo.length_window] at size
  have suffix : requests.length - min requests.length (max capacity 1) = requests.length - max capacity 1 := by
    omega
  refine ⟨telemetry,recorded,size.symm,?_⟩
  rw [suffix]
  exact holds

end Telemetry
end SemanticClassifier
