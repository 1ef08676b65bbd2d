import SemanticClassifier.Library.Buckets
import SemanticClassifier.Library.Ring
import SemanticClassifier.Prefilter

namespace SemanticClassifier.TextCache
open Prefilter Buckets

def BANDS : Nat := 32

-- The cache never looks inside a stored result, so its type stays open.
structure Entry (ρ : Type) where
  sig : Signature
  identity : String
  result : ρ
  deriving DecidableEq

-- The ring, its cursor and the band index. The three bounds are what keeps every
-- slot access of `insert` inside the ring.
structure MemoryTextCache (ρ : Type) where
  index : Index UInt64 Nat
  entries : List (Entry ρ)
  capacity : Nat
  threshold : ℚ
  cursor : Nat
  within : entries.length ≤ capacity
  cursor_lt : cursor < capacity

def new (ρ : Type) (capacity : Nat) (threshold : ℚ) : MemoryTextCache ρ where
  index := ∅
  entries := []
  capacity := max capacity 1
  threshold := max 0 (min threshold 1)
  cursor := 0
  within := Nat.zero_le _
  cursor_lt := by omega

variable {ρ : Type} (hashOne : UInt64 × List UInt64 → UInt64)

-- One candidate id: a missing slot or another identity is passed over, and only a
-- strictly better candidate replaces the best so far.
def consider (entries : List (Entry ρ)) (sig : Signature) (identity : String)
    (best : Option (ℚ × Entry ρ)) (id : Nat) : Option (ℚ × Entry ρ) :=
  match entries[id]? with
  | none => best
  | some e =>
    if e.identity ≠ identity then best
    else
      let j := sig.jaccard e.sig
      match best with
      | none => some (j,e)
      | some (bj,_) => if j > bj then some (j,e) else best

def lookup (c : MemoryTextCache ρ) (sig : Signature) (identity : String) : Option ρ :=
  let keys := bands hashOne sig BANDS
  let best := keys.foldl
    (fun best k => (bucket c.index k).foldl (consider c.entries sig identity) best) none
  match best with
  | some (j,e) => if j ≥ c.threshold then some e.result else none
  | none => none

def pushEntry (c : MemoryTextCache ρ) (entry : Entry ρ) (room : c.entries.length < c.capacity) :
    MemoryTextCache ρ :=
  {c with
    entries := c.entries ++ [entry]
    within := by rw [List.length_append]; exact room}

-- The evicted entry's keys leave the index before its slot is overwritten.
def overwrite (c : MemoryTextCache ρ) (entry : Entry ρ) (full : ¬ c.entries.length < c.capacity) :
    MemoryTextCache ρ × Nat :=
  let id := c.cursor % c.capacity
  have inside : id < c.entries.length := by
    have bound := Nat.mod_lt c.cursor (Nat.lt_of_le_of_lt (Nat.zero_le _) c.cursor_lt)
    omega
  let old := bands hashOne (c.entries.get ⟨id,inside⟩).sig BANDS
  ({c with
    index := old.foldl (retain id) c.index
    entries := c.entries.set id entry
    cursor := (c.cursor + 1) % c.capacity
    within := by rw [List.length_set]; exact c.within
    cursor_lt := Nat.mod_lt _ (Nat.lt_of_le_of_lt (Nat.zero_le _) c.cursor_lt)},id)

def place (c : MemoryTextCache ρ) (entry : Entry ρ) : MemoryTextCache ρ × Nat :=
  if room : c.entries.length < c.capacity then (pushEntry c entry room,c.entries.length)
  else overwrite hashOne c entry room

def indexKeys (c : MemoryTextCache ρ) (sig : Signature) (id : Nat) : MemoryTextCache ρ :=
  {c with index := (bands hashOne sig BANDS).foldl (push id) c.index}

def insert (c : MemoryTextCache ρ) (sig : Signature) (result : ρ) (identity : String) :
    MemoryTextCache ρ :=
  let placed := place hashOne c ⟨sig,identity,result⟩
  indexKeys hashOne placed.1 sig placed.2

def insertAll (c : MemoryTextCache ρ) (inserted : List (Entry ρ)) : MemoryTextCache ρ :=
  inserted.foldl (fun c e => insert hashOne c e.sig e.result e.identity) c

variable {hashOne}

@[simp] theorem insert_capacity (c : MemoryTextCache ρ) (sig : Signature) (result : ρ)
    (identity : String) : (insert hashOne c sig result identity).capacity = c.capacity := by
  unfold insert place
  split <;> rfl

@[simp] theorem insert_threshold (c : MemoryTextCache ρ) (sig : Signature) (result : ρ)
    (identity : String) : (insert hashOne c sig result identity).threshold = c.threshold := by
  unfold insert place
  split <;> rfl

-- What one insert does, by whether the ring has room: the ring and cursor it
-- leaves, the slot it wrote and the index it started indexing from.
theorem insert_cases (hashOne : UInt64 × List UInt64 → UInt64) (c : MemoryTextCache ρ) (sig : Signature)
    (result : ρ) (identity : String) :
    (c.entries.length < c.capacity ∧
      (insert hashOne c sig result identity).entries = c.entries ++ [⟨sig,identity,result⟩] ∧
      (insert hashOne c sig result identity).cursor = c.cursor ∧
      (insert hashOne c sig result identity).index =
        (bands hashOne sig BANDS).foldl (push c.entries.length) c.index) ∨
    (c.entries.length = c.capacity ∧ ∃ old, c.entries[c.cursor]? = some old ∧
      (insert hashOne c sig result identity).entries = c.entries.set c.cursor ⟨sig,identity,result⟩ ∧
      (insert hashOne c sig result identity).cursor = (c.cursor + 1) % c.capacity ∧
      (insert hashOne c sig result identity).index = (bands hashOne sig BANDS).foldl (push c.cursor)
        ((bands hashOne old.sig BANDS).foldl (retain c.cursor) c.index)) := by
  by_cases room : c.entries.length < c.capacity
  · exact .inl ⟨room,by simp [insert,place,room,indexKeys,pushEntry],
      by simp [insert,place,room,indexKeys,pushEntry],by simp [insert,place,room,indexKeys,pushEntry]⟩
  · have size : c.entries.length = c.capacity := Nat.le_antisymm c.within (Nat.le_of_not_lt room)
    have slot : c.cursor % c.capacity = c.cursor := Nat.mod_eq_of_lt c.cursor_lt
    have inside : c.cursor < c.entries.length := size ▸ c.cursor_lt
    refine .inr ⟨size,c.entries[c.cursor],List.getElem?_eq_getElem inside,?_,?_,?_⟩ <;>
      simp [insert,place,room,indexKeys,overwrite,slot]

end SemanticClassifier.TextCache
