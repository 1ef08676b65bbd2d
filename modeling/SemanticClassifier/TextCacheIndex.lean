import SemanticClassifier.TextCache

namespace SemanticClassifier.TextCache
open Prefilter Buckets

variable {ρ : Type} {hashOne : UInt64 × List UInt64 → UInt64}

-- How often the signature in a slot yields a key; a missing slot yields none.
def keyCount (hashOne : UInt64 × List UInt64 → UInt64) (entries : List (Entry ρ))
    (id : Nat) (k : UInt64) : Nat :=
  match entries[id]? with
  | some e => (bands hashOne e.sig BANDS).count k
  | none => 0

theorem keyCount_append (entries : List (Entry ρ)) (entry : Entry ρ) (id : Nat) (k : UInt64) :
    keyCount hashOne (entries ++ [entry]) id k = keyCount hashOne entries id k +
      if entries.length = id then (bands hashOne entry.sig BANDS).count k else 0 := by
  unfold keyCount
  rcases Nat.lt_trichotomy id entries.length with below | rfl | above
  · rw [List.getElem?_append_left below]
    simp [Nat.ne_of_gt below]
  · simp
  · have outside : (entries ++ [entry])[id]? = none := by
      apply List.getElem?_eq_none
      simpa using Nat.succ_le_of_lt above
    rw [outside,List.getElem?_eq_none (Nat.le_of_lt above)]
    simp [Nat.ne_of_lt above]

theorem keyCount_set (entries : List (Entry ρ)) (entry : Entry ρ) (slot id : Nat) (k : UInt64)
    (inside : slot < entries.length) :
    keyCount hashOne (entries.set slot entry) id k =
      if slot = id then (bands hashOne entry.sig BANDS).count k else keyCount hashOne entries id k := by
  unfold keyCount
  by_cases same : slot = id
  · subst same; simp [inside]
  · simp [same]

-- The representation invariant: the ring holds the newest inserts, and the index
-- lists every slot under exactly the keys of the signature it now holds.
structure InStep (hashOne : UInt64 × List UInt64 → UInt64) (c : MemoryTextCache ρ)
    (inserted : List (Entry ρ)) : Prop where
  ring : Ring.Tracks c.capacity c.entries c.cursor inserted
  keys : ∀ k id, (bucket c.index k).count id = keyCount hashOne c.entries id k

theorem new_inStep (capacity : Nat) (threshold : ℚ) :
    InStep hashOne (new ρ capacity threshold) [] := by
  refine ⟨Ring.Tracks.empty (new ρ capacity threshold).cursor_lt,?_⟩
  intro k id
  simp [new,keyCount]

-- The evicted signature's keys drop the slot, so nothing is left to collide with
-- the keys of the signature that takes the slot over.
theorem insert_inStep {c : MemoryTextCache ρ} {inserted : List (Entry ρ)}
    (valid : InStep hashOne c inserted) (sig : Signature) (result : ρ) (identity : String) :
    InStep hashOne (insert hashOne c sig result identity) (inserted ++ [⟨sig,identity,result⟩]) := by
  rcases insert_cases hashOne c sig result identity with
    ⟨room,entries,cursor,index⟩ | ⟨full,old,held,entries,cursor,index⟩
  · refine ⟨?_,?_⟩
    · rw [insert_capacity,entries,cursor]
      exact valid.ring.append room _
    · intro k id
      rw [entries,index,count_pushAll,valid.keys,keyCount_append]
  · have inside : c.cursor < c.entries.length := full ▸ c.cursor_lt
    refine ⟨?_,?_⟩
    · rw [insert_capacity,entries,cursor]
      exact valid.ring.overwrite (by omega) _
    · intro k id
      rw [entries,index,count_pushAll,count_retainAll,valid.keys,keyCount_set _ _ _ _ _ inside]
      by_cases same : c.cursor = id
      · subst same
        by_cases stale : k ∈ bands hashOne old.sig BANDS
        · simp [stale]
        · have absent : keyCount hashOne c.entries c.cursor k = 0 := by
            simpa [keyCount,held] using List.count_eq_zero.mpr stale
          simp [stale,absent]
      · simp [same]

theorem insertAll_append (c : MemoryTextCache ρ) (inserted : List (Entry ρ)) (e : Entry ρ) :
    insertAll hashOne c (inserted ++ [e]) =
      insert hashOne (insertAll hashOne c inserted) e.sig e.result e.identity := by
  simp [insertAll]

theorem insertAll_inStep (capacity : Nat) (threshold : ℚ) (inserted : List (Entry ρ)) :
    InStep hashOne (insertAll hashOne (new ρ capacity threshold) inserted) inserted := by
  induction inserted using List.reverseRecOn with
  | nil => exact new_inStep capacity threshold
  | append_singleton prior e ih =>
      rw [insertAll_append]
      exact insert_inStep ih e.sig e.result e.identity

@[simp] theorem insertAll_capacity (c : MemoryTextCache ρ) (inserted : List (Entry ρ)) :
    (insertAll hashOne c inserted).capacity = c.capacity := by
  induction inserted using List.reverseRecOn with
  | nil => rfl
  | append_singleton prior e ih => rw [insertAll_append,insert_capacity,ih]

@[simp] theorem insertAll_threshold (c : MemoryTextCache ρ) (inserted : List (Entry ρ)) :
    (insertAll hashOne c inserted).threshold = c.threshold := by
  induction inserted using List.reverseRecOn with
  | nil => rfl
  | append_singleton prior e ih => rw [insertAll_append,insert_threshold,ih]

theorem InStep.slot_of_member {c : MemoryTextCache ρ} {inserted : List (Entry ρ)} {k : UInt64}
    {id : Nat} (valid : InStep hashOne c inserted) (member : id ∈ bucket c.index k) :
    ∃ e, c.entries[id]? = some e ∧ k ∈ bands hashOne e.sig BANDS := by
  have counted := valid.keys k id
  have positive := List.count_pos_iff.mpr member
  unfold keyCount at counted
  cases slot : c.entries[id]? with
  | none => simp only [slot] at counted; omega
  | some e =>
      simp only [slot] at counted
      exact ⟨e,rfl,List.count_pos_iff.mp (counted ▸ positive)⟩

theorem InStep.member_of_slot {c : MemoryTextCache ρ} {inserted : List (Entry ρ)} {k : UInt64}
    {id : Nat} {e : Entry ρ} (valid : InStep hashOne c inserted) (slot : c.entries[id]? = some e)
    (key : k ∈ bands hashOne e.sig BANDS) : id ∈ bucket c.index k := by
  have counted := valid.keys k id
  simp only [keyCount,slot] at counted
  exact List.count_pos_iff.mp (counted ▸ List.count_pos_iff.mpr key)

-- Read from the cursor on, the slots are the newest inserts in order, one slot
-- each; every bucket counts a slot as often as its live signature has the key.
theorem ring_index_in_step (hashOne : UInt64 × List UInt64 → UInt64) (capacity : Nat) (threshold : ℚ)
    (inserted : List (Entry ρ)) :
    let c := insertAll hashOne (new ρ capacity threshold) inserted
    c.entries.length = min inserted.length (max capacity 1) ∧
    c.entries.rotate c.cursor =
      inserted.drop (inserted.length - min inserted.length (max capacity 1)) ∧
    (∀ k id, (bucket c.index k).count id =
      match c.entries[id]? with
      | some e => (bands hashOne e.sig 32).count k
      | none => 0) ∧
    ∀ k, ∀ id ∈ bucket c.index k, ∃ e, c.entries[id]? = some e ∧ k ∈ bands hashOne e.sig 32 := by
  intro c
  have valid : InStep hashOne c inserted := insertAll_inStep capacity threshold inserted
  have size : c.capacity = max capacity 1 := insertAll_capacity _ _
  refine ⟨size ▸ valid.ring.length,?_,valid.keys,fun k id member => valid.slot_of_member member⟩
  rw [valid.ring.newest,size]
  congr 1
  omega

end SemanticClassifier.TextCache
