import SemanticClassifier.TextCacheIndex

namespace SemanticClassifier.TextCache
open Prefilter Buckets

variable {ρ : Type} {hashOne : UInt64 × List UInt64 → UInt64}

def bandKeys (hashOne : UInt64 × List UInt64 → UInt64) (entries : List (Entry ρ)) : Finset UInt64 :=
  (entries.flatMap fun e => bands hashOne e.sig BANDS).toFinset

theorem mem_bandKeys (entries : List (Entry ρ)) (k : UInt64) :
    k ∈ bandKeys hashOne entries ↔ ∃ e ∈ entries, k ∈ bands hashOne e.sig BANDS := by
  simp [bandKeys]

-- An insert adds its own keys to the index and takes none away.
theorem mem_index_insert (c : MemoryTextCache ρ) (sig : Signature) (result : ρ) (identity : String)
    (k : UInt64) : k ∈ (insert hashOne c sig result identity).index ↔
      k ∈ bands hashOne sig BANDS ∨ k ∈ c.index := by
  rcases insert_cases hashOne c sig result identity with ⟨_,_,_,index⟩ | ⟨_,old,_,_,_,index⟩
  · rw [index,mem_pushAll]
  · rw [index,mem_pushAll,mem_retainAll]

theorem index_keys (capacity : Nat) (threshold : ℚ) (inserted : List (Entry ρ)) :
    (insertAll hashOne (new ρ capacity threshold) inserted).index.keys = bandKeys hashOne inserted := by
  ext k
  rw [Finmap.mem_keys,mem_bandKeys]
  induction inserted using List.reverseRecOn with
  | nil => exact ⟨fun inside => absurd inside Finmap.notMem_empty,by simp⟩
  | append_singleton prior e ih =>
      rw [insertAll_append,mem_index_insert,ih]
      simp only [List.mem_append,List.mem_singleton,or_and_right,exists_or,exists_eq_left]
      exact or_comm

theorem InStep.bucket_live {c : MemoryTextCache ρ} {inserted : List (Entry ρ)}
    (valid : InStep hashOne c inserted) (k : UInt64) :
    (∃ id, id ∈ bucket c.index k) ↔ k ∈ bandKeys hashOne c.entries := by
  rw [mem_bandKeys]
  constructor
  · intro held
    obtain ⟨id,member⟩ := held
    obtain ⟨e,slot,key⟩ := valid.slot_of_member member
    exact ⟨e,List.mem_of_getElem? slot,key⟩
  · intro live
    obtain ⟨e,member,key⟩ := live
    obtain ⟨id,slot⟩ := List.mem_iff_getElem?.mp member
    exact ⟨id,valid.member_of_slot slot key⟩

-- The index keeps a bucket for every band key it ever saw: it stays within its
-- bound exactly while those are few, and has no dead bucket exactly while every
-- one of them is a key of an entry still in the ring.
theorem index_bounded_iff (hashOne : UInt64 × List UInt64 → UInt64) (capacity : Nat) (threshold : ℚ)
    (inserted : List (Entry ρ)) :
    let c := insertAll hashOne (new ρ capacity threshold) inserted
    let live := inserted.drop (inserted.length - min inserted.length (max capacity 1))
    (c.index.keys.card ≤ 32 * max capacity 1 ↔
      (bandKeys hashOne inserted).card ≤ 32 * max capacity 1) ∧
    ((∀ k ∈ c.index, ∃ id, id ∈ bucket c.index k) ↔ bandKeys hashOne inserted ⊆ bandKeys hashOne live) := by
  intro c live
  have valid : InStep hashOne c inserted := insertAll_inStep capacity threshold inserted
  have keys : c.index.keys = bandKeys hashOne inserted := index_keys capacity threshold inserted
  have ring : c.entries.Perm live := by
    have size : c.capacity = max capacity 1 := insertAll_capacity _ _
    have newest := valid.ring.perm
    rw [size] at newest
    have same : inserted.length - max capacity 1 = inserted.length - min inserted.length (max capacity 1) := by
      omega
    rwa [same] at newest
  have entries : bandKeys hashOne c.entries = bandKeys hashOne live := by
    ext k
    simp only [mem_bandKeys,ring.mem_iff]
  refine ⟨by rw [keys],?_⟩
  rw [← entries]
  constructor
  · intro full k inside
    rw [← keys,Finmap.mem_keys] at inside
    exact (valid.bucket_live k).mp (full k inside)
  · intro covered k inside
    rw [← Finmap.mem_keys,keys] at inside
    exact (valid.bucket_live k).mpr (covered inside)

-- A hash that tells the bands of these two signatures apart.
def spread (fed : UInt64 × List UInt64) : UInt64 := fed.1 + 32 * fed.2.headD 0

def zeros : Signature := ⟨List.replicate 128 0⟩

def ones : Signature := ⟨List.replicate 128 1⟩

-- A ring of one slot, and two texts without a band in common.
theorem bound_exceeded :
    let c := insertAll spread (new Nat 1 (97 / 128)) [⟨zeros,"m",7⟩,⟨ones,"m",9⟩]
    ¬ c.index.keys.card ≤ 32 * 1 ∧ ¬ ∀ k ∈ c.index, ∃ id, id ∈ bucket c.index k := by
  intro c
  have valid : InStep spread c [⟨zeros,"m",7⟩,⟨ones,"m",9⟩] := insertAll_inStep 1 (97 / 128) _
  have keys : c.index.keys = bandKeys spread [⟨zeros,"m",7⟩,⟨ones,"m",9⟩] := index_keys 1 (97 / 128) _
  have entries : c.entries = [⟨ones,"m",9⟩] := by
    have ring := valid.ring.perm
    rw [show c.capacity = 1 from insertAll_capacity _ _] at ring
    exact List.perm_singleton.mp ring
  clear_value c
  constructor
  · rw [keys]
    decide +kernel
  · intro full
    have dead : (0 : UInt64) ∈ c.index := by
      rw [← Finmap.mem_keys,keys]
      decide +kernel
    have live := (valid.bucket_live 0).mp (full 0 dead)
    rw [entries] at live
    revert live
    decide +kernel

end SemanticClassifier.TextCache
