import SemanticClassifier.ExactCache
import SemanticClassifier.Library.Fifo

namespace SemanticClassifier.Cache
open Fifo

inductive Operation (κ ε ρ : Type) where
  | classify (key : κ) (forward : Except ε ρ)
  | storeAfterForward (key : κ) (result : ρ)

variable {κ ε ρ : Type} [DecidableEq κ]

def perform (cache : ExactCache κ ρ) : Operation κ ε ρ → ExactCache κ ρ
  | .classify key forward => (classify cache key forward).2
  | .storeAfterForward key result => storeAfterForward cache key result

def performAll (cache : ExactCache κ ρ) (operations : List (Operation κ ε ρ)) : ExactCache κ ρ :=
  operations.foldl perform cache

-- What an operation puts into the cache it meets.
def stored (cache : ExactCache κ ρ) : Operation κ ε ρ → Option (κ × ρ)
  | .classify key (.ok result) => if key ∈ cache.entries then none else some (key,result)
  | .classify _ (.error _) => none
  | .storeAfterForward key result => some (key,result)

def stores (cache : ExactCache κ ρ) : List (Operation κ ε ρ) → List (κ × ρ)
  | [] => []
  | operation :: rest => (stored cache operation).toList ++ stores (perform cache operation) rest

-- A key that is absent at the moment it is stored.
def fresh (cache : ExactCache κ ρ) (operation : Operation κ ε ρ) : List κ :=
  match stored cache operation with
  | some put => if put.1 ∈ cache.entries then [] else [put.1]
  | none => []

def freshInsertions (cache : ExactCache κ ρ) : List (Operation κ ε ρ) → List κ
  | [] => []
  | operation :: rest => fresh cache operation ++ freshInsertions (perform cache operation) rest

-- The cache is the FIFO window over its fresh insertions.
structure Represents (capacity : Nat) (cache : ExactCache κ ρ) (inserted : List κ)
    (puts : List (κ × ρ)) : Prop where
  bound : cache.capacity = capacity
  positive : 0 < capacity
  order : cache.order = window capacity inserted
  nodup : cache.order.Nodup
  listed : ∀ k, k ∈ cache.order ↔ k ∈ cache.entries
  evicted : cache.evictedCount + cache.order.length = inserted.length
  values : ∀ k v, cachedValue cache k = some v → latest puts k = some v

theorem Represents.size {cache : ExactCache κ ρ} (valid : Represents c cache inserted puts) :
    cache.entries.keys.card = cache.order.length := by
  rw [← List.toFinset_card_of_nodup valid.nodup]
  congr 1
  ext k
  rw [Finmap.mem_keys,List.mem_toFinset,valid.listed]

theorem withCapacity_represents (κ ρ : Type) [DecidableEq κ] (capacity : Nat) :
    Represents (max capacity 1) (withCapacity κ ρ capacity) [] [] where
  bound := rfl
  positive := by omega
  order := (window_nil _).symm
  nodup := List.nodup_nil
  listed k := by
    refine ⟨?_,fun inside => absurd inside Finmap.notMem_empty⟩
    intro inside
    cases inside
  evicted := rfl
  values k v found := by
    have none := cachedValue_new κ ρ capacity k
    cases none.symm.trans found

-- One eviction makes room, and none happens below capacity.
theorem evict_room {entries : Finmap fun _ : κ => ρ} (room : entries.keys.card < capacity) :
    evict entries capacity evicted order = (entries,order,evicted) := by
  cases order with
  | nil => rfl
  | cons oldest rest => rw [evict,if_neg (Nat.not_le.mpr room)]

theorem evict_full {entries : Finmap fun _ : κ => ρ} (full : entries.keys.card = capacity)
    (present : oldest ∈ entries) :
    evict entries capacity evicted (oldest :: rest) = (entries.erase oldest,rest,evicted+1) := by
  have smaller : (entries.erase oldest).keys.card < capacity := by
    rw [← full,Finmap.keys_erase]
    exact Finset.card_erase_lt_of_mem (Finmap.mem_keys.mpr present)
  rw [evict,if_pos full.ge,if_pos present,evict_room smaller]

theorem Represents.restored {cache : ExactCache κ ρ} (valid : Represents c cache inserted puts)
    (present : key ∈ cache.entries)
    (values : ∀ k v, cachedValue (store cache key result) k = some v → latest later k = some v) :
    Represents c (store cache key result) inserted later := by
  have written : store cache key result = {cache with entries := cache.entries.insert key result} :=
    if_pos present
  rw [written] at values ⊢
  refine ⟨valid.bound,valid.positive,valid.order,valid.nodup,?_,valid.evicted,values⟩
  intro k
  rw [Finmap.mem_insert,valid.listed]
  exact ⟨.inr,fun either => either.elim (fun same => same ▸ present) id⟩

theorem Represents.appended {cache : ExactCache κ ρ} (valid : Represents c cache inserted puts)
    (absent : key ∉ cache.entries) (room : cache.order.length < c)
    (values : ∀ k v, cachedValue (store cache key result) k = some v → latest later k = some v) :
    Represents c (store cache key result) (inserted ++ [key]) later := by
  have unlisted : key ∉ cache.order := (valid.listed key).not.mpr absent
  have written : store cache key result = {cache with
      entries := cache.entries.insert key result
      order := cache.order ++ [key]} := by
    rw [store,if_neg absent,evict_room (by rw [valid.size,valid.bound]; exact room)]
  rw [written] at values ⊢
  refine ⟨valid.bound,valid.positive,?_,?_,?_,?_,values⟩
  · rw [window_room key (valid.order ▸ room),valid.order]
  · exact List.nodup_append_comm.mp (List.nodup_cons.mpr ⟨unlisted,valid.nodup⟩)
  · intro k
    simp [Finmap.mem_insert,valid.listed,or_comm]
  · have counted := valid.evicted
    simp only [List.length_append,List.length_singleton]
    omega

-- At capacity the oldest key makes way.
theorem Represents.displaced {cache : ExactCache κ ρ} (valid : Represents c cache inserted puts)
    (absent : key ∉ cache.entries) (queue : cache.order = oldest :: rest) (full : c ≤ cache.order.length)
    (values : ∀ k v, cachedValue (store cache key result) k = some v → latest later k = some v) :
    Represents c (store cache key result) (inserted ++ [key]) later := by
  have unlisted : key ∉ oldest :: rest := queue ▸ (valid.listed key).not.mpr absent
  have distinct : (oldest :: rest).Nodup := queue ▸ valid.nodup
  have gone := (List.nodup_cons.mp distinct).1
  have size : cache.entries.keys.card = cache.capacity := by
    have bounded := length_window c inserted
    rw [← valid.order] at bounded
    rw [valid.size,valid.bound]
    omega
  have listed : oldest ∈ cache.entries := (valid.listed oldest).mp (by simp [queue])
  have written : store cache key result = {cache with
      entries := (cache.entries.erase oldest).insert key result
      order := rest ++ [key]
      evictedCount := cache.evictedCount+1} := by
    rw [store,if_neg absent,queue,evict_full size listed]
  rw [written] at values ⊢
  refine ⟨valid.bound,valid.positive,?_,?_,?_,?_,values⟩
  · exact (window_full key (valid.order ▸ queue) (valid.order ▸ full)).symm
  · exact List.nodup_append_comm.mp (List.nodup_cons.mpr
      ⟨fun inside => unlisted (List.mem_cons_of_mem _ inside),(List.nodup_cons.mp distinct).2⟩)
  · intro k
    have there := valid.listed k
    rw [queue,List.mem_cons] at there
    rw [Finmap.mem_insert,Finmap.mem_erase,List.mem_append,List.mem_singleton,← there]
    constructor
    · intro inside
      rcases inside with inside | same
      · exact .inr ⟨fun same => gone (same ▸ inside),.inr inside⟩
      · exact .inl same
    · intro inside
      rcases inside with same | ⟨other,same | inside⟩
      · exact .inr same
      · exact absurd same other
      · exact .inl inside
  · have counted := valid.evicted
    rw [queue,List.length_cons] at counted
    simp only [List.length_append,List.length_singleton]
    omega

theorem Represents.put {cache : ExactCache κ ρ} (valid : Represents c cache inserted puts)
    (key : κ) (result : ρ) :
    Represents c (store cache key result) (inserted ++ if key ∈ cache.entries then [] else [key])
      (puts ++ [(key,result)]) := by
  have values (k : κ) (v : ρ) (found : cachedValue (store cache key result) k = some v) :
      latest (puts ++ [(key,result)]) k = some v := by
    rw [latest_append]
    by_cases same : key = k
    · subst same
      rw [store_cached] at found
      rwa [if_pos rfl]
    · rw [if_neg same]
      rcases store_after cache found with now | before
      · exact absurd now.1.symm same
      · exact valid.values k v before
  by_cases present : key ∈ cache.entries
  · rw [if_pos present,List.append_nil]
    exact valid.restored present values
  · rw [if_neg present]
    cases Nat.lt_or_ge cache.order.length c with
    | inl room => exact valid.appended present room values
    | inr full =>
        obtain ⟨oldest,rest,queue⟩ :=
          List.exists_cons_of_length_pos (Nat.lt_of_lt_of_le valid.positive full)
        exact valid.displaced present queue full values

-- The counters of forwards and hits stand beside the map.
theorem Represents.counted {cache : ExactCache κ ρ} (valid : Represents c cache inserted puts)
    (forwards hits : Nat) :
    Represents c {cache with forwardCount := forwards,hitCount := hits} inserted puts :=
  ⟨valid.bound,valid.positive,valid.order,valid.nodup,valid.listed,valid.evicted,valid.values⟩

theorem Represents.perform {cache : ExactCache κ ρ} (valid : Represents c cache inserted puts)
    (operation : Operation κ ε ρ) :
    Represents c (Cache.perform cache operation)
      (inserted ++ fresh cache operation)
      (puts ++ (stored cache operation).toList) := by
  cases operation with
  | storeAfterForward key result =>
      exact (valid.counted (cache.forwardCount+1) cache.hitCount).put key result
  | classify key forward =>
      cases found : cachedValue cache key with
      | some value =>
          have present : key ∈ cache.entries := Finmap.mem_of_lookup_eq_some found
          have nothing : stored cache (.classify key forward) = none := by
            cases forward with
            | ok result => exact if_pos present
            | error e => rfl
          rw [Cache.perform,classify_hit forward found,fresh,nothing]
          simpa using valid.counted cache.forwardCount (cache.hitCount+1)
      | none =>
          have absent : key ∉ cache.entries := Finmap.lookup_eq_none.mp found
          cases forward with
          | ok result =>
              have put := (valid.counted (cache.forwardCount+1) cache.hitCount).put key result
              rw [Cache.perform,classify_computed result found]
              simpa [fresh,stored,absent] using put
          | error e =>
              rw [Cache.perform,classify_failed e found]
              simpa [fresh,stored] using valid.counted (cache.forwardCount+1) cache.hitCount

theorem Represents.performAll {cache : ExactCache κ ρ} (valid : Represents c cache inserted puts)
    (operations : List (Operation κ ε ρ)) :
    Represents c (Cache.performAll cache operations) (inserted ++ freshInsertions cache operations)
      (puts ++ stores cache operations) := by
  induction operations generalizing cache inserted puts with
  | nil => simpa [Cache.performAll,freshInsertions,stores] using valid
  | cons operation rest ih =>
      have later := ih (valid.perform operation)
      rw [List.append_assoc,List.append_assoc] at later
      exact later

-- Whatever is asked of the cache, it stays the window over its last fresh keys,
-- with the latest value under each and every other insertion evicted.
theorem fifo_refined {κ ε ρ : Type} [DecidableEq κ] (capacity : Nat)
    (operations : List (Operation κ ε ρ)) :
    let cache := performAll (withCapacity κ ρ capacity) operations
    let inserted := freshInsertions (withCapacity κ ρ capacity) operations
    let kept := min inserted.length (max capacity 1)
    cache.order = inserted.drop (inserted.length - kept) ∧
      cache.entries.keys.card = kept ∧
      cache.order.Nodup ∧ (∀ key, key ∈ cache.order ↔ key ∈ cache.entries) ∧
      cache.evictedCount = inserted.length - kept ∧
      (∀ key value (forward : Except ε ρ), cachedValue cache key = some value →
        (classify cache key forward).1 = .ok value ∧
        latest (stores (withCapacity κ ρ capacity) operations) key = some value) ∧
      ∀ key (e : ε), (classify cache key (.error e)).2.entries = cache.entries ∧
        (classify cache key (.error e)).2.order = cache.order := by
  intro cache inserted kept
  have valid := (withCapacity_represents κ ρ capacity).performAll operations
  have length : cache.order.length = kept := by
    rw [valid.order]
    exact length_window _ _
  refine ⟨?_,valid.size.trans length,valid.nodup,valid.listed,?_,?_,?_⟩
  · rw [valid.order]
    change inserted.drop (inserted.length - max capacity 1) = _
    congr 1
    omega
  · have counted := valid.evicted
    change cache.evictedCount + cache.order.length = inserted.length at counted
    omega
  · intro key value forward found
    exact ⟨by rw [classify_hit forward found],valid.values key value found⟩
  · intro key e
    cases found : cachedValue cache key with
    | some value =>
        rw [classify_hit _ found]
        exact ⟨rfl,rfl⟩
    | none =>
        rw [classify_failed e found]
        exact ⟨rfl,rfl⟩

end SemanticClassifier.Cache
