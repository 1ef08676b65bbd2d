import Mathlib.Data.Finmap

namespace SemanticClassifier.Cache

-- `order` is the FIFO eviction queue, oldest first.
structure ExactCache (κ ρ : Type) where
  entries : Finmap fun _ : κ => ρ
  order : List κ
  capacity : Nat
  forwardCount : Nat
  hitCount : Nat
  evictedCount : Nat

variable {κ ρ : Type}

def withCapacity (κ ρ : Type) (capacity : Nat) : ExactCache κ ρ :=
  ⟨∅,[],max capacity 1,0,0,0⟩

variable [DecidableEq κ]

-- The `while` loop of `store`; a key `order` still names may already be gone.
def evict (entries : Finmap fun _ : κ => ρ) (capacity evicted : Nat) :
    List κ → (Finmap fun _ : κ => ρ) × List κ × Nat
  | [] => (entries,[],evicted)
  | oldest :: order =>
    if capacity ≤ entries.keys.card then
      evict (entries.erase oldest) capacity (if oldest ∈ entries then evicted+1 else evicted) order
    else (entries,oldest :: order,evicted)

def store (cache : ExactCache κ ρ) (key : κ) (result : ρ) : ExactCache κ ρ :=
  if key ∈ cache.entries then {cache with entries := cache.entries.insert key result}
  else
    let room := evict cache.entries cache.capacity cache.evictedCount cache.order
    {cache with
      entries := room.1.insert key result
      order := room.2.1 ++ [key]
      evictedCount := room.2.2}

def cachedValue (cache : ExactCache κ ρ) (key : κ) : Option ρ := cache.entries.lookup key

-- `forward` is what the closure returns if it is run, which only a miss does.
def classify (cache : ExactCache κ ρ) (key : κ) (forward : Except ε ρ) :
    Except ε ρ × ExactCache κ ρ :=
  match cache.entries.lookup key with
  | some cached => (.ok cached,{cache with hitCount := cache.hitCount+1})
  | none =>
    match forward with
    | .ok result =>
      (.ok result,store {cache with forwardCount := cache.forwardCount+1} key result)
    | .error e => (.error e,{cache with forwardCount := cache.forwardCount+1})

def storeAfterForward (cache : ExactCache κ ρ) (key : κ) (result : ρ) : ExactCache κ ρ :=
  store {cache with forwardCount := cache.forwardCount+1} key result

-- Eviction only forgets.
theorem evict_lookup {entries : Finmap fun _ : κ => ρ} {order : List κ}
    (found : (evict entries capacity evicted order).1.lookup k = some r) :
    entries.lookup k = some r := by
  induction order generalizing entries evicted with
  | nil => exact found
  | cons oldest order ih =>
      unfold evict at found
      split at found
      · have kept := ih found
        by_cases same : k = oldest
        · subst same
          simp [Finmap.lookup_erase] at kept
        · rwa [Finmap.lookup_erase_ne same] at kept
      · exact found

theorem cachedValue_new (κ ρ : Type) [DecidableEq κ] (capacity : Nat) (k : κ) :
    cachedValue (withCapacity κ ρ capacity) k = none := rfl

theorem classify_hit {cache : ExactCache κ ρ} (forward : Except ε ρ)
    (found : cachedValue cache key = some value) :
    classify cache key forward = (.ok value,{cache with hitCount := cache.hitCount+1}) := by
  unfold cachedValue at found
  simp only [classify,found]

theorem classify_computed {cache : ExactCache κ ρ} (result : ρ) (missed : cachedValue cache key = none) :
    classify cache key (.ok result : Except ε ρ) =
      (.ok result,store {cache with forwardCount := cache.forwardCount+1} key result) := by
  unfold cachedValue at missed
  simp only [classify,missed]

theorem classify_failed {cache : ExactCache κ ρ} (e : ε) (missed : cachedValue cache key = none) :
    classify cache key (.error e) =
      (.error e,{cache with forwardCount := cache.forwardCount+1}) := by
  unfold cachedValue at missed
  simp only [classify,missed]

theorem store_cached (cache : ExactCache κ ρ) (k : κ) (r : ρ) :
    cachedValue (store cache k r) k = some r := by
  unfold store cachedValue
  split <;> exact Finmap.lookup_insert _

-- What a store leaves under a key is the stored result or what was there.
theorem store_after (cache : ExactCache κ ρ) (found : cachedValue (store cache key result) k = some r) :
    (k = key ∧ r = result) ∨ cachedValue cache k = some r := by
  by_cases same : k = key
  · subst same
    rw [store_cached] at found
    exact .inl ⟨rfl,(Option.some.inj found).symm⟩
  · refine .inr ?_
    unfold store cachedValue at found
    split at found
    · rwa [Finmap.lookup_insert_of_ne _ same] at found
    · rw [Finmap.lookup_insert_of_ne _ same] at found
      exact evict_lookup found

theorem cachedValue_stored (cache : ExactCache κ ρ) (k : κ) (r : ρ) :
    cachedValue (storeAfterForward cache k r) k = some r := store_cached _ k r

theorem cachedValue_after {cache : ExactCache κ ρ}
    (found : cachedValue (storeAfterForward cache key result) k = some r) :
    (k = key ∧ r = result) ∨ cachedValue cache k = some r :=
  store_after {cache with forwardCount := cache.forwardCount+1} found

theorem storeAfterForward_forwards (cache : ExactCache κ ρ) (key : κ) (result : ρ) :
    (storeAfterForward cache key result).forwardCount = cache.forwardCount + 1 := by
  unfold storeAfterForward store
  split <;> rfl

end SemanticClassifier.Cache
