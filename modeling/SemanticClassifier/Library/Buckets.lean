import Mathlib.Data.Finmap
import Mathlib.Tactic.Basic

namespace Buckets
universe u v

-- An inverted index: every key has a bucket of ids, repetitions included. A key
-- without a bucket and a key with an empty one answer alike, but both are kept
-- apart because a bucket that stays behind empty still takes up memory.
abbrev Index (κ : Type u) (ι : Type v) := Finmap (fun _ : κ => List ι)

variable {κ : Type u} {ι : Type v} [DecidableEq κ] [DecidableEq ι]

def bucket (index : Index κ ι) (key : κ) : List ι := (index.lookup key).getD []

def push (id : ι) (index : Index κ ι) (key : κ) : Index κ ι :=
  index.insert key (bucket index key ++ [id])

def retain (id : ι) (index : Index κ ι) (key : κ) : Index κ ι :=
  match index.lookup key with
  | some ids => index.insert key (ids.filter (fun x => x ≠ id))
  | none => index

omit [DecidableEq ι] in
@[simp] theorem bucket_empty (key : κ) : bucket (∅ : Index κ ι) key = [] := by
  simp [bucket,Finmap.lookup_empty]

omit [DecidableEq ι] in
theorem bucket_insert (index : Index κ ι) (key other : κ) (ids : List ι) :
    bucket (index.insert key ids) other = if other = key then ids else bucket index other := by
  unfold bucket
  split
  · rename_i same; subst same; simp [Finmap.lookup_insert]
  · rename_i other; rw [Finmap.lookup_insert_of_ne _ other]

omit [DecidableEq ι] in
theorem bucket_push (id : ι) (index : Index κ ι) (key other : κ) :
    bucket (push id index key) other =
      if other = key then bucket index key ++ [id] else bucket index other :=
  bucket_insert _ _ _ _

theorem bucket_retain (id : ι) (index : Index κ ι) (key other : κ) :
    bucket (retain id index key) other =
      if other = key then (bucket index key).filter (fun x => x ≠ id) else bucket index other := by
  unfold retain
  cases found : index.lookup key with
  | some ids => simp only [bucket_insert]; simp [bucket,found]
  | none =>
      by_cases same : other = key
      · subst same; simp [bucket,found]
      · simp [same]

theorem count_push (id x : ι) (index : Index κ ι) (key other : κ) :
    (bucket (push id index key) other).count x =
      (bucket index other).count x + if id = x then [key].count other else 0 := by
  rw [bucket_push]
  by_cases same : other = key
  · subst same
    by_cases mine : id = x <;> simp [List.count_append,mine]
  · have absent : [key].count other = 0 := List.count_eq_zero.mpr (by simpa using same)
    simp [same,absent]

-- Pushing an id under a list of keys adds it once for every occurrence.
theorem count_pushAll (id x : ι) (keys : List κ) (index : Index κ ι) (other : κ) :
    (bucket (keys.foldl (push id) index) other).count x =
      (bucket index other).count x + if id = x then keys.count other else 0 := by
  induction keys generalizing index with
  | nil => simp
  | cons key rest ih =>
      have split : (key :: rest).count other = [key].count other + rest.count other := by
        rw [← List.count_append,List.singleton_append]
      rw [List.foldl_cons,ih,count_push,split]
      split_ifs <;> omega

theorem count_retain (id x : ι) (index : Index κ ι) (key other : κ) :
    (bucket (retain id index key) other).count x =
      if id = x ∧ other = key then 0 else (bucket index other).count x := by
  rw [bucket_retain]
  by_cases same : other = key
  · subst same
    by_cases mine : id = x
    · subst mine
      rw [if_pos rfl,if_pos ⟨rfl,rfl⟩,List.count_eq_zero]
      simp
    · rw [if_pos rfl,if_neg (fun both => mine both.1),List.count_filter]
      simpa using Ne.symm mine
  · simp [same]

-- Retaining under a list of keys removes the id from exactly those buckets.
theorem count_retainAll (id x : ι) (keys : List κ) (index : Index κ ι) (other : κ) :
    (bucket (keys.foldl (retain id) index) other).count x =
      if id = x ∧ other ∈ keys then 0 else (bucket index other).count x := by
  induction keys generalizing index with
  | nil => simp
  | cons key rest ih =>
      rw [List.foldl_cons,ih,count_retain]
      by_cases mine : id = x
      · by_cases later : other ∈ rest <;> by_cases here : other = key <;> simp [mine,later,here]
      · simp [mine]

omit [DecidableEq ι] in
theorem mem_push (id : ι) (index : Index κ ι) (key other : κ) :
    other ∈ push id index key ↔ other = key ∨ other ∈ index := Finmap.mem_insert

-- Retaining empties buckets and removes none.
theorem mem_retain (id : ι) (index : Index κ ι) (key other : κ) :
    other ∈ retain id index key ↔ other ∈ index := by
  unfold retain
  cases found : index.lookup key with
  | none => rfl
  | some ids =>
      have present : key ∈ index := Finmap.mem_of_lookup_eq_some found
      simp only [Finmap.mem_insert]
      exact ⟨fun either => either.elim (fun same => same ▸ present) fun old => old,.inr⟩

omit [DecidableEq ι] in
theorem mem_pushAll (id : ι) (keys : List κ) (index : Index κ ι) (other : κ) :
    other ∈ keys.foldl (push id) index ↔ other ∈ keys ∨ other ∈ index := by
  induction keys generalizing index with
  | nil => simp
  | cons key rest ih => rw [List.foldl_cons,ih,mem_push,List.mem_cons,or_left_comm,or_assoc]

theorem mem_retainAll (id : ι) (keys : List κ) (index : Index κ ι) (other : κ) :
    other ∈ keys.foldl (retain id) index ↔ other ∈ index := by
  induction keys generalizing index with
  | nil => rfl
  | cons key rest ih => rw [List.foldl_cons,ih,mem_retain]

end Buckets
