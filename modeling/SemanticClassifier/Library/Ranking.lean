import Mathlib.Data.List.Dedup
import Mathlib.Data.List.Perm.Subperm
import Mathlib.Data.List.Sort

namespace Ranking
universe u v w

variable {α : Type u} {κ : Type v} {ν : Type w} [LinearOrder κ] {key : α → κ} {name : α → ν}

-- Least key first; rows of one name may repeat.
def Ranked (key : α → κ) (rows : List α) : Prop := rows.Pairwise fun a b => key a ≤ key b

theorem sorted_ranked {before : α → α → Prop} [DecidableRel before] {rows : List α}
    (coherent : ∀ a ∈ rows, ∀ b ∈ rows, before a b ↔ key a ≤ key b) :
    Ranked key (rows.insertionSort before) := by
  have keys := List.map_insertionSort (s := (· ≤ ·)) before key rows coherent
  have sorted := List.pairwise_insertionSort (· ≤ ·) (rows.map key)
  rw [← keys] at sorted
  exact List.pairwise_map.mp sorted

theorem Ranked.take {rows : List α} (ranked : Ranked key rows) (k : Nat) : Ranked key (rows.take k) :=
  List.Pairwise.sublist (List.take_sublist k rows) ranked

theorem Ranked.beyond {rows : List α} (ranked : Ranked key rows) (k : Nat) :
    ∀ a ∈ rows.take k, ∀ b ∈ rows.drop k, key a ≤ key b := by
  rw [← List.take_append_drop k rows] at ranked
  exact (List.pairwise_append.mp ranked).2.2

-- Rows told apart by their keys have one ranked order.
theorem Ranked.unique {rows others : List α} (distinct : ∀ a ∈ rows, ∀ b ∈ rows, key a = key b → a = b)
    (ranked : Ranked key rows) (other : Ranked key others) (same : rows.Perm others) : rows = others := by
  apply List.Perm.eq_of_pairwise _ ranked other same
  intro a b left right below above
  exact distinct a left b (same.mem_iff.mpr right) (le_antisymm below above)

-- A row whose name a row at least as good carries already stands behind some
-- row of each other name.
def Trailing (key : α → κ) (name : α → ν) (rows : List α) : Prop :=
  ∀ a b, List.Subperm [a,b] rows → name a = name b → key b ≤ key a →
    ∀ other ∈ rows, name other ≠ name a → ∃ c ∈ rows, name c = name other ∧ key c < key a

theorem Trailing.perm {rows others : List α} (same : rows.Perm others)
    (trailing : Trailing key name rows) : Trailing key name others := by
  intro a b pair named behind other member distinct
  obtain ⟨c,found,carries,ahead⟩ :=
    trailing a b (same.subperm_left.mpr pair) named behind other (same.mem_iff.mpr member) distinct
  exact ⟨c,same.mem_iff.mp found,carries,ahead⟩

section Names
variable [DecidableEq ν] {names kept : List ν}

theorem once_nodup (within : kept ⊆ names) (once : ∀ n ∈ names, kept.count n = 1) : kept.Nodup := by
  apply List.nodup_iff_count_le_one.mpr
  intro n
  by_cases member : n ∈ kept
  · exact (once n (within member)).le
  · exact (List.count_eq_zero_of_not_mem member).le.trans (Nat.zero_le 1)

theorem once_length (within : kept ⊆ names) (once : ∀ n ∈ names, kept.count n = 1) :
    kept.length = names.dedup.length := by
  apply List.Perm.length_eq
  apply (List.perm_ext_iff_of_nodup (once_nodup within once) (List.nodup_dedup names)).mpr
  intro n
  refine ⟨fun member => List.mem_dedup.mpr (within member),fun member => ?_⟩
  have one := once n (List.mem_dedup.mp member)
  exact List.count_pos_iff.mp (one ▸ Nat.one_pos)

theorem once_of_nodup (within : kept ⊆ names) (nodup : kept.Nodup)
    (many : names.dedup.length ≤ kept.length) : ∀ n ∈ names, kept.count n = 1 := by
  intro n member
  have inside : kept ⊆ names.dedup := fun m there => List.mem_dedup.mpr (within there)
  have covers := (nodup.subperm inside).perm_of_length_le many
  exact List.count_eq_one_of_mem nodup (covers.mem_iff.mpr (List.mem_dedup.mpr member))

end Names

theorem repeated_beyond {rows : List α} {k : Nat} (nodup : ((rows.take k).map name).Nodup)
    (pair : List.Subperm [a,b] rows) (named : name a = name b) : a ∈ rows.drop k ∨ b ∈ rows.drop k := by
  obtain ⟨both,perm,inside⟩ := pair
  rw [← List.take_append_drop k rows] at inside
  obtain ⟨front,back,rfl,early,late⟩ := List.sublist_append_iff.mp inside
  cases back with
  | nil =>
      rw [List.append_nil] at perm
      have distinct := ((early.map name).nodup nodup)
      rw [(perm.map name).nodup_iff] at distinct
      simp [named] at distinct
  | cons c rest =>
      have there : c ∈ rows.drop k := late.subset List.mem_cons_self
      have here : c ∈ [a,b] := perm.mem_iff.mp (by simp)
      rcases List.mem_pair.mp here with rfl | rfl
      · exact .inl there
      · exact .inr there

-- Where the first `k` rows carry every name once, the rows cut off trail.
theorem trailing_of_once [DecidableEq ν] {rows : List α} (ranked : Ranked key rows)
    (tie : ∀ a b, key a = key b → name a = name b)
    (once : ∀ n ∈ rows.map name, ((rows.take k).map name).count n = 1) : Trailing key name rows := by
  intro a b pair named behind other member distinct
  have within := (List.take_sublist k rows).map name |>.subset
  have beyond := repeated_beyond (once_nodup within once) pair named
  have counted := once (name other) (List.mem_map_of_mem member)
  obtain ⟨c,kept,carries⟩ := List.mem_map.mp (List.count_pos_iff.mp (counted ▸ Nat.one_pos))
  have least : key c ≤ key a := by
    rcases beyond with late | late
    · exact ranked.beyond k c kept a late
    · exact (ranked.beyond k c kept b late).trans behind
  refine ⟨c,List.mem_of_mem_take kept,carries,lt_of_le_of_ne least ?_⟩
  intro equal
  exact distinct (carries ▸ tie c a equal)

-- Conversely a name met twice in front would have every name in front of it.
theorem nodup_of_trailing [DecidableEq ν] {rows : List α} (ranked : Ranked key rows)
    (trailing : Trailing key name rows) (small : k ≤ (rows.map name).dedup.length) :
    ((rows.take k).map name).Nodup := by
  apply List.nodup_iff_sublist.mpr
  intro n twice
  obtain ⟨both,inside,equal⟩ := List.sublist_map_iff.mp twice
  obtain ⟨b,a,rfl⟩ : ∃ b a, both = [b,a] :=
    List.length_eq_two.mp (by simpa using congrArg List.length equal.symm)
  obtain ⟨rfl,named⟩ : n = name b ∧ n = name a := by simpa using equal
  obtain ⟨front,rest,split,first,second⟩ := List.cons_sublist_iff.mp inside
  obtain ⟨middle,back,rfl⟩ := List.append_of_mem (List.singleton_sublist.mp second)
  have whole : rows = (front ++ middle) ++ a :: (back ++ rows.drop k) := by
    conv_lhs => rw [← List.take_append_drop k rows,split]
    simp
  have later : ∀ c ∈ a :: (back ++ rows.drop k), key a ≤ key c := by
    rw [whole] at ranked
    have tail := (List.pairwise_append.mp ranked).2.1
    intro c member
    rcases List.mem_cons.mp member with rfl | member
    · exact le_rfl
    · exact (List.pairwise_cons.mp tail).1 c member
  have pair : List.Subperm [a,b] rows :=
    ⟨[b,a],List.Perm.swap a b [],inside.trans (List.take_sublist k rows)⟩
  have behind : key b ≤ key a := by
    have both := (ranked.take k).sublist inside
    exact (List.pairwise_cons.mp both).1 a List.mem_cons_self
  have covered : (rows.map name).dedup ⊆ (front ++ middle).map name := by
    intro m member
    obtain ⟨other,there,rfl⟩ := List.mem_map.mp (List.mem_dedup.mp member)
    by_cases same : name other = name a
    · rw [same,← named]
      exact List.mem_map_of_mem (List.mem_append_left _ first)
    · obtain ⟨c,found,carries,ahead⟩ := trailing a b pair named.symm behind other there same
      rw [whole] at found
      rcases List.mem_append.mp found with early | late
      · exact carries ▸ List.mem_map_of_mem early
      · exact absurd (later c late) (not_le.mpr ahead)
  have bound := ((List.nodup_dedup (rows.map name)).subperm covered).length_le
  have taken := congrArg List.length split
  simp only [List.length_map,List.length_append,List.length_cons,List.length_take] at bound taken
  omega

-- When the first `k` rows carry every name exactly once.
theorem kept_once_iff [DecidableEq ν] {rows : List α} (ranked : Ranked key rows)
    (tie : ∀ a b, key a = key b → name a = name b) (k : Nat) :
    (∀ n ∈ rows.map name, ((rows.take k).map name).count n = 1) ↔
      ((rows.map name).Nodup ∧ rows.length ≤ k) ∨
      (k = (rows.map name).dedup.length ∧ Trailing key name rows) := by
  have within : (rows.take k).map name ⊆ rows.map name :=
    ((List.take_sublist k rows).map name).subset
  constructor
  · intro once
    have nodup := once_nodup within once
    have length := once_length within once
    rw [List.length_map] at length
    by_cases fits : rows.length ≤ k
    · rw [List.take_of_length_le fits] at nodup
      exact .inl ⟨nodup,fits⟩
    · rw [List.length_take_of_le (not_le.mp fits).le] at length
      exact .inr ⟨length,trailing_of_once ranked tie once⟩
  · rintro (⟨nodup,fits⟩ | ⟨exact,trailing⟩)
    · rw [List.take_of_length_le fits]
      exact fun n member => List.count_eq_one_of_mem nodup member
    · have short : k ≤ rows.length := by
        have := (List.dedup_sublist (rows.map name)).length_le
        rw [List.length_map] at this
        omega
      refine once_of_nodup within (nodup_of_trailing ranked trailing exact.le) ?_
      rw [List.length_map,List.length_take_of_le short]
      exact exact.ge

end Ranking
