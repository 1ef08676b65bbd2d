import Mathlib.Data.List.Basic

namespace Fifo
universe u v
variable {α : Type u} {κ : Type u} {ρ : Type v}

-- The last `capacity` of the names let in, oldest first.
def window (capacity : Nat) (inserted : List α) : List α :=
  inserted.drop (inserted.length - capacity)

@[simp] theorem window_nil (capacity : Nat) : window capacity ([] : List α) = [] := List.drop_nil

theorem length_window (capacity : Nat) (inserted : List α) :
    (window capacity inserted).length = min inserted.length capacity := by
  unfold window
  rw [List.length_drop]
  omega

theorem window_room {inserted : List α} (x : α) (room : (window capacity inserted).length < capacity) :
    window capacity (inserted ++ [x]) = window capacity inserted ++ [x] := by
  rw [length_window] at room
  have short : inserted.length + 1 - capacity = 0 := by omega
  have none : inserted.length - capacity = 0 := by omega
  simp [window,short,none]

-- Once full, every newcomer pushes the oldest name out.
theorem window_full {inserted rest : List α} (x : α) (full : window capacity inserted = oldest :: rest)
    (size : capacity ≤ (window capacity inserted).length) :
    window capacity (inserted ++ [x]) = rest ++ [x] := by
  have some : 0 < (window capacity inserted).length := by
    rw [full]
    exact Nat.succ_pos _
  rw [length_window] at size some
  have gone : inserted.length + 1 - capacity = (inserted.length - capacity) + 1 := by omega
  have kept : rest = inserted.drop ((inserted.length - capacity) + 1) := by
    rw [← List.tail_drop]
    exact (congrArg List.tail full).symm
  rw [window,List.length_append,List.length_singleton,gone,
    List.drop_append_of_le_length (by omega),kept]

variable [DecidableEq κ]

-- The last value put under a key, in a list of puts, oldest first.
def latest (puts : List (κ × ρ)) (key : κ) : Option ρ :=
  puts.foldl (fun seen put => if put.1 = key then some put.2 else seen) none

@[simp] theorem latest_append (puts : List (κ × ρ)) (put : κ × ρ) (key : κ) :
    latest (puts ++ [put]) key = if put.1 = key then some put.2 else latest puts key := by
  simp [latest,List.foldl_append]

end Fifo
