import Mathlib.Data.List.Rotate
import Mathlib.Tactic.Basic

namespace Ring
universe u
variable {α : Type u}

-- A bounded buffer that grows to its capacity and is then overwritten at a
-- cursor. Read from the cursor on, it lists the newest values, oldest first.
structure Tracks (capacity : Nat) (buffer : List α) (cursor : Nat) (pushed : List α) : Prop where
  newest : buffer.rotate cursor = pushed.drop (pushed.length - capacity)
  within : cursor < capacity
  filling : buffer.length < capacity → cursor = 0

theorem Tracks.empty (positive : 0 < capacity) : Tracks capacity ([] : List α) 0 [] :=
  ⟨by simp,positive,fun _ => rfl⟩

theorem Tracks.length {pushed : List α} (tracks : Tracks capacity buffer cursor pushed) :
    buffer.length = min pushed.length capacity := by
  have same := congrArg List.length tracks.newest
  simp only [List.length_rotate,List.length_drop] at same
  omega

theorem Tracks.perm {pushed : List α} (tracks : Tracks capacity buffer cursor pushed) :
    buffer.Perm (pushed.drop (pushed.length - capacity)) :=
  tracks.newest ▸ (List.rotate_perm buffer cursor).symm

theorem Tracks.append {pushed : List α} (tracks : Tracks capacity buffer cursor pushed)
    (room : buffer.length < capacity) (x : α) :
    Tracks capacity (buffer ++ [x]) cursor (pushed ++ [x]) := by
  have start := tracks.filling room
  have size := tracks.length
  have all : buffer = pushed := by
    have newest := tracks.newest
    rw [start,List.rotate_zero,show pushed.length - capacity = 0 by omega,List.drop_zero] at newest
    exact newest
  subst all
  refine ⟨?_,tracks.within,fun _ => start⟩
  rw [start,List.rotate_zero,List.length_append,List.length_singleton,
    show buffer.length + 1 - capacity = 0 by omega,List.drop_zero]

-- Overwriting at the cursor drops the oldest value and appends the new one.
theorem rotate_set (buffer : List α) (within : cursor < buffer.length) (x : α) :
    (buffer.set cursor x).rotate (cursor + 1) = (buffer.rotate cursor).drop 1 ++ [x] := by
  obtain ⟨before,old,after,rfl,rfl⟩ : ∃ before old after,
      buffer = before ++ old :: after ∧ cursor = before.length :=
    ⟨buffer.take cursor,buffer[cursor],buffer.drop (cursor + 1),by simp,by simp; omega⟩
  have written : (before ++ old :: after).set before.length x = before ++ x :: after := by simp
  rw [written,← List.rotate_rotate,List.rotate_append_length_eq,List.rotate_append_length_eq]
  simp

theorem Tracks.overwrite {pushed : List α} (tracks : Tracks capacity buffer cursor pushed)
    (full : ¬ buffer.length < capacity) (x : α) :
    Tracks capacity (buffer.set cursor x) ((cursor + 1) % capacity) (pushed ++ [x]) := by
  have size := tracks.length
  have size_eq : buffer.length = capacity := by omega
  have positive : 0 < capacity := Nat.lt_of_le_of_lt (Nat.zero_le _) tracks.within
  refine ⟨?_,Nat.mod_lt _ positive,fun short => absurd short (by simpa using full)⟩
  have wrap : (buffer.set cursor x).rotate ((cursor + 1) % capacity) =
      (buffer.set cursor x).rotate (cursor + 1) := by
    have kept : (buffer.set cursor x).length = capacity := by rw [List.length_set,size_eq]
    rw [← kept,List.rotate_mod]
  rw [wrap,rotate_set buffer (size_eq ▸ tracks.within),tracks.newest,List.drop_drop,
    List.length_append,List.length_singleton,List.drop_append_of_le_length (by omega)]
  congr 2
  omega

end Ring
