import Mathlib.Data.List.Basic

namespace Separated
universe u
variable {α : Type u} [DecidableEq α]

-- Fields written one after another with a separator between them, and nothing
-- done about a separator inside a field.
def join (sep : α) (fields : List (List α)) : List α := [sep].intercalate fields

-- What is left of the fields once it is forgotten where they began.
def pieces (sep : α) (fields : List (List α)) : List (List α) := fields.flatMap (List.splitOn sep)

omit [DecidableEq α] in
@[simp] theorem join_single (sep : α) (field : List α) : join sep [field] = field :=
  List.intercalate_singleton

omit [DecidableEq α] in
theorem join_cons (sep : α) (field : List α) {rest : List (List α)} (more : rest ≠ []) :
    join sep (field :: rest) = field ++ sep :: join sep rest := by
  rw [join,List.intercalate_cons_of_ne_nil more,List.append_assoc]
  rfl

theorem splitOn_join (sep : α) {fields : List (List α)} (nonempty : fields ≠ []) :
    (join sep fields).splitOn sep = pieces sep fields := by
  induction fields with
  | nil => exact absurd rfl nonempty
  | cons field rest ih =>
      rw [pieces,List.flatMap_cons]
      by_cases last : rest = []
      · simp [last]
      · rw [join_cons sep field last,List.splitOn_append_cons_self,ih last]
        rfl

-- The written text keeps exactly the pieces.
theorem join_eq_iff (sep : α) {a b : List (List α)} (one : a ≠ []) (two : b ≠ []) :
    join sep a = join sep b ↔ pieces sep a = pieces sep b := by
  constructor
  · intro same
    rw [← splitOn_join sep one,← splitOn_join sep two,same]
  · intro same
    rw [← splitOn_join sep one,← splitOn_join sep two] at same
    have joined := congrArg (join sep) same
    simpa only [join,List.intercalate_splitOn] using joined

theorem pieces_clean (sep : α) {fields : List (List α)} (clean : ∀ f ∈ fields, sep ∉ f) :
    pieces sep fields = fields := by
  induction fields with
  | nil => rfl
  | cons field rest ih =>
      rw [pieces,List.flatMap_cons,List.splitOn_eq_singleton (clean field (by simp))]
      exact congrArg (field :: ·) (ih fun f inside => clean f (List.mem_cons_of_mem _ inside))

theorem not_mem_of_mem_splitOn {sep : α} {text piece : List α} (inside : piece ∈ text.splitOn sep) :
    sep ∉ piece := by
  induction text generalizing piece with
  | nil => simp_all
  | cons c text ih =>
      rw [List.splitOn_cons_eq_if_modifyHead] at inside
      split at inside
      · rcases List.mem_cons.mp inside with rfl | later
        · simp
        · exact ih later
      · rename_i other
        cases found : text.splitOn sep with
        | nil => exact absurd found (List.splitOn_ne_nil sep text)
        | cons first others =>
            rw [found,List.modifyHead_cons] at inside
            rcases List.mem_cons.mp inside with rfl | later
            · have apart := ih (found ▸ List.mem_cons_self)
              intro here
              rcases List.mem_cons.mp here with same | deeper
              · exact other (by simp [same])
              · exact apart deeper
            · exact ih (found ▸ List.mem_cons_of_mem _ later)

theorem length_splitOn_pos (sep : α) (field : List α) : 0 < (field.splitOn sep).length :=
  List.length_pos_of_ne_nil (List.splitOn_ne_nil sep field)

theorem length_splitOn_dirty {sep : α} {field : List α} (dirty : sep ∈ field) :
    2 ≤ (field.splitOn sep).length := by
  obtain ⟨front,back,rfl⟩ := List.append_of_mem dirty
  rw [List.splitOn_append_cons_self,List.length_append]
  have left := length_splitOn_pos sep front
  have right := length_splitOn_pos sep back
  omega

theorem length_pieces (sep : α) (fields : List (List α)) :
    fields.length ≤ (pieces sep fields).length := by
  induction fields with
  | nil => exact Nat.zero_le _
  | cons field rest ih =>
      rw [pieces,List.flatMap_cons,List.length_append,List.length_cons]
      have some := length_splitOn_pos sep field
      rw [pieces] at ih
      omega

-- A separator inside a field shows in the number of pieces.
theorem length_pieces_dirty {sep : α} {fields : List (List α)} (inside : f ∈ fields) (dirty : sep ∈ f) :
    fields.length < (pieces sep fields).length := by
  obtain ⟨front,back,rfl⟩ := List.append_of_mem inside
  have left := length_pieces sep front
  have right := length_pieces sep back
  have middle := length_splitOn_dirty dirty
  simp only [pieces,List.flatMap_append,List.flatMap_cons,List.length_append,List.length_cons] at left right ⊢
  omega

omit [DecidableEq α] in
-- The last fields may be written as one.
theorem join_regroup (sep : α) (front back : List (List α)) (nonempty : back ≠ []) :
    join sep (front ++ [join sep back]) = join sep (front ++ back) := by
  induction front with
  | nil => exact join_single sep _
  | cons field rest ih =>
      rw [List.cons_append,List.cons_append,join_cons sep field (by simp),
        join_cons sep field (by simp [nonempty]),ih]

end Separated
