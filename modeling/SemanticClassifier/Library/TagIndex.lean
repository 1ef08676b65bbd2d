import Mathlib.Data.List.TakeWhile
import Mathlib.Data.Set.Function
import SemanticClassifier.Library.Separated

namespace TagIndex
universe u v

-- How an index reads a stored tag value: cut at the separator, and each piece
-- trimmed and lower-cased.
structure Rules (α : Type u) where
  separator : α
  blank : α → Bool
  lower : α → List α
  separator_visible : blank separator = false
  separator_lower : ∀ c, separator ∈ lower c ↔ c = separator

variable {α : Type u}

def trim (blank : α → Bool) (text : List α) : List α :=
  ((text.dropWhile blank).reverse.dropWhile blank).reverse

theorem mem_dropWhile {blank : α → Bool} {c : α} (visible : blank c = false) (text : List α) :
    c ∈ text.dropWhile blank ↔ c ∈ text := by
  constructor
  · exact fun inside => (List.dropWhile_sublist blank).subset inside
  · intro inside
    rw [← List.takeWhile_append_dropWhile (p := blank) (l := text)] at inside
    rcases List.mem_append.mp inside with front | back
    · rw [List.mem_takeWhile_imp front] at visible
      cases visible
    · exact back

theorem mem_trim {blank : α → Bool} {c : α} (visible : blank c = false) (text : List α) :
    c ∈ trim blank text ↔ c ∈ text := by
  rw [trim,List.mem_reverse,mem_dropWhile visible,List.mem_reverse,mem_dropWhile visible]

variable [DecidableEq α] (rules : Rules α)

def Rules.normal (text : List α) : List α := (trim rules.blank text).flatMap rules.lower

def Rules.pieces (stored : List α) : List (List α) := (stored.splitOn rules.separator).map rules.normal

-- A tag in a query finds the values that have it as a piece.
def Rules.Matches (query stored : List α) : Prop := rules.normal query ∈ rules.pieces stored

instance (query stored : List α) : Decidable (rules.Matches query stored) :=
  inferInstanceAs (Decidable (_ ∈ _))

omit [DecidableEq α] in
theorem separator_normal (text : List α) : rules.separator ∈ rules.normal text ↔ rules.separator ∈ text := by
  simp only [Rules.normal,List.mem_flatMap,rules.separator_lower]
  simp [mem_trim rules.separator_visible]

theorem pieces_separated {stored piece : List α} (inside : piece ∈ rules.pieces stored) :
    rules.separator ∉ piece := by
  obtain ⟨part,among,rfl⟩ := List.mem_map.mp inside
  rw [separator_normal]
  exact Separated.not_mem_of_mem_splitOn among

theorem pieces_clean {stored : List α} (clean : rules.separator ∉ stored) :
    rules.pieces stored = [rules.normal stored] := by
  rw [Rules.pieces,List.splitOn_eq_singleton clean]
  rfl

theorem matches_clean {query stored : List α} (clean : rules.separator ∉ stored) :
    rules.Matches query stored ↔ rules.normal query = rules.normal stored := by
  rw [Rules.Matches,pieces_clean rules clean,List.mem_singleton]

-- A value finds itself unless it is cut into pieces.
theorem matches_self (text : List α) : rules.Matches text text ↔ rules.separator ∉ text := by
  constructor
  · intro found
    rw [← separator_normal]
    exact pieces_separated rules found
  · intro clean
    exact (matches_clean rules clean).mpr rfl

omit [DecidableEq α] in
-- What the index leaves as it is keeps its place at the end of a value.
theorem normal_append (front : List α) {tail : List α} (some : tail ≠ [])
    (plain : ∀ c ∈ tail, rules.blank c = false ∧ rules.lower c = [c]) :
    ∃ start, rules.normal (front ++ tail) = start ++ tail := by
  have kept {text : List α} (same : ∀ c ∈ text, c ∈ tail) (rest : List α) (some : text ≠ []) :
      (text ++ rest).dropWhile rules.blank = text ++ rest := by
    obtain ⟨c,others,rfl⟩ := List.exists_cons_of_ne_nil some
    rw [List.cons_append,List.dropWhile_cons_of_neg]
    simp [(plain c (same c (by simp))).1]
  have first : ∃ start, (front ++ tail).dropWhile rules.blank = start ++ tail := by
    rw [List.dropWhile_append]
    split
    · exact ⟨[],by simpa using kept (fun _ inside => inside) [] some⟩
    · exact ⟨_,rfl⟩
  obtain ⟨start,opened⟩ := first
  have closed : tail.reverse ++ start.reverse = (tail.reverse ++ start.reverse).dropWhile rules.blank :=
    (kept (fun c inside => List.mem_reverse.mp inside) start.reverse (by simpa using some)).symm
  have lowered : tail.flatMap rules.lower = tail := by
    rw [List.flatMap_congr fun c inside => (plain c inside).2]
    simp
  refine ⟨start.flatMap rules.lower,?_⟩
  rw [Rules.normal,trim,opened,List.reverse_append,← closed,List.reverse_append,List.reverse_reverse,
    List.reverse_reverse,List.flatMap_append,lowered]

-- So two values that are one to the index end alike, if their ends are as long.
theorem matches_tail {query stored front back one two : List α} (clean : rules.separator ∉ stored)
    (alike : rules.Matches query stored) (first : query = front ++ one) (second : stored = back ++ two)
    (long : one.length = two.length) (some : one ≠ [])
    (plain : ∀ c, c ∈ one ∨ c ∈ two → rules.blank c = false ∧ rules.lower c = [c]) : one = two := by
  have same := (matches_clean rules clean).mp alike
  have other : two ≠ [] := List.ne_nil_of_length_pos (long ▸ List.length_pos_of_ne_nil some)
  obtain ⟨start,left⟩ := normal_append rules front some fun c inside => plain c (.inl inside)
  obtain ⟨begin,right⟩ := normal_append rules back other fun c inside => plain c (.inr inside)
  rw [first,second,left,right] at same
  exact (List.append_inj' same long).2

-- When the index is an equality test on the tags in use.
theorem exact_iff {ι : Type v} (text : ι → List α) (used : Set ι) :
    (∀ a ∈ used, ∀ b ∈ used, rules.Matches (text a) (text b) ↔ a = b) ↔
      (∀ t ∈ used, rules.separator ∉ text t) ∧ Set.InjOn (fun t => rules.normal (text t)) used := by
  constructor
  · intro exact
    have clean : ∀ t ∈ used, rules.separator ∉ text t :=
      fun t one => (matches_self rules (text t)).mp ((exact t one t one).mpr rfl)
    refine ⟨clean,fun a one b two same => ?_⟩
    exact (exact a one b two).mp ((matches_clean rules (clean b two)).mpr same)
  · intro condition a one b two
    rw [matches_clean rules (condition.1 b two)]
    exact ⟨fun same => condition.2 one two same,fun same => same ▸ rfl⟩

end TagIndex
