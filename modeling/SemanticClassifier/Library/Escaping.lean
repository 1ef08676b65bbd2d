import Mathlib.Data.List.Basic

namespace Escaping
universe u
variable {α : Type u} [DecidableEq α]

-- A mark goes in front of every symbol that is not plain.
def escape (plain : α → Bool) (mark : α) : List α → List α
  | [] => []
  | c :: rest => if plain c then c :: escape plain mark rest else mark :: c :: escape plain mark rest

-- What follows a mark is taken as it is; the first bare `close` ends the text.
def readTo (mark close : α) : List α → Option (List α × List α)
  | [] => none
  | [c] => if c = close ∧ c ≠ mark then some ([],[]) else none
  | c :: d :: rest =>
    if c = mark then (readTo mark close rest).map fun read => (d :: read.1,read.2)
    else if c = close then some ([],d :: rest)
    else (readTo mark close (d :: rest)).map fun read => (c :: read.1,read.2)

variable {plain : α → Bool} {mark close : α}

theorem readTo_marked (c : α) (rest : List α) :
    readTo mark close (mark :: c :: rest) = (readTo mark close rest).map fun read => (c :: read.1,read.2) := by
  rw [readTo,if_pos rfl]

theorem readTo_bare {c : α} (other : c ≠ mark) (inner : c ≠ close) {rest : List α} (more : rest ≠ []) :
    readTo mark close (c :: rest) = (readTo mark close rest).map fun read => (c :: read.1,read.2) := by
  cases rest with
  | nil => exact absurd rfl more
  | cons d rest => rw [readTo,if_neg other,if_neg inner]

theorem readTo_close (apart : close ≠ mark) (rest : List α) :
    readTo mark close (close :: rest) = some ([],rest) := by
  cases rest with
  | nil => rw [readTo,if_pos ⟨rfl,apart⟩]
  | cons d rest => rw [readTo,if_neg apart,if_pos rfl]

-- The reader gets back what was written, whatever follows it.
theorem readTo_escape (markSpecial : plain mark = false) (closeSpecial : plain close = false)
    (apart : close ≠ mark) (text rest : List α) :
    readTo mark close (escape plain mark text ++ close :: rest) = some (text,rest) := by
  induction text with
  | nil => exact readTo_close apart rest
  | cons c text ih =>
      rw [escape]
      cases bare : plain c with
      | false =>
          rw [if_neg (by simp),List.cons_append,List.cons_append,readTo_marked,ih]
          rfl
      | true =>
          have other : c ≠ mark := fun same => by simp [same,markSpecial] at bare
          have inner : c ≠ close := fun same => by simp [same,closeSpecial] at bare
          rw [if_pos rfl,List.cons_append,readTo_bare other inner (by simp),ih]
          rfl

end Escaping
