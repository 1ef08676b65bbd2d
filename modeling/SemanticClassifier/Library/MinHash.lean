import Mathlib.Data.List.Basic
import Mathlib.Logic.Function.Basic

namespace MinHash
universe u v
variable {α : Type u} {β : Type v} [LE β] [LT β] [DecidableLT β] [Std.IsLinearOrder β]
  [Std.LawfulOrderLT β] {mix : α → β} {top : β} {elements others : List α}

-- A slot of a sketch keeps the least mixed value of the elements seen.
def lower (mix : α → β) (slot : β) (h : α) : β := if mix h < slot then mix h else slot

def slot (mix : α → β) (top : β) (elements : List α) : β := elements.foldl (lower mix) top

theorem le_lower {bound start : β} {h : α} : bound ≤ lower mix start h ↔ bound ≤ start ∧ bound ≤ mix h := by
  unfold lower
  split
  · rename_i less
    exact ⟨fun below => ⟨Std.le_trans below (Std.le_of_lt less),below⟩,And.right⟩
  · rename_i least
    exact ⟨fun below => ⟨below,Std.le_trans below (Std.not_lt.mp least)⟩,And.left⟩

theorem le_foldl {bound start : β} : bound ≤ elements.foldl (lower mix) start ↔
    bound ≤ start ∧ ∀ h ∈ elements, bound ≤ mix h := by
  induction elements generalizing start with
  | nil => simp
  | cons h rest ih =>
      rw [List.foldl_cons,ih,le_lower,List.forall_mem_cons,and_assoc]

-- No value exceeds the start, so only the elements bound the slot.
theorem le_slot {bound : β} (greatest : ∀ value, value ≤ top) :
    bound ≤ slot mix top elements ↔ ∀ h ∈ elements, bound ≤ mix h :=
  le_foldl.trans (and_iff_right (greatest bound))

theorem slot_least {least : α} (greatest : ∀ value, value ≤ top) (member : least ∈ elements)
    (lowest : ∀ h ∈ elements, mix least ≤ mix h) : slot mix top elements = mix least :=
  Std.le_antisymm ((le_slot greatest).mp (Std.le_refl _) least member) ((le_slot greatest).mpr lowest)

omit [LT β] [DecidableLT β] [Std.LawfulOrderLT β] in
theorem least_exists (mix : α → β) (nonempty : elements ≠ []) :
    ∃ least ∈ elements, ∀ h ∈ elements, mix least ≤ mix h := by
  induction elements with
  | nil => exact absurd rfl nonempty
  | cons h rest ih =>
      rcases eq_or_ne rest [] with rfl | more
      · exact ⟨h,List.mem_cons_self,by simp⟩
      · obtain ⟨least,member,lowest⟩ := ih more
        rcases Std.le_total (a := mix h) (b := mix least) with first | later
        · refine ⟨h,List.mem_cons_self,List.forall_mem_cons.mpr ⟨(Std.le_refl _),fun g there => ?_⟩⟩
          exact Std.le_trans first (lowest g there)
        · exact ⟨least,List.mem_cons_of_mem _ member,List.forall_mem_cons.mpr ⟨later,lowest⟩⟩

theorem slot_congr (greatest : ∀ value, value ≤ top) (same : ∀ h, h ∈ elements ↔ h ∈ others) :
    slot mix top elements = slot mix top others := by
  apply Std.le_antisymm
  · exact (le_slot greatest).mpr fun h member => (le_slot greatest).mp (Std.le_refl _) h ((same h).mpr member)
  · exact (le_slot greatest).mpr fun h member => (le_slot greatest).mp (Std.le_refl _) h ((same h).mp member)

-- A union's slot is the lesser of the two.
theorem slot_union [Min β] [Std.LawfulOrderInf β] {union : List α} (greatest : ∀ value, value ≤ top)
    (both : ∀ h, h ∈ union ↔ h ∈ elements ∨ h ∈ others) :
    slot mix top union = min (slot mix top elements) (slot mix top others) := by
  have bounds : ∀ bound, bound ≤ slot mix top union ↔
      bound ≤ min (slot mix top elements) (slot mix top others) := by
    intro bound
    rw [Std.le_min_iff,le_slot greatest,le_slot greatest,le_slot greatest]
    simp only [both,or_imp,forall_and]
  exact Std.le_antisymm ((bounds _).mp (Std.le_refl _)) ((bounds _).mpr (Std.le_refl _))

section Agreement
variable (injective : Function.Injective mix) (greatest : ∀ value, value ≤ top)
include injective greatest

theorem agree_of_least {least : α} (member : least ∈ elements) (nonempty : others ≠ [])
    (lowest : ∀ h ∈ elements, mix least ≤ mix h) (below : ∀ h ∈ others, mix least ≤ mix h) :
    slot mix top elements = slot mix top others ↔ least ∈ others := by
  rw [slot_least greatest member lowest]
  obtain ⟨first,there,foremost⟩ := least_exists mix nonempty
  constructor
  · intro same
    rw [slot_least greatest there foremost] at same
    rwa [injective same]
  · intro shared
    exact (slot_least greatest shared below).symm

-- Two slots agree exactly when the element that comes first in both sets taken
-- together belongs to each of them.
theorem agree_iff (some : elements ≠ []) (nonempty : others ≠ []) :
    ∃ least, (least ∈ elements ∨ least ∈ others) ∧
      (∀ h, h ∈ elements ∨ h ∈ others → h ≠ least → mix least < mix h) ∧
      (slot mix top elements = slot mix top others ↔ least ∈ elements ∧ least ∈ others) := by
  have union : elements ++ others ≠ [] := by simp [some]
  obtain ⟨least,member,lowest⟩ := least_exists mix union
  rw [List.forall_mem_append] at lowest
  refine ⟨least,List.mem_append.mp member,fun h there other => ?_,?_⟩
  · apply Std.lt_of_le_of_ne (there.elim (lowest.1 h) (lowest.2 h))
    intro same
    exact other (injective same).symm
  · rcases List.mem_append.mp member with left | right
    · rw [agree_of_least injective greatest left nonempty lowest.1 lowest.2]
      exact (and_iff_right left).symm
    · rw [eq_comm,agree_of_least injective greatest right some lowest.2 lowest.1]
      exact (and_iff_left right).symm

end Agreement

end MinHash
