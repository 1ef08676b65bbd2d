import Mathlib.Data.List.Basic

namespace Boundaries
universe u v
variable {α : Type u} {β : Type v}

-- A code whose words start with a lead symbol and go on without one.
def Synchronizing (encode : α → List β) (lead : β → Bool) : Prop :=
  ∀ x, ∃ first rest, encode x = first :: rest ∧ lead first = true ∧ ∀ b ∈ rest, lead b = false

def boundary (lead : β → Bool) (symbols : List β) (i : Nat) : Bool :=
  if i = 0 then true
  else
    match symbols[i]? with
    | some b => lead b
    | none => i = symbols.length

-- The last boundary up to a limit.
def floor (lead : β → Bool) (symbols : List β) (limit : Nat) : Nat :=
  ((List.range (limit + 1)).reverse.find? (boundary lead symbols)).getD 0

theorem boundary_zero (lead : β → Bool) (symbols : List β) : boundary lead symbols 0 = true := rfl

-- Behind a first word, the boundaries are its end and those of the rest.
theorem boundary_append {lead : β → Bool} {first : β} {rest symbols : List β}
    (follows : ∀ b ∈ rest, lead b = false) (leads : ∀ b ∈ symbols.head?, lead b = true) (i : Nat) :
    boundary lead (first :: rest ++ symbols) i = true ↔
      i = 0 ∨ ∃ j, i = rest.length + 1 + j ∧ boundary lead symbols j = true := by
  cases i with
  | zero => simp [boundary]
  | succ i =>
      rw [boundary,if_neg (Nat.succ_ne_zero i),List.cons_append,List.getElem?_cons_succ]
      by_cases inside : i < rest.length
      · rw [List.getElem?_append_left inside,List.getElem?_eq_getElem inside]
        constructor
        · intro leading
          have tail := follows _ (List.getElem_mem inside)
          exact absurd leading (by simp [tail])
        · intro split
          rcases split with zero | ⟨j,same,_⟩
          · cases zero
          · omega
      · obtain ⟨j,rfl⟩ := Nat.exists_eq_add_of_le (Nat.le_of_not_gt inside)
        rw [List.getElem?_append_right (Nat.le_add_right _ _),Nat.add_sub_cancel_left]
        have rebased : (∃ k, rest.length + j + 1 = rest.length + 1 + k ∧ boundary lead symbols k = true) ↔
            boundary lead symbols j = true := by
          constructor
          · intro found
            obtain ⟨k,same,here⟩ := found
            rwa [show j = k by omega]
          · intro here
            exact ⟨j,by omega,here⟩
        rw [rebased,or_iff_right (Nat.succ_ne_zero _),boundary]
        cases j with
        | zero =>
            rw [if_pos rfl]
            cases symbols with
            | nil => simp
            | cons b more => simpa using leads b rfl
        | succ j =>
            rw [if_neg (Nat.succ_ne_zero j)]
            cases symbols[j + 1]? with
            | none =>
                simp only [List.length_cons,List.length_append,decide_eq_true_eq]
                omega
            | some b => rfl

variable {encode : α → List β} {lead : β → Bool}

theorem Synchronizing.leads (code : Synchronizing encode lead) (xs : List α) :
    ∀ b ∈ (xs.flatMap encode).head?, lead b = true := by
  cases xs with
  | nil => simp
  | cons x rest =>
      obtain ⟨first,more,word,leading,_⟩ := code x
      intro b head
      rw [List.flatMap_cons,word] at head
      cases head
      exact leading

-- The boundaries are where the words end.
theorem Synchronizing.boundary_iff (code : Synchronizing encode lead) (xs : List α) (i : Nat) :
    boundary lead (xs.flatMap encode) i = true ↔
      ∃ front back, xs = front ++ back ∧ (front.flatMap encode).length = i := by
  induction xs generalizing i with
  | nil =>
      constructor
      · intro here
        refine ⟨[],[],rfl,?_⟩
        by_contra away
        have missing : i ≠ 0 := fun zero => away zero.symm
        simp [boundary,missing] at here
      · intro split
        obtain ⟨front,back,whole,rfl⟩ := split
        rw [(List.append_eq_nil_iff.mp whole.symm).1]
        rfl
  | cons x rest ih =>
      obtain ⟨first,more,word,leading,follows⟩ := code x
      rw [List.flatMap_cons,word,boundary_append follows (code.leads rest)]
      constructor
      · intro split
        rcases split with rfl | ⟨j,rfl,here⟩
        · exact ⟨[],x :: rest,rfl,rfl⟩
        · obtain ⟨front,back,rfl,rfl⟩ := (ih j).mp here
          refine ⟨x :: front,back,rfl,?_⟩
          rw [List.flatMap_cons,word,List.length_append,List.length_cons]
      · intro split
        obtain ⟨front,back,whole,rfl⟩ := split
        cases front with
        | nil => exact .inl rfl
        | cons y front =>
            obtain ⟨rfl,others⟩ := List.cons.inj whole
            refine .inr ⟨(front.flatMap encode).length,?_,(ih _).mpr ⟨front,back,others,rfl⟩⟩
            rw [List.flatMap_cons,word,List.length_append,List.length_cons]

theorem floor_spec (lead : β → Bool) (symbols : List β) (limit : Nat) :
    floor lead symbols limit ≤ limit ∧ boundary lead symbols (floor lead symbols limit) = true ∧
      ∀ i ≤ limit, boundary lead symbols i = true → i ≤ floor lead symbols limit := by
  induction limit with
  | zero =>
      have zero : floor lead symbols 0 = 0 := rfl
      rw [zero]
      exact ⟨Nat.le_refl _,boundary_zero lead symbols,fun i most _ => most⟩
  | succ limit ih =>
      have next : floor lead symbols (limit + 1) =
          if boundary lead symbols (limit + 1) = true then limit + 1 else floor lead symbols limit := by
        rw [floor,List.range_succ,List.reverse_append,List.reverse_singleton,List.singleton_append,
          List.find?_cons]
        split <;> simp_all [floor]
      obtain ⟨bounded,here,greatest⟩ := ih
      rw [next]
      split
      · rename_i last
        exact ⟨Nat.le_refl _,last,fun i most _ => most⟩
      · rename_i inside
        refine ⟨Nat.le_succ_of_le bounded,here,fun i most at_ => ?_⟩
        rcases Nat.lt_or_eq_of_le most with earlier | rfl
        · exact greatest i (Nat.le_of_lt_succ earlier) at_
        · exact absurd at_ inside

end Boundaries
