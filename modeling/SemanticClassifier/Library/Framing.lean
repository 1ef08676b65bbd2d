import Mathlib.Data.List.Basic

namespace Framing
universe u v w

-- An encoding a reader can cut off the front of a stream, whatever follows it.
def SelfDelimiting {α : Type u} {β : Type v} (valid : α → Prop) (encode : α → List β) : Prop :=
  ∀ ⦃a b : α⦄ ⦃x y : List β⦄, valid a → valid b → encode a ++ x = encode b ++ y → a = b ∧ x = y

variable {α : Type u} {β : Type v} {γ : Type w} {valid : α → Prop} {encode : α → List β}

theorem SelfDelimiting.injective (framed : SelfDelimiting valid encode) (one : valid a) (two : valid b)
    (same : encode a = encode b) : a = b :=
  (framed one two (x := []) (y := []) (by rw [same])).1

-- A header of fixed width that determines the length of the payload behind it.
theorem lengthPrefixed {header payload : α → List β} {width : Nat}
    (fixed : ∀ a, (header a).length = width)
    (sized : ∀ a b, valid a → valid b → header a = header b → (payload a).length = (payload b).length)
    (faithful : ∀ a b, payload a = payload b → a = b) :
    SelfDelimiting valid fun a => header a ++ payload a := by
  intro a b x y one two same
  simp only [List.append_assoc] at same
  have front := List.append_inj same ((fixed a).trans (fixed b).symm)
  have back := List.append_inj front.2 (sized a b one two front.1)
  exact ⟨faithful a b back.1,back.2⟩

-- A payload of fixed width needs no header.
theorem fixedWidth {width : Nat} (fixed : ∀ a, (encode a).length = width)
    (faithful : ∀ a b, encode a = encode b → a = b) : SelfDelimiting valid encode := by
  intro a b x y _ _ same
  have parts := List.append_inj same ((fixed a).trans (fixed b).symm)
  exact ⟨faithful a b parts.1,parts.2⟩

-- A terminator that does not occur in the payload.
theorem terminated {payload : α → List β} {mark : β} (faithful : ∀ a b, payload a = payload b → a = b) :
    SelfDelimiting (fun a => mark ∉ payload a) fun a => payload a ++ [mark] := by
  have cut (front other x y : List β) (one : mark ∉ front) (two : mark ∉ other)
      (same : front ++ mark :: x = other ++ mark :: y) : front = other ∧ x = y := by
    induction front generalizing other with
    | nil =>
        cases other with
        | nil => exact ⟨rfl,(List.cons.inj same).2⟩
        | cons d other => exact absurd (List.cons.inj same).1 (List.ne_of_not_mem_cons two)
    | cons c front ih =>
        cases other with
        | nil => exact absurd (List.cons.inj same).1.symm (List.ne_of_not_mem_cons one)
        | cons d other =>
            obtain ⟨rfl,rest⟩ := List.cons.inj same
            obtain ⟨rfl,behind⟩ := ih other (List.not_mem_of_not_mem_cons one)
              (List.not_mem_of_not_mem_cons two) rest
            exact ⟨rfl,behind⟩
  intro a b x y one two same
  simp only [List.append_assoc,List.singleton_append] at same
  obtain ⟨equal,rest⟩ := cut _ _ _ _ one two same
  exact ⟨faithful a b equal,rest⟩

theorem SelfDelimiting.both {other : γ → List β} {fits : γ → Prop}
    (first : SelfDelimiting valid encode) (second : SelfDelimiting fits other) :
    SelfDelimiting (fun p : α × γ => valid p.1 ∧ fits p.2) fun p => encode p.1 ++ other p.2 := by
  intro p q x y one two same
  simp only [List.append_assoc] at same
  have front := first one.1 two.1 same
  have back := second one.2 two.2 front.2
  exact ⟨Prod.ext front.1 back.1,back.2⟩

-- Before a last part of its own, a self-delimiting front still comes apart.
theorem SelfDelimiting.last {tail : γ → List β} {fits : γ → Prop}
    (front : SelfDelimiting valid encode)
    (apart : ∀ c d, fits c → fits d → tail c = tail d → c = d)
    (one : valid a ∧ fits c) (two : valid b ∧ fits d) (same : encode a ++ tail c = encode b ++ tail d) :
    a = b ∧ c = d := by
  obtain ⟨equal,rest⟩ := front one.1 two.1 same
  exact ⟨equal,apart c d one.2 two.2 rest⟩

-- Frames one after another, as many as there are.
theorem SelfDelimiting.sequence (framed : SelfDelimiting valid encode) (visible : ∀ a, encode a ≠ [])
    {l m : List α} (one : ∀ a ∈ l, valid a) (two : ∀ a ∈ m, valid a)
    (same : l.flatMap encode = m.flatMap encode) : l = m := by
  induction l generalizing m with
  | nil =>
      cases m with
      | nil => rfl
      | cons b m => exact absurd (List.append_eq_nil_iff.mp same.symm).1 (visible b)
  | cons a l ih =>
      cases m with
      | nil => exact absurd (List.append_eq_nil_iff.mp same).1 (visible a)
      | cons b m =>
          obtain ⟨rfl,rest⟩ := framed (one a (by simp)) (two b (by simp)) same
          rw [ih (fun c inside => one c (by simp [inside])) (fun c inside => two c (by simp [inside])) rest]

-- A trailing part that may be missing: nothing tells the two apart but its being non-empty.
def trailing (encode : α → List β) : Option α → List β
  | some a => encode a
  | none => []

theorem SelfDelimiting.trailing (framed : SelfDelimiting valid encode) (visible : ∀ a, encode a ≠ [])
    (c d : Option α) (one : ∀ a ∈ c, valid a) (two : ∀ a ∈ d, valid a)
    (same : Framing.trailing encode c = Framing.trailing encode d) : c = d := by
  cases c with
  | none =>
      cases d with
      | none => rfl
      | some b => exact absurd same.symm (visible b)
  | some a =>
      cases d with
      | none => exact absurd same (visible a)
      | some b => rw [framed.injective (one a rfl) (two b rfl) same]

end Framing
