import SemanticClassifier.CacheKey
import SemanticClassifier.Library.Separated

namespace SemanticClassifier.Bench
open Cache

inductive CacheMode where
  | hit | miss
  deriving DecidableEq

def measureContext (runId index : Nat) : String := "measure-" ++ toString runId ++ "-" ++ toString index

def warmupContext (cacheMode : CacheMode) (runId index : Nat) : String :=
  match cacheMode with
  | .hit => measureContext runId index
  | .miss => "warm-" ++ toString index

def seededMeasureContext (seed : String) (runId index : Nat) : String :=
  if seed.isEmpty then measureContext runId index
  else seed ++ "-measure-" ++ toString runId ++ "-" ++ toString index

def seededWarmContext (cacheMode : CacheMode) (seed : String) (runId index : Nat) : String :=
  match cacheMode with
  | .hit => seededMeasureContext seed runId index
  | .miss =>
    if seed.isEmpty then warmupContext cacheMode runId index else seed ++ "-warm-" ++ toString index

-- Digits, in characters.
def decimal (n : Nat) : List Char := (toString n).toList

theorem decimal_digits (n : Nat) : ∀ c ∈ decimal n, c.isDigit = true := by
  intro c inside
  rw [decimal,Nat.toString_eq_repr,Nat.toList_repr] at inside
  exact Nat.isDigit_of_mem_toDigits (by decide) (by decide) inside

theorem decimal_injective {m n : Nat} (same : decimal m = decimal n) : m = n := by
  rw [decimal,decimal,Nat.toString_eq_repr,Nat.toString_eq_repr,Nat.toList_repr,Nat.toList_repr] at same
  have read := congrArg (fun digits => Nat.ofDigitChars 10 digits 0) same
  simpa only [Nat.ofDigitChars_ten_toDigits] using read

theorem digit_visible {c : Char} (digit : c.isDigit = true) : isWhitespace c = false := by
  have least : 48 ≤ c.toNat := (Char.isDigit_iff_toNat.mp digit).1
  have most : c.toNat ≤ 57 := (Char.isDigit_iff_toNat.mp digit).2
  unfold isWhitespace
  simp
  omega

theorem decimal_dashless (n : Nat) : '-' ∉ decimal n :=
  fun inside => absurd (decimal_digits n _ inside) (by decide)

-- Trimming stops at the first character of the last part, and takes nothing
-- off its end.
theorem trim_front {text : String} {front back : List Char} (split : text.toList = front ++ c :: back)
    (first : isWhitespace c = false) (last : c :: back = ends ++ [d]) (visible : isWhitespace d = false) :
    (trim text).toList = front.dropWhile isWhitespace ++ c :: back := by
  have left : (front ++ c :: back).dropWhile isWhitespace = front.dropWhile isWhitespace ++ c :: back := by
    rw [List.dropWhile_append,List.dropWhile_cons_of_neg (by simp [first])]
    split
    · rename_i blank
      rw [List.isEmpty_iff.mp blank,List.nil_append]
    · rfl
  rw [trim,String.toList_ofList,split,left,last]
  simp [visible]

-- The last two of the pieces between dashes, the last one first.
def stem (text : String) : List (List Char) := (text.toList.splitOn '-').reverse.take 2

theorem stem_eq {text : String} {front a b : List Char}
    (split : text.toList = front ++ (a ++ '-' :: b)) (opens : front = [] ∨ ∃ x, front = x ++ ['-'])
    (one : '-' ∉ a) (two : '-' ∉ b) : stem text = [b,a] := by
  have pieces : (a ++ '-' :: b).splitOn '-' = [a,b] := by
    rw [List.splitOn_append_cons_self,List.splitOn_eq_singleton one,List.splitOn_eq_singleton two]
    rfl
  rw [stem,split]
  rcases opens with rfl | ⟨x,rfl⟩
  · rw [List.nil_append,pieces]
    rfl
  · rw [List.append_assoc,List.singleton_append,List.splitOn_append_cons_self,pieces]
    simp

-- What a seed puts in front of a name.
def lead (seed : String) : List Char := if seed.isEmpty then [] else ['-']

theorem lead_cases (seed : String) : seed = "" ∨ (¬ seed.isEmpty ∧ lead seed = ['-']) := by
  by_cases blank : seed.isEmpty
  · exact .inl (String.isEmpty_iff.mp blank)
  · exact .inr ⟨blank,if_neg blank⟩

theorem decimal_last (n : Nat) : ∃ ends d, decimal n = ends ++ [d] ∧ isWhitespace d = false := by
  have nonempty : decimal n ≠ [] := by
    rw [decimal,Nat.toString_eq_repr,Nat.toList_repr]
    exact Nat.toDigits_ne_nil
  refine ⟨_,_,(List.dropLast_append_getLast nonempty).symm,?_⟩
  exact digit_visible (decimal_digits n _ (List.getLast_mem nonempty))

-- However the service trims a context, its number and the piece before it stay
-- readable.
theorem stem_trimmed {context seed : String} {name piece : List Char}
    (split : context.toList = seed.toList ++ (lead seed ++ (name ++ (piece ++ '-' :: decimal index))))
    (starts : name ++ piece = m :: rest) (visible : isWhitespace m = false)
    (inner : name = [] ∨ ∃ x, name = x ++ ['-']) (whole : '-' ∉ piece) :
    stem (trim context) = [decimal index,piece] := by
  have head : ∃ c back, lead seed ++ (name ++ (piece ++ '-' :: decimal index)) = c :: back ∧
      isWhitespace c = false := by
    rcases lead_cases seed with rfl | ⟨_,led⟩
    · refine ⟨m,rest ++ '-' :: decimal index,?_,visible⟩
      rw [← List.append_assoc name,starts]
      rfl
    · exact ⟨'-',_,by rw [led]; rfl,by decide⟩
  obtain ⟨c,back,here,first⟩ := head
  obtain ⟨ends,d,last,seen⟩ := decimal_last index
  have closing : c :: back = (lead seed ++ (name ++ (piece ++ '-' :: ends))) ++ [d] := by
    rw [← here,last]
    simp
  rw [here] at split
  have trimmed := trim_front split first closing seen
  rw [← here] at trimmed
  have parts : (trim context).toList =
      (seed.toList.dropWhile isWhitespace ++ (lead seed ++ name)) ++ (piece ++ '-' :: decimal index) := by
    rw [trimmed]
    simp
  refine stem_eq parts ?_ whole (decimal_dashless index)
  rcases inner with rfl | ⟨x,rfl⟩
  · rcases lead_cases seed with rfl | ⟨_,led⟩
    · exact .inl rfl
    · exact .inr ⟨_,by rw [led,List.append_nil]⟩
  · exact .inr ⟨seed.toList.dropWhile isWhitespace ++ (lead seed ++ x),by simp⟩

theorem measure_chars (seed : String) (runId index : Nat) : (seededMeasureContext seed runId index).toList =
    seed.toList ++ (lead seed ++ ("measure-".toList ++ (decimal runId ++ '-' :: decimal index))) := by
  rcases lead_cases seed with rfl | ⟨filled,led⟩
  · simp [seededMeasureContext,measureContext,lead,String.toList_append,decimal]
  · rw [seededMeasureContext,if_neg filled,led]
    simp [String.toList_append,decimal]

theorem warm_chars (seed : String) (runId index : Nat) : (seededWarmContext .miss seed runId index).toList =
    seed.toList ++ (lead seed ++ ([] ++ ("warm".toList ++ '-' :: decimal index))) := by
  rcases lead_cases seed with rfl | ⟨filled,led⟩
  · simp [seededWarmContext,warmupContext,lead,String.toList_append,decimal]
  · simp only [seededWarmContext,if_neg filled,led]
    simp [String.toList_append,decimal]

theorem measure_stem (seed : String) (runId index : Nat) :
    stem (trim (seededMeasureContext seed runId index)) = [decimal index,decimal runId] :=
  stem_trimmed (measure_chars seed runId index) rfl (by decide) (.inr ⟨"measure".toList,by decide⟩)
    (decimal_dashless runId)

theorem warm_stem (seed : String) (runId index : Nat) :
    stem (trim (seededWarmContext .miss seed runId index)) = [decimal index,"warm".toList] :=
  stem_trimmed (warm_chars seed runId index) rfl (by decide) (.inl rfl) (by decide)

theorem decimal_not_warm (n : Nat) : decimal n ≠ "warm".toList := by
  intro same
  have digit := decimal_digits n 'w' (by rw [same]; decide)
  exact absurd digit (by decide)

end SemanticClassifier.Bench
