import Mathlib.Algebra.Order.Monoid.Basic
import SemanticClassifier.CandleRanking
import SemanticClassifier.Library.IeeeSums
import SemanticClassifier.Library.TopSum

namespace SemanticClassifier.Ranker
open Floating Ieee Ranking

variable {K : Type} [Field K] [LinearOrder K] [Elementary K] {embedding : List (Ieee K)}

def products (a b : List (Ieee K)) : List (Ieee K) :=
  (a.zip b).map fun pair => Floating.mul (Widening.widen pair.1) (Widening.widen pair.2)

def magnitude (vector : List (Ieee K)) : Ieee K := Floating.sqrt (sum (products vector vector))

-- The dot product over both magnitudes; a vector without one is like nothing.
def similarity (embedding vector : List (Ieee K)) : Ieee K :=
  if magnitude embedding = .finite 0 ∨ magnitude vector = .finite 0 then .finite 0
  else Floating.div (sum (products embedding vector)) (Floating.mul (magnitude embedding) (magnitude vector))

theorem dot_finite {a b : List (Ieee K)} (left : ∀ x ∈ a, ∃ z, x = .finite z)
    (right : ∀ x ∈ b, ∃ z, x = .finite z) : ∃ d, sum (products a b) = .finite d := by
  have finite : ∀ p ∈ products a b, ∃ z, p = .finite z := by
    intro p member
    obtain ⟨pair,there,rfl⟩ := List.mem_map.mp member
    obtain ⟨x,first⟩ := left pair.1 (List.of_mem_zip there).1
    obtain ⟨y,second⟩ := right pair.2 (List.of_mem_zip there).2
    refine ⟨x * y,?_⟩
    rw [first,second]
    rfl
  rw [← map_number finite]
  exact ⟨_,sum_finite _⟩

theorem isZero_iff (x : Ieee K) : Floating.partialCmp x zero = some .eq ↔ x = .finite 0 := by
  rw [zero_eq]
  cases x with
  | finite y => simp
  | nan | negInf | posInf => constructor <;> intro same <;> cases same

theorem norm_magnitude (vector : List (Ieee K)) : norm vector = magnitude vector := by
  rw [norm,magnitude,products,List.map_zip_eq_zipWith,List.zipWith_self]
  rfl

theorem magnitude_parts {vector : List (Ieee K)} {z : K} (finite : magnitude vector = Ieee.finite z) :
    ∀ x ∈ vector, ∃ a, x = .finite a := by
  rw [← norm_magnitude] at finite
  intro x member
  obtain ⟨total,squares⟩ := sqrt_parts finite
  obtain ⟨_,square⟩ := sum_parts squares _ (List.mem_map_of_mem member)
  obtain ⟨a,_,same,_,_⟩ := mul_parts square
  exact ⟨a,same⟩

theorem cosineSimilarity_eq (a b : List (Ieee K)) : cosineSimilarity a b = similarity a b := by
  simp only [cosineSimilarity,isZero_iff,norm_magnitude]
  rw [similarity,zero_eq]
  rfl

-- A similarity that is a number is a finite one: an infinite product meets an
-- infinite norm.
theorem similarity_finite {a b : List (Ieee K)} (numeric : similarity a b ≠ .nan) :
    ∃ x, similarity a b = .finite x := by
  unfold similarity at numeric ⊢
  split
  · exact ⟨0,rfl⟩
  · rename_i nonzero
    rw [if_neg nonzero] at numeric
    obtain ⟨first,second⟩ := not_or.mp nonzero
    by_cases bounded : ∃ y : K, Floating.mul (magnitude a) (magnitude b) = Ieee.finite y
    · obtain ⟨y,product⟩ := bounded
      obtain ⟨na,nb,left,right,same⟩ := mul_parts product
      obtain ⟨d,dot⟩ := dot_finite (magnitude_parts left) (magnitude_parts right)
      have some : na * nb ≠ 0 := by
        apply mul_ne_zero
        · intro zero
          exact first (zero ▸ left)
        · intro zero
          exact second (zero ▸ right)
      refine ⟨d / (na * nb),?_⟩
      rw [product,same,← div_finite d some,← dot]
    · rcases div_special (not_exists.mp bounded) with zero | nan
      · exact ⟨0,zero⟩
      · exact absurd nan numeric

theorem descending_finite (x y : K) :
    (descending (Ieee.finite x) (.finite y)).isLE = true ↔ x ≥ y := by
  rw [descending,partialCmp_finite,Option.getD_some,Ordering.isLE_iff_ne_gt]
  exact compare_le_iff_le

theorem sort_finite (values : List K) : sortBy descending (values.map Ieee.finite) =
    (values.insertionSort (· ≥ ·)).map Ieee.finite :=
  (List.map_insertionSort _ _ _ values fun x _ y _ => (descending_finite x y).symm).symm

-- The mean similarity of some of a set's anchors.
def meanSimilarity (embedding : List (Ieee K)) (selection : List (List (Ieee K))) : Ieee K :=
  Floating.div (sum (selection.map (similarity embedding))) (Floating.ofNat selection.length)

-- The best mean that as many of the anchors reach as there are, up to `topK`.
structure BestMean (embedding : List (Ieee K)) (topK : Nat) (set : AnchorSet (Ieee K)) (score : Ieee K) :
    Prop where
  none : set.vectors = [] → score = zero
  attained : set.vectors ≠ [] → ∃ selection : List (List (Ieee K)), selection.Sublist set.vectors ∧
    selection.length = min topK set.vectors.length ∧ meanSimilarity embedding selection = score
  greatest : set.vectors ≠ [] → ∀ selection : List (List (Ieee K)), selection.Sublist set.vectors →
    selection.length = min topK set.vectors.length → AtMost (meanSimilarity embedding selection) score

def Numeric (embedding : List (Ieee K)) (vectors : List (List (Ieee K))) : Prop :=
  ∀ vector ∈ vectors, ¬ IsNan (similarity embedding vector)

def reading (embedding vector : List (Ieee K)) : K := number (similarity embedding vector)

theorem readings {vectors : List (List (Ieee K))} (numeric : Numeric embedding vectors) :
    vectors.map (similarity embedding) = (vectors.map (reading embedding)).map Ieee.finite := by
  have finite : ∀ x ∈ vectors.map (similarity embedding), ∃ z, x = .finite z := by
    intro x member
    obtain ⟨vector,there,rfl⟩ := List.mem_map.mp member
    exact similarity_finite fun nan => numeric vector there ((isNan_iff _).mpr nan)
  rw [← map_number finite,List.map_map,List.map_map,List.map_map]
  rfl

variable [IsStrictOrderedRing K]

theorem meanSimilarity_finite {selection : List (List (Ieee K))} (numeric : Numeric embedding selection)
    (some : selection.length ≠ 0) : meanSimilarity embedding selection =
      .finite ((selection.map (reading embedding)).sum / selection.length) := by
  rw [meanSimilarity,readings numeric,sum_finite,ofNat_eq,div_finite _ (Nat.cast_ne_zero.mpr some)]

theorem anchorScore_top {set : AnchorSet (Ieee K)} {topK : Nat} (positive : 1 ≤ topK)
    (numeric : Numeric embedding set.vectors) (some : set.vectors.length ≠ 0) :
    anchorScore embedding topK set = Ieee.finite
      ((TopSum.top (min topK set.vectors.length) (set.vectors.map (reading embedding))).sum /
        (min topK set.vectors.length : Nat)) := by
  have sims : sortBy descending (set.vectors.map (cosineSimilarity embedding)) =
      ((set.vectors.map (reading embedding)).insertionSort (· ≥ ·)).map Ieee.finite := by
    rw [← sort_finite,← readings numeric]
    exact congrArg _ (List.map_congr_left fun vector _ => cosineSimilarity_eq embedding vector)
  have size : (((set.vectors.map (reading embedding)).insertionSort (· ≥ ·)).map Ieee.finite).length =
      set.vectors.length := by
    rw [List.length_map,List.length_insertionSort,List.length_map]
  have many : (((set.vectors.map (reading embedding)).insertionSort (· ≥ ·)).map Ieee.finite).isEmpty = false := by
    rw [List.isEmpty_eq_false_iff,← List.length_pos_iff,size]
    omega
  have clamped : min (max 1 (min topK (max set.vectors.length 1))) set.vectors.length =
      min topK set.vectors.length := by omega
  have count : ((min topK set.vectors.length : Nat) : K) ≠ 0 := Nat.cast_ne_zero.mpr (by omega)
  unfold anchorScore
  simp only [sims,many,size,clamped]
  rw [← List.map_take,sum_finite,ofNat_eq,if_neg Bool.false_ne_true,div_finite _ count]
  rfl

theorem anchorScore_best {set : AnchorSet (Ieee K)} {topK : Nat} (positive : 1 ≤ topK)
    (numeric : Numeric embedding set.vectors) :
    BestMean embedding topK set (anchorScore embedding topK set) := by
  refine ⟨fun none => ?_,fun some => ?_,fun some selection selects size => ?_⟩
  · simp [anchorScore,none,sortBy]
  · have many := List.length_pos_iff.mpr some
    obtain ⟨selection,selects,size,total⟩ :=
      TopSum.top_selected (reading embedding) (min topK set.vectors.length) set.vectors
    have exact : selection.length = min topK set.vectors.length := by omega
    refine ⟨selection,selects,exact,?_⟩
    rw [meanSimilarity_finite (fun v there => numeric v (selects.subset there)) (by omega),total,exact,
      anchorScore_top positive numeric many.ne']
  · have many := List.length_pos_iff.mpr some
    rw [meanSimilarity_finite (fun v there => numeric v (selects.subset there)) (by omega),size,
      anchorScore_top positive numeric many.ne',atMost_finite]
    apply div_le_div_of_nonneg_right _ (Nat.cast_nonneg _)
    have most := TopSum.sum_le_top (selects.map (reading embedding))
    rwa [List.length_map,size] at most

theorem anchorScore_number {set : AnchorSet (Ieee K)} {topK : Nat} (positive : 1 ≤ topK)
    (numeric : Numeric embedding set.vectors) : ¬ IsNan (anchorScore embedding topK set : Ieee K) := by
  by_cases none : set.vectors.length = 0
  · rw [(anchorScore_best positive numeric).none (List.length_eq_zero_iff.mp none)]
    simp
  · rw [anchorScore_top positive numeric none]
    simp

theorem anchorScore_perm {set other : AnchorSet (Ieee K)} {topK : Nat} (positive : 1 ≤ topK)
    (numeric : Numeric embedding set.vectors) (same : set.vectors.Perm other.vectors) :
    (anchorScore embedding topK other : Ieee K) = anchorScore embedding topK set := by
  have moved : Numeric embedding other.vectors := fun v there => numeric v (same.mem_iff.mpr there)
  by_cases none : set.vectors.length = 0
  · rw [(anchorScore_best positive numeric).none (List.length_eq_zero_iff.mp none),
      (anchorScore_best positive moved).none (List.length_eq_zero_iff.mp (same.length_eq ▸ none))]
  · rw [anchorScore_top positive numeric none,anchorScore_top positive moved (same.length_eq ▸ none),
      ← same.length_eq,TopSum.top_perm _ (same.map (reading embedding))]

-- The same sets of the same anchors, in whatever order.
def Rearranged (anchors others : List (AnchorSet (Ieee K))) : Prop :=
  ∃ middle, anchors.Perm middle ∧
    List.Forall₂ (fun set other => set.label = other.label ∧ set.vectors.Perm other.vectors) middle others

def rows (embedding : List (Ieee K)) (topK : Nat) (anchors : List (AnchorSet (Ieee K))) :
    List (String × Ieee K) := anchors.map fun set => (set.label,anchorScore embedding topK set)

theorem rows_rearranged {anchors others : List (AnchorSet (Ieee K))} {topK : Nat} (positive : 1 ≤ topK)
    (numeric : ∀ set ∈ anchors, Numeric embedding set.vectors) (same : Rearranged anchors others) :
    (rows embedding topK anchors).Perm (rows embedding topK others) := by
  obtain ⟨middle,perm,paired⟩ := same
  have numbers : ∀ set ∈ middle, Numeric embedding set.vectors :=
    fun set member => numeric set (perm.mem_iff.mpr member)
  have equal : rows embedding topK middle = rows embedding topK others := by
    clear perm
    induction paired with
    | nil => rfl
    | cons pair _ ih =>
        obtain ⟨number,rest⟩ := List.forall_mem_cons.mp numbers
        rw [rows,List.map_cons,pair.1,← anchorScore_perm positive number pair.2]
        exact congrArg _ (ih rest)
  rw [← equal]
  exact perm.map _

variable {κ : Type} [LinearOrder κ] {value : Ieee K → κ}

def pairKey (value : Ieee K → κ) (row : String × Ieee K) : Lex (κᵒᵈ × String) :=
  Candle.rankKey value ⟨row.1,row.2⟩

omit [IsStrictOrderedRing K] in
theorem sorted_pairs {pairs : List (String × Ieee K)} (numbers : ∀ row ∈ pairs, ¬ IsNan row.2)
    (valued : ∀ x y : Ieee K, ¬ IsNan x → ¬ IsNan y →
      Floating.partialCmp x y = some (compare (value x) (value y))) :
    Ranked (pairKey value) (sortBy byScore pairs) := by
  have signals : Candle.Numbers (pairs.map fun row => (⟨row.1,row.2⟩ : Classify.RankedSignal (Ieee K))) := by
    intro signal member
    obtain ⟨row,there,rfl⟩ := List.mem_map.mp member
    exact numbers row there
  have ranked := Candle.sorted_keys valued signals
  rw [← Candle.sortBy_signals,Ranked,List.pairwise_map] at ranked
  exact ranked

-- A greater score, or an equal one under an earlier label.
def Ahead (row other : String × Ieee K) : Prop :=
  Floating.partialCmp row.2 other.2 = some .gt ∨
    Floating.partialCmp row.2 other.2 = some .eq ∧ row.1 < other.1

-- A ranking is what its definition says and does not see the order of its input.
theorem anchorRank_definition (embedding : List (Ieee K)) (anchors : List (AnchorSet (Ieee K))) (topK : Nat)
    (positive : 1 ≤ topK) (distinct : (anchors.map AnchorSet.label).Nodup)
    (numeric : ∀ set ∈ anchors, Numeric embedding set.vectors) :
    ((anchorRank embedding anchors topK : List (String × Ieee K)).map Prod.fst).Perm
      (anchors.map AnchorSet.label) ∧
    (∀ set ∈ anchors, ∀ score, (set.label,score) ∈ anchorRank embedding anchors topK →
      BestMean embedding topK set score) ∧
    (anchorRank embedding anchors topK : List (String × Ieee K)).Pairwise Ahead ∧
    ∀ others, Rearranged anchors others →
      (anchorRank embedding others topK : List (String × Ieee K)) = anchorRank embedding anchors topK := by
  have sorted : ∀ pairs : List (String × Ieee K), (sortBy byScore pairs).Perm pairs :=
    fun pairs => List.perm_insertionSort _ pairs
  have numbers : ∀ row ∈ rows embedding topK anchors, ¬ IsNan row.2 := by
    intro row member
    obtain ⟨set,there,rfl⟩ := List.mem_map.mp member
    exact anchorScore_number positive (numeric set there)
  have labels : (rows embedding topK anchors).map Prod.fst = anchors.map AnchorSet.label := by
    rw [rows,List.map_map]
    rfl
  have apart := labels ▸ distinct
  obtain ⟨κ,_,value,valued⟩ := Lawful.valued (φ := Ieee K)
  refine ⟨?_,?_,?_,?_⟩
  · rw [← labels]
    exact (sorted _).map Prod.fst
  · intro set member score there
    obtain ⟨other,present,same⟩ := List.mem_map.mp ((sorted _).mem_iff.mp there)
    obtain ⟨named,scored⟩ := Prod.mk.inj same
    obtain rfl := List.inj_on_of_nodup_map distinct present member named
    rw [← scored]
    exact anchorScore_best positive (numeric other member)
  · have ranked := sorted_pairs numbers valued
    have once := ((sorted (rows embedding topK anchors)).map Prod.fst).nodup_iff.mpr apart
    apply (List.pairwise_and_iff.mpr ⟨ranked,List.pairwise_map.mp once⟩).imp_of_mem
    intro row other left right ordered
    have first := numbers row ((sorted _).mem_iff.mp left)
    have second := numbers other ((sorted _).mem_iff.mp right)
    rcases Candle.key_precedes valued first second ordered.1 with above | ⟨level,before⟩
    · exact .inl above
    · exact .inr ⟨level,lt_of_le_of_ne before ordered.2⟩
  · intro others same
    have perm := rows_rearranged positive numeric same
    have moved : ∀ row ∈ rows embedding topK others, ¬ IsNan row.2 :=
      fun row member => numbers row (perm.mem_iff.mpr member)
    apply Eq.symm
    apply Ranked.unique _ (sorted_pairs numbers valued) (sorted_pairs moved valued)
      ((sorted _).trans (perm.trans (sorted _).symm))
    intro row left other right equal
    exact List.inj_on_of_nodup_map apart ((sorted _).mem_iff.mp left) ((sorted _).mem_iff.mp right)
      (Candle.rankKey_id equal)

def intents : List (AnchorSet (Ieee ℚ)) :=
  [⟨"refund",[[.finite 1],[.finite (-1)],[.finite 1]]⟩,⟨"other",[]⟩]

theorem intents_numeric : ∀ set ∈ intents, Numeric [.finite 1] set.vectors := by
  unfold Numeric
  decide +kernel

theorem anchorRank_definition_intents :
    ((anchorRank [Ieee.finite (1 : ℚ)] intents 2 : List (String × Ieee ℚ)).map Prod.fst).Perm
      ["refund","other"] ∧
    (anchorRank [Ieee.finite (1 : ℚ)] intents 2 : List (String × Ieee ℚ)).Pairwise Ahead := by
  obtain ⟨labels,_,ordered,_⟩ :=
    anchorRank_definition [Ieee.finite (1 : ℚ)] intents 2 (by decide) (by decide) intents_numeric
  exact ⟨labels,ordered⟩

end SemanticClassifier.Ranker
