import Mathlib.Data.Prod.Lex
import SemanticClassifier.Candle
import SemanticClassifier.Library.Ranking

namespace SemanticClassifier.Candle
open SemanticClassifier.Embedding (Embedder)
open Classify Floating Ranker Ranking Taxonomy

variable {φ σ : Type} [Floating φ] [Floating σ] [Widening φ σ]

-- Ahead by score; level ones by name.
def Precedes (a b : RankedSignal σ) : Prop :=
  partialCmp a.score b.score = some .gt ∨ partialCmp a.score b.score = some .eq ∧ a.id ≤ b.id

structure Complete (labels : List String) (ranked : List (RankedSignal σ)) : Prop where
  once : ∀ label ∈ labels, (ranked.map RankedSignal.id).count label = 1
  only : ∀ signal ∈ ranked, signal.id ∈ labels
  sorted : ranked.Pairwise Precedes

-- The labels of the decision rule in use.
def ruleLabels (embedder : Embedder φ) (definition : ValidDefinition) (embedding : Embedding φ) :
    List String :=
  match usableHead embedder embedding with
  | some (_,labels) => labels
  | none => definition.labels

-- What the rule in use has scored, before it is put in order.
def CandleClassifier.scored (classifier : CandleClassifier φ) (embedding : Embedding φ) :
    List (RankedSignal σ) :=
  match usableHead classifier.embedder embedding with
  | some (logits,labels) => headSignals logits labels
  | none =>
    match classifier.taxonomy with
    | some t => t.anchors.map fun set => ⟨set.label,anchorScore embedding.vector t.topK set⟩
    | none => classifier.prototypes.map fun p => ⟨p.id,cosineSimilarity embedding.vector p.vector⟩

-- Of two columns with one name the second stands behind a column of every
-- other name.
def RepeatsTrail (signals : List (RankedSignal σ)) : Prop :=
  ∀ a b, List.Subperm [a,b] signals → a.id = b.id → signalOrder a b ≠ .lt →
    ∀ other ∈ signals, other.id ≠ a.id → ∃ c ∈ signals, c.id = other.id ∧ signalOrder c a = .lt

-- Distinct labels, no more than `top_k` of them on the head path; or repeated
-- columns that are just what the truncation takes off.
def Whole (σ : Type) [Floating σ] [Widening φ σ] (embedder : Embedder φ) (definition : ValidDefinition)
    (embedding : Embedding φ) : Prop :=
  match usableHead embedder embedding with
  | some (logits,labels) =>
    (labels.Nodup ∧ labels.length ≤ definition.topK) ∨
    (definition.topK = labels.dedup.length ∧
      RepeatsTrail (headSignals logits labels : List (RankedSignal σ)))
  | none => definition.labels.Nodup

def Numbers (signals : List (RankedSignal σ)) : Prop := ∀ signal ∈ signals, ¬ IsNan signal.score

instance (signals : List (RankedSignal σ)) : Decidable (Numbers signals) :=
  inferInstanceAs (Decidable (∀ signal ∈ signals, ¬ IsNan signal.score))

section Keys
variable {κ : Type} [LinearOrder κ] {value : σ → κ}

def rankKey (value : σ → κ) (signal : RankedSignal σ) : Lex (κᵒᵈ × String) :=
  toLex (OrderDual.toDual (value signal.score),signal.id)

omit [Floating σ] [LinearOrder κ] in
theorem rankKey_id {a b : RankedSignal σ} (same : rankKey value a = rankKey value b) : a.id = b.id :=
  congrArg (fun k => (ofLex k).2) same

omit [Floating σ] in
theorem rankKey_lt {a b : RankedSignal σ} : rankKey value a < rankKey value b ↔
    value b.score < value a.score ∨ value a.score = value b.score ∧ a.id < b.id := by
  simp [rankKey,Prod.Lex.lt_iff]

variable (valued : ∀ x y : σ, ¬ IsNan x → ¬ IsNan y → partialCmp x y = some (compare (value x) (value y)))
include valued

theorem signalOrder_compare {a b : RankedSignal σ} (one : ¬ IsNan a.score) (two : ¬ IsNan b.score) :
    signalOrder a b = compare (rankKey value a) (rankKey value b) := by
  have order : signalOrder a b = (compare (value b.score) (value a.score)).then (compare a.id b.id) := by
    simp only [signalOrder,byScore,descending,valued _ _ two one,Option.getD_some]
  rw [order]
  rcases lt_trichotomy (value b.score) (value a.score) with above | level | below
  · rw [compare_lt_iff_lt.mpr above,compare_lt_iff_lt.mpr (rankKey_lt.mpr (.inl above))]
    rfl
  · rw [compare_eq_iff_eq.mpr level]
    rcases lt_trichotomy a.id b.id with first | same | later
    · rw [compare_lt_iff_lt.mpr first,compare_lt_iff_lt.mpr (rankKey_lt.mpr (.inr ⟨level.symm,first⟩))]
      rfl
    · have equal : rankKey value a = rankKey value b := by simp [rankKey,level,same]
      rw [compare_eq_iff_eq.mpr same,compare_eq_iff_eq.mpr equal]
      rfl
    · rw [compare_gt_iff_gt.mpr later,compare_gt_iff_gt.mpr (rankKey_lt.mpr (.inr ⟨level,later⟩))]
      rfl
  · rw [compare_gt_iff_gt.mpr below,compare_gt_iff_gt.mpr (rankKey_lt.mpr (.inl below))]
    rfl

theorem sorted_keys {signals : List (RankedSignal σ)} (numbers : Numbers signals) :
    Ranked (rankKey value) (sortBy signalOrder signals) := by
  apply sorted_ranked
  intro a one b two
  rw [signalOrder_compare valued (numbers a one) (numbers b two),← not_lt,← compare_gt_iff_gt]
  cases compare (rankKey value a) (rankKey value b) <;> simp

theorem key_precedes {a b : RankedSignal σ} (one : ¬ IsNan a.score) (two : ¬ IsNan b.score)
    (ahead : rankKey value a ≤ rankKey value b) : Precedes a b := by
  unfold Precedes
  rw [valued _ _ one two]
  rcases ahead.lt_or_eq with less | equal
  · rcases rankKey_lt.mp less with above | ⟨level,first⟩
    · exact .inl (congrArg some (compare_gt_iff_gt.mpr above))
    · exact .inr ⟨congrArg some (compare_eq_iff_eq.mpr level),first.le⟩
  · have level : value a.score = value b.score :=
      congrArg (fun k => OrderDual.ofDual (ofLex k).1) equal
    exact .inr ⟨congrArg some (compare_eq_iff_eq.mpr level),(rankKey_id equal).le⟩

theorem trailing_iff {signals : List (RankedSignal σ)} (numbers : Numbers signals) :
    Trailing (rankKey value) RankedSignal.id signals ↔ RepeatsTrail signals := by
  have order : ∀ a ∈ signals, ∀ b ∈ signals,
      signalOrder a b = .lt ↔ rankKey value a < rankKey value b := by
    intro a one b two
    rw [signalOrder_compare valued (numbers a one) (numbers b two),compare_lt_iff_lt]
  constructor
  · intro trailing a b pair named behind other member distinct
    have one : a ∈ signals := pair.subset (by simp)
    have two : b ∈ signals := pair.subset (by simp)
    have least := not_lt.mp (mt (order a one b two).mpr behind)
    obtain ⟨c,found,carries,ahead⟩ := trailing a b pair named least other member distinct
    exact ⟨c,found,carries,(order c found a one).mpr ahead⟩
  · intro trailing a b pair named least other member distinct
    have one : a ∈ signals := pair.subset (by simp)
    have two : b ∈ signals := pair.subset (by simp)
    have behind := mt (order a one b two).mp (not_lt.mpr least)
    obtain ⟨c,found,carries,ahead⟩ := trailing a b pair named behind other member distinct
    exact ⟨c,found,carries,(order c found a one).mp ahead⟩

end Keys

omit [Floating φ] [Widening φ σ] in
theorem sorted_perm (signals : List (RankedSignal σ)) : (sortBy signalOrder signals).Perm signals :=
  List.perm_insertionSort _ signals

-- When the first `k` of the sorted signals are a complete ranking.
theorem taken_complete_iff [Lawful σ] {signals : List (RankedSignal σ)} (numbers : Numbers signals)
    (k : Nat) :
    Complete (signals.map RankedSignal.id) ((sortBy signalOrder signals).take k) ↔
      ((signals.map RankedSignal.id).Nodup ∧ signals.length ≤ k) ∨
      (k = (signals.map RankedSignal.id).dedup.length ∧ RepeatsTrail signals) := by
  obtain ⟨κ,_,value,valued⟩ := Lawful.valued (φ := σ)
  have perm := sorted_perm signals
  have names := perm.map RankedSignal.id
  have ranked := sorted_keys valued numbers
  have tie : ∀ a b : RankedSignal σ, rankKey value a = rankKey value b → a.id = b.id :=
    fun _ _ => rankKey_id
  have kept := kept_once_iff ranked tie k
  have trailing : Trailing (rankKey value) RankedSignal.id (sortBy signalOrder signals) ↔
      RepeatsTrail signals := by
    rw [← trailing_iff valued numbers]
    exact ⟨fun trailing => trailing.perm perm,fun trailing => trailing.perm perm.symm⟩
  rw [names.nodup_iff,names.dedup.length_eq,perm.length_eq,trailing] at kept
  rw [← kept]
  constructor
  · intro complete n member
    exact complete.once n (names.mem_iff.mp member)
  · intro once
    have within : ∀ signal ∈ (sortBy signalOrder signals).take k, signal ∈ signals :=
      fun signal member => perm.mem_iff.mp (List.mem_of_mem_take member)
    refine ⟨fun n member => once n (names.mem_iff.mpr member),?_,?_⟩
    · exact fun signal member => List.mem_map_of_mem (within signal member)
    · refine (ranked.take k).imp_of_mem ?_
      intro a b one two ahead
      exact key_precedes valued (numbers a (within a one)) (numbers b (within b two)) ahead

theorem sorted_complete_iff [Lawful σ] {signals : List (RankedSignal σ)} (numbers : Numbers signals) :
    Complete (signals.map RankedSignal.id) (sortBy signalOrder signals) ↔
      (signals.map RankedSignal.id).Nodup := by
  have whole := taken_complete_iff numbers signals.length
  rw [List.take_of_length_le (sorted_perm signals).length_eq.le] at whole
  rw [whole]
  constructor
  · rintro (⟨nodup,_⟩ | ⟨all,_⟩)
    · exact nodup
    · rw [← List.length_map RankedSignal.id] at all
      have same := (List.dedup_sublist (signals.map RankedSignal.id)).eq_of_length all.symm
      exact List.dedup_eq_self.mp same
  · exact fun nodup => .inl ⟨nodup,le_rfl⟩

omit [Floating σ] in
theorem headSignals_labels {logits : List φ} {labels : List String}
    (width : logits.length = labels.length) :
    (headSignals logits labels : List (RankedSignal σ)).map RankedSignal.id = labels := by
  unfold headSignals
  rw [List.map_map]
  exact List.map_fst_zip ((Head.softmax_length logits).trans width).ge

omit [Floating φ] in
theorem usableHead_width {embedder : Embedder φ} {embedding : Embedding φ} {logits : List φ}
    {labels : List String}
    (used : usableHead embedder embedding = some (logits,labels)) : logits.length = labels.length := by
  unfold usableHead at used
  split at used
  · split at used
    · rename_i width
      cases used
      exact width
    · cases used
  · cases used

omit [Floating φ] [Floating σ] [Widening φ σ] in
theorem answer_ranked (classifier : CandleClassifier φ) (ranked : List (RankedSignal σ)) :
    (classifier.answer ranked).ranked = ranked := by
  unfold CandleClassifier.answer
  split <;> rfl

omit [Floating φ] in
-- What is built keeps the embedder, the `top_k` and a set of anchors for each label.
theorem built_parts {definition : ValidDefinition} {embedder : Embedder φ}
    (built : withTaxonomyAndDigest embedder definition digest = .ok classifier) :
    classifier.embedder = embedder ∧ ∃ t, classifier.taxonomy = some t ∧ t.topK = definition.topK ∧
      t.anchors.map AnchorSet.label = definition.labels := by
  unfold withTaxonomyAndDigest at built
  cases embedded : embedAnchors definition embedder with
  | error e => simp [embedded] at built
  | ok anchors =>
      rw [embedded] at built
      cases built
      exact ⟨rfl,_,rfl,rfl,embedAnchors_labels embedded⟩

omit [Floating φ] [Floating σ] [Widening φ σ] in
theorem truncate_take {classifier : CandleClassifier φ} (resident : classifier.taxonomy = some t)
    (positive : 0 < t.topK) (ranked : List (RankedSignal σ)) :
    classifier.truncate ranked = ranked.take t.topK := by
  unfold CandleClassifier.truncate
  rw [resident]
  dsimp only
  split
  · rfl
  · rename_i fits
    exact (List.take_of_length_le (not_lt.mp fun long => fits ⟨positive,long⟩)).symm

-- Sorting pairs and naming their parts is sorting the named parts.
theorem sortBy_signals (rows : List (String × σ)) :
    (sortBy byScore rows).map (fun row => (⟨row.1,row.2⟩ : RankedSignal σ)) =
      sortBy signalOrder (rows.map fun row => ⟨row.1,row.2⟩) :=
  List.map_insertionSort _ _ _ rows fun _ _ _ _ => Iff.rfl

theorem ranking_complete_iff [Lawful σ] {definition : ValidDefinition} {embedder : Embedder φ}
    {digest : Option String} {classifier : CandleClassifier φ} (embedding : Embedding φ)
    (input : ClassificationInput)
    (built : withTaxonomyAndDigest embedder definition digest = .ok classifier)
    (numbers : Numbers (classifier.scored embedding : List (RankedSignal σ))) :
    ∃ result : ClassificationResult σ, classifier.rank embedding input = .ok result ∧
      (Complete (ruleLabels embedder definition embedding) result.ranked ↔
        Whole σ embedder definition embedding) := by
  obtain ⟨same,t,resident,bound,labelled⟩ := built_parts built
  have positive : 0 < t.topK := bound ▸ definition.checked.positive
  unfold CandleClassifier.rank ruleLabels Whole
  unfold CandleClassifier.scored at numbers
  rw [same] at numbers ⊢
  cases head : usableHead embedder embedding with
  | some used =>
      obtain ⟨logits,labels⟩ := used
      rw [head] at numbers
      have width := usableHead_width head
      have names := headSignals_labels (σ := σ) width
      refine ⟨_,rfl,?_⟩
      have complete := taken_complete_iff numbers t.topK
      rw [names,← List.length_map RankedSignal.id,names,bound] at complete
      rw [answer_ranked,truncate_take resident positive,bound]
      exact complete
  | none =>
      rw [head,resident] at numbers
      refine ⟨_,rfl,?_⟩
      have complete := sorted_complete_iff numbers
      rw [answer_ranked,resident]
      dsimp only at complete ⊢
      rw [anchorRank,sortBy_signals,List.map_map]
      rw [List.map_map] at complete
      have names : t.anchors.map (RankedSignal.id ∘ fun set =>
          (⟨set.label,anchorScore embedding.vector t.topK set⟩ : RankedSignal σ)) = definition.labels :=
        labelled
      rw [names] at complete
      exact complete

def tierText : String := "\x7b\"classifier_id\":\"tiers\",\"signal\":\"complexity\"," ++
  "\"taxonomy_revision\":\"v1\",\"model_repo\":\"r\",\"model_revision\":\"s\"," ++
  "\"labels\":[\"SIMPLE\",\"MEDIUM\",\"COMPLEX\",\"REASONING\"]," ++
  "\"anchors\":\x7b\"COMPLEX\":[\"c\"],\"MEDIUM\":[\"m\"],\"REASONING\":[\"r\"],\"SIMPLE\":[\"s\"]\x7d\x7d"

def tiers : List String := ["SIMPLE","MEDIUM","COMPLEX","REASONING"]

def tierDocument : Document where
  classifierId := "tiers"
  signal := "complexity"
  taxonomyRevision := "v1"
  modelRepo := "r"
  modelRevision := "s"
  topK := none
  labels := tiers
  anchors := ⟨[("COMPLEX",["c"]),("MEDIUM",["m"]),("REASONING",["r"]),("SIMPLE",["s"])],by decide⟩

def readTiers (raw : String) : Except String Document :=
  if raw = tierText then .ok tierDocument else .error "expected value at line 1 column 1"

theorem tiers_checked : Checked tierDocument.definition where
  labelled := by decide
  positive := by decide
  anchored := by
    intro label member
    have four : label = "SIMPLE" ∨ label = "MEDIUM" ∨ label = "COMPLEX" ∨ label = "REASONING" := by
      simpa [tierDocument,Document.definition,tiers] using member
    rcases four with rfl | rfl | rfl | rfl
    · exact ⟨["s"],by decide,by decide⟩
    · exact ⟨["m"],by decide,by decide⟩
    · exact ⟨["c"],by decide,by decide⟩
    · exact ⟨["r"],by decide,by decide⟩
  declared := by decide

def tierDefinition : ValidDefinition := ⟨tierDocument.definition,validate_ok_iff.mpr tiers_checked⟩

-- A model that puts every text in one place, with or without a head.
def flatEmbedder (labels : Option Head.LabelMap) : Embedder (Ieee ℚ) where
  tokenize := fun _ => .ok [101]
  embedIds := fun _ => .ok [.finite 1]
  embedAndClassify := fun _ => .ok ([.finite 1],labels.map fun map => map.labels.map fun _ => .finite 0)
  labels := labels

def flatEmbedding (width : Nat) : Embedding (Ieee ℚ) :=
  ⟨[.finite 1],some (List.replicate width (.finite 0))⟩

def anyInput : ClassificationInput := ⟨"text",[],∅,.full⟩

def flatClassifier (labels : Option Head.LabelMap) : CandleClassifier (Ieee ℚ) where
  embedder := flatEmbedder labels
  prototypes := []
  taxonomy := some ⟨"tiers","complexity","v1","s","s",none,defaultTopK,tiers.map (⟨·,[[.finite 1]]⟩)⟩

theorem ranking_complete_iff_headless : ∃ result : ClassificationResult (Ieee ℚ),
    (flatClassifier none).rank (flatEmbedding 4) anyInput = .ok result ∧ Complete tiers result.ranked := by
  have built : withTaxonomyAndDigest (flatEmbedder none) tierDefinition none =
    .ok (flatClassifier none) := rfl
  have numbers : Numbers ((flatClassifier none).scored (flatEmbedding 4) :
    List (RankedSignal (Ieee ℚ))) := by decide +kernel
  obtain ⟨result,ranked,complete⟩ := ranking_complete_iff (flatEmbedding 4) anyInput built numbers
  have whole : tiers.Nodup := by decide
  exact ⟨result,ranked,complete.mpr whole⟩

-- Four columns and the default `top_k`: with even logits the last name is cut.
theorem fourth_tier_hidden : ∃ (definition : ValidDefinition) (classifier : CandleClassifier (Ieee ℚ))
    (result : ClassificationResult (Ieee ℚ)),
    parse readTiers tierText = .ok definition ∧
    withTaxonomyAndDigest (flatEmbedder (some ⟨tiers⟩)) definition none = .ok classifier ∧
    Numbers (classifier.scored (flatEmbedding 4) : List (RankedSignal (Ieee ℚ))) ∧
    classifier.rank (flatEmbedding 4) anyInput = .ok result ∧
    ruleLabels (flatEmbedder (some ⟨tiers⟩)) definition (flatEmbedding 4) = tiers ∧
    ¬ Complete tiers result.ranked := by
  have read : readTiers tierText = .ok tierDocument := if_pos rfl
  refine ⟨tierDefinition,flatClassifier (some ⟨tiers⟩),_,?_,rfl,by decide +kernel,rfl,rfl,?_⟩
  · exact parse_ok_iff.mpr ⟨tierDocument,read,rfl⟩
  · intro complete
    have once := complete.once "SIMPLE" (by decide)
    revert once
    decide +kernel

end SemanticClassifier.Candle
