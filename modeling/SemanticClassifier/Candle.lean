import SemanticClassifier.CacheKey
import SemanticClassifier.Classify
import SemanticClassifier.Taxonomy

namespace SemanticClassifier.Candle
open SemanticClassifier.Embedding (Embedder)
open Classify Floating Ranker Taxonomy

def CLASSIFIER_ID : String := "sensitivity-synthetic"
def MODEL_REVISION : String := "synthetic-for-mechanics-only"
def TOKENIZER_REVISION : String := "tokenizer-fixture"
def TAXONOMY_REVISION : String := "synthetic-prototypes"

structure ResidentTaxonomy (φ : Type) where
  classifierId : String
  signal : String
  taxonomyRevision : String
  modelRevision : String
  tokenizerRevision : String
  artifactDigest : Option String
  topK : Nat
  anchors : List (AnchorSet φ)

structure CandleClassifier (φ : Type) where
  embedder : Embedder φ
  prototypes : List (Prototype φ)
  taxonomy : Option (ResidentTaxonomy φ)

variable {φ σ : Type}

def withTaxonomyAndDigest (embedder : Embedder φ) (definition : ValidDefinition)
    (artifactDigest : Option String) : Except ClassifyError (CandleClassifier φ) :=
  match embedAnchors definition embedder with
  | .error e => .error (.embedding e.toString)
  | .ok anchors => .ok {
      embedder := embedder
      prototypes := []
      taxonomy := some {
        classifierId := definition.classifierId
        signal := definition.signal
        taxonomyRevision := definition.taxonomyRevision
        modelRevision := definition.modelRevision
        tokenizerRevision := definition.modelRevision
        artifactDigest := artifactDigest
        topK := definition.topK
        anchors := anchors}}

namespace CandleClassifier

def rankingMode (classifier : CandleClassifier φ) : RankingMode :=
  match classifier.embedder.labels with
  | some _ => .trainedHead
  | none => .anchorCosine

def metadata (classifier : CandleClassifier φ) : RuntimeMetadata :=
  match classifier.taxonomy with
  | some t => {
      classifierId := t.classifierId
      signal := t.signal
      modelRevision := t.modelRevision
      tokenizerRevision := t.tokenizerRevision
      taxonomyRevision := t.taxonomyRevision
      artifactDigest := t.artifactDigest
      rankingMode := classifier.rankingMode}
  | none => {
      classifierId := CLASSIFIER_ID
      signal := "sensitivity"
      modelRevision := MODEL_REVISION
      tokenizerRevision := TOKENIZER_REVISION
      taxonomyRevision := TAXONOMY_REVISION
      artifactDigest := none
      rankingMode := .anchorCosine}

def embed (classifier : CandleClassifier φ) (input : ClassificationInput) :
    Except ClassifyError (Embedding φ) :=
  match classifier.embedder.tokenize (Cache.trim input.text) with
  | .error e => .error (.embedding e)
  | .ok ids =>
    match classifier.embedder.embedAndClassify ids with
    | .error e => .error (.embedding e)
    | .ok (vector,logits) => .ok ⟨vector,logits⟩

-- The identity both ways of ranking report with their answer.
def answer (classifier : CandleClassifier φ) (ranked : List (RankedSignal σ)) : ClassificationResult σ :=
  match classifier.taxonomy with
  | some t => {
      classifierId := t.classifierId
      modelRevision := t.modelRevision
      tokenizerRevision := t.tokenizerRevision
      taxonomyRevision := t.taxonomyRevision
      status := .ok
      ranked := ranked}
  | none => {
      classifierId := CLASSIFIER_ID
      modelRevision := MODEL_REVISION
      tokenizerRevision := TOKENIZER_REVISION
      taxonomyRevision := TAXONOMY_REVISION
      status := .ok
      ranked := ranked}

end CandleClassifier

variable [Floating φ] [Floating σ] [Widening φ σ]

def signalOrder (a b : RankedSignal σ) : Ordering := byScore (a.id,a.score) (b.id,b.score)

def headSignals (logits : List φ) (labels : List String) : List (RankedSignal σ) :=
  (labels.zip (Head.softmax logits)).map fun column => ⟨column.1,Widening.widen column.2⟩

-- A head whose width disagrees with its label map is not used.
def usableHead (embedder : Embedder φ) (embedding : Embedding φ) : Option (List φ × List String) :=
  match embedding.logits,embedder.labels with
  | some logits,some map =>
    if logits.length = map.labels.length then some (logits,map.labels) else none
  | _,_ => none

namespace CandleClassifier

def truncate (classifier : CandleClassifier φ) (ranked : List (RankedSignal σ)) : List (RankedSignal σ) :=
  match classifier.taxonomy with
  | some t => if 0 < t.topK ∧ t.topK < ranked.length then ranked.take t.topK else ranked
  | none => ranked

def rankFromHead (classifier : CandleClassifier φ) (logits : List φ) (labels : List String) :
    Outcome σ :=
  .ok (classifier.answer (classifier.truncate (sortBy signalOrder (headSignals logits labels))))

def rank (classifier : CandleClassifier φ) (embedding : Embedding φ) (_input : ClassificationInput) :
    Outcome σ :=
  match usableHead classifier.embedder embedding with
  | some (logits,labels) => classifier.rankFromHead logits labels
  | none =>
    let ranked : List (String × σ) :=
      match classifier.taxonomy with
      | some t => anchorRank embedding.vector t.anchors t.topK
      | none => cosineRank embedding.vector classifier.prototypes
    .ok (classifier.answer (ranked.map fun signal => ⟨signal.1,signal.2⟩))

def runtime (σ : Type) [Floating σ] [Widening φ σ] (classifier : CandleClassifier φ) :
    ClassifierRuntime φ σ where
  embed := classifier.embed
  rank := classifier.rank
  metadata := classifier.metadata

end CandleClassifier

end SemanticClassifier.Candle
