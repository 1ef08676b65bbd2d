import Mathlib.Data.String.Basic
import SemanticClassifier.Head
import SemanticClassifier.Library.OrderedMap
import SemanticClassifier.Ranker

namespace SemanticClassifier.Taxonomy
open SemanticClassifier.Embedding (Embedder)
open Ranker

inductive TaxonomyError where
  | json (e : String)
  | invalid (m : String)
  deriving DecidableEq

def TaxonomyError.toString : TaxonomyError → String
  | .json e => "classifier definition json error: " ++ e
  | .invalid m => "invalid classifier definition: " ++ m

structure ClassifierDefinition where
  classifierId : String
  signal : String
  taxonomyRevision : String
  modelRepo : String
  modelRevision : String
  topK : Nat
  labels : List String
  anchors : OrderedMap String (List String)

-- What the JSON text gives; only `top_k` may be left out.
structure Document where
  classifierId : String
  signal : String
  taxonomyRevision : String
  modelRepo : String
  modelRevision : String
  topK : Option Nat
  labels : List String
  anchors : OrderedMap String (List String)

def defaultTopK : Nat := 3

def Document.definition (document : Document) : ClassifierDefinition where
  classifierId := document.classifierId
  signal := document.signal
  taxonomyRevision := document.taxonomyRevision
  modelRepo := document.modelRepo
  modelRevision := document.modelRevision
  topK := document.topK.getD defaultTopK
  labels := document.labels
  anchors := document.anchors

namespace ClassifierDefinition

def unanchored (definition : ClassifierDefinition) (label : String) : Option TaxonomyError :=
  match definition.anchors.get label with
  | none => some (.invalid ("label '" ++ label ++ "' has no anchors"))
  | some [] => some (.invalid ("label '" ++ label ++ "' has an empty anchor list"))
  | some _ => none

def undeclared (definition : ClassifierDefinition) (key : String) : Option TaxonomyError :=
  if key ∈ definition.labels then none
  else some (.invalid ("anchor group '" ++ key ++ "' is not a declared label"))

def validate (definition : ClassifierDefinition) : Except TaxonomyError Unit :=
  if definition.labels.isEmpty then .error (.invalid "no labels declared")
  else if definition.topK = 0 then .error (.invalid "top_k must be at least 1")
  else
    match definition.labels.findSome? definition.unanchored with
    | some e => .error e
    | none =>
      match definition.anchors.keys.findSome? definition.undeclared with
      | some e => .error e
      | none => .ok ()

end ClassifierDefinition

structure ValidDefinition extends ClassifierDefinition where
  valid : toClassifierDefinition.validate = .ok ()

-- `fromStr` is the JSON reader.
def parse (fromStr : String → Except String Document) (raw : String) :
    Except TaxonomyError ValidDefinition :=
  match fromStr raw with
  | .error e => .error (.json e)
  | .ok document =>
    match valid : document.definition.validate with
    | .error e => .error e
    | .ok _ => .ok ⟨document.definition,valid⟩

-- All a definition has been checked for.
structure Checked (definition : ClassifierDefinition) : Prop where
  labelled : definition.labels ≠ []
  positive : 0 < definition.topK
  anchored : ∀ label ∈ definition.labels, ∃ texts, definition.anchors.get label = some texts ∧ texts ≠ []
  declared : ∀ key ∈ definition.anchors.keys, key ∈ definition.labels

theorem unanchored_eq_none {definition : ClassifierDefinition} :
    definition.unanchored label = none ↔
      ∃ texts, definition.anchors.get label = some texts ∧ texts ≠ [] := by
  unfold ClassifierDefinition.unanchored
  cases found : definition.anchors.get label with
  | none => simp
  | some texts => cases texts <;> simp

theorem undeclared_eq_none {definition : ClassifierDefinition} :
    definition.undeclared key = none ↔ key ∈ definition.labels := by
  unfold ClassifierDefinition.undeclared
  split <;> simp_all

theorem validate_ok_iff {definition : ClassifierDefinition} :
    definition.validate = .ok () ↔ Checked definition := by
  unfold ClassifierDefinition.validate
  constructor
  · intro valid
    by_cases labelled : definition.labels.isEmpty
    · simp [labelled] at valid
    by_cases positive : definition.topK = 0
    · simp [labelled,positive] at valid
    rw [if_neg labelled,if_neg positive] at valid
    cases anchored : definition.labels.findSome? definition.unanchored with
    | some e => simp [anchored] at valid
    | none =>
        cases declared : definition.anchors.keys.findSome? definition.undeclared with
        | some e => simp [anchored,declared] at valid
        | none =>
            refine ⟨by simpa using labelled,Nat.pos_of_ne_zero positive,?_,?_⟩
            · intro label member
              exact unanchored_eq_none.mp (List.findSome?_eq_none_iff.mp anchored label member)
            · intro key member
              exact undeclared_eq_none.mp (List.findSome?_eq_none_iff.mp declared key member)
  · intro checked
    have anchored : definition.labels.findSome? definition.unanchored = none :=
      List.findSome?_eq_none_iff.mpr fun label member =>
        unanchored_eq_none.mpr (checked.anchored label member)
    have declared : definition.anchors.keys.findSome? definition.undeclared = none :=
      List.findSome?_eq_none_iff.mpr fun key member =>
        undeclared_eq_none.mpr (checked.declared key member)
    rw [if_neg (by simpa using checked.labelled),if_neg checked.positive.ne',anchored,declared]

theorem ValidDefinition.checked (definition : ValidDefinition) :
    Checked definition.toClassifierDefinition := validate_ok_iff.mp definition.valid

theorem parse_ok_iff {fromStr : String → Except String Document} {definition : ValidDefinition} :
    parse fromStr raw = .ok definition ↔
      ∃ document, fromStr raw = .ok document ∧ document.definition = definition.toClassifierDefinition := by
  unfold parse
  cases read : fromStr raw with
  | error e => simp
  | ok document =>
      dsimp only
      constructor
      · intro parsed
        split at parsed
        · cases parsed
        · cases parsed
          exact ⟨document,rfl,rfl⟩
      · rintro ⟨other,same,named⟩
        cases same
        have valid := definition.valid
        rw [← named] at valid
        split
        · rename_i failed
          rw [valid] at failed
          cases failed
        · cases definition
          cases named
          rfl

variable {φ : Type}

-- Indexing `anchors` by a declared label cannot fail: the check found it there.
def ValidDefinition.anchorsOf (definition : ValidDefinition)
    (label : {label // label ∈ definition.labels}) : List String :=
  (definition.anchors.get label.1).get (by
    obtain ⟨texts,found,_⟩ := definition.checked.anchored label.1 label.2
    simp [found])

def embedAnchor (embedder : Embedder φ) (label text : String) : Except TaxonomyError (List φ) :=
  (embedder.embed text).mapError fun e =>
    .invalid ("failed to embed anchor for '" ++ label ++ "': " ++ e)

def embedAnchors (definition : ValidDefinition) (embedder : Embedder φ) :
    Except TaxonomyError (List (AnchorSet φ)) :=
  definition.labels.attach.mapM fun label => do
    let vectors ← (definition.anchorsOf label).mapM (embedAnchor embedder label.1)
    return ⟨label.1,vectors⟩

theorem mapM_labels {ε α β ν : Type} {f : α → Except ε β} {before : α → ν} {after : β → ν}
    (keeps : ∀ a b, f a = .ok b → after b = before a) {rows : List α} {results : List β}
    (mapped : rows.mapM f = .ok results) : results.map after = rows.map before := by
  induction rows generalizing results with
  | nil =>
      cases mapped
      rfl
  | cons row rows ih =>
      rw [List.mapM_cons] at mapped
      cases first : f row with
      | error e =>
          rw [first] at mapped
          cases mapped
      | ok result =>
          rw [first] at mapped
          cases others : rows.mapM f with
          | error e =>
              rw [others] at mapped
              cases mapped
          | ok rest =>
              rw [others] at mapped
              cases mapped
              exact congrArg₂ List.cons (keeps row result first) (ih others)

-- One anchor set for each label, in the order of the definition.
theorem embedAnchors_labels {definition : ValidDefinition} {embedder : Embedder φ}
    (embedded : embedAnchors definition embedder = .ok anchors) :
    anchors.map AnchorSet.label = definition.labels := by
  unfold embedAnchors at embedded
  rw [← List.attach_map_subtype_val definition.labels]
  refine mapM_labels ?_ embedded
  intro label set made
  cases vectors : (definition.anchorsOf label).mapM (embedAnchor embedder label.1) with
  | error e =>
      rw [vectors] at made
      cases made
  | ok vectors' =>
      rw [vectors] at made
      cases made
      rfl

end SemanticClassifier.Taxonomy
