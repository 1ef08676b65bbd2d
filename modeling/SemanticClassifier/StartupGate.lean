import SemanticClassifier.Startup

namespace SemanticClassifier.Startup
open Cache Candle Classify Floating Head SemanticClassifier.Runtime Taxonomy

section Except
variable {ε δ α γ : Type}

theorem bind_ok {x : Except ε α} {f : α → Except ε γ} {c : γ} :
    (x >>= f) = .ok c ↔ ∃ a, x = .ok a ∧ f a = .ok c := by
  cases x with
  | error e =>
      refine iff_of_false nofun ?_
      rintro ⟨a,same,_⟩
      cases same
  | ok a =>
      constructor
      · exact fun rest => ⟨a,rfl,rest⟩
      · rintro ⟨b,same,rest⟩
        cases same
        exact rest

theorem mapError_ok {x : Except ε α} {f : ε → δ} {a : α} : x.mapError f = .ok a ↔ x = .ok a := by
  cases x with
  | error e => exact iff_of_false nofun nofun
  | ok b => exact ⟨fun same => by cases same; rfl,fun same => by cases same; rfl⟩

end Except

section Load
variable {β μ ω ν τ φ : Type} {crates : Crates β μ ω ν τ φ}

-- What an embedder is made of, and where it was read.
structure Loaded (crates : Crates β μ ω ν τ φ) (files : Snapshot)
    (modelConfig weights tokenizerPath pooling : PathBuf) (embedder : Embedding.Embedder φ) where
  configBytes : List UInt8
  raw : String
  config : Config β μ
  bytes : List UInt8
  checkpoint : ω
  model : ν
  head : Option (SequenceHead φ)
  labels : Option LabelMap
  file : List UInt8
  tokenizer : τ
  configRead : read files modelConfig = .ok configBytes
  text : String.fromUTF8? ⟨configBytes.toArray⟩ = some raw
  parsed : parseConfig crates raw = .ok config
  weightsRead : read files weights = .ok bytes
  mapped : crates.mmapedSafetensors bytes = .ok checkpoint
  backbone : loadBackbone crates checkpoint config = .ok model
  headed : headAndLabels (VarBuilder.root (crates.tensors checkpoint)) (config.backbone crates)
    (fromConfig crates.id2label raw) (classifierPooling crates raw) (classifierBias crates raw) = .ok (head,labels)
  fileRead : read files tokenizerPath = .ok file
  tokenized : crates.tokenizer file = .ok tokenizer
  pooled : checkPooling crates files pooling (config.hiddenSize crates) = .ok ()
  made : embedder = embedderOf crates checkpoint model tokenizer head labels

theorem readToString_ok {files : Snapshot} {path : PathBuf} {text : String} :
    readToString files path = .ok text ↔
      ∃ bytes, read files path = .ok bytes ∧ String.fromUTF8? ⟨bytes.toArray⟩ = some text := by
  unfold readToString
  cases read files path with
  | error e => exact iff_of_false nofun (by simp)
  | ok bytes =>
      cases decoded : String.fromUTF8? ⟨bytes.toArray⟩ <;> simp [decoded]

theorem load_parts {files : Snapshot} {modelConfig weights tokenizerPath pooling : PathBuf}
    {embedder : Embedding.Embedder φ}
    (loaded : load crates files modelConfig weights tokenizerPath pooling = .ok embedder) :
    Nonempty (Loaded crates files modelConfig weights tokenizerPath pooling embedder) := by
  unfold load at loaded
  obtain ⟨raw,first,loaded⟩ := bind_ok.mp loaded
  obtain ⟨configBytes,configRead,text⟩ := readToString_ok.mp first
  obtain ⟨config,parsed,loaded⟩ := bind_ok.mp loaded
  obtain ⟨bytes,weightsRead,loaded⟩ := bind_ok.mp loaded
  obtain ⟨checkpoint,mapped,loaded⟩ := bind_ok.mp loaded
  obtain ⟨model,backbone,loaded⟩ := bind_ok.mp loaded
  obtain ⟨⟨head,labels⟩,headed,loaded⟩ := bind_ok.mp loaded
  obtain ⟨file,fileRead,loaded⟩ := bind_ok.mp loaded
  obtain ⟨tokenizer,tokenized,loaded⟩ := bind_ok.mp loaded
  obtain ⟨_,pooled,made⟩ := bind_ok.mp loaded
  cases made
  exact ⟨⟨configBytes,raw,config,bytes,checkpoint,model,head,labels,file,tokenizer,configRead,text,parsed,
    mapError_ok.mp weightsRead,mapError_ok.mp mapped,mapError_ok.mp backbone,mapError_ok.mp headed,
    mapError_ok.mp fileRead,mapError_ok.mp tokenized,pooled,rfl⟩⟩

-- The same three files make the same embedder.
theorem Loaded.unique {files others : Snapshot} {modelConfig weights tokenizerPath pooling : PathBuf}
    {otherConfig otherWeights otherTokenizer otherPooling : PathBuf} {one two : Embedding.Embedder φ}
    (first : Loaded crates files modelConfig weights tokenizerPath pooling one)
    (second : Loaded crates others otherConfig otherWeights otherTokenizer otherPooling two)
    (configs : first.configBytes = second.configBytes) (weightses : first.bytes = second.bytes)
    (tokenizers : first.file = second.file) : one = two := by
  have text := first.text
  rw [configs,second.text] at text
  have raw : first.raw = second.raw := (Option.some.inj text).symm
  have parsed := first.parsed
  rw [raw,second.parsed] at parsed
  have config : first.config = second.config := (Except.ok.inj parsed).symm
  have mapped := first.mapped
  rw [weightses,second.mapped] at mapped
  have checkpoint : first.checkpoint = second.checkpoint := (Except.ok.inj mapped).symm
  have backbone := first.backbone
  rw [checkpoint,config,second.backbone] at backbone
  have headed := first.headed
  rw [raw,checkpoint,config,second.headed] at headed
  obtain ⟨head,labels⟩ := Prod.mk.inj (Except.ok.inj headed)
  have tokenized := first.tokenized
  rw [tokenizers,second.tokenized] at tokenized
  rw [first.made,second.made,checkpoint,Except.ok.inj backbone,head,labels,Except.ok.inj tokenized]

theorem read_content {files : Snapshot} {dir : PathBuf} {name : String} {bytes : List UInt8} :
    read files (join dir name) = .ok bytes ↔ content files dir name = some bytes := by
  unfold read content
  cases files.openFile (join dir name) with
  | error e => exact iff_of_false nofun nofun
  | ok file =>
      cases file with
      | error e => exact iff_of_false nofun nofun
      | ok held => exact ⟨fun same => by cases same; rfl,fun same => by cases same; rfl⟩

-- A pooling configuration that is there has been read.
theorem checkPooling_readable {files : Snapshot} {dir : PathBuf} {name : String} {hiddenSize : Nat}
    (checked : checkPooling crates files (join dir name) hiddenSize = .ok ())
    (there : pathExists files (join dir name) = true) : Readable files dir name := by
  rw [checkPooling,if_pos there] at checked
  obtain ⟨dimension,contract,_⟩ := bind_ok.mp checked
  obtain ⟨raw,first,_⟩ := bind_ok.mp contract
  obtain ⟨bytes,got,_⟩ := readToString_ok.mp first
  exact Option.isSome_iff_exists.mpr ⟨bytes,read_content.mp got⟩

theorem headAndLabels_both {vb : VarBuilder} {config : BackboneConfig φ} {labels kept : Option LabelMap}
    {pooling : Option String} {bias : Option Bool} {head : Option (SequenceHead φ)}
    (headed : headAndLabels vb config labels pooling bias = .ok (head,kept)) : kept.isSome = head.isSome := by
  cases labels with
  | none =>
      cases headed
      rfl
  | some map =>
      obtain ⟨_,_,same⟩ := bind_ok.mp headed
      cases same
      cases head <;> rfl

end Load

theorem modelcarRequired_mem {files : Snapshot} {dir : PathBuf} {name : String} :
    name ∈ modelcarRequiredFiles files dir ↔
      name ∈ core ∨ pathExists files (join dir "modules.json") = true ∧ name = "1_Pooling/config.json" := by
  unfold modelcarRequiredFiles
  split <;> rename_i declared <;> simp [core,modelcarRequired,declared]
  tauto

section Start
variable {β μ ω ν τ φ : Type} {crates : Crates β μ ω ν τ φ} {display : PathBuf → String}
  {blake3 : List UInt8 → Vector UInt8 32} {files : Snapshot} {dir : PathBuf}

theorem loadFrom_reads {embedder : Embedding.Embedder φ} (loaded : loadFrom crates files dir = .ok embedder) :
    (∀ name ∈ core, Readable files dir name) ∧
      (pathExists files (join dir "1_Pooling/config.json") = true → Readable files dir "1_Pooling/config.json") := by
  obtain ⟨parts⟩ := load_parts loaded
  refine ⟨?_,checkPooling_readable parts.pooled⟩
  have held {name : String} {bytes : List UInt8} (got : read files (join dir name) = .ok bytes) :
      Readable files dir name := Option.isSome_iff_exists.mpr ⟨bytes,read_content.mp got⟩
  simp only [core,List.forall_mem_cons,List.not_mem_nil,false_implies,implies_true,and_true]
  exact ⟨held parts.weightsRead,held parts.configRead,held parts.fileRead⟩

theorem withTaxonomy_parts {embedder : Embedding.Embedder φ} {definition : ValidDefinition} {digest : Option String}
    {classifier : CandleClassifier φ} (made : withTaxonomyAndDigest embedder definition digest = .ok classifier) :
    classifier.embedder = embedder ∧ classifier.metadata.artifactDigest = digest := by
  unfold withTaxonomyAndDigest at made
  split at made
  · cases made
  · cases made
    exact ⟨rfl,rfl⟩

theorem fromModelcarWith_parts {definition : ValidDefinition} {classifier : CandleClassifier φ}
    (made : fromModelcarWith crates display blake3 files dir definition = .ok classifier) :
    loadFrom crates files dir = .ok classifier.embedder ∧ classifier.metadata.artifactDigest =
      (modelcarDigest display blake3 files dir (modelcarRequiredFiles files dir)).toOption ∧
    withTaxonomyAndDigest classifier.embedder definition
      (modelcarDigest display blake3 files dir (modelcarRequiredFiles files dir)).toOption = .ok classifier := by
  unfold fromModelcarWith at made
  cases loaded : loadFrom crates files dir with
  | error e => simp [loaded] at made
  | ok embedder =>
      simp only [loaded] at made
      obtain ⟨rfl,digest⟩ := withTaxonomy_parts made
      exact ⟨rfl,digest,made⟩

theorem digest_none {required : List String} :
    (modelcarDigest display blake3 files dir required).toOption = none ↔
      ∃ name ∈ required, ¬ Readable files dir name := by
  have fails : (∃ e, modelcarDigest display blake3 files dir required = .error e) ↔
      ∃ name ∈ required, ¬ Readable files dir name := modelcarDigest_fails
  rw [← fails]
  cases modelcarDigest display blake3 files dir required with
  | error e => exact iff_of_true rfl ⟨e,rfl⟩
  | ok digest => exact iff_of_false nofun (by rintro ⟨e,same⟩; cases same)

-- Loading asks less than the digest does, in one place only.
theorem digest_missing {definition : ValidDefinition} {classifier : CandleClassifier φ}
    (made : fromModelcarWith crates display blake3 files dir definition = .ok classifier) :
    classifier.metadata.artifactDigest = none ↔
      pathExists files (join dir "modules.json") = true ∧ ¬ Readable files dir "1_Pooling/config.json" := by
  obtain ⟨loaded,digest,_⟩ := fromModelcarWith_parts made
  rw [digest,digest_none]
  constructor
  · rintro ⟨name,inside,missing⟩
    rcases modelcarRequired_mem.mp inside with basic | ⟨declared,rfl⟩
    · exact absurd ((loadFrom_reads loaded).1 name basic) missing
    · exact ⟨declared,missing⟩
  · rintro ⟨declared,missing⟩
    exact ⟨_,modelcarRequired_mem.mpr (.inr ⟨declared,rfl⟩),missing⟩

variable {σ : Type} [Floating φ] [Floating σ] [Widening φ σ]

variable (σ) in
theorem warm_iff (classifier : CandleClassifier φ) :
    (∃ result, (classifier.runtime σ).classify warmupInput = .ok result) ↔
      ∃ embedding, classifier.embed warmupInput = .ok embedding := by
  simp only [ClassifierRuntime.classify,CandleClassifier.runtime]
  cases classifier.embed warmupInput with
  | error e => simp
  | ok embedding =>
      refine iff_of_true ?_ ⟨embedding,rfl⟩
      dsimp only [CandleClassifier.rank]
      split
      · exact ⟨_,rfl⟩
      · exact ⟨_,rfl⟩

variable (display blake3 files dir) in
theorem warmup_ok (r : Runtime τ) (required : List String) :
    (r.warmupModelcar display blake3 files dir required).1 = .ok () ↔
      (∀ f ∈ required, isFile files (join dir f) = true) ∧ (∀ f ∈ required, Readable files dir f) ∧
        pathExists files dir = true := by
  have readable : (∃ digest, modelcarDigest display blake3 files dir required = .ok digest) ↔
      ∀ f ∈ required, Readable files dir f := by
    have fails : (∃ e, modelcarDigest display blake3 files dir required = .error e) ↔
        ∃ name ∈ required, ¬ Readable files dir name := modelcarDigest_fails
    cases digested : modelcarDigest display blake3 files dir required with
    | error e =>
        obtain ⟨name,inside,missing⟩ := fails.mp ⟨e,digested⟩
        exact iff_of_false nofun fun read => missing (read name inside)
    | ok digest =>
        refine iff_of_true ⟨digest,rfl⟩ fun name inside => by_contra fun missing => ?_
        obtain ⟨e,failed⟩ := fails.mpr ⟨name,inside,missing⟩
        cases digested.symm.trans failed
  rcases warmupModelcar_cases display blake3 files dir required r with ⟨e,gives,why⟩ | ⟨digest,present,digested,comes⟩
  · rw [gives]
    refine iff_of_false nofun ?_
    rintro ⟨present,read,_⟩
    rcases why with ⟨f,inside,absent⟩ | failed
    · rw [present f inside] at absent
      cases absent
    · obtain ⟨digest,digested⟩ := readable.mpr read
      rw [digested] at failed
      cases failed
  · rw [comes]
    have read := readable.mp ⟨digest,digested⟩
    cases there : pathExists files dir with
    | true =>
        rw [warmup_there there]
        exact iff_of_true rfl ⟨present,read,rfl⟩
    | false =>
        rw [warmup_gone there]
        exact iff_of_false nofun nofun

theorem loadAndWarm_iff {environment : Except String ValidDefinition} {classifier : CandleClassifier φ} :
    loadAndWarmModelcar crates display blake3 σ files dir environment = .ok classifier ↔
      ∃ definition, environment = .ok definition ∧
        fromModelcarWith crates display blake3 files dir definition = .ok classifier ∧
        (∀ f ∈ modelcarRequiredFiles files dir, isFile files (join dir f) = true) ∧
        (∀ f ∈ modelcarRequiredFiles files dir, Readable files dir f) ∧ pathExists files dir = true ∧
        ∃ embedding, classifier.embed warmupInput = .ok embedding := by
  have gate := warmup_ok display blake3 files dir (new : Runtime τ) (modelcarRequiredFiles files dir)
  unfold loadAndWarmModelcar
  cases warmed : ((new : Runtime τ).warmupModelcar display blake3 files dir (modelcarRequiredFiles files dir)).1 with
  | error e =>
      rw [warmed] at gate
      refine iff_of_false nofun ?_
      rintro ⟨definition,_,_,present,read,there,_⟩
      cases gate.mpr ⟨present,read,there⟩
  | ok _ =>
      obtain ⟨present,read,there⟩ := gate.mp warmed
      cases environment with
      | error e => exact iff_of_false nofun (by rintro ⟨_,same,_⟩; cases same)
      | ok definition =>
          dsimp only
          cases made : fromModelcarWith crates display blake3 files dir definition with
          | error e =>
              refine iff_of_false nofun ?_
              rintro ⟨_,same,other,_⟩
              cases same
              rw [made] at other
              cases other
          | ok candidate =>
              dsimp only
              have warm := warm_iff σ candidate
              cases ran : (candidate.runtime σ).classify warmupInput with
              | error e =>
                  rw [ran] at warm
                  refine iff_of_false nofun ?_
                  rintro ⟨_,same,other,_,_,_,embeds⟩
                  cases same
                  cases made.symm.trans other
                  obtain ⟨_,wrong⟩ := warm.mpr embeds
                  cases wrong
              | ok result =>
                  constructor
                  · intro same
                    cases same
                    exact ⟨definition,rfl,made,present,read,there,warm.mp ⟨result,ran⟩⟩
                  · rintro ⟨_,same,other,_⟩
                    cases same
                    exact made.symm.trans other

omit [Floating φ] in
theorem parseConfig_rope {raw kind : String} {config : Config β μ} (parsed : parseConfig crates raw = .ok config)
    (modern : crates.modelType raw = .ok (some "modernbert")) (declared : ropeScalingKind crates raw = some kind) :
    honoured kind = true := by
  unfold parseConfig at parsed
  obtain ⟨found,probed,parsed⟩ := bind_ok.mp parsed
  cases modern.symm.trans (mapError_ok.mp probed)
  rw [if_neg (by decide),if_pos rfl,declared] at parsed
  by_contra refused
  have plain : honoured kind = false := Bool.eq_false_iff.mpr refused
  have kept : (some kind).filter (fun kind => !honoured kind) = some kind := by simp [plain]
  rw [kept] at parsed
  cases parsed

omit [Floating φ] in
theorem embedder_head {embedder : Embedding.Embedder φ} (loaded : loadFrom crates files dir = .ok embedder)
    {ids : List UInt32} {vector : List φ} {logits : Option (List φ)}
    (ran : embedder.embedAndClassify ids = .ok (vector,logits)) :
    embedder.embedIds ids = .ok vector ∧ logits.isSome = embedder.labels.isSome := by
  obtain ⟨parts⟩ := load_parts loaded
  have both := headAndLabels_both parts.headed
  rw [parts.made] at ran ⊢
  obtain ⟨sequence,forwarded,rest⟩ := bind_ok.mp (mapError_ok.mp ran)
  obtain ⟨embedding,pooled,rest⟩ := bind_ok.mp rest
  have vectors : (embedderOf crates parts.checkpoint parts.model parts.tokenizer parts.head parts.labels).embedIds ids =
      .ok embedding := mapError_ok.mpr (bind_ok.mpr ⟨sequence,forwarded,pooled⟩)
  cases head : parts.head with
  | none =>
      rw [head] at rest both
      cases rest
      exact ⟨head ▸ vectors,both.symm⟩
  | some h =>
      rw [head] at rest both
      obtain ⟨scores,_,same⟩ := bind_ok.mp rest
      cases same
      exact ⟨head ▸ vectors,both.symm⟩

variable (crates display blake3 files dir σ) in
-- What an artifact has to be, what its classifier then knows of itself, and what
-- the way round the gate leaves out.
theorem startup_gate (environment : Except String ValidDefinition) :
    (∀ definition classifier, fromModelcarWith crates display blake3 files dir definition = .ok classifier →
      (classifier.metadata.artifactDigest = none ↔
        pathExists files (join dir "modules.json") = true ∧ ¬ Readable files dir "1_Pooling/config.json") ∧
      (∀ ids vector logits, classifier.embedder.embedAndClassify ids = .ok (vector,logits) →
        classifier.embedder.embedIds ids = .ok vector ∧ logits.isSome = classifier.embedder.labels.isSome) ∧
      ∀ raw kind, readToString files (join dir "config.json") = .ok raw →
        crates.modelType raw = .ok (some "modernbert") → ropeScalingKind crates raw = some kind →
        honoured kind = true) ∧
    (∀ classifier, loadAndWarmModelcar crates display blake3 σ files dir environment = .ok classifier ↔
      ∃ definition, environment = .ok definition ∧
        fromModelcarWith crates display blake3 files dir definition = .ok classifier ∧
        (∀ f ∈ modelcarRequiredFiles files dir, isFile files (join dir f) = true) ∧
        (∀ f ∈ modelcarRequiredFiles files dir, Readable files dir f) ∧ pathExists files dir = true ∧
        ∃ embedding, classifier.embed warmupInput = .ok embedding) ∧
    ∀ classifier, loadAndWarmModelcar crates display blake3 σ files dir environment = .ok classifier →
      ∃ digest, classifier.metadata.artifactDigest = some digest ∧
        modelcarDigest display blake3 files dir (modelcarRequiredFiles files dir) = .ok digest := by
  refine ⟨fun definition classifier made => ⟨digest_missing made,?_,?_⟩,fun classifier => loadAndWarm_iff,?_⟩
  · exact fun ids vector logits ran => embedder_head (fromModelcarWith_parts made).1 ran
  · intro raw kind text modern declared
    obtain ⟨parts⟩ := load_parts (fromModelcarWith_parts made).1
    have same : readToString files (join dir "config.json") = .ok parts.raw :=
      readToString_ok.mpr ⟨_,parts.configRead,parts.text⟩
    cases text.symm.trans same
    exact parseConfig_rope parts.parsed modern declared
  · intro classifier ready
    obtain ⟨definition,_,made,_,readable,_⟩ := loadAndWarm_iff.mp ready
    have digest := (fromModelcarWith_parts made).2.1
    have fails : (∃ e, modelcarDigest display blake3 files dir (modelcarRequiredFiles files dir) = .error e) ↔
        ∃ name ∈ modelcarRequiredFiles files dir, ¬ Readable files dir name := modelcarDigest_fails
    cases digested : modelcarDigest display blake3 files dir (modelcarRequiredFiles files dir) with
    | error e =>
        obtain ⟨name,inside,missing⟩ := fails.mp ⟨e,digested⟩
        exact absurd (readable name inside) missing
    | ok d => exact ⟨d,by rw [digest,digested]; rfl,rfl⟩

end Start

def legacyConfig : String := "\x7b\"vocab_size\":30522,\"hidden_size\":384,\"num_hidden_layers\":6," ++
  "\"num_attention_heads\":12,\"intermediate_size\":1536,\"max_position_embeddings\":512," ++
  "\"type_vocab_size\":2,\"layer_norm_eps\":1e-12,\"hidden_act\":\"gelu\",\"hidden_dropout_prob\":0.1," ++
  "\"initializer_range\":0.02,\"pad_token_id\":0,\"classifier_dropout\":null\x7d"

-- An artifact without a module stack and without a head.
def legacyCrates : Crates Unit Unit Unit Unit Unit (Ieee ℚ) where
  fromStr raw := if raw = legacyConfig then .ok (.object [("hidden_size",.number "384")]) else .error "expected value"
  modelType raw := if raw = legacyConfig then .ok none else .error "expected value"
  bertConfig raw := if raw = legacyConfig then .ok () else .error "expected value"
  modernConfig _ := .error "missing field"
  bertHidden _ := 384
  modernHidden _ := 0
  modernEps _ := .finite 0
  id2label raw := if raw = legacyConfig then some none else none
  mmapedSafetensors _ := .ok ()
  tensors _ := ⟨[],by decide⟩
  bertModel _ _ := .ok ()
  modernModel _ _ := .error "missing tensor"
  forward _ _ := .ok []
  poolAndNormalize _ := .ok [.finite 1]
  logits _ _ _ := .ok []
  tokenizer _ := .ok ()
  encode _ _ := .ok [101]

def legacyFiles (dir : PathBuf) (weights : List UInt8) : Snapshot where
  metadata path := if path = dir then .ok .directory
    else if (core.map (join dir)).contains path then .ok .file else .error "No such file or directory (os error 2)"
  openFile path := if path = join dir "config.json" then .ok (.ok (utf8 legacyConfig))
    else if (core.map (join dir)).contains path then .ok (.ok weights)
    else .error "No such file or directory (os error 2)"

def simpleDocument : Document :=
  ⟨"complexity","complexity","taxonomy-1","repo","model-1",none,["SIMPLE"],⟨[("SIMPLE",["s"])],by decide⟩⟩

def simpleDefinition : ValidDefinition := ⟨simpleDocument.definition,rfl⟩

def models : PathBuf := utf8 "/models"
def mounted : PathBuf := utf8 "/mnt"

def legacyEmbedder : Embedding.Embedder (Ieee ℚ) := embedderOf legacyCrates () () () none none

section Legacy
variable {dir : PathBuf} (here : dir = models ∨ dir = mounted)
include here

theorem legacy_loaded : loadFrom legacyCrates (legacyFiles dir [1]) dir = .ok legacyEmbedder := by
  have text : readToString (legacyFiles dir [1]) (join dir "config.json") = .ok legacyConfig := by
    refine readToString_ok.mpr ⟨utf8 legacyConfig,?_,fromUTF8_utf8 _⟩
    have opened : (legacyFiles dir [1]).openFile (join dir "config.json") = .ok (.ok (utf8 legacyConfig)) :=
      if_pos rfl
    rw [read,opened]
    rfl
  have weights : read (legacyFiles dir [1]) (join dir "model.safetensors") = .ok [1] := by
    rcases here with rfl | rfl <;> rfl
  have tokenizer : read (legacyFiles dir [1]) (join dir "tokenizer.json") = .ok [1] := by
    rcases here with rfl | rfl <;> rfl
  have poolingless : pathExists (legacyFiles dir [1]) (join dir "1_Pooling/config.json") = false := by
    rcases here with rfl | rfl <;> rfl
  have parsed : parseConfig legacyCrates legacyConfig = .ok (.bert ()) := by
    simp only [parseConfig,legacyCrates,if_true]
    rfl
  have labels : fromConfig legacyCrates.id2label legacyConfig = none := by
    simp only [fromConfig,legacyCrates,if_true]
    rfl
  have unchecked : checkPooling legacyCrates (legacyFiles dir [1]) (join dir "1_Pooling/config.json") 384 = .ok () := by
    rw [checkPooling,poolingless]
    rfl
  refine bind_ok.mpr ⟨_,text,bind_ok.mpr ⟨_,parsed,bind_ok.mpr ⟨_,mapError_ok.mpr weights,bind_ok.mpr ⟨(),rfl,?_⟩⟩⟩⟩
  refine bind_ok.mpr ⟨(),rfl,bind_ok.mpr ⟨(none,none),?_,bind_ok.mpr ⟨_,mapError_ok.mpr tokenizer,?_⟩⟩⟩
  · rw [labels]
    rfl
  · exact bind_ok.mpr ⟨(),rfl,bind_ok.mpr ⟨(),unchecked,rfl⟩⟩

theorem legacy_required : modelcarRequiredFiles (legacyFiles dir [1]) dir = core := by
  rcases here with rfl | rfl <;> rfl

theorem legacy_present {f : String} (inside : f ∈ core) : isFile (legacyFiles dir [1]) (join dir f) = true ∧
    content (legacyFiles dir [1]) dir f = some (if f = "config.json" then utf8 legacyConfig else [1]) := by
  simp only [core,List.mem_cons,List.not_mem_nil,or_false] at inside
  rcases inside with rfl | rfl | rfl <;> rcases here with rfl | rfl <;> exact ⟨rfl,rfl⟩

theorem legacy_ready (blake3 : List UInt8 → Vector UInt8 32) : ∃ classifier, loadAndWarmModelcar legacyCrates
    showPath blake3 (Ieee ℚ) (legacyFiles dir [1]) dir (.ok simpleDefinition) = .ok classifier := by
  have anchors : embedAnchors simpleDefinition legacyEmbedder = .ok [⟨"SIMPLE",[[.finite 1]]⟩] := rfl
  obtain ⟨classifier,made⟩ : ∃ classifier, fromModelcarWith legacyCrates showPath blake3 (legacyFiles dir [1]) dir
      simpleDefinition = .ok classifier := by
    unfold fromModelcarWith withTaxonomyAndDigest
    rw [legacy_loaded here]
    simp only [anchors]
    exact ⟨_,rfl⟩
  refine ⟨classifier,loadAndWarm_iff.mpr ⟨simpleDefinition,rfl,made,?_,?_,?_,?_⟩⟩
  · rw [legacy_required here]
    exact fun f inside => (legacy_present here inside).1
  · rw [legacy_required here]
    exact fun f inside => Option.isSome_iff_exists.mpr ⟨_,(legacy_present here inside).2⟩
  · rcases here with rfl | rfl <;> rfl
  · have embedder := Except.ok.inj ((fromModelcarWith_parts made).1.symm.trans (legacy_loaded here))
    unfold CandleClassifier.embed
    rw [embedder]
    exact ⟨_,rfl⟩

end Legacy

theorem startup_gate_legacy : ∃ classifier digest, loadAndWarmModelcar legacyCrates showPath emptyHash (Ieee ℚ)
    (legacyFiles models [1]) models (.ok simpleDefinition) = .ok classifier ∧
      classifier.metadata.artifactDigest = some digest := by
  obtain ⟨_,_,digested⟩ := startup_gate legacyCrates showPath emptyHash (legacyFiles models [1]) models (Ieee ℚ)
    (.ok simpleDefinition)
  obtain ⟨classifier,ready⟩ := legacy_ready (.inl rfl) emptyHash
  obtain ⟨digest,carries,_⟩ := digested classifier ready
  exact ⟨classifier,digest,ready,carries⟩

end SemanticClassifier.Startup
