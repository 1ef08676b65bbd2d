import SemanticClassifier.Service
import SemanticClassifier.StartupGate

namespace SemanticClassifier.Startup
open Cache Candle Classify Floating Head Redis SemanticClassifier.Runtime TagIndex Taxonomy

-- The characters a digest is written in.
def digestAlphabet : List Char := "blake3:0123456789abcdef".toList

-- How an index has to read a digest: as it stands.
def Literal (rules : Rules Char) : Prop := ∀ c ∈ digestAlphabet, rules.blank c = false ∧ rules.lower c = [c]

theorem toHex_alphabet (hash : Vector UInt8 32) : ∀ c ∈ (toHex hash).toList, c ∈ digestAlphabet := by
  have digits : ∀ n < 16, hexDigit n ∈ digestAlphabet := by decide
  intro c inside
  rw [toHex,String.toList_ofList] at inside
  obtain ⟨b,_,digit⟩ := List.mem_flatMap.mp inside
  have bound := b.toNat_lt
  rcases List.mem_cons.mp digit with rfl | rest
  · exact digits _ (by omega)
  · rw [List.mem_singleton.mp rest]
    exact digits _ (by omega)

-- A replica that reports ready: what it was started from, and its classifier.
structure Replica {β μ ω ν τ φ : Type} (crates : Crates β μ ω ν τ φ) (display : PathBuf → String)
    (blake3 : List UInt8 → Vector UInt8 32) (σ : Type) [Floating φ] [Floating σ] [Widening φ σ] where
  files : Snapshot
  dir : PathBuf
  environment : Except String ValidDefinition
  classifier : CandleClassifier φ
  ready : loadAndWarmModelcar crates display blake3 σ files dir environment = .ok classifier

section Fleet
variable {β μ ω ν τ φ σ : Type} [Floating φ] [Floating σ] [Widening φ σ] {crates : Crates β μ ω ν τ φ}
  {display : PathBuf → String} {blake3 : List UInt8 → Vector UInt8 32}

namespace Replica

def required (replica : Replica crates display blake3 σ) : List String :=
  modelcarRequiredFiles replica.files replica.dir

def tag (replica : Replica crates display blake3 σ) : String :=
  Service.identityTag replica.classifier.metadata.cacheIdentity

def held (replica : Replica crates display blake3 σ) : List (String × List UInt8) :=
  contents replica.files replica.dir replica.required

-- All that its digest has fed to the hash.
def Hashed (hashed : Set (List UInt8)) (replica : Replica crates display blake3 σ) : Prop :=
  (∀ p ∈ replica.held, p.2 ∈ hashed) ∧ combined (hashes blake3 replica.held) ∈ hashed

-- The same bytes under the same names, and the same model made of them.
structure Alike (one two : Replica crates display blake3 σ) : Prop where
  required : one.required = two.required
  contents : ∀ name ∈ one.required, content one.files one.dir name = content two.files two.dir name
  embedder : one.classifier.embedder = two.classifier.embedder
  classifier : one.environment = two.environment → one.classifier = two.classifier

theorem readable (replica : Replica crates display blake3 σ) :
    ∀ f ∈ replica.required, Readable replica.files replica.dir f := by
  obtain ⟨_,_,_,_,readable,_⟩ := loadAndWarm_iff.mp replica.ready
  exact readable

theorem digested (replica : Replica crates display blake3 σ) : replica.classifier.metadata.artifactDigest =
    some ("blake3:" ++ toHex (blake3 (combined (hashes blake3 replica.held)))) := by
  obtain ⟨_,_,made,_⟩ := loadAndWarm_iff.mp replica.ready
  rw [(fromModelcarWith_parts made).2.1]
  exact congrArg Except.toOption (modelcarDigest_readable replica.readable)

theorem tag_made (replica : Replica crates display blake3 σ) {definition : ValidDefinition}
    (chosen : replica.environment = .ok definition) : replica.tag = Service.identityTag
      (definition.classifierId,definition.modelRevision,definition.modelRevision,definition.taxonomyRevision,
        some ("blake3:" ++ toHex (blake3 (combined (hashes blake3 replica.held))))) := by
  have digest := replica.digested
  obtain ⟨_,same,made,_⟩ := loadAndWarm_iff.mp replica.ready
  cases chosen.symm.trans same
  have parts := (fromModelcarWith_parts made).2.2
  rw [← (fromModelcarWith_parts made).2.1,digest] at parts
  unfold withTaxonomyAndDigest at parts
  split at parts
  · cases parts
  · rw [tag,← Except.ok.inj parts]
    rfl

theorem tag_ends (replica : Replica crates display blake3 σ) : ∃ front, replica.tag.toList =
    front ++ ("blake3:" ++ toHex (blake3 (combined (hashes blake3 replica.held)))).toList := by
  have digest : replica.classifier.metadata.cacheIdentity.2.2.2.2 = _ := replica.digested
  unfold tag Service.identityTag
  rw [digest]
  exact ⟨_,String.toList_append ..⟩

omit [Floating φ] [Floating σ] [Widening φ σ] in
theorem required_perm {files others : Snapshot} {dir place : PathBuf}
    (same : (modelcarRequiredFiles files dir).Perm (modelcarRequiredFiles others place)) :
    modelcarRequiredFiles files dir = modelcarRequiredFiles others place := by
  have sizes := same.length_eq
  unfold modelcarRequiredFiles at sizes ⊢
  split <;> rename_i one <;> split <;> rename_i two <;> simp [one,two,core,modelcarRequired] at sizes ⊢

theorem embedder_alike {one two : Replica crates display blake3 σ}
    (same : ∀ name ∈ core, content one.files one.dir name = content two.files two.dir name) :
    one.classifier.embedder = two.classifier.embedder := by
  obtain ⟨_,_,madeOne,_⟩ := loadAndWarm_iff.mp one.ready
  obtain ⟨_,_,madeTwo,_⟩ := loadAndWarm_iff.mp two.ready
  obtain ⟨first⟩ := load_parts (fromModelcarWith_parts madeOne).1
  obtain ⟨second⟩ := load_parts (fromModelcarWith_parts madeTwo).1
  have equal {name : String} {a b : List UInt8} (inside : name ∈ core)
      (left : read one.files (join one.dir name) = .ok a) (right : read two.files (join two.dir name) = .ok b) :
      a = b := by
    have here := same name inside
    rw [read_content.mp left,read_content.mp right] at here
    exact Option.some.inj here
  exact first.unique second (equal (by decide) first.configRead second.configRead)
    (equal (by decide) first.weightsRead second.weightsRead) (equal (by decide) first.fileRead second.fileRead)

-- Where the hash tells apart what was fed to it, a digest stands for one model.
theorem alike_of_digest {hashed : Set (List UInt8)} (free : Set.InjOn blake3 hashed)
    {one two : Replica crates display blake3 σ} (fedOne : one.Hashed hashed) (fedTwo : two.Hashed hashed)
    (same : blake3 (combined (hashes blake3 one.held)) = blake3 (combined (hashes blake3 two.held))) :
    Alike one two := by
  have named (replica : Replica crates display blake3 σ) : ∀ name ∈ replica.required, ':' ∉ name.toList := by
    have plain : ∀ name ∈ modelcarRequired, ':' ∉ name.toList := by decide
    intro name inside
    refine plain name ?_
    rcases modelcarRequired_mem.mp inside with basic | ⟨_,rfl⟩
    · exact (show core ⊆ modelcarRequired by decide) basic
    · decide
  have lines := free fedOne.2 fedTwo.2 same
  have listed : one.held.Perm two.held := hashes_perm free fedOne.1 fedTwo.1
    (combined_injective (hashes_clean (named one)) (hashes_clean (named two)) lines)
  obtain ⟨names,bytes⟩ := (contents_perm one.readable two.readable).mp listed
  have basic : ∀ name ∈ core, content one.files one.dir name = content two.files two.dir name :=
    fun name inside => bytes name (modelcarRequired_mem.mpr (.inl inside))
  have embedder := embedder_alike basic
  refine ⟨required_perm names,bytes,embedder,fun environment => ?_⟩
  obtain ⟨definition,chosen,madeOne,_⟩ := loadAndWarm_iff.mp one.ready
  obtain ⟨other,chosenToo,madeTwo,_⟩ := loadAndWarm_iff.mp two.ready
  rw [environment] at chosen
  cases chosen.symm.trans chosenToo
  have first := (fromModelcarWith_parts madeOne).2.2
  have second := (fromModelcarWith_parts madeTwo).2.2
  have digest : one.classifier.metadata.artifactDigest = two.classifier.metadata.artifactDigest := by
    rw [one.digested,two.digested,same]
  rw [← (fromModelcarWith_parts madeOne).2.1,embedder,digest] at first
  rw [← (fromModelcarWith_parts madeTwo).2.1] at second
  exact Except.ok.inj (first.symm.trans second)

end Replica

-- Replicas that file their results in one server: what one of them gets to
-- compare was filed by a replica of the same model, whatever has been filed,
-- has lapsed and is taken for one tag.
theorem candidates_one_model {hashed : Set (List UInt8)} (free : Set.InjOn blake3 hashed) {rules : Rules Char}
    (literal : Literal rules) (fleet : Set (Replica crates display blake3 σ))
    (fed : ∀ replica ∈ fleet, replica.Hashed hashed)
    (whole : ∀ replica ∈ fleet, rules.separator ∉ replica.tag.toList) (history : List Event)
    (members : ∀ tag blob payload, .insert .semantic tag blob payload ∈ history →
      ∃ replica ∈ fleet, replica.tag = tag)
    (one : Replica crates display blake3 σ) (asks : one ∈ fleet) (key : String) (hash : Hash)
    (seen : Kind.semantic.candidate rules (replay blake3 history) one.tag key = some hash) :
    ∃ two ∈ fleet, ∃ blob payload, .insert .semantic two.tag blob payload ∈ history ∧
      hash = Kind.semantic.hash two.tag blob payload ∧ Replica.Alike one two := by
  obtain ⟨stored,field,alike⟩ := candidate_parts seen
  obtain ⟨kind,tag,blob,payload,inserted,rfl⟩ := replay_source stored
  have semantic : kind = .semantic := by
    cases kind with
    | semantic => rfl
    | response => simp [Kind.hash,Kind.index] at field
  subst semantic
  obtain ⟨two,member,rfl⟩ := members tag blob payload inserted
  obtain ⟨front,first⟩ := one.tag_ends
  obtain ⟨back,second⟩ := two.tag_ends
  have plain (replica : Replica crates display blake3 σ) (c : Char)
      (inside : c ∈ ("blake3:" ++ toHex (blake3 (combined (hashes blake3 replica.held)))).toList) :
      c ∈ digestAlphabet := by
    rw [String.toList_append] at inside
    rcases List.mem_append.mp inside with label | digits
    · exact (show "blake3:".toList ⊆ digestAlphabet by decide) label
    · exact toHex_alphabet _ c digits
  have ends := matches_tail rules (whole two member) alike first second
    (by simp only [String.toList_append,List.length_append,toHex_length]) (by simp [String.toList_append])
    fun c inside => literal c (inside.elim (plain one c) (plain two c))
  rw [String.toList_append,String.toList_append] at ends
  have digests := toHex_injective (String.toList_inj.mp (List.append_cancel_left ends))
  exact ⟨two,member,blob,payload,inserted,rfl,
    Replica.alike_of_digest free (fed one asks) (fed two member) digests⟩

end Fleet

-- A hash that tells two contents apart from each other and from all else.
def paired (p q b : List UInt8) : Vector UInt8 32 :=
  .replicate 32 (if b = p then 1 else if b = q then 2 else 3)

theorem paired_injOn (p q r : List UInt8) : Set.InjOn (paired p q) {b | b = p ∨ b = q ∨ b = r} := by
  intro a one b two same
  have digit : (if a = p then (1 : UInt8) else if a = q then 2 else 3) =
      if b = p then 1 else if b = q then 2 else 3 := congrArg (fun hash => hash.get 0) same
  by_cases first : a = p <;> by_cases second : b = p
  · exact first.trans second.symm
  · rw [if_pos first,if_neg second] at digit
    split at digit <;> simp at digit
  · rw [if_neg first,if_pos second] at digit
    split at digit <;> simp at digit
  · rw [if_neg first,if_neg second] at digit
    rcases one with rfl | rfl | rfl
    · exact absurd rfl first
    · rcases two with rfl | rfl | rfl
      · exact absurd rfl second
      · rfl
      · by_contra other
        rw [if_pos rfl,if_neg (Ne.symm other)] at digit
        simp at digit
    · rcases two with rfl | rfl | rfl
      · exact absurd rfl second
      · by_contra other
        rw [if_neg other,if_pos rfl] at digit
        simp at digit
      · rfl

section Legacy

def legacyHash : List UInt8 → Vector UInt8 32 := paired [1] (utf8 legacyConfig)

abbrev LegacyReplica : Type := Replica legacyCrates showPath legacyHash (Ieee ℚ)

def legacyHeld : List (String × List UInt8) :=
  [("model.safetensors",[1]),("config.json",utf8 legacyConfig),("tokenizer.json",[1])]

variable {dir : PathBuf} (here : dir = models ∨ dir = mounted)
include here

theorem legacy_replica : ∃ replica : LegacyReplica, replica.dir = dir ∧ replica.held = legacyHeld ∧
    replica.environment = .ok simpleDefinition := by
  obtain ⟨classifier,ready⟩ := legacy_ready here legacyHash
  refine ⟨⟨_,_,_,classifier,ready⟩,rfl,?_,rfl⟩
  change contents (legacyFiles dir [1]) dir (modelcarRequiredFiles (legacyFiles dir [1]) dir) = _
  have has (f : String) (inside : f ∈ core) := (legacy_present here inside).2
  rw [legacy_required here,contents,core]
  simp [has "model.safetensors" (by decide),has "config.json" (by decide),
    has "tokenizer.json" (by decide),legacyHeld]

omit here in
theorem legacy_whole (replica : LegacyReplica) (chosen : replica.environment = .ok simpleDefinition) :
    ',' ∉ replica.tag.toList := by
  have plain : ',' ∉ digestAlphabet := by decide
  rw [replica.tag_made chosen]
  unfold Service.identityTag
  change ',' ∉ ("complexity" ++ "|" ++ "model-1" ++ "|" ++ "model-1" ++ "|" ++ "taxonomy-1" ++ "|" ++
    ("blake3:" ++ toHex _)).toList
  intro inside
  simp only [String.toList_append,List.mem_append] at inside
  rcases inside with fields | label | digits
  · exact absurd fields (by decide)
  · exact absurd label (by decide)
  · exact plain (toHex_alphabet _ _ digits)

end Legacy

theorem ascii_literal : Literal asciiRules := by
  have plain : digestAlphabet.all (fun c => !isWhitespace c && c.toLower == c) := by decide
  intro c inside
  have both := List.all_eq_true.mp plain c inside
  simp only [Bool.and_eq_true,Bool.not_eq_true',beq_iff_eq] at both
  exact ⟨both.1,congrArg (fun c => [c]) both.2⟩

theorem legacy_hashed (replica : LegacyReplica) (holds : replica.held = legacyHeld) : replica.Hashed
    {b | b = [1] ∨ b = utf8 legacyConfig ∨ b = combined (hashes legacyHash legacyHeld)} := by
  rw [Replica.Hashed,holds]
  exact ⟨by simp [legacyHeld],.inr (.inr rfl)⟩

theorem candidates_one_model_two : ∃ one two : LegacyReplica, one.dir = models ∧ two.dir = mounted ∧
    Kind.semantic.candidate asciiRules (replay legacyHash [.insert .semantic two.tag [] "result"]) one.tag
      (Kind.semantic.key legacyHash two.tag []) = some (Kind.semantic.hash two.tag [] "result") ∧
    ∃ three ∈ ({one,two} : Set LegacyReplica), one.Alike three := by
  obtain ⟨one,first,heldOne,chosenOne⟩ := legacy_replica (.inl rfl)
  obtain ⟨two,second,heldTwo,chosenTwo⟩ := legacy_replica (.inr rfl)
  have tags : one.tag = two.tag := by rw [one.tag_made chosenOne,two.tag_made chosenTwo,heldOne,heldTwo]
  have standing : Standing legacyHash [.insert .semantic two.tag [] "result"] .semantic two.tag [] "result" :=
    ⟨[],[],rfl,by simp,by simp⟩
  have own : asciiRules.Matches one.tag.toList two.tag.toList :=
    tags ▸ (matches_self asciiRules one.tag.toList).mpr (legacy_whole one chosenOne)
  have seen := (candidate_iff asciiRules standing).mpr ⟨rfl,own⟩
  have fed : ∀ replica ∈ ({one,two} : Set LegacyReplica), replica.Hashed
      {b | b = [1] ∨ b = utf8 legacyConfig ∨ b = combined (hashes legacyHash legacyHeld)} := by
    rintro replica (rfl | rfl)
    · exact legacy_hashed _ heldOne
    · exact legacy_hashed _ heldTwo
  have whole : ∀ replica ∈ ({one,two} : Set LegacyReplica), asciiRules.separator ∉ replica.tag.toList := by
    rintro replica (rfl | rfl)
    · exact legacy_whole _ chosenOne
    · exact legacy_whole _ chosenTwo
  have members : ∀ tag blob payload, .insert .semantic tag blob payload ∈
      [Event.insert .semantic two.tag [] "result"] → ∃ replica ∈ ({one,two} : Set LegacyReplica), replica.tag = tag := by
    intro tag blob payload inside
    cases List.mem_singleton.mp inside
    exact ⟨two,.inr rfl,rfl⟩
  obtain ⟨three,member,_,_,_,_,alike⟩ := candidates_one_model
    (paired_injOn [1] (utf8 legacyConfig) (combined (hashes legacyHash legacyHeld)))
    ascii_literal {one,two} fed whole _ members one (.inl rfl) _ _ seen
  exact ⟨one,two,first,second,seen,three,member,alike⟩

end SemanticClassifier.Startup
