import Mathlib.Data.List.Induction
import SemanticClassifier.CacheKey
import SemanticClassifier.Library.Escaping
import SemanticClassifier.Library.TagIndex

namespace SemanticClassifier.Redis
open Escaping TagIndex

-- What FT.CREATE declares: the hashes under `keyPrefix` are indexed by the TAG
-- field, with neither SEPARATOR nor CASESENSITIVE.
structure Index where
  name : String
  keyPrefix : String
  tagField : String
  deriving DecidableEq

-- The fields one HSET writes.
structure Hash where
  tagField : String
  tag : String
  payload : String
  vec : List UInt8
  deriving DecidableEq

structure Server where
  indexes : List Index
  hashes : String → Option Hash

def empty : Server := ⟨[],fun _ => none⟩

def ftCreate (index : Index) (s : Server) : Server :=
  if index.name ∈ s.indexes.map (·.name) then s else {s with indexes := index :: s.indexes}

def hset (key : String) (hash : Hash) (s : Server) : Server :=
  {s with hashes := Function.update s.hashes key (some hash)}

-- The time to live that EXPIRE set has run out.
def lapse (key : String) (s : Server) : Server :=
  {s with hashes := Function.update s.hashes key none}

-- A whole query `(@field:{value})…`: the field of its tag clause, the value
-- without its marks, and what comes behind the clause.
def readQuery (query : List Char) : Option (List Char × List Char × List Char) :=
  match query with
  | '(' :: '@' :: rest =>
    match rest.dropWhile (· ≠ ':') with
    | ':' :: '{' :: body => (readTo '\\' '}' body).map fun read => (rest.takeWhile (· ≠ ':'),read)
    | _ => none
  | _ => none

-- The hash under a key, if the query's tag clause lets it through to the KNN.
def ftSearch (rules : Rules Char) (s : Server) (name query key : String) : Option Hash :=
  match s.indexes.find? (·.name = name),readQuery query.toList,s.hashes key with
  | some index,some (field,value,_),some hash =>
    if index.tagField.toList = field ∧ index.keyPrefix.toList <+: key.toList ∧
        hash.tagField = index.tagField ∧ rules.Matches value hash.tag.toList then some hash
    else none
  | _,_,_ => none

-- `RedisSemanticCache` and `RedisResponseCache`.
inductive Kind where
  | semantic | response
  deriving DecidableEq

def indexName : String := "sc_semantic_idx"

def respIndexName : String := "resp_semantic_idx"

def Kind.index : Kind → Index
  | .semantic => ⟨indexName,"sc:","identity"⟩
  | .response => ⟨respIndexName,"resp:","model"⟩

-- Both caches have the same one.
def escapeTagValue (value : String) : String :=
  String.ofList (escape (fun c => c.isAlphanum || c = '_') '\\' value.toList)

example : escapeTagValue "complexity|m-1.0|t|x" = "complexity\\|m\\-1\\.0\\|t\\|x" := by decide

def hexDigit (n : Nat) : Char := "0123456789abcdef".toList.getD n '0'

def toHex (hash : Vector UInt8 32) : String :=
  String.ofList (hash.toList.flatMap fun b => [hexDigit (b.toNat / 16),hexDigit (b.toNat % 16)])

section Caches
variable (blake3 : List UInt8 → Vector UInt8 32)

def Kind.key (kind : Kind) (tag : String) (blob : List UInt8) : String :=
  kind.index.keyPrefix ++ tag ++ ":" ++ toHex (blake3 blob)

def Kind.hash (kind : Kind) (tag : String) (blob : List UInt8) (payload : String) : Hash :=
  ⟨kind.index.tagField,tag,payload,blob⟩

-- What `insert` has the server do, at once or from the write-back worker.
def Kind.insert (kind : Kind) (tag : String) (blob : List UInt8) (payload : String) (s : Server) : Server :=
  hset (kind.key blake3 tag blob) (kind.hash tag blob payload) (ftCreate kind.index s)

def Kind.query (kind : Kind) (tag : String) : String :=
  "(@" ++ kind.index.tagField ++ ":\x7b" ++ escapeTagValue tag ++ "\x7d)=>[KNN 1 @vec $BLOB AS dist]"

-- What a lookup under `tag` gets to compare from the hash under `key`.
def Kind.candidate (kind : Kind) (rules : Rules Char) (s : Server) (tag key : String) : Option Hash :=
  ftSearch rules s kind.index.name (kind.query tag) key

inductive Event where
  | insert (kind : Kind) (tag : String) (blob : List UInt8) (payload : String)
  | lapse (key : String)

def apply (s : Server) : Event → Server
  | .insert kind tag blob payload => kind.insert blake3 tag blob payload s
  | .lapse key => lapse key s

def replay (history : List Event) : Server := history.foldl (apply blake3) empty

-- An entry written under its tag, and since then neither written again under
-- that tag nor expired.
def Standing (history : List Event) (kind : Kind) (tag : String) (blob : List UInt8) (payload : String) :
    Prop :=
  ∃ early late, history = early ++ .insert kind tag blob payload :: late ∧
    (∀ other text, .insert kind tag other text ∈ late →
      kind.key blake3 tag other ≠ kind.key blake3 tag blob) ∧
    .lapse (kind.key blake3 tag blob) ∉ late

end Caches

variable {blake3 : List UInt8 → Vector UInt8 32}

theorem escapeTagValue_read (value : String) (rest : List Char) :
    readTo '\\' '}' ((escapeTagValue value).toList ++ '}' :: rest) = some (value.toList,rest) := by
  rw [escapeTagValue,String.toList_ofList]
  exact readTo_escape (by decide) (by decide) (by decide) _ _

theorem readQuery_query (kind : Kind) (tag : String) : readQuery (kind.query tag).toList =
    some (kind.index.tagField.toList,tag.toList,")=>[KNN 1 @vec $BLOB AS dist]".toList) := by
  cases kind <;> simp [Kind.query,Kind.index,readQuery,String.toList_append,escapeTagValue_read]

theorem toHex_length (hash : Vector UInt8 32) : (toHex hash).toList.length = 64 := by
  simp [toHex,List.length_flatMap]

-- A key names the cache and the tag it was written under.
theorem key_tag {kind other : Kind} {a b : String} {x y : List UInt8}
    (same : kind.key blake3 a x = other.key blake3 b y) : kind = other ∧ a = b := by
  have chars := congrArg String.toList same
  simp only [Kind.key,String.toList_append,List.append_assoc] at chars
  have kinds : kind = other := by
    cases kind <;> cases other <;> simp [Kind.index] at chars ⊢
  subst kinds
  have texts := List.append_cancel_left chars
  have sizes : (":".toList ++ (toHex (blake3 x)).toList).length =
      (":".toList ++ (toHex (blake3 y)).toList).length := by
    simp only [List.length_append,toHex_length]
  exact ⟨rfl,String.toList_inj.mp (List.append_inj' texts sizes).1⟩

theorem replay_snoc (history : List Event) (event : Event) :
    replay blake3 (history ++ [event]) = apply blake3 (replay blake3 history) event := by
  simp [replay]

theorem ftCreate_hashes (index : Index) (s : Server) : (ftCreate index s).hashes = s.hashes := by
  unfold ftCreate
  split <;> rfl

theorem insert_hashes (kind : Kind) (tag : String) (blob : List UInt8) (payload : String) (s : Server) :
    (kind.insert blake3 tag blob payload s).hashes =
      Function.update s.hashes (kind.key blake3 tag blob) (some (kind.hash tag blob payload)) := by
  rw [Kind.insert,hset,ftCreate_hashes]

-- An event leaves alone what is not under its key.
theorem apply_other {s : Server} {event : Event} {key : String}
    (inserts : ∀ kind tag blob payload, event = .insert kind tag blob payload →
      kind.key blake3 tag blob ≠ key)
    (lapses : event ≠ .lapse key) : (apply blake3 s event).hashes key = s.hashes key := by
  cases event with
  | insert kind tag blob payload =>
      rw [apply,insert_hashes]
      exact Function.update_of_ne (inserts kind tag blob payload rfl).symm _ _
  | lapse other =>
      refine Function.update_of_ne ?_ _ _
      rintro rfl
      exact lapses rfl

-- No other tag and no other cache writes over an entry.
theorem standing_stored {history : List Event} {kind : Kind} {tag : String} {blob : List UInt8}
    {payload : String} (standing : Standing blake3 history kind tag blob payload) :
    (replay blake3 history).hashes (kind.key blake3 tag blob) = some (kind.hash tag blob payload) := by
  obtain ⟨early,late,rfl,rewritten,lapsed⟩ := standing
  induction late using List.reverseRecOn with
  | nil =>
      rw [replay_snoc,apply,insert_hashes,Function.update_self]
  | append_singleton late event ih =>
      rw [← List.cons_append,← List.append_assoc,replay_snoc,apply_other]
      · refine ih (fun other text inside => rewritten other text ?_) fun inside => lapsed ?_
        · exact List.mem_append_left _ inside
        · exact List.mem_append_left _ inside
      · intro also other content text equal same
        obtain ⟨rfl,rfl⟩ := key_tag same
        exact rewritten content text (by simp [equal]) same
      · intro equal
        exact lapsed (by simp [equal])

-- Whatever stands in the server has been inserted.
theorem replay_source {history : List Event} {key : String} {hash : Hash}
    (here : (replay blake3 history).hashes key = some hash) :
    ∃ kind tag blob payload, .insert kind tag blob payload ∈ history ∧ hash = Kind.hash kind tag blob payload := by
  induction history using List.reverseRecOn with
  | nil => cases here
  | append_singleton history event ih =>
      rw [replay_snoc] at here
      have earlier (old : (replay blake3 history).hashes key = some hash) : ∃ kind tag blob payload,
          .insert kind tag blob payload ∈ history ++ [event] ∧ hash = Kind.hash kind tag blob payload := by
        obtain ⟨kind,tag,blob,payload,inside,same⟩ := ih old
        exact ⟨kind,tag,blob,payload,List.mem_append_left _ inside,same⟩
      cases event with
      | insert kind tag blob payload =>
          rw [apply,insert_hashes] at here
          by_cases same : key = kind.key blake3 tag blob
          · rw [same,Function.update_self] at here
            exact ⟨kind,tag,blob,payload,by simp,(Option.some.inj here).symm⟩
          · rw [Function.update_of_ne same] at here
            exact earlier here
      | lapse gone =>
          change Function.update (replay blake3 history).hashes gone none key = some hash at here
          by_cases same : key = gone
          · rw [same,Function.update_self] at here
            cases here
          · rw [Function.update_of_ne same] at here
            exact earlier here

-- The server has an index of one of the two names only as declared.
def Declared (s : Server) : Prop := ∀ index ∈ s.indexes, ∃ kind : Kind, index = kind.index

theorem ftCreate_subset (index : Index) (s : Server) : s.indexes ⊆ (ftCreate index s).indexes := by
  unfold ftCreate
  split
  · exact fun _ inside => inside
  · exact fun _ inside => List.mem_cons_of_mem _ inside

theorem apply_declared {s : Server} (declared : Declared s) (event : Event) :
    Declared (apply blake3 s event) := by
  cases event with
  | lapse key => exact declared
  | insert kind tag blob payload =>
      intro index inside
      simp only [apply,Kind.insert,hset,ftCreate] at inside
      split at inside
      · exact declared index inside
      · rcases List.mem_cons.mp inside with rfl | old
        · exact ⟨kind,rfl⟩
        · exact declared index old

theorem replay_declared (history : List Event) : Declared (replay blake3 history) := by
  induction history using List.reverseRecOn with
  | nil => exact fun _ inside => absurd inside List.not_mem_nil
  | append_singleton history event ih =>
      rw [replay_snoc]
      exact apply_declared ih event

theorem index_of_name {kind other : Kind} (same : kind.index.name = other.index.name) : kind = other := by
  cases kind <;> cases other <;> first | rfl | exact absurd same (by decide)

theorem Declared.find {s : Server} (declared : Declared s) {kind : Kind}
    (present : kind.index ∈ s.indexes) :
    s.indexes.find? (·.name = kind.index.name) = some kind.index := by
  cases found : s.indexes.find? (·.name = kind.index.name) with
  | none => exact absurd (List.find?_eq_none.mp found _ present) (by simp)
  | some index =>
      obtain ⟨other,rfl⟩ := declared index (List.mem_of_find?_eq_some found)
      have same : other = kind := index_of_name (by simpa using List.find?_some found)
      rw [same]

theorem insert_present (kind : Kind) (tag : String) (blob : List UInt8) (payload : String) {s : Server}
    (declared : Declared s) : kind.index ∈ (kind.insert blake3 tag blob payload s).indexes := by
  simp only [Kind.insert,hset,ftCreate]
  split
  · rename_i named
    obtain ⟨index,inside,same⟩ := List.mem_map.mp named
    obtain ⟨other,rfl⟩ := declared index inside
    rwa [index_of_name same] at inside
  · exact List.mem_cons_self

theorem standing_present {history : List Event} {kind : Kind} {tag : String} {blob : List UInt8}
    {payload : String} (standing : Standing blake3 history kind tag blob payload) :
    kind.index ∈ (replay blake3 history).indexes := by
  obtain ⟨early,late,rfl,-,-⟩ := standing
  induction late using List.reverseRecOn with
  | nil =>
      rw [replay_snoc]
      exact insert_present kind tag blob payload (replay_declared early)
  | append_singleton late event ih =>
      rw [← List.cons_append,← List.append_assoc,replay_snoc]
      cases event with
      | lapse key => exact ih
      | insert other name content text => exact ftCreate_subset _ _ ih

theorem candidate_parts {rules : Rules Char} {s : Server} {kind : Kind} {tag key : String} {hash : Hash}
    (seen : kind.candidate rules s tag key = some hash) :
    s.hashes key = some hash ∧ hash.tagField = kind.index.tagField ∧ rules.Matches tag.toList hash.tag.toList := by
  unfold Kind.candidate ftSearch at seen
  rw [readQuery_query] at seen
  split at seen
  · rename_i index field value rest stored found clause here
    cases clause
    split at seen
    · rename_i passes
      cases seen
      exact ⟨here,passes.2.2.1.trans (String.toList_inj.mp passes.1),passes.2.2.2⟩
    · cases seen
  · cases seen

-- A lookup sees an entry if it asks the entry's own cache and the index takes
-- the two tags for one.
theorem candidate_iff {history : List Event} {kind other : Kind} {a b : String} {blob : List UInt8}
    {payload : String} (rules : Rules Char) (standing : Standing blake3 history other b blob payload) :
    kind.candidate rules (replay blake3 history) a (other.key blake3 b blob) =
        some (other.hash b blob payload) ↔
      kind = other ∧ rules.Matches a.toList b.toList := by
  have stored := standing_stored standing
  constructor
  · intro seen
    unfold Kind.candidate ftSearch at seen
    rw [readQuery_query,stored] at seen
    split at seen
    · rename_i index field value rest hash found clause here
      cases clause
      cases here
      split at seen
      · rename_i passes
        obtain ⟨also,rfl⟩ := replay_declared history index (List.mem_of_find?_eq_some found)
        have asked : also = kind := index_of_name (by simpa using List.find?_some found)
        subst asked
        refine ⟨?_,passes.2.2.2⟩
        have fields := passes.2.2.1
        cases also <;> cases other <;> first | rfl | exact absurd fields (by simp [Kind.hash,Kind.index])
      · cases seen
    · cases seen
  · rintro ⟨rfl,alike⟩
    have found := (replay_declared history).find (standing_present standing)
    have under : kind.index.keyPrefix.toList <+: (kind.key blake3 b blob).toList := by
      simp [Kind.key,String.toList_append]
    unfold Kind.candidate ftSearch
    rw [readQuery_query,stored,found]
    exact if_pos ⟨rfl,under,rfl,alike⟩

-- For all tags in use: whatever was inserted and has expired, a lookup has an
-- entry among its candidates if and only if it is of its own cache and tag.
def Isolated (rules : Rules Char) (blake3 : List UInt8 → Vector UInt8 32) (used : Kind → Set String) :
    Prop :=
  ∀ history other b blob payload,
    (∀ kind tag content text, .insert kind tag content text ∈ history → tag ∈ used kind) →
    Standing blake3 history other b blob payload → ∀ kind : Kind, ∀ a ∈ used kind,
      kind.candidate rules (replay blake3 history) a (other.key blake3 b blob) =
          some (other.hash b blob payload) ↔
        kind = other ∧ a = b

theorem standing_used {history : List Event} {kind : Kind} {tag : String} {blob : List UInt8}
    {payload : String} (standing : Standing blake3 history kind tag blob payload) :
    .insert kind tag blob payload ∈ history := by
  obtain ⟨early,late,rfl,-,-⟩ := standing
  simp

theorem standing_single (kind : Kind) (tag : String) :
    Standing blake3 [.insert kind tag [] ""] kind tag [] "" :=
  ⟨[],[],rfl,by simp,by simp⟩

theorem tags_isolated_iff (rules : Rules Char) (comma : rules.separator = ',')
    (blake3 : List UInt8 → Vector UInt8 32) (used : Kind → Set String) :
    Isolated rules blake3 used ↔ ∀ kind, (∀ tag ∈ used kind, ',' ∉ tag.toList) ∧
      Set.InjOn (fun tag => rules.normal tag.toList) (used kind) := by
  rw [← comma]
  constructor
  · intro isolated kind
    refine (exact_iff rules String.toList (used kind)).mp fun a one b two => ?_
    have seen := isolated [.insert kind b [] ""] kind b [] "" ?_ (standing_single kind b) kind a one
    · rw [candidate_iff rules (standing_single kind b)] at seen
      simpa using seen
    · intro other tag content text inside
      cases List.mem_singleton.mp inside
      exact two
  · intro condition history other b blob payload uses standing kind a one
    rw [candidate_iff rules standing]
    refine and_congr_right fun same => ?_
    subst same
    exact (exact_iff rules String.toList (used kind)).mpr (condition kind) a one b
      (uses _ _ _ _ (standing_used standing))

theorem toLower_comma (c : Char) : ',' = c.toLower ↔ c = ',' := by
  constructor
  · intro same
    unfold Char.toLower at same
    split at same
    · rename_i upper
      have low : 'A'.val.toNat ≤ c.val.toNat := UInt32.le_iff_toNat_le.mp upper.1
      have high : c.val.toNat ≤ 'Z'.val.toNat := UInt32.le_iff_toNat_le.mp upper.2
      have moved := congrArg (fun c : Char => c.val.toNat) same
      simp only [UInt32.toNat_add] at moved low high
      simp at moved low high
      omega
    · exact same.symm
  · rintro rfl
    rfl

-- Blanks as Unicode has them, and the letters of ASCII lower-cased.
def asciiRules : Rules Char where
  separator := ','
  blank := Cache.isWhitespace
  lower := fun c => [c.toLower]
  separator_visible := by decide
  separator_lower := by simp [toLower_comma]

theorem tags_isolated_iff_pair : Isolated asciiRules (fun _ => Vector.replicate 32 0)
    (fun _ => {"m","n"}) := by
  refine (tags_isolated_iff asciiRules rfl _ _).mpr fun kind => ⟨?_,?_⟩
  · rintro tag (rfl | rfl) <;> decide
  · rintro a (rfl | rfl) b (rfl | rfl) same <;> first | rfl | exact absurd same (by decide)

-- A completion of the model `M` is found by a lookup for the model `m`.
theorem other_model_served : ¬ Isolated asciiRules (fun _ => Vector.replicate 32 0)
    (fun _ => Set.univ) := by
  intro isolated
  have seen := isolated [.insert .response "M" [] ""] .response "M" [] "" (fun _ _ _ _ _ => trivial)
    (standing_single .response "M") .response "m" trivial
  rw [candidate_iff asciiRules (standing_single .response "M")] at seen
  have found : asciiRules.Matches "m".toList "M".toList := by decide
  exact absurd (seen.mp ⟨rfl,found⟩).2 (by decide)

end SemanticClassifier.Redis
