import Mathlib.Data.List.Sort
import Mathlib.Data.Prod.Lex
import Mathlib.Data.String.Basic
import SemanticClassifier.RedisTags

namespace SemanticClassifier.Runtime
open Framing Cache Redis

-- The bytes of an `OsString`.
abbrev PathBuf := List UInt8

inductive FileType where
  | file | directory | other
  deriving DecidableEq

-- What the file system answers at one moment. An error is the text of the
-- `io::Error`; an open file holds what reading it to its end comes to.
structure Snapshot where
  metadata : PathBuf → Except String FileType
  openFile : PathBuf → Except String (Except String (List UInt8))

def separator : UInt8 := 0x2F

def join (dir : PathBuf) (name : String) : PathBuf :=
  let bytes := utf8 name
  if bytes.head? = some separator then bytes
  else if dir.getLast?.all (· = separator) then dir ++ bytes
  else dir ++ separator :: bytes

example : join (utf8 "/models") "config.json" = utf8 "/models/config.json" := by decide

section Digest
variable (display : PathBuf → String) (blake3 : List UInt8 → Vector UInt8 32)

def digestEntry (files : Snapshot) (dir : PathBuf) (name : String) : Except String (String × String) :=
  let path := join dir name
  match files.openFile path with
  | .error e => .error ("cannot read " ++ display path ++ " for digest: " ++ e)
  | .ok file =>
    match file with
    | .error e => .error ("cannot hash " ++ display path ++ ": " ++ e)
    | .ok content => .ok (name,toHex (blake3 content))

def entryLine (entry : String × String) : List UInt8 :=
  utf8 entry.1 ++ utf8 ":" ++ utf8 entry.2 ++ utf8 "\n"

-- What the second hasher is fed.
def combined (entries : List (String × String)) : List UInt8 :=
  (entries.mergeSort fun a b => decide (toLex a ≤ toLex b)).flatMap entryLine

def modelcarDigest (files : Snapshot) (dir : PathBuf) (requiredFiles : List String) :
    Except String String :=
  match requiredFiles.mapM (digestEntry display blake3 files dir) with
  | .error e => .error e
  | .ok entries => .ok ("blake3:" ++ toHex (blake3 (combined entries)))

end Digest

def content (files : Snapshot) (dir : PathBuf) (name : String) : Option (List UInt8) :=
  match files.openFile (join dir name) with
  | .ok (.ok content) => some content
  | _ => none

def Readable (files : Snapshot) (dir : PathBuf) (name : String) : Prop :=
  (content files dir name).isSome

-- What the required files hold, name by name.
def contents (files : Snapshot) (dir : PathBuf) (requiredFiles : List String) :
    List (String × List UInt8) :=
  requiredFiles.filterMap fun name => (content files dir name).map (name,·)

def hashes (blake3 : List UInt8 → Vector UInt8 32) (held : List (String × List UInt8)) :
    List (String × String) :=
  held.map fun p => (p.1,toHex (blake3 p.2))

variable {display : PathBuf → String} {blake3 : List UInt8 → Vector UInt8 32}
variable {files : Snapshot} {dir : PathBuf} {requiredFiles : List String}

theorem hexDigit_injective : ∀ m < 16, ∀ n < 16, hexDigit m = hexDigit n → m = n := by decide

theorem hexDigit_plain : ∀ n < 16, hexDigit n ≠ '\n' := by decide

def hexByte (b : UInt8) : List Char := [hexDigit (b.toNat / 16),hexDigit (b.toNat % 16)]

theorem hexByte_injective (a b : UInt8) (same : hexByte a = hexByte b) : a = b := by
  obtain ⟨high,rest⟩ := List.cons.inj same
  have low := (List.cons.inj rest).1
  have boundA := a.toNat_lt
  have boundB := b.toNat_lt
  have highs := hexDigit_injective _ (by omega) _ (by omega) high
  have lows := hexDigit_injective _ (by omega) _ (by omega) low
  apply UInt8.toNat_inj.mp
  omega

theorem toHex_injective {a b : Vector UInt8 32} (same : toHex a = toHex b) : a = b := by
  have wide (b : UInt8) : (hexByte b).length = 2 := rfl
  have framed : SelfDelimiting (fun _ => True) hexByte := fixedWidth wide hexByte_injective
  have chars := String.ofList_injective same
  exact Vector.toList_inj.mp (framed.sequence (fun _ => List.cons_ne_nil _ _) (by simp) (by simp) chars)

theorem toHex_plain (hash : Vector UInt8 32) : '\n' ∉ (toHex hash).toList := by
  rw [toHex,String.toList_ofList]
  intro inside
  obtain ⟨b,_,digit⟩ := List.mem_flatMap.mp inside
  have bound := b.toNat_lt
  rcases List.mem_cons.mp digit with same | rest
  · exact hexDigit_plain _ (by omega) same.symm
  · exact hexDigit_plain _ (by omega) (List.mem_singleton.mp rest).symm

theorem utf8_append (a b : String) : utf8 (a ++ b) = utf8 a ++ utf8 b := by
  simp [utf8,String.toByteArray_append]

-- A line in characters.
def lineChars (entry : String × String) : List Char :=
  (entry.1.toList ++ [':']) ++ (entry.2.toList ++ ['\n'])

theorem lines_utf8 (entries : List (String × String)) :
    entries.flatMap entryLine = utf8 (String.ofList (entries.flatMap lineChars)) := by
  induction entries with
  | nil => rfl
  | cons entry rest ih =>
      have line : entryLine entry = utf8 (String.ofList (lineChars entry)) := by
        rw [entryLine,← utf8_append,← utf8_append,← utf8_append]
        refine congrArg utf8 (String.toList_injective ?_)
        simp [lineChars,String.toList_append]
      rw [List.flatMap_cons,List.flatMap_cons,ih,line,← utf8_append]
      refine congrArg utf8 (String.toList_injective ?_)
      simp [String.toList_append]

theorem lineChars_delimiting :
    SelfDelimiting (fun entry : String × String => ':' ∉ entry.1.toList ∧ '\n' ∉ entry.2.toList)
      lineChars :=
  (terminated fun _ _ => String.toList_injective).both (terminated fun _ _ => String.toList_injective)

-- The order of the list does not show.
theorem combined_perm {a b : List (String × String)} (same : a.Perm b) : combined a = combined b := by
  have sorted (entries : List (String × String)) :
      (entries.mergeSort fun a b => decide (toLex a ≤ toLex b)).Pairwise
        fun a b => decide (toLex a ≤ toLex b) = true :=
    List.pairwise_mergeSort (by simpa using fun _ _ _ _ _ _ => le_trans)
      (by simpa using fun _ _ _ _ => le_total _ _) entries
  have equal := ((List.mergeSort_perm a _).trans (same.trans (List.mergeSort_perm b _).symm)).eq_of_pairwise
    ?_ (sorted a) (sorted b)
  · rw [combined,equal,combined]
  · intro x y _ _ below above
    exact toLex.injective (le_antisymm (of_decide_eq_true below) (of_decide_eq_true above))

def Clean (entry : String × String) : Prop := ':' ∉ entry.1.toList ∧ '\n' ∉ entry.2.toList

theorem combined_injective {a b : List (String × String)} (one : ∀ entry ∈ a, Clean entry)
    (two : ∀ entry ∈ b, Clean entry) (same : combined a = combined b) : a.Perm b := by
  rw [combined,combined,lines_utf8,lines_utf8] at same
  have visible (entry : String × String) : lineChars entry ≠ [] := by simp [lineChars]
  have sorted := lineChars_delimiting.sequence visible
    (fun entry inside => one entry (List.mem_mergeSort.mp inside))
    (fun entry inside => two entry (List.mem_mergeSort.mp inside))
    (String.ofList_injective (utf8_injective same))
  exact (List.mergeSort_perm a _).symm.trans (sorted ▸ List.mergeSort_perm b _)

theorem digestEntry_readable (held : content files dir name = some bytes) :
    digestEntry display blake3 files dir name = .ok (name,toHex (blake3 bytes)) := by
  unfold content at held
  split at held
  · rename_i content opened
    cases held
    simp only [digestEntry,opened]
  · cases held

variable (display blake3) in
theorem digestEntry_unreadable (missing : ¬ Readable files dir name) :
    ∃ e, digestEntry display blake3 files dir name = .error e := by
  cases opened : files.openFile (join dir name) with
  | error e => exact ⟨_,by simp only [digestEntry,opened]; rfl⟩
  | ok file =>
      cases file with
      | error e => exact ⟨_,by simp only [digestEntry,opened]; rfl⟩
      | ok bytes => exact absurd (by simp [Readable,content,opened]) missing

theorem entries_readable (readable : ∀ name ∈ requiredFiles, Readable files dir name) :
    requiredFiles.mapM (digestEntry display blake3 files dir) =
      .ok (hashes blake3 (contents files dir requiredFiles)) := by
  induction requiredFiles with
  | nil => rfl
  | cons name rest ih =>
      obtain ⟨bytes,held⟩ := Option.isSome_iff_exists.mp (readable name (by simp))
      rw [List.mapM_cons,digestEntry_readable held,ih fun n inside => readable n (by simp [inside])]
      simp [contents,hashes,held]
      rfl

variable (display blake3) in
theorem entries_unreadable (inside : name ∈ requiredFiles) (missing : ¬ Readable files dir name) :
    ∃ e, requiredFiles.mapM (digestEntry display blake3 files dir) = .error e := by
  induction requiredFiles with
  | nil => cases inside
  | cons first rest ih =>
      rw [List.mapM_cons]
      cases entry : digestEntry display blake3 files dir first with
      | error e => exact ⟨e,rfl⟩
      | ok row =>
          rcases List.mem_cons.mp inside with rfl | later
          · obtain ⟨e,failed⟩ := digestEntry_unreadable display blake3 missing
            rw [entry] at failed
            cases failed
          · obtain ⟨e,failed⟩ := ih later
            rw [failed]
            exact ⟨e,rfl⟩

theorem modelcarDigest_readable (readable : ∀ name ∈ requiredFiles, Readable files dir name) :
    modelcarDigest display blake3 files dir requiredFiles =
      .ok ("blake3:" ++ toHex (blake3 (combined (hashes blake3 (contents files dir requiredFiles))))) := by
  rw [modelcarDigest,entries_readable readable]

theorem modelcarDigest_fails : (∃ e, modelcarDigest display blake3 files dir requiredFiles = .error e) ↔
    ∃ name ∈ requiredFiles, ¬ Readable files dir name := by
  constructor
  · intro failed
    by_contra all
    obtain ⟨e,failed⟩ := failed
    rw [modelcarDigest_readable fun name inside => by_contra fun missing => all ⟨name,inside,missing⟩] at failed
    cases failed
  · intro unreadable
    obtain ⟨name,inside,missing⟩ := unreadable
    obtain ⟨e,failed⟩ := entries_unreadable display blake3 inside missing
    exact ⟨e,by rw [modelcarDigest,failed]⟩

-- A call whose required names leave the line format unambiguous (the newline
-- behind the digits is already harmless), with all it hashes in `hashed`.
structure Digestible (blake3 : List UInt8 → Vector UInt8 32) (hashed : Set (List UInt8))
    (files : Snapshot) (dir : PathBuf) (requiredFiles : List String) : Prop where
  named : ∀ name ∈ requiredFiles, ':' ∉ name.toList
  readable : ∀ name ∈ requiredFiles, Readable files dir name
  held : ∀ p ∈ contents files dir requiredFiles, p.2 ∈ hashed
  lines : combined (hashes blake3 (contents files dir requiredFiles)) ∈ hashed

theorem mem_contents : (name,bytes) ∈ contents files dir requiredFiles ↔
    name ∈ requiredFiles ∧ content files dir name = some bytes := by
  simp only [contents,List.mem_filterMap,Option.map_eq_some_iff,Prod.mk.injEq]
  constructor
  · intro found
    obtain ⟨_,inside,_,held,rfl,rfl⟩ := found
    exact ⟨inside,held⟩
  · intro found
    exact ⟨name,found.1,bytes,found.2,rfl,rfl⟩

theorem contents_names (readable : ∀ name ∈ requiredFiles, Readable files dir name) :
    (contents files dir requiredFiles).map Prod.fst = requiredFiles := by
  induction requiredFiles with
  | nil => rfl
  | cons name rest ih =>
      obtain ⟨bytes,held⟩ := Option.isSome_iff_exists.mp (readable name (by simp))
      have tail := ih fun n inside => readable n (by simp [inside])
      simp only [contents] at tail
      simp [contents,held,tail]

theorem hashes_clean (named : ∀ name ∈ requiredFiles, ':' ∉ name.toList) :
    ∀ entry ∈ hashes blake3 (contents files dir requiredFiles), Clean entry := by
  intro entry inside
  obtain ⟨pair,held,rfl⟩ := List.mem_map.mp inside
  exact ⟨named _ (mem_contents.mp held).1,toHex_plain _⟩

theorem hashes_perm {hashed : Set (List UInt8)} (free : Set.InjOn blake3 hashed)
    {a b : List (String × List UInt8)} (one : ∀ p ∈ a, p.2 ∈ hashed) (two : ∀ p ∈ b, p.2 ∈ hashed)
    (same : (hashes blake3 a).Perm (hashes blake3 b)) : a.Perm b := by
  induction a generalizing b with
  | nil =>
      rw [hashes,List.map_nil] at same
      rw [List.map_eq_nil_iff.mp same.nil_eq.symm]
  | cons p rest ih =>
      have there : (p.1,toHex (blake3 p.2)) ∈ hashes blake3 b := same.subset (List.mem_cons_self ..)
      obtain ⟨q,inside,equal⟩ := List.mem_map.mp there
      have paired : q = p :=
        Prod.ext (Prod.mk.inj equal).1
          (free (two q inside) (one p (by simp)) (toHex_injective (Prod.mk.inj equal).2))
      subst paired
      obtain ⟨front,back,rfl⟩ := List.append_of_mem inside
      have moved : (front ++ q :: back).Perm (q :: (front ++ back)) := List.perm_middle
      have smaller : (hashes blake3 rest).Perm (hashes blake3 (front ++ back)) :=
        (same.trans (moved.map _)).cons_inv
      have within : ∀ p ∈ front ++ back, p.2 ∈ hashed := fun p old => two p (moved.symm.subset (by simp [old]))
      exact ((ih (fun p old => one p (by simp [old])) within smaller).cons q).trans moved.symm

-- No required file edited, renamed, added or removed.
theorem contents_perm {other : Snapshot} {place : PathBuf} {names : List String}
    (one : ∀ name ∈ requiredFiles, Readable files dir name) (two : ∀ name ∈ names, Readable other place name) :
    (contents files dir requiredFiles).Perm (contents other place names) ↔
      requiredFiles.Perm names ∧ ∀ name ∈ requiredFiles, content files dir name = content other place name := by
  constructor
  · intro same
    refine ⟨?_,?_⟩
    · have listed := same.map Prod.fst
      rwa [contents_names one,contents_names two] at listed
    · intro name inside
      obtain ⟨bytes,held⟩ := Option.isSome_iff_exists.mp (one name inside)
      rw [held,(mem_contents.mp (same.subset (mem_contents.mpr ⟨inside,held⟩))).2]
  · intro same
    have equal : contents files dir requiredFiles = contents other place requiredFiles :=
      List.filterMap_congr fun name inside => by rw [same.2 name inside]
    rw [equal]
    exact same.1.filterMap _

theorem modelcarDigest_perm {shuffled : List String} (readable : ∀ name ∈ requiredFiles, Readable files dir name)
    (same : requiredFiles.Perm shuffled) :
    modelcarDigest display blake3 files dir requiredFiles = modelcarDigest display blake3 files dir shuffled := by
  have sorted : (hashes blake3 (contents files dir requiredFiles)).Perm
      (hashes blake3 (contents files dir shuffled)) := (same.filterMap _).map _
  rw [modelcarDigest_readable readable,combined_perm sorted,
    modelcarDigest_readable fun name inside => readable name (same.symm.subset inside)]

variable (display) in
-- Where the hash tells apart what two calls feed it, so do their digests tell
-- apart what the required files hold.
theorem modelcarDigest_identity {hashed : Set (List UInt8)} {other : Snapshot} {place : PathBuf}
    {names : List String} (free : Set.InjOn blake3 hashed)
    (one : Digestible blake3 hashed files dir requiredFiles) (two : Digestible blake3 hashed other place names) :
    (modelcarDigest display blake3 files dir requiredFiles = modelcarDigest display blake3 other place names ↔
      (contents files dir requiredFiles).Perm (contents other place names)) ∧
    ((contents files dir requiredFiles).Perm (contents other place names) ↔
      requiredFiles.Perm names ∧ ∀ name ∈ requiredFiles, content files dir name = content other place name) ∧
    (∀ shuffled, requiredFiles.Perm shuffled → modelcarDigest display blake3 files dir requiredFiles =
      modelcarDigest display blake3 files dir shuffled) ∧
    ∀ (s : Snapshot) (d : PathBuf) (required : List String),
      (∃ e, modelcarDigest display blake3 s d required = .error e) ↔ ∃ name ∈ required, ¬ Readable s d name := by
  refine ⟨?_,contents_perm one.readable two.readable,fun _ => modelcarDigest_perm one.readable,
    fun _ _ _ => modelcarDigest_fails⟩
  rw [modelcarDigest_readable one.readable,modelcarDigest_readable two.readable]
  constructor
  · intro same
    have summed := toHex_injective (String.append_right_inj _ |>.mp (Except.ok.inj same))
    have lines := free one.lines two.lines summed
    exact hashes_perm free one.held two.held
      (combined_injective (hashes_clean one.named) (hashes_clean two.named) lines)
  · intro same
    have hashed : (hashes blake3 (contents files dir requiredFiles)).Perm
        (hashes blake3 (contents other place names)) := same.map _
    rw [combined_perm hashed]

-- One required file, before and after an edit.
def holding (bytes : List UInt8) : Snapshot where
  metadata _ := .ok .file
  openFile _ := .ok (.ok bytes)

def editedStreams : List (List UInt8) :=
  [utf8 "x",utf8 "y",
    utf8 "a:3ae7d805f6789a6402acb70ad4096a85a56bf6804eaf25c0493ac697548d30b5\n",
    utf8 "a:08112a9e334ce73042b531c25668cf5cb12a1ee040a4326afeac065461079a06\n"]

-- The hash's own values on these streams.
def editedHash (bytes : List UInt8) : Vector UInt8 32 :=
  if bytes = utf8 "x" then
    ⟨#[58,231,216,5,246,120,154,100,2,172,183,10,212,9,106,133,
      165,107,246,128,78,175,37,192,73,58,198,151,84,141,48,181],rfl⟩
  else if bytes = utf8 "y" then
    ⟨#[8,17,42,158,51,76,231,48,66,181,49,194,86,104,207,92,
      177,42,30,224,64,164,50,106,254,172,6,84,97,7,154,6],rfl⟩
  else if bytes = utf8 "a:3ae7d805f6789a6402acb70ad4096a85a56bf6804eaf25c0493ac697548d30b5\n" then
    ⟨#[216,75,212,243,122,227,9,212,101,144,68,25,173,26,178,128,
      24,217,34,84,19,26,111,244,191,212,144,82,164,236,104,52],rfl⟩
  else
    ⟨#[174,193,146,20,105,73,47,178,74,241,192,213,124,207,54,204,
      191,81,139,118,232,204,63,71,81,70,231,27,103,174,204,85],rfl⟩

theorem editedHash_injOn : Set.InjOn editedHash {bytes | bytes ∈ editedStreams} := by
  have apart : (editedStreams.map editedHash).Nodup := by decide
  intro x inX y inY same
  exact List.inj_on_of_nodup_map apart inX inY same

theorem holding_digestible (bytes : List UInt8) (inside : bytes ∈ editedStreams)
    (lines : entryLine ("a",toHex (editedHash bytes)) ∈ editedStreams) :
    Digestible editedHash {bytes | bytes ∈ editedStreams} (holding bytes) (utf8 "/models") ["a"] := by
  refine ⟨by decide,by simp [Readable,content,holding],?_,?_⟩
  · simpa [contents,content,holding] using inside
  · simpa [combined,hashes,contents,content,holding] using lines

theorem modelcarDigest_identity_edit :
    modelcarDigest (fun _ => "") editedHash (holding (utf8 "x")) (utf8 "/models") ["a"] ≠
      modelcarDigest (fun _ => "") editedHash (holding (utf8 "y")) (utf8 "/models") ["a"] := by
  have one := holding_digestible (utf8 "x") (by decide) (by decide)
  have two := holding_digestible (utf8 "y") (by decide) (by decide)
  intro same
  have identity := modelcarDigest_identity (fun _ => "") editedHash_injOn one two
  have held := (identity.2.1.mp (identity.1.mp same)).2 "a" (by decide)
  simp only [content,holding,Option.some.injEq] at held
  exact absurd held (by decide)

end SemanticClassifier.Runtime
