import Mathlib.Data.Set.Function
import SemanticClassifier.Library.Framing

namespace SemanticClassifier.Cache
open Framing

-- The Unicode White_Space property, which `str::trim` goes by.
def isWhitespace (c : Char) : Bool :=
  let n := c.toNat
  (0x9 ≤ n && n ≤ 0xD) || n == 0x20 || n == 0x85 || n == 0xA0 || n == 0x1680 ||
    (0x2000 ≤ n && n ≤ 0x200A) || n == 0x2028 || n == 0x2029 || n == 0x202F || n == 0x205F || n == 0x3000

def trim (text : String) : String :=
  String.ofList (((text.toList.dropWhile isWhitespace).reverse.dropWhile isWhitespace).reverse)

example : trim "  two words\n" = "two words" := by decide

def utf8 (text : String) : List UInt8 := text.toByteArray.data.toList

def toLeBytes (n : UInt64) : List UInt8 :=
  [n.toUInt8,(n >>> 8).toUInt8,(n >>> 16).toUInt8,(n >>> 24).toUInt8,
    (n >>> 32).toUInt8,(n >>> 40).toUInt8,(n >>> 48).toUInt8,(n >>> 56).toUInt8]

-- What `update_field` feeds to the hasher.
def field (text : String) : List UInt8 :=
  toLeBytes (UInt64.ofNat text.utf8ByteSize) ++ utf8 text

def digestField : Option String → List UInt8
  | some digest => field digest
  | none => []

-- `identity` is a runtime's cache identity.
def keyStream (identity : String × String × String × String × Option String)
    (normalizedText : String) : List UInt8 :=
  field identity.1 ++ field identity.2.1 ++ field identity.2.2.1 ++ field identity.2.2.2.1 ++
    field normalizedText ++ digestField identity.2.2.2.2

structure CacheKey where
  fingerprint : Vector UInt8 32
  deriving DecidableEq

def newWithArtifactDigest (blake3 : List UInt8 → Vector UInt8 32)
    (identity : String × String × String × String × Option String) (normalizedText : String) :
    CacheKey := ⟨blake3 (keyStream identity normalizedText)⟩

theorem utf8_injective (same : utf8 a = utf8 b) : a = b :=
  String.toByteArray_inj.mp (ByteArray.ext (Array.toList_inj.mp same))

theorem field_injective (same : field a = field b) : a = b :=
  utf8_injective (List.append_inj_right same rfl)

-- Under one identity the stream tells the texts apart.
theorem keyStream_injective (same : keyStream identity a = keyStream identity b) : a = b := by
  unfold keyStream at same
  exact field_injective (List.append_cancel_left (List.append_cancel_right same))

theorem toLeBytes_injective (same : toLeBytes a = toLeBytes b) : a = b := by
  unfold toLeBytes at same
  simp only [List.cons.injEq,and_true] at same
  simp only [← UInt8.toNat_inj,UInt64.toNat_toUInt8,UInt64.toNat_shiftRight,
    Nat.shiftRight_eq_div_pow] at same
  apply UInt64.toNat_inj.mp
  have boundA := a.toNat_lt
  have boundB := b.toNat_lt
  simp at same
  omega

theorem utf8_length (text : String) : (utf8 text).length = text.utf8ByteSize := rfl

-- What the eight length bytes can count.
def Short (text : String) : Prop := text.utf8ByteSize < UInt64.size

instance (text : String) : Decidable (Short text) := by unfold Short; infer_instance

theorem field_delimiting : SelfDelimiting Short field := by
  have eight (text : String) : (toLeBytes (UInt64.ofNat text.utf8ByteSize)).length = 8 := rfl
  refine lengthPrefixed eight ?_ fun _ _ => utf8_injective
  intro a b shortA shortB same
  have counted := congrArg UInt64.toNat (toLeBytes_injective same)
  rw [utf8_length,utf8_length]
  rwa [UInt64.toNat_ofNat_of_lt' shortA,UInt64.toNat_ofNat_of_lt' shortB] at counted

theorem field_visible (text : String) : field text ≠ [] := by
  intro empty
  cases empty

structure ShortKey (identity : String × String × String × String × Option String) (text : String) :
    Prop where
  classifier : Short identity.1
  model : Short identity.2.1
  tokenizer : Short identity.2.2.1
  taxonomy : Short identity.2.2.2.1
  digest : ∀ digest ∈ identity.2.2.2.2, Short digest
  text : Short text

theorem digestField_trailing : digestField = trailing field := by
  funext digest
  cases digest <;> rfl

-- The five fields every key has.
theorem front_delimiting : SelfDelimiting
    (fun p : (((String × String) × String) × String) × String =>
      (((Short p.1.1.1.1 ∧ Short p.1.1.1.2) ∧ Short p.1.1.2) ∧ Short p.1.2) ∧ Short p.2)
    fun p => field p.1.1.1.1 ++ field p.1.1.1.2 ++ field p.1.1.2 ++ field p.1.2 ++ field p.2 :=
  (((field_delimiting.both field_delimiting).both field_delimiting).both field_delimiting).both
    field_delimiting

theorem keyStream_inj {a b : String × String × String × String × Option String}
    (one : ShortKey a t) (two : ShortKey b u) (same : keyStream a t = keyStream b u) :
    a = b ∧ t = u := by
  unfold keyStream at same
  rw [digestField_trailing] at same
  obtain ⟨front,digest⟩ := front_delimiting.last
    (a := ((((a.1,a.2.1),a.2.2.1),a.2.2.2.1),t)) (b := ((((b.1,b.2.1),b.2.2.1),b.2.2.2.1),u))
    (field_delimiting.trailing field_visible)
    ⟨⟨⟨⟨⟨one.classifier,one.model⟩,one.tokenizer⟩,one.taxonomy⟩,one.text⟩,one.digest⟩
    ⟨⟨⟨⟨⟨two.classifier,two.model⟩,two.tokenizer⟩,two.taxonomy⟩,two.text⟩,two.digest⟩ same
  simp only [Prod.mk.injEq] at front
  obtain ⟨⟨⟨⟨classifier,model⟩,tokenizer⟩,taxonomy⟩,text⟩ := front
  exact ⟨Prod.ext classifier (Prod.ext model (Prod.ext tokenizer (Prod.ext taxonomy digest))),text⟩

-- The hasher is fed different bytes for every identity and text, and where it
-- tells these streams apart so do the keys.
theorem key_identity {a b : String × String × String × String × Option String}
    (one : ShortKey a t) (two : ShortKey b u) :
    (keyStream a t = keyStream b u ↔ a = b ∧ t = u) ∧
      ∀ (blake3 : List UInt8 → Vector UInt8 32) (hashed : Set (List UInt8)),
        Set.InjOn blake3 hashed → keyStream a t ∈ hashed → keyStream b u ∈ hashed →
        (newWithArtifactDigest blake3 a t = newWithArtifactDigest blake3 b u ↔ a = b ∧ t = u) := by
  have streams : keyStream a t = keyStream b u ↔ a = b ∧ t = u := by
    refine ⟨keyStream_inj one two,?_⟩
    intro same
    rw [same.1,same.2]
  refine ⟨streams,?_⟩
  intro blake3 hashed free hashedA hashedB
  rw [← streams]
  constructor
  · intro same
    exact free hashedA hashedB (CacheKey.mk.inj same)
  · intro same
    rw [newWithArtifactDigest,newWithArtifactDigest,same]

def undigested : String × String × String × String × Option String := ("c","r","t","x",none)

def emptyDigest : String × String × String × String × Option String := ("c","r","t","x",some "")

-- The hash's own values on the two streams.
def twoStreams (bytes : List UInt8) : Vector UInt8 32 :=
  if bytes = keyStream undigested "p" then
    ⟨#[16,64,62,150,206,164,121,161,90,79,5,235,54,145,128,244,
      222,187,44,127,115,20,79,145,50,147,117,120,55,104,235,196],rfl⟩
  else
    ⟨#[196,100,136,159,47,39,41,28,84,93,195,23,151,27,210,254,
      127,184,74,57,58,141,37,220,38,228,10,24,142,133,243,182],rfl⟩

theorem twoStreams_injOn :
    Set.InjOn twoStreams {keyStream undigested "p",keyStream emptyDigest "p"} := by
  have apart : twoStreams (keyStream undigested "p") ≠ twoStreams (keyStream emptyDigest "p") := by
    decide
  intro x inX y inY same
  rcases inX with rfl | inX
  · rcases inY with rfl | inY
    · rfl
    · cases inY
      exact absurd same apart
  · cases inX
    rcases inY with rfl | inY
    · exact absurd same.symm apart
    · cases inY
      rfl

theorem key_identity_empty_digest :
    keyStream undigested "p" ≠ keyStream emptyDigest "p" ∧
      newWithArtifactDigest twoStreams undigested "p" ≠ newWithArtifactDigest twoStreams emptyDigest "p" := by
  have short : ShortKey undigested "p" :=
    ⟨by decide,by decide,by decide,by decide,by simp [undigested],by decide⟩
  have shortEmpty : ShortKey emptyDigest "p" :=
    ⟨by decide,by decide,by decide,by decide,by simp [emptyDigest]; decide,by decide⟩
  have differ : ¬(undigested = emptyDigest ∧ "p" = "p") := by decide
  have identity := key_identity short shortEmpty
  exact ⟨fun same => differ (identity.1.mp same),
    fun same => differ ((identity.2 twoStreams _ twoStreams_injOn (.inl rfl) (.inr rfl)).mp same)⟩

end SemanticClassifier.Cache
