import Mathlib.Data.FinEnum
import Mathlib.Data.List.Destutter
import Mathlib.Data.List.Sort
import SemanticClassifier.CacheKey
import SemanticClassifier.Library.MinHash
import SemanticClassifier.Prefilter

namespace SemanticClassifier.Prefilter

def shingle : Nat := 3
def signatureSize : Nat := 128

def splitWhitespace (text : String) : List String :=
  ((text.toList.splitOnP Cache.isWhitespace).filter (fun word => !word.isEmpty)).map String.ofList

-- The language's own lowercasing is any map of words here, the hash of a string any
-- function of it.
def normalize (toLowercase : String → String) (text : String) : List String :=
  ((splitWhitespace text).map toLowercase).filter (fun word => !word.isEmpty)

def windows (size : Nat) (tokens : List String) : List (List String) :=
  (List.range (tokens.length + 1 - size)).map fun i => (tokens.drop i).take size

def shingles (toLowercase : String → String) (hashOne : String → UInt64) (text : String) : List UInt64 :=
  let tokens := normalize toLowercase text
  if tokens.isEmpty then []
  else if tokens.length < shingle then [hashOne (" ".intercalate tokens)]
  else
    let v := (windows shingle tokens).map fun w => hashOne (" ".intercalate w)
    (v.insertionSort (· ≤ ·)).destutter (· ≠ ·)

-- The permutation of index `i`.
def mix (i : Nat) (h : UInt64) : UInt64 :=
  let mixed := (h ^^^ (i.toUInt64 * 0x9E3779B97F4A7C15)) * 0xBF58476D1CE4E5B9
  mixed ^^^ (mixed >>> 31)

def maxValue : UInt64 := 0xFFFFFFFFFFFFFFFF

def sketch (sh : List UInt64) : Signature :=
  if sh.isEmpty then ⟨List.replicate signatureSize 0⟩
  else
    ⟨sh.foldl (fun sig h => sig.mapIdx fun i slot => if mix i h < slot then mix i h else slot)
      (List.replicate signatureSize maxValue)⟩

def signature (toLowercase : String → String) (hashOne : String → UInt64) (text : String) : Signature :=
  sketch (shingles toLowercase hashOne text)

def unmix (i : Nat) (mixed : UInt64) : UInt64 :=
  let h := mixed ^^^ (mixed >>> 31) ^^^ (mixed >>> 62)
  (h * 0x96DE1B173F119089) ^^^ (i.toUInt64 * 0x9E3779B97F4A7C15)

theorem unshift (h : UInt64) :
    (h ^^^ (h >>> 31)) ^^^ ((h ^^^ (h >>> 31)) >>> 31) ^^^ ((h ^^^ (h >>> 31)) >>> 62) = h := by
  have twice : (h >>> 31) >>> 31 = h >>> 62 := by
    apply UInt64.toNat_inj.mp
    simp only [UInt64.toNat_shiftRight]
    exact (Nat.shiftRight_add _ 31 31).symm
  have gone : (h >>> 31) >>> 62 = 0 := by
    apply UInt64.toNat_inj.mp
    simp only [UInt64.toNat_shiftRight]
    change (h.toNat >>> 31) >>> 62 = 0
    rw [← Nat.shiftRight_add,Nat.shiftRight_eq_div_pow]
    exact Nat.div_eq_of_lt (Nat.lt_of_lt_of_le h.toNat_lt (by decide))
  rw [UInt64.shiftRight_xor,UInt64.shiftRight_xor,twice,gone,UInt64.xor_zero]
  -- The two shifted copies cancel in pairs.
  rw [UInt64.xor_assoc,UInt64.xor_assoc,UInt64.xor_assoc,UInt64.xor_self,UInt64.xor_zero,UInt64.xor_self,
    UInt64.xor_zero]

theorem unmix_mix (i : Nat) : Function.LeftInverse (unmix i) (mix i) := by
  intro h
  have inverse : (0xBF58476D1CE4E5B9 : UInt64) * 0x96DE1B173F119089 = 1 := by decide
  simp only [mix,unmix]
  rw [unshift,UInt64.mul_assoc,inverse,UInt64.mul_one,UInt64.xor_assoc,UInt64.xor_self,UInt64.xor_zero]

theorem mix_bijective (i : Nat) : Function.Bijective (mix i) :=
  Finite.injective_iff_bijective.mp (unmix_mix i).injective

theorem maxValue_greatest (value : UInt64) : value ≤ maxValue :=
  UInt64.le_iff_toNat_le.mpr (Nat.le_of_lt_succ value.toNat_lt)

theorem foldl_slots (sh : List UInt64) (sig : List UInt64) :
    sh.foldl (fun sig h => sig.mapIdx fun i slot => if mix i h < slot then mix i h else slot) sig =
      sig.mapIdx fun i slot => sh.foldl (MinHash.lower (mix i)) slot := by
  induction sh generalizing sig with
  | nil => exact List.ext_getElem (by simp) (by simp)
  | cons h rest ih =>
      rw [List.foldl_cons,ih,List.mapIdx_mapIdx]
      rfl

theorem sketch_slots {sh : List UInt64} (nonempty : sh ≠ []) :
    (sketch sh).slots = (List.range signatureSize).map fun i => MinHash.slot (mix i) maxValue sh := by
  have some : sh.isEmpty = false := by simpa using nonempty
  simp only [sketch,some,Bool.false_eq_true,if_false]
  rw [foldl_slots]
  apply List.ext_getElem
  · simp
  · intro i here there
    simp [MinHash.slot]

theorem sketch_slot {sh : List UInt64} (nonempty : sh ≠ []) {i : Nat} (within : i < signatureSize) :
    (sketch sh).slots[i]? = some (MinHash.slot (mix i) maxValue sh) := by
  simp [sketch_slots nonempty,within]

theorem sketch_congr {sh others : List UInt64} (nonempty : sh ≠ []) (more : others ≠ [])
    (same : ∀ h, h ∈ sh ↔ h ∈ others) : sketch sh = sketch others := by
  have slots : (sketch sh).slots = (sketch others).slots := by
    rw [sketch_slots nonempty,sketch_slots more]
    apply List.map_congr_left
    intro i _
    exact MinHash.slot_congr maxValue_greatest same
  exact congrArg Signature.mk slots

theorem jaccard_self (sig : Signature) (size : sig.slots.length = 128) : sig.jaccard sig = 1 := by
  have all : Banding.agreeing sig.slots sig.slots = 128 := by
    rw [Banding.agreeing,← size,List.zip_eq_zipWith,List.zipWith_self,List.countP_map]
    exact List.countP_eq_length.mpr fun value _ => by simp
  rw [jaccard_full sig sig size size,all]
  norm_num

theorem jaccard_none (sig other : Signature) (size : sig.slots.length = 128) (same : other.slots.length = 128)
    (apart : ∀ i < 128, sig.slots[i]? ≠ other.slots[i]?) : sig.jaccard other = 0 := by
  have none : Banding.agreeing sig.slots other.slots = 0 := by
    apply List.countP_eq_zero.mpr
    intro pair member
    obtain ⟨i,here,rfl⟩ := List.getElem_of_mem member
    rw [List.length_zip,size,same] at here
    have differ := apart i here
    rw [List.getElem?_eq_getElem (by omega),List.getElem?_eq_getElem (by omega)] at differ
    simpa using differ
  rw [jaccard_full sig other size same,none]
  norm_num

variable {toLowercase : String → String} {hashOne : String → UInt64} {text a b : String}

-- Every text with a token has a shingle, short ones the whole text.
theorem shingles_nonempty (tokens : normalize toLowercase text ≠ []) : shingles toLowercase hashOne text ≠ [] := by
  have some : (normalize toLowercase text).isEmpty = false := by simpa using tokens
  simp only [shingles,some,Bool.false_eq_true,if_false]
  split
  · simp
  · rename_i many
    rw [Ne,List.destutter_eq_nil]
    intro none
    have empty : windows shingle (normalize toLowercase text) = [] := by
      have size := congrArg List.length none
      rw [List.length_insertionSort,List.length_map] at size
      exact List.length_eq_zero_iff.mp size
    simp [windows] at empty
    omega

theorem signature_length (tokens : normalize toLowercase text ≠ []) :
    (signature toLowercase hashOne text).slots.length = 128 := by
  rw [signature,sketch_slots (shingles_nonempty tokens)]
  simp [signatureSize]

-- A slot holds the least mixed value of the text's shingles.
theorem signature_slot (some_ : shingles toLowercase hashOne text ≠ []) {i : Nat} (within : i < signatureSize) :
    ∃ first ∈ shingles toLowercase hashOne text,
      (signature toLowercase hashOne text).slots[i]? = some (mix i first) ∧
      ∀ h ∈ shingles toLowercase hashOne text, mix i first ≤ mix i h := by
  obtain ⟨first,member,lowest⟩ := MinHash.least_exists (mix i) some_
  refine ⟨first,member,?_,lowest⟩
  rw [signature,sketch_slot some_ within,MinHash.slot_least maxValue_greatest member lowest]

-- Slot by slot the signatures of two texts agree on the shingle that comes first
-- among all of theirs, and only there.
theorem signature_agreement (toLowercase : String → String) (hashOne : String → UInt64) (a b : String)
    (left : normalize toLowercase a ≠ []) (right : normalize toLowercase b ≠ []) :
    let mixed (i : Nat) (h : UInt64) : UInt64 :=
      let scaled := (h ^^^ (i.toUInt64 * 0x9E3779B97F4A7C15)) * 0xBF58476D1CE4E5B9
      scaled ^^^ (scaled >>> 31)
    (∀ i < 128, Function.Bijective (mixed i) ∧
      (∀ text, text = a ∨ text = b → ∃ first ∈ shingles toLowercase hashOne text,
        (signature toLowercase hashOne text).slots[i]? = some (mixed i first) ∧
        ∀ h ∈ shingles toLowercase hashOne text, mixed i first ≤ mixed i h) ∧
      ∃ least, (least ∈ shingles toLowercase hashOne a ∨ least ∈ shingles toLowercase hashOne b) ∧
        (∀ h, h ∈ shingles toLowercase hashOne a ∨ h ∈ shingles toLowercase hashOne b → h ≠ least →
          mixed i least < mixed i h) ∧
        ((signature toLowercase hashOne a).slots[i]? = (signature toLowercase hashOne b).slots[i]? ↔
          least ∈ shingles toLowercase hashOne a ∧ least ∈ shingles toLowercase hashOne b)) ∧
    ((∀ h, h ∈ shingles toLowercase hashOne a ↔ h ∈ shingles toLowercase hashOne b) →
      signature toLowercase hashOne a = signature toLowercase hashOne b ∧
      (signature toLowercase hashOne a).jaccard (signature toLowercase hashOne b) = 1) ∧
    ((∀ h, h ∈ shingles toLowercase hashOne a → h ∉ shingles toLowercase hashOne b) →
      (signature toLowercase hashOne a).jaccard (signature toLowercase hashOne b) = 0) ∧
    ∀ union : List UInt64,
      (∀ h, h ∈ union ↔ h ∈ shingles toLowercase hashOne a ∨ h ∈ shingles toLowercase hashOne b) →
      (sketch union).slots =
        List.zipWith min (signature toLowercase hashOne a).slots (signature toLowercase hashOne b).slots := by
  intro mixed
  have spelled : mixed = mix := rfl
  rw [spelled]
  have some : shingles toLowercase hashOne a ≠ [] := shingles_nonempty left
  have more : shingles toLowercase hashOne b ≠ [] := shingles_nonempty right
  have agreement := fun i => MinHash.agree_iff (mix_bijective i).injective maxValue_greatest some more
  have size : (signature toLowercase hashOne a).slots.length = 128 := signature_length left
  refine ⟨fun i within => ⟨mix_bijective i,?_,?_⟩,fun same => ?_,fun apart => ?_,fun union both => ?_⟩
  · rintro text (rfl | rfl)
    · exact signature_slot some within
    · exact signature_slot more within
  · obtain ⟨least,member,lowest,agree⟩ := agreement i
    refine ⟨least,member,lowest,?_⟩
    rw [signature,signature,sketch_slot some within,sketch_slot more within,Option.some_inj]
    exact agree
  · have equal : signature toLowercase hashOne a = signature toLowercase hashOne b :=
      sketch_congr some more same
    refine ⟨equal,?_⟩
    rw [← equal]
    exact jaccard_self _ size
  · apply jaccard_none _ _ size (signature_length right)
    intro i within
    obtain ⟨least,_,_,agree⟩ := agreement i
    rw [signature,signature,sketch_slot some within,sketch_slot more within,Ne,Option.some_inj,agree]
    exact fun shared => apart least shared.1 shared.2
  · have member : ∃ h, h ∈ union := by
      obtain ⟨h,there⟩ := List.exists_mem_of_ne_nil _ some
      exact ⟨h,(both h).mpr (.inl there)⟩
    obtain ⟨h,there⟩ := member
    rw [signature,signature,sketch_slots some,sketch_slots more,sketch_slots (List.ne_nil_of_mem there),
      List.zipWith_map,List.zipWith_self]
    apply List.map_congr_left
    intro i _
    exact MinHash.slot_union maxValue_greatest both

-- The standard hasher at the shingles of the two texts below.
def hashWords (shingle : String) : UInt64 :=
  if shingle = "reset my badge" then 0x5f62688d55090dce
  else if shingle = "badge" then 0x859081be7f0f2368
  else 0

theorem signature_agreement_words :
    (∃ first ∈ shingles id hashWords "badge", (signature id hashWords "badge").slots[5]? =
      some (let scaled := (first ^^^ (5 * 0x9E3779B97F4A7C15)) * 0xBF58476D1CE4E5B9
        scaled ^^^ (scaled >>> 31))) ∧
    ∃ least,
      (least ∈ shingles id hashWords "reset my badge" ∨ least ∈ shingles id hashWords "badge") ∧
      ((signature id hashWords "reset my badge").slots[5]? = (signature id hashWords "badge").slots[5]? ↔
        least ∈ shingles id hashWords "reset my badge" ∧ least ∈ shingles id hashWords "badge") := by
  obtain ⟨agreement,_⟩ := signature_agreement id hashWords "reset my badge" "badge" (by decide) (by decide)
  obtain ⟨_,slots,least,member,_,agree⟩ := agreement 5 (by decide)
  obtain ⟨first,there,slot,_⟩ := slots "badge" (.inr rfl)
  exact ⟨⟨first,there,slot⟩,least,member,agree⟩

end SemanticClassifier.Prefilter
