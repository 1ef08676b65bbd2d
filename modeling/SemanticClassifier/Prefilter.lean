import Mathlib.Algebra.Order.Field.Rat
import Mathlib.Tactic.NormNum
import SemanticClassifier.Library.Banding

namespace SemanticClassifier.Prefilter

structure Signature where
  slots : List UInt64
  deriving DecidableEq

-- The share of agreeing slots. Every value met is a count over a length, so the
-- rational is exact; an empty or unequal-length pair scores zero.
def Signature.jaccard (sig other : Signature) : ℚ :=
  if sig.slots.isEmpty || sig.slots.length != other.slots.length then 0
  else ((sig.slots.zip other.slots).countP (fun pair => pair.1 == pair.2) : ℚ) / sig.slots.length

-- `hashOne` is the standard library's hasher: a function of what it is fed, and
-- nothing more is asked of it. The band index is hashed with the band's rows.
def bands (hashOne : UInt64 × List UInt64 → UInt64) (sig : Signature) (bands : Nat) : List UInt64 :=
  let bands := max 1 (min bands (max sig.slots.length 1))
  let rows := sig.slots.length / bands
  if rows = 0 then []
  else (List.range bands).map fun b => hashOne (b.toUInt64,Banding.band sig.slots rows b)

variable {hashOne : UInt64 × List UInt64 → UInt64}

theorem bands_full (sig : Signature) (size : sig.slots.length = 128) :
    bands hashOne sig 32 = (List.range 32).map fun b => hashOne (b.toUInt64,Banding.band sig.slots 4 b) := by
  simp [bands,size]

theorem jaccard_full (sig other : Signature) (size : sig.slots.length = 128)
    (same : other.slots.length = 128) :
    sig.jaccard other = (Banding.agreeing sig.slots other.slots : ℚ) / 128 := by
  have nonempty : sig.slots.isEmpty = false := by
    cases slots : sig.slots with
    | nil => simp [slots] at size
    | cons => rfl
  simp [Signature.jaccard,Banding.agreeing,nonempty,size,same]

-- At most 31 of 128 slots may disagree at 97/128, too few to break 32 bands.
theorem shared_band (hashOne : UInt64 × List UInt64 → UInt64) (sig other : Signature) (size : sig.slots.length = 128)
    (same : other.slots.length = 128) (close : 97 / 128 ≤ sig.jaccard other) :
    ∃ key ∈ bands hashOne sig 32, key ∈ bands hashOne other 32 := by
  rw [jaccard_full sig other size same,div_le_div_iff_of_pos_right (by norm_num)] at close
  have agree : 97 ≤ Banding.agreeing sig.slots other.slots := by exact_mod_cast close
  obtain ⟨b,below,equal⟩ : ∃ b < 32, Banding.band sig.slots 4 b = Banding.band other.slots 4 b :=
    Banding.intact_band size same (by omega)
  rw [bands_full sig size,bands_full other same]
  exact ⟨hashOne (b.toUInt64,Banding.band sig.slots 4 b),
    List.mem_map.mpr ⟨b,List.mem_range.mpr below,rfl⟩,
    List.mem_map.mpr ⟨b,List.mem_range.mpr below,by rw [equal]⟩⟩

end SemanticClassifier.Prefilter
