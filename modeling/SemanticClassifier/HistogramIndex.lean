import Mathlib.Data.UInt
import SemanticClassifier.Metrics

namespace SemanticClassifier.Metrics.Histogram

-- A bucket and its lower bound over the whole range of a value: no subtraction
-- and no shift in either function leaves its type, and the two agree.
structure Consistent (us lower : UInt64) : Prop where
  octave : 8 ≤ us → leadingZeros us + 3 ≤ 63
  shift : 8 ≤ index us → 3 ≤ index us / 8 ∧ index us / 8 - 3 < 64 ∧
    lower.toNat = (8 + index us % 8) * 2 ^ (index us / 8 - 3)
  below : lower ≤ us
  back : index lower = index us
  near : us < 2 ^ 41 → 8 ≤ us → us - lower < lower / 8

theorem leadingZeros_large {us : UInt64} (large : 8 ≤ us.toNat) : leadingZeros us + 3 ≤ 63 := by
  have octave := (leading_bits large).1
  have some : us ≠ 0 := by
    intro zero
    simp [zero] at large
  rw [leadingZeros,if_neg some]
  omega

-- Past the last octave everything falls into the last bucket.
theorem index_clamped {us : UInt64} (beyond : 2 ^ 41 ≤ us.toNat) : index us = 327 := by
  have last : 41 ≤ us.toNat.log2 := (Nat.le_log2 (by omega)).mpr beyond
  rw [index_large (by omega)]
  omega

def lastBound : UInt64 := (15 : UInt64) <<< (37 : UInt64)

theorem clamped_consistent {us : UInt64} (beyond : 2 ^ 41 ≤ us.toNat) :
    lowerBound (index us) = some lastBound ∧ Consistent us lastBound := by
  have place := index_clamped beyond
  have back : index lastBound = 327 := by decide +kernel
  have value : lastBound.toNat = 15 * 2 ^ 37 := by decide
  rw [place]
  refine ⟨rfl,fun _ => leadingZeros_large (by omega),fun _ => ?_,?_,?_,fun bounded => ?_⟩
  · rw [place]
    exact ⟨by decide,by decide,value⟩
  · rw [UInt64.le_iff_toNat_le,value]
    omega
  · rw [back,place]
  · have below : us.toNat < 2 ^ 41 := UInt64.lt_iff_toNat_lt.mp bounded
    omega

theorem bounded_consistent {us : UInt64} (bounded : us.toNat < 2 ^ 41) :
    ∃ lower, lowerBound (index us) = some lower ∧ Consistent us lower := by
  by_cases large : 8 ≤ us.toNat
  · obtain ⟨lower,reads,value⟩ := lowerBound_large large bounded
    obtain ⟨octave,eight,_⟩ := leading_bits large
    obtain ⟨row,column⟩ := index_row large bounded
    rw [subBuckets] at row column
    obtain ⟨least,under,near⟩ := lowerBound_near large value
    have width := octave_lt us
    have below : lower ≤ us := UInt64.le_iff_toNat_le.mpr under
    refine ⟨lower,reads,fun _ => leadingZeros_large large,fun _ => ?_,below,index_lowerBound bounded reads,?_⟩
    · have top : 8 + index us % 8 = us.toNat / 2 ^ (us.toNat.log2 - 3) := by omega
      rw [row,top]
      exact ⟨octave,by omega,value⟩
    · intro _ _
      rw [UInt64.lt_iff_toNat_lt,UInt64.toNat_sub_of_le _ _ below,UInt64.toNat_div]
      have eighth : 2 ^ (us.toNat.log2 - 3) ≤ lower.toNat / (8 : UInt64).toNat :=
        (Nat.le_div_iff_mul_le (by decide)).mpr (by rw [Nat.mul_comm]; exact least)
      omega
  · have small : us.toNat < 8 := Nat.lt_of_not_ge large
    have reads := lowerBound_small small
    refine ⟨us,reads,fun eight => ?_,fun eight => ?_,UInt64.le_refl us,rfl,fun _ eight => ?_⟩
    · exact absurd (UInt64.le_iff_toNat_le.mp eight) large
    · rw [index_small small] at eight
      exact absurd eight large
    · exact absurd (UInt64.le_iff_toNat_le.mp eight) large

theorem index_lowerBound_consistent (us : UInt64) :
    index us < bucketCount ∧ (∀ other, us ≤ other → index us ≤ index other) ∧
    ∃ lower, lowerBound (index us) = some lower ∧ Consistent us lower := by
  refine ⟨index_lt us,fun other least => index_monotone (UInt64.le_iff_toNat_le.mp least),?_⟩
  by_cases bounded : us.toNat < 2 ^ 41
  · exact bounded_consistent bounded
  · exact ⟨lastBound,clamped_consistent (Nat.le_of_not_gt bounded)⟩

end SemanticClassifier.Metrics.Histogram
