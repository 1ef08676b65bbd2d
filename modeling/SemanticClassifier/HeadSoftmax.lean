import Mathlib.Algebra.Order.BigOperators.Group.List
import Mathlib.Analysis.SpecialFunctions.Exp
import SemanticClassifier.Head
import SemanticClassifier.Library.IeeeSums

namespace SemanticClassifier.Head
open Floating Ieee

section Softmax
variable {K : Type} [Field K] [LinearOrder K] [Elementary K]

def Probability (p : Ieee K) : Prop := ¬ IsNan p ∧ AtMost zero p ∧ AtMost p (ofNat 1)

-- A score is a probability or it is nothing; finite logits give a distribution
-- that orders its entries as they were.
structure Sound (logits : List (Ieee K)) : Prop where
  length : (softmax logits).length = logits.length
  probabilities : ∀ p ∈ softmax logits, Probability p
  normalized : logits ≠ [] → (∀ l ∈ logits, Floating.isFinite l = true) → sum (softmax logits) = ofNat 1
  ordered : logits ≠ [] → (∀ l ∈ logits, Floating.isFinite l = true) →
    ∀ first ∈ logits.zip (softmax logits), ∀ second ∈ logits.zip (softmax logits),
      Floating.partialCmp first.2 second.2 = Floating.partialCmp first.1 second.1

-- What an entry weighs against the greatest one.
def weight (m : K) : Ieee K → K
  | .finite x => Elementary.exp (x - m)
  | .nan | .negInf | .posInf => 0

theorem exp_shifted (m : K) {l : Ieee K} (number : l ≠ .nan) (bounded : l ≠ .posInf) :
    Floating.exp (Floating.sub l (.finite m)) = .finite (weight m l) := by
  cases l with
  | nan => exact absurd rfl number
  | posInf => exact absurd rfl bounded
  | negInf => rfl
  | finite x => exact congrArg (fun y => Ieee.finite (Elementary.exp y)) (sub_eq_add_neg x m).symm

theorem softmax_unbounded {logits : List (Ieee K)}
    (infinite : Floating.isFinite (logits.foldl maxNum (negInfinity : Ieee K)) = false) :
    softmax logits = logits.map fun _ => zero := by
  simp [softmax,infinite]

theorem softmax_poisoned {logits : List (Ieee K)} {m : K}
    (top : logits.foldl maxNum negInfinity = Ieee.finite m) (nan : .nan ∈ logits) :
    softmax logits = logits.map fun _ => .nan := by
  have total : sum (logits.map fun l => Floating.exp (Floating.sub l (.finite m))) = .nan := by
    apply sum_nan
    exact List.mem_map.mpr ⟨.nan,nan,rfl⟩
  have none : ¬ AtMost (.nan : Ieee K) zero := not_atMost_nan zero
  have finite : Floating.isFinite (Ieee.finite m) = true := rfl
  simp only [softmax,top,finite,if_true,total,none,if_false,List.map_map]
  apply List.map_congr_left
  intro l _
  change Ieee.div (Floating.exp (Floating.sub l (.finite m))) .nan = .nan
  cases Floating.exp (Floating.sub l (.finite m)) <;> rfl

omit [Field K] [LinearOrder K] [Elementary K] in
theorem mem_zip_map {pair : Ieee K × Ieee K} {logits : List (Ieee K)} {f : Ieee K → Ieee K}
    (member : pair ∈ logits.zip (logits.map f)) : pair.1 ∈ logits ∧ pair.2 = f pair.1 := by
  rw [List.zip_map_right,List.zip_eq_zipWith,List.zipWith_self,List.map_map] at member
  obtain ⟨l,there,rfl⟩ := List.mem_map.mp member
  exact ⟨there,rfl⟩

variable [IsStrictOrderedRing K] (positive : ∀ x : K, 0 < Elementary.exp x)
include positive

omit [IsStrictOrderedRing K] in
theorem weight_nonneg (m : K) (l : Ieee K) : 0 ≤ weight m l := by
  cases l with
  | finite x => exact (positive (x - m)).le
  | nan | negInf | posInf => exact le_rfl

theorem weight_le_total (m : K) {logits : List (Ieee K)} {l : Ieee K} (member : l ∈ logits) :
    weight m l ≤ (logits.map (weight m)).sum := by
  apply List.single_le_sum
  · intro w there
    obtain ⟨other,_,rfl⟩ := List.mem_map.mp there
    exact weight_nonneg positive m other
  · exact List.mem_map_of_mem member

theorem total_pos {m : K} {logits : List (Ieee K)} (member : .finite m ∈ logits) :
    0 < (logits.map (weight m)).sum :=
  lt_of_lt_of_le (positive (m - m)) (weight_le_total positive m member)

theorem softmax_weighed {logits : List (Ieee K)} {m : K} (member : .finite m ∈ logits)
    (top : logits.foldl maxNum negInfinity = Ieee.finite m) (numbers : .nan ∉ logits)
    (bounded : .posInf ∉ logits) :
    softmax logits = logits.map fun l => .finite (weight m l / (logits.map (weight m)).sum) := by
  have finite : Floating.isFinite (Ieee.finite m) = true := rfl
  have exps : (logits.map fun l => Floating.exp (Floating.sub l (.finite m))) =
      (logits.map (weight m)).map Ieee.finite := by
    rw [List.map_map]
    apply List.map_congr_left
    intro l there
    exact exp_shifted m (fun nan => numbers (nan ▸ there)) (fun infinite => bounded (infinite ▸ there))
  have some := total_pos positive member
  have above : ¬ AtMost (Ieee.finite (logits.map (weight m)).sum) zero := by
    rw [zero_eq,atMost_finite]
    exact not_le_of_gt some
  simp only [softmax,top,finite,if_true,exps,sum_finite,above,if_false]
  rw [List.map_map,List.map_map]
  apply List.map_congr_left
  intro l _
  exact if_neg some.ne'

theorem weighed_sound {logits : List (Ieee K)} {m : K} (increasing : StrictMono (Elementary.exp : K → K))
    (member : .finite m ∈ logits) (top : logits.foldl maxNum negInfinity = Ieee.finite m)
    (numbers : .nan ∉ logits) (bounded : .posInf ∉ logits) : Sound logits := by
  have weighed := softmax_weighed positive member top numbers bounded
  have some := total_pos positive member
  refine ⟨softmax_length logits,?_,?_,?_⟩
  · intro p there
    rw [weighed] at there
    obtain ⟨l,within,rfl⟩ := List.mem_map.mp there
    refine ⟨by simp,?_,?_⟩
    · rw [zero_eq,atMost_finite]
      exact div_nonneg (weight_nonneg positive m l) some.le
    · rw [ofNat_eq,atMost_finite,Nat.cast_one]
      exact (div_le_one some).mpr (weight_le_total positive m within)
  · intro _ _
    have shares : (logits.map fun l => Ieee.finite (weight m l / (logits.map (weight m)).sum)) =
        (logits.map fun l => weight m l * (logits.map (weight m)).sum⁻¹).map Ieee.finite := by
      simp [div_eq_mul_inv]
    rw [weighed,shares,sum_finite,List.sum_map_mul_right,mul_inv_cancel₀ some.ne',ofNat_eq,Nat.cast_one]
  · intro _ finite first before second after
    rw [weighed] at before after
    obtain ⟨left,weighs⟩ := mem_zip_map before
    obtain ⟨right,counts⟩ := mem_zip_map after
    rw [weighs,counts,partialCmp_finite]
    have scaled : StrictMono fun x : K => Elementary.exp (x - m) / (logits.map (weight m)).sum :=
      fun x y less => div_lt_div_of_pos_right (increasing (sub_lt_sub_right less m)) some
    obtain ⟨l,p⟩ := first
    obtain ⟨k,q⟩ := second
    cases l with
    | nan | negInf | posInf => cases finite _ left
    | finite x =>
        cases k with
        | nan | negInf | posInf => cases finite _ right
        | finite y =>
            rw [partialCmp_finite]
            have same := scaled.cmp_map_eq x y
            rw [cmp_eq_compare,cmp_eq_compare] at same
            exact congrArg Option.some same

omit positive in
theorem zeros_sound {logits : List (Ieee K)} (zeros : softmax logits = logits.map fun _ => zero)
    (mixed : logits ≠ [] → ∃ l ∈ logits, Floating.isFinite l = false) : Sound logits := by
  have absurdly : logits ≠ [] → (∀ l ∈ logits, Floating.isFinite l = true) → False := by
    intro nonempty finite
    obtain ⟨l,member,special⟩ := mixed nonempty
    simp [finite l member] at special
  refine ⟨softmax_length logits,?_,fun some all => (absurdly some all).elim,fun some all => (absurdly some all).elim⟩
  intro p there
  rw [zeros] at there
  obtain ⟨_,_,rfl⟩ := List.mem_map.mp there
  refine ⟨by simp,?_,?_⟩
  · rw [zero_eq,atMost_finite]
  · rw [zero_eq,ofNat_eq,atMost_finite,Nat.cast_one]
    exact zero_le_one

omit positive in
-- One number missing among numbers spoils every score; beside infinity, or without
-- any finite logit, the guard still answers with nothing.
theorem softmax_sound_iff (positive : ∀ x : K, 0 < Elementary.exp x)
    (increasing : StrictMono (Elementary.exp : K → K)) (logits : List (Ieee K)) :
    Sound logits ↔ (.nan ∈ logits → .posInf ∈ logits ∨ ∀ l ∈ logits, Floating.isFinite l = false) := by
  have top := peak logits
  cases greatest : logits.foldl maxNum (negInfinity : Ieee K) with
  | nan =>
      rw [greatest] at top
      cases top
  | negInf =>
      rw [greatest] at top
      cases top with
      | none bounded empty =>
          have special : ∀ l ∈ logits, Floating.isFinite l = false := by
            intro l member
            cases l with
            | finite x => exact absurd member (empty x)
            | nan | negInf | posInf => rfl
          refine ⟨fun _ _ => .inr special,fun _ => ?_⟩
          apply zeros_sound (softmax_unbounded (by rw [greatest]; rfl))
          intro nonempty
          obtain ⟨l,member⟩ := List.exists_mem_of_ne_nil _ nonempty
          exact ⟨l,member,special l member⟩
  | posInf =>
      rw [greatest] at top
      cases top with
      | infinite member =>
          refine ⟨fun _ _ => .inl member,fun _ => ?_⟩
          exact zeros_sound (softmax_unbounded (by rw [greatest]; rfl)) fun _ => ⟨.posInf,member,rfl⟩
  | finite m =>
      rw [greatest] at top
      cases top with
      | finite _ bounded member highest =>
          constructor
          · intro sound nan
            have spoiled : .nan ∈ softmax logits := by
              rw [softmax_poisoned greatest nan]
              exact List.mem_map.mpr ⟨.nan,nan,rfl⟩
            exact absurd ((isNan_iff _).mpr rfl) (sound.probabilities .nan spoiled).1
          · intro condition
            have numbers : .nan ∉ logits := by
              intro nan
              rcases condition nan with infinite | special
              · exact bounded infinite
              · cases special _ member
            exact weighed_sound positive increasing member greatest numbers bounded

end Softmax

noncomputable instance : Elementary ℝ where
  sqrt := Real.sqrt
  exp := Real.exp

theorem softmax_sound_iff_masked : Sound [Ieee.finite (0 : ℝ),.negInf,.finite 1] ↔
    (.nan ∈ [Ieee.finite (0 : ℝ),.negInf,.finite 1] → .posInf ∈ [Ieee.finite (0 : ℝ),.negInf,.finite 1] ∨
      ∀ l ∈ [Ieee.finite (0 : ℝ),.negInf,.finite 1], Floating.isFinite l = false) :=
  softmax_sound_iff Real.exp_pos Real.exp_strictMono [.finite 0,.negInf,.finite 1]

theorem softmax_lost_logit : softmax [Ieee.nan,.finite (0 : ℝ)] = [.nan,.nan] ∧
    ¬ Sound [Ieee.nan,.finite (0 : ℝ)] := by
  have top : [Ieee.nan,.finite (0 : ℝ)].foldl maxNum negInfinity = .finite 0 := by rfl
  have spoiled : softmax [Ieee.nan,.finite (0 : ℝ)] = [.nan,.nan] :=
    softmax_poisoned top List.mem_cons_self
  refine ⟨spoiled,fun sound => ?_⟩
  have member : Ieee.nan ∈ softmax [Ieee.nan,.finite (0 : ℝ)] := by
    rw [spoiled]
    exact List.mem_cons_self
  exact absurd ((isNan_iff _).mpr rfl) (sound.probabilities .nan member).1

end SemanticClassifier.Head
