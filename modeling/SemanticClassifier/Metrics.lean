import Mathlib.Algebra.Order.Floor.Ring
import Mathlib.Data.List.Induction
import Mathlib.Data.Nat.Log
import Mathlib.Data.Rat.Floor
import Mathlib.Tactic.Linarith
import SemanticClassifier.Library.OrderStatistic

namespace SemanticClassifier.Metrics

-- Durations count nanoseconds.
abbrev Duration := Nat

def asMicros (latency : Duration) : Nat := latency / 1000

def fromMicros (us : UInt64) : Duration := us.toNat * 1000

inductive LatencyStage where
  | queue
  | tokenize
  | forward
  | total
  deriving DecidableEq

def subBuckets : Nat := 8
def octaves : Nat := 41
def bucketCount : Nat := octaves * subBuckets

-- The counters are unbounded here: no process lives to record 2^64 latencies.
structure Histogram where
  buckets : Vector Nat bucketCount
  count : Nat
  maxUs : UInt64
  deriving DecidableEq

namespace Histogram

def empty : Histogram := ⟨Vector.replicate bucketCount 0,0,0⟩

def leadingZeros (us : UInt64) : Nat := if us = 0 then 64 else 63 - us.toNat.log2

def index (us : UInt64) : Nat :=
  if us < subBuckets.toUInt64 then us.toNat
  else
    let octave := 63 - leadingZeros us
    let shift := octave - 3
    let sub := ((us >>> shift.toUInt64) &&& (subBuckets.toUInt64 - 1)).toNat
    min (octave * subBuckets + sub) (bucketCount - 1)

-- `none` stands for the subtraction `octave - 3` that buckets 8 to 23 make underflow.
def lowerBound (idx : Nat) : Option UInt64 :=
  if idx < subBuckets then some idx.toUInt64
  else
    let octave := idx / subBuckets
    let sub := (idx % subBuckets).toUInt64
    if octave < 3 then none
    else some ((subBuckets.toUInt64 + sub) <<< (octave - 3).toUInt64)

def micros (latency : Duration) : UInt64 := (min (asMicros latency) (2 ^ 64 - 1)).toUInt64

theorem index_lt (us : UInt64) : index us < bucketCount := by
  unfold index
  split
  · rename_i small
    have below : us.toNat < 8 := UInt64.lt_iff_toNat_lt.mp small
    exact Nat.lt_of_lt_of_le below (by decide)
  · exact Nat.lt_of_le_of_lt (Nat.min_le_right _ _) (by decide)

def record (h : Histogram) (latency : Duration) : Histogram :=
  let us := micros latency
  have within : index us < bucketCount := index_lt us
  ⟨h.buckets.set (index us) (h.buckets[index us] + 1),h.count + 1,max h.maxUs us⟩

def target (count : Nat) (q : ℚ) : Nat := max 1 ⌈(count : ℚ) * q⌉.toNat

-- The bucket at which the scan stops; `none` when it runs off the end.
def bucket (h : Histogram) (q : ℚ) : Option Nat :=
  OrderStatistic.reach (target h.count q) 0 0 h.buckets.toList

def quantile (h : Histogram) (q : ℚ) : Option Duration :=
  if h.count = 0 then some 0
  else
    match bucket h q with
    | some i => (lowerBound i).map fromMicros
    | none => some (fromMicros h.maxUs)

end Histogram

structure StagePercentiles where
  p50 : Duration
  p95 : Duration
  p99 : Duration
  max : Duration
  count : Nat
  deriving DecidableEq

structure Inner where
  queue : Duration
  tokenize : Duration
  forward : Duration
  total : Duration
  histQueue : Histogram
  histTokenize : Histogram
  histForward : Histogram
  histTotal : Histogram

def Inner.new : Inner :=
  ⟨0,0,0,0,Histogram.empty,Histogram.empty,Histogram.empty,Histogram.empty⟩

def recordStage (inner : Inner) (stage : LatencyStage) (latency : Duration) : Inner :=
  match stage with
  | .queue => {inner with queue := inner.queue + latency,histQueue := inner.histQueue.record latency}
  | .tokenize =>
      {inner with tokenize := inner.tokenize + latency,histTokenize := inner.histTokenize.record latency}
  | .forward => {inner with forward := inner.forward + latency,histForward := inner.histForward.record latency}
  | .total => {inner with total := inner.total + latency,histTotal := inner.histTotal.record latency}

def histogram (inner : Inner) : LatencyStage → Histogram
  | .queue => inner.histQueue
  | .tokenize => inner.histTokenize
  | .forward => inner.histForward
  | .total => inner.histTotal

def stagePercentiles (inner : Inner) (stage : LatencyStage) : Option StagePercentiles := do
  let h := histogram inner stage
  let p50 ← h.quantile (1 / 2)
  let p95 ← h.quantile (19 / 20)
  let p99 ← h.quantile (99 / 100)
  return ⟨p50,p95,p99,fromMicros h.maxUs,h.count⟩

namespace Histogram

-- Up to 7 a value is its own bucket; above, the four leading bits count.
theorem index_small {us : UInt64} (small : us.toNat < 8) : index us = us.toNat := by
  have below : us < subBuckets.toUInt64 := UInt64.lt_iff_toNat_lt.mpr small
  rw [index,if_pos below]

theorem leading_bits {n : Nat} (large : 8 ≤ n) :
    3 ≤ n.log2 ∧ 8 ≤ n / 2 ^ (n.log2 - 3) ∧ n / 2 ^ (n.log2 - 3) < 16 := by
  have octave : 3 ≤ n.log2 := (Nat.le_log2 (by omega)).mpr (by omega)
  have lower := Nat.log2_self_le (n := n) (by omega)
  have upper := Nat.lt_log2_self (n := n)
  have split : 2 ^ n.log2 = 8 * 2 ^ (n.log2 - 3) := by
    rw [show (8 : Nat) = 2 ^ 3 by rfl,← pow_add]
    congr 1
    omega
  have positive : 0 < 2 ^ (n.log2 - 3) := Nat.two_pow_pos _
  refine ⟨octave,?_,?_⟩
  · rw [Nat.le_div_iff_mul_le positive,← split]
    exact lower
  · rw [Nat.div_lt_iff_lt_mul positive]
    rw [pow_succ,split] at upper
    omega

theorem octave_lt (us : UInt64) : us.toNat.log2 < 64 := by
  by_cases zero : us.toNat = 0
  · simp [zero]
  · exact (Nat.log2_lt zero).mpr us.toNat_lt

theorem index_large {us : UInt64} (large : 8 ≤ us.toNat) : index us =
    min (us.toNat.log2 * 8 + (us.toNat / 2 ^ (us.toNat.log2 - 3) - 8)) 327 := by
  have above : ¬ us < subBuckets.toUInt64 := by
    rw [UInt64.lt_iff_toNat_lt]
    exact Nat.not_lt.mpr large
  have some : us ≠ 0 := by
    intro zero
    simp [zero] at large
  obtain ⟨octave,lower,upper⟩ := leading_bits large
  have width := octave_lt us
  have zeros : 63 - leadingZeros us = us.toNat.log2 := by
    rw [leadingZeros,if_neg some]
    omega
  have sub : ((us >>> (us.toNat.log2 - 3).toUInt64) &&& (subBuckets.toUInt64 - 1)).toNat =
      us.toNat / 2 ^ (us.toNat.log2 - 3) - 8 := by
    have mask : (subBuckets.toUInt64 - 1).toNat = 2 ^ 3 - 1 := by rfl
    have shift : (us.toNat.log2 - 3).toUInt64.toNat % 64 = us.toNat.log2 - 3 := by
      simp only [Nat.toUInt64_eq,UInt64.toNat_ofNat']
      omega
    rw [UInt64.toNat_and,mask,Nat.and_two_pow_sub_one_eq_mod,UInt64.toNat_shiftRight,shift,
      Nat.shiftRight_eq_div_pow]
    omega
  rw [index,if_neg above]
  simp only [zeros,sub]
  rfl

theorem index_monotone {us other : UInt64} (least : us.toNat ≤ other.toNat) : index us ≤ index other := by
  by_cases large : 8 ≤ us.toNat
  · obtain ⟨octave,lower,upper⟩ := leading_bits large
    obtain ⟨_,above,_⟩ := leading_bits (large.trans least)
    have octaves : us.toNat.log2 ≤ other.toNat.log2 := by
      rw [Nat.log2_eq_log_two,Nat.log2_eq_log_two]
      exact Nat.log_mono_right least
    rw [index_large large,index_large (large.trans least)]
    rcases Nat.lt_or_eq_of_le octaves with later | same
    · omega
    · have bits : us.toNat / 2 ^ (us.toNat.log2 - 3) ≤ other.toNat / 2 ^ (other.toNat.log2 - 3) := by
        rw [← same]
        exact Nat.div_le_div_right least
      omega
  · rw [index_small (Nat.lt_of_not_ge large)]
    by_cases beyond : 8 ≤ other.toNat
    · have octave := (leading_bits beyond).1
      rw [index_large beyond]
      omega
    · rw [index_small (Nat.lt_of_not_ge beyond)]
      exact least

-- Octaves 1 and 2 have no buckets of their own: 8 to 23 are never addressed.
theorem index_gap (us : UInt64) : ¬ (8 ≤ index us ∧ index us ≤ 23) := by
  by_cases large : 8 ≤ us.toNat
  · have octave := (leading_bits large).1
    rw [index_large large]
    omega
  · rw [index_small (Nat.lt_of_not_ge large)]
    omega

theorem lowerBound_small {us : UInt64} (small : us.toNat < 8) : lowerBound (index us) = some us := by
  have below : us.toNat < subBuckets := small
  rw [index_small small,lowerBound,if_pos below]
  simp

-- The row and the column of a bucket past the first octaves.
theorem index_row {us : UInt64} (large : 8 ≤ us.toNat) (bounded : us.toNat < 2 ^ 41) :
    index us / subBuckets = us.toNat.log2 ∧
      index us % subBuckets = us.toNat / 2 ^ (us.toNat.log2 - 3) - 8 := by
  obtain ⟨_,_,upper⟩ := leading_bits large
  have last : us.toNat.log2 < 41 := (Nat.log2_lt (by omega)).mpr bounded
  rw [index_large large,subBuckets]
  omega

theorem lowerBound_large {us : UInt64} (large : 8 ≤ us.toNat) (bounded : us.toNat < 2 ^ 41) :
    ∃ lower, lowerBound (index us) = some lower ∧
      lower.toNat = us.toNat / 2 ^ (us.toNat.log2 - 3) * 2 ^ (us.toNat.log2 - 3) := by
  obtain ⟨octave,lower,upper⟩ := leading_bits large
  have last : us.toNat.log2 < 41 := (Nat.log2_lt (by omega)).mpr bounded
  obtain ⟨row,column⟩ := index_row large bounded
  have past : ¬ index us < subBuckets := by
    intro small
    rw [Nat.div_eq_of_lt small] at row
    omega
  have reaches : ¬ us.toNat.log2 < 3 := by omega
  refine ⟨(subBuckets.toUInt64 + (us.toNat / 2 ^ (us.toNat.log2 - 3) - 8).toUInt64) <<<
    (us.toNat.log2 - 3).toUInt64,?_,?_⟩
  · rw [lowerBound,if_neg past]
    simp only [row,column]
    rw [if_neg reaches]
  · have sum : (subBuckets.toUInt64 + (us.toNat / 2 ^ (us.toNat.log2 - 3) - 8).toUInt64).toNat =
        us.toNat / 2 ^ (us.toNat.log2 - 3) := by
      simp only [subBuckets,Nat.toUInt64_eq,UInt64.toNat_add,UInt64.toNat_ofNat']
      omega
    have shift : (us.toNat.log2 - 3).toUInt64.toNat % 64 = us.toNat.log2 - 3 := by
      simp only [Nat.toUInt64_eq,UInt64.toNat_ofNat']
      omega
    rw [UInt64.toNat_shiftLeft,sum,shift,Nat.shiftLeft_eq]
    apply Nat.mod_eq_of_lt
    exact Nat.lt_of_le_of_lt (Nat.div_mul_le_self _ _) us.toNat_lt

-- What a bucket reports of a value it holds.
def Reported (us lower : UInt64) : Prop :=
  lower ≤ us ∧ (0 < us → 7 * us.toNat < 8 * lower.toNat) ∧ (us < 8 → lower = us)

-- The bound is less than a bucket below, and a bucket is an eighth of it at most.
theorem lowerBound_near {us lower : UInt64} (large : 8 ≤ us.toNat)
    (value : lower.toNat = us.toNat / 2 ^ (us.toNat.log2 - 3) * 2 ^ (us.toNat.log2 - 3)) :
    8 * 2 ^ (us.toNat.log2 - 3) ≤ lower.toNat ∧ lower.toNat ≤ us.toNat ∧
      us.toNat < lower.toNat + 2 ^ (us.toNat.log2 - 3) := by
  have lost := Nat.mod_lt us.toNat (Nat.two_pow_pos (us.toNat.log2 - 3))
  have whole := Nat.div_add_mod us.toNat (2 ^ (us.toNat.log2 - 3))
  rw [Nat.mul_comm,← value] at whole
  refine ⟨?_,by omega,by omega⟩
  rw [value]
  exact Nat.mul_le_mul_right _ (leading_bits large).2.1

theorem lowerBound_index {us : UInt64} (bounded : us.toNat < 2 ^ 41) :
    ∃ lower, lowerBound (index us) = some lower ∧ Reported us lower := by
  by_cases large : 8 ≤ us.toNat
  · obtain ⟨lower,reads,value⟩ := lowerBound_large large bounded
    obtain ⟨eight,least,near⟩ := lowerBound_near large value
    refine ⟨lower,reads,UInt64.le_iff_toNat_le.mpr (by omega),fun _ => by omega,fun small => ?_⟩
    have below : us.toNat < 8 := UInt64.lt_iff_toNat_lt.mp small
    omega
  · refine ⟨us,lowerBound_small (Nat.lt_of_not_ge large),UInt64.le_refl us,fun positive => ?_,fun _ => rfl⟩
    have some : 0 < us.toNat := UInt64.lt_iff_toNat_lt.mp positive
    omega

-- A bucket's lower bound falls into that bucket.
theorem index_lowerBound {us lower : UInt64} (bounded : us.toNat < 2 ^ 41)
    (reads : lowerBound (index us) = some lower) : index lower = index us := by
  by_cases large : 8 ≤ us.toNat
  · obtain ⟨found,again,value⟩ := lowerBound_large large bounded
    obtain rfl : found = lower := Option.some.inj (again.symm.trans reads)
    obtain ⟨octave,eight,sixteen⟩ := leading_bits large
    have least := Nat.div_mul_le_self us.toNat (2 ^ (us.toNat.log2 - 3))
    have width : 0 < 2 ^ (us.toNat.log2 - 3) := Nat.two_pow_pos _
    have power : 2 ^ us.toNat.log2 = 8 * 2 ^ (us.toNat.log2 - 3) := by
      rw [show (8 : Nat) = 2 ^ 3 by rfl,← pow_add]
      congr 1
      omega
    have start : 2 ^ us.toNat.log2 ≤ found.toNat := by
      rw [power,value]
      exact Nat.mul_le_mul_right _ eight
    have still : 8 ≤ found.toNat := by omega
    have same : found.toNat.log2 = us.toNat.log2 := by
      apply (Nat.log2_eq_iff (by omega)).mpr
      have last := Nat.lt_log2_self (n := us.toNat)
      omega
    rw [index_large still,index_large large,same,value,Nat.mul_div_cancel _ width]
  · have itself := lowerBound_small (Nat.lt_of_not_ge large)
    rw [Option.some.inj (reads.symm.trans itself)]

theorem lowerBound_monotone {us other lower upper : UInt64} (least : us.toNat ≤ other.toNat)
    (bounded : other.toNat < 2 ^ 41) (reads : lowerBound (index us) = some lower)
    (later : lowerBound (index other) = some upper) : lower.toNat ≤ upper.toNat := by
  rcases Nat.lt_or_eq_of_le (index_monotone least) with before | same
  · obtain ⟨found,again,below,_⟩ := lowerBound_index (Nat.lt_of_le_of_lt least bounded)
    obtain rfl : found = lower := Option.some.inj (again.symm.trans reads)
    apply (UInt64.le_iff_toNat_le.mp below).trans
    apply Nat.le_of_not_ge
    intro early
    have moved := index_monotone early
    rw [index_lowerBound bounded later] at moved
    omega
  · rw [same,later] at reads
    rw [Option.some.inj reads]

theorem micros_monotone {latency later : Duration} (least : latency ≤ later) :
    (micros latency).toNat ≤ (micros later).toNat := by
  have whole : asMicros latency ≤ asMicros later := Nat.div_le_div_right least
  simp only [micros,Nat.toUInt64_eq,UInt64.toNat_ofNat']
  omega

theorem micros_exact {latency : Duration} (bounded : asMicros latency < 2 ^ 41) :
    (micros latency).toNat = asMicros latency := by
  simp only [micros,Nat.toUInt64_eq,UInt64.toNat_ofNat']
  omega

def recorded (latencies : List Duration) : Histogram := latencies.foldl record empty

def place (latency : Duration) : Nat := index (micros latency)

theorem place_monotone {latency later : Duration} (least : latency ≤ later) :
    place latency ≤ place later := index_monotone (micros_monotone least)

theorem toNat_max (us other : UInt64) : (max us other).toNat = max us.toNat other.toNat := by
  change (if us ≤ other then other else us).toNat = _
  split <;> rename_i ordered <;> rw [UInt64.le_iff_toNat_le] at ordered <;> omega

structure Holds (h : Histogram) (latencies : List Duration) : Prop where
  counted : h.count = latencies.length
  placed : ∀ i (_ : i < bucketCount), h.buckets[i] = latencies.countP (place · = i)
  greatest : ∀ latency ∈ latencies, (micros latency).toNat ≤ h.maxUs.toNat
  attained : latencies = [] ∧ h.maxUs = 0 ∨ ∃ latency ∈ latencies, h.maxUs = micros latency

theorem record_holds {h : Histogram} {latencies : List Duration} (before : Holds h latencies)
    (latency : Duration) : Holds (record h latency) (latencies ++ [latency]) where
  counted := by simp [record,before.counted]
  placed := by
    intro i within
    rw [List.countP_append,List.countP_singleton,← before.placed i within]
    by_cases here : place latency = i
    · subst here
      simp [record,place]
    · have other : index (micros latency) ≠ i := here
      simp [record,here,other]
  greatest := by
    intro seen member
    rw [record,toNat_max]
    rcases List.mem_append.mp member with old | new
    · exact (before.greatest seen old).trans (Nat.le_max_left _ _)
    · rw [List.mem_singleton.mp new]
      exact Nat.le_max_right _ _
  attained := by
    refine .inr ?_
    have here : latency ∈ latencies ++ [latency] := List.mem_append_right _ (List.mem_singleton_self _)
    change ∃ seen ∈ latencies ++ [latency],
      (if h.maxUs ≤ micros latency then micros latency else h.maxUs) = micros seen
    split
    · exact ⟨latency,here,rfl⟩
    · rename_i above
      rcases before.attained with ⟨_,zero⟩ | ⟨seen,member,same⟩
      · rw [zero] at above
        exact absurd UInt64.zero_le above
      · exact ⟨seen,List.mem_append_left _ member,same⟩

theorem recorded_holds (latencies : List Duration) : Holds (recorded latencies) latencies := by
  induction latencies using List.reverseRecOn with
  | nil =>
      refine ⟨rfl,fun i within => ?_,fun latency member => (List.not_mem_nil member).elim,.inl ⟨rfl,rfl⟩⟩
      simp [recorded,empty]
  | append_singleton rest latency ih =>
      rw [recorded,List.foldl_append]
      exact record_holds ih latency

theorem Holds.counters {h : Histogram} {latencies : List Duration} (holds : Holds h latencies) :
    h.buckets.toList = (List.range bucketCount).map fun i => latencies.countP (place · = i) := by
  apply List.ext_getElem
  · simp
  · intro i here there
    have within : i < bucketCount := by simpa using here
    simpa using holds.placed i within

-- The quantile is the lower bound of the bucket that holds the sample of the
-- nearest rank, and it is found there: buckets without a lower bound and the
-- answer behind the scan stay out of reach.
def NearestRank (latencies : List Duration) (h : Histogram) (q : ℚ) : Prop :=
  ∃ sample lower, OrderStatistic.ranked ⌈(latencies.length : ℚ) * q⌉.toNat latencies = some sample ∧
    bucket h q = some (place sample) ∧ ¬ (8 ≤ place sample ∧ place sample ≤ 23) ∧
    lowerBound (place sample) = some lower ∧ quantile h q = some (fromMicros lower) ∧
    lower.toNat ≤ asMicros sample ∧
    (0 < asMicros sample → (7 / 8 : ℚ) * asMicros sample < lower.toNat) ∧
    (asMicros sample < 8 → lower.toNat = asMicros sample)

theorem rank_within {n : Nat} (some : 0 < n) {q : ℚ} (positive : 0 < q) (most : q ≤ 1) :
    0 < ⌈(n : ℚ) * q⌉.toNat ∧ ⌈(n : ℚ) * q⌉.toNat ≤ n := by
  have many : (0 : ℚ) < n := by exact_mod_cast some
  have above : 0 < ⌈(n : ℚ) * q⌉ := Int.ceil_pos.mpr (mul_pos many positive)
  have below : ⌈(n : ℚ) * q⌉ ≤ n := Int.ceil_le.mpr (by exact_mod_cast mul_le_of_le_one_right many.le most)
  omega

theorem Holds.nearest {h : Histogram} {latencies : List Duration} (holds : Holds h latencies)
    (nonempty : latencies ≠ []) (bounded : ∀ latency ∈ latencies, asMicros latency < 2 ^ 41)
    {q : ℚ} (positive : 0 < q) (most : q ≤ 1) : NearestRank latencies h q := by
  have size := List.length_pos_iff.mpr nonempty
  obtain ⟨above,within⟩ := rank_within size positive most
  obtain ⟨sample,member,found⟩ := OrderStatistic.ranked_exists above within
  have exact := micros_exact (bounded sample member)
  have below : (micros sample).toNat < 2 ^ 41 := by
    rw [exact]
    exact bounded sample member
  obtain ⟨lower,reads,least,near,small⟩ := lowerBound_index below
  have aim : target h.count q = ⌈(latencies.length : ℚ) * q⌉.toNat := by
    rw [target,holds.counted]
    exact Nat.max_eq_right above
  have stops : bucket h q = some (place sample) := by
    rw [bucket,aim,holds.counters]
    exact OrderStatistic.reach_ranked (fun _ _ _ _ => place_monotone) (fun _ _ => index_lt _) above member found
  have counted : h.count ≠ 0 := by
    rw [holds.counted]
    omega
  refine ⟨sample,lower,found,stops,index_gap _,reads,?_,?_,?_,?_⟩
  · rw [quantile,if_neg counted,stops]
    change Option.map _ (lowerBound (index (micros sample))) = _
    rw [reads]
    rfl
  · rw [← exact]
    exact UInt64.le_iff_toNat_le.mp least
  · intro positive
    rw [← exact] at positive ⊢
    have close : (7 * (micros sample).toNat : ℚ) < 8 * lower.toNat := by
      exact_mod_cast near (UInt64.lt_iff_toNat_lt.mpr positive)
    linarith
  · intro few
    rw [← exact] at few ⊢
    rw [small (UInt64.lt_iff_toNat_lt.mpr few)]

theorem NearestRank.ordered {latencies : List Duration} {h : Histogram} {q r : ℚ} {early late : Duration}
    (bounded : ∀ latency ∈ latencies, asMicros latency < 2 ^ 41) (least : q ≤ r)
    (first : NearestRank latencies h q) (second : NearestRank latencies h r)
    (reads : quantile h q = some early) (later : quantile h r = some late) : early ≤ late := by
  obtain ⟨sample,lower,found,_,_,bound,reports,_⟩ := first
  obtain ⟨other,upper,there,_,_,above,answers,_⟩ := second
  obtain rfl := Option.some.inj (reads.symm.trans reports)
  obtain rfl := Option.some.inj (later.symm.trans answers)
  have ranks : ⌈(latencies.length : ℚ) * q⌉.toNat ≤ ⌈(latencies.length : ℚ) * r⌉.toNat := by
    apply Int.toNat_le_toNat
    exact Int.ceil_le_ceil (mul_le_mul_of_nonneg_left least (Nat.cast_nonneg _))
  have member := OrderStatistic.ranked_mem there
  apply Nat.mul_le_mul_right
  apply lowerBound_monotone (micros_monotone (OrderStatistic.ranked_le ranks found there)) _ bound above
  rw [micros_exact (bounded other member)]
  exact bounded other member

theorem NearestRank.below_max {latencies : List Duration} {h : Histogram} {q : ℚ} {reported : Duration}
    (holds : Holds h latencies) (bounded : ∀ latency ∈ latencies, asMicros latency < 2 ^ 41)
    (nearest : NearestRank latencies h q) (reads : quantile h q = some reported) :
    reported ≤ fromMicros h.maxUs := by
  obtain ⟨sample,lower,found,_,_,_,reports,least,_⟩ := nearest
  obtain rfl := Option.some.inj (reads.symm.trans reports)
  have member := OrderStatistic.ranked_mem found
  apply Nat.mul_le_mul_right
  apply least.trans
  rw [← micros_exact (bounded sample member)]
  exact holds.greatest sample member

-- The greatest latency, in whole microseconds.
theorem Holds.maximum {h : Histogram} {latencies : List Duration} (holds : Holds h latencies)
    (nonempty : latencies ≠ []) (bounded : ∀ latency ∈ latencies, asMicros latency < 2 ^ 41) :
    (∀ latency ∈ latencies, asMicros latency * 1000 ≤ fromMicros h.maxUs) ∧
      ∃ latency ∈ latencies, fromMicros h.maxUs = asMicros latency * 1000 := by
  refine ⟨fun latency member => ?_,?_⟩
  · rw [← micros_exact (bounded latency member)]
    exact Nat.mul_le_mul_right _ (holds.greatest latency member)
  · rcases holds.attained with ⟨none,_⟩ | ⟨latency,member,same⟩
    · exact absurd none nonempty
    · exact ⟨latency,member,by rw [fromMicros,same,micros_exact (bounded latency member)]⟩

end Histogram

def latenciesOf (stage : LatencyStage) (events : List (LatencyStage × Duration)) : List Duration :=
  (events.filter (·.1 = stage)).map (·.2)

def recordStages (events : List (LatencyStage × Duration)) : Inner :=
  events.foldl (fun inner event => recordStage inner event.1 event.2) Inner.new

theorem recordStage_histogram (inner : Inner) (stage other : LatencyStage) (latency : Duration) :
    histogram (recordStage inner stage latency) other =
      if stage = other then (histogram inner other).record latency else histogram inner other := by
  cases stage <;> cases other <;> rfl

theorem latenciesOf_append (stage : LatencyStage) (events : List (LatencyStage × Duration))
    (event : LatencyStage × Duration) : latenciesOf stage (events ++ [event]) =
      latenciesOf stage events ++ if event.1 = stage then [event.2] else [] := by
  rw [latenciesOf,List.filter_append,List.map_append]
  by_cases here : event.1 = stage <;> simp [latenciesOf,here]

theorem recordStages_holds (events : List (LatencyStage × Duration)) (stage : LatencyStage) :
    Histogram.Holds (histogram (recordStages events) stage) (latenciesOf stage events) := by
  induction events using List.reverseRecOn with
  | nil => cases stage <;> exact Histogram.recorded_holds []
  | append_singleton rest event ih =>
      rw [recordStages,List.foldl_append]
      change Histogram.Holds (histogram (recordStage (recordStages rest) event.1 event.2) stage) _
      rw [recordStage_histogram,latenciesOf_append]
      by_cases here : event.1 = stage
      · rw [if_pos here,if_pos here]
        exact Histogram.record_holds ih event.2
      · rw [if_neg here,if_neg here,List.append_nil]
        exact ih

-- Whatever was recorded in between for other stages, the quantiles of a stage are
-- the nearest ranks of its own latencies; its percentiles are three of them and
-- its greatest latency, in order.
theorem quantile_nearest_rank (events : List (LatencyStage × Duration)) (stage : LatencyStage)
    (nonempty : latenciesOf stage events ≠ [])
    (bounded : ∀ latency ∈ latenciesOf stage events, asMicros latency < 2 ^ 41) :
    (∀ q : ℚ, 0 < q → q ≤ 1 →
      Histogram.NearestRank (latenciesOf stage events) (histogram (recordStages events) stage) q) ∧
    ∃ percentiles, stagePercentiles (recordStages events) stage = some percentiles ∧
      (histogram (recordStages events) stage).quantile (1 / 2) = some percentiles.p50 ∧
      (histogram (recordStages events) stage).quantile (19 / 20) = some percentiles.p95 ∧
      (histogram (recordStages events) stage).quantile (99 / 100) = some percentiles.p99 ∧
      (∀ latency ∈ latenciesOf stage events, asMicros latency * 1000 ≤ percentiles.max) ∧
      (∃ latency ∈ latenciesOf stage events, percentiles.max = asMicros latency * 1000) ∧
      percentiles.p50 ≤ percentiles.p95 ∧ percentiles.p95 ≤ percentiles.p99 ∧
      percentiles.p99 ≤ percentiles.max := by
  have holds := recordStages_holds events stage
  have nearest : ∀ q : ℚ, 0 < q → q ≤ 1 →
      Histogram.NearestRank (latenciesOf stage events) (histogram (recordStages events) stage) q :=
    fun q positive most => holds.nearest nonempty bounded positive most
  refine ⟨nearest,?_⟩
  have first := nearest (1 / 2) (by norm_num) (by norm_num)
  have second := nearest (19 / 20) (by norm_num) (by norm_num)
  have third := nearest (99 / 100) (by norm_num) (by norm_num)
  obtain ⟨_,median,_,_,_,_,p50,_⟩ := id first
  obtain ⟨_,tail,_,_,_,_,p95,_⟩ := id second
  obtain ⟨_,far,_,_,_,_,p99,_⟩ := id third
  obtain ⟨above,attained⟩ := holds.maximum nonempty bounded
  refine ⟨⟨fromMicros median,fromMicros tail,fromMicros far,
    fromMicros (histogram (recordStages events) stage).maxUs,(histogram (recordStages events) stage).count⟩,
    ?_,p50,p95,p99,above,attained,?_,?_,?_⟩
  · rw [stagePercentiles,p50,p95,p99]
    rfl
  · exact first.ordered bounded (by norm_num) second p50 p95
  · exact second.ordered bounded (by norm_num) third p95 p99
  · exact third.below_max holds bounded p99

theorem quantile_nearest_rank_forward :
    (∀ q : ℚ, 0 < q → q ≤ 1 → Histogram.NearestRank [5000000,70000]
      (histogram (recordStages [(.forward,5000000),(.queue,1),(.forward,70000)]) .forward) q) ∧
    ∃ percentiles, stagePercentiles (recordStages [(.forward,5000000),(.queue,1),(.forward,70000)]) .forward =
        some percentiles ∧ 5000000 ≤ percentiles.max := by
  obtain ⟨nearest,percentiles,reads,_,_,_,above,_⟩ := quantile_nearest_rank
    [(.forward,5000000),(.queue,1),(.forward,70000)] .forward (by decide) (by decide)
  exact ⟨nearest,percentiles,reads,above 5000000 (by decide)⟩

end SemanticClassifier.Metrics
