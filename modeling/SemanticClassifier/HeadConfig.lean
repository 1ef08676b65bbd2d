import Mathlib.Data.List.NodupEquivFin
import Mathlib.Data.List.Sort
import Mathlib.Data.String.Basic
import SemanticClassifier.Head
import SemanticClassifier.Library.Decimal
import SemanticClassifier.Library.OrderedMap

namespace SemanticClassifier.Head

-- `parse::<usize>` of a key.
def index (key : String) : Option Nat := Decimal.parse (2 ^ 64) key.toList

def labelPairs (map : OrderedMap String String) : List (Nat × String) :=
  map.entries.filterMap fun entry => (index entry.1).map fun i => (i,entry.2)

def sortByKey (pairs : List (Nat × String)) : List (Nat × String) := pairs.insertionSort fun a b => a.1 ≤ b.1

-- `probe` deserializes the file's `id2label`: no JSON, no such field, or a map.
def fromConfig (probe : String → Option (Option (OrderedMap String String))) (raw : String) :
    Option LabelMap := do
  let p ← probe raw
  let map ← p
  let pairs := sortByKey (labelPairs map)
  if pairs.isEmpty || pairs.zipIdx.any (fun pair => pair.2 != pair.1.1) then none
  else some ⟨pairs.map Prod.snd⟩

-- Every entry used once, at the position its key denotes; else no labels at all.
structure Faithful (map : OrderedMap String String) (result : Option LabelMap) : Prop where
  counted : ∀ read, result = some read → read.labels.length = map.entries.length
  placed : ∀ read, result = some read → ∀ i label, read.labels[i]? = some label →
    ∃ key, (key,label) ∈ map.entries ∧ index key = some i ∧
      ∀ other ∈ map.keys, index other = some i → other = key
  refused : (∃ key ∈ map.keys, index key = none) ∨
      (∃ key ∈ map.keys, ∃ other ∈ map.keys, key ≠ other ∧ index key = index other) ∨
      (∃ i < map.entries.length, ∀ key ∈ map.keys, index key ≠ some i) → result = none

def indices (map : OrderedMap String String) : List Nat := map.keys.filterMap index

-- The keys that are indices at all denote 0 and up, each number once.
def Contiguous (map : OrderedMap String String) : Prop :=
  indices map ≠ [] ∧ (indices map).Perm (List.range (indices map).length)

theorem labelPairs_indices (map : OrderedMap String String) : (labelPairs map).map Prod.fst = indices map := by
  rw [labelPairs,indices,OrderedMap.keys,List.map_filterMap,List.filterMap_map]
  congr 1
  funext entry
  simp [Function.comp_def]

theorem enumerated_iff (pairs : List (Nat × String)) :
    pairs.zipIdx.any (fun pair => pair.2 != pair.1.1) = false ↔ pairs.map Prod.fst = List.range pairs.length := by
  rw [List.any_eq_false]
  constructor
  · intro none
    apply List.ext_getElem
    · simp
    · intro i here there
      rw [List.length_map] at here
      have placed := none (pairs[i],i) (List.mem_zipIdx_iff_getElem?.mpr (List.getElem?_eq_getElem here))
      rw [List.getElem_map,List.getElem_range]
      simp only [bne_iff_ne,ne_eq,not_not] at placed
      exact placed.symm
  · intro same pair member
    obtain ⟨⟨n,label⟩,i⟩ := pair
    have found : pairs[i]? = some (n,label) := List.mem_zipIdx_iff_getElem?.mp member
    have below := (List.getElem?_eq_some_iff.mp found).1
    have first : (pairs.map Prod.fst)[i]? = (List.range pairs.length)[i]? := by rw [same]
    rw [List.getElem?_map,found,List.getElem?_range below] at first
    simp only [bne_iff_ne,ne_eq,not_not]
    exact (Option.some.inj first).symm

theorem sorted_indices (map : OrderedMap String String) :
    (sortByKey (labelPairs map)).map Prod.fst = (indices map).insertionSort (· ≤ ·) := by
  rw [← labelPairs_indices]
  exact List.map_insertionSort _ _ _ _ fun a _ b _ => Iff.rfl

theorem sorted_range (numbers : List Nat) :
    numbers.insertionSort (· ≤ ·) = List.range numbers.length ↔ numbers.Perm (List.range numbers.length) := by
  constructor
  · intro same
    rw [← same]
    exact (List.perm_insertionSort _ numbers).symm
  · intro same
    apply List.Perm.eq_of_pairwise' (List.pairwise_insertionSort _ numbers) List.pairwise_le_range
    exact (List.perm_insertionSort _ numbers).trans same

theorem sorted_length (map : OrderedMap String String) :
    (sortByKey (labelPairs map)).length = (indices map).length := by
  rw [sortByKey,List.length_insertionSort,← labelPairs_indices,List.length_map]

variable {map : OrderedMap String String} {probe : String → Option (Option (OrderedMap String String))}
  {raw : String}

theorem fromConfig_iff (read : probe raw = some (some map)) (result : LabelMap) :
    fromConfig probe raw = some result ↔
      Contiguous map ∧ result = ⟨(sortByKey (labelPairs map)).map Prod.snd⟩ := by
  have empty : (sortByKey (labelPairs map)).isEmpty = false ↔ indices map ≠ [] := by
    rw [List.isEmpty_eq_false_iff,← List.length_pos_iff,sorted_length,List.length_pos_iff]
  have guard : ((sortByKey (labelPairs map)).isEmpty ||
      (sortByKey (labelPairs map)).zipIdx.any (fun pair => pair.2 != pair.1.1)) = false ↔ Contiguous map := by
    rw [Bool.or_eq_false_iff,empty,enumerated_iff,sorted_length,sorted_indices,sorted_range]
    rfl
  simp only [fromConfig,read,Option.bind_eq_bind,Option.bind_some]
  by_cases whole : Contiguous map
  · rw [guard.mpr whole,if_neg Bool.false_ne_true,Option.some_inj,eq_comm]
    exact (and_iff_right whole).symm
  · rw [if_pos (eq_true_of_ne_false (fun none => whole (guard.mp none)))]
    constructor
    · intro none
      cases none
    · intro both
      exact absurd both.1 whole

-- Under contiguous indices the entry behind a position is the one whose key denotes it.
theorem placed_entry (whole : Contiguous map) {i : Nat} {label : String}
    (found : ((sortByKey (labelPairs map)).map Prod.snd)[i]? = some label) :
    ∃ key, (key,label) ∈ map.entries ∧ index key = some i := by
  rw [List.getElem?_map,Option.map_eq_some_iff] at found
  obtain ⟨⟨n,text⟩,here,rfl⟩ := found
  have below := (List.getElem?_eq_some_iff.mp here).1
  have first : ((sortByKey (labelPairs map)).map Prod.fst)[i]? = some i := by
    rw [sorted_indices,(sorted_range _).mpr whole.2,← sorted_length,List.getElem?_range below]
  rw [List.getElem?_map,here,Option.map_some,Option.some_inj] at first
  have member : (n,text) ∈ labelPairs map :=
    (List.mem_insertionSort _).mp (List.mem_of_getElem? here)
  obtain ⟨entry,there,read⟩ := List.mem_filterMap.mp member
  obtain ⟨number,parsed,same⟩ := Option.map_eq_some_iff.mp read
  cases same
  cases first
  exact ⟨entry.1,there,parsed⟩

theorem filterMap_all {keys : List String} (all : ∀ key ∈ keys, index key ≠ none) :
    keys.map index = (keys.filterMap index).map some := by
  induction keys with
  | nil => rfl
  | cons key rest ih =>
      obtain ⟨first,others⟩ := List.forall_mem_cons.mp all
      obtain ⟨i,read⟩ := Option.ne_none_iff_exists'.mp first
      rw [List.map_cons,ih others,List.filterMap_cons_some read,List.map_cons,read]

theorem keys_apart (whole : Contiguous map) (all : ∀ key ∈ map.keys, index key ≠ none) :
    ∀ key ∈ map.keys, ∀ other ∈ map.keys, index key = index other → key = other := by
  have nodup : (map.keys.map index).Nodup := by
    rw [filterMap_all all]
    exact (whole.2.nodup_iff.mpr List.nodup_range).map (Option.some_injective _)
  intro key left other right same
  exact List.inj_on_of_nodup_map nodup left right same

theorem indices_length (all : ∀ key ∈ map.keys, index key ≠ none) :
    (indices map).length = map.entries.length := by
  have size := congrArg List.length (filterMap_all all)
  rw [List.length_map,List.length_map,OrderedMap.keys,List.length_map] at size
  exact size.symm

-- Only a key that is no index is dropped without a word, and only when the rest
-- would do without it.
theorem fromConfig_faithful_iff (probe : String → Option (Option (OrderedMap String String))) (raw : String)
    (map : OrderedMap String String) (read : probe raw = some (some map)) :
    Faithful map (fromConfig probe raw) ↔ (∀ key ∈ map.keys, index key ≠ none) ∨ ¬ Contiguous map := by
  by_cases whole : Contiguous map
  · have answer : fromConfig probe raw = some ⟨(sortByKey (labelPairs map)).map Prod.snd⟩ :=
      (fromConfig_iff read _).mpr ⟨whole,rfl⟩
    rw [answer]
    constructor
    · intro faithful
      refine .inl fun key member junk => ?_
      cases faithful.refused (.inl ⟨key,member,junk⟩)
    · intro condition
      have all := condition.resolve_right (not_not_intro whole)
      refine ⟨?_,?_,?_⟩
      · intro labels same
        cases same
        rw [List.length_map,sorted_length,indices_length all]
      · intro labels same i label found
        cases same
        obtain ⟨key,there,parsed⟩ := placed_entry whole found
        refine ⟨key,there,parsed,fun other member denotes => ?_⟩
        exact keys_apart whole all other member key (List.mem_map_of_mem there) (denotes.trans parsed.symm)
      · intro flawed
        exfalso
        rcases flawed with ⟨key,member,junk⟩ | ⟨key,left,other,right,apart,same⟩ | ⟨i,below,missing⟩
        · exact all key member junk
        · exact apart (keys_apart whole all key left other right same)
        · rw [← indices_length all] at below
          have there := whole.2.mem_iff.mpr (List.mem_range.mpr below)
          obtain ⟨key,member,denotes⟩ := List.mem_filterMap.mp there
          exact missing key member denotes
  · have none : fromConfig probe raw = none := by
      cases answer : fromConfig probe raw with
      | none => rfl
      | some labels => exact absurd ((fromConfig_iff read labels).mp answer).1 whole
    rw [none]
    refine ⟨fun _ => .inr whole,fun _ => ⟨?_,?_,fun _ => rfl⟩⟩
    · intro labels same
      cases same
    · intro labels same
      cases same

def twoText : String := "\x7b\"id2label\":\x7b\"0\":\"TRIVIAL\",\"1\":\"WORK\"\x7d\x7d"

def junkText : String :=
  "\x7b\"id2label\":\x7b\"0\":\"TRIVIAL\",\"1\":\"WORK\",\"two\":\"HARD\"\x7d\x7d"

def twoLabels : OrderedMap String String := ⟨[("0","TRIVIAL"),("1","WORK")],by decide⟩

def junkLabels : OrderedMap String String := ⟨[("0","TRIVIAL"),("1","WORK"),("two","HARD")],by decide⟩

def readLabels (raw : String) : Option (Option (OrderedMap String String)) :=
  if raw = twoText then some (some twoLabels) else if raw = junkText then some (some junkLabels) else none

theorem fromConfig_faithful_iff_two : Faithful twoLabels (fromConfig readLabels twoText) ↔
    (∀ key ∈ twoLabels.keys, index key ≠ none) ∨ ¬ Contiguous twoLabels :=
  fromConfig_faithful_iff readLabels twoText twoLabels (if_pos rfl)

theorem junk_key_dropped : fromConfig readLabels junkText = some ⟨["TRIVIAL","WORK"]⟩ ∧
    ¬ Faithful junkLabels (fromConfig readLabels junkText) := by
  have read : readLabels junkText = some (some junkLabels) := rfl
  have answer : fromConfig readLabels junkText = some ⟨["TRIVIAL","WORK"]⟩ := by
    simp only [fromConfig,read,Option.bind_eq_bind,Option.bind_some]
    rfl
  refine ⟨answer,fun faithful => ?_⟩
  have few := faithful.counted _ answer
  cases few

end SemanticClassifier.Head
