import SemanticClassifier.Library.Separated
import SemanticClassifier.Service
import SemanticClassifier.TextCacheRecall

namespace SemanticClassifier.Isolation
open Prefilter Separated Service

abbrev Identity := String × String × String × String × Option String

def tagFields (identity : Identity) : List (List Char) :=
  [identity.1.toList,identity.2.1.toList,identity.2.2.1.toList,identity.2.2.2.1.toList] ++
    (identity.2.2.2.2.map String.toList).toList

def tagPieces (identity : Identity) : List (List Char) := pieces '|' (tagFields identity)

-- No digest, and no separator inside a field.
structure Plain (identity : Identity) : Prop where
  undigested : identity.2.2.2.2 = none
  clean : ∀ field ∈ tagFields identity, '|' ∉ field

theorem tagFields_nonempty (identity : Identity) : tagFields identity ≠ [] := by
  simp [tagFields]

theorem identityTag_toList (identity : Identity) :
    (identityTag identity).toList = join '|' (tagFields identity) := by
  obtain ⟨classifier,model,tokenizer,taxonomy,digest⟩ := identity
  cases digest <;> simp [identityTag,tagFields,join,String.toList_append]

-- The tag says nothing but the pieces.
theorem identityTag_eq_iff (a b : Identity) :
    identityTag a = identityTag b ↔ tagPieces a = tagPieces b := by
  rw [← String.toList_inj,identityTag_toList,identityTag_toList]
  exact join_eq_iff '|' (tagFields_nonempty a) (tagFields_nonempty b)

theorem tagFields_injective {a b : Identity} (same : tagFields a = tagFields b) : a = b := by
  obtain ⟨classifier,model,tokenizer,taxonomy,digest⟩ := a
  obtain ⟨classifier',model',tokenizer',taxonomy',digest'⟩ := b
  simp only [tagFields,List.cons_append,List.nil_append,List.cons.injEq,String.toList_inj] at same
  obtain ⟨rfl,rfl,rfl,rfl,rest⟩ := same
  cases digest <;> cases digest' <;> simp_all [String.toList_inj]

theorem tagFields_length (identity : Identity) :
    (tagFields identity).length = if identity.2.2.2.2.isSome then 5 else 4 := by
  cases digest : identity.2.2.2.2 <;> simp [tagFields,digest]

theorem Plain.pieces {identity : Identity} (plain : Plain identity) :
    tagPieces identity = tagFields identity := pieces_clean '|' plain.clean

-- An identity that is not plain has pieces to spare.
theorem plain_of_pieces {identity : Identity} (few : (tagPieces identity).length ≤ 4) : Plain identity := by
  have counted := length_pieces '|' (tagFields identity)
  have size := tagFields_length identity
  unfold tagPieces at few
  have undigested : identity.2.2.2.2 = none := by
    cases digest : identity.2.2.2.2 with
    | none => rfl
    | some text =>
        rw [digest] at size
        simp only [Option.isSome_some,if_true] at size
        omega
  refine ⟨undigested,?_⟩
  intro field inside dirty
  have more := length_pieces_dirty inside dirty
  rw [undigested] at size
  simp only [Option.isSome_none,Bool.false_eq_true,if_false] at size
  omega

-- Five pieces make two identities: one with the last ones in its taxonomy
-- revision, one with them in a digest.
theorem two_readings (p q r u v : List Char) (rest : List (List Char)) :
    let tag := join '|' (p :: q :: r :: u :: v :: rest)
    let undigested : Identity := (String.ofList p,String.ofList q,String.ofList r,
      String.ofList (join '|' (u :: v :: rest)),none)
    let digested : Identity := (String.ofList p,String.ofList q,String.ofList r,String.ofList u,
      some (String.ofList (join '|' (v :: rest))))
    (identityTag undigested).toList = tag ∧ (identityTag digested).toList = tag ∧ undigested ≠ digested := by
  intro tag undigested digested
  refine ⟨?_,?_,?_⟩
  · rw [identityTag_toList]
    simpa [tagFields,undigested] using join_regroup '|' [p,q,r] (u :: v :: rest) (by simp)
  · rw [identityTag_toList]
    simpa [tagFields,digested] using join_regroup '|' [p,q,r,u] (v :: rest) (by simp)
  · intro same
    cases congrArg (·.2.2.2.2) same

theorem five_of_length {pieces : List (List Char)} (many : 4 < pieces.length) :
    ∃ p q r u v rest, pieces = p :: q :: r :: u :: v :: rest := by
  rcases pieces with _ | ⟨p,_ | ⟨q,_ | ⟨r,_ | ⟨u,_ | ⟨v,rest⟩⟩⟩⟩⟩
  case cons.cons.cons.cons.cons => exact ⟨p,q,r,u,v,rest,rfl⟩
  all_goals simp at many

-- Exactly the plain identities have their tag to themselves.
theorem tag_unique_iff (a : Identity) : (∀ b, identityTag a = identityTag b → a = b) ↔ Plain a := by
  constructor
  · intro unique
    apply plain_of_pieces
    by_contra many
    have joined : join '|' (tagPieces a) = (identityTag a).toList := by
      rw [identityTag_toList,tagPieces,← splitOn_join '|' (tagFields_nonempty a),join,List.intercalate_splitOn]
    obtain ⟨p,q,r,u,v,rest,found⟩ := five_of_length (Nat.lt_of_not_le many)
    obtain ⟨one,two,differ⟩ := two_readings p q r u v rest
    rw [← found,joined] at one two
    exact differ ((unique _ (String.toList_inj.mp one.symm)).symm.trans
      (unique _ (String.toList_inj.mp two.symm)))
  · intro plain b same
    have pieces := (identityTag_eq_iff a b).mp same
    have size := tagFields_length a
    rw [plain.undigested] at size
    have few : (tagPieces b).length ≤ 4 := by
      rw [← pieces,plain.pieces]
      exact size.le
    rw [plain.pieces,(plain_of_pieces few).pieces] at pieces
    exact tagFields_injective pieces

-- An approximate tier shared by several cores: it serves what was inserted
-- under the query's own tag and nothing else.
structure Tier (ι ρ : Type) where
  lookup : List (ι × ρ × String) → ι → String → Option ρ
  serves : ∀ inserted query tag result, lookup inserted query tag = some result →
    ∃ q, (q,result,tag) ∈ inserted

-- What the cores insert, each under its own tag.
def tagged {ι ρ : Type} (history : List (Identity × ι × ρ)) : List (ι × ρ × String) :=
  history.map fun row => (row.2.1,row.2.2,identityTag row.1)

-- Of two cores on one tier, `a` is only ever served what `a` inserted.
def Isolated {ι ρ : Type} (tier : Tier ι ρ) (a b : Identity) : Prop :=
  ∀ history : List (Identity × ι × ρ), (∀ row ∈ history, row.1 = a ∨ row.1 = b) →
    ∀ query result, tier.lookup (tagged history) query (identityTag a) = some result →
      ∃ q, (a,q,result) ∈ history

def memoryTier (ρ : Type) (hashOne : UInt64 × List UInt64 → UInt64) (capacity : Nat) (threshold : ℚ) :
    Tier Signature ρ where
  lookup inserted query tag := TextCache.lookup hashOne
    (TextCache.insertAll hashOne (TextCache.new ρ capacity threshold)
      (inserted.map fun row => ⟨row.1,row.2.2,row.2.1⟩)) query tag
  serves inserted query tag result hit := by
    obtain ⟨e,live,mine,served,_⟩ := TextCache.lookup_live hit
    have old := (TextCache.insertAll_inStep capacity threshold _).live_inserted live
    obtain ⟨row,member,rfl⟩ := List.mem_map.mp old
    exact ⟨row.1,mine ▸ served ▸ member⟩

theorem isolated_of_tags {ι ρ : Type} (tier : Tier ι ρ) {a b : Identity}
    (apart : identityTag a = identityTag b → a = b) : Isolated tier a b := by
  intro history two query result hit
  obtain ⟨q,member⟩ := tier.serves _ _ _ _ hit
  obtain ⟨⟨owner,ask,answer⟩,row,equal⟩ := List.mem_map.mp member
  simp only [Prod.mk.injEq] at equal
  obtain ⟨rfl,rfl,tag⟩ := equal
  refine ⟨ask,?_⟩
  rcases two _ row with mine | other
  · exact mine ▸ row
  · have same : a = b := apart (other ▸ tag.symm)
    have owned : owner = a := other.trans same.symm
    exact owned ▸ row

theorem full_signature : ∃ sig : Signature, sig.slots.length = 128 ∧ sig.jaccard sig = 1 :=
  ⟨⟨List.replicate 128 0⟩,List.length_replicate,by decide +kernel⟩

-- One core inserts, the other asks for the same text.
theorem memoryTier_shares {ρ : Type} [Inhabited ρ] (hashOne : UInt64 × List UInt64 → UInt64)
    {a b : Identity} (same : identityTag a = identityTag b) (differ : a ≠ b) :
    ¬ Isolated (memoryTier ρ hashOne 1 1) a b := by
  intro isolated
  obtain ⟨sig,size,self⟩ := full_signature
  obtain ⟨entry,made⟩ : ∃ entry : TextCache.Entry ρ, entry = ⟨sig,identityTag b,default⟩ := ⟨_,rfl⟩
  obtain ⟨c,built⟩ : ∃ c, c = TextCache.insertAll hashOne (TextCache.new ρ 1 1) [entry] := ⟨_,rfl⟩
  have valid : TextCache.InStep hashOne c [entry] := built ▸ TextCache.insertAll_inStep 1 1 [entry]
  have threshold : c.threshold = 1 := by
    rw [built,TextCache.insertAll_threshold]
    norm_num [TextCache.new]
  have capacity : c.capacity = 1 := by
    rw [built,TextCache.insertAll_capacity]
    rfl
  have live : entry ∈ c.entries := by
    have ring := valid.ring.perm
    rw [capacity] at ring
    exact ring.mem_iff.mpr (List.mem_singleton.mpr rfl)
  have stored : entry.sig = sig := by rw [made]
  have close : c.threshold ≤ sig.jaccard entry.sig := by rw [threshold,stored,self]
  have mine : entry.identity = identityTag a := by rw [made,same]
  have some := valid.lookup_isSome (by rw [threshold]; norm_num)
    (fun e inside => by rw [List.mem_singleton.mp inside,stored,size]) size live mine close
  rw [built,made] at some
  obtain ⟨result,hit⟩ := Option.isSome_iff_exists.mp some
  obtain ⟨q,member⟩ := isolated [(b,sig,default)] (by simp) sig result hit
  exact differ (Prod.mk.inj (List.mem_singleton.mp member)).1

-- The plainest tier: the oldest result under the tag.
def firstTier (ι ρ : Type) : Tier ι ρ where
  lookup inserted _ tag := (inserted.find? fun row => row.2.2 = tag).map fun row => row.2.1
  serves inserted query tag result hit := by
    obtain ⟨row,found,rfl⟩ := Option.map_eq_some_iff.mp hit
    have mine : row.2.2 = tag := by simpa using List.find?_some found
    exact ⟨row.1,mine ▸ List.mem_of_find?_eq_some found⟩

theorem firstTier_shares {ι ρ : Type} [Inhabited ι] [Inhabited ρ] {a b : Identity}
    (same : identityTag a = identityTag b) (differ : a ≠ b) : ¬ Isolated (firstTier ι ρ) a b := by
  intro isolated
  have hit : (firstTier ι ρ).lookup (tagged [(b,default,default)]) default (identityTag a) =
      some default := by
    simp [firstTier,tagged,same]
  obtain ⟨q,member⟩ := isolated [(b,default,default)] (by simp) default default hit
  exact differ (Prod.mk.inj (List.mem_singleton.mp member)).1

-- One core never sees what the other inserted if and only if their fields, cut
-- at every separator, do not read alike; and the identities nobody can collide
-- with are the plain ones.
theorem identities_isolated_iff {ι ρ : Type} [Inhabited ι] [Inhabited ρ] (a b : Identity) :
    ((identityTag a = identityTag b → a = b) ↔ a = b ∨ tagPieces a ≠ tagPieces b) ∧
    ((∀ hashOne capacity threshold, Isolated (memoryTier ρ hashOne capacity threshold) a b) ↔
      a = b ∨ tagPieces a ≠ tagPieces b) ∧
    ((∀ tier : Tier ι ρ, Isolated tier a b) ↔ a = b ∨ tagPieces a ≠ tagPieces b) ∧
    ((∀ c, identityTag a = identityTag c → a = c) ↔ Plain a) := by
  have tags : (identityTag a = identityTag b → a = b) ↔ a = b ∨ tagPieces a ≠ tagPieces b := by
    rw [identityTag_eq_iff]
    constructor
    · intro apart
      by_cases same : tagPieces a = tagPieces b
      · exact .inl (apart same)
      · exact .inr same
    · intro either same
      exact either.elim id fun differ => absurd same differ
  refine ⟨tags,?_,?_,tag_unique_iff a⟩
  · rw [← tags]
    constructor
    · intro isolated same
      by_contra differ
      exact memoryTier_shares (fun fed => fed.1) same differ (isolated _ 1 1)
    · intro apart hashOne capacity threshold
      exact isolated_of_tags _ apart
  · rw [← tags]
    constructor
    · intro isolated same
      by_contra differ
      exact firstTier_shares same differ (isolated _)
    · intro apart tier
      exact isolated_of_tags tier apart

-- A pipe moved from one revision to the next.
theorem shifted_pipe :
    let a : Identity := ("c","m|t","x","y",none)
    let b : Identity := ("c","m","t|x","y",none)
    ¬ (identityTag a = identityTag b → a = b) ∧
      ¬ ∀ hashOne capacity threshold, Isolated (memoryTier Nat hashOne capacity threshold) a b := by
  intro a b
  have same : identityTag a = identityTag b := by decide
  have differ : a ≠ b := by decide
  exact ⟨fun apart => differ (apart same),
    fun isolated => memoryTier_shares (fun fed => fed.1) same differ (isolated _ 1 1)⟩

end SemanticClassifier.Isolation
