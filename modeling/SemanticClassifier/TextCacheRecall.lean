import SemanticClassifier.Library.Fifo
import SemanticClassifier.TextCacheIndex

namespace SemanticClassifier.TextCache
open Prefilter Buckets

variable {ρ : Type} {hashOne : UInt64 × List UInt64 → UInt64}

-- What the candidate loop carries: the best verified entry among the ids seen so
-- far, and none only while no seen id holds an entry of the query's identity.
def Best (entries : List (Entry ρ)) (sig : Signature) (identity : String) (seen : List Nat) :
    Option (ℚ × Entry ρ) → Prop
  | none => ∀ id ∈ seen, ∀ e, entries[id]? = some e → e.identity ≠ identity
  | some (j,e) => (∃ id ∈ seen, entries[id]? = some e) ∧ e.identity = identity ∧
      j = sig.jaccard e.sig ∧ ∀ id ∈ seen, ∀ other, entries[id]? = some other →
        other.identity = identity → sig.jaccard other.sig ≤ j

section Loop
variable {entries : List (Entry ρ)} {sig : Signature} {identity : String} {seen : List Nat}

-- An id that holds nothing of the identity leaves the best as it is.
theorem Best.skip {best : Option (ℚ × Entry ρ)} (valid : Best entries sig identity seen best)
    (id : Nat) (foreign : ∀ e, entries[id]? = some e → e.identity ≠ identity) :
    Best entries sig identity (seen ++ [id]) best := by
  cases best with
  | none =>
      intro other member e slot
      rcases List.mem_append.mp member with old | new
      · exact valid other old e slot
      · exact foreign e (List.mem_singleton.mp new ▸ slot)
  | some pair =>
      obtain ⟨⟨at_,known,slot⟩,same,score,top⟩ := valid
      refine ⟨⟨at_,List.mem_append_left _ known,slot⟩,same,score,?_⟩
      intro other member e held mine
      rcases List.mem_append.mp member with old | new
      · exact top other old e held mine
      · exact absurd mine (foreign e (List.mem_singleton.mp new ▸ held))

-- A new entry of the identity takes over when it is the first or strictly better.
theorem Best.take {best : Option (ℚ × Entry ρ)} {id : Nat} {e : Entry ρ}
    (valid : Best entries sig identity seen best) (slot : entries[id]? = some e)
    (mine : e.identity = identity) (better : ∀ j kept, best = some (j,kept) → j ≤ sig.jaccard e.sig) :
    Best entries sig identity (seen ++ [id]) (some (sig.jaccard e.sig,e)) := by
  refine ⟨⟨id,by simp,slot⟩,mine,rfl,?_⟩
  intro other member e' held same
  rcases List.mem_append.mp member with old | new
  · cases best with
    | none => exact absurd same (valid other old e' held)
    | some pair => exact le_trans (valid.2.2.2 other old e' held same) (better _ _ rfl)
  · rw [List.mem_singleton.mp new,slot] at held
    cases Option.some.inj held
    exact le_refl _

theorem Best.keep {id : Nat} {e kept : Entry ρ} {j : ℚ}
    (valid : Best entries sig identity seen (some (j,kept))) (slot : entries[id]? = some e)
    (worse : sig.jaccard e.sig ≤ j) : Best entries sig identity (seen ++ [id]) (some (j,kept)) := by
  obtain ⟨⟨at_,known,held⟩,same,score,top⟩ := valid
  refine ⟨⟨at_,List.mem_append_left _ known,held⟩,same,score,?_⟩
  intro other member e' found mine
  rcases List.mem_append.mp member with old | new
  · exact top other old e' found mine
  · rw [List.mem_singleton.mp new,slot] at found
    cases Option.some.inj found
    exact worse

theorem consider_best {best : Option (ℚ × Entry ρ)} (valid : Best entries sig identity seen best)
    (id : Nat) :
    Best entries sig identity (seen ++ [id]) (consider entries sig identity best id) := by
  unfold consider
  cases slot : entries[id]? with
  | none => exact valid.skip id (by simp [slot])
  | some e =>
      by_cases mine : e.identity = identity
      · cases best with
        | none => simpa [mine] using valid.take slot mine (by simp)
        | some pair =>
            obtain ⟨j,kept⟩ := pair
            by_cases more : sig.jaccard e.sig > j
            · have taken := valid.take slot mine
                (fun _ _ same => by cases same; exact le_of_lt more)
              simpa [mine,more] using taken
            · have held := valid.keep slot (not_lt.mp more)
              simpa [mine,more] using held
      · have passed := valid.skip id (by
          intro other held
          rw [slot] at held
          cases Option.some.inj held
          exact mine)
        simpa [mine] using passed

theorem scan_best (entries : List (Entry ρ)) (sig : Signature) (identity : String) (ids : List Nat) :
    Best entries sig identity ids (ids.foldl (consider entries sig identity) none) := by
  induction ids using List.reverseRecOn with
  | nil => intro id member; cases member
  | append_singleton prior id ih =>
      rw [List.foldl_append]
      exact consider_best ih id

end Loop

def candidates (hashOne : UInt64 × List UInt64 → UInt64) (c : MemoryTextCache ρ) (sig : Signature) :
    List Nat :=
  (bands hashOne sig BANDS).flatMap (bucket c.index)

theorem lookup_candidates (c : MemoryTextCache ρ) (sig : Signature) (identity : String) :
    lookup hashOne c sig identity =
      match (candidates hashOne c sig).foldl (consider c.entries sig identity) none with
      | some (j,e) => if j ≥ c.threshold then some e.result else none
      | none => none := by
  rw [candidates,List.foldl_flatMap]
  rfl

-- What is served is the best of the candidates.
theorem lookup_best {c : MemoryTextCache ρ} (hit : lookup hashOne c sig identity = some r) :
    ∃ (id : Nat) (e : Entry ρ), c.entries[id]? = some e ∧ e.identity = identity ∧ e.result = r ∧
      c.threshold ≤ sig.jaccard e.sig ∧ ∀ other ∈ candidates hashOne c sig, ∀ also : Entry ρ,
        c.entries[other]? = some also → also.identity = identity →
          sig.jaccard also.sig ≤ sig.jaccard e.sig := by
  rw [lookup_candidates] at hit
  have best := scan_best c.entries sig identity (candidates hashOne c sig)
  split at hit
  · rename_i j e found
    rw [found] at best
    obtain ⟨⟨id,_,slot⟩,mine,rfl,top⟩ := best
    split at hit
    · rename_i served
      exact ⟨id,e,slot,mine,Option.some.inj hit,served,top⟩
    · cases hit
  · cases hit

-- Whatever is served stands in the ring under the query's own identity.
theorem lookup_live {c : MemoryTextCache ρ} (hit : lookup hashOne c sig identity = some r) :
    ∃ e ∈ c.entries, e.identity = identity ∧ e.result = r ∧ c.threshold ≤ sig.jaccard e.sig := by
  obtain ⟨id,e,slot,mine,result,served,_⟩ := lookup_best hit
  exact ⟨e,List.mem_of_getElem? slot,mine,result,served⟩

-- Retrieval is complete above the pigeonhole bound: a live entry that close to
-- the query shares a whole band with it, and its slot stands in that bucket.
theorem InStep.retrieved {c : MemoryTextCache ρ} {inserted : List (Entry ρ)} {sig : Signature}
    {id : Nat} {e : Entry ρ} (valid : InStep hashOne c inserted) (slot : c.entries[id]? = some e)
    (query : sig.slots.length = 128) (stored : e.sig.slots.length = 128)
    (close : 97 / 128 ≤ sig.jaccard e.sig) : id ∈ candidates hashOne c sig := by
  obtain ⟨key,asked,held⟩ := shared_band hashOne sig e.sig query stored close
  exact List.mem_flatMap.mpr ⟨key,asked,valid.member_of_slot slot held⟩

theorem InStep.live_inserted {c : MemoryTextCache ρ} {inserted : List (Entry ρ)}
    (valid : InStep hashOne c inserted) {e : Entry ρ} (live : e ∈ c.entries) : e ∈ inserted :=
  List.mem_of_mem_drop (valid.ring.perm.mem_iff.mp live)

section Scan
variable {c : MemoryTextCache ρ} {inserted : List (Entry ρ)} {sig : Signature} {identity : String}

-- With every signature full and the threshold above the bound, a live entry good
-- enough to serve is among the candidates, so the best candidate bounds it.
theorem InStep.bounds_live (valid : InStep hashOne c inserted) (above : 97 / 128 ≤ c.threshold)
    (full : ∀ e ∈ inserted, e.sig.slots.length = 128) (query : sig.slots.length = 128)
    {e : Entry ρ} (live : e ∈ c.entries) (close : c.threshold ≤ sig.jaccard e.sig) :
    ∃ id ∈ candidates hashOne c sig, c.entries[id]? = some e := by
  obtain ⟨id,slot⟩ := List.mem_iff_getElem?.mp live
  exact ⟨id,valid.retrieved slot query (full e (valid.live_inserted live)) (le_trans above close),slot⟩

theorem InStep.lookup_some (valid : InStep hashOne c inserted) (above : 97 / 128 ≤ c.threshold)
    (full : ∀ e ∈ inserted, e.sig.slots.length = 128) (query : sig.slots.length = 128) {r : ρ}
    (hit : lookup hashOne c sig identity = some r) :
    ∃ e ∈ c.entries, e.identity = identity ∧ e.result = r ∧ c.threshold ≤ sig.jaccard e.sig ∧
      ∀ other ∈ c.entries, other.identity = identity → sig.jaccard other.sig ≤ sig.jaccard e.sig := by
  obtain ⟨id,e,slot,mine,result,served,top⟩ := lookup_best hit
  refine ⟨e,List.mem_of_getElem? slot,mine,result,served,fun other live same => ?_⟩
  by_contra more
  obtain ⟨id,known,held⟩ := valid.bounds_live above full query live
    (le_trans served (le_of_lt (not_le.mp more)))
  exact more (top id known other held same)

theorem InStep.lookup_isSome (valid : InStep hashOne c inserted) (above : 97 / 128 ≤ c.threshold)
    (full : ∀ e ∈ inserted, e.sig.slots.length = 128) (query : sig.slots.length = 128)
    {e : Entry ρ} (live : e ∈ c.entries) (mine : e.identity = identity)
    (close : c.threshold ≤ sig.jaccard e.sig) : (lookup hashOne c sig identity).isSome := by
  obtain ⟨id,known,slot⟩ := valid.bounds_live above full query live close
  have best := scan_best c.entries sig identity (candidates hashOne c sig)
  rw [lookup_candidates]
  split
  · rename_i j top found
    rw [found] at best
    have enough : j ≥ c.threshold := le_trans close (best.2.2.2 id known e slot mine)
    simp [enough]
  · rename_i found
    rw [found] at best
    exact absurd mine (best id known e slot)

end Scan

-- The share of the 128 slots in which two signatures agree.
def share (sig other : Signature) : ℚ :=
  ((sig.slots.zip other.slots).countP fun pair => pair.1 == pair.2 : ℚ) / 128

-- The answer of a plain search through these entries.
structure Scanned (threshold : ℚ) (held : List (Entry ρ)) (sig : Signature) (identity : String)
    (answer : Option ρ) : Prop where
  served : answer.isSome ↔ ∃ e ∈ held, e.identity = identity ∧ threshold ≤ share sig e.sig
  best : ∀ r, answer = some r → ∃ e ∈ held, e.identity = identity ∧ e.result = r ∧
    threshold ≤ share sig e.sig ∧ ∀ other ∈ held, other.identity = identity →
      share sig other.sig ≤ share sig e.sig

theorem Scanned.perm {threshold : ℚ} {held others : List (Entry ρ)} {sig : Signature} {identity : String}
    {answer : Option ρ} (scanned : Scanned threshold held sig identity answer) (perm : held.Perm others) :
    Scanned threshold others sig identity answer := by
  have same (e : Entry ρ) : e ∈ held ↔ e ∈ others := perm.mem_iff
  refine ⟨scanned.served.trans (by simp only [same]),fun r told => ?_⟩
  obtain ⟨e,here,mine,result,close,top⟩ := scanned.best r told
  exact ⟨e,(same e).mp here,mine,result,close,fun other there => top other ((same other).mpr there)⟩

theorem InStep.lookup_scanned {c : MemoryTextCache ρ} {inserted : List (Entry ρ)} {sig : Signature}
    (valid : InStep hashOne c inserted) (identity : String) (above : 97 / 128 ≤ c.threshold)
    (full : ∀ e ∈ inserted, e.sig.slots.length = 128) (query : sig.slots.length = 128) :
    Scanned c.threshold c.entries sig identity (lookup hashOne c sig identity) := by
  have scored {e : Entry ρ} (live : e ∈ c.entries) : sig.jaccard e.sig = share sig e.sig :=
    jaccard_full sig e.sig query (full e (valid.live_inserted live))
  refine ⟨⟨fun some => ?_,?_⟩,fun r hit => ?_⟩
  · obtain ⟨r,hit⟩ := Option.isSome_iff_exists.mp some
    obtain ⟨e,live,mine,_,served,_⟩ := valid.lookup_some above full query hit
    exact ⟨e,live,mine,scored live ▸ served⟩
  · rintro ⟨e,live,mine,close⟩
    exact valid.lookup_isSome above full query live mine (scored live ▸ close)
  · obtain ⟨e,live,mine,result,served,top⟩ := valid.lookup_some above full query hit
    refine ⟨e,live,mine,result,scored live ▸ served,fun other held same => ?_⟩
    rw [← scored held,← scored live]
    exact top other held same

theorem insertAll_window (capacity : Nat) (threshold : ℚ) (inserted : List (Entry ρ)) :
    (insertAll hashOne (new ρ capacity threshold) inserted).entries.Perm
      (Fifo.window (max capacity 1) inserted) := by
  have valid : InStep hashOne _ inserted := insertAll_inStep capacity threshold inserted
  have size : (insertAll hashOne (new ρ capacity threshold) inserted).capacity = max capacity 1 :=
    insertAll_capacity _ _
  rw [← size]
  exact valid.ring.perm

-- Above the bound the index never hides the answer a full scan would give.
theorem banded_lookup_is_scan (hashOne : UInt64 × List UInt64 → UInt64) (capacity : Nat)
    (threshold : ℚ) (inserted : List (Entry ρ)) (sig : Signature) (identity : String)
    (above : 97 / 128 ≤ max 0 (min threshold 1))
    (full : ∀ e ∈ inserted, e.sig.slots.length = 128) (query : sig.slots.length = 128) :
    let c := insertAll hashOne (new ρ capacity threshold) inserted
    c.entries.Perm (Fifo.window (max capacity 1) inserted) ∧
    Scanned (max 0 (min threshold 1)) c.entries sig identity (lookup hashOne c sig identity) := by
  intro c
  have valid : InStep hashOne c inserted := insertAll_inStep capacity threshold inserted
  have clamped : c.threshold = max 0 (min threshold 1) := insertAll_threshold _ _
  refine ⟨insertAll_window capacity threshold inserted,?_⟩
  rw [← clamped] at above ⊢
  exact valid.lookup_scanned identity above full query

-- Of two near enough the nearer is served, whatever another identity holds.
def probe : Signature := ⟨List.replicate 128 1⟩

def near (n : Nat) : Signature := ⟨List.replicate n 1 ++ List.replicate (128 - n) 0⟩

def nearEntries : List (Entry Nat) := [⟨near 98,"m",7⟩,⟨near 100,"m",8⟩,⟨probe,"x",9⟩]

theorem share_near {n : Nat} (short : n ≤ 128) : share probe (near n) = n / 128 := by
  have slots : probe.slots = List.replicate n 1 ++ List.replicate (128 - n) 1 := by
    rw [List.replicate_append_replicate,Nat.add_sub_cancel' short]
    rfl
  rw [share,slots,near,List.zip_append (by simp)]
  simp [List.zip_replicate',List.countP_replicate]

theorem banded_lookup_is_scan_near :
    lookup (fun fed => fed.1) (insertAll (fun fed => fed.1) (new Nat 3 (97 / 128)) nearEntries) probe "m" =
      some 8 := by
  obtain ⟨perm,scanned⟩ := banded_lookup_is_scan (fun fed => fed.1) 3 (97 / 128) nearEntries probe "m"
    (by norm_num) (by simp [nearEntries,near,probe]) (by simp [probe])
  have farther := share_near (n := 98) (by decide)
  have nearer := share_near (n := 100) (by decide)
  have held (e : Entry Nat) := perm.mem_iff (a := e)
  have live := (held ⟨near 100,"m",8⟩).mpr (List.mem_cons_of_mem _ List.mem_cons_self)
  have some := scanned.served.mpr ⟨_,live,rfl,by rw [nearer]; norm_num⟩
  obtain ⟨r,hit⟩ := Option.isSome_iff_exists.mp some
  obtain ⟨e,member,mine,result,_,top⟩ := scanned.best r hit
  have best := top _ live rfl
  have among : e ∈ nearEntries := (held e).mp member
  rw [hit]
  simp only [nearEntries,List.mem_cons,List.not_mem_nil,or_false] at among
  rcases among with rfl | rfl | rfl
  · rw [farther,nearer] at best
    norm_num at best
  · rw [← result]
  · simp at mine

end SemanticClassifier.TextCache
