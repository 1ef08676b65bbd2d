import SemanticClassifier.Library.Fifo
import SemanticClassifier.RedisWritebackBooks

namespace SemanticClassifier.Writeback
open Classify Fifo Interleaving

variable {ι φ σ ρ : Type} {cache : RedisSemanticCache φ σ ρ}

def Call.request : Call φ σ → Option (Request φ σ)
  | .idle => none
  | .asked request | .admitted request | .sending request | .degraded request => some request

def Worker.job : Worker → Option WriteJob
  | .receiving => none
  | .received job | .connecting job | .creating job | .writing job | .expiring job | .succeeding job
  | .failing job | .counting job => some job

section Invariant
variable (cache)

-- What is sent was asked for and can be encoded.
structure Asked (s : State ι φ σ) : Prop where
  calls : ∀ i request, (s.calls i).request = some request → request ∈ s.begun
  whole : ∀ i request, s.calls i = .sending request → finite cache request = true
  sent : ∀ request ∈ s.sent, request ∈ s.begun ∧ finite cache request = true

-- The last HSET carried out for a key.
def lastWrite (s : State ι φ σ) (key : String) : Option WriteJob :=
  latest (s.applied.map fun job => (keyOf cache job,job)) key

-- An entry is as its last write left it, and one that will never expire was not
-- written with success.
structure Entries (s : State ι φ σ) : Prop where
  inHand : ∀ job, s.worker.job = some job → job ∈ s.taken
  applied : ∀ job ∈ s.applied, job ∈ s.taken
  entry : ∀ key hash, s.server.hashes key = some hash →
    ∃ job, lastWrite cache s key = some job ∧ job ∈ s.applied ∧ keyOf cache job = key ∧ hash = hashOf job
  written : ∀ job, s.worker = .expiring job ∨ s.worker = .succeeding job →
    lastWrite cache s (keyOf cache job) = some job
  expires : ∀ job, s.worker = .succeeding job → (s.server.hashes (keyOf cache job)).isSome →
    s.expires (keyOf cache job) = true
  lasting : ∀ key job, (s.server.hashes key).isSome → s.expires key = false →
    lastWrite cache s key = some job → job ∈ s.lost ∨ s.worker.job = some job

end Invariant

theorem lastWrite_carryOut (s : State ι φ σ) (job : WriteJob) (key : String) :
    lastWrite cache (carryOut cache s job) key =
      if keyOf cache job = key then some job else lastWrite cache s key := by
  simp only [lastWrite,carryOut,List.map_append,List.map_cons,List.map_nil,latest_append]

theorem lastWrite_same {s next : State ι φ σ} (applied : next.applied = s.applied) (key : String) :
    lastWrite cache next key = lastWrite cache s key := by
  rw [lastWrite,lastWrite,applied]

theorem Entries.aside {s next : State ι φ σ} (entries : Entries cache s) (worker : next.worker = s.worker)
    (server : next.server = s.server) (expires : next.expires = s.expires) (taken : next.taken = s.taken)
    (applied : next.applied = s.applied) (lost : next.lost = s.lost) : Entries cache next where
  inHand := worker ▸ taken ▸ entries.inHand
  applied := applied ▸ taken ▸ entries.applied
  entry := by
    simp only [server,lastWrite_same applied,applied]
    exact entries.entry
  written := by
    simp only [worker,lastWrite_same applied]
    exact entries.written
  expires := by
    simp only [worker,server,expires]
    exact entries.expires
  lasting := by
    simp only [worker,server,expires,lastWrite_same applied,lost]
    exact entries.lasting

-- The worker moves on with its job, and the server is as it was.
theorem Entries.moved {s next : State ι φ σ} {place after : Worker} (entries : Entries cache s)
    (here : s.worker = place) (worker : next.worker = after) (jobs : after.job = place.job)
    (hashes : next.server.hashes = s.server.hashes) (expires : next.expires = s.expires)
    (taken : next.taken = s.taken) (applied : next.applied = s.applied) (lost : next.lost = s.lost)
    (early : ∀ job, after ≠ .expiring job ∧ after ≠ .succeeding job) : Entries cache next where
  inHand := by
    rw [worker,jobs,← here,taken]
    exact entries.inHand
  applied := applied ▸ taken ▸ entries.applied
  entry := by
    simp only [hashes,lastWrite_same applied,applied]
    exact entries.entry
  written := by
    rw [worker]
    rintro job (same | same)
    · exact absurd same (early job).1
    · exact absurd same (early job).2
  expires := by
    rw [worker]
    exact fun job same => absurd same (early job).2
  lasting := by
    rw [worker,jobs,← here,hashes,expires,lost]
    simp only [lastWrite_same applied]
    exact entries.lasting

theorem ftCreate_present (s : State ι φ σ) (server : Redis.Server)
    (made : server = s.server ∨ server = Redis.ftCreate Redis.Kind.semantic.index s.server) :
    server.hashes = s.server.hashes := by
  rcases made with rfl | rfl
  · rfl
  · exact Redis.ftCreate_hashes _ _

theorem carryOut_entries {s : State ι φ σ} {job : WriteJob} {after : Worker} (entries : Entries cache s)
    (place : s.worker = .writing job) (target : after = .expiring job ∨ after = .failing job) :
    Entries cache (takes (carryOut cache s job) after) := by
  have hand : after.job = some job := by rcases target with rfl | rfl <;> rfl
  have mine : job ∈ s.taken := entries.inHand job (by rw [place]; rfl)
  have writes (key : String) : lastWrite cache (takes (carryOut cache s job) after) key =
      if keyOf cache job = key then some job else lastWrite cache s key := lastWrite_carryOut s job key
  refine ⟨?_,?_,?_,?_,?_,?_⟩
  · intro also same
    rw [takes,hand] at same
    cases same
    exact mine
  · intro also member
    rcases List.mem_append.mp member with old | new
    · exact entries.applied also old
    · cases List.mem_singleton.mp new
      exact mine
  · intro key hash here
    rw [writes]
    by_cases same : keyOf cache job = key
    · subst same
      have stored : some (hashOf job) = some hash := by simpa [takes,carryOut,Redis.hset] using here
      rw [if_pos rfl]
      exact ⟨job,rfl,by simp [takes,carryOut],rfl,(Option.some.inj stored).symm⟩
    · have stored : s.server.hashes key = some hash := by
        simpa [takes,carryOut,Redis.hset,Function.update_of_ne (Ne.symm same)] using here
      rw [if_neg same]
      obtain ⟨also,last,member,named,content⟩ := entries.entry key hash stored
      exact ⟨also,last,List.mem_append_left _ member,named,content⟩
  · intro also same
    rw [writes]
    have equal : also = job := by
      rcases target with rfl | rfl <;> rcases same with same | same <;> cases same
      rfl
    rw [equal,if_pos rfl]
  · intro also same
    rcases target with rfl | rfl <;> cases same
  · intro key also present forever last
    rw [writes] at last
    by_cases same : keyOf cache job = key
    · rw [if_pos same] at last
      exact .inr (hand.trans last)
    · rw [if_neg same] at last
      have stored : (s.server.hashes key).isSome := by
        simpa [takes,carryOut,Redis.hset,Function.update_of_ne (Ne.symm same)] using present
      have ttl : s.expires key = false := by
        simpa [takes,carryOut,Function.update_of_ne (Ne.symm same)] using forever
      rcases entries.lasting key also stored ttl last with lost | holds
      · exact .inl lost
      · rw [place] at holds
        exact .inr (hand.trans holds)

theorem expire_entries {s : State ι φ σ} {job : WriteJob} {after : Worker} (entries : Entries cache s)
    (place : s.worker = .expiring job) (target : after = .succeeding job ∨ after = .failing job) :
    Entries cache (takes (expire s (keyOf cache job)) after) := by
  have hand : after.job = some job := by rcases target with rfl | rfl <;> rfl
  have mine : job ∈ s.taken := entries.inHand job (by rw [place]; rfl)
  have last := entries.written job (.inl place)
  have frame : ∃ expires, expire s (keyOf cache job) = {s with expires := expires} ∧
      (∀ key, key ≠ keyOf cache job → expires key = s.expires key) ∧
      ((s.server.hashes (keyOf cache job)).isSome → expires (keyOf cache job) = true) := by
    unfold expire
    split
    · exact ⟨_,rfl,fun key other => Function.update_of_ne other _ _,fun _ => Function.update_self ..⟩
    · rename_i absent
      exact ⟨s.expires,rfl,fun _ _ => rfl,fun present => absurd present absent⟩
  obtain ⟨expires,same,others,set_⟩ := frame
  rw [same]
  refine ⟨?_,entries.applied,entries.entry,?_,?_,?_⟩
  · intro also equal
    rw [takes,hand] at equal
    cases equal
    exact mine
  · intro also equal
    have equal : also = job := by
      rcases target with rfl | rfl <;> rcases equal with equal | equal <;> cases equal
      rfl
    rw [equal]
    exact last
  · intro also equal
    have equal : also = job := by
      rcases target with rfl | rfl <;> cases equal
      rfl
    rw [equal]
    exact set_
  · intro key also present forever written
    by_cases named : key = keyOf cache job
    · subst named
      have always := set_ present
      exact absurd (always.symm.trans forever) (by decide)
    · have ttl : s.expires key = false := (others key named).symm.trans forever
      rcases entries.lasting key also present ttl written with lost | holds
      · exact .inl lost
      · rw [place] at holds
        exact .inr (hand.trans holds)

variable [DecidableEq ι]

theorem step_entries {s next : State ι φ σ} (entries : Entries cache s) (step : Step cache s action next) :
    Entries cache next := by
  cases step_change step with
  | began _ | asked _ _ _ | encoded _ _ | unencoded _ _ | sent _ _ | full _ _ | counted _ | looked =>
      exact entries.aside rfl rfl rfl rfl rfl rfl
  | @received now exchange job rest place queue =>
      refine ⟨?_,fun also member => List.mem_append_left _ (entries.applied also member),entries.entry,?_,?_,?_⟩
      · intro also same
        cases same
        exact List.mem_append_right _ (List.mem_singleton_self _)
      · rintro also (same | same) <;> cases same
      · intro also same
        cases same
      · intro key also present forever last
        rcases entries.lasting key also present forever last with lost | holds
        · exact .inl lost
        · rw [place] at holds
          cases holds
  | allowed place target | connected place target =>
      refine entries.moved place rfl ?_ rfl rfl rfl rfl rfl ?_ <;> rcases target with rfl | rfl
      all_goals first | rfl | exact fun _ => ⟨nofun,nofun⟩
  | created place made =>
      exact entries.moved place rfl rfl (ftCreate_present s _ made) rfl rfl rfl rfl fun _ => ⟨nofun,nofun⟩
  | unwritten place | unexpired place | failed place =>
      exact entries.moved place rfl rfl rfl rfl rfl rfl rfl fun _ => ⟨nofun,nofun⟩
  | wrote place target => exact carryOut_entries entries place (target.imp And.right And.right)
  | expired place target => exact expire_entries entries place (target.imp And.right And.right)
  | @succeeded now exchange job _ place =>
      refine ⟨nofun,entries.applied,entries.entry,?_,nofun,?_⟩
      · rintro also (same | same) <;> cases same
      · intro key also present forever last
        rcases entries.lasting key also present forever last with lost | holds
        · exact .inl lost
        · rw [place] at holds
          cases holds
          obtain ⟨hash,stored⟩ := Option.isSome_iff_exists.mp present
          obtain ⟨author,same,_,named,_⟩ := entries.entry key hash stored
          have equal := Option.some.inj (same.symm.trans last)
          have always := entries.expires author (equal ▸ place) (named.symm ▸ present)
          rw [named] at always
          exact absurd (always.symm.trans forever) (by decide)
  | @gaveUp now exchange job place =>
      refine ⟨nofun,entries.applied,entries.entry,?_,nofun,?_⟩
      · rintro also (same | same) <;> cases same
      · intro key also present forever last
        rcases entries.lasting key also present forever last with lost | holds
        · exact .inl (List.mem_append_left _ lost)
        · rw [place] at holds
          cases holds
          exact .inl (List.mem_append_right _ (List.mem_singleton_self _))
  | @lapsed gone =>
      have kept {key : String} {hash : Redis.Hash} (here : (Redis.lapse gone s.server).hashes key = some hash) :
          key ≠ gone ∧ s.server.hashes key = some hash := by
        by_cases same : key = gone
        · subst same
          simp [Redis.lapse] at here
        · exact ⟨same,by simpa [Redis.lapse,Function.update_of_ne same] using here⟩
      refine ⟨entries.inHand,entries.applied,?_,entries.written,?_,?_⟩
      · intro key hash here
        exact entries.entry key hash (kept here).2
      · intro job place present
        obtain ⟨hash,stored⟩ := Option.isSome_iff_exists.mp present
        obtain ⟨other,here⟩ := kept stored
        exact (Function.update_of_ne other _ _).trans (entries.expires job place (here ▸ rfl))
      · intro key job present forever last
        obtain ⟨hash,stored⟩ := Option.isSome_iff_exists.mp present
        obtain ⟨other,here⟩ := kept stored
        exact entries.lasting key job (here ▸ rfl) ((Function.update_of_ne other _ _).symm.trans forever) last

theorem Asked.moved {s next : State ι φ σ} {i : ι} {place : Call φ σ} (asked : Asked cache s)
    (calls : next.calls = Function.update s.calls i place) (begun : ∀ request ∈ s.begun, request ∈ next.begun)
    (sent : next.sent = s.sent) (here : ∀ request, place.request = some request → request ∈ next.begun)
    (whole : ∀ request, place = .sending request → finite cache request = true) : Asked cache next where
  calls := by
    rw [calls]
    exact (Function.forall_update_iff s.calls (p := fun _ place => ∀ request, place.request = some request →
      request ∈ next.begun)).mpr ⟨here,fun j _ request mine => begun _ (asked.calls j request mine)⟩
  whole := by
    rw [calls]
    exact (Function.forall_update_iff s.calls (p := fun _ place => ∀ request, place = .sending request →
      finite cache request = true)).mpr ⟨whole,fun j _ => asked.whole j⟩
  sent := by
    rw [sent]
    exact fun request member => ⟨begun _ (asked.sent request member).1,(asked.sent request member).2⟩

theorem step_asked {s next : State ι φ σ} (asked : Asked cache s) (step : Step cache s action next) :
    Asked cache next := by
  have mine {i : ι} {request : Request φ σ} {place : Call φ σ} (here : s.calls i = place)
      (holds : place.request = some request) : request ∈ s.begun :=
    asked.calls i request (here ▸ holds)
  cases step_change step with
  | began _ =>
      refine asked.moved rfl (fun _ member => List.mem_append_left _ member) rfl (fun also here => ?_) nofun
      cases here
      exact List.mem_append_right _ (List.mem_singleton_self _)
  | @asked i now request shared after place _ target =>
      refine asked.moved rfl (fun _ member => member) rfl (fun _ here => mine place ?_) (fun _ here => ?_)
      · rcases target with rfl | rfl <;> exact here
      · rcases target with rfl | rfl <;> cases here
  | encoded place whole =>
      refine asked.moved rfl (fun _ member => member) rfl (fun _ here => mine place here) (fun _ here => ?_)
      cases here
      exact whole
  | unencoded place _ | full place _ =>
      exact asked.moved rfl (fun _ member => member) rfl (fun _ here => mine place here) nofun
  | sent place _ =>
      have idle (i : ι) : Asked cache (goes s i .idle) := asked.moved rfl (fun _ member => member) rfl nofun nofun
      refine ⟨(idle _).calls,(idle _).whole,fun request member => ?_⟩
      rcases List.mem_append.mp member with old | new
      · exact asked.sent request old
      · cases List.mem_singleton.mp new
        exact ⟨mine place rfl,asked.whole _ _ place⟩
  | counted place => exact asked.moved rfl (fun _ member => member) rfl nofun nofun
  | expired _ _ =>
      unfold expire
      split <;> exact ⟨asked.calls,asked.whole,asked.sent⟩
  | _ => exact ⟨asked.calls,asked.whole,asked.sent⟩

theorem path_entries {trace : List (State ι φ σ × Action ι φ σ)} {s : State ι φ σ}
    (path : Path (Step cache) (start ι φ σ) trace s) : Asked cache s ∧ Entries cache s := by
  apply path.preserves (motive := fun s => Asked cache s ∧ Entries cache s)
  · intro before action after valid step
    exact ⟨step_asked valid.1 step,step_entries valid.2 step⟩
  · refine ⟨⟨nofun,nofun,nofun⟩,⟨nofun,nofun,nofun,?_,nofun,nofun⟩⟩
    rintro job (same | same) <;> cases same

-- What `f32::to_le_bytes` and a hash that no two blobs in use share make of a key.
structure Distinct (cache : RedisSemanticCache φ σ ρ) (requests : List (Request φ σ)) : Prop where
  wide : ∀ x, (cache.toLeBytes x).length = 4
  faithful : ∀ x y, cache.toLeBytes x = cache.toLeBytes y → x = y
  digests : ∀ one ∈ requests, ∀ two ∈ requests,
    cache.blake3 (jobOf cache one).blob = cache.blake3 (jobOf cache two).blob →
      (jobOf cache one).blob = (jobOf cache two).blob

theorem vectorToBytes_injective {requests : List (Request φ σ)} (distinct : Distinct cache requests)
    {one two : List φ} (same : vectorToBytes cache one = vectorToBytes cache two) : one = two := by
  have framed : Framing.SelfDelimiting (fun _ => True) cache.toLeBytes :=
    Framing.fixedWidth distinct.wide distinct.faithful
  have visible (x : φ) : cache.toLeBytes x ≠ [] := List.ne_nil_of_length_pos (by rw [distinct.wide]; decide)
  exact framed.sequence visible (by simp) (by simp) same

theorem key_content {requests : List (Request φ σ)} (distinct : Distinct cache requests) {one two : Request φ σ}
    (first : one ∈ requests) (second : two ∈ requests)
    (same : keyOf cache (jobOf cache one) = keyOf cache (jobOf cache two)) :
    one.identity = two.identity ∧ one.embedding.vector = two.embedding.vector := by
  have named : one.identity = two.identity := (Redis.key_tag same).2
  refine ⟨named,vectorToBytes_injective distinct (distinct.digests one first two second ?_)⟩
  have chars : keyOf cache (jobOf cache one) = Redis.Kind.semantic.index.keyPrefix ++ one.identity ++ ":" ++
      Redis.toHex (cache.blake3 (jobOf cache two).blob) := by
    rw [same,keyOf,Redis.Kind.key,named]
    rfl
  exact Runtime.toHex_injective (String.append_right_inj _ |>.mp chars)

-- An entry carries what its request asked to have stored.
def Holds (cache : RedisSemanticCache φ σ ρ) (request : Request φ σ) (hash : Redis.Hash) : Prop :=
  finite cache request = true ∧ hash = hashOf (jobOf cache request)

omit [DecidableEq ι] in
theorem entry_request {s : State ι φ σ} [Fintype ι] (books : Books cache s) (asked : Asked cache s)
    (entries : Entries cache s) {key : String} {hash : Redis.Hash} (stored : s.server.hashes key = some hash) :
    ∃ request ∈ s.begun, Holds cache request hash ∧ keyOf cache (jobOf cache request) = key ∧
      lastWrite cache s key = some (jobOf cache request) := by
  obtain ⟨job,last,applied,named,content⟩ := entries.entry key hash stored
  have sent : job ∈ s.sent.map (jobOf cache) := by
    rw [books.queue]
    exact List.mem_append_left _ (entries.applied job applied)
  obtain ⟨request,member,rfl⟩ := List.mem_map.mp sent
  exact ⟨request,(asked.sent request member).1,⟨(asked.sent request member).2,content⟩,named,last⟩

theorem entries_sourced [Fintype ι] {trace : List (State ι φ σ × Action ι φ σ)} {s : State ι φ σ}
    (path : Path (Step cache) (start ι φ σ) trace s) :
    (∀ key hash, s.server.hashes key = some hash → ∃ request ∈ s.begun, Holds cache request hash ∧
      keyOf cache (jobOf cache request) = key ∧ lastWrite cache s key = some (jobOf cache request)) ∧
    (Distinct cache s.begun → ∀ request ∈ s.begun, ∀ hash,
      s.server.hashes (keyOf cache (jobOf cache request)) = some hash →
      ∃ also ∈ s.begun, Holds cache also hash ∧ also.identity = request.identity ∧
        also.embedding.vector = request.embedding.vector) ∧
    (∀ rules tag key hash, Redis.Kind.semantic.candidate rules s.server tag key = some hash →
      ∃ request ∈ s.begun, Holds cache request hash ∧ rules.Matches tag.toList request.identity.toList) ∧
    (∀ key, (s.server.hashes key).isSome → s.expires key = false →
      ∃ job, lastWrite cache s key = some job ∧ (job ∈ s.lost ∨ s.worker.job = some job)) := by
  obtain ⟨asked,entries⟩ := path_entries path
  have books := path_books path
  have source {key : String} {hash : Redis.Hash} (stored : s.server.hashes key = some hash) :=
    entry_request books asked entries stored
  refine ⟨fun key hash stored => source stored,fun distinct request member hash stored => ?_,
    fun rules tag key hash seen => ?_,fun key present forever => ?_⟩
  · obtain ⟨also,begun,holds,named,_⟩ := source stored
    exact ⟨also,begun,holds,key_content distinct begun member named⟩
  · obtain ⟨stored,_,alike⟩ := Redis.candidate_parts seen
    obtain ⟨request,begun,holds,_⟩ := source stored
    refine ⟨request,begun,holds,?_⟩
    rw [holds.2] at alike
    exact alike
  · obtain ⟨hash,stored⟩ := Option.isSome_iff_exists.mp present
    obtain ⟨request,_,_,_,last⟩ := source stored
    exact ⟨jobOf cache request,last,entries.lasting key _ present forever last⟩

theorem plain_distinct : Distinct plainCache plainRun.2.begun := by
  refine ⟨fun x => rfl,fun x y same => ?_,fun one first two second => ?_⟩
  · simp only [plainCache,List.cons.injEq,← UInt8.toNat_inj,UInt32.toNat_toUInt8,UInt32.toNat_shiftRight] at same
    simp [Nat.shiftRight_eq_div_pow] at same
    have boundX := x.toNat_lt
    have boundY := y.toNat_lt
    apply UInt32.toNat_inj.mp
    omega
  · have begun : plainRun.2.begun = [plainRequest 1,plainRequest 2] := rfl
    rw [begun] at first second
    simp only [List.mem_cons,List.not_mem_nil,or_false] at first second
    rcases first with rfl | rfl <;> rcases second with rfl | rfl <;> decide

-- The write whose answer was lost has left an entry that will not expire.
theorem entries_sourced_plain :
    (∃ also ∈ plainRun.2.begun, also.identity = "tag" ∧ also.embedding.vector = [1]) ∧
    (∃ job, job ∈ plainRun.2.lost ∧ job = jobOf plainCache (plainRequest 2)) := by
  obtain ⟨_,same,_,forever⟩ := entries_sourced plain_path
  obtain ⟨also,begun,_,named,vector⟩ := same plain_distinct (plainRequest 1) (by simp [show plainRun.2.begun =
    [plainRequest 1,plainRequest 2] from rfl]) _ rfl
  obtain ⟨job,last,lost⟩ := forever (keyOf plainCache (jobOf plainCache (plainRequest 2))) rfl rfl
  refine ⟨⟨also,begun,named,vector⟩,job,?_,?_⟩
  · exact lost.resolve_right nofun
  · exact (Option.some.inj last).symm

end SemanticClassifier.Writeback
