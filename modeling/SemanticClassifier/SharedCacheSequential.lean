import SemanticClassifier.SharedCache

namespace SemanticClassifier.Cache
open Interleaving

variable {τ κ ε ρ : Type} [DecidableEq τ] [DecidableEq κ]

-- The one action a thread that runs alone can take.
def turn (s : State τ κ ε ρ) (t : τ) (forward : Except ε ρ) : Action τ κ ε ρ :=
  match s.pc t with
  | .forward .. => .forwarded t forward
  | _ => .run t

def drive (t : τ) (forward : Except ε ρ) : Nat → State τ κ ε ρ → Option (Except ε ρ × State τ κ ε ρ)
  | 0,_ => none
  | fuel+1,s =>
    match s.pc t with
    | .returned _ result _ => some (result,s)
    | _ => (advance s (turn s t forward)).bind (drive t forward fuel)

-- One call of `classify_concurrent`, run to its return: at most twelve steps and a look at the answer.
def classifyConcurrent (s : State τ κ ε ρ) (t : τ) (key : κ) (forward : Except ε ρ) :
    Option (Except ε ρ × State τ κ ε ρ) :=
  (advance s (.call t key)).bind (drive t forward 13)

def classifyInTurn (s : State τ κ ε ρ) :
    List (τ × κ × Except ε ρ) → Option (List (Except ε ρ) × State τ κ ε ρ)
  | [] => some ([],s)
  | (t,key,forward) :: rest =>
    (classifyConcurrent s t key forward).bind fun call =>
      (classifyInTurn call.2 rest).map fun run => (call.1 :: run.1,run.2)

def classifyAll (cache : ExactCache κ ρ) :
    List (κ × Except ε ρ) → List (Except ε ρ) × ExactCache κ ρ
  | [] => ([],cache)
  | (key,forward) :: rest =>
    let call := classify cache key forward
    let run := classifyAll call.2 rest
    (call.1 :: run.1,run.2)

theorem drive_returned {s : State τ κ ε ρ} (place : s.pc t = .returned key result path) (fuel : Nat) :
    drive t forward (fuel+1) s = some (result,s) := by
  simp only [drive,place]

theorem drive_step {s next : State τ κ ε ρ} (live : ∀ key result path, s.pc t ≠ .returned key result path)
    (step : Step s (turn s t forward) next) (fuel : Nat) :
    drive t forward (fuel+1) s = drive t forward fuel next := by
  unfold Step at step
  cases place : s.pc t with
  | returned key result path => exact absurd place (live key result path)
  | _ =>
      simp only [drive,place,step]
      rfl

-- Only a success goes by the store on its way to the slot.
def Pc.afterForward (key : κ) (i : Nat) : Except ε ρ → Pc κ ε ρ
  | .ok value => .store key i value
  | .error e => .remove key i (.error e)

theorem drive_forwarded {s : State τ κ ε ρ} (place : s.pc t = .forward key i) (fuel : Nat) :
    drive t forward (fuel+1) s = drive t forward fuel (goto s t (.afterForward key i forward)) := by
  have mine : turn s t forward = .forwarded t forward := by simp only [turn,place]
  refine drive_step (fun _ _ _ => by simp [place]) ?_ fuel
  rw [mine]
  cases forward with
  | ok value => exact change_step (.succeeded place)
  | error e => exact change_step (.failed place)

theorem drive_run {s next : State τ κ ε ρ} (calm : ∀ key i, s.pc t ≠ .forward key i)
    (live : ∀ key result path, s.pc t ≠ .returned key result path)
    (change : Change s (.run t) next) (fuel : Nat) :
    drive t forward (fuel+1) s = drive t forward fuel next := by
  refine drive_step live ?_ fuel
  have mine : turn s t forward = .run t := by
    cases place : s.pc t with
    | forward key i => exact absurd place (calm key i)
    | _ => simp only [turn,place]
  rw [mine]
  exact change_step change

-- Only `t` is inside a call, and it stands outside every critical section.
structure Alone (s : State τ κ ε ρ) (t : τ) (pc : Pc κ ε ρ) : Prop where
  place : s.pc t = pc
  free : ∀ lock, s.locks lock = none
  others : ∀ u, u ≠ t → (s.pc u).Ready

def Leads (t : τ) (forward : Except ε ρ) (fuel : Nat) (s next : State τ κ ε ρ) : Prop :=
  ∀ more, drive t forward (more+fuel) s = drive t forward more next

def Reaches (t : τ) (forward : Except ε ρ) (fuel : Nat) (s : State τ κ ε ρ) (pc : Pc κ ε ρ)
    (inner : ExactCache κ ρ) (inFlight : Finmap fun _ : κ => Nat) : Prop :=
  ∃ next, Leads t forward fuel s next ∧ Alone next t pc ∧ next.inner = inner ∧ next.inFlight = inFlight

variable {t : τ} {forward : Except ε ρ}

theorem Leads.after {s middle next : State τ κ ε ρ} (first : Leads t forward a s middle)
    (second : Leads t forward b middle next) : Leads t forward (b+a) s next := by
  intro more
  rw [← Nat.add_assoc,first,second]

def entered (s : State τ κ ε ρ) (t : τ) (lock : Lock) (held : Pc κ ε ρ) : State τ κ ε ρ :=
  goto {s with locks := Function.update s.locks lock (some t)} t held

-- A critical section entered with its lock free, and what is done before its
-- guard is dropped.
theorem Alone.section {s after : State τ κ ε ρ} (alone : Alone s t outer)
    (entering : outer.enter = some (lock,held)) (calm : ∀ key i, held ≠ .forward key i)
    (live : ∀ key result path, held ≠ .returned key result path)
    (inside : Change (entered s t lock held) (.run t) after)
    (places : after.pc = Function.update (entered s t lock held).pc t pc)
    (locks : after.locks = Mutex.release (entered s t lock held).locks lock)
    (cached : after.inner = cache) (flights : after.inFlight = inFlight) :
    Reaches t forward 2 s pc cache inFlight := by
  have outside : (∀ key i, s.pc t ≠ .forward key i) ∧
      ∀ key result path, s.pc t ≠ .returned key result path := by
    rw [alone.place]
    refine ⟨fun key i place => ?_,fun key result path place => ?_⟩ <;> simp [place,Pc.enter] at entering
  have taken : Change s (.run t) (entered s t lock held) :=
    .entered (alone.place.symm ▸ entering) (alone.free lock)
  refine ⟨after,?_,⟨by simp [places],?_,?_⟩,cached,flights⟩
  · intro more
    rw [drive_run outside.1 outside.2 taken]
    exact drive_run (by simpa [entered,goto] using calm) (by simpa [entered,goto] using live) inside more
  · intro other
    by_cases same : other = lock <;> simp [locks,entered,goto,Mutex.release,same,alone.free]
  · intro u other
    simpa [places,entered,goto,other] using alone.others u other

theorem Alone.hit {s : State τ κ ε ρ} (alone : Alone s t (.lookup key))
    (found : cachedValue s.inner key = some value) :
    Reaches t forward 2 s (.returned key (.ok value) .hit) s.inner s.inFlight :=
  alone.section rfl (by simp) (by simp)
    (.hit (s := entered s t .inner (.lookupHeld key)) (Function.update_self ..) found) rfl rfl rfl rfl

theorem Alone.missed {s : State τ κ ε ρ} (alone : Alone s t (.lookup key))
    (missed : cachedValue s.inner key = none) :
    Reaches t forward 2 s (.check key) s.inner s.inFlight :=
  alone.section rfl (by simp) (by simp)
    (.missed (s := entered s t .inner (.lookupHeld key)) (Function.update_self ..) missed) rfl rfl rfl rfl

theorem Alone.registered {s : State τ κ ε ρ} (alone : Alone s t (.check key))
    (absent : s.inFlight.lookup key = none) :
    Reaches t forward 2 s (.forward key s.slots.length) s.inner (s.inFlight.insert key s.slots.length) :=
  alone.section rfl (by simp) (by simp)
    (.registered (s := entered s t .inFlight (.checkHeld key)) (Function.update_self ..) absent) rfl rfl rfl rfl

theorem Alone.forwarded {s : State τ κ ε ρ} (alone : Alone s t (.forward key i)) :
    Reaches t forward 1 s (.afterForward key i forward) s.inner s.inFlight :=
  ⟨goto s t (.afterForward key i forward),fun more => drive_forwarded alone.place more,
    ⟨by simp [goto],alone.free,fun u other => by simpa [goto,other] using alone.others u other⟩,rfl,rfl⟩

theorem Alone.stored {s : State τ κ ε ρ} (alone : Alone s t (.store key i value)) :
    Reaches t forward 2 s (.remove key i (.ok value)) (storeAfterForward s.inner key value) s.inFlight :=
  alone.section rfl (by simp) (by simp)
    (.stored (s := entered s t .inner (.storeHeld key i value)) (Function.update_self ..)) rfl rfl rfl rfl

theorem Alone.removed {s : State τ κ ε ρ} (alone : Alone s t (.remove key i result))
    (found : s.inFlight.lookup key = some j) :
    Reaches t forward 2 s (.publish key j result) s.inner (s.inFlight.erase key) :=
  alone.section rfl (by simp) (by simp)
    (.removed (s := entered s t .inFlight (.removeHeld key i result)) (Function.update_self ..) found) rfl rfl rfl rfl

theorem Alone.published {s : State τ κ ε ρ} (alone : Alone s t (.publish key i result)) :
    Reaches t forward 2 s (.notify key i result) s.inner s.inFlight :=
  alone.section rfl (by simp) (by simp)
    (.published (s := entered s t (.slot i) (.publishHeld key i result)) (Function.update_self ..)) rfl rfl rfl rfl

theorem Alone.notified {s : State τ κ ε ρ} (alone : Alone s t (.notify key i result)) :
    Reaches t forward 1 s (.returned key result .miss) s.inner s.inFlight := by
  refine ⟨_,fun more => drive_run (by simp [alone.place]) (by simp [alone.place]) (.notified alone.place) more,
    ⟨by simp [answer,goto],alone.free,?_⟩,rfl,rfl⟩
  intro u other
  rcases (alone.others u other).cases with place | ⟨_,_,_,place⟩ <;>
    simp [answer,goto,Function.update_of_ne other,place,Pc.woken,Pc.Ready]

theorem Alone.forwards {s : State τ κ ε ρ} (alone : Alone s t (.lookup key))
    (missed : cachedValue s.inner key = none) (absent : s.inFlight.lookup key = none) :
    ∃ i, Reaches t forward 5 s (.afterForward key i forward) s.inner (s.inFlight.insert key i) := by
  obtain ⟨checking,looked,there,cached,flights⟩ := alone.missed missed
  obtain ⟨flying,checked,there,kept,flown⟩ := there.registered (flights.symm ▸ absent)
  obtain ⟨next,ran,there,same,still⟩ := there.forwarded
  exact ⟨checking.slots.length,next,(looked.after checked).after ran,there,same.trans (kept.trans cached),
    by rw [still,flown,flights]⟩

theorem Alone.finishes {s : State τ κ ε ρ} (alone : Alone s t (.remove key i result))
    (found : s.inFlight.lookup key = some j) :
    Reaches t forward 5 s (.returned key result .miss) s.inner (s.inFlight.erase key) := by
  obtain ⟨removed,first,there,cached,flights⟩ := alone.removed found
  obtain ⟨published,second,there,kept,flown⟩ := there.published
  obtain ⟨next,third,there,same,still⟩ := there.notified
  exact ⟨next,(first.after second).after third,there,same.trans (kept.trans cached),
    by rw [still,flown,flights]⟩

-- Between two calls nobody is inside one, and no forward is announced.
structure Between (s : State τ κ ε ρ) : Prop where
  free : ∀ lock, s.locks lock = none
  ready : ∀ t, (s.pc t).Ready
  landed : s.inFlight = ∅

theorem Between.call {s : State τ κ ε ρ} (between : Between s) (t : τ) (key : κ) :
    classifyConcurrent s t key forward = drive t forward 13 (goto s t (.lookup key)) ∧
      Alone (goto s t (.lookup key)) t (.lookup key) := by
  refine ⟨?_,by simp [goto],between.free,?_⟩
  · have called : advance s (.call t key) = some (goto s t (.lookup key)) :=
      change_step (.called (between.ready t))
    simp only [classifyConcurrent,called,Option.bind_some]
  · intro u other
    simpa [goto,other] using between.ready u

theorem Reaches.answers {s : State τ κ ε ρ}
    (reaches : Reaches t forward fuel s (.returned key result path) cache ∅) (enough : fuel < 13) :
    ∃ next, drive t forward 13 s = some (result,next) ∧ Between next ∧ next.inner = cache := by
  obtain ⟨next,leads,alone,cached,flights⟩ := reaches
  have split : 13 = (12 - fuel) + 1 + fuel := by omega
  refine ⟨next,?_,⟨alone.free,?_,flights⟩,cached⟩
  · rw [split,leads,drive_returned alone.place]
  · intro u
    by_cases mine : u = t
    · rw [mine,alone.place]
      trivial
    · exact alone.others u mine

-- The two caches hold the same, up to what each of them counts.
structure Alike (a b : ExactCache κ ρ) : Prop where
  entries : a.entries = b.entries
  order : a.order = b.order
  capacity : a.capacity = b.capacity
  evicted : a.evictedCount = b.evictedCount

omit [DecidableEq τ] in
theorem Alike.stored {a b : ExactCache κ ρ} (alike : Alike a b) (key : κ) (result : ρ) :
    Alike (store a key result) (store b key result) := by
  obtain ⟨entries,order,capacity,evicted⟩ := alike
  unfold store
  rw [entries,order,capacity,evicted]
  split
  · exact ⟨rfl,rfl,rfl,rfl⟩
  · exact ⟨rfl,rfl,rfl,rfl⟩

omit [DecidableEq τ] in
theorem erase_only (key : κ) (i : Nat) :
    ((∅ : Finmap fun _ : κ => Nat).insert key i).erase key = ∅ := by
  apply Finmap.ext_lookup
  intro k
  by_cases same : k = key
  · subst same
    rw [Finmap.lookup_erase,Finmap.lookup_empty]
  · rw [Finmap.lookup_erase_ne same,Finmap.lookup_insert_of_ne _ same]

-- A lone call computes what the sequential cache computes.
theorem Between.agrees {s : State τ κ ε ρ} {exact : ExactCache κ ρ} (between : Between s)
    (alike : Alike s.inner exact) (t : τ) (key : κ) (forward : Except ε ρ) :
    ∃ next, classifyConcurrent s t key forward = some ((classify exact key forward).1,next) ∧
      Between next ∧ Alike next.inner (classify exact key forward).2 := by
  obtain ⟨called,alone⟩ := between.call t key
  rw [called]
  have same : cachedValue s.inner key = cachedValue exact key := by
    rw [cachedValue,cachedValue,alike.entries]
  have landed : (goto s t (.lookup key)).inFlight = ∅ := between.landed
  cases found : cachedValue exact key with
  | some value =>
      have hit : Reaches t forward _ _ _ _ _ := alone.hit (same.trans found)
      rw [landed] at hit
      obtain ⟨next,answered,quiet,cached⟩ := hit.answers (by decide)
      rw [classify_hit forward found]
      refine ⟨next,answered,quiet,?_⟩
      rw [cached]
      exact ⟨alike.entries,alike.order,alike.capacity,alike.evicted⟩
  | none =>
      have forwards : ∃ i, Reaches t forward 5 _ (.afterForward key i forward) _ _ :=
        alone.forwards (same.trans found) (by rw [landed]; rfl)
      obtain ⟨i,flown,led,there,cached,flights⟩ := forwards
      rw [landed] at flights
      have listed : flown.inFlight.lookup key = some i := by rw [flights,Finmap.lookup_insert]
      have removed : flown.inFlight.erase key = ∅ := by rw [flights,erase_only]
      cases forward with
      | ok value =>
          obtain ⟨stored,wrote,there,written,still⟩ := there.stored
          have finished : Reaches t (.ok value) _ _ _ _ _ := there.finishes (still.symm ▸ listed)
          obtain ⟨last,ended,rest⟩ := finished
          rw [still,removed,written] at rest
          obtain ⟨next,answered,quiet,kept⟩ :=
            Reaches.answers ⟨last,(led.after wrote).after ended,rest⟩ (by decide)
          rw [classify_computed value found]
          refine ⟨next,answered,quiet,?_⟩
          rw [kept,cached]
          have counted : Alike {s.inner with forwardCount := s.inner.forwardCount+1}
              {exact with forwardCount := exact.forwardCount+1} :=
            ⟨alike.entries,alike.order,alike.capacity,alike.evicted⟩
          exact counted.stored key value
      | error e =>
          have finished : Reaches t (.error e) _ _ _ _ _ := there.finishes listed
          obtain ⟨last,ended,rest⟩ := finished
          rw [removed] at rest
          obtain ⟨next,answered,quiet,kept⟩ := Reaches.answers ⟨last,led.after ended,rest⟩ (by decide)
          rw [classify_failed e found]
          refine ⟨next,answered,quiet,?_⟩
          rw [kept,cached]
          exact ⟨alike.entries,alike.order,alike.capacity,alike.evicted⟩

theorem classifyInTurn_agrees {s : State τ κ ε ρ} {exact : ExactCache κ ρ} (between : Between s)
    (alike : Alike s.inner exact) (calls : List (τ × κ × Except ε ρ)) :
    ∃ last, classifyInTurn s calls = some ((classifyAll exact (calls.map Prod.snd)).1,last) ∧
      Between last ∧ Alike last.inner (classifyAll exact (calls.map Prod.snd)).2 := by
  induction calls generalizing s exact with
  | nil => exact ⟨s,rfl,between,alike⟩
  | cons call rest ih =>
      obtain ⟨t,key,forward⟩ := call
      obtain ⟨next,answered,quiet,cached⟩ := between.agrees alike t key forward
      obtain ⟨last,later,settled,same⟩ := ih quiet cached
      refine ⟨last,?_,settled,same⟩
      simp only [classifyInTurn,answered,Option.bind_some,later,Option.map_some]
      rfl

-- The driver only takes steps of the machine.
theorem drive_path {s : State τ κ ε ρ} (driven : drive t forward fuel s = some (result,last)) :
    ∃ trace, Path Step s trace last := by
  induction fuel generalizing s with
  | zero => cases driven
  | succ fuel ih =>
      unfold drive at driven
      split at driven
      · cases driven
        exact ⟨[],.nil⟩
      · obtain ⟨next,step,later⟩ := Option.bind_eq_some_iff.mp driven
        obtain ⟨trace,path⟩ := ih later
        exact ⟨_,(Path.single step).append path⟩

theorem classifyInTurn_path {s : State τ κ ε ρ} (ran : classifyInTurn s calls = some (results,last)) :
    ∃ trace, Path Step s trace last := by
  induction calls generalizing s results with
  | nil =>
      cases ran
      exact ⟨[],.nil⟩
  | cons call rest ih =>
      obtain ⟨t,key,forward⟩ := call
      obtain ⟨⟨result,next⟩,called,later⟩ := Option.bind_eq_some_iff.mp ran
      obtain ⟨started,step,driven⟩ := Option.bind_eq_some_iff.mp called
      obtain ⟨⟨rest,final⟩,after,equal⟩ := Option.map_eq_some_iff.mp later
      cases equal
      obtain ⟨early,front⟩ := drive_path driven
      obtain ⟨late,back⟩ := ih after
      exact ⟨_,((Path.single step).append front).append back⟩

-- Called one call after another, by any threads, the concurrent cache is the
-- sequential one.
theorem sequential_agrees {τ κ ε ρ : Type} [DecidableEq τ] [DecidableEq κ] (capacity : Nat)
    (calls : List (τ × κ × Except ε ρ)) :
    ∃ (last : State τ κ ε ρ) (trace : List (State τ κ ε ρ × Action τ κ ε ρ)),
      let exact := classifyAll (withCapacity κ ρ capacity) (calls.map Prod.snd)
      Path Step (start (withCapacity κ ρ capacity)) trace last ∧
      classifyInTurn (start (withCapacity κ ρ capacity)) calls = some (exact.1,last) ∧
      last.inFlight = ∅ ∧ last.inner.entries = exact.2.entries ∧ last.inner.order = exact.2.order ∧
      last.inner.evictedCount = exact.2.evictedCount := by
  have between : Between (start (withCapacity κ ρ capacity) : State τ κ ε ρ) :=
    ⟨fun _ => rfl,fun _ => trivial,rfl⟩
  obtain ⟨last,ran,quiet,same⟩ := classifyInTurn_agrees between ⟨rfl,rfl,rfl,rfl⟩ calls
  obtain ⟨trace,path⟩ := classifyInTurn_path ran
  exact ⟨last,trace,path,ran,quiet.landed,same.entries,same.order,same.evicted⟩

end SemanticClassifier.Cache
