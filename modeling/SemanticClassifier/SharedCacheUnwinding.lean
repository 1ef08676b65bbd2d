import SemanticClassifier.Library.Abandonment
import SemanticClassifier.SharedCacheSafety

namespace SemanticClassifier.Cache
open Interleaving SingleFlight

-- Where panics unwind, a forward may also leave by one. Its thread holds no
-- lock there, so none is poisoned; it is free to call again, or never does.
inductive Move (τ κ ε ρ : Type) where
  | act (action : Action τ κ ε ρ)
  | unwind (thread : τ)

def Move.Unwinds : Move τ κ ε ρ → Prop
  | .act _ => False
  | .unwind _ => True

variable {τ κ ε ρ : Type} [DecidableEq τ] [DecidableEq κ]

def move (s : State τ κ ε ρ) : Move τ κ ε ρ → Option (State τ κ ε ρ)
  | .act action => advance s action
  | .unwind t =>
    match s.pc t with
    | .forward .. => some (goto s t .idle)
    | _ => none

def Moved (s : State τ κ ε ρ) (m : Move τ κ ε ρ) (next : State τ κ ε ρ) : Prop := move s m = some next

-- No announced flight without its forwarder, and nobody waiting on a slot that
-- is neither filled nor served.
structure Unwedged (s : State τ κ ε ρ) : Prop where
  flown : ∀ key, key ∈ s.inFlight → ∃ t, (s.pc t).Designated key
  asleep : ∀ t key i, s.pc t = .asleep key i → ∃ u, u ≠ t ∧ (s.pc u).Serves i
  joining : ∀ t key i, s.pc t = .join key i ∨ s.pc t = .joinHeld key i →
    (∃ result, s.slots[i]? = some (some result)) ∨ ∃ u, (s.pc u).Serves i

-- The key's slot stays announced and empty, and nobody forwards for it.
structure Wedged (s : State τ κ ε ρ) (key : κ) (i : Nat) : Prop where
  announced : s.inFlight.lookup key = some i
  empty : s.slots[i]? = some none
  nobody : ∀ t, ¬ (s.pc t).Designated key

theorem unwind_parts {s next : State τ κ ε ρ} (moved : Moved s (.unwind t) next) :
    ∃ key i, s.pc t = .forward key i ∧ next = goto s t .idle := by
  unfold Moved move at moved
  cases place : s.pc t <;> simp only [place,Option.some.injEq,reduceCtorEq] at moved
  exact ⟨_,_,rfl,moved.symm⟩

omit [DecidableEq κ] in
theorem unwind_abandons (s : State τ κ ε ρ) (t : τ) :
    flights (goto s t .idle) = {flights s with role := Function.update (flights s).role t .out} := by
  simp only [flights,goto,role_update]
  rfl

omit [DecidableEq τ] in
theorem valid_unwedged {s : State τ κ ε ρ} (valid : Valid s) : Unwedged s where
  flown key announced := ((in_flight_iff_designated valid key).mp announced).exists
  asleep t key i here := by
    obtain ⟨u,other,_,serves⟩ := asleep_served valid here
    exact ⟨u,other,serves⟩
  joining t key i here := by
    have waits : ((flights s).role t).Waits key i := by
      rcases here with here | here <;> simp [flights,here,Pc.role,Role.Waits]
    obtain ⟨u,registered⟩ := valid.sound.waits t key i waits
    have bound : i < s.slots.length := valid.sound.allocated u key i registered
    have content : s.slots[i]? = some s.slots[i] := List.getElem?_eq_getElem bound
    cases filled : s.slots[i] with
    | some result => exact .inl ⟨result,by rw [content,filled]⟩
    | none =>
        obtain ⟨_,u,l,carries⟩ := valid.sound.empty i (by rw [← filled]; exact content)
        exact .inr ⟨u,carries_serves carries⟩

theorem moved_coherent {s next : State τ κ ε ρ} (valid : Coherent (flights s))
    (moved : Moved s m next) : Coherent (flights next) := by
  cases m with
  | act action =>
      cases change_simulates valid.listed (step_change moved) with
      | inl same => exact same ▸ valid
      | inr step => exact step_coherent valid step
  | unwind t =>
      obtain ⟨key,i,place,rfl⟩ := unwind_parts moved
      rw [unwind_abandons]
      exact abandon_coherent valid (.abandon (congrArg Pc.role place))

theorem moved_orphaned {s next : State τ κ ε ρ} (valid : Coherent (flights s))
    (orphaned : Orphaned (flights s) key i) (moved : Moved s m next) : Orphaned (flights next) key i := by
  cases m with
  | act action =>
      cases change_simulates valid.listed (step_change moved) with
      | inl same => exact same ▸ orphaned
      | inr step => exact orphaned.step step
  | unwind t =>
      obtain ⟨other,j,place,rfl⟩ := unwind_parts moved
      rw [unwind_abandons]
      exact orphaned.abandoned (.abandon (congrArg Pc.role place))

omit [DecidableEq τ] in
theorem orphaned_wedged {s : State τ κ ε ρ} (valid : Coherent (flights s))
    (orphaned : Orphaned (flights s) key i) : Wedged s key i where
  announced := orphaned.listed
  empty := valid.vacant key i orphaned.listed
  nobody t here := by
    obtain ⟨j,flying⟩ := (designated_iff _ _).mp here
    exact orphaned.nobody t j flying

theorem path_coherent {inner : ExactCache κ ρ} {trace : List (State τ κ ε ρ × Move τ κ ε ρ)}
    (path : Path Moved (start inner) trace last) : Coherent (flights last) := by
  have kept : ∀ s m next, Coherent (flights s) → Moved s m next →
      Coherent (flights (next : State τ κ ε ρ)) := fun _ _ _ valid moved => moved_coherent valid moved
  have coherent := path.preserves kept
  exact coherent (start_coherent ⟨rfl,rfl,fun _ => rfl,rfl⟩)

-- From an unwinding on, its key is wedged for the rest of the run.
theorem unwound_wedged {s middle last : State τ κ ε ρ} (valid : Coherent (flights s))
    (place : s.pc t = .forward key i) (moved : Moved s (.unwind t) middle)
    (path : Path Moved middle late last) : Wedged last key i := by
  have kept : ∀ s m next, Coherent (flights s) ∧ Orphaned (flights s) key i → Moved s m next →
      Coherent (flights (next : State τ κ ε ρ)) ∧ Orphaned (flights next) key i :=
    fun _ _ _ both moved => ⟨moved_coherent both.1 moved,moved_orphaned both.1 both.2 moved⟩
  have orphaned : Orphaned (flights middle) key i := by
    obtain ⟨other,j,_,rfl⟩ := unwind_parts moved
    rw [unwind_abandons]
    exact abandon_orphans valid (congrArg Pc.role place)
  obtain ⟨coherent,still⟩ := path.preserves kept ⟨moved_coherent valid moved,orphaned⟩
  exact orphaned_wedged coherent still

omit [DecidableEq τ] in
theorem Wedged.not_unwedged {s : State τ κ ε ρ} (wedged : Wedged s key i) : ¬ Unwedged s := by
  intro unwedged
  have announced : key ∈ s.inFlight := Finmap.mem_of_lookup_eq_some wedged.announced
  obtain ⟨t,designated⟩ := unwedged.flown key announced
  exact wedged.nobody t designated

theorem path_valid {inner : ExactCache κ ρ} {trace : List (State τ κ ε ρ × Move τ κ ε ρ)}
    (path : Path Moved (start inner) trace last) (calm : Met (fun _ m => ¬ m.Unwinds) trace) :
    Valid last := by
  refine path.preserves_where ?_ calm (start_valid inner)
  intro s m next valid quiet moved
  cases m with
  | act action => exact step_valid valid moved
  | unwind t => exact absurd trivial quiet

-- No caller is left without a forwarder if and only if no forward unwinds, and
-- one that does leaves its key wedged in every state after it.
theorem unwedged_iff_no_unwinding {τ κ ε ρ : Type} [DecidableEq τ] [DecidableEq κ]
    {inner : ExactCache κ ρ} {trace : List (State τ κ ε ρ × Move τ κ ε ρ)} {last : State τ κ ε ρ}
    (path : Path Moved (start inner) trace last) :
    ((∀ s, Visited trace last s → Unwedged s) ↔ Met (fun _ m => ¬ m.Unwinds) trace) ∧
      ∀ s t, (s,.unwind t) ∈ trace → ∃ key i, s.pc t = .forward key i ∧ Wedged last key i := by
  have wedged : ∀ s t, (s,.unwind t) ∈ trace → ∃ key i, s.pc t = .forward key i ∧ Wedged last key i := by
    intro s t member
    obtain ⟨early,next,late,_,front,moved,back⟩ := path.split member
    obtain ⟨key,i,place,_⟩ := unwind_parts moved
    exact ⟨key,i,place,unwound_wedged (path_coherent front) place moved back⟩
  refine ⟨?_,wedged⟩
  constructor
  · intro unwedged row member unwinds
    obtain ⟨s,m⟩ := row
    cases m with
    | act action => exact unwinds
    | unwind t =>
        obtain ⟨key,i,_,stuck⟩ := wedged s t member
        exact stuck.not_unwedged (unwedged last (.inl rfl))
  · intro calm s visited
    obtain ⟨early,front,initial⟩ := path.visited visited
    exact valid_unwedged (path_valid front (calm.of_prefix initial))

-- The forwarder's closure unwinds, and a second caller of the key falls asleep
-- on the slot that was left behind.
def unwindMoves : List (Move Bool Nat Unit Nat) :=
  [.act (.call false 0),.act (.run false),.act (.run false),.act (.run false),.act (.run false),
    .unwind false,
    .act (.call true 0),.act (.run true),.act (.run true),.act (.run true),.act (.run true),
    .act (.run true),.act (.run true)]

def unwindRun : List (State Bool Nat Unit Nat × Move Bool Nat Unit Nat) × State Bool Nat Unit Nat :=
  (follow move pairStart unwindMoves).getD ([],pairStart)

theorem unwind_followed : follow move pairStart unwindMoves = some (unwindRun.1,unwindRun.2) := rfl

theorem unwedged_iff_no_unwinding_pair :
    ¬ (∀ s, Visited unwindRun.1 unwindRun.2 s → Unwedged s) ∧ ∃ key i, Wedged unwindRun.2 key i := by
  obtain ⟨exactly,wedged⟩ := unwedged_iff_no_unwinding (follow_path unwind_followed)
  have taken : .unwind false ∈ unwindRun.1.map Prod.snd := by
    rw [follow_actions unwind_followed]
    simp [unwindMoves]
  obtain ⟨⟨s,m⟩,member,rfl⟩ := List.mem_map.mp taken
  obtain ⟨key,i,_,stuck⟩ := wedged s false member
  exact ⟨fun unwedged => exactly.mp unwedged _ member trivial,key,i,stuck⟩

theorem second_caller_stranded :
    unwindRun.2.pc true = .asleep 0 0 ∧ (∀ u, ¬ (unwindRun.2.pc u).Serves 0) ∧
      ¬ ∀ s, Visited unwindRun.1 unwindRun.2 s → Unwedged s := by
  have asleep : unwindRun.2.pc true = .asleep 0 0 := rfl
  have gone : unwindRun.2.pc false = .idle := rfl
  have alone : ∀ u, ¬ (unwindRun.2.pc u).Serves 0 := by
    intro u serves
    cases u with
    | false => rw [gone] at serves; exact serves
    | true => rw [asleep] at serves; exact serves
  refine ⟨asleep,alone,?_⟩
  intro unwedged
  obtain ⟨u,_,serves⟩ := (unwedged _ (.inl rfl)).asleep true 0 0 asleep
  exact alone u serves

end SemanticClassifier.Cache
