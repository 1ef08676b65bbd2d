import SemanticClassifier.Library.SingleFlight

namespace SingleFlight

variable {τ κ α : Type} [DecidableEq τ] [DecidableEq κ]

-- A designated thread that never comes back. What a run keeps all the same:
-- every flight is on the table once, for an empty slot nobody else will fill.
structure Coherent (s : State τ κ α) : Prop where
  listed : ∀ t k i, s.role t = .flying k i → s.inFlight.lookup k = some i
  alone : ∀ t u k i j, s.role t = .flying k i → s.role u = .flying k j → t = u
  single : ∀ k l i, s.inFlight.lookup k = some i → s.inFlight.lookup l = some i → k = l
  vacant : ∀ k i, s.inFlight.lookup k = some i → s.slots[i]? = some none
  apart : ∀ t k l i r, s.role t = .publishing k i r → s.inFlight.lookup l ≠ some i
  allotted : ∀ t k i r, s.role t = .publishing k i r → i < s.slots.length

-- On the table for ever, with nobody in the air.
structure Orphaned (s : State τ κ α) (k : κ) (i : Nat) : Prop where
  listed : s.inFlight.lookup k = some i
  nobody : ∀ t j, s.role t ≠ .flying k j

inductive Abandon : State τ κ α → State τ κ α → Prop where
  | abandon : s.role t = .flying k i → Abandon s {s with role := Function.update s.role t .out}

omit [DecidableEq τ] in
theorem start_coherent {s : State τ κ α} (start : Start s) : Coherent s := by
  obtain ⟨flights,slots,roles,log⟩ := start
  constructor <;> simp [flights,slots,roles]

omit [DecidableEq τ] in
-- Roles that carry nothing may change at will.
theorem Coherent.passive {s : State τ κ α} (valid : Coherent s) (roles : τ → Role κ α)
    (flying : ∀ u k i, roles u = .flying k i → s.role u = .flying k i)
    (publishing : ∀ u k i r, roles u = .publishing k i r → s.role u = .publishing k i r)
    (log : List (Event τ κ α)) : Coherent {s with role := roles,log := log} where
  listed u k i here := valid.listed u k i (flying u k i here)
  alone u v k i j one two := valid.alone u v k i j (flying u k i one) (flying v k j two)
  single := valid.single
  vacant := valid.vacant
  apart u k l i r here := valid.apart u k l i r (publishing u k i r here)
  allotted u k i r here := valid.allotted u k i r (publishing u k i r here)

omit [DecidableEq τ] in
theorem Coherent.below {s : State τ κ α} (valid : Coherent s) (found : s.inFlight.lookup k = some i) :
    i < s.slots.length := by
  by_contra beyond
  have vacant := valid.vacant k i found
  rw [List.getElem?_eq_none (Nat.le_of_not_lt beyond)] at vacant
  cases vacant

theorem Coherent.register {s : State τ κ α} (valid : Coherent s) (absent : s.inFlight.lookup k = none)
    (log : List (Event τ κ α)) : Coherent {
      inFlight := s.inFlight.insert k s.slots.length
      slots := s.slots ++ [none]
      role := Function.update s.role t (.flying k s.slots.length)
      log := log} := by
  have found (l : κ) (j : Nat) (here : (s.inFlight.insert k s.slots.length).lookup l = some j) :
      (l = k ∧ j = s.slots.length) ∨ (l ≠ k ∧ s.inFlight.lookup l = some j ∧ j < s.slots.length) := by
    by_cases same : l = k
    · subst same
      rw [Finmap.lookup_insert] at here
      exact .inl ⟨rfl,(Option.some.inj here).symm⟩
    · rw [Finmap.lookup_insert_of_ne _ same] at here
      exact .inr ⟨same,here,valid.below here⟩
  have aloft (u : τ) (l : κ) (j : Nat)
      (here : Function.update s.role t (.flying k s.slots.length) u = .flying l j) :
      (u = t ∧ l = k ∧ j = s.slots.length) ∨ (u ≠ t ∧ s.role u = .flying l j) := by
    rcases updated_cases (· = .flying l j) here with ⟨mine,own⟩ | other
    · cases own
      exact .inl ⟨mine,rfl,rfl⟩
    · exact .inr other
  have filling (u : τ) (l : κ) (j : Nat) (r : α)
      (here : Function.update s.role t (.flying k s.slots.length) u = .publishing l j r) :
      s.role u = .publishing l j r :=
    of_updated (· = .publishing l j r) (by simp) here
  refine {
    listed := ?listed,alone := ?alone,single := ?single,vacant := ?vacant,apart := ?apart,
    allotted := ?allotted}
  case listed =>
    intro u l j here
    rcases aloft u l j here with ⟨rfl,rfl,rfl⟩ | ⟨other,before⟩
    · exact Finmap.lookup_insert _
    · have listed := valid.listed u l j before
      have elsewhere : l ≠ k := by
        intro same
        rw [same,absent] at listed
        cases listed
      exact (Finmap.lookup_insert_of_ne _ elsewhere).trans listed
  case alone =>
    intro u v l i j one two
    rcases aloft u l i one with ⟨rfl,rfl,_⟩ | ⟨_,first⟩
    · rcases aloft v l j two with ⟨same,_,_⟩ | ⟨_,second⟩
      · exact same.symm
      · rw [valid.listed v l j second] at absent
        cases absent
    · rcases aloft v l j two with ⟨_,rfl,_⟩ | ⟨_,second⟩
      · rw [valid.listed u l i first] at absent
        cases absent
      · exact valid.alone u v l i j first second
  case single =>
    intro l m j one two
    rcases found l j one with ⟨rfl,rfl⟩ | ⟨_,first,inside⟩
    · rcases found m _ two with ⟨same,_⟩ | ⟨_,_,inside⟩
      · exact same.symm
      · exact absurd inside (Nat.lt_irrefl _)
    · rcases found m j two with ⟨_,rfl⟩ | ⟨_,second,_⟩
      · exact absurd inside (Nat.lt_irrefl _)
      · exact valid.single l m j first second
  case vacant =>
    intro l j here
    rcases found l j here with ⟨_,rfl⟩ | ⟨_,before,inside⟩
    · simp
    · rw [List.getElem?_append_left inside]
      exact valid.vacant l j before
  case apart =>
    intro u l m j r here listed
    have before := filling u l j r here
    rcases found m j listed with ⟨_,rfl⟩ | ⟨_,old,_⟩
    · exact absurd (valid.allotted u l _ r before) (Nat.lt_irrefl _)
    · exact valid.apart u l m j r before old
  case allotted =>
    intro u l j r here
    have inside := valid.allotted u l j r (filling u l j r here)
    rw [List.length_append]
    omega

theorem Coherent.remove {s : State τ κ α} (valid : Coherent s) (flying : s.role t = .flying k i)
    (found : s.inFlight.lookup k = some j) : Coherent {s with
      inFlight := s.inFlight.erase k
      role := Function.update s.role t (.publishing k j r)} := by
  have kept (l : κ) (n : Nat) (here : (s.inFlight.erase k).lookup l = some n) :
      l ≠ k ∧ s.inFlight.lookup l = some n := by
    by_cases same : l = k
    · subst same
      rw [Finmap.lookup_erase] at here
      cases here
    · rw [Finmap.lookup_erase_ne same] at here
      exact ⟨same,here⟩
  have aloft (u : τ) (l : κ) (n : Nat)
      (here : Function.update s.role t (.publishing k j r) u = .flying l n) :
      u ≠ t ∧ s.role u = .flying l n := by
    rcases updated_cases (· = .flying l n) here with ⟨_,own⟩ | other
    · cases own
    · exact other
  have filling (u : τ) (l : κ) (n : Nat) (q : α)
      (here : Function.update s.role t (.publishing k j r) u = .publishing l n q) :
      n = j ∨ s.role u = .publishing l n q := by
    rcases updated_cases (· = .publishing l n q) here with ⟨_,own⟩ | ⟨_,before⟩
    · cases own
      exact .inl rfl
    · exact .inr before
  refine {
    listed := ?listed,alone := ?alone,single := ?single,vacant := ?vacant,apart := ?apart,
    allotted := ?allotted}
  case listed =>
    intro u l n here
    obtain ⟨other,before⟩ := aloft u l n here
    have elsewhere : l ≠ k := fun same => other (valid.alone u t k n i (same ▸ before) flying)
    exact (Finmap.lookup_erase_ne elsewhere).trans (valid.listed u l n before)
  case alone =>
    intro u v l m n one two
    exact valid.alone u v l m n (aloft u l m one).2 (aloft v l n two).2
  case single =>
    intro l m n one two
    exact valid.single l m n (kept l n one).2 (kept m n two).2
  case vacant =>
    intro l n here
    exact valid.vacant l n (kept l n here).2
  case apart =>
    intro u l m n q here listed
    obtain ⟨elsewhere,old⟩ := kept m n listed
    rcases filling u l n q here with rfl | before
    · exact elsewhere (valid.single m k n old found)
    · exact valid.apart u l m n q before old
  case allotted =>
    intro u l n q here
    rcases filling u l n q here with rfl | before
    · exact valid.below found
    · exact valid.allotted u l n q before

theorem Coherent.publish {s : State τ κ α} (valid : Coherent s)
    (publishing : s.role t = .publishing k i r) (log : List (Event τ κ α)) : Coherent {s with
      slots := s.slots.set i (some r)
      role := Function.update s.role t (.notifying i)
      log := log} := by
  have aloft (u : τ) (l : κ) (n : Nat)
      (here : Function.update s.role t (.notifying i) u = .flying l n) : s.role u = .flying l n :=
    of_updated (· = .flying l n) (by simp) here
  have filling (u : τ) (l : κ) (n : Nat) (q : α)
      (here : Function.update s.role t (.notifying i) u = .publishing l n q) :
      s.role u = .publishing l n q := of_updated (· = .publishing l n q) (by simp) here
  have moved := valid.passive (Function.update s.role t (.notifying i)) aloft filling log
  refine ⟨moved.listed,moved.alone,moved.single,?_,moved.apart,?_⟩
  · intro l n here
    have elsewhere : i ≠ n := fun same => valid.apart t k l i r publishing (same ▸ here)
    rw [List.getElem?_set_ne elsewhere]
    exact valid.vacant l n here
  · intro u l n q here
    rw [List.length_set]
    exact valid.allotted u l n q (filling u l n q here)

omit [DecidableEq κ] in
-- Waking the sleepers leaves every busy thread where it was.
theorem of_notified {roles : τ → Role κ α} {role : Role κ α} (busy : ¬ role.Passive)
    (here : Function.update (fun u => (roles u).woken i) t .out u = role) : roles u = role := by
  rcases updated_cases (· = role) here with ⟨_,own⟩ | ⟨_,before⟩
  · subst own
    exact absurd trivial busy
  · rcases (roles u).woken_sleeper (j := i) with same | ⟨l,_,woken⟩
    · rwa [same] at before
    · rw [woken] at before
      subst before
      exact absurd trivial busy

theorem step_coherent {s next : State τ κ α} (valid : Coherent s) (step : Step s next) :
    Coherent next := by
  have out {role : Role κ α} (t : τ) (quiet : ∀ k i, role ≠ .flying k i)
      (still : ∀ k i r, role ≠ .publishing k i r) (log : List (Event τ κ α)) :
      Coherent {s with role := Function.update s.role t role,log := log} :=
    valid.passive _ (fun u k i => of_updated (· = .flying k i) (quiet k i))
      (fun u k i r => of_updated (· = .publishing k i r) (still k i r)) log
  cases step with
  | register _ absent => exact valid.register absent _
  | join _ _ => exact out _ (by simp) (by simp) s.log
  | sleep _ _ => exact out _ (by simp) (by simp) s.log
  | wake _ => exact out _ (by simp) (by simp) s.log
  | collect _ _ => exact out _ (by simp) (by simp) _
  | remove flying found => exact valid.remove flying found
  | publish publishing => exact valid.publish publishing _
  | notify _ =>
      exact valid.passive _ (fun u k j => of_notified (by simp [Role.Passive]))
        (fun u k j r => of_notified (by simp [Role.Passive])) s.log

theorem abandon_coherent {s next : State τ κ α} (valid : Coherent s) (gone : Abandon s next) :
    Coherent next := by
  cases gone with
  | abandon _ =>
      exact valid.passive _ (fun u k i => of_updated (· = .flying k i) (by simp))
        (fun u k i r => of_updated (· = .publishing k i r) (by simp)) s.log

-- The flight stays announced with nobody left to land it.
theorem abandon_orphans {s : State τ κ α} (valid : Coherent s) (flying : s.role t = .flying k i) :
    Orphaned {s with role := Function.update s.role t .out} k i := by
  refine ⟨valid.listed t k i flying,?_⟩
  intro u j here
  rcases updated_cases (· = .flying k j) here with ⟨_,own⟩ | ⟨other,before⟩
  · cases own
  · exact other (valid.alone u t k j i before flying)

theorem Orphaned.abandoned {s next : State τ κ α} (orphaned : Orphaned s k i) (gone : Abandon s next) :
    Orphaned next k i := by
  cases gone with
  | abandon _ =>
      exact ⟨orphaned.listed,fun u j here => orphaned.nobody u j
        (of_updated (· = .flying k j) (by simp) here)⟩

omit [DecidableEq τ] in
theorem Orphaned.unlisted {s : State τ κ α} (orphaned : Orphaned s k i)
    (absent : s.inFlight.lookup l = none) : k ≠ l := by
  intro same
  rw [← same,orphaned.listed] at absent
  cases absent

omit [DecidableEq τ] in
theorem Orphaned.elsewhere {s : State τ κ α} (orphaned : Orphaned s k i)
    (flying : s.role t = .flying l j) : k ≠ l :=
  fun same => orphaned.nobody t j (same ▸ flying)

theorem Orphaned.step {s next : State τ κ α} (orphaned : Orphaned s k i) (step : Step s next) :
    Orphaned next k i := by
  have nobody {role : Role κ α} (t : τ) (quiet : ∀ j, role ≠ .flying k j) (u : τ) (j : Nat) :
      Function.update s.role t role u ≠ .flying k j :=
    fun here => orphaned.nobody u j (of_updated (· = .flying k j) (quiet j) here)
  cases step with
  | register _ absent =>
      have elsewhere := orphaned.unlisted absent
      exact ⟨(Finmap.lookup_insert_of_ne _ elsewhere).trans orphaned.listed,
        nobody _ fun j same => elsewhere (Role.flying.inj same).1.symm⟩
  | join _ _ | sleep _ _ | wake _ | collect _ _ | publish _ =>
      exact ⟨orphaned.listed,nobody _ (by simp)⟩
  | remove flying found =>
      have elsewhere := orphaned.elsewhere flying
      exact ⟨(Finmap.lookup_erase_ne elsewhere).trans orphaned.listed,nobody _ (by simp)⟩
  | notify _ =>
      refine ⟨orphaned.listed,?_⟩
      intro u j here
      exact orphaned.nobody u j (of_notified (by simp [Role.Passive]) here)

end SingleFlight
