import Mathlib.Logic.Function.Basic
import Mathlib.Tactic.Basic

namespace Mutex
universe u v w

-- A non-reentrant lock is free or has one owner. Only the owner's next release
-- frees it, so a thread that asks again for its own lock waits for ever.
abbrev Table (τ : Type u) (ι : Type v) := ι → Option τ

variable {τ : Type u} {ι : Type v}

section Operations
variable [DecidableEq ι]

def acquire (locks : Table τ ι) (thread : τ) (lock : ι) : Option (Table τ ι) :=
  if locks lock = none then some (Function.update locks lock (some thread)) else none

def release (locks : Table τ ι) (lock : ι) : Table τ ι := Function.update locks lock none

theorem acquire_parts {locks next : Table τ ι} (taken : acquire locks thread lock = some next) :
    locks lock = none ∧ next = Function.update locks lock (some thread) := by
  unfold acquire at taken
  split at taken
  · rename_i free
    exact ⟨free,(Option.some.inj taken).symm⟩
  · cases taken

theorem acquire_free {locks : Table τ ι} (free : locks lock = none) :
    acquire locks thread lock = some (Function.update locks lock (some thread)) := by
  simp [acquire,free]

theorem acquire_held {locks : Table τ ι} (held : locks lock = some owner) :
    acquire locks thread lock = none := by simp [acquire,held]

end Operations

-- The table says exactly who stands inside which critical section.
def Agrees (locks : Table τ ι) (holds : τ → ι → Prop) : Prop :=
  ∀ lock thread, locks lock = some thread ↔ holds thread lock

theorem Agrees.exclusive {locks : Table τ ι} {holds : τ → ι → Prop} (agrees : Agrees locks holds)
    (one : holds a lock) (two : holds b lock) : a = b :=
  Option.some.inj (((agrees _ _).mpr one).symm.trans ((agrees _ _).mpr two))

theorem Agrees.unheld {locks : Table τ ι} {holds : τ → ι → Prop} (agrees : Agrees locks holds)
    (free : locks lock = none) (thread : τ) : ¬ holds thread lock := by
  intro held
  rw [(agrees _ _).mpr held] at free
  cases free

section Places
variable {ρ : Type w} {holds : ρ → ι → Prop} {locks : Table τ ι} {place : τ → ρ}

-- Three moves of one thread: it takes one lock, drops one, or keeps what it has.
theorem Agrees.take [DecidableEq τ] [DecidableEq ι]
    (agrees : Agrees locks (fun u => holds (place u))) (free : locks lock = none)
    (moved : ∀ other, holds after other ↔ other = lock ∨ holds (place thread) other) :
    Agrees (Function.update locks lock (some thread))
      (fun u => holds (Function.update place thread after u)) := by
  intro other owner
  dsimp only
  by_cases same : other = lock
  · subst same
    rw [Function.update_self]
    by_cases mine : owner = thread
    · subst mine; simp [moved]
    · simp only [Option.some.injEq,Function.update_of_ne mine]
      exact ⟨fun equal => absurd equal.symm mine,fun held => absurd held (agrees.unheld free owner)⟩
  · rw [Function.update_of_ne same,agrees other owner]
    dsimp only
    by_cases mine : owner = thread
    · subst mine; simp [moved,same]
    · rw [Function.update_of_ne mine]

theorem Agrees.drop [DecidableEq τ] [DecidableEq ι] (agrees : Agrees locks (fun u => holds (place u)))
    (held : holds (place thread) lock)
    (moved : ∀ other, holds after other ↔ other ≠ lock ∧ holds (place thread) other) :
    Agrees (Function.update locks lock none)
      (fun u => holds (Function.update place thread after u)) := by
  intro other owner
  dsimp only
  by_cases mine : owner = thread
  · subst mine
    rw [Function.update_self,moved]
    by_cases same : other = lock
    · subst same; simp
    · rw [Function.update_of_ne same,agrees other owner]
      simp [same]
  · rw [Function.update_of_ne mine]
    by_cases same : other = lock
    · subst same
      simp only [Function.update_self,reduceCtorEq,false_iff]
      exact fun also => mine (agrees.exclusive also held)
    · rw [Function.update_of_ne same,agrees other owner]

theorem Agrees.keep [DecidableEq τ] (agrees : Agrees locks (fun u => holds (place u)))
    (moved : ∀ other, holds after other ↔ holds (place thread) other) :
    Agrees locks (fun u => holds (Function.update place thread after u)) := by
  intro other owner
  rw [agrees other owner]
  dsimp only
  by_cases mine : owner = thread
  · subst mine; simp [moved]
  · rw [Function.update_of_ne mine]

end Places

-- Who waits for a lock asks for one above all it holds. Following the owners
-- upwards then ends, so somebody can move. The order may depend on the state.
theorem ordered_progress {holds wants : τ → ι → Prop} {live enabled : τ → Prop}
    (rank : ι → Nat) (bound : Nat) (bounded : ∀ lock, rank lock ≤ bound)
    (blocked : ∀ t, live t → ¬ enabled t → ∃ lock owner, wants t lock ∧ holds owner lock)
    (owners : ∀ t lock, holds t lock → live t)
    (ordered : ∀ t held lock, holds t held → wants t lock → rank held < rank lock)
    (unfinished : live t) : ∃ u, live u ∧ enabled u := by
  by_contra nobody
  have stuck : ∀ u, live u → ¬ enabled u := fun u alive move => nobody ⟨u,alive,move⟩
  have climb : ∀ fuel u lock, holds u lock → bound - rank lock ≤ fuel → False := by
    intro fuel
    induction fuel with
    | zero =>
        intro u lock held small
        obtain ⟨next,owner,want,_⟩ := blocked u (owners u lock held) (stuck u (owners u lock held))
        have above := ordered u lock next held want
        have top := bounded next
        omega
    | succ fuel ih =>
        intro u lock held small
        obtain ⟨next,owner,want,got⟩ := blocked u (owners u lock held) (stuck u (owners u lock held))
        have above := ordered u lock next held want
        have top := bounded next
        exact ih owner next got (by omega)
  obtain ⟨lock,owner,_,held⟩ := blocked t unfinished (stuck t unfinished)
  exact climb (bound - rank lock) owner lock held (Nat.le_refl _)

end Mutex
