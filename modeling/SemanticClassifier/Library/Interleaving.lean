import Mathlib.Logic.Function.Basic
import Mathlib.Data.List.Basic

namespace Interleaving
universe u v

-- A trace keeps every action together with the state it was taken in, oldest
-- first, so a run-wide condition can speak about the state before each step.
inductive Path {σ : Type u} {α : Type v} (step : σ → α → σ → Prop) :
    σ → List (σ × α) → σ → Prop where
  | nil : Path step s [] s
  | snoc : Path step origin trace before → step before action after →
      Path step origin (trace ++ [(before,action)]) after

variable {σ : Type u} {α : Type v} {step : σ → α → σ → Prop}

def Met (condition : σ → α → Prop) (trace : List (σ × α)) : Prop :=
  ∀ row ∈ trace, condition row.1 row.2

-- Every state the run stood in, its last one included.
def Visited (trace : List (σ × α)) (last s : σ) : Prop :=
  s = last ∨ ∃ action, (s,action) ∈ trace

def Reached (initial : σ → Prop) (step : σ → α → σ → Prop) (s : σ) : Prop :=
  ∃ origin trace, initial origin ∧ Path step origin trace s

@[simp] theorem met_nil (condition : σ → α → Prop) : Met condition [] := by simp [Met]

@[simp] theorem met_snoc {condition : σ → α → Prop} {trace : List (σ × α)} :
    Met condition (trace ++ [(s,action)]) ↔ Met condition trace ∧ condition s action := by
  simp only [Met,List.mem_append,List.mem_singleton]
  constructor
  · intro met
    exact ⟨fun row member => met row (.inl member),met (s,action) (.inr rfl)⟩
  · rintro ⟨earlier,last⟩ row (member | rfl)
    · exact earlier row member
    · exact last

-- The one induction: what a step preserves under the condition, a run whose
-- steps all meet it preserves.
theorem Path.preserves_where {condition : σ → α → Prop} {invariant : σ → Prop}
    (kept : ∀ s a t, invariant s → condition s a → step s a t → invariant t)
    (path : Path step origin trace last) (met : Met condition trace) (start : invariant origin) :
    invariant last := by
  induction path with
  | nil => exact start
  | snoc _ taken ih =>
      obtain ⟨earlier,here⟩ := met_snoc.mp met
      exact kept _ _ _ (ih earlier) here taken

theorem Path.preserves {motive : σ → Prop}
    (kept : ∀ s a t, motive s → step s a t → motive t)
    (path : Path step origin trace last) (start : motive origin) : motive last := by
  induction path with
  | nil => exact start
  | snoc _ taken ih => exact kept _ _ _ ih taken

theorem Path.append (first : Path step origin early middle) (second : Path step middle late last) :
    Path step origin (early ++ late) last := by
  induction second with
  | nil => simpa using first
  | snoc _ taken ih => simpa [← List.append_assoc] using ih.snoc taken

theorem Path.single (taken : step before action after) : Path step before [(before,action)] after :=
  Path.nil.snoc taken

-- Each row of the trace splits the run at the step it records.
theorem Path.split (path : Path step origin trace last) (member : (s,action) ∈ trace) :
    ∃ early next late, trace = early ++ (s,action) :: late ∧ Path step origin early s ∧
      step s action next ∧ Path step next late last := by
  induction path with
  | nil => cases member
  | @snoc trace before a after prior taken ih =>
      rcases List.mem_append.mp member with old | new
      · obtain ⟨early,next,late,rfl,front,here,back⟩ := ih old
        exact ⟨early,next,late ++ [(before,a)],by simp,front,here,back.snoc taken⟩
      · obtain ⟨rfl,rfl⟩ := Prod.mk.inj (List.mem_singleton.mp new)
        exact ⟨trace,after,[],rfl,prior,taken,.nil⟩

theorem Path.visited {s : σ} (path : Path step origin trace last) (seen : Visited trace last s) :
    ∃ early, Path step origin early s ∧ early <+: trace := by
  rcases seen with rfl | ⟨action,member⟩
  · exact ⟨trace,path,List.prefix_rfl⟩
  · obtain ⟨early,next,late,rfl,front,_,_⟩ := path.split member
    exact ⟨early,front,List.prefix_append _ _⟩

theorem Path.visited_origin (path : Path step origin trace last) : Visited trace last origin := by
  induction path with
  | nil => exact .inl rfl
  | @snoc trace before action after prior taken ih =>
      rcases ih with rfl | ⟨earlier,member⟩
      · exact .inr ⟨action,by simp⟩
      · exact .inr ⟨earlier,by simp [member]⟩

-- The state a recorded step leads to is one of the run's states.
theorem Path.visited_after (path : Path step origin trace last) (member : (s,action) ∈ trace) :
    ∃ early next, Path step origin early s ∧ step s action next ∧ Visited trace last next := by
  obtain ⟨early,next,late,rfl,front,here,back⟩ := path.split member
  refine ⟨early,next,front,here,?_⟩
  rcases back.visited_origin with rfl | ⟨later,seen⟩
  · exact .inl rfl
  · exact .inr ⟨later,by simp [seen]⟩

theorem Met.of_prefix {condition : σ → α → Prop} (met : Met condition trace)
    (initial : early <+: trace) : Met condition early :=
  fun row member => met row (initial.subset member)

theorem Reached.preserves {initial : σ → Prop} {invariant : σ → Prop}
    (start : ∀ s, initial s → invariant s)
    (kept : ∀ s a t, invariant s → step s a t → invariant t)
    (reached : Reached initial step s) : invariant s := by
  obtain ⟨origin,trace,first,path⟩ := reached
  exact path.preserves kept (start origin first)

theorem Path.reached {initial : σ → Prop} (first : initial origin)
    (path : Path step origin trace s) : Reached initial step s := ⟨origin,trace,first,path⟩

-- A machine made of parts: seen from one part, a run of the whole is a run of
-- that part, with the rows the part has no step in left out.
def projected {ρ : Type u} {β : Type v} (view : σ → ρ) (seen : σ → α → Option β) (trace : List (σ × α)) :
    List (ρ × β) :=
  trace.filterMap fun row => (seen row.1 row.2).map fun action => (view row.1,action)

-- The part takes the step that is seen of it, or stays.
def Follows {ρ : Type u} {β : Type v} (part : ρ → β → ρ → Prop) (before : ρ) (seen : Option β)
    (after : ρ) : Prop :=
  match seen with
  | some action => part before action after
  | none => after = before

theorem Path.project {ρ : Type u} {β : Type v} {view : σ → ρ} {seen : σ → α → Option β}
    {part : ρ → β → ρ → Prop}
    (each : ∀ s a t, step s a t → Follows part (view s) (seen s a) (view t))
    (path : Path step origin trace last) : Path part (view origin) (projected view seen trace) (view last) := by
  induction path with
  | nil => exact .nil
  | @snoc trace before action after prior taken ih =>
      have here := each _ _ _ taken
      rw [projected,List.filterMap_append]
      cases does : seen before action with
      | none =>
          simp only [does,Follows] at here
          simpa [projected,does,here] using ih
      | some b =>
          simp only [does,Follows] at here
          simpa [projected,does] using ih.snoc here

@[simp] theorem projected_append {ρ : Type u} {β : Type v} (view : σ → ρ) (seen : σ → α → Option β)
    (early late : List (σ × α)) :
    projected view seen (early ++ late) = projected view seen early ++ projected view seen late :=
  List.filterMap_append

theorem mem_projected {ρ : Type u} {β : Type v} {view : σ → ρ} {seen : σ → α → Option β}
    {trace : List (σ × α)} {r : ρ} {b : β} : (r,b) ∈ projected view seen trace ↔
      ∃ s a, (s,a) ∈ trace ∧ seen s a = some b ∧ view s = r := by
  simp [projected]

-- An executable step driven by a list of actions, and the trace it leaves.
def follow (advance : σ → α → Option σ) : σ → List α → Option (List (σ × α) × σ)
  | s,[] => some ([],s)
  | s,action :: rest =>
    match advance s action with
    | none => none
    | some next => (follow advance next rest).map fun run => ((s,action) :: run.1,run.2)

theorem follow_cons {advance : σ → α → Option σ}
    (followed : follow advance s (action :: rest) = some (trace,last)) :
    ∃ next run, advance s action = some next ∧ follow advance next rest = some (run,last) ∧
      trace = (s,action) :: run := by
  unfold follow at followed
  cases step : advance s action with
  | none => simp [step] at followed
  | some next =>
      simp only [step] at followed
      obtain ⟨⟨run,final⟩,later,equal⟩ := Option.map_eq_some_iff.mp followed
      cases equal
      exact ⟨next,run,rfl,later,rfl⟩

theorem follow_path {advance : σ → α → Option σ} {actions : List α}
    (followed : follow advance s actions = some (trace,last)) :
    Path (fun s a next => advance s a = some next) s trace last := by
  induction actions generalizing s trace with
  | nil =>
      cases Option.some.inj followed
      exact .nil
  | cons action rest ih =>
      obtain ⟨next,run,step,later,rfl⟩ := follow_cons followed
      exact (Path.single step).append (ih later)

theorem follow_actions {advance : σ → α → Option σ} {actions : List α}
    (followed : follow advance s actions = some (trace,last)) : trace.map Prod.snd = actions := by
  induction actions generalizing s trace with
  | nil =>
      cases Option.some.inj followed
      rfl
  | cons action rest ih =>
      obtain ⟨next,run,step,later,rfl⟩ := follow_cons followed
      exact congrArg (action :: ·) (ih later)

instance {condition : σ → α → Prop} [∀ s a, Decidable (condition s a)] (trace : List (σ × α)) :
    Decidable (Met condition trace) :=
  inferInstanceAs (Decidable (∀ row ∈ trace, condition row.1 row.2))

-- Nothing can move although something is still to be done.
def Deadlocked (step : σ → α → σ → Prop) (unfinished : σ → Prop) (s : σ) : Prop :=
  unfinished s ∧ ∀ action next, ¬ step s action next

end Interleaving
