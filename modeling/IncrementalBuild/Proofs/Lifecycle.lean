import IncrementalBuild.Proofs.SessionRuns
/-!
# The life of a session

Cycles are counted in three places that are kept apart: the cache numbers its committed cycle, the
session counts the cycles it completed, and every output carries the number of its cycle. After
any run of operations, of which some resets may have failed, the three agree with the number of
resets that came through, and the two outputs that a session holds are the last two of these.
-/
namespace IncrementalBuild

/-- An operation on a session. A reset comes with the compiler, the loader and the outlets it
uses. -/
inductive SessionStep (σ : Type) where
  | addSource (p : Path) (content : Text)
  | loadSources (loader : Loader)
  | prune
  | reset {ο : Type} (compiler : Compiler σ) (loader : Loader) (outlets : Outlets ο) (o : ο)

namespace Session

variable {σ : Type}

/-! ## Runs -/

def apply (s : Session σ) : SessionStep σ → Session σ
  | .addSource p content => (s.addSource p content).2
  | .loadSources loader => (s.loadSources loader).2
  | .prune => s.prune.2
  | .reset compiler loader outlets o => (s.reset compiler loader outlets o).2.1

/-- The output of an operation. Only a reset that comes through has one. -/
def output? (s : Session σ) : SessionStep σ → Option CycleOutput
  | .reset compiler loader outlets o => (s.reset compiler loader outlets o).1.toOption
  | _ => none

def outputs (s : Session σ) : List (SessionStep σ) → List CycleOutput
  | [] => []
  | step :: rest => (s.output? step).toList ++ (s.apply step).outputs rest

def runSteps (config : BuildConfiguration) (initial : σ) (steps : List (SessionStep σ)) :
    Session σ :=
  steps.foldl apply (Session.new config initial)

/-! ## What one operation does -/

/-- An operation completes a cycle, or leaves the committed part of the cache and all that is kept
of the completed cycles. -/
theorem apply_cases {s : Session σ} (h : s.cache.Sound) (step : SessionStep σ) :
    (∃ output, s.output? step = some output ∧ output.cycle = s.cache.cycle + 1 ∧
      output.changes.cycle = output.cycle ∧ (s.apply step).cache.cycle = s.cache.cycle + 1 ∧
      (s.apply step).current = some output ∧ (s.apply step).previous = s.current ∧
      (s.apply step).completed = s.completed + 1) ∨
    (s.output? step = none ∧ (s.apply step).cache.cycle = s.cache.cycle ∧
      (s.apply step).current = s.current ∧ (s.apply step).previous = s.previous ∧
      (s.apply step).completed = s.completed) := by
  cases step with
  | addSource p content =>
    exact Or.inr ⟨rfl, congrArg CommittedView.cycle (h.view_stage p content), rfl, rfl, rfl⟩
  | loadSources loader =>
    refine Or.inr ⟨rfl, ?_⟩
    have hview := (loadSources_stages loader s).view h
    rw [loadSources_eq] at hview
    simp only [apply, loadSources_eq, and_true]
    exact congrArg CommittedView.cycle hview
  | prune =>
    refine Or.inr ⟨rfl, ?_, rfl, rfl, rfl⟩
    show (s.cache.prune _).2.cycle = _
    rw [h.prune_eq]
    rfl
  | reset compiler loader outlets o =>
    have hcycle : (s.discover loader).cache.cycle = s.cache.cycle :=
      congrArg CommittedView.cycle (discover_view loader h)
    rcases reset_cases compiler loader outlets s o with ⟨output, o', hdelivered, heq⟩ | ⟨e, o', heq⟩
    · refine Or.inl ⟨output, ?_⟩
      obtain ⟨_, _, _, _, rfl⟩ := deliver_ok hdelivered
      simp only [apply, output?, heq, true_and]
      exact ⟨rfl, congrArg (· + 1) hcycle, congrArg (· + 1) hcycle, rfl, rfl, rfl⟩
    · refine Or.inr ?_
      have hview := fails_view loader h (s.compiled compiler loader).2
      simp only [apply, output?, heq]
      exact ⟨rfl, congrArg CommittedView.cycle hview, rfl, rfl, rfl⟩

theorem apply_sound {s : Session σ} (h : s.cache.Sound) (step : SessionStep σ) :
    (s.apply step).cache.Sound := by
  cases step with
  | addSource p content => exact h.stage p content
  | loadSources loader => exact (loadSources_stages loader s).sound h
  | prune => exact h.prune _
  | reset compiler loader outlets o => exact reset_sound loader h compiler outlets o

section
variable {config : BuildConfiguration} {initial : σ} {s : Session σ} {T : List (Path × Text)}
  (h : Reached Set.univ Set.univ config initial s T)
include h

theorem Reached.apply (step : SessionStep σ) :
    ∃ T', Reached Set.univ Set.univ config initial (s.apply step) T' := by
  cases step with
  | addSource p content => exact ⟨_, h.addSource p (Set.mem_univ content)⟩
  | loadSources loader => exact ⟨_, h.loadSources loader.within_univ⟩
  | prune => exact ⟨_, h.prune⟩
  | reset compiler loader outlets o =>
    exact ⟨_, h.reset (Set.mem_univ compiler) loader.within_univ outlets o⟩

theorem Reached.foldl (steps : List (SessionStep σ)) :
    ∃ T', Reached Set.univ Set.univ config initial (steps.foldl Session.apply s) T' := by
  induction steps generalizing s T with
  | nil => exact ⟨T, h⟩
  | cons step steps ih =>
    obtain ⟨_, hstep⟩ := h.apply step
    exact ih hstep

end

/-- A run leads to a session that is reached, whatever compilers and loaders its resets use. -/
theorem runSteps_reached (config : BuildConfiguration) (initial : σ)
    (steps : List (SessionStep σ)) :
    ∃ T, Reached Set.univ Set.univ config initial (runSteps config initial steps) T :=
  Reached.new.foldl steps

/-! ## What a run keeps -/

/-- A session has completed cycles with these outputs, the last one last. -/
structure Completed (s : Session σ) (outputs : List CycleOutput) : Prop where
  sound : s.cache.Sound
  cycle : s.cache.cycle = outputs.length
  completed : s.completed = outputs.length
  current : s.current = outputs.getLast?
  previous : s.previous = outputs.dropLast.getLast?
  numbered : ∀ i output, outputs[i]? = some output →
    output.cycle = i + 1 ∧ output.changes.cycle = output.cycle

theorem new_completed (config : BuildConfiguration) (initial : σ) :
    (Session.new config initial).Completed [] :=
  ⟨Cache.empty_sound, rfl, rfl, rfl, rfl, fun _ _ h => by cases h⟩

theorem Completed.apply {s : Session σ} {outputs : List CycleOutput} (h : s.Completed outputs)
    (step : SessionStep σ) :
    (s.apply step).Completed (outputs ++ (s.output? step).toList) := by
  have hsound := apply_sound h.sound step
  rcases apply_cases h.sound step with
    ⟨output, ho, hcycle, hchanges, hcache, hcurrent, hprevious, hcompleted⟩ |
    ⟨ho, hcache, hcurrent, hprevious, hcompleted⟩
  · rw [ho, Option.toList_some]
    refine ⟨hsound, ?_, ?_, ?_, ?_, fun i x hx => ?_⟩
    · rw [hcache, h.cycle, List.length_append, List.length_singleton]
    · rw [hcompleted, h.completed, List.length_append, List.length_singleton]
    · rw [hcurrent, List.getLast?_concat]
    · rw [hprevious, h.current, List.dropLast_concat]
    · -- the new output has the next number, and the others keep theirs
      rcases Nat.lt_or_ge i outputs.length with hi | hi
      · rw [List.getElem?_append_left hi] at hx
        exact h.numbered i x hx
      · rw [List.getElem?_append_right hi, List.getElem?_singleton] at hx
        split at hx
        · next hlast =>
          cases hx
          refine ⟨?_, hchanges⟩
          rw [hcycle, h.cycle]
          omega
        · cases hx
  · rw [ho, Option.toList_none, List.append_nil]
    exact ⟨hsound, hcache.trans h.cycle, hcompleted.trans h.completed, hcurrent.trans h.current,
      hprevious.trans h.previous, h.numbered⟩

theorem Completed.foldl {s : Session σ} {outputs : List CycleOutput} (h : s.Completed outputs)
    (steps : List (SessionStep σ)) :
    (steps.foldl Session.apply s).Completed (outputs ++ s.outputs steps) := by
  induction steps generalizing s outputs with
  | nil =>
    rw [Session.outputs, List.append_nil]
    exact h
  | cons step steps ih =>
    rw [Session.outputs, ← List.append_assoc]
    exact ih (h.apply step)

/-! ## What a session says of its cycles -/

/-- What a session says of its cycles, when these are the outputs of the resets that came through.
Their number is the cycle of the cache and the number that the stage tells. The session holds the
last output, and the one before it as long as there is one. A reset that comes through takes the
place of the current output, which becomes the previous one as it is; no other operation changes
either of the two. -/
structure Lifecycle (s : Session σ) (outputs : List CycleOutput) : Prop where
  cycle : s.cache.cycle = outputs.length
  stage : s.stage = if outputs.length = 0 then .idle else .cycled outputs.length
  current : s.current = outputs.getLast?
  previous : s.previous = outputs.dropLast.getLast?
  currentExists : s.current.isSome ↔ 1 ≤ outputs.length
  previousExists : s.previous.isSome ↔ 2 ≤ outputs.length
  currentCycle : ∀ output, s.current = some output →
    output.cycle = outputs.length ∧ output.changes.cycle = output.cycle
  previousCycle : ∀ output, s.previous = some output → output.cycle = outputs.length - 1
  shifts : ∀ step output, s.output? step = some output →
    (s.apply step).current = some output ∧ (s.apply step).previous = s.current
  keeps : ∀ step, s.output? step = none →
    (s.apply step).current = s.current ∧ (s.apply step).previous = s.previous

/-- The last item of a list is the one whose number is the length. -/
theorem getElem?_of_getLast? {α : Type} {l : List α} {a : α} (h : l.getLast? = some a) :
    l[l.length - 1]? = some a ∧ 1 ≤ l.length := by
  refine ⟨List.getLast?_eq_getElem? ▸ h, ?_⟩
  cases l with
  | nil => cases h
  | cons b l => exact Nat.succ_le_succ (Nat.zero_le _)

theorem Completed.lifecycle {s : Session σ} {outputs : List CycleOutput}
    (h : s.Completed outputs) : s.Lifecycle outputs where
  cycle := h.cycle
  stage := by
    unfold Session.stage
    rw [h.completed]
  current := h.current
  previous := h.previous
  currentExists := by
    rw [h.current, List.getLast?_isSome]
    exact List.length_pos_iff.symm
  previousExists := by
    rw [h.previous, List.getLast?_isSome, ← List.length_pos_iff, List.length_dropLast]
    omega
  currentCycle output ho := by
    obtain ⟨hlast, hpos⟩ := getElem?_of_getLast? (h.current ▸ ho)
    obtain ⟨hcycle, hchanges⟩ := h.numbered _ output hlast
    exact ⟨by omega, hchanges⟩
  previousCycle output ho := by
    obtain ⟨hlast, hpos⟩ := getElem?_of_getLast? (h.previous ▸ ho)
    rw [List.length_dropLast] at hlast hpos
    rw [List.getElem?_dropLast] at hlast
    split at hlast
    · have hcycle := (h.numbered _ output hlast).1
      omega
    · cases hlast
  shifts step output ho := by
    rcases apply_cases h.sound step with ⟨_, ho', _, _, _, hcurrent, hprevious, _⟩ | ⟨hnone, _⟩
    · cases ho.symm.trans ho'
      exact ⟨hcurrent, hprevious⟩
    · cases ho.symm.trans hnone
  keeps step ho := by
    rcases apply_cases h.sound step with ⟨_, ho', _⟩ | ⟨_, _, hcurrent, hprevious, _⟩
    · cases ho.symm.trans ho'
    · exact ⟨hcurrent, hprevious⟩

/-- After any run of operations, whichever resets failed and however, the cycle of the cache, the
stage and the outputs of a session agree with the resets that came through. -/
theorem runSteps_lifecycle (config : BuildConfiguration) (initial : σ)
    (steps : List (SessionStep σ)) :
    (runSteps config initial steps).Lifecycle ((Session.new config initial).outputs steps) := by
  have hcompleted := (new_completed config initial).foldl steps
  rw [List.nil_append] at hcompleted
  exact hcompleted.lifecycle

end Session

end IncrementalBuild
