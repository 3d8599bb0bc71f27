import IncrementalBuild.Proofs.PlannedSessions
import IncrementalBuild.Proofs.ReachableCaches
/-!
# Runs of the pass-through compiler

The compiler is called again and again, on any caches, with any configurations, and told of any
changes, true or not. Whatever it remembers of these calls, it gives what a new compiler would
give, and a call that fails leaves its memory as it was.
-/
namespace IncrementalBuild

/-- A call of the compiler: the configuration, the operations that lead to the cache it is shown,
and the changes it is told of. -/
structure CompileCall where
  config : BuildConfiguration
  steps : List CacheStep
  changes : ChangeSet

namespace CompileCall

def sources (call : CompileCall) : Cache := Cache.runSteps call.steps

/-- The call with other changes that the compiler is told of. -/
def told (call : CompileCall) (changes : ChangeSet) : CompileCall := { call with changes }

def answer (call : CompileCall) (m : Memo) : Except CompileError CompileResult × Memo :=
  PassThrough.compile call.config call.sources call.changes m

def memoAfter (calls : List CompileCall) : Memo :=
  calls.foldl (fun m call => (call.answer m).2) Memo.empty

/-- The contents of the files that calls show to the compiler. -/
def shown (calls : List CompileCall) : Set Text :=
  {content | ∃ call ∈ calls, ∃ f ∈ call.sources.files, f.content = content}

theorem sources_made (call : CompileCall) : ∀ f ∈ call.sources.files, f.Made :=
  fun _ hf => (Cache.runSteps_sound call.steps).files_made hf

theorem mem_shown {calls : List CompileCall} {call : CompileCall} (h : call ∈ calls) :
    ∀ f ∈ call.sources.files, f.content ∈ shown calls :=
  fun f hf => ⟨call, h, f, hf, rfl⟩

theorem answer_valid {contents : Set Text} {m : Memo} (hm : m.Valid contents) (call : CompileCall)
    (hin : ∀ f ∈ call.sources.files, f.content ∈ contents) :
    (call.answer m).2.Valid contents :=
  PassThrough.compile_valid call.sources_made hin _ _ hm

theorem memoAfter_valid {contents : Set Text} (calls : List CompileCall)
    (hin : ∀ call ∈ calls, ∀ f ∈ call.sources.files, f.content ∈ contents) :
    (memoAfter calls).Valid contents := by
  -- the induction is on the calls left, from any memory that is valid so far
  have hfold : ∀ m : Memo, m.Valid contents →
      (calls.foldl (fun m call => (call.answer m).2) m).Valid contents := by
    induction calls with
    | nil => exact fun _ hm => hm
    | cons call calls ih =>
      intro m hm
      exact ih (fun c hc => hin c (List.mem_cons_of_mem call hc)) _
        (answer_valid hm call (hin call List.mem_cons_self))
  exact hfold Memo.empty Memo.empty_valid

theorem answer_error {call : CompileCall} {m : Memo} {e : CompileError}
    (h : (call.answer m).1 = .error e) : (call.answer m).2 = m := by
  unfold answer PassThrough.compile at h ⊢
  split
  · rfl
  · next hknown =>
    rw [hknown] at h
    cases h

/-- The memory of the compiler makes no difference to what it gives: after any calls, it answers
the next one as a new compiler would, told of these or any other changes. If the answer is an
error, the memory is as it was. The contents of the files it was shown have different hashes. -/
theorem memo_unobservable (calls : List CompileCall) (call : CompileCall)
    (hinj : Set.InjOn ContentHash.ofText (shown (call :: calls))) :
    (∀ changes : ChangeSet, (call.answer (memoAfter calls)).1 =
      ((call.told changes).answer Memo.empty).1) ∧
    ∀ e : CompileError, (call.answer (memoAfter calls)).1 = .error e →
      (call.answer (memoAfter calls)).2 = memoAfter calls := by
  have hin := mem_shown (List.mem_cons_self (a := call) (l := calls))
  have hvalid : (memoAfter calls).Valid (shown (call :: calls)) :=
    memoAfter_valid calls fun c hc => mem_shown (List.mem_cons_of_mem call hc)
  refine ⟨fun changes => ?_, fun e he => answer_error he⟩
  calc (call.answer (memoAfter calls)).1
      = PassThrough.compileFresh call.config call.sources.files :=
        PassThrough.compile_eq call.sources_made hin _ _ hvalid hinj
    _ = ((call.told changes).answer Memo.empty).1 :=
        (PassThrough.compile_eq call.sources_made hin _ _ Memo.empty_valid hinj).symm

/-! ## A change that is hidden -/

/-- The operations that commit one content of a file after another. -/
def commits (contents : List Text) : List CacheStep :=
  contents.flatMap fun content => [.upsert "/p/a.ts" content, .reset]

/-- A call on a file with two contents, the second of which is committed. The compiler is told
that nothing changed. -/
def silent : CompileCall :=
  ⟨Session.sample.config, commits ["let a = 1;".toList, "let a = 2;".toList], .empty⟩

/-- A call on the file with its first content. -/
def earlier : CompileCall := ⟨Session.sample.config, commits ["let a = 1;".toList], .empty⟩

theorem shown_silent : shown [silent, earlier] ⊆ Session.sampleContents := by
  have hsilent : silent.sources.files.map SourceFile.content = ["let a = 2;".toList] := by
    decide +kernel
  have hearlier : earlier.sources.files.map SourceFile.content = ["let a = 1;".toList] := by
    decide +kernel
  rintro content ⟨call, hcall, f, hf, rfl⟩
  have hmem := List.mem_map_of_mem (f := SourceFile.content) hf
  rcases List.mem_cons.mp hcall with rfl | hcall
  · rw [hsilent] at hmem
    exact Or.inr (List.mem_singleton.mp hmem)
  · rw [List.mem_singleton.mp hcall, hearlier] at hmem
    exact Or.inl (List.mem_singleton.mp hmem)

theorem memo_unobservable_of_silent :
    Set.InjOn ContentHash.ofText (shown [silent, earlier]) ∧
    (memoAfter [earlier]).analyses ≠ [] ∧
    (silent.answer (memoAfter [earlier])).1 = (silent.answer Memo.empty).1 := by
  have hinj := Session.sampleContents_injOn.mono shown_silent
  exact ⟨hinj, by decide +kernel, (memo_unobservable [earlier] silent hinj).1 .empty⟩

end CompileCall

end IncrementalBuild
