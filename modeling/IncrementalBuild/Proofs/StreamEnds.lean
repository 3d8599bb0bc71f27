import IncrementalBuild.Proofs.Rebuild
/-!
# The ends of streams

A reset whose compiler gives a result calls each outlet for some files and then once to end its
stream, whatever the outlets answer and whether the cycle comes through or not. A reset whose
compiler fails calls no outlet at all: neither stream is ended.
-/
namespace IncrementalBuild

namespace Emission

/-- The outlet of a stream takes any number of calls for files, and then one to end the stream. -/
def EndsOnce (stream : OutputKind) (calls : List CallRecord) : Prop :=
  ∃ files : List OutputFile,
    callsTo stream calls = files.map (.push stream) ++ [.finish stream]

theorem not_endsOnce_nil (stream : OutputKind) : ¬ EndsOnce stream [] := by
  rintro ⟨files, hcalls⟩
  exact List.append_ne_nil_of_right_ne_nil _ (List.cons_ne_nil _ _) hcalls.symm

end Emission

theorem Assembly.calls_endsOnce {σ : Type} (outlets : Outlets σ) (a : Assembly) (s : σ)
    (stream : OutputKind) : Emission.EndsOnce stream (a.calls outlets s) := by
  obtain ⟨calls, codeEnd, declarationEnd, hoffers, hrecorded, _⟩ := a.emit_recorded outlets s
  rw [Assembly.calls, hrecorded]
  exact ⟨_, hoffers.callsTo_closing codeEnd declarationEnd stream⟩

namespace Session

variable {σ ο : Type}

/-- The calls that a result of the compiler leads to: those of its emission, or none. -/
def callsFor (outlets : Outlets ο) (config : BuildConfiguration) (sources : Cache) (o : ο) :
    Except CompileError CompileResult → List CallRecord
  | .error _ => []
  | .ok result => (Assembly.new sources config result).calls outlets o

section
variable (compiler : Compiler σ) (loader : Loader) (outlets : Outlets ο) (s : Session σ) (o : ο)

theorem delivered_recorded : s.delivered compiler loader outlets.recorded (o, []) =
    ((s.delivered compiler loader outlets o).1, (s.delivered compiler loader outlets o).2,
      callsFor outlets s.config (s.discover loader).cache.commit o
        (s.compiled compiler loader).1) := by
  unfold delivered
  cases (s.compiled compiler loader).1 with
  | error e => rfl
  | ok result =>
    obtain ⟨calls, codeEnd, declarationEnd, _, hrecorded, _⟩ :=
      (Assembly.new (s.discover loader).cache.commit s.config result).emit_recorded outlets o
    unfold deliver callsFor Assembly.calls
    simp only [hrecorded]
    rcases (Assembly.new (s.discover loader).cache.commit s.config result).emit outlets o with
      ⟨answer, o'⟩
    cases answer <;> rfl

theorem sent_callsFor : s.sent compiler loader outlets o =
    callsFor outlets s.config (s.discover loader).cache.commit o
      (s.compiled compiler loader).1 := by
  have hdelivers := reset_delivers compiler loader outlets.recorded s (o, [])
  rw [delivered_recorded] at hdelivers
  exact congrArg (fun answer => answer.2.2) hdelivers

theorem reset_recorded : s.reset compiler loader outlets.recorded (o, []) =
    ((s.reset compiler loader outlets o).1, (s.reset compiler loader outlets o).2.1,
      (s.reset compiler loader outlets o).2.2, s.sent compiler loader outlets o) := by
  rw [sent_callsFor, reset_eq, reset_eq, delivered_recorded]
  rcases s.delivered compiler loader outlets o with ⟨answer, o'⟩
  cases answer <;> rfl

/-- A reset ends both streams exactly if the compiler gives a result: each outlet is then called
for some files and once to end its stream, whatever the outlets answer and however the reset ends.
If the compiler fails, no outlet is called, their state stays, and the error is the compiler's. -/
theorem reset_ends_streams :
    s.reset compiler loader outlets.recorded (o, []) =
        ((s.reset compiler loader outlets o).1, (s.reset compiler loader outlets o).2.1,
          (s.reset compiler loader outlets o).2.2, s.sent compiler loader outlets o) ∧
      match (s.compiled compiler loader).1 with
      | .ok _ => ∀ stream, Emission.EndsOnce stream (s.sent compiler loader outlets o)
      | .error e => s.sent compiler loader outlets o = [] ∧
          (∀ stream, ¬ Emission.EndsOnce stream (s.sent compiler loader outlets o)) ∧
          (s.reset compiler loader outlets o).1 = .error (.compile e) ∧
          (s.reset compiler loader outlets o).2.2 = o := by
  refine ⟨reset_recorded compiler loader outlets s o, ?_⟩
  have hdelivers := reset_delivers compiler loader outlets s o
  rw [sent_callsFor]
  unfold delivered at hdelivers
  cases hcompiled : (s.compiled compiler loader).1 with
  | ok result => exact Assembly.calls_endsOnce outlets _ o
  | error e =>
    rw [hcompiled] at hdelivers
    exact ⟨rfl, Emission.not_endsOnce_nil, congrArg Prod.fst hdelivers,
      congrArg Prod.snd hdelivers⟩

end

/-- One file is staged in a project for a target that is not known. -/
def mistargeted : Session Memo :=
  let project : ProjectConfig := { ProjectConfig.empty with
    options := { CompilerOptions.empty with target := some "es4".toList } }
  let config := BuildConfiguration.of "/p/project.json" project .initial
  ((Session.new config Memo.empty).addSource "/p/a.ts" "let a;".toList).2

/-- The compiler refuses the target, and neither stream is ended. -/
theorem mistargeted_leaves_open :
    Reached PassThrough.compilers Set.univ mistargeted.config Memo.empty mistargeted
      [("/p/a.ts", "let a;".toList)] ∧
    ∀ stream, ¬ Emission.EndsOnce stream (mistargeted.sent PassThrough.compiler .empty
      (.pair Shelf.outlet Shelf.outlet) (.empty, .empty)) := by
  refine ⟨Reached.new.addSource "/p/a.ts" (Set.mem_univ _), fun stream => ?_⟩
  have hfails : (mistargeted.compiled PassThrough.compiler .empty).1 =
      .error (.invalidOption "target" "unknown target 'es4'") := by decide +kernel
  rw [sent_callsFor, hfails]
  exact Emission.not_endsOnce_nil stream

end Session

end IncrementalBuild
