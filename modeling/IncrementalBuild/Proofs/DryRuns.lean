import IncrementalBuild.Command.Run
import IncrementalBuild.Proofs.Emission
import IncrementalBuild.Proofs.SessionRuns
/-!
# Dry runs

A dry run goes through the same cycle as the run that writes, with outlets that keep the outputs in
memory. What is stated here: if every output can be written, both runs show the same report of the
same cycle, and both fail with the same error where the cycle does not come to its outputs. The dry
run leaves the tree as it is.
-/
namespace IncrementalBuild

namespace FileTree

/-- The tree after files are written one after the other, until one cannot be written. -/
def createAll (t : FileTree) : List OutputFile → Except FileError FileTree
  | [] => .ok t
  | file :: rest =>
    match t.create file.path file.contents with
    | .ok t => t.createAll rest
    | .error e => .error e

variable {t tree : FileTree} {p : Path} {text : Text} {e : FileError}

theorem attempt_of_create (h : t.create p text = .ok tree) :
    t.attempt p text = (.ok (), tree) := by
  unfold create at h
  rcases hattempt : t.attempt p text with ⟨_ | _, _⟩
  · rw [hattempt] at h
    cases h
  · rw [hattempt] at h
    cases h
    rfl

theorem attempt_of_create_error (h : t.create p text = .error e) :
    ∃ tree, t.attempt p text = (.error e, tree) := by
  unfold create at h
  rcases hattempt : t.attempt p text with ⟨_ | _, tree⟩
  · rw [hattempt] at h
    cases h
    exact ⟨tree, rfl⟩
  · rw [hattempt] at h
    cases h

end FileTree

namespace Emission

def noteAll (e : Emission) (files : List OutputFile) : Emission :=
  files.foldl (fun e f => e.note f.kind f.path) e

/-- The paths of outputs, those of code first. -/
def destinations (files : List OutputFile) : List Path :=
  (files.filter (·.kind = .code)).map OutputFile.path ++
    (files.filter (·.kind = .declaration)).map OutputFile.path

theorem noteAll_eq (e : Emission) (files : List OutputFile) : e.noteAll files =
    ⟨e.tree, e.code ++ (files.filter (·.kind = .code)).map OutputFile.path,
      e.declarations ++ (files.filter (·.kind = .declaration)).map OutputFile.path⟩ := by
  induction files generalizing e with
  | nil => simp [noteAll]
  | cons file files ih =>
    show (e.note file.kind file.path).noteAll files = _
    rw [ih]
    cases hkind : file.kind <;> simp [note, hkind]

end Emission

/-! ## Writing -/

namespace Assembly

open Emission

/-- Files that can all be written are written and noted, and one that cannot is an error. -/
theorem pushAll_writing (stats : EmitStats) (files : List OutputFile) (e : Emission) :
    match e.tree.createAll files with
    | .ok tree => pushAll writing stats files e =
        (.ok (files.foldl (fun stats f => count stats f.kind) stats),
          { e.noteAll files with tree })
    | .error _ => ∃ error, (pushAll writing stats files e).1 = .error error := by
  induction files generalizing stats e with
  | nil => rfl
  | cons file files ih =>
    unfold FileTree.createAll pushAll
    cases hcreate : e.tree.create file.path file.contents with
    | error reason =>
      obtain ⟨tree, hattempt⟩ := FileTree.attempt_of_create_error hcreate
      have hpush : writing.push file.kind file e = (.error reason.message, { e with tree }) := by
        simp only [writing, hattempt]
      rw [hpush]
      exact ⟨_, rfl⟩
    | ok next =>
      have hpush : writing.push file.kind file e =
          (.ok (), { e.note file.kind file.path with tree := next }) := by
        simp only [writing, FileTree.attempt_of_create hcreate]
        cases file.kind <;> rfl
      rw [hpush]
      have hrest := ih (count stats file.kind) { e.note file.kind file.path with tree := next }
      rw [noteAll_eq] at hrest
      show match next.createAll files with
        | .ok tree => _ = (_, { (e.note file.kind file.path).noteAll files with tree })
        | .error _ => _
      rw [noteAll_eq]
      exact hrest

theorem emit_writing (a : Assembly) (e : Emission) :
    match e.tree.createAll a.outputs with
    | .ok tree => a.emit writing e =
        (.ok (tally a.outputs), { e.noteAll a.outputs with tree })
    | .error _ => ∃ error, (a.emit writing e).1 = .error error := by
  have h := pushAll_writing ⟨0, 0⟩ a.outputs e
  unfold emit
  cases hcreate : e.tree.createAll a.outputs with
  | ok tree =>
    rw [hcreate, foldl_count, Nat.zero_add, Nat.zero_add] at h
    simp only [h]
    rfl
  | error reason =>
    rw [hcreate] at h
    obtain ⟨error, herror⟩ := h
    rcases hpush : pushAll writing ⟨0, 0⟩ a.outputs e with ⟨answer, e'⟩
    rw [hpush] at herror
    obtain rfl : answer = .error error := herror
    exact ⟨error, rfl⟩

end Assembly

/-! ## Keeping and writing in a cycle -/

namespace Build

open Emission

/-- A cycle comes to its outputs, which a dry run keeps, or fails before in the same way in both
runs. The run that writes has the same cycle if all outputs can be written, and else fails at
one. -/
theorem cycle_cases (env : Environment) (session : Session Memo) (t : FileTree) :
    (∃ e session', rehearse env session t = (.error (.compile e), session', ⟨t, [], []⟩) ∧
      write env session t = (.error (.compile e), session', ⟨t, [], []⟩)) ∨
    ∃ (o : CycleOutput) (session' : Session Memo) (listed : Emission),
      listed.tree = t ∧ listed.paths = destinations o.assembly.outputs ∧
      rehearse env session t = (.ok o, session', listed) ∧
      match t.createAll o.assembly.outputs with
      | .ok tree => write env session t = (.ok o, session', { listed with tree })
      | .error _ => ∃ e, (write env session t).1 = .error (.emit e) := by
  unfold rehearse write cycle
  simp only [Session.reset_eq, Session.delivered]
  generalize session.compiled PassThrough.compiler (t.loader env.workingDirectory) = compiled
  rcases compiled with ⟨e | result, memo⟩
  · exact .inl ⟨e, _, rfl, rfl⟩
  · right
    generalize ha : Assembly.new (session.discover (t.loader env.workingDirectory)).cache.commit
      session.config result = a
    have hwriting := a.emit_writing ⟨t, [], []⟩
    simp only [Session.deliver, ha, a.emit_shelves]
    refine ⟨_, _, _, rfl, rfl, rfl, ?_⟩
    dsimp only at hwriting ⊢
    cases hcreate : t.createAll a.outputs with
    | ok tree =>
      rw [hcreate, noteAll_eq] at hwriting
      rw [hwriting]
      rfl
    | error reason =>
      rw [hcreate] at hwriting
      obtain ⟨error, herror⟩ := hwriting
      refine ⟨error, ?_⟩
      rcases hemit : a.emit writing ⟨t, [], []⟩ with ⟨answer, e⟩
      rw [hemit] at herror
      obtain rfl : answer = .error error := herror
      rfl

end Build

/-! ## The same invocation as a dry run -/

/-- A search that never finds what is left out finds the same without it. -/
theorem findSome?_filter {α β : Type} {p : α → Bool} {f : α → Option β}
    (h : ∀ a, p a = false → f a = none) (l : List α) :
    (l.filter p).findSome? f = l.findSome? f := by
  induction l with
  | nil => rfl
  | cons a l ih =>
    cases hp : p a with
    | true => rw [List.filter_cons_of_pos hp, List.findSome?_cons, List.findSome?_cons, ih]
    | false =>
      rw [List.filter_cons_of_neg (by simp [hp]), List.findSome?_cons, h a hp, ih]

/-- An invocation asks for a dry run of what another one asks for. -/
structure Invocation.Rehearses (dry real : Invocation) : Prop where
  task : dry.task = real.task
  dryRun : dry.dryRun = true
  settings : real.settings = dry.settings.filter (· ≠ .dryRun)

namespace Invocation.Rehearses

variable {dry real : Invocation} (h : dry.Rehearses real)
include h

theorem last?_eq {α : Type} {f : Setting → Option α} (hf : f .dryRun = none) :
    dry.last? f = real.last? f := by
  rw [last?, last?, h.settings, ← List.filter_reverse]
  refine (findSome?_filter (fun s hs => ?_) _).symm
  rw [show s = .dryRun by simpa using hs, hf]

theorem mem_iff {s : Setting} (hs : s ≠ .dryRun) : s ∈ real.settings ↔ s ∈ dry.settings := by
  simp [h.settings, hs]

theorem dryRun_real : real.dryRun = false := by
  simp [Invocation.dryRun, h.settings]

theorem quiet_eq : dry.quiet = real.quiet :=
  decide_eq_decide.mpr (h.mem_iff (by decide)).symm

theorem format_eq : dry.format = real.format := by
  unfold Invocation.format
  rw [h.last?_eq rfl]

theorem coloring_eq : dry.coloring = real.coloring := by
  unfold Invocation.coloring
  rw [h.last?_eq rfl]

theorem override_eq (s : BuildSettings) : dry.override s = real.override s := by
  have hresolve := h.mem_iff (show Setting.noExternalResolve ≠ .dryRun by decide)
  have hsort := h.mem_iff (show Setting.sortOutput ≠ .dryRun by decide)
  unfold override
  rw [h.last?_eq rfl]
  simp only [hresolve, hsort]

theorem prepare_eq (env : Environment) (t : FileTree) :
    Build.prepare env dry t = Build.prepare env real t := by
  have hproject : dry.project? = real.project? := h.last?_eq rfl
  simp only [Build.prepare, hproject, h.override_eq]

end Invocation.Rehearses

/-! ## Reports -/

namespace Build

/-- The outcome of a completed cycle, by what the report says of it. Only the word before outputs
and the mark for a dry run tell whether outputs were written. -/
def reported (dryRun : Bool) (env : Environment) (i : Invocation) (shown : Text)
    (session : Session Memo) (o : CycleOutput) (paths : List Path) : Outcome :=
  let exitCode := if o.hasErrors then 1 else 0
  match i.format with
  | .text =>
    ⟨exitCode, [], shown ++ (session.report (i.coloring.isOn env.defined) ++
      if i.quiet then [] else paths.flatMap (outputLine dryRun) ++ summary o)⟩
  | .json =>
    ⟨exitCode, Json.indented 0 (.record [("cycle", .nat o.cycle), ("dry_run", .bool dryRun),
      ("outputs", .texts (paths.map Path.text)),
      ("stats", .record [("code_files", .nat o.stats.codeFiles),
        ("declaration_files", .nat o.stats.declarationFiles)]),
      ("diagnostics", .array (o.diagnostics.map (diagnosticJson session.cache)))]) ++
      "\n".toList, shown⟩

theorem outcome_eq (env : Environment) (i : Invocation) (shown : Text) (session : Session Memo)
    (o : CycleOutput) (paths : List Path) :
    outcome env i shown session o paths = reported i.dryRun env i shown session o paths := rfl

/-- What a run has shown before its cycle. -/
def shownFirst (i : Invocation) (sources : Nat) : Text :=
  if i.quiet || i.format = .json then [] else banner sources

def answered (env : Environment) (i : Invocation) (sources : Nat) :
    Except SessionError CycleOutput × Session Memo × Emission → Outcome × FileTree
  | (.error e, _, emission) => (.failure (shownFirst i sources) e.message, emission.tree)
  | (.ok o, session, emission) =>
    (outcome env i (shownFirst i sources) session o emission.paths, emission.tree)

theorem run_eq (env : Environment) (i : Invocation) (t : FileTree) : run env i t =
    match prepare env i t with
    | .error reason => (.failure [] reason, t)
    | .ok (sources, session) => answered env i sources
        (if i.dryRun then rehearse env session t else write env session t) := by
  unfold run
  cases hprepare : prepare env i t with
  | error reason => rfl
  | ok prepared =>
    obtain ⟨sources, session⟩ := prepared
    rcases hcycle : (if i.dryRun then rehearse env session t else write env session t)
      with ⟨answer, session', emission⟩
    cases answer <;> simp only [hcycle] <;> rfl

theorem reported_exitCode (dryRun : Bool) (env : Environment) (i : Invocation) (shown : Text)
    (session : Session Memo) (o : CycleOutput) (paths : List Path) :
    (reported dryRun env i shown session o paths).exitCode = if o.hasErrors then 1 else 0 := by
  unfold reported
  cases i.format <;> rfl

theorem reported_rehearsed {real dry : Invocation} (h : dry.Rehearses real) (dryRun : Bool)
    (env : Environment) (shown : Text) (session : Session Memo) (o : CycleOutput)
    (paths : List Path) : reported dryRun env dry shown session o paths =
      reported dryRun env real shown session o paths := by
  simp only [reported, h.format_eq, h.coloring_eq, h.quiet_eq]

end Build

/-- A dry run reports what the run reports that writes, for arguments that ask for a build and
arguments that ask for a dry run of it, on one tree in which every output can be written. -/
theorem Command.dry_run_reports {env : Environment} {t : FileTree} {args dryArgs : List Text}
    {real dry : Invocation} (hargs : Request.ofArguments? args = some (.perform real))
    (hdryArgs : Request.ofArguments? dryArgs = some (.perform dry)) (htask : real.task = .build)
    (hdry : dry.Rehearses real) (hwrites : ∀ sources session e,
      Build.prepare env real t = .ok (sources, session) →
        (Build.write env session t).1 ≠ .error (.emit e)) :
    (run env dryArgs t).2 = t ∧
    (run env dryArgs t).1.exitCode = (run env args t).1.exitCode ∧
    match Build.prepare env real t with
    | .error reason =>
      run env args t = (.failure [] reason, t) ∧ run env dryArgs t = (.failure [] reason, t)
    | .ok (sources, session) =>
      let shown := Build.shownFirst real sources
      (∃ e : CompileError, run env args t = (.failure shown e.message, t) ∧
        run env dryArgs t = (.failure shown e.message, t)) ∨
      ∃ o session' tree,
        (Build.write env session t).1 = .ok o ∧
        (Build.rehearse env session t).1 = .ok o ∧
        t.createAll o.assembly.outputs = .ok tree ∧
        let report := fun dryRun => Build.reported dryRun env real shown session' o
          (Emission.destinations o.assembly.outputs)
        run env args t = (report false, tree) ∧ run env dryArgs t = (report true, t) := by
  have hrun : run env args t = Build.run env real t := by
    simp only [run, hargs, perform, htask]
  have hrun' : run env dryArgs t = Build.run env dry t := by
    simp only [run, hdryArgs, perform, hdry.task, htask]
  rw [hrun, hrun', Build.run_eq, Build.run_eq, hdry.prepare_eq]
  cases hprepare : Build.prepare env real t with
  | error reason => exact ⟨rfl, rfl, rfl, rfl⟩
  | ok prepared =>
    obtain ⟨sources, session⟩ := prepared
    have hshown : Build.shownFirst dry sources = Build.shownFirst real sources := by
      simp only [Build.shownFirst, hdry.quiet_eq, hdry.format_eq]
    simp only [hdry.dryRun, hdry.dryRun_real, if_true, Bool.false_eq_true, if_false]
    rcases Build.cycle_cases env session t with
      ⟨e, session', hlisting, hwriting⟩ | ⟨o, session', listed, htree, hpaths, hlisting, hwriting⟩
    · simp only [hlisting, hwriting, Build.answered, hshown]
      exact ⟨trivial, trivial, .inl ⟨e, rfl, rfl⟩⟩
    · cases hcreate : t.createAll o.assembly.outputs with
      | error reason =>
        rw [hcreate] at hwriting
        obtain ⟨e, he⟩ := hwriting
        exact absurd he (hwrites sources session e hprepare)
      | ok tree =>
        rw [hcreate] at hwriting
        have hpaths' : ({ listed with tree } : Emission).paths =
          Emission.destinations o.assembly.outputs := hpaths
        simp only [hwriting, hlisting, Build.answered, Build.outcome_eq, hshown, htree, hpaths,
          hpaths', hdry.dryRun, hdry.dryRun_real, Build.reported_rehearsed hdry]
        refine ⟨trivial, ?_, .inr ⟨o, session', tree, rfl, rfl, hcreate, rfl, rfl⟩⟩
        rw [Build.reported_exitCode, Build.reported_exitCode]

namespace Command

/-- A project whose one output goes over its one source, which has a line of an unfinished merge. -/
def overwriting : FileTree :=
  ⟨[(["p"], .directory), (["p", "tsconfig.json"], .file "\x7b\"files\":[\"a.js\"]\x7d".toList),
    (["p", "a.js"], .file "let a;\n<<<<<<< ours\n".toList)]⟩

/-- What surrounds a command that runs in the project. -/
def inside : Environment := ⟨"/p", []⟩

theorem dry_run_reports_overwriting :
    let real : Invocation := ⟨.build, []⟩
    let dry : Invocation := ⟨.build, [.dryRun]⟩
    Request.ofArguments? ["build".toList] = some (.perform real) ∧
    Request.ofArguments? ["build".toList, "--dry-run".toList] = some (.perform dry) ∧
    dry.Rehearses real ∧
    (∀ sources session e, Build.prepare inside real overwriting = .ok (sources, session) →
      (Build.write inside session overwriting).1 ≠ .error (.emit e)) ∧
    (run inside ["build".toList, "--dry-run".toList] overwriting).2 = overwriting ∧
    (run inside ["build".toList, "--dry-run".toList] overwriting).1.exitCode =
      (run inside ["build".toList] overwriting).1.exitCode := by
  intro real dry
  have hargs : Request.ofArguments? ["build".toList] = some (.perform real) := by decide +kernel
  have hdryArgs : Request.ofArguments? ["build".toList, "--dry-run".toList] =
    some (.perform dry) := by decide +kernel
  have hdry : dry.Rehearses real := ⟨rfl, by decide, by decide⟩
  have hok : (match Build.prepare inside real overwriting with
      | .ok (_, session) => (Build.write inside session overwriting).1.isOk
      | .error _ => false) = true := by decide +kernel
  have hwrites : ∀ sources session e,
      Build.prepare inside real overwriting = .ok (sources, session) →
        (Build.write inside session overwriting).1 ≠ .error (.emit e) := by
    intro sources session e hprepare herror
    rw [hprepare] at hok
    dsimp only at hok
    rw [herror] at hok
    cases hok
  obtain ⟨htree, hexit, _⟩ := dry_run_reports hargs hdryArgs rfl hdry hwrites
  exact ⟨hargs, hdryArgs, hdry, hwrites, htree, hexit⟩

end Command

end IncrementalBuild
