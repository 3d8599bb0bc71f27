import IncrementalBuild.Config.Settings
/-!
# Arguments

The words after the name of the command. Options stand before and after the task that is asked
for; those about the whole command may stand on both sides, and then the later one counts. On one
side an option stands at most once. Reading goes from left to right and ends where an option asks
for help or for the version.
-/
namespace IncrementalBuild

/-- When reports are colored. -/
inductive Coloring where
  | auto
  | always
  | never
  deriving DecidableEq, Repr

def Coloring.words : List (String × Coloring) :=
  [("auto", .auto), ("always", .always), ("never", .never)]

/-- Whether reports are colored, given the names of the environment variables that are set. -/
def Coloring.isOn (defined : List Text) : Coloring → Bool
  | auto => "TERM".toList ∈ defined && "NO_COLOR".toList ∉ defined
  | always => true
  | never => false

/-- How the outcome of a build is reported. -/
inductive ReportFormat where
  | text
  | json
  deriving DecidableEq, Repr

def ReportFormat.words : List (String × ReportFormat) := [("text", .text), ("json", .json)]

/-- What an option says. -/
inductive Setting where
  | quiet
  | verbose
  | coloring (c : Coloring)
  | project (path : Text)
  | noExternalResolve
  | sortOutput
  | ordering (policy : OrderingPolicy)
  | format (f : ReportFormat)
  | dryRun
  deriving DecidableEq, Repr

inductive Task where
  | build
  | files
  deriving DecidableEq, Repr

/-- A task with what the options say, in order. -/
structure Invocation where
  task : Task
  settings : List Setting
  deriving DecidableEq, Repr

/-- What the arguments ask for. -/
inductive Request where
  | perform (i : Invocation)
  | version
  | help
  deriving DecidableEq, Repr

namespace Invocation

/-- What the last setting that `f` reads says. -/
def last? {α : Type} (i : Invocation) (f : Setting → Option α) : Option α :=
  i.settings.reverse.findSome? f

/-- Whether only errors and diagnostics are shown. -/
def quiet (i : Invocation) : Bool := .quiet ∈ i.settings

/-- When reports are colored. -/
def coloring (i : Invocation) : Coloring :=
  (i.last? fun s => match s with | .coloring c => some c | _ => none).getD .auto

def project? (i : Invocation) : Option Path :=
  i.last? fun s => match s with | .project path => some ⟨path⟩ | _ => none

def format (i : Invocation) : ReportFormat :=
  (i.last? fun s => match s with | .format f => some f | _ => none).getD .text

def dryRun (i : Invocation) : Bool := .dryRun ∈ i.settings

/-- The settings of a build under this invocation: it can turn settings on, and choose another
order. -/
def override (i : Invocation) (s : BuildSettings) : BuildSettings where
  noExternalResolve := s.noExternalResolve || .noExternalResolve ∈ i.settings
  sortOutput := s.sortOutput || .sortOutput ∈ i.settings
  ordering := (i.last? fun s => match s with | .ordering p => some p | _ => none).getD s.ordering

end Invocation

/-! ## Options -/

/-- What an option does: it says something by itself or with a value, or asks for an answer. -/
inductive OptionEffect where
  | sets (s : Setting)
  | takes (value : Text → Option Setting)
  | asks (r : Request)

/-- An option, with its name after two dashes and its letter after one. -/
structure CommandOption where
  name : String
  letter : Option Char
  effect : OptionEffect

def CommandOption.choice {α : Type} (name : String) (letter : Option Char)
    (words : List (String × α)) (setting : α → Setting) : CommandOption :=
  ⟨name, letter, .takes fun t => (words.find? (·.1.toList == t)).map fun w => setting w.2⟩

def CommandOption.general : List CommandOption :=
  [⟨"quiet", some 'q', .sets .quiet⟩, ⟨"verbose", some 'v', .sets .verbose⟩,
    .choice "color" none Coloring.words .coloring,
    ⟨"project", none, .takes fun t => some (.project t)⟩, ⟨"help", some 'h', .asks .help⟩]

def CommandOption.ofBuild : List CommandOption :=
  [⟨"no-external-resolve", none, .sets .noExternalResolve⟩,
    ⟨"sort-output", none, .sets .sortOutput⟩,
    .choice "ordering" none OrderingPolicy.words .ordering,
    .choice "format" (some 'f') ReportFormat.words .format,
    ⟨"dry-run", none, .sets .dryRun⟩]

/-! ## Reading -/

/-- How far the arguments are read: to the task or past it, or into a question for help, which
may name one topic. -/
inductive Scope where
  | start
  | task (t : Task)
  | help
  | topic
  deriving DecidableEq, Repr

/-- Whether arguments here are part of a question for help. Such arguments are words, also when
they look like options. -/
def Scope.isHelp : Scope → Bool
  | help | topic => true
  | start | task _ => false

def Task.words : List (String × Task) := [("build", .build), ("files", .files)]

/-- The options that can stand here. -/
def Scope.options : Scope → List CommandOption
  | start => ⟨"version", some 'V', .asks .version⟩ :: CommandOption.general
  | task .build => CommandOption.general ++ CommandOption.ofBuild
  | task .files => CommandOption.general
  | help | topic => []

/-- A reading under way: what was said, the names of the options used since the task, the option
that waits for its value, whether options have ended, and the answer that was asked for. -/
structure Reading where
  scope : Scope
  settings : List Setting
  used : List String
  waiting : Option (Text → Option Setting)
  ended : Bool
  answer : Option Request

namespace Reading

def empty : Reading := ⟨.start, [], [], none, false, none⟩

/-- Takes an option with what is attached to it. -/
def take (r : Reading) (o : CommandOption) (attached : Option Text) : Option Reading :=
  if o.name ∈ r.used then none
  else
    let r := { r with used := r.used ++ [o.name] }
    match o.effect, attached with
    | .asks answer, none => some { r with answer := some answer }
    | .sets s, none => some { r with settings := r.settings ++ [s] }
    | .takes value, some t => (value t).map fun s => { r with settings := r.settings ++ [s] }
    | .takes value, none => some { r with waiting := some value }
    | .asks _, some _ | .sets _, some _ => none

/-- Reads what follows two dashes: a name, and perhaps a value after an equals sign. -/
def name (r : Reading) (body : Text) : Option Reading :=
  let (name, attached) := match Text.splitAt? ['='] body with
    | some (name, value) => (name, some value)
    | none => (body, none)
  match r.scope.options.find? (·.name.toList == name) with
  | some o => r.take o attached
  | none => none

/-- Reads letters after a dash. What follows the letter of an option with a value is the value,
without an equals sign before it. -/
def letters (r : Reading) : Text → Option Reading
  | [] => some r
  | c :: rest =>
    match r.scope.options.find? (·.letter == some c) with
    | none => none
    | some o =>
      match o.effect, rest with
      | .takes _, [] => r.take o none
      | .takes _, '=' :: value => r.take o (some value)
      | .takes _, value => r.take o (some value)
      | .asks _, _ => r.take o none
      | .sets _, _ =>
        match r.take o none with
        | some r => r.letters rest
        | none => none

/-- Reads a word that is no option. -/
def word (r : Reading) (t : Text) : Option Reading :=
  let task := (Task.words.find? (·.1.toList == t)).map (·.2)
  let isHelp := t == "help".toList
  match r.scope with
  | .start =>
    match task with
    | some task => some { r with scope := .task task, used := [] }
    | none => if isHelp then some { r with scope := .help } else none
  | .help => if task.isSome || isHelp then some { r with scope := .topic } else none
  | .task _ | .topic => none

/-- Reads one argument that is no value: the end of options, an option, or a word. -/
def item (r : Reading) (arg : Text) : Option Reading :=
  if r.scope.isHelp then r.word arg
  else match arg with
    | ['-', '-'] => some { r with ended := true }
    | '-' :: '-' :: body => r.name body
    | '-' :: c :: rest => r.letters (c :: rest)
    | t => r.word t

/-- Reads one argument. A value cannot look like an option, and nothing may follow the end of
options. -/
def step (r : Reading) (arg : Text) : Option Reading :=
  if r.answer.isSome then some r
  else match r.waiting, arg with
    | some _, '-' :: _ :: _ => none
    | some value, t =>
      (value t).map fun s => { r with settings := r.settings ++ [s], waiting := none }
    | none, t => if r.ended then none else r.item t

/-- What the arguments ask for, when all are read. -/
def request? (r : Reading) : Option Request :=
  if r.answer.isSome then r.answer
  else if r.waiting.isSome then none
  else match r.scope with
    | .start => none
    | .task task => some (.perform ⟨task, r.settings⟩)
    | .help | .topic => some .help

end Reading

/-- What arguments ask for, unless they are not well formed. -/
def Request.ofArguments? (args : List Text) : Option Request :=
  (args.foldlM Reading.step Reading.empty).bind Reading.request?

end IncrementalBuild
