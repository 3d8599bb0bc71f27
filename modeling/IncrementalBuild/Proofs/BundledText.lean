import IncrementalBuild.Proofs.ArtifactOrder
import Mathlib.Data.List.Basic
/-!
# The text of a bundle

A bundle holds the lines of its fragments in the order of the artifacts, each ended by a newline,
and nothing else. So a line of one fragment never goes on in the next one. The files that the same
sources give without a bundle, in the order in which they are pushed, hold the same lines.

A line ends at a newline here, and a carriage return before it belongs to the line.
-/
namespace IncrementalBuild

namespace Text

/-! ## Lines -/

/-- A line without the newline that ends it. -/
def openLine (line : Text) : Text := if line.getLast? = some '\n' then line.dropLast else line

/-- The lines of a text, without the newlines that end them. -/
def openLines (t : Text) : List Text := (linesInclusive t).map openLine

/-- Lines of which each is ended by a newline. -/
def endLines (lines : List Text) : Text := lines.flatMap (· ++ ['\n'])

theorem openLine_cons {c : Char} (hc : c ≠ '\n') (line : Text) :
    openLine (c :: line) = c :: openLine line := by
  cases line with
  | nil => simp [openLine, hc]
  | cons d line =>
    unfold openLine
    rw [List.getLast?_cons_cons, List.dropLast_cons_cons]
    split <;> rfl

theorem openLines_newline (t : Text) : openLines ('\n' :: t) = [] :: openLines t := by
  simp [openLines, linesInclusive, openLine]

theorem openLines_cons {c : Char} (hc : c ≠ '\n') (t : Text) :
    openLines (c :: t) = (c :: (openLines t).headD []) :: (openLines t).tail := by
  unfold openLines
  rw [linesInclusive, if_neg hc]
  cases linesInclusive t with
  | nil => simp [openLine, hc]
  | cons line more => simp [openLine_cons hc]

theorem openLines_eq_nil_iff {t : Text} : openLines t = [] ↔ t = [] := by
  cases t with
  | nil => simp [openLines, linesInclusive]
  | cons c t =>
    by_cases hc : c = '\n'
    · simp [hc, openLines_newline]
    · simp [openLines_cons hc]

theorem not_mem_openLines (t : Text) : ∀ line ∈ openLines t, '\n' ∉ line := by
  induction t with
  | nil => exact fun line hline => absurd hline List.not_mem_nil
  | cons c t ih =>
    by_cases hc : c = '\n'
    · rw [hc, openLines_newline]
      exact List.forall_mem_cons.mpr ⟨List.not_mem_nil, ih⟩
    · rw [openLines_cons hc]
      refine List.forall_mem_cons.mpr ⟨?_, fun line hline => ih line (List.mem_of_mem_tail hline)⟩
      rw [List.mem_cons, not_or]
      refine ⟨Ne.symm hc, ?_⟩
      cases hlines : openLines t with
      | nil => exact List.not_mem_nil
      | cons line more => exact ih line (hlines ▸ List.mem_cons_self)

theorem openLines_append {line : Text} (hline : '\n' ∉ line) (t : Text) :
    openLines (line ++ '\n' :: t) = line :: openLines t := by
  induction line with
  | nil => exact openLines_newline t
  | cons c line ih =>
    rw [List.mem_cons, not_or] at hline
    rw [List.cons_append, openLines_cons (Ne.symm hline.1), ih hline.2]
    rfl

theorem openLines_endLines {lines : List Text} (hlines : ∀ line ∈ lines, '\n' ∉ line) :
    openLines (endLines lines) = lines := by
  induction lines with
  | nil => rfl
  | cons line lines ih =>
    obtain ⟨hline, hlines⟩ := List.forall_mem_cons.mp hlines
    have hsplit : endLines (line :: lines) = line ++ '\n' :: endLines lines := by
      rw [endLines, List.flatMap_cons, List.append_assoc]
      rfl
    rw [hsplit, openLines_append hline, ih hlines]

end Text

open Text

namespace Assembly

theorem terminated_cons {c : Char} {t : Text} (h : t ≠ [] ∨ c = '\n') :
    terminated (c :: t) = c :: terminated t := by
  unfold terminated
  cases t with
  | nil => simp_all
  | cons d t => by_cases hlast : (d :: t).getLast? = some '\n' <;> simp_all

/-- A fragment with a newline at its end has all its lines ended. -/
theorem terminated_eq (t : Text) : terminated t = endLines (openLines t) := by
  induction t with
  | nil => rfl
  | cons c t ih =>
    by_cases hc : c = '\n'
    · rw [terminated_cons (Or.inr hc), ih, hc, openLines_newline]
      rfl
    · rw [openLines_cons hc]
      cases hlines : openLines t with
      | nil => simp [openLines_eq_nil_iff.mp hlines, terminated, endLines, hc]
      | cons line more =>
        have ht : t ≠ [] := fun hnil => by simp [openLines_eq_nil_iff.mpr hnil] at hlines
        rw [terminated_cons (Or.inl ht), ih, hlines]
        rfl

theorem flatMap_terminated (fragments : List Text) :
    fragments.flatMap terminated = endLines (fragments.flatMap openLines) := by
  rw [endLines, List.flatMap_assoc]
  exact List.flatMap_congr fun t _ => terminated_eq t

theorem openLines_flatMap_terminated (fragments : List Text) :
    openLines (fragments.flatMap terminated) = fragments.flatMap openLines := by
  rw [flatMap_terminated]
  apply openLines_endLines
  intro line hline
  obtain ⟨t, _, hline⟩ := List.mem_flatMap.mp hline
  exact not_mem_openLines t line hline

/-! ## Streams -/

/-- The files of a stream, in order. -/
def stream (kind : OutputKind) (files : List OutputFile) : List OutputFile :=
  files.filter (·.kind = kind)

/-- The fragments of a stream, in the order of the artifacts. -/
def fragments (a : Assembly) (kind : OutputKind) : List Text :=
  a.artifacts.filterMap (fragment? kind)

/-- What a stream of a bundle is, beside the one of `each`, which has a file for each source. What
an artifact has for the stream is its `part`, and `ordered` are the artifacts of the result in the
order in which they are emitted. -/
structure Bundles (a each : Assembly) (result : CompileResult) (ordered : List Artifact)
    (kind : OutputKind) (part : Artifact → Option Text) : Prop where
  single : (stream kind a.outputs).length ≤ 1
  exists_iff : stream kind a.outputs ≠ [] ↔ ∃ x ∈ result.artifacts, (part x).isSome
  unsourced : ∀ f ∈ stream kind a.outputs, f.source = none
  lines : ∀ f ∈ stream kind a.outputs,
    openLines f.contents = (ordered.filterMap part).flatMap openLines
  ended : ∀ f ∈ stream kind a.outputs, f.contents = endLines (openLines f.contents)
  singles : (stream kind each.outputs).map OutputFile.contents = ordered.filterMap part
  agrees : (stream kind a.outputs).flatMap OutputFile.contents =
    (stream kind each.outputs).flatMap fun g => endLines (openLines g.contents)

theorem stream_fileOutputs (layout : OutputLayout) (kind : OutputKind) (x : Artifact) :
    (stream kind (fileOutputs layout x)).map OutputFile.contents = (fragment? kind x).toList := by
  rcases x with ⟨source, code, declaration⟩
  cases kind <;> cases code <;> cases declaration <;> rfl

theorem stream_outputs {a : Assembly} (h : a.bundle = none) (kind : OutputKind) :
    (stream kind a.outputs).map OutputFile.contents = a.fragments kind := by
  unfold outputs fragments
  rw [h, stream, List.filter_flatMap, List.map_flatMap, List.filterMap_eq_flatMap_toList]
  exact List.flatMap_congr fun x _ => stream_fileOutputs a.layout kind x

theorem bundleOutput_eq (a : Assembly) (path : Path) (kind : OutputKind) :
    (bundleOutput a.artifacts path kind).toList = if a.fragments kind = [] then []
      else [⟨path, none, kind, (a.fragments kind).flatMap terminated⟩] := by
  unfold bundleOutput
  cases h : a.fragments kind with
  | nil =>
    rw [fragments] at h
    rw [h]
    rfl
  | cons t more =>
    rw [fragments] at h
    rw [h]
    rfl

/-- In a bundle, a stream has one file with all its fragments, or none if it has no fragment. -/
theorem stream_bundle {a : Assembly} {code declaration : Path}
    (h : a.bundle = some (code, declaration)) (kind : OutputKind) : ∃ path,
    stream kind a.outputs = if a.fragments kind = [] then []
      else [⟨path, none, kind, (a.fragments kind).flatMap terminated⟩] := by
  have houtputs : a.outputs = (bundleOutput a.artifacts code .code).toList ++
      (bundleOutput a.artifacts declaration .declaration).toList := by
    rw [outputs, h]
  rw [houtputs, bundleOutput_eq, bundleOutput_eq, stream, List.filter_append]
  cases kind with
  | code => exact ⟨code, by split <;> split <;> rfl⟩
  | declaration => exact ⟨declaration, by split <;> split <;> rfl⟩

theorem bundles {a each : Assembly} {paths : Path × Path} (hbundle : a.bundle = some paths)
    (heach : each.bundle = none) (hsame : each.artifacts = a.artifacts) {result : CompileResult}
    (hperm : a.artifacts.Perm result.artifacts) (kind : OutputKind) :
    a.Bundles each result a.artifacts kind (fragment? kind) := by
  obtain ⟨path, hstream⟩ := stream_bundle hbundle kind
  have hfiles : (stream kind each.outputs).map OutputFile.contents = a.fragments kind := by
    rw [stream_outputs heach, fragments, hsame, fragments]
  have hfragment : a.fragments kind = [] ↔
      ¬ ∃ x ∈ result.artifacts, (fragment? kind x).isSome := by
    simp only [fragments, List.filterMap_eq_nil_iff, hperm.mem_iff, not_exists, not_and,
      Bool.not_eq_true, Option.isSome_eq_false_iff, Option.isNone_iff_eq_none]
  have hcontents : ∀ f ∈ stream kind a.outputs,
      f.source = none ∧ f.contents = (a.fragments kind).flatMap terminated := by
    intro f hf
    rw [hstream] at hf
    split at hf
    · exact absurd hf List.not_mem_nil
    · rw [List.mem_singleton.mp hf]
      exact ⟨rfl, rfl⟩
  refine ⟨?_, ?_, fun f hf => (hcontents f hf).1, fun f hf => ?_, fun f hf => ?_, hfiles, ?_⟩
  · rw [hstream]
    split <;> simp
  · rw [hstream, ← not_iff_not, ← hfragment]
    split <;> simp_all
  · rw [(hcontents f hf).2, openLines_flatMap_terminated]
    rfl
  · rw [(hcontents f hf).2, openLines_flatMap_terminated, flatMap_terminated]
  · have heachEnded :
        (stream kind each.outputs).flatMap (fun g => endLines (openLines g.contents)) =
          (a.fragments kind).flatMap terminated := by
      rw [← hfiles, List.flatMap_map]
      exact List.flatMap_congr fun g _ => (terminated_eq g.contents).symm
    -- without fragments neither side has a file
    rw [hstream, heachEnded]
    split
    · next hnone => rw [hnone]; rfl
    · exact List.flatMap_singleton ..

end Assembly

/-- The configuration without a bundle, whose files are sorted. -/
def BuildConfiguration.unbundled (c : BuildConfiguration) : BuildConfiguration :=
  { c with
    project := { c.project with options := { c.project.options with out := none } }
    settings := { c.settings with sortOutput := true } }

namespace Assembly

theorem new_bundle (sources : Cache) (config : BuildConfiguration) (result : CompileResult) :
    (new sources config result).bundle = (OutputLayout.ofConfiguration config).bundlePaths := by
  unfold new
  generalize pick (((orderOf sources config).files.filterMap sources.file?).map SourceFile.path)
    result.artifacts = picked
  rfl

/-- For any reachable cache, any artifacts put into a result and any configuration of a bundle, each
stream of the bundle has at most one file, and has one if some artifact of the result has a part
for the stream. Its lines are those of the parts, one artifact after the other: first those of the
files of the cycle in the order of the graph, then the others in the order of their paths. The
configuration without the bundle gives each part as a file, and these files hold the same
lines. -/
theorem bundle_joins_lines (steps : List CacheStep) (config : BuildConfiguration)
    (artifacts : List Artifact) (diagnostics : List Diagnostic)
    (hout : config.singleOutput = true) :
    let sources := Cache.runSteps steps
    let result := CompileResult.ofArtifacts artifacts diagnostics
    let bundle := new sources config result
    let each := new sources config.unbundled result
    let files := ((ReferenceGraph.build sources).order config.settings.ordering).files.filterMap
      sources.file?
    let ordered := files.filterMap (fun f => result.artifact? f.path) ++
      result.artifacts.filter fun x => !files.any fun f => x.source.same f.path
    ordered.Perm result.artifacts ∧
      bundle.Bundles each result ordered .code Artifact.code ∧
      bundle.Bundles each result ordered .declaration Artifact.declaration := by
  intro sources result bundle each files ordered
  have hsome : bundle.bundle.isSome := by
    rw [new_bundle, OutputLayout.bundlePaths, Option.isSome_map]
    exact Option.isSome_map.trans hout
  obtain ⟨paths, hbundle⟩ := Option.isSome_iff_exists.mp hsome
  have heach : each.bundle = none := by
    rw [new_bundle]
    rfl
  -- both are ordered by their references
  have horder : orderOf sources config =
      (ReferenceGraph.build sources).order config.settings.ordering := by
    rw [orderOf, hout]
    rfl
  have hsame : each.artifacts = bundle.artifacts := by
    have hunbundled : orderOf sources config.unbundled = orderOf sources config := by
      rw [horder, orderOf, BuildConfiguration.unbundled, Bool.or_true]
      rfl
    rw [new_artifacts, new_artifacts, hunbundled]
  obtain ⟨_, harranges⟩ := Cache.orderOf_arranges steps config
    (CompileResult.ofArtifacts_sorted artifacts diagnostics)
  rw [horder] at harranges
  have hordered : bundle.artifacts = ordered := harranges.split
  have hbundles := bundles hbundle heach hsame harranges.perm
  rw [← hordered]
  exact ⟨harranges.perm, hbundles .code, hbundles .declaration⟩

/-- A file refers to the one after it. One fragment has no newline at its end, one is empty. -/
theorem bundle_joins_lines_of_ragged :
    let steps : List CacheStep := [.upsert "/p/a.ts" "/// <reference path=\"b.ts\" />".toList,
      .upsert "/p/b.ts" [], .reset]
    let sources := Cache.runSteps steps
    let project : ProjectConfig := { ProjectConfig.empty with
      options := { CompilerOptions.empty with out := some "all.js".toList } }
    let config := BuildConfiguration.of "/p/project.json" project .initial
    let artifacts : List Artifact := [⟨"/p/a.ts", some "a\n\nb".toList, none⟩,
      ⟨"/p/b.ts", some "c".toList, some []⟩, ⟨"/p/c.ts", some [], none⟩]
    let result := CompileResult.ofArtifacts artifacts []
    config.singleOutput = true ∧
    (stream .code (new sources config result).outputs).map OutputFile.contents =
      ["c\na\n\nb\n".toList] ∧
    (stream .declaration (new sources config result).outputs).map OutputFile.contents = [[]] ∧
    ∃ ordered : List Artifact, ordered.Perm result.artifacts ∧
      (new sources config result).Bundles (new sources config.unbundled result) result ordered
        .code Artifact.code ∧
      (new sources config result).Bundles (new sources config.unbundled result) result ordered
        .declaration Artifact.declaration := by
  intro steps sources project config artifacts result
  exact ⟨rfl, by decide +kernel, by decide +kernel, _,
    bundle_joins_lines steps config artifacts [] rfl⟩

end Assembly

end IncrementalBuild
