import IncrementalBuild.Proofs.FileLists
import IncrementalBuild.Proofs.OutputPlaces
import IncrementalBuild.Session.Basic
/-!
# Outputs that mirror the sources

The file list is resolved against the base directory, which stands in the working directory if it
is relative, and the layout of outputs looks for the base directory as it is configured. Below an
absolute base directory both mean the same, however the paths are written, and an output has the
directories of its source. A relative base directory is not found in front of a source, which is
absolute: the directories are lost, or the output stays beside its source.
-/
namespace IncrementalBuild

namespace Path

/-- A relative directory is in front of no absolute path, unless it is empty. -/
theorem not_prefix_of_relative {base p : Path} (hbase : base.isAbsolute = false)
    (hne : base.components ≠ []) (hp : p.IsNormal) (habsolute : p.isAbsolute = true) :
    ¬ base.components <+: p.components := by
  intro hprefix
  have hroot : .root ∉ base.components := fun hroot => by
    rw [← isAbsolute_iff, hbase] at hroot
    exact Bool.false_ne_true hroot
  rcases hp.written with hall | ⟨rest, heq, _⟩
  · exact (hall _ ((isAbsolute_iff p).mp habsolute)).whole List.mem_cons_self
  · obtain ⟨b, bs, hb⟩ := List.exists_cons_of_ne_nil hne
    rw [heq, hb] at hprefix
    exact hroot (by rw [hb, (List.cons_prefix_cons.mp hprefix).1]; exact List.mem_cons_self)

end Path

/-- A configured file is among the sources, as it is seen from the base directory. -/
theorem Session.mem_resolveSources {σ : Type} (loader : Loader) {s : Session σ}
    {entries : List Text} (hentries : s.config.project.files = some entries) {entry : Text}
    (hentry : entry ∈ entries) : ∃ sources, s.resolveSources loader = .ok sources ∧
      (loader.workingDirectory.resolve s.config.baseDir).resolve ⟨entry⟩ ∈ sources := by
  refine ⟨(namedPaths (loader.workingDirectory.join s.config.baseDir) entries).eraseDups, ?_, ?_⟩
  · unfold resolveSources
    rw [hentries, resolveFiles_some]
  · have hbase : (loader.workingDirectory.resolve s.config.baseDir).resolve ⟨entry⟩ =
        (loader.workingDirectory.join s.config.baseDir).resolve ⟨entry⟩ :=
      Path.normalize_resolve _ _
    rw [List.mem_eraseDups, hbase]
    exact List.mem_map_of_mem hentry

namespace OutputLayout

/-- Where the output of a stream goes for a source that stands in some directories behind the base
directory as it is in the working directory. -/
structure Mirrors (l : OutputLayout) (outDir source : Path) (dirs : List Component) (name : Text)
    (kind : OutputKind) : Prop where
  /-- Below an absolute base directory the directories are kept. -/
  kept : l.baseDir.isAbsolute = true → l.place kind source = .ofComponents
    (outDir.components ++ dirs ++ [Path.renamed name kind.extension])
  /-- Below a relative one they are left out. -/
  flat : l.baseDir.isAbsolute = false → l.baseDir.components ≠ [] →
    l.place kind source = .ofComponents
      (outDir.components ++ [Path.renamed name kind.extension])
  /-- Below an empty one the output directory is left out. -/
  beside : l.baseDir.components = [] → l.place kind source = .ofComponents
    (source.components.dropLast ++ [Path.renamed name kind.extension])

theorem mirrors {c : BuildConfiguration} {outDir source : Path} (hout : c.outDir = some outDir)
    (hsource : source.IsNormal) (habsolute : source.isAbsolute = true) {base : Path}
    (hbase : c.baseDir.isAbsolute = true → base = c.baseDir) {dirs : List Component} {name : Text}
    (h : source.components = base.components ++ dirs ++ [.name name]) (kind : OutputKind) :
    (ofConfiguration c).Mirrors outDir source dirs name kind := by
  have hnormal := BuildConfiguration.outDir_isNormal hout
  refine ⟨fun hroot => ?_, fun hroot hne => ?_, fun hnil => ?_⟩
  · obtain rfl := hbase hroot
    refine (relocates_inside hsource h hout hnormal (fun hnil => ?_) rfl).place kind
    have hmem := (Path.isAbsolute_iff _).mp hroot
    rw [hnil] at hmem
    cases hmem
  · have hnot := Path.not_prefix_of_relative hroot hne hsource habsolute
    exact (relocates_outside hsource h hout hnormal hnot).place kind
  · rw [h, List.dropLast_concat]
    exact (relocates_of_empty hsource h hout hnil habsolute).place kind

end OutputLayout

namespace Session

/-- Below an absolute base directory, outputs mirror the sources. For every entry of the file
list that names a file behind the base directory, the source is found, and its outputs have in the
output directory the place that the entry has in the base directory, with the extension of the
stream. A base directory that is not absolute is not found in front of the source: of its path only
the file name is left, or all of it. -/
theorem outputs_mirror_sources {σ : Type} (configPath : Path) (project : ProjectConfig)
    (settings : BuildSettings) (s : Session σ) (hs : s.config = .of configPath project settings)
    (loader : Loader) (hloader : loader.workingDirectory.isAbsolute = true) (outDir : Path)
    (hout : s.config.outDir = some outDir) (entries : List Text)
    (hentries : project.files = some entries) (entry : Text) (hentry : entry ∈ entries)
    (f : Path) (hf : Path.normalize ⟨entry⟩ = f) (hrelative : f.isAbsolute = false)
    (hne : f.components ≠ []) (hlead : f.components.head? ≠ some .parent) :
    ∃ sources source name, s.resolveSources loader = .ok sources ∧ source ∈ sources ∧
      source = (loader.workingDirectory.resolve s.config.baseDir).resolve ⟨entry⟩ ∧
      f.fileName? = some name ∧ ∀ kind, (OutputLayout.ofConfiguration s.config).Mirrors outDir
        source f.components.dropLast name kind := by
  have hnormal : f.IsNormal := hf ▸ Path.normalize_isNormal _
  obtain ⟨dirs, name, hnames, hname⟩ := hnormal.exists_names_concat hrelative hne hlead
  have hfiles : s.config.project.files = some entries := by
    rw [hs]
    exact hentries
  obtain ⟨sources, hsources, hmem⟩ := mem_resolveSources loader hfiles hentry
  -- the source is the entry behind the base directory as it stands in the working directory
  have hbase : (loader.workingDirectory.resolve s.config.baseDir).IsNormal :=
    Path.normalize_isNormal _
  have hrooted : (loader.workingDirectory.resolve s.config.baseDir).isAbsolute = true :=
    Path.isAbsolute_resolve hloader _
  have hsource : ((loader.workingDirectory.resolve s.config.baseDir).resolve ⟨entry⟩).components =
      (loader.workingDirectory.resolve s.config.baseDir).components ++ f.components.dropLast ++
        [.name name] := by
    rw [← Path.resolve_normalize_right, hf,
      Path.components_resolve_names hbase hnormal (by simp) hnames, ← hnames, List.append_assoc,
      ← Path.components_eq_of_fileName? hname]
  have hown : s.config.baseDir.isAbsolute = true →
      loader.workingDirectory.resolve s.config.baseDir = s.config.baseDir := fun habsolute =>
    (BuildConfiguration.baseDir_isNormal (hs ▸ Path.normalize_isNormal _) habsolute).resolve_eq
      habsolute _
  exact ⟨sources, _, name, hsources, hmem, rfl, hname, fun kind =>
    OutputLayout.mirrors hout (Path.normalize_isNormal _) (Path.isAbsolute_resolve hrooted _) hown
      hsource kind⟩

/-- A session before any cycle, for a project of one file whose outputs go to `out`. -/
def listingOne (configPath : Path) (rootDir : Option Text) (entry : Text) : Session Unit :=
  let options := { CompilerOptions.empty with rootDir, outDir := some "out".toList }
  .new (.of configPath { ProjectConfig.empty with files := some [entry], options } .initial) ()

/-- A file with two dots in its name, in a directory of the base directory. -/
theorem outputs_mirror_sources_of_nested :
    let s := listingOne "/p/x/../project.json" (some "lib/../src".toList) "./v/../ui/a.b.ts".toList
    (Path.normalize ⟨"./v/../ui/a.b.ts".toList⟩ : Path) = "ui/a.b.ts" ∧
    ∃ sources, s.resolveSources .empty = .ok sources ∧
    ∃ source ∈ sources, source = "/p/src/ui/a.b.ts" ∧
      (OutputLayout.ofConfiguration s.config).codePath source = "/p/out/ui/a.b.js" ∧
      (OutputLayout.ofConfiguration s.config).declarationPath source = "/p/out/ui/a.b.d.ts" := by
  intro s
  have hentry : (Path.normalize ⟨"./v/../ui/a.b.ts".toList⟩ : Path) = "ui/a.b.ts" := by
    decide +kernel
  obtain ⟨sources, source, name, hsources, hmem, hsource, hname, hmirrors⟩ :=
    outputs_mirror_sources "/p/x/../project.json" _ _ s rfl .empty (by decide) "/p/out"
      (by decide +kernel) ["./v/../ui/a.b.ts".toList] rfl _ (List.mem_singleton_self _) "ui/a.b.ts"
      hentry (by decide) (by decide +kernel) (by decide +kernel)
  have hfile : (⟨"ui/a.b.ts".toList⟩ : Path).fileName? = some "a.b.ts".toList := by decide +kernel
  obtain rfl : name = "a.b.ts".toList := Option.some.inj (hname.symm.trans hfile)
  have habsolute : (OutputLayout.ofConfiguration s.config).baseDir.isAbsolute = true := by
    decide +kernel
  refine ⟨hentry, sources, hsources, source, hmem, hsource.trans (by decide +kernel),
    ((hmirrors .code).kept habsolute).trans (by decide +kernel),
    ((hmirrors .declaration).kept habsolute).trans (by decide +kernel)⟩

/-- A project file with a relative path: the file in `src` loses its directory. -/
theorem relative_base_flattened :
    let s := listingOne "project.json" none "src/a.ts".toList
    (Path.normalize ⟨"src/a.ts".toList⟩ : Path) = "src/a.ts" ∧ s.config.outDir = some "out" ∧
    s.resolveSources .empty = .ok [⟨"/src/a.ts".toList⟩] ∧
    (OutputLayout.ofConfiguration s.config).codePath "/src/a.ts" = "out/a.js" ∧
    (OutputLayout.ofConfiguration s.config).codePath "/src/a.ts" ≠ "out/src/a.js" := by
  decide +kernel

end Session

end IncrementalBuild
