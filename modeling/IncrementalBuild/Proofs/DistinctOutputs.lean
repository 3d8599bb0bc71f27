import IncrementalBuild.Proofs.BundledText
import IncrementalBuild.Proofs.DeclaredHeader
import IncrementalBuild.Proofs.OutputPlaces
/-!
# Distinct outputs

Outputs of different streams never have one path. Outputs of one stream have one path exactly if
their sources have one file name and are relocated to one directory. Sources that stay where they
are, or keep their place behind the base directory, are apart; a source outside the base directory
goes to the top of the output directory, where another one may have its name.
-/
namespace IncrementalBuild

namespace OutputLayout

open IncrementalBuild.Path

/-! ## Directories that sources are relocated to -/

/-- A source is outside the base directory. -/
def Outside (l : OutputLayout) (p : Path) : Prop := ¬ l.baseDir.components <+: p.components

/-- A source stands in the base directory itself, in none of its directories. -/
def AtTop (l : OutputLayout) (p : Path) : Prop := ∃ c, p.components = l.baseDir.components ++ [c]

/-- Two sources go to the top of the output directory, at least one of them because it is outside
the base directory. -/
structure Flattened (l : OutputLayout) (p q : Path) : Prop where
  outDir : l.outDir.isSome
  outside : l.Outside p ∨ l.Outside q
  left : l.Outside p ∨ l.AtTop p
  right : l.Outside q ∨ l.AtTop q

/-- Under an empty base directory, a relative source goes to where an absolute one stands and
stays. -/
structure Landed (l : OutputLayout) (p q : Path) : Prop where
  baseDir : l.baseDir.components = []
  relative : p.isAbsolute = false
  absolute : q.isAbsolute = true
  eq : ∃ outDir, l.outDir = some outDir ∧ q.components = outDir.components ++ p.components

/-- Two different sources of one name that are relocated to one directory. -/
structure Clash (l : OutputLayout) (p q : Path) : Prop where
  ne : p.components ≠ q.components
  name : p.fileName? = q.fileName?
  meet : l.Flattened p q ∨ l.Landed p q ∨ l.Landed q p

/-- A source has the extension `ts`, behind something else than one more dot, and is not the base
directory. -/
structure Named (l : OutputLayout) (p : Path) (stem : Text) : Prop where
  name : p.fileName? = some (stem ++ '.' :: "ts".toList)
  stem : stem ≠ [] ∧ stem ≠ ['.']
  apart : p.components ≠ l.baseDir.components

/-- A source that a layout has a place for: one that is named so, by a path in normal form. -/
structure Accepts (l : OutputLayout) (p : Path) (stem : Text) : Prop extends l.Named p stem where
  normal : p.IsNormal

/-- The directory that a source is relocated to. -/
def directory (l : OutputLayout) (p : Path) : List Component :=
  match l.outDir with
  | none => p.components.dropLast
  | some outDir =>
    if l.baseDir.components = [] ∧ p.isAbsolute = true then p.components.dropLast
    else if l.baseDir.components <+: p.components then
      outDir.components ++ (p.components.drop l.baseDir.components.length).dropLast
    else outDir.components

variable {l : OutputLayout} {p q : Path} {stem stem' : Text}

/-- Sources that stay where they are, or keep their place behind the base directory, do not
clash. -/
theorem not_clash (h : l.outDir = none ∨
    l.baseDir.components ≠ [] ∧ ¬ l.Outside p ∧ ¬ l.Outside q) : ¬ l.Clash p q := by
  rintro ⟨_, _, hmeet⟩
  rcases h with hout | ⟨hbase, hpin, hqin⟩
  · rcases hmeet with hflat | hland | hland
    · have hsome := hflat.outDir
      rw [hout] at hsome
      cases hsome
    all_goals
      obtain ⟨_, hdir, _⟩ := hland.eq
      cases hout.symm.trans hdir
  · rcases hmeet with hflat | hland | hland
    · exact hflat.outside.elim hpin hqin
    · exact hbase hland.baseDir
    · exact hbase hland.baseDir

theorem directory_beside (hout : l.outDir = none) : l.directory p = p.components.dropLast := by
  rw [directory, hout]

section
variable {outDir : Path} (hout : l.outDir = some outDir)
include hout

theorem directory_of_empty (hbase : l.baseDir.components = []) :
    l.directory p = if p.isAbsolute = true then p.components.dropLast
      else outDir.components ++ p.components.dropLast := by
  simp [directory, hout, hbase]

theorem directory_inside (hbase : l.baseDir.components ≠ []) {ds : List Component} {c : Component}
    (h : p.components = l.baseDir.components ++ ds ++ [c]) :
    l.directory p = outDir.components ++ ds := by
  have hinside : l.baseDir.components <+: p.components :=
    ⟨ds ++ [c], by rw [h, List.append_assoc]⟩
  rw [directory, hout]
  dsimp only
  rw [if_neg fun hand => hbase hand.1, if_pos hinside, h, List.append_assoc, List.drop_left,
    List.dropLast_concat]

theorem directory_outside (houtside : l.Outside p) : l.directory p = outDir.components := by
  rw [directory, hout]
  dsimp only
  have hbase : ¬ (l.baseDir.components = [] ∧ p.isAbsolute = true) := fun hand =>
    houtside (hand.1 ▸ List.nil_prefix)
  rw [if_neg hbase, if_neg houtside]

end

theorem atTop_iff {ds : List Component} {c : Component}
    (h : p.components = l.baseDir.components ++ ds ++ [c]) : l.AtTop p ↔ ds = [] := by
  constructor
  · rintro ⟨d, hd⟩
    rw [h, List.append_assoc] at hd
    have hlength := congrArg List.length (List.append_cancel_left hd)
    simpa using hlength
  · rintro rfl
    exact ⟨c, by rw [h, List.append_nil]⟩

theorem extension_inj {kind kind' : OutputKind}
    (h : stem ++ '.' :: kind.extension = stem' ++ '.' :: kind'.extension) :
    kind = kind' ∧ stem = stem' := by
  have hlast := congrArg (fun t : Text => t.reverse.take 2) h
  cases kind <;> cases kind'
  · exact ⟨rfl, List.append_cancel_right h⟩
  · simp [OutputKind.extension] at hlast
  · simp [OutputKind.extension] at hlast
  · exact ⟨rfl, List.append_cancel_right h⟩

namespace Accepts

theorem exists_behind (h : l.Accepts p stem) (hinside : l.baseDir.components <+: p.components) :
    ∃ ds, p.components =
      l.baseDir.components ++ ds ++ [.name (stem ++ '.' :: "ts".toList)] := by
  obtain ⟨rest, hrest⟩ := hinside
  rcases List.eq_nil_or_concat' rest with rfl | ⟨ds, c, rfl⟩
  · exact absurd (hrest.symm.trans (List.append_nil _)) h.apart
  · refine ⟨ds, ?_⟩
    have hname := components_eq_of_fileName? h.name
    rw [← hrest, ← List.append_assoc, List.dropLast_concat] at hname
    rw [← hrest, ← List.append_assoc]
    exact hname

theorem dropLast_ne (hp : l.Accepts p stem) (hq : l.Accepts q stem)
    (hne : p.components ≠ q.components) : p.components.dropLast ≠ q.components.dropLast := by
  intro heq
  rw [components_eq_of_fileName? hp.name, components_eq_of_fileName? hq.name, heq] at hne
  exact hne rfl

theorem landed_iff (hp : l.Accepts p stem) (hq : l.Accepts q stem) {outDir : Path}
    (hout : l.outDir = some outDir) (hbase : l.baseDir.components = [])
    (hrelative : p.isAbsolute = false) (habsolute : q.isAbsolute = true) :
    outDir.components ++ p.components.dropLast = q.components.dropLast ↔ l.Landed p q := by
  have hpname := components_eq_of_fileName? hp.name
  have hqname := components_eq_of_fileName? hq.name
  constructor
  · intro heq
    refine ⟨hbase, hrelative, habsolute, outDir, hout, ?_⟩
    rw [hpname, ← List.append_assoc, heq]
    exact hqname
  · rintro ⟨_, _, _, _, hdir, heq⟩
    obtain rfl := Option.some.inj (hout.symm.trans hdir)
    rw [hpname, hqname, ← List.append_assoc] at heq
    exact (List.append_inj_left' heq rfl).symm

section
variable {outDir : Path} (hout : l.outDir = some outDir)
include hout

/-- Under an empty base directory, sources of one name are relocated to one directory if one of them
goes where the other one stands. -/
theorem directory_eq_iff_of_empty (hp : l.Accepts p stem) (hq : l.Accepts q stem)
    (hne : p.components ≠ q.components) (hbase : l.baseDir.components = []) :
    l.directory p = l.directory q ↔ l.Landed p q ∨ l.Landed q p := by
  have hapart := hp.dropLast_ne hq hne
  have hsame : ∀ {r s}, r.isAbsolute = s.isAbsolute → ¬ l.Landed r s := fun h hland =>
    absurd (hland.relative.symm.trans (h.trans hland.absolute)) Bool.false_ne_true
  have hrooted : ∀ {r s}, r.isAbsolute = true → ¬ l.Landed r s := fun h hland =>
    absurd (hland.relative.symm.trans h) Bool.false_ne_true
  rw [directory_of_empty hout hbase, directory_of_empty hout hbase]
  cases hpa : p.isAbsolute <;> cases hqa : q.isAbsolute
  · simp [hapart, hsame (hpa.trans hqa.symm), hsame (hqa.trans hpa.symm)]
  · simp [hp.landed_iff hq hout hbase hpa hqa, hrooted hqa]
  · simp [eq_comm (b := _ ++ _), hq.landed_iff hp hout hbase hqa hpa, hrooted hpa]
  · simp [hapart, hsame (hpa.trans hqa.symm), hsame (hqa.trans hpa.symm)]

variable (hbase : l.baseDir.components ≠ [])
include hbase

/-- A source goes to the top of the output directory from outside the base directory and from its
top. -/
theorem directory_eq_top_iff (hp : l.Accepts p stem) :
    l.directory p = outDir.components ↔ l.Outside p ∨ l.AtTop p := by
  by_cases hinside : l.baseDir.components <+: p.components
  · obtain ⟨ds, hds⟩ := hp.exists_behind hinside
    rw [directory_inside hout hbase hds, List.append_right_eq_self, ← atTop_iff hds, Outside]
    simp [hinside]
  · simp [directory_outside hout hinside, Outside, hinside]

/-- Behind the base directory, different sources of one name are relocated to different
directories. -/
theorem directory_ne_of_inside (hp : l.Accepts p stem) (hq : l.Accepts q stem)
    (hne : p.components ≠ q.components) (hpin : l.baseDir.components <+: p.components)
    (hqin : l.baseDir.components <+: q.components) : l.directory p ≠ l.directory q := by
  obtain ⟨ds, hds⟩ := hp.exists_behind hpin
  obtain ⟨es, hes⟩ := hq.exists_behind hqin
  rw [directory_inside hout hbase hds, directory_inside hout hbase hes]
  intro heq
  rw [hds, hes, List.append_cancel_left heq] at hne
  exact hne rfl

theorem directory_eq_iff_of_base (hp : l.Accepts p stem) (hq : l.Accepts q stem)
    (hne : p.components ≠ q.components) : l.directory p = l.directory q ↔ l.Flattened p q := by
  have hptop := hp.directory_eq_top_iff hout hbase
  have hqtop := hq.directory_eq_top_iff hout hbase
  constructor
  · intro heq
    have houtside : l.Outside p ∨ l.Outside q := by
      by_contra hneither
      obtain ⟨hpin, hqin⟩ := not_or.mp hneither
      exact hp.directory_ne_of_inside hout hbase hq hne (not_not.mp hpin) (not_not.mp hqin) heq
    have htop : l.directory p = outDir.components := houtside.elim (directory_outside hout)
      fun h => heq.trans (directory_outside hout h)
    exact ⟨Option.isSome_of_mem hout, houtside, hptop.mp htop, hqtop.mp (heq.symm.trans htop)⟩
  · intro hflat
    exact (hptop.mpr hflat.left).trans (hqtop.mpr hflat.right).symm

end

/-- Sources of one name are relocated to one directory in three cases only. -/
theorem directory_eq_iff (hp : l.Accepts p stem) (hq : l.Accepts q stem)
    (hne : p.components ≠ q.components) :
    l.directory p = l.directory q ↔ l.Flattened p q ∨ l.Landed p q ∨ l.Landed q p := by
  cases hout : l.outDir with
  | none =>
    have hflat : ¬ l.Flattened p q := fun h => by simpa [hout] using h.outDir
    have hland : ∀ r s, ¬ l.Landed r s := fun _ _ h => by
      obtain ⟨_, hdir, _⟩ := h.eq
      cases hout.symm.trans hdir
    simp [directory_beside hout, hp.dropLast_ne hq hne, hflat, hland]
  | some outDir =>
    by_cases hbase : l.baseDir.components = []
    · have hflat : ¬ l.Flattened p q := fun h => by simpa [Outside, hbase] using h.outside
      rw [hp.directory_eq_iff_of_empty hout hq hne hbase, or_iff_right hflat]
    · have hland : ¬ (l.Landed p q ∨ l.Landed q p) := fun h =>
        hbase (h.elim Landed.baseDir Landed.baseDir)
      rw [hp.directory_eq_iff_of_base hout hbase hq hne, or_iff_left hland]

/-! ## Places -/

section
variable (hout : ∀ outDir, l.outDir = some outDir → outDir.IsNormal)
include hout

theorem relocates (h : l.Accepts p stem) :
    l.Relocates p (l.directory p) (stem ++ '.' :: "ts".toList) := by
  have hname := components_eq_of_fileName? h.name
  cases hdir : l.outDir with
  | none =>
    rw [directory_beside hdir]
    exact relocates_beside h.normal hname hdir
  | some outDir =>
    have hnormal := hout outDir hdir
    by_cases hbase : l.baseDir.components = []
    · rw [directory_of_empty hdir hbase]
      split
      · next habsolute => exact relocates_of_empty h.normal hname hdir hbase habsolute
      · next hrelative =>
        exact relocates_of_relative h.normal hname hdir hnormal hbase
          (Bool.eq_false_iff.mpr hrelative)
    · by_cases hinside : l.baseDir.components <+: p.components
      · obtain ⟨ds, hds⟩ := h.exists_behind hinside
        rw [directory_inside hdir hbase hds]
        exact relocates_inside h.normal hds hdir hnormal hbase rfl
      · rw [directory_outside hdir hinside]
        exact relocates_outside h.normal hname hdir hnormal hinside

theorem place_eq (h : l.Accepts p stem) (kind : OutputKind) :
    l.place kind p = ofComponents (l.directory p ++ [.name (stem ++ '.' :: kind.extension)]) := by
  rw [(h.relocates hout).place, renamed_append h.stem.1 h.stem.2 (by decide)]

theorem written (h : l.Accepts p stem) (kind : OutputKind) :
    Written (l.directory p ++ [.name (stem ++ '.' :: kind.extension)]) := by
  have hwritten := (h.relocates hout).written
  have hslash : '/' ∉ stem := fun hmem =>
    hwritten.last_isPiece.whole (List.mem_append_left _ hmem)
  have hlong : 2 < (stem ++ '.' :: kind.extension).length := by
    cases kind <;> simp [OutputKind.extension]
  refine hwritten.concat (isPiece_name h.stem.1 (fun heq => ?_) (fun heq => ?_) hslash ?_)
  · rw [heq] at hlong
    exact absurd hlong (by decide)
  · rw [heq] at hlong
    exact absurd hlong (by decide)
  · cases kind <;> decide

/-- Outputs with one path are of one stream, and their sources have one name and are relocated to
one directory. -/
theorem place_eq_iff (hp : l.Accepts p stem) (hq : l.Accepts q stem') {kind kind' : OutputKind} :
    l.place kind p = l.place kind' q ↔
      kind = kind' ∧ stem = stem' ∧ l.directory p = l.directory q := by
  rw [hp.place_eq hout, hq.place_eq hout,
    (hp.written hout kind).ofComponents_inj (hq.written hout kind')]
  constructor
  · intro h
    obtain ⟨hdirectory, hname⟩ := List.append_inj' h rfl
    obtain ⟨hkind, hstem⟩ := extension_inj (Component.name.inj (List.singleton_inj.mp hname))
    exact ⟨hkind, hstem, hdirectory⟩
  · rintro ⟨rfl, rfl, hdirectory⟩
    rw [hdirectory]

/-- The outputs of two sources have one path exactly if they are of one stream and the sources
clash. -/
theorem place_eq_iff_clash (hp : l.Accepts p stem) (hq : l.Accepts q stem')
    (hne : p.components ≠ q.components) {kind kind' : OutputKind} :
    l.place kind p = l.place kind' q ↔ kind = kind' ∧ l.Clash p q := by
  rw [hp.place_eq_iff hout hq]
  refine and_congr_right fun _ => ⟨?_, ?_⟩
  · rintro ⟨rfl, hdirectory⟩
    exact ⟨hne, hp.name.trans hq.name.symm, (hp.directory_eq_iff hq hne).mp hdirectory⟩
  · rintro ⟨_, hname, hmeet⟩
    rw [hp.name, hq.name] at hname
    obtain rfl := List.append_cancel_right (Option.some.inj hname)
    exact ⟨rfl, (hp.directory_eq_iff hq hne).mpr hmeet⟩

/-- The directory that an absolute source is relocated to is in normal form. -/
theorem stacked_directory (h : l.Accepts p stem) (habsolute : p.isAbsolute = true) :
    Stacked (l.directory p).reverse := by
  have hown : Stacked p.components.dropLast.reverse := by
    have hstacked := h.normal.stacked
    rw [components_eq_of_fileName? h.name, List.reverse_concat] at hstacked
    exact hstacked.tail
  cases hdir : l.outDir with
  | none => rwa [directory_beside hdir]
  | some outDir =>
    have hstacked := (hout outDir hdir).stacked
    by_cases hbase : l.baseDir.components = []
    · rwa [directory_of_empty hdir hbase, if_pos habsolute]
    · by_cases hinside : l.baseDir.components <+: p.components
      · obtain ⟨ds, hds⟩ := h.exists_behind hinside
        rw [directory_inside hdir hbase hds]
        rw [List.append_assoc] at hds
        obtain ⟨names, hnames⟩ := h.normal.names_behind habsolute hbase hds
        obtain ⟨dirs, _, rfl, rfl, _⟩ := List.append_eq_map_iff.mp hnames
        have hpieces := (hds ▸ h.normal.written).isPiece_of_append hbase
        exact hstacked.append_names fun t ht =>
          hpieces _ (List.mem_append_left _ (List.mem_map_of_mem ht))
      · rwa [directory_outside hdir hinside]

theorem place_isNormal (h : l.Accepts p stem) (habsolute : p.isAbsolute = true)
    (kind : OutputKind) : (l.place kind p).IsNormal := by
  have hname : ∀ t ∈ [stem ++ '.' :: kind.extension], (Component.name t).IsPiece := fun t ht =>
    List.mem_singleton.mp ht ▸ (h.written hout kind).last_isPiece
  rw [h.place_eq hout]
  exact ((h.stacked_directory hout habsolute).append_names hname).isNormal

end

end Accepts

end OutputLayout

/-! ## Outputs of a cycle -/

namespace PassThrough

theorem collect_artifacts (analyses : List Analysis) :
    Artifact.Sorted (collect analyses).artifacts ∧
      ∀ x ∈ (collect analyses).artifacts, ∃ a ∈ analyses, x = a.artifact := by
  -- the induction puts in one more artifact behind those that are there
  induction analyses using List.reverseRecOn with
  | nil => exact ⟨List.Pairwise.nil, fun x hx => absurd hx List.not_mem_nil⟩
  | append_singleton analyses a ih =>
    have hlast : (collect (analyses ++ [a])).artifacts =
        a.artifact.insert (collect analyses).artifacts := by
      rw [collect, List.foldl_concat]
      rfl
    rw [hlast]
    refine ⟨ih.1.insert a.artifact, fun x hx => ?_⟩
    rcases Artifact.mem_insert hx with rfl | hx
    · exact ⟨a, by simp, rfl⟩
    · obtain ⟨b, hb, heq⟩ := ih.2 x hx
      exact ⟨b, List.mem_append_left _ hb, heq⟩

end PassThrough

namespace Assembly

theorem mem_fileOutputs {layout : OutputLayout} {a : Artifact} {o : OutputFile}
    (h : o ∈ fileOutputs layout a) :
    o.source = some a.source ∧ o.path = layout.place o.kind a.source := by
  unfold fileOutputs at h
  rcases List.mem_append.mp h with h | h
  all_goals
    obtain ⟨t, _, rfl⟩ := Option.map_eq_some_iff.mp (Option.mem_toList.mp h)
    exact ⟨rfl, rfl⟩

theorem fileOutputs_pairwise (layout : OutputLayout) (a : Artifact) :
    (fileOutputs layout a).Pairwise fun o o' => o.kind ≠ o'.kind := by
  rcases a with ⟨source, code, declaration⟩
  cases code <;> cases declaration <;> simp [fileOutputs]

theorem outputs_of_single {sources : Cache} {config : BuildConfiguration} {result : CompileResult}
    (hsingle : config.singleOutput = false) : (new sources config result).outputs =
      (new sources config result).artifacts.flatMap
        (fileOutputs (OutputLayout.ofConfiguration config)) := by
  have hbundle : (new sources config result).bundle = none := by
    rw [new_bundle, OutputLayout.bundlePaths, Option.map_eq_none_iff]
    exact Option.isNone_iff_eq_none.mp
      (Option.isSome_eq_false_iff.mp (Option.isSome_map.trans hsingle))
  unfold outputs
  rw [hbundle]
  rfl

/-- The artifacts of an assembly have different sources if those of the result do. -/
theorem new_nodup {sources : Cache} {config : BuildConfiguration} {result : CompileResult}
    (h : Artifact.Sorted result.artifacts) :
    ((new sources config result).artifacts.map fun x => x.source.components).Nodup := by
  have hperm := pick_append_perm
    (((orderOf sources config).files.filterMap sources.file?).map SourceFile.path) h
  rw [new_artifacts, (hperm.map _).nodup_iff]
  refine List.pairwise_map.mpr (h.imp fun hprecedes hsame => ?_)
  exact Bool.false_ne_true (hprecedes.2.symm.trans (Path.same_iff.mpr hsame))

/-- Two outputs are of one stream and of sources that clash. -/
def Overwrites (layout : OutputLayout) (o o' : OutputFile) : Prop :=
  o.kind = o'.kind ∧ ∃ p q, o.source = some p ∧ o'.source = some q ∧ layout.Clash p q

/-- Outputs of different sources have one path exactly if one overwrites the other. -/
theorem pairwise_overwrites {layout : OutputLayout}
    (hout : ∀ outDir, layout.outDir = some outDir → outDir.IsNormal) {artifacts : List Artifact}
    (hnodup : (artifacts.map fun x => x.source.components).Nodup)
    (haccepts : ∀ x ∈ artifacts, ∃ stem, layout.Accepts x.source stem) :
    (artifacts.flatMap (fileOutputs layout)).Pairwise fun o o' =>
      o.path = o'.path ↔ Overwrites layout o o' := by
  have hiff : ∀ {x y : Artifact} {o o' : OutputFile}, o ∈ fileOutputs layout x →
      o' ∈ fileOutputs layout y → (Overwrites layout o o' ↔
        o.kind = o'.kind ∧ layout.Clash x.source y.source) := by
    intro x y o o' ho ho'
    rw [Overwrites, (mem_fileOutputs ho).1, (mem_fileOutputs ho').1]
    simp
  refine List.pairwise_flatMap.mpr ⟨fun x hx => ?_, ?_⟩
  · -- one source has one output of each stream
    obtain ⟨stem, hstem⟩ := haccepts x hx
    refine List.Pairwise.imp_of_mem (fun ho ho' hkind => ?_) (fileOutputs_pairwise layout x)
    rw [hiff ho ho', (mem_fileOutputs ho).2, (mem_fileOutputs ho').2, hstem.place_eq_iff hout hstem]
    exact iff_of_false (fun h => hkind h.1) fun h => hkind h.1
  · refine List.Pairwise.imp_of_mem (fun hx hy hne o ho o' ho' => ?_) (List.pairwise_map.mp hnodup)
    obtain ⟨stem, hstem⟩ := haccepts _ hx
    obtain ⟨stem', hstem'⟩ := haccepts _ hy
    rw [hiff ho ho', (mem_fileOutputs ho).2, (mem_fileOutputs ho').2,
      hstem.place_eq_iff_clash hout hstem' hne]

end Assembly

namespace CompileCall

open PassThrough

variable {calls : List CompileCall} {call : CompileCall} {result : CompileResult}

/-- Whatever the compiler was called for before, its result has artifacts of different files, each
of them a file of the cycle. -/
theorem answer_artifacts (hresult : (call.answer (memoAfter calls)).1 = .ok result) :
    Artifact.Sorted result.artifacts ∧
      ∀ x ∈ result.artifacts, ∃ f ∈ call.sources.files, x.source = f.path := by
  obtain ⟨gs, hgs, rfl⟩ := answer_eq_collect hresult
  obtain ⟨hsorted, hmem⟩ := collect_artifacts (gs.map (analyze · call.config.options.declaration))
  refine ⟨hsorted, fun x hx => ?_⟩
  obtain ⟨a, ha, rfl⟩ := hmem x hx
  obtain ⟨g, hg, rfl⟩ := List.mem_map.mp ha
  obtain ⟨f, hf, hpasses, _⟩ := exists_of_forall₂ hgs hg
  exact ⟨f, hf, (artifact_source g _).trans hpasses.path⟩

theorem artifact_of_file (hresult : (call.answer (memoAfter calls)).1 = .ok result) {x : Artifact}
    (hx : x ∈ (Assembly.new call.sources call.config result).artifacts) :
    ∃ f ∈ call.sources.files, x.source = f.path := by
  obtain ⟨hsorted, hmem⟩ := answer_artifacts hresult
  exact hmem x ((Assembly.pick_append_perm _ hsorted).subset hx)

/-- An output is one of a file of the cycle, and at its place. -/
theorem output_of_file (hresult : (call.answer (memoAfter calls)).1 = .ok result)
    (hsingle : call.config.singleOutput = false) {o : OutputFile}
    (ho : o ∈ (Assembly.new call.sources call.config result).outputs) :
    ∃ f ∈ call.sources.files, o.source = some f.path ∧
      o.path = (OutputLayout.ofConfiguration call.config).place o.kind f.path := by
  rw [Assembly.outputs_of_single hsingle] at ho
  obtain ⟨x, hx, ho⟩ := List.mem_flatMap.mp ho
  obtain ⟨f, hf, hpath⟩ := artifact_of_file hresult hx
  exact ⟨f, hf, hpath ▸ Assembly.mem_fileOutputs ho⟩

theorem outputs_pairwise (hresult : (call.answer (memoAfter calls)).1 = .ok result)
    (hsingle : call.config.singleOutput = false)
    (hfiles : ∀ f ∈ call.sources.files, ∃ stem,
      (OutputLayout.ofConfiguration call.config).Accepts f.path stem) :
    (Assembly.new call.sources call.config result).outputs.Pairwise fun o o' => o.path = o'.path ↔
      Assembly.Overwrites (OutputLayout.ofConfiguration call.config) o o' := by
  rw [Assembly.outputs_of_single hsingle]
  refine Assembly.pairwise_overwrites (fun _ => BuildConfiguration.outDir_isNormal)
    (Assembly.new_nodup (answer_artifacts hresult).1) fun x hx => ?_
  obtain ⟨f, hf, hpath⟩ := artifact_of_file hresult hx
  exact hpath ▸ hfiles f hf

/-- When an output overwrites another: in a cycle that is not bundled, every output belongs to a
file of the cycle, and two outputs have one path exactly if they are of one stream and their sources
clash: different files of one name are put at the top of the output directory, where at least one of
them comes from outside the base directory; or under an empty base directory a relative file is put
where an absolute one is. If outputs stay beside their sources, or all sources are in the base
directory, then the paths are distinct. They are in normal form if the sources are absolute. -/
theorem outputs_overwrite_iff (calls : List CompileCall) (call : CompileCall)
    (result : CompileResult) (hresult : (call.answer (memoAfter calls)).1 = .ok result)
    (hsingle : call.config.singleOutput = false)
    (hfiles : ∀ f ∈ call.sources.files, ∃ stem,
      (OutputLayout.ofConfiguration call.config).Named f.path stem) :
    let layout := OutputLayout.ofConfiguration call.config
    let outputs := (Assembly.new call.sources call.config result).outputs
    (∀ o ∈ outputs, ∃ f ∈ call.sources.files, o.source = some f.path ∧
      (f.path.isAbsolute = true → o.path.IsNormal)) ∧
    outputs.Pairwise (fun o o' => o.path = o'.path ↔ Assembly.Overwrites layout o o') ∧
    ((layout.outDir = none ∨ layout.baseDir.components ≠ [] ∧
        ∀ f ∈ call.sources.files, ¬ layout.Outside f.path) →
      (outputs.map OutputFile.path).Nodup) := by
  intro layout outputs
  have hplaced : ∀ f ∈ call.sources.files, ∃ stem, layout.Accepts f.path stem := by
    intro f hf
    obtain ⟨stem, hstem⟩ := hfiles f hf
    exact ⟨stem, hstem,
      (Cache.runSteps_sound call.steps).files_normal (Cache.runSteps_normal call.steps) hf⟩
  have hpairwise := outputs_pairwise hresult hsingle hplaced
  refine ⟨fun o ho => ?_, hpairwise, fun hinside => ?_⟩
  · obtain ⟨f, hf, hsource, hpath⟩ := output_of_file hresult hsingle ho
    obtain ⟨stem, hstem⟩ := hplaced f hf
    exact ⟨f, hf, hsource, fun habsolute => hpath ▸
      hstem.place_isNormal (fun _ => BuildConfiguration.outDir_isNormal) habsolute _⟩
  · refine List.pairwise_map.mpr (hpairwise.imp_of_mem fun ho ho' hiff hpath => ?_)
    obtain ⟨_, p, q, hp, hq, hclash⟩ := hiff.mp hpath
    obtain ⟨f, hf, hsource, _⟩ := output_of_file hresult hsingle ho
    obtain ⟨g, hg, hsource', _⟩ := output_of_file hresult hsingle ho'
    obtain rfl := Option.some.inj (hp.symm.trans hsource)
    obtain rfl := Option.some.inj (hq.symm.trans hsource')
    exact OutputLayout.not_clash
      (hinside.imp_right fun ⟨hbase, hin⟩ => ⟨hbase, hin f hf, hin g hg⟩) hclash

/-! ## Sources in several places -/

/-- A call on files with one content, with declarations on. -/
def placing (rootDir : Option Text) (outDir : Text) (paths : List Path) : CompileCall :=
  let options := { CompilerOptions.empty with declaration := true, rootDir, outDir := some outDir }
  ⟨.of "/p/project.json" { ProjectConfig.empty with options } .initial,
    paths.map (.upsert · "let a;".toList) ++ [.reset], .empty⟩

/-- The paths of the outputs that a new compiler leads to. -/
def outputPaths (call : CompileCall) : List Path :=
  match (call.answer (memoAfter [])).1 with
  | .ok result => (Assembly.new call.sources call.config result).outputs.map OutputFile.path
  | .error _ => []

/-- Two files of one name behind the base directory, and one with two dots in its name. -/
theorem outputs_overwrite_iff_of_nested :
    let call := placing none "build".toList ["/p/src/a.ts", "/p/a.ts", "/p/a.b.ts"]
    call.config.singleOutput = false ∧ call.outputPaths.Nodup := by
  intro call
  have hpaths : call.sources.files.map SourceFile.path =
      ["/p/src/a.ts", "/p/a.ts", "/p/a.b.ts"] := by decide +kernel
  have hnamed : ∀ p ∈ call.sources.files.map SourceFile.path, ∃ stem,
      (OutputLayout.ofConfiguration call.config).Named p stem := by
    rw [hpaths]
    refine List.forall_mem_cons.mpr ⟨⟨['a'], ?_⟩, List.forall_mem_cons.mpr ⟨⟨['a'], ?_⟩,
      List.forall_mem_singleton.mpr ⟨"a.b".toList, ?_⟩⟩⟩
    all_goals exact ⟨by decide +kernel, by decide, by decide +kernel⟩
  have hinside : ∀ p ∈ call.sources.files.map SourceFile.path,
      ¬ (OutputLayout.ofConfiguration call.config).Outside p := by
    rw [hpaths]
    unfold OutputLayout.Outside
    decide +kernel
  obtain ⟨result, hresult⟩ : ∃ result, (call.answer (memoAfter [])).1 = .ok result := ⟨_, rfl⟩
  obtain ⟨_, _, hnodup⟩ := outputs_overwrite_iff [] call result hresult rfl
    fun f hf => hnamed f.path (List.mem_map_of_mem hf)
  refine ⟨rfl, ?_⟩
  unfold outputPaths
  rw [hresult]
  exact hnodup (.inr ⟨by decide +kernel, fun f hf => hinside f.path (List.mem_map_of_mem hf)⟩)

/-- Two files of one name outside the base directory have their outputs at one place. So have a file
without a name before its extension and one that has its whole name there, the two outputs of a file
with one more dot there, and those of a file that has the path of the base directory. -/
theorem outputs_overwritten :
    let call := placing none "build".toList ["/lib/x.ts", "/other/x.ts"]
    call.config.singleOutput = false ∧
    (∀ f ∈ call.sources.files, ".ts".toList <:+ f.path.text) ∧
    call.outputPaths =
      ["/p/build/x.js", "/p/build/x.d.ts", "/p/build/x.js", "/p/build/x.d.ts"] ∧
    (placing none "build".toList ["/p/.ts", "/p/.ts.ts"]).outputPaths =
      ["/p/build/.ts.js", "/p/build/.ts.d.ts", "/p/build/.ts.js", "/p/build/.ts.d.ts"] ∧
    (placing none "build".toList ["/p/..ts"]).outputPaths = ["/p/build/..", "/p/build/.."] ∧
    (placing (some "x.ts".toList) "/".toList ["/p/x.ts"]).outputPaths = ["/", "/"] := by
  decide +kernel

end CompileCall

end IncrementalBuild
