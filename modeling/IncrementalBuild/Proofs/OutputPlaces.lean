import IncrementalBuild.Output.Layout
import IncrementalBuild.Output.Outlet
import IncrementalBuild.Proofs.PathParts
/-!
# Places of outputs

The path of an output has the components of the output directory, those of its source that the
layout keeps, and the file name of the source with another extension. What is kept depends on where
the source stands: beside the source all of it, behind the base directory what follows that
directory, and elsewhere the file name alone.
-/
namespace IncrementalBuild

def OutputKind.extension : OutputKind → Text
  | code => "js"
  | declaration => "d.ts"

namespace Path

theorem components_resolve_names {base f : Path} (hbase : base.IsNormal) (hf : f.IsNormal)
    {names : List Text} (hne : names ≠ []) (h : f.components = names.map Component.name) :
    (base.resolve f).components = base.components ++ names.map Component.name := by
  have hpieces : ∀ t ∈ names, (Component.name t).IsPiece := by
    intro t ht
    have hmem : Component.name t ∈ f.components := h ▸ List.mem_map_of_mem ht
    exact (hf.stacked.isPiece (List.mem_reverse.mpr hmem)).resolve_left Component.noConfusion
  have hjoin : base.join f = ofComponents (base.components ++ names.map Component.name) := by
    rw [← hf.ofComponents_eq, h]
    refine join_ofComponents hbase (mt List.map_eq_nil_iff.mp hne) fun c hc => ?_
    obtain ⟨t, ht, rfl⟩ := List.mem_map.mp hc
    exact hpieces t ht
  have hstacked := hbase.stacked.append_names hpieces
  have hresolve : base.resolve f = ofComponents (base.components ++ names.map Component.name) := by
    rw [resolve, hjoin]
    exact hstacked.isNormal
  rw [hresolve, hstacked.written_reverse.components]

end Path

namespace OutputLayout

open IncrementalBuild.Path

/-- The file that the output of a stream for a source goes to. -/
def place (l : OutputLayout) : OutputKind → Path → Path
  | .code => l.codePath
  | .declaration => l.declarationPath

variable {l : OutputLayout} {p : Path} {cs : List Component} {t : Text} (kind : OutputKind)

theorem place_eq : l.place kind p = (l.relocate p).withExtension kind.extension := by
  cases kind <;> rfl

/-- A source is relocated to a directory, under its own name. -/
structure Relocates (l : OutputLayout) (p : Path) (cs : List Component) (t : Text) : Prop where
  eq : l.relocate p = ofComponents (cs ++ [.name t])
  written : Written (cs ++ [.name t])

theorem Relocates.place (h : l.Relocates p cs t) :
    l.place kind p = ofComponents (cs ++ [renamed t kind.extension]) := by
  rw [place_eq, h.eq, withExtension_ofComponents h.written]

section
variable (hp : p.IsNormal) (h : p.components = cs ++ [.name t])
include hp h

theorem relocates_of_stay (hstay : l.relocate p = p) : l.Relocates p cs t :=
  ⟨by rw [hstay, ← h, hp.ofComponents_eq], h ▸ hp.written⟩

theorem relocates_beside (hout : l.outDir = none) : l.Relocates p cs t :=
  relocates_of_stay hp h (by rw [relocate, hout])

variable {outDir : Path} (hout : l.outDir = some outDir)
include hout

theorem relocates_of_empty (hbase : l.baseDir.components = []) (habsolute : p.isAbsolute = true) :
    l.Relocates p cs t := by
  refine relocates_of_stay hp h ?_
  rw [relocate, hout]
  dsimp only
  rw [relativeTo?_of_empty hp hbase]
  exact join_absolute outDir habsolute

variable (hnormal : outDir.IsNormal)
include hnormal

theorem relocates_inside (hbase : l.baseDir.components ≠ []) {ds : List Component}
    (hcs : cs = l.baseDir.components ++ ds) : l.Relocates p (outDir.components ++ ds) t := by
  rw [hcs, List.append_assoc] at h
  have hpieces : ∀ d ∈ ds ++ [.name t], d.IsPiece := (h ▸ hp.written).isPiece_of_append hbase
  constructor
  · rw [relocate, hout]
    dsimp only
    rw [relativeTo?_append hp hbase h, List.append_assoc]
    exact join_ofComponents hnormal (by simp) hpieces
  · rw [List.append_assoc]
    exact hnormal.written.append hpieces

/-- Under an empty base directory, a relative source keeps all of its directories. -/
theorem relocates_of_relative (hbase : l.baseDir.components = [])
    (hrelative : p.isAbsolute = false) : l.Relocates p (outDir.components ++ cs) t := by
  have hpieces : ∀ c ∈ cs ++ [.name t], c.IsPiece := by
    rw [← h]
    exact hp.isPiece_of_relative hrelative
  constructor
  · rw [relocate, hout]
    dsimp only
    rw [relativeTo?_of_empty hp hbase, ← hp.ofComponents_eq, h, List.append_assoc]
    exact join_ofComponents hnormal (by simp) hpieces
  · rw [List.append_assoc]
    exact hnormal.written.append hpieces

theorem relocates_outside (hbase : ¬ l.baseDir.components <+: p.components) :
    l.Relocates p outDir.components t := by
  have hpiece : ∀ d ∈ [Component.name t], d.IsPiece := fun d hd =>
    List.mem_singleton.mp hd ▸ (h ▸ hp.written).last_isPiece
  have hname : p.fileName? = some t := by
    rw [← hp.ofComponents_eq, h]
    exact fileName?_ofComponents (h ▸ hp.written)
  constructor
  · rw [relocate, hout]
    dsimp only
    rw [relativeTo?_elsewhere hbase, hname]
    exact join_ofComponents hnormal (List.cons_ne_nil _ _) hpiece
  · exact hnormal.written.append hpiece

end

end OutputLayout

namespace BuildConfiguration

variable {c : BuildConfiguration}

theorem outDir_isNormal {outDir : Path} (h : c.outDir = some outDir) : outDir.IsNormal := by
  obtain ⟨dir, _, rfl⟩ := Option.map_eq_some_iff.mp h
  exact Path.normalize_isNormal _

/-- The directory of a project file is in normal form, but for the one that is written as a dot. -/
theorem configDir_isNormal (h : c.configPath.IsNormal) (habsolute : c.configDir.isAbsolute = true) :
    c.configDir.IsNormal := by
  unfold configDir at habsolute ⊢
  split
  · next hdir =>
    rw [hdir] at habsolute
    exact absurd habsolute (by decide)
  · next hdir =>
    rw [hdir] at habsolute
    exact absurd habsolute (by decide)
  · next dir hdir => exact h.parent? hdir

theorem baseDir_isNormal (h : c.configPath.IsNormal) (habsolute : c.baseDir.isAbsolute = true) :
    c.baseDir.IsNormal := by
  unfold baseDir at habsolute ⊢
  cases hroot : c.options.rootDir with
  | none =>
    rw [hroot] at habsolute
    exact configDir_isNormal h habsolute
  | some root => exact Path.normalize_isNormal _

end BuildConfiguration

end IncrementalBuild
