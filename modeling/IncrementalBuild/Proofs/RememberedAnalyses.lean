import IncrementalBuild.Proofs.PassThroughMemo
import Mathlib.Data.List.Forall2
/-!
# What the compiler remembers of a cycle

After a cycle the compiler remembers an analysis of every file of it, the one that it used. When
the same files come again and none of them changed, it makes no analysis, uses those it remembers,
and so gives the same result. This needs nothing of the hashes: a remembered analysis is used again
whatever content it was made of.
-/
namespace IncrementalBuild

namespace Memo

variable (m : Memo)

theorem get?_learn_self (p : Path) (a : Analysis) : (m.learn p a).get? p = some a := by
  simp [get?, learn]

theorem get?_learn_of_ne {p q : Path} (hne : q ≠ p) (a : Analysis) :
    (m.learn p a).get? q = m.get? q := by
  have hfind : (m.analyses.filter (·.1 != p)).find? (·.1 == q) =
      m.analyses.find? (·.1 == q) := by
    rw [List.find?_filter]
    congr 1
    funext x
    by_cases hx : x.1 = q <;> simp [hx, hne]
  unfold get? learn
  rw [List.find?_cons_of_neg (by simpa using Ne.symm hne), hfind]

/-- What is remembered of a path stays when analyses of other paths are forgotten. -/
theorem get?_filter {keep : Path → Bool} {p : Path} (hp : keep p = true) (analyzed : List Path) :
    get? ⟨m.analyses.filter fun x => keep x.1, analyzed⟩ p = m.get? p := by
  unfold get?
  rw [List.find?_filter]
  congr 2
  funext x
  by_cases hx : x.1 = p <;> simp [hx, hp]

end Memo

namespace PassThrough

/-- The memory has an analysis of a file that fits. -/
def Recalls (declaration : Bool) (m : Memo) (f : SourceFile) (a : Analysis) : Prop :=
  m.get? f.path = some a ∧ fits a f declaration = true

section
variable (changes : ChangeSet) (declaration : Bool) (m : Memo)

/-! ## One file -/

theorem consult_recalls (f : SourceFile) :
    Recalls declaration (consult changes declaration m f).2 f
      (consult changes declaration m f).1 := by
  rcases consult_cases changes declaration m f with ⟨a, hget, hfits, heq⟩ | heq
  · rw [heq]
    exact ⟨hget, hfits⟩
  · rw [heq]
    exact ⟨m.get?_learn_self f.path _, by simp [fits, analyze]⟩

theorem consult_get?_of_ne {f : SourceFile} {q : Path} (hne : q ≠ f.path) :
    (consult changes declaration m f).2.get? q = m.get? q := by
  rcases consult_cases changes declaration m f with ⟨a, _, _, heq⟩ | heq
  · rw [heq]
  · rw [heq]
    exact m.get?_learn_of_ne hne _

theorem consult_of_recalls {m : Memo} {f : SourceFile} {a : Analysis}
    (h : Recalls declaration m f a) (hchanges : changes.contains f.path = false) :
    consult changes declaration m f = (a, m) := by
  simp [consult, hchanges, h.1, h.2, Option.filter]

/-! ## The files of a cycle -/

theorem consultAll_get?_of_not_mem {files : List SourceFile} {q : Path}
    (hq : q ∉ files.map SourceFile.path) :
    (consultAll changes declaration m files).2.get? q = m.get? q := by
  induction files generalizing m with
  | nil => rfl
  | cons f rest ih =>
    rw [List.map_cons, List.mem_cons, not_or] at hq
    exact (ih _ hq.2).trans (consult_get?_of_ne changes declaration m hq.1)

theorem consultAll_recalls {files : List SourceFile}
    (hpaths : (files.map SourceFile.path).Nodup) :
    List.Forall₂ (Recalls declaration (consultAll changes declaration m files).2) files
      (consultAll changes declaration m files).1 := by
  induction files generalizing m with
  | nil => exact .nil
  | cons f rest ih =>
    rw [List.map_cons, List.nodup_cons] at hpaths
    obtain ⟨hget, hfits⟩ := consult_recalls changes declaration m f
    refine .cons ⟨?_, hfits⟩ (ih _ hpaths.2)
    exact (consultAll_get?_of_not_mem changes declaration _ hpaths.1).trans hget

theorem consultAll_of_recalls {m : Memo} {files : List SourceFile} {analyses : List Analysis}
    (h : List.Forall₂ (Recalls declaration m) files analyses)
    (hchanges : ∀ f ∈ files, changes.contains f.path = false) :
    consultAll changes declaration m files = (analyses, m) := by
  induction h with
  | nil => rfl
  | cons hhead _ ih =>
    have hconsult := consult_of_recalls changes declaration hhead
      (hchanges _ List.mem_cons_self)
    simp only [consultAll, hconsult, ih fun f hf => hchanges f (List.mem_cons_of_mem _ hf)]

end

/-! ## A cycle -/

theorem compile_refused {config : BuildConfiguration} {e : CompileError}
    (h : Compile.targetFault? config.options.target = some e) (sources : Cache)
    (changes : ChangeSet) (m : Memo) : compile config sources changes m = (.error e, m) := by
  simp [compile, h]

theorem compile_accepted {config : BuildConfiguration}
    (h : Compile.targetFault? config.options.target = none) (sources : Cache)
    (changes : ChangeSet) (m : Memo) : compile config sources changes m =
      let all := consultAll changes config.options.declaration { m with analyzed := [] }
        sources.files
      (.ok (collect all.1),
        { all.2 with analyses := all.2.analyses.filter fun (p, _) => sources.contains p }) := by
  simp [compile, h]

theorem target_of_compile {config : BuildConfiguration} {sources : Cache} {changes : ChangeSet}
    {m : Memo} {result : CompileResult} (h : (compile config sources changes m).1 = .ok result) :
    Compile.targetFault? config.options.target = none := by
  cases hfault : Compile.targetFault? config.options.target with
  | none => rfl
  | some e =>
    rw [compile_refused hfault] at h
    cases h

section
variable {config : BuildConfiguration} {sources : Cache} (changes : ChangeSet) (m : Memo)
  (htarget : Compile.targetFault? config.options.target = none)
  (hpaths : (sources.files.map SourceFile.path).Nodup)
  (hkept : ∀ f ∈ sources.files, sources.contains f.path = true)
include htarget hpaths hkept

/-- After a cycle the memory has the analyses that were used for it. -/
theorem compile_recalls :
    List.Forall₂ (Recalls config.options.declaration (compile config sources changes m).2)
      sources.files (consultAll changes config.options.declaration { m with analyzed := [] }
        sources.files).1 := by
  have hall := consultAll_recalls changes config.options.declaration { m with analyzed := [] }
    hpaths
  rw [compile_accepted htarget]
  refine ((List.forall₂_and_left _ _).mpr ⟨hkept, hall⟩).imp fun f a h => ?_
  exact ⟨(Memo.get?_filter _ h.1 _).trans h.2.1, h.2.2⟩

end

/-- When the files of a cycle are compiled again and none of them changed, the compiler gives the
same result and looks at no file. -/
theorem compile_again {sources sources' : Cache} (hfiles : sources'.files = sources.files)
    (hpaths : (sources.files.map SourceFile.path).Nodup)
    (hkept : ∀ f ∈ sources.files, sources.contains f.path = true) {config : BuildConfiguration}
    {changes changes' : ChangeSet}
    (hchanges : ∀ f ∈ sources.files, changes'.contains f.path = false) {m : Memo}
    {result : CompileResult} (hok : (compile config sources changes m).1 = .ok result) :
    (compile config sources' changes' (compile config sources changes m).2).1 = .ok result ∧
      (compile config sources' changes' (compile config sources changes m).2).2.analyzed = [] := by
  have htarget := target_of_compile hok
  have hrecalls := compile_recalls changes m htarget hpaths hkept
  -- the memory that is left has every analysis of the cycle
  have hagain := consultAll_of_recalls changes' config.options.declaration
    (m := { (compile config sources changes m).2 with analyzed := [] }) hrecalls hchanges
  rw [compile_accepted htarget] at hok
  rw [compile_accepted htarget sources']
  simp only [hfiles, hagain, and_true]
  exact hok

end PassThrough

end IncrementalBuild
