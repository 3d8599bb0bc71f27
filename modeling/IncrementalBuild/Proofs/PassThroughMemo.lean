import IncrementalBuild.Proofs.CacheEntry
import IncrementalBuild.Proofs.Renaming
import Mathlib.Data.List.Forall2
/-!
# The memory of the pass-through compiler

The compiler remembers the analyses it made. The invariant of its memory is that every analysis in
it is one of a file under its path. If no two contents have one hash, then the compiler gives what
it would give without any memory.
-/
namespace IncrementalBuild

/-- A file is what its id, its path and its content make it, but for its version and its mark. -/
theorem SourceFile.Made.bare_eq {f g : SourceFile} (hf : f.Made) (hg : g.Made)
    (hid : f.id = g.id) (hp : f.path = g.path) (hc : f.content = g.content) :
    f.bare = g.bare := by
  have hhash : f.hash = g.hash := by rw [hf.hash, hg.hash, hc]
  have hrefs : f.references = g.references := by
    rw [hf.references, hg.references, hid, hp, hc]
  have hlines : f.lineTable = g.lineTable := by rw [hf.lines, hg.lines, hc]
  simp only [SourceFile.bare, hid, hp, hc, hhash, hrefs, hlines]

/-- A file passes for another one if nothing that the compiler compares tells them apart. -/
structure SourceFile.PassesFor (g f : SourceFile) : Prop where
  made : g.Made
  id : g.id = f.id
  path : g.path = f.path
  hash : g.hash = f.hash

theorem SourceFile.PassesFor.content_eq {g f : SourceFile} (h : g.PassesFor f) (hf : f.Made)
    {contents : Set Text} (hinj : Set.InjOn ContentHash.ofText contents)
    (hg : g.content ∈ contents) (hin : f.content ∈ contents) : g.content = f.content := by
  apply hinj hg hin
  rw [← h.made.hash, ← hf.hash]
  exact h.hash

/-- A member of a list has a partner in a list that is related to it. -/
theorem exists_of_forall₂ {α β : Type} {R : α → β → Prop} {xs : List α} {ys : List β}
    (h : List.Forall₂ R xs ys) {x : α} (hx : x ∈ xs) : ∃ y ∈ ys, R x y := by
  induction h with
  | nil => cases hx
  | cons hxy _ ih =>
    rcases List.mem_cons.mp hx with rfl | hx
    · exact ⟨_, List.mem_cons_self, hxy⟩
    · obtain ⟨y, hy, hxy⟩ := ih hx
      exact ⟨y, List.mem_cons_of_mem _ hy, hxy⟩

/-- Every analysis is one of a file with a content of `contents`, under the path of the file. -/
def Memo.Valid (contents : Set Text) (m : Memo) : Prop :=
  ∀ x ∈ m.analyses, ∃ f : SourceFile, f.Made ∧ f.content ∈ contents ∧ f.path = x.1 ∧
    x.2 = PassThrough.analyze f x.2.withDeclaration

namespace Memo

variable {contents : Set Text} {m : Memo}

theorem empty_valid : empty.Valid contents := fun _ hx => absurd hx List.not_mem_nil

theorem Valid.mono (h : m.Valid contents) {contents' : Set Text} (hsub : contents ⊆ contents') :
    m.Valid contents' := by
  intro x hx
  obtain ⟨f, hf, hin, hp, ha⟩ := h x hx
  exact ⟨f, hf, hsub hin, hp, ha⟩

theorem Valid.get? (h : m.Valid contents) {p : Path} {a : Analysis} (ha : m.get? p = some a) :
    ∃ f : SourceFile, f.Made ∧ f.content ∈ contents ∧ f.path = p ∧
      a = PassThrough.analyze f a.withDeclaration := by
  obtain ⟨x, hx, rfl⟩ := Option.map_eq_some_iff.mp ha
  obtain ⟨f, hf, hin, hp, ha⟩ := h x (List.mem_of_find?_eq_some hx)
  have hxp : x.1 = p := by simpa using List.find?_some hx
  exact ⟨f, hf, hin, hp.trans hxp, ha⟩

theorem Valid.learn (h : m.Valid contents) {f : SourceFile} (hf : f.Made)
    (hin : f.content ∈ contents) (declaration : Bool) :
    (m.learn f.path (PassThrough.analyze f declaration)).Valid contents := by
  intro x hx
  rcases List.mem_cons.mp hx with rfl | hx
  · exact ⟨f, hf, hin, rfl, rfl⟩
  · exact h x (List.mem_filter.mp hx).1

end Memo

namespace PassThrough

/-- An analysis is a function of the id, the path and the content of its file. -/
theorem analyze_congr {f g : SourceFile} (hf : f.Made) (hg : g.Made) (hid : f.id = g.id)
    (hp : f.path = g.path) (hc : f.content = g.content) (declaration : Bool) :
    analyze f declaration = analyze g declaration := by
  rw [← analyze_bare f, ← analyze_bare g, hf.bare_eq hg hid hp hc]

/-! ## Looking at one file -/

theorem consult_cases (changes : ChangeSet) (declaration : Bool) (m : Memo) (f : SourceFile) :
    (∃ a, m.get? f.path = some a ∧ fits a f declaration = true ∧
      consult changes declaration m f = (a, m)) ∨
    consult changes declaration m f =
      (analyze f declaration, m.learn f.path (analyze f declaration)) := by
  unfold consult
  dsimp only
  split
  · next a ha =>
    split at ha
    · cases ha
    · obtain ⟨hget, hfits⟩ := Option.filter_eq_some_iff.mp ha
      exact Or.inl ⟨a, hget, hfits, rfl⟩
  · exact Or.inr rfl

section
variable {contents : Set Text} {m : Memo} (hm : m.Valid contents) {f : SourceFile} (hf : f.Made)
  (hin : f.content ∈ contents) (changes : ChangeSet) (declaration : Bool)
include hm hf hin

theorem consult_valid : (consult changes declaration m f).2.Valid contents := by
  rcases consult_cases changes declaration m f with ⟨a, _, _, heq⟩ | heq
  · rw [heq]
    exact hm
  · rw [heq]
    exact hm.learn hf hin declaration

/-- What is found of a file is what would be found of a file that passes for it. -/
theorem consult_passes : ∃ g : SourceFile, g.PassesFor f ∧ g.content ∈ contents ∧
    (consult changes declaration m f).1 = analyze g declaration := by
  rcases consult_cases changes declaration m f with ⟨a, hget, hfits, heq⟩ | heq
  · rw [heq]
    obtain ⟨g, hg, hgin, hp, ha⟩ := hm.get? hget
    simp only [fits, Bool.and_eq_true, beq_iff_eq] at hfits
    obtain ⟨⟨hid, hhash⟩, hdecl⟩ := hfits
    rw [ha] at hid hhash
    exact ⟨g, ⟨hg, hid, hp, hhash⟩, hgin, hdecl ▸ ha⟩
  · rw [heq]
    exact ⟨f, ⟨hf, rfl, rfl, rfl⟩, hin, rfl⟩

theorem consult_eq (hinj : Set.InjOn ContentHash.ofText contents) :
    (consult changes declaration m f).1 = analyze f declaration := by
  obtain ⟨g, hg, hgin, heq⟩ := consult_passes hm hf hin changes declaration
  rw [heq]
  exact analyze_congr hg.made hf hg.id hg.path (hg.content_eq hf hinj hgin hin) declaration

end

/-! ## Compiling -/

section
variable {contents : Set Text} {files : List SourceFile} (hfiles : ∀ f ∈ files, f.Made)
  (hin : ∀ f ∈ files, f.content ∈ contents) (changes : ChangeSet) (declaration : Bool)
include hfiles hin

theorem consultAll_valid {m : Memo} (hm : m.Valid contents) :
    (consultAll changes declaration m files).2.Valid contents := by
  induction files generalizing m with
  | nil => exact hm
  | cons f rest ih =>
    have hf := hfiles f List.mem_cons_self
    have hfin := hin f List.mem_cons_self
    exact ih (fun g hg => hfiles g (List.mem_cons_of_mem f hg))
      (fun g hg => hin g (List.mem_cons_of_mem f hg)) (consult_valid hm hf hfin changes declaration)

/-- What is found of files is what would be found of files that pass for them. -/
theorem consultAll_passes {m : Memo} (hm : m.Valid contents) : ∃ gs : List SourceFile,
    List.Forall₂ (fun g f => g.PassesFor f ∧ g.content ∈ contents) gs files ∧
    (consultAll changes declaration m files).1 = gs.map (analyze · declaration) := by
  induction files generalizing m with
  | nil => exact ⟨[], .nil, rfl⟩
  | cons f rest ih =>
    have hf := hfiles f List.mem_cons_self
    have hfin := hin f List.mem_cons_self
    obtain ⟨g, hg, hgin, hfirst⟩ := consult_passes hm hf hfin changes declaration
    obtain ⟨gs, hgs, hrest⟩ := ih (fun g hg => hfiles g (List.mem_cons_of_mem f hg))
      (fun g hg => hin g (List.mem_cons_of_mem f hg)) (consult_valid hm hf hfin changes declaration)
    refine ⟨g :: gs, .cons ⟨hg, hgin⟩ hgs, ?_⟩
    rw [List.map_cons, ← hrest, ← hfirst]
    rfl

theorem consultAll_eq (hinj : Set.InjOn ContentHash.ofText contents) {m : Memo}
    (hm : m.Valid contents) :
    (consultAll changes declaration m files).1 = files.map (analyze · declaration) := by
  induction files generalizing m with
  | nil => rfl
  | cons f rest ih =>
    have hf := hfiles f List.mem_cons_self
    have hfin := hin f List.mem_cons_self
    have hrest := ih (fun g hg => hfiles g (List.mem_cons_of_mem f hg))
      (fun g hg => hin g (List.mem_cons_of_mem f hg))
      (consult_valid hm hf hfin changes declaration)
    rw [List.map_cons, ← hrest, ← consult_eq hm hf hfin changes declaration hinj]
    rfl

end

/-- What the compiler gives without a memory. -/
def compileFresh (config : BuildConfiguration) (files : List SourceFile) :
    Except CompileError CompileResult :=
  match Compile.targetFault? config.options.target with
  | some e => .error e
  | none => .ok (collect (files.map (analyze · config.options.declaration)))

theorem compileFresh_eq_ok {config : BuildConfiguration} {files : List SourceFile}
    {result : CompileResult} (h : compileFresh config files = .ok result) :
    result = collect (files.map (analyze · config.options.declaration)) := by
  unfold compileFresh at h
  split at h
  · cases h
  · cases h
    rfl

section
variable {contents : Set Text} {sources : Cache} (hfiles : ∀ f ∈ sources.files, f.Made)
  (hin : ∀ f ∈ sources.files, f.content ∈ contents) (config : BuildConfiguration)
  (changes : ChangeSet) {m : Memo} (hm : m.Valid contents)
include hfiles hin hm

theorem compile_valid : (compile config sources changes m).2.Valid contents := by
  unfold compile
  split
  · exact hm
  · intro x hx
    refine consultAll_valid hfiles hin changes config.options.declaration
      (m := { m with analyzed := [] }) hm x ?_
    exact (List.mem_filter.mp hx).1

/-- The memory of the compiler makes no difference to what it gives. -/
theorem compile_eq (hinj : Set.InjOn ContentHash.ofText contents) :
    (compile config sources changes m).1 = compileFresh config sources.files := by
  have hall := consultAll_eq hfiles hin changes config.options.declaration hinj
    (m := { m with analyzed := [] }) hm
  unfold compile compileFresh
  cases Compile.targetFault? config.options.target with
  | some e => rfl
  | none => exact congrArg (fun analyses => Except.ok (collect analyses)) hall

/-- The compiler gives what it would give without a memory for files that pass for those of the
cycle. -/
theorem compile_eq_passing : ∃ gs : List SourceFile,
    List.Forall₂ (fun g f => g.PassesFor f ∧ g.content ∈ contents) gs sources.files ∧
    (compile config sources changes m).1 = compileFresh config gs := by
  obtain ⟨gs, hgs, hall⟩ := consultAll_passes hfiles hin changes config.options.declaration
    (m := { m with analyzed := [] }) hm
  refine ⟨gs, hgs, ?_⟩
  unfold compile compileFresh
  cases Compile.targetFault? config.options.target with
  | some e => rfl
  | none => exact congrArg (fun analyses => Except.ok (collect analyses)) hall

/-- The compiler reports what it would find of files that pass for those of the cycle. -/
theorem compile_passes {result : CompileResult}
    (h : (compile config sources changes m).1 = .ok result) :
    ∀ d ∈ result.diagnostics, ∃ f ∈ sources.files, ∃ g : SourceFile, g.PassesFor f ∧
      g.content ∈ contents ∧ d ∈ conflicts g.id 0 (Text.linesInclusive g.content) := by
  obtain ⟨gs, hgs, hfresh⟩ := compile_eq_passing hfiles hin config changes hm
  rw [compileFresh_eq_ok (hfresh.symm.trans h), collect_diagnostics]
  intro d hd
  obtain ⟨a, ha, hd⟩ := List.mem_flatMap.mp hd
  obtain ⟨g, hg, rfl⟩ := List.mem_map.mp ha
  obtain ⟨f, hf, hpasses, hgin⟩ := exists_of_forall₂ hgs hg
  exact ⟨f, hf, g, hpasses, hgin, hd⟩

theorem compile_about {result : CompileResult}
    (h : (compile config sources changes m).1 = .ok result) :
    ∀ d ∈ result.diagnostics, ∃ f ∈ sources.files, d.About f.id := by
  intro d hd
  obtain ⟨f, hf, g, hg, _, hd⟩ := compile_passes hfiles hin config changes hm h d hd
  exact ⟨f, hf, hg.id ▸ conflicts_about hd⟩

end

end PassThrough

end IncrementalBuild
