import IncrementalBuild.Proofs.ArtifactOrder
import IncrementalBuild.Proofs.CompilerRuns
import IncrementalBuild.Proofs.HeaderLines
/-!
# The header of declarations

The declarations of a file start with the references of the file, each between double quotes, and
the lines that follow are code. So they are read as the references of the file, as long as no path
has a double quote in it: such a path ends at its first double quote when it is read back, and is
lost if that stands at its start.
-/
namespace IncrementalBuild

open Text

namespace Header

/-! ## Paths between double quotes -/

/-- What is read of a path between double quotes. It ends at the first double quote. -/
def quotedPart? (raw : Text) : Option Text :=
  let part := raw.takeWhile (· != '"')
  if part = [] then none else some part

theorem quotedPart?_eq_some_self_iff {raw : Text} (hne : raw ≠ []) :
    quotedPart? raw = some raw ↔ '"' ∉ raw := by
  unfold quotedPart?
  dsimp only
  constructor
  · intro h hmem
    split at h
    · cases h
    · have hself := List.takeWhile_eq_self_iff.mp (Option.some.inj h)
      exact absurd (hself '"' hmem) (by decide)
  · intro hquote
    have hself : raw.takeWhile (· != '"') = raw :=
      List.takeWhile_eq_self_iff.mpr fun c hc => bne_iff_ne.mpr fun heq => hquote (heq ▸ hc)
    rw [hself, if_neg hne]

/-- What references say apart from their places: the paths as they are written, and the paths they
name. -/
def targets (references : List Reference) : List (Text × Path) :=
  references.map fun r => (r.raw, r.path)

theorem targets_append (rs rs' : List Reference) :
    targets (rs ++ rs') = targets rs ++ targets rs' := List.map_append

theorem splitAt?_quoted (raw : Text) : ∃ closing, "/>".toList <:+: closing ∧
    splitAt? ['"'] (raw ++ "\" />".toList) = some (raw.takeWhile (· != '"'), closing) := by
  have hparts : raw.takeWhile (· != '"') ++ raw.dropWhile (· != '"') = raw :=
    List.takeWhile_append_dropWhile
  have hpart : '"' ∉ raw.takeWhile (· != '"') := fun hmem =>
    absurd (List.mem_takeWhile_imp hmem) (by decide)
  have hquote := List.head?_dropWhile_not (· != '"') raw
  generalize raw.takeWhile (· != '"') = part at hparts hpart
  cases hrest : raw.dropWhile (· != '"') with
  | nil =>
    rw [hrest, List.append_nil] at hparts
    exact ⟨" />".toList, by decide, hparts ▸ splitAt?_singleton hpart _⟩
  | cons c rest =>
    rw [hrest] at hquote hparts
    obtain rfl : c = '"' := by simpa using hquote
    refine ⟨rest ++ "\" />".toList, ⟨rest ++ "\" ".toList, [], ?_⟩, ?_⟩
    · rw [List.append_nil, List.append_assoc]
      rfl
    · rw [← hparts, List.append_assoc]
      exact splitAt?_singleton hpart _

theorem markerPath?_quoted (raw : Text) :
    markerPath? (" <reference path=\"".toList ++ (raw ++ "\" />".toList)) =
      (quotedPart? raw).map fun part => (" <reference path=\"".toList, part) := by
  obtain ⟨closing, hclosing, hsplit⟩ := splitAt?_quoted raw
  generalize raw ++ "\" />".toList = value at hsplit
  have htag : after? "<reference" (trimStart (" <reference path=\"".toList ++ value)) =
      some (" path=\"".toList ++ value) := rfl
  have hname : afterBlanks? (" path=\"".toList ++ value) = some ("path=\"".toList ++ value) := rfl
  have hequals : after? "path" ("path=\"".toList ++ value) = some ("=\"".toList ++ value) := rfl
  have hopening : after? "=" (trimStart ("=\"".toList ++ value)) = some ('"' :: value) := rfl
  have hvalue : trimStart ('"' :: value) = '"' :: value := rfl
  have hmem : '"' ∈ quotes := by decide
  simp only [markerPath?, Option.bind_eq_bind, htag, hname, hequals, hopening, hvalue,
    Option.bind_some, if_pos hmem, hsplit, contains_iff.mpr hclosing, take_before, quotedPart?]
  split <;> simp_all

end Header

namespace PassThrough

open Header

variable {file : FileId} {directory : Path} {offset : Nat}

theorem trim_referenceLine (r : Reference) : trim (referenceLine r) =
    '/' :: '/' :: '/' :: (" <reference path=\"".toList ++ (r.raw ++ "\" />".toList)) := by
  have hstart : "/// <reference path=\"".toList =
      '/' :: '/' :: '/' :: " <reference path=\"".toList := by decide
  have hend : "\" />\n".toList = "\" /".toList ++ '>' :: ['\n'] := by decide
  have hkept : "\" /".toList ++ '>' :: trimEnd ['\n'] = "\" />".toList := by decide
  have hline : referenceLine r = ('/' :: '/' :: '/' :: " <reference path=\"".toList) ++ r.raw ++
      ("\" /".toList ++ '>' :: ['\n']) :=
    congrArg₂ (fun lead last => lead ++ r.raw ++ last) hstart hend
  rw [trim, hline, ← List.append_assoc, List.cons_append, List.cons_append, List.cons_append,
    trimStart_cons (by decide), ← List.cons_append, trimEnd_append_cons _ (by decide), ← hkept]
  simp only [List.append_assoc, List.cons_append]

theorem reference?_referenceLine (r : Reference) :
    targets (reference? file directory offset (referenceLine r)).toList =
      ((quotedPart? r.raw).map fun part => (part, directory.resolve ⟨part⟩)).toList := by
  have hkind := lineKind_eq_tripleSlash_iff.mpr (trim_referenceLine r)
  simp only [reference?, hkind, markerPath?_quoted]
  cases quotedPart? r.raw <;> rfl

theorem next_referenceLine (r : Reference) :
    Progress.next .outside (referenceLine r) = .outside := by
  have hkind := lineKind_eq_tripleSlash_iff.mpr (trim_referenceLine r)
  simp only [Progress.next, progress, hkind]
  rfl

theorem exists_referenceLine {r : Reference} (h : '\n' ∉ r.raw) :
    ∃ line, '\n' ∉ line ∧ referenceLine r = line ++ ['\n'] := by
  have hend : "\" />\n".toList = "\" />".toList ++ ['\n'] := by decide
  refine ⟨"/// <reference path=\"".toList ++ r.raw ++ "\" />".toList, ?_, ?_⟩
  · rw [List.mem_append, List.mem_append, not_or, not_or]
    exact ⟨⟨by decide, h⟩, by decide⟩
  · rw [List.append_assoc _ _ ['\n'], ← hend]
    rfl

/-! ## Lines that declare something -/

theorem lineKind_code {c : Char} (hc : c ≠ '/') (t : Text) : lineKind (c :: t) = .code := by
  unfold lineKind
  split <;> simp_all

theorem exists_first {line : Text} (h : isDeclarationLine line = true) :
    ∃ b c t, allBlank b = true ∧ isBlank c = false ∧ c ≠ '/' ∧ line = b ++ c :: t := by
  rw [isDeclarationLine, Bool.or_eq_true, Option.isSome_iff_exists, Option.isSome_iff_exists] at h
  have hline := indent_append_trimStart line
  rcases h with ⟨rest, hrest⟩ | ⟨rest, hrest⟩
  · rw [← after?_eq hrest] at hline
    exact ⟨indent line, 'e', "xport ".toList ++ rest, indent_allBlank line, by decide, by decide,
      hline.symm⟩
  · rw [← after?_eq hrest] at hline
    exact ⟨indent line, 'd', "eclare ".toList ++ rest, indent_allBlank line, by decide, by decide,
      hline.symm⟩

theorem lineKind_declaration {line : Text} (h : isDeclarationLine line = true) :
    lineKind (trim (trimEnd line ++ ['\n'])) = .code := by
  obtain ⟨b, c, t, hb, hc, hslash, rfl⟩ := exists_first h
  rw [trim_append_blank _ (by decide), trimEnd_append_cons b hc, trim, trimStart_append hb,
    trimStart_cons hc, ← List.nil_append (c :: trimEnd t), trimEnd_append_cons [] hc]
  exact lineKind_code hslash _

theorem scanFrom_declarations {lines : List Text} (h : ∀ l ∈ lines, isDeclarationLine l = true) :
    scanFrom file directory offset (lines.map (trimEnd · ++ ['\n'])) .outside = [] := by
  cases lines with
  | nil => rfl
  | cons line lines =>
    have hkind := lineKind_declaration (h line List.mem_cons_self)
    have hnone : reference? file directory offset (trimEnd line ++ ['\n']) = none := by
      simp only [reference?, hkind]
    have hnext : Progress.next .outside (trimEnd line ++ ['\n']) = .over := by
      simp only [Progress.next, progress, hkind]
      rfl
    rw [List.map_cons, scanFrom_cons, hnone, hnext]
    rfl

/-- The lines of references are read one by one, and what follows has none. -/
theorem targets_scanFrom {rest : List Text}
    (hrest : ∀ offset, scanFrom file directory offset rest .outside = []) (refs : List Reference) :
    targets (scanFrom file directory offset (refs.map referenceLine ++ rest) .outside) =
      refs.filterMap fun r => (quotedPart? r.raw).map fun part =>
        (part, directory.resolve ⟨part⟩) := by
  induction refs generalizing offset with
  | nil => rw [List.map_nil, List.nil_append, hrest]; rfl
  | cons r refs ih =>
    rw [List.map_cons, List.cons_append, scanFrom_cons, if_pos rfl, next_referenceLine,
      targets_append, ih, reference?_referenceLine, List.filterMap_cons]
    cases quotedPart? r.raw <;> rfl

theorem linesInclusive_declarationText {f : SourceFile} (hf : f.Made) :
    linesInclusive (declarationText f) = f.references.map referenceLine ++
      ((Text.lines f.content).filter isDeclarationLine).map (trimEnd · ++ ['\n']) := by
  rw [declarationText, List.flatMap_def, List.flatMap_def, ← List.flatten_append]
  apply linesInclusive_flatten
  intro l hl
  rcases List.mem_append.mp hl with hl | hl
  · obtain ⟨r, hr, rfl⟩ := List.mem_map.mp hl
    exact exists_referenceLine (not_mem_raw (hf.references ▸ hr))
  · obtain ⟨line, hline, rfl⟩ := List.mem_map.mp hl
    have hnewline := not_mem_lines f.content line (List.mem_filter.mp hline).1
    exact ⟨trimEnd line, fun h => hnewline ((dropEndWhile_starts isBlank line).subset h), rfl⟩

theorem targets_declarationText {f : SourceFile} (hf : f.Made) (file : FileId) :
    targets (references file f.path (declarationText f)) =
      f.references.filterMap fun r => (quotedPart? r.raw).map fun part =>
        (part, (f.path.parent?.getD ⟨[]⟩).resolve ⟨part⟩) := by
  rw [references_eq_scanFrom, linesInclusive_declarationText hf]
  exact targets_scanFrom (fun _ => scanFrom_declarations fun l hl => (List.mem_filter.mp hl).2) _

/-- It is what the references of the file say, exactly if no path has a double quote. -/
theorem targets_declarationText_iff {f : SourceFile} (hf : f.Made) (file : FileId) :
    targets (references file f.path (declarationText f)) = targets f.references ↔
      ∀ r ∈ f.references, '"' ∉ r.raw := by
  rw [targets_declarationText hf, targets, List.filterMap_eq_map_iff_forall_eq_some]
  refine forall₂_congr fun r hr => ?_
  rw [hf.references] at hr
  rw [path_eq hr, ← quotedPart?_eq_some_self_iff (raw_ne_nil hr),
    Option.map_eq_some_iff]
  constructor
  · rintro ⟨part, hpart, heq⟩
    rw [hpart, (Prod.mk.inj heq).1]
  · exact fun h => ⟨r.raw, h, rfl⟩

/-! ## The declarations of a result -/

theorem artifact_source (f : SourceFile) (withDeclaration : Bool) :
    (artifact f withDeclaration).source = f.path := by
  unfold artifact
  split <;> rfl

theorem artifact_of_source {f : SourceFile} (h : f.isDeclaration = false) :
    artifact f true = ⟨f.path, some f.content, some (declarationText f)⟩ := by
  rw [artifact, if_neg (Bool.eq_false_iff.mp h), if_pos rfl]

/-- The artifact of a source stays while artifacts of other sources are put in. -/
theorem artifact?_foldl {analyses : List Analysis} {p : Path}
    (h : ∀ a ∈ analyses, a.artifact.source.same p = false) (r : CompileResult) :
    (analyses.foldl (fun r a => (r.insert a.artifact).report a.diagnostics) r).artifact? p =
      r.artifact? p := by
  induction analyses generalizing r with
  | nil => rfl
  | cons a analyses ih =>
    have ha : (r.insert a.artifact).artifact? p = r.artifact? p := by
      rw [r.artifact?_insert, h a List.mem_cons_self]
      rfl
    rw [List.foldl_cons, ih fun b hb => h b (List.mem_cons_of_mem a hb), ← ha]
    rfl

/-- A result has the artifact of each analysis, if these are about different sources. -/
theorem collect_artifact? {analyses : List Analysis}
    (hdistinct : (analyses.map fun a => a.artifact.source.components).Nodup) {a : Analysis}
    (ha : a ∈ analyses) :
    (collect analyses).artifact? a.artifact.source = some a.artifact := by
  obtain ⟨before, after, rfl⟩ := List.append_of_mem ha
  rw [List.map_append, List.map_cons] at hdistinct
  have hafter : ∀ b ∈ after, b.artifact.source.same a.artifact.source = false := by
    intro b hb
    rw [Bool.eq_false_iff, ne_eq, Path.same_iff]
    intro heq
    exact (List.nodup_cons.mp (List.nodup_append.mp hdistinct).2.1).1
      (heq ▸ List.mem_map_of_mem (f := fun b : Analysis => b.artifact.source.components) hb)
  have hself : a.artifact.source.same a.artifact.source = true := Path.same_iff.mpr rfl
  rw [collect, List.foldl_append, List.foldl_cons, artifact?_foldl hafter]
  show (CompileResult.insert _ a.artifact).artifact? a.artifact.source = _
  rw [CompileResult.artifact?_insert, if_pos hself]

end PassThrough

namespace CompileCall

open Header PassThrough

variable {calls : List CompileCall} {call : CompileCall} {result : CompileResult} {f : SourceFile}

/-- Whatever the compiler was called for before, its result adds up what it finds of the files of
the cycle, or of files that pass for them. -/
theorem answer_eq_collect (hresult : (call.answer (memoAfter calls)).1 = .ok result) :
    ∃ gs : List SourceFile, List.Forall₂
      (fun g f => g.PassesFor f ∧ g.content ∈ shown (call :: calls)) gs call.sources.files ∧
      result = collect (gs.map (analyze · call.config.options.declaration)) := by
  have hin := mem_shown (List.mem_cons_self (a := call) (l := calls))
  have hvalid : (memoAfter calls).Valid (shown (call :: calls)) :=
    memoAfter_valid calls fun c hc => mem_shown (List.mem_cons_of_mem call hc)
  obtain ⟨gs, hgs, hfresh⟩ :=
    compile_eq_passing call.sources_made hin call.config call.changes hvalid
  exact ⟨gs, hgs, compileFresh_eq_ok (hfresh.symm.trans hresult)⟩

/-- Its result has the artifact of each file, or of one that passes for it. -/
theorem artifact?_answer (hresult : (call.answer (memoAfter calls)).1 = .ok result)
    (hf : f ∈ call.sources.files) : ∃ g : SourceFile, g.PassesFor f ∧
      g.content ∈ shown (call :: calls) ∧
      result.artifact? f.path = some (artifact g call.config.options.declaration) := by
  obtain ⟨gs, hgs, rfl⟩ := answer_eq_collect hresult
  obtain ⟨g, hg, hpasses, hgin⟩ := exists_of_forall₂ hgs.flip hf
  refine ⟨g, hpasses, hgin, ?_⟩
  have hpaths : gs.map SourceFile.path = call.sources.files.map SourceFile.path := by
    rw [← List.forall₂_eq_eq_eq, List.forall₂_map_left_iff, List.forall₂_map_right_iff]
    exact hgs.imp fun _ _ h => h.1.path
  have hdistinct := (Cache.runSteps_sound call.steps).nodup_components
    (Cache.runSteps_normal call.steps)
  have hsources : (gs.map (analyze · call.config.options.declaration)).map
      (fun a => a.artifact.source.components) =
      (call.sources.files.map SourceFile.path).map Path.components := by
    rw [← hpaths, List.map_map, List.map_map]
    exact List.map_congr_left fun g _ => congrArg Path.components (artifact_source g _)
  have hfound := collect_artifact? (hsources ▸ hdistinct) (List.mem_map_of_mem hg)
  rw [← hpasses.path]
  rwa [show (analyze g call.config.options.declaration).artifact.source = g.path from
    artifact_source g _] at hfound

/-- What is read of the declarations that the compiler gives for a source file, whatever it was
called for before: the references of the file, in their order, up to the first double quote of each
path. This is what the file itself refers to exactly if no path has a double quote. If another
content with the same hash was shown to the compiler, then the references can be those of a file
with that content. -/
theorem declarations_read_back (calls : List CompileCall) (call : CompileCall)
    (result : CompileResult) (hresult : (call.answer (memoAfter calls)).1 = .ok result)
    (hdeclaration : call.config.options.declaration = true) (f : SourceFile)
    (hf : f ∈ call.sources.files) (hsource : f.isDeclaration = false) (file : FileId) :
    ∃ a text, result.artifact? f.path = some a ∧ a.declaration = some text ∧
      ∃ g : SourceFile, g.PassesFor f ∧
      ((∀ content ∈ shown (call :: calls), ContentHash.ofText content = f.hash →
        content = f.content) → g.references = f.references) ∧
      targets (references file f.path text) = (g.references.filterMap fun r =>
        (quotedPart? r.raw).map fun part => (part, (f.path.parent?.getD ⟨[]⟩).resolve ⟨part⟩)) ∧
      (targets (references file f.path text) = targets g.references ↔
        ∀ r ∈ g.references, '"' ∉ r.raw) := by
  obtain ⟨g, hpasses, hgin, hfound⟩ := artifact?_answer hresult hf
  have hgsource : g.isDeclaration = false := by
    rwa [SourceFile.isDeclaration, hpasses.path]
  rw [hdeclaration, artifact_of_source hgsource] at hfound
  refine ⟨_, declarationText g, hfound, rfl, g, hpasses, fun hunique => ?_, ?_, ?_⟩
  · have hcontent : g.content = f.content :=
      hunique g.content hgin (hpasses.made.hash.symm.trans hpasses.hash)
    rw [hpasses.made.references, (call.sources_made f hf).references, hpasses.id, hpasses.path,
      hcontent]
  · rw [← hpasses.path]
    exact targets_declarationText hpasses.made file
  · rw [← hpasses.path]
    exact targets_declarationText_iff hpasses.made file

/-! ## A path with a double quote -/

/-- A file with two markers, the second of which has a double quote in its path. -/
def quotedText : Text :=
  "/// <reference path='b.ts' />\n/// <reference path='c\"d.ts' />\nexport let a;\n"

/-- A call on this file, with declarations on. -/
def quoted : CompileCall :=
  let options := { CompilerOptions.empty with declaration := true }
  ⟨.of "/p/project.json" { ProjectConfig.empty with options } ⟨false, false, .resolution⟩,
    [.upsert "/p/a.ts" quotedText, .reset], .empty⟩

/-- The file as it is committed. -/
def quotedFile : SourceFile := .ofContent 0 "/p/a.ts" quotedText 1

/-- What the file says. -/
def quotedTargets : List (Text × Path) := [("b.ts", "/p/b.ts"), ("c\"d.ts", "/p/c\"d.ts")]

/-- What its declarations say. -/
def cutTargets : List (Text × Path) := [("b.ts", "/p/b.ts"), ("c", "/p/c")]

theorem files_quoted : quoted.sources.files = [quotedFile] := by decide +kernel

theorem shown_quoted : ∀ content ∈ shown [quoted], content = quotedText := by
  rintro content ⟨call, hcall, f, hf, rfl⟩
  rw [List.mem_singleton.mp hcall, files_quoted, List.mem_singleton] at hf
  rw [hf]
  rfl

theorem answer_quoted :
    (quoted.answer (memoAfter [])).1 = .ok (collect [analyze quotedFile true]) := by
  have hin := mem_shown (List.mem_singleton_self quoted)
  have hinj : Set.InjOn ContentHash.ofText (shown [quoted]) := fun content h content' h' _ =>
    (shown_quoted content h).trans (shown_quoted content' h').symm
  have hanswer := compile_eq quoted.sources_made hin quoted.config quoted.changes Memo.empty_valid
    hinj
  rw [files_quoted] at hanswer
  exact hanswer

theorem declarations_read_back_of_quoted :
    (quoted.answer (memoAfter [])).1 = .ok (collect [analyze quotedFile true]) ∧
    quoted.config.options.declaration = true ∧ quotedFile ∈ quoted.sources.files ∧
    quotedFile.isDeclaration = false ∧
    ∃ a text, (collect [analyze quotedFile true]).artifact? "/p/a.ts" = some a ∧
      a.declaration = some text ∧ targets (references 0 "/p/a.ts" text) = cutTargets := by
  have hfile : quotedFile ∈ quoted.sources.files := files_quoted ▸ List.mem_singleton_self _
  have hsource : quotedFile.isDeclaration = false := by decide
  obtain ⟨a, text, ha, htext, g, _, hsame, htargets, _⟩ := declarations_read_back [] quoted _
    answer_quoted rfl quotedFile hfile hsource 0
  refine ⟨answer_quoted, rfl, hfile, hsource, a, text, ha, htext, htargets.trans ?_⟩
  rw [hsame fun content hshown _ => shown_quoted content hshown]
  decide +kernel

/-- The declarations of this file are read as a reference to another path than its own. -/
theorem quoted_path_cut_off : ∃ result f a text,
    (quoted.answer (memoAfter [])).1 = .ok result ∧ quoted.config.options.declaration = true ∧
    f ∈ quoted.sources.files ∧ f.isDeclaration = false ∧ result.artifact? f.path = some a ∧
    a.declaration = some text ∧ targets f.references = quotedTargets ∧
    targets (references 0 f.path text) = cutTargets := by
  have hfile : quotedFile ∈ quoted.sources.files := files_quoted ▸ List.mem_singleton_self _
  have hsource : quotedFile.isDeclaration = false := by decide
  have hfound : (collect [analyze quotedFile true]).artifact? quotedFile.path =
      some (artifact quotedFile true) := by decide +kernel
  rw [artifact_of_source hsource] at hfound
  exact ⟨_, quotedFile, _, declarationText quotedFile, answer_quoted, rfl, hfile, hsource, hfound,
    rfl, by decide +kernel, by decide +kernel⟩

end CompileCall

end IncrementalBuild
