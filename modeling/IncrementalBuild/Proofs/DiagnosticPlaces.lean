import Mathlib.Data.List.Lex
import Mathlib.Data.Prod.Lex
import IncrementalBuild.Proofs.CycleReports
import IncrementalBuild.Proofs.EqualHashes
import IncrementalBuild.Proofs.Rebuild
import IncrementalBuild.Proofs.SilentEdits
import IncrementalBuild.Proofs.UnresolvedReferences
/-!
# The places of diagnostics

The diagnostics of a cycle come from the discovery, which reads what is staged, from the compiler,
which may have found them in an earlier cycle, and from the reference graph. As long as no two
contents have one hash, all of them point at markers in the files of the cycle, and they are sorted
by the places they point at. Two contents with one hash are enough for a warning about a marker
that no file of the cycle has.
-/
namespace IncrementalBuild

/-! ## What diagnostics point at -/

/-- A span covers a piece of a file: it has the id of the file, it lies within the content, its
ends are between characters, and what is between its ends is the piece. -/
structure SourceFile.Covers (f : SourceFile) (span : Span) (piece : Text) : Prop where
  file : span.file = f.id
  ordered : span.start ≤ span.stop
  inside : span.stop ≤ f.length
  text : ∃ before after, f.content = before ++ (piece ++ after) ∧
    Text.byteLength before = span.start ∧ Text.byteLength (before ++ piece) = span.stop

namespace Diagnostic

/-- The spans of a diagnostic: its own, and those of its labels. -/
def spans (d : Diagnostic) : List Span := d.span :: d.labels.map Label.span

/-- A diagnostic tells of a reference: it is the warning that the reference leads nowhere, or it
has a label with the span of the reference that says which path the reference leads to. -/
def TellsOf (loader : Loader) (readFiles : Bool) (d : Diagnostic) (r : Reference) : Prop :=
  d = Discovery.warning loader readFiles r ∨
    ∃ l ∈ d.labels, l.span = r.span ∧ l.message = "references `".toList ++ r.path.text ++ "`".toList

/-- What a span of a diagnostic is there for: the conflict marker that the diagnostic warns of, or
the path of a reference that it tells of, as the file has it between the quotes. -/
inductive IsAbout (loader : Loader) (readFiles : Bool) (d : Diagnostic) (f : SourceFile)
    (span : Span) : Text → Prop
  | conflict (hcode : d.code = .conflictMarker) (hspan : span = d.span) :
    IsAbout loader readFiles d f span PassThrough.conflictMarker
  | reference (r : Reference) (hr : r ∈ Header.references f.id f.path f.content)
    (hspan : span = r.span) (hpath : r.path = (f.path.parent?.getD ⟨[]⟩).resolve ⟨r.raw⟩)
    (htells : d.TellsOf loader readFiles r) : IsAbout loader readFiles d f span r.raw

/-- Each span of a diagnostic covers in some file what it is there for. -/
def Placed (loader : Loader) (readFiles : Bool) (files : List SourceFile) (d : Diagnostic) :
    Prop :=
  ∀ span ∈ d.spans, ∃ f ∈ files, ∃ piece,
    d.IsAbout loader readFiles f span piece ∧ f.Covers span piece

/-- Each span of a diagnostic has the id of some file, and its ends are in order. -/
def NamesFiles (files : List SourceFile) (d : Diagnostic) : Prop :=
  ∀ span ∈ d.spans, ∃ f ∈ files, span.file = f.id ∧ span.start ≤ span.stop

theorem Placed.namesFiles {loader : Loader} {readFiles : Bool} {files : List SourceFile}
    {d : Diagnostic} (h : d.Placed loader readFiles files) : d.NamesFiles files := by
  intro span hspan
  obtain ⟨f, hf, _, _, hcovers⟩ := h span hspan
  exact ⟨f, hf, hcovers.file, hcovers.ordered⟩

/-- The place by which a diagnostic is sorted: the place of its file in the cycle, and the start of
its span. -/
def placement (sources : Cache) (d : Diagnostic) : ℕ ×ₗ ℕ :=
  toLex (sources.members.idxOf d.span.file, d.span.start)

/-- Diagnostics are those of a list in the order of their places, and those with one place are in
the order of the list. -/
structure InOrder (sources : Cache) (emitted sorted : List Diagnostic) : Prop where
  perm : sorted.Perm emitted
  ordered : sorted.Pairwise fun d e => d.placement sources ≤ e.placement sources
  stable : ∀ place, (sorted.filter fun d => d.placement sources = place) =
    emitted.filter fun d => d.placement sources = place

end Diagnostic

/-- In a file of less than 4 GiB a span covers what it covers of the content. -/
theorem Span.Covers.of_content {f : SourceFile} {span : Span} {piece : Text}
    (hsize : Text.byteLength f.content < UInt32.size)
    (h : span.Covers f.id 0 f.content piece) : f.Covers span piece := by
  obtain ⟨o, hat, rfl⟩ := h
  have hstop := hat.stop_le
  rw [Nat.zero_add, ofOffsets_eq (Nat.le_add_right ..) (Nat.lt_of_le_of_lt hstop hsize)]
  refine ⟨rfl, Nat.le_add_right .., hstop, ?_⟩
  obtain ⟨before, after, heq, rfl⟩ := hat
  exact ⟨before, after, heq, rfl, Text.byteLength_append ..⟩

/-- In a text of characters of one byte, a piece that is covered stands at the start of the span. -/
theorem SourceFile.Covers.prefix_drop {f : SourceFile} {span : Span} {piece : Text}
    (h : f.Covers span piece) (hbytes : f.content.all (·.utf8Size = 1) = true) :
    piece <+: f.content.drop span.start := by
  rw [List.all_eq_true] at hbytes
  obtain ⟨before, after, heq, hbefore, _⟩ := h.text
  have hlength : Text.byteLength before = before.length :=
    Text.byteLength_eq_length fun c hc =>
      of_decide_eq_true (hbytes c (heq ▸ List.mem_append_left _ hc))
  rw [heq, ← hbefore, hlength, List.drop_left]
  exact List.prefix_append piece after

theorem Diagnostic.TellsOf.exists_covers {loader : Loader} {readFiles : Bool} {d : Diagnostic}
    {r : Reference} (h : d.TellsOf loader readFiles r) {files : List SourceFile} {f : SourceFile}
    (hf : f ∈ files) (hsize : Text.byteLength f.content < UInt32.size)
    (hr : r ∈ Header.references f.id f.path f.content) :
    ∃ f ∈ files, ∃ piece, d.IsAbout loader readFiles f r.span piece ∧ f.Covers r.span piece := by
  obtain ⟨hcovers, hpath⟩ := Header.references_covers hr
  exact ⟨f, hf, r.raw, .reference r hr rfl hpath h, hcovers.of_content hsize⟩

/-! ## Diagnostics of each source -/

theorem Discovery.warning_placed (loader : Loader) (readFiles : Bool) {files : List SourceFile}
    (hsize : ∀ f ∈ files, Text.byteLength f.content < UInt32.size) {r : Reference}
    (hr : r ∈ markers files) :
    (warning loader readFiles r).Placed loader readFiles files := by
  obtain ⟨f, hf, hr⟩ := List.mem_flatMap.mp hr
  have hspans : (warning loader readFiles r).spans = [r.span] := by cases readFiles <;> rfl
  intro span hspan
  rw [hspans, List.mem_singleton] at hspan
  rw [hspan]
  exact Diagnostic.TellsOf.exists_covers (Or.inl rfl) hf (hsize f hf) hr

theorem PassThrough.conflicts_placed (loader : Loader) (readFiles : Bool)
    {files : List SourceFile} {f : SourceFile} (hf : f ∈ files)
    (hsize : Text.byteLength f.content < UInt32.size) {d : Diagnostic}
    (hd : d ∈ conflicts f.id 0 (Text.linesInclusive f.content)) :
    d.Placed loader readFiles files := by
  obtain ⟨hcovers, hcode, hlabels⟩ := conflicts_covers hd
  rw [Text.flatten_linesInclusive] at hcovers
  have hspans : d.spans = [d.span] := by rw [Diagnostic.spans, hlabels, List.map_nil]
  intro span hspan
  rw [hspans, List.mem_singleton] at hspan
  rw [hspan]
  exact ⟨f, hf, conflictMarker, .conflict hcode rfl, hcovers.of_content hsize⟩

namespace ReferenceGraph

section
variable {files : List SourceFile} (hpaths : (files.map SourceFile.path).Nodup)
include hpaths

/-- Every step of a cycle is a reference of a file, and leads to the path of the reference. -/
theorem cycles_step {c : ReferenceCycle} (hc : c ∈ (ofFiles files).cycles) {s : CycleStep}
    (hs : s ∈ c.members ++ c.references) :
    ∃ f ∈ files, ∃ r ∈ f.references, s = ⟨f.path, r.span, r.path⟩ := by
  obtain ⟨i, l, hl, rfl⟩ := cycles_link hc hs
  have hi : i < files.length := (edge_bounded hpaths (List.mem_map_of_mem hl)).1
  have hfile := List.getElem?_eq_getElem hi
  rw [links_of_file hfile] at hl
  obtain ⟨r, hr, hlink⟩ := List.mem_filterMap.mp hl
  obtain ⟨⟨b, hb, hpath⟩, _, hspan⟩ := (link?_file hpaths).mp hlink
  refine ⟨files[i], List.getElem_mem hi, r, (firstMarkers_sublist _).subset hr, ?_⟩
  simp only [step, node_ofFiles hfile, node_ofFiles hb, Option.map_some, Option.getD_some, hspan,
    hpath]

theorem cycles_head {c : ReferenceCycle} (hc : c ∈ (ofFiles files).cycles) :
    ∃ s, c.members.head? = some s := by
  obtain ⟨numbers, hnumbers, rfl⟩ := List.mem_map.mp hc
  obtain ⟨component, h, rfl⟩ := exists_fileTangle hpaths hnumbers
  obtain ⟨a, rest, rfl⟩ := h.exists_cons
  have hstart := (reports_tangle hpaths h).start
  obtain ⟨s, hs, _⟩ := Option.map_eq_some_iff.mp hstart
  exact ⟨s, hs⟩

end

end ReferenceGraph

/-- What is reported of a cycle points at the first step, and labels it and the others. -/
theorem ReferenceCycle.diagnostic_eq {c : ReferenceCycle} {first : CycleStep}
    (hfirst : c.members.head? = some first) :
    c.diagnostic.span = first.reference ∧ c.diagnostic.labels = label .primary first ::
      ((if c.references.isEmpty then c.members else c.references).filter fun s =>
        !c.members.head?.any s.same).map (label .secondary) := by
  unfold diagnostic
  simp only [hfirst, Option.map_some, Option.getD_some, Diagnostic.error, Option.toList_some,
    List.singleton_append, true_and]

/-- The spans of what is reported of a cycle are those of steps, and each has a label that says
where the step leads. -/
theorem ReferenceCycle.exists_label {c : ReferenceCycle} {first : CycleStep}
    (hfirst : c.members.head? = some first) {span : Span} (hspan : span ∈ c.diagnostic.spans) :
    ∃ s ∈ c.members ++ c.references, s.reference = span ∧
      ∃ style, label style s ∈ c.diagnostic.labels := by
  obtain ⟨hprimary, hlabels⟩ := diagnostic_eq hfirst
  have hlabelled : ∀ l ∈ c.diagnostic.labels, ∃ s ∈ c.members ++ c.references,
      s.reference = l.span ∧ ∃ style, label style s ∈ c.diagnostic.labels := by
    intro l hl
    have hin := hl
    rw [hlabels] at hin
    rcases List.mem_cons.mp hin with rfl | hin
    · exact ⟨first, List.mem_append_left _ (List.mem_of_head? hfirst), rfl, _, hl⟩
    · obtain ⟨s, hs, rfl⟩ := List.mem_map.mp hin
      refine ⟨s, ?_, rfl, _, hl⟩
      have hs := (List.mem_filter.mp hs).1
      split at hs
      · exact List.mem_append_left _ hs
      · exact List.mem_append_right _ hs
  rcases List.mem_cons.mp hspan with rfl | hspan
  · rw [hprimary]
    exact hlabelled (label .primary first) (hlabels ▸ List.mem_cons_self)
  · obtain ⟨l, hl, rfl⟩ := List.mem_map.mp hspan
    exact hlabelled l hl

/-- What is reported of a cycle points at the references of the files. -/
theorem ReferenceCycle.diagnostic_placed (loader : Loader) (readFiles : Bool)
    {files : List SourceFile} (hpaths : (files.map SourceFile.path).Nodup)
    (hmade : ∀ f ∈ files, f.Made) (hsize : ∀ f ∈ files, Text.byteLength f.content < UInt32.size)
    {c : ReferenceCycle} (hc : c ∈ (ReferenceGraph.ofFiles files).cycles) :
    c.diagnostic.Placed loader readFiles files := by
  obtain ⟨first, hfirst⟩ := ReferenceGraph.cycles_head hpaths hc
  intro span hspan
  obtain ⟨s, hs, rfl, style, hlabel⟩ := exists_label hfirst hspan
  obtain ⟨f, hf, r, hr, rfl⟩ := ReferenceGraph.cycles_step hpaths hc hs
  rw [(hmade f hf).references] at hr
  exact Diagnostic.TellsOf.exists_covers (Or.inr ⟨_, hlabel, rfl, rfl⟩) hf (hsize f hf) hr

/-! ## The order of diagnostics -/

namespace Diagnostic

theorem keyLe_iff {as bs : List Nat} : keyLe as bs = true ↔ as ≤ bs := by
  rw [← not_lt]
  induction as generalizing bs with
  | nil => simp [keyLe]
  | cons a as ih =>
    cases bs with
    | nil => simp [keyLe]
    | cons b bs =>
      rw [keyLe, List.cons_lt_cons_iff]
      rcases lt_trichotomy a b with h | h | h
      · simp [h, h.ne', h.le]
      · simp [h, ih]
      · simp [h, h.ne', h.not_gt]

theorem sort_perm (sources : Cache) (ds : List Diagnostic) : (sort sources ds).Perm ds :=
  List.mergeSort_perm ..

theorem sortKey_trans (sources : Cache) (d e f : Diagnostic)
    (hde : keyLe (d.sortKey sources) (e.sortKey sources) = true)
    (hef : keyLe (e.sortKey sources) (f.sortKey sources) = true) :
    keyLe (d.sortKey sources) (f.sortKey sources) = true := by
  rw [keyLe_iff] at hde hef ⊢
  exact hde.trans hef

theorem sortKey_total (sources : Cache) (d e : Diagnostic) :
    (keyLe (d.sortKey sources) (e.sortKey sources) ||
      keyLe (e.sortKey sources) (d.sortKey sources)) = true := by
  rw [Bool.or_eq_true, keyLe_iff, keyLe_iff]
  exact le_total ..

theorem pairwise_sort (sources : Cache) (ds : List Diagnostic) :
    (sort sources ds).Pairwise fun d e => d.sortKey sources ≤ e.sortKey sources :=
  (List.pairwise_mergeSort (sortKey_trans sources) (sortKey_total sources) ds).imp keyLe_iff.mp

theorem filter_sort {sources : Cache} {ds : List Diagnostic} {choose : Diagnostic → Bool}
    (hkey : ∀ d ∈ ds.filter choose, ∀ e ∈ ds.filter choose,
      d.sortKey sources = e.sortKey sources) :
    (sort sources ds).filter choose = ds.filter choose := by
  -- those that are chosen are a sorted part of the list, and sorting keeps such a part
  have hsorted : (ds.filter choose).Pairwise
      fun d e => keyLe (d.sortKey sources) (e.sortKey sources) = true :=
    List.pairwise_of_forall_mem_list fun d hd e he => keyLe_iff.mpr (le_of_eq (hkey d hd e he))
  have hpart : (ds.filter choose).Sublist (sort sources ds) :=
    List.sublist_mergeSort (sortKey_trans sources) (sortKey_total sources) hsorted
      List.filter_sublist
  have hchosen := hpart.filter choose
  rw [List.filter_filter] at hchosen
  simp only [Bool.and_self] at hchosen
  have hlength := ((sort_perm sources ds).filter choose).length_eq
  exact (hchosen.eq_of_length hlength.symm).symm

section
variable {sources : Cache} (h : sources.WellFormed) (hdummy : FileId.dummy ∉ sources.members)
include h hdummy

/-- The key of a diagnostic about a file of the cycle holds its place. -/
theorem sortKey_eq {d : Diagnostic} (hd : d.span.file ∈ sources.members) : d.sortKey sources =
    [1, 0, sources.members.idxOf d.span.file, d.span.file, d.span.start] := by
  have hplace : d.span.isDummy = false := beq_eq_false_iff_ne.mpr fun heq => hdummy (heq ▸ hd)
  obtain ⟨rank, hrank⟩ := Option.isSome_iff_exists.mp (List.isSome_idxOf?.mpr hd)
  obtain ⟨hlt, heq, _⟩ := List.idxOf?_eq_some_iff.mp hrank
  have hidx : sources.members.idxOf d.span.file = rank := by
    rw [← heq]
    exact h.membersNodup.idxOf_getElem rank hlt
  rw [sortKey_member hplace ((h.position?_eq _).trans hrank), hidx]

theorem sortKey_le_iff {d e : Diagnostic} (hd : d.span.file ∈ sources.members)
    (he : e.span.file ∈ sources.members) :
    d.sortKey sources ≤ e.sortKey sources ↔ d.placement sources ≤ e.placement sources := by
  rw [← keyLe_iff, sortKey_eq h hdummy hd, sortKey_eq h hdummy he, placement, placement,
    Prod.Lex.toLex_le_toLex]
  by_cases hfile : d.span.file = e.span.file
  · simpa [keyLe, hfile] using Nat.le_iff_lt_or_eq.symm
  -- different files have different places, which decide before the ids are compared
  · have hplace := mt (List.idxOf_inj hd).mp hfile
    simp [keyLe, hplace]

theorem sort_inOrder {ds : List Diagnostic} (hds : ∀ d ∈ ds, d.span.file ∈ sources.members) :
    InOrder sources ds (sort sources ds) := by
  have hperm := sort_perm sources ds
  refine ⟨hperm, ?_, fun place => filter_sort fun d hd e he => ?_⟩
  · refine (pairwise_sort sources ds).imp_of_mem fun hd he hle => ?_
    exact (sortKey_le_iff h hdummy (hds _ (hperm.subset hd)) (hds _ (hperm.subset he))).mp hle
  · obtain ⟨hd, hplace⟩ := List.mem_filter.mp hd
    obtain ⟨he, hplace'⟩ := List.mem_filter.mp he
    have heq : d.placement sources = e.placement sources :=
      (of_decide_eq_true hplace).trans (of_decide_eq_true hplace').symm
    exact le_antisymm ((sortKey_le_iff h hdummy (hds d hd) (hds e he)).mpr heq.le)
      ((sortKey_le_iff h hdummy (hds e he) (hds d hd)).mpr heq.ge)

end

end Diagnostic

/-! ## Cycles of the pass-through compiler -/

namespace Session

/-- What a cycle delivers are the diagnostics of its discovery, of the compiler and of the
reference cycles, sorted. -/
theorem delivered_diagnostics {σ ο : Type} {compiler : Compiler σ} {loader : Loader}
    {outlets : Outlets ο} {s : Session σ} {o o' : ο} {output : CycleOutput}
    (hdelivered : s.delivered compiler loader outlets o = (.ok output, o')) :
    ∃ result, (s.compiled compiler loader).1 = .ok result ∧
      output.assembly.cycles =
        (Assembly.orderOf (s.discover loader).cache.commit s.config).cycles ∧
      output.diagnostics = Diagnostic.sort (s.discover loader).cache.commit
        ((s.discover loader).log.held ++
          (result.diagnostics ++ output.assembly.cycles.map ReferenceCycle.diagnostic)) := by
  obtain ⟨result, stats, hresult, _, rfl⟩ := deliver_ok hdelivered
  refine ⟨result, hresult, rfl, ?_⟩
  rw [DiagnosticLog.extend_held]
  rfl

section
variable {contents : Set Text} {config : BuildConfiguration} {s : Session Memo}
  {T : List (Path × Text)} (h : Reached PassThrough.compilers contents config Memo.empty s T)
  {loader : Loader} (hloader : loader.Within contents)
include h hloader

theorem Reached.committed_within {f : SourceFile}
    (hf : f ∈ (s.discover loader).cache.commit.files) : f.content ∈ contents := by
  have hdiscover := discover_sound loader h.sound
  exact ((discover_within h.sound h.within hloader).commit hdiscover.toWellFormed).files
    hdiscover.commit.toWellFormed hf

variable (hsize : ∀ t ∈ contents, Text.byteLength t < UInt32.size)
include hsize

/-- The warnings of a discovery point at references of the files that are committed after it. -/
theorem Reached.found_placed {d : Diagnostic} (hd : d ∈ (s.discover loader).log.held) :
    d.Placed loader (!s.config.settings.noExternalResolve)
      (s.discover loader).cache.commit.files := by
  have hlog : (s.discover loader).log.held = _ :=
    Discovery.stageExternals_log loader s.config.settings.noExternalResolve h.sound
  have hunresolved := unresolved_commit (discover_sound loader h.sound)
  unfold discover at hunresolved
  rw [hlog, ← hunresolved] at hd
  obtain ⟨r, hr, rfl⟩ := List.mem_map.mp hd
  exact Discovery.warning_placed loader _ (fun f hf => hsize _ (h.committed_within hloader hf))
    (List.mem_filter.mp hr).1

theorem Reached.cycles_placed (readFiles : Bool) {c : ReferenceCycle}
    (hc : c ∈ (Assembly.orderOf (s.discover loader).cache.commit s.config).cycles) :
    c.diagnostic.Placed loader readFiles (s.discover loader).cache.commit.files := by
  have hd := (discover_sound loader h.sound).commit
  exact c.diagnostic_placed loader readFiles hd.nodup_files_path (fun f hf => hd.files_made hf)
    (fun f hf => hsize _ (h.committed_within hloader hf)) (Assembly.orderOf_cycles hc)

section
variable {result : CompileResult}
  (hresult : (s.compiled PassThrough.compiler loader).1 = .ok result) {d : Diagnostic}
  (hd : d ∈ result.diagnostics)
include hresult hd

/-- The compiler warns of conflicts in the committed files, also where it remembers what it found
in an earlier cycle. -/
theorem Reached.compiled_conflict :
    d.code = .conflictMarker ∧ d.NamesFiles (s.discover loader).cache.commit.files := by
  have hcommit := (discover_sound loader h.sound).commit
  obtain ⟨f, hf, g, hg, hgin, hd⟩ := PassThrough.compile_passes
    (fun f hf => hcommit.files_made hf) (fun f hf => h.committed_within hloader hf) _ _
    h.memo_valid hresult d hd
  obtain ⟨hcovers, hcode, hlabels⟩ := PassThrough.conflicts_covers hd
  rw [Text.flatten_linesInclusive] at hcovers
  have hspan := hcovers.of_content (hsize _ hgin)
  refine ⟨hcode, fun span hin => ?_⟩
  rw [Diagnostic.spans, hlabels, List.map_nil, List.mem_singleton] at hin
  rw [hin]
  exact ⟨f, hf, hspan.file.trans hg.id, hspan.ordered⟩

/-- If no two contents have one hash, then the conflict markers are where the compiler says. -/
theorem Reached.compiled_placed (hinj : Set.InjOn ContentHash.ofText contents)
    (readFiles : Bool) :
    d.Placed loader readFiles (s.discover loader).cache.commit.files := by
  have hcommit := (discover_sound loader h.sound).commit
  have hin : ∀ f ∈ (s.discover loader).cache.commit.files, f.content ∈ contents :=
    fun f hf => h.committed_within hloader hf
  obtain ⟨f, hf, g, hg, hgin, hd⟩ := PassThrough.compile_passes
    (fun f hf => hcommit.files_made hf) hin _ _ h.memo_valid hresult d hd
  have hcontent := hg.content_eq (hcommit.files_made hf) hinj hgin (hin f hf)
  rw [hg.id, hcontent] at hd
  exact PassThrough.conflicts_placed loader readFiles hf (hsize _ (hin f hf)) hd

end

/-- After any run of operations on contents of less than 4 GiB, every span of a diagnostic of a
completed cycle names a file of that cycle. Those of warnings about references and of reference
cycles cover references in the files, and those of warnings about conflicts cover conflict markers,
if no two contents of the run have one hash. The diagnostics are sorted by the place of the file and
the start of the span, and those with one place come in the order of the discovery, the compiler and
the reference cycles, as long as the ids of the files have 32 bits. -/
theorem reset_diagnostics_placed {ο : Type} {outlets : Outlets ο} {o o' : ο} {output : CycleOutput}
    {s' : Session Memo}
    (hok : s.reset PassThrough.compiler loader outlets o = (.ok output, s', o')) :
    (∀ d ∈ output.diagnostics, d.NamesFiles s'.cache.files) ∧
    (∀ d ∈ output.diagnostics,
      (d.code = .conflictMarker → Set.InjOn ContentHash.ofText contents) →
        d.Placed loader (!s.config.settings.noExternalResolve) s'.cache.files) ∧
    (s'.cache.nextId ≤ FileId.dummy →
      ∃ result, (s.compiled PassThrough.compiler loader).1 = .ok result ∧
        Diagnostic.InOrder s'.cache
          ((s.discover loader).log.held ++
            (result.diagnostics ++ output.assembly.cycles.map ReferenceCycle.diagnostic))
          output.diagnostics) := by
  obtain ⟨hdelivered, rfl⟩ := reset_ok hok
  obtain ⟨result, hresult, hcycles, hsorted⟩ := delivered_diagnostics hdelivered
  have hd := (discover_sound loader h.sound).commit
  -- each diagnostic is right about its place, or comes from the compiler
  have hplaced : ∀ d ∈ (s.discover loader).log.held ++
      (result.diagnostics ++ output.assembly.cycles.map ReferenceCycle.diagnostic),
      d ∈ result.diagnostics ∨ d.Placed loader (!s.config.settings.noExternalResolve)
        (s.discover loader).cache.commit.files := by
    intro d hin
    rcases List.mem_append.mp hin with hin | hin
    · exact Or.inr (h.found_placed hloader hsize hin)
    · rcases List.mem_append.mp hin with hin | hin
      · exact Or.inl hin
      · obtain ⟨c, hc, rfl⟩ := List.mem_map.mp hin
        exact Or.inr (h.cycles_placed hloader hsize _ (hcycles ▸ hc))
  have hnames : ∀ d ∈ (s.discover loader).log.held ++
      (result.diagnostics ++ output.assembly.cycles.map ReferenceCycle.diagnostic),
      d.NamesFiles (s.discover loader).cache.commit.files := by
    intro d hin
    rcases hplaced d hin with hin | hplaced
    · exact (h.compiled_conflict hloader hsize hresult hin).2
    · exact hplaced.namesFiles
  have hperm := Diagnostic.sort_perm (s.discover loader).cache.commit
    ((s.discover loader).log.held ++
      (result.diagnostics ++ output.assembly.cycles.map ReferenceCycle.diagnostic))
  refine ⟨fun d hin => ?_, fun d hin hinj => ?_, fun hsmall => ⟨result, hresult, ?_⟩⟩
  · rw [hsorted] at hin
    exact hnames d (hperm.subset hin)
  · rw [hsorted] at hin
    rcases hplaced d (hperm.subset hin) with hin | hplaced
    · have hcode := (h.compiled_conflict hloader hsize hresult hin).1
      exact h.compiled_placed hloader hsize hresult hin (hinj hcode) _
    · exact hplaced
  · rw [hsorted]
    refine Diagnostic.sort_inOrder hd.toWellFormed (fun hin => ?_) fun d hin => ?_
    · obtain ⟨e, he, heq⟩ := hd.members _ hin
      exact Nat.not_lt.mpr hsmall (heq ▸ hd.fresh e he)
    · obtain ⟨f, hf, hfile, _⟩ := hnames d hin d.span List.mem_cons_self
      rw [hfile, ← hd.files_id]
      exact List.mem_map_of_mem hf

end

/-- The contents that occur in a build of the library as a bundle. -/
def bundledContents : List Text :=
  ["let b = 1;".toList,
    "/// <reference path=\"lib/b.ts\" />\n/// <reference path=\"gone.ts\" />\n".toList,
    "/// <reference path=\"c.ts\" />".toList, "/// <reference path=\"./../lib/b.ts\" />".toList]

theorem bundledContents_injOn : Set.InjOn ContentHash.ofText {t | t ∈ bundledContents} := by
  have hnodup : (bundledContents.map ContentHash.ofText).Nodup := by decide +kernel
  exact fun a ha b hb heq => List.inj_on_of_nodup_map hnodup ha hb heq

theorem bundledContents_small :
    ∀ t ∈ {t | t ∈ bundledContents}, Text.byteLength t < UInt32.size := by
  have hsmall : ∀ t ∈ bundledContents, Text.byteLength t < UInt32.size := by decide +kernel
  exact hsmall

theorem checkout_within : checkout.Within {t | t ∈ bundledContents} := by
  have hfiles : ∀ file ∈ checkout.files, file.2 ∈ bundledContents := by decide +kernel
  exact hfiles

/-- A reference leads nowhere, and two files refer to each other. -/
theorem reset_diagnostics_placed_of_bundled :
    ∃ (s : Session Memo) (output : CycleOutput) (s' : Session Memo) (o' : Shelf × Shelf)
      (result : CompileResult),
    (bundled.loadSources checkout).2 = s ∧
    s.reset PassThrough.compiler checkout (.pair Shelf.outlet Shelf.outlet) (.empty, .empty) =
      (.ok output, s', o') ∧
    (s.discover checkout).log.held.length = 1 ∧ output.assembly.cycles.length = 1 ∧
    (∀ d ∈ output.diagnostics, d.NamesFiles s'.cache.files ∧
      d.Placed checkout (!s.config.settings.noExternalResolve) s'.cache.files) ∧
    Diagnostic.InOrder s'.cache
      ((s.discover checkout).log.held ++
        (result.diagnostics ++ output.assembly.cycles.map ReferenceCycle.diagnostic))
      output.diagnostics := by
  have hfirst : "let b = 1;".toList ∈ bundledContents := by decide +kernel
  have hreached : Reached PassThrough.compilers {t | t ∈ bundledContents} bundled.config
      Memo.empty bundled [] :=
    (Reached.new.addSource "/p/lib/b.ts" hfirst).reset PassThrough.compiler_mem
      (Loader.empty_within _) _ _
  have hloaded := hreached.loadSources checkout_within
  have hcomes : ((bundled.loadSources checkout).2.reset PassThrough.compiler checkout
      (.pair Shelf.outlet Shelf.outlet) (.empty, .empty)).1.toOption.map
        (·.assembly.cycles.length) = some 1 := by decide +kernel
  have hsmall : ((bundled.loadSources checkout).2.reset PassThrough.compiler checkout
      (.pair Shelf.outlet Shelf.outlet) (.empty, .empty)).2.1.cache.nextId ≤ FileId.dummy := by
    decide +kernel
  have hwarns : ((bundled.loadSources checkout).2.discover checkout).log.held.length = 1 := by
    decide +kernel
  generalize (bundled.loadSources checkout).2 = s at hloaded hcomes hsmall hwarns ⊢
  rcases hok : s.reset PassThrough.compiler checkout (.pair Shelf.outlet Shelf.outlet)
    (.empty, .empty) with ⟨result, s', o'⟩
  rw [hok] at hcomes hsmall
  cases result with
  | error e => cases hcomes
  | ok output =>
    obtain ⟨hnames, hplaced, horder⟩ :=
      reset_diagnostics_placed hloaded checkout_within bundledContents_small hok
    obtain ⟨result, _, horder⟩ := horder hsmall
    exact ⟨s, output, s', o', result, rfl, hok, hwarns, Option.some.inj hcomes,
      fun d hd => ⟨hnames d hd, hplaced d hd fun _ => bundledContents_injOn⟩, horder⟩

/-! ### Contents with one hash -/

/-- In a cycle after a silent edit, the conflict markers of the first content are still reported,
whatever the last content is. -/
theorem edited_reports {first between last : Text} (hfirst : (onlyFile first 1).references = [])
    (hbetween : ContentHash.ofText between ≠ ContentHash.ofText first)
    (hlast : ContentHash.ofText last = ContentHash.ofText first)
    (hrefs : (onlyFile last 3).references = []) : ∃ output s' o',
    (edited first between last).reset PassThrough.compiler .empty
      (.pair Shelf.outlet Shelf.outlet) (.empty, .empty) = (.ok output, s', o') ∧
    s'.cache.files = [onlyFile last 3] ∧
    ∀ d ∈ PassThrough.conflicts 0 0 (Text.linesInclusive first), d ∈ output.diagnostics := by
  obtain ⟨output, s', o', hreset, hfiles, hcompiled⟩ := reset_edited hfirst hbetween hlast hrefs
  refine ⟨output, s', o', hreset, hfiles, fun d hd => ?_⟩
  obtain ⟨result, hresult, _, hsorted⟩ := delivered_diagnostics (reset_ok hreset).1
  cases hcompiled.symm.trans hresult
  rw [hsorted]
  refine (Diagnostic.sort_perm _ _).mem_iff.mpr (List.mem_append_right _ ?_)
  refine List.mem_append_left _ ?_
  rw [PassThrough.collect_diagnostics]
  exact List.mem_flatMap.mpr ⟨_, List.mem_singleton.mpr rfl, hd⟩

theorem edited_reached {first between last : Text} :
    Reached PassThrough.compilers {first, between, last} (started first).config Memo.empty
      (edited first between last) [("/p/a.ts", between), ("/p/a.ts", last)] := by
  have hfirst : first ∈ ({first, between, last} : Set Text) := Or.inl rfl
  have hbetween : between ∈ ({first, between, last} : Set Text) := Or.inr (Or.inl rfl)
  have hlast : last ∈ ({first, between, last} : Set Text) := Or.inr (Or.inr rfl)
  have hstarted : Reached PassThrough.compilers {first, between, last} (started first).config
      Memo.empty (started first) [("/p/a.ts", first)] := Reached.new.addSource "/p/a.ts" hfirst
  have hcycled : Reached PassThrough.compilers {first, between, last} (started first).config
      Memo.empty (cycled first) [] :=
    hstarted.reset PassThrough.compiler_mem (Loader.empty_within _) _ _
  exact (hcycled.addSource "/p/a.ts" hbetween).addSource "/p/a.ts" hlast

/-- After a cycle with a conflict marker and a silent edit that takes it out, the next cycle warns
of the marker all the same, at a place where its file has other text. -/
theorem resolved_conflict_reported :
    (∀ t ∈ [Text.conflicted, "x".toList, Text.resolved], Text.byteLength t < UInt32.size) ∧
    Reached PassThrough.compilers {Text.conflicted, "x".toList, Text.resolved}
      (started Text.conflicted).config Memo.empty
      (edited Text.conflicted "x".toList Text.resolved)
      [("/p/a.ts", "x".toList), ("/p/a.ts", Text.resolved)] ∧
    ∃ output s' o', (edited Text.conflicted "x".toList Text.resolved).reset PassThrough.compiler
        .empty (.pair Shelf.outlet Shelf.outlet) (.empty, .empty) = (.ok output, s', o') ∧
      ∃ d ∈ output.diagnostics, ¬ d.Placed .empty
        (!(edited Text.conflicted "x".toList Text.resolved).config.settings.noExternalResolve)
        s'.cache.files := by
  have hrefs : (onlyFile Text.resolved 3).references = [] := by decide +kernel
  have hmade : (onlyFile Text.resolved 3).Made := SourceFile.ofContent_made ..
  have hbytes : (onlyFile Text.resolved 3).content.all (·.utf8Size = 1) = true := by
    decide +kernel
  have hother : ¬ PassThrough.conflictMarker <+: (onlyFile Text.resolved 3).content.drop 36 := by
    decide +kernel
  have hspans : (PassThrough.conflicts 0 0 (Text.linesInclusive Text.conflicted)).map
      Diagnostic.span = [⟨0, 36, 43⟩] := by decide +kernel
  refine ⟨by decide +kernel, edited_reached, ?_⟩
  obtain ⟨output, s', o', hreset, hfiles, hreports⟩ := edited_reports (by decide +kernel)
    ContentHash.ofText_ne_conflicted ContentHash.ofText_resolved hrefs
  have hmarked : (⟨0, 36, 43⟩ : Span) ∈ (PassThrough.conflicts 0 0
      (Text.linesInclusive Text.conflicted)).map Diagnostic.span := by
    rw [hspans]
    exact List.mem_cons_self
  obtain ⟨d, hd, hspan⟩ := List.mem_map.mp hmarked
  refine ⟨output, s', o', hreset, d, hreports d hd, fun hplaced => ?_⟩
  obtain ⟨f, hf, piece, habout, hcovers⟩ := hplaced d.span List.mem_cons_self
  rw [hfiles, List.mem_singleton] at hf
  subst hf
  have hpiece := hcovers.prefix_drop hbytes
  rw [hspan] at hpiece
  cases habout with
  | conflict => exact hother hpiece
  | reference r hr =>
    rw [← hmade.references, hrefs] at hr
    cases hr

end Session

end IncrementalBuild
