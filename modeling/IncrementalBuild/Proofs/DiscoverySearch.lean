import IncrementalBuild.Proofs.DiscoveryRuns
import IncrementalBuild.Proofs.NormalForm
import Mathlib.Order.Bounds.Defs
/-!
# The search of a discovery

A discovery stages exactly the files that the staged files lead to. Each file it finds is staged
after all others and searched once, so the staged list falls into the files that were searched and
those that wait, and the search ends because the loader has finitely many files.
-/
namespace IncrementalBuild

/-! ## Paths of references -/

theorem Path.resolve_isNormal (base target : Path) : (base.resolve target).IsNormal :=
  Path.normalize_isNormal _

namespace Header

theorem reference?_normal {file : FileId} {directory : Path} {offset : Nat} {line : Text}
    {r : Reference} (hr : reference? file directory offset line = some r) : r.path.IsNormal := by
  unfold reference? at hr
  split at hr
  · obtain ⟨_, _, rfl⟩ := Option.map_eq_some_iff.mp hr
    exact directory.resolve_isNormal _
  · cases hr

theorem scan_normal {file : FileId} {directory : Path} {inBlock : Bool} {offset : Nat}
    {lines : List Text} {r : Reference} (hr : r ∈ scan file directory inBlock offset lines) :
    r.path.IsNormal := by
  induction lines generalizing inBlock offset with
  | nil => cases hr
  | cons line rest ih =>
    unfold scan at hr
    rcases List.mem_append.mp hr with hr | hr
    · cases inBlock with
      | true => cases hr
      | false => exact reference?_normal (Option.mem_toList.mp hr)
    · split at hr
      · exact ih hr
      · exact ih hr
      · cases hr

theorem references_normal {file : FileId} {p : Path} {content : Text} {r : Reference}
    (hr : r ∈ references file p content) : r.path.IsNormal :=
  scan_normal hr

end Header

theorem SourceFile.Made.reference_normal {f : SourceFile} (h : f.Made) {r : Reference}
    (hr : r ∈ f.references) : r.path.IsNormal :=
  Header.references_normal (h.references ▸ hr)

/-- Whether a loader has a content for a path. -/
def Loader.Reads (l : Loader) (p : Path) : Prop := ∃ content, l.read p = .ok content

theorem Loader.mem_files_of_read {l : Loader} {p : Path} (hp : p.IsNormal) {content : Text}
    (h : l.read p = .ok content) : p ∈ l.files.map Prod.fst := by
  unfold Loader.read at h
  split at h
  · next q _ hq =>
    have hkey : q = p.normalize := by simpa using List.find?_some hq
    rw [← hp, ← hkey]
    exact List.mem_map_of_mem (List.mem_of_find?_eq_some hq)
  · cases h

/-- An entry that is staged as an external file, with what a loader reads for its path. -/
structure Entry.Fetched (loader : Loader) (e : Entry) : Prop where
  external : e.external = true
  normal : e.path.IsNormal
  read : ∃ content, loader.read e.path = .ok content ∧ e.next.hash = ContentHash.ofText content

namespace Cache

/-- A content that is read for a path which is not staged is staged after all others when the path
is staged with it and marked. -/
theorem Sound.stagedEntries_fetch {c : Cache} (h : c.Sound) {loader : Loader} {p : Path}
    (hp : p.IsNormal) (hstaged : c.isStaged p = false) {content : Text}
    (hread : loader.read p = .ok content) :
    ∃ e : Entry, ((c.stage p content).2.markExternal p).2.stagedEntries = c.stagedEntries ++ [e] ∧
      e.id = (c.stage p content).1.id ∧ e.path = p ∧ e.Fetched loader := by
  obtain ⟨e, happended, hid, hpath, hash, _⟩ := h.stagedEntries_stage hstaged content
  have hmarked := (h.stage p content).stagedEntries_mark_last happended hpath
  have hkeeps := Entry.setExternal_keeps true e
  obtain ⟨mark, hnext⟩ := Entry.setExternal_next (e := e) true
  have hpath : (e.setExternal true).path = p := by rw [hkeeps.path, hpath, hp]
  refine ⟨e.setExternal true, hmarked, hkeeps.id.trans hid, hpath, ?_, ?_, content, ?_, ?_⟩
  · exact Entry.setExternal_external true
  · rw [hpath]
    exact hp
  · rw [hpath]
    exact hread
  · rw [hnext]
    exact hash

/-- A set of paths has the staged files of `c`, and with a staged file of `d` every path that the
content of the file refers to and that the loader reads. -/
structure Closed (loader : Loader) (c d : Cache) (S : Set Path) : Prop where
  base : ∀ f ∈ c.stagedFiles, f.path ∈ S
  step : ∀ f ∈ d.stagedFiles, f.path ∈ S → ∀ r ∈ Header.references f.id f.path f.content,
    loader.Reads r.path → r.path ∈ S

theorem Closed.mono {loader : Loader} {c d d' : Cache} {S : Set Path} (h : Closed loader c d' S)
    (hsub : d.stagedFiles ⊆ d'.stagedFiles) : Closed loader c d S where
  base := h.base
  step f hf := h.step f (hsub hf)

end Cache

namespace Discovery

variable {loader : Loader}

/-! ## Following references -/

/-- The discovery `d'` comes from `d` by following references: `new` are staged, and every
reference that the loader reads leads to a staged file. -/
structure Resolves (loader : Loader) (references : List Reference) (d d' : Discovery)
    (new : List Entry) : Prop where
  sound : d'.cache.Sound
  appended : d'.cache.stagedEntries = d.cache.stagedEntries ++ new
  queue : d'.queue = d.queue ++ new.map Entry.id
  found : d'.found = d.found + new.length
  fetched : ∀ e ∈ new, e.Fetched loader
  cited : ∀ e ∈ new, ∃ r ∈ references, loader.Reads r.path ∧ e.path = r.path
  all : ∀ r ∈ references, loader.Reads r.path →
    r.path ∈ d'.cache.stagedFiles.map SourceFile.path

theorem Resolves.nil {d : Discovery} (h : d.cache.Sound) : Resolves loader [] d d [] where
  sound := h
  appended := (List.append_nil _).symm
  queue := (List.append_nil _).symm
  found := rfl
  fetched _ he := absurd he List.not_mem_nil
  cited _ he := absurd he List.not_mem_nil
  all _ hr := absurd hr List.not_mem_nil

theorem Resolves.stagedFiles {references : List Reference} {d d' : Discovery} {new : List Entry}
    (h : Resolves loader references d d' new) :
    d'.cache.stagedFiles = d.cache.stagedFiles ++ new.map Entry.next := by
  rw [Cache.stagedFiles_eq, Cache.stagedFiles_eq, h.appended, List.map_append]

theorem Resolves.subset {references : List Reference} {d d' : Discovery} {new : List Entry}
    (h : Resolves loader references d d' new) : d.cache.stagedFiles ⊆ d'.cache.stagedFiles := by
  rw [h.stagedFiles]
  exact List.subset_append_left ..

theorem Resolves.kept {references : List Reference} {d d' : Discovery} {new : List Entry}
    (h : Resolves loader references d d' new) {p : Path}
    (hp : p ∈ d.cache.stagedFiles.map SourceFile.path) :
    p ∈ d'.cache.stagedFiles.map SourceFile.path :=
  List.map_subset _ h.subset hp

theorem Resolves.append {references more : List Reference} {d d₁ d₂ : Discovery}
    {new new' : List Entry} (h : Resolves loader references d d₁ new)
    (h' : Resolves loader more d₁ d₂ new') :
    Resolves loader (references ++ more) d d₂ (new ++ new') where
  sound := h'.sound
  appended := by rw [h'.appended, h.appended, List.append_assoc]
  queue := by rw [h'.queue, h.queue, List.append_assoc, List.map_append]
  found := by rw [h'.found, h.found, List.length_append, Nat.add_assoc]
  fetched e he := (List.mem_append.mp he).elim (h.fetched e) (h'.fetched e)
  cited e he := by
    rcases List.mem_append.mp he with he | he
    · obtain ⟨r, hr, hcited⟩ := h.cited e he
      exact ⟨r, List.mem_append_left _ hr, hcited⟩
    · obtain ⟨r, hr, hcited⟩ := h'.cited e he
      exact ⟨r, List.mem_append_right _ hr, hcited⟩
  all r hr hreads := by
    rcases List.mem_append.mp hr with hr | hr
    · exact h'.kept (h.all r hr hreads)
    · exact h'.all r hr hreads

theorem follow_resolves (loader : Loader) {d : Discovery} (h : d.cache.Sound) {r : Reference}
    (hr : r.path.IsNormal) : ∃ new, Resolves loader [r] d (follow loader true d r) new := by
  -- nothing is staged when the file is staged already, or cannot be read
  have hidle : ∀ log, (loader.Reads r.path →
      r.path ∈ d.cache.stagedFiles.map SourceFile.path) →
      Resolves loader [r] d { d with log } [] := by
    intro log hall
    refine ⟨h, (List.append_nil _).symm, (List.append_nil _).symm, rfl, by simp, by simp, ?_⟩
    intro x hx
    rw [List.mem_singleton.mp hx]
    exact hall
  unfold follow
  by_cases hstaged : d.cache.isStaged r.path = true
  · rw [if_pos hstaged]
    refine ⟨[], hidle d.log fun _ => ?_⟩
    have := h.isStaged_iff.mp hstaged
    rwa [hr] at this
  · rw [if_neg hstaged]
    simp only [Bool.not_true, Bool.false_eq_true, if_false]
    split
    · next content hread =>
      obtain ⟨e, happended, hid, hpath, hfetched⟩ :=
        h.stagedEntries_fetch hr (Bool.eq_false_of_not_eq_true hstaged) hread
      have hsound := (h.stage r.path content).markExternal r.path
      refine ⟨[e], hsound, happended, ?_, rfl, ?_, ?_, ?_⟩
      · rw [List.map_singleton, hid]
      · intro x hx
        rw [List.mem_singleton.mp hx]
        exact hfetched
      · intro x hx
        rw [List.mem_singleton.mp hx]
        exact ⟨r, List.mem_singleton_self r, ⟨content, hread⟩, hpath⟩
      · intro x hx _
        rw [List.mem_singleton.mp hx, hsound.stagedFiles_path, happended, ← hpath]
        exact List.mem_map_of_mem (List.mem_append_right _ (List.mem_singleton_self e))
    · next reason hread =>
      refine ⟨[], hidle _ fun hreads => ?_⟩
      obtain ⟨content, hcontent⟩ := hreads
      rw [hread] at hcontent
      cases hcontent

theorem follow_all_resolves (loader : Loader) {references : List Reference}
    (hr : ∀ r ∈ references, r.path.IsNormal) {d : Discovery} (h : d.cache.Sound) :
    ∃ new, Resolves loader references d (references.foldl (follow loader true) d) new := by
  induction references generalizing d with
  | nil => exact ⟨[], .nil h⟩
  | cons r references ih =>
    obtain ⟨new, hfirst⟩ := follow_resolves loader h (hr r List.mem_cons_self)
    obtain ⟨more, hrest⟩ := ih (fun x hx => hr x (List.mem_cons_of_mem r hx)) hfirst.sound
    exact ⟨new ++ more, hfirst.append hrest⟩

theorem search_resolves (loader : Loader) {d : Discovery} (h : d.cache.Sound) {f : SourceFile}
    (hf : f ∈ d.cache.stagedFiles) :
    ∃ new, Resolves loader f.references d (search loader true d f.id) new := by
  have hnormal : ∀ r ∈ f.references, r.path.IsNormal := fun r hr =>
    (h.stagedFiles_made hf).reference_normal hr
  have hfile : d.cache.stagedFile? f.id = some f := h.stagedFile?_eq_some_iff.mpr ⟨hf, rfl⟩
  unfold search
  rw [hfile]
  dsimp only
  -- only references to files that are not staged yet are followed
  have hopen : ∀ r ∈ f.references.filter fun r => !d.cache.isStaged r.path, r.path.IsNormal :=
    fun r hr => hnormal r (List.mem_filter.mp hr).1
  obtain ⟨new, hnew⟩ := follow_all_resolves loader hopen h
  refine ⟨new, hnew.sound, hnew.appended, hnew.queue, hnew.found, hnew.fetched, ?_, ?_⟩
  · intro e he
    obtain ⟨r, hr, hcited⟩ := hnew.cited e he
    exact ⟨r, (List.mem_filter.mp hr).1, hcited⟩
  · intro r hr hreads
    by_cases hstaged : d.cache.isStaged r.path = true
    · have hin := h.isStaged_iff.mp hstaged
      rw [hnormal r hr] at hin
      exact hnew.kept hin
    · exact hnew.all r (List.mem_filter.mpr ⟨hr, by simpa using hstaged⟩) hreads

/-! ## The search -/

def start (c : Cache) : Discovery := ⟨c, c.stagedFiles.map SourceFile.id, .empty, 0⟩

/-- What holds while the search from `c` goes on: the staged files are `searched` and then
`waiting`, and `new` were found. -/
structure Progress (loader : Loader) (c : Cache) (d : Discovery)
    (searched waiting : List SourceFile) (new : List Entry) : Prop where
  sound : d.cache.Sound
  appended : d.cache.stagedEntries = c.stagedEntries ++ new
  files : d.cache.stagedFiles = searched ++ waiting
  queue : d.queue = waiting.map SourceFile.id
  found : d.found = new.length
  fetched : ∀ e ∈ new, e.Fetched loader
  closed : ∀ f ∈ searched, ∀ r ∈ f.references, loader.Reads r.path →
    r.path ∈ d.cache.stagedFiles.map SourceFile.path
  least : ∀ S, Cache.Closed loader c d.cache S → ∀ f ∈ d.cache.stagedFiles, f.path ∈ S

theorem start_progress (loader : Loader) {c : Cache} (h : c.Sound) :
    Progress loader c (start c) [] c.stagedFiles [] where
  sound := h
  appended := (List.append_nil _).symm
  files := rfl
  queue := rfl
  found := rfl
  fetched _ he := absurd he List.not_mem_nil
  closed _ hf := absurd hf List.not_mem_nil
  least _ hS := hS.base

section
variable {c : Cache} {d : Discovery} {searched waiting : List SourceFile} {new : List Entry}

/-- A search of the file that waits longest puts the files it finds last. -/
theorem search_progress {f : SourceFile}
    (h : Progress loader c d searched (f :: waiting) new) :
    ∃ more, Progress loader c
      (search loader true { d with queue := waiting.map SourceFile.id } f.id)
      (searched ++ [f]) (waiting ++ more.map Entry.next) (new ++ more) := by
  have hf : f ∈ d.cache.stagedFiles := by
    rw [h.files]
    exact List.mem_append_right _ List.mem_cons_self
  have hmade := h.sound.stagedFiles_made hf
  obtain ⟨more, hmore⟩ := search_resolves loader
    (d := { d with queue := waiting.map SourceFile.id }) h.sound hf
  have hnext : ∀ e ∈ more, e.next.id = e.id ∧ e.next.path = e.path := by
    intro e he
    have hin := hmore.appended ▸ List.mem_append_right d.cache.stagedEntries he
    exact (hmore.sound.stagedEntries_sound hin).next.2
  refine ⟨more, hmore.sound, ?_, ?_, ?_, ?_, ?_, ?_, ?_⟩
  · rw [hmore.appended, h.appended, List.append_assoc]
  · rw [hmore.stagedFiles, h.files]
    simp
  · rw [hmore.queue, List.map_append, List.map_map]
    congr 1
    exact List.map_congr_left fun e he => (hnext e he).1.symm
  · rw [hmore.found, h.found, List.length_append]
  · exact fun e he => (List.mem_append.mp he).elim (h.fetched e) (hmore.fetched e)
  · intro x hx r hr hreads
    rcases List.mem_append.mp hx with hx | hx
    · exact hmore.kept (h.closed x hx r hr hreads)
    · rw [List.mem_singleton.mp hx] at hr
      exact hmore.all r hr hreads
  · intro S hS
    have hold := h.least S (hS.mono hmore.subset)
    intro x hx
    rw [hmore.stagedFiles] at hx
    rcases List.mem_append.mp hx with hx | hx
    · exact hold x hx
    · -- a file that this search found is one that `f` refers to
      obtain ⟨e, he, rfl⟩ := List.mem_map.mp hx
      obtain ⟨r, hr, hreads, hpath⟩ := hmore.cited e he
      rw [(hnext e he).2, hpath]
      exact hS.step f (hmore.subset hf) (hold f hf) r (hmade.references ▸ hr) hreads

/-- After a run nothing waits, unless as many files were searched as the run was allowed. -/
theorem run_progress (h : Progress loader c d searched waiting new) (bound : Nat) :
    ∃ searched' waiting' new',
      Progress loader c (run loader true bound d) searched' waiting' new' ∧
        (waiting' = [] ∨ searched'.length = searched.length + bound) := by
  induction bound generalizing d searched waiting new with
  | zero => exact ⟨searched, waiting, new, h, Or.inr rfl⟩
  | succ bound ih =>
    cases waiting with
    | nil =>
      refine ⟨searched, [], new, ?_, Or.inl rfl⟩
      unfold run
      rw [h.queue]
      exact h
    | cons f waiting =>
      obtain ⟨more, hmore⟩ := search_progress h
      obtain ⟨searched', waiting', new', hrun, hend⟩ := ih hmore
      refine ⟨searched', waiting', new', ?_, hend.imp_right fun hlength => ?_⟩
      · unfold run
        rw [h.queue]
        exact hrun
      · rw [hlength, List.length_append, List.length_singleton]
        omega

/-! ## The end of the search -/

theorem Progress.nodup_path (h : Progress loader c d searched waiting new) :
    ((c.stagedEntries ++ new).map Entry.path).Nodup := by
  have hids : (d.cache.stagedEntries.map Entry.id).Nodup :=
    h.sound.stagedEntries_id ▸ h.sound.stagedNodup
  rw [← h.appended]
  refine List.Nodup.map_on (fun x hx y hy hpath => ?_) hids.of_map
  exact h.sound.eq_of_path (h.sound.mem_stagedEntries.mp hx).1 (h.sound.mem_stagedEntries.mp hy).1
    hpath

theorem Progress.length_new (h : Progress loader c d searched waiting new) :
    new.length ≤ loader.files.length := by
  have hnodup : (new.map Entry.path).Nodup := by
    have hall := h.nodup_path
    rw [List.map_append] at hall
    exact (List.nodup_append.mp hall).2.1
  have hsub : new.map Entry.path ⊆ loader.files.map Prod.fst := by
    intro p hp
    obtain ⟨e, he, rfl⟩ := List.mem_map.mp hp
    obtain ⟨content, hread, _⟩ := (h.fetched e he).read
    exact Loader.mem_files_of_read (h.fetched e he).normal hread
  simpa using hnodup.length_le_of_subset hsub

theorem Progress.waiting_eq_nil (h : Progress loader c d searched waiting new)
    (hlength : c.stagedFiles.length + loader.files.length ≤ searched.length) : waiting = [] := by
  have hnew := h.length_new
  have hfiles : searched.length + waiting.length = c.stagedFiles.length + new.length := by
    have hlengths := congrArg List.length h.files
    rw [Cache.stagedFiles_eq, h.appended] at hlengths
    simpa [Cache.stagedFiles_eq] using hlengths.symm
  apply List.eq_nil_of_length_eq_zero
  omega

theorem run_complete (loader : Loader) (h : c.Sound) {bound : Nat}
    (hbound : c.stagedFiles.length + loader.files.length ≤ bound) :
    ∃ searched new, Progress loader c (run loader true bound (start c)) searched [] new := by
  obtain ⟨searched, waiting, new, hrun, hend⟩ :=
    run_progress (start_progress loader h) bound
  obtain rfl : waiting = [] := by
    rcases hend with hend | hlength
    · exact hend
    · refine hrun.waiting_eq_nil ?_
      rw [hlength, List.length_nil, Nat.zero_add]
      exact hbound
  exact ⟨searched, new, hrun⟩

end

/-! ## Searching without a loader -/

theorem follow_unread (loader : Loader) (d : Discovery) (r : Reference) :
    ∃ log, follow loader false d r = { d with log } := by
  unfold follow
  split
  · exact ⟨d.log, rfl⟩
  · exact ⟨_, rfl⟩

theorem follow_all_unread (loader : Loader) (references : List Reference) (d : Discovery) :
    ∃ log, references.foldl (follow loader false) d = { d with log } := by
  induction references generalizing d with
  | nil => exact ⟨d.log, rfl⟩
  | cons r references ih =>
    obtain ⟨log, hfollow⟩ := follow_unread loader d r
    rw [List.foldl_cons, hfollow]
    exact ih { d with log }

theorem search_unread (loader : Loader) (d : Discovery) (id : FileId) :
    ∃ log, search loader false d id = { d with log } := by
  unfold search
  split
  · exact ⟨d.log, rfl⟩
  · exact follow_all_unread loader _ d

/-- When no file is read, a run takes files off the queue and does nothing else. -/
theorem run_unread (loader : Loader) (bound : Nat) (d : Discovery) :
    ∃ log, run loader false bound d = { d with queue := d.queue.drop bound, log } := by
  induction bound generalizing d with
  | zero => exact ⟨d.log, rfl⟩
  | succ bound ih =>
    unfold run
    split
    · next hqueue =>
      refine ⟨d.log, ?_⟩
      rw [hqueue, List.drop_nil, ← hqueue]
    · next id queue hqueue =>
      obtain ⟨log, hsearch⟩ := search_unread loader { d with queue } id
      rw [hsearch, hqueue]
      exact ih _

end Discovery

end IncrementalBuild
