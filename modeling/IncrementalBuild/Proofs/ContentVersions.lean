import IncrementalBuild.Proofs.Identities
/-!
# The versions of a path

A version counts the contents that a path has had. It stands in the committed file, in the staged
one beside it, and among the retired versions once the path is forgotten. Every operation hands it
from one of these places to another, and all but a rollback hand on the highest one: as long as
nothing is taken back, versions only grow, and a version names one content.
-/
namespace IncrementalBuild

theorem SourceFile.replaceContent_of_hash_ne {f : SourceFile} {content : Text}
    (h : ContentHash.ofText content ≠ f.hash) :
    (f.replaceContent content).content = content ∧
      (f.replaceContent content).version = f.version + 1 := by
  unfold replaceContent
  rw [if_neg h]
  exact ⟨rfl, rfl⟩

theorem SourceFile.replaceContent_of_hash {f : SourceFile} {content : Text}
    (h : ContentHash.ofText content = f.hash) : f.replaceContent content = f := if_pos h

namespace Entry

/-! ## Versions of one entry -/

theorem mem_files {e : Entry} {f : SourceFile} :
    f ∈ e.files ↔ f = e.file ∨ e.pending = some f := by
  simp [files]

theorem next_mem_files (e : Entry) : e.next ∈ e.files := by
  unfold next
  cases hp : e.pending with
  | none => exact mem_files.mpr (Or.inl rfl)
  | some f => exact mem_files.mpr (Or.inr hp)

/-- Staged content beside the file has a later version than the file. -/
def Rising (e : Entry) : Prop := ∀ f, e.pending = some f → e.file.version < f.version

theorem Rising.of_pending {e : Entry} (h : e.pending = none) : e.Rising :=
  fun f hf => by rw [h] at hf; cases hf

theorem Rising.file_le {e : Entry} (h : e.Rising) {f : SourceFile} (hf : f ∈ e.files) :
    e.file.version ≤ f.version := by
  rcases mem_files.mp hf with rfl | hp
  · exact Nat.le_refl _
  · exact Nat.le_of_lt (h f hp)

theorem Rising.le_next {e : Entry} (h : e.Rising) {f : SourceFile} (hf : f ∈ e.files) :
    f.version ≤ e.next.version := by
  rcases mem_files.mp hf with rfl | hp
  · exact h.file_le e.next_mem_files
  · simp [next, hp]

theorem Rising.eq_of_version {e : Entry} (h : e.Rising) {f g : SourceFile} (hf : f ∈ e.files)
    (hg : g ∈ e.files) (hv : f.version = g.version) : f = g := by
  rcases mem_files.mp hf with rfl | hf <;> rcases mem_files.mp hg with rfl | hg
  · rfl
  · exact absurd hv (Nat.ne_of_lt (h g hg))
  · exact absurd hv.symm (Nat.ne_of_lt (h f hf))
  · exact Option.some.inj (hf.symm.trans hg)

/-- `e'` follows `e` at the same path: no version of it is lower, and a file with a content that
`e` does not have under this version has a later one. -/
structure Advances (e e' : Entry) : Prop where
  path : e'.path = e.path
  file : e.file.version ≤ e'.file.version
  next : e.next.version ≤ e'.next.version
  files : ∀ g ∈ e'.files,
    (∃ f ∈ e.files, g.version = f.version ∧ g.content = f.content) ∨ e.next.version < g.version

theorem Advances.refl (e : Entry) : e.Advances e :=
  ⟨rfl, Nat.le_refl _, Nat.le_refl _, fun g hg => Or.inl ⟨g, hg, rfl, rfl⟩⟩

theorem Advances.trans {a b c : Entry} (h : a.Advances b) (h' : b.Advances c) : a.Advances c where
  path := h'.path.trans h.path
  file := Nat.le_trans h.file h'.file
  next := Nat.le_trans h.next h'.next
  files g hg := by
    rcases h'.files g hg with ⟨f, hf, hv, hc⟩ | hlt
    · rcases h.files f hf with ⟨f', hf', hv', hc'⟩ | hlt
      · exact Or.inl ⟨f', hf', hv.trans hv', hc.trans hc'⟩
      · exact Or.inr (hv ▸ hlt)
    · exact Or.inr (Nat.lt_of_le_of_lt h.next hlt)

section
variable {e : Entry} {content : Text}

theorem stage_of_hash (h : e.Sound) (hh : ContentHash.ofText content = e.next.hash) :
    e.stage content = e := by
  unfold Entry.stage
  split
  · next hn =>
    have hp := h.pending_of_new (Option.isNone_iff_eq_none.mp hn)
    simp only [next, hp, Option.getD_none] at hh
    rw [SourceFile.replaceContent_of_hash hh]
  · split
    · next f hp =>
      simp only [next, hp, Option.getD_some] at hh
      rw [SourceFile.replaceContent_of_hash hh, ← hp]
    · next hp =>
      simp only [next, hp, Option.getD_none] at hh
      rw [if_pos hh]

/-- Any other content is taken, with the version after the one that would be committed next, and
only the committed file may stay beside it. -/
theorem stage_of_hash_ne (h : e.Sound) (hh : ContentHash.ofText content ≠ e.next.hash) :
    (e.stage content).next.content = content ∧
      (e.stage content).next.version = e.next.version + 1 ∧
      ((e.stage content).file = e.file ∨ (e.stage content).pending = none) := by
  unfold Entry.stage
  split
  · next hn =>
    have hp := h.pending_of_new (Option.isNone_iff_eq_none.mp hn)
    simp only [next, hp, Option.getD_none] at hh ⊢
    obtain ⟨hcontent, hversion⟩ := SourceFile.replaceContent_of_hash_ne hh
    exact ⟨hcontent, hversion, Or.inr trivial⟩
  · split
    · next f hp =>
      simp only [next, hp, Option.getD_some] at hh ⊢
      obtain ⟨hcontent, hversion⟩ := SourceFile.replaceContent_of_hash_ne hh
      exact ⟨hcontent, hversion, Or.inl trivial⟩
    · next hp =>
      simp only [next, hp, Option.getD_none] at hh ⊢
      rw [if_neg hh]
      exact ⟨rfl, rfl, Or.inl rfl⟩

/-- The mark is all that staging a content as the project's own adds to it. -/
theorem restage_next (e : Entry) (content : Text) :
    ∃ mark, (e.restage content).next = { (e.stage content).next with external := mark } :=
  setExternal_next (e := e.stage content) false

theorem Sound.restage_version (h : e.Sound) : (e.restage content).next.version =
    if ContentHash.ofText content = e.next.hash then e.next.version else e.next.version + 1 := by
  obtain ⟨mark, hmark⟩ := e.restage_next content
  simp only [hmark]
  split
  · next hh => rw [stage_of_hash h hh]
  · next hh => exact (stage_of_hash_ne h hh).2.1

theorem Sound.restage_content (h : e.Sound) : (e.restage content).next.content =
    if ContentHash.ofText content = e.next.hash then e.next.content else content := by
  obtain ⟨mark, hmark⟩ := e.restage_next content
  simp only [hmark]
  split
  · next hh => rw [stage_of_hash h hh]
  · next hh => exact (stage_of_hash_ne h hh).1

theorem Rising.stage (h : e.Sound) (hr : e.Rising) (content : Text) :
    (e.stage content).Rising ∧ e.Advances (e.stage content) := by
  by_cases hh : ContentHash.ofText content = e.next.hash
  · rw [stage_of_hash h hh]
    exact ⟨hr, Advances.refl e⟩
  obtain ⟨_, hversion, hfile⟩ := stage_of_hash_ne h hh
  have hle := hr.le_next (mem_files.mpr (Or.inl rfl))
  have hkeeps := stage_keeps content e
  rcases hfile with hfile | hpending
  · -- a pending file is the next one, so it has the new version
    have hnext : ∀ f, (e.stage content).pending = some f → f.version = e.next.version + 1 := by
      intro f hp
      rw [← hversion, next, hp, Option.getD_some]
    refine ⟨fun f hp => ?_, hkeeps.path, hfile ▸ Nat.le_refl _, by omega, fun g hg => ?_⟩
    · rw [hfile, hnext f hp]
      omega
    · rcases mem_files.mp hg with rfl | hp
      · exact Or.inl ⟨e.file, mem_files.mpr (Or.inl rfl), by rw [hfile], by rw [hfile]⟩
      · exact Or.inr (by rw [hnext g hp]; omega)
  · have hnext : (e.stage content).next = (e.stage content).file := by simp [next, hpending]
    rw [hnext] at hversion
    refine ⟨.of_pending hpending, hkeeps.path, by omega, by rw [hnext]; omega, fun g hg => ?_⟩
    rcases mem_files.mp hg with rfl | hp
    · exact Or.inr (by omega)
    · rw [hpending] at hp
      cases hp

/-- Marking changes the marks of the files of an entry, and nothing else of them. -/
theorem setExternal_files (external : Bool) :
    (∃ mark, (e.setExternal external).file = { e.file with external := mark }) ∧
      (e.setExternal external).pending = e.pending.map fun f => { f with external } := by
  unfold Entry.setExternal
  cases hp : e.pending with
  | some f => exact ⟨⟨_, rfl⟩, rfl⟩
  | none =>
    dsimp only
    split
    · exact ⟨⟨_, rfl⟩, rfl⟩
    · exact ⟨⟨_, rfl⟩, rfl⟩

theorem Rising.setExternal (hr : e.Rising) (external : Bool) :
    (e.setExternal external).Rising ∧ e.Advances (e.setExternal external) := by
  obtain ⟨⟨mark, hfile⟩, hpending⟩ := setExternal_files (e := e) external
  obtain ⟨mark', hnext⟩ := setExternal_next (e := e) external
  refine ⟨fun g hg => ?_, (setExternal_keeps external e).path, by rw [hfile], by rw [hnext],
    fun g hg => Or.inl ?_⟩
  · rw [hpending, Option.map_eq_some_iff] at hg
    obtain ⟨f, hf, rfl⟩ := hg
    rw [hfile]
    exact hr f hf
  · rw [mem_files, hpending, hfile, Option.map_eq_some_iff] at hg
    rcases hg with rfl | ⟨f, hf, rfl⟩
    · exact ⟨e.file, mem_files.mpr (Or.inl rfl), rfl, rfl⟩
    · exact ⟨f, mem_files.mpr (Or.inr hf), rfl, rfl⟩

theorem Rising.restage (h : e.Sound) (hr : e.Rising) (content : Text) :
    (e.restage content).Rising ∧ e.Advances (e.restage content) := by
  obtain ⟨hstage, hadvances⟩ := hr.stage h content
  obtain ⟨hmark, hmarked⟩ := hstage.setExternal false
  have htrans := hadvances.trans hmarked
  exact ⟨hmark, htrans.path, htrans.file, htrans.next, htrans.files⟩

theorem Rising.commit (h : e.Sound) (hr : e.Rising) (cycle rank : Nat) :
    (e.commit cycle rank).Rising ∧ e.Advances (e.commit cycle rank) := by
  have hnext : (e.commit cycle rank).next.version = e.next.version := rfl
  have hfile : e.file.version ≤ e.next.version := hr.file_le e.next_mem_files
  refine ⟨.of_pending rfl, h.next.2.2, hfile, hnext.ge, fun g hg => ?_⟩
  rcases mem_files.mp hg with rfl | hg
  · exact Or.inl ⟨e.next, e.next_mem_files, rfl, rfl⟩
  · cases hg

end

/-! ## What an entry remembers of a file of its path -/

/-- The entry is at or past the version of `f`, and has no other content under this version. Its
file is not below a version that is given. -/
structure Past (f : SourceFile) (floor : Nat) (e : Entry) : Prop where
  floor : floor ≤ e.file.version
  version : f.version ≤ e.next.version
  content : ∀ g ∈ e.files, g.version = f.version → g.content = f.content

section
variable {e : Entry} {f : SourceFile} {floor : Nat}

theorem Past.of_mem (hr : e.Rising) (hf : f ∈ e.files) : e.Past f 0 :=
  ⟨Nat.zero_le _, hr.le_next hf, fun _ hg hv => congrArg _ (hr.eq_of_version hg hf hv)⟩

theorem Past.of_file (hr : e.Rising) : e.Past e.file e.file.version :=
  ⟨Nat.le_refl _, hr.le_next (mem_files.mpr (Or.inl rfl)), fun _ hg hv =>
    congrArg _ (hr.eq_of_version hg (mem_files.mpr (Or.inl rfl)) hv)⟩

/-- An entry that starts above the version of a file is past it. -/
theorem Past.of_lt (hr : e.Rising) (h : f.version < e.file.version) :
    e.Past f (f.version + 1) := by
  refine ⟨h, ?_, fun g hg hv => ?_⟩
  · exact Nat.le_of_lt (Nat.lt_of_lt_of_le h (hr.file_le e.next_mem_files))
  · have := hr.file_le hg
    omega

theorem Past.mono {lower : Nat} (h : e.Past f floor) (hl : lower ≤ floor) : e.Past f lower :=
  ⟨Nat.le_trans hl h.floor, h.version, h.content⟩

theorem Past.advance {e' : Entry} (h : e.Past f floor) (ha : e.Advances e') :
    e'.Past f floor := by
  refine ⟨Nat.le_trans h.floor ha.file, Nat.le_trans h.version ha.next, fun g hg hv => ?_⟩
  rcases ha.files g hg with ⟨x, hx, hxv, hxc⟩ | hlt
  · exact hxc.trans (h.content x hx (hxv.symm.trans hv))
  · exact absurd h.version (by omega)

end

end Entry

namespace Cache

/-! ## Versions of a cache -/

/-- Staged content has a later version than the committed file that it stands beside. -/
def Rising (c : Cache) : Prop := ∀ e ∈ c.entries, e.Rising

/-- The cache is at or past the version of a file, in the entry of its path or, when the path is
forgotten, in the version that is kept of it. -/
structure Past (f : SourceFile) (floor : Nat) (c : Cache) : Prop where
  entry : ∀ e ∈ c.entries, e.path = f.path → e.Past f floor
  retired : (∀ e ∈ c.entries, e.path ≠ f.path) →
    ∃ last, c.retiredVersion? f.path = some last ∧ f.version ≤ last

/-- Versions go on from `c` to `c'`: what is past a file stays past it. The version after that of
the file is the highest that a path which comes back can be sure of. -/
structure Onward (c c' : Cache) : Prop where
  rising : c'.Rising
  past : ∀ f floor, floor ≤ f.version + 1 → c.Past f floor → c'.Past f floor

theorem Onward.trans {a b c : Cache} (h : a.Onward b) (h' : b.Onward c) : a.Onward c :=
  ⟨h'.rising, fun f floor hfloor hp => h'.past f floor hfloor (h.past f floor hfloor hp)⟩

section
variable {c c' : Cache}

theorem Rising.refl (hr : c.Rising) : c.Onward c := ⟨hr, fun _ _ _ hp => hp⟩

theorem Onward.of_map {g : Entry → Entry} (hentries : c'.entries = c.entries.map g)
    (hretired : c'.retired = c.retired)
    (hg : ∀ e ∈ c.entries, (g e).Rising ∧ e.Advances (g e)) : c.Onward c' := by
  refine ⟨fun e he => ?_, fun f floor _ hp => ⟨fun e he hpath => ?_, fun habsent => ?_⟩⟩
  · rw [hentries] at he
    obtain ⟨x, hx, rfl⟩ := List.mem_map.mp he
    exact (hg x hx).1
  · rw [hentries] at he
    obtain ⟨x, hx, rfl⟩ := List.mem_map.mp he
    have hadvances := (hg x hx).2
    exact (hp.entry x hx (hadvances.path.symm.trans hpath)).advance hadvances
  · unfold retiredVersion?
    rw [hretired]
    refine hp.retired fun x hx hpath => ?_
    exact habsent (g x) (hentries ▸ List.mem_map_of_mem hx) ((hg x hx).2.path.trans hpath)

theorem Rising.changeAt (hr : c.Rising) (id : FileId) {g : Entry → Entry}
    (hentries : c'.entries = c.entries.map (Entry.changeAt id g))
    (hretired : c'.retired = c.retired)
    (hg : ∀ e ∈ c.entries, (g e).Rising ∧ e.Advances (g e)) : c.Onward c' :=
  .of_map hentries hretired fun e he =>
    Entry.changeAt_of (P := fun e' => e'.Rising ∧ e.Advances e') ⟨hr e he, .refl e⟩ (hg e he) id

end

/-! ## Retired versions -/

section
variable {c : Cache}

/-- A path that comes back goes on after the version that is kept of it. -/
theorem newEntry_version {p : Path} {content : Text} {last : Nat}
    (h : c.retiredVersion? p = some last) :
    (c.newEntry p content).file.version = last + 1 := by
  simp only [newEntry, h]
  rfl

/-- A path that comes back takes its retired version along, and no other. -/
theorem retiredVersion?_stageNew {p q : Path} {content : Text} :
    (c.stageNew p content).retiredVersion? q = if q = p then none else c.retiredVersion? q := by
  show ((c.retired.filter (·.1 != p)).find? (·.1 == q)).map (·.2) = _
  rw [find?_key_filter_ne]
  split <;> rfl

/-- Of a path that it forgets a prune keeps the version that would be committed next. -/
theorem WellFormed.retiredVersion?_doomed (h : c.WellFormed) {keep : List Path} {e : Entry}
    (he : e ∈ c.entries) (hdoomed : e.path.among keep = false) :
    (c.pruned keep).retiredVersion? e.path = some e.next.version := by
  have hfind : (c.entries.filter fun e => !e.path.among keep).find? (·.path == e.path) = some e :=
    (find?_key_eq_some_iff (h.paths.sublist (List.filter_sublist.map _))).mpr
      ⟨List.mem_filter.mpr ⟨he, by simp [hdoomed]⟩, rfl⟩
  unfold retiredVersion? pruned
  rw [List.find?_append, List.find?_map]
  show Option.map _ ((Option.map _ (List.find? (fun x : Entry => x.path == e.path) _)).or _) = _
  rw [hfind]
  rfl

theorem retiredVersion?_pruned {keep : List Path} {p : Path}
    (hp : ∀ e ∈ c.entries, e.path.among keep = false → e.path ≠ p) :
    (c.pruned keep).retiredVersion? p = c.retiredVersion? p := by
  have hp : ∀ e ∈ c.entries.filter fun e => !e.path.among keep, e.path ≠ p := by
    intro e he
    obtain ⟨he, hdoomed⟩ := List.mem_filter.mp he
    exact hp e he (Bool.not_eq_true' _ ▸ hdoomed)
  have hnone : (c.entries.filter fun e => !e.path.among keep).find? (·.path == p) = none :=
    find?_key_eq_none_iff.mpr hp
  unfold retiredVersion? pruned
  rw [List.find?_append, List.find?_map]
  show Option.map _ ((Option.map _ (List.find? (fun x : Entry => x.path == p) _)).or _) = _
  rw [hnone, Option.map_none, Option.none_or, List.find?_filter]
  congr 2
  funext x
  by_cases hx : x.1 = p
  · have hkept : (c.entries.filter fun e => !e.path.among keep).any (·.path == p) = false := by
      rw [List.any_eq_false]
      exact fun e he => by simp [hp e he]
    simp [hx, hkept]
  · simp [hx]

end

/-! ## Every operation but a rollback goes on -/

section
variable {c : Cache} (h : c.Sound) (hr : c.Rising)
include h hr

theorem Sound.onward_stage (p : Path) (content : Text) : c.Onward (c.stage p content).2 := by
  obtain ⟨e, _, _, _, heq⟩ | ⟨hnew, _, heq⟩ := h.stage_cases p content
  · rw [heq]
    exact hr.changeAt e.id rfl rfl fun x hx => (hr x hx).restage (h.entries x hx) content
  · rw [heq]
    have hrising : (c.newEntry p.normalize content).Rising := .of_pending rfl
    refine ⟨fun x hx => ?_, fun f floor hfloor hp => ⟨fun x hx hpath => ?_, fun habsent => ?_⟩⟩
    · rcases List.mem_append.mp hx with hx | hx
      · exact hr x hx
      · exact List.mem_singleton.mp hx ▸ hrising
    · rcases List.mem_append.mp hx with hx | hx
      · exact hp.entry x hx hpath
      -- the path was forgotten, so what is kept of it is passed by its new version
      · obtain rfl := List.mem_singleton.mp hx
        have hpath : p.normalize = f.path := hpath
        obtain ⟨last, hlast, hle⟩ := hp.retired fun x hx => hpath ▸ hnew x hx
        have hversion : (c.newEntry p.normalize content).file.version = last + 1 :=
          newEntry_version (hpath ▸ hlast)
        exact (Entry.Past.of_lt hrising (by omega)).mono hfloor
    · have hne : f.path ≠ p.normalize := fun hpath =>
        habsent _ (List.mem_append_right _ (List.mem_singleton_self _)) hpath.symm
      rw [retiredVersion?_stageNew, if_neg hne]
      exact hp.retired fun x hx => habsent x (List.mem_append_left _ hx)

theorem Sound.onward_markExternal (p : Path) : c.Onward (c.markExternal p).2 := by
  obtain ⟨e, _, _, heq⟩ | ⟨_, heq⟩ := h.markExternal_cases p
  · rw [heq]
    exact hr.changeAt e.id rfl rfl fun x hx => (hr x hx).setExternal true
  · rw [heq]
    exact hr.refl

theorem Sound.onward_commit : c.Onward c.commit := by
  refine .of_map c.commit_entries rfl fun e he => ?_
  cases hs : e.staged with
  | true =>
    obtain ⟨rank, _, heq⟩ := h.commitEntry_of_staged he hs
    rw [heq]
    exact (hr e he).commit (h.entries e he) _ _
  | false =>
    rw [(h.commitEntry_of_not_staged he hs).2]
    exact ⟨hr e he, rfl, Nat.le_refl _, Nat.le_refl _, fun g hg => Or.inl ⟨g, hg, rfl, rfl⟩⟩

theorem Sound.onward_prune (keep : List Path) : c.Onward (c.prune keep).2 := by
  rw [h.prune_eq keep]
  refine ⟨fun x hx => ?_, fun f floor _ hp => ⟨fun x hx hpath => ?_, fun habsent => ?_⟩⟩
  · obtain ⟨e, he, rfl⟩ := List.mem_map.mp hx
    exact hr e (List.mem_filter.mp he).1
  · obtain ⟨e, he, rfl⟩ := List.mem_map.mp hx
    obtain ⟨hfloor, hversion, hcontent⟩ := hp.entry e (List.mem_filter.mp he).1 hpath
    exact ⟨hfloor, hversion, hcontent⟩
  · by_cases hknown : ∃ e ∈ c.entries, e.path = f.path
    · obtain ⟨e, he, hpath⟩ := hknown
      have hdoomed : e.path.among keep = false := by
        by_contra hkept
        have hmem : e ∈ c.entries.filter (·.path.among keep) :=
          List.mem_filter.mpr ⟨he, by simpa using hkept⟩
        exact habsent _ (List.mem_map_of_mem hmem) hpath
      exact ⟨_, hpath ▸ h.retiredVersion?_doomed he hdoomed, (hp.entry e he hpath).version⟩
    · have hnone : ∀ e ∈ c.entries, e.path ≠ f.path := fun e he hpath => hknown ⟨e, he, hpath⟩
      rw [retiredVersion?_pruned fun e he _ => hnone e he]
      exact hp.retired hnone

end

end Cache

/-- Whether an operation takes nothing back. -/
def CacheStep.Forward : CacheStep → Prop
  | .rollback => False
  | _ => True

namespace Cache

theorem Sound.onward_apply {c : Cache} (h : c.Sound) (hr : c.Rising) {s : CacheStep}
    (hs : s.Forward) : c.Onward (c.apply s) := by
  cases s with
  | upsert p content => exact h.onward_stage hr p content
  | markExternal p => exact h.onward_markExternal hr p
  | reset => exact h.onward_commit hr
  | rollback => exact hs.elim
  | prune keep => exact h.onward_prune hr keep

theorem Sound.onward_foldl {c : Cache} (h : c.Sound) (hr : c.Rising) {steps : List CacheStep}
    (hs : ∀ s ∈ steps, s.Forward) : c.Onward (steps.foldl Cache.apply c) := by
  induction steps generalizing c with
  | nil => exact hr.refl
  | cons s steps ih =>
    have hstep := h.onward_apply hr (hs s List.mem_cons_self)
    exact hstep.trans (ih (h.apply s) hstep.rising fun t ht => hs t (List.mem_cons_of_mem s ht))

/-! ## What can be seen of a path -/

/-- The file that is staged of a path. -/
def stagedAt? (c : Cache) (p : Path) : Option SourceFile :=
  ((c.lookup? p).filter Entry.staged).map Entry.next

/-- The files of a path: the committed one and the staged one. -/
def filesAt (c : Cache) (p : Path) : List SourceFile := (c.get? p).toList ++ (c.stagedAt? p).toList

/-- The latest file of a path: the staged one if there is one, and the committed one otherwise. -/
def latest? (c : Cache) (p : Path) : Option SourceFile := (c.stagedAt? p).or (c.get? p)

/-- The version that a path has reached. -/
def version? (c : Cache) (p : Path) : Option Nat := (c.latest? p).map SourceFile.version

section
variable {c : Cache} (h : c.WellFormed) {p : Path}
include h

theorem WellFormed.mem_filesAt {f : SourceFile} (hf : f ∈ c.filesAt p) :
    ∃ e ∈ c.entries, e.path = p.normalize ∧ f ∈ e.files ∧ f.path = p.normalize := by
  have hfrom : ∃ e, c.lookup? p = some e ∧ f ∈ e.files := by
    rcases List.mem_append.mp hf with hf | hf
    · obtain ⟨e, he, rfl⟩ := Option.map_eq_some_iff.mp (Option.mem_toList.mp hf)
      exact ⟨e, he, Entry.mem_files.mpr (Or.inl rfl)⟩
    · obtain ⟨e, he, rfl⟩ := Option.map_eq_some_iff.mp (Option.mem_toList.mp hf)
      exact ⟨e, (Option.filter_eq_some_iff.mp he).1, e.next_mem_files⟩
  obtain ⟨e, he, hf⟩ := hfrom
  obtain ⟨he, hpath⟩ := h.lookup?_eq_some_iff.mp he
  exact ⟨e, he, hpath, hf, ((h.entries e he).name_of_mem_files hf).2.trans hpath⟩

theorem WellFormed.of_mem_filesAt {f : SourceFile} (hf : f ∈ c.filesAt p) :
    f.Made ∧ f.path = p.normalize := by
  obtain ⟨e, he, _, hmem, hpath⟩ := h.mem_filesAt hf
  exact ⟨(h.entries e he).made_of_mem_files hmem, hpath⟩

/-- The latest file of a path is the one that its entry would commit next. -/
theorem WellFormed.latest?_eq : c.latest? p = (c.lookup? p).map Entry.next := by
  unfold latest? stagedAt? get?
  cases hl : c.lookup? p with
  | none => rfl
  | some e =>
    cases hs : e.staged with
    | true => simp [Option.filter, hs]
    | false =>
      have hp := h.pending_of_not_staged (h.lookup?_eq_some_iff.mp hl).1 hs
      simp [Option.filter, hs, Entry.next, hp]

theorem WellFormed.version?_eq : c.version? p = (c.lookup? p).map (·.next.version) := by
  unfold version?
  rw [h.latest?_eq, Option.map_map]
  rfl

end

theorem latest?_mem {c : Cache} {p : Path} {f : SourceFile} (hf : c.latest? p = some f) :
    f ∈ c.filesAt p := by
  rw [filesAt, List.mem_append, Option.mem_toList, Option.mem_toList]
  rcases Option.or_eq_some_iff.mp hf with hf | ⟨_, hf⟩
  · exact Or.inr hf
  · exact Or.inl hf

section
variable {c : Cache} (h : c.Sound) (p : Path) (content : Text)
include h

/-- Staging raises the version of a path by one, unless the content is the latest one. -/
theorem Sound.version?_stage {f : SourceFile} (hf : c.latest? p = some f) :
    (c.stage p content).2.version? p =
      some (if ContentHash.ofText content = f.hash then f.version else f.version + 1) := by
  rw [h.latest?_eq, Option.map_eq_some_iff] at hf
  obtain ⟨e, hl, rfl⟩ := hf
  have hsound := h.entries e (h.lookup?_eq_some_iff.mp hl).1
  have hafter : (c.stage p content).2.lookup? p = some (e.restage content) := by
    rw [h.lookup?_stage, if_pos rfl, restaged, hl]
  rw [(h.stage p content).version?_eq, hafter, Option.map_some, hsound.restage_version]

/-- Staging raises the version of a path if the path is new or the content is not its latest. -/
theorem Sound.version?_lt_stage_iff :
    c.version? p < (c.stage p content).2.version? p ↔
      c.latest? p = none ∨ ∃ f, c.latest? p = some f ∧ f.hash ≠ ContentHash.ofText content := by
  cases hl : c.latest? p with
  | none =>
    have hbefore : c.version? p = none := by rw [version?, hl, Option.map_none]
    have hafter : (c.stage p content).2.lookup? p = some (c.restaged p content) := by
      rw [h.lookup?_stage, if_pos rfl]
    rw [hbefore, (h.stage p content).version?_eq, hafter]
    simp
  | some f =>
    have hbefore : c.version? p = some f.version := by rw [version?, hl, Option.map_some]
    rw [hbefore, h.version?_stage p content hl, Option.some_lt_some]
    split
    · next hh => simp [hh]
    · next hh => simpa using fun hh' => hh hh'.symm

end

/-! ## Versions over a run -/

/-- A file that is seen at a path is past in everything that comes after it. -/
theorem Sound.past_of_mem {c : Cache} (h : c.Sound) (hr : c.Rising) {p : Path} {f : SourceFile}
    (hf : f ∈ c.filesAt p) : c.Past f 0 := by
  obtain ⟨e, he, hpath, hmem, hfpath⟩ := h.mem_filesAt hf
  refine ⟨fun x hx hxpath => ?_, fun habsent => absurd (hpath.trans hfpath.symm) (habsent e he)⟩
  obtain rfl := h.eq_of_path hx he (hxpath.trans (hfpath.trans hpath.symm))
  exact .of_mem (hr x hx) hmem

section
variable {c : Cache} {f : SourceFile} {floor : Nat} (hp : c.Past f floor)
include hp

/-- Of a path that is not known nothing is left that could have a version as low again. -/
theorem Past.raise (habsent : ∀ e ∈ c.entries, e.path ≠ f.path) : c.Past f (f.version + 1) :=
  ⟨fun e he hpath => absurd hpath (habsent e he), hp.retired⟩

theorem Past.le_version (h : c.WellFormed) {p : Path} (hpath : f.path = p.normalize)
    {version : Nat} (hv : c.version? p = some version) : f.version ≤ version := by
  rw [h.version?_eq, Option.map_eq_some_iff] at hv
  obtain ⟨e, hl, rfl⟩ := hv
  obtain ⟨he, hepath⟩ := h.lookup?_eq_some_iff.mp hl
  exact (hp.entry e he (hepath.trans hpath.symm)).version

/-- What is seen at the path of the file stands at or above the floor, and under the version of
the file it is the file. -/
theorem Past.of_mem (h : c.WellFormed) (hr : c.Rising) {p : Path} (hpath : f.path = p.normalize)
    {g : SourceFile} (hg : g ∈ c.filesAt p) :
    floor ≤ g.version ∧ (g.version = f.version → g.content = f.content) := by
  obtain ⟨e, he, hepath, hmem, _⟩ := h.mem_filesAt hg
  have hpast := hp.entry e he (hepath.trans hpath.symm)
  exact ⟨Nat.le_trans hpast.floor ((hr e he).file_le hmem), hpast.content g hmem⟩

end

theorem get?_eq_none_iff {c : Cache} {p : Path} :
    c.get? p = none ↔ ∀ e ∈ c.entries, e.path ≠ p.normalize := by
  rw [get?, Option.map_eq_none_iff]
  exact find?_key_eq_none_iff

theorem runSteps_onward {steps more : List CacheStep} (hforward : ∀ s ∈ steps ++ more, s.Forward) :
    (runSteps steps).Rising ∧ (runSteps steps).Onward (runSteps (steps ++ more)) := by
  have hempty : empty.Rising := fun _ he => absurd he List.not_mem_nil
  have hr := (empty_sound.onward_foldl hempty fun s hs =>
    hforward s (List.mem_append_left more hs)).rising
  rw [runSteps_append]
  exact ⟨hr, (runSteps_sound steps).onward_foldl hr fun s hs =>
    hforward s (List.mem_append_right steps hs)⟩

/-- Over any run that takes nothing back the version that a path has reached never decreases.
Staging a content raises it if the path is new to the cache or the content has another hash than
the latest staged or committed one, and in no other case. A path that was forgotten comes back
under versions that are higher than all it ever had. So a path and a version name one content. -/
theorem versions_only_grow (steps more : List CacheStep) (hforward : ∀ s ∈ steps ++ more, s.Forward)
    (p : Path) :
    (∀ version version', (runSteps steps).version? p = some version →
      (runSteps (steps ++ more)).version? p = some version' → version ≤ version') ∧
    (∀ content, (runSteps steps).version? p <
        (runSteps (steps ++ [.upsert p content])).version? p ↔
      (runSteps steps).latest? p = none ∨
        ∃ f, (runSteps steps).latest? p = some f ∧ f.hash ≠ ContentHash.ofText content) ∧
    (∀ f ∈ (runSteps steps).filesAt p, ∀ between later, more = between ++ later →
      (runSteps (steps ++ between)).get? p = none →
      ∀ f' ∈ (runSteps (steps ++ more)).filesAt p, f.version < f'.version) ∧
    ∀ f ∈ (runSteps steps).filesAt p, ∀ f' ∈ (runSteps (steps ++ more)).filesAt p,
      f'.version = f.version → f'.content = f.content ∧ f'.hash = f.hash := by
  obtain ⟨hr, honward⟩ := runSteps_onward hforward
  have h := runSteps_sound steps
  have hmore := runSteps_sound (steps ++ more)
  have hpath : ∀ f ∈ (runSteps steps).filesAt p, f.path = p.normalize := fun f hf =>
    (h.of_mem_filesAt hf).2
  refine ⟨fun version version' hv hv' => ?_, fun content => ?_,
    fun f hf between later hsplit habsent f' hf' => ?_, fun f hf f' hf' hv => ?_⟩
  · obtain ⟨f, hf, rfl⟩ := Option.map_eq_some_iff.mp hv
    have hf := latest?_mem hf
    have hpast := honward.past f 0 (Nat.zero_le _) (h.past_of_mem hr hf)
    exact hpast.le_version hmore.toWellFormed (hpath f hf) hv'
  · rw [runSteps_append]
    exact h.version?_lt_stage_iff p content
  · subst hsplit
    rw [← List.append_assoc] at hforward hmore hf'
    obtain ⟨_, hlater⟩ := runSteps_onward hforward
    have hbetween := (runSteps_onward fun s hs => hforward s (List.mem_append_left later hs)).2
    -- where the path is not known, the floor can be raised above the version of the file
    have hpast := hbetween.past f 0 (Nat.zero_le _) (h.past_of_mem hr hf)
    have hraised := hpast.raise (hpath f hf ▸ get?_eq_none_iff.mp habsent)
    have hpast' := hlater.past f (f.version + 1) (Nat.le_refl _) hraised
    exact (hpast'.of_mem hmore.toWellFormed hlater.rising (hpath f hf) hf').1
  · have hpast := honward.past f 0 (Nat.zero_le _) (h.past_of_mem hr hf)
    have hcontent := (hpast.of_mem hmore.toWellFormed honward.rising (hpath f hf) hf').2 hv
    refine ⟨hcontent, ?_⟩
    rw [(hmore.of_mem_filesAt hf').1.hash, (h.of_mem_filesAt hf).1.hash, hcontent]

/-- A path that is forgotten comes back above its old version, also with its old content. -/
theorem version_after_prune :
    let steps : List CacheStep := [.upsert ⟨"/a.ts".toList⟩ "1".toList, .reset]
    let more : List CacheStep := [.prune [], .upsert ⟨"/a.ts".toList⟩ "1".toList]
    (∀ s ∈ steps ++ more, s.Forward) ∧
      (runSteps steps).version? ⟨"/a.ts".toList⟩ = some 1 ∧
      (runSteps (steps ++ more)).version? ⟨"/a.ts".toList⟩ = some 2 ∧
      ∀ f ∈ (runSteps steps).filesAt ⟨"/a.ts".toList⟩,
        ∀ f' ∈ (runSteps (steps ++ more)).filesAt ⟨"/a.ts".toList⟩, f.version < f'.version := by
  intro steps more
  have hforward : ∀ s ∈ steps ++ more, s.Forward := by
    simp [steps, more, CacheStep.Forward]
  refine ⟨hforward, by decide +kernel, by decide +kernel, fun f hf => ?_⟩
  have hgrow := (versions_only_grow steps more hforward ⟨"/a.ts".toList⟩).2.2.1
  exact hgrow f hf [.prune []] [.upsert ⟨"/a.ts".toList⟩ "1".toList] rfl (by decide +kernel)

end Cache

end IncrementalBuild
