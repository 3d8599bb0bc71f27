import Mathlib.Data.Set.Defs
import IncrementalBuild.Source.Cache
/-!
# Entries of the source cache

What staging does to one entry. The main facts are that the file an entry would commit next has
the content staged last, and that nothing committed changes before a reset.
-/
namespace IncrementalBuild

namespace SourceFile

/-- A file whose hash, references and lines are those of its content. -/
structure Made (f : SourceFile) : Prop where
  hash : f.hash = ContentHash.ofText f.content
  references : f.references = Header.references f.id f.path f.content
  lines : f.lineTable = lineStarts f.content

theorem ofContent_made (id : FileId) (p : Path) (content : Text) (version : Nat) :
    (ofContent id p content version).Made :=
  ⟨rfl, rfl, rfl⟩

theorem Made.mark {f : SourceFile} (h : f.Made) (external : Bool) :
    ({ f with external } : SourceFile).Made :=
  ⟨h.hash, h.references, h.lines⟩

section
variable (f : SourceFile) (content : Text)

@[simp] theorem replaceContent_id : (f.replaceContent content).id = f.id := by
  unfold replaceContent
  split <;> rfl

@[simp] theorem replaceContent_path : (f.replaceContent content).path = f.path := by
  unfold replaceContent
  split <;> rfl

@[simp] theorem replaceContent_hash :
    (f.replaceContent content).hash = ContentHash.ofText content := by
  unfold replaceContent
  split
  · next h => exact h.symm
  · rfl

/-- Replacing a content by one of the same hash keeps the old text. -/
theorem replaceContent_content :
    (f.replaceContent content).content = f.content ∨
      (f.replaceContent content).content = content := by
  unfold replaceContent
  split
  · exact Or.inl rfl
  · exact Or.inr rfl

theorem Made.replaceContent {f : SourceFile} (h : f.Made) (content : Text) :
    (f.replaceContent content).Made := by
  unfold SourceFile.replaceContent
  split
  · exact h
  · exact (ofContent_made ..).mark _

end

end SourceFile

namespace Entry

/-- What holds of every entry: its files are made of their contents, staged content beside the
file is of the same file and only there while the entry is staged, and the committed hash is the
one of the file. -/
structure Sound (e : Entry) : Prop where
  file : e.file.Made
  pending : ∀ f, e.pending = some f → f.Made ∧ f.id = e.id ∧ f.path = e.path
  beside : e.pending.isSome → e.staged = true ∧ e.committed.isSome
  committed : ∀ hash, e.committed = some hash → hash = e.file.hash
  inCycle : e.rank.isSome → e.committed.isSome

/-- The contents an entry holds. -/
def Within (contents : Set Text) (e : Entry) : Prop :=
  e.file.content ∈ contents ∧ ∀ f, e.pending = some f → f.content ∈ contents

/-- `e'` is of the same file as `e` and has the same committed. A file that was never committed
may have another content. -/
structure Keeps (e e' : Entry) : Prop where
  id : e'.id = e.id
  path : e'.path = e.path
  committed : e'.committed = e.committed
  rank : e'.rank = e.rank
  changedIn : e'.changedIn = e.changedIn
  file : e.committed.isSome → e'.file = e.file

theorem Keeps.refl (e : Entry) : e.Keeps e := ⟨rfl, rfl, rfl, rfl, rfl, fun _ => rfl⟩

theorem Keeps.trans {a b c : Entry} (h : a.Keeps b) (h' : b.Keeps c) : a.Keeps c where
  id := h'.id.trans h.id
  path := h'.path.trans h.path
  committed := h'.committed.trans h.committed
  rank := h'.rank.trans h.rank
  changedIn := h'.changedIn.trans h.changedIn
  file hc := (h'.file (h.committed ▸ hc)).trans (h.file hc)

theorem Keeps.name {e e' : Entry} (h : e.Keeps e') : e'.id = e.id ∧ e'.path = e.path :=
  ⟨h.id, h.path⟩

/-- An entry after a change of the entry with an id. -/
def changeAt (id : FileId) (f : Entry → Entry) (e : Entry) : Entry := if e.id = id then f e else e

section
variable {f : Entry → Entry} {e : Entry}

theorem changeAt_self (f : Entry → Entry) (e : Entry) : e.changeAt e.id f = f e := if_pos rfl

theorem changeAt_of_ne {id : FileId} (h : e.id ≠ id) : e.changeAt id f = e := if_neg h

/-- What holds of an entry before and after a change holds wherever the change is made. -/
theorem changeAt_of {P : Entry → Prop} (h : P e) (hf : P (f e)) (id : FileId) :
    P (e.changeAt id f) := by
  unfold changeAt
  split
  · exact hf
  · exact h

theorem Keeps.changeAt (hf : ∀ e : Entry, e.Keeps (f e)) (id : FileId) (e : Entry) :
    e.Keeps (e.changeAt id f) :=
  changeAt_of (Keeps.refl e) (hf e) id

end

theorem map_changeAt_last {entries : List Entry} {e : Entry}
    (h : ∀ x ∈ entries, x.id ≠ e.id) (g : Entry → Entry) :
    (entries ++ [e]).map (changeAt e.id g) = entries ++ [g e] := by
  have hold : entries.map (changeAt e.id g) = entries :=
    (List.map_congr_left fun x hx => changeAt_of_ne (h x hx)).trans (List.map_id _)
  rw [List.map_append, hold, List.map_singleton, changeAt_self]

theorem Sound.next {e : Entry} (h : e.Sound) :
    e.next.Made ∧ e.next.id = e.id ∧ e.next.path = e.path := by
  unfold Entry.next
  cases hp : e.pending with
  | none => exact ⟨h.file, rfl, rfl⟩
  | some f => exact h.pending f hp

theorem Within.next {contents : Set Text} {e : Entry} (h : e.Within contents) :
    e.next.content ∈ contents := by
  unfold Entry.next
  cases hp : e.pending with
  | none => exact h.1
  | some f => exact h.2 f hp

theorem Sound.pending_of_new {e : Entry} (h : e.Sound) (hc : e.committed = none) :
    e.pending = none := by
  cases hp : e.pending with
  | none => rfl
  | some f =>
    have := (h.beside (by simp [hp])).2
    simp [hc] at this

theorem Sound.outside_of_new {e : Entry} (h : e.Sound) (hc : e.committed = none) :
    e.inCycle = false := by
  have := h.inCycle
  simpa [hc, Entry.inCycle] using this

/-! ## Marking -/

section
variable {e : Entry} (external : Bool)

theorem setExternal_keeps (e : Entry) : e.Keeps (e.setExternal external) := by
  unfold setExternal
  split
  · exact ⟨rfl, rfl, rfl, rfl, rfl, fun _ => rfl⟩
  · split
    · next hn => exact ⟨rfl, rfl, rfl, rfl, rfl, fun hc => by simp_all⟩
    · exact ⟨rfl, rfl, rfl, rfl, rfl, fun _ => rfl⟩

@[simp] theorem setExternal_staged : (e.setExternal external).staged = e.staged := by
  unfold setExternal
  split
  · rfl
  · split <;> rfl

theorem setExternal_external :
    (e.setExternal external).external = external := by
  unfold setExternal
  split
  · rfl
  · split <;> rfl

/-- Marking changes nothing of the file that is committed next but its mark. -/
theorem setExternal_next :
    ∃ mark, (e.setExternal external).next = { e.next with external := mark } := by
  unfold setExternal Entry.next
  cases e.pending with
  | some f => exact ⟨external, rfl⟩
  | none =>
    dsimp only
    split
    · exact ⟨external, rfl⟩
    · exact ⟨e.file.external, rfl⟩

theorem Sound.setExternal (h : e.Sound) : (e.setExternal external).Sound := by
  unfold Entry.setExternal
  split
  · next f hf =>
    obtain ⟨hm, hid, hpath⟩ := h.pending f hf
    refine ⟨h.file, ?_, fun _ => h.beside (by simp [hf]), h.committed, h.inCycle⟩
    intro g hg
    cases hg
    exact ⟨hm.mark external, hid, hpath⟩
  · next hp =>
    split
    · next hn =>
      refine ⟨h.file.mark external, fun f hf => ?_, fun hs => ?_, h.committed, h.inCycle⟩
      · exact absurd hf (by simp [hp])
      · exact absurd hs (by simp [hp])
    · exact ⟨h.file, h.pending, h.beside, h.committed, h.inCycle⟩

theorem Within.setExternal {contents : Set Text} (h : e.Within contents) :
    (e.setExternal external).Within contents := by
  unfold Entry.setExternal
  split
  · next f hf =>
    refine ⟨h.1, fun g hg => ?_⟩
    cases hg
    exact h.2 f hf
  · split
    · exact ⟨h.1, h.2⟩
    · exact ⟨h.1, h.2⟩

end

/-! ## Staging -/

/-- An entry that is staged with a content as a file of the project's own. -/
def restage (e : Entry) (content : Text) : Entry :=
  { (e.stage content).setExternal false with staged := true }

section
variable {e : Entry} (content : Text)

theorem stage_keeps (e : Entry) : e.Keeps (e.stage content) := by
  unfold stage
  split
  · refine ⟨?_, ?_, rfl, rfl, rfl, fun hc => ?_⟩
    · simp [Entry.id]
    · simp [Entry.path]
    · simp_all
  · split
    · exact ⟨rfl, rfl, rfl, rfl, rfl, fun _ => rfl⟩
    · split <;> exact ⟨rfl, rfl, rfl, rfl, rfl, fun _ => rfl⟩

theorem restage_keeps (e : Entry) : e.Keeps (e.restage content) := by
  have h := (stage_keeps content e).trans (setExternal_keeps false (e.stage content))
  exact ⟨h.id, h.path, h.committed, h.rank, h.changedIn, h.file⟩

/-- The file that is committed next has the hash of what was staged last. -/
theorem Sound.restage_next_hash (h : e.Sound) :
    (e.restage content).next.hash = ContentHash.ofText content := by
  obtain ⟨mark, hmark⟩ := setExternal_next (e := e.stage content) false
  have hs : (e.restage content).next = ((e.stage content).setExternal false).next := rfl
  rw [hs, hmark]
  show (e.stage content).next.hash = _
  unfold stage Entry.next
  split
  · next hn =>
    rw [h.pending_of_new (Option.isNone_iff_eq_none.mp hn)]
    simp
  · split
    · simp
    · next hp =>
      split
      · next hh => simp [hp, hh]
      · rfl

theorem Sound.stage (h : e.Sound) (hs : e.staged = true) : (e.stage content).Sound := by
  unfold Entry.stage
  split
  · next hn =>
    have hp := h.pending_of_new (Option.isNone_iff_eq_none.mp hn)
    refine ⟨h.file.replaceContent content, ?_, ?_, ?_, h.inCycle⟩
    · simp [hp]
    · simp [hp]
    · simp_all
  · next hc =>
    have hc : e.committed.isSome := by simpa [Option.isSome_iff_ne_none] using hc
    split
    · next f hf =>
      obtain ⟨hm, hid, hpath⟩ := h.pending f hf
      refine ⟨h.file, ?_, fun _ => ⟨hs, hc⟩, h.committed, h.inCycle⟩
      intro g hg
      cases hg
      exact ⟨hm.replaceContent content, (f.replaceContent_id content).trans hid,
        (f.replaceContent_path content).trans hpath⟩
    · split
      · exact h
      · refine ⟨h.file, ?_, fun _ => ⟨hs, hc⟩, h.committed, h.inCycle⟩
        intro g hg
        cases hg
        exact ⟨(SourceFile.ofContent_made ..).mark _, rfl, rfl⟩

theorem stage_mark_staged (b : Bool) :
    ({ e with staged := b } : Entry).stage content = { e.stage content with staged := b } := by
  unfold Entry.stage
  split
  · rfl
  · dsimp only
    split
    · rfl
    · split <;> rfl

@[simp] theorem stage_staged : (e.stage content).staged = e.staged := by
  unfold Entry.stage
  split
  · rfl
  · split
    · rfl
    · split <;> rfl

theorem Sound.restage (h : e.Sound) : (e.restage content).Sound := by
  have hs : ({ e with staged := true } : Entry).Sound :=
    ⟨h.file, h.pending, fun hp => ⟨rfl, (h.beside hp).2⟩, h.committed, h.inCycle⟩
  have hr : e.restage content =
      (({ e with staged := true } : Entry).stage content).setExternal false := by
    rw [stage_mark_staged]
    unfold Entry.restage Entry.setExternal
    dsimp only
    split
    · rfl
    · split <;> rfl
  rw [hr]
  exact (hs.stage content rfl).setExternal false

theorem Within.restage {contents : Set Text} (h : e.Within contents) (hc : content ∈ contents) :
    (e.restage content).Within contents := by
  have hreplace : ∀ f : SourceFile, f.content ∈ contents →
      (f.replaceContent content).content ∈ contents := by
    intro f hf
    rcases f.replaceContent_content content with hr | hr <;> rw [hr] <;> assumption
  have hs : (e.stage content).Within contents := by
    unfold Entry.stage
    split
    · exact ⟨hreplace _ h.1, h.2⟩
    · split
      · next f hf =>
        refine ⟨h.1, fun g hg => ?_⟩
        cases hg
        exact hreplace f (h.2 f hf)
      · split
        · exact h
        · refine ⟨h.1, fun g hg => ?_⟩
          cases hg
          exact hc
  exact hs.setExternal false

end

theorem restage_new (f : SourceFile) (hf : f.external = false) :
    { (Entry.new f).setExternal false with staged := true } =
      { Entry.new f with staged := true } := by
  simp [Entry.new, Entry.setExternal, ← hf]

end Entry

end IncrementalBuild
