import IncrementalBuild.Proofs.CacheCycle
/-!
# What a cache shows of its committed cycle

The committed part of a cache is one value, and everything that can be asked about the committed
cycle is a function of it. Staging and marking leave that value alone, and a rollback just after a
reset gives it back.
-/
namespace IncrementalBuild

/-- An entry without anything that is staged. -/
def Entry.settled (e : Entry) : Entry :=
  { e with pending := none, external := e.file.external, staged := false }

theorem Entry.Keeps.settled {e e' : Entry} (h : e.Keeps e') (hc : e.committed.isSome) :
    e'.settled = e.settled := by
  unfold Entry.settled
  rw [h.file hc, h.committed, h.rank, h.changedIn]

/-- The committed part of a cache: its cycle, the members of the cycle, and every entry that was
committed. -/
structure CommittedView where
  cycle : Nat
  members : List FileId
  entries : List Entry

namespace CommittedView

def entry? (v : CommittedView) (id : FileId) : Option Entry := v.entries.find? (·.id == id)

def lookup? (v : CommittedView) (p : Path) : Option Entry :=
  v.entries.find? (·.path == p.normalize)

def files (v : CommittedView) : List SourceFile := (v.members.filterMap v.entry?).map Entry.file

end CommittedView

namespace Cache

/-- The committed entries of a list, without anything that is staged. -/
def settle (entries : List Entry) : List Entry :=
  (entries.filter (·.committed.isSome)).map Entry.settled

def view (c : Cache) : CommittedView := ⟨c.cycle, c.members, settle c.entries⟩

/-- Two caches that show the same committed cycle. -/
structure ShowsSame (c c' : Cache) : Prop where
  cycle : c'.cycle = c.cycle
  files : c'.files = c.files
  position : ∀ id, c'.position? id = c.position? id
  contains : ∀ p, c'.contains p = c.contains p
  hasChanged : ∀ p, c'.hasChanged p = c.hasChanged p

/-! ## The view decides what is shown -/

theorem view_find? (c : Cache) (p : Entry → Bool) (hp : ∀ e : Entry, p e.settled = p e)
    (hu : ∀ e ∈ c.entries, ∀ e' ∈ c.entries, p e → p e' → e = e') :
    c.view.entries.find? p =
      ((c.entries.find? p).filter (·.committed.isSome)).map Entry.settled := by
  have hp' : p ∘ Entry.settled = p := funext hp
  simp only [view, settle, List.find?_map, hp', List.find?_filter]
  congr 1
  cases hf : c.entries.find? p with
  | none =>
    rw [Option.filter_none, List.find?_eq_none]
    intro e he
    simp [List.find?_eq_none.mp hf e he]
  | some e =>
    have he := List.mem_of_find?_eq_some hf
    have hpe := List.find?_some hf
    -- no other entry passes the test, so it is this one that is committed or not
    cases hc : e.committed with
    | none =>
      have hnone : ∀ x ∈ c.entries, ¬decide (x.committed.isSome = true ∧ p x = true) = true := by
        intro x hx hpx
        obtain ⟨hxc, hpx⟩ := of_decide_eq_true hpx
        simp [hu x hx e he hpx hpe, hc] at hxc
      rw [List.find?_eq_none.mpr hnone]
      simp [Option.filter, hc]
    | some hash =>
      cases hx : c.entries.find? fun a => decide (a.committed.isSome = true ∧ p a = true) with
      | none => exact absurd (List.find?_eq_none.mp hx e he) (by simp [hc, hpe])
      | some x =>
        have hpx : x.committed.isSome = true ∧ p x = true := by simpa using List.find?_some hx
        rw [hu x (List.mem_of_find?_eq_some hx) e he hpx.2 hpe]
        simp [Option.filter, hc]

section
variable {c : Cache} (h : c.WellFormed)
include h

theorem WellFormed.view_entry? (id : FileId) : c.view.entry? id =
    ((c.entry? id).filter (·.committed.isSome)).map Entry.settled :=
  c.view_find? _ (fun _ => rfl) fun e he e' he' hp hp' => by
    simp only [beq_iff_eq] at hp hp'
    exact h.eq_of_id he he' (hp.trans hp'.symm)

theorem WellFormed.view_lookup? (p : Path) : c.view.lookup? p =
    ((c.lookup? p).filter (·.committed.isSome)).map Entry.settled :=
  c.view_find? _ (fun _ => rfl) fun e he e' he' hp hp' => by
    simp only [beq_iff_eq] at hp hp'
    exact h.eq_of_path he he' (hp.trans hp'.symm)

theorem WellFormed.committed_of_member {e : Entry} (he : e ∈ c.entries)
    (hm : e.id ∈ c.members) : e.committed.isSome :=
  (h.entries e he).inCycle ((h.member_iff he).mp hm)

theorem WellFormed.view_entry?_of_member {id : FileId} (hid : id ∈ c.members) :
    c.view.entry? id = (c.entry? id).map Entry.settled := by
  obtain ⟨e, he, rfl⟩ := h.members id hid
  rw [h.view_entry?, h.entry?_of_mem he]
  simp [h.committed_of_member he hid]

theorem WellFormed.mem_files {f : SourceFile} :
    f ∈ c.files ↔ ∃ e ∈ c.entries, e.inCycle = true ∧ e.file = f := by
  simp only [files, List.mem_map, List.mem_filterMap]
  constructor
  · rintro ⟨e, ⟨id, hid, he⟩, hf⟩
    obtain ⟨hm, rfl⟩ := h.entry?_eq_some_iff.mp he
    exact ⟨e, hm, (h.member_iff hm).mp hid, hf⟩
  · rintro ⟨e, he, hin, hf⟩
    exact ⟨e, ⟨e.id, (h.member_iff he).mpr hin, h.entry?_of_mem he⟩, hf⟩

theorem WellFormed.files_made {f : SourceFile} (hf : f ∈ c.files) : f.Made := by
  obtain ⟨e, he, _, rfl⟩ := h.mem_files.mp hf
  exact (h.entries e he).file

theorem WellFormed.files_id : c.files.map SourceFile.id = c.members := by
  unfold files
  rw [List.map_map]
  exact map_key_filterMap_find? h.members

theorem WellFormed.files_eq : c.files = c.view.files := by
  unfold Cache.files CommittedView.files
  rw [List.map_filterMap, List.map_filterMap]
  apply List.filterMap_congr
  intro id hid
  rw [h.view_entry?_of_member hid, Option.map_map]
  rfl

theorem WellFormed.file?_of_member {id : FileId} (hid : id ∈ c.members) :
    c.file? id = (c.view.entry? id).map Entry.file := by
  rw [h.view_entry?_of_member hid, Option.map_map]
  rfl

/-- What is asked of the entry of a path, if only entries of the cycle answer. -/
theorem WellFormed.any_lookup? (q : Entry → Bool) (hq : ∀ e : Entry, q e → e.inCycle)
    (hs : ∀ e : Entry, q e.settled = q e) (p : Path) :
    (c.lookup? p).any q = (c.view.lookup? p).any q := by
  rw [h.view_lookup?]
  cases hl : c.lookup? p with
  | none => rfl
  | some e =>
    obtain ⟨he, _⟩ := h.lookup?_eq_some_iff.mp hl
    cases hc : e.committed with
    | some hash => simp [Option.filter, hc, hs]
    | none =>
      have : q e = false := by
        by_contra hqe
        have hin := hq e (by simpa using hqe)
        simp [(h.entries e he).outside_of_new hc] at hin
      simp [Option.filter, hc, this]

end

theorem showsSame_of_view {c c' : Cache} (h : c.WellFormed) (h' : c'.WellFormed)
    (hv : c'.view = c.view) : c.ShowsSame c' := by
  have hcycle : c'.cycle = c.cycle := congrArg CommittedView.cycle hv
  have hmembers : c'.members = c.members := congrArg CommittedView.members hv
  refine ⟨hcycle, ?_, ?_, ?_, ?_⟩
  · rw [h.files_eq, h'.files_eq, hv]
  · intro id
    rw [h.position?_eq, h'.position?_eq, hmembers]
  · intro p
    unfold contains
    rw [h.any_lookup? _ (fun _ he => he) (fun _ => rfl),
      h'.any_lookup? _ (fun _ he => he) (fun _ => rfl), hv]
  · intro p
    unfold hasChanged
    rw [h.any_lookup? _ (fun e he => by simp_all) (fun _ => rfl),
      h'.any_lookup? _ (fun e he => by simp_all) (fun _ => rfl), hv, hcycle]

/-! ## Staging does not show -/

theorem settle_map {entries : List Entry} {g : Entry → Entry}
    (hg : ∀ e ∈ entries, (g e).committed = e.committed ∧
      (e.committed.isSome → (g e).settled = e.settled)) :
    settle (entries.map g) = settle entries := by
  induction entries with
  | nil => rfl
  | cons e entries ih =>
    obtain ⟨hc, hs⟩ := hg e List.mem_cons_self
    have ih := ih fun x hx => hg x (List.mem_cons_of_mem e hx)
    simp only [settle, List.map_cons, List.filter_cons, hc] at ih ⊢
    split
    · next he => rw [List.map_cons, List.map_cons, ih, hs he]
    · exact ih

theorem settle_map_keeps {entries : List Entry} {g : Entry → Entry}
    (hg : ∀ e : Entry, e.Keeps (g e)) : settle (entries.map g) = settle entries :=
  settle_map fun e _ => ⟨(hg e).committed, (hg e).settled⟩

theorem WellFormed.view_stage {c : Cache} (h : c.WellFormed) (p : Path) (content : Text) :
    (c.stage p content).2.view = c.view := by
  obtain ⟨e, he, _, _, heq⟩ | ⟨_, _, heq⟩ := h.stage_cases p content
  · rw [heq]
    unfold view restageAt
    rw [settle_map_keeps (Entry.Keeps.changeAt (Entry.restage_keeps content) e.id)]
  · rw [heq]
    simp [view, settle, stageNew, newEntry, Entry.new]

theorem WellFormed.view_markExternal {c : Cache} (h : c.WellFormed) (p : Path) :
    (c.markExternal p).2.view = c.view := by
  obtain ⟨e, he, _, heq⟩ | ⟨_, heq⟩ := h.markExternal_cases p
  · rw [heq]
    exact congrArg (CommittedView.mk c.cycle c.members)
      (settle_map_keeps (Entry.Keeps.changeAt (Entry.setExternal_keeps true) e.id))
  · rw [heq]

/-! ## A rollback just after a reset -/

theorem WellFormed.find?_save {c : Cache} (h : c.WellFormed) {e : Entry} (he : e ∈ c.entries) :
    c.save.entries.find? (·.id == e.id) =
      if e.id ∈ c.members ∨ e.id ∈ c.staged then some e.save else none := by
  split
  · next ht =>
    have hin := (mem_save_entries h).mpr ⟨e, he, ht, rfl⟩
    cases hf : c.save.entries.find? (·.id == e.id) with
    | none => exact absurd rfl (find?_key_eq_none_iff.mp hf _ hin)
    | some s =>
      have hid : s.id = e.id := by simpa using List.find?_some hf
      obtain ⟨x, hx, _, rfl⟩ := (mem_save_entries h).mp (List.mem_of_find?_eq_some hf)
      rw [h.eq_of_id hx he hid]
  · next ht =>
    refine find?_key_eq_none_iff.mpr fun s hs hid => ht ?_
    obtain ⟨x, hx, hxt, rfl⟩ := (mem_save_entries h).mp hs
    rw [← h.eq_of_id hx he hid]
    exact hxt

/-- A reset and its rollback give an entry back, but for what was staged. -/
theorem WellFormed.bringBack_commitEntry {c : Cache} (h : c.WellFormed) {e : Entry}
    (he : e ∈ c.entries) : ∃ external, c.save.bringBack (c.commitEntry e) =
      { e with staged := false, pending := none, external } := by
  unfold Checkpoint.bringBack
  rw [(h.commitEntry_name he).1, h.find?_save he]
  cases hs : e.staged with
  | true =>
    obtain ⟨rank, _, heq⟩ := h.commitEntry_of_staged he hs
    simp only [(h.staged_iff he).mpr hs, or_true, if_true, heq]
    refine ⟨e.file.external, ?_⟩
    cases hp : e.pending with
    | none => simp [Entry.restore, Entry.save, Entry.commit, Entry.next, hp]
    | some f => simp [Entry.restore, Entry.save, Entry.commit, hp]
  | false =>
    -- the file stayed, so only its place and its mark have to come back
    have hp := h.pending_of_not_staged he hs
    rw [(h.commitEntry_of_not_staged he hs).2]
    split
    · next s hsave =>
      have : s = e.save := by
        split at hsave
        · exact (Option.some.inj hsave).symm
        · exact absurd hsave (by simp)
      refine ⟨e.file.external, ?_⟩
      simp [this, Entry.restore, Entry.save, hp]
    · next hsave =>
      have hm : e.id ∉ c.members := by
        intro hm
        simp [hm] at hsave
      have hr : e.rank = none := by
        rw [h.ranks e he]
        exact List.idxOf?_eq_none_iff.mpr hm
      exact ⟨e.external, by simp [← hr]⟩

theorem WellFormed.view_undo_commit {c : Cache} (h : c.WellFormed) :
    (c.commit.undo c.save).view = c.view := by
  have hsettle : settle ((c.entries.map c.commitEntry).map c.save.bringBack) =
      settle c.entries := by
    rw [List.map_map]
    refine settle_map fun e he => ?_
    obtain ⟨external, heq⟩ := h.bringBack_commitEntry he
    rw [Function.comp_apply, heq]
    exact ⟨rfl, fun _ => rfl⟩
  exact congrArg (CommittedView.mk c.cycle c.members) hsettle

theorem Sound.rollback_commit {c : Cache} (h : c.Sound) :
    c.commit.rollback = (true, c.commit.undo c.save) :=
  h.commit.rollback_eq rfl

end Cache

end IncrementalBuild
