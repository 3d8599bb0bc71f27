import IncrementalBuild.Proofs.JoinedPaths
import IncrementalBuild.Source.Cache
/-!
# Resolved file lists

A file list is read entry by entry against a base directory. What comes out is a list of absolute
paths in normal form, each of them once and at the place of the first entry that names it, however
the entries and the base directory are written. Such a list names the same paths from every base
directory.
-/
namespace IncrementalBuild

namespace Path

theorem normalize_resolve (base t : Path) : base.normalize.resolve t = base.resolve t := by
  rw [← resolve_normalize base.normalize, base.normalize_isNormal, resolve_normalize]

theorem resolve_normalize_right (base t : Path) : base.resolve t.normalize = base.resolve t := by
  rw [← normalize_resolve, resolve_normalize]

theorem isAbsolute_join {base : Path} (hbase : base.isAbsolute = true) (t : Path) :
    (base.join t).isAbsolute = true := by
  cases ht : t.isAbsolute with
  | true => rw [join_absolute _ ht, ht]
  | false => rw [(join_relative base ht).1, hbase]

theorem isAbsolute_resolve {base : Path} (hbase : base.isAbsolute = true) (t : Path) :
    (base.resolve t).isAbsolute = true := by
  rw [resolve, isAbsolute_normalize, isAbsolute_join hbase]

theorem IsNormal.resolve_eq {p : Path} (hp : p.IsNormal) (habsolute : p.isAbsolute = true)
    (base : Path) : base.resolve p = p := by
  rw [resolve, join_absolute base habsolute]
  exact hp

end Path

/-! ## Each item once -/

/-- Without repetitions, an item at the end is left out if it was there before. -/
theorem eraseDups_concat {α : Type} [DecidableEq α] (l : List α) (a : α) :
    (l ++ [a]).eraseDups = l.eraseDups ++ if a ∈ l then [] else [a] := by
  rw [List.eraseDups_append]
  split
  · next ha => rw [show [a].removeAll l = [] by simp [List.removeAll, ha], List.eraseDups_nil]
  · next ha =>
    rw [show [a].removeAll l = [a] by simp [List.removeAll, ha], List.eraseDups_cons,
      List.filter_nil, List.eraseDups_nil]

theorem pairwise_eraseDups {α : Type} [DecidableEq α] (l : List α) :
    l.eraseDups.Pairwise fun a b => l.idxOf a < l.idxOf b := by
  induction l using List.reverseRecOn with
  | nil => exact .nil
  | append_singleton l a ih =>
    have hold : ∀ x ∈ l.eraseDups, (l ++ [a]).idxOf x = l.idxOf x := fun x hx =>
      List.idxOf_append_of_mem (List.mem_eraseDups.mp hx)
    have hkept : l.eraseDups.Pairwise fun x y => (l ++ [a]).idxOf x < (l ++ [a]).idxOf y :=
      List.Pairwise.imp_of_mem (fun hx hy hlt => by rwa [hold _ hx, hold _ hy]) ih
    rw [eraseDups_concat]
    split
    · rwa [List.append_nil]
    · next ha =>
      refine List.pairwise_append.mpr ⟨hkept, List.pairwise_singleton _ _, fun x hx y hy => ?_⟩
      have hplace : l.idxOf x < l.length :=
        List.idxOf_lt_length_of_mem (List.mem_eraseDups.mp hx)
      rw [List.mem_singleton.mp hy, hold x hx, List.idxOf_append_of_notMem ha]
      omega

theorem nodup_eraseDups {α : Type} [DecidableEq α] (l : List α) : l.eraseDups.Nodup :=
  (pairwise_eraseDups l).imp fun hlt heq => Nat.ne_of_lt hlt (congrArg l.idxOf heq)

theorem eraseDups_of_nodup {α : Type} [DecidableEq α] {l : List α} (h : l.Nodup) :
    l.eraseDups = l := by
  induction l using List.reverseRecOn with
  | nil => rfl
  | append_singleton l a ih =>
    obtain ⟨hl, _, hdisjoint⟩ := List.nodup_append.mp h
    have ha : a ∉ l := fun ha => hdisjoint a ha a (List.mem_singleton_self a) rfl
    rw [eraseDups_concat, ih hl, if_neg ha]

/-! ## File lists -/

/-- The paths that entries name, as seen from a base directory. -/
def namedPaths (base : Path) (entries : List Text) : List Path :=
  entries.map fun entry => base.resolve ⟨entry⟩

/-- The paths that entries name, in order: absolute paths in normal form, each of them once, and
at the place of the first entry that names it. -/
structure ListsEach (base : Path) (entries : List Text) (paths : List Path) : Prop where
  once : paths.Pairwise fun p q => p.same q = false
  canonical : ∀ p ∈ paths, p.isAbsolute = true ∧ p.IsNormal
  named : ∀ p, p ∈ paths ↔ ∃ entry ∈ entries, base.resolve ⟨entry⟩ = p
  ordered : paths.Pairwise fun p q =>
    (namedPaths base entries).idxOf p < (namedPaths base entries).idxOf q

theorem ListsEach.nodup {base : Path} {entries : List Text} {paths : List Path}
    (h : ListsEach base entries paths) : paths.Nodup :=
  h.ordered.imp fun hlt heq => Nat.ne_of_lt hlt (congrArg (namedPaths base entries).idxOf heq)

theorem listsEach_eraseDups {base : Path} (hbase : base.isAbsolute = true) (entries : List Text) :
    ListsEach base entries (namedPaths base entries).eraseDups := by
  have hnamed : ∀ p, p ∈ (namedPaths base entries).eraseDups ↔
      ∃ entry ∈ entries, base.resolve ⟨entry⟩ = p := fun p => by
    rw [List.mem_eraseDups, namedPaths, List.mem_map]
  have hcanonical : ∀ p ∈ (namedPaths base entries).eraseDups,
      p.isAbsolute = true ∧ p.IsNormal := by
    intro p hp
    obtain ⟨entry, _, rfl⟩ := (hnamed p).mp hp
    exact ⟨Path.isAbsolute_resolve hbase _, Path.normalize_isNormal _⟩
  have hordered := pairwise_eraseDups (namedPaths base entries)
  refine ⟨List.Pairwise.imp_of_mem (fun hp hq hlt => ?_) hordered, hcanonical, hnamed, hordered⟩
  -- normal forms with the same components are one path, which has one first place
  refine Bool.eq_false_iff.mpr fun hsame => ?_
  rw [(hcanonical _ hp).2.eq_of_same (hcanonical _ hq).2 hsame] at hlt
  exact Nat.lt_irrefl _ hlt

theorem namedPaths_text {paths : List Path}
    (h : ∀ p ∈ paths, p.isAbsolute = true ∧ p.IsNormal) (base : Path) :
    namedPaths base (paths.map Path.text) = paths := by
  rw [namedPaths, List.map_map]
  calc paths.map ((fun entry => base.resolve ⟨entry⟩) ∘ Path.text)
      = paths.map id := List.map_congr_left fun p hp => (h p hp).2.resolve_eq (h p hp).1 base
    _ = paths := List.map_id paths

theorem resolveFiles_some (workingDirectory base : Path) (entries : List Text) :
    resolveFiles workingDirectory (some entries) base =
      .ok (namedPaths (workingDirectory.join base) entries).eraseDups := by
  have hnamed : namedPaths (workingDirectory.resolve base) entries =
      namedPaths (workingDirectory.join base) entries :=
    List.map_congr_left fun entry _ => Path.normalize_resolve _ _
  exact congrArg (fun paths : List Path => Except.ok paths.eraseDups) hnamed

/-- A file list names each path once, in one form and in the order of its entries. From an
absolute working directory, the only fault is that there is no list. Otherwise the paths are those
that the entries name from the base directory, which stands in the working directory if it is
relative, and the list of these paths names the same from anywhere. -/
theorem resolveFiles_canonical (workingDirectory : Path)
    (habsolute : workingDirectory.isAbsolute = true) (files : Option (List Text)) (base : Path) :
    (∀ e, resolveFiles workingDirectory files base = .error e ↔
      files = none ∧ e = .missingFileList) ∧
    ∀ entries, files = some entries → ∃ paths,
      resolveFiles workingDirectory files base = .ok paths ∧
      ListsEach (workingDirectory.join base) entries paths ∧
      ∀ elsewhere other : Path,
        resolveFiles elsewhere (some (paths.map Path.text)) other = .ok paths := by
  refine ⟨fun e => ?_, ?_⟩
  · cases files with
    | none => simp [resolveFiles, eq_comm]
    | some entries => simp [resolveFiles_some]
  · rintro entries rfl
    have hlists := listsEach_eraseDups (Path.isAbsolute_join habsolute base) entries
    refine ⟨_, resolveFiles_some workingDirectory base entries, hlists, fun elsewhere other => ?_⟩
    rw [resolveFiles_some, namedPaths_text hlists.canonical, eraseDups_of_nodup hlists.nodup]

/-- Five spellings of two files, from a relative base directory. -/
theorem resolveFiles_canonical_of_respelled :
    (⟨"/w".toList⟩ : Path).isAbsolute = true ∧
    ∃ paths, resolveFiles "/w" (some ["b.ts".toList, "../a.ts".toList, "./b.ts".toList,
        "/w/a.ts".toList, "../../../w//p/x/../b.ts".toList]) "p" = .ok paths ∧
      paths = [⟨"/w/p/b.ts".toList⟩, ⟨"/w/a.ts".toList⟩] ∧
      resolveFiles "/" (some (paths.map Path.text)) "q" = .ok paths := by
  obtain ⟨paths, hpaths, _, hagain⟩ := (resolveFiles_canonical "/w" rfl
    (some ["b.ts".toList, "../a.ts".toList, "./b.ts".toList, "/w/a.ts".toList,
      "../../../w//p/x/../b.ts".toList]) "p").2 _ rfl
  have heval : resolveFiles "/w" (some ["b.ts".toList, "../a.ts".toList, "./b.ts".toList,
      "/w/a.ts".toList, "../../../w//p/x/../b.ts".toList]) "p" =
        .ok [⟨"/w/p/b.ts".toList⟩, ⟨"/w/a.ts".toList⟩] := by
    decide +kernel
  rw [hpaths] at heval
  exact ⟨rfl, paths, hpaths, Except.ok.inj heval, hagain "/" "q"⟩

end IncrementalBuild
