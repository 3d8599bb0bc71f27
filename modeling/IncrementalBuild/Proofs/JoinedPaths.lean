import IncrementalBuild.Proofs.NormalForm
/-!
# Joined paths

A path is read as what its components do, one by one, to those that were kept before them. Joining
lets the components of one path do so behind those of another, and normalizing a path changes
nothing that it does. What is stated here: the form of a normalized path, and that resolving gives
the same for any way in which its paths are written, in one step or in two.
-/
namespace IncrementalBuild.Path

variable {p q : Path}

/-! ## What is read from a text -/

theorem anchor_cases (p : Path) :
    (p.anchor = some .root ∧ p.isAbsolute = true ∧ ∃ t, p.text = '/' :: t) ∨
    (p.anchor = some .current ∧ p.isAbsolute = false ∧
      (p.text = ['.'] ∨ ∃ t, p.text = '.' :: '/' :: t)) ∨
    (p.anchor = none ∧ p.isAbsolute = false) := by
  unfold anchor isAbsolute
  split
  · next t ht => exact .inl ⟨rfl, by simp [ht], t, ht⟩
  · next ht => exact .inr (.inl ⟨rfl, by simp [ht], .inl ht⟩)
  · next t ht => exact .inr (.inl ⟨rfl, by simp [ht], .inr ⟨t, ht⟩⟩)
  · next hslash _ _ =>
    refine .inr (.inr ⟨rfl, ?_⟩)
    cases ht : p.text with
    | nil => rfl
    | cons c t =>
      have hc : c ≠ '/' := fun hc => hslash t (hc ▸ ht)
      simp [hc]

theorem pieces_eq (p : Path) :
    p.pieces = (Text.splitOn '/' p.text).filterMap Component.ofPiece? := by
  unfold pieces body
  rcases p.anchor_cases with ⟨hanchor, _, t, ht⟩ | ⟨hanchor, _, ht | ⟨t, ht⟩⟩ | ⟨hanchor, _⟩
  · simp [hanchor, ht, Text.splitOn, List.filterMap_cons, Component.ofPiece?]
  · simp [hanchor, ht, Text.splitOn, List.filterMap_cons, Component.ofPiece?]
  · simp [hanchor, ht, Text.splitOn, List.filterMap_cons, Component.ofPiece?]
  · simp [hanchor]

theorem isAbsolute_iff (p : Path) : p.isAbsolute = true ↔ .root ∈ p.components := by
  have hpieces : Component.root ∉ p.pieces := fun hroot =>
    (pieces_isPiece hroot).whole List.mem_cons_self
  rw [components_eq, List.mem_append, or_iff_left hpieces]
  rcases p.anchor_cases with ⟨hanchor, habsolute, _⟩ | ⟨hanchor, habsolute, _⟩ |
    ⟨hanchor, habsolute⟩ <;> simp [hanchor, habsolute]

theorem foldl_components (p : Path) (kept : List Component) :
    p.components.foldl fold kept =
      p.pieces.foldl fold (if p.isAbsolute then .root :: kept else kept) := by
  rw [components_eq, List.foldl_append]
  rcases p.anchor_cases with ⟨hanchor, habsolute, _⟩ | ⟨hanchor, habsolute, _⟩ |
    ⟨hanchor, habsolute⟩ <;> simp [hanchor, habsolute, fold]

/-! ## Joining -/

theorem join_absolute (p : Path) (hq : q.isAbsolute = true) : p.join q = q := if_pos hq

theorem join_relative (p : Path) (hq : q.isAbsolute = false) :
    (p.join q).isAbsolute = p.isAbsolute ∧ (p.join q).pieces = p.pieces ++ q.pieces := by
  rw [join, if_neg (by simp [hq]), pieces_eq p, pieces_eq q]
  split
  · next hends =>
    rcases hends with hempty | hslash
    · rw [hempty, List.nil_append]
      exact ⟨by rw [hq, isAbsolute, hempty]; rfl, q.pieces_eq⟩
    · obtain ⟨t, ht⟩ := List.getLast?_eq_some_iff.mp hslash
      rw [pieces_eq, isAbsolute, isAbsolute, ht]
      simp [Text.splitOn_append, Text.splitOn, Component.ofPiece?]
  · next hends =>
    obtain ⟨c, t, ht⟩ := List.exists_cons_of_ne_nil (not_or.mp hends).1
    rw [pieces_eq, isAbsolute, isAbsolute]
    simp only [Text.splitOn_append, List.filterMap_append, and_true]
    rw [ht]
    rfl

theorem foldl_join (p : Path) (hq : q.isAbsolute = false) (kept : List Component) :
    (p.join q).components.foldl fold kept =
      q.components.foldl fold (p.components.foldl fold kept) := by
  obtain ⟨habsolute, hpieces⟩ := join_relative p hq
  rw [foldl_components, foldl_components p, foldl_components q, habsolute, hpieces,
    List.foldl_append, hq]
  rfl

/-! ## Normalizing -/

theorem foldl_normalize (p : Path) (kept : List Component) :
    p.normalize.components.foldl fold kept = p.components.foldl fold kept := by
  rw [components_normalize, foldl_foldAll]

theorem normalize_congr (h : p.components.foldl fold [] = q.components.foldl fold []) :
    p.normalize = q.normalize := by
  rw [normalize, normalize, foldAll, foldAll, h]

theorem root_mem_fold {kept : List Component} {c : Component} :
    .root ∈ fold kept c ↔ .root ∈ kept ∨ c = .root := by
  cases c with
  | root => simp [fold]
  | current => simp [fold]
  | name t => simp [fold]
  | parent =>
    cases kept with
    | nil => simp [fold]
    | cons d kept => cases d <;> simp [fold]

theorem root_mem_foldl {cs kept : List Component} :
    .root ∈ cs.foldl fold kept ↔ .root ∈ kept ∨ .root ∈ cs := by
  induction cs generalizing kept with
  | nil => simp
  | cons c cs ih => simp [ih, root_mem_fold, or_assoc, eq_comm]

theorem isAbsolute_normalize (p : Path) : p.normalize.isAbsolute = p.isAbsolute := by
  rw [Bool.eq_iff_iff, isAbsolute_iff, isAbsolute_iff, components_normalize, foldAll,
    List.mem_reverse, root_mem_foldl, or_iff_right List.not_mem_nil]

/-- The components of a normal form are names, after the root or after parent directories. -/
theorem Stacked.exists_names {kept : List Component} (h : Stacked kept) :
    ∃ front names, kept.reverse = front ++ List.map .name names ∧
      (front = [.root] ∨ ∃ n, front = List.replicate n .parent) := by
  induction h with
  | nil => exact ⟨[], [], rfl, .inr ⟨0, rfl⟩⟩
  | root => exact ⟨[.root], [], rfl, .inl rfl⟩
  | @parent kept hkept =>
    have hparents : kept = List.replicate kept.length .parent :=
      List.eq_replicate_iff.mpr ⟨rfl, hkept⟩
    refine ⟨(.parent :: kept).reverse, [], by simp, .inr ⟨kept.length + 1, ?_⟩⟩
    rw [hparents, List.length_replicate, ← List.replicate_succ, List.reverse_replicate]
  | @name t kept _ _ ih =>
    obtain ⟨front, names, heq, hfront⟩ := ih
    exact ⟨front, names ++ [t], by simp [heq], hfront⟩

theorem components_normalize_eq (p : Path) :
    ∃ n names, p.normalize.components =
      (if p.isAbsolute then [.root] else List.replicate n .parent) ++ List.map .name names := by
  obtain ⟨front, names, heq, hfront⟩ := p.stacked_components.exists_names
  have hroot := p.normalize.isAbsolute_iff
  rw [isAbsolute_normalize, components_normalize, foldAll, heq] at hroot
  rw [components_normalize, foldAll, heq]
  rcases hfront with rfl | ⟨n, rfl⟩
  · exact ⟨0, names, by rw [if_pos (hroot.mpr (by simp))]⟩
  · exact ⟨n, names, by rw [if_neg (by simp [hroot])]⟩

/-! ## Resolving -/

theorem resolve_normalize (base t : Path) :
    base.normalize.resolve t.normalize = base.resolve t := by
  unfold resolve
  cases ht : t.isAbsolute with
  | true =>
    rw [join_absolute _ ht, join_absolute _ (by rw [isAbsolute_normalize, ht])]
    exact t.normalize_isNormal
  | false =>
    apply normalize_congr
    rw [foldl_join _ ht, foldl_join _ (by rw [isAbsolute_normalize, ht]), foldl_normalize,
      foldl_normalize]

/-- What is behind the first join stays behind it when another path is joined. -/
theorem resolve_resolve (base t u : Path) :
    (base.resolve t).resolve u = base.resolve (t.join u) := by
  unfold resolve
  cases hu : u.isAbsolute with
  | true => rw [join_absolute _ hu, join_absolute _ hu, join_absolute _ hu]
  | false =>
    apply normalize_congr
    rw [foldl_join _ hu, foldl_normalize]
    -- an absolute path in the middle drops the base in one step as in two
    cases ht : t.isAbsolute with
    | true =>
      have htu : (t.join u).isAbsolute = true := by rw [(join_relative t hu).1, ht]
      rw [join_absolute _ ht, join_absolute _ htu, foldl_join _ hu]
    | false =>
      have htu : (t.join u).isAbsolute = false := by rw [(join_relative t hu).1, ht]
      rw [foldl_join _ ht, foldl_join _ htu, foldl_join _ hu]

/-- The normal form of a path is canonical, and joining respects it. -/
theorem normalize_canonical (p base t u : Path) :
    (∃ n names, p.normalize.components =
      (if p.isAbsolute then [.root] else List.replicate n .parent) ++ List.map .name names) ∧
    p.normalize = ofComponents p.normalize.components ∧
    p.normalize.isAbsolute = p.isAbsolute ∧
    p.normalize.normalize = p.normalize ∧
    base.resolve t = base.normalize.resolve t.normalize ∧
    (base.resolve t).resolve u = base.resolve (t.join u) := by
  refine ⟨p.components_normalize_eq, ?_, p.isAbsolute_normalize, p.normalize_isNormal,
    (base.resolve_normalize t).symm, base.resolve_resolve t u⟩
  rw [components_normalize]
  rfl

end IncrementalBuild.Path
