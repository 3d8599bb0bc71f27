import IncrementalBuild.Path.Normal
import IncrementalBuild.Proofs.TextParts
import Mathlib.Data.List.Basic
import Mathlib.Data.List.Induction
/-!
# Normal forms of paths

The normal form of a path has the components that normalizing keeps, and normalizing it again
keeps them all. So a path is in normal form exactly if it is the normal form of some path, and two
paths in normal form with the same components are written alike.
-/
namespace IncrementalBuild

/-- A component that is written as one piece between slashes: the parent directory, or a name
that means nothing else. -/
structure Component.IsPiece (c : Component) : Prop where
  whole : '/' ∉ c.text
  means : ofPiece? c.text = some c

theorem Component.isPiece_of_ofPiece? {t : Text} {c : Component} (ht : '/' ∉ t)
    (h : ofPiece? t = some c) : c.IsPiece := by
  have htext : c.text = t := by
    unfold ofPiece? at h
    split at h
    · cases h
    · cases h
    · cases h
      rfl
    · cases h
      rfl
  exact ⟨htext ▸ ht, htext ▸ h⟩

/-- A piece starts with no slash, and a dot at its start is followed by something else than one. -/
theorem Component.IsPiece.exists_cons {c : Component} (h : c.IsPiece) :
    ∃ x t, c.text = x :: t ∧ x ≠ '/' ∧ (x = '.' → ∃ y u, t = y :: u ∧ y ≠ '/') := by
  obtain ⟨hwhole, hmeans⟩ := h
  cases htext : c.text with
  | nil => simp [htext, ofPiece?] at hmeans
  | cons x t =>
    rw [htext, List.mem_cons, not_or] at hwhole
    refine ⟨x, t, rfl, Ne.symm hwhole.1, ?_⟩
    rintro rfl
    cases t with
    | nil => simp [htext, ofPiece?] at hmeans
    | cons y u => exact ⟨y, u, rfl, fun hy => hwhole.2 (hy ▸ List.mem_cons_self)⟩

namespace Path

theorem same_iff {p q : Path} : p.same q = true ↔ p.components = q.components := by
  simp [same]

theorem among_iff {p : Path} {paths : List Path} :
    p.among paths = true ↔ ∃ q ∈ paths, p.same q = true := by
  simp [among, same]

/-! ## What normalizing keeps -/

/-- The components of a normal form, last first: names after the root, or names after parent
directories. -/
inductive Stacked : List Component → Prop
  | nil : Stacked []
  | root : Stacked [.root]
  | parent {kept : List Component} (h : ∀ c ∈ kept, c = .parent) : Stacked (.parent :: kept)
  | name {t : Text} {kept : List Component} (ht : (Component.name t).IsPiece)
    (h : Stacked kept) : Stacked (.name t :: kept)

/-- The pieces of a path after its anchor. -/
def pieces (p : Path) : List Component := (Text.splitOn '/' p.body).filterMap Component.ofPiece?

theorem components_eq (p : Path) : p.components = p.anchor.toList ++ p.pieces := rfl

theorem pieces_isPiece {p : Path} {c : Component} (hc : c ∈ p.pieces) : c.IsPiece := by
  obtain ⟨t, ht, hc⟩ := List.mem_filterMap.mp hc
  exact Component.isPiece_of_ofPiece? (Text.not_mem_of_mem_splitOn ht) hc

theorem Stacked.fold {kept : List Component} (h : Stacked kept) {c : Component}
    (hc : c.IsPiece) : Stacked (fold kept c) := by
  cases c with
  | root => exact absurd List.mem_cons_self hc.whole
  | current => exact h
  | name t => exact .name hc h
  | parent =>
    cases h with
    | nil => exact .parent fun _ hx => absurd hx List.not_mem_nil
    | root => exact .root
    | parent hkept =>
      refine .parent fun x hx => ?_
      rcases List.mem_cons.mp hx with rfl | hx
      · rfl
      · exact hkept x hx
    | name _ hkept => exact hkept

theorem Stacked.foldl {kept : List Component} (h : Stacked kept) {cs : List Component}
    (hcs : ∀ c ∈ cs, c.IsPiece) : Stacked (cs.foldl Path.fold kept) := by
  induction cs generalizing kept with
  | nil => exact h
  | cons c cs ih =>
    exact ih (h.fold (hcs c List.mem_cons_self)) fun x hx => hcs x (List.mem_cons_of_mem c hx)

theorem stacked_components (p : Path) : Stacked (p.components.foldl fold []) := by
  have hanchor : Stacked (p.anchor.toList.foldl fold []) := by
    unfold anchor
    split
    · exact .root
    · exact .nil
    · exact .nil
    · exact .nil
  rw [components_eq, List.foldl_append]
  exact hanchor.foldl fun _ hc => pieces_isPiece hc

/-- One more component does the same behind what was kept of those before it as on top of it. -/
theorem foldl_reverse_fold (own kept : List Component) (c : Component) :
    (fold own c).reverse.foldl fold kept = fold (own.reverse.foldl fold kept) c := by
  have hpush : (c :: own).reverse.foldl fold kept = fold (own.reverse.foldl fold kept) c := by
    rw [List.reverse_cons, List.foldl_append]
    rfl
  cases c with
  | root => exact hpush
  | current => rfl
  | name t => exact hpush
  | parent =>
    cases own with
    | nil => rfl
    | cons d own =>
      cases d with
      | name t => simp [fold]
      | root => simp [fold]
      | current => exact hpush
      | parent => exact hpush

theorem foldl_foldAll (cs kept : List Component) :
    (foldAll cs).foldl fold kept = cs.foldl fold kept := by
  induction cs using List.reverseRecOn with
  | nil => rfl
  | append_singleton cs c ih =>
    rw [foldAll, List.foldl_append, List.foldl_append, ← ih]
    exact foldl_reverse_fold (cs.foldl fold []) kept c

/-! ## Reading a normal form -/

theorem Stacked.isPiece {kept : List Component} (h : Stacked kept) {c : Component}
    (hc : c ∈ kept) : c = .root ∨ c.IsPiece := by
  have hparent : Component.parent.IsPiece := ⟨by decide, rfl⟩
  induction h with
  | nil => exact absurd hc List.not_mem_nil
  | root => exact Or.inl (List.mem_singleton.mp hc)
  | parent hkept =>
    rcases List.mem_cons.mp hc with rfl | hc
    · exact Or.inr hparent
    · exact Or.inr (hkept c hc ▸ hparent)
  | name ht _ ih =>
    rcases List.mem_cons.mp hc with rfl | hc
    · exact Or.inr ht
    · exact ih hc

/-- Components as a text has them in which no piece is empty or a dot: pieces, after the root or
not. -/
def Written (cs : List Component) : Prop :=
  (∀ c ∈ cs, c.IsPiece) ∨ ∃ rest, cs = .root :: rest ∧ ∀ c ∈ rest, c.IsPiece

theorem Written.append {cs ds : List Component} (h : Written cs) (hds : ∀ d ∈ ds, d.IsPiece) :
    Written (cs ++ ds) := by
  have hpieces : ∀ bs : List Component, (∀ b ∈ bs, b.IsPiece) → ∀ x ∈ bs ++ ds, x.IsPiece :=
    fun bs hbs x hx => (List.mem_append.mp hx).elim (hbs x) (hds x)
  rcases h with hall | ⟨rest, rfl, hrest⟩
  · exact .inl (hpieces cs hall)
  · exact .inr ⟨rest ++ ds, rfl, hpieces rest hrest⟩

theorem Written.of_append {cs ds : List Component} (h : Written (cs ++ ds)) : Written cs := by
  rcases h with hall | ⟨rest, heq, hrest⟩
  · exact .inl fun c hc => hall c (List.mem_append_left _ hc)
  · cases cs with
    | nil => exact .inl fun c hc => absurd hc List.not_mem_nil
    | cons c cs =>
      obtain ⟨rfl, rfl⟩ := List.cons.inj heq
      exact .inr ⟨cs, rfl, fun d hd => hrest d (List.mem_append_left _ hd)⟩

theorem Stacked.written {kept : List Component} (h : Stacked kept) : Written kept.reverse := by
  induction h with
  | nil => exact .inl fun _ hc => absurd hc List.not_mem_nil
  | root => exact .inr ⟨[], rfl, fun _ hc => absurd hc List.not_mem_nil⟩
  | @parent kept hkept =>
    have hstacked := Stacked.parent hkept
    refine .inl fun c hc => (hstacked.isPiece (List.mem_reverse.mp hc)).resolve_left ?_
    rintro rfl
    rcases List.mem_cons.mp (List.mem_reverse.mp hc) with hc | hc
    · cases hc
    · cases hkept _ hc
  | @name t kept ht _ ih =>
    rw [List.reverse_cons]
    exact ih.append fun c hc => List.mem_singleton.mp hc ▸ ht

/-! ## Pieces between slashes -/

/-- The text of components with slashes between them. -/
def slashed (cs : List Component) : Text := Text.join ['/'] (cs.map Component.text)

theorem slashed_append {cs ds : List Component} (hcs : cs ≠ []) (hds : ds ≠ []) :
    slashed (cs ++ ds) = slashed cs ++ '/' :: slashed ds := by
  rw [slashed, List.map_append,
    Text.join_append _ (mt List.map_eq_nil_iff.mp hcs) (mt List.map_eq_nil_iff.mp hds)]
  rfl

theorem slashed_cons_cons (c d : Component) (cs : List Component) :
    slashed (c :: d :: cs) = c.text ++ '/' :: slashed (d :: cs) := by
  rw [← List.singleton_append, slashed_append (List.cons_ne_nil _ _) (List.cons_ne_nil _ _)]
  rfl

theorem slashed_cons (c : Component) (cs : List Component) :
    ∃ rest, slashed (c :: cs) = c.text ++ rest := by
  cases cs with
  | nil => exact ⟨[], (List.append_nil _).symm⟩
  | cons d cs => exact ⟨'/' :: slashed (d :: cs), slashed_cons_cons c d cs⟩

theorem ofComponents_eq {cs : List Component} (h : ∀ c ∈ cs, c.IsPiece) :
    ofComponents cs = ⟨slashed cs⟩ := by
  unfold ofComponents
  split
  · exact absurd List.mem_cons_self (h .root List.mem_cons_self).whole
  · rfl

/-- A text of pieces starts with no slash, and a dot at its start is followed by something else than
one. -/
theorem slashed_starts {c : Component} (hc : c.IsPiece) (cs : List Component) :
    ∃ x t, slashed (c :: cs) = x :: t ∧ x ≠ '/' ∧ (x = '.' → ∃ y u, t = y :: u ∧ y ≠ '/') := by
  obtain ⟨rest, heq⟩ := slashed_cons c cs
  obtain ⟨x, t, htext, hslash, hdot⟩ := hc.exists_cons
  refine ⟨x, t ++ rest, by rw [heq, htext, List.cons_append], hslash, fun hx => ?_⟩
  obtain ⟨y, u, rfl, hy⟩ := hdot hx
  exact ⟨y, u ++ rest, rfl, hy⟩

section
variable {cs : List Component} (h : ∀ c ∈ cs, c.IsPiece)
include h

theorem filterMap_splitOn_slashed :
    (Text.splitOn '/' (slashed cs)).filterMap Component.ofPiece? = cs := by
  cases cs with
  | nil => rfl
  | cons c cs =>
    have hwhole : ∀ t ∈ (c :: cs).map Component.text, '/' ∉ t := by
      intro t ht
      obtain ⟨x, hx, rfl⟩ := List.mem_map.mp ht
      exact (h x hx).whole
    rw [slashed, Text.splitOn_join (by simp) hwhole, List.filterMap_map]
    calc (c :: cs).filterMap (Component.ofPiece? ∘ Component.text)
        = (c :: cs).filterMap some := List.filterMap_congr fun x hx => (h x hx).means
      _ = c :: cs := List.filterMap_some

theorem anchor_slashed : anchor ⟨slashed cs⟩ = none := by
  cases cs with
  | nil => rfl
  | cons c cs =>
    obtain ⟨x, t, heq, hslash, hdot⟩ := slashed_starts (h c List.mem_cons_self) cs
    rw [heq]
    unfold anchor
    split
    · next hrest => exact absurd (List.cons.inj hrest).1 hslash
    · next hrest =>
      obtain ⟨hx, ht⟩ := List.cons.inj hrest
      obtain ⟨y, u, rfl, _⟩ := hdot hx
      cases ht
    · next hrest =>
      obtain ⟨hx, ht⟩ := List.cons.inj hrest
      obtain ⟨y, u, rfl, hy⟩ := hdot hx
      exact absurd (List.cons.inj ht).1 hy
    · rfl

end

theorem Written.components {cs : List Component} (h : Written cs) :
    (ofComponents cs).components = cs := by
  rcases h with hall | ⟨rest, rfl, hrest⟩
  · rw [ofComponents_eq hall, components_eq, pieces, body, anchor_slashed hall]
    exact filterMap_splitOn_slashed hall
  · exact congrArg (Component.root :: ·) (filterMap_splitOn_slashed hrest)

/-! ## Normalizing -/

theorem components_normalize (p : Path) : p.normalize.components = foldAll p.components :=
  p.stacked_components.written.components

theorem normalize_isNormal (p : Path) : p.normalize.IsNormal := by
  show ofComponents (foldAll p.normalize.components) = p.normalize
  rw [components_normalize, foldAll, foldl_foldAll]
  rfl

theorem IsNormal.eq_normalize {p q : Path} (hp : p.IsNormal) (h : p.same q = true) :
    p = q.normalize := by
  have hcomponents : p.components = q.components := same_iff.mp h
  calc p = p.normalize := hp.symm
    _ = q.normalize := by rw [normalize, normalize, hcomponents]

theorem IsNormal.eq_of_same {p q : Path} (hp : p.IsNormal) (hq : q.IsNormal)
    (h : p.same q = true) : p = q :=
  (hp.eq_normalize h).trans hq

theorem IsNormal.among_iff {p : Path} (hp : p.IsNormal) {paths : List Path}
    (hpaths : ∀ q ∈ paths, q.IsNormal) : p.among paths = true ↔ p ∈ paths := by
  rw [Path.among_iff]
  constructor
  · rintro ⟨q, hq, hsame⟩
    rwa [hp.eq_of_same (hpaths q hq) hsame]
  · exact fun hmem => ⟨p, hmem, same_iff.mpr rfl⟩

end Path

end IncrementalBuild
