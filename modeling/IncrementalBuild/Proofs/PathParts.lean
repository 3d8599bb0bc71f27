import IncrementalBuild.Proofs.JoinedPaths
import Mathlib.Data.List.TakeWhile
/-!
# Parts of a path

A path in normal form is the text of its components. What is stated here for such paths, component
by component: the directory that a path is in, what is left of a path behind a base directory, a
relative path behind another path, and a path whose extension is replaced.
-/
namespace IncrementalBuild

/-- A piece ends with no slash, and a dot at its end comes after something else than one. -/
theorem Component.IsPiece.exists_concat {c : Component} (h : c.IsPiece) :
    ∃ t x, c.text = t ++ [x] ∧ x ≠ '/' ∧ (x = '.' → ∃ u y, t = u ++ [y] ∧ y ≠ '/') := by
  obtain ⟨hwhole, hmeans⟩ := h
  rcases List.eq_nil_or_concat' c.text with htext | ⟨t, x, htext⟩
  · simp [htext, ofPiece?] at hmeans
  · rw [htext] at hwhole hmeans
    refine ⟨t, x, htext, fun hx => hwhole (by simp [hx]), ?_⟩
    rintro rfl
    rcases List.eq_nil_or_concat' t with rfl | ⟨u, y, rfl⟩
    · simp [ofPiece?] at hmeans
    · exact ⟨u, y, rfl, fun hy => hwhole (by simp [hy])⟩

namespace Path

/-! ## File names -/

/-- An extension is what comes behind the last dot, if something comes before it. -/
theorem splitName_append {stem extension : Text} (hstem : stem ≠ []) (hdot : '.' ∉ extension) :
    splitName (stem ++ '.' :: extension) = (stem, some extension) := by
  have hlast : ((stem ++ '.' :: extension).reverse.takeWhile (· != '.')).reverse = extension := by
    have hin : ∀ c ∈ extension.reverse, (c != '.') = true := fun c hc =>
      bne_iff_ne.mpr fun heq => hdot (heq ▸ List.mem_reverse.mp hc)
    rw [List.reverse_append, List.reverse_cons, List.append_assoc,
      List.takeWhile_append_of_pos hin, List.singleton_append,
      List.takeWhile_cons_of_neg (by simp), List.append_nil, List.reverse_reverse]
  have hlength : (stem ++ '.' :: extension).length - extension.length - 1 = stem.length := by
    simp
    omega
  unfold splitName
  rw [if_pos (by simp)]
  dsimp only
  rw [hlast, hlength, List.take_left, if_neg hstem]

theorem splitName_hidden {t : Text} (hdot : '.' ∉ t) : splitName ('.' :: t) = ('.' :: t, none) := by
  have hlast : (('.' :: t).reverse.takeWhile (· != '.')).reverse = t := by
    have hin : ∀ c ∈ t.reverse, (c != '.') = true := fun c hc =>
      bne_iff_ne.mpr fun heq => hdot (heq ▸ List.mem_reverse.mp hc)
    rw [List.reverse_cons, List.takeWhile_append_of_pos hin, List.takeWhile_cons_of_neg (by simp),
      List.append_nil, List.reverse_reverse]
  unfold splitName
  rw [if_pos List.mem_cons_self]
  dsimp only
  rw [hlast, if_pos (by simp)]

theorem splitName_cases (t : Text) : splitName t = (t, none) ∨
    ∃ stem extension, stem ≠ [] ∧ '.' ∉ extension ∧ t = stem ++ '.' :: extension ∧
      splitName t = (stem, some extension) := by
  by_cases hmem : '.' ∈ t
  · obtain ⟨last, first, heq, hlast⟩ := List.eq_append_cons_of_mem (List.mem_reverse.mpr hmem)
    have ht : t = first.reverse ++ '.' :: last.reverse := by
      rw [← List.reverse_reverse t, heq]
      simp
    have hdot : '.' ∉ last.reverse := mt List.mem_reverse.mp hlast
    by_cases hfirst : first.reverse = []
    · rw [ht, hfirst]
      exact .inl (splitName_hidden hdot)
    · rw [ht]
      exact .inr ⟨_, _, hfirst, hdot, rfl, splitName_append hfirst hdot⟩
  · exact .inl (if_neg hmem)

/-! ## Texts of pieces -/

theorem slashed_concat (cs : List Component) :
    ∃ lead, ∀ c, slashed (cs ++ [c]) = lead ++ c.text := by
  cases cs with
  | nil => exact ⟨[], fun _ => rfl⟩
  | cons d cs =>
    refine ⟨slashed (d :: cs) ++ ['/'], fun c => ?_⟩
    rw [slashed_append (by simp) (by simp), List.append_assoc]
    rfl

section
variable {cs : List Component} (h : ∀ c ∈ cs, c.IsPiece)
include h

theorem skipEmpty_slashed : skipEmpty (slashed cs) = slashed cs := by
  cases cs with
  | nil => rfl
  | cons c cs =>
    obtain ⟨x, t, heq, hslash, hdot⟩ := slashed_starts (h c List.mem_cons_self) cs
    rw [heq]
    unfold skipEmpty
    split
    · next hrest => exact absurd (List.cons.inj hrest).1 hslash
    · next hrest =>
      obtain ⟨hx, ht⟩ := List.cons.inj hrest
      obtain ⟨y, u, rfl, hy⟩ := hdot hx
      exact absurd (List.cons.inj ht).1 hy
    · next hrest =>
      obtain ⟨hx, ht⟩ := List.cons.inj hrest
      obtain ⟨y, u, rfl, _⟩ := hdot hx
      cases ht
    · rfl

theorem trimBody_slashed : trimBody (slashed cs) = slashed cs := by
  have hend : skipEmptyEnd (slashed cs).reverse = (slashed cs).reverse := by
    rcases List.eq_nil_or_concat' cs with rfl | ⟨ds, c, rfl⟩
    · rfl
    · obtain ⟨lead, heq⟩ := slashed_concat ds
      obtain ⟨t, x, htext, hslash, hdot⟩ := (h c (by simp)).exists_concat
      rw [heq, htext, ← List.append_assoc, List.reverse_concat]
      unfold skipEmptyEnd
      split
      · next hrest => exact absurd (List.cons.inj hrest).1 hslash
      · next hrest =>
        obtain ⟨hx, ht⟩ := List.cons.inj hrest
        obtain ⟨u, y, rfl, hy⟩ := hdot hx
        rw [← List.append_assoc, List.reverse_concat] at ht
        exact absurd (List.cons.inj ht).1 hy
      · next hrest =>
        obtain ⟨hx, ht⟩ := List.cons.inj hrest
        obtain ⟨u, y, rfl, _⟩ := hdot hx
        rw [← List.append_assoc, List.reverse_concat] at ht
        cases ht
      · rfl
  rw [trimBody, hend, List.reverse_reverse]

theorem getLast?_slashed (hne : cs ≠ []) : ∃ x, (slashed cs).getLast? = some x ∧ x ≠ '/' := by
  obtain ⟨ds, c, rfl⟩ := (List.eq_nil_or_concat' cs).resolve_left hne
  obtain ⟨lead, heq⟩ := slashed_concat ds
  obtain ⟨t, x, htext, hslash, _⟩ := (h c (by simp)).exists_concat
  exact ⟨x, by rw [heq, htext, ← List.append_assoc, List.getLast?_concat], hslash⟩

end

theorem skipPieces_slashed {cs ds : List Component} (h : ∀ c ∈ cs ++ ds, c.IsPiece) :
    skipPieces cs.length (slashed (cs ++ ds)) = slashed ds := by
  induction cs with
  | nil => rfl
  | cons c cs ih =>
    have hc : ∀ x ∈ c.text, (x != '/') = true := fun x hx =>
      bne_iff_ne.mpr fun heq => (h c List.mem_cons_self).whole (heq ▸ hx)
    have hrest := ih fun d hd => h d (List.mem_cons_of_mem c hd)
    rw [List.length_cons, skipPieces, skipEmpty_slashed h, ← hrest]
    congr 1
    rw [List.cons_append]
    cases hcs : cs ++ ds with
    | nil =>
      show ((c.text).dropWhile (· != '/')).tail = []
      rw [List.dropWhile_eq_nil_iff.mpr hc, List.tail_nil]
    | cons d rest =>
      rw [slashed_cons_cons, List.dropWhile_append_of_pos hc]
      rfl

/-! ## Normal forms -/

theorem IsNormal.written {p : Path} (hp : p.IsNormal) : Written p.components := by
  rw [← (show p.normalize = p from hp), components_normalize]
  exact p.stacked_components.written

theorem IsNormal.ofComponents_eq {p : Path} (hp : p.IsNormal) : ofComponents p.components = p := by
  have hp : p.normalize = p := hp
  rw [← hp, components_normalize]
  rfl

theorem IsNormal.text_eq_slashed {p : Path} (hp : p.IsNormal)
    (h : ∀ c ∈ p.components, c.IsPiece) : p.text = slashed p.components :=
  congrArg Path.text (hp.ofComponents_eq.symm.trans (Path.ofComponents_eq h))

theorem IsNormal.text_of_root {p : Path} (hp : p.IsNormal) {rest : List Component}
    (h : p.components = .root :: rest) : p.text = '/' :: slashed rest := by
  rw [← hp.ofComponents_eq, h]
  rfl

theorem IsNormal.body_of_pieces {p : Path} (hp : p.IsNormal)
    (h : ∀ c ∈ p.components, c.IsPiece) : p.anchor = none ∧ p.body = slashed p.components := by
  have htext := hp.text_eq_slashed h
  have hanchor : p.anchor = none := by
    rw [show p = ⟨slashed p.components⟩ from congrArg Path.mk htext]
    exact anchor_slashed h
  rw [body, hanchor]
  exact ⟨rfl, htext⟩

theorem IsNormal.body_of_root {p : Path} (hp : p.IsNormal) {rest : List Component}
    (h : p.components = .root :: rest) : p.anchor = some .root ∧ p.body = slashed rest := by
  rw [show p = ⟨'/' :: slashed rest⟩ from congrArg Path.mk (hp.text_of_root h)]
  exact ⟨rfl, rfl⟩

theorem IsNormal.isPiece_of_relative {p : Path} (hp : p.IsNormal)
    (hrelative : p.isAbsolute = false) : ∀ c ∈ p.components, c.IsPiece := by
  refine hp.written.resolve_right fun ⟨rest, heq, _⟩ => ?_
  have hroot : p.isAbsolute = true := by
    rw [isAbsolute_iff, heq]
    exact List.mem_cons_self
  exact Bool.false_ne_true (hrelative.symm.trans hroot)

/-- A relative path in normal form that does not start with the parent directory has names only. -/
theorem IsNormal.exists_names {f : Path} (hf : f.IsNormal) (hrelative : f.isAbsolute = false)
    (hlead : f.components.head? ≠ some .parent) :
    ∃ names, f.components = List.map .name names := by
  obtain ⟨n, names, heq⟩ := f.components_normalize_eq
  rw [show f.normalize = f from hf, if_neg (by simp [hrelative])] at heq
  cases n with
  | zero => exact ⟨names, heq⟩
  | succ n => exact absurd (by rw [heq]; rfl) hlead

/-- Such a path that is not empty has a file name, behind the names of directories. -/
theorem IsNormal.exists_names_concat {f : Path} (hf : f.IsNormal)
    (hrelative : f.isAbsolute = false) (hne : f.components ≠ [])
    (hlead : f.components.head? ≠ some .parent) :
    ∃ dirs name, f.components = List.map .name (dirs ++ [name]) ∧ f.fileName? = some name := by
  obtain ⟨names, hnames⟩ := hf.exists_names hrelative hlead
  have hnonempty : names ≠ [] := fun hnil => hne (by rw [hnames, hnil, List.map_nil])
  obtain ⟨dirs, name, rfl⟩ := (List.eq_nil_or_concat' names).resolve_left hnonempty
  refine ⟨dirs, name, hnames, ?_⟩
  rw [fileName?, hnames, List.map_append, List.map_singleton, List.getLast?_concat]

/-- What is behind a directory in an absolute path in normal form is made of names. -/
theorem IsNormal.names_behind {p : Path} (hp : p.IsNormal) (habsolute : p.isAbsolute = true)
    {cs ds : List Component} (hne : cs ≠ []) (h : p.components = cs ++ ds) :
    ∃ names, ds = List.map .name names := by
  obtain ⟨n, names, heq⟩ := p.components_normalize_eq
  rw [show p.normalize = p from hp, if_pos habsolute, h] at heq
  obtain ⟨c, cs, rfl⟩ := List.exists_cons_of_ne_nil hne
  obtain ⟨_, hrest⟩ := List.cons.inj heq
  obtain ⟨_, last, _, _, hlast⟩ := List.map_eq_append_iff.mp hrest.symm
  exact ⟨last, hlast.symm⟩

theorem IsNormal.stacked {p : Path} (hp : p.IsNormal) : Stacked p.components.reverse := by
  rw [← (show p.normalize = p from hp), components_normalize, foldAll, List.reverse_reverse]
  exact p.stacked_components

theorem Stacked.tail {c : Component} {kept : List Component} (h : Stacked (c :: kept)) :
    Stacked kept := by
  cases h with
  | root => exact .nil
  | name _ hkept => exact hkept
  | parent hkept =>
    cases kept with
    | nil => exact .nil
    | cons d kept =>
      obtain rfl := hkept d List.mem_cons_self
      exact .parent fun x hx => hkept x (List.mem_cons_of_mem _ hx)

theorem Stacked.foldl_reverse {kept : List Component} (h : Stacked kept) :
    kept.reverse.foldl Path.fold [] = kept := by
  induction kept with
  | nil => rfl
  | cons c kept ih =>
    rw [List.reverse_cons, List.foldl_append, ih h.tail]
    cases h with
    | root => rfl
    | name _ _ => rfl
    | parent hkept =>
      cases kept with
      | nil => rfl
      | cons d kept =>
        obtain rfl := hkept d List.mem_cons_self
        rfl

theorem Stacked.written_reverse {cs : List Component} (h : Stacked cs.reverse) : Written cs :=
  List.reverse_reverse cs ▸ h.written

theorem Stacked.isNormal {cs : List Component} (h : Stacked cs.reverse) :
    (ofComponents cs).IsNormal := by
  have hfold := h.foldl_reverse
  rw [List.reverse_reverse] at hfold
  show ofComponents (foldAll (ofComponents cs).components) = _
  rw [h.written_reverse.components, foldAll, hfold, List.reverse_reverse]

theorem Stacked.append_names {cs : List Component} (h : Stacked cs.reverse) {names : List Text}
    (hnames : ∀ t ∈ names, (Component.name t).IsPiece) :
    Stacked (cs ++ names.map Component.name).reverse := by
  induction names using List.reverseRecOn with
  | nil => rwa [List.map_nil, List.append_nil]
  | append_singleton names t ih =>
    rw [List.map_append, List.map_singleton, ← List.append_assoc, List.reverse_concat]
    exact .name (hnames t (by simp)) (ih fun u hu => hnames u (List.mem_append_left _ hu))

/-- The directory that a path in normal form is in has one as well. -/
theorem IsNormal.parent? {p dir : Path} (hp : p.IsNormal) (h : p.parent? = some dir) :
    dir.IsNormal := by
  unfold Path.parent? at h
  split at h
  · cases h
  · cases h
  · cases h
    have hstacked := hp.stacked
    rcases List.eq_nil_or_concat' p.components with hnil | ⟨cs, c, hcs⟩
    · rw [hnil]
      exact Stacked.isNormal .nil
    · rw [hcs, List.reverse_concat] at hstacked
      rw [hcs, List.dropLast_concat]
      exact hstacked.tail.isNormal

theorem Written.ofComponents_inj {cs ds : List Component} (hcs : Written cs) (hds : Written ds) :
    ofComponents cs = ofComponents ds ↔ cs = ds :=
  ⟨fun h => hcs.components.symm.trans ((congrArg Path.components h).trans hds.components),
    congrArg ofComponents⟩

theorem Written.trimmed {cs : List Component} (h : Written cs) :
    (ofComponents cs).trimmed = ofComponents cs := by
  rcases h with hall | ⟨rest, rfl, hrest⟩
  · rw [Path.ofComponents_eq hall]
    unfold Path.trimmed body
    rw [show anchor ⟨slashed cs⟩ = none from anchor_slashed hall]
    exact congrArg Path.mk (trimBody_slashed hall)
  · exact congrArg (fun t => Path.mk ('/' :: t)) (trimBody_slashed hrest)

theorem Written.concat {cs : List Component} {t : Text} (h : Written (cs ++ [.name t]))
    {c : Component} (hc : c.IsPiece) : Written (cs ++ [c]) :=
  h.of_append.append fun _ hd => List.mem_singleton.mp hd ▸ hc

theorem Written.isPiece_of_append {cs ds : List Component} (h : Written (cs ++ ds))
    (hne : cs ≠ []) : ∀ d ∈ ds, d.IsPiece := by
  intro d hd
  rcases h with hall | ⟨rest, heq, hrest⟩
  · exact hall d (List.mem_append_right _ hd)
  · obtain ⟨c, cs, rfl⟩ := List.exists_cons_of_ne_nil hne
    obtain ⟨_, rfl⟩ := List.cons.inj heq
    exact hrest d (List.mem_append_right _ hd)

theorem Written.last_isPiece {cs : List Component} {t : Text} (h : Written (cs ++ [.name t])) :
    (Component.name t).IsPiece := by
  rcases h with hall | ⟨rest, heq, hrest⟩
  · exact hall _ (by simp)
  · have hmem : Component.name t ∈ .root :: rest := heq ▸ by simp
    exact hrest _ ((List.mem_cons.mp hmem).resolve_left Component.noConfusion)

/-- What comes before the last component in a path does not depend on it. -/
theorem ofComponents_concat (cs : List Component) :
    ∃ lead, ∀ c, (ofComponents (cs ++ [c])).text = lead ++ c.text := by
  by_cases hroot : ∃ rest, cs = .root :: rest
  · obtain ⟨rest, rfl⟩ := hroot
    obtain ⟨lead, hlead⟩ := slashed_concat rest
    exact ⟨'/' :: lead, fun c => congrArg ('/' :: ·) (hlead c)⟩
  · obtain ⟨lead, hlead⟩ := slashed_concat cs
    refine ⟨lead, fun c => ?_⟩
    rw [← hlead]
    unfold ofComponents
    split
    · next rest heq =>
      cases cs with
      | nil =>
        obtain ⟨rfl, rfl⟩ := List.cons.inj heq
        rfl
      | cons d cs => exact absurd ⟨cs, congrArg (· :: cs) (List.cons.inj heq).1⟩ hroot
    · rfl

/-! ## Relative paths -/

section
variable {base p : Path} (hp : p.IsNormal)
include hp

theorem relativeTo?_of_empty (hbase : base.components = []) : relativeTo? base p = some p := by
  have htrimmed : p.trimmed = p := by
    rw [← hp.ofComponents_eq]
    exact hp.written.trimmed
  simp [relativeTo?, hbase, htrimmed]

theorem relativeTo?_append (hbase : base.components ≠ []) {cs : List Component}
    (h : p.components = base.components ++ cs) : relativeTo? base p = some (ofComponents cs) := by
  have hprefix : base.components.isPrefixOf p.components = true :=
    List.isPrefixOf_iff_prefix.mpr ⟨cs, h.symm⟩
  obtain ⟨b, bs, hb⟩ := List.exists_cons_of_ne_nil hbase
  have hlength : base.components.length = bs.length + 1 := by rw [hb, List.length_cons]
  rw [relativeTo?, if_pos hprefix, hlength]
  rcases hp.written with hall | ⟨rest, heq, hrest⟩
  · have hcs : ∀ c ∈ cs, c.IsPiece := fun c hc => hall c (h ▸ List.mem_append_right _ hc)
    obtain ⟨hanchor, hbody⟩ := hp.body_of_pieces hall
    rw [hanchor]
    dsimp only
    rw [hbody, h, ← hlength, skipPieces_slashed (h ▸ hall), skipEmpty_slashed hcs,
      trimBody_slashed hcs, Path.ofComponents_eq hcs]
  · obtain ⟨rfl, rfl⟩ : b = .root ∧ rest = bs ++ cs := by
      rw [h, hb, List.cons_append] at heq
      exact ⟨(List.cons.inj heq).1, (List.cons.inj heq).2.symm⟩
    have hcs : ∀ c ∈ cs, c.IsPiece := fun c hc => hrest c (List.mem_append_right _ hc)
    obtain ⟨hanchor, hbody⟩ := hp.body_of_root heq
    rw [hanchor]
    dsimp only
    rw [hbody, skipPieces_slashed hrest, skipEmpty_slashed hcs, trimBody_slashed hcs,
      Path.ofComponents_eq hcs]

end

theorem relativeTo?_elsewhere {base p : Path} (h : ¬ base.components <+: p.components) :
    relativeTo? base p = none :=
  if_neg (mt List.isPrefixOf_iff_prefix.mp h)

/-! ## Joining -/

theorem join_slashed {cs : List Component} (h : ∀ c ∈ cs, c.IsPiece) (hne : cs ≠ [])
    (lead : Text) {q : Path} (hq : q.isAbsolute = false) :
    (⟨lead ++ slashed cs⟩ : Path).join q = ⟨lead ++ (slashed cs ++ '/' :: q.text)⟩ := by
  obtain ⟨x, hx, hslash⟩ := getLast?_slashed h hne
  have hlast : (lead ++ slashed cs).getLast? = some x := by
    rw [List.getLast?_append, hx, Option.some_or]
  have hopen : ¬ (lead ++ slashed cs = [] ∨ (lead ++ slashed cs).getLast? = some '/') := by
    rw [hlast]
    rintro (hempty | hend)
    · rw [hempty] at hlast
      cases hlast
    · exact hslash (Option.some.inj hend)
  rw [join, if_neg (by simp [hq])]
  dsimp only
  rw [if_neg hopen, List.append_assoc]

theorem join_ofComponents {p : Path} (hp : p.IsNormal) {cs : List Component} (hne : cs ≠ [])
    (h : ∀ c ∈ cs, c.IsPiece) :
    p.join (ofComponents cs) = ofComponents (p.components ++ cs) := by
  have hrelative : (ofComponents cs).isAbsolute = false := by
    rw [Bool.eq_false_iff, Ne, isAbsolute_iff, Written.components (.inl h)]
    exact fun hroot => (h _ hroot).whole List.mem_cons_self
  rw [Path.ofComponents_eq h] at hrelative ⊢
  rcases hp.written with hall | ⟨rest, heq, hrest⟩
  · have hboth : ∀ c ∈ p.components ++ cs, c.IsPiece := fun c hc =>
      (List.mem_append.mp hc).elim (hall c) (h c)
    have htext : p = ⟨[] ++ slashed p.components⟩ := congrArg Path.mk (hp.text_eq_slashed hall)
    rw [Path.ofComponents_eq hboth]
    by_cases hnil : p.components = []
    · rw [htext, hnil, join, if_neg (by simp [hrelative])]
      rfl
    · rw [slashed_append hnil hne]
      conv_lhs => rw [htext]
      exact join_slashed hall hnil [] hrelative
  · have htext : p = ⟨['/'] ++ slashed rest⟩ := congrArg Path.mk (hp.text_of_root heq)
    rw [heq]
    by_cases hnil : rest = []
    · rw [htext, hnil, join, if_neg (by simp [hrelative])]
      rfl
    · rw [htext, join_slashed hrest hnil ['/'] hrelative]
      exact congrArg (fun t => Path.mk ('/' :: t)) (slashed_append hnil hne).symm

/-! ## Extensions -/

/-- What a file name becomes when its extension is replaced. With the old extension taken off, two
dots are left of a name that has only one before it, and they are no name. -/
def renamed (t extension : Text) : Component :=
  match splitName t with
  | (['.'], some _) => .parent
  | (stem, _) => .name (stem ++ '.' :: extension)

theorem renamed_whole {t : Text} (h : splitName t = (t, none)) (extension : Text) :
    renamed t extension = .name (t ++ '.' :: extension) := by
  unfold renamed
  split
  · next heq => cases h.symm.trans heq
  · next heq => rw [(Prod.mk.inj (h.symm.trans heq)).1]

theorem renamed_append {stem old : Text} (hstem : stem ≠ []) (hlone : stem ≠ ['.'])
    (hdot : '.' ∉ old) (extension : Text) :
    renamed (stem ++ '.' :: old) extension = .name (stem ++ '.' :: extension) := by
  unfold renamed
  rw [splitName_append hstem hdot]
  split
  · next heq => exact absurd (Prod.mk.inj heq).1 hlone
  · next heq => rw [(Prod.mk.inj heq).1]

theorem renamed_dots {old : Text} (hdot : '.' ∉ old) (extension : Text) :
    renamed (['.'] ++ '.' :: old) extension = .parent := by
  unfold renamed
  rw [splitName_append (List.cons_ne_nil _ _) hdot]
  rfl

theorem components_eq_of_fileName? {p : Path} {t : Text} (h : p.fileName? = some t) :
    p.components = p.components.dropLast ++ [.name t] := by
  unfold fileName? at h
  split at h
  · next u hlast =>
    obtain rfl := Option.some.inj h
    obtain ⟨cs, hcs⟩ := List.getLast?_eq_some_iff.mp hlast
    rw [hcs, List.dropLast_concat]
  · cases h

theorem fileName?_ofComponents {cs : List Component} {c : Component}
    (h : Written (cs ++ [c])) : (ofComponents (cs ++ [c])).fileName? =
      match c with
      | .name t => some t
      | _ => none := by
  rw [fileName?, h.components, List.getLast?_concat]
  cases c <;> rfl

theorem isPiece_name {stem tail : Text} (hstem : stem ≠ []) (hlone : stem ++ tail ≠ ['.'])
    (hparent : stem ++ tail ≠ ['.', '.']) (hslash : '/' ∉ stem) (htail : '/' ∉ tail) :
    (Component.name (stem ++ tail)).IsPiece := by
  refine ⟨fun h => (List.mem_append.mp h).elim hslash htail, ?_⟩
  show Component.ofPiece? (stem ++ tail) = _
  unfold Component.ofPiece?
  split
  · next h => exact absurd (List.append_eq_nil_iff.mp h).1 hstem
  · next h => exact absurd h hlone
  · next h => exact absurd h hparent
  · rfl

/-- Setting an extension puts it behind the name without the one that it has. -/
theorem setExtension_ofComponents {cs : List Component} {t stem : Text} {old : Option Text}
    (h : Written (cs ++ [.name t])) (hsplit : splitName t = (stem, old)) {lead tail : Text}
    (htext : (ofComponents (cs ++ [.name t])).text = lead ++ stem ++ tail)
    (ht : t = stem ++ tail) (extension : Text) :
    (ofComponents (cs ++ [.name t])).setExtension extension =
      ⟨lead ++ (stem ++ '.' :: extension)⟩ := by
  have hlength : (lead ++ stem ++ tail).length - (t.length - stem.length) =
      (lead ++ stem).length := by
    rw [ht]
    simp
    omega
  rw [setExtension, fileName?_ofComponents h]
  dsimp only
  rw [h.trimmed, htext, hsplit, hlength, List.take_left, List.append_assoc]

/-- When the old extension is taken off the text, what is left is read anew: it ends with a name
with a dot at its end, or with the parent directory. -/
theorem setExtension_cut {cs : List Component} {stem old : Text}
    (h : Written (cs ++ [.name (stem ++ '.' :: old)])) (hstem : stem ≠ []) (hdot : '.' ∉ old)
    {lead : Text} (hlead : ∀ c, (ofComponents (cs ++ [c])).text = lead ++ c.text)
    (extension : Text) : (⟨lead ++ (stem ++ ['.'])⟩ : Path).setExtension extension =
      ofComponents (cs ++ [renamed (stem ++ '.' :: old) extension]) := by
  have hdone : ∀ c : Component, (⟨lead ++ c.text⟩ : Path) = ofComponents (cs ++ [c]) := fun c =>
    congrArg Path.mk (hlead c).symm
  by_cases hlone : stem = ['.']
  · subst hlone
    have hwritten : Written (cs ++ [.parent]) := h.concat ⟨by decide, rfl⟩
    rw [renamed_dots hdot, show (['.'] ++ ['.'] : Text) = Component.parent.text from rfl, hdone,
      setExtension, fileName?_ofComponents hwritten]
  · have hslash : '/' ∉ stem := fun hmem => h.last_isPiece.whole (List.mem_append_left _ hmem)
    have hone : stem ++ ['.'] ≠ ['.'] := fun heq => hstem (by simpa using heq)
    have htwo : stem ++ ['.'] ≠ ['.', '.'] := fun heq =>
      hlone (List.append_inj_left' (heq.trans (List.singleton_append (x := '.')).symm) rfl)
    have hwritten : Written (cs ++ [.name (stem ++ ['.'])]) :=
      h.concat (isPiece_name hstem hone htwo hslash (by decide))
    have htext : (ofComponents (cs ++ [.name (stem ++ ['.'])])).text = lead ++ stem ++ ['.'] := by
      rw [hlead, Component.text, List.append_assoc]
    rw [renamed_append hstem hlone hdot,
      show stem ++ ['.'] = (Component.name (stem ++ ['.'])).text from rfl, hdone]
    exact (setExtension_ofComponents hwritten (splitName_append hstem List.not_mem_nil) htext rfl
      extension).trans (hdone (.name _))

theorem withExtension_ofComponents {cs : List Component} {t : Text}
    (h : Written (cs ++ [.name t])) (extension : Text) :
    (ofComponents (cs ++ [.name t])).withExtension extension =
      ofComponents (cs ++ [renamed t extension]) := by
  obtain ⟨lead, hlead⟩ := ofComponents_concat cs
  unfold withExtension
  rw [fileName?_ofComponents h]
  rcases splitName_cases t with hsplit | ⟨stem, old, hstem, hdot, rfl, hsplit⟩
  · have htext : (ofComponents (cs ++ [.name t])).text = lead ++ t ++ [] := by
      rw [hlead, List.append_nil, Component.text]
    simp only [Option.bind_some, hsplit]
    rw [renamed_whole hsplit]
    exact (setExtension_ofComponents h hsplit htext (List.append_nil t).symm extension).trans
      (congrArg Path.mk (hlead (.name _)).symm)
  · have hcut : (ofComponents (cs ++ [.name (stem ++ '.' :: old)])).text =
        (lead ++ (stem ++ ['.'])) ++ old := by
      rw [hlead, Component.text]
      simp
    simp only [Option.bind_some, hsplit]
    rw [hcut, List.length_append, Nat.add_sub_cancel, List.take_left]
    exact setExtension_cut h hstem hdot hlead extension

end Path

end IncrementalBuild
