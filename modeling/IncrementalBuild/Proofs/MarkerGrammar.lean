import IncrementalBuild.Proofs.TextParts
import IncrementalBuild.Source.Header
/-!
# How markers are written

A marker is a line comment of three slashes with a tag in it, and blanks may stand between its
parts. What is stated here: a line is read as a reference exactly if it is written like this, and
the parts before the path give the place of the path.
-/
namespace IncrementalBuild.Header

open Text

/-! ## The grammar -/

/-- The parts of a line with a marker: the blanks before the slashes and between the parts of the
tag, the quote, the path and what follows the path and its second quote. -/
structure Marker where
  indent : Text
  gap : Text
  tagGap : Text
  nameGap : Text
  equalsGap : Text
  quote : Char
  raw : Text
  closing : Text

namespace Marker

/-- The tag up to the path. -/
def tag (m : Marker) : Text :=
  m.gap ++ ("<reference".toList ++ (m.tagGap ++ ("path".toList ++ (m.nameGap ++
    ('=' :: (m.equalsGap ++ [m.quote]))))))

/-- The line up to the path. -/
def lead (m : Marker) : Text := m.indent ++ '/' :: '/' :: '/' :: m.tag

def text (m : Marker) : Text := m.lead ++ (m.raw ++ m.quote :: m.closing)

/-- What makes the parts those of a marker. -/
structure WellFormed (m : Marker) : Prop where
  indent : allBlank m.indent = true
  gap : allBlank m.gap = true
  tagGap : allBlank m.tagGap = true
  apart : m.tagGap ≠ []
  nameGap : allBlank m.nameGap = true
  equalsGap : allBlank m.equalsGap = true
  quote : m.quote ∈ quotes
  raw : m.raw ≠ []
  quoted : m.quote ∉ m.raw
  closed : "/>".toList <:+: m.closing

/-- The reference of a marker on a line that starts at byte `offset` of its file. -/
def reference (m : Marker) (file : FileId) (directory : Path) (offset : Nat) : Reference :=
  let start := offset + byteLength m.lead
  ⟨m.raw, directory.resolve ⟨m.raw⟩, .ofOffsets file start (start + byteLength m.raw)⟩

theorem tag_append (m : Marker) (t : Text) : m.tag ++ t =
    m.gap ++ ("<reference".toList ++ (m.tagGap ++ ("path".toList ++ (m.nameGap ++
      ('=' :: (m.equalsGap ++ m.quote :: t)))))) := by
  simp only [tag, List.append_assoc, List.cons_append, List.nil_append]

theorem text_eq (m : Marker) :
    m.text = m.indent ++ '/' :: '/' :: '/' :: (m.tag ++ (m.raw ++ m.quote :: m.closing)) := by
  simp only [text, lead, List.append_assoc, List.cons_append]

theorem text_ne_nil (m : Marker) : m.text ≠ [] := by
  rw [text_eq]
  exact List.append_ne_nil_of_right_ne_nil _ (List.cons_ne_nil _ _)

theorem byteLength_lead (m : Marker) :
    byteLength m.lead = byteLength m.indent + 3 + byteLength m.tag := by
  have hslash : '/'.utf8Size = 1 := by decide
  simp only [lead, byteLength_append, byteLength_cons, hslash]
  omega

end Marker

/-! ## Reading a tag -/

theorem isBlank_quote {q : Char} (hq : q ∈ quotes) : isBlank q = false := by
  have hall : quotes.all (!isBlank ·) = true := by decide
  simpa using List.all_eq_true.mp hall q hq

section
variable {b t rest : Text} {c : Char}

theorem afterBlanks?_append (hb : allBlank b = true) (hne : b ≠ []) (hc : isBlank c = false) :
    afterBlanks? (b ++ c :: t) = some (c :: t) := by
  have hhead : ((b ++ c :: t).head?.any isBlank) = true := by
    cases b with
    | nil => exact absurd rfl hne
    | cons d b => exact (Bool.and_eq_true_iff.mp (allBlank_cons ▸ hb)).1
  rw [afterBlanks?, if_pos hhead, trimStart_append hb, trimStart_cons hc]

theorem afterBlanks?_eq (h : afterBlanks? t = some rest) :
    ∃ b, allBlank b = true ∧ b ≠ [] ∧ t = b ++ rest := by
  unfold afterBlanks? at h
  split at h
  · next hhead =>
    cases h
    refine ⟨indent t, indent_allBlank t, ?_, (indent_append_trimStart t).symm⟩
    cases t with
    | nil => cases hhead
    | cons c t =>
      rw [indent, List.takeWhile_cons_of_pos (show isBlank c = true from hhead)]
      exact List.cons_ne_nil c _
  · cases h

end

/-- What comes before the end of a text, by the lengths of both. -/
theorem take_before (lead value : Text) :
    (lead ++ value).take ((lead ++ value).length - value.length) = lead :=
  List.take_left' (by rw [List.length_append, Nat.add_sub_cancel])

theorem markerPath?_tag {m : Marker} (h : m.WellFormed) :
    markerPath? (m.tag ++ (m.raw ++ m.quote :: m.closing)) = some (m.tag, m.raw) := by
  generalize hvalue : m.raw ++ m.quote :: m.closing = value
  have htag : after? "<reference" (trimStart (m.tag ++ value)) =
      some (m.tagGap ++ ("path".toList ++ (m.nameGap ++ ('=' :: (m.equalsGap ++
        m.quote :: value))))) := by
    rw [m.tag_append, trimStart_append h.gap]
    exact after?_append _ _
  have hname : afterBlanks? (m.tagGap ++ ("path".toList ++ (m.nameGap ++ ('=' :: (m.equalsGap ++
      m.quote :: value))))) = some ("path".toList ++ (m.nameGap ++ ('=' :: (m.equalsGap ++
        m.quote :: value)))) :=
    afterBlanks?_append h.tagGap h.apart (by decide)
  have hequals : after? "=" (trimStart (m.nameGap ++ ('=' :: (m.equalsGap ++
      m.quote :: value)))) = some (m.equalsGap ++ m.quote :: value) := by
    rw [trimStart_append h.nameGap]
    exact after?_append _ _
  have hopening : trimStart (m.equalsGap ++ m.quote :: value) = m.quote :: value := by
    rw [trimStart_append h.equalsGap, trimStart_cons (isBlank_quote h.quote)]
  have hsplit : splitAt? [m.quote] value = some (m.raw, m.closing) :=
    hvalue ▸ splitAt?_singleton h.quoted m.closing
  have hkeep : ¬ (m.raw = [] ∨ (!contains m.closing "/>") = true) := by
    rw [contains_iff.mpr h.closed]
    simpa using h.raw
  simp only [markerPath?, Option.bind_eq_bind, htag, hname, after?_append, hequals, hopening,
    Option.bind_some, if_pos h.quote, hsplit, if_neg hkeep, take_before]

theorem exists_tag {t lead raw : Text} (h : markerPath? t = some (lead, raw)) :
    ∃ m : Marker, m.WellFormed ∧ m.tag = lead ∧ m.raw = raw ∧
      t = m.tag ++ (m.raw ++ m.quote :: m.closing) := by
  unfold markerPath? at h
  simp only [Option.bind_eq_bind, Option.bind_eq_some_iff] at h
  obtain ⟨tag, htag, name, hname, equals, hequals, opening, hopening, h⟩ := h
  obtain ⟨tagGap, htagGap, hapart, rfl⟩ := afterBlanks?_eq hname
  split at h
  · cases h
  · next quote value hvalue =>
    split at h
    · next hquote =>
      obtain ⟨⟨path, closing⟩, hsplit, h⟩ := Option.bind_eq_some_iff.mp h
      split at h
      · cases h
      · next hkeep =>
        cases h
        rw [not_or, Bool.not_eq_true, Bool.not_eq_false', contains_iff] at hkeep
        let m : Marker :=
          ⟨[], indent t, tagGap, indent equals, indent opening, quote, path, closing⟩
        have hraw : path ++ quote :: closing = value := splitAt?_eq hsplit
        have ht : t = m.tag ++ value := by
          calc t = indent t ++ trimStart t := (indent_append_trimStart t).symm
            _ = indent t ++ ("<reference".toList ++ (tagGap ++ name)) := by rw [after?_eq htag]
            _ = indent t ++ ("<reference".toList ++ (tagGap ++ ("path".toList ++
                  (indent equals ++ trimStart equals)))) := by
                rw [indent_append_trimStart, after?_eq hequals]
            _ = indent t ++ ("<reference".toList ++ (tagGap ++ ("path".toList ++
                  (indent equals ++ ("=".toList ++ (indent opening ++ trimStart opening)))))) := by
                rw [indent_append_trimStart opening, after?_eq hopening]
            _ = m.tag ++ value := by rw [hvalue, m.tag_append]; rfl
        refine ⟨m, ⟨rfl, indent_allBlank t, htagGap, hapart, indent_allBlank equals,
          indent_allBlank opening, hquote, hkeep.1, fun hmem => ?_, hkeep.2⟩, ?_, rfl, ?_⟩
        · exact splitAt?_first (List.cons_ne_nil quote []) hsplit
            ((List.singleton_infix_iff quote _).mpr hmem)
        · nth_rewrite 2 [ht]
          rw [ht, take_before]
        · exact ht.trans (congrArg (m.tag ++ ·) hraw.symm)
    · cases h

/-! ## Reading a line -/

theorem lineKind_eq_tripleSlash_iff {t rest : Text} :
    lineKind t = .tripleSlash rest ↔ t = '/' :: '/' :: '/' :: rest := by
  constructor
  · intro h
    unfold lineKind at h
    split at h <;> simp_all
  · rintro rfl
    rfl

theorem close_infix_trimEnd {t : Text} (h : "/>".toList <:+: t) : "/>".toList <:+: trimEnd t := by
  obtain ⟨before, after, rfl⟩ := h
  have htrim : trimEnd (before ++ "/>".toList ++ after) =
      before ++ '/' :: '>' :: trimEnd after := by
    rw [List.append_assoc]
    exact (trimEnd_append_cons before (by decide) _).trans
      (congrArg (before ++ '/' :: ·) (trimEnd_append_cons [] (by decide) after))
  exact ⟨before, trimEnd after, by rw [htrim, List.append_assoc]; rfl⟩

variable {file : FileId} {directory : Path} {offset : Nat} {line : Text} {r : Reference}

/-- A line is read as a reference exactly if it is the line of a marker. -/
theorem reference?_eq_some_iff : reference? file directory offset line = some r ↔
    ∃ m : Marker, m.WellFormed ∧ m.text = line ∧ r = m.reference file directory offset := by
  constructor
  · intro h
    unfold reference? at h
    split at h
    · next rest hkind =>
      obtain ⟨⟨lead, raw⟩, hmarker, rfl⟩ := Option.map_eq_some_iff.mp h
      obtain ⟨m, hm, rfl, rfl, rfl⟩ := exists_tag hmarker
      obtain ⟨last, _, hline⟩ := exists_eq_trim line
      rw [lineKind_eq_tripleSlash_iff.mp hkind] at hline
      let here : Marker := { m with indent := indent line, closing := m.closing ++ last }
      have hclosed : "/>".toList <:+: here.closing :=
        hm.closed.trans (List.prefix_append m.closing last).isInfix
      refine ⟨here, { hm with indent := indent_allBlank line, closed := hclosed }, ?_, ?_⟩
      · rw [hline, here.text_eq]
        simp only [List.append_assoc, List.cons_append]
        rfl
      · have hlead : byteLength here.lead = byteLength (indent line) + 3 + byteLength m.tag :=
          here.byteLength_lead
        simp only [Marker.reference, hlead, Nat.add_assoc]
        rfl
    · cases h
  · rintro ⟨m, hm, rfl, rfl⟩
    let bare : Marker := { m with closing := trimEnd m.closing }
    have hbare : bare.WellFormed := { hm with closed := close_infix_trimEnd hm.closed }
    have hslash : isBlank '/' = false := by decide
    have hindent : indent m.text = m.indent := by
      rw [m.text_eq, indent_append_cons hm.indent hslash]
    have htrim : trim m.text =
        '/' :: '/' :: '/' :: (bare.tag ++ (bare.raw ++ bare.quote :: bare.closing)) := by
      have hend := trimEnd_append_cons ('/' :: '/' :: '/' :: (m.tag ++ m.raw))
        (isBlank_quote hm.quote) m.closing
      simp only [List.cons_append, List.append_assoc] at hend
      rw [m.text_eq, trim, trimStart_append hm.indent, trimStart_cons hslash, hend]
      rfl
    have hkind := lineKind_eq_tripleSlash_iff.mpr htrim
    simp only [reference?, hkind, markerPath?_tag hbare, Option.map_some, hindent]
    simp only [Marker.reference, m.byteLength_lead, Nat.add_assoc]
    rfl

end IncrementalBuild.Header
