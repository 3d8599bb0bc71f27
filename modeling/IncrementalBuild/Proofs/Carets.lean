import IncrementalBuild.Proofs.CheckedExcerpts
/-!
# Carets

An excerpt has blanks for what comes before a span on its line, and carets for the span. Both are
counted in bytes. What is stated here: for every span that starts and ends between characters, how
many there are, and that they stand below the characters of the span exactly if these and the
characters before them take one byte each, as far as they are shown.
-/
namespace IncrementalBuild

namespace Text

/-- A span is made of the characters `piece` of a text. The line on which it starts has `left`
before it and comes behind the lines `lead`. -/
structure Covers (t : Text) (s : Span) (lead left piece rest : Text) : Prop where
  eq : t = (lead ++ left) ++ (piece ++ rest)
  ended : lead = [] ∨ ∃ lines, lead = lines ++ ['\n']
  newline_left : '\n' ∉ left
  start : s.start = byteLength (lead ++ left)
  stop : s.stop = byteLength (lead ++ left ++ piece)
  ne_nil : piece ≠ []

/-- What is shown of the line that has `left`, on which a text goes on. -/
def shownLine (left t : Text) : Text :=
  dropEndWhile (· == '\r') (left ++ t.takeWhile (· != '\n'))

/-- A span with bytes that starts and ends between characters is made of characters. -/
theorem exists_covers {t : Text} {s : Span} (hstart : (cutAt? s.start t).isSome)
    (hstop : (cutAt? s.stop t).isSome) (hlt : s.start < s.stop) :
    ∃ lead left piece rest, Covers t s lead left piece rest := by
  obtain ⟨⟨before, after⟩, hcut⟩ := Option.isSome_iff_exists.mp hstart
  obtain ⟨⟨before', rest⟩, hcut'⟩ := Option.isSome_iff_exists.mp hstop
  obtain ⟨ht, hlength⟩ := cutAt?_eq_some_iff.mp hcut
  obtain ⟨ht', hlength'⟩ := cutAt?_eq_some_iff.mp hcut'
  obtain ⟨lead, left, rfl, hleft, hended⟩ := exists_lead before
  rcases List.append_eq_append_iff.mp (ht.symm.trans ht') with
    ⟨piece, rfl, rfl⟩ | ⟨piece, hpiece, _⟩
  · refine ⟨lead, left, piece, rest, ht, hended, hleft, hlength.symm, hlength'.symm, ?_⟩
    rintro rfl
    rw [List.append_nil] at hlength'
    omega
  · rw [hpiece, byteLength_append] at hlength
    omega

section
variable {t lead left piece rest : Text} {s : Span} (h : Covers t s lead left piece rest)
include h

theorem Covers.lineParts : LineParts t s.start lead left ((piece ++ rest).takeWhile (· != '\n'))
    ((piece ++ rest).dropWhile (· != '\n')) := by
  rw [h.eq, h.start, ← Nat.add_zero (byteLength (lead ++ left))]
  exact .of_parts h.ended h.newline_left fun c _ _ => Char.utf8Size_pos c

theorem Covers.lineAt_eq : t.lineAt s.start = shownLine left (piece ++ rest) := by
  have hcut := h.lineParts.cutLine?_eq
  rw [cutLine?_eq] at hcut
  exact Option.some.inj hcut

theorem Covers.length_eq : s.length = byteLength piece := by
  rw [Span.length, h.start, h.stop, byteLength_append (lead ++ left), Nat.add_sub_cancel_left]

theorem Covers.start_lt_stop : s.start < s.stop := by
  have hpiece := byteLength_pos h.ne_nil
  rw [h.start, h.stop, byteLength_append (lead ++ left)]
  omega

theorem Covers.stop_le : s.stop ≤ byteLength t := by
  rw [h.eq, h.stop, ← List.append_assoc, byteLength_append (lead ++ left ++ piece)]
  exact Nat.le_add_right _ _

end

/-! ## Bytes and characters -/

/-- A text has as many bytes as characters exactly if each character takes one. -/
theorem byteLength_eq_length_iff {t : Text} :
    byteLength t = t.length ↔ ∀ c ∈ t, c.utf8Size = 1 := by
  refine ⟨fun h => ?_, byteLength_eq_length⟩
  induction t with
  | nil => exact fun c hc => nomatch hc
  | cons c t ih =>
    have hsize := Char.utf8Size_pos c
    have hle := length_le_byteLength t
    rw [List.length_cons, byteLength_cons] at h
    rw [List.forall_mem_cons]
    exact ⟨by omega, ih (by omega)⟩

/-- As many blanks as `left` has bytes reach up to the end of what is shown of it exactly if all of
it is shown and each of its characters takes one byte. -/
theorem byteLength_eq_length_take_iff {left shown : Text} :
    byteLength left = (shown.take left.length).length ↔
      left.length ≤ shown.length ∧ ∀ c ∈ left, c.utf8Size = 1 := by
  have hle := length_le_byteLength left
  rw [← byteLength_eq_length_iff, List.length_take]
  omega

/-- All of a line before a span is shown if the line has more than carriage returns from there
on. -/
theorem starts_shownLine {left t : Text} (h : ∃ c ∈ t.takeWhile (· != '\n'), c ≠ '\r') :
    left <+: shownLine left t := by
  obtain ⟨c, hc, hne⟩ := h
  obtain ⟨before, after, hparts⟩ := List.append_of_mem hc
  rw [shownLine, hparts, ← List.append_assoc,
    dropEndWhile_append_cons _ (by simpa using hne), List.append_assoc]
  exact List.prefix_append _ _

end Text

namespace Excerpt

theorem ofSpan_eq {f : SourceFile} (hf : f.Made) (hsize : Text.byteLength f.content < UInt32.size)
    {s : Span} {lead left piece rest : Text}
    (h : Text.Covers f.content s lead left piece rest) :
    ofSpan f s = ⟨lead.count '\n' + 1, Text.shownLine left (piece ++ rest),
      Text.byteLength left, Text.byteLength piece⟩ := by
  have hpadding : s.start - Text.byteLength lead + 1 - 1 = Text.byteLength left := by
    rw [h.start, Text.byteLength_append]
    omega
  have hcarets : max (Text.byteLength piece) 1 = Text.byteLength piece :=
    Nat.max_eq_left (Text.byteLength_pos h.ne_nil)
  have hfits := (hf.holds hsize h.start_lt_stop h.stop_le).start
  rw [ofSpan, hfits.inWords_eq, hf.position_line hsize h.lineParts,
    hf.position_column hsize h.lineParts, hpadding, h.lineAt_eq, h.length_eq, hcarets]

end Excerpt

namespace Cache

open Text

/-- Blanks and carets are counted in bytes. For every file of a reachable cache of less than 4 GiB
and every span of it that is not empty and starts and ends between characters, no step of showing
the span fails, and the line with the carets has as many blanks as the line of the span has bytes
before it, and as many carets as the span has bytes. There is a caret a character exactly if each
character of the span takes one byte, and a blank a character of what is shown before the span
exactly if each character before it takes one byte and none of them is a carriage return that is not
shown. -/
theorem carets_cover_bytes (steps : List CacheStep) (d : Diagnostic) (f : SourceFile)
    (hfile : (runSteps steps).file? d.span.file = some f) (hknown : d.span.isDummy = false)
    (hsize : byteLength f.content < UInt32.size)
    (hstart : (cutAt? d.span.start f.content).isSome)
    (hstop : (cutAt? d.span.stop f.content).isSome) (hlt : d.span.start < d.span.stop) :
    ∃ lead left piece rest, Covers f.content d.span lead left piece rest ∧
      let shown := shownLine left (piece ++ rest)
      let number := Text.ofNat (lead.count '\n' + 1)
      let gutter := List.replicate number.length ' '
      d.place? (runSteps steps) = some (d.place (runSteps steps)) ∧
      d.place (runSteps steps) =
        "  --> ".toList ++ (f.locate d.span).text ++ "\n".toList ++
        (gutter ++ " |\n".toList ++ number ++ " | ".toList ++ shown ++ "\n".toList ++
        gutter ++ " | ".toList ++ List.replicate (byteLength left) ' ' ++
          List.replicate (byteLength piece) '^' ++ d.remark ++ "\n".toList) ∧
      (byteLength piece = piece.length ↔ ∀ c ∈ piece, c.utf8Size = 1) ∧
      (byteLength left = (shown.take left.length).length ↔
        left.length ≤ shown.length ∧ ∀ c ∈ left, c.utf8Size = 1) ∧
      ((∃ c ∈ (piece ++ rest).takeWhile (· != '\n'), c ≠ '\r') → left <+: shown) := by
  obtain ⟨lead, left, piece, rest, hcovers⟩ := exists_covers hstart hstop hlt
  have hf := runSteps_made steps _ f hfile
  refine ⟨lead, left, piece, rest, hcovers, ?_, ?_, byteLength_eq_length_iff,
    byteLength_eq_length_take_iff, starts_shownLine⟩
  · refine Diagnostic.place?_eq (runSteps_made steps) hlt.le fun g hg => ?_
    rw [← Option.some.inj (hfile.symm.trans hg)]
    exact hf.holds hsize hlt hcovers.stop_le
  · rw [Diagnostic.place, hknown, hfile]
    simp only [Bool.false_eq_true, if_false, Excerpt.ofSpan_eq hf hsize hcovers]
    rfl

/-- A file with two characters of two bytes. -/
def accented : List CacheStep := [.upsert "/p/a.ts" "é ü\n".toList]

/-- A warning about the second of them. -/
def accentWarning : Diagnostic := .warning .conflictMarker "here".toList ⟨0, 3, 5⟩

theorem carets_cover_bytes_of_accented :
    let f : SourceFile := .ofContent 0 "/p/a.ts" "é ü\n".toList 1
    (runSteps accented).file? accentWarning.span.file = some f ∧
    accentWarning.span.isDummy = false ∧ byteLength f.content < UInt32.size ∧
    (cutAt? accentWarning.span.start f.content).isSome ∧
    (cutAt? accentWarning.span.stop f.content).isSome ∧
    accentWarning.span.start < accentWarning.span.stop ∧
    ∃ lead left piece rest, Covers f.content accentWarning.span lead left piece rest ∧
      (byteLength piece = piece.length ↔ ∀ c ∈ piece, c.utf8Size = 1) := by
  intro f
  have hfile : (runSteps accented).file? accentWarning.span.file = some f := by decide +kernel
  have hknown : accentWarning.span.isDummy = false := by decide
  have hsize : byteLength f.content < UInt32.size := by decide
  have hstart : (cutAt? accentWarning.span.start f.content).isSome := by decide +kernel
  have hstop : (cutAt? accentWarning.span.stop f.content).isSome := by decide +kernel
  have hlt : accentWarning.span.start < accentWarning.span.stop := by decide
  obtain ⟨lead, left, piece, rest, hcovers, _, _, hpiece, _⟩ :=
    carets_cover_bytes accented accentWarning f hfile hknown hsize hstart hstop hlt
  exact ⟨hfile, hknown, hsize, hstart, hstop, hlt, lead, left, piece, rest, hcovers, hpiece⟩

/-- One character comes behind two others and has two carets below it, behind three blanks. -/
theorem accents_shift_carets :
    Covers "é ü\n".toList accentWarning.span [] "é ".toList "ü".toList "\n".toList ∧
    accentWarning.render false (runSteps accented) =
      "warning[C001]: here\n  --> /p/a.ts:1:4\n  |\n1 | é ü\n  |    ^^\n".toList := by
  refine ⟨⟨?_, .inl rfl, ?_, ?_, ?_, ?_⟩, ?_⟩ <;> decide +kernel

end Cache

end IncrementalBuild
