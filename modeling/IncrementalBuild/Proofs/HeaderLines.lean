import IncrementalBuild.Proofs.MarkerGrammar
/-!
# The lines of a header

A header is read line by line, and what stands before a line says whether the line is one of the
header. What is stated here: a reference of a file is exactly the marker on a line up to which the
header goes on, with the place of its path in the content. A line has at most one reference.
-/
namespace IncrementalBuild

/-! ## Lines of a text -/

namespace Text

/-- A text of which each line is ended by a newline. -/
def Ended (t : Text) : Prop := ∀ c ∈ t.getLast?, c = '\n'

/-- A line of a text, without the newline that ends it, between what comes before and after. -/
structure IsLine (t before line after : Text) : Prop where
  parts : before ++ (line ++ after) = t
  starts : before.Ended
  single : '\n' ∉ line
  ends : ∀ c ∈ after.head?, c = '\n'

theorem head?_newline (t : Text) : ∀ c ∈ ('\n' :: t).head?, c = '\n' :=
  fun _ hc => (Option.some.inj hc).symm

section
variable {line after : Text} (hline : '\n' ∉ line) (hafter : ∀ c ∈ after.head?, c = '\n')
include hline hafter

/-- A line goes up to the newline or the end of the text. -/
theorem takeWhile_line : (line ++ after).takeWhile (· != '\n') = line := by
  have hkeep : ∀ c ∈ line, (c != '\n') = true := fun c hc =>
    bne_iff_ne.mpr fun heq => hline (heq ▸ hc)
  rw [List.takeWhile_append_of_pos hkeep]
  cases after with
  | nil => exact List.append_nil line
  | cons c after =>
    obtain rfl : c = '\n' := hafter c rfl
    exact List.append_nil line

theorem dropWhile_line : (line ++ after).dropWhile (· != '\n') = after := by
  have hsplit := List.takeWhile_append_dropWhile (p := (· != '\n')) (l := line ++ after)
  rw [takeWhile_line hline hafter] at hsplit
  exact List.append_cancel_left hsplit

end

theorem ended_nil : Ended [] := fun _ hc => nomatch hc

theorem ended_append_iff {line rest : Text} : Ended (line ++ '\n' :: rest) ↔ Ended rest := by
  rw [Ended, List.getLast?_append, List.getLast?_cons, Option.some_or]
  cases hlast : rest.getLast? <;> simp [Ended, hlast]

/-- Induction on the lines of a text. -/
theorem lineInduction {motive : Text → Prop}
    (last : ∀ line, '\n' ∉ line → motive line)
    (ended : ∀ line rest, '\n' ∉ line → motive rest → motive (line ++ '\n' :: rest))
    (t : Text) : motive t := by
  by_cases h : '\n' ∈ t
  · obtain ⟨line, rest, heq, hline⟩ := List.eq_append_cons_of_mem h
    have hshorter : rest.length < t.length := by
      rw [heq, List.length_append, List.length_cons]
      omega
    exact heq ▸ ended line rest hline (lineInduction last ended rest)
  · exact last t h
termination_by t.length

section
variable {line : Text} (hline : '\n' ∉ line)
include hline

theorem linesInclusive_ended (t : Text) :
    linesInclusive (line ++ '\n' :: t) = (line ++ ['\n']) :: linesInclusive t := by
  induction line with
  | nil => rfl
  | cons c line ih =>
    rw [List.mem_cons, not_or] at hline
    rw [List.cons_append, linesInclusive, if_neg (Ne.symm hline.1), ih hline.2]
    rfl

theorem linesInclusive_single (hne : line ≠ []) : linesInclusive line = [line] := by
  induction line with
  | nil => exact absurd rfl hne
  | cons c line ih =>
    rw [List.mem_cons, not_or] at hline
    rw [linesInclusive, if_neg (Ne.symm hline.1)]
    cases line with
    | nil => rfl
    | cons d line => rw [ih hline.2 (List.cons_ne_nil d line)]

end

/-- A text in which each line is ended has a newline, unless it is empty. -/
theorem Ended.eq_nil {t : Text} (h : t.Ended) (hline : '\n' ∉ t) : t = [] := by
  cases hlast : t.getLast? with
  | none => exact List.getLast?_eq_none_iff.mp hlast
  | some c =>
    obtain rfl : c = '\n' := h c hlast
    exact absurd (List.mem_of_getLast? hlast) hline

theorem linesInclusive_append {before : Text} (h : before.Ended) (t : Text) :
    linesInclusive (before ++ t) = linesInclusive before ++ linesInclusive t := by
  induction before using lineInduction with
  | last line hline =>
    rw [h.eq_nil hline]
    rfl
  | ended line rest hline ih =>
    rw [List.append_assoc, List.cons_append, linesInclusive_ended hline,
      ih (ended_append_iff.mp h), linesInclusive_ended hline, List.cons_append]

/-- Lines that are each ended are the lines of the text that they make up. -/
theorem linesInclusive_flatten {lines : List Text}
    (h : ∀ l ∈ lines, ∃ line, '\n' ∉ line ∧ l = line ++ ['\n']) :
    linesInclusive lines.flatten = lines := by
  induction lines with
  | nil => rfl
  | cons l lines ih =>
    obtain ⟨line, hline, rfl⟩ := h l List.mem_cons_self
    rw [List.flatten_cons, List.append_assoc, List.singleton_append, linesInclusive_ended hline,
      ih fun l hl => h l (List.mem_cons_of_mem _ hl)]

/-- A line of what follows a line is a line of the whole. -/
theorem IsLine.behind {t before line after : Text} (h : t.IsLine before line after)
    (first : Text) :
    IsLine (first ++ '\n' :: t) (first ++ '\n' :: before) line after where
  parts := by rw [← h.parts, List.append_assoc, List.cons_append]
  starts := ended_append_iff.mpr h.starts
  single := h.single
  ends := h.ends

/-- Each line of a text stands between the lines before it and the rest. -/
theorem exists_isLine {t l : Text} {pre post : List Text}
    (h : linesInclusive t = pre ++ l :: post) :
    ∃ line after, t.IsLine pre.flatten line after ∧ l = line ++ after.take 1 ∧
      linesInclusive pre.flatten = pre := by
  induction t using lineInduction generalizing pre with
  | last line hline =>
    have hne : line ≠ [] := by
      rintro rfl
      simp [linesInclusive] at h
    rw [linesInclusive_single hline hne] at h
    obtain ⟨rfl, rfl, rfl⟩ : pre = [] ∧ line = l ∧ post = [] := by
      cases pre with
      | nil => simpa using h
      | cons d pre => simp at h
    exact ⟨line, [], ⟨List.append_nil _, ended_nil, hline, fun _ hc => nomatch hc⟩,
      (List.append_nil _).symm, rfl⟩
  | ended line rest hline ih =>
    rw [linesInclusive_ended hline] at h
    cases pre with
    | nil =>
      obtain ⟨rfl, _⟩ := List.cons.inj h
      exact ⟨line, '\n' :: rest, ⟨rfl, ended_nil, hline, head?_newline rest⟩, rfl, rfl⟩
    | cons first pre =>
      obtain ⟨rfl, hrest⟩ := List.cons.inj h
      obtain ⟨line', after, hline', hl, hpre⟩ := ih hrest
      have hflatten : ((line ++ ['\n']) :: pre).flatten = line ++ '\n' :: pre.flatten := by
        rw [List.flatten_cons, List.append_assoc]
        rfl
      refine ⟨line', after, hflatten ▸ hline'.behind line, hl, ?_⟩
      rw [hflatten, linesInclusive_ended hline, hpre]

/-- The characters of a line without its line end are characters of the line. -/
theorem chomp_subset {line : Text} (after : Text) (hline : '\n' ∉ line)
    (hends : ∀ c ∈ after.head?, c = '\n') : chomp (line ++ after.take 1) ⊆ line := by
  cases after with
  | nil =>
    rw [List.take_nil, List.append_nil]
    unfold chomp
    split
    · next h => exact absurd (List.mem_reverse.mp (h ▸ List.mem_cons_self)) hline
    · next h => exact absurd (List.mem_reverse.mp (h ▸ List.mem_cons_self)) hline
    · exact List.Subset.refl line
  | cons c after =>
    obtain rfl : c = '\n' := hends c rfl
    have hreverse : (line ++ ['\n']).reverse = '\n' :: line.reverse := List.reverse_append
    show chomp (line ++ ['\n']) ⊆ line
    unfold chomp
    rw [hreverse]
    intro d hd
    split at hd
    · next body h =>
      obtain hbody : line.reverse = '\r' :: body := (List.cons.inj h).2
      rw [← List.mem_reverse, hbody]
      exact List.mem_cons_of_mem _ (List.mem_reverse.mp hd)
    · next body _ h =>
      rwa [← show line.reverse = body from (List.cons.inj h).2, List.reverse_reverse] at hd
    · next h => exact absurd rfl (h line.reverse)

/-- The lines of a text do not have the newlines that end them. -/
theorem not_mem_lines (t : Text) : ∀ l ∈ Text.lines t, '\n' ∉ l := by
  intro l hl
  obtain ⟨whole, hwhole, rfl⟩ := List.mem_map.mp hl
  obtain ⟨pre, post, hlines⟩ := List.append_of_mem hwhole
  obtain ⟨line, after, hline, rfl, _⟩ := exists_isLine hlines
  exact fun hmem => hline.single (chomp_subset after hline.single hline.ends hmem)

/-- A line of a text that is not empty is one of those it is divided into. -/
theorem IsLine.lines {t before line after : Text} (h : t.IsLine before line after)
    (hne : line ≠ []) :
    ∃ post, linesInclusive t = linesInclusive before ++ (line ++ after.take 1) :: post := by
  rw [← h.parts, linesInclusive_append h.starts]
  cases after with
  | nil => exact ⟨[], by rw [List.append_nil, linesInclusive_single h.single hne, List.take_nil,
      List.append_nil]⟩
  | cons c rest =>
    obtain rfl : c = '\n' := h.ends c rfl
    exact ⟨linesInclusive rest, by rw [linesInclusive_ended h.single]; rfl⟩

/-- A line that starts behind the start of another one comes after the newline of that one. -/
theorem IsLine.newline_before {t before line after between line' after' : Text}
    (h : t.IsLine before line after) (h' : t.IsLine (before ++ between) line' after')
    (hne : between ≠ []) : ∃ rest, between = line ++ '\n' :: rest := by
  have heq : line ++ after = between ++ (line' ++ after') := by
    have h' := h'.parts
    rw [List.append_assoc, ← h.parts] at h'
    exact (List.append_cancel_left h').symm
  have hended : between.Ended := fun c hc => h'.starts c <| by
    rw [List.getLast?_append, Option.mem_def.mp hc]
    rfl
  rcases List.append_eq_append_iff.mp heq with ⟨rest, hbetween, hafter⟩ | ⟨rest, hline, _⟩
  · cases rest with
    | nil =>
      have hline : between = line := hbetween.trans (List.append_nil line)
      exact absurd (hended.eq_nil (hline ▸ h.single)) hne
    | cons c rest =>
      obtain rfl : c = '\n' := h.ends c (hafter ▸ rfl)
      exact ⟨rest, hbetween⟩
  · exact absurd (hended.eq_nil fun hmem => h.single (hline ▸ List.mem_append_left rest hmem)) hne

/-- Two lines of a text are one line, or a newline stands between them. -/
theorem IsLine.same_or_apart {t before line after before' line' after' : Text}
    (h : t.IsLine before line after) (h' : t.IsLine before' line' after') :
    before = before' ∧ line = line' ∨
      (∃ rest, before' = before ++ (line ++ '\n' :: rest)) ∨
      ∃ rest, before = before' ++ (line' ++ '\n' :: rest) := by
  rcases List.append_eq_append_iff.mp (h.parts.trans h'.parts.symm) with
    ⟨between, rfl, hrest⟩ | ⟨between, rfl, hrest⟩
  · by_cases hne : between = []
    · subst hne
      refine .inl ⟨(List.append_nil before).symm, ?_⟩
      rw [← takeWhile_line h.single h.ends, hrest, List.nil_append,
        takeWhile_line h'.single h'.ends]
    · obtain ⟨rest, rfl⟩ := h.newline_before h' hne
      exact .inr (.inl ⟨rest, rfl⟩)
  · by_cases hne : between = []
    · subst hne
      refine .inl ⟨List.append_nil before', ?_⟩
      rw [List.nil_append] at hrest
      rw [← takeWhile_line h.single h.ends, ← hrest, takeWhile_line h'.single h'.ends]
    · obtain ⟨rest, rfl⟩ := h'.newline_before h hne
      exact .inr (.inr ⟨rest, rfl⟩)

end Text

namespace Header

open Text

/-! ## Where a header stands -/

def Progress.next : Progress → Text → Progress
  | .outside, line => progress false line
  | .inside, line => progress true line
  | .over, _ => .over

/-- Where the header stands behind a text. -/
def standing (t : Text) : Progress := (linesInclusive t).foldl Progress.next .outside

/-- The references on lines before which the header stands somewhere. -/
def scanFrom (file : FileId) (directory : Path) (offset : Nat) (lines : List Text) :
    Progress → List Reference
  | .outside => scan file directory false offset lines
  | .inside => scan file directory true offset lines
  | .over => []

variable {file : FileId} {directory : Path} {offset : Nat}

theorem scanFrom_nil (p : Progress) : scanFrom file directory offset [] p = [] := by
  cases p <;> rfl

theorem scanFrom_cons (p : Progress) (line : Text) (rest : List Text) :
    scanFrom file directory offset (line :: rest) p =
      (if p = .outside then (reference? file directory offset line).toList else []) ++
        scanFrom file directory (offset + byteLength line) rest (p.next line) := by
  cases p with
  | outside =>
    show scan file directory false offset (line :: rest) = _
    rw [scan]
    cases hnext : progress false line <;> simp [Progress.next, scanFrom, hnext]
  | inside =>
    show scan file directory true offset (line :: rest) = _
    rw [scan]
    cases hnext : progress true line <;> simp [Progress.next, scanFrom, hnext]
  | _ => rfl

/-- A line gives a reference if the header stands outside its comments before the line. -/
theorem mem_scanFrom_iff {p : Progress} {lines : List Text} {r : Reference} :
    r ∈ scanFrom file directory offset lines p ↔ ∃ pre line post, lines = pre ++ line :: post ∧
      pre.foldl Progress.next p = .outside ∧
      reference? file directory (offset + byteLength pre.flatten) line = some r := by
  induction lines generalizing p offset with
  | nil => simp [scanFrom_nil]
  | cons line rest ih =>
    rw [scanFrom_cons, List.mem_append, ih]
    constructor
    · rintro (hr | ⟨pre, line', post, rfl, hpre, hr⟩)
      · split at hr
        · next hp => exact ⟨[], line, rest, rfl, hp, Option.mem_toList.mp hr⟩
        · cases hr
      · refine ⟨line :: pre, line', post, rfl, hpre, ?_⟩
        rwa [List.flatten_cons, byteLength_append, ← Nat.add_assoc]
    · rintro ⟨pre, line', post, hlines, hpre, hr⟩
      cases pre with
      | nil =>
        obtain ⟨rfl, rfl⟩ := List.cons.inj hlines
        left
        rw [if_pos (show p = .outside from hpre)]
        exact Option.mem_toList.mpr hr
      | cons first pre =>
        obtain ⟨rfl, rfl⟩ := List.cons.inj hlines
        refine .inr ⟨pre, line', post, rfl, hpre, ?_⟩
        rwa [List.flatten_cons, byteLength_append, ← Nat.add_assoc] at hr

/-! ## Markers on lines -/

/-- What ends a line may follow a marker and changes nothing about it. -/
theorem exists_marker_append_iff {line after : Text} {r : Reference}
    (hends : ∀ c ∈ after.head?, c = '\n') :
    (∃ m : Marker, m.WellFormed ∧ m.text = line ++ after.take 1 ∧
      r = m.reference file directory offset) ↔
    ∃ m : Marker, m.WellFormed ∧ m.text = line ∧ r = m.reference file directory offset := by
  constructor
  · rintro ⟨m, hm, htext, rfl⟩
    cases after with
    | nil => exact ⟨m, hm, htext.trans (List.append_nil line), rfl⟩
    | cons c rest =>
      obtain rfl : c = '\n' := hends c rfl
      obtain ⟨closing, c, hclosing⟩ : ∃ closing c, m.closing = closing ++ [c] :=
        (List.eq_nil_or_concat' m.closing).resolve_left fun h => by simpa [h] using hm.closed
      let open' : Marker := { m with closing }
      have hparts : m.text = open'.text ++ [c] := by
        show m.lead ++ (m.raw ++ m.quote :: m.closing) =
          m.lead ++ (m.raw ++ m.quote :: closing) ++ [c]
        simp only [hclosing, List.append_assoc, List.cons_append]
      have hsame : open'.text ++ [c] = line ++ ['\n'] := hparts.symm.trans htext
      obtain ⟨hline, hc⟩ := List.append_inj' hsame rfl
      obtain rfl : c = '\n' := by simpa using hc
      have hclosed : "/>".toList <:+: closing := by
        have hclosed := hm.closed
        rw [hclosing, infix_append_cons_iff (by decide)] at hclosed
        exact hclosed.resolve_right (by decide)
      exact ⟨open', { hm with closed := hclosed }, hline, rfl⟩
  · rintro ⟨m, hm, rfl, rfl⟩
    let ended : Marker := { m with closing := m.closing ++ after.take 1 }
    have hclosed : "/>".toList <:+: ended.closing :=
      hm.closed.trans (List.prefix_append m.closing _).isInfix
    refine ⟨ended, { hm with closed := hclosed }, ?_, rfl⟩
    simp only [Marker.text, List.append_assoc, List.cons_append]
    rfl

variable {p : Path} {content : Text} {r : Reference}

theorem references_eq_scanFrom (file : FileId) (p : Path) (content : Text) :
    references file p content =
      scanFrom file (p.parent?.getD ⟨[]⟩) 0 (linesInclusive content) .outside := rfl

/-- The references of a file are the markers on the lines of its content up to which the header
goes on. -/
theorem mem_references_iff : r ∈ references file p content ↔
    ∃ before m after, Marker.WellFormed m ∧ content.IsLine before m.text after ∧
      standing before = .outside ∧
      r = m.reference file (p.parent?.getD ⟨[]⟩) (byteLength before) := by
  rw [references_eq_scanFrom, mem_scanFrom_iff]
  constructor
  · rintro ⟨pre, line', post, hlines, hpre, hr⟩
    obtain ⟨line, after, hline, rfl, hflatten⟩ := exists_isLine hlines
    obtain ⟨m, hm, rfl, rfl⟩ :=
      (exists_marker_append_iff hline.ends).mp (reference?_eq_some_iff.mp hr)
    refine ⟨pre.flatten, m, after, hm, hline, ?_, by rw [Nat.zero_add]⟩
    rw [standing, hflatten, hpre]
  · rintro ⟨before, m, after, hm, hline, hstanding, rfl⟩
    obtain ⟨post, hlines⟩ := hline.lines m.text_ne_nil
    refine ⟨linesInclusive before, _, post, hlines, hstanding, ?_⟩
    rw [flatten_linesInclusive, Nat.zero_add]
    exact reference?_eq_some_iff.mpr ((exists_marker_append_iff hline.ends).mpr ⟨m, hm, rfl, rfl⟩)

/-! ## The places of paths -/

/-- Below 4 GiB the span of a reference is that of the path on its line. -/
theorem Marker.span_eq (m : Marker) (file : FileId) (directory : Path) {offset : Nat}
    (hsize : offset + byteLength m.text < UInt32.size) :
    (m.reference file directory offset).span = ⟨file, offset + byteLength m.lead,
      offset + byteLength m.lead + byteLength m.raw⟩ := by
  refine Span.ofOffsets_eq (Nat.le_add_right _ _) (Nat.lt_of_le_of_lt ?_ hsize)
  simp only [Marker.text, byteLength_append]
  omega

theorem Marker.reference_bounds (m : Marker) (file : FileId) (directory : Path) {offset : Nat}
    (hsize : offset + byteLength m.text < UInt32.size) :
    let span := (m.reference file directory offset).span
    offset < span.start ∧ span.start ≤ span.stop ∧ span.stop ≤ offset + byteLength m.text := by
  rw [m.span_eq file directory hsize]
  simp only [Marker.text, byteLength_append, m.byteLength_lead]
  omega

/-- The path of a marker on a line stands in the content, behind what comes before it. -/
theorem Marker.at_of_isLine {m : Marker} {before after : Text}
    (hline : content.IsLine before m.text after) :
    Text.At m.raw (byteLength before + byteLength m.lead) content := by
  refine ⟨before ++ m.lead, m.quote :: m.closing ++ after, ?_, byteLength_append before m.lead⟩
  rw [← hline.parts, Marker.text]
  simp only [List.append_assoc, List.cons_append]

theorem not_mem_raw (hr : r ∈ references file p content) : '\n' ∉ r.raw := by
  obtain ⟨before, m, after, _, hline, _, rfl⟩ := mem_references_iff.mp hr
  exact fun hmem => hline.single <|
    List.mem_append_right m.lead (List.mem_append_left _ hmem)

theorem path_eq (hr : r ∈ references file p content) :
    r.path = (p.parent?.getD ⟨[]⟩).resolve ⟨r.raw⟩ := by
  obtain ⟨before, m, after, _, _, _, rfl⟩ := mem_references_iff.mp hr
  rfl

theorem raw_ne_nil (hr : r ∈ references file p content) : r.raw ≠ [] := by
  obtain ⟨before, m, after, hm, _, _, rfl⟩ := mem_references_iff.mp hr
  exact hm.raw

theorem stop_le_of_isLine {before line after : Text} (hline : content.IsLine before line after) :
    byteLength before + byteLength line ≤ byteLength content := by
  rw [← hline.parts, byteLength_append, byteLength_append]
  omega

theorem reference?_bounds {line : Text} (hsize : offset + byteLength line < UInt32.size)
    (hr : reference? file directory offset line = some r) :
    offset < r.span.start ∧ r.span.start ≤ r.span.stop ∧
      r.span.stop ≤ offset + byteLength line := by
  obtain ⟨m, _, rfl, rfl⟩ := reference?_eq_some_iff.mp hr
  exact m.reference_bounds file directory hsize

/-- The references of lines start behind the start of the first line, one after the other. -/
theorem scanFrom_sorted {lines : List Text} {p : Progress}
    (hsize : offset + byteLength lines.flatten < UInt32.size) :
    (∀ r ∈ scanFrom file directory offset lines p, offset < r.span.start) ∧
      (scanFrom file directory offset lines p).Pairwise fun a b =>
        a.span.start < b.span.start := by
  induction lines generalizing p offset with
  | nil =>
    rw [scanFrom_nil]
    exact ⟨fun _ hr => absurd hr List.not_mem_nil, List.Pairwise.nil⟩
  | cons line rest ih =>
    rw [List.flatten_cons, byteLength_append] at hsize
    have hhere : ∀ r ∈
        (if p = .outside then (reference? file directory offset line).toList else []),
        offset < r.span.start ∧ r.span.start ≤ offset + byteLength line := by
      intro r hr
      split at hr
      · obtain ⟨hstart, hle, hstop⟩ := reference?_bounds (by omega) (Option.mem_toList.mp hr)
        exact ⟨hstart, hle.trans hstop⟩
      · cases hr
    have hsingle : (if p = .outside then (reference? file directory offset line).toList
        else []).Pairwise fun a b => a.span.start < b.span.start := by
      split
      · cases reference? file directory offset line with
        | none => exact List.Pairwise.nil
        | some r => exact List.pairwise_singleton ..
      · exact List.Pairwise.nil
    obtain ⟨hrest, hsorted⟩ := @ih (offset + byteLength line) (p.next line) (by omega)
    rw [scanFrom_cons]
    refine ⟨fun r hr => ?_, List.pairwise_append.mpr ⟨hsingle, hsorted, fun a ha b hb => ?_⟩⟩
    · rcases List.mem_append.mp hr with hr | hr
      · exact (hhere r hr).1
      · exact Nat.lt_of_le_of_lt (Nat.le_add_right ..) (hrest r hr)
    · exact Nat.lt_of_le_of_lt (hhere a ha).2 (hrest b hb)

section
variable (file : FileId) (p : Path) (hsize : byteLength content < UInt32.size)
include hsize

theorem references_sorted :
    (references file p content).Pairwise fun a b => a.span.start < b.span.start := by
  rw [references_eq_scanFrom]
  refine (scanFrom_sorted ?_).2
  rwa [flatten_linesInclusive, Nat.zero_add]

theorem references_pairwise :
    (references file p content).Pairwise fun a b =>
      ∃ before after, content = before ++ '\n' :: after ∧
        a.span.stop ≤ byteLength before ∧ byteLength before < b.span.start := by
  refine (references_sorted file p hsize).imp_of_mem fun {a b} ha hb hlt => ?_
  obtain ⟨before, m, after, hm, hline, _, rfl⟩ := mem_references_iff.mp ha
  obtain ⟨before', m', after', hm', hline', _, rfl⟩ := mem_references_iff.mp hb
  generalize p.parent?.getD ⟨[]⟩ = directory at hlt ⊢
  have ha := m.reference_bounds file directory
    (Nat.lt_of_le_of_lt (stop_le_of_isLine hline) hsize)
  have hb := m'.reference_bounds file directory
    (Nat.lt_of_le_of_lt (stop_le_of_isLine hline') hsize)
  rcases hline.same_or_apart hline' with ⟨rfl, htext⟩ | ⟨rest, rfl⟩ | ⟨rest, rfl⟩
  · have hsame : some (m.reference file directory (byteLength before)) =
        some (m'.reference file directory (byteLength before)) := by
      rw [← reference?_eq_some_iff.mpr ⟨m, hm, rfl, rfl⟩, htext,
        reference?_eq_some_iff.mpr ⟨m', hm', rfl, rfl⟩]
    rw [Option.some.inj hsame] at hlt
    exact absurd hlt (Nat.lt_irrefl _)
  · refine ⟨before ++ m.text, rest ++ (m'.text ++ after'), ?_, ?_, ?_⟩
    · rw [← hline'.parts]
      simp only [List.append_assoc, List.cons_append]
    · rw [byteLength_append]
      exact ha.2.2
    · simp only [byteLength_append, byteLength_cons] at hb ⊢
      omega
  · simp only [byteLength_append, byteLength_cons] at ha hb hlt
    omega

end

/-- The references of a file are the markers of its header. In a content of less than 4 GiB each of
them has the place of its path, and a line ends between every two. -/
theorem references_exact (file : FileId) (p : Path) (content : Text) :
    (∀ r, r ∈ references file p content ↔ ∃ before m after, Marker.WellFormed m ∧
      content.IsLine before m.text after ∧ standing before = .outside ∧
      r = m.reference file (p.parent?.getD ⟨[]⟩) (byteLength before)) ∧
    (byteLength content < UInt32.size →
      (∀ r ∈ references file p content, r.span.file = file ∧ r.span.start < r.span.stop ∧
        r.span.stop ≤ byteLength content ∧ r.span.stop = r.span.start + byteLength r.raw ∧
        Text.At r.raw r.span.start content ∧ '\n' ∉ r.raw ∧
        r.path = (p.parent?.getD ⟨[]⟩).resolve ⟨r.raw⟩) ∧
      (references file p content).Pairwise fun a b => ∃ before after,
        content = before ++ '\n' :: after ∧
        a.span.stop ≤ byteLength before ∧ byteLength before < b.span.start) := by
  refine ⟨fun r => mem_references_iff, fun hsize => ⟨fun r hr => ?_,
    references_pairwise file p hsize⟩⟩
  have hpos : 0 < byteLength r.raw := byteLength_pos (raw_ne_nil hr)
  have hnewline := not_mem_raw hr
  obtain ⟨before, m, after, hm, hline, _, rfl⟩ := mem_references_iff.mp hr
  have hat := Marker.at_of_isLine hline
  rw [m.span_eq _ _ (Nat.lt_of_le_of_lt (stop_le_of_isLine hline) hsize)]
  exact ⟨rfl, Nat.lt_add_of_pos_right hpos, hat.stop_le, rfl, hat, hnewline, rfl⟩

theorem references_exact_of_two :
    let content : Text := "/* é */\n\t///<reference path='b.ts' />\r\n/// <reference path=\"é\"/>"
    byteLength content < UInt32.size ∧
    (references 3 "/p/a.ts" content).map Reference.span = [⟨3, 30, 34⟩, ⟨3, 61, 63⟩] ∧
    (∀ r ∈ references 3 "/p/a.ts" content, Text.At r.raw r.span.start content) ∧
    (references 3 "/p/a.ts" content).Pairwise fun a b => ∃ before after,
      content = before ++ '\n' :: after ∧
      a.span.stop ≤ byteLength before ∧ byteLength before < b.span.start := by
  intro content
  have hsize : byteLength content < UInt32.size := by decide
  obtain ⟨hplaces, hapart⟩ := (references_exact 3 "/p/a.ts" content).2 hsize
  refine ⟨hsize, by decide, fun r hr => ?_, hapart⟩
  obtain ⟨_, _, _, _, hat, _, _⟩ := hplaces r hr
  exact hat

end Header

end IncrementalBuild
