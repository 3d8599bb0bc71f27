import IncrementalBuild.Diagnostic.Excerpt
import IncrementalBuild.Proofs.CacheEntry
import IncrementalBuild.Proofs.TextBytes
import IncrementalBuild.Proofs.TextParts
/-!
# Lines of a source

A byte of a text lies in one line: some lines come before it, and the line goes on up to the next
newline. The line table of a source tells the number of this line, by the lines that start before
the byte, and the line itself is read off the text around the byte, without the table.
-/
namespace IncrementalBuild

namespace Text

/-! ## The line of a byte -/

/-- The parts of a text around the line in which byte `offset` lies: the lines before it, the part
of the line before the character of the byte, the part from this character on, and what follows the
line. A byte past the end lies behind the last character. -/
structure LineParts (t : Text) (offset : Nat) (lead left right rest : Text) : Prop where
  eq : t = (lead ++ left) ++ (right ++ rest)
  ended : lead = [] ∨ ∃ lines, lead = lines ++ ['\n']
  newline_left : '\n' ∉ left
  newline_right : '\n' ∉ right
  next : rest = [] ∨ ∃ more, rest = '\n' :: more
  start : byteLength (lead ++ left) ≤ offset
  inside : ∀ c more, right ++ rest = c :: more → offset < byteLength (lead ++ left) + c.utf8Size

/-- Behind one more line, a byte lies in the same line as before. -/
theorem LineParts.behind {t lead left right rest line : Text} {offset : Nat}
    (h : LineParts t offset lead left right rest) :
    LineParts (line ++ '\n' :: t) (byteLength line + (1 + offset)) (line ++ '\n' :: lead) left right
      rest := by
  have hlength : byteLength ((line ++ '\n' :: lead) ++ left) =
      byteLength line + (1 + byteLength (lead ++ left)) := by
    rw [List.append_assoc, byteLength_append, List.cons_append, byteLength_cons]
    rfl
  refine ⟨?_, .inr ?_, h.newline_left, h.newline_right, h.next, ?_, fun c more hmore => ?_⟩
  · rw [h.eq]
    simp only [List.append_assoc, List.cons_append]
  · rcases h.ended with rfl | ⟨lines, rfl⟩
    · exact ⟨line, rfl⟩
    · exact ⟨line ++ '\n' :: lines, by rw [List.append_assoc, List.cons_append]⟩
  · have hstart := h.start
    omega
  · have hinside := h.inside c more hmore
    omega

/-- A byte of the character behind a part of a line lies in this line. -/
theorem LineParts.of_parts {lead left t : Text} {offset : Nat}
    (hended : lead = [] ∨ ∃ lines, lead = lines ++ ['\n']) (hleft : '\n' ∉ left)
    (hinside : ∀ c more, t = c :: more → offset < c.utf8Size) :
    LineParts ((lead ++ left) ++ t) (byteLength (lead ++ left) + offset) lead left
      (t.takeWhile (· != '\n')) (t.dropWhile (· != '\n')) := by
  have hparts := List.takeWhile_append_dropWhile (p := (· != '\n')) (l := t)
  refine ⟨?_, hended, hleft, fun hmem => ?_, ?_, Nat.le_add_right _ _, fun c more hmore => ?_⟩
  · rw [hparts]
  · exact absurd (List.mem_takeWhile_imp hmem) (by decide)
  · have hhead := List.head?_dropWhile_not (· != '\n') t
    cases hrest : t.dropWhile (· != '\n') with
    | nil => exact .inl rfl
    | cons c more =>
      rw [hrest] at hhead
      exact .inr ⟨more, by rw [show c = '\n' by simpa using hhead]⟩
  · rw [hparts] at hmore
    exact Nat.add_lt_add_left (hinside c more hmore) _

/-- A byte of the next character lies in the line that has been read so far. -/
theorem LineParts.here {before t : Text} {offset : Nat} (hbefore : '\n' ∉ before)
    (hinside : ∀ c more, t = c :: more → offset < c.utf8Size) :
    LineParts (before.reverse ++ t) (byteLength before + offset) [] before.reverse
      (t.takeWhile (· != '\n')) (t.dropWhile (· != '\n')) := by
  rw [← byteLength_reverse before]
  exact .of_parts (.inl rfl) (mt List.mem_reverse.mp hbefore) hinside

/-- The line that is read around a byte is the one in which the byte lies. -/
theorem exists_lineAround (before : Text) (hbefore : '\n' ∉ before) (offset : Nat) (t : Text) :
    ∃ lead left right rest,
      LineParts (before.reverse ++ t) (byteLength before + offset) lead left right rest ∧
      lineAround before offset t = left ++ right := by
  induction t generalizing before offset with
  | nil =>
    exact ⟨_, _, _, _, .here hbefore fun _ _ h => absurd h.symm (List.cons_ne_nil _ _),
      (List.append_nil _).symm⟩
  | cons c t ih =>
    unfold lineAround
    split
    · next hinside =>
      exact ⟨_, _, _, _, .here hbefore fun _ _ h => (List.cons.inj h).1 ▸ hinside, rfl⟩
    · next hbehind =>
      split
      · next hc =>
        subst hc
        have hsize : Char.utf8Size '\n' = 1 := rfl
        rw [hsize] at hbehind ⊢
        obtain ⟨lead, left, right, rest, hparts, hline⟩ := ih [] List.not_mem_nil (offset - 1)
        refine ⟨before.reverse ++ '\n' :: lead, left, right, rest, ?_, hline⟩
        have hoffset : byteLength before.reverse + (1 + (byteLength [] + (offset - 1))) =
            byteLength before + offset := by
          rw [byteLength_reverse, byteLength_nil]
          omega
        exact hoffset ▸ hparts.behind
      · next hc =>
        obtain ⟨lead, left, right, rest, hparts, hline⟩ :=
          ih (c :: before) (by simp [hbefore, Ne.symm hc]) (offset - c.utf8Size)
        refine ⟨lead, left, right, rest, ?_, hline⟩
        have hoffset : byteLength (c :: before) + (offset - c.utf8Size) =
            byteLength before + offset := by
          rw [byteLength_cons]
          omega
        rwa [hoffset, List.reverse_cons, List.append_assoc] at hparts

/-- Every byte lies in a line, which is the one that an excerpt shows. -/
theorem exists_lineParts (t : Text) (offset : Nat) : ∃ lead left right rest,
    LineParts t offset lead left right rest ∧
    t.lineAt offset = dropEndWhile (· == '\r') (left ++ right) := by
  obtain ⟨lead, left, right, rest, hparts, hline⟩ :=
    exists_lineAround [] List.not_mem_nil offset t
  rw [byteLength_nil, Nat.zero_add] at hparts
  exact ⟨lead, left, right, rest, hparts, congrArg _ hline⟩

/-- A text is its lines up to the last newline, and what follows them. -/
theorem exists_lead (t : Text) : ∃ lead left, t = lead ++ left ∧ '\n' ∉ left ∧
    (lead = [] ∨ ∃ lines, lead = lines ++ ['\n']) := by
  obtain ⟨lead, left, right, rest, h, _⟩ := exists_lineParts t (byteLength t)
  have heq := h.eq
  -- the byte behind the last character has no character
  cases hmore : right ++ rest with
  | nil =>
    rw [hmore, List.append_nil] at heq
    exact ⟨lead, left, heq, h.newline_left, h.ended⟩
  | cons c more =>
    have hinside := h.inside c more hmore
    rw [heq, hmore, byteLength_append (lead ++ left), byteLength_cons] at hinside
    omega

section
variable {t lead left right rest : Text} {offset : Nat}
  (h : LineParts t offset lead left right rest)
include h

/-- The line in which a byte lies is the piece between newlines whose number is that of the newlines
before it. -/
theorem LineParts.splitOn_eq : (splitOn '\n' t)[lead.count '\n']? = some (left ++ right) := by
  have hline : '\n' ∉ left ++ right := fun hmem =>
    (List.mem_append.mp hmem).elim h.newline_left h.newline_right
  have hfirst : (splitOn '\n' (left ++ right ++ rest))[0]? = some (left ++ right) := by
    rcases h.next with rfl | ⟨more, rfl⟩
    · rw [List.append_nil, splitOn_of_not_mem hline]
      rfl
    · rw [splitOn_append, splitOn_of_not_mem hline]
      rfl
  have heq : t = lead ++ (left ++ right ++ rest) := by
    rw [h.eq]
    simp only [List.append_assoc]
  rcases h.ended with hlead | ⟨lines, hlead⟩
  · rw [heq, hlead]
    exact hfirst
  · have hcount : lead.count '\n' = (splitOn '\n' lines).length := by
      rw [length_splitOn, hlead, List.count_append, List.count_singleton_self]
    rw [hcount, heq, hlead, List.append_assoc, List.singleton_append, splitOn_append,
      List.getElem?_append_right (Nat.le_refl _), Nat.sub_self]
    exact hfirst

end

end Text

/-! ## The line table -/

theorem lineStartsFrom_append (offset : Nat) (t u : Text) : lineStartsFrom offset (t ++ u) =
    lineStartsFrom offset t ++ lineStartsFrom (offset + Text.byteLength t) u := by
  induction t generalizing offset with
  | nil => rfl
  | cons c t ih =>
    rw [List.cons_append, lineStartsFrom, lineStartsFrom, ih, Text.byteLength_cons, Nat.add_assoc]
    split <;> rfl

theorem length_lineStartsFrom (offset : Nat) (t : Text) :
    (lineStartsFrom offset t).length = t.count '\n' := by
  induction t generalizing offset with
  | nil => rfl
  | cons c t ih =>
    rw [lineStartsFrom, List.count_cons]
    by_cases hc : c = '\n' <;> simp [hc, ih]

theorem lineStartsFrom_eq_nil {offset : Nat} {t : Text} (h : '\n' ∉ t) :
    lineStartsFrom offset t = [] :=
  List.eq_nil_of_length_eq_zero ((length_lineStartsFrom _ _).trans (List.count_eq_zero.mpr h))

theorem lineStartsFrom_bounds {offset n : Nat} {t : Text} (h : n ∈ lineStartsFrom offset t) :
    (∀ c more, t = c :: more → offset + c.utf8Size ≤ n) ∧ n ≤ offset + Text.byteLength t := by
  induction t generalizing offset with
  | nil => cases h
  | cons c t ih =>
    have hrest : n = offset + c.utf8Size ∨ n ∈ lineStartsFrom (offset + c.utf8Size) t := by
      rw [lineStartsFrom] at h
      split at h
      · exact List.mem_cons.mp h
      · exact .inr h
    rw [Text.byteLength_cons]
    refine ⟨fun d more heq => ?_, ?_⟩
    · obtain ⟨rfl, rfl⟩ := List.cons.inj heq
      rcases hrest with rfl | hrest
      · exact Nat.le_refl _
      · cases t with
        | nil => cases hrest
        | cons e t =>
          have hmore := (ih hrest).1 e t rfl
          omega
    · rcases hrest with rfl | hrest
      · omega
      · have hmore := (ih hrest).2
        omega

theorem lineOffsets_append (t u : Text) :
    lineOffsets (t ++ u) = lineOffsets t ++ lineStartsFrom (Text.byteLength t) u := by
  rw [lineOffsets, lineStartsFrom_append, Nat.zero_add]
  rfl

/-- The last line of a text that ends with a newline starts behind it. -/
theorem getLastD_lineOffsets {t : Text} (h : t = [] ∨ ∃ lines, t = lines ++ ['\n']) :
    (lineOffsets t).getLastD 0 = Text.byteLength t := by
  rcases h with rfl | ⟨lines, rfl⟩
  · rfl
  · rw [lineOffsets_append, Text.byteLength_append]
    exact List.getLastD_concat

/-- The lines that start up to a byte are its own and those before it. -/
theorem Text.LineParts.takeWhile_lineOffsets {t lead left right rest : Text} {offset : Nat}
    (h : LineParts t offset lead left right rest) :
    (lineOffsets t).takeWhile (· ≤ offset) = lineOffsets lead := by
  have hleft : lineStartsFrom (byteLength lead) left = [] := lineStartsFrom_eq_nil h.newline_left
  have hbefore : ∀ n ∈ lineOffsets lead, decide (n ≤ offset) = true := by
    intro n hn
    have hstart := h.start
    rw [byteLength_append] at hstart
    rcases List.mem_cons.mp hn with rfl | hn
    · exact decide_eq_true (Nat.zero_le _)
    · have hbound := (lineStartsFrom_bounds hn).2
      exact decide_eq_true (by omega)
  have hbehind : ∀ n ∈ lineStartsFrom (byteLength (lead ++ left)) (right ++ rest), offset < n := by
    intro n hn
    cases hparts : right ++ rest with
    | nil =>
      rw [hparts] at hn
      cases hn
    | cons c more =>
      exact (h.inside c more hparts).trans_le ((lineStartsFrom_bounds hn).1 c more hparts)
  rw [h.eq, lineOffsets_append, lineOffsets_append, hleft, List.append_nil,
    List.takeWhile_append_of_pos hbefore]
  cases hnext : lineStartsFrom (byteLength (lead ++ left)) (right ++ rest) with
  | nil => exact List.append_nil _
  | cons n more =>
    have hn := hbehind n (hnext ▸ List.mem_cons_self)
    rw [List.takeWhile_cons_of_neg (by simpa using hn), List.append_nil]

namespace SourceFile

section
variable {f : SourceFile} (hf : f.Made) (hsize : Text.byteLength f.content < UInt32.size)
include hf hsize

theorem Made.lineTable_eq : f.lineTable = lineOffsets f.content :=
  hf.lines.trans (lineStarts_eq hsize)

section
variable {lead left right rest : Text} {offset : Nat}
  (h : Text.LineParts f.content offset lead left right rest)
include h

theorem Made.position_line : (f.position offset).line = lead.count '\n' + 1 := by
  rw [position, hf.lineTable_eq hsize, h.takeWhile_lineOffsets, ← length_lineStartsFrom 0]
  rfl

/-- The column of a byte is counted by the bytes of its line before it. -/
theorem Made.position_column :
    (f.position offset).column = offset - Text.byteLength lead + 1 := by
  rw [position, hf.lineTable_eq hsize, h.takeWhile_lineOffsets, getLastD_lineOffsets h.ended]

end

/-- What is read around a byte is the piece of the content between newlines whose number the line
table gives, without the carriage returns at its end. -/
theorem Made.lineAt_eq (offset : Nat) :
    ((Text.splitOn '\n' f.content)[(f.position offset).line - 1]?).map
      (Text.dropEndWhile (· == '\r')) = some (f.content.lineAt offset) := by
  obtain ⟨lead, left, right, rest, hparts, hline⟩ := Text.exists_lineParts f.content offset
  rw [hf.position_line hsize hparts, Nat.add_sub_cancel, hparts.splitOn_eq, hline]
  rfl

end

end SourceFile

end IncrementalBuild
