import IncrementalBuild.Proofs.HeaderLines
/-!
# Comments of a header

A header is blanks and comments, up to the first line with something else on it. Behind a block
comment its line has to be blank: anything else there, a second comment too, ends the header. What
is stated here: the references of a file are exactly the markers up to which there is such a
header, and an example where it ends before the first line of code.
-/
namespace IncrementalBuild.Header

open Text

/-! ## Blanks and comments -/

/-- A text of blanks and whole comments. What follows a block comment has to be as `Follows`
says. -/
inductive Trivia (Follows : Text → Prop) : Text → Prop
  | nil : Trivia Follows []
  | blank {c : Char} {t : Text} : isBlank c = true → Trivia Follows t → Trivia Follows (c :: t)
  | line {body t : Text} : '\n' ∉ body → (∀ c ∈ t.head?, c = '\n') → Trivia Follows t →
      Trivia Follows ('/' :: '/' :: (body ++ t))
  | block {body t : Text} : ¬ "*/".toList <:+: body → Follows t → Trivia Follows t →
      Trivia Follows ('/' :: '*' :: (body ++ '*' :: '/' :: t))

/-- A text that starts inside a block comment and goes on with blanks and comments. -/
def Inside (Follows : Text → Prop) (t : Text) : Prop :=
  ∃ body rest, t = body ++ '*' :: '/' :: rest ∧ ¬ "*/".toList <:+: body ∧ Follows rest ∧
    Trivia Follows rest

/-- What is left of the line is blank. -/
def EndsLine (t : Text) : Prop := allBlank (t.takeWhile (· != '\n')) = true

section
variable {Follows : Text → Prop} {b t body rest : Text} {c : Char}

theorem trivia_blank_iff (hc : isBlank c = true) :
    Trivia Follows (c :: t) ↔ Trivia Follows t := by
  constructor
  · intro h
    cases h with
    | blank _ h => exact h
    | line => exact absurd hc (by decide)
    | block => exact absurd hc (by decide)
  · exact Trivia.blank hc

theorem trivia_blanks_iff (hb : allBlank b = true) :
    Trivia Follows (b ++ t) ↔ Trivia Follows t := by
  induction b with
  | nil => rfl
  | cons c b ih =>
    rw [allBlank_cons, Bool.and_eq_true] at hb
    rw [List.cons_append, trivia_blank_iff hb.1, ih hb.2]

theorem trivia_line_iff (hbody : '\n' ∉ body) :
    Trivia Follows ('/' :: '/' :: (body ++ '\n' :: t)) ↔ Trivia Follows t := by
  rw [← trivia_blank_iff (t := t) (show isBlank '\n' = true by decide)]
  constructor
  · intro h
    generalize hwhole : body ++ '\n' :: t = whole at h
    cases h with
    | blank hc _ => exact absurd hc (by decide)
    | @line body' t' hbody' hends' h =>
      rwa [← dropWhile_line hbody (head?_newline t), hwhole, dropWhile_line hbody' hends']
  · exact Trivia.line hbody (head?_newline t)

theorem trivia_block_iff : Trivia Follows ('/' :: '*' :: t) ↔ Inside Follows t := by
  constructor
  · intro h
    generalize hwhole : t = whole at h
    cases h with
    | blank hc _ => exact absurd hc (by decide)
    | block hbody hfollows h => exact ⟨_, _, rfl, hbody, hfollows, h⟩
  · rintro ⟨body, rest, rfl, hbody, hfollows, h⟩
    exact Trivia.block hbody hfollows h

theorem not_trivia (hc : isBlank c = false)
    (hcomment : ∀ d rest, c :: t = '/' :: d :: rest → d ≠ '/' ∧ d ≠ '*') :
    ¬ Trivia Follows (c :: t) := by
  intro h
  cases h with
  | blank hc' _ => exact absurd hc (by simp [hc'])
  | line => exact (hcomment _ _ rfl).1 rfl
  | block => exact (hcomment _ _ rfl).2 rfl

theorem inside_close_iff (hbody : ¬ "*/".toList <:+: body) :
    Inside Follows (body ++ '*' :: '/' :: rest) ↔ Follows rest ∧ Trivia Follows rest := by
  constructor
  · rintro ⟨body', rest', heq, hbody', h⟩
    have hsplit := splitAt?_close hbody rest
    rw [heq, splitAt?_close hbody' rest'] at hsplit
    cases hsplit
    exact h
  · exact fun h => ⟨body, rest, rfl, hbody, h⟩

theorem Inside.closed (h : Inside Follows t) : "*/".toList <:+: t := by
  obtain ⟨body, rest, rfl, _⟩ := h
  exact ⟨body, rest, by rw [List.append_assoc]; rfl⟩

end

/-! ## Lines of comments -/

section
variable {b b' t body rest line : Text} {c : Char}

theorem not_mem_close (hc : isBlank c = true) : c ∉ "*/".toList := by
  intro hmem
  have hall : "*/".toList.all (!isBlank ·) = true := by decide
  simpa [hc] using List.all_eq_true.mp hall c hmem

theorem close_infix_blanks_iff (hb : allBlank b = true) (hb' : allBlank b' = true) :
    "*/".toList <:+: b ++ (t ++ b') ↔ "*/".toList <:+: t := by
  induction b with
  | nil =>
    cases b' with
    | nil => rw [List.nil_append, List.append_nil]
    | cons c b' =>
      rw [allBlank_cons, Bool.and_eq_true] at hb'
      rw [List.nil_append, infix_append_cons_iff (not_mem_close hb'.1), or_iff_left]
      intro hstands
      exact not_mem_close (allBlank_iff.mp hb'.2 '*' (hstands.subset (by decide))) (by decide)
  | cons c b ih =>
    rw [allBlank_cons, Bool.and_eq_true] at hb
    have hnil : ¬ "*/".toList <:+: ([] : Text) := by decide
    rw [← ih hb.2, List.cons_append, ← List.nil_append (c :: (b ++ (t ++ b'))),
      infix_append_cons_iff (not_mem_close hb.1), or_iff_right hnil]

theorem afterBlock_open (h : ¬ "*/".toList <:+: t) : afterBlock t = .inside := by
  rw [afterBlock, splitAt?_eq_none_iff.mpr h]

theorem afterBlock_close (h : ¬ "*/".toList <:+: body) (rest : Text) :
    afterBlock (body ++ '*' :: '/' :: rest) = if allBlank rest then .outside else .over := by
  rw [afterBlock, splitAt?_close h]

theorem afterBlock_blanks (hb : allBlank b = true) (hb' : allBlank b' = true) :
    afterBlock (b ++ (t ++ b')) = afterBlock t := by
  by_cases h : "*/".toList <:+: t
  · obtain ⟨body, rest, rfl, hbody⟩ := exists_close h
    have hparts : b ++ (body ++ '*' :: '/' :: rest ++ b') =
        (b ++ body) ++ '*' :: '/' :: (rest ++ b') := by
      simp only [List.append_assoc, List.cons_append]
    have hbefore : ¬ "*/".toList <:+: b ++ body := by
      rwa [← List.append_nil body, close_infix_blanks_iff hb allBlank_nil]
    rw [hparts, afterBlock_close hbefore, afterBlock_close hbody, allBlank_append, hb',
      Bool.and_true]
  · rw [afterBlock_open h, afterBlock_open (mt (close_infix_blanks_iff hb hb').mp h)]

theorem afterBlock_trim (t : Text) : afterBlock (trim t) = afterBlock t := by
  obtain ⟨last, hlast, ht⟩ := exists_eq_trim t
  nth_rewrite 2 [ht]
  exact (afterBlock_blanks (indent_allBlank t) hlast).symm

theorem endsLine_iff (hline : '\n' ∉ line) : EndsLine (line ++ '\n' :: rest) ↔ allBlank line := by
  rw [EndsLine, takeWhile_line hline (head?_newline rest)]

/-- Where the header stands behind a line of a kind. -/
def LineKind.progress : LineKind → Progress
  | .blockOpen rest => afterBlock rest
  | .code => .over
  | _ => .outside

theorem progress_outside (line : Text) :
    Header.progress false line = (lineKind (trim line)).progress := by
  rw [Header.progress, if_neg Bool.false_ne_true]
  cases lineKind (trim line) <;> rfl

theorem Progress.next_newline (p : Progress) (line : Text) :
    p.next (line ++ ['\n']) = p.next line := by
  have htrim : trim (line ++ ['\n']) = trim line := trim_append_blank line (by decide)
  cases p <;> simp only [Progress.next, progress, htrim]

end

/-! ## Headers up to a line -/

/-- From where the header stands, a text leads to a place outside its comments. -/
def Reaches : Progress → Text → Prop
  | .outside, t => Trivia EndsLine t
  | .inside, t => Inside EndsLine t
  | .over, _ => False

section
variable {line rest : Text} (hline : '\n' ∉ line)
include hline

theorem inside_line_iff :
    Inside EndsLine (line ++ '\n' :: rest) ↔ Reaches (afterBlock line) rest := by
  by_cases hclosed : "*/".toList <:+: line
  · obtain ⟨body, after, rfl, hbody⟩ := exists_close hclosed
    have hafter : '\n' ∉ after := fun hmem => hline (by simp [hmem])
    rw [afterBlock_close hbody, List.append_assoc, List.cons_append, List.cons_append,
      inside_close_iff hbody, endsLine_iff hafter]
    cases hblank : allBlank after with
    | false => simp [Reaches]
    | true =>
      rw [trivia_blanks_iff hblank, trivia_blank_iff (by decide)]
      simp [Reaches]
  · -- the comment ends on a later line, at the same place as without this line
    rw [afterBlock_open hclosed]
    have hstands : "*/".toList <:+: line ++ '\n' :: rest ↔ "*/".toList <:+: rest := by
      rw [infix_append_cons_iff (by decide), or_iff_right hclosed]
    by_cases hrest : "*/".toList <:+: rest
    · obtain ⟨body, after, rfl, hbody⟩ := exists_close hrest
      have hbefore : ¬ "*/".toList <:+: line ++ '\n' :: body := by
        rw [infix_append_cons_iff (by decide), or_iff_right hclosed]
        exact hbody
      rw [← List.cons_append, ← List.append_assoc, inside_close_iff hbefore, Reaches,
        inside_close_iff hbody]
    · exact iff_of_false (fun h => hrest (hstands.mp h.closed)) fun h => hrest (Inside.closed h)

/-- A line that is read outside comments, by what it is without the blanks around it. -/
theorem trivia_line_kind_iff :
    Trivia EndsLine (line ++ '\n' :: rest) ↔ Reaches (lineKind (trim line)).progress rest := by
  obtain ⟨last, hlast, hparts⟩ := exists_eq_trim line
  have hfirst : ∀ c u, trim line = c :: u → isBlank c = false := fun _ _ => not_isBlank_of_trim
  generalize trim line = u at hparts hfirst
  have hmem : ∀ d ∈ u ++ last, d ≠ '\n' := fun d hd heq => hline <| by
    rw [hparts, ← heq]
    exact List.mem_append_right _ hd
  rw [hparts, List.append_assoc, trivia_blanks_iff (indent_allBlank line), List.append_assoc]
  have hnewline : isBlank '\n' = true := by decide
  fun_cases lineKind u with
  | case1 =>
    rw [List.nil_append, trivia_blanks_iff hlast, trivia_blank_iff hnewline]
    rfl
  | case2 v =>
    show Trivia EndsLine ('/' :: '/' :: ('/' :: v ++ (last ++ '\n' :: rest))) ↔ _
    rw [← List.append_assoc]
    exact trivia_line_iff fun h => hmem '\n' (List.mem_cons_of_mem _ (List.mem_cons_of_mem _ h)) rfl
  | case3 v =>
    show Trivia EndsLine ('/' :: '/' :: (v ++ (last ++ '\n' :: rest))) ↔ _
    rw [← List.append_assoc]
    exact trivia_line_iff fun h => hmem '\n' (List.mem_cons_of_mem _ (List.mem_cons_of_mem _ h)) rfl
  | case4 v =>
    show Trivia EndsLine ('/' :: '*' :: (v ++ (last ++ '\n' :: rest))) ↔ Reaches (afterBlock v) rest
    have hbody : '\n' ∉ v ++ last := fun h =>
      hmem '\n' (List.mem_cons_of_mem _ (List.mem_cons_of_mem _ h)) rfl
    have hafter : afterBlock ([] ++ (v ++ last)) = afterBlock v :=
      afterBlock_blanks allBlank_nil hlast
    rw [trivia_block_iff, ← List.append_assoc, inside_line_iff hbody, ← hafter]
    rfl
  | case5 _ hne _ hslashes hblock =>
    obtain ⟨c, v, rfl⟩ := List.exists_cons_of_ne_nil hne
    refine iff_of_false (not_trivia (hfirst c v rfl) fun d after hwhole => ?_) id
    obtain ⟨rfl, hnext⟩ := List.cons.inj hwhole
    cases v with
    | cons e v =>
      obtain ⟨rfl, _⟩ := List.cons.inj hnext
      exact ⟨fun h => hslashes v (by rw [h]), fun h => hblock v (by rw [h])⟩
    | nil =>
      -- a slash alone is followed by the blanks of its line
      have hblank : isBlank d = true := by
        cases last with
        | nil => exact (List.cons.inj hnext).1 ▸ hnewline
        | cons e last => exact (List.cons.inj hnext).1 ▸ allBlank_iff.mp hlast e List.mem_cons_self
      constructor <;> rintro rfl <;> exact absurd hblank (by decide)

/-- A line takes the header from where it stands to where it stands next. -/
theorem reaches_line_iff (p : Progress) :
    Reaches p (line ++ '\n' :: rest) ↔ Reaches (p.next line) rest := by
  cases p with
  | outside =>
    show Trivia EndsLine _ ↔ Reaches (progress false line) rest
    rw [progress_outside, trivia_line_kind_iff hline]
  | inside =>
    show Inside EndsLine _ ↔ Reaches (afterBlock (trim line)) rest
    rw [afterBlock_trim, inside_line_iff hline]
  | _ => rfl

end

theorem foldl_next_iff {t : Text} (ht : t.Ended) (p : Progress) :
    (linesInclusive t).foldl Progress.next p = .outside ↔ Reaches p t := by
  induction t using lineInduction generalizing p with
  | last line hline =>
    obtain rfl := ht.eq_nil hline
    cases p with
    | outside => exact iff_of_true rfl Trivia.nil
    | inside => exact iff_of_false (by decide) fun h => absurd (Inside.closed h) (by decide)
    | _ => exact iff_of_false (by decide) id
  | ended line rest hline ih =>
    rw [linesInclusive_ended hline, List.foldl_cons, p.next_newline, ih (ended_append_iff.mp ht),
      reaches_line_iff hline]

/-- A header goes on behind whole lines if these are blanks and comments. -/
theorem standing_eq_outside_iff {t : Text} (ht : t.Ended) :
    standing t = .outside ↔ Trivia EndsLine t :=
  foldl_next_iff ht .outside

/-- The references of a file are the markers on the lines up to which there are only blanks and
comments, with blanks alone behind the block comments on their lines. In a content of less than
4 GiB they are in the order of the lines. -/
theorem references_behind_trivia (file : FileId) (p : Path) (content : Text) :
    (∀ r, r ∈ references file p content ↔ ∃ before m after, Marker.WellFormed m ∧
      content.IsLine before m.text after ∧ Trivia EndsLine before ∧
      r = m.reference file (p.parent?.getD ⟨[]⟩) (byteLength before)) ∧
    (byteLength content < UInt32.size →
      (references file p content).Pairwise fun a b => a.span.start < b.span.start) := by
  refine ⟨fun r => ?_, fun hsize => references_sorted file p hsize⟩
  rw [mem_references_iff]
  constructor
  · rintro ⟨before, m, after, hm, hline, hstanding, hr⟩
    exact ⟨before, m, after, hm, hline, (standing_eq_outside_iff hline.starts).mp hstanding, hr⟩
  · rintro ⟨before, m, after, hm, hline, htrivia, hr⟩
    exact ⟨before, m, after, hm, hline, (standing_eq_outside_iff hline.starts).mpr htrivia, hr⟩

theorem references_behind_trivia_of_two :
    let content : Text :=
      "// a\n/// <reference path='b.ts' />\n/* c\n */\n///\t<reference path='d.ts'/>"
    byteLength content < UInt32.size ∧ (references 0 "/p/a.ts" content).length = 2 ∧
    (references 0 "/p/a.ts" content).Pairwise fun a b => a.span.start < b.span.start := by
  intro content
  have hsize : byteLength content < UInt32.size := by decide
  exact ⟨hsize, by decide, (references_behind_trivia 0 "/p/a.ts" content).2 hsize⟩

/-- A comment behind a block comment ends the header as code does, so the marker below it is not
read although nothing but comments is before it. -/
theorem comment_behind_block_ends_header :
    let content : Text := "/* a */ // b\n/// <reference path=\"x.ts\" />\n"
    references 0 ⟨"/p/a.ts"⟩ content = [] ∧ ∃ before m after, Marker.WellFormed m ∧
      content.IsLine before m.text after ∧ Trivia (fun _ => True) before := by
  have hcomments : Trivia (fun _ => True)
      ('/' :: '*' :: (" a ".toList ++
        '*' :: '/' :: ' ' :: '/' :: '/' :: (" b".toList ++ ['\n']))) :=
    .block (by decide) trivial <| .blank (by decide) <|
      .line (by decide) (head?_newline []) <| .blank (by decide) .nil
  let m : Marker := ⟨"", " ", " ", "", "", '"', "x.ts", " />"⟩
  have hm : m.WellFormed := by constructor <;> decide
  have hended : Ended ("/* a */ // b".toList ++ '\n' :: []) := ended_append_iff.mpr ended_nil
  exact ⟨by decide, _, m, ['\n'], hm, ⟨by decide, hended, by decide, head?_newline []⟩, hcomments⟩

end IncrementalBuild.Header
