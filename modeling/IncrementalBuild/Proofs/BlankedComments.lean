import IncrementalBuild.Config.Comments
import IncrementalBuild.Proofs.JsonTexts
import IncrementalBuild.Proofs.TextParts
/-!
# Blanked comments

A text of JSON with comments is divided from its start into code, strings, line comments and
block comments. What is stated here: blanking shows every character at its place and changes
those of comments only, no line break among them; what is left has no comment, so a second
blanking changes nothing; and a text of JSON stays as it is.
-/
namespace IncrementalBuild.Config

open Text

/-! ## Parts -/

/-- What a part of a text is. -/
inductive Kind where
  | code
  | string
  | line
  | block

/-- A part of a text: a character of code, a string with its quotes, or a comment. -/
structure Part where
  kind : Kind
  text : Text

def Part.IsComment (p : Part) : Prop := p.kind = .line ∨ p.kind = .block

/-- How a text is divided into parts. A comment or a string that is not closed goes up to the
end, a string perhaps up to a backslash that stands alone. -/
inductive Divided : Text → List Part → Prop
  | nil : Divided [] []
  | code {c : Char} {t : Text} {parts : List Part} : c ≠ '"' → ¬ "//".toList <+: c :: t →
      ¬ "/*".toList <+: c :: t → Divided t parts → Divided (c :: t) (⟨.code, [c]⟩ :: parts)
  | string {body t : Text} {parts : List Part} : StringBody body → Divided t parts →
      Divided ('"' :: (body ++ '"' :: t)) (⟨.string, '"' :: (body ++ ['"'])⟩ :: parts)
  | openString {body t : Text} : StringBody body → t ∈ [[], ['\\']] →
      Divided ('"' :: (body ++ t)) [⟨.string, '"' :: (body ++ t)⟩]
  | line {body t : Text} {parts : List Part} : '\n' ∉ body → (∀ c ∈ t.head?, c = '\n') →
      Divided t parts →
      Divided ('/' :: '/' :: (body ++ t)) (⟨.line, '/' :: '/' :: body⟩ :: parts)
  | block {body t : Text} {parts : List Part} : ¬ "*/".toList <:+: body → Divided t parts →
      Divided ('/' :: '*' :: (body ++ '*' :: '/' :: t))
        (⟨.block, '/' :: '*' :: (body ++ ['*', '/'])⟩ :: parts)
  | openBlock {body : Text} : ¬ "*/".toList <:+: body →
      Divided ('/' :: '*' :: body) [⟨.block, '/' :: '*' :: body⟩]

/-- The characters of parts, each with what it is part of. -/
def marks (parts : List Part) : List (Kind × Char) :=
  parts.flatMap fun p => p.text.map (p.kind, ·)

/-- What stands for a character of a part once comments are blanked. -/
def Kind.shown : Kind → Char → Char
  | .code, c => c
  | .string, c => c
  | .line, _ => ' '
  | .block, c => if c = '\n' ∨ c = '\r' then c else ' '

/-- The characters of parts once comments are blanked. -/
def shown (parts : List Part) : Text := (marks parts).map fun m => m.1.shown m.2

section
variable {c d : Char} {body t : Text} {k : Kind} {p : Part} {parts : List Part}

theorem marks_cons : marks (p :: parts) = p.text.map (p.kind, ·) ++ marks parts := rfl

@[simp] theorem map_snd_marks (parts : List Part) :
    (marks parts).map Prod.snd = parts.flatMap Part.text := by
  simp [marks, List.map_flatMap, Function.comp_def]

@[simp] theorem shown_nil : shown [] = [] := rfl

@[simp] theorem shown_cons : shown (p :: parts) = p.text.map p.kind.shown ++ shown parts := by
  simp [shown, marks_cons]

theorem map_shown_string (t : Text) : t.map Kind.string.shown = t := List.map_id' t

theorem Kind.shown_block (c : Char) :
    Kind.block.shown c = if c = '\n' ∨ c = '\r' then c else ' ' := rfl

theorem Kind.shown_eq_or (k : Kind) (c : Char) : k.shown c = c ∨ k.shown c = ' ' := by
  cases k with
  | code => exact .inl rfl
  | string => exact .inl rfl
  | line => exact .inr rfl
  | block => exact ite_eq_or_eq (c = '\n' ∨ c = '\r') c ' '

/-! ## What blanking does with a part -/

theorem blankComments_code (hquote : c ≠ '"') (hline : ¬ "//".toList <+: c :: t)
    (hblock : ¬ "/*".toList <+: c :: t) :
    blankComments .code (c :: t) = c :: blankComments .code t := by
  rw [blankComments.eq_def]
  split <;> simp_all

theorem blankComments_string (hbody : StringBody body) (t : Text) :
    blankComments .string (body ++ t) = body ++ blankComments .string t := by
  induction hbody with
  | nil => rfl
  | char hquote hslash _ ih => simp [blankComments, ih]
  | escape c _ ih => simp [blankComments, ih]

theorem blankComments_line (hbody : '\n' ∉ body) (t : Text) :
    blankComments .line (body ++ t) = body.map Kind.line.shown ++ blankComments .line t := by
  induction body with
  | nil => rfl
  | cons c body ih =>
    rw [List.mem_cons, not_or] at hbody
    simp [blankComments, Kind.shown, Ne.symm hbody.1, ih hbody.2]

theorem blankComments_ended (hends : ∀ c ∈ t.head?, c = '\n') :
    blankComments .line t = blankComments .code t := by
  cases t with
  | nil => rfl
  | cons c t =>
    obtain rfl : c = '\n' := hends c rfl
    simp [blankComments]

theorem blankComments_inBlock (hend : ¬ "*/".toList <+: c :: t) :
    blankComments .block (c :: t) = Kind.block.shown c :: blankComments .block t := by
  rw [blankComments.eq_def]
  split <;> simp_all [Kind.shown]

theorem blankComments_block (hbody : ¬ "*/".toList <:+: body) (hends : t.head? ≠ some '/') :
    blankComments .block (body ++ t) = body.map Kind.block.shown ++ blankComments .block t := by
  induction body with
  | nil => rfl
  | cons c body ih =>
    rw [List.infix_cons_iff, not_or] at hbody
    -- a star at the end of the body does not close the comment with what follows the body
    have hend : ¬ "*/".toList <+: c :: (body ++ t) := by
      cases body with
      | nil =>
        rintro ⟨u, hu⟩
        apply hends
        rw [← List.nil_append t, ← (List.cons.inj hu).2]
        rfl
      | cons d body => simpa using hbody.1
    rw [List.cons_append, blankComments_inBlock hend, ih hbody.2]
    rfl

theorem Divided.stripComments_eq (h : Divided t parts) : stripComments t = shown parts := by
  unfold stripComments
  induction h with
  | nil => rfl
  | code hquote hline hblock _ ih => simp [blankComments_code hquote hline hblock, ih, Kind.shown]
  | string hbody _ ih =>
    simp [blankComments, blankComments_string hbody, ih, map_shown_string, Kind.shown]
  | @openString body t hbody hends =>
    have hrest : blankComments .string t = t := by
      simp only [List.mem_cons, List.not_mem_nil, or_false] at hends
      rcases hends with rfl | rfl <;> rfl
    simp [blankComments, blankComments_string hbody, hrest, map_shown_string, Kind.shown]
  | line hbody hends _ ih =>
    simp [blankComments, blankComments_line hbody, blankComments_ended hends, ih, Kind.shown]
  | @block body t _ hbody _ ih =>
    have hblanked := blankComments_block hbody (t := '*' :: '/' :: t) (by simp)
    simp [blankComments, hblanked, ih, Kind.shown]
  | @openBlock body hbody =>
    have hblanked := blankComments_block hbody (t := []) (by simp)
    rw [List.append_nil] at hblanked
    simp [blankComments, hblanked, Kind.shown]

theorem Divided.flatMap_text (h : Divided t parts) : parts.flatMap Part.text = t := by
  induction h <;> simp_all

/-- A text that starts inside a string goes up to a quote, or to where the text ends. -/
theorem exists_stringBody (t : Text) : ∃ body rest, t = body ++ rest ∧ StringBody body ∧
    (rest ∈ [[], ['\\']] ∨ ∃ after, rest = '"' :: after) := by
  match t with
  | [] => exact ⟨[], [], rfl, .nil, .inl (by simp)⟩
  | c :: t =>
    by_cases hquote : c = '"'
    · exact ⟨[], c :: t, rfl, .nil, .inr ⟨t, by rw [hquote]⟩⟩
    · by_cases hslash : c = '\\'
      · cases t with
        | nil => exact ⟨[], [c], rfl, .nil, .inl (by simp [hslash])⟩
        | cons d t =>
          obtain ⟨body, rest, rfl, hbody, hrest⟩ := exists_stringBody t
          exact ⟨'\\' :: d :: body, rest, by rw [hslash]; rfl, .escape d hbody, hrest⟩
      · obtain ⟨body, rest, rfl, hbody, hrest⟩ := exists_stringBody t
        exact ⟨c :: body, rest, rfl, .char hquote hslash hbody, hrest⟩
termination_by t.length

theorem exists_line (t : Text) :
    ∃ body rest, t = body ++ rest ∧ '\n' ∉ body ∧ ∀ c ∈ rest.head?, c = '\n' := by
  induction t with
  | nil => exact ⟨[], [], rfl, List.not_mem_nil, by simp⟩
  | cons c t ih =>
    by_cases hc : c = '\n'
    · exact ⟨[], c :: t, rfl, List.not_mem_nil, by simp [hc]⟩
    · obtain ⟨body, rest, rfl, hbody, hends⟩ := ih
      exact ⟨c :: body, rest, rfl, by simp [hbody, Ne.symm hc], hends⟩

/-- What starts as a string or a comment does is one, and anything else is a character of code. -/
theorem exists_divided (t : Text) : ∃ parts, Divided t parts := by
  match t with
  | [] => exact ⟨_, .nil⟩
  | c :: t =>
    by_cases hquote : c = '"'
    · subst hquote
      obtain ⟨body, rest, rfl, hbody, hrest | ⟨after, rfl⟩⟩ := exists_stringBody t
      · exact ⟨_, .openString hbody hrest⟩
      · obtain ⟨parts, hparts⟩ := exists_divided after
        exact ⟨_, .string hbody hparts⟩
    · by_cases hline : "//".toList <+: c :: t
      · obtain ⟨u, hu⟩ := hline
        obtain ⟨rfl, rfl⟩ : '/' = c ∧ '/' :: u = t := List.cons.inj hu
        obtain ⟨body, rest, rfl, hbody, hends⟩ := exists_line u
        obtain ⟨parts, hparts⟩ := exists_divided rest
        exact ⟨_, .line hbody hends hparts⟩
      · by_cases hblock : "/*".toList <+: c :: t
        · obtain ⟨u, hu⟩ := hblock
          obtain ⟨rfl, rfl⟩ : '/' = c ∧ '*' :: u = t := List.cons.inj hu
          by_cases hclosed : "*/".toList <:+: u
          · obtain ⟨body, rest, rfl, hbody⟩ := exists_close hclosed
            obtain ⟨parts, hparts⟩ := exists_divided rest
            exact ⟨_, .block hbody hparts⟩
          · exact ⟨_, .openBlock hclosed⟩
        · obtain ⟨parts, hparts⟩ := exists_divided t
          exact ⟨_, .code hquote hline hblock hparts⟩
termination_by t.length

/-! ## What changes -/

theorem Divided.of_mem (h : Divided t parts) (hp : p ∈ parts) :
    (p.kind = .line → '\n' ∉ p.text) ∧ (p.IsComment → p.text.head? = some '/') := by
  induction h with
  | nil => cases hp
  | code _ _ _ _ ih =>
    rcases List.mem_cons.mp hp with rfl | hp
    · simp [Part.IsComment]
    · exact ih hp
  | string _ _ ih =>
    rcases List.mem_cons.mp hp with rfl | hp
    · simp [Part.IsComment]
    · exact ih hp
  | openString =>
    obtain rfl := List.mem_singleton.mp hp
    simp [Part.IsComment]
  | line hbody _ _ ih =>
    rcases List.mem_cons.mp hp with rfl | hp
    · simp [hbody]
    · exact ih hp
  | block _ _ ih =>
    rcases List.mem_cons.mp hp with rfl | hp
    · simp
    · exact ih hp
  | openBlock =>
    obtain rfl := List.mem_singleton.mp hp
    simp

theorem mem_marks {m : Kind × Char} :
    m ∈ marks parts ↔ ∃ p ∈ parts, m.1 = p.kind ∧ m.2 ∈ p.text := by
  simp [marks, Prod.ext_iff, eq_comm, and_comm]

/-- A text is as it was only if none of its parts is a comment: a comment starts with a slash. -/
theorem Divided.shown_eq_iff (h : Divided t parts) :
    shown parts = t ↔ ∀ p ∈ parts, ¬ p.IsComment := by
  nth_rewrite 1 [← h.flatMap_text]
  rw [← map_snd_marks, shown, List.map_inj_left]
  constructor
  · intro hsame p hp hcomment
    have hslash : '/' ∈ p.text := List.mem_of_head? ((h.of_mem hp).2 hcomment)
    have hshown : p.kind.shown '/' = '/' :=
      hsame (p.kind, '/') (mem_marks.mpr ⟨p, hp, rfl, hslash⟩)
    rcases hcomment with hkind | hkind <;> simp [hkind, Kind.shown] at hshown
  · intro hnone m hm
    obtain ⟨p, hp, hkind, _⟩ := mem_marks.mp hm
    have hcomment := hnone p hp
    rw [hkind]
    cases hk : p.kind with
    | code => rfl
    | string => rfl
    | line => exact absurd (.inl hk) hcomment
    | block => exact absurd (.inr hk) hcomment

theorem Divided.shown_newline_iff (h : Divided t parts) {m : Kind × Char} (hm : m ∈ marks parts) :
    m.1.shown m.2 = '\n' ↔ m.2 = '\n' := by
  obtain ⟨p, hp, hkind, hchar⟩ := mem_marks.mp hm
  cases hk : m.1 with
  | code => rfl
  | string => rfl
  | line =>
    have hne : m.2 ≠ '\n' := fun heq => (h.of_mem hp).1 (hkind ▸ hk) (heq ▸ hchar)
    simp [Kind.shown, hne]
  | block =>
    rw [Kind.shown_block]
    split
    · rfl
    · next hbreak => simp [(not_or.mp hbreak).1]

theorem Divided.count_newline (h : Divided t parts) (i : Nat) :
    ((shown parts).take i).count '\n' = (t.take i).count '\n' := by
  rw [← h.flatMap_text, ← map_snd_marks, shown, ← List.map_take, ← List.map_take,
    List.count_eq_countP, List.count_eq_countP, List.countP_map, List.countP_map]
  apply List.countP_congr
  intro m hm
  simpa using h.shown_newline_iff (List.mem_of_mem_take hm)

/-! ## Texts without comments -/

/-- Nothing in a text is a comment. -/
def Uncommented (t : Text) : Prop := ∃ parts, Divided t parts ∧ ∀ p ∈ parts, ¬ p.IsComment

theorem Uncommented.stripComments_eq (h : Uncommented t) : stripComments t = t := by
  obtain ⟨parts, hparts, hnone⟩ := h
  rw [hparts.stripComments_eq, hparts.shown_eq_iff.mpr hnone]

theorem Uncommented.nil : Uncommented [] := ⟨[], .nil, by simp⟩

theorem Uncommented.code (hquote : c ≠ '"') (hline : ¬ "//".toList <+: c :: t)
    (hblock : ¬ "/*".toList <+: c :: t) (h : Uncommented t) : Uncommented (c :: t) := by
  obtain ⟨parts, hparts, hnone⟩ := h
  exact ⟨_, .code hquote hline hblock hparts, by simpa [Part.IsComment] using hnone⟩

theorem Uncommented.string (hbody : StringBody body) (h : Uncommented t) :
    Uncommented ('"' :: (body ++ '"' :: t)) := by
  obtain ⟨parts, hparts, hnone⟩ := h
  exact ⟨_, .string hbody hparts, by simpa [Part.IsComment] using hnone⟩

theorem Uncommented.openString (hbody : StringBody body) (ht : t ∈ [[], ['\\']]) :
    Uncommented ('"' :: (body ++ t)) :=
  ⟨_, .openString hbody ht, by simp [Part.IsComment]⟩

theorem Uncommented.char (hquote : c ≠ '"') (hslash : c ≠ '/') (h : Uncommented t) :
    Uncommented (c :: t) :=
  h.code hquote (by simp [Ne.symm hslash]) (by simp [Ne.symm hslash])

theorem Uncommented.blanked (hk : k = .line ∨ k = .block) (h : Uncommented t) (u : Text) :
    Uncommented (u.map k.shown ++ t) := by
  induction u with
  | nil => exact h
  | cons c u ih =>
    have hblank : k.shown c ∈ [' ', '\n', '\r'] := by
      rcases hk with rfl | rfl
      · simp [Kind.shown]
      · rw [Kind.shown_block]
        split <;> simp_all
    refine ih.char ?_ ?_ <;> intro heq <;> simp [heq] at hblank

/-- What starts behind a character of code is not made a comment by what is blanked there. -/
theorem Divided.not_starts {a : Char} (h : Divided t parts) (hd : d ≠ ' ')
    (hstarts : ¬ [a, d] <+: c :: t) : ¬ [a, d] <+: c :: shown parts := by
  rw [← h.flatMap_text, ← map_snd_marks] at hstarts
  rw [shown]
  cases hmarks : marks parts with
  | nil => simp
  | cons m rest =>
    rw [hmarks] at hstarts
    rcases m.1.shown_eq_or m.2 with heq | heq
    · simpa [heq] using hstarts
    · simp [heq, hd]

theorem Divided.uncommented (h : Divided t parts) : Uncommented (shown parts) := by
  induction h with
  | nil => exact .nil
  | code hquote hline hblock h ih =>
    exact ih.code hquote (h.not_starts (by decide) hline) (h.not_starts (by decide) hblock)
  | string hbody _ ih =>
    simpa [map_shown_string, Kind.shown] using ih.string hbody
  | openString hbody ht =>
    simpa [map_shown_string, Kind.shown] using Uncommented.openString hbody ht
  | line _ _ _ ih => exact shown_cons ▸ ih.blanked (.inl rfl) _
  | block _ _ ih => exact shown_cons ▸ ih.blanked (.inr rfl) _
  | openBlock _ => exact shown_cons ▸ Uncommented.nil.blanked (.inr rfl) _

theorem uncommented_of_slashless (h : Slashless t) : Uncommented t := by
  induction h with
  | nil => exact .nil
  | char hquote hslash _ ih => exact ih.char hquote hslash
  | string hbody _ ih => exact ih.string hbody

end

/-- Blanking takes the comments, and nothing else. -/
theorem stripComments_blanks (t : Text) :
    (∃ parts, Divided t parts) ∧
    (∀ parts, Divided t parts →
      (marks parts).map Prod.snd = t ∧ stripComments t = shown parts ∧
      (stripComments t = t ↔ ∀ p ∈ parts, ¬ p.IsComment)) ∧
    (stripComments t).length = t.length ∧
    (∀ i, ((stripComments t).take i).count '\n' = (t.take i).count '\n') ∧
    stripComments (stripComments t) = stripComments t ∧
    (∀ parts, Divided (stripComments t) parts → ∀ p ∈ parts, ¬ p.IsComment) ∧
    (Json.Document t → stripComments t = t) ∧
    (∀ v, Json.ofText? t = some v → stripComments t = t) := by
  obtain ⟨parts, hparts⟩ := exists_divided t
  have hstrip := hparts.stripComments_eq
  have hlength : (stripComments t).length = t.length := by
    nth_rewrite 2 [← hparts.flatMap_text]
    rw [hstrip, ← map_snd_marks, shown, List.length_map, List.length_map]
  have hidempotent : stripComments (stripComments t) = stripComments t := by
    rw [hstrip]
    exact hparts.uncommented.stripComments_eq
  refine ⟨⟨parts, hparts⟩, ?_, hlength, ?_, hidempotent, ?_, ?_, ?_⟩
  · intro parts hparts
    rw [hparts.stripComments_eq]
    exact ⟨by rw [map_snd_marks, hparts.flatMap_text], rfl, hparts.shown_eq_iff⟩
  · intro i
    rw [hstrip, hparts.count_newline]
  · intro left hleft
    rw [← hleft.shown_eq_iff, ← hleft.stripComments_eq, hidempotent]
  · intro h
    exact (uncommented_of_slashless (Json.Derives.slashless h)).stripComments_eq
  · intro v h
    exact (uncommented_of_slashless (Json.slashless_of_ofText? h)).stripComments_eq

/-- A comment is not closed by the star that opens it, and a string has none. -/
example : stripComments "[/*/ 1 */ \"//\"] // 2".toList =
    "[         \"//\"]     ".toList := by decide

end IncrementalBuild.Config
