import IncrementalBuild.Text.Blank
import Mathlib.Data.List.Infix
import Mathlib.Data.List.TakeWhile
/-!
# The parts of a text

A search finds the first place of a piece, a separator divides a text into pieces, and trimming
takes blanks off an end. What is stated here: each of these operations by the parts that a text is
made of, and at which byte of a text a part starts.
-/
namespace IncrementalBuild.Text

/-! ## Starts -/

theorem after?_eq_some_iff {start t rest : Text} : after? start t = some rest ↔ start ++ rest = t :=
  List.isPrefixOf?_eq_some_iff_append_eq

theorem after?_eq {start t rest : Text} (h : after? start t = some rest) : start ++ rest = t :=
  after?_eq_some_iff.mp h

theorem after?_append (start rest : Text) : after? start (start ++ rest) = some rest :=
  after?_eq_some_iff.mpr rfl

theorem after?_eq_none_iff {start t : Text} : after? start t = none ↔ ¬ start <+: t := by
  rw [← Option.not_isSome_iff_eq_none, Option.isSome_iff_exists]
  exact not_congr (exists_congr fun _ => after?_eq_some_iff)

/-! ## First places -/

theorem splitAt?_eq {piece t before after : Text} (h : splitAt? piece t = some (before, after)) :
    before ++ (piece ++ after) = t := by
  induction t generalizing before with
  | nil =>
    unfold splitAt? at h
    split at h
    · next hpiece =>
      cases h
      rw [hpiece]
      rfl
    · cases h
  | cons c rest ih =>
    unfold splitAt? at h
    split at h
    · next hafter =>
      cases h
      exact (List.nil_append _).trans (after?_eq hafter)
    · obtain ⟨⟨before', after'⟩, hsplit, heq⟩ := Option.map_eq_some_iff.mp h
      cases heq
      exact congrArg (c :: ·) (ih hsplit)

theorem splitAt?_first {piece t before after : Text} (hpiece : piece ≠ [])
    (h : splitAt? piece t = some (before, after)) : ¬ piece <:+: before := by
  induction t generalizing before with
  | nil =>
    rw [splitAt?, if_neg hpiece] at h
    cases h
  | cons c rest ih =>
    unfold splitAt? at h
    split at h
    · cases h
      simpa using hpiece
    · next hnone =>
      obtain ⟨⟨before', after'⟩, hsplit, heq⟩ := Option.map_eq_some_iff.mp h
      cases heq
      rw [List.infix_cons_iff, not_or]
      refine ⟨fun hstarts => ?_, ih hsplit⟩
      refine after?_eq_none_iff.mp hnone (hstarts.trans ?_)
      rw [← splitAt?_eq hsplit]
      exact List.prefix_append (c :: before') (piece ++ after)

theorem splitAt?_append {piece before after : Text}
    (h : ∀ s, s ≠ [] → s <:+ before → ¬ piece <+: s ++ (piece ++ after)) :
    splitAt? piece (before ++ (piece ++ after)) = some (before, after) := by
  induction before with
  | nil =>
    cases piece with
    | nil =>
      cases after with
      | nil => rfl
      | cons c after => rfl
    | cons c piece =>
      show splitAt? (c :: piece) (c :: (piece ++ after)) = _
      rw [splitAt?, ← List.cons_append, after?_append]
  | cons c before ih =>
    have hnone : after? piece (c :: (before ++ (piece ++ after))) = none :=
      after?_eq_none_iff.mpr (h (c :: before) (List.cons_ne_nil c before) List.suffix_rfl)
    rw [List.cons_append, splitAt?, hnone,
      ih fun s hs hsuffix => h s hs (hsuffix.trans (List.suffix_cons c before))]
    rfl

theorem splitAt?_singleton {q : Char} {before : Text} (h : q ∉ before) (after : Text) :
    splitAt? [q] (before ++ q :: after) = some (before, after) := by
  refine splitAt?_append fun s hs hsuffix hstarts => h ?_
  cases s with
  | nil => exact absurd rfl hs
  | cons c s =>
    obtain rfl : q = c := (List.cons_prefix_cons.mp hstarts).1
    exact hsuffix.subset List.mem_cons_self

theorem splitAt?_close {before : Text} (h : ¬ "*/".toList <:+: before) (after : Text) :
    splitAt? "*/" (before ++ '*' :: '/' :: after) = some (before, after) := by
  refine splitAt?_append fun s hs hsuffix hstarts => h ?_
  obtain ⟨rest, hrest⟩ := hstarts
  match s with
  | [] => exact absurd rfl hs
  | [c] => simp at hrest
  | c :: d :: s =>
    obtain ⟨rfl, rfl, _⟩ : '*' = c ∧ '/' = d ∧ rest = s ++ ("*/".toList ++ after) := by
      simpa using hrest
    exact (List.prefix_append ['*', '/'] s).isInfix.trans hsuffix.isInfix

theorem splitAt?_eq_none_iff {piece t : Text} : splitAt? piece t = none ↔ ¬ piece <:+: t := by
  induction t with
  | nil =>
    unfold splitAt?
    split <;> simp_all
  | cons c rest ih =>
    unfold splitAt?
    rw [List.infix_cons_iff, not_or, ← ih, ← after?_eq_none_iff]
    split <;> simp_all

theorem exists_close {t : Text} (h : "*/".toList <:+: t) :
    ∃ body rest, t = body ++ '*' :: '/' :: rest ∧ ¬ "*/".toList <:+: body := by
  cases hsplit : splitAt? "*/" t with
  | none => exact absurd h (splitAt?_eq_none_iff.mp hsplit)
  | some parts =>
    exact ⟨parts.1, parts.2, (splitAt?_eq hsplit).symm, splitAt?_first (by decide) hsplit⟩

theorem contains_iff {t piece : Text} : contains t piece = true ↔ piece <:+: t := by
  rw [contains, ← not_iff_not, Bool.not_eq_true, Option.isSome_eq_false_iff,
    Option.isNone_iff_eq_none, splitAt?_eq_none_iff]

/-- A piece does not stand across a character that it does not have. -/
theorem infix_append_cons_iff {piece t u : Text} {c : Char} (hc : c ∉ piece) :
    piece <:+: t ++ c :: u ↔ piece <:+: t ∨ piece <:+: u := by
  have hnil : ∀ {end' : Text}, end' ⊆ piece → end' <+: c :: u → end' = [] := by
    intro end' hsubset hstarts
    cases end' with
    | nil => rfl
    | cons d end' =>
      obtain rfl : d = c := (List.cons_prefix_cons.mp hstarts).1
      exact absurd (hsubset List.mem_cons_self) hc
  rw [List.infix_append_iff, List.infix_cons_iff]
  constructor
  · rintro (h | (h | h) | ⟨start, end', rfl, hstart, hend⟩)
    · exact .inl h
    · exact .inl (hnil (List.Subset.refl _) h ▸ List.nil_infix)
    · exact .inr h
    · obtain rfl := hnil (List.subset_append_right start end') hend
      rw [List.append_nil]
      exact .inl hstart.isInfix
  · rintro (h | h)
    · exact .inl h
    · exact .inr (.inl (.inr h))

/-! ## Pieces between separators -/

theorem splitOn_of_not_mem {sep : Char} {t : Text} (h : sep ∉ t) : splitOn sep t = [t] := by
  induction t with
  | nil => rfl
  | cons c t ih =>
    rw [List.mem_cons, not_or] at h
    rw [splitOn, if_neg (Ne.symm h.1), ih h.2]

theorem exists_splitOn (sep : Char) (t : Text) : ∃ first more, splitOn sep t = first :: more := by
  cases t with
  | nil => exact ⟨_, _, rfl⟩
  | cons c t =>
    rw [splitOn]
    split
    · exact ⟨_, _, rfl⟩
    · split <;> exact ⟨_, _, rfl⟩

theorem splitOn_append (sep : Char) (t u : Text) :
    splitOn sep (t ++ sep :: u) = splitOn sep t ++ splitOn sep u := by
  induction t with
  | nil => exact if_pos rfl
  | cons c t ih =>
    obtain ⟨first, more, hfirst⟩ := exists_splitOn sep t
    rw [List.cons_append, splitOn, splitOn, ih, hfirst]
    split <;> rfl

theorem not_mem_of_mem_splitOn {sep : Char} {t piece : Text} (h : piece ∈ splitOn sep t) :
    sep ∉ piece := by
  induction t generalizing piece with
  | nil =>
    rw [List.mem_singleton.mp h]
    exact List.not_mem_nil
  | cons c t ih =>
    unfold splitOn at h
    split at h
    · rcases List.mem_cons.mp h with rfl | h
      · exact List.not_mem_nil
      · exact ih h
    · next hc =>
      cases hs : splitOn sep t with
      | nil =>
        rw [hs, List.mem_singleton] at h
        rw [h, List.mem_singleton]
        exact Ne.symm hc
      | cons first more =>
        rw [hs] at h ih
        rcases List.mem_cons.mp h with rfl | h
        · rw [List.mem_cons, not_or]
          exact ⟨Ne.symm hc, ih List.mem_cons_self⟩
        · exact ih (List.mem_cons_of_mem first h)

theorem splitOn_join {sep : Char} {pieces : List Text} (hne : pieces ≠ [])
    (h : ∀ piece ∈ pieces, sep ∉ piece) : splitOn sep (join [sep] pieces) = pieces := by
  induction pieces with
  | nil => exact absurd rfl hne
  | cons piece more ih =>
    have hpiece := h piece List.mem_cons_self
    cases more with
    | nil => exact splitOn_of_not_mem hpiece
    | cons next more =>
      have hmore := ih (List.cons_ne_nil _ _) fun x hx => h x (List.mem_cons_of_mem piece hx)
      show splitOn sep (piece ++ [sep] ++ join [sep] (next :: more)) = _
      rw [List.append_assoc, List.singleton_append, splitOn_append, splitOn_of_not_mem hpiece,
        hmore]
      rfl

theorem length_splitOn (sep : Char) (t : Text) : (splitOn sep t).length = t.count sep + 1 := by
  induction t with
  | nil => rfl
  | cons c t ih =>
    obtain ⟨first, more, hfirst⟩ := exists_splitOn sep t
    rw [hfirst] at ih
    rw [splitOn, hfirst, List.count_cons, ← Nat.succ.inj ih]
    by_cases hc : c = sep <;> simp [hc]

theorem join_append (sep : Text) {xs ys : List Text} (hxs : xs ≠ []) (hys : ys ≠ []) :
    join sep (xs ++ ys) = join sep xs ++ (sep ++ join sep ys) := by
  induction xs with
  | nil => exact absurd rfl hxs
  | cons x xs ih =>
    cases xs with
    | nil =>
      obtain ⟨y, ys, rfl⟩ := List.exists_cons_of_ne_nil hys
      exact List.append_assoc ..
    | cons x' xs =>
      show x ++ sep ++ join sep (x' :: xs ++ ys) = x ++ sep ++ join sep (x' :: xs) ++ _
      rw [ih (List.cons_ne_nil _ _), List.append_assoc (x ++ sep)]

/-! ## Bytes of parts of a text -/

theorem byteLength_reverse (t : Text) : byteLength t.reverse = byteLength t := by
  induction t with
  | nil => rfl
  | cons c t ih =>
    rw [List.reverse_cons, byteLength_append, ih, byteLength_cons, byteLength_cons, byteLength_nil]
    omega

theorem byteLength_eq_length {t : Text} (h : ∀ c ∈ t, c.utf8Size = 1) :
    byteLength t = t.length := by
  induction t with
  | nil => rfl
  | cons c t ih =>
    rw [byteLength_cons, h c List.mem_cons_self, ih fun x hx => h x (List.mem_cons_of_mem c hx),
      List.length_cons, Nat.add_comm]

theorem length_le_byteLength (t : Text) : t.length ≤ byteLength t := by
  induction t with
  | nil => exact Nat.le_refl 0
  | cons c t ih =>
    have hsize := Char.utf8Size_pos c
    rw [List.length_cons, byteLength_cons]
    omega

theorem byteLength_pos {t : Text} (h : t ≠ []) : 0 < byteLength t := by
  cases t with
  | nil => exact absurd rfl h
  | cons c t => exact Nat.add_pos_left (Char.utf8Size_pos c) _

/-- A text is in two parts in one way for each number of bytes of the first part. -/
theorem append_inj_of_byteLength {a b c d : Text} (h : a ++ b = c ++ d)
    (hlength : byteLength a = byteLength c) : a = c ∧ b = d := by
  have hnil : ∀ {u : Text}, byteLength u = 0 → u = [] := fun hzero =>
    Decidable.byContradiction fun hne => Nat.ne_of_gt (byteLength_pos hne) hzero
  rcases List.append_eq_append_iff.mp h with ⟨u, rfl, rfl⟩ | ⟨u, rfl, rfl⟩
  · rw [byteLength_append] at hlength
    obtain rfl := hnil (by omega : byteLength u = 0)
    exact ⟨(List.append_nil a).symm, rfl⟩
  · rw [byteLength_append] at hlength
    obtain rfl := hnil (by omega : byteLength u = 0)
    exact ⟨List.append_nil c, rfl⟩

/-- A piece stands in a text from byte `offset` on, between characters. -/
def At (piece : Text) (offset : Nat) (t : Text) : Prop :=
  ∃ before after, t = before ++ (piece ++ after) ∧ byteLength before = offset

section
variable {piece t : Text} {offset : Nat} (h : At piece offset t)
include h

theorem At.stop_le : offset + byteLength piece ≤ byteLength t := by
  obtain ⟨before, after, rfl, rfl⟩ := h
  rw [byteLength_append, byteLength_append]
  omega

/-- What stands in a part of a text stands in the text, behind what comes before the part. -/
theorem At.append (before after : Text) :
    At piece (byteLength before + offset) (before ++ (t ++ after)) := by
  obtain ⟨b, a, rfl, rfl⟩ := h
  exact ⟨before ++ b, a ++ after, by simp only [List.append_assoc], byteLength_append before b⟩

end

/-! ## Blanks at the start -/

section
variable {b t : Text} {c : Char}

theorem allBlank_iff : allBlank t = true ↔ ∀ c ∈ t, isBlank c = true := List.all_eq_true

@[simp] theorem allBlank_nil : allBlank [] = true := rfl

@[simp] theorem allBlank_cons : allBlank (c :: t) = (isBlank c && allBlank t) := List.all_cons

@[simp] theorem allBlank_append : allBlank (b ++ t) = (allBlank b && allBlank t) :=
  List.all_append

theorem indent_allBlank (t : Text) : allBlank (indent t) = true := List.all_takeWhile

theorem trimStart_append (hb : allBlank b = true) (t : Text) : trimStart (b ++ t) = trimStart t :=
  List.dropWhile_append_of_pos (allBlank_iff.mp hb)

theorem trimStart_cons (hc : isBlank c = false) (t : Text) : trimStart (c :: t) = c :: t :=
  List.dropWhile_cons_of_neg (Bool.not_eq_true _ ▸ hc)

theorem trimStart_eq_nil_iff : trimStart t = [] ↔ allBlank t = true := by
  rw [allBlank_iff]
  exact List.dropWhile_eq_nil_iff

/-- What is left of a text starts with a character that is not blank. -/
theorem not_isBlank_of_trimStart (h : trimStart t = c :: b) : isBlank c = false := by
  have hhead := List.head?_dropWhile_not isBlank t
  rwa [show t.dropWhile isBlank = c :: b from h] at hhead

theorem indent_append_cons (hb : allBlank b = true) (hc : isBlank c = false) (t : Text) :
    indent (b ++ c :: t) = b := by
  rw [indent, List.takeWhile_append_of_pos (allBlank_iff.mp hb), List.takeWhile_cons_of_neg,
    List.append_nil]
  rw [hc]
  exact Bool.false_ne_true

/-! ## Blanks at the end -/

theorem dropEndWhile_starts (drop : Char → Bool) (t : Text) : dropEndWhile drop t <+: t := by
  induction t with
  | nil => exact List.prefix_rfl
  | cons c t ih =>
    show (if (dropEndWhile drop t).isEmpty && drop c then [] else c :: dropEndWhile drop t) <+: _
    split
    · exact List.nil_prefix
    · exact (List.prefix_cons_inj c).mpr ih

theorem dropEndWhile_cons (drop : Char → Bool) (c : Char) (t : Text) : dropEndWhile drop (c :: t) =
    if (dropEndWhile drop t).isEmpty && drop c then [] else c :: dropEndWhile drop t := rfl

/-- Up to a character that is not dropped, a text stays as it is. -/
theorem dropEndWhile_append_cons {drop : Char → Bool} (s : Text) (hc : drop c = false) (t : Text) :
    dropEndWhile drop (s ++ c :: t) = s ++ c :: dropEndWhile drop t := by
  induction s with
  | nil => simp [dropEndWhile_cons, hc]
  | cons d s ih => simp [dropEndWhile_cons, ih]

theorem trimEnd_cons (c : Char) (t : Text) :
    trimEnd (c :: t) = if (trimEnd t).isEmpty && isBlank c then [] else c :: trimEnd t := rfl

theorem trimEnd_eq_nil_iff : trimEnd t = [] ↔ allBlank t = true := by
  induction t with
  | nil => simp [trimEnd, dropEndWhile]
  | cons c t ih =>
    rw [trimEnd_cons, allBlank_cons]
    cases hc : isBlank c <;> simp [← ih]

/-- Up to a character that is not blank, a text stays as it is. -/
theorem trimEnd_append_cons (s : Text) (hc : isBlank c = false) (t : Text) :
    trimEnd (s ++ c :: t) = s ++ c :: trimEnd t :=
  dropEndWhile_append_cons s hc t

theorem trimEnd_append_blank (t : Text) (hb : allBlank b = true) :
    trimEnd (t ++ b) = trimEnd t := by
  induction t with
  | nil => exact trimEnd_eq_nil_iff.mpr hb
  | cons c t ih => rw [List.cons_append, trimEnd_cons, trimEnd_cons, ih]

theorem exists_eq_trimEnd (t : Text) : ∃ last, allBlank last = true ∧ t = trimEnd t ++ last := by
  induction t with
  | nil => exact ⟨[], rfl, rfl⟩
  | cons c t ih =>
    obtain ⟨last, hlast, ht⟩ := ih
    rw [trimEnd_cons]
    split
    · next hdrop =>
      rw [Bool.and_eq_true, List.isEmpty_iff] at hdrop
      refine ⟨c :: t, ?_, rfl⟩
      rw [allBlank_cons, hdrop.2, trimEnd_eq_nil_iff.mp hdrop.1, Bool.and_self]
    · exact ⟨last, hlast, congrArg (c :: ·) ht⟩

theorem trim_append_blank (t : Text) (hb : allBlank b = true) : trim (t ++ b) = trim t := by
  unfold trim trimStart
  rw [List.dropWhile_append]
  split
  · next hnil =>
    have hb' : List.dropWhile isBlank b = [] := trimStart_eq_nil_iff.mpr hb
    rw [List.isEmpty_iff.mp hnil, hb']
  · exact trimEnd_append_blank _ hb

/-- What is left of a text without the blanks around it starts with none. -/
theorem not_isBlank_of_trim (h : trim t = c :: b) : isBlank c = false := by
  obtain ⟨rest, hrest⟩ := dropEndWhile_starts isBlank (trimStart t)
  rw [show dropEndWhile isBlank (trimStart t) = c :: b from h] at hrest
  exact not_isBlank_of_trimStart hrest.symm

/-- A text is its first blanks, what is left without the blanks around it, and its last blanks. -/
theorem exists_eq_trim (t : Text) :
    ∃ last, allBlank last = true ∧ t = indent t ++ (trim t ++ last) := by
  obtain ⟨last, hlast, ht⟩ := exists_eq_trimEnd (trimStart t)
  refine ⟨last, hlast, ?_⟩
  show t = indent t ++ (trimEnd (trimStart t) ++ last)
  rw [← ht, indent_append_trimStart]

end

end IncrementalBuild.Text
