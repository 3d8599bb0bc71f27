import IncrementalBuild.Diagnostic.Report
import IncrementalBuild.Proofs.LineSearch
import IncrementalBuild.Proofs.ReachableCaches
/-!
# Excerpts with every step checked

An excerpt is found by byte offsets: a text is cut at an offset, which fails inside a character and
past the end, offsets go down to the start of a character and back to a newline, and lines are
looked up in the line table. Here each step that can fail is written as one that fails. None does,
wherever a span starts, and the result is the excerpt that is shown.
-/
namespace IncrementalBuild

namespace Text

/-! ## Cutting at bytes -/

/-- The texts before and after byte `offset`, unless that is inside a character or past the end. -/
def cutAt? (offset : Nat) : Text → Option (Text × Text)
  | [] => if offset = 0 then some ([], []) else none
  | c :: rest =>
    if offset = 0 then some ([], c :: rest)
    else (minus? offset c.utf8Size).bind fun offset =>
      (cutAt? offset rest).map fun (before, after) => (c :: before, after)

def slice? (start stop : Nat) (t : Text) : Option Text := do
  let (before, _) ← cutAt? stop t
  let (_, piece) ← cutAt? start before
  return piece

/-- The last offset up to `offset` at which the text can be cut, found by going down byte by
byte. -/
def floorCut? (t : Text) : Nat → Option Nat
  | 0 => if (cutAt? 0 t).isSome then some 0 else none
  | offset + 1 => if (cutAt? (offset + 1) t).isSome then some (offset + 1) else floorCut? t offset

def firstNewline? (t : Text) : Option Nat :=
  if '\n' ∈ t then some (byteLength (t.takeWhile (· != '\n'))) else none

def lastNewline? (t : Text) : Option Nat :=
  if '\n' ∈ t then some (byteLength (t.reverse.dropWhile (· != '\n')).tail) else none

/-- The line of a text in which byte `offset` lies, cut out between the newlines around it. -/
def cutLine? (t : Text) (offset : Nat) : Option Text := do
  let offset ← floorCut? t (min offset (byteLength t))
  let (before, after) ← cutAt? offset t
  let start := ((lastNewline? before).map (· + 1)).getD 0
  let stop := ((firstNewline? after).map (offset + ·)).getD (byteLength t)
  let line ← slice? start stop t
  return dropEndWhile (· == '\r') line

theorem cutAt?_eq_some_iff {offset : Nat} {t before after : Text} :
    cutAt? offset t = some (before, after) ↔
      t = before ++ after ∧ byteLength before = offset := by
  constructor
  · intro h
    induction t generalizing offset before with
    | nil =>
      unfold cutAt? at h
      split at h
      · next hzero =>
        cases h
        exact ⟨rfl, hzero.symm⟩
      · cases h
    | cons c t ih =>
      unfold cutAt? at h
      split at h
      · next hzero =>
        cases h
        exact ⟨rfl, hzero.symm⟩
      · obtain ⟨left, hleft, hcut⟩ := Option.bind_eq_some_iff.mp h
        obtain ⟨⟨start, _⟩, hcut, heq⟩ := Option.map_eq_some_iff.mp hcut
        cases heq
        obtain ⟨rfl, rfl⟩ := ih hcut
        exact ⟨rfl, (minus?_eq_some_iff.mp hleft).symm⟩
  · rintro ⟨rfl, rfl⟩
    induction before with
    | nil => cases after <;> rfl
    | cons c t ih =>
      have hsize := Char.utf8Size_pos c
      have hne : byteLength (c :: t) ≠ 0 := by
        rw [byteLength_cons]
        omega
      rw [List.cons_append, cutAt?, if_neg hne, minus?_eq_some_iff.mpr (byteLength_cons c t),
        Option.bind_some, ih]
      rfl

theorem cutAt?_append (t u : Text) : cutAt? (byteLength t) (t ++ u) = some (t, u) :=
  cutAt?_eq_some_iff.mpr ⟨rfl, rfl⟩

theorem slice?_append (t u v : Text) :
    slice? (byteLength t) (byteLength (t ++ u)) (t ++ u ++ v) = some u := by
  rw [slice?, cutAt?_append]
  simp only [Option.bind_eq_bind, Option.bind_some, cutAt?_append]
  rfl

/-- Going down ends at a place of a cut if there is none on the way. -/
theorem floorCut?_eq {t : Text} {place offset : Nat} (hle : place ≤ offset)
    (hcut : (cutAt? place t).isSome) (hnone : ∀ n, place < n → n ≤ offset → cutAt? n t = none) :
    floorCut? t offset = some place := by
  induction offset with
  | zero =>
    obtain rfl := Nat.le_zero.mp hle
    exact if_pos hcut
  | succ offset ih =>
    rcases Nat.lt_or_eq_of_le hle with hlt | rfl
    · rw [floorCut?, hnone (offset + 1) hlt (Nat.le_refl _)]
      exact ih (Nat.le_of_lt_succ hlt) fun n hn hn' => hnone n hn (Nat.le_succ_of_le hn')
    · exact if_pos hcut

section
variable {t lead left right rest : Text} {offset : Nat}
  (h : LineParts t offset lead left right rest)
include h

/-- The character in which a byte lies starts behind the part of its line before it. -/
theorem LineParts.floorCut?_eq :
    floorCut? t (min offset (byteLength t)) = some (byteLength (lead ++ left)) := by
  have hlength : byteLength t = byteLength (lead ++ left) + byteLength (right ++ rest) := by
    rw [h.eq, byteLength_append]
  refine Text.floorCut?_eq (Nat.le_min.mpr ⟨h.start, by omega⟩) ?_ fun n hbehind hle => ?_
  · rw [h.eq, cutAt?_append]
    rfl
  · rw [Option.eq_none_iff_forall_ne_some]
    rintro ⟨before, after⟩ hcut
    obtain ⟨heq, rfl⟩ := cutAt?_eq_some_iff.mp hcut
    have hn := (Nat.le_min.mp hle).1
    -- a cut behind the start of the character is behind all of it
    rcases List.append_eq_append_iff.mp (h.eq.symm.trans heq) with ⟨u, rfl, hu⟩ | ⟨u, hu, _⟩
    · cases u with
      | nil =>
        rw [List.append_nil] at hbehind
        exact Nat.lt_irrefl _ hbehind
      | cons c u =>
        have hinside := h.inside c _ hu
        rw [byteLength_append, byteLength_cons] at hn
        omega
    · rw [hu, byteLength_append] at hbehind
      omega

theorem LineParts.lastNewline?_eq :
    ((lastNewline? (lead ++ left)).map (· + 1)).getD 0 = byteLength lead := by
  rcases h.ended with rfl | ⟨lines, rfl⟩
  · rw [List.nil_append, lastNewline?, if_neg h.newline_left]
    rfl
  · have hmem : '\n' ∈ lines ++ ['\n'] ++ left := by simp
    have hleft : ∀ c ∈ left.reverse, (c != '\n') = true := fun c hc =>
      bne_iff_ne.mpr fun heq => h.newline_left (heq ▸ List.mem_reverse.mp hc)
    rw [lastNewline?, if_pos hmem, List.reverse_append, List.reverse_concat,
      List.dropWhile_append_of_pos hleft, List.dropWhile_cons_of_neg (by decide), List.tail_cons,
      byteLength_reverse, byteLength_append]
    rfl

theorem LineParts.firstNewline?_eq :
    ((firstNewline? (right ++ rest)).map (byteLength (lead ++ left) + ·)).getD (byteLength t) =
      byteLength (lead ++ left ++ right) := by
  rcases h.next with hrest | ⟨more, hrest⟩
  · rw [h.eq, hrest, List.append_nil, firstNewline?, if_neg h.newline_right]
    rfl
  · have hmem : '\n' ∈ right ++ '\n' :: more := by simp
    have hright : ∀ c ∈ right, (c != '\n') = true := fun c hc =>
      bne_iff_ne.mpr fun heq => h.newline_right (heq ▸ hc)
    rw [hrest, firstNewline?, if_pos hmem, List.takeWhile_append_of_pos hright,
      List.takeWhile_cons_of_neg (by decide), List.append_nil, byteLength_append (lead ++ left)]
    rfl

theorem LineParts.cutLine?_eq :
    cutLine? t offset = some (dropEndWhile (· == '\r') (left ++ right)) := by
  have hcut : cutAt? (byteLength (lead ++ left)) t = some (lead ++ left, right ++ rest) := by
    rw [h.eq, cutAt?_append]
  have hslice : slice? (byteLength lead) (byteLength (lead ++ left ++ right)) t =
      some (left ++ right) := by
    have heq : t = lead ++ (left ++ right) ++ rest := by
      rw [h.eq]
      simp only [List.append_assoc]
    rw [heq, List.append_assoc lead left right]
    exact slice?_append lead (left ++ right) rest
  rw [cutLine?, h.floorCut?_eq]
  simp only [Option.bind_eq_bind, Option.bind_some, hcut, h.lastNewline?_eq, h.firstNewline?_eq,
    hslice]
  rfl

end

theorem cutLine?_eq (t : Text) (offset : Nat) : cutLine? t offset = some (t.lineAt offset) := by
  obtain ⟨lead, left, right, rest, hparts, hline⟩ := exists_lineParts t offset
  rw [hparts.cutLine?_eq, hline]

end Text

/-! ## Showing a diagnostic -/

def Excerpt.ofSpan? (f : SourceFile) (s : Span) : Option Excerpt := do
  let start ← f.position? s.start
  let line ← Text.cutLine? f.content s.start
  let length ← minus? s.stop s.start
  return ⟨start.line, line, start.column - 1, max length 1⟩

namespace Diagnostic

def place? (d : Diagnostic) (sources : Cache) : Option Text :=
  if d.span.isDummy then some []
  else match sources.file? d.span.file with
    | none => some []
    | some f => do
      let location ← f.locate? d.span
      let excerpt ← Excerpt.ofSpan? f d.span
      return "  --> ".toList ++ location.text ++ "\n".toList ++ excerpt.text d.remark

section
variable {sources : Cache} (hmade : ∀ id f, sources.file? id = some f → f.Made)
include hmade

theorem place?_eq {d : Diagnostic} (hspan : d.span.start ≤ d.span.stop)
    (hholds : ∀ f, sources.file? d.span.file = some f → f.Holds d.span) :
    d.place? sources = some (d.place sources) := by
  unfold place? place
  split
  · rfl
  · cases hfile : sources.file? d.span.file with
    | none => rfl
    | some f =>
      have hf := hmade _ f hfile
      have hfits := hholds f hfile
      have hexcerpt : Excerpt.ofSpan? f d.span = some (Excerpt.ofSpan f d.span) := by
        rw [Excerpt.ofSpan?, hf.position?_eq hfits.size, hfits.start.inWords?_eq,
          Text.cutLine?_eq, minus?_eq hspan, Excerpt.ofSpan, hfits.start.inWords_eq]
        rfl
      simp only [hf.locate?_eq hfits, hexcerpt]
      rfl

end

end Diagnostic

namespace Cache

end Cache

end IncrementalBuild
