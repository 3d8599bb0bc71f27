import IncrementalBuild.Proofs.SourceLines
/-!
# The search in a line table

The position of a byte is found by a search in the line table. The search goes by halves and gives
the place of the line that starts at the byte, or else the place where such a line would be put;
the table and the results are numbers of 32 bits. Here each step that can fail is written as one
that fails: reading an entry outside of the table, a difference below zero, and a number that 32
bits cannot hold. In the table of a file of less than 4 GiB only the last of these can happen.
-/
namespace IncrementalBuild

/-! ## Numbers -/

/-- The difference of two numbers, unless it would be below zero. -/
def minus? (m n : Nat) : Option Nat := if n ≤ m then some (m - n) else none

theorem minus?_eq {m n : Nat} (h : n ≤ m) : minus? m n = some (m - n) := if_pos h

theorem minus?_eq_some_iff {m n k : Nat} : minus? m n = some k ↔ m = n + k := by
  unfold minus?
  split
  · rw [Option.some.injEq]
    omega
  · constructor
    · exact fun h => nomatch h
    · omega

/-- A number, unless 32 bits cannot hold it. -/
def word? (n : Nat) : Option Nat := if n < UInt32.size then some n else none

/-! ## A search by halves -/

/-- The place at which a search for `key` ends, among the `size` entries of a table from `base`
on. -/
def halve? (table : List Nat) (key base size : Nat) : Option Nat :=
  if size ≤ 1 then some base
  else do
    let middle := base + size / 2
    let entry ← table[middle]?
    halve? table key (if key < entry then base else middle) (size - size / 2)
termination_by size

/-- The place of a key in a table in order, or the place where it would be put. -/
def bisect? (table : List Nat) (key : Nat) : Option (Except Nat Nat) :=
  if table.isEmpty then some (.error 0)
  else do
    let place ← halve? table key 0 table.length
    let entry ← table[place]?
    return if entry = key then .ok place
      else .error (if entry < key then place + 1 else place)

/-- The last line that starts up to a key, by the answer of a search for the key. -/
def startedLine? : Except Nat Nat → Option Nat
  | .ok place => some place
  | .error place => minus? place 1

namespace Position

/-- A position, unless 32 bits cannot hold one of its numbers. -/
def inWords? (p : Position) : Option Position := do
  return ⟨← word? p.line, ← word? p.column⟩

/-- The position of an offset by a line table, in numbers of 32 bits. -/
def search? (table : List Nat) (offset : Nat) : Option Position := do
  let line ← startedLine? (← bisect? table offset)
  let start ← table[line]?
  let distance ← minus? offset start
  return ⟨← word? (line % UInt32.size + 1), ← word? (distance + 1)⟩

/-- 32 bits hold the numbers of a position. -/
def Fits (p : Position) : Prop := p.line < UInt32.size ∧ p.column < UInt32.size

instance (p : Position) : Decidable p.Fits := inferInstanceAs (Decidable (_ ∧ _))

theorem Fits.inWords?_eq {p : Position} (h : p.Fits) : p.inWords? = some p := by
  rw [inWords?, word?, word?, if_pos h.1, if_pos h.2]
  rfl

theorem Fits.inWords_eq {p : Position} (h : p.Fits) : p.inWords = p := by
  rw [inWords, Nat.mod_eq_of_lt h.1, Nat.mod_eq_of_lt h.2]

end Position

/-! ## Tables in order -/

theorem getLastD_takeWhile_le (table : List Nat) (n : Nat) :
    (table.takeWhile (· ≤ n)).getLastD 0 ≤ n := by
  rcases List.eq_nil_or_concat' (table.takeWhile (· ≤ n)) with hnil | ⟨lines, start, hlines⟩
  · rw [hnil]
    exact Nat.zero_le n
  · have hstart : start ∈ table.takeWhile (· ≤ n) := hlines ▸ by simp
    rw [hlines, List.getLastD_concat]
    simpa using List.mem_takeWhile_imp hstart

/-- The last of the entries up to a number is where the search for it should end. -/
theorem getElem?_takeWhile_le {table : List Nat} {n : Nat}
    (hfirst : 0 < (table.takeWhile (· ≤ n)).length) :
    table[(table.takeWhile (· ≤ n)).length - 1]? =
      some ((table.takeWhile (· ≤ n)).getLastD 0) := by
  have hprefix := List.takeWhile_prefix (l := table) (· ≤ n)
  rcases List.eq_nil_or_concat' (table.takeWhile (· ≤ n)) with hnil | ⟨lines, start, hlines⟩
  · rw [hnil] at hfirst
    exact absurd hfirst (Nat.lt_irrefl 0)
  · obtain ⟨rest, hrest⟩ := hprefix
    rw [hlines] at hrest ⊢
    rw [List.getLastD_concat, List.length_append, List.length_singleton, Nat.add_sub_cancel,
      ← hrest, List.append_assoc, List.getElem?_append_right (Nat.le_refl _), Nat.sub_self]
    rfl

section
variable {table : List Nat} (h : table.Pairwise (· < ·))
include h

/-- In a table in order, the entries up to a number are the first ones. -/
theorem lt_length_takeWhile_le_iff (n : Nat) {place entry : Nat}
    (hentry : table[place]? = some entry) :
    place < (table.takeWhile (· ≤ n)).length ↔ entry ≤ n := by
  induction table generalizing place with
  | nil => cases hentry
  | cons m table ih =>
    obtain ⟨hm, htable⟩ := List.pairwise_cons.mp h
    by_cases hmn : m ≤ n
    · rw [List.takeWhile_cons_of_pos (by simpa using hmn), List.length_cons]
      cases place with
      | zero =>
        cases hentry
        exact iff_of_true (Nat.succ_pos _) hmn
      | succ place =>
        rw [Nat.succ_lt_succ_iff]
        exact ih htable hentry
    · rw [List.takeWhile_cons_of_neg (by simpa using hmn)]
      have hle : m ≤ entry := by
        rcases List.mem_cons.mp (List.mem_of_getElem? hentry) with rfl | hmem
        · exact Nat.le_refl _
        · exact (hm entry hmem).le
      exact iff_of_false (Nat.not_lt_zero _) (by omega)

/-- A search by halves ends at the last entry up to the key, and reads no entry outside of the
table: the place is between the ends of what is left to search at every step. -/
theorem halve?_eq {key base size : Nat} (hsize : 0 < size) (hend : base + size ≤ table.length)
    (hbase : base = 0 ∨ base < (table.takeWhile (· ≤ key)).length)
    (hplace : (table.takeWhile (· ≤ key)).length ≤ base + size) :
    halve? table key base size = some ((table.takeWhile (· ≤ key)).length - 1) := by
  induction size using Nat.strong_induction_on generalizing base with
  | h size ih =>
    rw [halve?]
    split
    · next hone =>
      have hlast : base = (table.takeWhile (· ≤ key)).length - 1 := by omega
      rw [← hlast]
    · next hmore =>
      have hmiddle : base + size / 2 < table.length := by omega
      have hentry : table[base + size / 2]? = some table[base + size / 2] :=
        List.getElem?_eq_getElem hmiddle
      have hiff := lt_length_takeWhile_le_iff h key hentry
      simp only [hentry, Option.bind_eq_bind, Option.bind_some]
      split
      · next hbehind =>
        exact ih _ (by omega) (by omega) (by omega) hbase (by omega)
      · next hbefore =>
        have hstart := hiff.mpr (Nat.le_of_not_lt hbefore)
        exact ih _ (by omega) (by omega) (by omega) (.inr hstart) (by omega)

/-- The line that has started last has the last entry up to the key, whether a line starts at the
key or not. -/
theorem startedLine?_eq {key : Nat} (hfirst : 0 < (table.takeWhile (· ≤ key)).length) :
    (bisect? table key).bind startedLine? = some ((table.takeWhile (· ≤ key)).length - 1) := by
  have hle := (List.takeWhile_sublist (l := table) (· ≤ key)).length_le
  have hfull : table.isEmpty = false := by
    cases table with
    | nil => exact absurd hfirst (Nat.lt_irrefl 0)
    | cons => rfl
  have hentry := getElem?_takeWhile_le hfirst
  have hupTo := getLastD_takeWhile_le table key
  rw [bisect?, hfull, halve?_eq h (by omega) (by omega) (.inl rfl) (by omega)]
  simp only [Bool.false_eq_true, if_false, Option.bind_eq_bind, Option.bind_some, hentry]
  generalize (table.takeWhile (· ≤ key)).getLastD 0 = entry at hupTo
  split
  · rfl
  · next hne =>
    rw [if_pos (Nat.lt_of_le_of_ne hupTo hne)]
    exact minus?_eq (Nat.le_add_left 1 _)

/-- In a table from zero on, a position is found, unless 32 bits cannot hold it. -/
theorem Position.search?_eq (hzero : table[0]? = some 0) (hlength : table.length ≤ UInt32.size)
    (offset : Nat) : search? table offset =
      inWords? ⟨(table.takeWhile (· ≤ offset)).length,
        offset - (table.takeWhile (· ≤ offset)).getLastD 0 + 1⟩ := by
  have hfirst : 0 < (table.takeWhile (· ≤ offset)).length :=
    (lt_length_takeWhile_le_iff h offset hzero).mpr (Nat.zero_le _)
  have hle := (List.takeWhile_sublist (l := table) (· ≤ offset)).length_le
  have hline : (table.takeWhile (· ≤ offset)).length - 1 < UInt32.size := by omega
  obtain ⟨answer, hanswer, hstarted⟩ := Option.bind_eq_some_iff.mp (startedLine?_eq h hfirst)
  rw [search?, inWords?, hanswer]
  simp only [Option.bind_eq_bind, Option.bind_some, hstarted, getElem?_takeWhile_le hfirst,
    minus?_eq (getLastD_takeWhile_le table offset), Nat.mod_eq_of_lt hline,
    Nat.sub_add_cancel hfirst]

end

namespace SourceFile

def position? (f : SourceFile) (offset : Nat) : Option Position :=
  Position.search? f.lineTable offset

def locate? (f : SourceFile) (s : Span) : Option Location := do
  let start ← f.position? s.start
  let last ← f.position? (max (s.stop - 1) s.start)
  return ⟨f.path, start, last⟩

/-- 32 bits hold the offsets of a file, and the positions of the first and the last byte of a
span. -/
structure Holds (f : SourceFile) (s : Span) : Prop where
  size : Text.byteLength f.content < UInt32.size
  start : (f.position s.start).Fits
  last : (f.position (max (s.stop - 1) s.start)).Fits

section
variable {f : SourceFile} (hf : f.Made)
include hf

theorem Made.position?_eq (hsize : Text.byteLength f.content < UInt32.size) (offset : Nat) :
    f.position? offset = (f.position offset).inWords? := by
  have htable := hf.lineTable_eq hsize
  have hlength := length_lineOffsets_le f.content
  rw [position?, Position.search?_eq (htable ▸ lineOffsets_sorted f.content)
    (by rw [htable]; rfl) (by rw [htable]; omega)]
  rfl

theorem Made.position_fits (hsize : Text.byteLength f.content < UInt32.size) {offset : Nat}
    (hoffset : offset + 1 < UInt32.size) : (f.position offset).Fits := by
  have hstarted := takeWhile_lineOffsets_eq f.content offset
  have hcount : (f.position offset).line ≤ offset + 1 := by
    rw [position, hf.lineTable_eq hsize, hstarted, List.length_cons, List.length_idxsOf]
    exact Nat.succ_le_succ (List.count_le_length.trans (List.length_take_le _ _))
  have hcolumn : (f.position offset).column ≤ offset + 1 :=
    Nat.succ_le_succ (Nat.sub_le _ _)
  exact ⟨by omega, by omega⟩

/-- 32 bits hold what is shown of a span with bytes of the file. -/
theorem Made.holds (hsize : Text.byteLength f.content < UInt32.size) {s : Span}
    (hlt : s.start < s.stop) (hstop : s.stop ≤ Text.byteLength f.content) : f.Holds s :=
  ⟨hsize, hf.position_fits hsize (by omega), hf.position_fits hsize (by omega)⟩

theorem Made.locate?_eq {s : Span} (h : f.Holds s) : f.locate? s = some (f.locate s) := by
  rw [locate?, hf.position?_eq h.size, hf.position?_eq h.size, h.start.inWords?_eq,
    h.last.inWords?_eq]
  rfl

end

end SourceFile

end IncrementalBuild
