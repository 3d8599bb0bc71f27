import IncrementalBuild.Source.File
import Mathlib.Data.List.Count
import Mathlib.Data.List.Induction
/-!
# Bytes of a text

Offsets count the bytes of the UTF-8 form. The byte of a newline stands in no other character, so
lines can be told from the bytes alone: the line table has the offsets just behind the newlines
among them, and which lines start up to an offset depends on the bytes before it.
-/
namespace IncrementalBuild

namespace Text

def utf8 (t : Text) : List UInt8 := t.flatMap String.utf8EncodeChar

theorem utf8_cons (c : Char) (t : Text) : utf8 (c :: t) = String.utf8EncodeChar c ++ utf8 t :=
  List.flatMap_cons

theorem length_utf8 (t : Text) : (utf8 t).length = byteLength t := by
  induction t with
  | nil => rfl
  | cons c t ih =>
    rw [utf8_cons, List.length_append, String.length_utf8EncodeChar, ih, byteLength_cons]

/-! ## Newlines among bytes -/

def newline : UInt8 := 10

theorem newline_mem_iff {c : Char} : newline ∈ String.utf8EncodeChar c ↔ c = '\n' := by
  constructor
  · intro hmem
    have hbyte : ∀ n : Nat, newline = UInt8.ofNat n → n % 256 = 10 := by
      intro n hn
      have htoNat := congrArg UInt8.toNat hn
      rw [UInt8.toNat_ofNat'] at htoNat
      exact htoNat.symm
    -- all bytes of a longer character are 128 or more
    have hval : c.val.toNat = 10 := by
      unfold String.utf8EncodeChar at hmem
      dsimp only at hmem
      split_ifs at hmem with h₁ h₂ h₃ <;>
        simp only [List.mem_cons, List.not_mem_nil, or_false] at hmem
      · have hfirst := hbyte _ hmem
        omega
      · rcases hmem with h | h <;> have hfirst := hbyte _ h <;> omega
      · rcases hmem with h | h | h <;> have hfirst := hbyte _ h <;> omega
      · rcases hmem with h | h | h | h <;> have hfirst := hbyte _ h <;> omega
    exact Char.ext (UInt32.toNat_inj.mp hval)
  · rintro rfl
    decide

/-- The last line of some bytes starts at `start`: it is behind a newline, or there is none, and no
newline follows. -/
structure LastLine (bytes : List UInt8) (start : Nat) : Prop where
  behind : start = 0 ∨ ∃ n, start = n + 1 ∧ bytes[n]? = some newline
  unbroken : newline ∉ bytes.drop start

theorem LastLine.start_le {bytes : List UInt8} {start : Nat} (h : LastLine bytes start) :
    start ≤ bytes.length := by
  rcases h.behind with rfl | ⟨n, rfl, hn⟩
  · exact Nat.zero_le _
  · exact (List.getElem?_eq_some_iff.mp hn).1

theorem lastLine_newline (bytes : List UInt8) :
    LastLine (bytes ++ [newline]) (bytes.length + 1) := by
  refine ⟨.inr ⟨bytes.length, rfl, List.getElem?_concat_length⟩, ?_⟩
  rw [List.drop_eq_nil_of_le (by simp)]
  exact List.not_mem_nil

theorem LastLine.append_singleton {bytes : List UInt8} {start : Nat} (h : LastLine bytes start)
    {b : UInt8} (hb : b ≠ newline) : LastLine (bytes ++ [b]) start := by
  constructor
  · rcases h.behind with hstart | ⟨n, hstart, hn⟩
    · exact .inl hstart
    · have hlt := (List.getElem?_eq_some_iff.mp hn).1
      exact .inr ⟨n, hstart, by rw [List.getElem?_append_left hlt, hn]⟩
  · rw [List.drop_append_of_le_length h.start_le, List.mem_append, List.mem_singleton]
    intro hmem
    rcases hmem with hmem | hmem
    · exact h.unbroken hmem
    · exact hb hmem.symm

theorem lastLine_getLastD (bytes : List UInt8) :
    LastLine bytes ((0 :: bytes.idxsOf newline 1).getLastD 0) := by
  induction bytes using List.reverseRecOn with
  | nil => exact ⟨.inl rfl, List.not_mem_nil⟩
  | append_singleton bytes b ih =>
    rw [List.idxsOf_append, List.idxsOf_cons, List.idxsOf_nil, ← List.cons_append]
    split
    · next hb =>
      rw [List.getLastD_concat, eq_of_beq hb, Nat.add_comm]
      exact lastLine_newline bytes
    · next hb =>
      rw [List.append_nil]
      exact ih.append_singleton fun heq => hb (beq_iff_eq.mpr heq)

/-- The offsets behind a byte that are at most `n + offset` are told by the first `offset` bytes, if
the bytes start at offset `n`. -/
theorem takeWhile_idxsOf (b : UInt8) (n offset : Nat) (bytes : List UInt8) :
    (bytes.idxsOf b (n + 1)).takeWhile (· ≤ n + offset) =
      (bytes.take offset).idxsOf b (n + 1) := by
  induction bytes generalizing n offset with
  | nil => rw [List.take_nil, List.idxsOf_nil, List.takeWhile_nil]
  | cons a bytes ih =>
    cases offset with
    | zero =>
      rw [List.take_zero, List.idxsOf_nil]
      cases hplaces : (a :: bytes).idxsOf b (n + 1) with
      | nil => rfl
      | cons m more =>
        have hm := List.ge_of_mem_idxsOf m (hplaces ▸ List.mem_cons_self)
        have hbehind : ¬ m ≤ n + 0 := by omega
        exact List.takeWhile_cons_of_neg (by simpa using hbehind)
    | succ offset =>
      have hshift : n + (offset + 1) = n + 1 + offset := by omega
      rw [List.take_succ_cons, List.idxsOf_cons, List.idxsOf_cons, hshift, ← ih (n + 1) offset]
      split
      · exact List.takeWhile_cons_of_pos (by simp)
      · rfl

end Text

/-! ## The line table of bytes -/

theorem lineStartsFrom_eq (offset : Nat) (t : Text) :
    lineStartsFrom offset t = t.utf8.idxsOf Text.newline (offset + 1) := by
  induction t generalizing offset with
  | nil => rfl
  | cons c t ih =>
    have hnext : offset + c.utf8Size + 1 = offset + 1 + (String.utf8EncodeChar c).length := by
      rw [String.length_utf8EncodeChar]
      omega
    rw [lineStartsFrom, Text.utf8_cons, List.idxsOf_append, ih, hnext]
    split
    · next hc =>
      subst hc
      rfl
    · next hc =>
      have hnone : (String.utf8EncodeChar c).idxsOf Text.newline (offset + 1) = [] := by
        rw [List.idxsOf_eq_nil_iff]
        intro b hb
        rw [beq_eq_false_iff_ne]
        rintro rfl
        exact hc (Text.newline_mem_iff.mp hb)
      rw [hnone, List.nil_append]

theorem lineOffsets_eq (t : Text) : lineOffsets t = 0 :: t.utf8.idxsOf Text.newline 1 := by
  rw [lineOffsets, lineStartsFrom_eq]

theorem lineOffsets_sorted (t : Text) : (lineOffsets t).Pairwise (· < ·) := by
  rw [lineOffsets_eq]
  exact List.pairwise_cons.mpr ⟨fun n hn => List.ge_of_mem_idxsOf n hn, List.pairwise_idxsOf⟩

theorem le_byteLength_of_mem_lineOffsets {t : Text} {n : Nat} (h : n ∈ lineOffsets t) :
    n ≤ Text.byteLength t := by
  rw [lineOffsets_eq] at h
  rcases List.mem_cons.mp h with rfl | hn
  · exact Nat.zero_le _
  · have hlt := List.lt_add_of_mem_idxsOf n hn
    rw [Text.length_utf8] at hlt
    omega

theorem length_lineOffsets_le (t : Text) : (lineOffsets t).length ≤ Text.byteLength t + 1 := by
  rw [lineOffsets_eq, List.length_cons, List.length_idxsOf, ← Text.length_utf8]
  exact Nat.succ_le_succ List.count_le_length

theorem lineStarts_eq {t : Text} (hsize : Text.byteLength t < UInt32.size) :
    lineStarts t = lineOffsets t := by
  have hwhole : ∀ n ∈ lineOffsets t, n % UInt32.size = id n := fun n hn =>
    Nat.mod_eq_of_lt (Nat.lt_of_le_of_lt (le_byteLength_of_mem_lineOffsets hn) hsize)
  rw [lineStarts, List.map_congr_left hwhole, List.map_id]

/-- The lines that start up to an offset are told by the bytes before it. -/
theorem takeWhile_lineOffsets_eq (t : Text) (offset : Nat) :
    (lineOffsets t).takeWhile (· ≤ offset) =
      0 :: (t.utf8.take offset).idxsOf Text.newline 1 := by
  have hbehind := Text.takeWhile_idxsOf Text.newline 0 offset t.utf8
  rw [Nat.zero_add, Nat.zero_add] at hbehind
  rw [lineOffsets_eq, List.takeWhile_cons_of_pos (by simp), hbehind]

end IncrementalBuild
