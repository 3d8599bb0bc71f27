import IncrementalBuild.Hash.Content
import IncrementalBuild.Proofs.TextBytes
import Mathlib.Data.List.Basic
/-!
# Equal hashes

The hash of a text of one block, told of the list of its bytes, so that it can be computed from
them. Contents with one hash count as the same content, but they can differ: a lane of the hash
adds up products, one for each stripe of 64 bytes, and changes in two stripes can leave all the
sums as they are.
-/
namespace IncrementalBuild

namespace Hash

/-! ## Words of listed bytes -/

/-- The little-endian number in the first `count` bytes of a list. -/
def wordOf : Nat → List UInt8 → UInt64
  | count + 1, b :: rest => b.toUInt64 ||| (wordOf count rest <<< 8)
  | _, _ => 0

theorem wordOf_nil (count : Nat) : wordOf count [] = 0 := by cases count <;> rfl

theorem wordAt_toArray (bytes : List UInt8) (start count : Nat) :
    wordAt ⟨bytes.toArray⟩ start count = wordOf count (bytes.drop start) := by
  induction count generalizing start with
  | zero => cases bytes.drop start <;> rfl
  | succ count ih =>
    rw [wordAt, ih]
    by_cases hstart : start < bytes.length
    · have hbyte : byteAt ⟨bytes.toArray⟩ start = bytes[start] := dif_pos hstart
      rw [hbyte, List.drop_eq_getElem_cons hstart, wordOf]
    · have hbyte : byteAt ⟨bytes.toArray⟩ start = 0 := dif_neg hstart
      rw [hbyte, List.drop_eq_nil_of_le (by omega), List.drop_eq_nil_of_le (by omega),
        wordOf_nil, wordOf_nil]
      rfl

def secretBytes : List UInt8 := secret.data.toList

theorem key_eq (start : Nat) : key start = wordOf 8 (secretBytes.drop start) :=
  wordAt_toArray secretBytes start 8

/-! ## Stripes of listed bytes -/

/-- Adds the first stripe of a list to lanes, with the first bytes of a list of keys. -/
def stripe (bytes keys : List UInt8) (lanes : List UInt64) : List UInt64 :=
  lanes.zipIdx.map fun (lane, i) =>
    let keyed := wordOf 8 (bytes.drop (8 * i)) ^^^ wordOf 8 (keys.drop (8 * i))
    let other := if i % 2 = 0 then i + 1 else i - 1
    lane + wordOf 8 (bytes.drop (8 * other)) + low32 keyed * (keyed >>> 32)

theorem addStripe_toArray (bytes : List UInt8) (start keyStart : Nat) (lanes : List UInt64) :
    addStripe ⟨bytes.toArray⟩ start keyStart lanes =
      stripe (bytes.drop start) (secretBytes.drop keyStart) lanes := by
  simp only [addStripe, stripe, word64, wordAt_toArray, key_eq, List.drop_drop]

/-- The lanes after the stripes of a block, with the last stripe once more. -/
def lanesOf (bytes : List UInt8) : List UInt64 :=
  stripe (bytes.drop (bytes.length - 64)) (secretBytes.drop 121) <|
    (List.range ((bytes.length - 1) / 64)).foldl
      (fun lanes i => stripe (bytes.drop (64 * i)) (secretBytes.drop (8 * i)) lanes)
      [prime32c, prime64a, prime64b, prime64c, prime64d, prime32b, prime64e, prime32a]

/-- The hash of `n` bytes that led to some lanes. -/
def mergeAll (n : Nat) (lanes : List UInt64) : Halves :=
  ⟨merge 11 (n.toUInt64 * prime64a) lanes, merge 117 (~~~ (n.toUInt64 * prime64b)) lanes⟩

/-- The hash of one block depends on the number of its bytes and on its lanes. -/
theorem hashLong_toArray {bytes : List UInt8} (hblock : bytes.length ≤ 1024) :
    hashLong ⟨bytes.toArray⟩ = mergeAll bytes.length (lanesOf bytes) := by
  have hblocks : (bytes.length - 1) / 1024 = 0 := by omega
  have hsize : (ByteArray.mk bytes.toArray).size = bytes.length := rfl
  simp only [hashLong, mergeAll, lanesOf, hsize, hblocks, addStripes, addStripe_toArray,
    List.range_zero, List.foldl_nil, Nat.mul_zero, Nat.zero_add, Nat.sub_zero]

end Hash

/-! ## Long texts -/

namespace ContentHash

theorem ofText_eq (t : Text) : ofText t = ⟨Hash.ofBytes ⟨(Text.utf8 t).toArray⟩⟩ := by
  unfold ofText ofBytes
  rw [String.toUTF8_eq_toByteArray, String.toByteArray_ofList, List.utf8Encode,
    ← List.data_toByteArray]
  rfl

theorem ofText_long {t : Text} (hlong : 240 < (Text.utf8 t).length)
    (hblock : (Text.utf8 t).length ≤ 1024) :
    ofText t = ⟨Hash.mergeAll (Text.utf8 t).length (Hash.lanesOf (Text.utf8 t))⟩ := by
  have hsize : (ByteArray.mk (Text.utf8 t).toArray).size = (Text.utf8 t).length := rfl
  have hrules : ∀ n ≤ 240, ¬ (Text.utf8 t).length ≤ n := fun n hn => by omega
  rw [ofText_eq, ← Hash.hashLong_toArray hblock, Hash.ofBytes, hsize]
  rw [if_neg (by omega), if_neg (hrules 3 (by decide)), if_neg (hrules 8 (by decide)),
    if_neg (hrules 16 (by decide)), if_neg (hrules 128 (by decide)),
    if_neg (hrules 240 (by decide))]

theorem ofText_congr {t u : Text} (hlong : 240 < (Text.utf8 t).length)
    (hblock : (Text.utf8 t).length ≤ 1024)
    (hlength : (Text.utf8 u).length = (Text.utf8 t).length)
    (hlanes : Hash.lanesOf (Text.utf8 u) = Hash.lanesOf (Text.utf8 t)) :
    ofText u = ofText t := by
  rw [ofText_long hlong hblock, ofText_long (by omega) (by omega), hlength, hlanes]

end ContentHash

/-! ## Two texts with one hash -/

namespace Text

/-- A text of four stripes, two of which have a part that is given. -/
def twoParts (first second : Text) : Text :=
  List.replicate 35 'x' ++ '\n' :: first ++ List.replicate 53 'x' ++ second ++
    List.replicate 140 'x'

/-- A text with a conflict marker on its second line. -/
def conflicted : Text := twoParts "<<<<<<<" "1[N9c"

/-- A text without a conflict marker. Two bytes are other ones, in the fifth word of the first
stripe and in that of the second. The words themselves are added to the sixth lane, where one is
larger by what the other is smaller by, and their products to the fifth, where the sums agree. -/
def resolved : Text := twoParts "=<<<<<<" "1[N9b"

end Text

theorem ContentHash.ofText_resolved : ofText Text.resolved = ofText Text.conflicted :=
  ofText_congr (by decide +kernel) (by decide +kernel) (by decide +kernel) (by decide +kernel)

theorem ContentHash.ofText_ne_conflicted : ofText "x".toList ≠ ofText Text.conflicted := by
  have hlong : ofText Text.conflicted = _ := ofText_long (by decide +kernel) (by decide +kernel)
  rw [hlong]
  decide +kernel

end IncrementalBuild
