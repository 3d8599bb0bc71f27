import IncrementalBuild.Proofs.WrittenJson
/-!
# What is read

The reader walks over the tokens with the containers that are still open, and refuses to open more
than 127 of them. What is stated here: a value that is read has at most that many containers inside
each other and integers of 64 bits only. So it can be written and read again, if it has no doubles.
-/
namespace IncrementalBuild.Json

/-! ## Values -/

mutual

def doubles : Json → List UInt64
  | double bits => [bits]
  | array items => doublesItems items
  | object members => doublesMembers members
  | _ => []

def doublesItems : List Json → List UInt64
  | [] => []
  | v :: rest => doubles v ++ doublesItems rest

def doublesMembers : List (Text × Json) → List UInt64
  | [] => []
  | (_, v) :: rest => doubles v ++ doublesMembers rest

end

theorem mem_doublesItems {bits : UInt64} {items : List Json} :
    bits ∈ doublesItems items ↔ ∃ v ∈ items, bits ∈ v.doubles := by
  induction items with
  | nil => simp [doublesItems]
  | cons v rest ih => simp [doublesItems, ih]

theorem mem_doublesMembers {bits : UInt64} {members : List (Text × Json)} :
    bits ∈ doublesMembers members ↔ ∃ m ∈ members, bits ∈ m.2.doubles := by
  induction members with
  | nil => simp [doublesMembers]
  | cons m rest ih => simp [doublesMembers, ih]

section
variable {p q : UInt64 → Prop} {room : Nat} {v : Json}

theorem Bounded.of_doubles (h : Bounded p room v) (hq : ∀ bits ∈ v.doubles, q bits) :
    Bounded q room v := by
  induction h with
  | null => exact .null
  | bool b => exact .bool b
  | integer hlow hhigh => exact .integer hlow hhigh
  | double => exact .double (hq _ (by simp [doubles]))
  | string t => exact .string t
  | array _ ih =>
    refine .array fun v hv => ih v hv fun bits hbits => hq bits ?_
    rw [doubles, mem_doublesItems]
    exact ⟨v, hv, hbits⟩
  | object _ ih =>
    refine .object fun m hm => ih m hm fun bits hbits => hq bits ?_
    rw [doubles, mem_doublesMembers]
    exact ⟨m, hm, hbits⟩

theorem Bounded.mono (h : Bounded p room v) {room' : Nat} (hle : room ≤ room') :
    Bounded p room' v := by
  induction h generalizing room' with
  | null => exact .null
  | bool b => exact .bool b
  | integer hlow hhigh => exact .integer hlow hhigh
  | double hbits => exact .double hbits
  | string t => exact .string t
  | array _ ih =>
    obtain ⟨room', rfl⟩ := Nat.exists_eq_add_of_le' (Nat.le_of_add_left_le hle)
    exact .array fun v hv => ih v hv (Nat.le_of_succ_le_succ hle)
  | object _ ih =>
    obtain ⟨room', rfl⟩ := Nat.exists_eq_add_of_le' (Nat.le_of_add_left_le hle)
    exact .object fun m hm => ih m hm (Nat.le_of_succ_le_succ hle)

end

/-- The numbers of a value are integers of 64 bits. As one of these minus zero is a double. -/
def Whole (v : Json) : Prop := ∀ bits ∈ v.doubles, bits = minusZero

namespace Numeral

variable {n : Numeral}

/-- The numeral of an integer of 64 bits, with a sign or without. -/
structure Fits (n : Numeral) : Prop where
  fraction : n.fraction = none
  exponent : n.exponent = none
  limit : value n.whole ≤ if n.negative then 0x8000000000000000 else 0xFFFFFFFFFFFFFFFF

theorem le_foldl_digits (digits : List Nat) (m : Nat) :
    m ≤ digits.foldl (fun n d => 10 * n + d) m := by
  induction digits generalizing m with
  | nil => exact Nat.le_refl _
  | cons d rest ih => exact Nat.le_trans (by omega) (ih (10 * m + d))

theorem extend_eq {m : Nat} {digits : List Nat}
    (h : digits.foldl (fun n d => 10 * n + d) m < UInt64.size) :
    extend m digits = (digits.foldl (fun n d => 10 * n + d) m, []) := by
  induction digits generalizing m with
  | nil => rfl
  | cons d rest ih =>
    rw [extend, if_pos (Nat.lt_of_le_of_lt (le_foldl_digits rest _) h), ih h, List.foldl_cons]

/-- Without point and exponent, zero with a minus is the double with nothing but the sign. -/
theorem toDouble?_of_zero {whole : List Nat} (h : value whole = 0) :
    (toDouble? ⟨true, whole, none, none⟩).map Float.toBits = some minusZero := by
  have hextend : extend 0 whole = (0, []) := by
    rw [extend_eq (Nat.lt_of_le_of_lt (Nat.le_of_eq h) (by decide))]
    exact congrArg (·, []) h
  have hscientific : scientific ⟨true, whole, none, none⟩ = (0, 0) := by
    simp [scientific, hextend, extend]
  have hzero : ((double? 0 0).map fun f => -f).map Float.toBits = some minusZero := by
    decide +kernel
  rw [toDouble?, hscientific]
  exact hzero

/-- An integer of 64 bits is read as what it is, or as minus zero. -/
theorem Fits.toJson?_eq (h : n.Fits) : n.toJson? =
    some (if n.negative && value n.whole == 0 then double minusZero
      else integer (if n.negative then -value n.whole else value n.whole)) := by
  have hsize : UInt64.size = 0x10000000000000000 := rfl
  obtain ⟨negative, whole, _, _⟩ := n
  obtain ⟨rfl, rfl, hlimit⟩ := h
  unfold toJson?
  dsimp only at hlimit ⊢
  cases negative with
  | false =>
    rw [if_neg (by decide)] at hlimit
    rw [if_pos ⟨rfl, rfl, rfl, by omega⟩]
    rfl
  | true =>
    rw [if_pos rfl] at hlimit
    rw [if_neg (by simp)]
    by_cases hzero : value whole = 0
    · rw [if_neg (by simp [hzero])]
      show Option.map (double ∘ Float.toBits) _ = _
      rw [← Option.map_map, toDouble?_of_zero hzero]
      simp [hzero]
    · rw [if_pos ⟨rfl, rfl, rfl, Nat.pos_of_ne_zero hzero, hlimit⟩]
      simp [hzero]

theorem Fits.whole {v : Json} (h : n.Fits) (hv : n.toJson? = some v) : v.Whole := by
  obtain rfl := Option.some.inj (h.toJson?_eq.symm.trans hv)
  intro bits hbits
  split at hbits
  · exact List.mem_singleton.mp hbits
  · cases hbits

end Numeral

/-! ## Tokens -/

/-- A value with few containers inside each other, whose integers have 64 bits. -/
abbrev Small (room : Nat) (v : Json) : Prop := Bounded (fun _ => True) room v

theorem small_of_toJson? {n : Numeral} {v : Json} (h : n.toJson? = some v) : Small 0 v := by
  have hsize : UInt64.size = 0x10000000000000000 := rfl
  unfold Numeral.toJson? at h
  dsimp only at h
  split at h
  · obtain rfl := Option.some.inj h
    exact .integer (by omega) (by omega)
  · split at h
    · next hnegative =>
      obtain rfl := Option.some.inj h
      have hle := hnegative.2.2.2.2
      exact .integer (by omega) (by omega)
    · obtain ⟨f, _, rfl⟩ := Option.map_eq_some_iff.mp h
      exact .double trivial

theorem small_of_wordValue? {t : Text} {v : Json} (h : wordValue? t = some v) : Small 0 v := by
  unfold wordValue? at h
  split at h
  · obtain rfl := Option.some.inj h
    exact .null
  · split at h
    · obtain rfl := Option.some.inj h
      exact .bool true
    · split at h
      · obtain rfl := Option.some.inj h
        exact .bool false
      · cases h

namespace Lexing

/-- The tokens that are values have no containers. -/
def AreSmall (tokens : List Token) : Prop := ∀ v, .value v ∈ tokens → Small 0 v

variable {c : Char} {state next : Lexing} {tokens : List Token}

theorem AreSmall.append {tokens' : List Token} (h : AreSmall tokens) (h' : AreSmall tokens') :
    AreSmall (tokens ++ tokens') := fun v hv => (List.mem_append.mp hv).elim (h v) (h' v)

theorem areSmall_of_start? (h : start? c = some (tokens, next)) : AreSmall tokens := by
  unfold start? at h
  intro v hv
  split at h
  case h_12 =>
    split at h
    · cases h
      cases hv
    · split at h
      · cases h
        cases hv
      · cases h
  all_goals
    cases h
    simp at hv

theorem areSmall_of_finish? (h : state.finish? = some tokens) : AreSmall tokens := by
  intro v hv
  unfold finish? at h
  split at h
  · cases h
    cases hv
  · obtain ⟨w, hw, rfl⟩ := Option.map_eq_some_iff.mp h
    obtain rfl : v = w := by simpa using hv
    exact small_of_wordValue? hw
  · obtain ⟨w, hw, rfl⟩ := Option.map_eq_some_iff.mp h
    obtain rfl : v = w := by simpa using hv
    obtain ⟨n, _, hn⟩ := Option.bind_eq_some_iff.mp hw
    exact small_of_toJson? hn
  · cases h

theorem areSmall_of_finishThen? (h : state.finishThen? c = some (tokens, next)) :
    AreSmall tokens := by
  unfold finishThen? at h
  split at h
  · next hfinish hstart =>
    cases h
    exact (areSmall_of_finish? hfinish).append (areSmall_of_start? hstart)
  · cases h

theorem areSmall_nil : AreSmall [] := fun _ hv => nomatch hv

theorem areSmall_of_step? (h : state.step? c = some (tokens, next)) : AreSmall tokens := by
  unfold step? at h
  cases state with
  | between => exact areSmall_of_start? h
  | word letters =>
    dsimp only at h
    split at h
    · cases h
      exact areSmall_nil
    · exact areSmall_of_finishThen? h
  | number characters =>
    dsimp only at h
    split at h
    · cases h
      exact areSmall_nil
    · exact areSmall_of_finishThen? h
  | quoted pieces =>
    dsimp only at h
    split at h
    · obtain ⟨t, _, heq⟩ := Option.map_eq_some_iff.mp h
      cases heq
      intro v hv
      obtain rfl : v = string t := by simpa using hv
      exact .string t
    · split at h
      · cases h
        exact areSmall_nil
      · split at h
        · cases h
        · cases h
          exact areSmall_nil
  | escaped pieces =>
    dsimp only at h
    split at h
    · cases h
      exact areSmall_nil
    · obtain ⟨_, _, heq⟩ := Option.map_eq_some_iff.mp h
      cases heq
      exact areSmall_nil
  | hex pieces left value =>
    obtain ⟨_, _, heq⟩ := Option.map_eq_some_iff.mp h
    dsimp only at heq
    split at heq
    · cases heq
      exact areSmall_nil
    · cases heq
      exact areSmall_nil

theorem areSmall_of_run? {t : Text} (h : state.run? t = some tokens) : AreSmall tokens := by
  induction t generalizing state tokens with
  | nil => exact areSmall_of_finish? h
  | cons c rest ih =>
    unfold run? at h
    obtain ⟨⟨first, next⟩, hstep, h⟩ := Option.bind_eq_some_iff.mp h
    obtain ⟨more, hmore, heq⟩ := Option.bind_eq_some_iff.mp h
    cases heq
    exact (areSmall_of_step? hstep).append (ih hmore)

end Lexing

/-! ## States of the reader -/

/-- An open container holds values with at most `room` containers inside each other. -/
def Frame.Holds (room : Nat) : Frame → Prop
  | .array items => ∀ v ∈ items, Small room v
  | .object members _ => ∀ m ∈ members, Small room m.2

/-- Open containers, inside which `room` more may be opened. -/
inductive Opened : List Frame → Nat → Prop
  | nil : Opened [] depthLimit
  | cons {frame : Frame} {outer : List Frame} {room : Nat} : frame.Holds room →
      Opened outer (room + 1) → Opened (frame :: outer) room

/-- What has been read so far fits into a container that may be open. -/
inductive Reading : List Frame → Awaiting → Prop
  | value {outer : List Frame} {room : Nat} : Opened outer room → Reading outer .value
  | firstItem {outer : List Frame} {room : Nat} : Opened outer (room + 1) →
      Reading outer .firstItem
  | afterItem {outer : List Frame} {room : Nat} {items : List Json} : Opened outer (room + 1) →
      (∀ v ∈ items, Small room v) → Reading outer (.afterItem items)
  | firstKey {outer : List Frame} {room : Nat} : Opened outer (room + 1) → Reading outer .firstKey
  | key {outer : List Frame} {room : Nat} {members : List (Text × Json)} :
      Opened outer (room + 1) → (∀ m ∈ members, Small room m.2) → Reading outer (.key members)
  | colon {outer : List Frame} {room : Nat} {members : List (Text × Json)} {key : Text} :
      Opened outer (room + 1) → (∀ m ∈ members, Small room m.2) →
      Reading outer (.colon members key)
  | afterMember {outer : List Frame} {room : Nat} {members : List (Text × Json)} :
      Opened outer (room + 1) → (∀ m ∈ members, Small room m.2) →
      Reading outer (.afterMember members)
  | finish {outer : List Frame} {v : Json} : Small depthLimit v → Reading outer (.finish v)

section
variable {outer outer' : List Frame} {next next' : Awaiting} {room : Nat} {token : Token} {v : Json}

theorem Opened.length_add (h : Opened outer room) : outer.length + room = depthLimit := by
  induction h with
  | nil => rfl
  | cons _ _ ih =>
    rw [List.length_cons]
    omega

theorem Opened.reading_deliver (h : Opened outer room) (hv : Small room v)
    (hdeliver : deliver v outer = (outer', next')) : Reading outer' next' := by
  cases h with
  | nil =>
    cases hdeliver
    exact .finish hv
  | @cons frame _ _ hframe houter =>
    cases frame with
    | array items =>
      cases hdeliver
      exact .afterItem houter (List.forall_mem_cons.mpr ⟨hv, hframe⟩)
    | object members key =>
      cases hdeliver
      exact .afterMember houter (List.forall_mem_cons.mpr ⟨hv, hframe⟩)

theorem Opened.reading_begin (h : Opened outer room) (htoken : Lexing.AreSmall [token])
    (hbegin : beginValue? outer token = some (outer', next')) : Reading outer' next' := by
  have hroom : outer.length < depthLimit → ∃ room', room = room' + 1 := fun hlt =>
    Nat.exists_eq_succ_of_ne_zero fun hzero => by
      have hlength := h.length_add
      omega
  unfold beginValue? at hbegin
  split at hbegin
  · next v =>
    have hv : Small room v := (htoken v List.mem_cons_self).mono (Nat.zero_le room)
    exact h.reading_deliver hv (Option.some.inj hbegin)
  · split at hbegin
    · next hlt =>
      cases hbegin
      obtain ⟨room', rfl⟩ := hroom hlt
      exact .firstItem h
    · cases hbegin
  · split at hbegin
    · next hlt =>
      cases hbegin
      obtain ⟨room', rfl⟩ := hroom hlt
      exact .firstKey h
    · cases hbegin
  · cases hbegin

theorem Reading.advance (h : Reading outer next) (htoken : Lexing.AreSmall [token])
    (hadvance : advance? outer next token = some (outer', next')) : Reading outer' next' := by
  cases h with
  | value houter => exact houter.reading_begin htoken hadvance
  | firstItem houter =>
    -- anything but the end of the array starts its first item
    by_cases hclose : token = .closeArray
    · subst hclose
      exact houter.reading_deliver (.array (by simp)) (Option.some.inj hadvance)
    · rw [starts_firstItem _ _ hclose] at hadvance
      have hopened : Opened (.array [] :: outer) _ := .cons (fun v hv => nomatch hv) houter
      exact hopened.reading_begin htoken hadvance
  | afterItem houter hitems =>
    cases token with
    | comma =>
      cases hadvance
      exact .value (.cons hitems houter)
    | closeArray =>
      exact houter.reading_deliver (.array fun v hv => hitems v (List.mem_reverse.mp hv))
        (Option.some.inj hadvance)
    | _ => cases hadvance
  | firstKey houter =>
    cases token with
    | closeObject =>
      exact houter.reading_deliver (.object (by simp)) (Option.some.inj hadvance)
    | value v =>
      cases v with
      | string k =>
        cases hadvance
        exact .colon houter fun m hm => nomatch hm
      | _ => cases hadvance
    | _ => cases hadvance
  | key houter hmembers =>
    cases token with
    | value v =>
      cases v with
      | string k =>
        cases hadvance
        exact .colon houter hmembers
      | _ => cases hadvance
    | _ => cases hadvance
  | colon houter hmembers =>
    cases token with
    | colon =>
      cases hadvance
      exact .value (.cons hmembers houter)
    | _ => cases hadvance
  | afterMember houter hmembers =>
    cases token with
    | comma =>
      cases hadvance
      exact .key houter hmembers
    | closeObject =>
      exact houter.reading_deliver (.object fun m hm => hmembers m (List.mem_reverse.mp hm))
        (Option.some.inj hadvance)
    | _ => cases hadvance
  | finish hv => cases token <;> cases hadvance

theorem Reading.small (h : Reading outer next) {tokens : List Token}
    (htokens : Lexing.AreSmall tokens) (hread : readTokens? outer next tokens = some v) :
    Small depthLimit v := by
  induction tokens generalizing outer next with
  | nil =>
    cases h with
    | finish hv =>
      cases hread
      exact hv
    | _ => cases hread
  | cons token rest ih =>
    obtain ⟨⟨outer', next'⟩, hadvance, hread⟩ := Option.bind_eq_some_iff.mp hread
    have htoken : Lexing.AreSmall [token] := fun v hv => htokens v (by simp_all)
    exact ih (h.advance htoken hadvance) (fun v hv => htokens v (List.mem_cons_of_mem _ hv)) hread

end

theorem small_of_ofText? {t : Text} {v : Json} (h : ofText? t = some v) : Small depthLimit v := by
  obtain ⟨tokens, htokens, hread⟩ := Option.bind_eq_some_iff.mp h
  exact (Reading.value .nil).small (Lexing.areSmall_of_run? htokens) hread

end IncrementalBuild.Json
