import IncrementalBuild.Json.Reader
import IncrementalBuild.Json.Writer
/-!
# Reading what is written

The compact form of a value has no blanks, so its tokens are told apart by their characters alone.
What is stated here: reading the compact form of a value gives the value, as long as its containers
are not too deep and its numbers are integers of 64 bits. One of these is a double: the zero with a
minus before it.
-/
namespace IncrementalBuild.Json

/-! ## Numbers -/

section
variable {t : Text} {n : Nat}

theorem takeDigits_of_isDigit (h : ∀ c ∈ t, c.isDigit = true) :
    takeDigits t = (t.map fun c => c.toNat - '0'.toNat, []) := by
  induction t with
  | nil => rfl
  | cons c t ih =>
    rw [List.forall_mem_cons] at h
    simp [takeDigits, digit?, h.1, ih h.2]

theorem value_map (t : Text) :
    Numeral.value (t.map fun c => c.toNat - '0'.toNat) = Nat.ofDigitChars 10 t 0 := by
  rw [Numeral.value, List.foldl_map, Nat.ofDigitChars_eq_foldl]

theorem head?_ofNat (hn : 0 < n) : (Text.ofNat n).head? ≠ some '0' := by
  induction n using Nat.strongRecOn with
  | ind n ih =>
    by_cases hlt : n < 10
    · rw [Text.ofNat, Nat.toDigits_of_lt_base hlt]
      intro hzero
      have hdigit : ∀ d < 10, 0 < d → Nat.digitChar d ≠ '0' := by decide
      exact hdigit n hlt hn (Option.some.inj hzero)
    · have hfirst : (Text.ofNat n).head? = (Text.ofNat (n / 10)).head? := by
        rw [Text.ofNat, Nat.toDigits_of_base_le (by decide) (Nat.le_of_not_lt hlt),
          List.head?_append, Option.or_of_isSome (List.isSome_head?.mpr Nat.toDigits_ne_nil)]
        rfl
      rw [hfirst]
      exact ih (n / 10) (by omega) (by omega)

theorem isDigit_of_mem_ofNat {c : Char} (hc : c ∈ Text.ofNat n) : c.isDigit = true :=
  Nat.isDigit_of_mem_toDigits (by decide) (by decide) hc

theorem eq_zero_of_isDigit {c : Char} (hc : c.isDigit = true) (h : c.toNat - '0'.toNat = 0) :
    c = '0' := by
  have hle : '0'.toNat ≤ c.toNat := (Char.isDigit_iff_toNat.mp hc).1
  exact Char.toNat_inj.mp (Nat.le_antisymm (Nat.le_of_sub_eq_zero h) hle)

/-- The digits of a number, perhaps with a sign before them, are read as its value. -/
theorem ofText?_ofNat (n : Nat) :
    ∃ digits, Numeral.value digits = n ∧
      Numeral.ofText? (Text.ofNat n) = some ⟨false, digits, none, none⟩ ∧
      Numeral.ofText? ('-' :: Text.ofNat n) = some ⟨true, digits, none, none⟩ := by
  have hdigits : ∀ c ∈ Text.ofNat n, c.isDigit = true := fun c hc => isDigit_of_mem_ofNat hc
  have htake := takeDigits_of_isDigit hdigits
  have hvalue := (value_map (Text.ofNat n)).trans Nat.ofDigitChars_ten_toDigits
  obtain ⟨c, t, ht⟩ := List.exists_cons_of_ne_nil (Nat.toDigits_ne_nil (b := 10) (n := n))
  rw [← Text.ofNat] at ht
  -- no zero stands before another digit
  have hstart : ¬ (c.toNat - '0'.toNat = 0 ∧ t ≠ []) := by
    rintro ⟨hzero, hne⟩
    rw [ht] at hdigits
    have hc := eq_zero_of_isDigit (hdigits c List.mem_cons_self) hzero
    rcases Nat.eq_zero_or_pos n with rfl | hn
    · exact hne (List.cons.inj ht).2.symm
    · exact head?_ofNat hn (by rw [ht, hc]; rfl)
  have hsign : c ≠ '-' := by
    rintro rfl
    exact absurd (hdigits '-' (ht ▸ List.mem_cons_self)) (by decide)
  rw [ht] at htake hvalue ⊢
  refine ⟨_, hvalue, ?_, ?_⟩
  · simpa [Numeral.ofText?, htake, hsign] using hstart
  · simpa [Numeral.ofText?, htake] using hstart

theorem read_integerText {i : Int} (hlow : -0x8000000000000000 ≤ i)
    (hhigh : i < 0x10000000000000000) :
    (Numeral.ofText? (integerText i)).bind Numeral.toJson? = some (integer i) := by
  obtain ⟨digits, hvalue, hpositive, hnegative⟩ := ofText?_ofNat i.natAbs
  have hsize : UInt64.size = 0x10000000000000000 := rfl
  unfold integerText
  split
  · next hi =>
    have hneg : -(i.natAbs : Int) = i := by omega
    rw [hnegative, Option.bind_some, Numeral.toJson?]
    dsimp only
    rw [hvalue, if_neg (by simp), if_pos ⟨rfl, rfl, rfl, by omega, by omega⟩, hneg]
  · next hi =>
    have habs : (i.natAbs : Int) = i := by omega
    rw [hpositive, Option.bind_some, Numeral.toJson?]
    dsimp only
    rw [hvalue, if_pos ⟨rfl, rfl, rfl, by omega⟩, habs]

/-- What is written as a number is: it starts with a digit or a sign. -/
structure Numeric (t : Text) : Prop where
  first : ∃ c u, t = c :: u ∧ (c.isDigit || c == '-') = true
  isNumeric : ∀ c ∈ t, isNumeric c = true

theorem isNumeric_of_isDigit {c : Char} (h : c.isDigit = true) : isNumeric c = true := by
  simp [Json.isNumeric, h]

theorem numeric_integerText (i : Int) : Numeric (integerText i) := by
  obtain ⟨c, t, ht⟩ := List.exists_cons_of_ne_nil (Nat.toDigits_ne_nil (b := 10) (n := i.natAbs))
  rw [← Text.ofNat] at ht
  have hdigits : ∀ d ∈ Text.ofNat i.natAbs, Json.isNumeric d = true := fun d hd =>
    isNumeric_of_isDigit (isDigit_of_mem_ofNat hd)
  unfold integerText
  split
  · exact ⟨⟨'-', _, rfl, rfl⟩, List.forall_mem_cons.mpr ⟨by decide, hdigits⟩⟩
  · have hc : c.isDigit = true := isDigit_of_mem_ofNat (ht ▸ List.mem_cons_self)
    exact ⟨⟨c, t, ht, by rw [hc]; rfl⟩, hdigits⟩

/-- The double that a minus before a zero makes. -/
def minusZero : UInt64 := 0x8000000000000000

theorem doubleText_minusZero : doubleText minusZero = "-0.0".toList := by decide +kernel

theorem numeric_minusZero : Numeric (doubleText minusZero) := by
  have hall : "-0.0".toList.all Json.isNumeric = true := by decide
  rw [doubleText_minusZero]
  exact ⟨⟨'-', "0.0".toList, rfl, rfl⟩, List.all_eq_true.mp hall⟩

theorem read_minusZero :
    (Numeral.ofText? (doubleText minusZero)).bind Numeral.toJson? = some (double minusZero) := by
  have htext : Numeral.ofText? "-0.0".toList = some ⟨true, [0], some [0], none⟩ := by
    decide +kernel
  have hbits : ((⟨true, [0], some [0], none⟩ : Numeral).toDouble?.map Float.toBits) =
      some minusZero := by decide +kernel
  rw [doubleText_minusZero, htext, Option.bind_some, Numeral.toJson?, if_neg (by simp),
    if_neg (by simp)]
  show Option.map (double ∘ Float.toBits) _ = _
  rw [← Option.map_map, hbits, Option.map_some]

end

/-! ## Tokens -/

/-- A text that no word or number goes on with. -/
def Ends (t : Text) : Prop := ∀ c ∈ t.head?, isNumeric c = false ∧ c.isLower = false

namespace Lexing

variable {t rest : Text} {v : Json}

/-- A word or number that ends gives its token, and what follows is read between tokens. -/
theorem run?_of_finish {state : Lexing}
    (h : ∀ c ∈ rest.head?, state.step? c = state.finishThen? c) :
    state.run? rest = state.finish?.bind fun done => (between.run? rest).map (done ++ ·) := by
  cases rest with
  | nil => simp [run?, finish?]
  | cons c rest =>
    rw [run?, h c rfl, finishThen?, run?]
    cases state.finish? with
    | none => rfl
    | some done =>
      show _ = Option.map _ ((start? c).bind _)
      cases start? c with
      | none => rfl
      | some next => cases hrun : run? next.2 rest <;> simp [hrun]

theorem run?_cons {c : Char} {state : Lexing} (h : start? c = some ([], state)) (t : Text) :
    between.run? (c :: t) = state.run? t := by
  rw [run?, step?, h]
  cases hrun : state.run? t <;> simp [hrun]

section
variable {collect : Text → Lexing} {accepts : Char → Bool}
  (hstep : ∀ cs c, (collect cs).step? c =
    if accepts c then some ([], collect (c :: cs)) else (collect cs).finishThen? c)
include hstep

theorem run?_collect (ht : ∀ c ∈ t, accepts c = true) (cs : Text) :
    (collect cs).run? (t ++ rest) = (collect (t.reverse ++ cs)).run? rest := by
  induction t generalizing cs with
  | nil => rfl
  | cons c t ih =>
    rw [List.forall_mem_cons] at ht
    simp [run?, hstep, ht.1, ih ht.2]

theorem run?_collected {c : Char} (hc : start? c = some ([], collect [c]))
    (ht : ∀ d ∈ t, accepts d = true) (hrest : ∀ d ∈ rest.head?, accepts d = false)
    (hfinish : (collect (t.reverse ++ [c])).finish? = some [.value v]) :
    between.run? (c :: t ++ rest) = (between.run? rest).map (.value v :: ·) := by
  have hends : ∀ d ∈ rest.head?, (collect (t.reverse ++ [c])).step? d =
      (collect (t.reverse ++ [c])).finishThen? d := fun d hd => by simp [hstep, hrest d hd]
  rw [List.cons_append, run?_cons hc, run?_collect hstep ht, run?_of_finish hends, hfinish]
  rfl

end

theorem run?_numeric (ht : Numeric t) (hv : (Numeral.ofText? t).bind Numeral.toJson? = some v)
    (hrest : Ends rest) : between.run? (t ++ rest) = (between.run? rest).map (.value v :: ·) := by
  obtain ⟨c, u, rfl, hc⟩ := ht.first
  have hstart : start? c = some ([], number [c]) := by
    unfold start?
    split
    case h_12 => exact if_pos hc
    all_goals exact absurd hc (by decide)
  have hu : ∀ d ∈ u, isNumeric d = true := fun d hd => ht.isNumeric d (List.mem_cons_of_mem c hd)
  exact run?_collected (fun _ _ => rfl) hstart hu (fun d hd => (hrest d hd).1)
    (by simp [finish?, hv])

theorem run?_letters {c : Char} (hc : start? c = some ([], word [c]))
    (ht : ∀ d ∈ t, d.isLower = true) (hv : wordValue? (c :: t) = some v) (hrest : Ends rest) :
    between.run? (c :: t ++ rest) = (between.run? rest).map (.value v :: ·) :=
  run?_collected (fun _ _ => rfl) hc ht (fun d hd => (hrest d hd).2) (by simp [finish?, hv])

/-! ### Strings -/

/-- Pieces of a string that make some characters, whatever pieces follow them. -/
def Spells (pieces : List Piece) (t : Text) : Prop :=
  ∀ more, combine? (pieces ++ more) = (combine? more).map (t ++ ·)

theorem Spells.append {pieces pieces' : List Piece} {u : Text} (h : Spells pieces t)
    (h' : Spells pieces' u) : Spells (pieces ++ pieces') (t ++ u) := by
  intro more
  rw [List.append_assoc, h, h', Option.map_map]
  exact congrArg (Option.map · _) (funext fun u' => (List.append_assoc t u u').symm)

theorem hexDigit?_hexDigit : ∀ d < 16, hexDigit? (hexDigit d) = some d := by decide

/-- What stands inside quotes for a character is read as one piece, which makes the character. -/
theorem exists_piece (c : Char) : ∃ piece, Spells [piece] [c] ∧
    ∀ pieces rest,
      (quoted pieces).run? (escape c ++ rest) = (quoted (piece :: pieces)).run? rest := by
  have hchar : Spells [.char c] [c] := fun more => by simp [combine?]
  unfold escape
  split
  case h_8 hquote hslash _ _ _ _ _ =>
    rw [imp_false] at hquote hslash
    split
    · next hlow =>
      refine ⟨.unit c.toNat, fun more => ?_, fun pieces rest => ?_⟩
      · have hhigh : ¬ (0xD800 ≤ c.toNat ∧ c.toNat < 0xDC00) := by omega
        have hhigh' : ¬ (0xDC00 ≤ c.toNat ∧ c.toNat < 0xE000) := by omega
        rw [List.singleton_append, combine?.eq_def]
        simp [hhigh, hhigh', Char.ofNat_toNat]
      · have hfirst := hexDigit?_hexDigit (c.toNat / 16) (by omega)
        have hsecond := hexDigit?_hexDigit (c.toNat % 16) (by omega)
        have hzero : hexDigit? '0' = some 0 := rfl
        have hvalue : 16 * (c.toNat / 16) + c.toNat % 16 = c.toNat := Nat.div_add_mod _ _
        simp [run?, step?, hfirst, hsecond, hzero, hvalue]
    · next hlow =>
      refine ⟨.char c, hchar, fun pieces rest => ?_⟩
      simp [run?, step?, hquote, hslash, hlow]
  all_goals
    exact ⟨.char _, hchar, fun pieces rest => by simp [run?, step?, escape?]⟩

/-- The characters between quotes are read as the string that they are written for. -/
theorem run?_escaped {pieces : List Piece} {u : Text} (h : Spells pieces.reverse u)
    (t rest : Text) :
    (quoted pieces).run? (t.flatMap escape ++ '"' :: rest) =
      (between.run? rest).map (.value (string (u ++ t)) :: ·) := by
  induction t generalizing pieces u with
  | nil =>
    have hu : combine? pieces.reverse = some u := by simpa [combine?] using h []
    cases hrun : between.run? rest <;> simp [run?, step?, hu, hrun]
  | cons c t ih =>
    obtain ⟨piece, hpiece, hread⟩ := exists_piece c
    have hmore : Spells (piece :: pieces).reverse (u ++ [c]) := by
      rw [List.reverse_cons]
      exact h.append hpiece
    rw [List.flatMap_cons, List.append_assoc, hread, ih hmore, List.append_assoc]
    rfl

theorem run?_quote (t rest : Text) :
    between.run? (quote t ++ rest) = (between.run? rest).map (.value (string t) :: ·) := by
  have hnil : Spells ([] : List Piece).reverse [] := fun more => by simp
  have h := run?_escaped hnil t rest
  rw [quote, List.cons_append, List.cons_append, run?_cons rfl, List.append_assoc]
  exact h

end Lexing

/-! ## Values -/

/-- A value with at most `room` containers inside each other, integers of 64 bits, and doubles of
some kind. -/
inductive Bounded (p : UInt64 → Prop) : Nat → Json → Prop
  | null {room : Nat} : Bounded p room null
  | bool {room : Nat} (b : Bool) : Bounded p room (bool b)
  | integer {room : Nat} {i : Int} : -0x8000000000000000 ≤ i → i < 0x10000000000000000 →
      Bounded p room (integer i)
  | double {room : Nat} {bits : UInt64} : p bits → Bounded p room (double bits)
  | string {room : Nat} (t : Text) : Bounded p room (string t)
  | array {room : Nat} {items : List Json} : (∀ v ∈ items, Bounded p room v) →
      Bounded p (room + 1) (array items)
  | object {room : Nat} {members : List (Text × Json)} : (∀ m ∈ members, Bounded p room m.2) →
      Bounded p (room + 1) (object members)

/-- Reads a text between tokens, from a state of the reader. -/
def readFrom? (outer : List Frame) (next : Awaiting) (t : Text) : Option Json :=
  (Lexing.between.run? t).bind (readTokens? outer next)

section
variable {outer outer' : List Frame} {next : Awaiting} {rest : Text} {v : Json} {room : Nat}

theorem readFrom?_token {t : Text} {token : Token}
    (h : Lexing.between.run? (t ++ rest) = (Lexing.between.run? rest).map (token :: ·)) :
    readFrom? outer next (t ++ rest) =
      (advance? outer next token).bind fun s => readFrom? s.1 s.2 rest := by
  rw [readFrom?, h]
  cases hrun : Lexing.between.run? rest with
  | none => simp [readFrom?, hrun]
  | some tokens => simp [readFrom?, hrun, readTokens?]

theorem readFrom?_symbol {c : Char} (token : Token)
    (h : Lexing.start? c = some ([token], .between)) :
    readFrom? outer next (c :: rest) =
      (advance? outer next token).bind fun s => readFrom? s.1 s.2 rest := by
  refine readFrom?_token (t := [c]) ?_
  rw [List.singleton_append, Lexing.run?, Lexing.step?, h]
  cases hrun : Lexing.between.run? rest <;> simp [hrun]

/-- What may come next is a value inside some containers. -/
def Starts (outer : List Frame) (next : Awaiting) (outer' : List Frame) : Prop :=
  ∀ token, token ≠ .closeArray → advance? outer next token = beginValue? outer' token

theorem starts_value (outer : List Frame) : Starts outer .value outer := fun _ _ => rfl

theorem starts_firstItem (outer : List Frame) : Starts outer .firstItem (.array [] :: outer) := by
  intro token htoken
  cases token with
  | closeArray => exact absurd rfl htoken
  | _ => rfl

/-- Reading the compact form of a value delivers the value to the containers around it. -/
def Delivers (room : Nat) (v : Json) : Prop :=
  ∀ outer next outer' rest, outer'.length + room ≤ depthLimit → Starts outer next outer' →
    Ends rest → readFrom? outer next (compact v ++ rest) =
      readFrom? (deliver v outer').1 (deliver v outer').2 rest

theorem ends_cons {c : Char} (hc : c ∈ [',', ']', '}']) (t : Text) : Ends (c :: t) := by
  intro d hd
  obtain rfl : c = d := Option.some.inj hd
  simp only [List.mem_cons, List.not_mem_nil, or_false] at hc
  rcases hc with rfl | rfl | rfl <;> decide

theorem Delivers.of_token
    (h : ∀ rest, Ends rest → Lexing.between.run? (compact v ++ rest) =
      (Lexing.between.run? rest).map (.value v :: ·)) : Delivers room v := by
  intro outer next outer' rest _ hstarts hrest
  rw [readFrom?_token (h rest hrest), hstarts _ (by simp)]
  rfl

theorem readFrom?_items {items : List Json} (hitems : items ≠ [])
    (h : ∀ v ∈ items, Delivers room v) (hdepth : outer'.length + (room + 1) ≤ depthLimit)
    (done : List Json) (hstarts : Starts outer next (.array done :: outer')) (rest : Text) :
    readFrom? outer next (compactItems items ++ ']' :: rest) =
      readFrom? (deliver (array (done.reverse ++ items)) outer').1
        (deliver (array (done.reverse ++ items)) outer').2 rest := by
  have hroom : ∀ done, (Frame.array done :: outer').length + room ≤ depthLimit := fun done => by
    rw [List.length_cons]
    omega
  -- the first item may come where an array has just been opened, every other one behind a comma
  induction items generalizing outer next done with
  | nil => exact absurd rfl hitems
  | cons v more ih =>
    have hv := h v List.mem_cons_self
    cases more with
    | nil =>
      rw [compactItems, hv _ _ _ _ (hroom done) hstarts (ends_cons (by simp) rest)]
      rw [deliver, readFrom?_symbol .closeArray rfl, advance?, List.reverse_cons]
      rfl
    | cons w more =>
      have hrest : Ends (',' :: (compactItems (w :: more) ++ ']' :: rest)) :=
        ends_cons (by simp) _
      rw [compactItems, List.append_assoc, List.cons_append,
        hv _ _ _ _ (hroom done) hstarts hrest]
      rw [deliver, readFrom?_symbol .comma rfl, advance?, Option.bind_some,
        ih (by simp) (fun v hv => h v (List.mem_cons_of_mem _ hv)) (v :: done) (starts_value _)]
      simp

/-- A member is read where a key may come, and is put to those that are there. -/
theorem readFrom?_member (hv : Delivers room v) (hdepth : outer.length + (room + 1) ≤ depthLimit)
    {done : List (Text × Json)}
    (hstarts : ∀ k, advance? outer next (.value (string k)) = some (outer, .colon done k))
    (k : Text) (hrest : Ends rest) :
    readFrom? outer next (quote k ++ ':' :: compact v ++ rest) =
      readFrom? outer (.afterMember ((k, v) :: done)) rest := by
  have hroom : (Frame.object done k :: outer).length + room ≤ depthLimit := by
    rw [List.length_cons]
    omega
  rw [List.append_assoc, List.cons_append, readFrom?_token (Lexing.run?_quote k _), hstarts,
    Option.bind_some, readFrom?_symbol .colon rfl, advance?, Option.bind_some,
    hv _ _ _ _ hroom (starts_value _) hrest]
  rfl

theorem readFrom?_members {members : List (Text × Json)} (hmembers : members ≠ [])
    (h : ∀ m ∈ members, Delivers room m.2) (hdepth : outer.length + (room + 1) ≤ depthLimit)
    (done : List (Text × Json))
    (hstarts : ∀ k, advance? outer next (.value (string k)) = some (outer, .colon done k))
    (rest : Text) :
    readFrom? outer next (compactMembers members ++ '}' :: rest) =
      readFrom? (deliver (object (done.reverse ++ members)) outer).1
        (deliver (object (done.reverse ++ members)) outer).2 rest := by
  induction members generalizing next done with
  | nil => exact absurd rfl hmembers
  | cons m more ih =>
    obtain ⟨k, v⟩ := m
    have hv := h (k, v) List.mem_cons_self
    cases more with
    | nil =>
      rw [compactMembers, readFrom?_member hv hdepth hstarts k (ends_cons (by simp) rest),
        readFrom?_symbol .closeObject rfl, advance?, List.reverse_cons]
      rfl
    | cons m more =>
      have hrest : Ends (',' :: (compactMembers (m :: more) ++ '}' :: rest)) :=
        ends_cons (by simp) _
      have hmore : ∀ m' ∈ m :: more, Delivers room m'.2 := fun m' hm' =>
        h m' (List.mem_cons_of_mem _ hm')
      rw [compactMembers, List.append_assoc, List.cons_append,
        readFrom?_member hv hdepth hstarts k hrest, readFrom?_symbol .comma rfl, advance?,
        Option.bind_some, ih (by simp) hmore ((k, v) :: done) fun k => rfl]
      simp

theorem Bounded.delivers (h : Bounded (· = minusZero) room v) : Delivers room v := by
  induction h with
  | null =>
    exact .of_token fun rest => Lexing.run?_letters (c := 'n') rfl (List.all_eq_true.mp rfl) rfl
  | bool b =>
    cases b with
    | false =>
      exact .of_token fun rest => Lexing.run?_letters (c := 'f') rfl (List.all_eq_true.mp rfl) rfl
    | true =>
      exact .of_token fun rest => Lexing.run?_letters (c := 't') rfl (List.all_eq_true.mp rfl) rfl
  | @integer _ i hlow hhigh =>
    exact .of_token fun rest =>
      Lexing.run?_numeric (numeric_integerText i) (read_integerText hlow hhigh)
  | double hbits =>
    obtain rfl := hbits
    exact .of_token fun rest => Lexing.run?_numeric numeric_minusZero read_minusZero
  | string t => exact .of_token fun rest _ => Lexing.run?_quote t rest
  | @array room items _ ih =>
    intro outer next outer' rest hdepth hstarts _
    have hlt : outer'.length < depthLimit := by omega
    rw [compact, List.cons_append, List.cons_append, readFrom?_symbol .openArray rfl,
      hstarts _ (by simp), beginValue?, if_pos hlt, Option.bind_some, List.append_assoc]
    cases items with
    | nil =>
      show readFrom? outer' .firstItem (']' :: rest) = _
      rw [readFrom?_symbol .closeArray rfl]
      rfl
    | cons v more =>
      exact readFrom?_items (by simp) ih hdepth [] (starts_firstItem outer') rest
  | @object room members _ ih =>
    intro outer next outer' rest hdepth hstarts _
    have hlt : outer'.length < depthLimit := by omega
    rw [compact, List.cons_append, List.cons_append, readFrom?_symbol .openObject rfl,
      hstarts _ (by simp), beginValue?, if_pos hlt, Option.bind_some, List.append_assoc]
    cases members with
    | nil =>
      show readFrom? outer' .firstKey ('}' :: rest) = _
      rw [readFrom?_symbol .closeObject rfl]
      rfl
    | cons m more =>
      exact readFrom?_members (by simp) ih hdepth [] (fun k => rfl) rest

end

theorem Bounded.ofText?_compact {v : Json} (h : Bounded (· = minusZero) depthLimit v) :
    ofText? (compact v) = some v := by
  have hread := h.delivers [] .value [] [] (by simp) (starts_value []) (by simp [Ends])
  rw [List.append_nil] at hread
  exact hread

end IncrementalBuild.Json
