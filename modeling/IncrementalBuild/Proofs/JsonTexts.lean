import IncrementalBuild.Json.Reader
/-!
# Texts of JSON

Outside its strings a text of JSON has no slash. This is so for every text that the grammar of
JSON derives, however deep its containers are and however large its numbers, and for every text
that the reader accepts.
-/
namespace IncrementalBuild

namespace Text

/-- The characters of a string between its quotes: a backslash takes the next character with
it. -/
inductive StringBody : Text → Prop
  | nil : StringBody []
  | char {c : Char} {t : Text} : c ≠ '"' → c ≠ '\\' → StringBody t → StringBody (c :: t)
  | escape (c : Char) {t : Text} : StringBody t → StringBody ('\\' :: c :: t)

/-- Strings, and between them characters that are neither quotes nor slashes. -/
inductive Slashless : Text → Prop
  | nil : Slashless []
  | char {c : Char} {t : Text} : c ≠ '"' → c ≠ '/' → Slashless t → Slashless (c :: t)
  | string {body t : Text} : StringBody body → Slashless t →
      Slashless ('"' :: (body ++ '"' :: t))

theorem Slashless.append {t u : Text} (h : Slashless t) (hu : Slashless u) :
    Slashless (t ++ u) := by
  induction h with
  | nil => exact hu
  | char hquote hslash _ ih => exact .char hquote hslash ih
  | string hbody _ ih =>
    rw [List.cons_append, List.append_assoc]
    exact .string hbody ih

theorem slashless_of_forall {t : Text} (h : ∀ c ∈ t, c ≠ '"' ∧ c ≠ '/') : Slashless t := by
  induction t with
  | nil => exact .nil
  | cons c t ih =>
    obtain ⟨hquote, hslash⟩ := h c List.mem_cons_self
    exact .char hquote hslash (ih fun x hx => h x (List.mem_cons_of_mem c hx))

end Text

namespace Json

open Text

/-! ## The grammar -/

def Spaces (t : Text) : Prop := ∀ c ∈ t, c ∈ [' ', '\t', '\n', '\r']

def Digits (t : Text) : Prop := t ≠ [] ∧ ∀ c ∈ t, c.isDigit = true

/-- A number: a sign, digits without leading zeros, and perhaps a fraction and an exponent. -/
inductive Number : Text → Prop
  | parts {sign whole fraction exponent : Text} : sign ∈ [[], ['-']] → Digits whole →
      (whole.head? = some '0' → whole = ['0']) →
      (fraction = [] ∨ ∃ digits, Digits digits ∧ fraction = '.' :: digits) →
      (exponent = [] ∨ ∃ e s digits, e ∈ ['e', 'E'] ∧ s ∈ [[], ['+'], ['-']] ∧ Digits digits ∧
        exponent = e :: (s ++ digits)) →
      Number (sign ++ (whole ++ (fraction ++ exponent)))

/-- The characters of a string between its quotes, as JSON has them. -/
inductive Characters : Text → Prop
  | nil : Characters []
  | plain {c : Char} {t : Text} : 0x20 ≤ c.toNat → c ≠ '"' → c ≠ '\\' → Characters t →
      Characters (c :: t)
  | escape {c : Char} {t : Text} : (escape? c).isSome → Characters t → Characters ('\\' :: c :: t)
  | unit {digits t : Text} : digits.length = 4 → (∀ c ∈ digits, (hexDigit? c).isSome) →
      Characters t → Characters ('\\' :: 'u' :: (digits ++ t))

inductive Symbol where
  | value
  | element
  | elements
  | member
  | members

/-- The texts that a symbol derives. -/
inductive Derives : Symbol → Text → Prop
  | word {t : Text} : (wordValue? t).isSome → Derives .value t
  | number {t : Text} : Number t → Derives .value t
  | string {t : Text} : Characters t → Derives .value ('"' :: (t ++ ['"']))
  | emptyArray {b : Text} : Spaces b → Derives .value ('[' :: (b ++ [']']))
  | array {t : Text} : Derives .elements t → Derives .value ('[' :: (t ++ [']']))
  | emptyObject {b : Text} : Spaces b → Derives .value ('{' :: (b ++ ['}']))
  | object {t : Text} : Derives .members t → Derives .value ('{' :: (t ++ ['}']))
  | element {b t b' : Text} : Spaces b → Derives .value t → Spaces b' →
      Derives .element (b ++ (t ++ b'))
  | lastElement {t : Text} : Derives .element t → Derives .elements t
  | elements {t u : Text} : Derives .element t → Derives .elements u →
      Derives .elements (t ++ ',' :: u)
  | member {b k b' t : Text} : Spaces b → Characters k → Spaces b' → Derives .element t →
      Derives .member (b ++ '"' :: (k ++ '"' :: (b' ++ ':' :: t)))
  | lastMember {t : Text} : Derives .member t → Derives .members t
  | members {t u : Text} : Derives .member t → Derives .members u →
      Derives .members (t ++ ',' :: u)

/-- A text of JSON: one value, with white space around it. -/
def Document (t : Text) : Prop := Derives .element t

/-! ## What the grammar derives -/

theorem Spaces.slashless {t : Text} (h : Spaces t) : Slashless t := by
  apply slashless_of_forall
  intro c hc
  have hspace := h c hc
  constructor <;> rintro rfl <;> simp at hspace

theorem Digits.slashless {t : Text} (h : Digits t) : Slashless t := by
  apply slashless_of_forall
  intro c hc
  have hdigit := h.2 c hc
  constructor <;> rintro rfl <;> exact absurd hdigit (by decide)

theorem Number.slashless {t : Text} (h : Number t) : Slashless t := by
  obtain ⟨hsign, hwhole, _, hfraction, hexponent⟩ := h
  have hsigns : ∀ s ∈ [[], ['+'], ['-']], Slashless s := by
    intro s hs
    apply slashless_of_forall
    intro c hc
    simp only [List.mem_cons, List.not_mem_nil, or_false] at hs
    rcases hs with rfl | rfl | rfl <;> simp_all
  refine (hsigns _ ?_).append (hwhole.slashless.append (.append ?_ ?_))
  · simp only [List.mem_cons, List.not_mem_nil, or_false] at hsign ⊢
    exact hsign.imp_right Or.inr
  · rcases hfraction with rfl | ⟨digits, hdigits, rfl⟩
    · exact .nil
    · exact .char (by decide) (by decide) hdigits.slashless
  · rcases hexponent with rfl | ⟨e, s, digits, he, hs, hdigits, rfl⟩
    · exact .nil
    · simp only [List.mem_cons, List.not_mem_nil, or_false] at he
      rcases he with rfl | rfl
      · exact .char (by decide) (by decide) ((hsigns s hs).append hdigits.slashless)
      · exact .char (by decide) (by decide) ((hsigns s hs).append hdigits.slashless)

theorem stringBody_hex {digits t : Text} (hdigits : ∀ c ∈ digits, (hexDigit? c).isSome)
    (ht : StringBody t) : StringBody (digits ++ t) := by
  induction digits with
  | nil => exact ht
  | cons c digits ih =>
    have hc := hdigits c List.mem_cons_self
    refine .char ?_ ?_ (ih fun x hx => hdigits x (List.mem_cons_of_mem c hx)) <;>
      rintro rfl <;> exact absurd hc (by decide)

theorem Characters.stringBody {t : Text} (h : Characters t) : StringBody t := by
  induction h with
  | nil => exact .nil
  | plain _ hquote hslash _ ih => exact .char hquote hslash ih
  | @escape c _ _ _ ih => exact .escape c ih
  | unit _ hdigits _ ih => exact .escape 'u' (stringBody_hex hdigits ih)

theorem slashless_of_word {t : Text} (h : (wordValue? t).isSome) : Slashless t := by
  apply slashless_of_forall
  unfold wordValue? at h
  split at h
  · next ht => simp [ht]
  · split at h
    · next ht => simp [ht]
    · split at h
      · next ht => simp [ht]
      · cases h

theorem Derives.slashless {s : Symbol} {t : Text} (h : Derives s t) : Slashless t := by
  have hbetween : ∀ {a b : Char} {t : Text}, a ≠ '"' → a ≠ '/' → b ≠ '"' → b ≠ '/' →
      Slashless t → Slashless (a :: (t ++ [b])) := fun ha ha' hb hb' ht =>
    .char ha ha' (ht.append (.char hb hb' .nil))
  induction h with
  | word hword => exact slashless_of_word hword
  | number hnumber => exact hnumber.slashless
  | string hbody => exact .string hbody.stringBody .nil
  | emptyArray hb =>
    exact hbetween (by decide) (by decide) (by decide) (by decide) hb.slashless
  | array _ ih => exact hbetween (by decide) (by decide) (by decide) (by decide) ih
  | emptyObject hb =>
    exact hbetween (by decide) (by decide) (by decide) (by decide) hb.slashless
  | object _ ih => exact hbetween (by decide) (by decide) (by decide) (by decide) ih
  | element hb _ hb' ih => exact hb.slashless.append (ih.append hb'.slashless)
  | lastElement _ ih => exact ih
  | elements _ _ ih ih' => exact ih.append (.char (by decide) (by decide) ih')
  | member hb hk hb' _ ih =>
    refine hb.slashless.append (.string hk.stringBody (hb'.slashless.append ?_))
    exact .char (by decide) (by decide) ih
  | lastMember _ ih => exact ih
  | members _ _ ih ih' => exact ih.append (.char (by decide) (by decide) ih')

/-! ## What the reader accepts -/

/-- A text that starts inside a string. -/
def InString (t : Text) : Prop :=
  ∃ body rest, t = body ++ '"' :: rest ∧ StringBody body ∧ Slashless rest

/-- What a text is of which the automaton read the first part. -/
def Lexing.Fits : Lexing → Text → Prop
  | .between, t | .word _, t | .number _, t => Slashless t
  | .quoted _, t | .hex _ _ _, t => InString t
  | .escaped _, t => ∃ c rest, t = c :: rest ∧ InString rest

theorem InString.cons {c : Char} {t : Text} (hquote : c ≠ '"') (hslash : c ≠ '\\')
    (h : InString t) : InString (c :: t) := by
  obtain ⟨body, rest, rfl, hbody, hrest⟩ := h
  exact ⟨c :: body, rest, rfl, .char hquote hslash hbody, hrest⟩

section
variable {c : Char} {rest : Text} {tokens : List Token} {state next : Lexing}

theorem slashless_of_start? (h : Lexing.start? c = some (tokens, next)) (hrest : next.Fits rest) :
    Slashless (c :: rest) := by
  have hslash : c ≠ '/' := by
    rintro rfl
    have hnone : Lexing.start? '/' = none := by decide
    exact absurd (hnone.symm.trans h) (by simp)
  unfold Lexing.start? at h
  split at h
  case h_11 =>
    obtain ⟨_, rfl⟩ := Prod.mk.inj (Option.some.inj h)
    obtain ⟨body, after, rfl, hbody, hafter⟩ := hrest
    exact .string hbody hafter
  case h_12 hquote =>
    split at h
    · obtain ⟨_, rfl⟩ := Prod.mk.inj (Option.some.inj h)
      exact .char hquote hslash hrest
    · split at h
      · obtain ⟨_, rfl⟩ := Prod.mk.inj (Option.some.inj h)
        exact .char hquote hslash hrest
      · cases h
  all_goals
    obtain ⟨_, rfl⟩ := Prod.mk.inj (Option.some.inj h)
    exact .char (by decide) hslash hrest

theorem slashless_of_finishThen? (h : state.finishThen? c = some (tokens, next))
    (hrest : next.Fits rest) : Slashless (c :: rest) := by
  unfold Lexing.finishThen? at h
  split at h
  · next hstart =>
    obtain ⟨_, rfl⟩ := Prod.mk.inj (Option.some.inj h)
    exact slashless_of_start? hstart hrest
  · cases h

theorem fits_of_step? (h : state.step? c = some (tokens, next)) (hrest : next.Fits rest) :
    state.Fits (c :: rest) := by
  unfold Lexing.step? at h
  cases state with
  | between => exact slashless_of_start? h hrest
  | word letters =>
    dsimp only at h
    split at h
    · next hlower =>
      obtain ⟨_, rfl⟩ := Prod.mk.inj (Option.some.inj h)
      refine .char ?_ ?_ hrest <;> rintro rfl <;> exact absurd hlower (by decide)
    · exact slashless_of_finishThen? h hrest
  | number characters =>
    dsimp only at h
    split at h
    · next hnumeric =>
      obtain ⟨_, rfl⟩ := Prod.mk.inj (Option.some.inj h)
      refine .char ?_ ?_ hrest <;> rintro rfl <;> exact absurd hnumeric (by decide)
    · exact slashless_of_finishThen? h hrest
  | quoted pieces =>
    dsimp only at h
    split at h
    · next hquote =>
      obtain ⟨_, _, heq⟩ := Option.map_eq_some_iff.mp h
      obtain ⟨_, rfl⟩ := Prod.mk.inj heq
      exact ⟨[], rest, by rw [hquote]; rfl, .nil, hrest⟩
    · next hquote =>
      split at h
      · next hslash =>
        obtain ⟨_, rfl⟩ := Prod.mk.inj (Option.some.inj h)
        obtain ⟨d, u, rfl, body, after, rfl, hbody, hafter⟩ := hrest
        exact ⟨'\\' :: d :: body, after, by rw [hslash]; rfl, .escape d hbody, hafter⟩
      · next hslash =>
        split at h
        · cases h
        · obtain ⟨_, rfl⟩ := Prod.mk.inj (Option.some.inj h)
          exact InString.cons hquote hslash hrest
  | escaped pieces =>
    refine ⟨c, rest, rfl, ?_⟩
    dsimp only at h
    split at h
    · obtain ⟨_, rfl⟩ := Prod.mk.inj (Option.some.inj h)
      exact hrest
    · obtain ⟨_, _, heq⟩ := Option.map_eq_some_iff.mp h
      obtain ⟨_, rfl⟩ := Prod.mk.inj heq
      exact hrest
  | hex pieces left value =>
    obtain ⟨d, hd, heq⟩ := Option.map_eq_some_iff.mp h
    have hfits : InString rest := by
      dsimp only at heq
      split at heq
      · obtain ⟨_, rfl⟩ := Prod.mk.inj heq
        exact hrest
      · obtain ⟨_, rfl⟩ := Prod.mk.inj heq
        exact hrest
    refine InString.cons ?_ ?_ hfits
    · rintro rfl
      exact absurd hd (by simp [hexDigit?])
    · rintro rfl
      exact absurd hd (by simp [hexDigit?])

end

theorem fits_of_run? {state : Lexing} {t : Text} {tokens : List Token}
    (h : state.run? t = some tokens) : state.Fits t := by
  induction t generalizing state tokens with
  | nil => cases state <;> first | exact .nil | cases h
  | cons c rest ih =>
    unfold Lexing.run? at h
    obtain ⟨⟨first, next⟩, hstep, h⟩ := Option.bind_eq_some_iff.mp h
    obtain ⟨more, hmore, _⟩ := Option.bind_eq_some_iff.mp h
    exact fits_of_step? hstep (ih hmore)

theorem slashless_of_ofText? {t : Text} {v : Json} (h : ofText? t = some v) : Slashless t := by
  obtain ⟨tokens, htokens, _⟩ := Option.bind_eq_some_iff.mp h
  exact fits_of_run? htokens

end Json

end IncrementalBuild
