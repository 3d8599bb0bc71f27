import IncrementalBuild.Proofs.RememberedAnalyses
import IncrementalBuild.Proofs.TextParts
/-!
# Known targets

The editions of the language are a few names, and `es` with a year from 2015 on. What is stated
here: whatever the sources are, the compiler accepts a target exactly if in lower case it is an
edition, or an edition whose year has a plus sign before it. Every other target is refused by an
error that quotes it as it is written.
-/
namespace IncrementalBuild

namespace Compile

/-- The digits of a year that has an edition: one or more, for a number of 32 bits. -/
structure IsYear (digits : Text) : Prop where
  ne_nil : digits ≠ []
  isDigit : ∀ c ∈ digits, c.isDigit = true
  first_le : 2015 ≤ Nat.ofDigitChars 10 digits 0
  lt_size : Nat.ofDigitChars 10 digits 0 < UInt32.size

/-- The editions of the language. -/
inductive Edition : Text → Prop
  | es3 : Edition "es3".toList
  | es5 : Edition "es5".toList
  | es6 : Edition "es6".toList
  | esnext : Edition "esnext".toList
  | year {digits : Text} : IsYear digits → Edition ("es".toList ++ digits)

/-- An edition whose year has a plus sign before it. -/
def SignedEdition (t : Text) : Prop := ∃ digits, IsYear digits ∧ t = "es+".toList ++ digits

/-- A number of 32 bits is written with digits, which a plus sign may stand before. -/
theorem number32?_eq_some_iff {t : Text} {n : Nat} : number32? t = some n ↔
    ∃ digits, (t = digits ∨ t = '+' :: digits) ∧ digits ≠ [] ∧ (∀ c ∈ digits, c.isDigit = true) ∧
      Nat.ofDigitChars 10 digits 0 = n ∧ n < UInt32.size := by
  have hread : ∀ digits : Text, (if digits ≠ [] ∧ digits.all Char.isDigit then
      if Nat.ofDigitChars 10 digits 0 < UInt32.size then some (Nat.ofDigitChars 10 digits 0)
        else none
      else none) = some n ↔ digits ≠ [] ∧ (∀ c ∈ digits, c.isDigit = true) ∧
        Nat.ofDigitChars 10 digits 0 = n ∧ n < UInt32.size := by
    intro digits
    simp only [List.all_eq_true]
    constructor
    · intro h
      split_ifs at h with hdigits hlt
      obtain rfl := Option.some.inj h
      exact ⟨hdigits.1, hdigits.2, rfl, hlt⟩
    · rintro ⟨hne, hdigits, rfl, hlt⟩
      rw [if_pos ⟨hne, hdigits⟩, if_pos hlt]
  refine (hread ((Text.after? ['+'] t).getD t)).trans ?_
  cases hsign : Text.after? ['+'] t with
  | some digits =>
    have ht : t = '+' :: digits := (Text.after?_eq hsign).symm
    constructor
    · exact fun h => ⟨digits, .inr ht, h⟩
    · rintro ⟨other, rfl | hother, h⟩
      · -- a plus sign is no digit
        exact absurd (h.2.1 '+' (ht ▸ List.mem_cons_self)) (by decide)
      · obtain rfl : digits = other := (List.cons.inj (ht.symm.trans hother)).2
        exact h
  | none =>
    have hunsigned : ∀ digits, t ≠ '+' :: digits := fun digits ht =>
      Text.after?_eq_none_iff.mp hsign ⟨digits, ht.symm⟩
    constructor
    · exact fun h => ⟨t, .inl rfl, h⟩
    · rintro ⟨digits, rfl | hother, h⟩
      · exact h
      · exact absurd hother (hunsigned digits)

/-- A target is known exactly if in lower case it is an edition, with a sign or not. -/
theorem isTarget_iff {t : Text} :
    isTarget t = true ↔ Edition (Text.lowercase t) ∨ SignedEdition (Text.lowercase t) := by
  unfold isTarget
  generalize Text.lowercase t = t
  rw [Bool.or_eq_true, Option.any_eq_true]
  have hyear : (∃ n, (Text.after? "es" t).bind number32? = some n ∧ decide (2015 ≤ n) = true) ↔
      ∃ digits, IsYear digits ∧ (t = "es".toList ++ digits ∨ t = "es+".toList ++ digits) := by
    constructor
    · rintro ⟨n, hn, hfirst⟩
      obtain ⟨rest, hrest, hnumber⟩ := Option.bind_eq_some_iff.mp hn
      obtain ⟨digits, hsign, hne, hdigits, rfl, hlt⟩ := number32?_eq_some_iff.mp hnumber
      refine ⟨digits, ⟨hne, hdigits, of_decide_eq_true hfirst, hlt⟩, ?_⟩
      rw [← Text.after?_eq hrest]
      rcases hsign with rfl | rfl
      · exact .inl rfl
      · exact .inr rfl
    · rintro ⟨digits, hyear, ht⟩
      refine ⟨_, ?_, decide_eq_true hyear.first_le⟩
      have hnumber : ∀ rest, (rest = digits ∨ rest = '+' :: digits) →
          number32? rest = some (Nat.ofDigitChars 10 digits 0) := fun rest hrest =>
        number32?_eq_some_iff.mpr
          ⟨digits, hrest, hyear.ne_nil, hyear.isDigit, rfl, hyear.lt_size⟩
      rcases ht with rfl | rfl
      · rw [Text.after?_append, Option.bind_some, hnumber _ (.inl rfl)]
      · have hafter : Text.after? "es" ("es+".toList ++ digits) = some ('+' :: digits) :=
          Text.after?_append "es" ('+' :: digits)
        rw [hafter, Option.bind_some, hnumber _ (.inr rfl)]
  rw [hyear]
  constructor
  · rintro (hnamed | ⟨digits, hdigits, rfl | ht⟩)
    · simp only [namedTargets, List.any_cons, List.any_nil, Bool.or_false, Bool.or_eq_true,
        beq_iff_eq] at hnamed
      rcases hnamed with rfl | rfl | rfl | rfl
      · exact .inl .es3
      · exact .inl .es5
      · exact .inl .es6
      · exact .inl .esnext
    · exact .inl (.year hdigits)
    · exact .inr ⟨digits, hdigits, ht⟩
  · rintro ((_ | _ | _ | _ | hdigits) | ⟨digits, hdigits, ht⟩)
    · exact .inl (by decide)
    · exact .inl (by decide)
    · exact .inl (by decide)
    · exact .inl (by decide)
    · exact .inr ⟨_, hdigits, .inl rfl⟩
    · exact .inr ⟨digits, hdigits, .inr ht⟩

end Compile

namespace PassThrough

open Compile

/-- The compiler accepts the editions, and their years with a plus sign. Every other target is
refused by an error with the target as it is written, and the memory of the compiler stays. -/
theorem compile_accepts_targets (config : BuildConfiguration) (t : Text)
    (htarget : config.options.target = some t) (sources : Cache) (changes : ChangeSet) (m : Memo) :
    ((∃ result, (compile config sources changes m).1 = .ok result) ↔
      Edition (Text.lowercase t) ∨ SignedEdition (Text.lowercase t)) ∧
    (¬ (Edition (Text.lowercase t) ∨ SignedEdition (Text.lowercase t)) →
      compile config sources changes m =
        (.error (.invalidOption "target" ("unknown target '".toList ++ t ++ "'".toList)), m)) := by
  have hfault : targetFault? config.options.target = if isTarget t then none
      else some (.invalidOption "target" ("unknown target '".toList ++ t ++ "'".toList)) := by
    rw [htarget]
    rfl
  have hrefused : ¬ isTarget t = true → compile config sources changes m =
      (.error (.invalidOption "target" ("unknown target '".toList ++ t ++ "'".toList)), m) :=
    fun h => compile_refused (by rw [hfault, if_neg h]) sources changes m
  rw [← isTarget_iff]
  refine ⟨⟨?_, fun h => ?_⟩, hrefused⟩
  · rintro ⟨result, hresult⟩
    by_contra h
    rw [hrefused h] at hresult
    cases hresult
  · rw [compile_accepted (by rw [hfault, if_pos h]) sources changes m]
    exact ⟨_, rfl⟩

/-- A configuration with nothing but a target. -/
def targeting (t : Text) : BuildConfiguration :=
  .of "/p/project.json" { ProjectConfig.empty with options := { CompilerOptions.empty with
    target := some t } } .initial

/-- The year fits 32 bits whatever zeros stand before it, and case does not matter. -/
theorem compile_accepts_padded_year :
    (targeting "Es0004294967295".toList).options.target = some "Es0004294967295".toList ∧
    ∃ result, (compile (targeting "Es0004294967295".toList) .empty .empty .empty).1 =
      .ok result := by
  have htarget : (targeting "Es0004294967295".toList).options.target =
    some "Es0004294967295".toList := rfl
  have hyear : IsYear "0004294967295".toList :=
    ⟨by decide, List.all_eq_true.mp rfl, by decide, by decide⟩
  exact ⟨htarget,
    (compile_accepts_targets _ _ htarget .empty .empty .empty).1.mpr (.inl (.year hyear))⟩

/-- A year with a plus sign is accepted, though no edition is written so. -/
theorem signed_year_accepted :
    ¬ Edition (Text.lowercase "es+2015".toList) ∧
    compile (targeting "es+2015".toList) .empty .empty .empty = (.ok .empty, .empty) := by
  refine ⟨fun h => ?_, by decide +kernel⟩
  generalize ht : Text.lowercase "es+2015".toList = t at h
  cases h with
  | @year digits hyear =>
    have hdigits : "+2015".toList = digits := (List.append_right_inj "es".toList).mp ht
    exact absurd (hyear.isDigit '+' (hdigits ▸ List.mem_cons_self)) (by decide)
  | _ => exact absurd ht (by decide)

end PassThrough

end IncrementalBuild
