import IncrementalBuild.Config.Project
import IncrementalBuild.Proofs.BlankedComments
import IncrementalBuild.Proofs.SettledJson
/-!
# Project files

A project file is read into a list of files, the options that mean something, and all other members
as they are. What is stated here: a project that is read can be written and read again and is the
same project then, and no member without a meaning here is lost or changed on the way.
-/
namespace IncrementalBuild

namespace Config

open Json

/-! ## Members without a meaning here -/

/-- Members that are kept under none of some names, once each and in order. -/
structure Kept (names : List String) (extra : Members) : Prop where
  inOrder : InOrder extra
  unnamed : ∀ m ∈ extra, isNamed names m.1 = false
  settled : ∀ m ∈ extra, Settled m.2

section
variable {names names' : List String} {known extra members : Members} {k : Text} {w : Json}

theorem mem_others : (k, w) ∈ others names members ↔
    isNamed names k = false ∧ ∃ v, (object members).get? k = some v ∧ settle v = w := by
  have hfilter : isNamed names k = false →
      (object (members.filter (!isNamed names ·.1))).get? k = (object members).get? k := fun hk =>
    get?_filter (p := fun k => !isNamed names k) (by simp [hk]) members
  rw [others, mem_sortMembers_settleMembers]
  constructor
  · rintro ⟨v, hv, hw⟩
    have hk : isNamed names k = false := by simpa using (List.mem_filter.mp (mem_of_get? hv)).2
    exact ⟨hk, v, hfilter hk ▸ hv, hw⟩
  · rintro ⟨hk, v, hv, hw⟩
    exact ⟨v, (hfilter hk).trans hv, hw⟩

theorem kept_others (names : List String) (members : Members) :
    Kept names (others names members) where
  inOrder := inOrder_sortMembers _
  unnamed := fun _ hm => (mem_others.mp hm).1
  settled := fun m hm => by
    obtain ⟨_, v, _, hw⟩ := mem_others.mp hm
    exact hw ▸ settled_settle v

theorem Kept.filter_eq_nil (h : Kept names extra) (hnames : names' ⊆ names) :
    extra.filter (isNamed names' ·.1) = [] := by
  rw [List.filter_eq_nil_iff]
  intro m hm hnamed
  have hunnamed := h.unnamed m hm
  rw [isNamed, List.any_eq_false] at hunnamed
  obtain ⟨name, hname, heq⟩ := List.any_eq_true.mp hnamed
  exact hunnamed name (hnames hname) heq

theorem Kept.filter_known (h : Kept names extra) (hknown : ∀ m ∈ known, isNamed names m.1 = true) :
    (known ++ extra).filter (!isNamed names ·.1) = extra := by
  rw [List.filter_append, List.filter_eq_nil_iff.mpr (by simpa using hknown), List.nil_append]
  exact List.filter_eq_self.mpr fun m hm => by simp [h.unnamed m hm]

theorem Kept.others_append (h : Kept names extra) (hknown : ∀ m ∈ known, isNamed names m.1 = true) :
    others names (known ++ extra) = extra := by
  rw [others, h.filter_known hknown,
    settleMembers_of_settled fun m hm => (h.settled m hm).settle_eq, h.inOrder.sortMembers_eq]

/-- The members for the fields that have a value. -/
def present (fields : List (String × Option Json)) : Members :=
  fields.flatMap fun f => (f.2.map (f.1.toList, ·)).toList

theorem filter_present (names : List String) (fields : List (String × Option Json)) :
    (present fields).filter (isNamed names ·.1) =
      present (fields.filter (isNamed names ·.1.toList)) := by
  induction fields with
  | nil => rfl
  | cons f rest ih =>
    obtain ⟨name, v⟩ := f
    rw [present, List.flatMap_cons, List.filter_append, ← present, ih]
    cases hname : isNamed names name.toList with
    | true => cases v <;> simp [present, hname]
    | false => cases v <;> simp [hname]

theorem exists_of_mem_present {fields : List (String × Option Json)} {m : Text × Json}
    (h : m ∈ present fields) : ∃ f ∈ fields, m.1 = f.1.toList ∧ m.2 ∈ f.2 := by
  obtain ⟨f, hf, hmem⟩ := List.mem_flatMap.mp h
  obtain ⟨v, hv, rfl⟩ := Option.map_eq_some_iff.mp (Option.mem_toList.mp hmem)
  exact ⟨f, hf, rfl, hv⟩

theorem isNamed_of_mem_present {fields : List (String × Option Json)}
    (h : ∀ f ∈ fields, f.1 ∈ names) : ∀ m ∈ present fields, isNamed names m.1 = true := by
  intro m hm
  obtain ⟨f, hf, hkey, _⟩ := exists_of_mem_present hm
  exact List.any_eq_true.mpr ⟨f.1, h f hf, beq_iff_eq.mpr hkey.symm⟩

section
variable {fields : List (String × Option Json)} (h : Kept names extra) (hnames : names' ⊆ names)
include h hnames

theorem Kept.single?_present (name : String) {v : Option Json}
    (hfield : fields.filter (isNamed names' ·.1.toList) = [(name, v)]) :
    single? names' (present fields ++ extra) = some v := by
  rw [single?, List.filter_append, h.filter_eq_nil hnames, List.append_nil, filter_present, hfield]
  cases v <;> rfl

theorem Kept.textOption?_present (name : String) {v : Option Text}
    (hfield : fields.filter (isNamed names' ·.1.toList) = [(name, v.map .string)]) :
    textOption? names' (present fields ++ extra) = some v := by
  rw [textOption?, h.single?_present hnames name hfield]
  cases v <;> rfl

end

end

theorem bounded_others {p : UInt64 → Prop} {room : Nat} {members : Members}
    (h : ∀ m ∈ members, Bounded p room m.2) (names : List String) :
    ∀ m ∈ others names members, Bounded p room m.2 := by
  intro m hm
  obtain ⟨_, v, hv, hw⟩ := mem_others.mp hm
  exact hw ▸ (h _ (mem_of_get? hv)).settle

theorem bounded_present {p : UInt64 → Prop} {room : Nat} {fields : List (String × Option Json)}
    (h : ∀ f ∈ fields, ∀ v ∈ f.2, Bounded p room v) : ∀ m ∈ present fields, Bounded p room m.2 := by
  intro m hm
  obtain ⟨f, hf, _, hv⟩ := exists_of_mem_present hm
  exact h f hf m.2 hv

/-! ## Members that are read and written -/

/-- Every member under none of some names is kept, and is written again, with the same value: the
last one that stands for its key. -/
def PassedOn (names : List String) (members extra : Members) (written : Json) : Prop :=
  ∀ key v, key ∉ names.map String.toList → (object members).get? key = some v →
    ∃ w, Same v w ∧ (object extra).get? key = some w ∧ written.get? key = some w

theorem passedOn_others {names : List String} {known : Members}
    (hknown : ∀ m ∈ known, isNamed names m.1 = true) (members : Members) :
    PassedOn names members (others names members) (.object (known ++ others names members)) := by
  intro key v hkey hv
  have hunnamed : isNamed names key = false := by simpa [isNamed] using hkey
  have hkept := kept_others names members
  have hextra : (object (others names members)).get? key = some (settle v) :=
    hkept.inOrder.get?_eq_some_iff.mpr (mem_others.mpr ⟨hunnamed, v, hv, rfl⟩)
  refine ⟨settle v, same_settle v, hextra, ?_⟩
  rw [← get?_filter (p := fun k => !isNamed names k) (by simp [hunnamed]),
    hkept.filter_known hknown]
  exact hextra

theorem get?_of_single? {name : String} {members : Members} {v : Option Json}
    (h : single? [name] members = some v) : (object members).get? name.toList = v := by
  rw [← get?_filter (p := isNamed [name]) (by simp [isNamed])]
  unfold single? at h
  split at h
  · next hfilter =>
    rw [hfilter]
    exact Option.some.inj h
  · next k w hfilter =>
    have hk : name.toList = k := by
      have hnamed := (List.mem_filter.mp (hfilter ▸ List.mem_cons_self)).2
      simpa [isNamed] using hnamed
    rw [hfilter, ← List.nil_append [(k, w)], get?_append_singleton, if_pos hk.symm]
    exact Option.some.inj h
  · cases h

end Config

open Config Json

namespace CompilerOptions

/-- The options that mean something, under their names. -/
def fields (o : CompilerOptions) : List (String × Option Json) :=
  [("rootDir", o.rootDir.map .string), ("out", o.out.map .string), ("outDir", o.outDir.map .string),
    ("declaration", some (.bool o.declaration)), ("target", o.target.map .string),
    ("module", o.module.map .string)]

theorem toJson_eq (o : CompilerOptions) : o.toJson = .object (present o.fields ++ o.extra) := by
  simp [toJson, present, fields, Option.map_map, Function.comp_def]

theorem exists_members {v : Json} {o : CompilerOptions} (h : ofJson? v = some o) :
    ∃ members, v = .object members ∧ o.extra = others names members := by
  cases v with
  | object members =>
    refine ⟨members, rfl, ?_⟩
    unfold ofJson? at h
    simp only [Option.bind_eq_bind, Option.bind_eq_some_iff] at h
    obtain ⟨found, _, h⟩ := h
    cases found <;>
    · simp only [Option.bind_eq_some_iff] at h
      obtain ⟨_, _, _, _, _, _, _, _, _, _, _, _, heq⟩ := h
      cases heq
      rfl
  | _ => cases h

theorem ofJson?_toJson {o : CompilerOptions} (h : Kept names o.extra) :
    ofJson? o.toJson = some o := by
  have hrootDir : textOption? ["rootDir"] (present o.fields ++ o.extra) = some o.rootDir :=
    h.textOption?_present (by decide) "rootDir" (by simp [fields, isNamed])
  have hout : textOption? ["out", "outFile"] (present o.fields ++ o.extra) = some o.out :=
    h.textOption?_present (by decide) "out" (by simp [fields, isNamed])
  have houtDir : textOption? ["outDir"] (present o.fields ++ o.extra) = some o.outDir :=
    h.textOption?_present (by decide) "outDir" (by simp [fields, isNamed])
  have hdeclaration : single? ["declaration"] (present o.fields ++ o.extra) =
      some (some (.bool o.declaration)) :=
    h.single?_present (by decide) "declaration" (by simp [fields, isNamed])
  have htarget : textOption? ["target"] (present o.fields ++ o.extra) = some o.target :=
    h.textOption?_present (by decide) "target" (by simp [fields, isNamed])
  have hmodule : textOption? ["module"] (present o.fields ++ o.extra) = some o.module :=
    h.textOption?_present (by decide) "module" (by simp [fields, isNamed])
  have hothers : others names (present o.fields ++ o.extra) = o.extra :=
    h.others_append (isNamed_of_mem_present (by simp [fields, names]))
  rw [toJson_eq, ofJson?]
  simp [hrootDir, hout, houtDir, hdeclaration, htarget, hmodule, hothers, bool?]

theorem bounded_toJson {p : UInt64 → Prop} {room : Nat} {o : CompilerOptions}
    (h : ∀ m ∈ o.extra, Bounded p room m.2) : Bounded p (room + 1) o.toJson := by
  rw [toJson_eq]
  refine .object fun m hm => (List.mem_append.mp hm).elim (bounded_present ?_ m) (h m)
  have htext : ∀ t : Option Text, ∀ v ∈ t.map Json.string, Bounded p room v := fun t v hv => by
    obtain ⟨t, _, rfl⟩ := Option.map_eq_some_iff.mp hv
    exact .string t
  simp only [fields, List.forall_mem_cons]
  exact ⟨htext _, htext _, htext _, fun v hv => Option.some.inj hv ▸ .bool _, htext _, htext _,
    List.forall_mem_nil _⟩

end CompilerOptions

namespace ProjectConfig

/-- The top-level members that mean something, under their names. -/
def fields (p : ProjectConfig) : List (String × Option Json) :=
  [("files", p.files.map .texts), ("compilerOptions", some p.options.toJson)]

theorem toJson_eq (p : ProjectConfig) : p.toJson = .object (present p.fields ++ p.extra) := by
  simp [toJson, present, fields, Option.map_map, Function.comp_def]

theorem listOf?_texts (ts : List Text) : listOf? text? (texts ts) = some ts := by
  rw [texts, listOf?]
  induction ts with
  | nil => rfl
  | cons t ts ih => simp [ih, text?]

theorem single?_compilerOptions {p : ProjectConfig} (h : Kept names p.extra) :
    single? ["compilerOptions"] (present p.fields ++ p.extra) = some (some p.options.toJson) :=
  h.single?_present (by decide) "compilerOptions" (by simp [fields, isNamed])

theorem ofJson?_toJson {p : ProjectConfig} (h : Kept names p.extra)
    (hoptions : Kept CompilerOptions.names p.options.extra) : ofJson? p.toJson = some p := by
  have hfiles : single? ["files"] (present p.fields ++ p.extra) = some (p.files.map .texts) :=
    h.single?_present (by decide) "files" (by simp [fields, isNamed])
  have hread : nullable? (listOf? text?) (p.files.map .texts) = some p.files := by
    cases p.files with
    | none => rfl
    | some fs => exact congrArg (Option.map some) (listOf?_texts fs)
  have hothers : others names (present p.fields ++ p.extra) = p.extra :=
    h.others_append (isNamed_of_mem_present (by simp [fields, names]))
  rw [toJson_eq, ofJson?]
  simp [hfiles, hread, single?_compilerOptions h, hothers, CompilerOptions.ofJson?_toJson hoptions]

/-- A project is read from the members of an object, and its options from those of an object in
it, which is empty if it is not there. -/
structure ReadFrom (p : ProjectConfig) (members options : Members) : Prop where
  found : ((object members).get? "compilerOptions".toList).getD (.object []) = .object options
  extra_eq : p.extra = others names members
  options_extra_eq : p.options.extra = others CompilerOptions.names options

theorem exists_readFrom {v : Json} {p : ProjectConfig} (h : ofJson? v = some p) :
    ∃ members options, v = .object members ∧ ReadFrom p members options := by
  cases v with
  | object members =>
    unfold ofJson? at h
    simp only [Option.bind_eq_bind, Option.bind_eq_some_iff] at h
    obtain ⟨_, _, files, _, found, hfound, h⟩ := h
    have hget := get?_of_single? hfound
    cases found with
    | none =>
      cases h
      exact ⟨members, [], rfl, by rw [hget]; rfl, rfl, rfl⟩
    | some v =>
      obtain ⟨o, ho, heq⟩ := Option.bind_eq_some_iff.mp h
      cases heq
      obtain ⟨options, rfl, hextra⟩ := CompilerOptions.exists_members ho
      exact ⟨members, options, rfl, by rw [hget]; rfl, rfl, hextra⟩
  | _ => cases h

theorem exists_read_of_ofText {t : Text} {c : ProjectConfig} (h : ofText t = .ok c) :
    ∃ v, Json.ofText? (stripComments t) = some v ∧ ofJson? v = some c ∧ c.fault? = none := by
  unfold ofText at h
  split at h
  · cases h
  · next p hread =>
    split at h
    · cases h
    · next hfault =>
      obtain rfl : p = c := by injection h
      obtain ⟨v, hv, hp⟩ := Option.bind_eq_some_iff.mp hread
      exact ⟨v, hv, hp, hfault⟩

theorem files_of_fault? {p : ProjectConfig} (h : p.fault? = none) {files : List Text}
    (hfiles : p.files = some files) : files ≠ [] ∧ ∀ f ∈ files, Text.allBlank f = false := by
  rw [fault?, hfiles] at h
  cases files with
  | nil => cases h
  | cons f rest =>
    simp only [Option.map_eq_none_iff, List.findIdx?_eq_none_iff] at h
    exact ⟨List.cons_ne_nil f rest, h⟩

/-- What is read from a value that can be written can be written. -/
theorem ReadFrom.bounded_toJson {q : UInt64 → Prop} {room : Nat} {p : ProjectConfig}
    {members options : Members} (h : ReadFrom p members options)
    (hmembers : Bounded q (room + 2) (.object members)) : Bounded q (room + 2) p.toJson := by
  have houter : ∀ m ∈ members, Bounded q (room + 1) m.2 := by
    cases hmembers with
    | object houter => exact houter
  have hinner : ∀ m ∈ options, Bounded q room m.2 := by
    -- options that are not there are written too, so there is room for a second container
    have hoptions : Bounded q (room + 1) (.object options) := by
      rw [← h.found]
      cases hget : (object members).get? "compilerOptions".toList with
      | none => exact .object (List.forall_mem_nil _)
      | some o => exact houter _ (mem_of_get? hget)
    cases hoptions with
    | object hinner => exact hinner
  have hextra := bounded_others houter names
  have hoptions := bounded_others hinner CompilerOptions.names
  rw [← h.extra_eq] at hextra
  rw [← h.options_extra_eq] at hoptions
  rw [toJson_eq]
  refine .object fun m hm => (List.mem_append.mp hm).elim (bounded_present ?_ m) (hextra m)
  simp only [fields, List.forall_mem_cons]
  refine ⟨fun v hv => ?_, fun v hv => ?_, List.forall_mem_nil _⟩
  · obtain ⟨ts, _, rfl⟩ := Option.map_eq_some_iff.mp hv
    refine .array fun v hv => ?_
    obtain ⟨t, _, rfl⟩ := List.mem_map.mp hv
    exact .string t
  · exact Option.some.inj hv ▸ CompilerOptions.bounded_toJson hoptions

/-- A project that is read can be written and read again, and no option is lost: members and
options without a meaning are kept with their values and written again. What is written is read as
the same project, if the numbers of the file are integers of 64 bits. -/
theorem project_reads_back {t : Text} {c : ProjectConfig} (hload : ofText t = .ok c) :
    ∃ members options, Json.ofText? (stripComments t) = some (.object members) ∧
      ((object members).get? "compilerOptions".toList).getD (.object []) = .object options ∧
      (∀ files, c.files = some files → files ≠ [] ∧ ∀ f ∈ files, Text.allBlank f = false) ∧
      PassedOn names members c.extra c.toJson ∧
      PassedOn CompilerOptions.names options c.options.extra c.options.toJson ∧
      c.toJson.get? "compilerOptions".toList = some c.options.toJson ∧
      ((object members).Whole → Json.ofText? c.text = some c.toJson ∧ ofText c.text = .ok c) := by
  obtain ⟨v, hv, hread, hfault⟩ := exists_read_of_ofText hload
  obtain ⟨members, options, rfl, hfrom⟩ := exists_readFrom hread
  have hkept : Kept names c.extra := hfrom.extra_eq ▸ kept_others names members
  have hinner : Kept CompilerOptions.names c.options.extra :=
    hfrom.options_extra_eq ▸ kept_others CompilerOptions.names options
  have hpassed : PassedOn names members c.extra c.toJson := by
    rw [toJson_eq, hfrom.extra_eq]
    exact passedOn_others (isNamed_of_mem_present (by simp [fields, names])) members
  have hpassed' : PassedOn CompilerOptions.names options c.options.extra c.options.toJson := by
    rw [CompilerOptions.toJson_eq, hfrom.options_extra_eq]
    exact passedOn_others (isNamed_of_mem_present
      (by simp [CompilerOptions.fields, CompilerOptions.names])) options
  have hoptions : c.toJson.get? "compilerOptions".toList = some c.options.toJson := by
    rw [toJson_eq]
    exact get?_of_single? (single?_compilerOptions hkept)
  refine ⟨members, options, hv, hfrom.found, fun files => files_of_fault? hfault, hpassed,
    hpassed', hoptions, fun hwhole => ?_⟩
  have hbounded : Bounded (· = minusZero) depthLimit c.toJson :=
    hfrom.bounded_toJson ((small_of_ofText? hv).of_doubles hwhole)
  have hwritten : Json.ofText? c.text = some c.toJson := hbounded.ofText?_compact
  -- nothing that is written looks like a comment, a string with slashes neither
  have hstrip : stripComments c.text = c.text :=
    (uncommented_of_slashless (slashless_of_ofText? hwritten)).stripComments_eq
  refine ⟨hwritten, ?_⟩
  rw [ofText, hstrip, hwritten, Option.bind_some, ofJson?_toJson hkept hinner]
  simp only [hfault]

/-- A project file with a comment, the other name of an option, and options without a meaning. -/
def commented : Text :=
  "\x7b//\n\"x\": \x7b\"n\": -1, \"b\": [], \"n\": 2\x7d, ".toList ++
    "\"compilerOptions\": \x7b\"outFile\": \"//\"\x7d\x7d".toList

def uncommented : Text :=
  "\x7b\"compilerOptions\":\x7b\"out\":\"//\",\"declaration\":false\x7d,".toList ++
    "\"x\":\x7b\"b\":[],\"n\":2\x7d\x7d".toList

theorem commented_reads_back : ∃ c, ofText commented = .ok c ∧ c.text = uncommented ∧
    ofText uncommented = .ok c := by
  have htext : (ofText commented).toOption.map text = some uncommented := by decide +kernel
  have hdoubles : (Json.ofText? (stripComments commented)).map doubles = some [] := by
    decide +kernel
  cases hload : ofText commented with
  | error e =>
    rw [hload] at htext
    cases htext
  | ok c =>
    rw [hload] at htext
    have hwritten : c.text = uncommented := Option.some.inj htext
    obtain ⟨members, _, hmembers, _, _, _, _, _, hread⟩ := project_reads_back hload
    have hnone : (object members).doubles = [] := by simpa [hmembers] using hdoubles
    exact ⟨c, rfl, hwritten, hwritten ▸ (hread (by simp [Whole, hnone])).2⟩

/-- An integer that does not fit 64 bits. -/
def outOfRange : Text := "\x7b\"x\": 18446744073709636361\x7d".toList

/-- What is written for it: the digits of the double that it is read as. -/
def rounded : Text :=
  "\x7b\"compilerOptions\":\x7b\"declaration\":false\x7d,\"x\":1.8446744073709638e19\x7d".toList

/-- An integer that does not fit 64 bits is neither kept nor read again as it was. -/
theorem large_integer_changed : ∃ c c', ofText outOfRange = .ok c ∧ c.text = rounded ∧
    (object c.extra).get? "x".toList ≠ some (.integer 18446744073709636361) ∧
    ofText rounded = .ok c' ∧ c' ≠ c := by
  have hfirst : (ofText outOfRange).toOption.map (fun c => (c.text, (object c.extra).doubles)) =
      some (rounded, [0x43F0000000000015]) := by decide +kernel
  have hvalue : (ofText outOfRange).toOption.map (fun c =>
      ((object c.extra).get? "x".toList).map doubles) = some (some [0x43F0000000000015]) := by
    decide +kernel
  have hagain : (ofText rounded).toOption.map (fun c => (object c.extra).doubles) =
      some [0x43F0000000000016] := by decide +kernel
  cases hload : ofText outOfRange with
  | error e =>
    rw [hload] at hfirst
    cases hfirst
  | ok c =>
    cases hload' : ofText rounded with
    | error e =>
      rw [hload'] at hagain
      cases hagain
    | ok c' =>
      rw [hload] at hfirst hvalue
      rw [hload'] at hagain
      obtain ⟨htext, hdoubles⟩ := Prod.mk.inj (Option.some.inj hfirst)
      refine ⟨c, c', rfl, htext, fun hkept => ?_, rfl, ?_⟩
      · have hsame : ((object c.extra).get? "x".toList).map doubles = some [0x43F0000000000015] :=
          Option.some.inj hvalue
        rw [hkept] at hsame
        cases hsame
      · rintro rfl
        have hsame := hdoubles.symm.trans (Option.some.inj hagain)
        exact absurd hsame (by decide)

end ProjectConfig

end IncrementalBuild
