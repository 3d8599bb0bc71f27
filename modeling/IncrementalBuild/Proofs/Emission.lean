import IncrementalBuild.Output.Assembly
/-!
# What an emission asks of its outlets

Outlets with a record show every call that is made to them, and how it was answered. An emission
offers the outputs in their order until one is refused, and then ends each stream once, whatever
was refused before. Its error is the first refusal.

Two outlets that share nothing are a case of the outlets here, which may share their state.
-/
namespace IncrementalBuild

/-- What an outlet is called for: to take a file, or to end its stream. -/
inductive OutletCall where
  | push (stream : OutputKind) (file : OutputFile)
  | finish (stream : OutputKind)

namespace OutletCall

def stream : OutletCall → OutputKind
  | push stream _ => stream
  | finish stream => stream

/-- The file that is offered. -/
def file? : OutletCall → Option OutputFile
  | push _ file => some file
  | finish _ => none

end OutletCall

structure CallRecord where
  call : OutletCall
  answer : Except Text Unit

namespace CallRecord

/-- The error that a refused call stands for. -/
def refusal? (r : CallRecord) : Option OutputError :=
  match r.answer with
  | .ok () => none
  | .error reason => some ⟨r.call.stream, reason⟩

@[simp] theorem refusal?_ok (call : OutletCall) (u : Unit) :
    refusal? ⟨call, .ok u⟩ = none := rfl

@[simp] theorem refusal?_error (call : OutletCall) (reason : Text) :
    refusal? ⟨call, .error reason⟩ = some ⟨call.stream, reason⟩ := rfl

end CallRecord

section
variable {σ : Type}

namespace Outlets

/-- The same outlets with a record of their calls, the latest call last. -/
def recorded (outlets : Outlets σ) : Outlets (σ × List CallRecord) where
  push stream file := fun (s, calls) =>
    let (answer, s) := outlets.push stream file s
    (answer, (s, calls ++ [⟨.push stream file, answer⟩]))
  finish stream := fun (s, calls) =>
    let (answer, s) := outlets.finish stream s
    (answer, (s, calls ++ [⟨.finish stream, answer⟩]))

variable {outlets : Outlets σ} {stream : OutputKind} {s s' : σ} {answer : Except Text Unit}

theorem recorded_push {file : OutputFile} (h : outlets.push stream file s = (answer, s'))
    (log : List CallRecord) : outlets.recorded.push stream file (s, log) =
      (answer, (s', log ++ [⟨.push stream file, answer⟩])) := by
  simp [recorded, h]

theorem recorded_finish (h : outlets.finish stream s = (answer, s')) (log : List CallRecord) :
    outlets.recorded.finish stream (s, log) =
      (answer, (s', log ++ [⟨.finish stream, answer⟩])) := by
  simp [recorded, h]

end Outlets

def Assembly.calls (a : Assembly) (outlets : Outlets σ) (s : σ) : List CallRecord :=
  (a.emit outlets.recorded (s, [])).2.2

end

namespace Emission

/-- The records of calls that offer a file. -/
def pushes (calls : List CallRecord) : List CallRecord := calls.filter (·.call.file?.isSome)

/-- The files that calls offer, in order. -/
def offered (calls : List CallRecord) : List OutputFile := calls.filterMap (·.call.file?)

/-- The calls to the outlet of a stream, in order. -/
def callsTo (stream : OutputKind) (calls : List CallRecord) : List OutletCall :=
  (calls.map CallRecord.call).filter (·.stream = stream)

def tally (files : List OutputFile) : EmitStats :=
  ⟨(files.filter (·.kind = .code)).length, (files.filter (·.kind = .declaration)).length⟩

/-- What the calls and the result of an emission have to be for its outputs. -/
structure DeliversOnce (outputs : List OutputFile) (calls : List CallRecord)
    (result : Except OutputError EmitStats) : Prop where
  complete : (∀ r ∈ calls, r.refusal? = none) →
    result = .ok (tally outputs) ∧
      ∀ stream, callsTo stream calls =
        (outputs.filter (·.kind = stream)).map (.push stream) ++ [.finish stream]
  offersAll : (pushes calls).findIdx? (·.refusal?.isSome) = none → offered calls = outputs
  stops : ∀ k, (pushes calls).findIdx? (·.refusal?.isSome) = some k →
    k < outputs.length ∧ offered calls = outputs.take (k + 1)
  closes : ∀ stream, callsTo stream calls =
    ((offered calls).filter (·.kind = stream)).map (.push stream) ++ [.finish stream]
  earliest : ∀ e, result = .error e ↔ calls.findSome? CallRecord.refusal? = some e

/-! ## Offering files -/

/-- Calls that offer files in their order, each to the outlet of its kind, until one is refused. -/
inductive Offers : List OutputFile → List CallRecord → Prop
  | done : Offers [] []
  | taken (file : OutputFile) {rest : List OutputFile} {calls : List CallRecord}
    (h : Offers rest calls) :
    Offers (file :: rest) (⟨.push file.kind file, .ok ()⟩ :: calls)
  | refused (file : OutputFile) (rest : List OutputFile) (reason : Text) :
    Offers (file :: rest) [⟨.push file.kind file, .error reason⟩]

namespace Offers

variable {files : List OutputFile} {calls : List CallRecord} (h : Offers files calls)
include h

theorem call_eq :
    calls.map CallRecord.call = (files.take calls.length).map fun f => .push f.kind f := by
  induction h with
  | done => rfl
  | taken file _ ih => simp [ih]
  | refused file rest reason => simp

theorem pushes_eq : pushes calls = calls := by
  induction h with
  | done => rfl
  | taken file _ ih => simpa [pushes, OutletCall.file?] using ih
  | refused file rest reason => rfl

theorem length_of_taken (hnone : ∀ r ∈ calls, r.refusal? = none) :
    calls.length = files.length := by
  induction h with
  | done => rfl
  | taken file _ ih =>
    rw [List.length_cons, List.length_cons, ih fun r hr => hnone r (List.mem_cons_of_mem _ hr)]
  | refused file rest reason => simp at hnone

theorem length_of_refused {k : Nat} (hk : calls.findIdx? (·.refusal?.isSome) = some k) :
    k < files.length ∧ calls.length = k + 1 := by
  induction h generalizing k with
  | done => simp at hk
  | taken file _ ih =>
    simp only [List.findIdx?_cons, CallRecord.refusal?_ok, Option.isSome_none, Bool.false_eq_true,
      if_false, Option.map_eq_some_iff] at hk
    obtain ⟨j, hj, rfl⟩ := hk
    obtain ⟨hlt, hlength⟩ := ih hj
    simp only [List.length_cons]
    omega
  | refused file rest reason =>
    have : k = 0 := by simpa [List.findIdx?_cons, eq_comm] using hk
    simp [this]

end Offers

/-! ## The calls of an emission -/

/-- How an emission ends, by its calls: with the first refusal, or with a count of the outputs. -/
def outcome (outputs : List OutputFile) (calls : List CallRecord) :
    Except OutputError EmitStats :=
  match calls.findSome? CallRecord.refusal? with
  | none => .ok (tally outputs)
  | some e => .error e

/-- The calls that end both streams, with their answers. -/
def closing (codeEnd declarationEnd : Except Text Unit) : List CallRecord :=
  [⟨.finish .code, codeEnd⟩, ⟨.finish .declaration, declarationEnd⟩]

namespace Offers

variable {outputs : List OutputFile} {calls : List CallRecord} (h : Offers outputs calls)
  (codeEnd declarationEnd : Except Text Unit)
include h

theorem pushes_closing : pushes (calls ++ closing codeEnd declarationEnd) = calls := by
  rw [pushes, List.filter_append]
  exact (congrArg (· ++ _) h.pushes_eq).trans (List.append_nil calls)

theorem offered_closing : offered (calls ++ closing codeEnd declarationEnd) =
    outputs.take calls.length := by
  have hfiles : ∀ files : List OutputFile,
      (files.map fun f => OutletCall.push f.kind f).filterMap OutletCall.file? = files := by
    intro files
    rw [List.filterMap_map]
    exact List.filterMap_some
  calc offered (calls ++ closing codeEnd declarationEnd)
      = (calls.map CallRecord.call).filterMap OutletCall.file? := by
        simp [offered, closing, OutletCall.file?, List.filterMap_map, Function.comp_def]
    _ = outputs.take calls.length := by rw [h.call_eq, hfiles]

theorem callsTo_closing (stream : OutputKind) :
    callsTo stream (calls ++ closing codeEnd declarationEnd) =
      ((outputs.take calls.length).filter (·.kind = stream)).map (.push stream) ++
        [.finish stream] := by
  have hfiles : ∀ files : List OutputFile,
      (files.map fun f => OutletCall.push f.kind f).filter (·.stream = stream) =
        (files.filter (·.kind = stream)).map (.push stream) := by
    intro files
    rw [List.filter_map]
    apply List.map_congr_left
    intro f hf
    have hkind : f.kind = stream := of_decide_eq_true (List.mem_filter.mp hf).2
    rw [hkind]
  rw [callsTo, List.map_append, List.filter_append, h.call_eq, hfiles]
  cases stream <;> rfl

/-- Calls that offer outputs until one is refused, and then end both streams, deliver once. -/
theorem deliversOnce : DeliversOnce outputs (calls ++ closing codeEnd declarationEnd)
    (outcome outputs (calls ++ closing codeEnd declarationEnd)) := by
  have hpushes := h.pushes_closing codeEnd declarationEnd
  refine ⟨fun hnone => ?_, fun hnone => ?_, fun k hk => ?_, fun stream => ?_, fun e => ?_⟩
  · have hlength := h.length_of_taken fun r hr => hnone r (List.mem_append_left _ hr)
    refine ⟨?_, fun stream => ?_⟩
    · rw [outcome, List.findSome?_eq_none_iff.mpr hnone]
    · rw [h.callsTo_closing, hlength, List.take_length]
  · rw [hpushes] at hnone
    have hlength := h.length_of_taken (by simpa using hnone)
    rw [h.offered_closing, hlength, List.take_length]
  · rw [hpushes] at hk
    obtain ⟨hlt, hlength⟩ := h.length_of_refused hk
    exact ⟨hlt, by rw [h.offered_closing, hlength]⟩
  · rw [h.offered_closing, h.callsTo_closing]
  · unfold outcome
    cases (calls ++ closing codeEnd declarationEnd).findSome? CallRecord.refusal? with
    | none => simp
    | some e' => simp

end Offers

end Emission

namespace Assembly

open Emission

theorem foldl_count (files : List OutputFile) (stats : EmitStats) :
    files.foldl (fun stats f => count stats f.kind) stats =
      ⟨stats.codeFiles + (tally files).codeFiles,
        stats.declarationFiles + (tally files).declarationFiles⟩ := by
  induction files generalizing stats with
  | nil => rfl
  | cons f files ih =>
    rw [List.foldl_cons, ih]
    cases hk : f.kind with
    | code => simp [count, tally, hk]; omega
    | declaration => simp [count, tally, hk]; omega

section
variable {σ : Type} (outlets : Outlets σ)

/-- A record of the calls changes neither answers nor states, and the calls offer the files. -/
theorem pushAll_recorded (files : List OutputFile) (stats : EmitStats) (s : σ)
    (log : List CallRecord) :
    ∃ calls, Offers files calls ∧
      pushAll outlets.recorded stats files (s, log) =
        ((pushAll outlets stats files s).1, ((pushAll outlets stats files s).2, log ++ calls)) ∧
      (pushAll outlets stats files s).1 = match calls.findSome? CallRecord.refusal? with
        | none => .ok (files.foldl (fun stats f => count stats f.kind) stats)
        | some e => .error e := by
  induction files generalizing stats s log with
  | nil => exact ⟨[], .done, by simp [pushAll], rfl⟩
  | cons file rest ih =>
    rcases hanswer : outlets.push file.kind file s with ⟨answer, s'⟩
    have hrecord := Outlets.recorded_push hanswer log
    cases answer with
    | error reason =>
      refine ⟨_, .refused file rest reason, ?_, ?_⟩
      · simp [pushAll, hrecord, hanswer]
      · simp [pushAll, hanswer, OutletCall.stream]
    | ok =>
      obtain ⟨calls, hoffers, hrecorded, hresult⟩ := ih (count stats file.kind) s'
        (log ++ [⟨.push file.kind file, .ok ()⟩])
      refine ⟨_, .taken file hoffers, ?_, ?_⟩
      · simp [pushAll, hrecord, hanswer, hrecorded]
      · rw [List.findSome?_cons, CallRecord.refusal?_ok]
        simpa [pushAll, hanswer] using hresult

/-- An emission offers its outputs, ends both streams, and ends as its calls say. -/
theorem emit_recorded (a : Assembly) (s : σ) :
    ∃ calls codeEnd declarationEnd, Offers a.outputs calls ∧
      a.emit outlets.recorded (s, []) =
        ((a.emit outlets s).1,
          ((a.emit outlets s).2, calls ++ closing codeEnd declarationEnd)) ∧
      (a.emit outlets s).1 = outcome a.outputs (calls ++ closing codeEnd declarationEnd) := by
  obtain ⟨calls, hoffers, hrecorded, hresult⟩ :=
    pushAll_recorded outlets a.outputs ⟨0, 0⟩ s []
  rcases hpush : pushAll outlets ⟨0, 0⟩ a.outputs s with ⟨pushed, s₁⟩
  rcases hcode : outlets.finish .code s₁ with ⟨codeEnd, s₂⟩
  rcases hdeclaration : outlets.finish .declaration s₂ with ⟨declarationEnd, s₃⟩
  rw [hpush] at hrecorded hresult
  have hcodeRecord := Outlets.recorded_finish hcode calls
  have hdeclarationRecord := Outlets.recorded_finish hdeclaration
    (calls ++ [⟨.finish .code, codeEnd⟩])
  refine ⟨calls, codeEnd, declarationEnd, hoffers, ?_, ?_⟩
  · simp only [emit, hrecorded, List.nil_append, hcodeRecord, hdeclarationRecord, hpush, hcode,
      hdeclaration]
    cases pushed <;> cases codeEnd <;> cases declarationEnd <;> simp [closing]
  · rw [foldl_count] at hresult
    dsimp only at hresult
    simp only [emit, hpush, hcode, hdeclaration, outcome, List.findSome?_append, hresult]
    -- a push that was refused comes before both ends, and the end of the code before the other
    cases calls.findSome? CallRecord.refusal? with
    | some e => rfl
    | none =>
      cases codeEnd <;> cases declarationEnd <;>
        simp [closing, List.findSome?_cons, OutletCall.stream]

/-- Every emission, whatever its outputs and its outlets, offers the outputs in their order until
one is refused, ends each stream once and after its files, and fails with the first refusal. A
record of the calls changes nothing. -/
theorem emit_delivers_once (a : Assembly) (s : σ) :
    a.emit outlets.recorded (s, []) =
        ((a.emit outlets s).1, ((a.emit outlets s).2, a.calls outlets s)) ∧
      DeliversOnce a.outputs (a.calls outlets s) (a.emit outlets s).1 := by
  obtain ⟨calls, codeEnd, declarationEnd, hoffers, hrecorded, hresult⟩ := a.emit_recorded outlets s
  have hcalls : a.calls outlets s = calls ++ closing codeEnd declarationEnd := by
    rw [Assembly.calls, hrecorded]
  rw [hcalls, hrecorded, hresult]
  exact ⟨rfl, hoffers.deliversOnce codeEnd declarationEnd⟩

end

end Assembly

/-! ## Outlets that refuse nothing -/

theorem CallRecord.refusal?_eq_none_iff {r : CallRecord} :
    r.refusal? = none ↔ r.answer = .ok () := by
  rcases r with ⟨call, answer⟩
  cases answer <;> simp

/-- If no file is refused, the calls are the files in their order. -/
theorem Emission.Offers.eq_of_taken {files : List OutputFile} {calls : List CallRecord}
    (h : Offers files calls) (hnone : ∀ r ∈ calls, r.refusal? = none) :
    calls = files.map fun f => ⟨.push f.kind f, .ok ()⟩ := by
  induction h with
  | done => rfl
  | taken file _ ih => rw [List.map_cons, ih fun r hr => hnone r (List.mem_cons_of_mem _ hr)]
  | refused file rest reason => simp at hnone

section
variable {σ : Type}

/-- Outlets that refuse no call, whatever is emitted to them from a state on. -/
def Outlets.Accepts (outlets : Outlets σ) (s : σ) : Prop :=
  ∀ a : Assembly, ∀ r ∈ a.calls outlets s, r.answer = .ok ()

namespace Assembly

variable {outlets : Outlets σ} {a : Assembly} {s : σ}

theorem emit_of_accepts (h : outlets.Accepts s) :
    (a.emit outlets s).1 = .ok (Emission.tally a.outputs) := by
  obtain ⟨calls, codeEnd, declarationEnd, _, hrecorded, hresult⟩ := a.emit_recorded outlets s
  have hcalls : a.calls outlets s = calls ++ Emission.closing codeEnd declarationEnd := by
    rw [Assembly.calls, hrecorded]
  have hnone : (a.calls outlets s).findSome? CallRecord.refusal? = none :=
    List.findSome?_eq_none_iff.mpr fun r hr => CallRecord.refusal?_eq_none_iff.mpr (h a r hr)
  rw [hresult, Emission.outcome, ← hcalls, hnone]

/-- The calls of an emission that comes through are decided by its outputs. -/
theorem calls_of_ok {stats : EmitStats} (h : (a.emit outlets s).1 = .ok stats) :
    a.calls outlets s = (a.outputs.map fun f => ⟨.push f.kind f, .ok ()⟩) ++
      Emission.closing (.ok ()) (.ok ()) := by
  obtain ⟨calls, codeEnd, declarationEnd, hoffers, hrecorded, hresult⟩ :=
    a.emit_recorded outlets s
  rw [Assembly.calls, hrecorded]
  have hnone : ∀ r ∈ calls ++ Emission.closing codeEnd declarationEnd, r.refusal? = none := by
    rw [← List.findSome?_eq_none_iff]
    rw [hresult, Emission.outcome] at h
    split at h
    · assumption
    · cases h
  have hcode : codeEnd = .ok () := CallRecord.refusal?_eq_none_iff.mp
    (hnone ⟨.finish .code, codeEnd⟩ (by simp [Emission.closing]))
  have hdeclaration : declarationEnd = .ok () := CallRecord.refusal?_eq_none_iff.mp
    (hnone ⟨.finish .declaration, declarationEnd⟩ (by simp [Emission.closing]))
  rw [hoffers.eq_of_taken fun r hr => hnone r (List.mem_append_left _ hr), hcode, hdeclaration]

end Assembly

namespace Assembly

theorem pushAll_shelves (files : List OutputFile) (stats : EmitStats)
    (kept kept' : List OutputFile) :
    pushAll (.pair Shelf.outlet Shelf.outlet) stats files (⟨kept, false⟩, ⟨kept', false⟩) =
      (.ok (files.foldl (fun stats f => count stats f.kind) stats),
        (⟨kept ++ files.filter (·.kind = .code), false⟩,
          ⟨kept' ++ files.filter (·.kind = .declaration), false⟩)) := by
  induction files generalizing stats kept kept' with
  | nil => simp [pushAll]
  | cons file files ih =>
    rcases file with ⟨p, source, kind, contents⟩
    cases kind with
    | code => exact (ih _ _ _).trans (by simp)
    | declaration => exact (ih _ _ _).trans (by simp)

theorem emit_shelves (a : Assembly) :
    a.emit (.pair Shelf.outlet Shelf.outlet) (.empty, .empty) =
      (.ok (Emission.tally a.outputs), (⟨a.outputs.filter (·.kind = .code), true⟩,
        ⟨a.outputs.filter (·.kind = .declaration), true⟩)) := by
  unfold emit
  rw [Shelf.empty, pushAll_shelves, foldl_count, Nat.zero_add, Nat.zero_add]
  rfl

end Assembly

theorem Outlets.shelves_accept :
    (Outlets.pair Shelf.outlet Shelf.outlet).Accepts (.empty, .empty) := by
  intro a r hr
  have hemit : (a.emit (.pair Shelf.outlet Shelf.outlet) (.empty, .empty)).1 =
      .ok (Emission.tally a.outputs) := by rw [a.emit_shelves]
  rw [Assembly.calls_of_ok hemit] at hr
  rcases List.mem_append.mp hr with hr | hr
  · obtain ⟨f, _, rfl⟩ := List.mem_map.mp hr
    rfl
  · rcases List.mem_cons.mp hr with rfl | hr
    · rfl
    · rw [List.mem_singleton.mp hr]

end

end IncrementalBuild
