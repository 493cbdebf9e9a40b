import Mathlib.Data.List.Forall2
import Treewalk.Proofs.Session.Effect

/-!
# Transcripts

A transcript says what was observed of each request: its answer, what it printed and what it
reported (`Session.transcript`). An idle request leaves the machine as it is (`Request.Idle`), and
no request depends on anything but the machine. So idle requests can be left out of a session, and
what is observed of the others does not show it (`exists_transcript_of_thinned`).
-/

namespace Treewalk

/-! ## Leaving out -/

/-- Some of the elements for which `P` holds are left out. -/
inductive Thinned {α : Type} (P : α → Prop) : List α → List α → Prop
  | nil : Thinned P [] []
  | keep {l kept : List α} (a : α) (h : Thinned P l kept) : Thinned P (a :: l) (a :: kept)
  | leaveOut {l kept : List α} {a : α} (ha : P a) (h : Thinned P l kept) : Thinned P (a :: l) kept

/-! ## Observations -/

structure Observation where
  answer : Answer
  /-- What went to standard output. -/
  printed : String
  /-- The entries that the sink has come to have. -/
  reported : List String
  flags : Flags

/-- What was written to standard output between two states of a machine. -/
def Machine.writtenUntil (m m' : Machine) : String :=
  String.ofList (m'.standardOutput.toList.drop m.standardOutput.length)

/-- What a sink has taken between two of its states. -/
def Log.takenUntil {σ : Type} [Sink σ] [Log σ] (sink sink' : σ) : List String :=
  (Log.entries sink').drop (Log.entries sink).length

theorem Log.takenUntil_reportAll {σ : Type} [Sink σ] [Log σ] (sink : σ)
    (batches : List (List Diagnostic)) :
    Log.takenUntil sink (Sink.reportAll sink batches) =
      batches.flatten.map (Log.entry (σ := σ)) := by
  rw [Log.takenUntil, Sink.entries_reportAll, List.drop_left]

namespace Session

variable {σ : Type} [Sink σ] [Log σ]

def observe (fuel : Nat) (request : Request) (s : Session σ) :
    Except Abort (Observation × Session σ) :=
  (s.perform fuel request).map fun (answer, s') =>
    (⟨answer, s.machine.writtenUntil s'.machine, Log.takenUntil s.sink s'.sink,
      Sink.flags s'.sink⟩, s')

/-- The requests that some things stand for, and what is observed of them one after the other. -/
def transcript {α : Type} (fuel : Nat) (request : α → Request) :
    List α → Session σ → Except Abort (List (α × Observation) × Session σ)
  | [], s => .ok ([], s)
  | a :: rest, s =>
    (s.observe fuel (request a)).bind fun (o, s) =>
      (transcript fuel request rest s).map fun (t, s) => ((a, o) :: t, s)

end Session

/-! ## Idle requests -/

/-- Nothing is run. -/
def Request.Idle : Request → Prop
  | .parse _ => True
  | .source mode text => mode = .run → ¬ Accepted text
  | .script path files => ∃ e, files.readScript path = .error e
  | .lines mode _ _ => mode = .printTrees

namespace Session

variable {σ : Type} [Sink σ]

theorem machine_of_handleAll_printTrees {fuel : Nat} {lines : List (List UInt8)} {s s' : Session σ}
    (h : s.handleAll fuel .printTrees lines = .ok s') : s'.machine = s.machine := by
  induction lines generalizing s with
  | nil =>
    cases h
    rfl
  | cons line lines ih =>
    have hrest := ih (s := (s.printTrees (Utf8.decode line)).2) h
    exact hrest

theorem machine_of_perform_idle [LawfulSink σ] {fuel : Nat} {request : Request} {answer : Answer}
    {s s' : Session σ} (hidle : request.Idle) (h : s.perform fuel request = .ok (answer, s')) :
    s'.machine = s.machine := by
  cases request with
  | parse =>
    cases h
    rfl
  | source mode source =>
    cases mode with
    | run =>
      rw [perform, run_of_not_accepted (hidle rfl)] at h
      cases h
      rfl
    | printTrees =>
      cases h
      rfl
  | script path files =>
    obtain ⟨e, hread⟩ := hidle
    simp only [perform, runScript, hread] at h
    cases h
    rfl
  | lines mode i handle =>
    obtain rfl : mode = .printTrees := hidle
    obtain ⟨lines, answer, hlines⟩ := exists_handleAll_eq .printTrees i handle
    rw [perform, hlines] at h
    obtain ⟨_, hrun, hp⟩ := exists_of_map_eq_ok h
    obtain ⟨s₁, hall, rfl⟩ := exists_of_map_eq_ok hrun
    cases hp
    exact machine_of_handleAll_printTrees hall

/-! ## Requests to the same machine -/

/-- Which sink it is does not matter, and a source is reported on once. -/
theorem exists_batches_of_perform [LawfulSink σ] {fuel : Nat} {request : Request} {answer : Answer}
    {s s' : Session σ} (h : s.perform fuel request = .ok (answer, s')) :
    ∃ batches, s'.sink = Sink.reportAll s.sink batches ∧
      (∀ sink : σ, perform fuel ⟨s.machine, sink⟩ request =
        .ok (answer, ⟨s'.machine, Sink.reportAll sink batches⟩)) ∧
      ∀ mode source, request = .source mode source → ∃ batch, batches = [batch] := by
  cases request with
  | source mode source =>
    obtain ⟨batch, hsink, hall⟩ : ∃ batch, s'.sink = Sink.reportAll s.sink [batch] ∧ ∀ sink : σ,
        perform fuel ⟨s.machine, sink⟩ (.source mode source) =
          .ok (answer, ⟨s'.machine, Sink.reportAll sink [batch]⟩) := by
      cases mode with
      | run =>
        obtain ⟨⟨output, s₁⟩, hrun, hp⟩ := exists_of_map_eq_ok h
        cases hp
        obtain ⟨batch, hsink, hall⟩ := exists_batch_of_run hrun
        exact ⟨batch, hsink, fun sink => by rw [perform, hall]; rfl⟩
      | printTrees =>
        cases h
        exact ⟨faultsOf source, rfl, fun _ => rfl⟩
    exact ⟨[batch], hsink, hall, fun _ _ _ => ⟨batch, rfl⟩⟩
  | parse | script | lines =>
    obtain ⟨batches, hsink, hall⟩ := (orderly_perform fuel _).oblivious h
    exact ⟨batches, hsink, hall, fun _ _ hsource => by cases hsource⟩

end Session

/-- A request was observed alike. The flags may be older ones, except where there was a source. -/
structure Observation.Agrees (request : Request) (o o' : Observation) : Prop where
  answer : o'.answer = o.answer
  printed : o'.printed = o.printed
  reported : o'.reported = o.reported
  flags (mode : Mode) (source : String) : request = .source mode source → o'.flags = o.flags

namespace Session

variable {σ α : Type} [Sink σ] [Log σ] {fuel : Nat}

theorem exists_observe_eq {request : Request} {o : Observation} {s s' u : Session σ}
    (hmachine : u.machine = s.machine) (h : s.observe fuel request = .ok (o, s')) :
    ∃ o' u', u.observe fuel request = .ok (o', u') ∧ u'.machine = s'.machine ∧
      o.Agrees request o' := by
  obtain ⟨⟨answer, s₁⟩, hperform, hp⟩ := exists_of_map_eq_ok h
  cases hp
  obtain ⟨batches, hsink, hall, hsource⟩ := exists_batches_of_perform hperform
  have hu := hall u.sink
  rw [← hmachine] at hu
  refine ⟨_, ⟨s'.machine, Sink.reportAll u.sink batches⟩, by rw [observe, hu]; rfl, rfl, ?_⟩
  constructor
  · rfl
  · simp only [hmachine]
  · simp only [hsink, Log.takenUntil_reportAll]
  · intro mode source heq
    obtain ⟨batch, rfl⟩ := hsource mode source heq
    simp only [hsink, Sink.flags_reportAll_singleton]

variable {request : α → Request}

theorem transcript_cons_eq_ok {a : α} {rest : List α} {t : List (α × Observation)}
    {s s₂ : Session σ} (h : s.transcript fuel request (a :: rest) = .ok (t, s₂)) :
    ∃ o s₁ t', s.observe fuel (request a) = .ok (o, s₁) ∧
      s₁.transcript fuel request rest = .ok (t', s₂) ∧ t = (a, o) :: t' := by
  rw [transcript] at h
  obtain ⟨⟨o, s₁⟩, hobserve, hrest⟩ := exists_of_bind_eq_ok h
  obtain ⟨⟨t', _⟩, htranscript, hp⟩ := exists_of_map_eq_ok hrest
  cases hp
  exact ⟨o, s₁, t', hobserve, htranscript, rfl⟩

/-- Idle requests are left out without a trace. The induction is on what is left out; the sinks
differ from the first request that is. -/
theorem exists_transcript_of_thinned {l : List α} {t kept : List (α × Observation)}
    {s s₁ u : Session σ} (hmachine : u.machine = s.machine)
    (hrun : s.transcript fuel request l = .ok (t, s₁))
    (hthinned : Thinned (fun p => (request p.1).Idle) t kept) :
    ∃ t' u₁, u.transcript fuel request (kept.map Prod.fst) = .ok (t', u₁) ∧
      u₁.machine = s₁.machine ∧
      List.Forall₂ (fun p p' => p'.1 = p.1 ∧ p.2.Agrees (request p.1) p'.2) kept t' := by
  induction hthinned generalizing l s u with
  | nil =>
    cases l with
    | nil =>
      cases hrun
      exact ⟨[], u, rfl, hmachine, .nil⟩
    | cons =>
      obtain ⟨_, _, _, _, _, hcons⟩ := transcript_cons_eq_ok hrun
      cases hcons
  | keep p _ ih =>
    cases l with
    | nil => cases hrun
    | cons a rest =>
      obtain ⟨o, s', t', hobserve, hrest, hcons⟩ := transcript_cons_eq_ok hrun
      cases hcons
      obtain ⟨o', u', hobserve', hmachine', hagrees⟩ := exists_observe_eq hmachine hobserve
      obtain ⟨t'', u₁, hrest', hend, hall⟩ := ih hmachine' hrest
      refine ⟨(a, o') :: t'', u₁, ?_, hend, .cons ⟨rfl, hagrees⟩ hall⟩
      rw [List.map_cons, transcript, hobserve']
      change (u'.transcript fuel request _).map _ = _
      rw [hrest']
      rfl
  | leaveOut hidle _ ih =>
    cases l with
    | nil => cases hrun
    | cons a rest =>
      obtain ⟨o, s', t', hobserve, hrest, hcons⟩ := transcript_cons_eq_ok hrun
      cases hcons
      obtain ⟨⟨answer, _⟩, hperform, hp⟩ := exists_of_map_eq_ok hobserve
      cases hp
      have hkept := machine_of_perform_idle hidle hperform
      exact ih (hmachine.trans hkept.symm) hrest

end Session

end Treewalk
