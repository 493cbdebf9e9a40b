import Mathlib.Data.List.Forall2
import Treewalk.Proofs.Session.Transcript

/-!
# Sessions with different sinks

Nothing but the flags of a sink is ever looked at, and these only behind a reset. So parts of two
sessions that have different sinks, but the same machine, go on alike: both are aborted or both give
the same, and their sinks have taken the same batches (`Session.Alike`). This is a congruence, so it
holds of all requests.

`exchanges` answers requests one after the other and keeps the session before and behind each. The
main statement is `Session.sinks_interchangeable`: with a sink that keeps diagnostics and one that
prints them, the exchanges differ in nothing but that the texts that are kept are printed, each with
a newline behind it.
-/

namespace Treewalk

/-! ## Going on alike -/

/-- What can go on alike: both are aborted, or both end with what is related. -/
inductive Alongside {α β : Type} (R : α → β → Prop) : Except Abort α → Except Abort β → Prop
  | aborted (abort : Abort) : Alongside R (.error abort) (.error abort)
  | ended {a : α} {b : β} (h : R a b) : Alongside R (.ok a) (.ok b)

namespace Alongside

variable {α β γ δ : Type} {R : α → β → Prop} {x : Except Abort α} {y : Except Abort β}

theorem bind {S : γ → δ → Prop} {f : α → Except Abort γ} {g : β → Except Abort δ}
    (h : Alongside R x y) (hrest : ∀ a b, R a b → Alongside S (f a) (g b)) :
    Alongside S (x.bind f) (y.bind g) := by
  cases h with
  | aborted abort => exact .aborted abort
  | ended h => exact hrest _ _ h

theorem imp {S : α → β → Prop} (h : Alongside R x y) (himp : ∀ a b, R a b → S a b) :
    Alongside S x y := by
  cases h with
  | aborted abort => exact .aborted abort
  | ended h => exact .ended (himp _ _ h)

theorem map {S : γ → δ → Prop} {f : α → γ} {g : β → δ} (h : Alongside R x y)
    (himp : ∀ a b, R a b → S (f a) (g b)) : Alongside S (x.map f) (y.map g) := by
  cases h with
  | aborted abort => exact .aborted abort
  | ended h => exact .ended (himp _ _ h)

theorem map_left {S : γ → β → Prop} {f : α → γ} (h : Alongside R x y)
    (himp : ∀ a b, R a b → S (f a) b) : Alongside S (x.map f) y := by
  cases h with
  | aborted abort => exact .aborted abort
  | ended h => exact .ended (himp _ _ h)

end Alongside

namespace Sink

variable {σ τ : Type} [Sink σ] [Sink τ] [LawfulSink σ] [LawfulSink τ]

/-- The flags are those of the latest batch, if there is one. -/
theorem flags_reportAll_eq {sink : σ} {sink' : τ} (h : flags sink' = flags sink)
    (batches : List (List Diagnostic)) :
    flags (reportAll sink' batches) = flags (reportAll sink batches) := by
  rcases List.eq_nil_or_concat batches with rfl | ⟨earlier, batch, rfl⟩
  · exact h
  · rw [List.concat_eq_append, reportAll_append, reportAll_append, flags_reportAll_singleton,
      flags_reportAll_singleton]

end Sink

theorem Console.printed_reportAll (sink : Console) (batches : List (List Diagnostic)) :
    (Sink.reportAll sink batches).printed =
      sink.printed ++ String.join (batches.flatten.map fun d => d.text ++ "\n") := by
  have hchunks : (Sink.reportAll sink batches).chunks.reverse =
      sink.chunks.reverse ++ batches.flatten.map fun d => d.text ++ "\n" :=
    Sink.entries_reportAll sink batches
  rw [printed, hchunks, String.join_append, printed]

namespace Session

/-! ## The same on different sinks -/

section

variable {σ τ α β : Type} [Sink σ] [Sink τ]

/-- On the same machine, both parts are aborted, or both give the same and leave the same machine,
and their sinks have taken the same. -/
def Alike (x : Session σ → Except Abort (α × Session σ))
    (y : Session τ → Except Abort (α × Session τ)) : Prop :=
  ∀ (m : Machine) (sink : σ) (sink' : τ),
    Alongside (fun p q => q.1 = p.1 ∧ ∃ m' batches,
        p.2 = ⟨m', Sink.reportAll sink batches⟩ ∧ q.2 = ⟨m', Sink.reportAll sink' batches⟩)
      (x ⟨m, sink⟩) (y ⟨m, sink'⟩)

theorem alike_report (a : α) (batches : List (List Diagnostic)) :
    Alike (fun s : Session σ => .ok (a, ⟨s.machine, Sink.reportAll s.sink batches⟩))
      fun s : Session τ => .ok (a, ⟨s.machine, Sink.reportAll s.sink batches⟩) :=
  fun m _ _ => .ended ⟨rfl, m, batches, rfl, rfl⟩

theorem Alike.bind {x : Session σ → Except Abort (α × Session σ)}
    {y : Session τ → Except Abort (α × Session τ)}
    {f : α → Session σ → Except Abort (β × Session σ)}
    {g : α → Session τ → Except Abort (β × Session τ)} (h : Alike x y)
    (hrest : ∀ a, Alike (f a) (g a)) :
    Alike (fun s => (x s).bind fun p => f p.1 p.2) fun s => (y s).bind fun p => g p.1 p.2 := by
  intro m sink sink'
  apply (h m sink sink').bind
  rintro ⟨_, _⟩ ⟨a, _⟩ ⟨rfl, m', batches, rfl, rfl⟩
  apply (hrest a m' _ _).imp
  rintro ⟨_, _⟩ ⟨b, _⟩ ⟨rfl, m'', later, rfl, rfl⟩
  exact ⟨rfl, m'', batches ++ later, by rw [Sink.reportAll_append], by rw [Sink.reportAll_append]⟩

variable [LawfulSink σ] [LawfulSink τ]

theorem alike_run (fuel : Nat) (source : String) :
    Alike (fun s : Session σ => s.run fuel source) fun s : Session τ => s.run fuel source := by
  intro m sink sink'
  beta_reduce
  by_cases haccepted : Accepted source
  · rw [run_of_accepted haccepted, run_of_accepted haccepted, execute, execute]
    rcases interpret fuel (statementsOf source) m with ⟨(e | abort) | _, m'⟩
    · exact .ended ⟨rfl, m'.takeOutput.2, [[.ofRuntimeError e]], rfl, rfl⟩
    · exact .aborted abort
    · exact .ended ⟨rfl, m'.takeOutput.2, [[]], rfl, rfl⟩
  · rw [run_of_not_accepted haccepted, run_of_not_accepted haccepted]
    exact .ended ⟨rfl, m, [faultsOf source], rfl, rfl⟩

theorem congruence_alike : Congruence (σ := σ) (τ := τ) fun x y => Alike x y where
  report := alike_report
  run := alike_run
  bind := Alike.bind

theorem alike_perform (fuel : Nat) (request : Request) :
    Alike (fun s : Session σ => s.perform fuel request)
      fun s : Session τ => s.perform fuel request :=
  congruence_alike.perform fuel request

end

/-! ## Requests one after the other -/

/-- A request, its answer, and the session before and behind it. -/
structure Exchange (σ : Type) where
  before : Session σ
  request : Request
  answer : Answer
  after : Session σ

def exchanges {σ : Type} [Sink σ] (fuel : Nat) :
    List Request → Session σ → Except Abort (List (Exchange σ))
  | [], _ => .ok []
  | request :: rest, s =>
    (s.perform fuel request).bind fun p =>
      (exchanges fuel rest p.2).map (⟨s, request, p.1, p.2⟩ :: ·)

/-- What is seen of two exchanges is the same, but that one prints the diagnostics which the other
keeps. -/
structure Exchange.Mirrors (kept : Exchange Buffered) (shown : Exchange Console) : Prop where
  request : shown.request = kept.request
  answer : shown.answer = kept.answer
  /-- What went to standard output. -/
  written : shown.before.machine.writtenUntil shown.after.machine =
    kept.before.machine.writtenUntil kept.after.machine
  /-- The globals among the rest. -/
  machine : shown.after.machine = kept.after.machine
  flags : shown.after.sink.flags = kept.after.sink.flags
  hadError : shown.after.hadError = kept.after.hadError
  diagnostics : ∃ new, kept.after.sink.diagnostics = kept.before.sink.diagnostics ++ new ∧
    shown.after.sink.printed =
      shown.before.sink.printed ++ String.join (new.map (· ++ "\n"))

theorem mirrors_of_reportAll (m m' : Machine) {kept : Buffered} {shown : Console}
    (hflags : shown.flags = kept.flags) (request : Request) (answer : Answer)
    (batches : List (List Diagnostic)) :
    Exchange.Mirrors ⟨⟨m, kept⟩, request, answer, ⟨m', Sink.reportAll kept batches⟩⟩
      ⟨⟨m, shown⟩, request, answer, ⟨m', Sink.reportAll shown batches⟩⟩ := by
  have hsame : Sink.flags (Sink.reportAll shown batches) =
      Sink.flags (Sink.reportAll kept batches) :=
    Sink.flags_reportAll_eq hflags batches
  refine ⟨rfl, rfl, rfl, rfl, hsame, congrArg Flags.any hsame, _,
    Buffered.diagnostics_reportAll kept batches, ?_⟩
  rw [Console.printed_reportAll, List.map_map]
  rfl

theorem exchanges_mirror (fuel : Nat) (requests : List Request) {s : Session Buffered}
    {t : Session Console} (hmachine : t.machine = s.machine) (hflags : t.sink.flags = s.sink.flags) :
    Alongside (List.Forall₂ Exchange.Mirrors) (s.exchanges fuel requests)
      (t.exchanges fuel requests) := by
  induction requests generalizing s t with
  | nil => exact .ended .nil
  | cons request rest ih =>
    obtain ⟨m, kept⟩ := s
    obtain ⟨m₁, shown⟩ := t
    obtain rfl : m₁ = m := hmachine
    apply (alike_perform fuel request m₁ kept shown).bind
    rintro ⟨_, _⟩ ⟨answer, _⟩ ⟨rfl, m', batches, rfl, rfl⟩
    have hmirrors := mirrors_of_reportAll m₁ m' hflags request answer batches
    exact (ih rfl hmirrors.flags).map fun _ _ hrest => .cons hmirrors hrest

/-- Whatever requests are made to two new sessions, one of which keeps its diagnostics and one of
which prints them: both are aborted alike, or all requests are answered alike, with the same output
and the same globals, and what is printed in the course of a request is what is kept of it. -/
theorem sinks_interchangeable (fuel : Nat) (requests : List Request) :
    Alongside (List.Forall₂ Exchange.Mirrors)
      ((Session.initial : Session Buffered).exchanges fuel requests)
      ((Session.initial : Session Console).exchanges fuel requests) :=
  exchanges_mirror fuel requests rfl rfl

end Session

end Treewalk
