import Treewalk.Proofs.Machine.Stops
import Treewalk.Proofs.Token.Join
import Treewalk.Session

/-!
# Runs of sources

A source is accepted if scanning and parsing find nothing wrong with it. `run_of_accepted` says that
a session runs the statements of such a source, and `execute_eq_ok_iff` what it makes of the end of
their run.

`LawfulSink` is what a session relies on in a sink: a reset clears the flags, and each diagnostic
raises its own. Both sinks are lawful.
-/

namespace Treewalk

/-! ## Lawful sinks -/

class LawfulSink (σ : Type) [Sink σ] : Prop where
  flags_empty : Sink.flags (Sink.empty : σ) = .clear
  flags_write (s : σ) (d : Diagnostic) : Sink.flags (Sink.write s d) = (Sink.flags s).add d
  flags_reset (s : σ) : Sink.flags (Sink.reset s) = .clear

instance : LawfulSink Buffered where
  flags_empty := rfl
  flags_write _ _ := rfl
  flags_reset _ := rfl

instance : LawfulSink Console where
  flags_empty := rfl
  flags_write _ _ := rfl
  flags_reset _ := rfl

/-! ## Accepted sources -/

/-- There is no lexical and no syntax error. -/
def Accepted (source : String) : Prop :=
  (scan source).errors = [] ∧ (Program.ofTokens (scan source).tokens).errors = []

instance (source : String) : Decidable (Accepted source) :=
  inferInstanceAs (Decidable (_ ∧ _))

/-- The statements of a source that could be parsed. -/
def statementsOf (source : String) : List Stmt :=
  (Program.ofTokens (scan source).tokens).statements

/-- Each token in the statements is one of the source, and fits its role. -/
theorem statementsOf_every (source : String) :
    ∀ s ∈ statementsOf source,
      s.Every fun role t => t ∈ (scan source).tokens ∧ role.Fits t :=
  Program.statements_every (scan source).tokens

namespace Session

variable {σ : Type} [Sink σ]

theorem parse_of_accepted {source : String} (h : Accepted source) (s : Session σ) :
    s.parse source = (statementsOf source, { s with sink := Sink.reset s.sink }) := by
  simp [parse, statementsOf, h.1, h.2, Sink.writeAll]

theorem run_of_accepted [LawfulSink σ] {source : String} (h : Accepted source) (fuel : Nat)
    (s : Session σ) :
    s.run fuel source =
      execute fuel (statementsOf source) { s with sink := Sink.reset s.sink } := by
  simp [run, parse_of_accepted h, LawfulSink.flags_reset, Flags.clear]

/-- What a session reports of a run. -/
def diagnosticsOf : Except Stop Unit → List Diagnostic
  | .error (.error e) => [.ofRuntimeError e]
  | _ => []

/-- What the run of a source is reported to have come to. -/
def reported (fuel : Nat) (source : String) (s : Session σ) : List Diagnostic :=
  diagnosticsOf (interpret fuel (statementsOf source) s.machine).1

theorem execute_eq_ok_iff {fuel : Nat} {stmts : List Stmt} {s s' : Session σ} {output : String} :
    s.execute fuel stmts = .ok (output, s') ↔
      ∃ r m, interpret fuel stmts s.machine = (r, m) ∧ (∀ a, r ≠ .error (.abort a)) ∧
        output = m.takeOutput.1 ∧
        s' = ⟨m.takeOutput.2, Sink.writeAll s.sink (diagnosticsOf r)⟩ := by
  unfold execute
  constructor
  · intro h
    split at h
    · cases h
    · rename_i e m hrun
      cases h
      exact ⟨_, m, hrun, by simp, rfl, rfl⟩
    · rename_i m hrun
      cases h
      exact ⟨_, m, hrun, by simp, rfl, rfl⟩
  · rintro ⟨r, m, hrun, hne, rfl, rfl⟩
    rw [hrun]
    rcases r with (e | a) | _
    · rfl
    · exact absurd rfl (hne a)
    · rfl

theorem run_eq_ok_iff [LawfulSink σ] {source : String} (h : Accepted source) {fuel : Nat}
    {s s' : Session σ} {output : String} :
    s.run fuel source = .ok (output, s') ↔
      ∃ r m, interpret fuel (statementsOf source) s.machine = (r, m) ∧
        (∀ a, r ≠ .error (.abort a)) ∧ output = m.takeOutput.1 ∧
        s' = ⟨m.takeOutput.2, Sink.writeAll (Sink.reset s.sink) (diagnosticsOf r)⟩ := by
  rw [run_of_accepted h, execute_eq_ok_iff]

/-- The flag for run-time errors tells whether there was one. -/
theorem runtimeError_writeAll [LawfulSink σ] (sink : σ) {r : Except Stop Unit}
    (hr : ∀ a, r ≠ .error (.abort a)) :
    (Sink.flags (Sink.writeAll (Sink.reset sink) (diagnosticsOf r))).runtimeError = false ↔
      r = .ok () := by
  rcases r with (e | a) | _
  · simp [diagnosticsOf, Sink.writeAll, LawfulSink.flags_write, Diagnostic.ofRuntimeError,
      Flags.add]
  · exact absurd rfl (hr a)
  · simp [diagnosticsOf, Sink.writeAll, LawfulSink.flags_reset, Flags.clear]

end Session

end Treewalk
