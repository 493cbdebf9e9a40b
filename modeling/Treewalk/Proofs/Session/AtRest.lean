import Mathlib
import Treewalk.Proofs.Session.Effect
import Treewalk.Proofs.Stack.Refinement

/-!
# Sessions at rest

Between requests a machine is at rest: nothing is pending, and no scope but the globals is live
(`Machine.AtRest`). This is an invariant of sessions (`Session.Reachable.atRest`), since a run that
ends in an error has dropped all scopes that it opened, and its output is taken like any other.

From a machine at rest the output of a run is all that it printed. `run_all_or_nothing` says what a
run comes to: a rejected source changes nothing and prints nothing; an accepted one has the effects
that the stack gives it, up to a run-time error if there is one.
-/

namespace Treewalk

/-! ## Machines at rest -/

structure Machine.AtRest (m : Machine) : Prop where
  wellFormed : m.scopes.WellFormed
  size : m.scopes.size = 1
  pending : m.pending = []

theorem Scopes.Keeps.size_eq {s s' : Scopes} (h : Keeps s s') : s'.size = s.size := by
  have hlength := congrArg List.length h.shape
  rwa [Scopes.shape, Scopes.shape, List.length_map, List.length_map] at hlength

namespace Machine

variable {m m' : Machine}

theorem atRest_initial : initial.AtRest :=
  ⟨Scopes.wellFormed_initial, rfl, rfl⟩

/-- The one scope that is live is that of the globals. -/
theorem AtRest.exists_frames_eq (h : m.AtRest) :
    ∃ g, m.scopes.frames = [g] ∧ g.id = Scopes.globals := by
  obtain ⟨newer, g, hframes, hg, -⟩ := h.wellFormed.base
  have hsize := h.size
  rw [Scopes.size, hframes, List.length_append, List.length_singleton] at hsize
  have hnil : newer = [] := List.eq_nil_of_length_eq_zero (by omega)
  rw [hnil] at hframes
  exact ⟨g, hframes, hg⟩

/-- A run that ends leaves the machine at rest, be it by an error. -/
theorem AtRest.takeOutput_interpret (h : m.AtRest) {fuel : Nat} {stmts : List Stmt}
    {r : Except Stop Unit} (hrun : interpret fuel stmts m = (r, m'))
    (hend : ∀ a, r ≠ .error (.abort a)) : m'.takeOutput.2.AtRest := by
  obtain ⟨hwf, -, hkeeps⟩ := balanced_executeAll fuel Scopes.globals stmts m h.wellFormed
  change (interpret fuel stmts m).2.scopes.WellFormed at hwf
  change (∀ a, (interpret fuel stmts m).1 ≠ _) → m.scopes.Keeps (interpret fuel stmts m).2.scopes
    at hkeeps
  rw [hrun] at hwf hkeeps
  exact ⟨hwf, (hkeeps hend).size_eq.trans h.size, rfl⟩

theorem AtRest.develops (h : m.AtRest) (hdevelops : m.Develops m') : m'.AtRest := by
  induction hdevelops with
  | refl => exact h
  | run _ hrun hend _ ih => exact ih (h.takeOutput_interpret hrun hend)

/-- A run from a machine at rest does what the stack does, and its output is what was printed. -/
theorem AtRest.executesAll (h : m.AtRest) {fuel : Nat} {stmts : List Stmt}
    {r : Except Stop Unit} (hrun : interpret fuel stmts m = (r, m'))
    (hend : ∀ a, r ≠ .error (.abort a)) :
    Stack.ExecutesAll stmts ⟨[m.globals], ""⟩ r ⟨[m'.globals], m'.takeOutput.1⟩ ∧
      m'.standardOutput = m.standardOutput ++ m'.takeOutput.1 := by
  obtain ⟨⟨stack, printed⟩, hexec, hmirrors⟩ :=
    executesAll_of_executeAll stmts (mirrors_start h.wellFormed) hrun (hend .outOfFuel)
  obtain ⟨hglobals, hpending, hwritten⟩ := hmirrors.shows
  have hnothing : m.takeOutput.1 = "" := by
    rw [takeOutput, h.pending]
    rfl
  rw [hnothing, String.empty_append] at hpending
  obtain rfl : stack = [m'.globals] := hglobals
  obtain rfl : m'.takeOutput.1 = printed := hpending
  exact ⟨hexec, hwritten⟩

end Machine

/-! ## Sessions -/

namespace Session

variable {σ : Type} [Sink σ]

/-- What requests lead to, from a session that has just begun. -/
inductive Reachable : Session σ → Prop
  | initial : Reachable .initial
  | perform {s s' : Session σ} (h : Reachable s) {fuel : Nat} {request : Request} {answer : Answer}
      (hanswer : s.perform fuel request = .ok (answer, s')) : Reachable s'

theorem Reachable.atRest [LawfulSink σ] {s : Session σ} (h : s.Reachable) : s.machine.AtRest := by
  induction h with
  | initial => exact Machine.atRest_initial
  | perform _ hanswer ih => exact ih.develops ((orderly_perform _ _).develops hanswer)

/-- What the flags and the entries are when a run has ended. -/
theorem reported_of_run [Log σ] {sink sink' : σ} {r : Except Stop Unit}
    (hsink : sink' = Sink.reportAll sink [diagnosticsOf r]) (hend : ∀ a, r ≠ .error (.abort a)) :
    (r = .ok () ∧ Sink.flags sink' = ⟨false, false⟩ ∧ Log.entries sink' = Log.entries sink) ∨
      ∃ e, r = .error (.error e) ∧ Sink.flags sink' = ⟨false, true⟩ ∧
        Log.entries sink' = Log.entries sink ++ [Log.entry (σ := σ) (.ofRuntimeError e)] := by
  rw [hsink, Sink.entries_reportAll, Sink.flags_reportAll_singleton]
  rcases r with (e | abort) | _
  · exact .inr ⟨e, rfl, rfl, rfl⟩
  · exact absurd rfl (hend abort)
  · exact .inl ⟨rfl, rfl, List.append_nil _⟩

/-- Whatever requests came before, nothing is pending, only the globals are live, and no further
request is aborted but for want of fuel. A rejected source changes nothing, prints nothing and is
reported as such. Where an accepted one ends, its output is all that went to standard output, the
globals and the output are those that the stack gives it, and a run-time error, if there was one,
is all that is reported. -/
theorem run_all_or_nothing [Log σ] {s : Session σ} (h : s.Reachable) :
    (s.machine.pending = [] ∧ ∃ g, s.machine.scopes.frames = [g] ∧ g.id = Scopes.globals) ∧
    (∀ fuel request abort, s.perform fuel request = .error abort → abort = .outOfFuel) ∧
    (∀ source, ¬ Accepted source → ∀ fuel, ∃ s', s.run fuel source = .ok ("", s') ∧
      s'.machine = s.machine ∧ Sink.flags s'.sink = ⟨true, false⟩ ∧
      Log.entries s'.sink =
        Log.entries s.sink ++ (faultsOf source).map (Log.entry (σ := σ))) ∧
    ∀ source, Accepted source → ∀ fuel output s', s.run fuel source = .ok (output, s') →
      s'.machine.standardOutput = s.machine.standardOutput ++ output ∧
      ∃ r, (interpret fuel (statementsOf source) s.machine).1 = r ∧
        Stack.ExecutesAll (statementsOf source) ⟨[s.machine.globals], ""⟩ r
          ⟨[s'.machine.globals], output⟩ ∧
        ((r = .ok () ∧ Sink.flags s'.sink = ⟨false, false⟩ ∧
            Log.entries s'.sink = Log.entries s.sink) ∨
          ∃ e, r = .error (.error e) ∧ Sink.flags s'.sink = ⟨false, true⟩ ∧
            Log.entries s'.sink =
              Log.entries s.sink ++ [Log.entry (σ := σ) (.ofRuntimeError e)]) := by
  have hrest := h.atRest
  refine ⟨⟨hrest.pending, hrest.exists_frames_eq⟩, ?_, ?_, ?_⟩
  · intro fuel request abort herror
    exact (orderly_perform fuel request).error herror
  · intro source hrejected fuel
    refine ⟨_, run_of_not_accepted hrejected fuel s, rfl,
      flags_of_not_accepted hrejected s.sink, ?_⟩
    rw [Sink.entries_reportAll, List.flatten_singleton]
  · intro source haccepted fuel output s' hs
    obtain ⟨r, m, hrun, hend, rfl, rfl⟩ := (run_eq_ok_iff haccepted).mp hs
    obtain ⟨hexec, hwritten⟩ := hrest.executesAll hrun hend
    exact ⟨hwritten, r, by rw [hrun], hexec, reported_of_run rfl hend⟩

/-- It is so behind a run-time error in a block inside a loop. -/
theorem all_or_nothing_behind_runtime_error :
    ∃ s : Session Buffered, s.Reachable ∧
      s.sink.diagnostics = ["Operand must be a number.\n[line 1]"] ∧
      s.machine.pending = [] ∧ (∃ g, s.machine.scopes.frames = [g] ∧ g.id = Scopes.globals) ∧
      (∃ s', s.run 1 "print 1; @" = .ok ("", s') ∧ s'.machine = s.machine) ∧
      ∃ s', s.run 1 "print nil; -nil;" = .ok ("nil\n", s') ∧
        s'.machine.standardOutput = s.machine.standardOutput ++ "nil\n" := by
  let s : Session Buffered := ⟨⟨⟨[⟨Scopes.globals, none, .empty⟩], 2⟩, [], ["nil\n"]⟩,
    ⟨["Operand must be a number.\n[line 1]"], ⟨false, true⟩⟩⟩
  have hfirst : Session.initial.perform 1 (.source .run "while (true) { print nil; -nil; }") =
      .ok (.output "nil\n", s) := by
    cbv
  have hreachable : s.Reachable := Reachable.initial.perform hfirst
  have hfault : ¬ Accepted "print 1; @" := by decide +kernel
  have hsound : Accepted "print nil; -nil;" := by decide +kernel
  have hlater : ∃ s', s.run 1 "print nil; -nil;" = .ok ("nil\n", s') := by
    refine ⟨⟨⟨⟨[⟨Scopes.globals, none, .empty⟩], 2⟩, [], ["nil\n", "nil\n"]⟩,
      ⟨["Operand must be a number.\n[line 1]", "Operand must be a number.\n[line 1]"],
        ⟨false, true⟩⟩⟩, ?_⟩
    cbv
  obtain ⟨⟨hpending, hframes⟩, -, hrejected, haccepted⟩ := run_all_or_nothing hreachable
  refine ⟨s, hreachable, rfl, hpending, hframes, ?_, ?_⟩
  · obtain ⟨s', hrun, hmachine, -⟩ := hrejected _ hfault 1
    exact ⟨s', hrun, hmachine⟩
  · obtain ⟨s', hrun⟩ := hlater
    exact ⟨s', hrun, (haccepted _ hsound 1 _ s' hrun).1⟩

end Session

end Treewalk
