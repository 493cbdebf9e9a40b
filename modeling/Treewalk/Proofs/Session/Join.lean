import Mathlib
import Treewalk.Proofs.Grammar.Acceptance
import Treewalk.Proofs.Machine.Fuel
import Treewalk.Proofs.Machine.Independence
import Treewalk.Proofs.Session.Run

/-!
# Sources in pieces

Running two accepted sources joined by a newline is running one after the other in the same session,
unless the first ends in a run-time error, which ends the whole (`run_join`). It rests on the three
stages, one after the other.

* `scan_join`: the tokens of the second source are only moved down.
* `Accepted.join`: a program behind a program is a program, and the grammar does not see lines.
* `interpret_join`: neither does the machine, and output that has not been taken makes no
  difference to it.
-/

namespace Treewalk

open Grammar

variable {a b : String}

/-! ## Parsing -/

theorem accepted_iff {source : String} :
    Accepted source ↔
      (scan source).errors = [] ∧
        Declarations .nearest (innerTokens source) (statementsOf source) := by
  rw [Accepted, ← takeWhile_tokens_scan, Program.declarations_nearest_iff]
  simp [statementsOf]

theorem Accepted.join (ha : Accepted a) (hb : Accepted b) :
    Accepted (a ++ "\n" ++ b) ∧
      statementsOf (a ++ "\n" ++ b) =
        statementsOf a ++ (statementsOf b).map (Stmt.map (Token.raise (linesBefore a))) := by
  obtain ⟨hscanA, hdeclsA⟩ := accepted_iff.mp ha
  obtain ⟨hscanB, hdeclsB⟩ := accepted_iff.mp hb
  have hclosed : ∀ e ∈ (scan a).errors, e.fault ≠ .unterminatedString := by simp [hscanA]
  have hjoined := Declarations.append (hdeclsB.map (f := Token.raise (linesBefore a)) fun _ => rfl)
    hdeclsA
  rw [← innerTokens_join hclosed, ← takeWhile_tokens_scan,
    Program.declarations_nearest_iff] at hjoined
  refine ⟨⟨?_, hjoined.1⟩, hjoined.2⟩
  rw [(scan_join hclosed b).2, hscanA, hscanB]
  rfl

/-! ## Running -/

/-- A diagnostic some lines further down. -/
def Diagnostic.raise (raised : UInt32) : Diagnostic → Diagnostic
  | .source line location message => .source (line + raised) location message
  | .runtime line message => .runtime (line + raised) message

theorem diagnosticsOf_map (raised : UInt32) (r : Except Stop Unit) :
    Session.diagnosticsOf (r.mapError (Stop.map (Token.raise raised))) =
      (Session.diagnosticsOf r).map (Diagnostic.raise raised) := by
  rcases r with (⟨fault, t⟩ | _) | _
  · cases fault <;> rfl
  · rfl
  · rfl

theorem Machine.withPending_takeOutput (m : Machine) :
    m.takeOutput.2.withPending m.pending = m := rfl

theorem Machine.takeOutput_withPending (m : Machine) (older : List String) :
    (m.withPending older).takeOutput =
      (String.join older.reverse ++ m.takeOutput.1, m.takeOutput.2) := by
  simp [takeOutput, withPending, String.join_append]

/-- Where the first program succeeds, the second goes on, on the same machine. -/
theorem interpret_join {fuel : Nat} {stmts others : List Stmt} {m m₁ m₂ : Machine}
    {r : Except Stop Unit} (raised : UInt32) (hrun : interpret fuel stmts m = (.ok (), m₁))
    (hrun' : interpret fuel others m₁.takeOutput.2 = (r, m₂)) :
    interpret fuel (stmts ++ others.map (Stmt.map (Token.raise raised))) m =
      (r.mapError (Stop.map (Token.raise raised)), m₂.withPending m₁.pending) := by
  have hgoes := interpret_withPending fuel others m₁.takeOutput.2 m₁.pending
  rw [m₁.withPending_takeOutput, hrun'] at hgoes
  rw [interpret_append, hrun]
  change interpret fuel (others.map (Stmt.map (Token.raise raised))) m₁ = _
  rw [interpret_map (f := Token.raise raised) fun _ => ⟨rfl, rfl⟩, hgoes]

/-- A run-time error of an accepted source is reported at one of its tokens. -/
theorem exists_token_of_error {source : String} {fuel : Nat} {m m' : Machine} {e : RuntimeError}
    (hrun : interpret fuel (statementsOf source) m = (.error (.error e), m')) :
    e.token ∈ innerTokens source := by
  obtain ⟨⟨hmem, hfits⟩, -⟩ := stopsOnly_interpret (statementsOf_every source) fuel m
    (.error e) (by rw [hrun])
  rw [tokens_scan] at hmem
  rcases List.mem_append.mp hmem with hmem | hmem
  · exact hmem
  · rw [List.mem_singleton.mp hmem] at hfits
    cases hrole : e.fault.role with
    | name => simp [hrole, Role.Fits, Role.kinds, Token.eof] at hfits
    | operator position =>
      cases position <;> simp [hrole, Role.Fits, Role.kinds, Token.eof] at hfits

variable {σ : Type} [Sink σ] [LawfulSink σ]

/-- A text and another behind a newline, both accepted: if running the first ends in a run-time
error, then running the whole is the same run. Otherwise running the whole is running both, one
after the other, with the lines raised in what is reported of the second. -/
theorem run_join {s sA : Session σ} {a b : String} (ha : Accepted a) (hb : Accepted b)
    {fuelA : Nat} {outputA : String} (hrunA : s.run fuelA a = .ok (outputA, sA)) :
    Accepted (a ++ "\n" ++ b) ∧
      ((Sink.flags sA.sink).runtimeError = true →
        ∀ fuel ≥ fuelA, s.run fuel (a ++ "\n" ++ b) = .ok (outputA, sA)) ∧
      ((Sink.flags sA.sink).runtimeError = false →
        ∀ (fuelB : Nat) (outputB : String) (sB : Session σ), sA.run fuelB b = .ok (outputB, sB) →
          sB.sink = Sink.writeAll (Sink.reset sA.sink) (sA.reported fuelB b) ∧
          (∀ fuel ≥ max fuelA fuelB, s.run fuel (a ++ "\n" ++ b) =
            .ok (outputA ++ outputB, ⟨sB.machine, Sink.writeAll (Sink.reset s.sink)
              ((sA.reported fuelB b).map (Diagnostic.raise (linesBefore a)))⟩)) ∧
          ∀ d ∈ sA.reported fuelB b, ∃ line message, d = .runtime line message ∧
            ((a ++ "\n" ++ b).toList.count '\n' < UInt32.size - 1 →
              (line + linesBefore a).toNat = line.toNat + (a.toList.count '\n' + 1))) := by
  obtain ⟨hjoined, hstmts⟩ := ha.join hb
  obtain ⟨r, m, hrun, hne, rfl, rfl⟩ := (Session.run_eq_ok_iff ha).mp hrunA
  have hflag := Session.runtimeError_writeAll s.sink hne
  refine ⟨hjoined, ?_, ?_⟩
  · intro herror fuel hfuel
    have hrun' := interpret_of_le hrun (hne .outOfFuel) hfuel
    refine (Session.run_eq_ok_iff hjoined).mpr ⟨r, m, ?_, hne, rfl, rfl⟩
    rw [hstmts, interpret_append, hrun']
    cases r with
    | error => rfl
    | ok => simp [hflag.mpr rfl] at herror
  · intro hok fuelB outputB sB hrunB
    obtain rfl := hflag.mp hok
    obtain ⟨rB, mB, hrun', hneB, rfl, rfl⟩ := (Session.run_eq_ok_iff hb).mp hrunB
    have hreported : Session.reported fuelB b ⟨m.takeOutput.2, Sink.writeAll (Sink.reset s.sink)
        (Session.diagnosticsOf (.ok ()))⟩ = Session.diagnosticsOf rB := by
      rw [Session.reported, hrun']
    rw [hreported]
    refine ⟨rfl, ?_, ?_⟩
    · intro fuel hfuel
      have hfuelA : fuelA ≤ fuel := by omega
      have hfuelB : fuelB ≤ fuel := by omega
      have hrunA' := interpret_of_le hrun (hne .outOfFuel) hfuelA
      have hrunB' := interpret_of_le hrun' (hneB .outOfFuel) hfuelB
      have hwhole := interpret_join (linesBefore a) hrunA' hrunB'
      rw [← hstmts] at hwhole
      refine (Session.run_eq_ok_iff hjoined).mpr ⟨_, _, hwhole, ?_, ?_, ?_⟩
      · intro abort habort
        rcases rB with (_ | _) | _ <;> cases habort
        exact hneB _ rfl
      · rw [Machine.takeOutput_withPending]
        rfl
      · rw [Machine.takeOutput_withPending, diagnosticsOf_map]
    · intro d hd
      rcases rB with (e | abort) | _
      · obtain rfl := List.mem_singleton.mp hd
        have htoken := exists_token_of_error hrun'
        exact ⟨e.line, e.message, rfl, fun hlines => toNat_line_raise hlines htoken⟩
      · exact absurd rfl (hneB abort)
      · cases hd

/-- An error on the first line of the second text is one on the second line of the whole. -/
theorem joined_run_reports_line_two :
    ∃ s : Session Buffered,
      Session.initial.run 1 ("print nil;" ++ "\n" ++ "print -nil;") = .ok ("nil\n", s) ∧
        s.sink.diagnostics = ["Operand must be a number.\n[line 2]"] := by
  have hrunA : (Session.initial : Session Buffered).run 1 "print nil;" =
      .ok ("nil\n", ⟨{ Machine.initial with written := ["nil\n"] }, ⟨[], .clear⟩⟩) := by
    cbv
  have hrunB : Session.run 1 "print -nil;"
      ⟨{ Machine.initial with written := ["nil\n"] }, (⟨[], .clear⟩ : Buffered)⟩ =
      .ok ("", ⟨{ Machine.initial with written := ["nil\n"] },
        ⟨["Operand must be a number.\n[line 1]"], ⟨false, true⟩⟩⟩) := by
    cbv
  have ha : Accepted "print nil;" := by decide +kernel
  have hb : Accepted "print -nil;" := by decide +kernel
  obtain ⟨-, -, hjoin⟩ := run_join ha hb hrunA
  obtain ⟨-, hrun, -⟩ := hjoin rfl 1 _ _ hrunB
  refine ⟨_, hrun 1 (by decide), ?_⟩
  cbv

end Treewalk
