import Treewalk.Diagnostic
import Treewalk.Proofs.Tape.Parse

/-!
# Programs on a tape

A token list is parsed in one run along its tape, which gives the statements and errors of
`Program.ofTokens` and never looks beyond the tape (`exists_run_of_tokens`). Two things follow.

* `Program.slots_make_progress`: no slot for a declaration is opened twice at one token, each moves
  on, and each that fails stands for one error of its own. So statements and errors together are no
  more than the tokens in front of the first closing one.
* `Program.reads_up_to_first_closing_token`: nothing behind the first closing token matters, and
  where there is none, it does not matter whether it is supplied.
-/

namespace Treewalk

namespace Tape

/-- The number of tokens in front of the first closing one. -/
def openLength (tokens : List Token) : Nat :=
  (tokens.takeWhile (!·.isEof)).length

/-- The run gives the statements and the errors of the program. -/
structure Run.IsOf (run : Run (List Stmt)) (program : Program) : Prop where
  outcome : run.outcome = .ok program.statements
  errors : run.errors.map (fun e => (e.fault, e.token)) = program.errors

/-- What the slots of a run and its errors come to. -/
structure Run.Progresses (tokens : List Token) (run : Run (List Stmt)) : Prop where
  /-- The run ends at the first closing token. -/
  stop : run.tape = (ofTokens tokens).moveTo (openLength tokens)
  atEnd : run.tape.isAtEnd? = some true
  starts : (run.slots.map Slot.start).Nodup
  opens : ∀ s ∈ run.slots, ∃ t, (ofTokens tokens).tokens[s.start]? = some t ∧ t.isEof = false
  moves : ∀ s ∈ run.slots, s.start < s.stop ∧ s.stop ≤ openLength tokens
  settled : ∀ s ∈ run.slots, s.Settled (ofTokens tokens).tokens (openLength tokens)
  /-- An error stands at its token. -/
  places : ∀ e ∈ run.errors, (ofTokens tokens).tokens[e.index]? = some e.token
  /-- The errors but the invalid targets are those of the slots, one for each that fails. -/
  fatal : run.errors.filter (fun e => e.fault ≠ .invalidTarget) = run.slots.filterMap Slot.error
  ordered : (run.slots.filterMap Slot.error).Pairwise (Error.Before (openLength tokens))

section

variable {tokens : List Token} {run : Run (List Stmt)}

theorem faces_ofTokens (tokens : List Token) :
    (ofTokens tokens).Faces (Cursor.ofTokens tokens).ahead (Cursor.ofTokens tokens).stop :=
  ⟨Cursor.ofTokens tokens, shows_ofTokens tokens, rfl, rfl⟩

variable (h : run.Renders (ofTokens tokens) (Cursor.ofTokens tokens).ahead
  (Cursor.ofTokens tokens).stop 0 (Parser.program (Cursor.ofTokens tokens).ahead))

include h

theorem Run.Renders.isOf : run.IsOf (Program.ofTokens tokens) := by
  obtain ⟨stmts, hout⟩ := Parser.exists_outcome_program (Cursor.ofTokens tokens).ahead
  constructor
  · rw [h.outcome, hout]
    simp [Program.ofTokens, hout, Except.mapError, Except.toOption]
  · rw [h.errors, List.map_map]
    rfl

theorem Run.Renders.stop : run.tape = (ofTokens tokens).moveTo (openLength tokens) := by
  rw [h.tape, Parser.rest_program]
  congr 1
  simp [ofTokens, openLength, Cursor.ofTokens]

theorem Run.Renders.account_ofTokens :
    Account (ofTokens tokens).tokens (openLength tokens) 0 (openLength tokens) run.events := by
  have haccount := h.account
  rw [h.stop] at haccount
  simpa [ofTokens, openLength, Cursor.ofTokens] using haccount

theorem Run.Renders.places :
    ∀ e ∈ run.errors, (ofTokens tokens).tokens[e.index]? = some e.token := by
  intro e he
  rw [h.errors] at he
  obtain ⟨place, hplace, rfl⟩ := List.mem_map.mp he
  have hsuffix : place.ahead <:+ (Cursor.ofTokens tokens).ahead :=
    (Parser.reads_program (fun _ => True) _ fun _ _ => trivial).places place hplace
  have hget := (faces_ofTokens tokens).getElem?
    ((Cursor.ofTokens tokens).ahead.length - place.ahead.length) (Nat.sub_le _ _)
  rw [← List.suffix_iff_eq_drop.mp hsuffix] at hget
  have hindex : (Error.ofSyntax (Cursor.ofTokens tokens).stop
      ((ofTokens tokens).index + (Cursor.ofTokens tokens).ahead.length) place).index =
      (ofTokens tokens).index +
        ((Cursor.ofTokens tokens).ahead.length - place.ahead.length) := by
    have hle := hsuffix.length_le
    simp only [Error.ofSyntax]
    omega
  rw [hindex]
  exact hget

theorem Run.Renders.progresses : run.Progresses tokens := by
  have haccount := h.account_ofTokens
  have hfaces := h.faces (faces_ofTokens tokens)
  have hwithin : ∀ s ∈ run.slots,
      (Event.slot s).Within (ofTokens tokens).tokens (openLength tokens) 0 (openLength tokens) := by
    intro s hs
    obtain ⟨event, hevent, hslot⟩ := List.mem_filterMap.mp hs
    cases event with
    | invalid e => cases hslot
    | slot s' =>
      obtain rfl := Option.some.inj hslot
      exact haccount.within _ hevent
  refine ⟨h.stop, ?_, haccount.nodup_starts, ?_, ?_, ?_, h.places, ?_, ?_⟩
  · rw [Parser.rest_program] at hfaces
    obtain ⟨c, hc, hahead, hstop⟩ := hfaces
    rw [hc.isAtEnd?, Cursor.isAtEnd, Cursor.peek, hahead, List.headD_nil, hc.stop]
  · intro s hs
    obtain ⟨-, hlt, hle, -⟩ := hwithin s hs
    have hstart : s.start < (Cursor.ofTokens tokens).ahead.length := Nat.lt_of_lt_of_le hlt hle
    have hget := (faces_ofTokens tokens).getElem? s.start hstart.le
    rw [List.drop_eq_getElem_cons hstart, List.headD_cons] at hget
    refine ⟨(Cursor.ofTokens tokens).ahead[s.start], ?_, ?_⟩
    · simpa [ofTokens] using hget
    · exact (faces_ofTokens tokens).isEof_eq_false _ (List.getElem_mem hstart)
  · intro s hs
    obtain ⟨-, hlt, hle, -⟩ := hwithin s hs
    exact ⟨hlt, hle⟩
  · intro s hs
    exact (hwithin s hs).2.2.2
  · rw [Run.errors, haccount.filter_errors, Run.slots, Event.filterMap_slot?_error]
  · rw [Run.slots, Event.filterMap_slot?_error]
    exact haccount.ordered

end

/-- Each token list has its run. -/
theorem exists_run_of_tokens (tokens : List Token) :
    ∃ run, Reader.parse tokens = some run ∧ run.IsOf (Program.ofTokens tokens) ∧
      run.Progresses tokens ∧ run.events.length ≤ openLength tokens := by
  obtain ⟨run, hrun, h⟩ := exists_renders_parse tokens
  exact ⟨run, hrun, h.isOf, h.progresses, h.account_ofTokens.length_events_le⟩

end Tape

namespace Program

open Tape

/-- Parsing always makes progress, and errors do not multiply. -/
theorem slots_make_progress (tokens : List Token) :
    ∃ run, Reader.parse tokens = some run ∧ run.IsOf (ofTokens tokens) ∧ run.Progresses tokens ∧
      (ofTokens tokens).statements.length + (ofTokens tokens).errors.length ≤
        openLength tokens := by
  obtain ⟨run, hrun, hof, hprogress, hevents⟩ := exists_run_of_tokens tokens
  refine ⟨run, hrun, hof, hprogress, ?_⟩
  have hcounts := counts_declarations (fun _ => false) _ _ [] (Tape.ofTokens tokens)
    (ofTokens tokens).statements run.events run.tape (by rw [← hof.outcome]; exact hrun)
  have herrors : (ofTokens tokens).errors.length = run.errors.length := by
    rw [← hof.errors, List.length_map]
  rw [herrors]
  calc (ofTokens tokens).statements.length + run.errors.length
      ≤ 0 + run.events.length := hcounts
    _ = run.events.length := Nat.zero_add _
    _ ≤ openLength tokens := hevents

/-- Two braces that nothing closes: both slots fail at the closing token. -/
example :
    let brace : Token := ⟨.mark .leftBrace, "\x7b", 1⟩
    (Reader.parse [brace, brace]).map
        (fun run => run.slots.map fun s => (s.start, s.stop, s.error.map Error.index)) =
      some [(1, 2, some 2), (0, 2, some 2)] := by
  decide +kernel

end Program

/-! ## Up to the first closing token -/

namespace Program

def diagnostics (program : Program) : List Diagnostic :=
  program.errors.map fun (fault, t) => .ofSyntaxFault fault t

/-- A diagnostic shows nothing of a closing token but its line. -/
theorem ofSyntaxFault_token_eq {stop stop' : Token} (hstop : stop.isEof = true)
    (hstop' : stop'.isEof = true) (hline : stop.line = stop'.line) (e : SyntaxError) :
    Diagnostic.ofSyntaxFault e.fault (e.token stop) =
      Diagnostic.ofSyntaxFault e.fault (e.token stop') := by
  cases hahead : e.ahead with
  | nil =>
    simp only [SyntaxError.token, hahead, List.headD_nil, Diagnostic.ofSyntaxFault, Token.location,
      hstop, hstop', hline, if_true]
  | cons t ts => simp only [SyntaxError.token, hahead, List.headD_cons]

/-- Only the tokens up to the first closing one matter, a missing one is supplied, and no token is
looked up beyond the last. -/
theorem reads_up_to_first_closing_token {front : List Token}
    (hfront : ∀ t ∈ front, t.isEof = false) {stop : Token} (hstop : stop.isEof = true)
    (behind : List Token) :
    ofTokens (front ++ stop :: behind) = ofTokens (front ++ [stop]) ∧
      (∀ t, front.getLast? = some t → stop.line = t.line →
        (ofTokens front).statements = (ofTokens (front ++ [stop])).statements ∧
          (ofTokens front).diagnostics = (ofTokens (front ++ [stop])).diagnostics) ∧
      ofTokens [] = ⟨[], []⟩ ∧
      (∀ tokens, ∃ run, Tape.Reader.parse tokens = some run ∧ run.IsOf (ofTokens tokens)) ∧
      ∀ tokens operations, (Tape.ofTokens tokens).answers? operations =
        some ((Cursor.ofTokens tokens).answers operations) := by
  refine ⟨?_, ?_, rfl, ?_, Tape.answers_ofTokens⟩
  · simp only [ofTokens, Cursor.ofTokens_append_cons hfront hstop]
  · intro t hlast hline
    have heof : (Token.eof (Cursor.lastLine front)).isEof = true := rfl
    have hline' : (Token.eof (Cursor.lastLine front)).line = stop.line := by
      rw [hline]
      simp [Token.eof, Cursor.lastLine, hlast]
    simp only [diagnostics, ofTokens, Cursor.ofTokens_append_cons hfront hstop,
      Cursor.ofTokens_of_open hfront, List.map_map]
    refine ⟨trivial, List.map_congr_left fun e _ => ?_⟩
    exact ofSyntaxFault_token_eq heof hstop hline' e
  · intro tokens
    obtain ⟨run, hrun, hof, -⟩ := Tape.exists_run_of_tokens tokens
    exact ⟨run, hrun, hof⟩

/-- A statement without its semicolon, in front of nothing and of a closing token. -/
theorem unfinished_print_at_end :
    let unfinished : List Token := [⟨.keyword .kwPrint, "print", 2⟩, ⟨.keyword .kwNil, "nil", 3⟩]
    let semicolon : Token := ⟨.mark .semicolon, ";", 4⟩
    (ofTokens unfinished).diagnostics = [.source 3 "at end" "Expect ';' after value."] ∧
      (ofTokens (unfinished ++ Token.eof 3 :: [semicolon])).diagnostics =
        [.source 3 "at end" "Expect ';' after value."] := by
  intro unfinished semicolon
  have hopen : ∀ t ∈ unfinished, t.isEof = false := by simp [unfinished, Token.isEof]
  have hclosed : (ofTokens (unfinished ++ [Token.eof 3])).diagnostics =
      [.source 3 "at end" "Expect ';' after value."] := by decide +kernel
  obtain ⟨hbehind, hmissing, -⟩ :=
    reads_up_to_first_closing_token hopen (show (Token.eof 3).isEof = true from rfl) [semicolon]
  constructor
  · rw [(hmissing ⟨.keyword .kwNil, "nil", 3⟩ rfl rfl).2]
    exact hclosed
  · rw [hbehind]
    exact hclosed

end Program

end Treewalk
