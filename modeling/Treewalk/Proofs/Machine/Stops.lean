import Treewalk.Proofs.Machine.Congruence
import Treewalk.Proofs.Parser.Reads

/-!
# Where a run stops

Whatever stops a run, other than the lack of fuel, stands at a token of the tree: a run-time
error at a token in the role that its fault belongs to, an abort at an operator that does not fit
its position. `Stop.ArisesFrom P` says so of a tree whose tokens have the property `P`, and
`stopsOnly_interpret` proves it for all statements and machines.

* `statements_fit_and_never_abort`: the parser returns trees whose tokens all fit their roles, and a
  run of such trees that ends has succeeded or has come to a run-time error.
-/

namespace Treewalk

/-! ## Places of a stop -/

namespace RuntimeFault

/-- The role of the token that an error with this fault stands at. -/
def role : RuntimeFault → Role
  | undefinedVariable => .name
  | operandNotNumber => .operator .unary
  | operandsNotNumbers | operandsNotSummable => .operator .binary

/-- The kinds of operator that lead to a fault. Any name may be undefined. -/
def RaisedBy : RuntimeFault → TokenKind → Prop
  | undefinedVariable, _ => True
  | operandNotNumber, kind => kind = .mark .minus
  | operandsNotSummable, kind => kind = .mark .plus
  | operandsNotNumbers, kind =>
    kind ∈ [.mark .minus, .mark .star, .mark .slash, .mark .less, .mark .lessEqual,
      .mark .greater, .mark .greaterEqual]

end RuntimeFault

def Stop.ArisesFrom (P : Role → Token → Prop) : Stop → Prop
  | .error e => P e.fault.role e.token ∧ e.fault.RaisedBy e.token.kind
  | .abort (.unexpectedOperator position kind) =>
    ∃ t, P (.operator position) t ∧ t.kind = kind ∧ ¬ (Role.operator position).Fits t
  | .abort .outOfFuel => True

namespace Exec

variable {α β : Type} {Q : Stop → Prop}

/-- Whatever the machine, the computation stops for no other reason. -/
def StopsOnly (Q : Stop → Prop) (x : Exec α) : Prop :=
  ∀ m stop, (x m).1 = .error stop → Q stop

theorem stopsOnly_pure (a : α) : StopsOnly Q (pure a) := by
  intro m stop h
  cases h

theorem StopsOnly.bind {x : Exec α} {f : α → Exec β} (hx : StopsOnly Q x)
    (hf : ∀ a, StopsOnly Q (f a)) : StopsOnly Q (x >>= f) := by
  intro m stop h
  rw [bind_apply] at h
  cases hm : x m with
  | mk r m' =>
    rw [hm] at h
    cases r with
    | ok a => exact hf a m' stop h
    | error stop' =>
      cases h
      exact hx m stop (by rw [hm])

theorem stopsOnly_liftExcept {r : Except Stop α} (h : ∀ stop, r = .error stop → Q stop) :
    StopsOnly Q (liftExcept r) := by
  intro m stop hr
  rw [liftExcept_apply] at hr
  exact h stop hr

theorem stopsOnly_get {scope : ScopeId} {name : Token}
    (h : Q (.error ⟨.undefinedVariable, name⟩)) : StopsOnly Q (get scope name) := by
  intro m stop hr
  simp only [get, Scopes.get] at hr
  split at hr <;> cases hr
  exact h

theorem stopsOnly_assign {scope : ScopeId} {name : Token} {value : Value}
    (h : Q (.error ⟨.undefinedVariable, name⟩)) : StopsOnly Q (assign scope name value) := by
  intro m stop hr
  simp only [assign, Scopes.assign] at hr
  split at hr
  · cases hr
  · rename_i e he
    split at he <;> cases he
    cases hr
    exact h

theorem StopsOnly.inBlock {body : ScopeId → Exec Unit} (h : ∀ inner, StopsOnly Q (body inner))
    (scope : ScopeId) : StopsOnly Q (inBlock scope body) := by
  intro m stop hr
  rw [inBlock_apply, leave_fst] at hr
  exact h m.scopes.next _ stop hr

end Exec

/-! ## Operators -/

section

variable {P : Role → Token → Prop} {operator : Token} {stop : Stop}

theorem arisesFrom_onNumbers {f : Number → Number → Value} {x y : Value}
    (hk : RuntimeFault.operandsNotNumbers.RaisedBy operator.kind)
    (hop : P (.operator .binary) operator) (h : onNumbers operator f x y = .error stop) :
    stop.ArisesFrom P := by
  unfold onNumbers at h
  split at h <;> cases h
  exact ⟨hop, hk⟩

theorem arisesFrom_applyBinary {x y : Value} (hop : P (.operator .binary) operator)
    (h : applyBinary operator x y = .error stop) : stop.ArisesFrom P := by
  unfold applyBinary at h
  split at h
  case h_1 hk =>
    unfold sum at h
    split at h <;> cases h
    exact ⟨hop, hk⟩
  case h_11 hplus hminus hstar hslash hless hmost hgreater hleast hequal hdiffer =>
    cases h
    refine ⟨operator, hop, rfl, fun hfits => ?_⟩
    simp_all [Role.Fits, Role.kinds]
  case h_9 | h_10 => cases h
  all_goals
    rename_i hk
    exact arisesFrom_onNumbers (by simp [RuntimeFault.RaisedBy, hk]) hop h

theorem arisesFrom_applyUnary {x : Value} (hop : P (.operator .unary) operator)
    (h : applyUnary operator x = .error stop) : stop.ArisesFrom P := by
  unfold applyUnary at h
  split at h
  case h_1 => cases h
  case h_2 hk =>
    split at h <;> cases h
    exact ⟨hop, hk⟩
  case h_3 hbang hminus =>
    cases h
    exact ⟨operator, hop, rfl, by simp_all [Role.Fits, Role.kinds]⟩

theorem arisesFrom_decidedBy {x : Value} (hop : P (.operator .logical) operator)
    (h : decidedBy operator x = .error stop) : stop.ArisesFrom P := by
  unfold decidedBy at h
  split at h
  case h_3 hor hand =>
    cases h
    exact ⟨operator, hop, rfl, by simp_all [Role.Fits, Role.kinds]⟩
  all_goals cases h

end

/-! ## Runs -/

section

variable {P : Role → Token → Prop}

open Exec

theorem stopsOnly_congruence (P : Role → Token → Prop) :
    Congruence P id 0 fun _ x _ => StopsOnly (Stop.ArisesFrom P) x where
  pure := stopsOnly_pure
  bind := StopsOnly.bind
  outOfFuel _ _ _ _ := by
    rintro m stop ⟨⟩
    trivial
  inBlock := StopsOnly.inBlock
  get h _ := stopsOnly_get ⟨h, trivial⟩
  assign h _ _ := stopsOnly_assign ⟨h, trivial⟩
  define _ _ _ := fun _ _ h => nomatch h
  print _ := fun _ _ h => nomatch h
  unary h _ := stopsOnly_liftExcept fun _ => arisesFrom_applyUnary h
  binary h _ _ := stopsOnly_liftExcept fun _ => arisesFrom_applyBinary h
  logical h _ := stopsOnly_liftExcept fun _ => arisesFrom_decidedBy h

theorem stopsOnly_interpret {stmts : List Stmt} (h : ∀ s ∈ stmts, s.Every P) (fuel : Nat) :
    StopsOnly (Stop.ArisesFrom P) (interpret fuel stmts) :=
  (stopsOnly_congruence P).interpret fuel h

end

/-! ## Parsed programs -/

/-- No operator is unexpected in its position, so only the fuel is left to abort for. -/
theorem eq_outOfFuel_of_arisesFrom {abort : Abort}
    (h : (Stop.abort abort).ArisesFrom fun role t => role.Fits t) : abort = .outOfFuel := by
  cases abort with
  | outOfFuel => rfl
  | unexpectedOperator position kind =>
    obtain ⟨t, hfits, -, hunfit⟩ := h
    exact absurd hfits hunfit

theorem abort_eq_outOfFuel {stmts : List Stmt} (h : ∀ s ∈ stmts, s.Every fun role t => role.Fits t)
    {fuel : Nat} {m : Machine} {abort : Abort}
    (hr : (interpret fuel stmts m).1 = .error (.abort abort)) : abort = .outOfFuel :=
  eq_outOfFuel_of_arisesFrom (stopsOnly_interpret h fuel m _ hr)

theorem execute_abort_eq_outOfFuel {s : Stmt} (h : s.Every fun role t => role.Fits t) {fuel : Nat}
    {scope : ScopeId} {m : Machine} {abort : Abort}
    (hr : (execute fuel scope s m).1 = .error (.abort abort)) : abort = .outOfFuel :=
  eq_outOfFuel_of_arisesFrom ((stopsOnly_congruence _).execute fuel scope h m _ hr)

theorem Program.statements_fit (tokens : List Token) :
    ∀ s ∈ (Program.ofTokens tokens).statements, s.Every fun role t => role.Fits t :=
  fun s hs => (statements_every tokens s hs).imp fun _ _ h => h.2

/-- Whatever the tokens, all operators and names of the parsed statements are of fitting kinds, and
from no machine does a run of such statements come upon an operator that it cannot apply. -/
theorem Program.statements_fit_and_never_abort (tokens : List Token) :
    (∀ s ∈ (Program.ofTokens tokens).statements, s.Every fun role t => role.Fits t) ∧
      ∀ stmts : List Stmt, (∀ s ∈ stmts, s.Every fun role t => role.Fits t) →
        ∀ (fuel : Nat) (m : Machine) (abort : Abort),
          (interpret fuel stmts m).1 = .error (.abort abort) → abort = .outOfFuel :=
  ⟨statements_fit tokens, fun _ h _ _ _ => abort_eq_outOfFuel h⟩

end Treewalk
