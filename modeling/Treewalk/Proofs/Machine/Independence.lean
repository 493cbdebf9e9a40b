import Treewalk.Proofs.Machine.Congruence

/-!
# What a run does not look at

* `interpret_map`: of a token, only the kind and the text count. With other lines in the same tree,
  a run goes the same way and stops at the corresponding token.
* `prints_interpret`: what a run does, and what it prints, does not depend on what was printed
  before. So the output that is pending when it begins stays pending below that of the run
  (`interpret_withPending`).
* `interpret_append`: a program is run by running its parts one after the other.
-/

namespace Treewalk

/-! ## Lines -/

/-- The same end, at another token. -/
def Stop.map (f : Token → Token) : Stop → Stop
  | .error e => .error { e with token := f e.token }
  | .abort a => .abort a

section

variable {f : Token → Token} (hf : ∀ t, (f t).kind = t.kind ∧ (f t).lexeme = t.lexeme)

include hf

theorem get_map (s : Scopes) (scope : ScopeId) (name : Token) :
    s.get scope (f name) =
      (s.get scope name).mapError fun e => { e with token := f e.token } := by
  simp only [Scopes.get, (hf name).2]
  split <;> rfl

theorem assign_map (s : Scopes) (scope : ScopeId) (name : Token) (value : Value) :
    s.assign scope (f name) value =
      (s.assign scope name value).mapError fun e => { e with token := f e.token } := by
  simp only [Scopes.assign, (hf name).2]
  split <;> rfl

theorem applyUnary_map (operator : Token) (x : Value) :
    applyUnary (f operator) x = (applyUnary operator x).mapError (Stop.map f) := by
  simp only [applyUnary, (hf operator).1]
  split
  · rfl
  · split <;> rfl
  · rfl

theorem applyBinary_map (operator : Token) (x y : Value) :
    applyBinary (f operator) x y = (applyBinary operator x y).mapError (Stop.map f) := by
  have hnumbers : ∀ g, onNumbers (f operator) g x y =
      (onNumbers operator g x y).mapError (Stop.map f) := by
    intro g
    unfold onNumbers
    split <;> rfl
  simp only [applyBinary, (hf operator).1]
  split
  case h_1 =>
    unfold sum
    split <;> rfl
  all_goals first | exact hnumbers _ | rfl

theorem decidedBy_map (operator : Token) (x : Value) :
    decidedBy (f operator) x = (decidedBy operator x).mapError (Stop.map f) := by
  simp only [decidedBy, (hf operator).1]
  split <;> rfl

end

namespace Exec

variable {α β : Type}

/-- The second computation does the same and stops at the corresponding tokens. -/
def Corresponds (f : Token → Token) (x y : Exec α) : Prop :=
  ∀ m, y m = ((x m).1.mapError (Stop.map f), (x m).2)

theorem corresponds_congruence {f : Token → Token}
    (hf : ∀ t, (f t).kind = t.kind ∧ (f t).lexeme = t.lexeme) :
    Congruence (fun _ _ => True) f 0 fun _ => Corresponds f where
  pure _ _ := rfl
  bind := by
    intro α β x y g h hx hg m
    rw [bind_apply, bind_apply, hx m]
    rcases x m with ⟨_ | a, m'⟩
    · rfl
    · exact hg a m'
  outOfFuel _ _ _ _ _ := rfl
  inBlock := by
    intro body body' h scope m
    have hbody := h m.scopes.next (m.enter scope)
    rw [inBlock_apply, inBlock_apply, hbody]
    rcases body m.scopes.next _ with ⟨(_ | _) | _, m'⟩ <;> rfl
  get := by
    intro name _ scope m
    simp only [Exec.get, get_map hf]
    cases m.scopes.get scope name <;> rfl
  assign := by
    intro name _ scope value m
    simp only [Exec.assign, assign_map hf]
    cases m.scopes.assign scope name value <;> rfl
  define := by
    intro name _ scope value m
    simp only [Exec.define, (hf name).2]
    rfl
  print _ _ := rfl
  unary _ x m := by
    rw [liftExcept_apply, liftExcept_apply, applyUnary_map hf]
  binary _ x y m := by
    rw [liftExcept_apply, liftExcept_apply, applyBinary_map hf]
  logical _ x m := by
    rw [liftExcept_apply, liftExcept_apply, decidedBy_map hf]

end Exec

theorem interpret_map {f : Token → Token}
    (hf : ∀ t, (f t).kind = t.kind ∧ (f t).lexeme = t.lexeme) (fuel : Nat) (stmts : List Stmt)
    (m : Machine) :
    interpret fuel (stmts.map (Stmt.map f)) m =
      ((interpret fuel stmts m).1.mapError (Stop.map f), (interpret fuel stmts m).2) :=
  (Exec.corresponds_congruence hf).interpret fuel
    (fun s _ => s.every_of_forall fun _ _ => trivial) m

/-! ## Output -/

namespace Machine

/-- The same machine, with older output pending. -/
def withPending (m : Machine) (older : List String) : Machine :=
  { m with pending := m.pending ++ older }

end Machine

namespace Exec

variable {α : Type}

/-- What is printed comes on top of the output that there is, and does not depend on it. -/
def Prints (x : Exec α) : Prop :=
  ∀ scopes, ∃ r scopes' printed, ∀ pending written,
    x ⟨scopes, pending, written⟩ = (r, ⟨scopes', printed ++ pending, printed ++ written⟩)

theorem prints_liftExcept (x : Except Stop α) : Prints (liftExcept x) :=
  fun scopes =>
    ⟨x, scopes, [], fun pending written => liftExcept_apply x ⟨scopes, pending, written⟩⟩

theorem prints_congruence : Congruence (fun _ _ => True) id 0 fun _ x _ => Prints x where
  pure _ scopes := ⟨_, scopes, [], fun _ _ => rfl⟩
  bind := by
    intro α β x y g h hx hg scopes
    obtain ⟨r, scopes', printed, hfirst⟩ := hx scopes
    rcases r with stop | a
    · refine ⟨.error stop, scopes', printed, fun pending written => ?_⟩
      rw [bind_apply, hfirst]
    · obtain ⟨r, scopes'', later, hsecond⟩ := hg a scopes'
      refine ⟨r, scopes'', later ++ printed, fun pending written => ?_⟩
      rw [bind_apply, hfirst, List.append_assoc, List.append_assoc]
      exact hsecond _ _
  outOfFuel _ _ _ _ scopes := ⟨_, scopes, [], fun _ _ => rfl⟩
  inBlock := by
    intro body _ h scope scopes
    obtain ⟨r, scopes', printed, hbody⟩ := h scopes.next (scopes.enclose scope).2
    refine ⟨r, (leave scopes.next (r, ⟨scopes', [], []⟩)).2.scopes, printed,
      fun pending written => ?_⟩
    rw [inBlock_apply]
    change leave scopes.next (body scopes.next ⟨(scopes.enclose scope).2, pending, written⟩) = _
    rw [hbody]
    rcases r with (_ | _) | _ <;> rfl
  get {name} _ scope scopes :=
    ⟨(scopes.get scope name).mapError .error, scopes, [], fun _ _ => rfl⟩
  assign := by
    intro name _ scope value scopes
    cases h : scopes.assign scope name value with
    | error e =>
      refine ⟨.error (.error e), scopes, [], fun pending written => ?_⟩
      simp only [Exec.assign, h]
      rfl
    | ok scopes' =>
      refine ⟨.ok (), scopes', [], fun pending written => ?_⟩
      simp only [Exec.assign, h]
      rfl
  define {name} _ scope value scopes :=
    ⟨_, scopes.define scope name.lexeme value, [], fun _ _ => rfl⟩
  print value scopes := ⟨_, scopes, [value.text ++ "\n"], fun _ _ => rfl⟩
  unary _ _ := prints_liftExcept _
  binary _ _ _ := prints_liftExcept _
  logical _ _ := prints_liftExcept _

end Exec

theorem prints_interpret (fuel : Nat) (stmts : List Stmt) : Exec.Prints (interpret fuel stmts) :=
  Exec.prints_congruence.interpret fuel fun s _ => s.every_of_forall fun _ _ => trivial

theorem interpret_withPending (fuel : Nat) (stmts : List Stmt) (m : Machine)
    (older : List String) :
    interpret fuel stmts (m.withPending older) =
      ((interpret fuel stmts m).1, (interpret fuel stmts m).2.withPending older) := by
  obtain ⟨r, scopes, printed, hrun⟩ := prints_interpret fuel stmts m.scopes
  rw [show interpret fuel stmts m = _ from hrun m.pending m.written]
  exact (hrun (m.pending ++ older) m.written).trans (by simp [Machine.withPending])

/-! ## Programs behind each other -/

theorem executeAll_append (fuel : Nat) (scope : ScopeId) (stmts others : List Stmt)
    (m : Machine) :
    executeAll fuel scope (stmts ++ others) m =
      match executeAll fuel scope stmts m with
      | (.ok (), m') => executeAll fuel scope others m'
      | (.error stop, m') => (.error stop, m') := by
  induction stmts generalizing m with
  | nil => rw [List.nil_append, executeAll, Exec.pure_apply]
  | cons s rest ih =>
    rw [List.cons_append, executeAll, executeAll, Exec.bind_apply, Exec.bind_apply]
    rcases execute fuel scope s m with ⟨_ | _, m'⟩
    · rfl
    · exact ih m'

theorem interpret_append (fuel : Nat) (stmts others : List Stmt) (m : Machine) :
    interpret fuel (stmts ++ others) m =
      match interpret fuel stmts m with
      | (.ok (), m') => interpret fuel others m'
      | (.error stop, m') => (.error stop, m') :=
  executeAll_append fuel Scopes.globals stmts others m

end Treewalk
