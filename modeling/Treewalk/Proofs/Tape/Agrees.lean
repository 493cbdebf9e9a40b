import Treewalk.Proofs.Parser.Ignores
import Treewalk.Proofs.Tape.Account

/-!
# Parsers on tapes and on lists

`Agrees n d q p` says that the reader `q` on a tape does what the parser `p` does on the tokens ahead:
on fewer than `n` tokens, it finds every token it looks up and uses up none of its bounds, it gives
the same value or fault and reports the same errors at the same places, and it stops where `p` leaves
its tokens. Besides, its events are accounted for, with the first `d` tokens free of charge.

Each way to build a reader has one lemma (`Agrees.bind`, `agrees_take?_bind`, `agrees_expect`, ...).
-/

namespace Treewalk

namespace Token

variable {t : Token}

theorem isMark_of_isEof {m : Mark} (h : t.isEof = true) : t.isMark m = false := by
  simp_all [isEof, isMark]

theorem isKeyword_of_isEof {k : Keyword} (h : t.isEof = true) : t.isKeyword k = false := by
  simp_all [isEof, isKeyword]

theorem isUnary_of_isEof (h : t.isEof = true) : t.isUnary = false := by
  simp_all [isEof, isUnary]

end Token

namespace Tape

/-! ## What is ahead on a tape -/

/-- The tokens `ts` are ahead, and then the closing token `stop`. -/
def Faces (t : Tape) (ts : List Token) (stop : Token) : Prop :=
  ∃ c : Cursor, t.Shows c ∧ c.ahead = ts ∧ c.stop = stop

section

variable {t : Tape} {ts : List Token} {u stop : Token}

theorem Faces.isEof_stop (h : t.Faces ts stop) : stop.isEof = true := by
  obtain ⟨c, hc, -, rfl⟩ := h
  exact hc.stop

theorem Faces.isEof_eq_false (h : t.Faces ts stop) : ∀ u ∈ ts, u.isEof = false := by
  obtain ⟨c, hc, rfl, -⟩ := h
  exact hc.ahead

theorem Faces.peek (h : t.Faces ts stop) :
    Reader.peek t = some ⟨.ok (ts.headD stop), [], t⟩ := by
  obtain ⟨c, hc, rfl, rfl⟩ := h
  simp [Reader.peek, hc.peek?, Cursor.peek]

theorem Faces.atEnd (h : t.Faces ts stop) :
    Reader.atEnd t = some ⟨.ok ts.isEmpty, [], t⟩ := by
  have hstop := h.isEof_stop
  have hopen := h.isEof_eq_false
  obtain ⟨c, hc, rfl, rfl⟩ := h
  have hatEnd : c.isAtEnd = c.ahead.isEmpty := by
    cases hahead : c.ahead with
    | nil => simp [Cursor.isAtEnd, Cursor.peek, hahead, hstop]
    | cons u ts => simp [Cursor.isAtEnd, Cursor.peek, hahead, hopen u (by simp [hahead])]
  simp [Reader.atEnd, hc.isAtEnd?, hatEnd]

theorem Faces.moveTo_of_suffix (h : t.Faces ts stop) {rest : List Token} (hrest : rest <:+ ts) :
    (t.moveTo (t.index + ts.length - rest.length)).Faces rest stop := by
  obtain ⟨c, hc, hahead, hstop⟩ := h
  obtain ⟨used, rfl⟩ := hrest
  obtain ⟨behind, htokens⟩ := hc.tokens
  refine ⟨⟨used.reverse ++ c.passed, rest, stop⟩, ⟨⟨behind, ?_⟩, ?_, ?_, ?_⟩, rfl, rfl⟩
  · simp [htokens, hahead, hstop]
  · have hindex := hc.index
    simp only [index_moveTo, List.length_append, List.length_reverse]
    omega
  · exact fun u hu => hc.ahead u (by simp [hahead, hu])
  · exact hstop ▸ hc.stop

/-- One token on. -/
theorem Faces.next (h : t.Faces (u :: ts) stop) : (t.moveTo (t.index + 1)).Faces ts stop := by
  have hnext := h.moveTo_of_suffix (List.suffix_cons u ts)
  have hindex : t.index + (u :: ts).length - ts.length = t.index + 1 := by
    simp only [List.length_cons]
    omega
  rwa [hindex] at hnext

theorem Faces.advance (h : t.Faces (u :: ts) stop) :
    Reader.advance t = some ⟨.ok u, [], t.moveTo (t.index + 1)⟩ := by
  obtain ⟨c, hc, hahead, -⟩ := h
  have hadvance : c.advance = { c with passed := u :: c.passed, ahead := ts } := by
    rw [Cursor.advance, hahead]
  simp [Reader.advance, hc.advance?, hadvance, Cursor.previous, hc.index]

theorem Faces.advance_nil (h : t.Faces [] stop) :
    ∃ u, Reader.advance t = some ⟨.ok u, [], t⟩ := by
  obtain ⟨c, hc, hahead, -⟩ := h
  have hadvance : c.advance = c := by rw [Cursor.advance, hahead]
  refine ⟨c.previous, ?_⟩
  simp [Reader.advance, hc.advance?, hadvance, ← hc.index]

/-- Behind a token, that token is the one passed last. -/
theorem Faces.previous?_next (h : t.Faces (u :: ts) stop) :
    (t.moveTo (t.index + 1)).previous? = some u := by
  obtain ⟨c, hc, hahead, -⟩ := h
  have hadvance : c.advance = { c with passed := u :: c.passed, ahead := ts } := by
    rw [Cursor.advance, hahead]
  have hnext := hc.moveTo_advance
  simp only [hadvance, List.length_cons, ← hc.index] at hnext
  simp [hnext.previous?, Cursor.previous]

theorem Faces.getElem? (h : t.Faces ts stop) (i : Nat) (hi : i ≤ ts.length) :
    t.tokens[t.index + i]? = some ((ts.drop i).headD stop) := by
  have hdrop := h.moveTo_of_suffix (List.drop_suffix i ts)
  have hindex : t.index + ts.length - (ts.drop i).length = t.index + i := by
    rw [List.length_drop]
    omega
  rw [hindex] at hdrop
  obtain ⟨c, hc, hahead, hstop⟩ := hdrop
  have hpeek := hc.peek?
  rw [Tape.peek?, tokens_moveTo, index_moveTo, Cursor.peek, hahead, hstop] at hpeek
  exact hpeek

end

/-! ## Runs and replies -/

/-- The error of a parser, where the closing token stands at the index `last`. -/
def Error.ofSyntax (stop : Token) (last : Nat) (e : SyntaxError) : Error :=
  ⟨e.fault, e.token stop, last - e.ahead.length⟩

/-- The run renders the reply to the tokens ahead. -/
structure Run.Renders {α : Type} (t : Tape) (ts : List Token) (stop : Token) (d : Nat)
    (r : Reply α) (run : Run α) : Prop where
  rest : r.rest <:+ ts
  tape : run.tape = t.moveTo (t.index + ts.length - r.rest.length)
  outcome : run.outcome =
    r.outcome.mapError fun fault => Error.ofSyntax stop (t.index + ts.length) ⟨fault, r.rest⟩
  errors : run.errors = r.errors.map (Error.ofSyntax stop (t.index + ts.length))
  account : Account t.tokens (t.index + ts.length) (t.index + d) run.tape.index run.events

section

variable {α β : Type} {t : Tape} {ts : List Token} {u stop : Token} {d : Nat} {r : Reply α}
  {run : Run α}

theorem Run.Renders.index_tape (h : run.Renders t ts stop d r) :
    run.tape.index + r.rest.length = t.index + ts.length ∧ t.index ≤ run.tape.index := by
  have hle := h.rest.length_le
  have hindex : run.tape.index = t.index + ts.length - r.rest.length := by rw [h.tape]; rfl
  omega

theorem Run.Renders.faces (h : run.Renders t ts stop d r) (hfaces : t.Faces ts stop) :
    run.tape.Faces r.rest stop :=
  h.tape ▸ hfaces.moveTo_of_suffix h.rest

theorem Run.Renders.eq_of_ok (h : run.Renders t ts stop d r) {a : α} (hout : r.outcome = .ok a) :
    run = ⟨.ok a, run.events, run.tape⟩ := by
  have houtcome := h.outcome
  rw [hout] at houtcome
  exact congrArg (fun outcome => (⟨outcome, run.events, run.tape⟩ : Run α)) houtcome

theorem Run.Renders.eq_of_error (h : run.Renders t ts stop d r) {fault : SyntaxFault}
    (hout : r.outcome = .error fault) :
    run = ⟨.error (Error.ofSyntax stop (t.index + ts.length) ⟨fault, r.rest⟩), run.events,
      run.tape⟩ := by
  have houtcome := h.outcome
  rw [hout] at houtcome
  exact congrArg (fun outcome => (⟨outcome, run.events, run.tape⟩ : Run α)) houtcome

/-- Where nothing was taken and nothing happened. -/
theorem Run.renders_self {outcome : Except SyntaxFault α} :
    (⟨outcome.mapError fun fault => Error.ofSyntax stop (t.index + ts.length) ⟨fault, ts⟩, [], t⟩ :
      Run α).Renders t ts stop d ⟨outcome, [], ts⟩ where
  rest := List.suffix_refl ts
  tape := by rw [Nat.add_sub_cancel, moveTo_index]
  outcome := rfl
  errors := rfl
  account := Account.nil

/-- The same, seen from one token in front. -/
theorem Run.Renders.cons (h : run.Renders (t.moveTo (t.index + 1)) ts stop (d - 1) r) :
    run.Renders t (u :: ts) stop d r := by
  have hlast : t.index + (u :: ts).length = t.index + 1 + ts.length := by
    rw [List.length_cons]
    omega
  refine ⟨h.rest.trans (List.suffix_cons u ts), ?_, ?_, ?_, ?_⟩
  · rw [h.tape, hlast]
    rfl
  · rw [h.outcome, hlast]
    rfl
  · rw [h.errors, hlast]
    rfl
  · rw [hlast]
    refine h.account.mono ?_ (Nat.le_refl _)
    rw [index_moveTo]
    omega

/-- One run behind the other. -/
theorem Run.Renders.append {d' : Nat} {r' : Reply β} {later : Run β}
    (h : run.Renders t ts stop d r) (h' : later.Renders run.tape r.rest stop d' r')
    (hd : t.index + d ≤ run.tape.index + d') :
    (⟨later.outcome, run.events ++ later.events, later.tape⟩ : Run β).Renders t ts stop d
      ⟨r'.outcome, r.errors ++ r'.errors, r'.rest⟩ := by
  obtain ⟨hlast, -⟩ := h.index_tape
  obtain ⟨hlast', hle⟩ := h'.index_tape
  have htokens : run.tape.tokens = t.tokens := by rw [h.tape]; rfl
  refine ⟨h'.rest.trans h.rest, ?_, ?_, ?_, ?_⟩
  · rw [h'.tape, hlast, h.tape]
    rfl
  · rw [h'.outcome, hlast]
  · have herrors := h.errors
    have herrors' := h'.errors
    rw [hlast] at herrors'
    rw [Run.errors] at herrors herrors' ⊢
    rw [List.filterMap_append, List.map_append, herrors, herrors']
  · have haccount := h'.account
    rw [hlast, htokens] at haccount
    have hhigh : later.tape.index ≤ t.index + ts.length := by omega
    exact h.account.append haccount hd (Nat.le_add_right _ _) hle hhigh

end

/-! ## Agreement -/

def Agrees {α : Type} (n d : Nat) (q : Reader α) (p : Parser α) : Prop :=
  ∀ t ts stop, t.Faces ts stop → ts.length < n →
    ∃ run, q t = some run ∧ run.Renders t ts stop d (p ts)

variable {α β : Type} {n d : Nat} {q : Reader α} {p : Parser α}

theorem Agrees.mono {m e : Nat} (h : Agrees n d q p) (hm : m ≤ n) (he : e ≤ d) :
    Agrees m e q p := by
  intro t ts stop hfaces hlength
  obtain ⟨run, hrun, hrest, htape, hout, herrors, haccount⟩ :=
    h t ts stop hfaces (Nat.lt_of_lt_of_le hlength hm)
  exact ⟨run, hrun, hrest, htape, hout, herrors,
    haccount.mono (Nat.add_le_add_left he _) (Nat.le_refl _)⟩

theorem agrees_zero : Agrees 0 d q p :=
  fun _ _ _ _ hlength => absurd hlength (Nat.not_lt_zero _)

theorem agrees_pure (a : α) : Agrees n d (pure a) (pure a) :=
  fun _ _ _ _ _ => ⟨_, rfl, Run.renders_self⟩

theorem agrees_raise (fault : SyntaxFault) :
    Agrees n d (Reader.raise fault : Reader α) (Parser.fail fault) := by
  intro t ts stop hfaces _
  refine ⟨_, ?_, Run.renders_self⟩
  have hpeek := hfaces.peek
  simp only [Reader.peek, Option.map_eq_some_iff, Run.mk.injEq, Except.ok.injEq, and_true] at hpeek
  obtain ⟨token, hpeek, rfl⟩ := hpeek
  simp [Reader.raise, hpeek, Except.mapError, Error.ofSyntax, SyntaxError.token]

/-! ### In sequence -/

section

variable {f : α → Reader β} {g : α → Parser β} {t t' : Tape} {events : List Event}

theorem Reader.bind_of_error {e : Error} (h : q t = some ⟨.error e, events, t'⟩) :
    (q >>= f) t = some ⟨.error e, events, t'⟩ := by
  simp only [bind, h]

theorem Reader.bind_of_ok {a : α} {later : Run β} (h : q t = some ⟨.ok a, events, t'⟩)
    (hlater : f a t' = some later) :
    (q >>= f) t = some ⟨later.outcome, events ++ later.events, later.tape⟩ := by
  simp only [bind, h, hlater, Option.map_some]

/-- After a reader that gives a value and is not accounted for. -/
theorem Reader.bind_of_silent {a : α} (h : q t = some ⟨.ok a, [], t'⟩) :
    (q >>= f) t = f a t' := by
  simp only [bind, h, List.nil_append]
  exact Option.map_id'

/-- Behind a part that takes a token, one token less is free of charge. -/
theorem Agrees.bind_of_room {d' : Nat} (hq : Agrees n d q p)
    (hf : ∀ a, Agrees n d' (f a) (g a))
    (hd : d ≤ d' ∨ Parser.Consumes p ∧ d ≤ d' + 1) : Agrees n d (q >>= f) (p >>= g) := by
  intro t ts stop hfaces hlength
  obtain ⟨run, hrun, h⟩ := hq t ts stop hfaces hlength
  cases hout : (p ts).outcome with
  | error fault =>
    rw [Parser.bind_of_error hout]
    exact ⟨_, Reader.bind_of_error (hrun.trans (congrArg some (h.eq_of_error hout))),
      h.rest, h.tape, rfl, h.errors, h.account⟩
  | ok a =>
    have hbound := Nat.lt_of_le_of_lt h.rest.length_le hlength
    obtain ⟨later, hlater, h'⟩ := hf a run.tape _ stop (h.faces hfaces) hbound
    refine ⟨_, Reader.bind_of_ok (hrun.trans (congrArg some (h.eq_of_ok hout))) hlater, ?_⟩
    rw [Parser.bind_of_ok hout]
    refine h.append h' ?_
    have hindex := h.index_tape
    obtain hle | ⟨hconsumes, hle⟩ := hd
    · omega
    · have hless := hconsumes ts a hout
      omega

theorem Agrees.bind (hq : Agrees n d q p) (hf : ∀ a, Agrees n d (f a) (g a)) :
    Agrees n d (q >>= f) (p >>= g) :=
  hq.bind_of_room hf (.inl (Nat.le_refl d))

theorem Agrees.map (h : Agrees n d q p) (f : α → β) : Agrees n d (f <$> q) (f <$> p) :=
  h.bind fun a => agrees_pure (f a)

end

/-! ### Single tokens -/

section

variable {t : Tape} {ts : List Token} {u stop : Token} {wanted : Token → Bool}

theorem Reader.previous_of_eq_some (h : t.previous? = some u) :
    Reader.previous t = some ⟨.ok u, [], t⟩ := by
  rw [Reader.previous, h]
  rfl

theorem Faces.check (h : t.Faces ts stop) :
    Reader.check wanted t = some ⟨.ok (wanted (ts.headD stop)), [], t⟩ :=
  Reader.bind_of_silent h.peek

theorem Faces.eat_cons (h : t.Faces (u :: ts) stop) (wanted : Token → Bool) :
    Reader.eat wanted t =
      if wanted u then some ⟨.ok true, [], t.moveTo (t.index + 1)⟩
      else some ⟨.ok false, [], t⟩ := by
  rw [Reader.eat, Reader.bind_of_silent h.check, List.headD_cons]
  cases wanted u with
  | true => exact Reader.bind_of_silent h.advance
  | false => rfl

theorem Faces.eat_nil (h : t.Faces [] stop) (hwanted : wanted stop = false) :
    Reader.eat wanted t = some ⟨.ok false, [], t⟩ := by
  rw [Reader.eat, Reader.bind_of_silent h.check, List.headD_nil, hwanted]
  rfl

theorem Faces.take?_cons (h : t.Faces (u :: ts) stop) (wanted : Token → Bool) :
    Reader.take? wanted t =
      if wanted u then some ⟨.ok (some u), [], t.moveTo (t.index + 1)⟩
      else some ⟨.ok none, [], t⟩ := by
  have heat := h.eat_cons wanted
  cases hu : wanted u with
  | true =>
    rw [hu, if_pos rfl] at heat
    rw [Reader.take?, Reader.bind_of_silent heat]
    exact Reader.bind_of_silent (Reader.previous_of_eq_some h.previous?_next)
  | false =>
    rw [hu, if_neg Bool.false_ne_true] at heat
    exact Reader.bind_of_silent heat

theorem Faces.take?_nil (h : t.Faces [] stop) (hwanted : wanted stop = false) :
    Reader.take? wanted t = some ⟨.ok none, [], t⟩ :=
  Reader.bind_of_silent (h.eat_nil hwanted)

end

section

variable {wanted : Token → Bool} (hwanted : ∀ t : Token, t.isEof = true → wanted t = false)

include hwanted

theorem agrees_eat_bind {f : Bool → Reader β} {g : Option Token → Parser β}
    (hfalse : Agrees n d (f false) (g none))
    (htrue : ∀ t, Agrees (n - 1) (d - 1) (f true) (g (some t))) :
    Agrees n d (Reader.eat wanted >>= f) (Parser.take? wanted >>= g) := by
  intro t ts stop hfaces hlength
  cases ts with
  | nil =>
    rw [Reader.bind_of_silent (hfaces.eat_nil (hwanted stop hfaces.isEof_stop)),
      Parser.take?_bind_of_not_starts (Parser.not_starts_nil _)]
    exact hfalse t [] stop hfaces hlength
  | cons u ts =>
    have heat := hfaces.eat_cons wanted
    by_cases hu : wanted u = true
    · rw [if_pos hu] at heat
      rw [Reader.bind_of_silent heat, Parser.take?_bind_of_starts hu]
      obtain ⟨run, hrun, h⟩ := htrue u _ ts stop hfaces.next (Nat.lt_sub_of_add_lt hlength)
      exact ⟨run, hrun, h.cons⟩
    · rw [if_neg hu] at heat
      rw [Reader.bind_of_silent heat,
        Parser.take?_bind_of_not_starts (mt (Parser.starts_cons _ _ _).mp hu)]
      exact hfalse t (u :: ts) stop hfaces hlength

/-- The token taken is looked up behind it. -/
theorem agrees_take?_bind {f : Option Token → Reader β} {g : Option Token → Parser β}
    (hnone : Agrees n d (f none) (g none))
    (hsome : ∀ t, Agrees (n - 1) (d - 1) (f (some t)) (g (some t))) :
    Agrees n d (Reader.take? wanted >>= f) (Parser.take? wanted >>= g) := by
  intro t ts stop hfaces hlength
  cases ts with
  | nil =>
    have htake := hfaces.take?_nil (hwanted stop hfaces.isEof_stop)
    rw [Reader.bind_of_silent htake, Parser.take?_bind_of_not_starts (Parser.not_starts_nil _)]
    exact hnone t [] stop hfaces hlength
  | cons u ts =>
    have htake := hfaces.take?_cons wanted
    by_cases hu : wanted u = true
    · rw [if_pos hu] at htake
      rw [Reader.bind_of_silent htake, Parser.take?_bind_of_starts hu]
      obtain ⟨run, hrun, h⟩ := hsome u _ ts stop hfaces.next (Nat.lt_sub_of_add_lt hlength)
      exact ⟨run, hrun, h.cons⟩
    · rw [if_neg hu] at htake
      rw [Reader.bind_of_silent htake,
        Parser.take?_bind_of_not_starts (mt (Parser.starts_cons _ _ _).mp hu)]
      exact hnone t (u :: ts) stop hfaces hlength

theorem agrees_expect (fault : SyntaxFault) :
    Agrees n d (Reader.expect wanted fault) (Parser.expect wanted fault) := by
  intro t ts stop hfaces hlength
  have hraise := agrees_raise (α := Token) (n := n) (d := d) fault t ts stop hfaces hlength
  rw [Reader.expect, Reader.bind_of_silent hfaces.check]
  cases ts with
  | nil =>
    rw [List.headD_nil, hwanted stop hfaces.isEof_stop]
    exact hraise
  | cons u ts =>
    rw [List.headD_cons]
    cases hu : wanted u with
    | true =>
      rw [Parser.expect, if_pos hu]
      exact ⟨_, hfaces.advance, Run.renders_self.cons⟩
    | false =>
      rw [Parser.expect, hu]
      exact hraise

end

theorem agrees_expectMark (m : Mark) (after : Phrase) :
    Agrees n d (Reader.expectMark m after) (Parser.expectMark m after) := by
  apply (agrees_expect _ (.missing m after)).bind
  · exact fun _ => agrees_pure ()
  · exact fun t => Token.isMark_of_isEof

theorem agrees_check (m : Mark) : Agrees n d (Reader.check (Token.isMark m)) (Parser.isAt m) := by
  intro t ts stop hfaces _
  cases ts with
  | nil =>
    refine ⟨_, hfaces.check, ?_⟩
    rw [List.headD_nil, Token.isMark_of_isEof hfaces.isEof_stop]
    exact Run.renders_self
  | cons u ts => exact ⟨_, hfaces.check, Run.renders_self⟩

end Tape

end Treewalk
