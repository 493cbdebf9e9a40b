import Treewalk.Proofs.Grammar
import Treewalk.Proofs.Parser.Reads

/-!
# What a parser yields

`Yields g p ts a rest` says that the parser `p`, reading from `ts`, gives the value `a`, leaves
`rest`, and reports nothing but what the rules `g` tolerate: under `Rules.plain` nothing at all,
under `Rules.relaxed` equals signs behind something that is no name.

* Each way to build a parser has one equivalence for `Yields` (`yields_bind`, `yields_take?_bind`,
  `yields_expectMark_bind`, ...), which takes a run apart. The lemmas in the style of `Yields.bind`
  and `yields_expectMark_cons` build one.
* `yields_recover`: recovery yields a value exactly where the parser inside does, since a parser
  never gives up over the one fault that is tolerated.
-/

namespace Treewalk

/-- A sentence may hold this error. -/
def Grammar.Rules.Tolerates (g : Grammar.Rules) (e : SyntaxError) : Prop :=
  g.anyTarget ∧ e.fault = .invalidTarget

namespace Parser

open Grammar

variable {α β : Type} {g : Rules} {p : Parser α} {ts rest : List Token}

def Yields (g : Rules) (p : Parser α) (ts : List Token) (a : α) (rest : List Token) : Prop :=
  (p ts).outcome = .ok a ∧ (p ts).rest = rest ∧ ∀ e ∈ (p ts).errors, g.Tolerates e

/-- The next token is as wanted. -/
def Starts (wanted : Token → Bool) (ts : List Token) : Prop :=
  ∃ t ∈ ts.head?, wanted t = true

@[simp] theorem not_starts_nil (wanted : Token → Bool) : ¬ Starts wanted [] := by
  simp [Starts]

@[simp] theorem starts_cons (wanted : Token → Bool) (t : Token) (ts : List Token) :
    Starts wanted (t :: ts) ↔ wanted t = true := by
  simp [Starts]

/-! ## Building blocks -/

theorem yields_pure {a b : α} : Yields g (pure a) ts b rest ↔ a = b ∧ ts = rest := by
  simp [Yields, pure]

theorem yields_fail {fault : SyntaxFault} {a : α} : ¬ Yields g (fail fault) ts a rest := by
  simp [Yields, fail]

theorem yields_bind {f : α → Parser β} {b : β} :
    Yields g (p >>= f) ts b rest ↔
      ∃ a mid, Yields g p ts a mid ∧ Yields g (f a) mid b rest := by
  simp only [Yields, bind]
  cases h : (p ts).outcome with
  | error fault => simp
  | ok a =>
    simp only [Except.ok.injEq, List.mem_append]
    constructor
    · rintro ⟨hout, hrest, herr⟩
      exact ⟨a, (p ts).rest, ⟨rfl, rfl, fun e he => herr e (.inl he)⟩, hout, hrest,
        fun e he => herr e (.inr he)⟩
    · rintro ⟨a', mid, ⟨rfl, rfl, hp⟩, hout, hrest, hf⟩
      exact ⟨hout, hrest, fun e he => he.elim (hp e) (hf e)⟩

theorem yields_map {f : α → β} {b : β} :
    Yields g (f <$> p) ts b rest ↔ ∃ a, Yields g p ts a rest ∧ f a = b := by
  change Yields g (p >>= fun a => pure (f a)) ts b rest ↔ _
  simp only [yields_bind, yields_pure]
  constructor
  · rintro ⟨a, mid, h, rfl, rfl⟩
    exact ⟨a, h, rfl⟩
  · rintro ⟨a, h, rfl⟩
    exact ⟨a, rest, h, rfl, rfl⟩

theorem yields_reply_map {f : α → β} {b : β} :
    Yields g (fun ts => (p ts).map f) ts b rest ↔ ∃ a, Yields g p ts a rest ∧ f a = b := by
  simp only [Yields, Reply.map]
  cases h : (p ts).outcome with
  | error fault => simp [Except.map]
  | ok a =>
    simp only [Except.map, Except.ok.injEq]
    constructor
    · rintro ⟨hf, hrest⟩
      exact ⟨a, ⟨rfl, hrest⟩, hf⟩
    · rintro ⟨a', ⟨rfl, hrest⟩, hf⟩
      exact ⟨hf, hrest⟩

theorem yields_report {e : SyntaxError} :
    Yields g (report e) ts () rest ↔ g.Tolerates e ∧ ts = rest := by
  simp [Yields, report, and_comm]

theorem yields_report_bind {e : SyntaxError} {f : Unit → Parser β} {b : β} :
    Yields g (report e >>= f) ts b rest ↔ g.Tolerates e ∧ Yields g (f ()) ts b rest := by
  rw [yields_bind]
  constructor
  · rintro ⟨_, mid, hreport, hf⟩
    obtain ⟨he, rfl⟩ := yields_report.mp hreport
    exact ⟨he, hf⟩
  · rintro ⟨he, hf⟩
    exact ⟨(), ts, yields_report.mpr ⟨he, rfl⟩, hf⟩

theorem yields_ahead {place : List Token} :
    Yields g ahead ts place rest ↔ ts = place ∧ ts = rest := by
  simp [Yields, ahead]

theorem yields_ahead_bind {f : List Token → Parser β} {b : β} :
    Yields g (ahead >>= f) ts b rest ↔ Yields g (f ts) ts b rest := by
  rw [yields_bind]
  simp [yields_ahead, and_assoc]

theorem yields_take? {wanted : Token → Bool} {o : Option Token} :
    Yields g (take? wanted) ts o rest ↔
      (¬ Starts wanted ts ∧ none = o ∧ ts = rest) ∨
        ∃ t, ts = t :: rest ∧ wanted t = true ∧ some t = o := by
  cases ts with
  | nil => simp [Yields, take?]
  | cons t ts => by_cases h : wanted t = true <;> simp [Yields, take?, and_comm, and_assoc, h]

theorem yields_take?_bind {wanted : Token → Bool} {f : Option Token → Parser β} {b : β} :
    Yields g (take? wanted >>= f) ts b rest ↔
      (¬ Starts wanted ts ∧ Yields g (f none) ts b rest) ∨
        ∃ t ts', ts = t :: ts' ∧ wanted t = true ∧ Yields g (f (some t)) ts' b rest := by
  simp only [yields_bind, yields_take?]
  constructor
  · rintro ⟨_, mid, ⟨hstart, rfl, rfl⟩ | ⟨t, rfl, ht, rfl⟩, hf⟩
    · exact .inl ⟨hstart, hf⟩
    · exact .inr ⟨t, mid, rfl, ht, hf⟩
  · rintro (⟨hstart, hf⟩ | ⟨t, ts', rfl, ht, hf⟩)
    · exact ⟨none, ts, .inl ⟨hstart, rfl, rfl⟩, hf⟩
    · exact ⟨some t, ts', .inr ⟨t, rfl, ht, rfl⟩, hf⟩

theorem yields_expect {wanted : Token → Bool} {fault : SyntaxFault} {t : Token} :
    Yields g (expect wanted fault) ts t rest ↔ ts = t :: rest ∧ wanted t = true := by
  cases ts with
  | nil => simp [Yields, expect]
  | cons u ts =>
    by_cases h : wanted u = true
    · simp only [Yields, expect, h, if_true, Except.ok.injEq, List.cons.injEq]
      constructor
      · rintro ⟨rfl, rfl, -⟩
        exact ⟨⟨rfl, rfl⟩, h⟩
      · rintro ⟨⟨rfl, rfl⟩, -⟩
        exact ⟨rfl, rfl, by simp⟩
    · simp only [Yields, expect, h]
      constructor
      · rintro ⟨hout, -⟩
        cases hout
      · rintro ⟨hts, ht⟩
        exact absurd ((List.cons.inj hts).1 ▸ ht) h

theorem yields_expect_bind {wanted : Token → Bool} {fault : SyntaxFault}
    {f : Token → Parser β} {b : β} :
    Yields g (expect wanted fault >>= f) ts b rest ↔
      ∃ t ts', ts = t :: ts' ∧ wanted t = true ∧ Yields g (f t) ts' b rest := by
  simp only [yields_bind, yields_expect]
  constructor
  · rintro ⟨t, mid, ⟨rfl, ht⟩, hf⟩
    exact ⟨t, mid, rfl, ht, hf⟩
  · rintro ⟨t, ts', rfl, ht, hf⟩
    exact ⟨t, ts', ⟨rfl, ht⟩, hf⟩

theorem yields_isAt {m : Mark} {b : Bool} :
    Yields g (isAt m) ts b rest ↔ (b = true ↔ Starts (Token.isMark m) ts) ∧ ts = rest := by
  cases ts with
  | nil => cases b <;> simp [Yields, isAt]
  | cons t ts => cases b <;> simp [Yields, isAt]

theorem yields_expectMark_bind {m : Mark} {after : Phrase} {f : Unit → Parser β} {b : β} :
    Yields g (expectMark m after >>= f) ts b rest ↔
      ∃ t ts', ts = t :: ts' ∧ t.kind = .mark m ∧ Yields g (f ()) ts' b rest := by
  simp only [expectMark, yields_bind (p := expect _ _ >>= _), yields_expect_bind, yields_pure,
    Token.isMark, decide_eq_true_eq]
  constructor
  · rintro ⟨_, _, ⟨t, ts', rfl, hk, -, rfl⟩, hf⟩
    exact ⟨t, ts', rfl, hk, hf⟩
  · rintro ⟨t, ts', rfl, hk, hf⟩
    exact ⟨(), ts', ⟨t, ts', rfl, hk, trivial, rfl⟩, hf⟩

theorem yields_isAt_bind {m : Mark} {f : Bool → Parser β} {b : β} :
    Yields g (isAt m >>= f) ts b rest ↔
      (Starts (Token.isMark m) ts ∧ Yields g (f true) ts b rest) ∨
        (¬ Starts (Token.isMark m) ts ∧ Yields g (f false) ts b rest) := by
  simp only [yields_bind, yields_isAt]
  constructor
  · rintro ⟨_ | _, mid, ⟨hat, rfl⟩, hf⟩
    · exact .inr ⟨mt hat.mpr (by simp), hf⟩
    · exact .inl ⟨hat.mp rfl, hf⟩
  · rintro (⟨hat, hf⟩ | ⟨hat, hf⟩)
    · exact ⟨true, ts, ⟨by simp [hat], rfl⟩, hf⟩
    · exact ⟨false, ts, ⟨by simp [hat], rfl⟩, hf⟩

section

variable {f : α → Parser β} {a : α} {b : β} {t : Token} {mid : List Token}

theorem yields_self (a : α) : Yields g (pure a) ts a ts :=
  yields_pure.mpr ⟨rfl, rfl⟩

theorem Yields.bind (hp : Yields g p ts a mid) (hf : Yields g (f a) mid b rest) :
    Yields g (p >>= f) ts b rest :=
  yields_bind.mpr ⟨a, mid, hp, hf⟩

theorem Yields.map (hp : Yields g p ts a rest) (f : α → β) : Yields g (f <$> p) ts (f a) rest :=
  yields_map.mpr ⟨a, hp, rfl⟩

theorem yields_expectMark_cons {m : Mark} {after : Phrase} {f : Unit → Parser β}
    (hk : t.kind = .mark m) (hf : Yields g (f ()) ts b rest) :
    Yields g (expectMark m after >>= f) (t :: ts) b rest :=
  yields_expectMark_bind.mpr ⟨t, ts, rfl, hk, hf⟩

theorem yields_take?_cons {wanted : Token → Bool} {f : Option Token → Parser β}
    (ht : wanted t = true) (hf : Yields g (f (some t)) ts b rest) :
    Yields g (take? wanted >>= f) (t :: ts) b rest :=
  yields_take?_bind.mpr (.inr ⟨t, ts, rfl, ht, hf⟩)

theorem yields_take?_none {wanted : Token → Bool} {f : Option Token → Parser β}
    (hts : ¬ Starts wanted ts) (hf : Yields g (f none) ts b rest) :
    Yields g (take? wanted >>= f) ts b rest :=
  yields_take?_bind.mpr (.inl ⟨hts, hf⟩)

end

theorem yields_recover {P : Token → Prop} {Q : α → Prop} (hp : Reads P p Q)
    (hts : ∀ t ∈ ts, P t) {o : Option α} :
    Yields g (recover p) ts o rest ↔ ∃ a, o = some a ∧ Yields g p ts a rest := by
  simp only [Yields, recover]
  cases h : (p ts).outcome with
  | ok a =>
    constructor
    · rintro ⟨ho, hrest⟩
      exact ⟨a, (Except.ok.inj ho).symm, rfl, hrest⟩
    · rintro ⟨a', rfl, ha, hrest⟩
      exact ⟨by rw [Except.ok.inj ha], hrest⟩
  | error fault =>
    constructor
    · rintro ⟨-, -, herr⟩
      have hfault := herr ⟨fault, (p ts).rest⟩ (by simp)
      exact absurd hfault.2 ((hp ts hts).fatal fault h)
    · rintro ⟨a, -, ha, -⟩
      cases ha

/-! ## Loops -/

theorem yields_operations_succ {level : Level} {operand : Parser Expr} {bound : Nat}
    {left e : Expr} :
    Yields g (operations level operand (bound + 1) left) ts e rest ↔
      (¬ Starts level.isOperator ts ∧ left = e ∧ ts = rest) ∨
        ∃ operator mid, ts = operator :: mid ∧ level.isOperator operator = true ∧
          ∃ right mid', Yields g operand mid right mid' ∧
            Yields g (operations level operand bound (level.node left operator right))
              mid' e rest := by
  rw [operations, yields_take?_bind]
  simp only [yields_pure, yields_bind]

theorem yields_declarations_succ {P : Token → Prop} {Q : Stmt → Prop}
    {closes : Token → Bool} {one : Parser Stmt} (hone : Reads P one Q) (hts : ∀ t ∈ ts, P t)
    {bound : Nat} {stmts : List Stmt} :
    Yields g (declarations closes one (bound + 1)) ts stmts rest ↔
      ((ts = [] ∨ Starts closes ts) ∧ stmts = [] ∧ ts = rest) ∨
        (ts ≠ [] ∧ ¬ Starts closes ts ∧
          ∃ s mid others, Yields g one ts s mid ∧
            Yields g (declarations closes one bound) mid others rest ∧
            stmts = s :: others) := by
  cases ts with
  | nil => simp [Yields, declarations, pure, eq_comm]
  | cons t ts =>
    by_cases hc : closes t = true
    · simp [Yields, declarations, pure, hc, eq_comm]
    · have hread : Yields g (declarations closes one (bound + 1)) (t :: ts) stmts rest ↔
          Yields g (recover one >>= fun first => do
            let others ← declarations closes one bound
            return first.toList ++ others) (t :: ts) stmts rest := by
        simp only [Yields, declarations, if_neg hc]
      simp only [hread, yields_bind, yields_pure, yields_recover hone hts, starts_cons, hc]
      constructor
      · rintro ⟨_, mid, ⟨s, rfl, hs⟩, others, _, hothers, rfl, rfl⟩
        exact .inr ⟨by simp, by simp, s, mid, others, hs, hothers, rfl⟩
      · rintro (⟨h, -⟩ | ⟨-, -, s, mid, others, hs, hothers, rfl⟩)
        · simp at h
        · exact ⟨some s, mid, ⟨s, rfl, hs⟩, others, rest, hothers, rfl, rfl⟩

theorem yields_program {stmts : List Stmt} :
    Yields g program ts stmts rest ↔
      Yields g (declarations (fun _ => false)
        (declaration (expression (ts.length + 1)) (statement (ts.length + 1)))
        (ts.length + 1)) ts stmts rest := by
  simp only [Yields, program]

end Parser

end Treewalk
