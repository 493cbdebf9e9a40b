import Treewalk.Proofs.Tape.Agrees

/-!
# Recovery and slots on a tape

Dropping tokens one by one leaves the tape at the first index where reading may go on
(`Faces.resume`). So a slot comes to one statement or to its error, behind which the tape has moved
on in any case, and a row of slots takes a token for each of them.

* `Faces.slot`: a slot does what `Parser.recover` does.
* `agrees_declarations`: slot after slot is what `Parser.declarations` reads; `agrees_gathered` says
  so with statements gathered before.
* `counts_declarations`: the statements gathered and the errors reported are no more than the
  statements gathered before and the events.
-/

namespace Treewalk.Tape

open Treewalk.Parser (Consumes Reads FormedStmt)

variable {t : Tape} {ts : List Token} {u last stop : Token} {bound n : Nat}

/-! ## Where reading may go on -/

theorem Faces.restarts_iff (h : t.Faces (u :: ts) stop) (hlast : t.previous? = some last) :
    Restarts t.tokens (t.index + (u :: ts).length) t.index ↔
      last.isMark .semicolon = true ∨ u.startsStatement = true := by
  have hbehind : t.tokens[t.index - 1]? = some last := hlast
  have hahead : t.tokens[t.index]? = some u := h.getElem? 0 (Nat.zero_le _)
  simp [Restarts, hbehind, hahead]

theorem Faces.dropUntilStart (h : t.Faces ts stop) (hlast : t.previous? = some last)
    (hbound : ts.length < bound) :
    ∃ j, Reader.dropUntilStart bound t = some ⟨.ok (), [], t.moveTo j⟩ ∧
      j + (Parser.dropUntilStart last ts).length = t.index + ts.length ∧ t.index ≤ j ∧
      Restarts t.tokens (t.index + ts.length) j ∧
      ∀ k, t.index ≤ k → k < j → ¬ Restarts t.tokens (t.index + ts.length) k := by
  induction ts generalizing t last bound with
  | nil =>
    obtain ⟨bound, rfl⟩ := Nat.exists_eq_add_of_lt hbound
    refine ⟨t.index, Reader.bind_of_silent h.atEnd, rfl, Nat.le_refl _, .inr (.inr rfl), ?_⟩
    intro k hle hlt
    omega
  | cons u ts ih =>
    obtain ⟨bound, rfl⟩ : ∃ b, bound = b + 1 := ⟨bound - 1, by omega⟩
    have hrestarts := h.restarts_iff hlast
    have hstart : Reader.dropUntilStart (bound + 1) t =
        if last.isMark .semicolon then some ⟨.ok (), [], t⟩
        else if u.startsStatement then some ⟨.ok (), [], t⟩
        else Reader.dropUntilStart bound (t.moveTo (t.index + 1)) := by
      rw [Reader.dropUntilStart, Reader.bind_of_silent h.atEnd, List.isEmpty_cons,
        if_neg Bool.false_ne_true, Reader.bind_of_silent (Reader.previous_of_eq_some hlast)]
      cases last.isMark .semicolon with
      | true => rfl
      | false =>
        rw [if_neg Bool.false_ne_true, if_neg Bool.false_ne_true, Reader.bind_of_silent h.peek,
          List.headD_cons]
        cases u.startsStatement with
        | true => rfl
        | false => exact Reader.bind_of_silent h.advance
    by_cases hstop : last.isMark .semicolon = true ∨ u.startsStatement = true
    · -- Nothing is dropped.
      refine ⟨t.index, ?_, ?_, Nat.le_refl _, hrestarts.mpr hstop, ?_⟩
      · rw [hstart]
        obtain hsemi | hu := hstop
        · rw [if_pos hsemi, moveTo_index]
        · rw [if_pos hu, ite_self, moveTo_index]
      · rw [Parser.dropUntilStart, if_pos (by simpa using hstop)]
      · intro k hle hlt
        omega
    · obtain ⟨hsemi, hu⟩ := not_or.mp hstop
      obtain ⟨j, hrun, hlength, hle, hj, hbetween⟩ :=
        ih h.next h.previous?_next (Nat.lt_of_succ_lt_succ hbound)
      have hshift : t.index + 1 + ts.length = t.index + (u :: ts).length := by
        rw [List.length_cons]
        omega
      simp only [tokens_moveTo, index_moveTo, hshift] at hlength hle hj hbetween
      refine ⟨j, ?_, ?_, Nat.le_of_succ_le hle, hj, ?_⟩
      · rw [hstart, if_neg hsemi, if_neg hu, hrun, moveTo_moveTo]
      · rw [Parser.dropUntilStart, if_neg (by simpa using hstop)]
        exact hlength
      · intro k hk hlt
        obtain rfl | hk := Nat.eq_or_lt_of_le hk
        · exact mt hrestarts.mp hstop
        · exact hbetween k hk hlt

theorem Faces.resume (h : t.Faces ts stop) (hbound : ts.length < bound) :
    ∃ j, Reader.resume bound t = some ⟨.ok (), [], t.moveTo j⟩ ∧
      j + (Parser.resume ts).length = t.index + ts.length ∧
      Resumes t.tokens (t.index + ts.length) t.index j := by
  cases ts with
  | nil =>
    obtain ⟨bound, rfl⟩ := Nat.exists_eq_add_of_lt hbound
    obtain ⟨token, hadvance⟩ := h.advance_nil
    refine ⟨t.index, ?_, rfl, .inl ⟨rfl, rfl⟩⟩
    rw [Reader.resume, Reader.bind_of_silent hadvance]
    exact Reader.bind_of_silent h.atEnd
  | cons u ts =>
    obtain ⟨j, hrun, hlength, hle, hj, hbetween⟩ :=
      h.next.dropUntilStart h.previous?_next (Nat.lt_of_succ_lt hbound)
    have hshift : t.index + 1 + ts.length = t.index + (u :: ts).length := by
      rw [List.length_cons]
      omega
    simp only [tokens_moveTo, index_moveTo, hshift] at hlength hle hj hbetween
    refine ⟨j, ?_, hlength, .inr ⟨hle, Nat.le.intro hlength, hj, hbetween⟩⟩
    rw [Reader.resume, Reader.bind_of_silent h.advance, hrun, moveTo_moveTo]

/-! ## Slots -/

theorem filterMap_error?_concat (events : List Event) (s : Slot) :
    (events ++ [Event.slot s]).filterMap Event.error? =
      events.filterMap Event.error? ++ s.error.toList := by
  rw [List.filterMap_append]
  cases h : s.error <;> simp [Event.error?, h]

section

variable {one : Reader Stmt} {events : List Event} {t' : Tape} (before : List Stmt)

theorem Reader.slot_of_ok {s : Stmt} (h : one t = some ⟨.ok s, events, t'⟩) :
    Reader.slot bound one before t = some ⟨.ok (before ++ [s]),
      events ++ [.slot ⟨t.index, t'.index, before, before ++ [s], none⟩], t'⟩ := by
  simp only [Reader.slot, h]

theorem Reader.slot_of_error {e : Error} {j : Nat} (h : one t = some ⟨.error e, events, t'⟩)
    (hresume : Reader.resume bound t' = some ⟨.ok (), [], t'.moveTo j⟩) :
    Reader.slot bound one before t = some ⟨.ok before,
      events ++ [.slot ⟨t.index, j, before, before, some e⟩], t'.moveTo j⟩ := by
  simp only [Reader.slot, h, hresume, Option.map_some, index_moveTo]

/-- One round: nothing more is read, or a slot and then the others. -/
theorem Faces.declarations_succ (h : t.Faces ts stop) (closes : Token → Bool) (one : Reader Stmt)
    (rounds : Nat) (gathered : List Stmt) :
    Reader.declarations closes one (rounds + 1) gathered t =
      if closes (ts.headD stop) || ts.isEmpty then some ⟨.ok gathered, [], t⟩
      else (Reader.slot (rounds + 1) one gathered >>= Reader.declarations closes one rounds) t := by
  rw [Reader.declarations, Reader.bind_of_silent h.check]
  cases closes (ts.headD stop) with
  | true => rfl
  | false =>
    rw [if_neg Bool.false_ne_true, Reader.bind_of_silent h.atEnd]
    cases ts.isEmpty <;> rfl

end

section

variable {r : Reply Stmt} {run : Run Stmt} (h : run.Renders t (u :: ts) stop 1 r)
  (before : List Stmt)

include h

theorem Run.Renders.settled {s : Stmt} (hless : r.rest.length < (u :: ts).length) :
    (⟨.ok (before ++ [s]), run.events ++ [.slot ⟨t.index, run.tape.index, before, before ++ [s],
      none⟩], run.tape⟩ : Run (List Stmt)).Renders t (u :: ts) stop 0
        ⟨.ok (before ++ [s]), r.errors, r.rest⟩ := by
  obtain ⟨hindex, -⟩ := h.index_tape
  refine ⟨h.rest, h.tape, rfl, ?_, ?_⟩
  · rw [Run.errors, filterMap_error?_concat, ← h.errors]
    exact List.append_nil _
  · apply h.account.slot (Nat.le_refl _)
    · omega
    · exact ⟨s, rfl⟩
    · simp

/-- The error of a slot stands where its declaration was given up. -/
theorem Run.Renders.recovered {fault : SyntaxFault} (hfault : fault ≠ .invalidTarget) {j : Nat}
    (hlength : j + (Parser.resume r.rest).length = t.index + (u :: ts).length)
    (hresumes : Resumes t.tokens (t.index + (u :: ts).length) run.tape.index j) :
    (⟨.ok before, run.events ++ [.slot ⟨t.index, j, before, before,
      some (Error.ofSyntax stop (t.index + (u :: ts).length) ⟨fault, r.rest⟩)⟩],
      run.tape.moveTo j⟩ : Run (List Stmt)).Renders t (u :: ts) stop 0
        ⟨.ok before, r.errors ++ [⟨fault, r.rest⟩], Parser.resume r.rest⟩ := by
  obtain ⟨hindex, hle⟩ := h.index_tape
  have hopen : t.index < t.index + (u :: ts).length := Nat.lt_add_of_pos_right (Nat.succ_pos _)
  have herror : (Error.ofSyntax stop (t.index + (u :: ts).length) ⟨fault, r.rest⟩).index =
      run.tape.index := by
    simp only [Error.ofSyntax]
    omega
  refine ⟨(Parser.resume_suffix _).trans h.rest, ?_, rfl, ?_, ?_⟩
  · have hj : j = t.index + (u :: ts).length - (Parser.resume r.rest).length := by omega
    rw [h.tape, moveTo_moveTo, hj]
  · rw [Run.errors, filterMap_error?_concat, List.map_append, ← h.errors]
    rfl
  · have hj := hresumes.index_le
    rw [index_moveTo]
    apply h.account.slot
    · omega
    · omega
    · refine ⟨rfl, hfault, ?_, ?_⟩
      · rw [herror]
        exact hle
      · rw [herror]
        exact hresumes
    · intro e he
      obtain rfl := Option.some.inj he
      exact herror.ge

end

section

variable {one : Reader Stmt} {p : Parser Stmt} (hone : Agrees n 1 one p) (hconsumes : Consumes p)
  (hreads : Reads (fun _ => True) p (FormedStmt fun _ => True))

include hone hconsumes hreads

theorem Faces.slot (h : t.Faces (u :: ts) stop) (hlength : (u :: ts).length < n)
    (hbound : n ≤ bound) (before : List Stmt) :
    ∃ run, Reader.slot bound one before t = some run ∧
      run.Renders t (u :: ts) stop 0
        ((Parser.recover p (u :: ts)).map fun o => before ++ o.toList) := by
  obtain ⟨run, hrun, hrenders⟩ := hone t (u :: ts) stop h hlength
  cases hout : (p (u :: ts)).outcome with
  | ok s =>
    rw [hrenders.eq_of_ok hout] at hrun
    refine ⟨_, Reader.slot_of_ok before hrun, ?_⟩
    simp only [Parser.recover, hout, Reply.map, Except.map]
    exact hrenders.settled before (hconsumes (u :: ts) s hout)
  | error fault =>
    rw [hrenders.eq_of_error hout] at hrun
    have hbound' : (p (u :: ts)).rest.length < bound :=
      Nat.lt_of_le_of_lt hrenders.rest.length_le (Nat.lt_of_lt_of_le hlength hbound)
    obtain ⟨j, hresume, hlength', hresumes⟩ := (hrenders.faces h).resume hbound'
    have htokens : run.tape.tokens = t.tokens := by rw [hrenders.tape]; rfl
    rw [hrenders.index_tape.1] at hlength' hresumes
    rw [htokens] at hresumes
    refine ⟨_, Reader.slot_of_error before hrun hresume, ?_⟩
    simp only [Parser.recover, hout, Reply.map, Except.map, Option.toList_none, List.append_nil]
    exact hrenders.recovered before ((hreads _ fun _ _ => trivial).fatal fault hout) hlength'
      hresumes

/-- Behind a slot fewer tokens are left. -/
theorem agrees_gathered (closes : Token → Bool) {rounds rounds' : Nat} (hrounds : n ≤ rounds)
    (hrounds' : n ≤ rounds') (gathered : List Stmt) :
    Agrees n 0 (Reader.declarations closes one rounds gathered)
      fun ts => (Parser.declarations closes p rounds' ts).map fun others => gathered ++ others := by
  induction n generalizing rounds rounds' gathered with
  | zero => exact agrees_zero
  | succ n ih =>
    obtain ⟨rounds, rfl⟩ := Nat.exists_eq_add_of_le' (Nat.le_trans (Nat.le_add_left 1 n) hrounds)
    obtain ⟨rounds', rfl⟩ := Nat.exists_eq_add_of_le' (Nat.le_trans (Nat.le_add_left 1 n) hrounds')
    intro t ts stop h hlength
    have hround := h.declarations_succ closes one rounds gathered
    have hself : ∀ r : Reply (List Stmt), r = ⟨.ok gathered, [], ts⟩ →
        (⟨.ok gathered, [], t⟩ : Run (List Stmt)).Renders t ts stop 0 r :=
      fun r hr => hr ▸ Run.renders_self
    cases ts with
    | nil =>
      refine ⟨_, by simpa using hround, hself _ ?_⟩
      simp [Parser.declarations, pure, Reply.map, Except.map]
    | cons u ts =>
      rw [List.headD_cons, List.isEmpty_cons, Bool.or_false] at hround
      cases hcloses : closes u with
      | true =>
        refine ⟨_, hround.trans (if_pos hcloses), hself _ ?_⟩
        simp [Parser.declarations, hcloses, pure, Reply.map, Except.map]
      | false =>
        rw [hcloses, if_neg Bool.false_ne_true] at hround
        obtain ⟨o, ho⟩ := Parser.exists_outcome_recover p (u :: ts)
        obtain ⟨others, hothers⟩ := Parser.exists_outcome_declarations closes p rounds'
          (Parser.recover p (u :: ts)).rest
        obtain ⟨run, hrun, hslot⟩ := h.slot hone hconsumes hreads hlength hrounds gathered
        have hgathered : ((Parser.recover p (u :: ts)).map fun o => gathered ++ o.toList).outcome =
            .ok (gathered ++ o.toList) := by
          simp only [Reply.map, ho, Except.map]
        rw [hslot.eq_of_ok hgathered] at hrun
        have hless := Parser.length_rest_recover_lt hconsumes hreads u ts
        obtain ⟨later, hlater, hrenders⟩ := ih (hone.mono (Nat.le_succ n) (Nat.le_refl 1))
          (Nat.le_of_succ_le_succ hrounds) (Nat.le_of_succ_le_succ hrounds')
          (gathered ++ o.toList) run.tape _ stop (hslot.faces h)
          (Nat.lt_of_lt_of_le hless (Nat.le_of_lt_succ hlength))
        refine ⟨_, hround.trans (Reader.bind_of_ok hrun hlater), ?_⟩
        have hboth := hslot.append hrenders (Nat.add_le_add_right hslot.index_tape.2 0)
        simpa [Parser.declarations_cons_of_ok hcloses rounds' ho hothers, Reply.map, hothers,
          Except.map] using hboth

theorem agrees_declarations (closes : Token → Bool) {rounds rounds' : Nat} (hrounds : n ≤ rounds)
    (hrounds' : n ≤ rounds') :
    Agrees n 0 (Reader.declarations closes one rounds []) (Parser.declarations closes p rounds') := by
  have hmap : ∀ r : Reply (List Stmt), (r.map fun others => [] ++ others) = r := by
    intro r
    obtain ⟨_ | _, _, _⟩ := r <;> rfl
  have hnil := agrees_gathered hone hconsumes hreads closes hrounds hrounds' []
  simp only [hmap] at hnil
  exact hnil

end

/-! ## Statements and errors -/

/-- Where a value of a size above `m` is given, there are events without an error. -/
def Counts {α : Type} (m : Nat) (size : α → Nat) (q : Reader α) : Prop :=
  ∀ t a events t', q t = some ⟨.ok a, events, t'⟩ →
    size a + (events.filterMap Event.error?).length ≤ m + events.length

section

variable {α β : Type} {m : Nat} {size : α → Nat} {size' : β → Nat}

theorem counts_const (m : Nat) (q : Reader α) : Counts m (fun _ => m) q :=
  fun _ _ _ _ _ => Nat.add_le_add_left (List.length_filterMap_le _ _) m

theorem counts_pure {a : α} (h : size a ≤ m) : Counts m size (pure a) := by
  intro t b events t' hrun
  obtain ⟨rfl, rfl, rfl⟩ : a = b ∧ [] = events ∧ t = t' := by simpa [pure] using hrun
  exact h

theorem counts_bind {q : Reader α} {f : α → Reader β} (hq : Counts m size q)
    (hf : ∀ a, Counts (size a) size' (f a)) : Counts m size' (q >>= f) := by
  intro t b events t'' hrun
  simp only [bind] at hrun
  split at hrun
  · cases hrun
  · cases hrun
  · rename_i a first t' hfirst
    obtain ⟨⟨outcome, later, t⟩, hlater, heq⟩ := Option.map_eq_some_iff.mp hrun
    simp only [Run.mk.injEq] at heq
    obtain ⟨rfl, rfl, rfl⟩ := heq
    have hbefore := hq _ a first t' hfirst
    have hbehind := hf a t' b later t hlater
    rw [List.filterMap_append, List.length_append, List.length_append]
    omega

end

theorem counts_slot (bound : Nat) (one : Reader Stmt) (before : List Stmt) :
    Counts before.length List.length (Reader.slot bound one before) := by
  intro t stmts events t' hrun
  unfold Reader.slot at hrun
  split at hrun
  · cases hrun
  · rename_i s first t₁ hfirst
    simp only [Option.some.injEq, Run.mk.injEq, Except.ok.injEq] at hrun
    obtain ⟨rfl, rfl, -⟩ := hrun
    have hle := List.length_filterMap_le Event.error? first
    rw [filterMap_error?_concat]
    simp
    omega
  · rename_i e first t₁ hfirst
    obtain ⟨resumed, -, heq⟩ := Option.map_eq_some_iff.mp hrun
    simp only [Run.mk.injEq, Except.ok.injEq] at heq
    obtain ⟨rfl, rfl, -⟩ := heq
    have hle := List.length_filterMap_le Event.error? first
    rw [filterMap_error?_concat]
    simp
    omega

theorem counts_declarations (closes : Token → Bool) (one : Reader Stmt) (rounds : Nat)
    (gathered : List Stmt) :
    Counts gathered.length List.length (Reader.declarations closes one rounds gathered) := by
  induction rounds generalizing gathered with
  | zero =>
    intro t stmts events t' hrun
    cases hrun
  | succ rounds ih =>
    apply counts_bind (counts_const _ _)
    intro closed
    split
    · exact counts_pure (Nat.le_refl _)
    · apply counts_bind (counts_const _ _)
      intro atEnd
      split
      · exact counts_pure (Nat.le_refl _)
      · exact counts_bind (counts_slot (rounds + 1) one gathered) ih

end Treewalk.Tape
