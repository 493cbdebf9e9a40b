import Treewalk.Proofs.Session.Input
import Treewalk.Proofs.Session.Run
import Treewalk.Session.Request

/-!
# Where a conversation ends

A conversation over an input is a sequence of operations on the handle and the reader
(`operations`), which does not depend on what they allow. With limits on the bytes that can be
written, on the flushes and on the bytes that can be read, the operations are done one after the
other up to the first that fails (`Operation.Succeeds`, `Runs`).

`runLines_stops_at_first_failure` says that this is all that limits do: the lines that were read
before are handled, one by one, and what was written is what all operations write, cut off where the
limit is.
-/

namespace Treewalk

/-! ## Operations -/

inductive Operation
  | writePrompt
  | flush
  | readLine (line : List UInt8)
  /-- Read on, where there are no more lines. -/
  | readEnd
  | writeTrees (trees : List UInt8)
  deriving DecidableEq

namespace Operation

/-- The bytes that an operation writes. -/
def bytes : Operation → List UInt8
  | writePrompt => Utf8.encode "> "
  | writeTrees trees => trees
  | flush | readLine _ | readEnd => []

theorem bytes_writePrompt : writePrompt.bytes = [62, 32] := by decide +kernel

/-- The line that is to be handled next. -/
def line? : Operation → Option (List UInt8)
  | readLine line => some line
  | writePrompt | flush | readEnd | writeTrees _ => none

def failure : Operation → PromptError
  | writePrompt => .promptNotWritten
  | flush => .notFlushed
  | readLine _ | readEnd => .notRead
  | writeTrees _ => .treesNotWritten

end Operation

def bytesWritten (ops : List Operation) : List UInt8 :=
  ops.flatMap Operation.bytes

def linesRead (ops : List Operation) : List (List UInt8) :=
  ops.filterMap Operation.line?

/-- What is written about a line. -/
def Mode.shown : Mode → List UInt8 → List Operation
  | .run, _ => []
  | .printTrees, line =>
    [.writeTrees (Utf8.encode (Stmt.linesText (statementsOf (Utf8.decode line))))]

def lineOperations (mode : Mode) (line : List UInt8) : List Operation :=
  .writePrompt :: .flush :: .readLine line :: mode.shown line

/-- All that a conversation does where nothing fails. -/
def operations (mode : Mode) (bytes : List UInt8) : List Operation :=
  (Input.splitLines bytes).flatMap (lineOperations mode) ++ [.writePrompt, .flush, .readEnd]

/-! ## Limits -/

/-- What a handle takes and a reader gives, without limit where there is `none`. -/
structure Limits where
  room : Option Nat
  flushes : Option Nat
  /-- Reading on behind as many bytes fails. -/
  readable : Option Nat

namespace Limits

def handle (l : Limits) : Handle := ⟨[], l.room, l.flushes⟩

def input (l : Limits) (bytes : List UInt8) : Input :=
  match l.readable with
  | none => ⟨bytes, false⟩
  | some limit => .limited limit bytes

end Limits

/-- Whether an operation succeeds behind others that did. An incomplete line is read only where the
input ends. -/
def Operation.Succeeds (l : Limits) (before : List Operation) : Operation → Prop
  | .flush => ∀ n ∈ l.flushes, before.count .flush < n
  | .readLine line =>
    ∀ n ∈ l.readable, line.getLast? = some Input.newline ∧
      (linesRead before ++ [line]).flatten.length ≤ n
  | .readEnd => l.readable = none
  | .writePrompt =>
    ∀ n ∈ l.room, (bytesWritten before ++ Operation.writePrompt.bytes).length ≤ n
  | .writeTrees trees => trees = [] ∨ ∀ n ∈ l.room, (bytesWritten before ++ trees).length ≤ n

/-- All operations succeed, each behind those before it. -/
def AllSucceed (l : Limits) (ops : List Operation) : Prop :=
  ∀ before o after, ops = before ++ o :: after → o.Succeeds l before

/-- Behind those `before`, operations are done up to the first that fails, if one does. -/
inductive Runs (l : Limits) :
    List Operation → List Operation → List Operation → Option Operation → Prop
  | finished (before : List Operation) : Runs l before [] [] none
  | failed {before : List Operation} {o : Operation} (later : List Operation)
      (h : ¬ o.Succeeds l before) : Runs l before (o :: later) [] (some o)
  | next {before later done : List Operation} {o : Operation} {failed : Option Operation}
      (h : o.Succeeds l before) (hrest : Runs l (before ++ [o]) later done failed) :
      Runs l before (o :: later) (o :: done) failed

/-! ## Handling lines -/

namespace Session

variable {σ : Type} [Sink σ]

def handleLine (fuel : Nat) (mode : Mode) (s : Session σ) (line : List UInt8) :
    Except Abort (Session σ) :=
  match mode with
  | .run => (s.run fuel (Utf8.decode line)).map Prod.snd
  | .printTrees => .ok (s.printTrees (Utf8.decode line)).2

/-- Runs lines, or prints their trees, one after the other. -/
def handleAll (fuel : Nat) (mode : Mode) (lines : List (List UInt8)) (s : Session σ) :
    Except Abort (Session σ) :=
  lines.foldlM (handleLine fuel mode) s

theorem handleAll_cons (fuel : Nat) (mode : Mode) (line : List UInt8) (lines : List (List UInt8))
    (s : Session σ) :
    s.handleAll fuel mode (line :: lines) =
      (s.handleLine fuel mode line).bind (handleAll fuel mode lines) := rfl

theorem handleAll_append (fuel : Nat) (mode : Mode) (lines others : List (List UInt8))
    (s : Session σ) :
    s.handleAll fuel mode (lines ++ others) =
      (s.handleAll fuel mode lines).bind (handleAll fuel mode others) :=
  List.foldlM_append

end Session

/-! ## Runs of operations -/

section

variable {l : Limits} {before ops later done done' : List Operation}
  {failed : Option Operation}

@[simp] theorem bytesWritten_append (ops later : List Operation) :
    bytesWritten (ops ++ later) = bytesWritten ops ++ bytesWritten later :=
  List.flatMap_append

@[simp] theorem linesRead_append (ops later : List Operation) :
    linesRead (ops ++ later) = linesRead ops ++ linesRead later :=
  List.filterMap_append

theorem Runs.eq_of_none (h : Runs l before ops done none) : done = ops := by
  generalize hfailed : (none : Option Operation) = failed at h
  induction h with
  | finished => rfl
  | failed => cases hfailed
  | next _ _ ih => rw [ih hfailed]

theorem Runs.append_of_failed {o : Operation} (h : Runs l before ops done (some o))
    (later : List Operation) : Runs l before (ops ++ later) done (some o) := by
  generalize hfailed : some o = failed at h
  induction h with
  | finished => cases hfailed
  | failed rest h => exact .failed (rest ++ later) h
  | next h _ ih => exact .next h (ih hfailed)

theorem Runs.append (h : Runs l before ops done none)
    (hlater : Runs l (before ++ ops) later done' failed) :
    Runs l before (ops ++ later) (ops ++ done') failed := by
  generalize hfailed : (none : Option Operation) = end' at h
  induction h with
  | finished => rwa [List.append_nil] at hlater
  | failed => cases hfailed
  | next h _ ih =>
    rw [List.append_cons] at hlater
    exact .next h (ih hlater hfailed)

/-- What was done was the beginning, and the operation that failed came next. -/
theorem Runs.eq_append (h : Runs l before ops done failed) :
    ∃ later, ops = done ++ failed.toList ++ later ∧ (failed = none → later = []) := by
  induction h with
  | finished => exact ⟨[], rfl, fun _ => rfl⟩
  | failed later _ => exact ⟨later, rfl, by simp⟩
  | next _ _ ih =>
    obtain ⟨later, rfl, hnone⟩ := ih
    exact ⟨later, rfl, hnone⟩

/-- How far operations are done depends on the limits alone. -/
theorem Runs.unique (h : Runs l before ops done failed) {failed' : Option Operation}
    (h' : Runs l before ops done' failed') : done' = done ∧ failed' = failed := by
  induction h generalizing done' with
  | finished =>
    cases h'
    exact ⟨rfl, rfl⟩
  | failed _ hfails =>
    cases h' with
    | failed => exact ⟨rfl, rfl⟩
    | next hsucceeds => exact absurd hsucceeds hfails
  | next hsucceeds _ ih =>
    cases h' with
    | failed _ hfails => exact absurd hsucceeds hfails
    | next _ hrest =>
      obtain ⟨rfl, rfl⟩ := ih hrest
      exact ⟨rfl, rfl⟩

theorem Runs.succeeds (h : Runs l before ops done failed) {earlier rest : List Operation}
    {o : Operation} (hsplit : done = earlier ++ o :: rest) : o.Succeeds l (before ++ earlier) := by
  induction h generalizing earlier with
  | finished | failed => simp at hsplit
  | next h _ ih =>
    cases earlier with
    | nil =>
      cases hsplit
      rwa [List.append_nil]
    | cons e earlier =>
      obtain ⟨rfl, hdone⟩ := List.cons.inj hsplit
      have hlater := ih hdone
      rwa [List.append_assoc, List.singleton_append] at hlater

theorem Runs.not_succeeds {o : Operation} (h : Runs l before ops done (some o)) :
    ¬ o.Succeeds l (before ++ done) := by
  generalize hfailed : some o = failed at h
  induction h with
  | finished => cases hfailed
  | failed _ h =>
    cases hfailed
    rwa [List.append_nil]
  | next _ _ ih =>
    have hlater := ih hfailed
    rwa [List.append_assoc, List.singleton_append] at hlater

end

/-! ## The handle -/

namespace Limits

/-- A handle within the limits, behind operations that succeeded. -/
def handleAfter (l : Limits) (taken : List UInt8) (ops : List Operation) : Handle where
  taken := (bytesWritten ops).reverse ++ taken
  room := l.room.map fun n => n - (bytesWritten ops).length
  flushes := l.flushes.map fun n => n - ops.count .flush

/-- What is left of the handle by an operation that fails: it takes what fits of it. -/
def handleLeft (l : Limits) (taken : List UInt8) (done : List Operation) :
    Option Operation → Handle
  | none => l.handleAfter taken done
  | some o => ((l.handleAfter taken done).write o.bytes).2

variable (l : Limits) (taken : List UInt8) (ops : List Operation)

/-- A write succeeds if there is room for it, and always if it writes nothing. -/
theorem write_handleAfter {o : Operation} (hflush : o ≠ .flush)
    (hfits : o.bytes = [] ∨ ∀ n ∈ l.room, (bytesWritten ops ++ o.bytes).length ≤ n) :
    (l.handleAfter taken ops).write o.bytes = (true, l.handleAfter taken (ops ++ [o])) := by
  have hcount : (ops ++ [o]).count .flush = ops.count .flush := by
    simp [List.count_append, hflush]
  have hbytes : bytesWritten (ops ++ [o]) = bytesWritten ops ++ o.bytes := by
    simp [bytesWritten]
  cases hroom : l.room with
  | none =>
    simp only [handleAfter, Handle.write, hroom, hcount, hbytes, Option.map_none,
      List.reverse_append, List.append_assoc]
  | some n =>
    have hlength : o.bytes.length ≤ n - (bytesWritten ops).length := by
      rcases hfits with hnil | hfits
      · simp [hnil]
      · have htotal := hfits n hroom
        rw [List.length_append] at htotal
        omega
    simp only [handleAfter, Handle.write, hroom, hcount, hbytes, Option.map_some,
      List.take_of_length_le hlength, List.reverse_append, List.append_assoc,
      List.length_append, Nat.sub_add_eq, hlength, decide_true]

theorem write_handleAfter_fails {o : Operation} (hne : o.bytes ≠ [])
    (hfits : ¬ ∀ n ∈ l.room, (bytesWritten ops ++ o.bytes).length ≤ n) :
    ((l.handleAfter taken ops).write o.bytes).1 = false := by
  obtain ⟨n, hroom, hbeyond⟩ := by simpa using hfits
  have hpos := List.length_pos_iff.mpr hne
  have hlength : ¬ o.bytes.length ≤ n - (bytesWritten ops).length := by
    omega
  simp [handleAfter, Handle.write, hroom, hlength]

theorem flush_handleAfter (h : Operation.flush.Succeeds l ops) :
    (l.handleAfter taken ops).flush = (true, l.handleAfter taken (ops ++ [.flush])) := by
  have hbytes : bytesWritten (ops ++ [.flush]) = bytesWritten ops := by
    simp [bytesWritten, Operation.bytes]
  cases hflushes : l.flushes with
  | none => simp [handleAfter, Handle.flush, hflushes, hbytes]
  | some n =>
    have hlt := h n hflushes
    obtain ⟨k, hk⟩ : ∃ k, n - ops.count .flush = k + 1 := ⟨n - ops.count .flush - 1, by omega⟩
    have hk' : n - (ops.count .flush + 1) = k := by omega
    simp [handleAfter, Handle.flush, hflushes, hbytes, hk, hk']

theorem flush_handleAfter_fails (h : ¬ Operation.flush.Succeeds l ops) :
    (l.handleAfter taken ops).flush = (false, l.handleAfter taken ops) := by
  obtain ⟨n, hflushes, hle⟩ : ∃ n, l.flushes = some n ∧ n ≤ ops.count .flush := by
    simpa [Operation.Succeeds] using h
  have hzero : n - ops.count .flush = 0 := by omega
  simp [handleAfter, Handle.flush, hflushes, hzero]

theorem handleLeft_of_bytes_nil {o : Operation} (h : o.bytes = []) :
    l.handleLeft taken ops (some o) = l.handleAfter taken ops := by
  cases hroom : l.room <;> simp [handleLeft, handleAfter, Handle.write, hroom, h]

end Limits

/-! ## Turns -/

namespace Prompt

variable {σ : Type} {α β : Type}

theorem bind_apply (x : Turn σ α) (f : α → Turn σ β) (p : Prompt σ) :
    (x >>= f) p =
      match x p with
      | .error abort => .error abort
      | .ok (.error e, p') => .ok (.error e, p')
      | .ok (.ok a, p') => f a p' := by
  change (x p).bind (fun r => ExceptT.bindCont f r.1 r.2) = _
  rcases x p with _ | ⟨_ | _, _⟩ <;> rfl

theorem write_apply (text : String) (e : PromptError) (s : Session σ) (h : Handle) :
    (write text e : Turn σ Unit) ⟨s, .handle h⟩ =
      .ok (if (h.write (Utf8.encode text)).1 then .ok () else .error e,
        ⟨s, .handle (h.write (Utf8.encode text)).2⟩) := rfl

theorem flush_apply (s : Session σ) (h : Handle) :
    (flush : Turn σ Unit) ⟨s, .handle h⟩ =
      .ok (if h.flush.1 then .ok () else .error .notFlushed, ⟨s, .handle h.flush.2⟩) := rfl

/-- How a turn ends. -/
def ending : Option Operation → Except PromptError Unit
  | none => .ok ()
  | some o => .error o.failure

variable {l : Limits} {taken : List UInt8} {mode : Mode} {before ops later : List Operation}

/-- A write of text, which reads no line. -/
theorem exists_write (l : Limits) (taken : List UInt8) (before : List Operation) {o : Operation}
    {text : String} (hbytes : Utf8.encode text = o.bytes) (hline : o.line? = none)
    (hflush : o ≠ .flush)
    (hfits : o.Succeeds l before ↔
      o.bytes = [] ∨ ∀ n ∈ l.room, (bytesWritten before ++ o.bytes).length ≤ n) :
    ∃ done failed, Runs l before [o] done failed ∧ linesRead done = [] ∧ ∀ s : Session σ,
      (write text o.failure : Turn σ Unit) ⟨s, .handle (l.handleAfter taken before)⟩ =
        .ok (ending failed, ⟨s, .handle (l.handleLeft taken (before ++ done) failed)⟩) := by
  by_cases hsucceeds : o.Succeeds l before
  · refine ⟨[o], none, .next hsucceeds (.finished _), by simp [linesRead, hline], fun s => ?_⟩
    rw [write_apply, hbytes, l.write_handleAfter taken before hflush (hfits.mp hsucceeds)]
    rfl
  · refine ⟨[], some o, .failed [] hsucceeds, rfl, fun s => ?_⟩
    have hbeyond := fun h => hsucceeds (hfits.mpr h)
    rw [write_apply, hbytes, l.write_handleAfter_fails taken before (fun h => hbeyond (.inl h))
      fun h => hbeyond (.inr h), List.append_nil]
    rfl

variable [Sink σ]

/-- Behind the operations `before`, the turn does the operations `ops` up to the first that fails,
and handles the lines that it reads. -/
def Does (l : Limits) (taken : List UInt8) (mode : Mode) (before ops : List Operation)
    (x : Nat → Turn σ Unit) : Prop :=
  ∃ done failed, Runs l before ops done failed ∧ ∀ (fuel : Nat) (s : Session σ),
    x fuel ⟨s, .handle (l.handleAfter taken before)⟩ =
      (s.handleAll fuel mode (linesRead done)).map fun s' =>
        (ending failed, ⟨s', .handle (l.handleLeft taken (before ++ done) failed)⟩)

theorem Does.bind {x y : Nat → Turn σ Unit} (hx : Does l taken mode before ops x)
    (hy : Does l taken mode (before ++ ops) later y) :
    Does l taken mode before (ops ++ later) fun fuel => x fuel >>= fun _ => y fuel := by
  obtain ⟨done, failed, hruns, hx⟩ := hx
  obtain ⟨done', failed', hruns', hy⟩ := hy
  cases failed with
  | some o =>
    refine ⟨done, some o, hruns.append_of_failed later, fun fuel s => ?_⟩
    change (x fuel >>= fun _ => y fuel) _ = _
    rw [bind_apply, hx]
    cases s.handleAll fuel mode (linesRead done) <;> rfl
  | none =>
    obtain rfl := hruns.eq_of_none
    refine ⟨done ++ done', failed', hruns.append hruns', fun fuel s => ?_⟩
    change (x fuel >>= fun _ => y fuel) _ = _
    rw [bind_apply, hx, linesRead_append, Session.handleAll_append]
    cases s.handleAll fuel mode (linesRead done) with
    | error abort => rfl
    | ok s' =>
      change y fuel ⟨s', .handle (l.handleAfter taken (before ++ done))⟩ = _
      rw [hy, List.append_assoc]
      rfl

theorem does_writePrompt :
    Does l taken mode before [.writePrompt] fun _ =>
      (write "> " .promptNotWritten : Turn σ Unit) := by
  have hne : Operation.writePrompt.bytes ≠ [] := by simp [Operation.bytes_writePrompt]
  obtain ⟨done, failed, hruns, hnone, hwrite⟩ := exists_write (σ := σ) l taken before
    (o := .writePrompt) rfl rfl nofun (by simp only [Operation.Succeeds, hne, false_or])
  refine ⟨done, failed, hruns, fun fuel s => (hwrite s).trans ?_⟩
  rw [hnone]
  rfl

theorem does_flush :
    Does l taken mode before [.flush] fun _ => (flush : Turn σ Unit) := by
  by_cases hsucceeds : Operation.flush.Succeeds l before
  · refine ⟨[.flush], none, .next hsucceeds (.finished _), fun fuel s => ?_⟩
    change (flush : Turn σ Unit) _ = _
    rw [flush_apply, l.flush_handleAfter taken before hsucceeds]
    rfl
  · refine ⟨[], some .flush, .failed [] hsucceeds, fun fuel s => ?_⟩
    change (flush : Turn σ Unit) _ = _
    rw [flush_apply, l.flush_handleAfter_fails taken before hsucceeds, List.append_nil,
      l.handleLeft_of_bytes_nil taken before rfl]
    rfl

theorem does_ask :
    Does l taken mode before [.writePrompt, .flush] fun _ => (ask : Turn σ Unit) :=
  does_writePrompt.bind does_flush

/-- A line that has been read is handled, and its trees are written. -/
theorem does_handle {line : List UInt8} (hread : (Operation.readLine line).Succeeds l before) :
    Does l taken mode before (.readLine line :: mode.shown line) fun fuel =>
      (handle fuel mode (Utf8.decode line) : Turn σ Unit) := by
  have hafter : l.handleAfter taken (before ++ [.readLine line]) = l.handleAfter taken before := by
    simp [Limits.handleAfter, bytesWritten, Operation.bytes, List.count_append]
  cases mode with
  | run =>
    refine ⟨[.readLine line], none, .next hread (.finished _), fun fuel s => ?_⟩
    change runSource fuel (Utf8.decode line) _ = _
    rw [Limits.handleLeft, hafter]
    simp only [runSource, Session.handleAll, linesRead, List.filterMap_cons, Operation.line?,
      List.filterMap_nil, List.foldlM_cons, List.foldlM_nil, Session.handleLine]
    cases s.run fuel (Utf8.decode line) <;> rfl
  | printTrees =>
    obtain ⟨done, failed, hruns, hnone, hwrite⟩ := exists_write (σ := σ) l taken
      (before ++ [.readLine line])
      (o := .writeTrees (Utf8.encode (Stmt.linesText (statementsOf (Utf8.decode line)))))
      rfl rfl nofun Iff.rfl
    refine ⟨.readLine line :: done, failed, .next hread hruns, fun fuel s => ?_⟩
    have hlines : linesRead (.readLine line :: done) = [line] := congrArg (line :: ·) hnone
    rw [hafter] at hwrite
    change (treesOf (Utf8.decode line) >>= fun trees => write trees .treesNotWritten) _ = _
    rw [bind_apply, hlines, List.append_cons]
    exact hwrite (s.printTrees (Utf8.decode line)).2

/-- The operation at which reading on ends. -/
theorem does_end {fails : Bool} {o : Operation} (hbytes : o.bytes = [])
    (hfailure : fails = true → o.failure = .notRead ∧ ¬ o.Succeeds l before)
    (hend : fails = false → o = .readEnd ∧ o.Succeeds l before ∧ later = []) :
    Does l taken mode before (o :: later) fun _ =>
      (if fails then throw .notRead else pure () : Turn σ Unit) := by
  cases fails with
  | true =>
    obtain ⟨hnotRead, hfails⟩ := hfailure rfl
    refine ⟨[], some o, .failed later hfails, fun fuel s => ?_⟩
    rw [List.append_nil, l.handleLeft_of_bytes_nil taken before hbytes, ending, hnotRead]
    rfl
  | false =>
    obtain ⟨rfl, hsucceeds, rfl⟩ := hend rfl
    refine ⟨[.readEnd], none, .next hsucceeds (.finished _), fun fuel s => ?_⟩
    have hafter : l.handleAfter taken (before ++ [.readEnd]) = l.handleAfter taken before := by
      simp [Limits.handleAfter, bytesWritten, Operation.bytes, List.count_append]
    rw [Limits.handleLeft, hafter]
    rfl

end Prompt

/-! ## Reading -/

theorem linesRead_lineOperations (mode : Mode) (line : List UInt8) :
    linesRead (lineOperations mode line) = [line] := by
  cases mode <;> rfl

theorem linesRead_flatMap (mode : Mode) (lines : List (List UInt8)) :
    linesRead (lines.flatMap (lineOperations mode)) = lines := by
  induction lines with
  | nil => rfl
  | cons line lines ih =>
    rw [List.flatMap_cons, linesRead_append, linesRead_lineOperations, ih, List.singleton_append]

namespace Prompt

variable {σ : Type} [Sink σ] {l : Limits} {taken : List UInt8} {mode : Mode}
  {before : List Operation}

/-- A conversation over lines that can all be read, up to the end of reading. -/
theorem does_converseOver {fails : Bool} {o : Operation} {lines : List (List UInt8)}
    (later : List Operation)
    (hread : ∀ earlier line rest, lines = earlier ++ line :: rest →
      (Operation.readLine line).Succeeds l (before ++ earlier.flatMap (lineOperations mode)))
    (hend : ∀ before', linesRead before' = linesRead before ++ lines →
      Does l taken mode before' (o :: later) fun _ =>
        (if fails then throw .notRead else pure () : Turn σ Unit)) :
    Does l taken mode before
      (lines.flatMap (lineOperations mode) ++ .writePrompt :: .flush :: o :: later) fun fuel =>
      (converseOver fuel mode fails lines : Turn σ Unit) := by
  induction lines generalizing before with
  | nil =>
    change Does l taken mode before ([.writePrompt, .flush] ++ (o :: later)) _
    refine does_ask.bind (hend _ ?_)
    rw [linesRead_append]
    rfl
  | cons line lines ih =>
    have hline := hread [] line lines rfl
    rw [List.flatMap_nil, List.append_nil] at hline
    have hprompted : (Operation.readLine line).Succeeds l (before ++ [.writePrompt, .flush]) := by
      have hnone : linesRead [.writePrompt, .flush] = [] := rfl
      intro n hn
      rw [linesRead_append, hnone, List.append_nil]
      exact hline n hn
    have hrest : Does l taken mode (before ++ lineOperations mode line)
        (lines.flatMap (lineOperations mode) ++ .writePrompt :: .flush :: o :: later)
        fun fuel => (converseOver fuel mode fails lines : Turn σ Unit) := ih ?_ ?_
    · rw [List.flatMap_cons, List.append_assoc]
      change Does l taken mode before
        ([.writePrompt, .flush] ++ (.readLine line :: mode.shown line ++ _)) _
      refine does_ask.bind ((does_handle hprompted).bind ?_)
      rwa [List.append_assoc]
    · intro earlier line' rest hsplit
      have hlater := hread (line :: earlier) line' rest (by rw [hsplit]; rfl)
      rwa [List.flatMap_cons, ← List.append_assoc] at hlater
    · intro before' hbefore
      apply hend
      rw [hbefore, linesRead_append, linesRead_lineOperations, List.append_assoc,
        List.singleton_append]

/-- A whole conversation does its operations. -/
theorem does_converse (l : Limits) (taken : List UInt8) (mode : Mode) (bytes : List UInt8) :
    Does l taken mode [] (operations mode bytes) fun fuel =>
      (converse fuel mode (l.input bytes) : Turn σ Unit) := by
  cases hreadable : l.readable with
  | none =>
    simp only [converse, Limits.input, hreadable]
    refine does_converseOver (o := .readEnd) [] ?_ ?_
    · intro _ _ _ _ n hn
      rw [hreadable] at hn
      cases hn
    · intro before _
      exact does_end rfl nofun fun _ => ⟨rfl, hreadable, rfl⟩
  | some limit =>
    obtain ⟨unread, hlines, hcomplete, hlength, hnext⟩ :=
      Input.exists_lines_limited (Input.splitInto_splitLines bytes) limit
    simp only [converse, Limits.input, hreadable, operations]
    rw [hlines, List.flatMap_append, List.append_assoc]
    have hread : ∀ earlier line rest, (Input.limited limit bytes).lines = earlier ++ line :: rest →
        (Operation.readLine line).Succeeds l
          ([] ++ earlier.flatMap (lineOperations mode)) := by
      intro earlier line rest hsplit n hn
      obtain rfl : limit = n := Option.some.inj (hreadable.symm.trans hn)
      rw [hsplit] at hcomplete hlength
      refine ⟨(hcomplete line (by simp)).getLast?_eq, ?_⟩
      rw [List.nil_append, linesRead_flatMap]
      simp only [List.flatten_append, List.flatten_cons, List.length_append, List.flatten_nil,
        List.length_nil] at hlength ⊢
      omega
    cases unread with
    | nil =>
      refine does_converseOver (o := .readEnd) [] hread fun before _ => ?_
      refine does_end rfl (fun _ => ⟨rfl, fun hnone => ?_⟩) nofun
      rw [Operation.Succeeds, hreadable] at hnone
      cases hnone
    | cons line unread =>
      refine does_converseOver (o := .readLine line) _ hread fun before hbefore => ?_
      refine does_end rfl (fun _ => ⟨rfl, fun hsucceeds => ?_⟩) nofun
      obtain ⟨hlast, hfits⟩ := hsucceeds limit hreadable
      have hbeyond := hnext line rfl hlast
      rw [hbefore] at hfits
      simp only [linesRead, List.filterMap_nil, List.nil_append, List.flatten_append,
        List.flatten_cons, List.flatten_nil, List.append_nil, List.length_append] at hfits
      omega

end Prompt

/-! ## What is done, and what is written -/

section

variable {l : Limits} {taken : List UInt8} {before ops done : List Operation}
  {failed : Option Operation}

theorem Runs.isPrefix (h : Runs l before ops done failed) : done <+: ops := by
  obtain ⟨later, rfl, -⟩ := h.eq_append
  rw [List.append_assoc]
  exact List.prefix_append _ _

/-- A beginning of the operations is done if all in it succeed. -/
theorem Runs.isPrefix_iff (h : Runs l [] ops done failed) {beginning : List Operation}
    (hbegins : beginning <+: ops) : beginning <+: done ↔ AllSucceed l beginning := by
  constructor
  · rintro ⟨rest, rfl⟩ earlier o later rfl
    exact h.succeeds (List.append_assoc earlier (o :: later) rest)
  · intro hall
    rcases List.prefix_or_prefix_of_prefix hbegins h.isPrefix with hdone | ⟨rest, rfl⟩
    · exact hdone
    obtain ⟨later, hops, hnone⟩ := h.eq_append
    cases failed with
    | none =>
      rw [hnone rfl, Option.toList_none, List.append_nil, List.append_nil] at hops
      rwa [hops] at hbegins
    | some o =>
      cases rest with
      | nil => simp
      | cons o' rest =>
        obtain ⟨later', hops'⟩ := hbegins
        rw [hops, List.append_assoc, List.append_assoc, List.append_cancel_left_eq] at hops'
        obtain ⟨rfl, -⟩ := List.cons.inj hops'
        exact absurd (hall done o' rest rfl) h.not_succeeds

theorem Runs.eq_none_iff (h : Runs l [] ops done failed) :
    failed = none ↔ AllSucceed l ops := by
  rw [← h.isPrefix_iff (List.prefix_rfl)]
  constructor
  · rintro rfl
    obtain rfl := h.eq_of_none
    exact List.prefix_rfl
  · intro hall
    obtain ⟨later, hops, -⟩ := h.eq_append
    have hlength := hall.length_le
    cases failed with
    | none => rfl
    | some o =>
      simp only [hops, List.length_append, Option.toList_some, List.length_singleton] at hlength
      omega

/-- Operations that succeed stay within the room of the handle. -/
theorem Runs.length_le (h : Runs l before ops done failed) {n : Nat} (hn : n ∈ l.room)
    (hbefore : (bytesWritten before).length ≤ n) : (bytesWritten (before ++ done)).length ≤ n := by
  induction h with
  | finished | failed => rwa [List.append_nil]
  | @next before later done o _ hsucceeds _ ih =>
    have hbytes : bytesWritten (before ++ [o]) = bytesWritten before ++ o.bytes := by
      simp [bytesWritten]
    rw [List.append_cons]
    apply ih
    rw [hbytes]
    cases o with
    | writePrompt => exact hsucceeds n hn
    | writeTrees trees =>
      rcases hsucceeds with rfl | hfits
      · simpa [Operation.bytes] using hbefore
      · exact hfits n hn
    | flush | readLine | readEnd => simpa [Operation.bytes] using hbefore

/-- A write that fails does not fit. -/
theorem Operation.exists_room_lt {o : Operation} (hne : o.bytes ≠ [])
    (h : ¬ o.Succeeds l before) :
    ∃ n, l.room = some n ∧ n < (bytesWritten before ++ o.bytes).length := by
  cases o with
  | flush | readLine | readEnd => exact absurd rfl hne
  | writePrompt => simpa [Succeeds] using h
  | writeTrees trees =>
    have hbeyond := (not_or.mp h).2
    simpa [Operation.bytes] using hbeyond

theorem bytes_handleAfter (l : Limits) (taken : List UInt8) (ops : List Operation) :
    (l.handleAfter taken ops).bytes = taken.reverse ++ bytesWritten ops := by
  simp [Limits.handleAfter, Handle.bytes]

theorem bytes_handleLeft_some (l : Limits) (taken : List UInt8) (done : List Operation)
    (o : Operation) :
    (l.handleLeft taken done (some o)).bytes =
      taken.reverse ++ bytesWritten done ++
        l.room.elim o.bytes fun n => o.bytes.take (n - (bytesWritten done).length) := by
  rw [Limits.handleLeft, Handle.bytes_write, bytes_handleAfter]
  cases hroom : l.room <;> simp [Limits.handleAfter, hroom]

theorem Runs.bytes_isPrefix (h : Runs l [] ops done failed) :
    (l.handleLeft [] done failed).bytes <+: bytesWritten ops := by
  obtain ⟨later, rfl, -⟩ := h.eq_append
  cases failed with
  | none =>
    rw [Limits.handleLeft, bytes_handleAfter, bytesWritten_append, bytesWritten_append,
      List.append_assoc]
    exact List.prefix_append _ _
  | some o =>
    have hone : bytesWritten [o] = o.bytes := by simp [bytesWritten]
    rw [bytes_handleLeft_some, bytesWritten_append, bytesWritten_append, Option.toList_some, hone,
      List.reverse_nil, List.nil_append, List.append_assoc, List.prefix_append_right_inj]
    refine List.IsPrefix.trans ?_ (List.prefix_append _ _)
    cases l.room with
    | none => exact List.prefix_rfl
    | some n => exact List.take_prefix _ _

/-- Where a write fails, the handle has taken as much as it could. -/
theorem Runs.length_bytes {o : Operation} (h : Runs l [] ops done (some o)) (hne : o.bytes ≠ []) :
    some (l.handleLeft [] done (some o)).bytes.length = l.room := by
  obtain ⟨n, hroom, hbeyond⟩ := o.exists_room_lt hne h.not_succeeds
  have hwithin := h.length_le hroom (by simp [bytesWritten])
  rw [bytes_handleLeft_some, hroom]
  simp only [List.nil_append, List.length_append, List.reverse_nil,
    Option.elim_some, List.length_take, Option.some.injEq] at hbeyond hwithin ⊢
  omega

end

/-! ## Conversations with a handle -/

section

variable {σ : Type} [Sink σ]

/-- What a conversation with a handle comes to, whatever was written to it before. -/
theorem exists_runLines_eq (mode : Mode) (bytes : List UInt8) (l : Limits) (taken : List UInt8) :
    ∃ done failed, Runs l [] (operations mode bytes) done failed ∧
      ∀ (fuel : Nat) (s : Session σ),
        s.runLines fuel mode (l.input bytes) ⟨taken, l.room, l.flushes⟩ =
          (s.handleAll fuel mode (linesRead done)).map fun s' =>
            (((l.handleLeft taken done failed).bytes, failed.map Operation.failure), s') := by
  obtain ⟨done, failed, hruns, hconverse⟩ :=
    Prompt.does_converse (σ := σ) l taken mode bytes
  refine ⟨done, failed, hruns, fun fuel s => ?_⟩
  have hhandle : (⟨taken, l.room, l.flushes⟩ : Handle) = l.handleAfter taken [] := by
    simp [Limits.handleAfter, bytesWritten]
  have hall := hconverse fuel s
  simp only [List.nil_append] at hall
  rw [Session.runLines, hhandle, hall]
  cases s.handleAll fuel mode (linesRead done) with
  | error abort => rfl
  | ok s' => cases failed <;> rfl

theorem linesRead_operations (mode : Mode) (bytes : List UInt8) :
    linesRead (operations mode bytes) = Input.splitLines bytes := by
  rw [operations, linesRead_append, linesRead_flatMap]
  exact List.append_nil _

/-- Without limits everything is done. -/
theorem runLines_unlimited (mode : Mode) (bytes : List UInt8) (fuel : Nat) (s : Session σ) :
    s.runLines fuel mode ⟨bytes, false⟩ .unlimited =
      (s.handleAll fuel mode (Input.splitLines bytes)).map fun s' =>
        ((bytesWritten (operations mode bytes), none), s') := by
  obtain ⟨done, failed, hruns, hlines⟩ :=
    exists_runLines_eq (σ := σ) mode bytes ⟨none, none, none⟩ []
  have hnone : failed = none := by
    refine hruns.eq_none_iff.mpr fun before o after _ => ?_
    cases o <;> simp [Operation.Succeeds]
  subst hnone
  obtain rfl := hruns.eq_of_none
  have hall := hlines fuel s
  rw [linesRead_operations, Limits.handleLeft, bytes_handleAfter] at hall
  exact hall

/-- The operations up to the reading of a line. -/
def upToLine (mode : Mode) (earlier : List (List UInt8)) (line : List UInt8) : List Operation :=
  earlier.flatMap (lineOperations mode) ++ [.writePrompt, .flush] ++ [.readLine line]

theorem linesRead_upToLine (mode : Mode) (earlier : List (List UInt8)) (line : List UInt8) :
    linesRead (upToLine mode earlier line) = earlier ++ [line] := by
  rw [upToLine, linesRead_append, linesRead_append, linesRead_flatMap]
  exact congrArg (· ++ [line]) (List.append_nil earlier)

theorem upToLine_isPrefix {mode : Mode} {bytes line : List UInt8}
    {earlier later : List (List UInt8)}
    (hsplit : Input.splitLines bytes = earlier ++ line :: later) :
    upToLine mode earlier line <+: operations mode bytes := by
  rw [operations, hsplit, upToLine, List.flatMap_append, List.append_assoc, List.append_assoc,
    List.prefix_append_right_inj, List.flatMap_cons]
  exact ⟨_, rfl⟩

/-- A line is handled if all operations up to its reading succeed. -/
theorem Runs.handles_iff {l : Limits} {mode : Mode} {bytes line : List UInt8}
    {done : List Operation} {failed : Option Operation} {earlier later : List (List UInt8)}
    (h : Runs l [] (operations mode bytes) done failed)
    (hsplit : Input.splitLines bytes = earlier ++ line :: later) :
    earlier ++ [line] <+: linesRead done ↔ AllSucceed l (upToLine mode earlier line) := by
  have hbegins : upToLine mode earlier line <+: operations mode bytes := upToLine_isPrefix hsplit
  rw [← h.isPrefix_iff hbegins, ← linesRead_upToLine mode]
  constructor
  · intro hlines
    rcases List.prefix_or_prefix_of_prefix hbegins h.isPrefix with hdone | hdone
    · exact hdone
    by_cases heq : done = upToLine mode earlier line
    · subst heq
      exact List.prefix_rfl
    -- What was done ends before the line is read, so it is not among the lines.
    have hshort := (List.prefix_concat_iff.mp hdone).resolve_left heq
    have hfew := (hlines.trans (hshort.filterMap _)).length_le
    have hnone : linesRead [.writePrompt, .flush] = [] := rfl
    rw [linesRead_upToLine, ← linesRead, linesRead_append, linesRead_flatMap, hnone,
      List.length_append, List.length_append] at hfew
    exact absurd hfew (Nat.not_succ_le_self _)
  · exact fun hdone => hdone.filterMap _

/-- The operations of a conversation are done up to the first that fails for a limit. The lines that
have been read by then are handled, one by one and in order: those up to which all operations
succeed, also the writing of the trees of the lines before. A line ends behind its newline, and the
last one where the bytes end. What is written is a beginning of what is written without limits;
where a write fails, it has the length of the limit, and a write of no trees does not fail. -/
theorem runLines_stops_at_first_failure (mode : Mode) (bytes : List UInt8) (l : Limits) :
    ∃ done failed written,
      Runs l [] (operations mode bytes) done failed ∧
      (∀ (fuel : Nat) (s : Session σ), s.runLines fuel mode (l.input bytes) l.handle =
        (s.handleAll fuel mode (linesRead done)).map fun s' =>
          ((written, failed.map Operation.failure), s')) ∧
      Input.SplitInto bytes (Input.splitLines bytes) ∧
      linesRead done <+: Input.splitLines bytes ∧
      (∀ earlier line later, Input.splitLines bytes = earlier ++ line :: later →
        (earlier ++ [line] <+: linesRead done ↔ AllSucceed l (upToLine mode earlier line))) ∧
      (failed = none ↔ AllSucceed l (operations mode bytes)) ∧
      (∀ (fuel : Nat) (s : Session σ), s.runLines fuel mode ⟨bytes, false⟩ .unlimited =
        (s.handleAll fuel mode (Input.splitLines bytes)).map fun s' =>
          ((bytesWritten (operations mode bytes), none), s')) ∧
      written <+: bytesWritten (operations mode bytes) ∧
      (failed.map Operation.failure = some .promptNotWritten ∨
          failed.map Operation.failure = some .treesNotWritten →
        some written.length = l.room) ∧
      failed ≠ some (.writeTrees []) := by
  obtain ⟨done, failed, hruns, hlines⟩ := exists_runLines_eq (σ := σ) mode bytes l []
  have hempty : failed ≠ some (.writeTrees []) := by
    rintro rfl
    exact hruns.not_succeeds (.inl rfl)
  refine ⟨done, failed, _, hruns, hlines, Input.splitInto_splitLines bytes, ?_,
    fun _ _ _ => hruns.handles_iff, hruns.eq_none_iff, runLines_unlimited mode bytes,
    hruns.bytes_isPrefix, ?_, hempty⟩
  · rw [← linesRead_operations mode]
    exact hruns.isPrefix.filterMap _
  · intro hwrite
    cases failed with
    | none => simp at hwrite
    | some o =>
      refine hruns.length_bytes ?_
      cases o with
      | flush | readLine | readEnd => simp [Operation.failure] at hwrite
      | writePrompt => simp [Operation.bytes_writePrompt]
      | writeTrees trees =>
        rintro rfl
        exact hempty rfl

end

end Treewalk
