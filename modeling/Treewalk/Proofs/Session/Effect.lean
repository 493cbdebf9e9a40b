import Treewalk.Proofs.Session.Conversation

/-!
# What a request does to a session

A rejected source is only reported (`run_of_not_accepted`). Every part of a session is orderly
(`Session.Orderly`, `orderly_perform`):

* all that it does to the machine is to run accepted sources on it, one after the other
  (`Machine.Develops`);
* it does not depend on what the sink has taken before;
* it is aborted for nothing but want of fuel.

`Log` is what a session relies on in a sink that can be read: what it has taken stays, through
resets as well.
-/

namespace Treewalk

/-! ## Results -/

section

variable {ε α β : Type} {x : Except ε α} {b : β}

theorem exists_of_map_eq_ok {f : α → β} (h : x.map f = .ok b) : ∃ a, x = .ok a ∧ f a = b := by
  rcases x with e | a
  · cases h
  · exact ⟨a, rfl, Except.ok.inj h⟩

theorem exists_of_bind_eq_ok {f : α → Except ε β} (h : x.bind f = .ok b) :
    ∃ a, x = .ok a ∧ f a = .ok b := by
  rcases x with e | a
  · cases h
  · exact ⟨a, rfl, h⟩

end

/-! ## Sinks that can be read -/

/-- A sink whose entries stay and can be read: one more for each diagnostic. -/
class Log (σ : Type) [Sink σ] extends LawfulSink σ where
  entry : Diagnostic → String
  entries : σ → List String
  entries_write (s : σ) (d : Diagnostic) : entries (Sink.write s d) = entries s ++ [entry d]
  entries_reset (s : σ) : entries (Sink.reset s) = entries s

instance : Log Buffered where
  entry := Diagnostic.text
  entries := Buffered.diagnostics
  entries_write _ _ := List.reverse_cons
  entries_reset _ := rfl

instance : Log Console where
  entry d := d.text ++ "\n"
  entries c := c.chunks.reverse
  entries_write _ _ := List.reverse_cons
  entries_reset _ := rfl

namespace Sink

variable {σ : Type} [Sink σ]

/-- Takes batches of diagnostics, with a reset before each. -/
def reportAll (sink : σ) (batches : List (List Diagnostic)) : σ :=
  batches.foldl (fun sink batch => writeAll (reset sink) batch) sink

theorem reportAll_append (sink : σ) (batches later : List (List Diagnostic)) :
    reportAll sink (batches ++ later) = reportAll (reportAll sink batches) later :=
  List.foldl_append

theorem flags_writeAll [LawfulSink σ] (sink : σ) (ds : List Diagnostic) :
    flags (writeAll sink ds) = ds.foldl Flags.add (flags sink) := by
  induction ds generalizing sink with
  | nil => rfl
  | cons d ds ih =>
    have hone : writeAll sink (d :: ds) = writeAll (write sink d) ds := rfl
    rw [hone, ih, LawfulSink.flags_write, List.foldl_cons]

/-- The flags are those of the latest batch. -/
theorem flags_reportAll_singleton [LawfulSink σ] (sink : σ) (batch : List Diagnostic) :
    flags (reportAll sink [batch]) = batch.foldl Flags.add .clear := by
  change flags (writeAll (reset sink) batch) = _
  rw [flags_writeAll, LawfulSink.flags_reset]

theorem entries_writeAll [Log σ] (sink : σ) (ds : List Diagnostic) :
    Log.entries (writeAll sink ds) = Log.entries sink ++ ds.map (Log.entry (σ := σ)) := by
  induction ds generalizing sink with
  | nil => exact (List.append_nil _).symm
  | cons d ds ih =>
    have hone : writeAll sink (d :: ds) = writeAll (write sink d) ds := rfl
    rw [hone, ih, Log.entries_write, List.append_assoc, List.map_cons, List.singleton_append]

theorem entries_reportAll [Log σ] (sink : σ) (batches : List (List Diagnostic)) :
    Log.entries (reportAll sink batches) =
      Log.entries sink ++ batches.flatten.map (Log.entry (σ := σ)) := by
  induction batches generalizing sink with
  | nil => exact (List.append_nil _).symm
  | cons batch batches ih =>
    change Log.entries (reportAll (writeAll (reset sink) batch) batches) = _
    rw [ih, entries_writeAll, Log.entries_reset, List.append_assoc, List.flatten_cons,
      List.map_append]

end Sink

theorem Buffered.diagnostics_reportAll (sink : Buffered) (batches : List (List Diagnostic)) :
    (Sink.reportAll sink batches).diagnostics =
      sink.diagnostics ++ batches.flatten.map Diagnostic.text :=
  Sink.entries_reportAll sink batches

/-! ## Faults of a source -/

/-- What is wrong with a source, lexical errors first. -/
def faultsOf (source : String) : List Diagnostic :=
  (scan source).errors.map Diagnostic.ofLexicalError ++
    (Program.ofTokens (scan source).tokens).errors.map fun (fault, t) => .ofSyntaxFault fault t

theorem faultsOf_eq_nil_iff {source : String} : faultsOf source = [] ↔ Accepted source := by
  rw [faultsOf, List.append_eq_nil_iff, List.map_eq_nil_iff, List.map_eq_nil_iff]
  exact Iff.rfl

theorem Flags.foldl_add {ds : List Diagnostic}
    (h : ∀ d ∈ ds, ∀ f : Flags, f.add d = { f with sourceError := true }) (f : Flags) :
    ds.foldl Flags.add f = if ds = [] then f else { f with sourceError := true } := by
  induction ds generalizing f with
  | nil => rfl
  | cons d ds ih =>
    obtain ⟨hd, hds⟩ := List.forall_mem_cons.mp h
    rw [List.foldl_cons, ih hds, hd, if_neg (List.cons_ne_nil d ds)]
    split <;> rfl

/-- All faults raise the same flag. -/
theorem add_of_mem_faultsOf {source : String} {d : Diagnostic} (h : d ∈ faultsOf source)
    (f : Flags) : f.add d = { f with sourceError := true } := by
  rcases List.mem_append.mp h with h | h
  · obtain ⟨e, -, rfl⟩ := List.mem_map.mp h
    rfl
  · obtain ⟨⟨fault, t⟩, -, rfl⟩ := List.mem_map.mp h
    rfl

namespace Session

variable {σ : Type} [Sink σ]

theorem parse_eq (source : String) (s : Session σ) :
    s.parse source =
      (statementsOf source, ⟨s.machine, Sink.reportAll s.sink [faultsOf source]⟩) := rfl

theorem flags_of_not_accepted [LawfulSink σ] {source : String} (h : ¬ Accepted source) (sink : σ) :
    Sink.flags (Sink.reportAll sink [faultsOf source]) = ⟨true, false⟩ := by
  have hne : faultsOf source ≠ [] := mt faultsOf_eq_nil_iff.mp h
  rw [Sink.flags_reportAll_singleton, Flags.foldl_add fun d hd => add_of_mem_faultsOf hd,
    if_neg hne]
  rfl

/-- A rejected source is not run. -/
theorem run_of_not_accepted [LawfulSink σ] {source : String} (h : ¬ Accepted source) (fuel : Nat)
    (s : Session σ) :
    s.run fuel source = .ok ("", ⟨s.machine, Sink.reportAll s.sink [faultsOf source]⟩) := by
  simp only [run, parse_eq, flags_of_not_accepted h, if_true]

/-- Only the fuel can be wanting for a run to come to its end. -/
theorem run_error [LawfulSink σ] {fuel : Nat} {source : String} {s : Session σ} {abort : Abort}
    (h : s.run fuel source = .error abort) : abort = .outOfFuel := by
  by_cases haccepted : Accepted source
  · rw [run_of_accepted haccepted, execute] at h
    split at h <;> cases h
    rename_i hrun
    have hfit := Program.statements_fit (scan source).tokens
    exact abort_eq_outOfFuel hfit (congrArg Prod.fst hrun)
  · rw [run_of_not_accepted haccepted] at h
    cases h

/-- A run reports once, and the sink does not matter to it. -/
theorem exists_batch_of_run [LawfulSink σ] {fuel : Nat} {source output : String} {s s' : Session σ}
    (h : s.run fuel source = .ok (output, s')) :
    ∃ batch, s'.sink = Sink.reportAll s.sink [batch] ∧ ∀ sink : σ,
      run fuel source ⟨s.machine, sink⟩ =
        .ok (output, ⟨s'.machine, Sink.reportAll sink [batch]⟩) := by
  by_cases haccepted : Accepted source
  · obtain ⟨r, m, hrun, hend, rfl, rfl⟩ := (run_eq_ok_iff haccepted).mp h
    refine ⟨diagnosticsOf r, rfl, fun sink => ?_⟩
    exact (run_eq_ok_iff haccepted).mpr ⟨r, m, hrun, hend, rfl, rfl⟩
  · rw [run_of_not_accepted haccepted] at h
    cases h
    exact ⟨faultsOf source, rfl, fun sink => run_of_not_accepted haccepted fuel ⟨s.machine, sink⟩⟩

/-- A conversation handles some lines. Which ones, and what it answers, depends only on what it may
read and write, whatever the sink. -/
theorem exists_handleAll_eq (mode : Mode) (i : Input) (h : Handle) :
    ∃ lines answer, ∀ (σ : Type) [Sink σ] (fuel : Nat) (s : Session σ), s.runLines fuel mode i h =
      (s.handleAll fuel mode lines).map fun s' => (answer, s') := by
  obtain ⟨bytes, fails⟩ := i
  obtain ⟨l, hroom, hinput⟩ : ∃ l : Limits, (⟨h.taken, l.room, l.flushes⟩ : Handle) = h ∧
      l.input bytes = ⟨bytes, fails⟩ := by
    cases fails with
    | false => exact ⟨⟨h.room, h.flushes, none⟩, rfl, rfl⟩
    | true =>
      exact ⟨⟨h.room, h.flushes, some bytes.length⟩, rfl, by simp [Limits.input, Input.limited]⟩
  obtain ⟨done, failed, hruns, -⟩ := exists_runLines_eq (σ := Buffered) mode bytes l h.taken
  refine ⟨linesRead done, ((l.handleLeft h.taken done failed).bytes, failed.map Operation.failure),
    fun σ _ fuel s => ?_⟩
  obtain ⟨done', failed', hruns', hlines⟩ := exists_runLines_eq (σ := σ) mode bytes l h.taken
  obtain ⟨rfl, rfl⟩ := hruns.unique hruns'
  have hall := hlines fuel s
  rwa [hroom, hinput] at hall

/-! ## What every part of a session keeps to -/

end Session

/-- What becomes of a machine as accepted sources are run on it, one after the other. -/
inductive Machine.Develops : Machine → Machine → Prop
  | refl (m : Machine) : Develops m m
  | run {m m₁ m₂ : Machine} {fuel : Nat} {source : String} {r : Except Stop Unit}
      (h : Accepted source) (hrun : interpret fuel (statementsOf source) m = (r, m₁))
      (hend : ∀ a, r ≠ .error (.abort a)) (hrest : Develops m₁.takeOutput.2 m₂) : Develops m m₂

theorem Machine.Develops.trans {m m₁ m₂ : Machine} (h : Develops m m₁) (h' : Develops m₁ m₂) :
    Develops m m₂ := by
  induction h with
  | refl => exact h'
  | run haccepted hrun hend _ ih => exact .run haccepted hrun hend (ih h')

namespace Session

/-! ## From runs to requests -/

section

variable {σ τ : Type} [Sink σ] [Sink τ]

/-- A relation between parts of two sessions that holds of what only reports and of the run of a
source, and that is kept where one part follows another. -/
structure Congruence (R : ∀ {α : Type}, (Session σ → Except Abort (α × Session σ)) →
    (Session τ → Except Abort (α × Session τ)) → Prop) : Prop where
  report {α : Type} (a : α) (batches : List (List Diagnostic)) :
    R (fun s => .ok (a, ⟨s.machine, Sink.reportAll s.sink batches⟩))
      fun s => .ok (a, ⟨s.machine, Sink.reportAll s.sink batches⟩)
  run (fuel : Nat) (source : String) : R (fun s => s.run fuel source) fun s => s.run fuel source
  bind {α β : Type} {x : Session σ → Except Abort (α × Session σ)}
    {y : Session τ → Except Abort (α × Session τ)}
    {f : α → Session σ → Except Abort (β × Session σ)}
    {g : α → Session τ → Except Abort (β × Session τ)} (h : R x y) (hrest : ∀ a, R (f a) (g a)) :
    R (fun s => (x s).bind fun p => f p.1 p.2) fun s => (y s).bind fun p => g p.1 p.2

namespace Congruence

variable {α β : Type} {R : ∀ {α : Type}, (Session σ → Except Abort (α × Session σ)) →
    (Session τ → Except Abort (α × Session τ)) → Prop}
  {x x' : Session σ → Except Abort (α × Session σ)}
  {y y' : Session τ → Except Abort (α × Session τ)}

theorem of_eq (_ : Congruence R) (h : R x y) (hx : ∀ s, x' s = x s) (hy : ∀ s, y' s = y s) :
    R x' y' := by
  rwa [funext hx, funext hy]

theorem map (hR : Congruence R) (h : R x y) (f : α → β) :
    R (fun s => (x s).map fun p => (f p.1, p.2)) fun s => (y s).map fun p => (f p.1, p.2) := by
  refine hR.of_eq (hR.bind h fun a => hR.report (f a) []) (fun s => ?_) fun s => ?_
  · cases x s <;> rfl
  · cases y s <;> rfl

theorem handleLine (hR : Congruence R) (fuel : Nat) (mode : Mode) (line : List UInt8) :
    R (fun s => (s.handleLine fuel mode line).map fun s' => ((), s'))
      fun s => (s.handleLine fuel mode line).map fun s' => ((), s') := by
  cases mode with
  | run =>
    refine hR.of_eq (hR.map (hR.run fuel (Utf8.decode line)) fun _ => ()) (fun s => ?_) fun s => ?_
    all_goals
      rw [Session.handleLine]
      cases s.run fuel (Utf8.decode line) <;> rfl
  | printTrees => exact hR.report () [faultsOf (Utf8.decode line)]

theorem handleAll (hR : Congruence R) (fuel : Nat) (mode : Mode) (lines : List (List UInt8))
    (a : α) :
    R (fun s => (s.handleAll fuel mode lines).map fun s' => (a, s'))
      fun s => (s.handleAll fuel mode lines).map fun s' => (a, s') := by
  induction lines with
  | nil => exact hR.report a []
  | cons line lines ih =>
    refine hR.of_eq (hR.bind (hR.handleLine fuel mode line) fun _ => ih) (fun s => ?_) fun s => ?_
    all_goals
      rw [handleAll_cons]
      cases s.handleLine fuel mode line <;> rfl

/-- What a request does comes down to reports and runs. -/
theorem perform (hR : Congruence R) (fuel : Nat) (request : Request) :
    R (fun s => s.perform fuel request) fun s => s.perform fuel request := by
  cases request with
  | parse source => exact hR.report (Answer.statements (statementsOf source)) [faultsOf source]
  | source mode source =>
    cases mode with
    | run => exact hR.map (hR.run fuel source) Answer.output
    | printTrees =>
      exact hR.report (Answer.output (Stmt.linesText (statementsOf source))) [faultsOf source]
  | script path files =>
    cases hread : files.readScript path with
    | error e =>
      refine hR.of_eq (hR.report (Answer.unreadable e) []) (fun s => ?_) fun s => ?_
      all_goals
        simp only [Session.perform, runScript, hread]
        rfl
    | ok source =>
      refine hR.of_eq (hR.map (hR.run fuel source) Answer.output) (fun s => ?_) fun s => ?_
      all_goals
        simp only [Session.perform, runScript, hread]
        cases s.run fuel source <;> rfl
  | lines mode i h =>
    obtain ⟨lines, answer, hlines⟩ := exists_handleAll_eq mode i h
    refine hR.of_eq (hR.handleAll fuel mode lines (Answer.conversation answer.1 answer.2))
      (fun s => ?_) fun s => ?_
    all_goals
      rw [Session.perform, hlines]
      cases s.handleAll fuel mode lines <;> rfl

end Congruence

end

/-! ## Order -/

section

variable {σ α β : Type} [Sink σ]

/-- A part of a session that is orderly does nothing to the machine but run accepted sources, does
not depend on what the sink has taken, and is aborted for nothing but want of fuel. -/
structure Orderly (x : Session σ → Except Abort (α × Session σ)) : Prop where
  error {s : Session σ} {abort : Abort} (h : x s = .error abort) : abort = .outOfFuel
  develops {s s' : Session σ} {a : α} (h : x s = .ok (a, s')) : s.machine.Develops s'.machine
  oblivious {s s' : Session σ} {a : α} (h : x s = .ok (a, s')) :
    ∃ batches, s'.sink = Sink.reportAll s.sink batches ∧
      ∀ sink, x ⟨s.machine, sink⟩ = .ok (a, ⟨s'.machine, Sink.reportAll sink batches⟩)

/-- What only reports. -/
theorem orderly_report (a : α) (batches : List (List Diagnostic)) :
    Orderly fun s : Session σ => .ok (a, ⟨s.machine, Sink.reportAll s.sink batches⟩) where
  error h := nomatch h
  develops h := by
    cases h
    exact .refl _
  oblivious h := by
    cases h
    exact ⟨batches, rfl, fun _ => rfl⟩

theorem Orderly.bind {x : Session σ → Except Abort (α × Session σ)}
    {y : α → Session σ → Except Abort (β × Session σ)} (hx : Orderly x)
    (hy : ∀ a, Orderly (y a)) : Orderly fun s => (x s).bind fun p => y p.1 p.2 where
  error {s abort} h := by
    rcases hs : x s with abort' | ⟨a, s₁⟩
    · rw [hs] at h
      cases h
      exact hx.error hs
    · rw [hs] at h
      exact (hy a).error h
  develops h := by
    obtain ⟨⟨a, s₁⟩, hs, hrest⟩ := exists_of_bind_eq_ok h
    exact (hx.develops hs).trans ((hy a).develops hrest)
  oblivious {s s' b} h := by
    obtain ⟨⟨a, s₁⟩, hs, hrest⟩ := exists_of_bind_eq_ok h
    obtain ⟨batches, hsink, hfirst⟩ := hx.oblivious hs
    obtain ⟨later, hsink', hsecond⟩ := (hy a).oblivious hrest
    refine ⟨batches ++ later, by rw [Sink.reportAll_append, ← hsink, hsink'], fun sink => ?_⟩
    rw [hfirst, Sink.reportAll_append]
    exact hsecond (Sink.reportAll sink batches)

variable [LawfulSink σ]

theorem orderly_run (fuel : Nat) (source : String) :
    Orderly fun s : Session σ => s.run fuel source where
  error := run_error
  develops {s s' output} h := by
    by_cases haccepted : Accepted source
    · obtain ⟨r, m, hrun, hend, rfl, rfl⟩ := (run_eq_ok_iff haccepted).mp h
      exact .run haccepted hrun hend (.refl _)
    · rw [run_of_not_accepted haccepted] at h
      cases h
      exact .refl _
  oblivious h := by
    obtain ⟨batch, hsink, hrun⟩ := exists_batch_of_run h
    exact ⟨[batch], hsink, hrun⟩

theorem congruence_orderly : Congruence (σ := σ) (τ := σ) fun x _ => Orderly x where
  report := orderly_report
  run := orderly_run
  bind hx hy := hx.bind hy

theorem orderly_perform (fuel : Nat) (request : Request) :
    Orderly fun s : Session σ => s.perform fuel request :=
  congruence_orderly.perform fuel request

end

end Session

end Treewalk
