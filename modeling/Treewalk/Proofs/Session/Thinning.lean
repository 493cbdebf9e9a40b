import Mathlib
import Treewalk.Proofs.Session.Transcript

/-!
# Leaving out what is rejected

A conversation that runs lines is the transcript of the requests to run them, if the handle can
afford the prompts (`runLines_cases`, `handleAll_eq_transcript`). Fewer lines take fewer prompts, so
rejected lines can be left out of an input as idle requests can be left out of a session.

`idle_input_leaves_no_trace` states both. The prompts have to be afforded: where a handle fails for
want of them, leaving out a line lets another be run (`thinned_conversation_runs_further`).
-/

namespace Treewalk

/-! ## Lines left out of an input -/

section

variable {α β : Type} {P : α → Prop}

theorem Thinned.length_le {l kept : List α} (h : Thinned P l kept) : kept.length ≤ l.length := by
  induction h with
  | nil => exact Nat.le_refl _
  | keep _ _ ih => exact Nat.succ_le_succ ih
  | leaveOut _ _ ih => exact Nat.le_succ_of_le ih

theorem Thinned.imp {Q : α → Prop} {l kept : List α} (h : Thinned P l kept)
    (himp : ∀ a, P a → Q a) : Thinned Q l kept := by
  induction h with
  | nil => exact .nil
  | keep a _ ih => exact ih.keep a
  | leaveOut ha _ ih => exact ih.leaveOut (himp _ ha)

theorem Thinned.filter {l kept : List α} (h : Thinned P l kept) (p : α → Bool) :
    Thinned P (l.filter p) (kept.filter p) := by
  induction h with
  | nil => exact .nil
  | keep a _ ih =>
    by_cases hp : p a = true
    · rw [List.filter_cons_of_pos hp, List.filter_cons_of_pos hp]
      exact ih.keep a
    · rwa [List.filter_cons_of_neg hp, List.filter_cons_of_neg hp]
  | @leaveOut _ _ a ha _ ih =>
    by_cases hp : p a = true
    · rw [List.filter_cons_of_pos hp]
      exact ih.leaveOut ha
    · rwa [List.filter_cons_of_neg hp]

theorem Thinned.exists_of_map {f : β → α} {l : List β} {kept : List α}
    (h : Thinned P (l.map f) kept) :
    ∃ kept', Thinned (fun b => P (f b)) l kept' ∧ kept'.map f = kept := by
  induction l generalizing kept with
  | nil =>
    cases h
    exact ⟨[], .nil, rfl⟩
  | cons b l ih =>
    cases h with
    | keep _ h =>
      obtain ⟨kept', hthinned, rfl⟩ := ih h
      exact ⟨b :: kept', hthinned.keep b, rfl⟩
    | leaveOut hb h =>
      obtain ⟨kept', hthinned, rfl⟩ := ih h
      exact ⟨kept', hthinned.leaveOut hb, rfl⟩

end

namespace Input

variable {P : List UInt8 → Prop} {bytes : List UInt8} {ls kept : List (List UInt8)}

/-- What is left is cut into lines as before. -/
theorem SplitInto.thinned (h : SplitInto bytes ls) (hthinned : Thinned P ls kept) :
    SplitInto kept.flatten kept := by
  induction h generalizing kept with
  | nil =>
    cases hthinned
    exact .nil
  | @last rest hne hmem =>
    cases hthinned with
    | keep _ hthinned =>
      cases hthinned
      rw [List.flatten_singleton]
      exact .last hne hmem
    | leaveOut _ hthinned =>
      cases hthinned
      exact .nil
  | cons hline _ ih =>
    cases hthinned with
    | keep _ hthinned =>
      rw [List.flatten_cons]
      exact .cons hline (ih hthinned)
    | leaveOut _ hthinned => exact ih hthinned

theorem thinned_lines (hthinned : Thinned P (splitLines bytes) kept) (fails : Bool) :
    Thinned P (lines ⟨bytes, fails⟩) (lines ⟨kept.flatten, fails⟩) := by
  have hkept := ((splitInto_splitLines bytes).thinned hthinned).eq_splitLines
  simp only [lines, ← hkept]
  cases fails with
  | true => exact hthinned.filter _
  | false => exact hthinned

end Input

/-! ## Prompts that a handle can afford -/

namespace Handle

/-- So many prompts can be written and flushed. -/
def Affords (h : Handle) (prompts : Nat) : Prop :=
  (∀ room ∈ h.room, 2 * prompts ≤ room) ∧ ∀ flushes ∈ h.flushes, prompts ≤ flushes

theorem Affords.mono {h : Handle} {m n : Nat} (hn : h.Affords n) (hle : m ≤ n) : h.Affords m := by
  obtain ⟨hroom, hflushes⟩ := hn
  constructor
  · intro room hmem
    have hrest := hroom room hmem
    omega
  · intro flushes hmem
    have hrest := hflushes flushes hmem
    omega

theorem affords_zero (h : Handle) : h.Affords 0 :=
  ⟨fun _ _ => Nat.zero_le _, fun _ _ => Nat.zero_le _⟩

/-- A prompt takes two bytes and a flush. -/
theorem affords_succ_iff {taken taken' : List UInt8} {room flushes : Option Nat}
    (hroom : ∀ m ∈ room, 2 ≤ m) (hflushes : ∀ m ∈ flushes, 0 < m) (n : Nat) :
    Affords ⟨taken, room, flushes⟩ (n + 1) ↔
      Affords ⟨taken', room.map (· - 2), flushes.map (· - 1)⟩ n := by
  simp only [Affords, Option.forall_mem_map]
  constructor
  · rintro ⟨hbytes, hcount⟩
    refine ⟨fun m hm => ?_, fun m hm => ?_⟩
    · have hmost := hbytes m hm
      omega
    · have hmost := hcount m hm
      omega
  · rintro ⟨hbytes, hcount⟩
    refine ⟨fun m hm => ?_, fun m hm => ?_⟩
    · have hmost := hbytes m hm
      have hfirst := hroom m hm
      omega
    · have hmost := hcount m hm
      have hfirst := hflushes m hm
      omega

end Handle

namespace Prompt

variable {σ : Type} [Sink σ]

/-- A prompt is written and flushed if it can be afforded, and else ends the conversation. -/
theorem exists_ask (h : Handle) :
    (∃ h' : Handle, (∀ s : Session σ, (ask : Turn σ Unit) ⟨s, .handle h⟩ =
        .ok (.ok (), ⟨s, .handle h'⟩)) ∧ ∀ n, h.Affords (n + 1) ↔ h'.Affords n) ∨
      (∀ n, ¬ h.Affords (n + 1)) ∧ ∃ (e : PromptError) (h' : Handle),
        (e = .promptNotWritten ∨ e = .notFlushed) ∧
        ∀ s : Session σ, (ask : Turn σ Unit) ⟨s, .handle h⟩ = .ok (.error e, ⟨s, .handle h'⟩) := by
  obtain ⟨taken, room, flushes⟩ := h
  let l : Limits := ⟨room, flushes, none⟩
  have hstart : l.handleAfter taken [] = ⟨taken, room, flushes⟩ := by
    simp [l, Limits.handleAfter, bytesWritten]
  have hdoes : Does (σ := σ) l taken .run [] [.writePrompt, .flush] fun _ => ask := does_ask
  obtain ⟨done, failed, hruns, hask⟩ := hdoes
  rw [hstart] at hask
  have hroom : Operation.writePrompt.Succeeds l [] ↔ ∀ m ∈ room, 2 ≤ m := by
    rw [Operation.Succeeds, Operation.bytes_writePrompt]
    rfl
  cases hruns with
  | failed _ hwrite =>
    refine .inr ⟨?_, _, _, .inl rfl, hask 0⟩
    rintro n ⟨hmost, -⟩
    refine hwrite (hroom.mpr fun m hm => ?_)
    have hfits := hmost m hm
    omega
  | next hwrite hrest =>
    cases hrest with
    | failed _ hflush =>
      refine .inr ⟨?_, _, _, .inr rfl, hask 0⟩
      rintro n ⟨-, hmost⟩
      refine hflush fun m hm => ?_
      have hleft := hmost m hm
      change 0 < m
      omega
    | next hflush hrest =>
      cases hrest
      refine .inl ⟨_, hask 0, fun n => ?_⟩
      have hleft : l.handleLeft taken ([] ++ [.writePrompt, .flush]) none =
          ⟨32 :: 62 :: taken, room.map (· - 2), flushes.map (· - 1)⟩ := by
        have hbytes' : Operation.flush.bytes = [] := rfl
        simp [l, Limits.handleLeft, Limits.handleAfter, bytesWritten,
          Operation.bytes_writePrompt, hbytes']
      rw [hleft]
      exact Handle.affords_succ_iff (hroom.mp hwrite) hflush n

section

variable {mode : Mode} {fails : Bool} {fuel : Nat} {s : Session σ} {h h' : Handle}

theorem eq_error_of_ask_fails {e : PromptError}
    (hask : (ask : Turn σ Unit) ⟨s, .handle h⟩ = .ok (.error e, ⟨s, .handle h'⟩))
    {lines : List (List UInt8)} {r : Except PromptError Unit} {p : Prompt σ}
    (hrun : converseOver fuel mode fails lines ⟨s, .handle h⟩ = .ok (r, p)) : r = .error e := by
  cases lines <;>
    · rw [converseOver, bind_apply, hask] at hrun
      cases hrun
      rfl

theorem converseOver_nil_of_ask
    (hask : (ask : Turn σ Unit) ⟨s, .handle h⟩ = .ok (.ok (), ⟨s, .handle h'⟩)) :
    converseOver fuel mode fails [] ⟨s, .handle h⟩ =
      .ok (if fails then .error .notRead else .ok (), ⟨s, .handle h'⟩) := by
  rw [converseOver, bind_apply, hask]
  cases fails <;> rfl

theorem converseOver_cons_of_ask
    (hask : (ask : Turn σ Unit) ⟨s, .handle h⟩ = .ok (.ok (), ⟨s, .handle h'⟩))
    (line : List UInt8) (lines : List (List UInt8)) :
    converseOver fuel .run fails (line :: lines) ⟨s, .handle h⟩ =
      (s.handleLine fuel .run line).bind fun s' =>
        converseOver fuel .run fails lines ⟨s', .handle h'⟩ := by
  rw [converseOver, bind_apply, hask]
  change (runSource fuel (Utf8.decode line) >>= fun _ => converseOver fuel .run fails lines) _ = _
  rw [bind_apply, runSource, Session.handleLine]
  cases s.run fuel (Utf8.decode line) <;> rfl

end

/-- If the prompts can be afforded then all lines are run, and else one of them cannot be written or
flushed. -/
theorem converseOver_cases (fails : Bool) (lines : List (List UInt8)) (h : Handle) :
    (h.Affords (lines.length + 1) ∧ ∃ h' : Handle, ∀ (fuel : Nat) (s : Session σ),
      converseOver fuel .run fails lines ⟨s, .handle h⟩ =
        (s.handleAll fuel .run lines).map fun s' =>
          (if fails then .error .notRead else .ok (), ⟨s', .handle h'⟩)) ∨
    (¬ h.Affords (lines.length + 1) ∧ ∀ (fuel : Nat) (s : Session σ) r p,
      converseOver fuel .run fails lines ⟨s, .handle h⟩ = .ok (r, p) →
        ∃ e, (e = .promptNotWritten ∨ e = .notFlushed) ∧ r = .error e) := by
  induction lines generalizing h with
  | nil =>
    obtain ⟨h', hask, hiff⟩ | ⟨hnever, e, h', he, hask⟩ := exists_ask (σ := σ) h
    · refine .inl ⟨(hiff 0).mpr h'.affords_zero, h', fun fuel s => ?_⟩
      exact converseOver_nil_of_ask (hask s)
    · exact .inr ⟨hnever 0, fun fuel s r p hrun => ⟨e, he, eq_error_of_ask_fails (hask s) hrun⟩⟩
  | cons line lines ih =>
    obtain ⟨h', hask, hiff⟩ | ⟨hnever, e, h', he, hask⟩ := exists_ask (σ := σ) h
    · obtain ⟨hafford, h'', hrest⟩ | ⟨hafford, hrest⟩ := ih h'
      · refine .inl ⟨(hiff _).mpr hafford, h'', fun fuel s => ?_⟩
        rw [converseOver_cons_of_ask (hask s), Session.handleAll_cons]
        cases s.handleLine fuel .run line with
        | error abort => rfl
        | ok s' => exact hrest fuel s'
      · refine .inr ⟨fun hmore => hafford ((hiff _).mp hmore), fun fuel s r p hrun => ?_⟩
        rw [converseOver_cons_of_ask (hask s)] at hrun
        obtain ⟨s', -, hlater⟩ := exists_of_bind_eq_ok hrun
        exact hrest fuel s' r p hlater
    · exact .inr ⟨hnever _, fun fuel s r p hrun => ⟨e, he, eq_error_of_ask_fails (hask s) hrun⟩⟩

end Prompt

namespace Session

variable {σ : Type} [Sink σ]

/-- A conversation runs all lines that can be read, or fails at a prompt. -/
theorem runLines_cases (i : Input) (h : Handle) :
    (h.Affords (i.lines.length + 1) ∧ ∃ written, ∀ (fuel : Nat) (s : Session σ),
      s.runLines fuel .run i h = (s.handleAll fuel .run i.lines).map fun s' =>
        ((written, if i.fails then some .notRead else none), s')) ∨
    (¬ h.Affords (i.lines.length + 1) ∧ ∀ (fuel : Nat) (s : Session σ) written failure s',
      s.runLines fuel .run i h = .ok ((written, failure), s') →
        failure = some .promptNotWritten ∨ failure = some .notFlushed) := by
  obtain ⟨hafford, h', hall⟩ | ⟨hafford, hnever⟩ :=
    Prompt.converseOver_cases (σ := σ) i.fails i.lines h
  · refine .inl ⟨hafford, h'.bytes, fun fuel s => ?_⟩
    rw [runLines, Prompt.converse, hall]
    cases s.handleAll fuel .run i.lines with
    | error abort => rfl
    | ok s' => cases i.fails <;> rfl
  · refine .inr ⟨hafford, fun fuel s written failure s' hrun => ?_⟩
    rw [runLines] at hrun
    rcases hconverse : Prompt.converse fuel .run i ⟨s, .handle h⟩ with abort | ⟨r, p⟩
    · rw [hconverse] at hrun
      cases hrun
    · obtain ⟨e, he, rfl⟩ := hnever fuel s r p hconverse
      rw [hconverse] at hrun
      cases hrun
      rcases he with rfl | rfl
      · exact .inl rfl
      · exact .inr rfl

end Session

/-! ## Requests and lines left out -/

/-- The request to run a line. -/
def Request.ofLine (line : List UInt8) : Request :=
  .source .run (Utf8.decode line)

theorem Request.idle_ofLine {line : List UInt8} (h : ¬ Accepted (Utf8.decode line)) :
    (ofLine line).Idle :=
  fun _ => h

namespace Session

variable {σ : Type} [Sink σ] [Log σ]

/-- Lines are run as by requests. -/
theorem handleAll_eq_transcript (fuel : Nat) (lines : List (List UInt8)) (s : Session σ) :
    s.handleAll fuel .run lines = (s.transcript fuel Request.ofLine lines).map Prod.snd := by
  induction lines generalizing s with
  | nil => rfl
  | cons line lines ih =>
    rw [handleAll_cons, transcript, handleLine, observe, Request.ofLine, perform]
    rcases s.run fuel (Utf8.decode line) with abort | ⟨output, s'⟩
    · rfl
    · change s'.handleAll fuel .run lines =
        ((s'.transcript fuel Request.ofLine lines).map _).map Prod.snd
      rw [ih]
      cases s'.transcript fuel Request.ofLine lines <;> rfl

theorem exists_transcript_of_handleAll {fuel : Nat} {lines : List (List UInt8)} {s s' : Session σ}
    (h : s.handleAll fuel .run lines = .ok s') :
    ∃ t, s.transcript fuel Request.ofLine lines = .ok (t, s') := by
  rw [handleAll_eq_transcript] at h
  obtain ⟨⟨t, _⟩, htranscript, rfl⟩ := exists_of_map_eq_ok h
  exact ⟨t, htranscript⟩

theorem map_fst_transcript {α : Type} {request : α → Request} {fuel : Nat} {l : List α}
    {t : List (α × Observation)} {s s' : Session σ}
    (h : s.transcript fuel request l = .ok (t, s')) : t.map Prod.fst = l := by
  induction l generalizing t s with
  | nil =>
    cases h
    rfl
  | cons a l ih =>
    obtain ⟨o, s₁, t', -, hrest, rfl⟩ := transcript_cons_eq_ok h
    rw [List.map_cons, ih hrest]

/-- Idle requests can be left out of a session, and rejected lines of the input of a conversation
that can write and flush its prompts: what is observed of the others is the same, and the machine
is left the same. -/
theorem idle_input_leaves_no_trace (fuel : Nat) (s : Session σ) :
    (∀ (requests : List Request) (t kept : List (Request × Observation)) (s₁ : Session σ),
      s.transcript fuel id requests = .ok (t, s₁) → Thinned (fun p => p.1.Idle) t kept →
      ∃ t' s₂, s.transcript fuel id (kept.map Prod.fst) = .ok (t', s₂) ∧
        s₂.machine = s₁.machine ∧
        List.Forall₂ (fun p p' => p'.1 = p.1 ∧ p.2.Agrees p.1 p'.2) kept t') ∧
    ∀ (i : Input) (h : Handle) (written : List UInt8) (failure : Option PromptError)
      (s₁ : Session σ) (kept : List (List UInt8)),
      s.runLines fuel .run i h = .ok ((written, failure), s₁) →
      failure ≠ some .promptNotWritten → failure ≠ some .notFlushed →
      Thinned (fun line => ¬ Accepted (Utf8.decode line)) (Input.splitLines i.bytes) kept →
      ∃ written' s₂ t keptOf t',
        s.runLines fuel .run ⟨kept.flatten, i.fails⟩ h = .ok ((written', failure), s₂) ∧
        s₂.machine = s₁.machine ∧
        s.transcript fuel Request.ofLine i.lines = .ok (t, s₁) ∧
        Thinned (fun p => ¬ Accepted (Utf8.decode p.1)) t keptOf ∧
        s.transcript fuel Request.ofLine (Input.lines ⟨kept.flatten, i.fails⟩) = .ok (t', s₂) ∧
        List.Forall₂ (fun p p' => p'.1 = p.1 ∧ p.2.Agrees (.ofLine p.1) p'.2) keptOf t' := by
  constructor
  · intro requests t kept s₁ hrun hthinned
    exact exists_transcript_of_thinned rfl hrun hthinned
  · intro i h written failure s₁ kept hrun hwritten hflushed hthinned
    obtain ⟨hafford, written', hall⟩ | ⟨-, hnever⟩ := runLines_cases (σ := σ) i h
    · rw [hall] at hrun
      obtain ⟨s', hhandle, hp⟩ := exists_of_map_eq_ok hrun
      cases hp
      obtain ⟨t, htranscript⟩ := exists_transcript_of_handleAll hhandle
      have hlines := Input.thinned_lines hthinned i.fails
      have hfewer := Nat.succ_le_succ hlines.length_le
      rw [← map_fst_transcript htranscript] at hlines
      obtain ⟨keptOf, hkeptOf, hfst⟩ := hlines.exists_of_map
      have hidle := hkeptOf.imp fun p hrejected => Request.idle_ofLine hrejected
      obtain ⟨t', s₂, htranscript', hmachine, hagrees⟩ :=
        exists_transcript_of_thinned rfl htranscript hidle
      rw [hfst] at htranscript'
      obtain ⟨-, written₂, hall₂⟩ | ⟨hunafforded, -⟩ :=
        runLines_cases (σ := σ) ⟨kept.flatten, i.fails⟩ h
      · refine ⟨written₂, s₂, t, keptOf, t', ?_, hmachine, htranscript, hkeptOf, htranscript',
          hagrees⟩
        rw [hall₂, handleAll_eq_transcript, htranscript']
        rfl
      · exact absurd (hafford.mono hfewer) hunafforded
    · rcases hnever fuel s written failure s₁ hrun with rfl | rfl
      · exact absurd rfl hwritten
      · exact absurd rfl hflushed

/-- So it is for a rejected run before another, and for a rejected line before another. -/
theorem rejected_input_leaves_no_trace :
    (∃ (t t' : List (Request × Observation)) (s₁ s₂ : Session Buffered),
      initial.transcript 1 id [.source .run "@", .source .run "print nil;"] = .ok (t, s₁) ∧
      initial.transcript 1 id [.source .run "print nil;"] = .ok (t', s₂) ∧
      s₁.machine.standardOutput = "nil\n" ∧ s₂.machine = s₁.machine) ∧
    ∃ (written : List UInt8) (s₁ s₂ : Session Buffered),
      initial.runLines 1 .run ⟨Utf8.encode "@\nprint nil;\n", false⟩ .unlimited =
        .ok ((Utf8.encode "> > > ", none), s₁) ∧
      initial.runLines 1 .run ⟨Utf8.encode "print nil;\n", false⟩ .unlimited =
        .ok ((written, none), s₂) ∧
      s₁.machine.standardOutput = "nil\n" ∧ s₂.machine = s₁.machine := by
  let s : Session Buffered := ⟨{ Machine.initial with written := ["nil\n"] },
    ⟨["[line 1] Error: Unexpected character."], ⟨false, false⟩⟩⟩
  obtain ⟨hsession, hconversation⟩ := idle_input_leaves_no_trace 1 (initial : Session Buffered)
  constructor
  · have hrejected : Request.Idle (.source .run "@") := fun _ => by decide +kernel
    let o : Observation := ⟨.output "nil\n", "nil\n", [], .clear⟩
    have hrun : initial.transcript 1 id [.source .run "@", .source .run "print nil;"] =
        .ok ([(.source .run "@", ⟨.output "", "", ["[line 1] Error: Unexpected character."],
          ⟨true, false⟩⟩), (.source .run "print nil;", o)], s) := by
      cbv
    obtain ⟨t', s₂, hkept, hmachine, -⟩ := hsession _ _ [(.source .run "print nil;", o)] s hrun
      ((Thinned.nil.keep _).leaveOut hrejected)
    exact ⟨_, t', s, s₂, hrun, hkept, by cbv, hmachine⟩
  · have hrejected : ¬ Accepted (Utf8.decode (Utf8.encode "@\n")) := by decide +kernel
    have hlines : Input.splitLines (Utf8.encode "@\nprint nil;\n") =
        [Utf8.encode "@\n", Utf8.encode "print nil;\n"] := by
      cbv
    have hrun : initial.runLines 1 .run ⟨Utf8.encode "@\nprint nil;\n", false⟩ .unlimited =
        .ok ((Utf8.encode "> > > ", none), s) := by
      cbv
    have hthinned : Thinned (fun line => ¬ Accepted (Utf8.decode line))
        (Input.splitLines (Utf8.encode "@\nprint nil;\n")) [Utf8.encode "print nil;\n"] := by
      rw [hlines]
      exact (Thinned.nil.keep _).leaveOut hrejected
    obtain ⟨written, s₂, -, -, -, hkept, hmachine, -⟩ :=
      hconversation _ _ _ _ s _ hrun (by simp) (by simp) hthinned
    rw [List.flatten_singleton] at hkept
    exact ⟨written, s, s₂, hrun, hkept, by cbv, hmachine⟩

/-- The second prompt of the longer input cannot be flushed, so its second line is not run. -/
theorem thinned_conversation_runs_further :
    Thinned (fun line => Input.IsLine line ∧ ¬ Accepted (Utf8.decode line))
        (Input.splitLines (Utf8.encode "@\nprint nil;\n")) [Utf8.encode "print nil;\n"] ∧
      ∃ s₁ s₂ : Session Buffered,
        initial.runLines 1 .run ⟨Utf8.encode "@\nprint nil;\n", false⟩ ⟨[], none, some 1⟩ =
          .ok ((Utf8.encode "> > ", some .notFlushed), s₁) ∧
        initial.runLines 1 .run ⟨Utf8.encode "print nil;\n", false⟩ ⟨[], none, some 1⟩ =
          .ok ((Utf8.encode "> > ", some .notFlushed), s₂) ∧
        s₁.machine.standardOutput = "" ∧ s₂.machine.standardOutput = "nil\n" := by
  constructor
  · have hrejected : ¬ Accepted (Utf8.decode (Utf8.encode "@\n")) := by decide +kernel
    have hline : Input.IsLine (Utf8.encode "@\n") := ⟨[64], by decide, by cbv⟩
    have hlines : Input.splitLines (Utf8.encode "@\nprint nil;\n") =
        [Utf8.encode "@\n", Utf8.encode "print nil;\n"] := by
      cbv
    rw [hlines]
    exact (Thinned.nil.keep _).leaveOut ⟨hline, hrejected⟩
  · refine ⟨⟨.initial, ⟨["[line 1] Error: Unexpected character."], ⟨true, false⟩⟩⟩,
      ⟨{ Machine.initial with written := ["nil\n"] }, ⟨[], .clear⟩⟩, ?_, ?_, ?_, ?_⟩ <;> cbv

end Session

end Treewalk
