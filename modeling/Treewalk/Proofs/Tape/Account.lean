import Mathlib.Data.List.Perm.Subperm
import Treewalk.Proofs.Tape.Reader

/-!
# What a run accounts for

Each event of a run is charged to one token: a slot to the token that it begins at, an invalid target
to the equals sign. Events lie one behind the other or one within the other, so no token is charged
twice, and this bounds their number by the number of tokens (`Account.length_events_le`).

* `Resumes tokens last i j`: behind an error at index `i`, reading goes on at `j`.
* `Slot.Settled`: what a slot comes to, whether or not it fails.
* `Account tokens last low high events`: the events are charged to tokens between `low` and `high`,
  and the errors that slots are given up over stand further and further behind, but for those at the
  closing token. `Account.append` puts the parts of a run together.
-/

namespace Treewalk.Tape

/-- Reading may go on at the index: behind a semicolon, at the start of a statement, or at the
closing token. -/
def Restarts (tokens : List Token) (last i : Nat) : Prop :=
  (∃ t, tokens[i - 1]? = some t ∧ t.isMark .semicolon = true) ∨
    (∃ t, tokens[i]? = some t ∧ t.startsStatement = true) ∨ i = last

/-- The first index behind the error at `i` where reading may go on; the closing token is not
passed. -/
def Resumes (tokens : List Token) (last i j : Nat) : Prop :=
  (i = last ∧ j = last) ∨
    (i < j ∧ j ≤ last ∧ Restarts tokens last j ∧ ∀ k, i < k → k < j → ¬ Restarts tokens last k)

theorem Resumes.index_le {tokens : List Token} {last i j : Nat} (h : Resumes tokens last i j) :
    (i < j ∨ i = last ∧ j = last) ∧ j ≤ last := by
  obtain ⟨hi, hj⟩ | ⟨hlt, hle, -, -⟩ := h
  · exact ⟨.inr ⟨hi, hj⟩, hj.le⟩
  · exact ⟨.inl hlt, hle⟩

/-- A slot adds one statement to those gathered, or none and gives its error. -/
def Slot.Settled (tokens : List Token) (last : Nat) (s : Slot) : Prop :=
  match s.error with
  | none => ∃ stmt, s.after = s.before ++ [stmt]
  | some e => s.after = s.before ∧ e.fault ≠ .invalidTarget ∧ s.start ≤ e.index ∧
      Resumes tokens last e.index s.stop

namespace Event

/-- The index of the token that the event is charged to. -/
def mark : Event → Nat
  | slot s => s.start
  | invalid e => e.index

/-- The error that a slot was given up over. -/
def fatal? : Event → Option Error
  | slot s => s.error
  | invalid _ => none

theorem filterMap_slot?_error (events : List Event) :
    (events.filterMap slot?).filterMap Slot.error = events.filterMap fatal? := by
  rw [List.filterMap_filterMap]
  congr 1
  funext event
  cases event <;> rfl

def Within (tokens : List Token) (last low high : Nat) : Event → Prop
  | slot s => low ≤ s.start ∧ s.start < s.stop ∧ s.stop ≤ high ∧ s.Settled tokens last
  | invalid e => low ≤ e.index ∧ e.index < high ∧ e.fault = .invalidTarget

theorem Within.mono {tokens : List Token} {last low high low' high' : Nat} {event : Event}
    (h : event.Within tokens last low high) (hlow : low' ≤ low) (hhigh : high ≤ high') :
    event.Within tokens last low' high' := by
  cases event with
  | slot s =>
    obtain ⟨hstart, hlt, hstop, hsettled⟩ := h
    exact ⟨hlow.trans hstart, hlt, hstop.trans hhigh, hsettled⟩
  | invalid e =>
    obtain ⟨hindex, hlt, hfault⟩ := h
    exact ⟨hlow.trans hindex, hlt.trans_le hhigh, hfault⟩

theorem Within.mark_lt {tokens : List Token} {last low high : Nat} {event : Event}
    (h : event.Within tokens last low high) : low ≤ event.mark ∧ event.mark < high := by
  cases event with
  | slot s => exact ⟨h.1, h.2.1.trans_le h.2.2.1⟩
  | invalid e => exact ⟨h.1, h.2.1⟩

/-- An error behind which reading goes on stands between the marks, or at the closing token. -/
theorem Within.index_le {tokens : List Token} {last low high : Nat} {event : Event} {e : Error}
    (h : event.Within tokens last low high) (he : event.fatal? = some e) :
    low ≤ e.index ∧ (e.index < high ∨ e.index = last ∧ last ≤ high) := by
  cases event with
  | invalid e => cases he
  | slot s =>
    obtain ⟨hstart, -, hstop, hsettled⟩ := h
    rw [Slot.Settled, show s.error = some e from he] at hsettled
    obtain ⟨-, -, hindex, hresumes⟩ := hsettled
    refine ⟨hstart.trans hindex, ?_⟩
    obtain hlt | ⟨hlast, hstop'⟩ := hresumes.index_le.1
    · exact .inl (hlt.trans_le hstop)
    · exact .inr ⟨hlast, hstop' ▸ hstop⟩

end Event

/-- The one error stands in front of the other, or both stand at the closing token. -/
def Error.Before (last : Nat) (e e' : Error) : Prop :=
  e.index < e'.index ∨ e.index = last ∧ e'.index = last

structure Account (tokens : List Token) (last low high : Nat) (events : List Event) : Prop where
  within : ∀ event ∈ events, event.Within tokens last low high
  distinct : (events.map Event.mark).Nodup
  ordered : (events.filterMap Event.fatal?).Pairwise (Error.Before last)

namespace Account

variable {tokens : List Token} {last low mid high : Nat} {events later : List Event}

theorem nil : Account tokens last low high [] :=
  ⟨by simp, List.nodup_nil, List.Pairwise.nil⟩

theorem mono {low' high' : Nat} (h : Account tokens last low high events) (hlow : low' ≤ low)
    (hhigh : high ≤ high') : Account tokens last low' high' events :=
  ⟨fun event hevent => (h.within event hevent).mono hlow hhigh, h.distinct, h.ordered⟩

/-- An invalid target is reported behind all that happened to the right of its equals sign. -/
theorem invalid {e : Error} (h : Account tokens last (e.index + 1) high events)
    (hhigh : e.index < high) (hfault : e.fault = .invalidTarget) :
    Account tokens last e.index high (events ++ [.invalid e]) where
  within event hevent := by
    rcases List.mem_append.mp hevent with hevent | hevent
    · exact (h.within event hevent).mono (Nat.le_succ _) (Nat.le_refl _)
    · rw [List.mem_singleton.mp hevent]
      exact ⟨Nat.le_refl _, hhigh, hfault⟩
  distinct := by
    rw [List.map_append, List.nodup_append]
    refine ⟨h.distinct, by simp, ?_⟩
    intro i hi j hj
    obtain ⟨event, hevent, rfl⟩ := List.mem_map.mp hi
    obtain rfl : j = e.index := by simpa [Event.mark] using hj
    have hle := (h.within event hevent).mark_lt.1
    omega
  ordered := by
    have hfatal : [Event.invalid e].filterMap Event.fatal? = [] := rfl
    rw [List.filterMap_append, hfatal, List.append_nil]
    exact h.ordered

/-- One part of a run behind the other. -/
theorem append {low' : Nat} (h : Account tokens last low mid events)
    (h' : Account tokens last low' high later) (hlow : low ≤ low') (hmid : mid ≤ low')
    (hmid' : mid ≤ high) (hhigh : high ≤ last) :
    Account tokens last low high (events ++ later) where
  within event hevent := by
    rcases List.mem_append.mp hevent with hevent | hevent
    · exact (h.within event hevent).mono (Nat.le_refl _) hmid'
    · exact (h'.within event hevent).mono hlow (Nat.le_refl _)
  distinct := by
    rw [List.map_append, List.nodup_append]
    refine ⟨h.distinct, h'.distinct, ?_⟩
    intro i hi j hj
    obtain ⟨event, hevent, rfl⟩ := List.mem_map.mp hi
    obtain ⟨event', hevent', rfl⟩ := List.mem_map.mp hj
    have hlt := (h.within event hevent).mark_lt.2
    have hle := (h'.within event' hevent').mark_lt.1
    omega
  ordered := by
    rw [List.filterMap_append, List.pairwise_append]
    refine ⟨h.ordered, h'.ordered, ?_⟩
    intro e he e' he'
    obtain ⟨event, hevent, heq⟩ := List.mem_filterMap.mp he
    obtain ⟨event', hevent', heq'⟩ := List.mem_filterMap.mp he'
    have hfirst := ((h.within event hevent).index_le heq).2
    have hsecond := ((h'.within event' hevent').index_le heq').1
    -- Behind an error at the closing token there is nothing left for another part.
    have hroom := (h'.within event' hevent').mark_lt
    unfold Error.Before
    omega

/-- A slot is left behind all that happened within it. -/
theorem slot {start stop : Nat} {before after : List Stmt} {error : Option Error}
    (h : Account tokens last (start + 1) mid events) (hmid : mid ≤ stop) (hlt : start < stop)
    (hsettled : Slot.Settled tokens last ⟨start, stop, before, after, error⟩)
    (herror : ∀ e ∈ error, mid ≤ e.index) :
    Account tokens last start stop (events ++ [.slot ⟨start, stop, before, after, error⟩]) where
  within event hevent := by
    rcases List.mem_append.mp hevent with hevent | hevent
    · exact (h.within event hevent).mono (Nat.le_succ _) hmid
    · rw [List.mem_singleton.mp hevent]
      exact ⟨Nat.le_refl _, hlt, Nat.le_refl _, hsettled⟩
  distinct := by
    rw [List.map_append, List.nodup_append]
    refine ⟨h.distinct, by simp, ?_⟩
    intro i hi j hj
    obtain ⟨event, hevent, rfl⟩ := List.mem_map.mp hi
    obtain rfl : j = start := by simpa [Event.mark] using hj
    have hle := (h.within event hevent).mark_lt.1
    omega
  ordered := by
    rw [List.filterMap_append, List.pairwise_append]
    refine ⟨h.ordered, ?_, ?_⟩
    · cases error with
      | none => exact List.Pairwise.nil
      | some e => exact List.pairwise_singleton _ e
    · intro e he e' he'
      obtain ⟨event, hevent, heq⟩ := List.mem_filterMap.mp he
      obtain rfl : error = some e' := by simpa [Event.fatal?] using he'
      have hfirst := ((h.within event hevent).index_le heq).2
      have hle := herror e' rfl
      have hbounds := hsettled.2.2.2.index_le
      unfold Error.Before
      omega

/-- Each error but the invalid targets is that of a slot. -/
theorem filter_errors (h : Account tokens last low high events) :
    (events.filterMap Event.error?).filter (fun e => e.fault ≠ .invalidTarget) =
      events.filterMap Event.fatal? := by
  rw [List.filter_filterMap]
  apply List.filterMap_congr
  intro event hevent
  have hwithin := h.within event hevent
  cases event with
  | invalid e => simp [Event.error?, Event.fatal?, hwithin.2.2]
  | slot s =>
    obtain ⟨-, -, -, hsettled⟩ := hwithin
    cases herror : s.error with
    | none => simp [Event.error?, Event.fatal?, herror]
    | some e =>
      rw [Slot.Settled, herror] at hsettled
      simp [Event.error?, Event.fatal?, herror, hsettled.2.1]

theorem nodup_starts (h : Account tokens last low high events) :
    ((events.filterMap Event.slot?).map Slot.start).Nodup := by
  have hsublist :
      ((events.filterMap Event.slot?).map Slot.start).Sublist (events.map Event.mark) := by
    clear h
    induction events with
    | nil => exact List.Sublist.refl _
    | cons event events ih =>
      cases event with
      | slot s => exact ih.cons_cons s.start
      | invalid e => exact ih.cons e.index
  exact hsublist.nodup h.distinct

theorem length_events_le (h : Account tokens last low high events) : events.length ≤ high := by
  have hsubset : events.map Event.mark ⊆ List.range high := by
    intro i hi
    obtain ⟨event, hevent, rfl⟩ := List.mem_map.mp hi
    exact List.mem_range.mpr (h.within event hevent).mark_lt.2
  have hle := (h.distinct.subperm hsubset).length_le
  simpa using hle

end Account

end Treewalk.Tape
