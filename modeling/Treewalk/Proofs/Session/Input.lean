import Treewalk.Session.Input

/-!
# Lines of an input

`SplitInto` cuts bytes behind each newline, one line after the other, and `splitLines` is the only
way to do so (`splitInto_iff`). With a limit on the bytes that can be read, the lines are as many of
the first ones as lie within the limit and are complete (`exists_lines_limited`).
-/

namespace Treewalk.Input

/-- A line that is complete. -/
def IsLine (line : List UInt8) : Prop :=
  ∃ body, newline ∉ body ∧ line = body ++ [newline]

inductive SplitInto : List UInt8 → List (List UInt8) → Prop
  | nil : SplitInto [] []
  | last {rest : List UInt8} (hne : rest ≠ []) (h : newline ∉ rest) : SplitInto rest [rest]
  | cons {line rest : List UInt8} {ls : List (List UInt8)} (h : IsLine line)
      (hrest : SplitInto rest ls) : SplitInto (line ++ rest) (line :: ls)

section

variable {line rest bytes : List UInt8} {ls : List (List UInt8)}

theorem splitLines_of_not_mem (hne : rest ≠ []) (h : newline ∉ rest) :
    splitLines rest = [rest] := by
  induction rest with
  | nil => exact absurd rfl hne
  | cons b bs ih =>
    obtain ⟨hb, hbs⟩ : newline ≠ b ∧ newline ∉ bs := by simpa using h
    rw [splitLines, if_neg (Ne.symm hb)]
    cases bs with
    | nil => rfl
    | cons c cs => rw [ih (by simp) hbs]

theorem IsLine.splitLines_append (h : IsLine line) (rest : List UInt8) :
    splitLines (line ++ rest) = line :: splitLines rest := by
  obtain ⟨body, hbody, rfl⟩ := h
  induction body with
  | nil =>
    change splitLines (newline :: rest) = _
    rw [splitLines, if_pos rfl]
    rfl
  | cons b bs ih =>
    obtain ⟨hb, hbs⟩ : newline ≠ b ∧ newline ∉ bs := by simpa using hbody
    rw [List.cons_append, List.cons_append, splitLines, if_neg (Ne.symm hb), ih hbs]

theorem IsLine.getLast?_eq (h : IsLine line) : line.getLast? = some newline := by
  obtain ⟨body, -, rfl⟩ := h
  exact List.getLast?_concat

theorem getLast?_ne_of_not_mem (h : newline ∉ rest) : rest.getLast? ≠ some newline :=
  fun hlast => h (List.mem_of_getLast? hlast)

theorem splitInto_splitLines (bytes : List UInt8) : SplitInto bytes (splitLines bytes) := by
  generalize hlength : bytes.length = n
  induction n using Nat.strongRecOn generalizing bytes with
  | ind n ih =>
    by_cases hmem : newline ∈ bytes
    · obtain ⟨body, rest, rfl, hbody⟩ := List.eq_append_cons_of_mem hmem
      have hline : IsLine (body ++ [newline]) := ⟨body, hbody, rfl⟩
      have hshorter : rest.length < n := by
        simp only [List.length_append, List.length_cons] at hlength
        omega
      rw [List.append_cons, hline.splitLines_append]
      exact .cons hline (ih rest.length hshorter rest rfl)
    · by_cases hnil : bytes = []
      · subst hnil
        exact .nil
      · rw [splitLines_of_not_mem hnil hmem]
        exact .last hnil hmem

theorem SplitInto.eq_splitLines (h : SplitInto bytes ls) : ls = splitLines bytes := by
  induction h with
  | nil => rfl
  | last hne h => exact (splitLines_of_not_mem hne h).symm
  | cons h _ ih => rw [h.splitLines_append, ih]

theorem splitInto_iff : SplitInto bytes ls ↔ ls = splitLines bytes :=
  ⟨SplitInto.eq_splitLines, fun h => h ▸ splitInto_splitLines bytes⟩

/-- The lines that can be read in full of bytes without a newline, where reading on fails. -/
theorem lines_eq_nil_of_not_mem (h : newline ∉ rest) : lines ⟨rest, true⟩ = [] := by
  by_cases hnil : rest = []
  · subst hnil
    rfl
  · have hlast := getLast?_ne_of_not_mem h
    simp [Input.lines, splitLines_of_not_mem hnil h, hlast]

theorem IsLine.lines_append (h : IsLine line) (rest : List UInt8) :
    lines ⟨line ++ rest, true⟩ = line :: lines ⟨rest, true⟩ := by
  simp [Input.lines, h.splitLines_append, h.getLast?_eq]

/-- The next line that there is, if any, is incomplete or reaches beyond the limit. -/
theorem exists_lines_limited (h : SplitInto bytes ls) (limit : Nat) :
    ∃ later, ls = (limited limit bytes).lines ++ later ∧
      (∀ line ∈ (limited limit bytes).lines, IsLine line) ∧
      (limited limit bytes).lines.flatten.length ≤ limit ∧
      ∀ line ∈ later.head?, line.getLast? = some newline →
        limit < (limited limit bytes).lines.flatten.length + line.length := by
  induction h generalizing limit with
  | nil =>
    have hlines : (limited limit []).lines = [] := lines_eq_nil_of_not_mem (by simp)
    rw [hlines]
    exact ⟨[], rfl, by simp, Nat.zero_le _, by simp⟩
  | @last rest hne hmem =>
    have hlines : (limited limit rest).lines = [] :=
      lines_eq_nil_of_not_mem fun htake => hmem (List.mem_of_mem_take htake)
    rw [hlines]
    refine ⟨[rest], rfl, by simp, Nat.zero_le _, ?_⟩
    intro line hline hlast
    cases hline
    exact absurd hlast (getLast?_ne_of_not_mem hmem)
  | @cons line rest ls hline _ ih =>
    by_cases hfits : line.length ≤ limit
    · obtain ⟨later, hls, hcomplete, hlength, hnext⟩ := ih (limit - line.length)
      have htake : (line ++ rest).take limit = line ++ rest.take (limit - line.length) := by
        rw [List.take_append, List.take_of_length_le hfits]
      have hread : (limited limit (line ++ rest)).lines =
          line :: (limited (limit - line.length) rest).lines := by
        rw [limited, htake, hline.lines_append]
        rfl
      rw [hread]
      refine ⟨later, by rw [List.cons_append, ← hls], ?_, ?_, ?_⟩
      · exact List.forall_mem_cons.mpr ⟨hline, hcomplete⟩
      · rw [List.flatten_cons, List.length_append]
        omega
      · intro next hhead hlast
        have hbeyond := hnext next hhead hlast
        rw [List.flatten_cons, List.length_append]
        omega
    · have hmem : newline ∉ (line ++ rest).take limit := by
        obtain ⟨body, hbody, rfl⟩ := hline
        have hshort : limit ≤ body.length := by
          rw [List.length_append, List.length_singleton] at hfits
          omega
        rw [List.append_assoc, List.take_append_of_le_length hshort]
        exact fun htake => hbody (List.mem_of_mem_take htake)
      have hlines : (limited limit (line ++ rest)).lines = [] := lines_eq_nil_of_not_mem hmem
      rw [hlines]
      refine ⟨line :: ls, rfl, by simp, Nat.zero_le _, ?_⟩
      intro next hhead _
      cases hhead
      simp only [List.flatten_nil, List.length_nil]
      omega

end

end Treewalk.Input
