import Treewalk.Proofs.Session.Conversation
import Treewalk.Proofs.Text.Utf8

/-!
# Texts of a conversation

A conversation decodes each line on its own, and a script is decoded as a whole. This comes to the
same: a line ends behind a newline, a newline is a character of its own, and decoding starts afresh
behind it, whatever was pending (`Utf8.decode_append`).

`converse_handles_texts` says which texts are handled, how often the prompt is written, and how the
texts make up the script of the same bytes.
-/

namespace Treewalk

namespace Input

/-- The texts of the lines that bytes are cut into. -/
def texts (bytes : List UInt8) : List String :=
  (splitLines bytes).map Utf8.decode

variable {bytes rest line : List UInt8}

theorem newline_lt : newline.toNat < 0x80 := by decide

/-- A text that ends with its only newline. -/
def IsLineText (text : String) : Prop :=
  ∃ body : String, '\n' ∉ body.toList ∧ text = body ++ "\n"

theorem not_mem_decode (h : newline ∉ bytes) : '\n' ∉ (Utf8.decode bytes).toList := by
  intro hmem
  rw [Utf8.decode, String.toList_ofList] at hmem
  exact h ((Utf8.lossy_decodeFrom bytes).mem_of_mem newline_lt hmem)

theorem decode_newline (bytes : List UInt8) :
    Utf8.decode (bytes ++ [newline]) = Utf8.decode bytes ++ "\n" := by
  have hchars := (Utf8.lossy_decodeFrom bytes).append_byte newline_lt .nil
  rw [Utf8.decode, ← hchars.eq_decodeFrom, String.ofList_append]
  rfl

theorem IsLine.isLineText (h : IsLine line) : IsLineText (Utf8.decode line) := by
  obtain ⟨body, hbody, rfl⟩ := h
  exact ⟨Utf8.decode body, not_mem_decode hbody, decode_newline body⟩

theorem IsLine.decode_append (h : IsLine line) (rest : List UInt8) :
    Utf8.decode (line ++ rest) = Utf8.decode line ++ Utf8.decode rest := by
  obtain ⟨body, -, rfl⟩ := h
  rw [← List.append_cons, Utf8.decode_append newline_lt]

theorem decode_ne_empty (h : bytes ≠ []) : Utf8.decode bytes ≠ "" := by
  intro hempty
  have hchars := congrArg String.toList hempty
  rw [Utf8.decode, String.toList_ofList] at hchars
  exact (Utf8.lossy_decodeFrom bytes).ne_nil h hchars

theorem SplitInto.join_decode {ls : List (List UInt8)} (h : SplitInto bytes ls) :
    String.join (ls.map Utf8.decode) = Utf8.decode bytes := by
  induction h with
  | nil => rfl
  | last => simp [String.join]
  | cons hline _ ih =>
    rw [List.map_cons, String.join_cons, ih, hline.decode_append]

/-- Only the last line may lack a newline, and it is not empty then. -/
theorem SplitInto.line_cases {ls earlier later : List (List UInt8)} (h : SplitInto bytes ls)
    (hsplit : ls = earlier ++ line :: later) :
    IsLine line ∨ (later = [] ∧ line ≠ [] ∧ newline ∉ line) := by
  induction h generalizing earlier with
  | nil => simp at hsplit
  | @last rest hne hmem =>
    cases earlier with
    | nil =>
      obtain ⟨rfl, rfl⟩ := List.cons.inj hsplit
      exact .inr ⟨rfl, hne, hmem⟩
    | cons e earlier => simp at hsplit
  | cons hline _ ih =>
    cases earlier with
    | nil =>
      obtain ⟨rfl, rfl⟩ := List.cons.inj hsplit
      exact .inl hline
    | cons e earlier => exact ih (List.cons.inj hsplit).2

theorem join_texts (bytes : List UInt8) : String.join (texts bytes) = Utf8.decode bytes :=
  (splitInto_splitLines bytes).join_decode

-- A character that a newline cuts off is replaced in the line and in the script.
example : texts [0xE4, 0xB8, 10, 0x61] = ["\uFFFD\n", "a"] ∧
    Utf8.decode [0xE4, 0xB8, 10, 0x61] = "\uFFFD\na" := by decide

theorem texts_cases {text : String} {earlier later : List String}
    (h : texts bytes = earlier ++ text :: later) :
    IsLineText text ∨ (later = [] ∧ text ≠ "" ∧ '\n' ∉ text.toList) := by
  obtain ⟨before, behind, hsplit, -, hbehind⟩ := List.map_eq_append_iff.mp h
  obtain ⟨line, after, rfl, rfl, rfl⟩ := List.map_eq_cons_iff.mp hbehind
  rcases (splitInto_splitLines bytes).line_cases hsplit with hline | ⟨rfl, hne, hmem⟩
  · exact .inl hline.isLineText
  · exact .inr ⟨rfl, decode_ne_empty hne, not_mem_decode hmem⟩

end Input

variable {σ : Type} [Sink σ]

theorem Prompt.converseOver_eq (fuel : Nat) (mode : Mode) (lines : List (List UInt8)) :
    Prompt.converseOver fuel mode false lines = (do
      (lines.map Utf8.decode).forM fun text => do
        Prompt.ask
        Prompt.handle fuel mode text
      Prompt.ask : Turn σ Unit) := by
  induction lines with
  | nil => simp [Prompt.converseOver]
  | cons line lines ih => simp [Prompt.converseOver, ih]

theorem count_writePrompt (mode : Mode) (bytes : List UInt8) :
    (operations mode bytes).count .writePrompt = (Input.texts bytes).length + 1 := by
  have hline (line : List UInt8) : (lineOperations mode line).count .writePrompt = 1 := by
    cases mode <;> simp [lineOperations, Mode.shown]
  rw [operations, List.count_append, List.count_flatMap, Input.texts, List.length_map]
  simp [Function.comp_def, hline, List.map_const']

/-- A conversation over bytes asks for each of their texts and handles it, and asks once more. The
texts make up the script of the same bytes. Each ends with its only newline, but for the last one,
which may have none and is not empty then. What is UTF-8 is decoded to the text it encodes, and the
rest is replaced part by part, as `Utf8.Lossy` says. -/
theorem converse_handles_texts (mode : Mode) (bytes : List UInt8) :
    (∀ fuel, Prompt.converse fuel mode ⟨bytes, false⟩ = (do
        (Input.texts bytes).forM fun text => do
          Prompt.ask
          Prompt.handle fuel mode text
        Prompt.ask : Turn σ Unit)) ∧
      (∀ (fuel : Nat) (s : Session σ), s.runLines fuel mode ⟨bytes, false⟩ .unlimited =
        (s.handleAll fuel mode (Input.splitLines bytes)).map fun s' =>
          ((bytesWritten (operations mode bytes), none), s')) ∧
      (operations mode bytes).count .writePrompt = (Input.texts bytes).length + 1 ∧
      (∀ (files : FileSystem) (path : String), files.readBytes path = .ok bytes →
        files.readScript path = .ok (String.join (Input.texts bytes))) ∧
      (∀ earlier text later, Input.texts bytes = earlier ++ text :: later →
        Input.IsLineText text ∨ (later = [] ∧ text ≠ "" ∧ '\n' ∉ text.toList)) ∧
      (∀ text, Utf8.encode text = bytes → String.join (Input.texts bytes) = text) ∧
      ∀ chars, String.join (Input.texts bytes) = String.ofList chars ↔ Utf8.Lossy bytes chars := by
  refine ⟨fun fuel => Prompt.converseOver_eq fuel mode _, runLines_unlimited mode bytes,
    count_writePrompt mode bytes, ?_, fun _ _ _ => Input.texts_cases, ?_, ?_⟩
  · intro files path hread
    rw [FileSystem.readScript, hread, Input.join_texts]
  · rintro text rfl
    rw [Input.join_texts, Utf8.decode_encode]
  · intro chars
    rw [Input.join_texts, Utf8.decode, String.ofList_inj, Utf8.lossy_iff]
    exact eq_comm

end Treewalk
