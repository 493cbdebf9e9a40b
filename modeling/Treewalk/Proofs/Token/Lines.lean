import Mathlib
import Treewalk.Proofs.Token.LongestMatch

/-!
# Lines

Line numbers are carried along from piece to piece in a word of 32 bits. Where the newlines of a
text can all be counted in such a word, the line reached behind a piece is one more than the count
of newlines in the whole text up to there (`toNat_lineAfter`), whatever pieces these newlines are
in.

`Numbered` says this of all the tokens and diagnostics of a list of pieces, and `ReadAs.numbered`
that they have such lines. The main statement is `scan_counts_newlines`: with the longest pieces of
a text, its scan is numbered.
-/

namespace Treewalk

/-- The line on which a text ends. -/
def lineBehind (text : List Char) : Nat :=
  1 + text.count '\n'

/-- The tokens and diagnostics of pieces that stand behind the text `before`. A token is on the line
on which its text ends, as is the diagnostic of an unterminated string; a stray character is on the
line on which the text before it ends. -/
inductive Numbered : List Char → List Piece → List Token → List Diagnostic → Prop
  | stop {before : List Char} {line : UInt32} (hline : line.toNat = lineBehind before) :
      Numbered before [] [⟨.eof, "", line⟩] []
  | token {before : List Char} {p : Piece} {kind : TokenKind} {line : UInt32} {ps : List Piece}
      {ts : List Token} {ds : List Diagnostic} (h : Denotes p kind)
      (hline : line.toNat = lineBehind (before ++ p.text))
      (hrest : Numbered (before ++ p.text) ps ts ds) :
      Numbered before (p :: ps) (⟨kind, String.ofList p.text, line⟩ :: ts) ds
  | stray {before : List Char} {c : Char} {line : UInt32} {ps : List Piece} {ts : List Token}
      {ds : List Diagnostic} (hline : line.toNat = lineBehind before)
      (hrest : Numbered (before ++ [c]) ps ts ds) :
      Numbered before (.stray c :: ps) ts (.source line "" "Unexpected character." :: ds)
  | unterminated {before body : List Char} {line : UInt32} {ps : List Piece} {ts : List Token}
      {ds : List Diagnostic}
      (hline : line.toNat = lineBehind (before ++ (Piece.unterminated body).text))
      (hrest : Numbered (before ++ (Piece.unterminated body).text) ps ts ds) :
      Numbered before (.unterminated body :: ps) ts
        (.source line "" "Unterminated string." :: ds)
  | blank {before : List Char} {c : Char} {ps : List Piece} {ts : List Token}
      {ds : List Diagnostic} (hrest : Numbered (before ++ [c]) ps ts ds) :
      Numbered before (.blank c :: ps) ts ds
  | comment {before body : List Char} {ps : List Piece} {ts : List Token} {ds : List Diagnostic}
      (hrest : Numbered (before ++ (Piece.comment body).text) ps ts ds) :
      Numbered before (.comment body :: ps) ts ds

section

variable {before : List Char} {ps : List Piece} {ts : List Token} {ds : List Diagnostic}
  {line : UInt32}

/-! ## Lines are counted without wrapping around -/

theorem toNat_lineAfter {text : List Char} (hline : line.toNat = lineBehind before)
    (hlines : (before ++ text).count '\n' < UInt32.size - 1) :
    (lineAfter line text).toNat = lineBehind (before ++ text) := by
  simp only [lineAfter, lineBehind, List.count_append, UInt32.toNat_add, UInt32.toNat_ofNat',
    UInt32.size] at *
  omega

/-- The line behind the first of some pieces, and the bound for the others. -/
theorem toNat_lineAfter_cons {p : Piece} (hline : line.toNat = lineBehind before)
    (hlines : (before ++ (p :: ps).flatMap Piece.text).count '\n' < UInt32.size - 1) :
    (lineAfter line p.text).toNat = lineBehind (before ++ p.text) ∧
      (before ++ p.text ++ ps.flatMap Piece.text).count '\n' < UInt32.size - 1 := by
  rw [List.flatMap_cons, ← List.append_assoc] at hlines
  refine ⟨toNat_lineAfter hline ?_, hlines⟩
  rw [List.count_append] at hlines
  exact Nat.lt_of_le_of_lt (Nat.le_add_right _ _) hlines

theorem ReadAs.numbered (h : ReadAs line ps ts ds) (hline : line.toNat = lineBehind before)
    (hlines : (before ++ ps.flatMap Piece.text).count '\n' < UInt32.size - 1)
    (hstray : ∀ c, .stray c ∈ ps → c ≠ '\n') : Numbered before ps ts ds := by
  induction h generalizing before with
  | nil line => exact .stop hline
  | token hkind _ ih =>
    obtain ⟨hnext, hrest⟩ := toNat_lineAfter_cons hline hlines
    exact .token hkind hnext (ih hnext hrest fun c hc => hstray c (List.mem_cons_of_mem _ hc))
  | fault hfault _ ih =>
    obtain ⟨hnext, hrest⟩ := toNat_lineAfter_cons hline hlines
    have hothers := ih hnext hrest fun c hc => hstray c (List.mem_cons_of_mem _ hc)
    cases hfault with
    | stray c =>
      -- The character is no newline, so the text ends on the same line before and behind it.
      have hne : c ≠ '\n' := hstray c List.mem_cons_self
      refine .stray ?_ hothers
      rw [hnext]
      simp [lineBehind, Piece.text, hne]
    | unterminated body => exact .unterminated hnext hothers
  | blank _ ih =>
    obtain ⟨hnext, hrest⟩ := toNat_lineAfter_cons hline hlines
    exact .blank (ih hnext hrest fun c hc => hstray c (List.mem_cons_of_mem _ hc))
  | comment _ ih =>
    obtain ⟨hnext, hrest⟩ := toNat_lineAfter_cons hline hlines
    exact .comment (ih hnext hrest fun c hc => hstray c (List.mem_cons_of_mem _ hc))

/-! ## What the numbers of a whole text say -/

/-- A token stands somewhere in the text, and is on the line on which the text up to its end
ends. -/
theorem Numbered.exists_place (h : Numbered before ps ts ds) {t : Token} (ht : t ∈ ts) :
    ∃ start rest, before ++ ps.flatMap Piece.text = start ++ t.lexeme.toList ++ rest ∧
      t.line.toNat = lineBehind (start ++ t.lexeme.toList) := by
  induction h with
  | @stop before line hline =>
    rw [List.mem_singleton.mp ht]
    exact ⟨before, [], by simp, by simpa using hline⟩
  | @token before p kind line ps ts ds hkind hline _ ih =>
    rcases List.mem_cons.mp ht with rfl | ht
    · exact ⟨before, ps.flatMap Piece.text, by simp, by simpa using hline⟩
    · simpa using ih ht
  | stray _ _ ih | unterminated _ _ ih | blank _ ih | comment _ ih =>
    simpa [Piece.text] using ih ht

/-- The closing token is on the line on which the whole text ends. -/
theorem Numbered.exists_stop (h : Numbered before ps ts ds) :
    ∃ inner line, ts = inner ++ [Token.eof line] ∧
      line.toNat = lineBehind (before ++ ps.flatMap Piece.text) := by
  induction h with
  | @stop before line hline => exact ⟨[], line, rfl, by simpa using hline⟩
  | token _ _ _ ih =>
    obtain ⟨inner, stop, rfl, hstop⟩ := ih
    exact ⟨_ :: inner, stop, rfl, by simpa using hstop⟩
  | stray _ _ ih | unterminated _ _ ih | blank _ ih | comment _ ih =>
    simpa [Piece.text] using ih

/-- Where nothing follows a string that is never closed, it is reported on the line on which the
whole text ends. -/
theorem Numbered.toNat_unterminated (h : Numbered before ps ts ds)
    (hlast : ∀ first body rest, ps = first ++ .unterminated body :: rest →
      rest.flatMap Piece.text = [])
    (hline : .source line "" "Unterminated string." ∈ ds) :
    line.toNat = lineBehind (before ++ ps.flatMap Piece.text) := by
  have htail : ∀ {p : Piece} {ps : List Piece}, (∀ first body rest,
      p :: ps = first ++ .unterminated body :: rest → rest.flatMap Piece.text = []) →
      ∀ first body rest, ps = first ++ .unterminated body :: rest →
        rest.flatMap Piece.text = [] :=
    fun {p _} h first body rest heq => h (p :: first) body rest (by rw [heq, List.cons_append])
  induction h with
  | stop => cases hline
  | stray _ _ ih =>
    simpa [Piece.text] using ih (htail hlast) (by simpa using hline)
  | @unterminated before body _ ps _ _ hopen _ ih =>
    rcases List.mem_cons.mp hline with heq | hline
    · cases heq
      have hrest : ps.flatMap Piece.text = [] := hlast [] body ps rfl
      simpa [hrest] using hopen
    · simpa using ih (htail hlast) hline
  | token _ _ _ ih | blank _ ih | comment _ ih =>
    simpa [Piece.text] using ih (htail hlast) hline

end

theorem readAs_scan (source : String) :
    ReadAs 1 (pieces source.toList) (scan source).tokens
      ((scan source).errors.map Diagnostic.ofLexicalError) :=
  readAs_from 1 (pieces source.toList)

/-- Where the newlines of a source can be counted, the longest pieces that it is cut into number its
tokens and diagnostics by the newlines before them. So a token is on the line on which its text
ends, the closing token on the last line, and an unterminated string is reported there too. -/
theorem scan_counts_newlines {source : String}
    (hlines : source.toList.count '\n' < UInt32.size - 1) :
    (∃ ps, CutInto source.toList ps ∧
      Numbered [] ps (scan source).tokens
        ((scan source).errors.map Diagnostic.ofLexicalError)) ∧
      (∀ t ∈ (scan source).tokens, ∃ start rest,
        source.toList = start ++ t.lexeme.toList ++ rest ∧
          t.line.toNat = lineBehind (start ++ t.lexeme.toList)) ∧
      ∃ inner stop, (scan source).tokens = inner ++ [Token.eof stop] ∧
        stop.toNat = lineBehind source.toList ∧
        ∀ e ∈ (scan source).errors, e.fault = .unterminatedString → e.line = stop := by
  have hcut := cutInto_pieces source.toList
  have hstray : ∀ c, .stray c ∈ pieces source.toList → c ≠ '\n' := by
    rintro _ hmem rfl
    obtain ⟨first, rest, hsplit⟩ := List.append_of_mem hmem
    exact absurd (hcut.wellFormed_of_split hsplit).1.1 (by decide)
  have hnumbered : Numbered [] (pieces source.toList) (scan source).tokens
      ((scan source).errors.map Diagnostic.ofLexicalError) :=
    (readAs_scan source).numbered rfl (by rwa [List.nil_append, flatMap_text_pieces]) hstray
  obtain ⟨inner, stop, htokens, hstop⟩ := hnumbered.exists_stop
  rw [List.nil_append, flatMap_text_pieces] at hstop
  refine ⟨⟨_, hcut, hnumbered⟩, ?_, inner, stop, htokens, hstop, ?_⟩
  · intro t ht
    simpa [flatMap_text_pieces] using hnumbered.exists_place ht
  · rintro ⟨_, line⟩ he rfl
    have hline := hnumbered.toNat_unterminated
      (fun first body rest hsplit => (hcut.wellFormed_of_split hsplit).2)
      (List.mem_map.mpr ⟨_, he, rfl⟩)
    rw [List.nil_append, flatMap_text_pieces, ← hstop] at hline
    exact UInt32.toNat_inj.mp hline

/-- The newlines in a string, behind a comment and in a string that is never closed all count. -/
theorem open_string_reported_on_line_five :
    ∃ stop, (scan "\"a\nb\"@\n//\n\"c\n").tokens.getLast? = some (Token.eof stop) ∧
      stop.toNat = 5 ∧
      (scan "\"a\nb\"@\n//\n\"c\n").errors =
        [⟨.unexpectedCharacter, 2⟩, ⟨.unterminatedString, stop⟩] := by
  have hlines : "\"a\nb\"@\n//\n\"c\n".toList.count '\n' < UInt32.size - 1 := by decide
  have herrors : (scan "\"a\nb\"@\n//\n\"c\n").errors =
      [⟨.unexpectedCharacter, 2⟩, ⟨.unterminatedString, 5⟩] := by
    decide +kernel
  obtain ⟨-, -, inner, stop, htokens, hstop, hopen⟩ := scan_counts_newlines hlines
  have hfive : (5 : UInt32) = stop := hopen ⟨.unterminatedString, 5⟩ (by simp [herrors]) rfl
  refine ⟨stop, by simp [htokens], ?_, hfive ▸ herrors⟩
  rw [hstop]
  decide

end Treewalk
