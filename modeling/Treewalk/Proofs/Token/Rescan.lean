import Mathlib
import Treewalk.Proofs.Parser.Renamed
import Treewalk.Proofs.Token.LongestMatch

/-!
# Lexemes by themselves

The lexeme of a token is a piece again, wherever it is put, as long as a blank or nothing follows:
no string, number, word or mark goes on with a blank (`endsBefore_of_blank`). So a text that has
nothing but the lexemes of a scan, with blanks between them, is cut into these pieces and blanks
(`Spaced.spells`), whatever was between them in the text that they come from.

`scan_spaced` is the main statement: such a text is scanned without an error to the same tokens, up
to their lines, and parsed to the same statements.
-/

namespace Treewalk

/-- A text of the lexemes of tokens in their order, with one blank or more between any two. -/
inductive Spaced : List Token → List Char → Prop
  | nil : Spaced [] []
  | one (t : Token) : Spaced [t] t.lexeme.toList
  | cons (t : Token) {u : Token} {ts : List Token} (gap : List Char) {text : List Char}
      (hne : gap ≠ []) (hblank : ∀ c ∈ gap, c = ' ' ∨ c = '\t' ∨ c = '\r' ∨ c = '\n')
      (h : Spaced (u :: ts) text) : Spaced (t :: u :: ts) (t.lexeme.toList ++ (gap ++ text))

/-! ## Pieces before blanks -/

section

variable {p : Piece} {rest : List Char}

/-- A piece that becomes a token is not gone on with by a blank. -/
theorem endsBefore_of_blank {kind : TokenKind} (hkind : p.kind? = some kind)
    (hrest : ∀ c ∈ rest.head?, isBlank c = true) : p.EndsBefore rest := by
  cases rest with
  | nil => exact p.endsBefore_nil
  | cons c rest =>
    have hc : isBlank c = true := hrest c rfl
    cases p with
    | string body => trivial
    | number whole fraction =>
      have hdigit : c.isDigit = false :=
        Bool.eq_false_iff.mpr fun h => by simp [isBlank_eq_false_of_isDigit h] at hc
      cases fraction with
      | nil =>
        refine ⟨by simpa using hdigit, ?_⟩
        rintro d more heq
        cases heq
        exact absurd hc (by decide)
      | cons => simpa [Piece.EndsBefore] using hdigit
    | word letters =>
      have hword : isWordChar c = false := by
        refine Bool.eq_false_iff.mpr fun h => ?_
        rcases Bool.or_eq_true_iff.mp h with h | h
        · simp [isBlank_eq_false_of_isLetter h] at hc
        · simp [isBlank_eq_false_of_isDigit h] at hc
      simpa [Piece.EndsBefore] using hword
    | mark m =>
      have hne : c ≠ '=' ∧ c ≠ '/' := by
        constructor <;> rintro rfl <;> exact absurd hc (by decide)
      exact ⟨fun _ => by simpa using hne.1, fun _ => by simpa using hne.2⟩
    | _ => cases hkind

theorem pieces_of_endsBefore (hp : p.WellFormed) (hrest : p.EndsBefore rest) :
    pieces (p.text ++ rest) = p :: pieces rest := by
  obtain ⟨c, cs, hcs⟩ := List.exists_cons_of_ne_nil hp.text_ne_nil
  have heq : c :: (cs ++ rest) = p.text ++ rest := by rw [hcs, List.cons_append]
  rw [← heq, pieces_cons, cut_of_endsBefore hp hrest heq]

theorem pieces_of_blanks {gap : List Char} (h : ∀ c ∈ gap, isBlank c = true) :
    pieces (gap ++ rest) = gap.map Piece.blank ++ pieces rest := by
  induction gap with
  | nil => rfl
  | cons c gap ih =>
    obtain ⟨hc, hgap⟩ := List.forall_mem_cons.mp h
    rw [List.cons_append, pieces_cons, cut_of_isBlank hc, ih hgap, List.map_cons, List.cons_append]

end

/-! ## Tokens without their lines -/

/-- The token is made of a piece as it can stand by itself. -/
def Token.IsWhole (t : Token) : Prop :=
  ∃ p : Piece, p.WellFormed ∧ p.kind? = some t.kind ∧ t.lexeme = String.ofList p.text

/-- The tokens of pieces, all on line 0. -/
def tokensOf (ps : List Piece) : List Token :=
  ps.filterMap fun p => p.token? 0

theorem Piece.unplaced_token? (p : Piece) (line : UInt32) :
    (p.token? line).map Token.unplaced = p.token? 0 := by
  unfold Piece.token?
  cases p.kind? <;> rfl

theorem map_fst_withLines (line : UInt32) (ps : List Piece) :
    (withLines line ps).map Prod.fst = ps := by
  induction ps generalizing line with
  | nil => rfl
  | cons p ps ih => rw [withLines, List.map_cons, ih]

theorem unplaced_innerTokens (source : String) :
    (innerTokens source).map Token.unplaced = tokensOf (pieces source.toList) := by
  conv_rhs => rw [← map_fst_withLines 1 (pieces source.toList), tokensOf, List.filterMap_map]
  rw [innerTokens, List.map_filterMap]
  congr 1
  funext ⟨p, line⟩
  exact p.unplaced_token? line

theorem unplaced_tokens_scan (source : String) :
    (scan source).tokens.map Token.unplaced = tokensOf (pieces source.toList) ++ [Token.eof 0] := by
  rw [tokens_scan, List.map_append, unplaced_innerTokens]
  rfl

theorem filter_tokens_scan (source : String) :
    (scan source).tokens.filter (!·.isEof) = innerTokens source := by
  have hinner : ∀ t ∈ innerTokens source, (!t.isEof) = true := by
    intro t ht
    rw [← takeWhile_tokens_scan] at ht
    have hne := List.mem_takeWhile_imp ht
    exact hne
  rw [tokens_scan, List.filter_append, List.filter_eq_self.mpr hinner]
  exact List.append_nil _

theorem mem_of_mem_withLines {line : UInt32} {ps : List Piece} {placed : Piece × UInt32}
    (h : placed ∈ withLines line ps) : placed.1 ∈ ps := by
  rw [← map_fst_withLines line ps]
  exact List.mem_map_of_mem h

theorem isWhole_of_mem {source : String} {t : Token} (h : t ∈ innerTokens source) : t.IsWhole := by
  obtain ⟨⟨p, line⟩, hplaced, htoken⟩ := List.mem_filterMap.mp h
  obtain ⟨kind, hkind, rfl⟩ := Option.map_eq_some_iff.mp htoken
  obtain ⟨first, rest, hsplit⟩ := List.append_of_mem (mem_of_mem_withLines hplaced)
  exact ⟨p, ((cutInto_pieces source.toList).wellFormed_of_split hsplit).1, hkind, rfl⟩

/-! ## Texts of lexemes -/

/-- The text is cut without an error into pieces that become the given tokens. -/
def Spells (text : List Char) (ts : List Token) : Prop :=
  tokensOf (pieces text) = ts ∧ ∀ p ∈ pieces text, p.fault? = none

theorem spells_nil : Spells [] [] := by
  simp [Spells, pieces, tokensOf]

theorem Token.IsWhole.spells {t : Token} (ht : t.IsWhole) {rest : List Char} {ts : List Token}
    (hrest : ∀ c ∈ rest.head?, isBlank c = true) (h : Spells rest ts) :
    Spells (t.lexeme.toList ++ rest) (t.unplaced :: ts) := by
  obtain ⟨p, hp, hkind, hlexeme⟩ := ht
  have htoken : p.token? 0 = some t.unplaced := by
    simp [Piece.token?, hkind, ← hlexeme, Token.unplaced]
  have hfault : p.fault? = none := by
    cases p with
    | unterminated | stray => cases hkind
    | _ => rfl
  rw [hlexeme, String.toList_ofList, Spells,
    pieces_of_endsBefore hp (endsBefore_of_blank hkind hrest)]
  refine ⟨?_, List.forall_mem_cons.mpr ⟨hfault, h.2⟩⟩
  rw [tokensOf, List.filterMap_cons, htoken]
  exact congrArg (t.unplaced :: ·) h.1

theorem Spells.behind_blanks {gap rest : List Char} {ts : List Token} (h : Spells rest ts)
    (hgap : ∀ c ∈ gap, isBlank c = true) : Spells (gap ++ rest) ts := by
  have htokens : tokensOf (gap.map Piece.blank) = [] := by
    simp [tokensOf, List.filterMap_map, Piece.token?, Piece.kind?]
  rw [Spells, pieces_of_blanks hgap, tokensOf, List.filterMap_append]
  refine ⟨?_, ?_⟩
  · rw [← tokensOf, htokens, List.nil_append]
    exact h.1
  · intro p hp
    rcases List.mem_append.mp hp with hp | hp
    · obtain ⟨c, -, rfl⟩ := List.mem_map.mp hp
      rfl
    · exact h.2 p hp

theorem Spaced.spells {ts : List Token} {text : List Char} (h : Spaced ts text)
    (hts : ∀ t ∈ ts, t.IsWhole) : Spells text (ts.map Token.unplaced) := by
  induction h with
  | nil => exact spells_nil
  | one t =>
    have hwhole := hts t (List.mem_singleton_self t)
    have hblank : ∀ c ∈ ([] : List Char).head?, isBlank c = true := by simp
    simpa using hwhole.spells hblank spells_nil
  | cons t gap hne hblank _ ih =>
    obtain ⟨ht, hrest⟩ := List.forall_mem_cons.mp hts
    have hgap : ∀ c ∈ gap, isBlank c = true := fun c hc => isBlank_iff.mpr (hblank c hc)
    refine ht.spells ?_ ((ih hrest).behind_blanks hgap)
    obtain ⟨c, gap, rfl⟩ := List.exists_cons_of_ne_nil hne
    simpa using hgap c List.mem_cons_self

theorem errors_of_no_fault {source : String} (h : ∀ p ∈ pieces source.toList, p.fault? = none) :
    (scan source).errors = [] := by
  refine List.filterMap_eq_nil_iff.mpr ?_
  rintro ⟨p, line⟩ hplaced
  simp [Piece.error?, h p (mem_of_mem_withLines hplaced)]

/-- The lexemes of a source with blanks between them are scanned without an error to the same
tokens, up to the lines, and these are parsed to the same statements. -/
theorem scan_spaced {source spaced : String}
    (h : Spaced ((scan source).tokens.filter (!·.isEof)) spaced.toList) :
    (scan spaced).errors = [] ∧
      (scan spaced).tokens.map Token.unplaced = (scan source).tokens.map Token.unplaced ∧
      (Program.ofTokens (scan spaced).tokens).statements.map (Stmt.map Token.unplaced) =
        (Program.ofTokens (scan source).tokens).statements.map (Stmt.map Token.unplaced) := by
  rw [filter_tokens_scan] at h
  obtain ⟨htokens, hfault⟩ := h.spells fun t => isWhole_of_mem
  have hsame : (scan spaced).tokens.map Token.unplaced =
      (scan source).tokens.map Token.unplaced := by
    rw [unplaced_tokens_scan, unplaced_tokens_scan, htokens, unplaced_innerTokens]
  have hstmts := Program.statements_map (f := Token.unplaced) fun _ => rfl
  refine ⟨errors_of_no_fault hfault, hsame, ?_⟩
  rw [← hstmts, ← hstmts, hsame]

/-- The slashes in the string are no comment, but those behind it are. -/
theorem spaced_comparison_scanned :
    (scan "a\t.\n1 <=\r\"b//\"").errors = [] ∧
      (scan "a\t.\n1 <=\r\"b//\"").tokens.map Token.lexeme =
        ["a", ".", "1", "<=", "\"b//\"", ""] := by
  have htokens : (scan "a.1<=\"b//\"//").tokens =
      [⟨.identifier, "a", 1⟩, ⟨.mark .dot, ".", 1⟩, ⟨.number ⟨0x3ff0000000000000⟩, "1", 1⟩,
        ⟨.mark .lessEqual, "<=", 1⟩, ⟨.string "b//", "\"b//\"", 1⟩, ⟨.eof, "", 1⟩] := by
    decide +kernel
  have hspaced : Spaced ((scan "a.1<=\"b//\"//").tokens.filter (!·.isEof))
      "a\t.\n1 <=\r\"b//\"".toList := by
    rw [htokens]
    exact .cons _ ['\t'] (by simp) (by simp) (.cons _ ['\n'] (by simp) (by simp)
      (.cons _ [' '] (by simp) (by simp) (.cons _ ['\r'] (by simp) (by simp) (.one _))))
  obtain ⟨herrors, hsame, -⟩ := scan_spaced hspaced
  refine ⟨herrors, ?_⟩
  have hlexemes := congrArg (List.map Token.lexeme) hsame
  rw [List.map_map, List.map_map, htokens] at hlexemes
  exact hlexemes

end Treewalk
