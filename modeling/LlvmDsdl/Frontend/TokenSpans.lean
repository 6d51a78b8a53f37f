import LlvmDsdl.Frontend.LosslessLexing
import LlvmDsdl.Frontend.StatementGrammar
import LlvmDsdl.Frontend.TokenSpelling

/-!
Contract: the text that consecutive tokens of a source cover (`Frontend/Lexer.cpp`).

Owns: the words, comments and directive signs of a lexed text, which stand within a
line, the rest of a layout behind some of its tokens, and the text from the first of
consecutive tokens to the end of the last.
-/

namespace LlvmDsdl.Frontend

open LexerCursor

/-- The kinds of tokens that are spelled within a line, as the highlights of a source need it. -/
def isLineKind (kind : TokenKind) : Bool :=
  kind = .comment || isDirectiveName kind

/-- Words and comments contain no line break, a comment starts with a hash, and a sign is an at. -/
structure SpelledInLine (token : Token) : Prop where
  line : isLineKind token.kind = true → '\n' ∉ token.text.toList
  comment : token.kind = .comment → token.text.toList.head? = some '#'
  sign : token.kind = .at_ → token.text = "@"

section Lexing

variable {file : String} {start : LexerCursor}

theorem spelledInLine_plain {kind : TokenKind} {text : List Char} (plain : IsPlainKind kind)
    (spelled : PlainText kind text) : SpelledInLine (tokenAt file start kind text) := by
  have same : (tokenAt file start kind text).text.toList = text := String.toList_ofList
  refine ⟨fun isLine => ?_, fun isComment => ?_, fun isSign => ?_⟩
  · have isComment : kind = .comment := by
      by_contra other
      have never : isLineKind kind = false := by
        simp [isLineKind, isDirectiveName, other, plain.1, plain.2.2.2.1, plain.2.2.2.2]
      exact absurd (never.symm.trans isLine) Bool.false_ne_true
    rw [same]
    exact (spelled.comment isComment).2
  · rw [same]
    exact (spelled.comment isComment).1
  · rw [tokenAt, spelled.sign isSign]

theorem lexIdentifierOrKeyword_inLine :
    ∀ token ∈ (lexIdentifierOrKeyword file start).tokens, SpelledInLine token := by
  intro token member
  have word (text : List Char) : identifierKind text ≠ .at_ ∧ identifierKind text ≠ .comment := by
    unfold identifierKind
    split
    · decide
    · split <;> decide
  rw [List.mem_singleton.mp member]
  refine ⟨fun _ => ?_, fun isComment => absurd isComment (word _).2,
    fun isSign => absurd isSign (word _).1⟩
  rw [tokenAt, String.toList_ofList]
  exact not_mem_readWhile start (by decide)

theorem lexNumber_inLine {last : Option Token} :
    ∀ token ∈ (lexNumber file last start).tokens, SpelledInLine token := by
  have number (start : LexerCursor) {kind : TokenKind} (text : List Char)
      (isNumber : isLineKind kind = false ∧ kind ≠ .comment ∧ kind ≠ .at_) :
      SpelledInLine (tokenAt file start kind text) :=
    ⟨fun isLine => absurd (isNumber.1.symm.trans isLine) Bool.false_ne_true,
      fun isComment => absurd isComment isNumber.2.1, fun isSign => absurd isSign isNumber.2.2⟩
  intro token member
  unfold lexNumber at member
  split at member
  · rw [lexPrefixedInteger, List.mem_singleton] at member
    rw [member]
    exact number _ _ (by decide)
  · rw [List.mem_singleton] at member
    rw [member]
    apply number
    split <;> decide

theorem lexFrom_inLine (fuel : ℕ) (last : Option Token) (cursor : LexerCursor) :
    ∀ token ∈ (lexFrom file fuel last cursor).1, SpelledInLine token :=
  @lexFrom_tokens file SpelledInLine (fun _ => True)
    (fun _ _ _ plain spelled => spelledInLine_plain plain spelled)
    (fun _ _ _ _ _ => lexIdentifierOrKeyword_inLine) (fun _ _ _ _ _ _ _ => lexNumber_inLine)
    (fun _ _ _ => ⟨trivial, trivial⟩) _ _ _ trivial

end Lexing

variable {file : String} {position : ℕ × ℕ} {text : List Char} {token : Token}
  {used tokens : List Token} {starts : List (ℕ × ℕ)}

/-- No earlier position, by line and column. -/
def NotAfter (first second : ℕ × ℕ) : Prop :=
  first = second ∨ Precedes first second

theorem notAfter_positionAfter (position : ℕ × ℕ) (text : List Char) :
    NotAfter position (positionAfter position text) := by
  by_cases empty : text = []
  · rw [empty]
    exact Or.inl rfl
  · exact Or.inr (precedes_positionAfter position empty)

theorem NotAfter.trans {first second third : ℕ × ℕ} (before : NotAfter first second)
    (after : NotAfter second third) : NotAfter first third := by
  rcases before with rfl | precedes
  · exact after
  · rcases after with rfl | precedes'
    · exact Or.inr precedes
    · exact Or.inr (precedes.trans precedes')

theorem positionAfter_line (position : ℕ × ℕ) {text : List Char} (plain : '\n' ∉ text) :
    positionAfter position text = (position.1, position.2 + text.length) := by
  induction text generalizing position with
  | nil => rfl
  | cons c text ih =>
      rw [List.mem_cons, not_or] at plain
      have step : positionStep position c = (position.1, position.2 + 1) :=
        if_neg fun same => plain.1 same.symm
      rw [positionAfter, List.foldl_cons, step, ← positionAfter, ih _ plain.2,
        List.length_cons]
      exact Prod.ext rfl (by dsimp only; omega)

theorem NotAfter.behind {first second : ℕ × ℕ} {text : List Char} (plain : '\n' ∉ text)
    (before : NotAfter first second) :
    NotAfter (positionAfter first text) (positionAfter second text) := by
  rw [positionAfter_line _ plain, positionAfter_line _ plain]
  rcases before with rfl | earlier | ⟨same, earlier⟩
  · exact Or.inl rfl
  · exact Or.inr (Or.inl earlier)
  · exact Or.inr (Or.inr ⟨same, Nat.add_lt_add_right earlier _⟩)

/-- The place of a token in a text from a position on, and what stands behind it. -/
structure Placed (file : String) (position : ℕ × ℕ) (text gap : List Char) (token : Token)
    (spelling rest : List Char) (tokens : List Token) (starts : List (ℕ × ℕ)) : Prop where
  whole : text = gap ++ (spelling ++ rest)
  nonempty : spelling ≠ []
  spells : Spells token spelling
  recorded : token.location = recordedAt file (startAt starts 0)
  placed : startAt starts 0 = positionAfter position gap
  others : Layout file (positionAfter position (gap ++ spelling)) rest tokens (starts.drop 1)

theorem Layout.placed (laid : Layout file position text (token :: tokens) starts)
    (notEof : token.kind ≠ .eof) :
    ∃ gap spelling rest, Placed file position text gap token spelling rest tokens starts := by
  generalize same : token :: tokens = all at laid
  cases laid with
  | done =>
      rw [List.cons.injEq] at same
      rw [same.1] at notEof
      exact absurd rfl notEof
  | @token _ gap spelling rest token' tokens' starts' _ nonempty spells location others =>
      rw [List.cons.injEq] at same
      refine ⟨gap, spelling, rest, rfl, nonempty, ?_, ?_, rfl, ?_⟩
      · rwa [same.1]
      · rw [same.1, location]
        rfl
      · rwa [same.2]

/-- The text that consecutive tokens cover, and what stands behind them. -/
structure Span (file : String) (position : ℕ × ℕ) (text gap : List Char) (used : List Token)
    (covered rest : List Char) (tokens : List Token) (starts : List (ℕ × ℕ)) : Prop where
  whole : text = gap ++ (covered ++ rest)
  opens : startAt starts 0 = positionAfter position gap
  recorded : ∀ first ∈ used.head?, first.location = recordedAt file (startAt starts 0)
  ends : ∀ last ∈ used.getLast?, ∃ inner spelling, covered = inner ++ spelling ∧ spelling ≠ [] ∧
    Spells last spelling ∧
      startAt starts (used.length - 1) = positionAfter position (gap ++ inner)
  others : Layout file (positionAfter position (gap ++ covered)) rest tokens
    (starts.drop used.length)

theorem Layout.span (laid : Layout file position text (used ++ tokens) starts) (some : used ≠ [])
    (inline : ∀ token ∈ used, IsInline token) :
    ∃ gap covered rest, Span file position text gap used covered rest tokens starts := by
  induction used generalizing position text starts with
  | nil => exact absurd rfl some
  | cons token used ih =>
      obtain ⟨gap, spelling, rest, placed⟩ := laid.placed (inline token List.mem_cons_self).1
      have recorded : ∀ first ∈ (token :: used).head?,
          first.location = recordedAt file (startAt starts 0) := by
        intro first isFirst
        rw [← Option.some.inj isFirst]
        exact placed.recorded
      by_cases last : used = []
      · subst last
        refine ⟨gap, spelling, rest, placed.whole, placed.placed, recorded, ?_, placed.others⟩
        intro last isLast
        rw [← Option.some.inj isLast]
        exact ⟨[], spelling, rfl, placed.nonempty, placed.spells, by simp [placed.placed]⟩
      · obtain ⟨gap', covered, rest', span⟩ := ih placed.others last
          fun token member => inline token (List.mem_cons_of_mem _ member)
        obtain ⟨first, more, same⟩ := List.exists_cons_of_ne_nil last
        refine ⟨gap, spelling ++ (gap' ++ covered), rest', ?_, placed.placed, recorded, ?_, ?_⟩
        · rw [placed.whole, span.whole]
          simp
        · intro final isFinal
          rw [same, List.getLast?_cons_cons, ← same] at isFinal
          obtain ⟨inner, ending, whole, nonempty, spells, location⟩ := span.ends final isFinal
          refine ⟨spelling ++ (gap' ++ inner), ending, by simp [whole], nonempty, spells, ?_⟩
          have index : 1 + (used.length - 1) = (token :: used).length - 1 := by
            rw [same]
            simp [Nat.add_comm]
          rw [startAt_drop, index, ← positionAfter_append] at location
          rw [location]
          simp
        · have others := span.others
          rw [← positionAfter_append, List.drop_drop] at others
          simpa [Nat.add_comm] using others

end LlvmDsdl.Frontend
