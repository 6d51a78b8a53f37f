import LlvmDsdl.Frontend.ParserCompleteness
import LlvmDsdl.Frontend.PrintedExpression

/-!
Contract: parsing inverts printing, and parses by the stratified grammar.

Owns: the expressions a text denotes, the round trip of one through its printed form,
and that the parser gives the tokens it accepts their one tree.

A rational prints as a fraction, which is read as a division, and the quotes and
backslashes of a string print as they are; expressions with neither are read back.
-/

namespace LlvmDsdl.Frontend

open Support Library.Parsing

/-- Some text is lexed without errors, and the grammar derives the value from tokens of it. -/
def Denoted (value : ExprAST) : Prop :=
  ∃ file text before used after,
    lex file text = (before ++ (used ++ after), []) ∧ Expression used value

/-- The printed form is parsed to its end, without errors, as the same tree elsewhere. -/
def RoundTrips (file : String) (value : ExprAST) : Prop :=
  ∃ tokens other eof, lex file (.ofList value.str) = (tokens, []) ∧ eof.kind = .eof ∧
    parseExpression tokens = ⟨some other, [eof], []⟩ ∧ other.unlocated = value.unlocated

/-- What is read back of an expression's printed form is parsed when its nesting is allowed. -/
theorem Reprints.roundTrips {file : String} {value : ExprAST} (reprints : Reprints file value)
    (allowed : value.nesting < kMaxExpressionDepth) : RoundTrips file value := by
  have ended : Delimited [] := by
    intro c after same
    cases same
  have ⟨tokens, other, line, column, lexed, atom, same, _⟩ := reprints.reads [] ended 1 1
  rw [List.append_nil] at lexed
  have derived : Derivation kMaxExpressionDepth tokens other :=
    derivation_mono allowed atom.logical
  have ends : EndsBefore expressionBlocked [tokenAt file ⟨[], line, column⟩ .eof []] := by
    have notBlocked : TokenKind.eof ∉ expressionBlocked := by decide
    exact endsBefore_cons notBlocked
  exact ⟨_, other, _, lexed.lex, rfl,
    parseExpressionWithin_complete kMaxExpressionDepth tokens other _ derived ends, same⟩

/-- **Parsing inverts printing on expressions whose literals print as they are written, and
the tokens the parser accepts have one tree, which it returns.** -/
theorem parse_inverts_print (file : String) :
    (∀ value : ExprAST, Denoted value → value.isPrintable = true →
      value.nesting < kMaxExpressionDepth → RoundTrips file value) ∧
    ∀ tokens value rest, parseExpression tokens = ⟨some value, rest, []⟩ →
      ∃ used, tokens = used ++ rest ∧ Expression used value ∧
        ∀ other, Expression used other → other = value := by
  constructor
  · intro value denoted printable allowed
    have ⟨textFile, text, before, used, after, lexed, nesting, derived⟩ := denoted
    have good : ∀ token ∈ used, WellSpelled token := by
      intro token member
      apply @lex_wellSpelled textFile text
      rw [lexed]
      exact List.mem_append_right _ (List.mem_append_left _ member)
    exact (derivation_printBack nesting used value good derived printable).roundTrips allowed
  · intro tokens value rest parsed
    have ⟨used, split, derived, _⟩ :=
      parseExpressionWithin_sound kMaxExpressionDepth tokens value rest parsed
    have expression : Expression used value := ⟨kMaxExpressionDepth, derived⟩
    exact ⟨used, split, expression, fun other otherDerived =>
      expression_unique otherDerived expression⟩

theorem denoted_of_parsed {file text : String} {tokens rest : List Token} {value : ExprAST}
    (lexed : lex file text = (tokens, []))
    (parsed : parseExpression tokens = ⟨some value, rest, []⟩) : Denoted value := by
  have ⟨used, split, derived, _⟩ :=
    parseExpressionWithin_sound kMaxExpressionDepth tokens value rest parsed
  exact ⟨file, text, [], used, rest, by rw [lexed, split]; rfl, kMaxExpressionDepth, derived⟩

/-- Up to a token that goes on with no expression, the parser reads exactly what the grammar derives
within the nesting it allows. -/
theorem parseExpression_iff {used rest : List Token} {value : ExprAST}
    (ends : EndsBefore expressionBlocked rest) :
    parseExpression (used ++ rest) = ⟨some value, rest, []⟩ ↔
      Derivation kMaxExpressionDepth used value := by
  constructor
  · intro parsed
    have ⟨other, split, derived, _⟩ :=
      parseExpressionWithin_sound kMaxExpressionDepth _ value rest parsed
    rw [List.append_cancel_right split]
    exact derived
  · intro derived
    exact parseExpressionWithin_complete kMaxExpressionDepth used value rest derived ends

/-- `1 + x` at the start of a text. -/
def sumExpression : ExprAST :=
  .binary ⟨"", 1, 3⟩ .add (.rational ⟨"", 1, 1⟩ (.ofInteger 1)) (.identifier ⟨"", 1, 5⟩ "x")

theorem sumExpression_parsed :
    parseExpression (lex "" "1 + x").1 = ⟨some sumExpression, [⟨.eof, "", ⟨"", 1, 6⟩⟩], []⟩ :=
  rfl

/-- It is read back, and its tokens have no other tree. -/
theorem parse_inverts_print_sum :
    RoundTrips "" sumExpression ∧
      ∃ used, (lex "" "1 + x").1 = used ++ [⟨.eof, "", ⟨"", 1, 6⟩⟩] ∧
        Expression used sumExpression ∧ ∀ other, Expression used other → other = sumExpression :=
  ⟨(parse_inverts_print "").1 sumExpression (denoted_of_parsed rfl sumExpression_parsed) (by decide)
      (by decide),
    (parse_inverts_print "").2 _ _ _ sumExpression_parsed⟩

theorem parseExpression_iff_sum :
    Derivation kMaxExpressionDepth (lex "" "1 + x").1.dropLast sumExpression :=
  (parseExpression_iff (endsBefore_cons (by decide))).mp sumExpression_parsed

/-- `0.5` at the start of a text. -/
def halfExpression : ExprAST :=
  .rational ⟨"", 1, 1⟩ (.ofFraction 5 10)

theorem halfExpression_parsed :
    parseExpression (lex "" "0.5").1 = ⟨some halfExpression, [⟨.eof, "", ⟨"", 1, 4⟩⟩], []⟩ :=
  rfl

/-- It prints as `1/2`, which is a division. -/
theorem print_not_inverted :
    ¬∀ value : ExprAST, Denoted value → value.nesting < kMaxExpressionDepth →
      RoundTrips "" value := by
  intro all
  have ⟨tokens, other, eof, lexed, _, parsed, same⟩ :=
    all halfExpression (denoted_of_parsed rfl halfExpression_parsed) (by decide)
  have division : parseExpression (lex "" (.ofList halfExpression.str)).1 =
      ⟨some (.binary ⟨"", 1, 2⟩ .div (.rational ⟨"", 1, 1⟩ (.ofInteger 1))
        (.rational ⟨"", 1, 3⟩ (.ofInteger 2))), [⟨.eof, "", ⟨"", 1, 4⟩⟩], []⟩ := rfl
  rw [lexed, parsed] at division
  have isDivision := Option.some.inj (congrArg Parsed.value division)
  rw [isDivision, ExprAST.unlocated, halfExpression, ExprAST.unlocated] at same
  cases same

/-- `"'"` at the start of a text. -/
def quoteExpression : ExprAST :=
  .string ⟨"", 1, 1⟩ "'"

theorem quoteExpression_parsed :
    parseExpression (lex "" "\"'\"").1 = ⟨some quoteExpression, [⟨.eof, "", ⟨"", 1, 4⟩⟩], []⟩ :=
  rfl

/-- It prints as three quotes in a row, the last of which ends nowhere. -/
theorem quote_not_inverted : Denoted quoteExpression ∧ ¬RoundTrips "" quoteExpression := by
  refine ⟨denoted_of_parsed rfl quoteExpression_parsed, ?_⟩
  intro ⟨tokens, other, eof, lexed, _⟩
  have unterminated : (lex "" (.ofList quoteExpression.str)).2 ≠ [] := by decide
  exact unterminated (congrArg Prod.snd lexed)

end LlvmDsdl.Frontend
