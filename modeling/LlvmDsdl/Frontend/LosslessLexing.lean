import LlvmDsdl.Frontend.LexedText
import LlvmDsdl.Frontend.TokenLayout

/-!
Contract: the tokens of a text without lexical errors account for all of it
(`Frontend/Lexer.cpp`).

Owns: what each of the lexer's readings consumes, the layout of a lexed text, the
order of its tokens and the text at each of them, and the values of its strings
where the text is the UTF-8 bytes of characters.

A text is a list of bytes, a byte the character of its code.
-/

namespace LlvmDsdl.Frontend

open LexerCursor Library.Utf8Text

/-! ### Reading -/

/-- 32 bits of a cursor count a position. -/
def Counts (cursor : LexerCursor) (position : ℕ × ℕ) : Prop :=
  cursor.line = .ofNat position.1 ∧ cursor.column = .ofNat position.2

/-- From one cursor a text is read up to another, wherever the first stands. -/
structure Consumes (start : LexerCursor) (text : List Char) (stop : LexerCursor) : Prop where
  whole : start.rest = text ++ stop.rest
  counts : ∀ position, Counts start position → Counts stop (positionAfter position text)

variable {start middle stop : LexerCursor} {text more rest : List Char} {c : Char}

theorem Consumes.refl (start : LexerCursor) : Consumes start [] start :=
  ⟨rfl, fun _ counts => counts⟩

theorem Consumes.trans (first : Consumes start text middle) (second : Consumes middle more stop) :
    Consumes start (text ++ more) stop :=
  ⟨by rw [first.whole, second.whole, List.append_assoc],
    fun position counts => by
      rw [positionAfter_append]
      exact second.counts _ (first.counts position counts)⟩

theorem reads_advance (isNext : start.rest = c :: rest) :
    Consumes start [c] start.advance ∧ start.advance.rest = rest := by
  unfold advance
  rw [isNext]
  dsimp only
  split
  · rename_i newline
    refine ⟨⟨isNext, fun position counts => ?_⟩, rfl⟩
    have step : positionAfter position [c] = (position.1 + 1, 1) := if_pos newline
    rw [step]
    exact ⟨by rw [counts.1, UInt32.ofNat_add]; rfl, rfl⟩
  · rename_i other
    refine ⟨⟨isNext, fun position counts => ?_⟩, rfl⟩
    have step : positionAfter position [c] = (position.1, position.2 + 1) := if_neg other
    rw [step]
    exact ⟨counts.1, by rw [counts.2, UInt32.ofNat_add]; rfl⟩

theorem reads_skip (isNext : start.rest = text ++ rest) :
    Consumes start text (start.skip text.length) ∧ (start.skip text.length).rest = rest := by
  induction text generalizing start with
  | nil => exact ⟨.refl start, isNext⟩
  | cons c text ih =>
      obtain ⟨first, left⟩ := reads_advance isNext
      obtain ⟨later, last⟩ := ih left
      exact ⟨first.trans later, last⟩

theorem reads_readWhile (condition : Char → Bool) (start : LexerCursor) :
    Consumes start (readWhile condition start).1 (readWhile condition start).2 := by
  refine (@reads_skip start (start.rest.takeWhile condition) (start.rest.dropWhile condition) ?_).1
  rw [List.takeWhile_append_dropWhile]

theorem rest_of_peek (found : start.peek 0 = c) (visible : c ≠ endMark) :
    ∃ rest, start.rest = c :: rest := by
  unfold peek at found
  cases whole : start.rest with
  | nil =>
      rw [whole] at found
      exact absurd found.symm visible
  | cons first rest =>
      rw [whole] at found
      exact ⟨rest, by rw [← found]; rfl⟩

theorem rest_of_peek_one (isNext : start.rest = c :: rest) {next : Char}
    (found : start.peek 1 = next) (visible : next ≠ endMark) : ∃ rest', rest = next :: rest' := by
  refine @rest_of_peek ⟨rest, start.line, start.column⟩ next ?_ visible
  rw [← found, peek, peek, isNext]
  rfl

/-- What a token of an iteration stands for. -/
structure Emits (file : String) (start : LexerCursor) (spelling : List Char) (token : Token)
    (next : LexerCursor) : Prop where
  reads : Consumes start spelling next
  nonempty : spelling ≠ []
  placed : token.location = ⟨file, start.line, start.column⟩
  spells : Spells token spelling

/-- A kind whose tokens are spelled by their texts. -/
def IsVerbatim (kind : TokenKind) : Prop :=
  kind ≠ .eof ∧ kind ≠ .newline ∧ kind ≠ .serviceResponseMarker ∧ kind ≠ .string

instance (kind : TokenKind) : Decidable (IsVerbatim kind) :=
  inferInstanceAs (Decidable (_ ∧ _))

theorem spells_verbatim {file : String} {kind : TokenKind} (verbatim : IsVerbatim kind) :
    Spells (tokenAt file start kind text) text := by
  unfold IsVerbatim at verbatim
  unfold Spells
  cases kind <;> first
    | exact String.toList_ofList
    | simp at verbatim

theorem emits_verbatim (file : String) {kind : TokenKind} {next : LexerCursor}
    (verbatim : IsVerbatim kind) (reads : Consumes start text next) (nonempty : text ≠ []) :
    Emits file start text (tokenAt file start kind text) next :=
  ⟨reads, nonempty, rfl, spells_verbatim verbatim⟩

/-! ### Words and numbers -/

theorem readWhile_ne_nil {condition : Char → Bool} (isNext : start.rest = c :: rest)
    (holds : condition c = true) : (readWhile condition start).1 ≠ [] := by
  show start.rest.takeWhile condition ≠ []
  rw [isNext, List.takeWhile_cons_of_pos holds]
  exact List.cons_ne_nil _ _

theorem emits_identifier (file : String) (isNext : start.rest = c :: rest)
    (alphabetic : c.isAlpha = true ∨ c = '_') :
    ∃ spelling token, (lexIdentifierOrKeyword file start).tokens = [token] ∧
      Emits file start spelling token (lexIdentifierOrKeyword file start).next := by
  have character : isIdentifierCharacter c = true := by
    unfold isIdentifierCharacter Char.isAlphanum
    rcases alphabetic with isAlpha | underscore
    · simp [isAlpha]
    · simp [underscore]
  refine ⟨_, _, rfl, emits_verbatim file ?_ (reads_readWhile _ start)
    (readWhile_ne_nil isNext character)⟩
  unfold identifierKind
  split
  · decide
  · split <;> decide

theorem reads_readFraction (start : LexerCursor) :
    Consumes start (readFraction start).1 (readFraction start).2 := by
  unfold readFraction
  split
  · rename_i point
    obtain ⟨rest, isNext⟩ := rest_of_peek point.1 (by decide)
    exact (reads_advance isNext).1.trans (reads_readWhile _ start.advance)
  · split
    · rename_i point
      obtain ⟨rest, isNext⟩ := rest_of_peek point.1 (by decide)
      exact (reads_advance isNext).1
    · exact .refl start

theorem reads_readExponent (start : LexerCursor) :
    Consumes start (readExponent start).1 (readExponent start).2 := by
  unfold readExponent
  split
  · rename_i isMark
    have visible : start.peek 0 ≠ endMark := by
      intro ended
      rw [ended] at isMark
      exact absurd isMark (by decide)
    obtain ⟨rest, isNext⟩ := rest_of_peek rfl visible
    have mark := (reads_advance isNext).1
    dsimp only
    split
    · rename_i signed
      have visible : start.advance.peek 0 ≠ endMark := by
        rcases signed with plus | minus
        · rw [plus]
          decide
        · rw [minus]
          decide
      obtain ⟨rest, isSign⟩ := rest_of_peek rfl visible
      exact mark.trans ((reads_advance isSign).1.trans (reads_readWhile _ _))
    · exact mark.trans (reads_readWhile _ _)
  · exact .refl start

theorem emits_number (file : String) (last : Option Token) (isNext : start.rest = c :: rest)
    (isDigit : c.isDigit = true) :
    ∃ spelling token, (lexNumber file last start).tokens = [token] ∧
      Emits file start spelling token (lexNumber file last start).next := by
  unfold lexNumber
  split
  · rename_i prefixed
    have visible : start.peek 1 ≠ endMark := by
      intro ended
      have isMark := prefixed.2
      rw [ended] at isMark
      exact absurd isMark (by decide)
    obtain ⟨rest', same⟩ := rest_of_peek_one isNext rfl visible
    have two : start.rest = [c, start.peek 1] ++ rest' := by rw [isNext, same]; rfl
    have taken : start.rest.take 2 = [c, start.peek 1] := by rw [two]; rfl
    have reads := (reads_skip two).1.trans (reads_readWhile isIdentifierCharacter _)
    rw [lexPrefixedInteger, taken]
    exact ⟨_, _, rfl, emits_verbatim file (by decide) reads (by simp)⟩
  · have digit : isDigitOrUnderscore c = true := by simp [isDigitOrUnderscore, isDigit]
    have reads := ((reads_readWhile isDigitOrUnderscore start).trans
      (reads_readFraction _)).trans (reads_readExponent _)
    refine ⟨_, _, rfl, emits_verbatim file ?_ reads ?_⟩
    · split <;> decide
    · simp [readWhile_ne_nil isNext digit]

/-! ### Strings -/

theorem utf8Bytes_eq (c : Char) : utf8Bytes c.toNat = encodeChar c := by
  rw [encodeChar_eq, utf8Bytes, codePointBytes]
  split
  · rfl
  · split
    · rfl
    · split <;> rfl

/-- The digits of a Unicode escape spell the code point of the character whose bytes are read. -/
theorem reads_decodeUnicodeEscape {file : String} {at_ cursor : LexerCursor} {count value : ℕ}
    (errors : (decodeUnicodeEscape file at_ count value cursor).2.1 = []) :
    ∃ digits c, digits.length = count ∧ hexNumber value digits = some c.toNat ∧
      Consumes cursor digits (decodeUnicodeEscape file at_ count value cursor).2.2 ∧
      (decodeUnicodeEscape file at_ count value cursor).1 = encodeChar c := by
  induction count generalizing value cursor with
  | zero =>
      rw [decodeUnicodeEscape] at errors ⊢
      split at errors
      · simp at errors
      · rename_i valid
        have isChar : value.isValidChar := by
          unfold Nat.isValidChar
          omega
        have code : (Char.ofNat value).toNat = value := by
          rw [Char.ofNat, dif_pos isChar]
          rfl
        refine ⟨[], Char.ofNat value, rfl, by rw [hexNumber, code], ?_, ?_⟩
        · rw [if_neg valid]
          exact .refl cursor
        · rw [if_neg valid, ← utf8Bytes_eq, code]
  | succ count ih =>
      rw [decodeUnicodeEscape] at errors ⊢
      cases found : digitValue (cursor.peek 0) with
      | none => simp [found] at errors
      | some nibble =>
          rw [found] at errors
          have visible : cursor.peek 0 ≠ endMark := by
            intro ended
            have none : digitValue endMark = none := by decide
            rw [ended, none] at found
            cases found
          obtain ⟨rest, isNext⟩ := rest_of_peek rfl visible
          obtain ⟨digits, c, length, number, reads, bytes⟩ := ih errors
          refine ⟨cursor.peek 0 :: digits, c, by rw [List.length_cons, length], ?_,
            (reads_advance isNext).1.trans reads, bytes⟩
          rw [hexNumber, found, Option.bind_some, number]

theorem reads_lexEscape {file : String} {at_ cursor : LexerCursor} (quote : Char)
    (isNext : cursor.rest = c :: rest) (errors : (lexEscape file at_ cursor).2.1 = []) :
    ∃ spelling, Consumes cursor spelling (lexEscape file at_ cursor).2.2 ∧
      ∀ content value, HasValue quote content value →
        HasValue quote (backslash :: (spelling ++ content))
          ((lexEscape file at_ cursor).1 ++ value) := by
  have esc : cursor.peek 0 = c := by
    rw [peek, isNext]
    rfl
  have first := (reads_advance isNext).1
  have short {read : Char} (isShort : shortEscape c = some read) :
      ∀ content value, HasValue quote content value →
        HasValue quote (backslash :: ([c] ++ content)) ([read] ++ value) :=
    fun _ _ others => .short isShort others
  have unicode {count : ℕ} (isMark : unicodeDigits c = some count)
      (errors : (decodeUnicodeEscape file at_ count 0 cursor.advance).2.1 = []) :
      ∃ spelling, Consumes cursor spelling
          (decodeUnicodeEscape file at_ count 0 cursor.advance).2.2 ∧
        ∀ content value, HasValue quote content value →
          HasValue quote (backslash :: (spelling ++ content))
            ((decodeUnicodeEscape file at_ count 0 cursor.advance).1 ++ value) := by
    obtain ⟨digits, read, length, number, reads, bytes⟩ := reads_decodeUnicodeEscape errors
    refine ⟨c :: digits, first.trans reads, fun content value others => ?_⟩
    rw [bytes]
    exact .unicode (by rw [isMark, length]) number others
  unfold lexEscape at errors ⊢
  rw [esc] at errors ⊢
  dsimp only at errors ⊢
  split at errors
  · rename_i newline
    rw [if_pos newline]
    exact ⟨[c], first, short (by rw [newline]; rfl)⟩
  · rename_i notNewline
    rw [if_neg notNewline]
    split at errors
    · rename_i carriage
      rw [if_pos carriage]
      exact ⟨[c], first, short (by rw [carriage]; rfl)⟩
    · rename_i notCarriage
      rw [if_neg notCarriage]
      split at errors
      · rename_i tab
        rw [if_pos tab]
        exact ⟨[c], first, short (by rw [tab]; rfl)⟩
      · rename_i notTab
        rw [if_neg notTab]
        split at errors
        · rename_i itself
          rw [if_pos itself]
          refine ⟨[c], first, short ?_⟩
          rw [shortEscape, if_neg notNewline, if_neg notCarriage, if_neg notTab, if_pos itself]
        · rename_i notItself
          rw [if_neg notItself]
          split at errors
          · rename_i four
            rw [if_pos four]
            exact unicode (by rw [four]; rfl) errors
          · rename_i notFour
            rw [if_neg notFour]
            split at errors
            · rename_i eight
              rw [if_pos eight]
              exact unicode (by rw [eight]; rfl) errors
            · simp at errors

theorem reads_lexStringContent {file : String} {quote : Char} {fuel : ℕ} {cursor : LexerCursor}
    (errors : (lexStringContent file quote fuel cursor).2.1 = []) :
    ∃ content, Consumes cursor content (lexStringContent file quote fuel cursor).2.2 ∧
      HasValue quote content (lexStringContent file quote fuel cursor).1 := by
  induction fuel generalizing cursor with
  | zero => exact ⟨[], .refl cursor, .nil⟩
  | succ fuel ih =>
      rw [lexStringContent.eq_def] at errors ⊢
      dsimp only at errors ⊢
      cases isNext : cursor.rest with
      | nil => exact ⟨[], .refl cursor, .nil⟩
      | cons c rest =>
          rw [isNext] at errors
          dsimp only at errors ⊢
          obtain ⟨first, left⟩ := reads_advance isNext
          split at errors
          · rename_i isQuote
            rw [if_pos isQuote]
            exact ⟨[], .refl cursor, .nil⟩
          · rename_i notQuote
            rw [if_neg notQuote]
            split at errors
            · rename_i notEscape
              rw [if_pos notEscape]
              obtain ⟨content, reads, hasValue⟩ := ih errors
              exact ⟨c :: content, first.trans reads, .raw notQuote notEscape hasValue⟩
            · rename_i isEscape
              rw [if_neg isEscape]
              rw [not_not] at isEscape
              cases rest with
              | nil => simp at errors
              | cons next after =>
                  dsimp only at errors ⊢
                  split at errors
                  · simp at errors
                  · rename_i sameLine
                    rw [if_neg sameLine]
                    rw [List.append_eq_nil_iff] at errors
                    obtain ⟨spelling, escape, stands⟩ := reads_lexEscape quote left errors.1
                    obtain ⟨content, reads, hasValue⟩ := ih errors.2
                    refine ⟨backslash :: (spelling ++ content), ?_, stands _ _ hasValue⟩
                    rw [← isEscape]
                    exact first.trans (escape.trans reads)

theorem emits_string {file : String} {quote : Char} (isNext : start.rest = quote :: rest)
    (isQuote : quote = singleQuote ∨ quote = doubleQuote)
    (errors : (lexString file quote start).errors = []) :
    ∃ spelling token, (lexString file quote start).tokens = [token] ∧
      Emits file start spelling token (lexString file quote start).next := by
  have first := (reads_advance isNext).1
  unfold lexString at errors ⊢
  dsimp only at errors ⊢
  split at errors
  · rename_i c after ended
    by_cases same : c = quote
    · rw [if_pos same] at errors ⊢
      obtain ⟨content, reads, hasValue⟩ := reads_lexStringContent errors
      have last := (reads_advance ended).1
      rw [same] at last
      refine ⟨_, _, rfl, ⟨first.trans (reads.trans last), by simp, rfl, ?_⟩⟩
      refine ⟨quote, content, isQuote, rfl, ?_⟩
      rw [tokenAt, String.toList_ofList]
      exact hasValue
    · simp [same] at errors
  · simp at errors

/-! ### Operators -/

theorem pairKind_facts {next : Char} {kind : TokenKind} (isPair : pairKind c next = some kind) :
    next ≠ endMark ∧ IsVerbatim kind := by
  unfold pairKind at isPair
  split at isPair <;> first
    | cases isPair; exact ⟨by decide, by decide⟩
    | cases isPair

theorem singleKind_verbatim {kind : TokenKind} (isSingle : singleKind c = some kind) :
    IsVerbatim kind := by
  unfold singleKind at isSingle
  split at isSingle <;> first
    | cases isSingle; decide
    | cases isSingle

theorem emits_operator {file : String} (isNext : start.rest = c :: rest)
    (errors : (lexOperator file start c).errors = []) :
    ∃ spelling token, (lexOperator file start c).tokens = [token] ∧
      Emits file start spelling token (lexOperator file start c).next := by
  unfold lexOperator at errors ⊢
  cases pair : pairKind c (start.peek 1) with
  | some kind =>
      obtain ⟨visible, verbatim⟩ := pairKind_facts pair
      obtain ⟨after, same⟩ := rest_of_peek_one isNext rfl visible
      have two : start.rest = [c, start.peek 1] ++ after := by rw [isNext, same]; rfl
      exact ⟨_, _, rfl, emits_verbatim file verbatim (reads_skip two).1 (by simp)⟩
  | none =>
      rw [pair] at errors
      dsimp only at errors ⊢
      cases single : singleKind c with
      | some kind =>
          exact ⟨_, _, rfl, emits_verbatim file (singleKind_verbatim single)
            (reads_advance isNext).1 (by simp)⟩
      | none => simp [single] at errors

/-! ### One iteration -/

theorem emits_marker (file : String) (isMarker : c = '-' ∧ start.peek 1 = '-' ∧ start.peek 2 = '-')
    (isNext : start.rest = c :: rest) :
    ∃ spelling, Emits file start spelling
      (tokenAt file start .serviceResponseMarker "---".toList)
      ((start.skip 3).readWhile (· = '-')).2 := by
  obtain ⟨isFirst, isSecond, isThird⟩ := isMarker
  obtain ⟨rest₁, same⟩ := rest_of_peek_one isNext isSecond (by decide)
  obtain ⟨rest₂, same'⟩ := @rest_of_peek ⟨rest₁, start.line, start.column⟩ '-' (by
    rw [← isThird, peek, peek, isNext, same]
    rfl) (by decide)
  have three : start.rest = ['-', '-', '-'] ++ rest₂ := by
    have later : rest₁ = '-' :: rest₂ := same'
    rw [isNext, same, later, isFirst]
    rfl
  have more := List.eq_replicate_of_mem fun (c : Char)
    (member : c ∈ ((start.skip 3).readWhile (· = '-')).1) => by
      simpa using List.mem_takeWhile_imp member
  refine ⟨_, ⟨(reads_skip three).1.trans (reads_readWhile (· = '-') _), by simp, rfl,
    ⟨((start.skip 3).readWhile (· = '-')).1.length, ?_⟩, rfl⟩⟩
  conv_lhs => rw [show [('-' : Char), '-', '-'].length = 3 from rfl, more]
  rw [Nat.add_comm, List.replicate_add]
  rfl

/-- A blank, or a carriage return before its line feed. -/
def IsSkipped (c : Char) (rest : List Char) : Prop :=
  (c = ' ' ∨ c = Char.ofNat 9) ∨ c = Char.ofNat 13 ∧ ∃ after, rest = '\n' :: after

/-- An iteration without errors skips a blank or emits one token for what it reads. -/
theorem lexAt_reads {file : String} {last : Option Token} (isNext : start.rest = c :: rest)
    (errors : (lexAt file last start c).errors = []) :
    (IsSkipped c rest ∧ (lexAt file last start c).tokens = [] ∧
        (lexAt file last start c).next = start.advance) ∨
      ∃ spelling token, (lexAt file last start c).tokens = [token] ∧
        Emits file start spelling token (lexAt file last start c).next := by
  have first := (reads_advance isNext).1
  unfold lexAt at errors ⊢
  split at errors
  · rename_i carriage
    rw [if_pos carriage]
    split at errors
    · rename_i newline
      rw [if_pos newline]
      exact Or.inl ⟨Or.inr ⟨carriage, rest_of_peek_one isNext newline (by decide)⟩, rfl, rfl⟩
    · simp at errors
  · rename_i notCarriage
    rw [if_neg notCarriage]
    split at errors
    · rename_i newline
      rw [if_pos newline]
      exact Or.inr ⟨_, _, rfl, first, by simp, rfl, by rw [newline]; exact ⟨rfl, rfl⟩⟩
    · rename_i notNewline
      rw [if_neg notNewline]
      split at errors
      · rename_i blank
        rw [if_pos blank]
        exact Or.inl ⟨Or.inl blank, rfl, rfl⟩
      · rename_i notBlank
        rw [if_neg notBlank]
        split at errors
        · rename_i comment
          rw [if_pos comment]
          exact Or.inr ⟨_, _, rfl, emits_verbatim file (by decide) (reads_readWhile _ start)
            (readWhile_ne_nil isNext (by rw [comment]; decide))⟩
        · rename_i notComment
          rw [if_neg notComment]
          split at errors
          · rename_i marker
            rw [if_pos marker]
            obtain ⟨spelling, emits⟩ := emits_marker file marker isNext
            exact Or.inr ⟨spelling, _, rfl, emits⟩
          · rename_i notMarker
            rw [if_neg notMarker]
            split at errors
            · rename_i word
              rw [if_pos word]
              exact Or.inr (emits_identifier file isNext word)
            · rename_i notWord
              rw [if_neg notWord]
              split at errors
              · rename_i digit
                rw [if_pos digit]
                exact Or.inr (emits_number file last isNext digit)
              · rename_i notDigit
                rw [if_neg notDigit]
                split at errors
                · rename_i quote
                  rw [if_pos quote]
                  exact Or.inr (emits_string isNext quote errors)
                · rename_i notQuote
                  rw [if_neg notQuote]
                  exact Or.inr (emits_operator isNext errors)

/-! ### The loop -/

variable {file : String} {position : ℕ × ℕ} {tokens : List Token} {starts : List (ℕ × ℕ)}

theorem Layout.blank (isBlank : c = ' ' ∨ c = Char.ofNat 9)
    (laid : Layout file (positionStep position c) text tokens starts) :
    Layout file position (c :: text) tokens starts := by
  cases laid with
  | done isGap => exact @Layout.done file position (c :: text) (.blank isBlank isGap)
  | @token _ gap spelling rest token tokens starts isGap nonempty spells placed others =>
      exact @Layout.token file position (c :: gap) spelling rest token tokens starts
        (.blank isBlank isGap) nonempty spells placed others

theorem Gap.before_newline {gap : List Char} (isGap : Gap gap rest)
    (whole : gap ++ rest = '\n' :: text) : gap = [] := by
  cases isGap with
  | nil => rfl
  | blank isBlank others =>
      rw [List.cons_append, List.cons.injEq] at whole
      rw [whole.1] at isBlank
      exact absurd isBlank (by decide)
  | lineBreak => exact absurd (List.cons.inj whole).1 (by decide)

theorem Layout.lineBreak
    (laid : Layout file (positionStep position (Char.ofNat 13)) text tokens starts)
    (newline : text = '\n' :: rest) :
    Layout file position (Char.ofNat 13 :: text) tokens starts := by
  cases laid with
  | done isGap =>
      have empty := isGap.before_newline (by rw [List.append_nil, newline])
      rw [empty] at newline
      cases newline
  | @token _ gap spelling rest' token tokens starts isGap nonempty spells placed others =>
      have empty := isGap.before_newline newline
      subst empty
      rw [List.nil_append] at newline
      refine @Layout.token file position [Char.ofNat 13] spelling rest' token tokens starts ?_
        nonempty spells placed others
      rw [newline]
      exact .lineBreak rest

theorem Layout.emit {spelling : List Char} {token : Token} {next : LexerCursor}
    (counts : Counts start position) (emits : Emits file start spelling token next)
    (laid : Layout file (positionAfter position spelling) next.rest tokens starts) :
    Layout file position start.rest (token :: tokens) (position :: starts) := by
  have recorded : token.location = recordedAt file position := by
    rw [emits.placed, counts.1, counts.2]
    rfl
  rw [emits.reads.whole]
  exact @Layout.token file position [] spelling next.rest token tokens starts
    (.nil _) emits.nonempty emits.spells recorded laid

theorem Consumes.read (reads : Consumes start text stop) :
    start.rest.take (start.rest.length - stop.rest.length) = text := by
  rw [reads.whole, List.length_append, Nat.add_sub_cancel, List.take_left]

theorem layout_done (file : String) (counts : Counts start position) :
    Layout file position [] [tokenAt file start .eof []] [position] := by
  have laid := @Layout.done file position [] (.nil [])
  have recorded : tokenAt file start .eof [] = ⟨.eof, "", recordedAt file position⟩ := by
    rw [tokenAt, counts.1, counts.2]
    rfl
  rw [recorded]
  exact laid

/-- The run of the lexer from a position lays out the text from there. -/
theorem lexFrom_layout {fuel : ℕ} {last : Option Token} {cursor : LexerCursor}
    (counts : Counts cursor position) (enough : cursor.rest.length ≤ fuel)
    (errors : (lexFrom file fuel last cursor).2 = []) :
    Layout file position cursor.rest (lexFrom file fuel last cursor).1
      (startsFrom file fuel last cursor position) := by
  induction fuel generalizing last cursor position with
  | zero =>
      have empty := List.eq_nil_of_length_eq_zero (Nat.le_zero.mp enough)
      rw [empty]
      exact layout_done file counts
  | succ fuel ih =>
      rw [lexFrom.eq_def] at errors ⊢
      rw [startsFrom.eq_def]
      dsimp only at errors ⊢
      cases isNext : cursor.rest with
      | nil => exact layout_done file counts
      | cons c rest =>
          rw [isNext] at errors enough
          dsimp only at errors ⊢
          rw [List.append_eq_nil_iff] at errors
          obtain ⟨reads, left⟩ := reads_advance isNext
          rw [List.length_cons] at enough
          rcases lexAt_reads isNext errors.1 with
            ⟨skipped, none, next⟩ | ⟨spelling, token, one, emits⟩
          · have read := reads.read
            rw [isNext] at read
            rw [none, List.nil_append, next, read, List.map_nil, List.nil_append]
            rw [next] at errors
            have laid := ih (reads.counts position counts)
              (by rw [left]; omega) errors.2
            rw [left, none] at laid
            rcases skipped with isBlank | ⟨isReturn, after, newline⟩
            · exact laid.blank isBlank
            · rw [isReturn] at laid ⊢
              exact laid.lineBreak newline
          · have consumed := congrArg List.length (isNext.symm.trans emits.reads.whole)
            have some := List.length_pos_of_ne_nil emits.nonempty
            rw [List.length_cons, List.length_append] at consumed
            have laid := ih (emits.reads.counts position counts) (by omega)
              errors.2
            rw [one] at laid
            rw [← isNext, one, emits.reads.read]
            exact laid.emit counts emits

/-! ### What a layout says -/

theorem Layout.length (laid : Layout file position text tokens starts) :
    starts.length = tokens.length := by
  induction laid with
  | done => rfl
  | token _ _ _ _ _ ih => simp [ih]

theorem Layout.notBefore (laid : Layout file position text tokens starts) :
    ∀ start ∈ starts, position = start ∨ Precedes position start := by
  have placed (position : ℕ × ℕ) (gap : List Char) :
      position = positionAfter position gap ∨ Precedes position (positionAfter position gap) := by
    by_cases empty : gap = []
    · rw [empty]
      exact Or.inl rfl
    · exact Or.inr (precedes_positionAfter position empty)
  induction laid with
  | done isGap =>
      intro start member
      rw [List.mem_singleton.mp member]
      exact placed _ _
  | @token position gap spelling rest token tokens starts _ nonempty _ _ _ ih =>
      intro other member
      rcases List.mem_cons.mp member with rfl | later
      · exact placed position gap
      · have behind := precedes_positionAfter position
          (fun empty => nonempty (List.append_eq_nil_iff.mp empty).2 : gap ++ spelling ≠ [])
        rcases ih other later with same | precedes
        · rw [← same]
          exact Or.inr behind
        · exact Or.inr (behind.trans precedes)

theorem Layout.ordered (laid : Layout file position text tokens starts) :
    starts.Pairwise Precedes := by
  induction laid with
  | done => exact List.pairwise_singleton _ _
  | @token position gap spelling rest token tokens starts _ nonempty _ _ others
      ih =>
      refine List.pairwise_cons.mpr ⟨fun other member => ?_, ih⟩
      have behind := precedes_positionAfter (positionAfter position gap) nonempty
      rw [← positionAfter_append] at behind
      rcases others.notBefore other member with start | precedes
      · rwa [← start]
      · exact behind.trans precedes

/-- Every token stands in the text where it starts, and is recorded in 32 bits. -/
theorem Layout.stands (laid : Layout file position text tokens starts) {entry : Token × (ℕ × ℕ)}
    (member : entry ∈ tokens.zip starts) : ∃ before spelling after,
      text = before ++ (spelling ++ after) ∧ Spells entry.1 spelling ∧
        entry.2 = positionAfter position before ∧ entry.1.location = recordedAt file entry.2 := by
  induction laid with
  | @done position gap isGap =>
      rw [List.mem_singleton.mp member]
      exact ⟨gap, [], [], by simp, ⟨rfl, rfl⟩, rfl, rfl⟩
  | @token position gap spelling rest other tokens starts _ _ spells location _
      ih =>
      rcases List.mem_cons.mp member with rfl | later
      · exact ⟨gap, spelling, rest, rfl, spells, rfl, location⟩
      · obtain ⟨before, shown, after, whole, spelled, placed, recorded⟩ :=
          ih later
        refine ⟨gap ++ spelling ++ before, shown, after, by simp [whole], spelled, ?_, recorded⟩
        rw [placed, ← positionAfter_append]

theorem Layout.recorded (laid : Layout file position text tokens starts) :
    tokens.map Token.location = starts.map (recordedAt file) := by
  induction laid with
  | done => rfl
  | token _ _ _ placed _ ih =>
      rw [List.map_cons, List.map_cons, placed, ih]

/-! ### The characters of a string -/

variable {quote : Char} {content value chars : List Char}

theorem HasValue.raws {bytes : List Char} (plain : ∀ c ∈ bytes, c ≠ quote ∧ c ≠ backslash)
    (others : HasValue quote content value) :
    HasValue quote (bytes ++ content) (bytes ++ value) := by
  induction bytes with
  | nil => exact others
  | cons c bytes ih =>
      obtain ⟨notQuote, notEscape⟩ := plain c List.mem_cons_self
      exact .raw notQuote notEscape
        (ih fun c member => plain c (List.mem_cons_of_mem _ member))

/-- The bytes of a character other than two ASCII characters are other than these. -/
theorem encodeChar_plain (isQuote : IsAscii quote) (notQuote : c ≠ quote)
    (notEscape : c ≠ backslash) : ∀ byte ∈ encodeChar c, byte ≠ quote ∧ byte ≠ backslash := by
  intro byte member
  by_cases ascii : IsAscii c
  · rw [encodeChar_ascii ascii] at member
    rw [List.mem_singleton.mp member]
    exact ⟨notQuote, notEscape⟩
  · have foreign := not_ascii_of_mem ascii member
    refine ⟨fun same => foreign (same ▸ isQuote), fun same => foreign ?_⟩
    rw [same]
    decide

/-- Escapes of one character are ASCII, what they stand for as well. -/
theorem shortEscape_ascii {esc : Char} (isEscape : shortEscape esc = some c) :
    IsAscii esc ∧ IsAscii c := by
  unfold shortEscape at isEscape
  repeat' split at isEscape
  all_goals simp only [Option.some.injEq, reduceCtorEq] at isEscape
  · rename_i newline
    rw [newline, ← isEscape]
    decide
  · rename_i carriage
    rw [carriage, ← isEscape]
    decide
  · rename_i tab
    rw [tab, ← isEscape]
    decide
  · rename_i itself
    rw [← isEscape]
    rcases itself with rfl | rfl | rfl <;> decide

theorem unicodeDigits_facts {mark : Char} {count : ℕ} (isMark : unicodeDigits mark = some count) :
    IsAscii mark ∧ shortEscape mark = none := by
  unfold unicodeDigits at isMark
  split at isMark
  · rename_i four
    rw [four]
    decide
  · split at isMark
    · rename_i eight
      rw [eight]
      decide
    · cases isMark

theorem digitValue_ascii {nibble : ℕ} (found : digitValue c = some nibble) : IsAscii c := by
  unfold digitValue at found
  have bounded {last : Char} (below : c ≤ last) (ascii : last.toNat < 128) : IsAscii c :=
    Nat.lt_of_le_of_lt below ascii
  repeat' split at found
  · rename_i digit
    exact bounded digit.2 (by decide)
  · rename_i small
    exact bounded small.2 (by decide)
  · rename_i large
    exact bounded large.2 (by decide)
  · cases found

theorem hexNumber_ascii {digits : List Char} {number result : ℕ}
    (isNumber : hexNumber number digits = some result) : ∀ c ∈ digits, IsAscii c := by
  induction digits generalizing number with
  | nil => simp
  | cons c digits ih =>
      obtain ⟨nibble, found, rest⟩ := Option.bind_eq_some_iff.mp isNumber
      intro other member
      rcases List.mem_cons.mp member with rfl | later
      · exact digitValue_ascii found
      · exact ih rest other later

theorem Denotes.hasValue (isQuote : IsAscii quote) (denotes : Denotes quote content chars) :
    HasValue quote content (encode chars) := by
  induction denotes with
  | nil => exact .nil
  | raw notQuote notEscape others ih =>
      exact ih.raws (encodeChar_plain isQuote notQuote notEscape)
  | short isEscape others ih =>
      rw [encode_cons, encodeChar_ascii (shortEscape_ascii isEscape).2]
      exact .short isEscape ih
  | unicode isMark isNumber others ih =>
      exact .unicode isMark isNumber ih

theorem HasValue.unique {content' value' : List Char} (first : HasValue quote content value)
    (second : HasValue quote content' value') (same : content = content') : value = value' := by
  induction first generalizing content' value' with
  | nil =>
      cases second with
      | nil => rfl
      | raw | short | unicode => cases same
  | raw notQuote notEscape others ih =>
      cases second with
      | nil => cases same
      | raw _ _ others' =>
          rw [List.cons.injEq] at same
          rw [same.1, ih others' same.2]
      | short | unicode => exact absurd (List.cons.inj same).1 notEscape
  | short isEscape others ih =>
      cases second with
      | nil => cases same
      | raw _ notEscape _ => exact absurd (List.cons.inj same).1.symm notEscape
      | short isEscape' others' =>
          rw [List.cons.injEq, List.cons.injEq] at same
          rw [same.2.1, isEscape'] at isEscape
          rw [← Option.some.inj isEscape, ih others' same.2.2]
      | unicode isMark _ _ =>
          rw [List.cons.injEq, List.cons.injEq] at same
          rw [same.2.1, (unicodeDigits_facts isMark).2] at isEscape
          cases isEscape
  | unicode isMark isNumber others ih =>
      cases second with
      | nil => cases same
      | raw _ notEscape _ => exact absurd (List.cons.inj same).1.symm notEscape
      | short isEscape _ =>
          rw [List.cons.injEq, List.cons.injEq] at same
          rw [← same.2.1, (unicodeDigits_facts isMark).2] at isEscape
          cases isEscape
      | unicode isMark' isNumber' others' =>
          rw [List.cons.injEq, List.cons.injEq] at same
          rw [same.2.1, isMark', Option.some.injEq] at isMark
          obtain ⟨digits, rest⟩ := List.append_inj same.2.2 isMark.symm
          rw [digits, isNumber', Option.some.injEq] at isNumber
          rw [Char.ext (UInt32.toNat_inj.mp isNumber.symm), ih others' rest]

/-- The content of a string in the bytes of a text denotes characters. The bytes before the first
whole character belong to one that was read in part. -/
theorem HasValue.denotes (isQuote : IsAscii quote) {pending whole : List Char}
    (hasValue : HasValue quote content value) (same : content = pending ++ encode whole)
    (foreign : ∀ c ∈ pending, ¬IsAscii c) :
    ∃ chars, Denotes quote (encode whole) chars ∧ value = pending ++ encode chars := by
  have isEscape : IsAscii backslash := by decide
  have escapes {second : Char} {others pending whole : List Char} (ascii : IsAscii second)
      (foreign : ∀ c ∈ pending, ¬IsAscii c)
      (same : backslash :: second :: others = pending ++ encode whole) :
      pending = [] ∧ ∃ last, whole = backslash :: second :: last ∧ others = encode last := by
    cases pending with
    | nil =>
        obtain ⟨last, rfl, rfl⟩ := @encode_leading whole [backslash, second] others
          (by simp [isEscape, ascii]) same.symm
        exact ⟨rfl, last, rfl, rfl⟩
    | cons c pending =>
        rw [List.cons_append, List.cons.injEq] at same
        exact absurd (same.1 ▸ isEscape) (foreign c List.mem_cons_self)
  induction hasValue generalizing pending whole with
  | nil =>
      obtain ⟨rfl, empty⟩ := List.append_eq_nil_iff.mp same.symm
      rw [encode_eq_nil.mp empty]
      exact ⟨[], .nil, rfl⟩
  | @raw c content value notQuote notEscape others ih =>
      cases pending with
      | cons byte pending =>
          rw [List.cons_append, List.cons.injEq] at same
          obtain ⟨chars, denotes, rfl⟩ := ih same.2
            (fun c member => foreign c (List.mem_cons_of_mem _ member))
          exact ⟨chars, denotes, by rw [same.1, List.cons_append]⟩
      | nil =>
          cases whole with
          | nil => cases same
          | cons first whole =>
              rw [List.nil_append, encode_cons] at same
              by_cases ascii : IsAscii first
              · rw [encodeChar_ascii ascii, List.singleton_append, List.cons.injEq] at same
                obtain ⟨chars, denotes, rfl⟩ := @ih [] whole same.2 (by simp)
                rw [same.1] at notQuote notEscape
                refine ⟨first :: chars, .raw notQuote notEscape denotes, ?_⟩
                rw [encode_cons, encodeChar_ascii ascii, same.1]
                rfl
              · obtain ⟨byte, bytes, spelled⟩ := List.exists_cons_of_ne_nil
                  (@encodeChar_ne_nil first)
                have foreign' : ∀ c ∈ bytes, ¬IsAscii c := fun c member =>
                  not_ascii_of_mem ascii (spelled ▸ List.mem_cons_of_mem _ member)
                rw [spelled, List.cons_append, List.cons.injEq] at same
                obtain ⟨chars, denotes, rfl⟩ := ih same.2 foreign'
                refine ⟨first :: chars, .raw (fun isFirst => ascii (isFirst ▸ isQuote))
                  (fun isFirst => ascii (isFirst ▸ isEscape)) denotes, ?_⟩
                rw [encode_cons, spelled, same.1]
                rfl
  | @short esc c content value shortened others ih =>
      obtain ⟨ascii, isAscii⟩ := shortEscape_ascii shortened
      obtain ⟨rfl, last, rfl, rest⟩ := escapes ascii foreign same
      obtain ⟨chars, denotes, rfl⟩ := @ih [] last rest (by simp)
      refine ⟨c :: chars, ?_, ?_⟩
      · rw [encode_cons, encode_cons, encodeChar_ascii isEscape, encodeChar_ascii ascii]
        exact .short shortened denotes
      · rw [encode_cons, encodeChar_ascii isAscii]
        rfl
  | @unicode mark digits content value c isMark isNumber others ih =>
      have ascii := (unicodeDigits_facts isMark).1
      obtain ⟨rfl, last, rfl, rest⟩ := escapes ascii foreign same
      obtain ⟨left, rfl, after⟩ := encode_leading (hexNumber_ascii isNumber) rest.symm
      obtain ⟨chars, denotes, rfl⟩ := @ih [] left after (by simp)
      refine ⟨c :: chars, ?_, rfl⟩
      rw [encode_cons, encode_cons, encodeChar_ascii isEscape, encodeChar_ascii ascii,
        encode_append, encode_ascii (hexNumber_ascii isNumber)]
      exact @Denotes.unicode quote mark digits (encode left) chars c isMark isNumber denotes

/-! ### Lossless lexing -/

/-- What the tokens of a text tell of it, where they start at these positions. -/
structure Lossless (file : String) (text : List Char) (tokens : List Token)
    (starts : List (ℕ × ℕ)) : Prop where
  laidOut : Layout file (1, 1) text tokens starts
  recorded : tokens.map Token.position = starts
  ordered : tokens.Pairwise fun first second => Precedes first.position second.position
  verbatim : ∀ token ∈ tokens, IsVerbatim token.kind →
    token.text.toList <+: textAt text token.position
  strings : ∀ token ∈ tokens, token.kind = .string → ∃ quote content,
    SpellsString (quote :: (content ++ [quote])) token.text.toList quote content ∧
      quote :: (content ++ [quote]) <+: textAt text token.position ∧
      (∀ chars, Denotes quote content chars → token.text.toList = encode chars) ∧
      ((∃ whole, text = encode whole) → ∃ chars, Denotes quote content chars)

theorem Layout.textAt (laid : Layout file (1, 1) text tokens starts)
    (recorded : tokens.map Token.position = starts) {token : Token} (member : token ∈ tokens) :
    ∃ before spelling after, text = before ++ (spelling ++ after) ∧
      Spells token spelling ∧ spelling <+: textAt text token.position := by
  have entries : tokens.zip (tokens.map Token.position) =
      tokens.map fun token => (token, token.position) := by
    simpa using (List.zip_map' : (tokens.map id).zip (tokens.map Token.position) = _)
  have entry : (token, token.position) ∈ tokens.zip starts := by
    rw [← recorded, entries]
    exact List.mem_map_of_mem member
  obtain ⟨before, spelling, after, whole, spells, placed, -⟩ := laid.stands entry
  have stands : StandsAt text token.position (spelling ++ after) := by
    rw [show token.position = positionAfter (1, 1) before from placed]
    refine StandsAt.after ?_
    rw [← whole]
    exact standsAt_start text
  exact ⟨before, spelling, after, whole, spells, by rw [stands.textAt]; exact List.prefix_append _ _⟩

theorem spells_text {token : Token} {spelling : List Char} (spells : Spells token spelling)
    (verbatim : IsVerbatim token.kind) : token.text.toList = spelling := by
  obtain ⟨notEof, notNewline, notMarker, notString⟩ := verbatim
  unfold Spells at spells
  split at spells
  · rename_i kind
    exact absurd kind notEof
  · rename_i kind
    exact absurd kind notNewline
  · rename_i kind
    exact absurd kind notMarker
  · rename_i kind
    exact absurd kind notString
  · exact spells

/-- A layout whose tokens all start in range is recorded as it is. -/
theorem Layout.lossless (laid : Layout file (1, 1) text tokens starts)
    (inRange : ∀ start ∈ starts, InRange start) : Lossless file text tokens starts := by
  have recorded : tokens.map Token.position = starts := by
    have locations := congrArg (List.map SourceLocation.position) laid.recorded
    rw [List.map_map, List.map_map] at locations
    refine locations.trans ((List.map_congr_left fun start member => ?_).trans (List.map_id starts))
    exact position_recordedAt (inRange start member)
  refine ⟨laid, recorded, ?_, fun token member verbatim => ?_, fun token member isString => ?_⟩
  · rw [← List.pairwise_map, recorded]
    exact laid.ordered
  · obtain ⟨before, spelling, after, -, spells, shown⟩ := laid.textAt recorded member
    rw [spells_text spells verbatim]
    exact shown
  · obtain ⟨before, spelling, after, whole, spells, shown⟩ := laid.textAt recorded member
    rw [Spells, isString] at spells
    obtain ⟨quote, content, string⟩ := spells
    have spelled := string.spelled
    subst spelled
    have isQuote : IsAscii quote := by
      rcases string.isQuote with rfl | rfl <;> decide
    refine ⟨quote, content, string, shown, fun chars denotes => ?_, fun isUtf8 => ?_⟩
    · exact string.hasValue.unique (denotes.hasValue isQuote) rfl
    · obtain ⟨chars, encoded⟩ := isUtf8
      have opened : encode chars = before ++ quote :: (content ++ quote :: after) := by
        rw [← encoded, whole]
        simp
      obtain ⟨_, last, -, -, rest⟩ := encode_cut isQuote opened
      obtain ⟨inside, _, -, same, -⟩ := encode_cut isQuote rest.symm
      obtain ⟨inner, denotes, -⟩ := @HasValue.denotes _ _ _ isQuote [] inside string.hasValue same
        (by simp)
      exact ⟨inner, same ▸ denotes⟩

theorem lex_layout {file text : String} (accepted : (lex file text).2 = []) :
    Layout file (1, 1) text.toList (lex file text).1 (tokenStarts file text) :=
  @lexFrom_layout file (1, 1) text.toList.length none ⟨text.toList, 1, 1⟩ ⟨rfl, rfl⟩
    (Nat.le_refl _) accepted

/-- **The tokens of a text without lexical errors account for all of it exactly when 32 bits hold
every line and column one starts at**: they stand in order where they are recorded, with blanks and
the carriage returns of line breaks between them, and the value of a string is the UTF-8 bytes of
the characters its spelling denotes. -/
theorem lex_lossless_iff (file text : String) (accepted : (lex file text).2 = []) :
    Lossless file text.toList (lex file text).1 (tokenStarts file text) ↔
      ∀ start ∈ tokenStarts file text, InRange start := by
  constructor
  · intro lossless start member
    rw [← lossless.recorded] at member
    obtain ⟨token, _, rfl⟩ := List.mem_map.mp member
    exact inRange_position token.location
  · exact (lex_layout accepted).lossless

/-- A text of fewer than 2³² lines and columns starts its tokens in range. -/
theorem tokenStarts_inRange {file text : String} (accepted : (lex file text).2 = [])
    (small : ∀ before, before <+: text.toList → InRange (positionAfter (1, 1) before)) :
    ∀ start ∈ tokenStarts file text, InRange start := by
  intro start member
  have laid := lex_layout accepted
  obtain ⟨index, inside, rfl⟩ := List.mem_iff_getElem.mp member
  have inTokens : index < (lex file text).1.length := laid.length ▸ inside
  have entry : ((lex file text).1[index], (tokenStarts file text)[index]) ∈
      (lex file text).1.zip (tokenStarts file text) := by
    rw [← List.getElem_zip (h := by rw [List.length_zip]; omega)]
    exact List.getElem_mem _
  obtain ⟨before, spelling, after, whole, -, placed, -⟩ := laid.stands entry
  rw [show (tokenStarts file text)[index] = positionAfter (1, 1) before from placed]
  exact small before ⟨_, whole.symm⟩

/-- A string with escapes and a line break, and a number behind it. -/
def escapedText : String :=
  .ofList ['x', ' ', doubleQuote, 'a', '\n', backslash, 'u', '0', '0', 'e', '9', doubleQuote, '1',
    '.', '5', 'e', '3']

theorem lex_lossless_iff_escaped :
    (∀ start ∈ tokenStarts "f.dsdl" escapedText, InRange start) ∧
      Lossless "f.dsdl" escapedText.toList (lex "f.dsdl" escapedText).1
        (tokenStarts "f.dsdl" escapedText) := by
  have inRange : ∀ start ∈ tokenStarts "f.dsdl" escapedText, InRange start := by decide +kernel
  exact ⟨inRange, (lex_lossless_iff "f.dsdl" escapedText (by decide +kernel)).mpr inRange⟩

def blankedText (blanks : ℕ) : List Char :=
  'a' :: (List.replicate blanks ' ' ++ ['b'])

theorem lexed_blanks (file : String) (rest : List Char) (line column : UInt32) (blanks : ℕ) :
    Lexed file ⟨List.replicate blanks ' ' ++ rest, line, column⟩ []
      ⟨rest, line, column + .ofNat blanks⟩ := by
  induction blanks generalizing column with
  | zero =>
      have none : column + .ofNat 0 = column := UInt32.add_zero column
      rw [none]
      exact .refl _
  | succ blanks ih =>
      have first := @lexed_space file (List.replicate blanks ' ' ++ rest) line column
      have others := ih (column + 1)
      rw [UInt32.add_assoc, UInt32.add_comm 1, ← UInt32.ofNat_one, ← UInt32.ofNat_add] at others
      exact first.trans others

theorem lex_blankedText (file : String) (blanks : ℕ) (some : 0 < blanks) :
    lex file (.ofList (blankedText blanks)) =
      ([tokenAt file ⟨[], 1, 1⟩ .identifier ['a'],
        tokenAt file ⟨[], 1, 2 + .ofNat blanks⟩ .identifier ['b'],
        tokenAt file ⟨[], 1, 2 + .ofNat blanks + 1⟩ .eof []], []) := by
  have spaced : EndsWord (List.replicate blanks ' ' ++ ['b']) := by
    obtain ⟨more, rfl⟩ := Nat.exists_eq_add_one_of_ne_zero some.ne'
    intro c after same
    rw [List.replicate_succ, List.cons_append, List.cons.injEq] at same
    rw [← same.1]
    decide
  have ended : EndsWord [] := fun _ _ same => by cases same
  have first := @lexed_name file ['a'] _ (by decide) spaced 1 1
  have second := @lexed_name file ['b'] [] (by decide) ended 1 (2 + .ofNat blanks)
  exact ((first.trans (lexed_blanks file ['b'] 1 2 blanks)).trans second).lex

/-- Behind 2³² − 1 blanks the second name is recorded where the first is: the positions do not
increase, and the name is not the text at its own. -/
theorem lex_lossless_wraps : ∃ tokens : List Token,
    lex "f.dsdl" (.ofList (blankedText (2 ^ 32 - 1))) = (tokens, []) ∧
      ¬(tokens.Pairwise fun first second => Precedes first.position second.position) ∧
      ∃ token ∈ tokens, IsVerbatim token.kind ∧
        ¬token.text.toList <+: textAt (blankedText (2 ^ 32 - 1)) token.position := by
  have column : (2 : UInt32) + .ofNat (2 ^ 32 - 1) = 1 := by decide
  have lexed := lex_blankedText "f.dsdl" (2 ^ 32 - 1) (by decide)
  rw [column] at lexed
  refine ⟨_, lexed, fun ordered => ?_, _, List.mem_cons_of_mem _ List.mem_cons_self,
    by decide, ?_⟩
  · exact absurd ((List.pairwise_cons.mp ordered).1 _ List.mem_cons_self) (by decide)
  · have shown (blanks : ℕ) : ¬['b'] <+: textAt (blankedText blanks) (1, 1) := fun isPrefix =>
      absurd (List.cons_prefix_cons.mp isPrefix).1 (by decide)
    exact shown _

end LlvmDsdl.Frontend
