import LlvmDsdl.Frontend.Lexer
import LlvmDsdl.Library.Utf8Text

/-!
Contract: where the tokens of a text stand in it (`Frontend/Lexer.cpp`).

Owns: positions in a text and how 32 bits record them, the text at a position,
where the lexer's tokens start, how a token of each kind is spelled, the value a
string's content has, and the layout of tokens and blanks that makes up a text.

Positions are natural numbers: the lines and columns a text really has.
-/

namespace LlvmDsdl.Frontend

open LexerCursor Library.Utf8Text

/-- The line and column behind a byte at a line and column. -/
def positionStep (position : ℕ × ℕ) (c : Char) : ℕ × ℕ :=
  if c = '\n' then (position.1 + 1, 1) else (position.1, position.2 + 1)

/-- The line and column behind a text. -/
def positionAfter (position : ℕ × ℕ) (text : List Char) : ℕ × ℕ :=
  text.foldl positionStep position

/-- An earlier line, or an earlier column of the same line. -/
def Precedes (first second : ℕ × ℕ) : Prop :=
  first.1 < second.1 ∨ first.1 = second.1 ∧ first.2 < second.2

instance (first second : ℕ × ℕ) : Decidable (Precedes first second) :=
  inferInstanceAs (Decidable (_ ∨ _))

def SourceLocation.position (location : SourceLocation) : ℕ × ℕ :=
  (location.line.toNat, location.column.toNat)

def Token.position (token : Token) : ℕ × ℕ :=
  token.location.position

/-- What 32 bits hold of a position. -/
def recordedAt (file : String) (position : ℕ × ℕ) : SourceLocation :=
  ⟨file, .ofNat position.1, .ofNat position.2⟩

/-- 32 bits hold the position. -/
def InRange (position : ℕ × ℕ) : Prop :=
  position.1 < 2 ^ 32 ∧ position.2 < 2 ^ 32

instance (position : ℕ × ℕ) : Decidable (InRange position) :=
  inferInstanceAs (Decidable (_ ∧ _))

theorem position_recordedAt {file : String} {position : ℕ × ℕ} (inRange : InRange position) :
    (recordedAt file position).position = position :=
  Prod.ext (UInt32.toNat_ofNat_of_lt' inRange.1) (UInt32.toNat_ofNat_of_lt' inRange.2)

theorem inRange_position (location : SourceLocation) : InRange location.position :=
  ⟨location.line.toNat_lt, location.column.toNat_lt⟩

theorem Precedes.trans {first second third : ℕ × ℕ} (before : Precedes first second)
    (after : Precedes second third) : Precedes first third := by
  unfold Precedes at *
  omega

theorem precedes_step (position : ℕ × ℕ) (c : Char) :
    Precedes position (positionStep position c) := by
  unfold Precedes positionStep
  split
  · exact Or.inl (Nat.lt_succ_self _)
  · exact Or.inr ⟨rfl, Nat.lt_succ_self _⟩

theorem positionAfter_append (position : ℕ × ℕ) (text more : List Char) :
    positionAfter position (text ++ more) = positionAfter (positionAfter position text) more :=
  List.foldl_append

theorem precedes_positionAfter (position : ℕ × ℕ) {text : List Char} (nonempty : text ≠ []) :
    Precedes position (positionAfter position text) := by
  induction text generalizing position with
  | nil => exact absurd rfl nonempty
  | cons c text ih =>
      have first := precedes_step position c
      cases text with
      | nil => exact first
      | cons next text => exact first.trans (ih _ (List.cons_ne_nil _ _))

/-- What stands behind the first line of a text. -/
def nextLine (text : List Char) : List Char :=
  (text.dropWhile (· ≠ '\n')).drop 1

def dropLines : ℕ → List Char → List Char
  | 0, text => text
  | lines + 1, text => nextLine (dropLines lines text)

/-- The text from a line and a column on, both counted from one. -/
def textAt (text : List Char) (position : ℕ × ℕ) : List Char :=
  (dropLines (position.1 - 1) text).drop (position.2 - 1)

/-- A position in a text whose line starts with what was read of it. -/
structure StandsAt (text : List Char) (position : ℕ × ℕ) (rest : List Char) : Prop where
  line : 1 ≤ position.1
  starts : ∃ read, '\n' ∉ read ∧ position.2 = read.length + 1 ∧
    dropLines (position.1 - 1) text = read ++ rest

variable {text rest : List Char} {position : ℕ × ℕ}

theorem StandsAt.textAt (stands : StandsAt text position rest) : textAt text position = rest := by
  obtain ⟨read, -, column, whole⟩ := stands.starts
  rw [Frontend.textAt, whole, column, Nat.add_sub_cancel, List.drop_left]

theorem StandsAt.step {c : Char} (stands : StandsAt text position (c :: rest)) :
    StandsAt text (positionStep position c) rest := by
  obtain ⟨read, plain, column, whole⟩ := stands.starts
  have line := stands.line
  unfold positionStep
  split
  · rename_i newline
    refine ⟨Nat.le_add_left _ _, [], List.not_mem_nil, rfl, ?_⟩
    have lines : position.1 + 1 - 1 = position.1 - 1 + 1 := by omega
    have notNewline : ∀ c ∈ read, decide (c ≠ '\n') = true := fun c member =>
      decide_eq_true fun same => plain (same ▸ member)
    rw [lines, dropLines, whole, newline, nextLine, List.dropWhile_append_of_pos notNewline]
    rfl
  · rename_i notNewline
    refine ⟨line, read ++ [c], ?_, ?_, ?_⟩
    · simp [plain, Ne.symm notNewline]
    · simp [column]
    · rw [whole, List.append_assoc]
      rfl

theorem StandsAt.after {start : List Char} (stands : StandsAt text position (start ++ rest)) :
    StandsAt text (positionAfter position start) rest := by
  induction start generalizing position with
  | nil => exact stands
  | cons c start ih => exact ih stands.step

theorem standsAt_start (text : List Char) : StandsAt text (1, 1) text :=
  ⟨Nat.le_refl _, [], List.not_mem_nil, rfl, rfl⟩

def shortEscape (c : Char) : Option Char :=
  if c = 'n' then some '\n'
  else if c = 'r' then some (Char.ofNat 13)
  else if c = 't' then some (Char.ofNat 9)
  else if c = backslash ∨ c = singleQuote ∨ c = doubleQuote then some c
  else none

/-- The mark of a Unicode escape and the number of its digits. -/
def unicodeDigits (c : Char) : Option ℕ :=
  if c = 'u' then some 4 else if c = 'U' then some 8 else none

/-- The number that hexadecimal digits spell behind others. -/
def hexNumber : ℕ → List Char → Option ℕ
  | value, [] => some value
  | value, c :: digits => (digitValue c).bind fun nibble => hexNumber (value * 16 + nibble) digits

/-- The value of a string's content, in bytes: a byte outside of escapes stands for itself. -/
inductive HasValue (quote : Char) : List Char → List Char → Prop
  | nil : HasValue quote [] []
  | raw {c : Char} {content value : List Char} (notQuote : c ≠ quote) (notEscape : c ≠ backslash)
      (others : HasValue quote content value) : HasValue quote (c :: content) (c :: value)
  | short {esc c : Char} {content value : List Char} (isEscape : shortEscape esc = some c)
      (others : HasValue quote content value) :
      HasValue quote (backslash :: esc :: content) (c :: value)
  | unicode {mark : Char} {digits content value : List Char} {c : Char}
      (isMark : unicodeDigits mark = some digits.length)
      (isNumber : hexNumber 0 digits = some c.toNat) (others : HasValue quote content value) :
      HasValue quote (backslash :: mark :: (digits ++ content)) (encodeChar c ++ value)

/-- The characters that a string's content denotes, where it is the bytes of a text. -/
inductive Denotes (quote : Char) : List Char → List Char → Prop
  | nil : Denotes quote [] []
  | raw {c : Char} {content chars : List Char} (notQuote : c ≠ quote) (notEscape : c ≠ backslash)
      (others : Denotes quote content chars) : Denotes quote (encodeChar c ++ content) (c :: chars)
  | short {esc c : Char} {content chars : List Char} (isEscape : shortEscape esc = some c)
      (others : Denotes quote content chars) :
      Denotes quote (backslash :: esc :: content) (c :: chars)
  | unicode {mark : Char} {digits content chars : List Char} {c : Char}
      (isMark : unicodeDigits mark = some digits.length)
      (isNumber : hexNumber 0 digits = some c.toNat) (others : Denotes quote content chars) :
      Denotes quote (backslash :: mark :: (digits ++ content)) (c :: chars)

structure SpellsString (spelling value : List Char) (quote : Char) (content : List Char) :
    Prop where
  isQuote : quote = singleQuote ∨ quote = doubleQuote
  spelled : spelling = quote :: (content ++ [quote])
  hasValue : HasValue quote content value

def Spells (token : Token) (spelling : List Char) : Prop :=
  match token.kind with
  | .eof => spelling = [] ∧ token.text = ""
  | .newline => spelling = ['\n'] ∧ token.text = .ofList [backslash, 'n']
  | .serviceResponseMarker =>
      (∃ more, spelling = List.replicate (more + 3) '-') ∧ token.text = "---"
  | .string => ∃ quote content, SpellsString spelling token.text.toList quote content
  | _ => token.text.toList = spelling

/-- What may stand before a token: blanks, and the carriage return of a line break. -/
inductive Gap : List Char → List Char → Prop
  | nil (rest : List Char) : Gap [] rest
  | blank {c : Char} {gap rest : List Char} (isBlank : c = ' ' ∨ c = Char.ofNat 9)
      (others : Gap gap rest) : Gap (c :: gap) rest
  | lineBreak (rest : List Char) : Gap [Char.ofNat 13] ('\n' :: rest)

/-- A text from a position on, made of tokens in order that start where it says, and of
gaps before them; a token is recorded in 32 bits. -/
inductive Layout (file : String) : ℕ × ℕ → List Char → List Token → List (ℕ × ℕ) → Prop
  | done {position : ℕ × ℕ} {gap : List Char} (isGap : Gap gap []) :
      Layout file position gap [⟨.eof, "", recordedAt file (positionAfter position gap)⟩]
        [positionAfter position gap]
  | token {position : ℕ × ℕ} {gap spelling rest : List Char} {token : Token}
      {tokens : List Token} {starts : List (ℕ × ℕ)} (isGap : Gap gap (spelling ++ rest))
      (nonempty : spelling ≠ []) (spells : Spells token spelling)
      (placed : token.location = recordedAt file (positionAfter position gap))
      (others : Layout file (positionAfter position (gap ++ spelling)) rest tokens starts) :
      Layout file position (gap ++ (spelling ++ rest)) (token :: tokens)
        (positionAfter position gap :: starts)

/-- The positions at which a run of the lexer starts tokens, from a cursor at a position. -/
def startsFrom (file : String) : ℕ → Option Token → LexerCursor → ℕ × ℕ → List (ℕ × ℕ)
  | 0, _, _, position => [position]
  | fuel + 1, last, cursor, position =>
      match cursor.rest with
      | [] => [position]
      | c :: _ =>
          let step := lexAt file last cursor c
          let read := cursor.rest.take (cursor.rest.length - step.next.rest.length)
          step.tokens.map (fun _ => position) ++
            startsFrom file fuel (step.tokens.getLast?.or last) step.next
              (positionAfter position read)

def tokenStarts (file text : String) : List (ℕ × ℕ) :=
  startsFrom file text.toList.length none ⟨text.toList, 1, 1⟩ (1, 1)

/-- The position of a token among some, by its index. -/
def startAt (starts : List (ℕ × ℕ)) (index : ℕ) : ℕ × ℕ :=
  starts[index]?.getD (1, 1)

theorem startAt_drop (starts : List (ℕ × ℕ)) (first index : ℕ) :
    startAt (starts.drop first) index = startAt starts (first + index) := by
  rw [startAt, startAt, List.getElem?_drop]

end LlvmDsdl.Frontend
