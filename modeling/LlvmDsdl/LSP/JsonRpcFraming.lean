import LlvmDsdl.LSP.JsonRpcIO

/-!
Contract: reads of framed messages stay in step with the stream.

Owns: header blocks and frames as byte sequences, what a read that stays in step
has consumed, the bounds of the header reader, and the round trip of writes.
-/

namespace LlvmDsdl.LSP

open Library Library.Transition Library.Framing

variable {Json : Type}

/-! ### Frames -/

/-- Lines with text in them, then a blank one; each is ended by a line feed. -/
structure HeaderBlock where
  lines : List (List UInt8)
  blank : List UInt8
  lines_terminated : ∀ line ∈ lines, lineFeed ∉ line
  lines_filled : ∀ line ∈ lines, stripReturn line ≠ []
  blank_terminated : lineFeed ∉ blank
  blank_empty : stripReturn blank = []

namespace HeaderBlock

def bytes (block : HeaderBlock) : List UInt8 :=
  block.lines.flatMap (fun line => line ++ [lineFeed]) ++ (block.blank ++ [lineFeed])

/-- The last length that a header line states, from `initial`. -/
def lengthFrom (initial : ℕ) (block : HeaderBlock) : ℕ :=
  block.lines.foldl
    (fun length line => (parseContentLengthHeader (stripReturn line)).getD length) initial

def contentLength (block : HeaderBlock) : ℕ :=
  block.lengthFrom 0

end HeaderBlock

/-- A header block and exactly as many bytes as it states. -/
structure Frame where
  block : HeaderBlock
  payload : List UInt8
  payload_length : payload.length = block.contentLength

def Frame.bytes (frame : Frame) : List UInt8 :=
  frame.block.bytes ++ frame.payload

/-! ### The header reader -/

theorem length_le_stripReturn (line : List UInt8) :
    line.length ≤ (stripReturn line).length + 1 := by
  unfold stripReturn
  split_ifs
  · rw [List.length_dropLast]
    omega
  · omega

namespace HeaderReader

theorem get_reading {reader next : HeaderReader} {byte : UInt8}
    (reads : reader.get byte = .inl next) :
    (byte ≠ lineFeed ∧ reader.line.length < maxHeaderLineBytes ∧
        next = { reader with line := reader.line ++ [byte] }) ∨
      (byte = lineFeed ∧ stripReturn reader.line ≠ [] ∧
        reader.headerBytesTotal + ((stripReturn reader.line).length + 2) ≤ maxHeaderBytes ∧
        next =
          { line := []
            headerBytesTotal :=
              reader.headerBytesTotal + ((stripReturn reader.line).length + 2)
            hasHeaders := true
            contentLength := (parseContentLengthHeader (stripReturn reader.line)).getD
              reader.contentLength }) := by
  unfold get acceptLine at reads
  by_cases ends : byte = lineFeed
  · right
    rw [if_pos ends] at reads
    dsimp only at reads
    split_ifs at reads with tooLong empty
    exact ⟨ends, empty, Nat.le_of_not_lt tooLong, (Sum.inl.inj reads).symm⟩
  · left
    rw [if_neg ends] at reads
    split_ifs at reads with full
    exact ⟨ends, Nat.lt_of_not_le full, (Sum.inl.inj reads).symm⟩

theorem get_block {reader final : HeaderReader} {byte : UInt8}
    (stops : reader.get byte = .inr (.block final)) :
    byte = lineFeed ∧ stripReturn reader.line = [] ∧
      reader.headerBytesTotal + 2 ≤ maxHeaderBytes ∧
      final = { reader with line := [], headerBytesTotal := reader.headerBytesTotal + 2 } := by
  unfold get acceptLine at stops
  by_cases ends : byte = lineFeed
  · rw [if_pos ends] at stops
    dsimp only at stops
    split_ifs at stops with tooLong empty
    · cases stops
    · rw [empty] at stops tooLong
      cases stops
      exact ⟨ends, empty, Nat.le_of_not_lt tooLong, rfl⟩
  · rw [if_neg ends] at stops
    split_ifs at stops with full
    cases stops

/-- What a reader that reports a block has taken, counting the line it had begun. -/
theorem run_block {reader final : HeaderReader} {bytes rest : List UInt8}
    (begun : lineFeed ∉ reader.line) (ran : reader.run bytes = (.block final, rest)) :
    ∃ block : HeaderBlock, reader.line ++ bytes = block.bytes ++ rest ∧
      final.contentLength = block.lengthFrom reader.contentLength ∧
      (final.hasHeaders = true → reader.hasHeaders = true ∨ block.lines ≠ []) ∧
      reader.headerBytesTotal + block.bytes.length ≤ maxHeaderBytes := by
  induction bytes generalizing reader with
  | nil => cases ran
  | cons byte later ih =>
      unfold run at ran
      cases taken : reader.get byte with
      | inl next =>
          rw [taken] at ran
          rcases get_reading taken with ⟨inside, _, rfl⟩ | ⟨ends, filled, _, rfl⟩
          · have extended : lineFeed ∉ reader.line ++ [byte] := by
              intro member
              rcases List.mem_append.mp member with earlier | last
              · exact begun earlier
              · exact inside (List.mem_singleton.mp last).symm
            have ⟨block, split, length, headers, total⟩ := ih extended ran
            rw [List.append_assoc] at split
            exact ⟨block, split, length, headers, total⟩
          · have ⟨block, split, length, _, total⟩ :=
              @ih _ List.not_mem_nil ran
            refine ⟨{
              lines := reader.line :: block.lines
              blank := block.blank
              lines_terminated := List.forall_mem_cons.mpr ⟨begun, block.lines_terminated⟩
              lines_filled := List.forall_mem_cons.mpr ⟨filled, block.lines_filled⟩
              blank_terminated := block.blank_terminated
              blank_empty := block.blank_empty }, ?_, length, ?_, ?_⟩
            · rw [ends]
              unfold HeaderBlock.bytes at split ⊢
              rw [List.nil_append] at split
              rw [List.flatMap_cons, split]
              simp only [List.append_assoc, List.cons_append, List.nil_append]
            · intro _
              exact Or.inr (List.cons_ne_nil _ _)
            · unfold HeaderBlock.bytes at total ⊢
              have stripped := length_le_stripReturn reader.line
              rw [List.flatMap_cons]
              simp only [List.length_append, List.length_singleton] at total ⊢
              omega
      | inr stop =>
          rw [taken] at ran
          have same : stop = .block final := congrArg Prod.fst ran
          have remaining : later = rest := congrArg Prod.snd ran
          rw [same] at taken
          have ⟨ends, empty, total, finalIs⟩ := get_block taken
          refine ⟨{
            lines := []
            blank := reader.line
            lines_terminated := List.forall_mem_nil _
            lines_filled := List.forall_mem_nil _
            blank_terminated := begun
            blank_empty := empty }, ?_, ?_, ?_, ?_⟩
          · rw [ends, remaining]
            unfold HeaderBlock.bytes
            simp only [List.flatMap_nil, List.nil_append, List.append_assoc, List.cons_append]
          · rw [finalIs]
            rfl
          · rw [finalIs]
            exact Or.inl
          · unfold HeaderBlock.bytes
            have stripped := length_le_stripReturn reader.line
            rw [empty, List.length_nil] at stripped
            simp only [List.flatMap_nil, List.nil_append, List.length_append,
              List.length_singleton]
            omega

/-! ### Bounds of the header reader -/

/-- The reader's next state, while it goes on reading. -/
def next (reader : HeaderReader) (byte : UInt8) : Option HeaderReader :=
  (reader.get byte).getLeft?

/-- The buffered line and the section so far are within their bounds. -/
def Bounded (reader : HeaderReader) : Prop :=
  reader.line.length ≤ maxHeaderLineBytes ∧ reader.headerBytesTotal ≤ maxHeaderBytes

theorem next_bounded : Preserves next Bounded := by
  intro reader byte after bounded reads
  have reads : reader.get byte = .inl after := Sum.getLeft?_eq_some_iff.mp reads
  rcases get_reading reads with ⟨_, room, rfl⟩ | ⟨_, _, total, rfl⟩
  · refine ⟨?_, bounded.2⟩
    show (reader.line ++ [byte]).length ≤ maxHeaderLineBytes
    rw [List.length_append, List.length_singleton]
    omega
  · exact ⟨Nat.zero_le _, total⟩

theorem initial_bounded : Bounded {} :=
  ⟨Nat.zero_le _, Nat.zero_le _⟩

/-- The states of `next` are those the loop over the stream passes through. -/
theorem run_next {reader after : HeaderReader} {consumed : List UInt8}
    (reads : runFrom next reader consumed = some after) (rest : List UInt8) :
    reader.run (consumed ++ rest) = after.run rest := by
  induction consumed generalizing reader with
  | nil => rw [Option.some.inj reads, List.nil_append]
  | cons byte later ih =>
      have ⟨middle, first, others⟩ := runFrom_cons.mp reads
      have first : reader.get byte = .inl middle := Sum.getLeft?_eq_some_iff.mp first
      rw [List.cons_append, run, first]
      exact ih others

theorem run_line {reader : HeaderReader} {line rest : List UInt8} (terminated : lineFeed ∉ line)
    (fits : reader.line.length + line.length ≤ maxHeaderLineBytes) :
    reader.run (line ++ lineFeed :: rest) =
      match { reader with line := reader.line ++ line }.acceptLine with
      | .inl after => after.run rest
      | .inr stop => (stop, rest) := by
  induction line generalizing reader with
  | nil =>
      have taken : reader.get lineFeed = reader.acceptLine := if_pos rfl
      rw [List.append_nil]
      exact congrArg (fun result => match result with
        | .inl after => after.run rest
        | .inr stop => (stop, rest)) taken
  | cons byte later ih =>
      rw [List.mem_cons, not_or] at terminated
      rw [List.length_cons] at fits
      have inside : ¬byte = lineFeed := fun same => terminated.1 same.symm
      have room : ¬maxHeaderLineBytes ≤ reader.line.length := by omega
      have step := @ih { reader with line := reader.line ++ [byte] }
        terminated.2 (by rw [List.length_append, List.length_singleton]; omega)
      rw [List.cons_append, run, get, if_neg inside, if_neg room]
      dsimp only
      rw [step, List.append_assoc]
      rfl

end HeaderReader

/-! ### A read that stays in step -/

theorem readPayload_inStep {transport : Transport Json} {reader : HeaderReader}
    {stream next : InputStream} {outcome : ReadOutcome Json}
    (read : transport.readPayload reader stream = (outcome, next)) (inStep : outcome.InStep) :
    reader.hasHeaders = true ∧ stream.failed = false ∧
      reader.contentLength ≤ stream.bytes.length ∧
      outcome = transport.decode (stream.bytes.take reader.contentLength) ∧
      next = { bytes := stream.bytes.drop reader.contentLength } := by
  unfold Transport.readPayload at read
  split_ifs at read with noHeaders noLength tooLarge tooLong truncated
  · cases read
    exact inStep.elim
  · cases read
    exact inStep.elim
  · cases read
    exact inStep.elim
  · cases read
    exact inStep.elim
  · cases read
    exact inStep.elim
  · rw [Bool.or_eq_true, not_or, Bool.not_eq_true, decide_eq_true_eq] at truncated
    rw [Bool.not_eq_false] at noHeaders
    cases read
    refine ⟨noHeaders, truncated.1, Nat.le_of_not_lt truncated.2, rfl, ?_⟩
    rw [truncated.1]

/-- A read that reports a message or a recoverable error has taken exactly one frame. -/
theorem readMessage_inStep {transport : Transport Json} {stream next : InputStream}
    {outcome : ReadOutcome Json} (read : transport.readMessage stream = (outcome, next))
    (inStep : outcome.InStep) :
    ∃ frame : Frame, stream.failed = false ∧ stream.bytes = frame.bytes ++ next.bytes ∧
      next.failed = false ∧ outcome = transport.decode frame.payload ∧
      frame.block.bytes.length ≤ maxHeaderBytes := by
  unfold Transport.readMessage at read
  cases stopped : HeaderReader.run {} (if stream.failed then [] else stream.bytes) with
  | mk stop rest =>
      rw [stopped] at read
      cases stop with
      | lineTooLong =>
          cases read
          exact inStep.elim
      | sectionTooLong =>
          cases read
          exact inStep.elim
      | streamEnd reader =>
          have ⟨_, ready, _⟩ := readPayload_inStep read inStep
          cases ready
      | block reader =>
          have ⟨_, _, enough, decoded, after⟩ := readPayload_inStep read inStep
          have ⟨block, split, length, _, total⟩ :=
            HeaderReader.run_block List.not_mem_nil stopped
          rw [List.nil_append] at split
          have ready : stream.failed = false := by
            by_contra failed
            rw [Bool.not_eq_false] at failed
            rw [if_pos failed] at stopped
            cases stopped
          rw [ready, if_neg Bool.false_ne_true] at split
          have payloadLength : (rest.take reader.contentLength).length = block.contentLength := by
            rw [List.length_take_of_le enough]
            exact length
          refine ⟨⟨block, rest.take reader.contentLength, payloadLength⟩, ready, ?_, ?_, decoded,
            ?_⟩
          · rw [split, after]
            unfold Frame.bytes
            rw [List.append_assoc, List.take_append_drop]
          · rw [after]
          · rw [Nat.zero_add] at total
            exact total

/-! ### Round trip -/

def digitByte (digit : ℕ) : UInt8 :=
  UInt8.ofNat (48 + digit)

theorem digitByte_toNat {digit : ℕ} (small : digit < 10) : (digitByte digit).toNat = 48 + digit := by
  unfold digitByte
  rw [UInt8.toNat_ofNat']
  omega

theorem digitByte_isDigit {digit : ℕ} (small : digit < 10) :
    isDigit (digitByte digit) = true := by
  unfold isDigit
  rw [Bool.and_eq_true, decide_eq_true_eq, decide_eq_true_eq, UInt8.le_iff_toNat_le,
    UInt8.le_iff_toNat_le, digitByte_toNat small]
  exact ⟨Nat.le_add_right 48 digit, Nat.add_le_add_left (Nat.le_of_lt_succ small) 48⟩

theorem digitByte_digitChar {digit : ℕ} (small : digit < 10) :
    UInt8.ofNat (Nat.digitChar digit).toNat = digitByte digit := by
  have all : ∀ digit < 10, UInt8.ofNat (Nat.digitChar digit).toNat = digitByte digit := by
    decide
  exact all digit small

theorem printLength_eq (length : ℕ) :
    Transport.printLength length =
      if length < 10 then [digitByte length]
      else Transport.printLength (length / 10) ++ [digitByte (length % 10)] := by
  unfold Transport.printLength bytesOf
  rw [Nat.toString_eq_repr, Nat.toString_eq_repr, Nat.toList_repr, Nat.toList_repr,
    Nat.toDigits_eq_if (by decide)]
  split_ifs with small
  · rw [List.map_singleton, digitByte_digitChar small]
  · rw [List.map_append, List.map_singleton,
      digitByte_digitChar (Nat.mod_lt length (by decide))]

theorem printLength_isDigit (length : ℕ) :
    ∀ byte ∈ Transport.printLength length, isDigit byte = true := by
  induction length using Nat.strong_induction_on with
  | h length ih =>
      rw [printLength_eq]
      split_ifs with small
      · intro byte member
        rw [List.mem_singleton.mp member]
        exact digitByte_isDigit small
      · intro byte member
        rcases List.mem_append.mp member with leading | last
        · exact ih (length / 10) (by omega) byte leading
        · rw [List.mem_singleton.mp last]
          exact digitByte_isDigit (Nat.mod_lt length (by decide))

theorem printLength_length (length : ℕ) (fits : length ≤ sizeMax) :
    (Transport.printLength length).length ≤ 20 := by
  unfold Transport.printLength bytesOf
  rw [List.length_map, Nat.toString_eq_repr, Nat.toList_repr,
    Nat.length_toDigits_le_iff (by decide) (by decide)]
  apply Nat.lt_of_le_of_lt fits
  decide

theorem printLength_ne_nil (length : ℕ) : Transport.printLength length ≠ [] := by
  rw [printLength_eq]
  split_ifs
  · exact List.cons_ne_nil _ _
  · exact List.append_ne_nil_of_right_ne_nil _ (List.cons_ne_nil _ _)

theorem parseLengthDigits_digit {value digit : ℕ} (small : digit < 10)
    (fits : value * 10 + digit ≤ sizeMax) (rest : List UInt8) :
    parseLengthDigits value (digitByte digit :: rest) =
      parseLengthDigits (value * 10 + digit) rest := by
  have room : ¬(sizeMax - digit) / 10 < value := by omega
  rw [parseLengthDigits, if_pos (digitByte_isDigit small), digitByte_toNat small,
    Nat.add_sub_cancel_left, if_neg room]

theorem parseLengthDigits_printLength (length : ℕ) (fits : length ≤ sizeMax)
    (rest : List UInt8) :
    parseLengthDigits 0 (Transport.printLength length ++ rest) =
      parseLengthDigits length rest := by
  induction length using Nat.strong_induction_on generalizing rest with
  | h length ih =>
      rw [printLength_eq]
      split_ifs with small
      · rw [List.singleton_append, parseLengthDigits_digit small (by omega), Nat.zero_mul,
          Nat.zero_add]
      · have whole : length / 10 * 10 + length % 10 = length := Nat.div_add_mod' length 10
        rw [List.append_assoc, ih (length / 10) (by omega) (by omega),
          List.singleton_append, parseLengthDigits_digit (Nat.mod_lt length (by decide))
          (by omega), whole]

theorem isTrimmed_of_isDigit {byte : UInt8} (digit : isDigit byte = true) :
    isTrimmed byte = false := by
  unfold isDigit at digit
  rw [Bool.and_eq_true, decide_eq_true_eq, decide_eq_true_eq, UInt8.le_iff_toNat_le] at digit
  have above : 48 ≤ byte.toNat := digit.1
  unfold isTrimmed
  rw [Bool.or_eq_false_iff, Bool.and_eq_false_iff, beq_eq_false_iff_ne, decide_eq_false_iff_not,
    decide_eq_false_iff_not, UInt8.le_iff_toNat_le, UInt8.le_iff_toNat_le]
  constructor
  · intro blank
    rw [blank] at above
    exact absurd above (by decide)
  · right
    intro below
    have below : byte.toNat ≤ 13 := below
    omega

theorem trim_digits {digits : List UInt8} (areDigits : ∀ byte ∈ digits, isDigit byte = true) :
    trim (32 :: digits) = digits := by
  unfold trim
  rw [List.dropWhile_cons_of_pos (by decide)]
  have leading : digits.dropWhile isTrimmed = digits := by
    cases digits with
    | nil => rfl
    | cons byte rest =>
        apply List.dropWhile_cons_of_neg
        rw [isTrimmed_of_isDigit (areDigits byte List.mem_cons_self)]
        exact Bool.false_ne_true
  rw [leading, List.rdropWhile_eq_self_iff]
  intro filled
  rw [isTrimmed_of_isDigit (areDigits _ (List.getLast_mem filled))]
  exact Bool.false_ne_true

/-- The header line that `writeMessage` puts in front of a payload. -/
def lengthLine (length : ℕ) : List UInt8 :=
  contentLengthPrefix ++ 32 :: Transport.printLength length

theorem parseContentLengthHeader_lengthLine (length : ℕ) (fits : length ≤ sizeMax) :
    parseContentLengthHeader (lengthLine length) = some length := by
  have starts : contentLengthPrefix.isPrefixOf (lengthLine length) = true :=
    List.isPrefixOf_iff_prefix.mpr (List.prefix_append _ _)
  have value := parseLengthDigits_printLength length fits []
  rw [List.append_nil] at value
  unfold parseContentLengthHeader
  rw [if_pos starts]
  unfold lengthLine
  rw [List.drop_left, trim_digits (printLength_isDigit length)]
  dsimp only
  rw [if_neg (printLength_ne_nil length), value]
  rfl

theorem stripReturn_append (line : List UInt8) : stripReturn (line ++ [carriageReturn]) = line := by
  unfold stripReturn
  rw [List.getLast?_append, List.getLast?_singleton, Option.some_or, if_pos rfl,
    List.dropLast_concat]

theorem lineFeed_not_digit {byte : UInt8} (digit : isDigit byte = true) : lineFeed ≠ byte := by
  intro same
  rw [← same] at digit
  exact absurd digit (by decide)

theorem lengthLine_terminated (length : ℕ) :
    lineFeed ∉ lengthLine length ++ [carriageReturn] := by
  intro member
  rcases List.mem_append.mp member with inside | last
  · rcases List.mem_append.mp inside with first | second
    · exact absurd first (by decide)
    · rcases List.mem_cons.mp second with blank | digit
      · exact absurd blank (by decide)
      · exact lineFeed_not_digit (printLength_isDigit length _ digit) rfl
  · exact absurd (List.mem_singleton.mp last) (by decide)

theorem length_lengthLine (length : ℕ) (fits : length ≤ sizeMax) :
    (lengthLine length).length ≤ 36 := by
  have digits := printLength_length length fits
  have label : contentLengthPrefix.length = 15 := rfl
  unfold lengthLine
  rw [List.length_append, List.length_cons]
  omega

theorem run_blank {reader : HeaderReader} (fresh : reader.line = [])
    (room : reader.headerBytesTotal + 2 ≤ maxHeaderBytes) (rest : List UInt8) :
    reader.run ([carriageReturn] ++ lineFeed :: rest) =
      (.block { reader with line := [], headerBytesTotal := reader.headerBytesTotal + 2 },
        rest) := by
  have terminated : lineFeed ∉ [carriageReturn] := by decide
  have short : reader.line.length + [carriageReturn].length ≤ maxHeaderLineBytes := by
    rw [fresh]
    decide
  have blank : stripReturn (reader.line ++ [carriageReturn]) = [] := by
    rw [fresh]
    exact stripReturn_append []
  have total : ¬maxHeaderBytes < reader.headerBytesTotal + (0 + 2) := by omega
  rw [HeaderReader.run_line terminated short]
  unfold HeaderReader.acceptLine
  dsimp only
  rw [blank, List.length_nil, if_neg total, if_pos rfl]

/-- The header reader on what `writeMessage` puts before the payload. -/
theorem run_lengthLine (length : ℕ) (fits : length ≤ sizeMax) (rest : List UInt8) :
    HeaderReader.run {}
        (lengthLine length ++ [carriageReturn] ++
          lineFeed :: ([carriageReturn] ++ lineFeed :: rest)) =
      (.block
        { line := []
          headerBytesTotal := (lengthLine length).length + 2 + 2
          hasHeaders := true
          contentLength := length }, rest) := by
  have short := length_lengthLine length fits
  have filled : lengthLine length ≠ [] :=
    List.append_ne_nil_of_right_ne_nil _ (List.cons_ne_nil _ _)
  have lineFits : 0 + (lengthLine length ++ [carriageReturn]).length ≤ maxHeaderLineBytes := by
    unfold maxHeaderLineBytes
    rw [List.length_append, List.length_singleton]
    omega
  have total : (lengthLine length).length + 2 + 2 ≤ maxHeaderBytes := by
    unfold maxHeaderBytes
    omega
  have first : ¬maxHeaderBytes < 0 + ((lengthLine length).length + 2) := by omega
  have accepted : HeaderReader.acceptLine
      { line := [] ++ (lengthLine length ++ [carriageReturn]) } =
        .inl
          { line := []
            headerBytesTotal := (lengthLine length).length + 2
            hasHeaders := true
            contentLength := length } := by
    unfold HeaderReader.acceptLine
    dsimp only
    rw [List.nil_append, stripReturn_append, if_neg first, if_neg filled,
      parseContentLengthHeader_lengthLine length fits, Nat.zero_add]
    rfl
  rw [@HeaderReader.run_line {} _ _ (lengthLine_terminated length) lineFits]
  dsimp only
  rw [accepted]
  exact run_blank rfl total rest

theorem writeMessage_eq (transport : Transport Json) (message : Json) (rest : List UInt8) :
    transport.writeMessage message ++ rest =
      lengthLine (transport.json.print message).length ++ [carriageReturn] ++
        lineFeed :: ([carriageReturn] ++ lineFeed :: (transport.json.print message ++ rest)) := by
  have label : bytesOf "Content-Length: " = contentLengthPrefix ++ [32] := by decide
  have ending : bytesOf "\r\n\r\n" = [carriageReturn, lineFeed, carriageReturn, lineFeed] := by
    decide
  unfold Transport.writeMessage lengthLine
  dsimp only
  rw [label, ending]
  simp only [List.append_assoc, List.cons_append, List.nil_append]

/-- Reading what was written answers the message and leaves what follows. -/
theorem readMessage_writeMessage (transport : Transport Json)
    (inverts : ∀ value, transport.json.parse (transport.json.print value) = .ok value)
    (printed : ∀ value, transport.json.print value ≠ [])
    (message : Json) (within : (transport.json.print message).length ≤ transport.maxContentLength)
    (isString : (transport.json.print message).length ≤ transport.maxStringLength)
    (rest : List UInt8) :
    transport.readMessage { bytes := transport.writeMessage message ++ rest } =
      (.message message, { bytes := rest }) := by
  have fits := Nat.le_trans within transport.maxContentLength_fits
  have positive : ¬(transport.json.print message).length = 0 := by
    rw [List.length_eq_zero_iff]
    exact printed message
  have available : ¬(false || decide ((transport.json.print message ++ rest).length <
      (transport.json.print message).length)) = true := by
    rw [Bool.false_or, decide_eq_true_eq, List.length_append]
    omega
  unfold Transport.readMessage
  dsimp only
  rw [if_neg Bool.false_ne_true, writeMessage_eq, run_lengthLine _ fits]
  dsimp only
  unfold Transport.readPayload
  dsimp only
  rw [if_neg Bool.true_eq_false.mp, if_neg positive, if_neg (Nat.not_lt.mpr within),
    if_neg (Nat.not_lt.mpr isString), if_neg available, List.take_left, List.drop_left]
  unfold Transport.decode
  rw [inverts]

/-! ### Sequences of reads -/

/-- Round trip of every list of messages; every read in step takes one frame, from any
stream and along any sequence of reads; the header reader keeps within its bounds. -/
theorem framing_synchronised (transport : Transport Json) :
    ((∀ value, transport.json.parse (transport.json.print value) = .ok value) →
      (∀ value, transport.json.print value ≠ []) →
      ∀ (messages : List Json) (rest : List UInt8),
        (∀ message ∈ messages,
          (transport.json.print message).length ≤ transport.maxContentLength ∧
            (transport.json.print message).length ≤ transport.maxStringLength) →
        readMany transport.readMessage messages.length
            { bytes := messages.flatMap transport.writeMessage ++ rest } =
          (messages.map .message, { bytes := rest })) ∧
    (∀ stream outcome next, transport.readMessage stream = (outcome, next) → outcome.InStep →
      ∃ frame : Frame, stream.failed = false ∧ stream.bytes = frame.bytes ++ next.bytes ∧
        next.failed = false ∧ outcome = transport.decode frame.payload ∧
        frame.block.bytes.length ≤ maxHeaderBytes) ∧
    (∀ count bytes outcomes final,
      readMany transport.readMessage count { bytes := bytes } = (outcomes, final) →
      (∀ outcome ∈ outcomes, outcome.InStep) →
      ∃ (frames : List Frame) (rest : List UInt8),
        List.Forall₂ (fun frame outcome => outcome = transport.decode frame.payload)
          frames outcomes ∧
        bytes = frames.flatMap Frame.bytes ++ rest ∧ final = { bytes := rest }) ∧
    (∀ consumed reader, runFrom HeaderReader.next {} consumed = some reader →
      reader.line.length ≤ maxHeaderLineBytes ∧ reader.headerBytesTotal ≤ maxHeaderBytes ∧
        ∀ rest, HeaderReader.run {} (consumed ++ rest) = reader.run rest) := by
  refine ⟨?_, fun stream outcome next => readMessage_inStep, ?_, ?_⟩
  · intro inverts printed messages rest within
    apply readMany_encoded transport.readMessage (fun bytes => { bytes := bytes })
    intro message member remaining
    have ⟨content, string⟩ := within message member
    exact readMessage_writeMessage transport inverts printed message content string remaining
  · intro count bytes outcomes final
    apply @readMany_frames _ _ _ _ transport.readMessage (fun bytes => { bytes := bytes })
    intro stream outcome next read inStep
    have ⟨frame, _, split, ready, decoded, _⟩ := readMessage_inStep read inStep
    refine ⟨frame, next.bytes, decoded, split, ?_⟩
    rw [← ready]
  · intro consumed reader reads
    have bounded := HeaderReader.next_bounded.run HeaderReader.initial_bounded reads
    exact ⟨bounded.1, bounded.2, HeaderReader.run_next reads⟩

/-- A JSON library of two values. -/
def booleans : JsonLibrary Bool where
  parse text :=
    if text = bytesOf "true" then .ok true
    else if text = bytesOf "false" then .ok false
    else .error "invalid literal"
  print value := bytesOf (if value then "true" else "false")

def booleanTransport : Transport Bool where
  json := booleans
  maxContentLength := 5
  maxStringLength := 100
  maxContentLength_fits := Nat.le_of_ble_eq_true rfl

theorem framing_synchronised_booleans :
    readMany booleanTransport.readMessage 2
        { bytes := [true, false].flatMap booleanTransport.writeMessage ++ [] } =
      ([.message true, .message false], { bytes := [] }) :=
  (framing_synchronised booleanTransport).1 (by decide) (by decide) [true, false] [] (by decide)

end LlvmDsdl.LSP
