import LlvmDsdl.Frontend.TokenSpans
import LlvmDsdl.LSP.SemanticTokens

/-!
Contract: where the elements of an accepted source stand (`Frontend/Parser.cpp`,
`LSP/Analysis.cpp`).

Owns: tokens at positions of a text, the elements of one statement, and the order of
all the elements of a source.
-/

namespace LlvmDsdl.LSP

open Frontend

variable {file : String} {text : List Char} {position : ℕ × ℕ} {used tokens : List Token}
  {starts : List (ℕ × ℕ)}

theorem startsOf_append
    (whole : (startsOf starts (used ++ tokens)).length = (used ++ tokens).length) :
    (startsOf starts (used ++ tokens)).drop used.length = startsOf starts tokens := by
  simp only [startsOf, List.length_drop, List.length_append, List.drop_drop] at whole ⊢
  congr 1
  omega

/-- The last tokens of a source lay out its text from a position on. -/
def LaidAt (file : String) (text : List Char) (starts : List (ℕ × ℕ)) (position : ℕ × ℕ)
    (tokens : List Token) : Prop :=
  ∃ rest, Layout file position rest tokens (startsOf starts tokens) ∧ StandsAt text position rest

theorem LaidAt.startsOf_append (laid : LaidAt file text starts position (used ++ tokens)) :
    (startsOf starts (used ++ tokens)).drop used.length = startsOf starts tokens := by
  obtain ⟨rest, layout, -⟩ := laid
  exact LSP.startsOf_append layout.length

theorem LaidAt.startsOf_cons {token : Token}
    (laid : LaidAt file text starts position (token :: tokens)) :
    (startsOf starts (token :: tokens)).drop 1 = startsOf starts tokens :=
  @LaidAt.startsOf_append file text position [token] tokens starts laid

/-- A nonempty text stands at a position, and tokens lay out what is behind it. -/
structure Occupies (file : String) (text : List Char) (starts : List (ℕ × ℕ)) (start : ℕ × ℕ)
    (spelling : List Char) (tokens : List Token) : Prop where
  nonempty : spelling ≠ []
  shown : textAt text start = spelling ++ textAt text (positionAfter start spelling)
  line : 1 ≤ start.1
  column : 1 ≤ start.2
  behind : LaidAt file text starts (positionAfter start spelling) tokens

theorem occupies_of_standsAt {start : ℕ × ℕ} {spelling rest : List Char}
    (stands : StandsAt text start (spelling ++ rest)) (nonempty : spelling ≠ [])
    (laid : Layout file (positionAfter start spelling) rest tokens (startsOf starts tokens)) :
    Occupies file text starts start spelling tokens := by
  have after := stands.after
  obtain ⟨read, -, column, -⟩ := stands.starts
  refine ⟨nonempty, by rw [stands.textAt, after.textAt], stands.line, by omega, rest, laid, after⟩

/-- The position of the first of the last tokens of a source. -/
def firstStart (starts : List (ℕ × ℕ)) (tokens : List Token) : ℕ × ℕ :=
  startAt (startsOf starts tokens) 0

theorem LaidAt.token {token : Token} (laid : LaidAt file text starts position (token :: tokens))
    (notEof : token.kind ≠ .eof) :
    token.location = recordedAt file (firstStart starts (token :: tokens)) ∧
      ∃ spelling, NotAfter position (firstStart starts (token :: tokens)) ∧
        Spells token spelling ∧
        Occupies file text starts (firstStart starts (token :: tokens)) spelling tokens := by
  have dropped := laid.startsOf_cons
  obtain ⟨whole, layout, stands⟩ := laid
  obtain ⟨gap, spelling, rest, placed⟩ := layout.placed notEof
  have others := placed.others
  have isPlaced : firstStart starts (token :: tokens) = positionAfter position gap := placed.placed
  rw [placed.whole] at stands
  rw [positionAfter_append, ← isPlaced, dropped] at others
  have there := stands.after
  rw [← isPlaced] at there
  refine ⟨placed.recorded, spelling, ?_, placed.spells,
    occupies_of_standsAt there placed.nonempty others⟩
  rw [isPlaced]
  exact notAfter_positionAfter position gap

/-- Consecutive tokens cover the text from the first to the end of the last. -/
theorem LaidAt.span {first last : Token}
    (laid : LaidAt file text starts position (used ++ tokens))
    (inline : ∀ token ∈ used, IsInline token) (isFirst : used.head? = some first)
    (isLast : used.getLast? = some last) (verbatim : IsVerbatim last.kind) :
    first.location = recordedAt file (firstStart starts (used ++ tokens)) ∧
      NotAfter position (firstStart starts (used ++ tokens)) ∧
      Occupies file text starts (firstStart starts (used ++ tokens))
        (coveredText text used (startsOf starts (used ++ tokens))) tokens := by
  have dropped := LaidAt.startsOf_append laid
  obtain ⟨whole, layout, stands⟩ := laid
  have some : used ≠ [] := by
    intro empty
    rw [empty] at isFirst
    cases isFirst
  obtain ⟨gap, covered, rest, span⟩ := layout.span some inline
  have placed : firstStart starts (used ++ tokens) = positionAfter position gap := span.opens
  obtain ⟨inner, spelling, ending, nonempty, spells, location⟩ := span.ends last isLast
  have verbatimText : last.text.toList = spelling := spells_text spells verbatim
  have stop : positionAfter (startAt (startsOf starts (used ++ tokens)) (used.length - 1))
        last.text.toList =
      positionAfter (firstStart starts (used ++ tokens)) covered := by
    rw [verbatimText, location, placed, ← positionAfter_append, ← positionAfter_append, ending,
      List.append_assoc]
  rw [span.whole] at stands
  have there := stands.after
  rw [← placed] at there
  have others := span.others
  rw [positionAfter_append, ← placed, dropped] at others
  have same : coveredText text used (startsOf starts (used ++ tokens)) = covered := by
    unfold coveredText
    rw [isLast]
    dsimp only
    rw [stop, ← firstStart, textBetween, there.textAt, there.after.textAt, List.length_append,
      Nat.add_sub_cancel, List.take_left]
  refine ⟨span.recorded first isFirst, ?_, ?_⟩
  · rw [placed]
    exact notAfter_positionAfter position gap
  · rw [same]
    refine occupies_of_standsAt there ?_ others
    rw [ending]
    exact List.append_ne_nil_of_right_ne_nil _ nonempty

theorem LaidAt.skip (laid : LaidAt file text starts position (used ++ tokens))
    (inline : ∀ token ∈ used, IsInline token) :
    ∃ stop, NotAfter position stop ∧ LaidAt file text starts stop tokens := by
  induction used generalizing position with
  | nil => exact ⟨position, Or.inl rfl, laid⟩
  | cons token used ih =>
      obtain ⟨-, spelling, before, -, occupies⟩ :=
        LaidAt.token laid (inline token List.mem_cons_self).1
      obtain ⟨stop, behind, later⟩ := ih occupies.behind fun token member =>
        inline token (List.mem_cons_of_mem _ member)
      exact ⟨stop, before.trans ((notAfter_positionAfter _ spelling).trans behind), later⟩

theorem LaidAt.zip_starts {token : Token}
    (laid : LaidAt file text starts position (token :: tokens)) :
    (token :: tokens).zip (startsOf starts (token :: tokens)) =
      (token, firstStart starts (token :: tokens)) :: tokens.zip (startsOf starts tokens) := by
  have dropped := laid.startsOf_cons
  obtain ⟨rest, layout, -⟩ := laid
  have whole := layout.length
  unfold firstStart
  rw [← dropped]
  generalize startsOf starts (token :: tokens) = placed at whole
  cases placed with
  | nil => cases whole
  | cons => rfl

theorem LaidAt.endsLine (laid : LaidAt file text starts position tokens)
    (inLine : ∀ token ∈ tokens, SpelledInLine token) (ended : Frontend.endsLine tokens = true) :
    (textAt text position).head? ≠ some '-' := by
  obtain ⟨rest, layout, stands⟩ := laid
  rw [stands.textAt]
  have gapped {gap rest : List Char} (isGap : Gap gap rest) (some : gap ≠ []) (more : List Char) :
      (gap ++ more).head? ≠ Option.some '-' := by
    cases isGap with
    | nil => exact absurd rfl some
    | blank isBlank _ =>
        rcases isBlank with rfl | rfl
        · simp
        · simp
    | lineBreak => simp
  generalize startsOf starts tokens = placed at layout
  cases layout with
  | done isGap =>
      by_cases empty : rest = []
      · simp [empty]
      · simpa using gapped isGap empty []
  | @token _ gap spelling rest token tokens _ isGap nonempty spells _ _ =>
      by_cases empty : gap = []
      · rw [empty, List.nil_append]
        simp only [Frontend.endsLine, List.head?_cons, Option.all_some, Bool.or_eq_true,
          decide_eq_true_eq] at ended
        rcases ended with (isNewline | isComment) | isEof
        · rw [Spells, isNewline] at spells
          rw [spells.1]
          simp
        · have same : token.text.toList = spelling :=
            spells_text spells (by rw [isComment]; decide)
          have hash := (inLine token List.mem_cons_self).comment isComment
          rw [same] at hash
          obtain ⟨c, more, shown⟩ := List.exists_cons_of_ne_nil nonempty
          rw [shown, List.head?_cons] at hash
          rw [shown, List.cons_append, List.head?_cons, hash]
          decide
        · rw [Spells, isEof] at spells
          exact absurd spells.1 nonempty
      · exact gapped isGap empty _

def Element.stop (element : Element) : ℕ × ℕ :=
  positionAfter element.start element.spelling

/-- An element is a piece of a text, unless it is a directive, whose name may be apart from its
sign, and of a line unless it is a type. -/
structure Stands (text : List Char) (element : Element) : Prop where
  nonempty : element.spelling ≠ []
  shown : element.kind ≠ .directive → element.spelling <+: textAt text element.start
  line : 1 ≤ element.start.1
  column : 1 ≤ element.start.2
  inLine : element.kind ≠ .typeExpression → '\n' ∉ element.spelling

theorem Occupies.stands {element : Element}
    (occupies : Occupies file text starts element.start element.spelling tokens)
    (inLine : element.kind ≠ .typeExpression → '\n' ∉ element.spelling) : Stands text element :=
  ⟨occupies.nonempty, fun _ => by rw [occupies.shown]; exact List.prefix_append _ _,
    occupies.line, occupies.column, inLine⟩

/-- Elements stand one behind the other, from a position to another. -/
def InOrder (text : List Char) : ℕ × ℕ → List Element → ℕ × ℕ → Prop
  | position, [], stop => NotAfter position stop
  | position, element :: rest, stop =>
      NotAfter position element.start ∧ Stands text element ∧ InOrder text element.stop rest stop

theorem InOrder.before {elements : List Element} {earlier stop : ℕ × ℕ}
    (inOrder : InOrder text position elements stop) (before : NotAfter earlier position) :
    InOrder text earlier elements stop := by
  cases elements with
  | nil => exact before.trans inOrder
  | cons element elements => exact ⟨before.trans inOrder.1, inOrder.2⟩

theorem InOrder.append {elements others : List Element} {middle stop : ℕ × ℕ}
    (first : InOrder text position elements middle) (second : InOrder text middle others stop) :
    InOrder text position (elements ++ others) stop := by
  induction elements generalizing position with
  | nil => exact second.before first
  | cons element elements ih =>
      exact ⟨first.1, first.2.1, ih first.2.2⟩

theorem InOrder.notBefore {elements : List Element} {stop : ℕ × ℕ}
    (inOrder : InOrder text position elements stop) :
    ∀ element ∈ elements, NotAfter position element.start ∧ Stands text element := by
  induction elements generalizing position with
  | nil => simp
  | cons element elements ih =>
      obtain ⟨before, stands, others⟩ := inOrder
      intro other member
      rcases List.mem_cons.mp member with rfl | later
      · exact ⟨before, stands⟩
      · obtain ⟨behind, stands'⟩ := ih others other later
        exact ⟨(before.trans (notAfter_positionAfter _ _)).trans behind, stands'⟩

theorem InOrder.pairwise {elements : List Element} {stop : ℕ × ℕ}
    (inOrder : InOrder text position elements stop) :
    elements.Pairwise fun first second => NotAfter first.stop second.start := by
  induction elements generalizing position with
  | nil => exact List.Pairwise.nil
  | cons element elements ih =>
      obtain ⟨-, -, others⟩ := inOrder
      exact List.pairwise_cons.mpr
        ⟨fun other member => (others.notBefore other member).1, ih others⟩

theorem isVerbatim_of_kind {token : Token} {kind : TokenKind} (isKind : token.kind = kind)
    (verbatim : IsVerbatim kind) : IsVerbatim token.kind := by
  rwa [isKind]

theorem nameTail_last {last : Token} {components : List String} {version : ℕ × ℕ}
    (tail : NameTail last used components version) :
    ∃ final, used.getLast? = some final ∧ IsVerbatim final.kind := by
  induction tail with
  | integers _ _ ahead _ =>
      exact ⟨_, rfl, isVerbatim_of_kind ahead.2.2 (by decide)⟩
  | real _ _ isReal _ => exact ⟨_, rfl, isVerbatim_of_kind isReal (by decide)⟩
  | @component last dot name used components version _ _ isName _ _ ih =>
      obtain ⟨final, isLast, verbatim⟩ := ih
      cases used with
      | nil => cases isLast
      | cons next used =>
          exact ⟨final, by rwa [List.getLast?_cons_cons, List.getLast?_cons_cons], verbatim⟩

theorem scalarType_last {scalar : ScalarTypeExprAST} (derived : ScalarType used scalar) :
    ∃ final, used.getLast? = some final ∧ IsVerbatim final.kind := by
  cases derived with
  | named isName _ => exact ⟨_, rfl, isVerbatim_of_kind isName (by decide)⟩
  | cast _ isName _ _ => exact ⟨_, rfl, isVerbatim_of_kind isName (by decide)⟩
  | @versioned token used components version isName _ tail =>
      obtain ⟨final, isLast, verbatim⟩ := nameTail_last tail
      cases used with
      | nil => cases isLast
      | cons next used => exact ⟨final, by rwa [List.getLast?_cons_cons], verbatim⟩

/-- A type is located at its first token and ends with a word, a number or a bracket. -/
theorem derivesType_ends {type : TypeExprAST} (typed : DerivesType used type) :
    ∃ first last, used.head? = some first ∧ used.getLast? = some last ∧ IsVerbatim last.kind ∧
      type.location = first.location := by
  cases typed with
  | scalar derived =>
      obtain ⟨last, isLast, verbatim⟩ := scalarType_last derived
      obtain ⟨first, more, rfl, -⟩ := scalarType_starts derived
      exact ⟨first, last, rfl, isLast, verbatim, rfl⟩
  | @array used mark inner scalar bracket close kind capacity derived _ _ _ isClose =>
      obtain ⟨first, more, rfl, -⟩ := scalarType_starts derived
      refine ⟨first, close, rfl, ?_, isVerbatim_of_kind isClose (by decide), rfl⟩
      have whole : first :: more ++ bracket :: (mark ++ (inner ++ [close])) =
          (first :: more ++ bracket :: (mark ++ inner)) ++ [close] := by simp
      rw [whole, List.getLast?_concat]

/-- The locations of a statement are what 32 bits hold of the positions of its elements. -/
structure Recorded (file : String) (starts : List (ℕ × ℕ)) (read : ReadStatement) : Prop where
  type : ∀ type ∈ attributeType read.statement,
    type.location = recordedAt file (statementStart starts read)
  statement : read.statement.location =
    recordedAt file (if isNamed read.statement then nameStart starts read
      else statementStart starts read)

theorem typeElement_inOrder {statement : StatementAST} {start rest : List Token}
    {type : TypeExprAST} (typed : DerivesType (typeTokens start) type)
    (split : start = typeTokens start ++ rest)
    (laid : LaidAt file text starts position start) :
    type.location = recordedAt file (statementStart starts ⟨statement, start⟩) ∧
      nameStart starts ⟨statement, start⟩ = firstStart starts rest ∧
      InOrder text position [typeElement text starts ⟨statement, start⟩]
        (typeElement text starts ⟨statement, start⟩).stop ∧
      LaidAt file text starts (typeElement text starts ⟨statement, start⟩).stop rest := by
  obtain ⟨first, last, isFirst, isLast, verbatim, located⟩ := derivesType_ends typed
  rw [split] at laid
  obtain ⟨recorded, before, occupies⟩ :=
    laid.span (derivesType_inline typed) isFirst isLast verbatim
  have dropped := laid.startsOf_append
  rw [← split] at recorded before occupies dropped
  have occupied : Occupies file text starts (typeElement text starts ⟨statement, start⟩).start
      (typeElement text starts ⟨statement, start⟩).spelling rest := occupies
  refine ⟨located.trans recorded, ?_,
    ⟨before, occupied.stands fun other => absurd rfl other, Or.inl rfl⟩, occupied.behind⟩
  rw [firstStart, ← dropped, startAt_drop, Nat.add_zero]
  rfl

theorem wordElement_inOrder {kind : ElementKind} {token : Token}
    (laid : LaidAt file text starts position (token :: tokens)) (inLine : SpelledInLine token)
    (isLine : isLineKind token.kind = true) :
    token.location = recordedAt file (firstStart starts (token :: tokens)) ∧
      InOrder text position [⟨kind, firstStart starts (token :: tokens), token.text.toList⟩]
        (positionAfter (firstStart starts (token :: tokens)) token.text.toList) ∧
      LaidAt file text starts
        (positionAfter (firstStart starts (token :: tokens)) token.text.toList) tokens := by
  have verbatim : token.kind ≠ .eof ∧ IsVerbatim token.kind := by
    generalize token.kind = kind at isLine
    revert isLine
    cases kind <;> decide
  obtain ⟨recorded, spelling, before, spells, occupies⟩ := LaidAt.token laid verbatim.1
  have same : token.text.toList = spelling := spells_text spells verbatim.2
  rw [← same] at occupies
  exact ⟨recorded, ⟨before, occupies.stands fun _ => inLine.line isLine, Or.inl rfl⟩,
    occupies.behind⟩

theorem markerElement_inOrder {token : Token}
    (laid : LaidAt file text starts position (token :: tokens))
    (isMarker : token.kind = .serviceResponseMarker)
    (inLine : ∀ token ∈ tokens, SpelledInLine token) (ended : Frontend.endsLine tokens = true) :
    token.location = recordedAt file (firstStart starts (token :: tokens)) ∧
      InOrder text position [⟨.responseMarker, firstStart starts (token :: tokens),
          dashesAt text (firstStart starts (token :: tokens))⟩]
        (positionAfter (firstStart starts (token :: tokens))
          (dashesAt text (firstStart starts (token :: tokens)))) ∧
      LaidAt file text starts (positionAfter (firstStart starts (token :: tokens))
          (dashesAt text (firstStart starts (token :: tokens)))) tokens := by
  obtain ⟨recorded, spelling, before, spells, occupies⟩ :=
    LaidAt.token laid (by rw [isMarker]; decide)
  rw [Spells, isMarker] at spells
  obtain ⟨⟨more, run⟩, -⟩ := spells
  generalize firstStart starts (token :: tokens) = start at *
  have dashes : dashesAt text start = spelling := by
    have stop := occupies.behind.endsLine inLine ended
    rw [dashesAt, occupies.shown, List.takeWhile_append_of_pos]
    · cases shown : textAt text (positionAfter start spelling) with
      | nil => simp
      | cons c after =>
          rw [shown, List.head?_cons] at stop
          have other : ¬c = '-' := fun same => stop (congrArg some same)
          simp [other]
    · intro c member
      rw [run] at member
      simp [List.eq_of_mem_replicate member]
  rw [dashes]
  refine ⟨recorded, ⟨before, occupies.stands fun _ => ?_, Or.inl rfl⟩, occupies.behind⟩
  intro member
  rw [run] at member
  exact absurd (List.eq_of_mem_replicate member) (by decide)

/-- A directive is its sign and its name, which 32 bits may show behind it where it is not. -/
theorem directiveElement_inOrder {sign name : Token}
    (laid : LaidAt file text starts position (sign :: name :: tokens)) (isSign : sign.kind = .at_)
    (isName : isDirectiveName name.kind = true) (signInLine : SpelledInLine sign)
    (nameInLine : SpelledInLine name) :
    sign.location = recordedAt file (firstStart starts (sign :: name :: tokens)) ∧
      ∃ stop, InOrder text position
          [⟨.directive, firstStart starts (sign :: name :: tokens), '@' :: name.text.toList⟩] stop ∧
        LaidAt file text starts stop tokens := by
  have isLine : isLineKind name.kind = true := by simp [isLineKind, isName]
  have plain := nameInLine.line isLine
  obtain ⟨recorded, spelling, before, spells, occupies⟩ :=
    LaidAt.token laid (by rw [isSign]; decide)
  have isAt : sign.text.toList = spelling :=
    spells_text spells (by rw [isSign]; decide)
  rw [signInLine.sign isSign] at isAt
  rw [← isAt] at occupies
  have behind : LaidAt file text starts
      (positionAfter (firstStart starts (sign :: name :: tokens)) ['@']) (name :: tokens) :=
    occupies.behind
  obtain ⟨-, ⟨after, -, -⟩, laidBehind⟩ :=
    @wordElement_inOrder file text _ tokens starts .directive name behind nameInLine isLine
  refine ⟨recorded, _, ⟨before, ⟨List.cons_ne_nil _ _, fun other => absurd rfl other,
    occupies.line, occupies.column, fun _ => ?_⟩, ?_⟩, laidBehind⟩
  · exact List.not_mem_cons_of_ne_of_not_mem (by decide) plain
  · exact NotAfter.behind plain after

/-- The elements of a statement stand in order in its text, and it is recorded where they do. -/
theorem statementElements_inOrder {start rest : List Token} {statement : StatementAST}
    (read : Statement start statement rest) (laid : LaidAt file text starts position start)
    (inLine : ∀ token ∈ start, SpelledInLine token) (ended : Frontend.endsLine rest = true) :
    Recorded file starts ⟨statement, start⟩ ∧
      ∃ stop, InOrder text position (statementElements text starts ⟨statement, start⟩) stop ∧
        LaidAt file text starts stop rest := by
  have named {type : TypeExprAST} {name : Token} {after : List Token} {kind : ElementKind}
      (typed : DerivesType (typeTokens start) type)
      (split : start = typeTokens start ++ name :: after) (isName : name.kind = .identifier) :
      type.location = recordedAt file (statementStart starts ⟨statement, start⟩) ∧
      name.location = recordedAt file (nameStart starts ⟨statement, start⟩) ∧
      ∃ stop, InOrder text position
          ([typeElement text starts ⟨statement, start⟩] ++
            [⟨kind, nameStart starts ⟨statement, start⟩, name.text.toList⟩]) stop ∧
        LaidAt file text starts stop after := by
    obtain ⟨located, starting, first, behind⟩ :=
      @typeElement_inOrder file text position starts statement start _ type typed split laid
    have member : name ∈ start := by
      rw [split]
      simp
    obtain ⟨recorded, second, last⟩ := @wordElement_inOrder file text _ after starts kind name
      behind (inLine name member) (by rw [isName]; decide)
    rw [starting]
    exact ⟨located, recorded, _, first.append second, last⟩
  cases read with
  | @directive sign name used _ expression split isSign isName touches derived =>
      have laid' := laid
      rw [split] at laid' inLine
      obtain ⟨recorded, middle, inOrder, behind⟩ := directiveElement_inOrder laid' isSign isName
        (inLine sign (by simp)) (inLine name (by simp))
      rw [← split] at recorded inOrder
      have inline : ∀ token ∈ used, IsInline token := by
        rcases derived with ⟨empty, -⟩ | ⟨value, -, derived⟩
        · simp [empty]
        · exact derivation_inline _ _ _ derived
      obtain ⟨stop, after, last⟩ := behind.skip inline
      exact ⟨⟨by simp [attributeType], recorded⟩, stop,
        inOrder.append (show InOrder text _ [] stop from after), last⟩
  | @marker token _ split isMarker =>
      have laid' := laid
      rw [split] at laid' inLine
      obtain ⟨recorded, inOrder, behind⟩ := markerElement_inOrder laid' isMarker
        (fun token member => inLine token (List.mem_cons_of_mem _ member)) ended
      rw [← split] at recorded inOrder behind
      exact ⟨⟨by simp [attributeType], recorded⟩, _, inOrder, behind⟩
  | field typed split isName =>
      obtain ⟨located, recorded, stop, inOrder, behind⟩ := named typed split isName
      refine ⟨⟨fun type isType => ?_, recorded⟩, stop, inOrder, behind⟩
      rw [← Option.some.inj isType]
      exact located
  | @constant type name equal used _ value typed split isName isEqual derived =>
      obtain ⟨located, recorded, middle, inOrder, behind⟩ :=
        @named type name (equal :: (used ++ rest)) .constantName typed split isName
      have inline : ∀ token ∈ equal :: used, IsInline token := by
        intro token member
        rcases List.mem_cons.mp member with rfl | later
        · exact isInline_of_kind isEqual (by decide)
        · exact derivation_inline _ _ _ derived token later
      obtain ⟨stop, after, last⟩ := @LaidAt.skip file text _ (equal :: used) rest starts behind
        inline
      refine ⟨⟨fun type isType => ?_, recorded⟩, stop,
        inOrder.append (show InOrder text _ [] stop from after), last⟩
      rw [← Option.some.inj isType]
      exact located
  | padding typed split =>
      obtain ⟨located, -, inOrder, behind⟩ := typeElement_inOrder typed split laid
      refine ⟨⟨fun type isType => ?_, located⟩, _, inOrder, behind⟩
      rw [← Option.some.inj isType]
      exact located

theorem commentElements_inline (laid : LaidAt file text starts position (used ++ tokens))
    (inline : ∀ token ∈ used, IsInline token) :
    ((used ++ tokens).zip (startsOf starts (used ++ tokens))).filterMap commentElement =
      (tokens.zip (startsOf starts tokens)).filterMap commentElement := by
  induction used generalizing position with
  | nil => rfl
  | cons token used ih =>
      have inlined := inline token List.mem_cons_self
      obtain ⟨-, _, -, -, occupies⟩ := LaidAt.token laid inlined.1
      have others := ih occupies.behind fun token member =>
        inline token (List.mem_cons_of_mem _ member)
      have zipped := @LaidAt.zip_starts file text position (used ++ tokens) starts token laid
      rw [← others, List.cons_append, zipped, List.filterMap_cons_none]
      exact if_neg inlined.2.2

/-- The elements of lines in the order they stand in; statements are recorded where they are. -/
theorem lines_inOrder {statements : List ReadStatement} (lines : Lines tokens statements)
    (laid : LaidAt file text starts position tokens)
    (inLine : ∀ token ∈ tokens, SpelledInLine token) :
    (∀ read ∈ statements, Recorded file starts read) ∧
      ∃ ordered stop, InOrder text position ordered stop ∧
        ordered.Perm ((tokens.zip (startsOf starts tokens)).filterMap commentElement ++
          statements.flatMap (statementElements text starts)) := by
  induction lines generalizing position with
  | @done tokens ended =>
      have none : (tokens.zip (startsOf starts tokens)).filterMap commentElement = [] := by
        obtain ⟨rest, layout, -⟩ := laid
        generalize startsOf starts tokens = placed at layout
        cases layout with
        | done => rfl
        | @token _ _ _ _ token _ _ _ nonempty spells _ _ =>
            have isEof : token.kind = .eof := by simpa [isAtEnd] using ended
            rw [Spells, isEof] at spells
            exact absurd spells.1 nonempty
      exact ⟨by simp, [], position, Or.inl rfl, by simp [none]⟩
  | @trivia token rest statements skipped _ ih =>
      simp only [isTrivia, Bool.or_eq_true, decide_eq_true_eq] at skipped
      have others : ∀ token ∈ rest, SpelledInLine token := fun token member =>
        inLine token (List.mem_cons_of_mem _ member)
      rw [laid.zip_starts]
      rcases skipped with isNewline | isComment
      · obtain ⟨-, spelling, before, -, occupies⟩ :=
          LaidAt.token laid (by rw [isNewline]; decide)
        obtain ⟨recorded, ordered, stop, inOrder, perm⟩ :=
          ih occupies.behind others
        refine ⟨recorded, ordered, stop,
          inOrder.before (before.trans (notAfter_positionAfter _ _)), ?_⟩
        rw [List.filterMap_cons_none (by simp [commentElement, isNewline])]
        exact perm
      · obtain ⟨-, first, behind⟩ := @wordElement_inOrder file text position rest starts .comment
          token laid (inLine token List.mem_cons_self) (by rw [isComment]; decide)
        obtain ⟨recorded, ordered, stop, inOrder, perm⟩ := ih behind others
        refine ⟨recorded, _, stop, first.append inOrder, ?_⟩
        have isElement : commentElement (token, firstStart starts (token :: rest)) =
            some ⟨.comment, firstStart starts (token :: rest), token.text.toList⟩ :=
          if_pos isComment
        rw [List.filterMap_cons_some isElement]
        exact perm.cons _
  | @statement start rest statement statements read ended _ ih =>
      obtain ⟨used, -, split, inline⟩ := read.reads
      obtain ⟨here, middle, first, behind⟩ := statementElements_inOrder read laid inLine ended
      obtain ⟨recorded, ordered, stop, inOrder, perm⟩ :=
        ih behind fun token member =>
          inLine token (by rw [split]; exact List.mem_append_right _ member)
      refine ⟨List.forall_mem_cons.mpr ⟨here, recorded⟩, _, stop, first.append inOrder, ?_⟩
      have uncommented : (start.zip (startsOf starts start)).filterMap commentElement =
          (rest.zip (startsOf starts rest)).filterMap commentElement := by
        rw [split] at laid ⊢
        exact commentElements_inline laid inline
      rw [uncommented, List.flatMap_cons]
      exact (perm.append_left _).trans (List.perm_append_comm_assoc _ _ _)

/-- **The elements of an accepted source stand one behind the other**, and its statements are
recorded where 32 bits have them. -/
theorem elements_inOrder {file text : String} {source : ParsedSource}
    (accepted : parseDefinition file text = some source) :
    (∀ read ∈ source.statements, Recorded file (tokenStarts file text) read) ∧
      source.lexTokens.map Token.location = (tokenStarts file text).map (recordedAt file) ∧
      ∃ ordered stop, InOrder text.toList (1, 1) ordered stop ∧
        ordered.Perm (elements text.toList (tokenStarts file text) source) := by
  unfold parseDefinition at accepted
  dsimp only at accepted
  split at accepted
  · rename_i quiet
    rw [Bool.and_eq_true, List.isEmpty_iff, List.isEmpty_iff] at quiet
    rw [← Option.some.inj accepted]
    have lines := parseStatements_sound (Nat.lt_succ_self _) quiet.2
    have layout := lex_layout quiet.1
    have whole : startsOf (tokenStarts file text) (lex file text).1 = tokenStarts file text := by
      rw [startsOf, layout.length, Nat.sub_self, List.drop_zero]
    have laid : LaidAt file text.toList (tokenStarts file text) (1, 1) (lex file text).1 :=
      ⟨text.toList, whole.symm ▸ layout, standsAt_start _⟩
    have inOrder := lines_inOrder lines laid (lexFrom_inLine _ _ _)
    rw [whole] at inOrder
    exact ⟨inOrder.1, layout.recorded, inOrder.2⟩
  · cases accepted

end LlvmDsdl.LSP
