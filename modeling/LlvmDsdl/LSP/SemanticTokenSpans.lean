import LlvmDsdl.LSP.SourceElements

/-!
Contract: when the semantic tokens of an accepted source decode to its spans
(`LSP/Analysis.cpp`).

Owns: the order of the tokens, that decoding inverts the delta encoding, the tokens of
elements, and the sources whose tokens cover exactly the elements they stand for.
-/

namespace LlvmDsdl.LSP

open Frontend

namespace HighlightToken

instance : Std.Total Sorted where
  total lhs rhs := by
    unfold Sorted Less
    omega

instance : IsTrans HighlightToken Sorted where
  trans first second third := by
    unfold Sorted Less
    omega

end HighlightToken

open HighlightToken

variable {tokens : List HighlightToken} {token first second : HighlightToken}

theorem mem_unique : token ∈ unique tokens ↔ token ∈ tokens := by
  fun_induction unique tokens with
  | case1 first rest ih =>
      rw [ih]
      simp
  | case2 first second rest differ ih =>
      rw [List.mem_cons, ih, List.mem_cons (l := second :: rest)]
  | case3 => rfl

theorem unique_sublist (tokens : List HighlightToken) : (unique tokens).Sublist tokens := by
  fun_induction unique tokens with
  | case1 first rest ih => exact ih.cons _
  | case2 first second rest differ ih => exact ih.cons_cons _
  | case3 => exact List.Sublist.refl _

theorem unique_of_distinct (distinct : tokens.Pairwise (· ≠ ·)) : unique tokens = tokens := by
  fun_induction unique tokens with
  | case1 first rest ih =>
      exact absurd rfl ((List.pairwise_cons.mp distinct).1 first List.mem_cons_self)
  | case2 first second rest differ ih =>
      rw [ih (List.pairwise_cons.mp distinct).2]
  | case3 => rfl

variable {source : ParsedSource}

theorem mem_orderedHighlights : token ∈ orderedHighlights source ↔ token ∈ highlights source := by
  rw [orderedHighlights, mem_unique]
  exact (List.perm_insertionSort Sorted _).mem_iff

theorem orderedHighlights_sorted (source : ParsedSource) :
    (orderedHighlights source).Pairwise Sorted :=
  (List.pairwise_insertionSort Sorted _).sublist (unique_sublist _)

theorem Sorted.advances (sorted : first.Sorted second) : Advances first second := by
  unfold Sorted Less at sorted
  unfold Advances
  omega

theorem orderedHighlights_advance (source : ParsedSource) :
    (orderedHighlights source).IsChain Advances :=
  ((orderedHighlights_sorted source).imp fun sorted => Sorted.advances sorted).isChain

/-! ### Decoding -/

/-- A token whose numbers are of 32 bits, counted from one. -/
def IsCounted (token : HighlightToken) : Prop :=
  token.line + 1 < 2 ^ 32 ∧ token.character + 1 < 2 ^ 32 ∧ token.length < 2 ^ 32

theorem wrappedSub_of_le {number subtrahend : ℕ} (less : subtrahend ≤ number)
    (small : number < 2 ^ 32) : wrappedSub number subtrahend = number - subtrahend := by
  unfold wrappedSub
  omega

theorem decodeFrom_encodeFrom {previous : HighlightToken}
    (chain : (previous :: tokens).IsChain Advances) (counted : ∀ token ∈ tokens, IsCounted token) :
    decodeFrom previous.line previous.character (encodeFrom (some previous) tokens) = tokens := by
  induction tokens generalizing previous with
  | nil => rfl
  | cons token tokens ih =>
      obtain ⟨⟨line, character⟩, others⟩ := List.isChain_cons_cons.mp chain
      obtain ⟨smallLine, smallCharacter, -⟩ := counted token List.mem_cons_self
      have deltaLine := wrappedSub_of_le line (by omega)
      have nextLine : previous.line + wrappedSub token.line previous.line = token.line := by omega
      have nextCharacter : (if wrappedSub token.line previous.line = 0 then
          previous.character + (if token.line ≠ previous.line then token.character
            else wrappedSub token.character previous.character)
          else if token.line ≠ previous.line then token.character
            else wrappedSub token.character previous.character) = token.character := by
        by_cases same : token.line = previous.line
        · have deltaCharacter := wrappedSub_of_le (character same) (by omega)
          rw [if_pos (by omega), if_neg (by simp [same])]
          have := character same
          omega
        · rw [if_neg (by omega), if_pos same]
      have rest := ih others fun token member =>
        counted token (List.mem_cons_of_mem _ member)
      rw [encodeFrom, encodeToken, decodeFrom]
      dsimp only
      rw [nextLine, nextCharacter, rest]

/-! ### The tokens of a statement -/

theorem highlightAt_counted (location : SourceLocation) (length type : ℕ) :
    IsCounted (highlightAt location length type) := by
  have line := location.line.toNat_lt
  have column := location.column.toNat_lt
  unfold IsCounted highlightAt zeroBasedLine zeroBasedColumn
  dsimp only
  omega

/-- The tokens of one statement, of each list at most one. -/
def statementHighlights (statement : StatementAST) : List HighlightToken :=
  (directiveHighlight statement).toList ++ ((typeHighlight statement).toList ++
    ((fieldHighlight statement).toList ++ (constantHighlight statement).toList))

theorem count_filterMap {α : Type} (f : α → Option HighlightToken) (first : α) (others : List α)
    (token : HighlightToken) : ((first :: others).filterMap f).count token =
      (f first).toList.count token + (others.filterMap f).count token := by
  cases found : f first with
  | none => simp [found]
  | some item => simp [found, List.count_cons, Nat.add_comm]

/-- The lists of tokens hold those of every comment and of every statement. -/
theorem highlights_perm (source : ParsedSource) :
    (highlights source).Perm (source.lexTokens.filterMap commentHighlight ++
      source.statements.flatMap fun read => statementHighlights read.statement) := by
  rw [List.perm_iff_count]
  intro token
  unfold highlights statementsOf
  induction source.statements with
  | nil => simp
  | cons read statements ih =>
      simp only [List.map_cons, List.flatMap_cons, List.count_append, count_filterMap,
        statementHighlights] at ih ⊢
      omega

theorem highlights_counted : ∀ token ∈ highlights source, IsCounted token := by
  intro token member
  rw [(highlights_perm source).mem_iff, List.mem_append, List.mem_filterMap,
    List.mem_flatMap] at member
  rcases member with ⟨comment, -, found⟩ | ⟨read, -, found⟩
  · unfold commentHighlight at found
    split at found
    · rw [← Option.some.inj found]
      exact highlightAt_counted _ _ _
    · cases found
  · cases statement : read.statement <;>
      simp only [statement, statementHighlights, directiveHighlight, directiveText, typeHighlight,
        attributeType, fieldHighlight, constantHighlight, Option.map_some, Option.map_none,
        Option.toList_some, Option.toList_none, List.nil_append, List.append_nil,
        List.mem_append, List.mem_singleton] at found
    · rcases found with rfl | rfl <;> exact highlightAt_counted _ _ _
    · rcases found with rfl | rfl <;> exact highlightAt_counted _ _ _
    · rw [found]
      exact highlightAt_counted _ _ _
    · rw [found]
      exact highlightAt_counted _ _ _

/-- **Decoding inverts the encoding of every source.** -/
theorem decodeTokens_semanticTokens (source : ParsedSource) :
    decodeTokens (semanticTokens source) = orderedHighlights source := by
  have chain := orderedHighlights_advance source
  have counted : ∀ token ∈ orderedHighlights source, IsCounted token := fun token member =>
    highlights_counted token (mem_orderedHighlights.mp member)
  unfold decodeTokens semanticTokens
  cases ordered : orderedHighlights source with
  | nil => rfl
  | cons token rest =>
      rw [ordered] at chain counted
      have others := decodeFrom_encodeFrom chain fun token member =>
        counted token (List.mem_cons_of_mem _ member)
      rw [encodeFrom, encodeToken, decodeFrom]
      dsimp only
      rw [Nat.zero_add, Nat.zero_add, ite_self, others]

/-! ### The tokens of elements -/

def elementHighlight (element : Element) : HighlightToken :=
  highlightAt (recordedAt "" element.start) element.spelling.length element.kind.semanticType

/-- Numbers of 32 bits hold the place and the length of an element. -/
def Fits (element : Element) : Prop :=
  InRange element.start ∧ element.spelling.length < 2 ^ 32

variable {file : String} {text : List Char} {starts : List (ℕ × ℕ)}

theorem commentHighlights_eq {tokens : List Token}
    (located : tokens.map Token.location = starts.map (recordedAt file)) :
    tokens.filterMap commentHighlight =
      ((tokens.zip starts).filterMap commentElement).map elementHighlight := by
  induction tokens generalizing starts with
  | nil => rfl
  | cons token tokens ih =>
      cases starts with
      | nil => cases located
      | cons start starts =>
          rw [List.map_cons, List.map_cons, List.cons.injEq] at located
          have others := ih located.2
          rw [List.zip_cons_cons]
          by_cases isComment : token.kind = .comment
          · have isHighlight : commentHighlight token =
                some (elementHighlight ⟨.comment, start, token.text.toList⟩) := by
              rw [commentHighlight, if_pos isComment, located.1]
              rfl
            have isElement : commentElement (token, start) =
                some ⟨.comment, start, token.text.toList⟩ := if_pos isComment
            rw [List.filterMap_cons_some isHighlight, List.filterMap_cons_some isElement,
              List.map_cons, others]
          · have noHighlight : commentHighlight token = none := if_neg isComment
            have noElement : commentElement (token, start) = none := if_neg isComment
            rw [List.filterMap_cons_none noHighlight, List.filterMap_cons_none noElement, others]

theorem directiveText_ne (name : String) : "@" ++ name ≠ "---" := by
  intro same
  have chars := congrArg String.toList same
  rw [String.toList_append] at chars
  cases chars

/-- Where a statement prints as it is written, its tokens are those of its elements. -/
theorem statementHighlights_eq (printed : PrintsAsWritten text starts source)
    {read : ReadStatement} (member : read ∈ source.statements)
    (recorded : Recorded file starts read) : statementHighlights read.statement =
      (statementElements text starts read).map elementHighlight := by
  have inside : read.statement ∈ statementsOf source := List.mem_map_of_mem member
  have located := recorded.statement
  have typed (type : TypeExprAST) (isType : type ∈ attributeType read.statement) :
      highlightAt type.location type.str.length semanticTypeType =
        elementHighlight (typeElement text starts read) := by
    have same := (printed.types read member type isType).2
    rw [recorded.type type isType]
    unfold elementHighlight highlightAt
    rw [same]
    have small : (typeText text starts read).length < 2 ^ 32 := by
      rw [← same]
      exact Nat.mod_lt _ (by decide)
    exact congrArg (HighlightToken.mk _ _ · _ _) (Nat.mod_eq_of_lt small).symm
  cases statement : read.statement with
  | directive directive =>
      rw [statement] at located
      have length : ("@" ++ directive.rawName).length =
          ('@' :: directive.rawName.toList).length := by
        rw [← String.length_toList, String.toList_append]
        rfl
      simp only [statementHighlights, statementElements, statement, directiveHighlight,
        directiveText, typeHighlight, attributeType, fieldHighlight, constantHighlight, length,
        Option.map_none, Option.map_some, Option.toList_none, Option.toList_some,
        if_neg (directiveText_ne _), located]
      rfl
  | serviceResponseMarker location =>
      rw [statement] at located
      have length : "---".length = (dashesAt text (statementStart starts read)).length :=
        (printed.dashes read member location statement).symm
      simp only [statementHighlights, statementElements, statement, directiveHighlight,
        directiveText, typeHighlight, attributeType, fieldHighlight, constantHighlight, length,
        Option.map_none, Option.map_some, Option.toList_none, Option.toList_some, if_true, located]
      rfl
  | field field =>
      rw [statement] at inside typed located
      have unpadded := printed.named field inside
      have type := typed field.type rfl
      have name : field.location = recordedAt file (nameStart starts read) := by
        rw [isNamed, unpadded] at located
        exact located
      simp only [statementHighlights, statementElements, statement, directiveHighlight,
        directiveText, typeHighlight, attributeType, fieldHighlight, constantHighlight, unpadded,
        Option.map_none, Option.map_some, Option.toList_none, Option.toList_some, type, name]
      rfl
  | constant constant =>
      rw [statement] at typed located
      have type := typed constant.type rfl
      have name : constant.location = recordedAt file (nameStart starts read) := located
      simp only [statementHighlights, statementElements, statement, directiveHighlight,
        directiveText, typeHighlight, attributeType, fieldHighlight, constantHighlight,
        Option.map_none, Option.map_some, Option.toList_none, Option.toList_some, type, name]
      rfl

/-- The tokens of a source that prints as it is written are those of its elements. -/
theorem highlights_elements (printed : PrintsAsWritten text starts source)
    (recorded : ∀ read ∈ source.statements, Recorded file starts read)
    (located : source.lexTokens.map Token.location = starts.map (recordedAt file)) :
    (highlights source).Perm ((elements text starts source).map elementHighlight) := by
  have statements : (source.statements.flatMap fun read => statementHighlights read.statement) =
      (source.statements.flatMap (statementElements text starts)).map elementHighlight := by
    rw [List.map_flatMap]
    exact List.flatMap_congr fun read member =>
      statementHighlights_eq printed member (recorded read member)
  refine (highlights_perm source).trans ?_
  rw [commentHighlights_eq located, statements, elements, List.map_append]

/-! ### Sources that print as they are written -/

/-- What a token of an element says, where the element is of one line and fits. -/
structure Marks (text : List Char) (element : Element) : Prop where
  stands : Stands text element
  shown : element.spelling <+: textAt text element.start
  plain : '\n' ∉ element.spelling
  fits : Fits element

theorem Marks.covers {element : Element} (marks : Marks text element) :
    Covers text (elementHighlight element) element := by
  obtain ⟨inRange, length⟩ := marks.fits
  have recorded := Prod.ext_iff.mp (@position_recordedAt "" _ inRange)
  have line := marks.stands.line
  have column := marks.stands.column
  rw [← recorded.1] at line
  rw [← recorded.2] at column
  exact ⟨(Nat.sub_add_cancel line).trans recorded.1, (Nat.sub_add_cancel column).trans recorded.2,
    Nat.mod_eq_of_lt length, rfl, marks.plain, marks.shown⟩

theorem Marks.behind {first second : Element} (marks : Marks text first)
    (marks' : Marks text second) (order : NotAfter first.stop second.start) :
    Precedes ((elementHighlight first).line, (elementHighlight first).character)
        ((elementHighlight second).line, (elementHighlight second).character) ∧
      StopsBefore (elementHighlight first) (elementHighlight second) := by
  obtain ⟨line, character, length, -⟩ := marks.covers
  obtain ⟨line', character', -⟩ := marks'.covers
  have some := List.length_pos_of_ne_nil marks.stands.nonempty
  rw [Element.stop, positionAfter_line _ marks.plain] at order
  have behind : first.start.1 < second.start.1 ∨ first.start.1 = second.start.1 ∧
      first.start.2 + first.spelling.length ≤ second.start.2 := by
    rcases order with same | earlier | ⟨same, earlier⟩
    · rw [← same]
      exact Or.inr ⟨rfl, Nat.le_refl _⟩
    · exact Or.inl earlier
    · exact Or.inr ⟨same, Nat.le_of_lt earlier⟩
  unfold Precedes StopsBefore
  constructor
  · dsimp only
    omega
  · intro sameLine
    omega

theorem Sorted.of_precedes
    (precedes : Precedes first.place second.place) :
    first.Sorted second ∧ ¬second.Sorted first := by
  unfold Precedes place at precedes
  unfold HighlightToken.Sorted Less
  dsimp only at precedes
  omega

theorem eq_of_place (increasing : tokens.Pairwise fun first second =>
      Precedes first.place second.place)
    (inFirst : first ∈ tokens) (inSecond : second ∈ tokens)
    (same : first.place = second.place) : first = second := by
  by_contra differ
  have apart : tokens.Pairwise fun first second =>
      Precedes first.place second.place ∨ Precedes second.place first.place :=
    increasing.imp Or.inl
  have symmetric : Std.Symm fun first second : HighlightToken =>
      Precedes first.place second.place ∨ Precedes second.place first.place :=
    ⟨fun _ _ => Or.symm⟩
  have order := apart.forall inFirst inSecond differ
  rw [same] at order
  unfold Precedes at order
  omega

theorem orderedHighlights_eq (perm : (highlights source).Perm tokens)
    (increasing : tokens.Pairwise fun first second => Precedes first.place second.place) :
    orderedHighlights source = tokens := by
  have sorted := List.perm_insertionSort Sorted (highlights source)
  have ordered : (highlights source).insertionSort Sorted = tokens := by
    have strict : tokens.Pairwise fun first second =>
        first.Sorted second ∧ ¬second.Sorted first :=
      increasing.imp fun precedes => Sorted.of_precedes precedes
    refine List.Perm.eq_of_pairwise (fun left right inLeft inRight before after => ?_)
      (List.pairwise_insertionSort Sorted _) (strict.imp fun both => both.1)
      (sorted.trans perm)
    refine eq_of_place increasing ((sorted.trans perm).subset inLeft) inRight ?_
    unfold HighlightToken.Sorted Less at before after
    unfold place
    rw [Prod.mk.injEq]
    omega
  rw [orderedHighlights, ordered]
  refine unique_of_distinct (increasing.imp fun precedes same => ?_)
  rw [same] at precedes
  unfold Precedes at precedes
  omega

/-- An element that is not a word of one line is a type or a directive. -/
theorem element_cases {element : Element} (member : element ∈ elements text starts source) :
    element.kind ≠ .typeExpression ∧ element.kind ≠ .directive ∨
      (∃ read ∈ source.statements, ∃ type ∈ attributeType read.statement,
        element = typeElement text starts read) ∨
      ∃ read ∈ source.statements, ∃ directive, read.statement = .directive directive ∧
        element = ⟨.directive, statementStart starts read, '@' :: directive.rawName.toList⟩ := by
  rw [elements, List.mem_append, List.mem_filterMap, List.mem_flatMap] at member
  rcases member with ⟨token, -, found⟩ | ⟨read, inside, found⟩
  · unfold commentElement at found
    split at found
    · rw [← Option.some.inj found]
      exact Or.inl ⟨by simp, by simp⟩
    · cases found
  · unfold statementElements at found
    split at found
    · rename_i directive statement
      exact Or.inr (Or.inr ⟨read, inside, directive, statement, List.mem_singleton.mp found⟩)
    · rw [List.mem_singleton.mp found]
      exact Or.inl ⟨by simp, by simp⟩
    · rename_i field statement
      rcases List.mem_cons.mp found with first | name
      · exact Or.inr (Or.inl ⟨read, inside, field.type, by rw [statement]; rfl, first⟩)
      · split at name
        · cases name
        · rw [List.mem_singleton.mp name]
          exact Or.inl ⟨by simp, by simp⟩
    · rename_i constant statement
      rcases List.mem_cons.mp found with first | name
      · exact Or.inr (Or.inl ⟨read, inside, constant.type, by rw [statement]; rfl, first⟩)
      · rw [List.mem_singleton.mp name]
        exact Or.inl ⟨by simp, by simp⟩

theorem decodesToSpans_of_printed {ordered : List Element} {stop : ℕ × ℕ}
    (printed : PrintsAsWritten text starts source)
    (recorded : ∀ read ∈ source.statements, Recorded file starts read)
    (located : source.lexTokens.map Token.location = starts.map (recordedAt file))
    (inOrder : InOrder text (1, 1) ordered stop)
    (perm : ordered.Perm (elements text starts source)) : DecodesToSpans text starts source := by
  have marks : ∀ element ∈ ordered, Marks text element := by
    intro element member
    have stands := (inOrder.notBefore element member).2
    have inside := perm.subset member
    have fits := printed.bounded element inside
    rcases element_cases inside with ⟨notType, notDirective⟩ | isType | isDirective
    · exact ⟨stands, stands.shown notDirective, stands.inLine notType, fits⟩
    · obtain ⟨read, inStatements, type, hasType, rfl⟩ := isType
      have notDirective : (typeElement text starts read).kind ≠ .directive := by
        simp [typeElement]
      exact ⟨stands, stands.shown notDirective, (printed.types read inStatements type hasType).1,
        fits⟩
    · obtain ⟨read, inStatements, directive, isDirective, rfl⟩ := isDirective
      exact ⟨stands, printed.signed read inStatements directive isDirective,
        stands.inLine (by simp), fits⟩
  have behind : (ordered.map elementHighlight).Pairwise fun first second =>
      Precedes first.place second.place ∧ StopsBefore first second := by
    rw [List.pairwise_map]
    exact inOrder.pairwise.imp_of_mem fun inFirst inSecond order =>
      (marks _ inFirst).behind (marks _ inSecond) order
  have decoded : decodeTokens (semanticTokens source) = ordered.map elementHighlight := by
    rw [decodeTokens_semanticTokens]
    have same := highlights_elements printed recorded located
    exact orderedHighlights_eq (same.trans (perm.symm.map _))
      (behind.imp fun both => both.1)
  refine ⟨orderedHighlights_advance source, ?_, ?_, ?_, ?_⟩
  · rw [decoded]
    exact behind.imp fun both => both.1
  · rw [decoded]
    exact behind.imp fun both => both.2
  · intro token member
    rw [decoded] at member
    obtain ⟨element, inside, rfl⟩ := List.mem_map.mp member
    exact ⟨element, perm.subset inside, (marks element inside).covers⟩
  · intro element member
    have inside := perm.symm.subset member
    rw [decoded]
    exact ⟨_, List.mem_map_of_mem inside, (marks element inside).covers⟩

/-! ### Sources whose tokens are spans -/

theorem covers_of_place (spans : DecodesToSpans text starts source) {element : Element}
    (isElement : element ∈ elements text starts source) {location : SourceLocation}
    (located : location = recordedAt file element.start) {length type : ℕ}
    (member : highlightAt location length type ∈ highlights source) :
    Covers text (highlightAt location length type) element := by
  obtain ⟨token, isToken, covers⟩ := spans.complete element isElement
  have decoded := decodeTokens_semanticTokens source
  have increasing := spans.increasing
  rw [decoded] at isToken increasing
  have counted := highlights_counted token (mem_orderedHighlights.mp isToken)
  have place : token.place = (highlightAt location length type).place := by
    unfold IsCounted at counted
    obtain ⟨line, character, -⟩ := covers
    have recorded := Prod.ext_iff.mp
      (@position_recordedAt file element.start ⟨line ▸ counted.1, character ▸ counted.2.1⟩)
    rw [← located, ← line, ← character] at recorded
    exact Prod.ext (Nat.eq_sub_of_add_eq recorded.1.symm) (Nat.eq_sub_of_add_eq recorded.2.symm)
  rwa [← eq_of_place increasing isToken (mem_orderedHighlights.mpr member) place]

theorem mem_highlights {read : ReadStatement} (member : read ∈ source.statements)
    (isHighlight : token ∈ statementHighlights read.statement) : token ∈ highlights source := by
  rw [(highlights_perm source).mem_iff, List.mem_append, List.mem_flatMap]
  exact Or.inr ⟨read, member, isHighlight⟩

theorem mem_elements {read : ReadStatement} (member : read ∈ source.statements)
    {element : Element} (isElement : element ∈ statementElements text starts read) :
    element ∈ elements text starts source :=
  List.mem_append_right _ (List.mem_flatMap.mpr ⟨read, member, isElement⟩)

section Spans

variable (spans : DecodesToSpans text starts source) {read : ReadStatement}
  (member : read ∈ source.statements) (recorded : Recorded file starts read)

include spans member recorded

theorem attributeType_covered {type : TypeExprAST}
    (isType : type ∈ attributeType read.statement) :
    Covers text (highlightAt type.location type.str.length semanticTypeType)
      (typeElement text starts read) := by
  apply covers_of_place spans (mem_elements member ?_) (recorded.type type isType)
    (mem_highlights member ?_)
  · cases statement : read.statement with
    | directive | serviceResponseMarker => simp [statement, attributeType] at isType
    | field | constant => simp [statementElements, statement]
  · have found : attributeType read.statement = some type := isType
    simp [statementHighlights, typeHighlight, found]

/-- The token of a padding field's empty name would cover its type. -/
theorem field_unpadded {field : FieldDeclAST} (statement : read.statement = .field field) :
    field.isPadding = false := by
  by_contra padded
  rw [Bool.not_eq_false] at padded
  have isElement : typeElement text starts read ∈ elements text starts source :=
    mem_elements member (by simp [statementElements, statement])
  have located : field.location = recordedAt file (statementStart starts read) := by
    have located := recorded.statement
    rw [statement, isNamed, padded] at located
    exact located
  have isName : highlightAt field.location field.name.length semanticTypeProperty ∈
      highlights source :=
    mem_highlights member (by simp [statementHighlights, statement, fieldHighlight])
  have covers := covers_of_place spans isElement located isName
  have same : semanticTypeProperty = semanticTypeType := covers.2.2.2.1
  exact absurd same (by decide)

omit recorded in
theorem directive_covered {directive : DirectiveAST}
    (statement : read.statement = .directive directive) :
    '@' :: directive.rawName.toList <+: textAt text (statementStart starts read) := by
  have isElement : (⟨.directive, statementStart starts read,
      '@' :: directive.rawName.toList⟩ : Element) ∈ elements text starts source :=
    mem_elements member (by simp [statementElements, statement])
  obtain ⟨_, -, covers⟩ := spans.complete _ isElement
  exact covers.2.2.2.2.2

theorem marker_covered {location : SourceLocation}
    (statement : read.statement = .serviceResponseMarker location) :
    (dashesAt text (statementStart starts read)).length = 3 := by
  have isElement : (⟨.responseMarker, statementStart starts read,
      dashesAt text (statementStart starts read)⟩ : Element) ∈ elements text starts source :=
    mem_elements member (by simp [statementElements, statement])
  have isMarker : highlightAt location "---".length semanticTypeOperator ∈ highlights source :=
    mem_highlights member (by
      simp [statementHighlights, statement, directiveHighlight, directiveText,
        StatementAST.location])
  have located : location = recordedAt file (statementStart starts read) := by
    have located := recorded.statement
    rw [statement] at located
    exact located
  exact (covers_of_place spans isElement located isMarker).2.2.1.symm

end Spans

/-- A source whose tokens decode to its spans prints as it is written. -/
theorem printed_of_decodesToSpans
    (recorded : ∀ read ∈ source.statements, Recorded file starts read)
    (spans : DecodesToSpans text starts source) : PrintsAsWritten text starts source := by
  refine ⟨fun field member => ?_, fun read member directive statement => ?_,
    fun read member location statement => ?_, fun read member type isType => ?_,
    fun element member => ?_⟩
  · obtain ⟨read, inside, statement⟩ := List.mem_map.mp member
    exact field_unpadded spans inside (recorded read inside) statement
  · exact directive_covered spans member statement
  · exact marker_covered spans member (recorded read member) statement
  · have covers := attributeType_covered spans member (recorded read member) isType
    exact ⟨covers.2.2.2.2.1, covers.2.2.1⟩
  · obtain ⟨token, isToken, line, character, length, -⟩ := spans.complete element member
    rw [decodeTokens_semanticTokens, mem_orderedHighlights] at isToken
    have counted := highlights_counted token isToken
    unfold IsCounted at counted
    unfold InRange
    omega

/-- **Semantic tokens decode to the spans of a source exactly when it has no padding, every name of
a directive is behind its sign, its response markers are of three dashes, and every type of it is
written in one line at the length it prints in**, as far as 32 bits hold positions and lengths. -/
theorem semanticTokens_span_iff (file text : String) (source : ParsedSource)
    (accepted : parseDefinition file text = some source) :
    DecodesToSpans text.toList (tokenStarts file text) source ↔
      PrintsAsWritten text.toList (tokenStarts file text) source := by
  obtain ⟨recorded, located, ordered, stop, inOrder, perm⟩ := elements_inOrder accepted
  exact ⟨printed_of_decodesToSpans recorded,
    fun printed => decodesToSpans_of_printed printed recorded located inOrder perm⟩

/-- A commented service whose types are written as they print. -/
def writtenText : String :=
  "bool a # flag\nsaturated uint8 N = 1\n@sealed\n---\nns.T.1.0 b\n@sealed\n"

theorem writtenText_accepted : (parseDefinition "a" writtenText).isSome = true := by
  decide +kernel

theorem semanticTokens_span_iff_written :
    DecodesToSpans writtenText.toList (tokenStarts "a" writtenText)
        ((parseDefinition "a" writtenText).get writtenText_accepted) ↔
      PrintsAsWritten writtenText.toList (tokenStarts "a" writtenText)
        ((parseDefinition "a" writtenText).get writtenText_accepted) :=
  semanticTokens_span_iff "a" writtenText _ (Option.some_get writtenText_accepted).symm

/-- A type whose cast mode is implied. -/
def impliedText : String :=
  "uint8 x\n@sealed\n"

theorem impliedText_accepted : (parseDefinition "a" impliedText).isSome = true := by
  decide +kernel

/-- Its token is of fifteen characters, ten of which are not there. -/
theorem semanticTokens_overlong : ¬∀ (file text : String) (source : ParsedSource),
    parseDefinition file text = some source →
      DecodesToSpans text.toList (tokenStarts file text) source := by
  intro all
  have spans := all "a" impliedText _ (Option.some_get impliedText_accepted).symm
  have covers := spans.covers ⟨0, 0, 15, semanticTypeType, 0⟩ (by decide +kernel)
  exact absurd covers (by decide +kernel)

end LlvmDsdl.LSP
