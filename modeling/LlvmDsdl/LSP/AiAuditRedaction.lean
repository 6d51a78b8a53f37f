import LlvmDsdl.LSP.AiAudit

/-!
Contract: what the audit records reveal of the secrets in a request.

Owns: JSON texts as sequences of their parts, texts that differ in secrets only,
the first pattern's scan over each kind of part, and exactly which secrets the
records hide.

A name stands as the serialiser writes it, which escapes no letter of it. The
parts allow every JSON text and more: how they nest is not looked at.
-/

namespace LlvmDsdl.LSP.AiAudit

open Library.ReplaceAll

/-! ### JSON texts -/

/-- The content of a JSON string: every quote in it is behind its own backslash. -/
inductive Spelled : Bytes → Prop
  | nil : Spelled []
  | escape (c : Char) {rest : Bytes} (others : Spelled rest) : Spelled ('\\' :: c :: rest)
  | plain {c : Char} {rest : Bytes} (notQuote : c ≠ '"') (notEscape : c ≠ '\\')
      (others : Spelled rest) : Spelled (c :: rest)

structure Spelling where
  chars : Bytes
  spelled : Spelled chars

structure Blanks where
  chars : Bytes
  blank : ∀ c ∈ chars, isSpace c = true

def quoted (chars : Bytes) : Bytes :=
  '"' :: chars ++ ['"']

/-- A piece of a JSON text. -/
inductive Part where
  /-- Brackets, commas, numbers and literals that follow one. -/
  | run (first : Char) (others : Bytes) (opens : first.isAlpha = false)
      (apart : '"' ∉ first :: others ∧ ':' ∉ first :: others)
  /-- A string that is no member's name. -/
  | text (content : Spelling)
  /-- A member whose value begins with no quote. -/
  | member (key : Spelling) (before after : Blanks) (first : Char) (others : Bytes)
      (starts : isSpace first = false) (apart : '"' ∉ first :: others)
  /-- A member whose value is a string. -/
  | pair (key : Spelling) (before after : Blanks) (content : Spelling)
  /-- A secret. -/
  | secret (name : Bytes) (isSecret : IsSecretName name) (before after : Blanks)
      (content : Spelling)

namespace Part

def render : Part → Bytes
  | run first others _ _ => first :: others
  | text content => quoted content.chars
  | member key before after first others _ _ =>
      quoted key.chars ++ before.chars ++ ':' :: (after.chars ++ first :: others)
  | pair key before after content =>
      quoted key.chars ++ before.chars ++ ':' :: (after.chars ++ quoted content.chars)
  | secret name _ before after content =>
      quoted name ++ before.chars ++ ':' :: (after.chars ++ quoted content.chars)

end Part

/-- A JSON text. -/
def render (parts : List Part) : Bytes :=
  parts.flatMap Part.render

/-- A value that the first pattern takes whole. -/
def Spelling.Plain (value : Spelling) : Prop :=
  value.chars ≠ [] ∧ '"' ∉ value.chars

/-! ### Splitting texts -/

variable {text rest tail name value before after : Bytes} {c : Char}

theorem blanks_split {other : Bytes} {first second : Char} {after after' : Bytes}
    (blank : ∀ c ∈ before, isSpace c = true) (blank' : ∀ c ∈ other, isSpace c = true)
    (notBlank : isSpace first = false) (notBlank' : isSpace second = false)
    (same : before ++ first :: after = other ++ second :: after') :
    before = other ∧ first = second ∧ after = after' := by
  induction before generalizing other with
  | nil =>
      cases other with
      | nil => simpa using same
      | cons c other =>
          rw [List.nil_append, List.cons_append, List.cons.injEq] at same
          rw [same.1, blank' c List.mem_cons_self] at notBlank
          exact absurd notBlank (by decide)
  | cons c before ih =>
      cases other with
      | nil =>
          rw [List.nil_append, List.cons_append, List.cons.injEq] at same
          rw [← same.1, blank c List.mem_cons_self] at notBlank'
          exact absurd notBlank' (by decide)
      | cons c' other =>
          rw [List.cons_append, List.cons_append, List.cons.injEq] at same
          have later := ih
            (fun c member => blank c (List.mem_cons_of_mem _ member))
            (fun c member => blank' c (List.mem_cons_of_mem _ member)) same.2
          exact ⟨by rw [same.1, later.1], later.2⟩

theorem dropWhile_blanks (blank : ∀ c ∈ before, isSpace c = true) (notBlank : isSpace c = false) :
    (before ++ c :: rest).dropWhile isSpace = c :: rest := by
  rw [List.dropWhile_append_of_pos blank, List.dropWhile_cons_of_neg (by simp [notBlank])]

/-- A text without quotes up to a quote is the content of the string that begins there. -/
theorem Spelled.split (spelled : Spelled text) (noQuote : '"' ∉ name) (noEscape : '\\' ∉ name)
    (same : name ++ '"' :: tail = text ++ '"' :: rest) : name = text ∧ tail = rest := by
  induction spelled generalizing name with
  | nil =>
      cases name with
      | nil => simpa using same
      | cons c name =>
          rw [List.cons_append, List.nil_append, List.cons.injEq] at same
          exact absurd (same.1 ▸ List.mem_cons_self) noQuote
  | escape c others =>
      cases name with
      | nil => simp at same
      | cons first name =>
          rw [List.cons_append, List.cons_append, List.cons.injEq] at same
          exact absurd (same.1 ▸ List.mem_cons_self) noEscape
  | @plain c others notQuote _ _ ih =>
      cases name with
      | nil => simp [notQuote.symm] at same
      | cons first name =>
          rw [List.cons_append, List.cons_append, List.cons.injEq] at same
          have later := ih (fun member => noQuote (List.mem_cons_of_mem _ member))
            (fun member => noEscape (List.mem_cons_of_mem _ member)) same.2
          exact ⟨by rw [same.1, later.1], later.2⟩

/-- What follows the first quote in a string's content is a string's content. -/
theorem Spelled.behind (spelled : Spelled text) (noQuote : '"' ∉ before)
    (whole : text = before ++ '"' :: after) : Spelled after := by
  induction spelled generalizing before with
  | nil => simp at whole
  | escape c others ih =>
      cases before with
      | nil => simp at whole
      | cons first before =>
          rw [List.cons_append, List.cons.injEq] at whole
          cases before with
          | nil =>
              rw [List.nil_append, List.cons.injEq] at whole
              rwa [← whole.2.2]
          | cons second before =>
              rw [List.cons_append, List.cons.injEq] at whole
              exact ih (fun member => noQuote (by simp [member])) whole.2.2
  | plain notQuote _ _ ih =>
      cases before with
      | nil => simp [notQuote] at whole
      | cons first before =>
          rw [List.cons_append, List.cons.injEq] at whole
          exact ih (fun member => noQuote (by simp [member])) whole.2

/-! ### Matches of the first pattern -/

theorem jsonKeyValueAt_match (secret : IsSecretName name)
    (blank : ∀ c ∈ before, isSpace c = true) (blank' : ∀ c ∈ after, isSpace c = true)
    (nonempty : value ≠ []) (noQuote : '"' ∉ value) :
    jsonKeyValueAt (quoted name ++ before ++ ':' :: (after ++ '"' :: (value ++ '"' :: rest))) =
      some (quoted name ++ before ++ ':' :: (after ++ quoted redacted), rest) := by
  have notQuote : ∀ c ∈ value, decide (c ≠ '"') = true := fun c member =>
    decide_eq_true fun same => noQuote (same ▸ member)
  have taken : (value ++ '"' :: rest).takeWhile (· ≠ '"') = value := by
    rw [List.takeWhile_append_of_pos notQuote, List.takeWhile_cons_of_neg (by decide),
      List.append_nil]
  have left : (value ++ '"' :: rest).dropWhile (· ≠ '"') = '"' :: rest := by
    rw [List.dropWhile_append_of_pos notQuote, List.dropWhile_cons_of_neg (by decide)]
  have whole : quoted name ++ before ++ ':' :: (after ++ '"' :: (value ++ '"' :: rest)) =
      '"' :: (name ++ '"' :: (before ++ ':' :: (after ++ '"' :: (value ++ '"' :: rest)))) := by
    simp [quoted]
  have kept : textBefore
      (quoted name ++ before ++ ':' :: (after ++ '"' :: (value ++ '"' :: rest)))
      (value ++ '"' :: rest) = quoted name ++ before ++ ':' :: (after ++ ['"']) := by
    have split : quoted name ++ before ++ ':' :: (after ++ '"' :: (value ++ '"' :: rest)) =
        (quoted name ++ before ++ ':' :: (after ++ ['"'])) ++ (value ++ '"' :: rest) := by
      simp
    rw [split, textBefore, List.length_append, Nat.add_sub_cancel, List.take_left]
  rw [whole] at kept
  rw [whole, jsonKeyValueAt, dropChar_cons, Option.bind_some, dropName_append secret,
    Option.bind_some, dropChar_cons, Option.bind_some, dropWhile_blanks blank (by decide),
    dropChar_cons, Option.bind_some, dropWhile_blanks blank' (by decide), dropChar_cons,
    Option.bind_some, taken, if_neg nonempty, left, dropChar_cons, Option.map_some, kept]
  simp [quoted]

theorem jsonKeyValueAt_some {out : Bytes} (found : jsonKeyValueAt text = some (out, rest)) :
    ∃ name before after value, IsSecretName name ∧ (∀ c ∈ before, isSpace c = true) ∧
      (∀ c ∈ after, isSpace c = true) ∧ value ≠ [] ∧ '"' ∉ value ∧
      text = quoted name ++ before ++ ':' :: (after ++ '"' :: (value ++ '"' :: rest)) := by
  simp only [jsonKeyValueAt, Option.bind_eq_some_iff] at found
  obtain ⟨named, opened, closed, isName, spaced, isClosed, colon, isColon, value, isValue,
    found⟩ := found
  split at found
  · simp at found
  · rename_i nonempty
    simp only [Option.map_eq_some_iff, Prod.mk.injEq] at found
    obtain ⟨last, ended, -, rfl⟩ := found
    obtain ⟨name, secret, rfl⟩ := secretName_of_dropName isName
    refine ⟨name, spaced.takeWhile isSpace, colon.takeWhile isSpace, value.takeWhile (· ≠ '"'),
      secret, fun c member => List.mem_takeWhile_imp member,
      fun c member => List.mem_takeWhile_imp member, nonempty,
      fun member => by simpa using List.mem_takeWhile_imp member, ?_⟩
    rw [dropChar_eq_some] at opened isClosed isColon isValue ended
    rw [opened, isClosed, ← ended, List.takeWhile_append_dropWhile, ← isValue,
      List.takeWhile_append_dropWhile, quoted]
    simp [← isColon, List.takeWhile_append_dropWhile]

theorem jsonKeyValueAt_other (notQuote : c ≠ '"') : jsonKeyValueAt (c :: rest) = none := by
  rw [jsonKeyValueAt, dropChar_other (fun tail same => notQuote (List.cons.inj same).1)]
  rfl

/-! ### The scan of a text -/

theorem jsonKeyValue_copy (noQuote : '"' ∉ text) :
    jsonKeyValue.replaceAll (text ++ rest) = text ++ jsonKeyValue.replaceAll rest := by
  refine Pattern.replaceAll_append fun before after whole nonempty => ?_
  obtain ⟨c, after, rfl⟩ := List.exists_cons_of_ne_nil nonempty
  refine jsonKeyValueAt_other fun same => noQuote ?_
  rw [whole, same]
  exact List.mem_append_right _ List.mem_cons_self

/-- What may follow a string that is copied: no value between quotes. -/
structure Closed (rest : Bytes) : Prop where
  noLetter : ∀ c after, rest = c :: after → c.isAlpha = false
  noValue : ∀ before after value, (∀ c ∈ before, isSpace c = true) →
    (∀ c ∈ after, isSpace c = true) → rest ≠ before ++ ':' :: (after ++ '"' :: value)

theorem IsSecretName.noQuote (secret : IsSecretName name) : '"' ∉ name :=
  secret.not_mem (by decide)

theorem IsSecretName.noEscape (secret : IsSecretName name) : '\\' ∉ name :=
  secret.not_mem (by decide)

/-- A match at the quote before a content takes that content for the name. -/
theorem name_of_match {out : Bytes} (spelled : Spelled text)
    (found : jsonKeyValueAt ('"' :: (text ++ '"' :: tail)) = some (out, rest)) :
    IsSecretName text ∧ ∃ before after value, (∀ c ∈ before, isSpace c = true) ∧
      (∀ c ∈ after, isSpace c = true) ∧ value ≠ [] ∧ '"' ∉ value ∧
      tail = before ++ ':' :: (after ++ '"' :: (value ++ '"' :: rest)) := by
  obtain ⟨name, before, after, value, secret, blank, blank', nonempty, noQuote, whole⟩ :=
    jsonKeyValueAt_some found
  have same : name ++ '"' :: (before ++ ':' :: (after ++ '"' :: (value ++ '"' :: rest))) =
      text ++ '"' :: tail := by
    simpa [quoted] using whole.symm
  obtain ⟨rfl, rfl⟩ := spelled.split secret.noQuote secret.noEscape same
  exact ⟨secret, before, after, value, blank, blank', nonempty, noQuote, rfl⟩

theorem Closed.unmatched (closed : Closed rest) (spelled : Spelled text) :
    jsonKeyValueAt ('"' :: (text ++ '"' :: rest)) = none := by
  refine Option.eq_none_iff_forall_ne_some.mpr fun result found => ?_
  obtain ⟨-, before, after, value, blank, blank', -, -, whole⟩ := name_of_match spelled found
  exact closed.noValue before after _ blank blank' whole

theorem unmatched_end (noLetter : ∀ c after, rest = c :: after → c.isAlpha = false) :
    jsonKeyValueAt ('"' :: rest) = none := by
  refine Option.eq_none_iff_forall_ne_some.mpr fun result found => ?_
  obtain ⟨name, before, after, value, secret, -, -, -, -, whole⟩ := jsonKeyValueAt_some found
  obtain ⟨first, others, rfl, letter⟩ := secret.starts
  have head : rest = first :: (others ++ '"' :: (before ++ ':' ::
      (after ++ '"' :: (value ++ '"' :: result.2)))) := by
    simpa [quoted] using whole
  rw [noLetter _ _ head] at letter
  exact absurd letter (by decide)

/-- The rest of a string with nothing between quotes behind it is copied. -/
theorem Closed.copy_content (closed : Closed rest) (spelled : Spelled text) :
    jsonKeyValue.replaceAll (text ++ '"' :: rest) =
      text ++ '"' :: jsonKeyValue.replaceAll rest := by
  induction spelled with
  | nil => exact Pattern.replaceAll_skip (unmatched_end closed.noLetter)
  | @escape c others spelled ih =>
      have second : jsonKeyValueAt (c :: (others ++ '"' :: rest)) = none := by
        by_cases quote : c = '"'
        · rw [quote]
          exact closed.unmatched spelled
        · exact jsonKeyValueAt_other quote
      have first : jsonKeyValueAt ('\\' :: c :: (others ++ '"' :: rest)) = none :=
        jsonKeyValueAt_other (by decide)
      rw [List.cons_append, List.cons_append, Pattern.replaceAll_skip first,
        Pattern.replaceAll_skip second, ih]
      rfl
  | plain notQuote _ _ ih =>
      rw [List.cons_append, Pattern.replaceAll_skip (jsonKeyValueAt_other notQuote),
        ih]
      rfl

theorem Closed.copy_quoted (closed : Closed rest) (spelled : Spelled text) :
    jsonKeyValue.replaceAll (quoted text ++ rest) =
      quoted text ++ jsonKeyValue.replaceAll rest := by
  have whole : quoted text ++ rest = '"' :: (text ++ '"' :: rest) := by simp [quoted]
  rw [whole, Pattern.replaceAll_skip (closed.unmatched spelled), closed.copy_content spelled]
  simp [quoted]

/-! ### The scan of a part -/

structure Follows (rest : Bytes) : Prop where
  noLetter : ∀ c after, rest = c :: after → c.isAlpha = false
  noColon : ∀ before after, (∀ c ∈ before, isSpace c = true) → rest ≠ before ++ ':' :: after

theorem Follows.closed (follows : Follows rest) : Closed rest :=
  ⟨follows.noLetter, fun _ _ _ blank _ => follows.noColon _ _ blank⟩

/-- What a text made of what follows it is rewritten to ends with that rewritten. -/
def Aligned (text : Bytes → Bytes) : Prop :=
  ∃ out, ∀ rest, Follows rest →
    jsonKeyValue.replaceAll (text rest) = out ++ jsonKeyValue.replaceAll rest

theorem Aligned.cons {text : Bytes → Bytes} (aligned : Aligned text)
    (unmatched : ∀ rest, Follows rest → jsonKeyValueAt (c :: text rest) = none) :
    Aligned fun rest => c :: text rest := by
  obtain ⟨out, rewritten⟩ := aligned
  refine ⟨c :: out, fun rest follows => ?_⟩
  rw [Pattern.replaceAll_skip (unmatched rest follows), rewritten rest follows, List.cons_append]

/-- A separator between a name and its value is not the end of a string. -/
theorem separator_noLetter (blank : ∀ c ∈ before, isSpace c = true) :
    ∀ c after, before ++ ':' :: rest = c :: after → c.isAlpha = false := by
  intro c after whole
  cases before with
  | nil =>
      rw [List.nil_append, List.cons.injEq] at whole
      rw [← whole.1]
      decide
  | cons first others =>
      rw [List.cons_append, List.cons.injEq] at whole
      have isBlank := blank first List.mem_cons_self
      rw [whole.1] at isBlank
      simp only [isSpace, Bool.or_eq_true, decide_eq_true_eq] at isBlank
      rcases isBlank with ((((rfl | rfl) | rfl) | rfl) | rfl) | rfl <;> decide

theorem noQuote_of_blank (blank : ∀ c ∈ before, isSpace c = true) : '"' ∉ before := by
  intro member
  exact absurd (blank _ member) (by decide)

theorem aligned_member (key : Spelling) (before after : Blanks) {first : Char} {others : Bytes}
    (starts : isSpace first = false) (apart : '"' ∉ first :: others) :
    Aligned fun rest => quoted key.chars ++
      (before.chars ++ ':' :: (after.chars ++ first :: others) ++ rest) := by
  have noQuote : '"' ∉ before.chars ++ ':' :: (after.chars ++ first :: others) := by
    simp [noQuote_of_blank before.blank, noQuote_of_blank after.blank] at apart ⊢
    exact apart
  refine ⟨quoted key.chars ++ (before.chars ++ ':' :: (after.chars ++ first :: others)),
    fun rest follows => ?_⟩
  have closed : Closed (before.chars ++ ':' :: (after.chars ++ first :: others) ++ rest) := by
    rw [List.append_assoc, List.cons_append, List.append_assoc, List.cons_append]
    refine ⟨separator_noLetter before.blank, fun before' after' value blank blank' same => ?_⟩
    obtain ⟨-, -, same⟩ := blanks_split before.blank blank (by decide) (by decide) same
    obtain ⟨-, quote, -⟩ := blanks_split after.blank blank' starts (by decide) same
    exact apart (quote ▸ List.mem_cons_self)
  rw [closed.copy_quoted key.spelled, jsonKeyValue_copy noQuote, ← List.append_assoc]

/-- The value of a member, with the separator before it. -/
def valueTail (before after : Blanks) (content : Spelling) (rest : Bytes) : Bytes :=
  before.chars ++ ':' :: (after.chars ++ (quoted content.chars ++ rest))

theorem aligned_valueTail (before after : Blanks) (content : Spelling) :
    Aligned (valueTail before after content) := by
  refine ⟨before.chars ++ ':' :: (after.chars ++ quoted content.chars), fun rest follows => ?_⟩
  have noQuote : '"' ∉ before.chars ++ ':' :: after.chars := by
    simp [noQuote_of_blank before.blank, noQuote_of_blank after.blank]
  have whole : valueTail before after content rest =
      (before.chars ++ ':' :: after.chars) ++ (quoted content.chars ++ rest) := by
    simp [valueTail]
  rw [whole, jsonKeyValue_copy noQuote, follows.closed.copy_quoted content.spelled]
  simp

theorem takeWhile_content (content : Bytes) :
    (content ++ '"' :: rest).takeWhile (· ≠ '"') = content.takeWhile (· ≠ '"') := by
  induction content with
  | nil => simp
  | cons c content ih =>
      rw [List.cons_append, List.takeWhile_cons, List.takeWhile_cons, ih]

/-- A quote before a suffix of a member's name: a match takes the value to its first quote, which
leaves the rest of the value aligned. -/
theorem aligned_quote (before after : Blanks) (content : Spelling) (spelled : Spelled text)
    (skipped : Aligned fun rest => text ++ '"' :: valueTail before after content rest) :
    Aligned fun rest => '"' :: (text ++ '"' :: valueTail before after content rest) := by
  by_cases taken : IsSecretName text ∧ content.chars.takeWhile (· ≠ '"') ≠ []
  · obtain ⟨secret, nonempty⟩ := taken
    have noQuote : '"' ∉ content.chars.takeWhile (· ≠ '"') := fun member => by
      simpa using List.mem_takeWhile_imp member
    have found (rest left : Bytes)
        (split : content.chars ++ '"' :: rest = content.chars.takeWhile (· ≠ '"') ++ '"' :: left) :
        jsonKeyValueAt ('"' :: (text ++ '"' :: valueTail before after content rest)) =
          some (quoted text ++ before.chars ++ ':' :: (after.chars ++ quoted redacted), left) := by
      have matched := @jsonKeyValueAt_match left text _ _ _ secret before.blank after.blank
        nonempty noQuote
      rw [← split] at matched
      simpa [valueTail, quoted] using matched
    have whole := List.takeWhile_append_dropWhile (p := (· ≠ '"')) (l := content.chars)
    cases cut : content.chars.dropWhile (· ≠ '"') with
    | nil =>
        rw [cut, List.append_nil] at whole
        exact ⟨quoted text ++ before.chars ++ ':' :: (after.chars ++ quoted redacted),
          fun rest _ => Pattern.replaceAll_match (found rest rest (by rw [whole]))⟩
    | cons c left =>
        have quote : c = '"' := by
          have stops := List.head?_dropWhile_not (· ≠ '"') content.chars
          rw [cut] at stops
          simpa using stops
        rw [cut, quote] at whole
        have others := content.spelled.behind noQuote whole.symm
        refine ⟨quoted text ++ before.chars ++ ':' :: (after.chars ++ quoted redacted) ++
          (left ++ ['"']), fun rest follows => ?_⟩
        have split : content.chars ++ '"' :: rest =
            content.chars.takeWhile (· ≠ '"') ++ '"' :: (left ++ '"' :: rest) := by
          conv_lhs => rw [← whole]
          simp
        rw [Pattern.replaceAll_match (found _ _ split), follows.closed.copy_content others]
        simp
  · refine skipped.cons fun rest follows => ?_
    refine Option.eq_none_iff_forall_ne_some.mpr fun result found => taken ?_
    obtain ⟨secret, before', after', value, blank, blank', nonempty, noQuote, same⟩ :=
      name_of_match spelled found
    have tails : before.chars ++ ':' :: (after.chars ++ '"' :: (content.chars ++ '"' :: rest)) =
        before' ++ ':' :: (after' ++ '"' :: (value ++ '"' :: result.2)) := by
      simpa [valueTail, quoted] using same
    obtain ⟨-, -, tails⟩ := blanks_split before.blank blank (by decide) (by decide) tails
    obtain ⟨-, -, tails⟩ := blanks_split after.blank blank' (by decide) (by decide) tails
    have notQuote : ∀ c ∈ value, decide (c ≠ '"') = true := fun c member =>
      decide_eq_true fun same => noQuote (same ▸ member)
    refine ⟨secret, ?_⟩
    rw [← @takeWhile_content rest, tails, List.takeWhile_append_of_pos notQuote]
    simp [nonempty]

theorem aligned_name (before after : Blanks) (content : Spelling) (spelled : Spelled text) :
    Aligned fun rest => text ++ '"' :: valueTail before after content rest := by
  induction spelled with
  | nil =>
      refine (aligned_valueTail before after content).cons fun rest follows => ?_
      exact unmatched_end (separator_noLetter before.blank)
  | @escape c others spelled ih =>
      have second : Aligned fun rest =>
          c :: (others ++ '"' :: valueTail before after content rest) := by
        by_cases quote : c = '"'
        · rw [quote]
          exact aligned_quote before after content spelled ih
        · exact ih.cons fun rest _ => jsonKeyValueAt_other quote
      exact second.cons fun rest _ => jsonKeyValueAt_other (by decide)
  | plain notQuote _ _ ih =>
      exact ih.cons fun rest _ => jsonKeyValueAt_other notQuote

theorem aligned_pair (key : Spelling) (before after : Blanks) (content : Spelling) :
    Aligned fun rest => quoted key.chars ++ valueTail before after content rest := by
  have aligned := aligned_quote before after content key.spelled
    (aligned_name before after content key.spelled)
  simpa [quoted] using aligned

theorem Spelled.of_plain (noQuote : '"' ∉ text) (noEscape : '\\' ∉ text) : Spelled text := by
  induction text with
  | nil => exact .nil
  | cons c rest ih =>
      rw [List.mem_cons, not_or] at noQuote noEscape
      exact .plain (Ne.symm noQuote.1) (Ne.symm noEscape.1)
        (ih noQuote.2 noEscape.2)

theorem Part.aligned (part : Part) : Aligned fun rest => part.render ++ rest := by
  cases part with
  | run first others opens apart =>
      exact ⟨first :: others, fun rest _ => jsonKeyValue_copy apart.1⟩
  | text content =>
      exact ⟨quoted content.chars, fun rest follows => follows.closed.copy_quoted content.spelled⟩
  | member key before after first others starts apart =>
      have aligned := aligned_member key before after starts apart
      simpa [Part.render] using aligned
  | pair key before after content =>
      have aligned := aligned_pair key before after content
      simpa [Part.render, valueTail] using aligned
  | secret name isSecret before after content =>
      have spelled := Spelled.of_plain isSecret.noQuote isSecret.noEscape
      have aligned := aligned_pair ⟨name, spelled⟩ before after content
      simpa [Part.render, valueTail] using aligned

theorem Follows.run (follows : Follows rest) {first : Char} {others : Bytes}
    (opens : first.isAlpha = false) (noColon : ':' ∉ first :: others) :
    Follows (first :: others ++ rest) := by
  refine ⟨fun c after same => ?_, fun before after blank same => ?_⟩
  · rw [← (List.cons.inj same).1]
    exact opens
  · rcases List.append_eq_append_iff.mp same with ⟨more, whole, left⟩ | ⟨more, whole, left⟩
    · exact follows.noColon more after (fun c member => blank c (by simp [whole, member])) left
    · cases more with
      | nil => exact follows.noColon [] after (by simp) left.symm
      | cons c more =>
          rw [List.cons_append, List.cons.injEq] at left
          exact noColon (by rw [whole, ← left.1]; simp)

end LlvmDsdl.LSP.AiAudit
