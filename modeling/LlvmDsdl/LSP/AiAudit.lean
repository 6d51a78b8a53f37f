import LlvmDsdl.Library.ReplaceAll

/-!
Contract: the audit log of the AI requests (`LSP/AI.cpp`).

Owns: the three patterns of `redactSensitive` as scans of a text, what each of
them matches, the rewriting by one after another, and `record` with its bounds.

A text is a list of characters, one for each byte. The patterns use ASCII classes
and letter case, as in the C locale; each of their repetitions is followed by
what it cannot match itself, so that none of them backtracks.
-/

namespace LlvmDsdl.LSP.AiAudit

open Library.ReplaceAll

abbrev Bytes := List Char

def redacted : Bytes := "[REDACTED]".toList

/-- The class `\s`. -/
def isSpace (c : Char) : Bool :=
  c = ' ' || c = '\t' || c = '\n' || c = '\x0b' || c = '\x0c' || c = '\r'

def dropChar (c : Char) : Bytes → Option Bytes
  | first :: rest => if first = c then some rest else none
  | [] => none

/-- The text behind a word, whatever the case of its letters. -/
def dropWord : List Char → Bytes → Option Bytes
  | [], text => some text
  | letter :: letters, first :: rest =>
      if first.toLower = letter then dropWord letters rest else none
  | _ :: _, [] => none

def dropKey : Bytes → Option Bytes
  | first :: rest =>
      if first = '_' || first = '-' then dropWord "key".toList rest
      else dropWord "key".toList (first :: rest)
  | [] => none

/-- `password|token|secret|api[_-]?key`. -/
def dropName (text : Bytes) : Option Bytes :=
  (dropWord "password".toList text).or <|
    (dropWord "token".toList text).or <|
      (dropWord "secret".toList text).or ((dropWord "api".toList text).bind dropKey)

def textBefore (text rest : Bytes) : Bytes :=
  text.take (text.length - rest.length)

/-- `("name"\s*:\s*")([^"]+)(")`, to `$1[REDACTED]$3`. -/
def jsonKeyValueAt (text : Bytes) : Option (Bytes × Bytes) :=
  (dropChar '"' text).bind fun named =>
  (dropName named).bind fun closed =>
  (dropChar '"' closed).bind fun spaced =>
  (dropChar ':' (spaced.dropWhile isSpace)).bind fun colon =>
  (dropChar '"' (colon.dropWhile isSpace)).bind fun value =>
  if value.takeWhile (· ≠ '"') = [] then none
  else
    (dropChar '"' (value.dropWhile (· ≠ '"'))).map fun rest =>
      (textBefore text value ++ redacted ++ ['"'], rest)

/-- `[^\s,;]`. -/
def isValueChar (c : Char) : Bool :=
  !isSpace c && c ≠ ',' && c ≠ ';'

/-- `(name\s*[:=]\s*)([^\s,;]+)`, to `$1[REDACTED]`. -/
def keyValueAt (text : Bytes) : Option (Bytes × Bytes) :=
  (dropName text).bind fun named =>
  ((dropChar ':' (named.dropWhile isSpace)).or
    (dropChar '=' (named.dropWhile isSpace))).bind fun separated =>
  let value := separated.dropWhile isSpace
  if value.takeWhile isValueChar = [] then none
  else some (textBefore text value ++ redacted, value.dropWhile isValueChar)

/-- `[A-Za-z0-9._-]`. -/
def isTokenChar (c : Char) : Bool :=
  c.isAlphanum || c = '.' || c = '_' || c = '-'

/-- `(bearer\s+)([A-Za-z0-9._-]+)`, to `$1[REDACTED]`. -/
def bearerAt (text : Bytes) : Option (Bytes × Bytes) :=
  (dropWord "bearer".toList text).bind fun named =>
  if named.takeWhile isSpace = [] then none
  else
    let value := named.dropWhile isSpace
    if value.takeWhile isTokenChar = [] then none
    else some (textBefore text value ++ redacted, value.dropWhile isTokenChar)

variable {text rest name : Bytes} {c : Char}

theorem dropChar_eq_some : dropChar c text = some rest ↔ text = c :: rest := by
  cases text with
  | nil => simp [dropChar]
  | cons first tail =>
      rw [dropChar]
      split
      · rename_i same
        rw [same, Option.some.injEq, List.cons.injEq, and_iff_right rfl]
      · rename_i differs
        simp [differs]

@[simp] theorem dropChar_cons : dropChar c (c :: rest) = some rest :=
  dropChar_eq_some.mpr rfl

theorem dropChar_other (differs : ∀ tail, text ≠ c :: tail) : dropChar c text = none :=
  Option.eq_none_iff_forall_ne_some.mpr fun tail dropped =>
    differs tail (dropChar_eq_some.mp dropped)

theorem dropWord_eq_some {letters : List Char} : dropWord letters text = some rest ↔
    ∃ word : Bytes, word.map Char.toLower = letters ∧ text = word ++ rest := by
  induction letters generalizing text with
  | nil => simp [dropWord, eq_comm]
  | cons letter letters ih =>
      cases text with
      | nil => simp [dropWord, List.map_eq_cons_iff]
      | cons first tail =>
          rw [dropWord]
          constructor
          · intro dropped
            split at dropped
            · rename_i same
              obtain ⟨word, spelled, rfl⟩ := ih.mp dropped
              exact ⟨first :: word, by rw [List.map_cons, same, spelled], rfl⟩
            · simp at dropped
          · intro found
            obtain ⟨word, spelled, whole⟩ := found
            obtain ⟨start, others, rfl, same, spelled⟩ := List.map_eq_cons_iff.mp spelled
            rw [List.cons_append, List.cons.injEq] at whole
            rw [whole.1, if_pos same]
            exact ih.mpr ⟨others, spelled, whole.2⟩

theorem dropWord_other {letters others : List Char} (spelled : name.map Char.toLower = others)
    (differs : (letters.zip others).head?.any (fun pair => pair.1 ≠ pair.2) = true) :
    dropWord letters (name ++ rest) = none := by
  cases letters with
  | nil => simp at differs
  | cons letter letters =>
      cases others with
      | nil => simp at differs
      | cons other others =>
          obtain ⟨start, tail, rfl, same, -⟩ := List.map_eq_cons_iff.mp spelled
          have apart : letter ≠ other := by simpa using differs
          rw [List.cons_append, dropWord, same, if_neg apart.symm]

/-- A symbol before the small letters is the lower case of itself only. -/
theorem eq_of_toLower {symbol : Char} (small : symbol < 'a') (same : c.toLower = symbol) :
    c = symbol := by
  rw [Char.toLower] at same
  split at same
  · rename_i upper
    have first : 65 ≤ c.val.toNat := upper.1
    have last : c.val.toNat ≤ 90 := upper.2
    have below : symbol.val.toNat < 97 := small
    have code : symbol.val.toNat = c.val.toNat + 32 := by
      rw [← same, UInt32.toNat_add]
      have gap : ('a'.val - 'A'.val).toNat = 32 := rfl
      omega
    omega
  · exact same

def secretNames : List Bytes :=
  ["password".toList, "token".toList, "secret".toList, "apikey".toList, "api_key".toList,
    "api-key".toList]

/-- A name the patterns know, whatever the case of its letters. -/
def IsSecretName (name : Bytes) : Prop :=
  name.map Char.toLower ∈ secretNames

instance (name : Bytes) : Decidable (IsSecretName name) :=
  inferInstanceAs (Decidable (_ ∈ _))

theorem dropKey_eq_some (dropped : dropKey text = some rest) : ∃ key : Bytes,
    key.map Char.toLower ∈ ["key".toList, "_key".toList, "-key".toList] ∧ text = key ++ rest := by
  cases text with
  | nil => simp [dropKey] at dropped
  | cons first tail =>
      rw [dropKey] at dropped
      split at dropped
      · rename_i separated
        obtain ⟨word, spelled, rfl⟩ := dropWord_eq_some.mp dropped
        refine ⟨first :: word, ?_, rfl⟩
        rw [Bool.or_eq_true, decide_eq_true_eq, decide_eq_true_eq] at separated
        rcases separated with rfl | rfl <;> simp [spelled, List.map_cons]
      · obtain ⟨word, spelled, whole⟩ := dropWord_eq_some.mp dropped
        exact ⟨word, by simp [spelled], whole⟩

theorem secretName_of_dropName (dropped : dropName text = some rest) :
    ∃ name, IsSecretName name ∧ text = name ++ rest := by
  have word {letters : Bytes} (secret : letters ∈ secretNames)
      (found : dropWord letters text = some rest) :
      ∃ name, IsSecretName name ∧ text = name ++ rest := by
    obtain ⟨name, spelled, whole⟩ := dropWord_eq_some.mp found
    exact ⟨name, by rwa [IsSecretName, spelled], whole⟩
  simp only [dropName, Option.or_eq_some_iff] at dropped
  rcases dropped with found | ⟨-, found | ⟨-, found | ⟨-, found⟩⟩⟩
  · exact word (by decide) found
  · exact word (by decide) found
  · exact word (by decide) found
  · obtain ⟨middle, first, second⟩ := Option.bind_eq_some_iff.mp found
    obtain ⟨api, isApi, rfl⟩ := dropWord_eq_some.mp first
    obtain ⟨key, isKey, rfl⟩ := dropKey_eq_some second
    refine ⟨api ++ key, ?_, (List.append_assoc _ _ _).symm⟩
    rw [IsSecretName, List.map_append, isApi]
    simp only [List.mem_cons, List.not_mem_nil, or_false] at isKey
    rcases isKey with isKey | isKey | isKey <;> rw [isKey] <;> decide

theorem dropKey_append {key : Bytes}
    (isKey : key.map Char.toLower ∈ ["key".toList, "_key".toList, "-key".toList]) :
    dropKey (key ++ rest) = some rest := by
  have word {letters : Bytes} (spelled : letters.map Char.toLower = "key".toList) :
      dropWord "key".toList (letters ++ rest) = some rest :=
    dropWord_eq_some.mpr ⟨letters, spelled, rfl⟩
  have separated {symbol : Char} (small : symbol < 'a') (known : symbol = '_' ∨ symbol = '-')
      (spelled : key.map Char.toLower = symbol :: "key".toList) :
      dropKey (key ++ rest) = some rest := by
    obtain ⟨start, letters, rfl, same, spelled⟩ := List.map_eq_cons_iff.mp spelled
    rw [eq_of_toLower small same, List.cons_append, dropKey, if_pos (by simpa using known),
      word spelled]
  simp only [List.mem_cons, List.not_mem_nil, or_false] at isKey
  rcases isKey with spelled | spelled | spelled
  · obtain ⟨start, letters, rfl, same, -⟩ := List.map_eq_cons_iff.mp spelled
    have apart : ¬(start = '_' ∨ start = '-') := by
      intro symbol
      rcases symbol with rfl | rfl <;> revert same <;> decide
    rw [List.cons_append, dropKey, if_neg (by simpa using apart), ← List.cons_append, word spelled]
  · exact separated (by decide) (Or.inl rfl) spelled
  · exact separated (by decide) (Or.inr rfl) spelled

theorem dropName_append (secret : IsSecretName name) : dropName (name ++ rest) = some rest := by
  have word {letters : Bytes} (spelled : name.map Char.toLower = letters) :
      dropWord letters (name ++ rest) = some rest := dropWord_eq_some.mpr ⟨name, spelled, rfl⟩
  have other {letters others : Bytes} (spelled : name.map Char.toLower = others)
      (differs : (letters.zip others).head?.any (fun pair => pair.1 ≠ pair.2) = true) :
      dropWord letters (name ++ rest) = none := dropWord_other spelled differs
  have api (key : Bytes) (isKey : key ∈ ["key".toList, "_key".toList, "-key".toList])
      (spelled : name.map Char.toLower = "api".toList ++ key) :
      dropName (name ++ rest) = some rest := by
    have none (letters : Bytes)
        (differs : letters.head?.any (fun letter => letter ≠ 'a') = true) :
        dropWord letters (name ++ rest) = none := by
      refine other spelled ?_
      cases letters with
      | nil => simp at differs
      | cons letter letters => simpa using differs
    obtain ⟨first, second, rfl, isApi, rfl⟩ := List.map_eq_append_iff.mp spelled
    have dropped : dropWord "api".toList (first ++ second ++ rest) = some (second ++ rest) :=
      dropWord_eq_some.mpr ⟨first, isApi, List.append_assoc _ _ _⟩
    rw [dropName, none _ (by decide), none _ (by decide), none _ (by decide), dropped]
    exact dropKey_append isKey
  simp only [IsSecretName, secretNames, List.mem_cons, List.not_mem_nil, or_false] at secret
  rcases secret with spelled | spelled | spelled | spelled | spelled | spelled
  · rw [dropName, word spelled, Option.some_or]
  · rw [dropName, other spelled (by decide), word spelled, Option.none_or, Option.some_or]
  · rw [dropName, other spelled (by decide), other spelled (by decide), word spelled,
      Option.none_or, Option.none_or, Option.some_or]
  · exact api "key".toList (by decide) spelled
  · exact api "_key".toList (by decide) spelled
  · exact api "-key".toList (by decide) spelled

theorem IsSecretName.not_mem (secret : IsSecretName name)
    (foreign : secretNames.all (fun known => !known.contains c.toLower) = true) : c ∉ name := by
  intro member
  have unknown := List.all_eq_true.mp foreign _ secret
  rw [Bool.not_eq_true', List.contains_eq_mem, decide_eq_false_iff_not] at unknown
  exact unknown (List.mem_map_of_mem member)

theorem IsSecretName.starts (secret : IsSecretName name) :
    ∃ first others, name = first :: others ∧ first.isAlpha = true := by
  have known : ∀ known ∈ secretNames, ∃ first others, known = first :: others ∧
      first ∈ ['p', 't', 's', 'a'] := by
    simp [secretNames]
  obtain ⟨lower, lowers, spelled, isFirst⟩ := known _ secret
  obtain ⟨first, others, rfl, same, -⟩ := List.map_eq_cons_iff.mp spelled
  refine ⟨first, others, rfl, ?_⟩
  rw [Char.isAlpha, Bool.or_eq_true]
  by_cases upper : first.isUpper = true
  · exact Or.inl upper
  · right
    have small : first.toLower = first := by
      rw [Char.toLower, dif_neg]
      simpa [Char.isUpper] using upper
    rw [← small, same]
    simp only [List.mem_cons, List.not_mem_nil, or_false] at isFirst
    rcases isFirst with rfl | rfl | rfl | rfl <;> decide

theorem length_dropWhile_le (holds : Char → Bool) (text : Bytes) :
    (text.dropWhile holds).length ≤ text.length :=
  (List.dropWhile_sublist holds).length_le

theorem length_lt_of_dropName (dropped : dropName text = some rest) :
    rest.length < text.length := by
  obtain ⟨name, secret, rfl⟩ := secretName_of_dropName dropped
  obtain ⟨first, others, rfl, -⟩ := secret.starts
  simp [List.length_append]

theorem length_lt_of_dropChar (dropped : dropChar c text = some rest) :
    rest.length < text.length := by
  rw [dropChar_eq_some.mp dropped, List.length_cons]
  exact Nat.lt_succ_self _

theorem jsonKeyValueAt_shrinks {out : Bytes} (found : jsonKeyValueAt text = some (out, rest)) :
    rest.length < text.length := by
  simp only [jsonKeyValueAt, Option.bind_eq_some_iff] at found
  obtain ⟨named, opened, closed, isName, spaced, isClosed, colon, isColon, value, isValue,
    found⟩ := found
  split at found
  · simp at found
  · simp only [Option.map_eq_some_iff, Prod.mk.injEq] at found
    obtain ⟨after, ended, -, rfl⟩ := found
    have first := length_lt_of_dropChar opened
    have second := length_lt_of_dropName isName
    have third := length_lt_of_dropChar isClosed
    have fourth := length_lt_of_dropChar isColon
    have fifth := length_lt_of_dropChar isValue
    have last := length_lt_of_dropChar ended
    have blank := length_dropWhile_le isSpace spaced
    have blank' := length_dropWhile_le isSpace colon
    have inside := length_dropWhile_le (· ≠ '"') value
    omega

theorem keyValueAt_shrinks {out : Bytes} (found : keyValueAt text = some (out, rest)) :
    rest.length < text.length := by
  simp only [keyValueAt, Option.bind_eq_some_iff, Option.or_eq_some_iff] at found
  obtain ⟨named, isName, separated, isSeparated, found⟩ := found
  have first := length_lt_of_dropName isName
  have second : separated.length < (named.dropWhile isSpace).length := by
    rcases isSeparated with colon | ⟨-, equals⟩
    · exact length_lt_of_dropChar colon
    · exact length_lt_of_dropChar equals
  have blank := length_dropWhile_le isSpace named
  have blank' := length_dropWhile_le isSpace separated
  have inside := length_dropWhile_le isValueChar (separated.dropWhile isSpace)
  split at found
  · simp at found
  · simp only [Option.some.injEq, Prod.mk.injEq] at found
    rw [← found.2]
    omega

theorem bearerAt_shrinks {out : Bytes} (found : bearerAt text = some (out, rest)) :
    rest.length < text.length := by
  simp only [bearerAt, Option.bind_eq_some_iff] at found
  obtain ⟨named, isName, found⟩ := found
  obtain ⟨word, spelled, rfl⟩ := dropWord_eq_some.mp isName
  have long : word.length = "bearer".toList.length := by rw [← spelled, List.length_map]
  have blank := length_dropWhile_le isSpace named
  have inside := length_dropWhile_le isTokenChar (named.dropWhile isSpace)
  split at found
  · simp at found
  · split at found
    · simp at found
    · simp only [Option.some.injEq, Prod.mk.injEq] at found
      rw [← found.2, List.length_append, long]
      have letters : "bearer".toList.length = 6 := by decide
      omega

def jsonKeyValue : Pattern Char := ⟨jsonKeyValueAt, jsonKeyValueAt_shrinks⟩

def keyValue : Pattern Char := ⟨keyValueAt, keyValueAt_shrinks⟩

def bearer : Pattern Char := ⟨bearerAt, bearerAt_shrinks⟩

def redactSensitive (text : Bytes) : Bytes :=
  bearer.replaceAll (keyValue.replaceAll (jsonKeyValue.replaceAll text))

structure AiAuditRecord where
  category : Bytes
  detail : Bytes
  deriving DecidableEq

def maxRecords : ℕ := 256

def maxDetailBytes : ℕ := 4096

def truncationMarker : Bytes := "...[truncated]".toList

def keptDetail (detail : Bytes) : Bytes :=
  let shown := redactSensitive detail
  if maxDetailBytes < shown.length then shown.take maxDetailBytes ++ truncationMarker else shown

/-- `record`: the newest record is the last. -/
def record (records : List AiAuditRecord) (category detail : Bytes) : List AiAuditRecord :=
  let pushed := records ++ [⟨category, keptDetail detail⟩]
  if maxRecords < pushed.length then pushed.drop (pushed.length - maxRecords) else pushed

/-- A log after a sequence of requests. -/
def recordAll (records : List AiAuditRecord) (entries : List (Bytes × Bytes)) :
    List AiAuditRecord :=
  entries.foldl (fun records entry => record records entry.1 entry.2) records

/-- No more records than the limit, none longer than the cap with its marker. -/
structure Bounded (records : List AiAuditRecord) : Prop where
  count : records.length ≤ maxRecords
  details : ∀ entry ∈ records, entry.detail.length ≤ maxDetailBytes + truncationMarker.length

theorem length_keptDetail_le (detail : Bytes) :
    (keptDetail detail).length ≤ maxDetailBytes + truncationMarker.length := by
  rw [keptDetail]
  split
  · rw [List.length_append, List.length_take]
    omega
  · omega

theorem Bounded.nil : Bounded [] :=
  ⟨Nat.zero_le _, fun _ member => absurd member List.not_mem_nil⟩

theorem Bounded.record {records : List AiAuditRecord} (bounded : Bounded records)
    (category detail : Bytes) : Bounded (record records category detail) := by
  have pushed : ∀ entry ∈ records ++ [⟨category, keptDetail detail⟩],
      entry.detail.length ≤ maxDetailBytes + truncationMarker.length := by
    intro entry member
    rcases List.mem_append.mp member with old | new
    · exact bounded.details entry old
    · rw [List.mem_singleton.mp new]
      exact length_keptDetail_le detail
  rw [AiAudit.record]
  split
  · refine ⟨?_, fun entry member => pushed entry (List.mem_of_mem_drop member)⟩
    rw [List.length_drop]
    omega
  · exact ⟨by omega, pushed⟩

theorem Bounded.recordAll {records : List AiAuditRecord} (bounded : Bounded records)
    (entries : List (Bytes × Bytes)) : Bounded (recordAll records entries) := by
  induction entries generalizing records with
  | nil => exact bounded
  | cons entry rest ih =>
      exact ih (bounded.record entry.1 entry.2)

end LlvmDsdl.LSP.AiAudit
