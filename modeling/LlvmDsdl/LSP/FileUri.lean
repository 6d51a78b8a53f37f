import LlvmDsdl.Library.LexicalPath

/-!
Contract: file URIs and paths (`LSP/Analysis.cpp`).

Owns: the conversions between the two, what a client may write for a path, and
exactly when the path is read back.

Texts are bytes. What the file system makes of a path (`absolute`, then
`weakly_canonical`) is a parameter: it follows the links that are there.
-/

namespace LlvmDsdl.LSP

open Library.LexicalPath (Text Path separator)

/-- The byte `%`. -/
def percent : UInt8 := 37

def hexDigitValue (c : UInt8) : Option ℕ :=
  if 48 ≤ c ∧ c ≤ 57 then some (c.toNat - 48)
  else if 97 ≤ c ∧ c ≤ 102 then some (10 + (c.toNat - 97))
  else if 65 ≤ c ∧ c ≤ 70 then some (10 + (c.toNat - 65))
  else none

/-- The byte two digits after a percent sign stand for. -/
def escapedByte (hi lo : UInt8) : Option UInt8 :=
  match hexDigitValue hi, hexDigitValue lo with
  | some high, some low => some (UInt8.ofNat (high * 16 + low))
  | _, _ => none

def decodeUriPath : Text → Text
  | c :: hi :: lo :: rest =>
      if c = percent then
        match escapedByte hi lo with
        | some byte => byte :: decodeUriPath rest
        | none => c :: decodeUriPath (hi :: lo :: rest)
      else c :: decodeUriPath (hi :: lo :: rest)
  | text => text

def toLowerByte (c : UInt8) : UInt8 :=
  if 65 ≤ c ∧ c ≤ 90 then c + 32 else c

def startsWithInsensitive (text start : Text) : Bool :=
  start.length ≤ text.length &&
    (text.take start.length).map toLowerByte = start.map toLowerByte

/-- `file://`. -/
def fileScheme : Text := [102, 105, 108, 101, 58, 47, 47]

section Conversions

variable (canonical : Text → Text)

def normalizePath (pathText : Text) : Text :=
  if pathText = [] then [] else canonical pathText

def uriToNormalizedPath (uri : Text) : Text :=
  if startsWithInsensitive uri fileScheme = false then normalizePath canonical uri
  else
    let path := uri.drop 7
    if path ≠ [] ∧ path.head? ≠ some separator then
      -- The host goes up to the first slash.
      if separator ∈ path then
        normalizePath canonical (decodeUriPath (path.dropWhile (· ≠ separator)))
      else []
    else normalizePath canonical (decodeUriPath path)

def normalizedPathToFileUri (filePath : Text) : Text :=
  let normalized := normalizePath canonical filePath
  if normalized = [] then fileScheme ++ [separator]
  else if normalized.head? = some separator then fileScheme ++ normalized
  else fileScheme ++ separator :: normalized

end Conversions

/-- A byte of a path as the client writes it: itself, or its two digits after a
percent sign. -/
structure WrittenByte where
  byte : UInt8
  escape : Option (UInt8 × UInt8)
  spells : ∀ digits, escape = some digits → escapedByte digits.1 digits.2 = some byte

def WrittenByte.text (written : WrittenByte) : Text :=
  match written.escape with
  | none => [written.byte]
  | some digits => [percent, digits.1, digits.2]

def pathOf (written : List WrittenByte) : Text :=
  written.map WrittenByte.byte

def textOf (written : List WrittenByte) : Text :=
  written.flatMap WrittenByte.text

/-- Every byte as it is. -/
def plainly (path : Text) : List WrittenByte :=
  path.map fun byte => ⟨byte, none, nofun⟩

/-- The text reads as the rest of an escape. -/
def StartsWithDigits : Text → Prop
  | hi :: lo :: _ => (escapedByte hi lo).isSome
  | _ => False

/-- No percent sign that is written as it is has two digits after it. -/
def Unmistakable : List WrittenByte → Prop
  | [] => True
  | written :: rest =>
      (written.byte = percent → written.escape = none → ¬StartsWithDigits (textOf rest)) ∧
        Unmistakable rest

def KeepsSlash (written : List WrittenByte) : Prop :=
  ∃ first rest, written = first :: rest ∧ first.byte = separator ∧ first.escape = none

/-- `file://` in any case. -/
def IsFileScheme (scheme : Text) : Prop :=
  scheme.map toLowerByte = fileScheme

/-- Paths come out absolute and in normal form, and stay as they are then. -/
structure Canonical (canonical : Text → Text) : Prop where
  resolved : ∀ text, text ≠ [] → ∃ path : Path, path.Resolved ∧ canonical text = path.text
  settled : ∀ text, canonical (canonical text) = canonical text

def withoutLinks (text : Text) : Text :=
  let rooted := if text.head? = some separator then text else separator :: text
  (Library.LexicalPath.parse rooted).lexicallyNormal.text

private theorem decodeUriPath_cons {c : UInt8} {rest : Text}
    (kept : c = percent → ¬StartsWithDigits rest) :
    decodeUriPath (c :: rest) = c :: decodeUriPath rest := by
  rcases rest with _ | ⟨hi, _ | ⟨lo, rest⟩⟩
  · simp [decodeUriPath]
  · simp [decodeUriPath]
  · rw [decodeUriPath]
    split
    · rename_i isPercent
      have unread : escapedByte hi lo = none := by
        simpa [StartsWithDigits] using kept isPercent
      rw [unread]
    · rfl

private theorem decodeUriPath_escape {hi lo byte : UInt8}
    (spelled : escapedByte hi lo = some byte) (rest : Text) :
    decodeUriPath (percent :: hi :: lo :: rest) = byte :: decodeUriPath rest := by
  rw [decodeUriPath, if_pos rfl, spelled]

private theorem escapedByte_plain {hi lo : UInt8} (isEscape : (escapedByte hi lo).isSome) :
    hi ≠ percent ∧ lo ≠ percent ∧ hi ≠ separator ∧ lo ≠ separator := by
  have digits : (hexDigitValue hi).isSome ∧ (hexDigitValue lo).isSome := by
    unfold escapedByte at isEscape
    split at isEscape
    · rename_i high low
      simp [high, low]
    · cases isEscape
  have notDigit (c : UInt8) (isDigit : (hexDigitValue c).isSome) :
      c ≠ percent ∧ c ≠ separator := by
    constructor
    · rintro rfl
      revert isDigit
      decide
    · rintro rfl
      revert isDigit
      decide
  exact ⟨(notDigit hi digits.1).1, (notDigit lo digits.2).1, (notDigit hi digits.1).2,
    (notDigit lo digits.2).2⟩

private theorem textOf_cons_plain {written : WrittenByte} (plain : written.escape = none)
    (rest : List WrittenByte) : textOf (written :: rest) = written.byte :: textOf rest := by
  simp [textOf, WrittenByte.text, plain]

private theorem textOf_cons_escape {written : WrittenByte} {digits : UInt8 × UInt8}
    (escaped : written.escape = some digits) (rest : List WrittenByte) :
    textOf (written :: rest) = percent :: digits.1 :: digits.2 :: textOf rest := by
  simp [textOf, WrittenByte.text, escaped]

private theorem length_decodeUriPath_swallowed {rest : Text} (digits : StartsWithDigits rest) :
    (decodeUriPath (percent :: rest)).length + 1 = (decodeUriPath rest).length := by
  rcases rest with _ | ⟨hi, _ | ⟨lo, rest⟩⟩
  · exact digits.elim
  · exact digits.elim
  · obtain ⟨hiPlain, loPlain, _⟩ := escapedByte_plain digits
    obtain ⟨byte, spelled⟩ := Option.isSome_iff_exists.mp digits
    rw [decodeUriPath_escape spelled, decodeUriPath_cons fun same => absurd same hiPlain,
      decodeUriPath_cons fun same => absurd same loPlain]
    simp

private theorem decodeUriPath_textOf (written : List WrittenByte) :
    (decodeUriPath (textOf written)).length ≤ (pathOf written).length ∧
      (Unmistakable written → decodeUriPath (textOf written) = pathOf written) ∧
      (¬Unmistakable written →
        (decodeUriPath (textOf written)).length < (pathOf written).length) := by
  induction written with
  | nil => simp [textOf, pathOf, decodeUriPath, Unmistakable]
  | cons first rest ih =>
      obtain ⟨short, same, shorter⟩ := ih
      have whole : pathOf (first :: rest) = first.byte :: pathOf rest := rfl
      rw [whole, List.length_cons, Unmistakable]
      rcases escaped : first.escape with _ | digits
      · rw [textOf_cons_plain escaped]
        by_cases mistaken : first.byte = percent ∧ StartsWithDigits (textOf rest)
        · have swallowed := length_decodeUriPath_swallowed mistaken.2
          rw [mistaken.1]
          refine ⟨by omega, fun unmistakable => ?_, fun _ => by omega⟩
          exact absurd mistaken.2 (unmistakable.1 rfl rfl)
        · have kept : first.byte = percent → ¬StartsWithDigits (textOf rest) :=
            fun isPercent digits => mistaken ⟨isPercent, digits⟩
          rw [decodeUriPath_cons kept, List.length_cons]
          refine ⟨by omega, fun unmistakable => by rw [same unmistakable.2], fun mistakable => ?_⟩
          have laterMistakable : ¬Unmistakable rest := fun later =>
            mistakable ⟨fun isPercent _ => kept isPercent, later⟩
          have := shorter laterMistakable
          omega
      · rw [textOf_cons_escape escaped, decodeUriPath_escape (first.spells digits escaped),
          List.length_cons]
        refine ⟨by omega, fun unmistakable => by rw [same unmistakable.2], fun mistakable => ?_⟩
        have laterMistakable : ¬Unmistakable rest := fun later =>
          mistakable ⟨fun _ plain => (Option.some_ne_none _ plain).elim, later⟩
        have := shorter laterMistakable
        omega

theorem withoutLinks_text {path : Path} (resolved : path.Resolved) :
    withoutLinks path.text = path.text := by
  unfold withoutLinks
  dsimp only
  rw [if_pos resolved.head?_text, Library.LexicalPath.parse_text resolved.toLawful,
    resolved.lexicallyNormal_eq]

private theorem withoutLinks_resolved (text : Text) :
    ∃ path : Path, path.Resolved ∧ withoutLinks text = path.text := by
  have rooted : (if text.head? = some separator then text else separator :: text).head? =
      some separator := by
    split
    · assumption
    · rfl
  exact ⟨_, Library.LexicalPath.resolved_lexicallyNormal (Library.LexicalPath.lawful_parse _)
    (Library.LexicalPath.parse_absolute rooted), rfl⟩

theorem canonical_withoutLinks : Canonical withoutLinks where
  resolved text _ := withoutLinks_resolved text
  settled text := by
    obtain ⟨path, resolved, same⟩ := withoutLinks_resolved text
    rw [same, withoutLinks_text resolved]

private theorem length_withoutLinks_le {text : Text} (absolute : text.head? = some separator) :
    (withoutLinks text).length ≤ text.length := by
  unfold withoutLinks
  dsimp only
  rw [if_pos absolute]
  exact Library.LexicalPath.length_lexicallyNormal_parse_le absolute

private theorem dropWhile_textOf (written : List WrittenByte) :
    ∃ later, (textOf written).dropWhile (· ≠ separator) = textOf later ∧ later <:+ written ∧
      (later = written → written = [] ∨ KeepsSlash written) := by
  induction written with
  | nil => exact ⟨[], rfl, List.suffix_rfl, fun _ => Or.inl rfl⟩
  | cons first rest ih =>
      obtain ⟨later, same, suffix, _⟩ := ih
      have shorter : later ≠ first :: rest := fun whole => by
        have := suffix.length_le
        rw [whole, List.length_cons] at this
        omega
      rcases escaped : first.escape with _ | digits
      · rw [textOf_cons_plain escaped]
        by_cases slash : first.byte = separator
        · refine ⟨first :: rest, ?_, List.suffix_rfl,
            fun _ => Or.inr ⟨first, rest, rfl, slash, escaped⟩⟩
          rw [textOf_cons_plain escaped, List.dropWhile_cons_of_neg (by simpa using slash)]
        · refine ⟨later, ?_, suffix.trans (List.suffix_cons _ _), fun whole => absurd whole shorter⟩
          rw [List.dropWhile_cons_of_pos (by simpa using slash), same]
      · obtain ⟨_, _, hi, lo⟩ := escapedByte_plain
          (Option.isSome_of_mem (first.spells digits escaped))
        refine ⟨later, ?_, suffix.trans (List.suffix_cons _ _), fun whole => absurd whole shorter⟩
        rw [textOf_cons_escape escaped, List.dropWhile_cons_of_pos (by decide),
          List.dropWhile_cons_of_pos (by simpa using hi),
          List.dropWhile_cons_of_pos (by simpa using lo), same]

private theorem head?_decodeUriPath {text : Text} (absolute : text.head? = some separator) :
    (decodeUriPath text).head? = some separator := by
  rcases text with _ | ⟨first, rest⟩
  · cases absolute
  · obtain rfl : first = separator := by simpa using absolute
    rw [decodeUriPath_cons fun same => absurd same (by decide)]
    rfl

private theorem normalizePath_absolute {canonical : Text → Text} {text : Text}
    (absolute : text.head? = some separator) : normalizePath canonical text = canonical text := by
  unfold normalizePath
  rw [if_neg]
  rintro rfl
  cases absolute

private theorem uriToNormalizedPath_scheme (canonical : Text → Text) {scheme : Text}
    (isScheme : IsFileScheme scheme) (path : Text) :
    uriToNormalizedPath canonical (scheme ++ path) =
      if path ≠ [] ∧ path.head? ≠ some separator then
        if separator ∈ path then
          normalizePath canonical (decodeUriPath (path.dropWhile (· ≠ separator)))
        else []
      else normalizePath canonical (decodeUriPath path) := by
  have length : scheme.length = 7 := by
    simpa [fileScheme] using congrArg List.length isScheme
  have lower : fileScheme.map toLowerByte = fileScheme := by decide
  have starts : startsWithInsensitive (scheme ++ path) fileScheme = true := by
    unfold startsWithInsensitive
    rw [show fileScheme.length = scheme.length by rw [length]; rfl, List.take_left, lower]
    have same : scheme.map toLowerByte = fileScheme := isScheme
    simp [same]
  unfold uriToNormalizedPath
  rw [if_neg (by simp [starts]), ← length, List.drop_left]

private theorem head?_dropWhile {text : Text} (slash : separator ∈ text) :
    (text.dropWhile (· ≠ separator)).head? = some separator := by
  induction text with
  | nil => cases slash
  | cons first rest ih =>
      by_cases same : first = separator
      · simp [same]
      · rw [List.dropWhile_cons_of_pos (by simpa using same)]
        exact ih ((List.mem_cons.mp slash).resolve_left (Ne.symm same))

private theorem dropWhile_host {host : Text} (plain : separator ∉ host) (path : Text) :
    (host ++ path).dropWhile (· ≠ separator) = path.dropWhile (· ≠ separator) := by
  rw [List.dropWhile_append_of_pos]
  intro byte member
  have different : byte ≠ separator := fun same => plain (same ▸ member)
  simpa using different

private theorem uriToNormalizedPath_host (canonical : Text → Text) {scheme host : Text}
    (isScheme : IsFileScheme scheme) (plain : separator ∉ host) {path : Text}
    (slash : separator ∈ path) :
    uriToNormalizedPath canonical (scheme ++ host ++ path) =
      canonical (decodeUriPath (path.dropWhile (· ≠ separator))) := by
  rw [List.append_assoc, uriToNormalizedPath_scheme canonical isScheme]
  have starts := head?_dropWhile slash
  split
  · rw [if_pos (List.mem_append_right _ slash), dropWhile_host plain,
      normalizePath_absolute (head?_decodeUriPath starts)]
  · rename_i direct
    have nonempty : host ++ path ≠ [] := fun empty => by
      rw [(List.append_eq_nil_iff.mp empty).2] at slash
      cases slash
    have absolute : (host ++ path).head? = some separator := by
      by_contra missing
      exact direct ⟨nonempty, missing⟩
    have noHost : host = [] := by
      rcases host with _ | ⟨first, rest⟩
      · rfl
      · obtain rfl : first = separator := by simpa using absolute
        exact absurd List.mem_cons_self plain
    subst noHost
    rw [List.nil_append] at absolute ⊢
    rw [normalizePath_absolute (head?_decodeUriPath absolute)]
    rcases path with _ | ⟨first, rest⟩
    · cases absolute
    · obtain rfl : first = separator := by simpa using absolute
      simp

private theorem uriToNormalizedPath_noSlash (canonical : Text → Text) {scheme host : Text}
    (isScheme : IsFileScheme scheme) (plain : separator ∉ host) {path : Text}
    (missing : separator ∉ path) :
    uriToNormalizedPath canonical (scheme ++ host ++ path) = [] := by
  rw [List.append_assoc, uriToNormalizedPath_scheme canonical isScheme]
  have nowhere : separator ∉ host ++ path := by simp [plain, missing]
  rcases empty : host ++ path with _ | ⟨first, rest⟩
  · simp [decodeUriPath, normalizePath]
  · rw [empty] at nowhere
    have notFirst : (first :: rest).head? ≠ some separator := fun absolute =>
      nowhere (List.mem_of_mem_head? absolute)
    rw [if_pos ⟨List.cons_ne_nil _ _, notFirst⟩, if_neg nowhere]

private theorem mem_textOf_of_keepsSlash {written : List WrittenByte}
    (keeps : KeepsSlash written) :
    separator ∈ textOf written ∧ (textOf written).dropWhile (· ≠ separator) = textOf written := by
  obtain ⟨first, rest, rfl, slash, plain⟩ := keeps
  rw [textOf_cons_plain plain, slash]
  simp

private theorem uriToNormalizedPath_written {path : Path} (resolved : path.Resolved)
    {scheme host : Text} {written : List WrittenByte} (means : pathOf written = path.text)
    (isScheme : IsFileScheme scheme) (plain : separator ∉ host) :
    (∀ canonical, Canonical canonical → canonical path.text = path.text →
        uriToNormalizedPath canonical (scheme ++ host ++ textOf written) = path.text) ↔
      KeepsSlash written ∧ Unmistakable written := by
  obtain ⟨_, same, shorter⟩ := decodeUriPath_textOf written
  constructor
  · intro reads
    have read := reads withoutLinks canonical_withoutLinks (withoutLinks_text resolved)
    have slash : separator ∈ textOf written := by
      by_contra missing
      rw [uriToNormalizedPath_noSlash withoutLinks isScheme plain missing] at read
      have absolute := resolved.head?_text
      rw [← read] at absolute
      cases absolute
    rw [uriToNormalizedPath_host withoutLinks isScheme plain slash] at read
    have bounded := length_withoutLinks_le (head?_decodeUriPath (head?_dropWhile slash))
    rw [read, ← means] at bounded
    obtain ⟨later, rest, suffix, whole⟩ := dropWhile_textOf written
    rw [rest] at bounded
    have within := (decodeUriPath_textOf later).1
    have lengths : ∀ bytes : List WrittenByte, (pathOf bytes).length = bytes.length := by
      simp [pathOf]
    rw [lengths] at within bounded
    obtain rfl : later = written := suffix.eq_of_length_le (by omega)
    refine ⟨(whole rfl).resolve_left ?_, ?_⟩
    · rintro rfl
      cases slash
    · by_contra mistakable
      have := shorter mistakable
      rw [lengths] at this
      omega
  · rintro ⟨keeps, unmistakable⟩ canonical _ settled
    obtain ⟨slash, whole⟩ := mem_textOf_of_keepsSlash keeps
    rw [uriToNormalizedPath_host canonical isScheme plain slash, whole, same unmistakable, means,
      settled]

private theorem normalizedPathToFileUri_resolved {canonical : Text → Text} {path : Path}
    (resolved : path.Resolved) (settled : canonical path.text = path.text) :
    normalizedPathToFileUri canonical path.text = fileScheme ++ path.text := by
  unfold normalizedPathToFileUri
  have absolute := resolved.head?_text
  rw [normalizePath_absolute absolute, settled]
  dsimp only
  rw [if_neg, if_pos absolute]
  intro empty
  rw [empty] at absolute
  cases absolute

private theorem textOf_plainly (path : Text) : textOf (plainly path) = path := by
  induction path with
  | nil => rfl
  | cons byte rest ih =>
      have plain : (⟨byte, none, nofun⟩ : WrittenByte).escape = none := rfl
      have step := textOf_cons_plain plain (plainly rest)
      rw [ih] at step
      exact step

private theorem pathOf_plainly (path : Text) : pathOf (plainly path) = path := by
  simp [pathOf, plainly, Function.comp_def]

/-- A path comes back from its own URI, whatever the file system, exactly when no
percent sign in it has two digits after it. Distinct paths have distinct URIs. A
URI of a client is read as its path exactly when that holds of the percent signs
it leaves as they are, and the first slash is left as it is. -/
theorem uriToNormalizedPath_roundTrips {path : Path} (resolved : path.Resolved) :
    ((∀ canonical, Canonical canonical → canonical path.text = path.text →
        uriToNormalizedPath canonical (normalizedPathToFileUri canonical path.text) =
          path.text) ↔
      Unmistakable (plainly path.text)) ∧
    (∀ other : Path, other.Resolved → ∀ canonical, canonical path.text = path.text →
      canonical other.text = other.text →
        normalizedPathToFileUri canonical path.text =
          normalizedPathToFileUri canonical other.text → path = other) ∧
    (∀ scheme host written, IsFileScheme scheme → separator ∉ host →
      pathOf written = path.text →
        ((∀ canonical, Canonical canonical → canonical path.text = path.text →
            uriToNormalizedPath canonical (scheme ++ host ++ textOf written) = path.text) ↔
          KeepsSlash written ∧ Unmistakable written)) := by
  refine ⟨?_, ?_, fun scheme host written isScheme plain means =>
    uriToNormalizedPath_written resolved means isScheme plain⟩
  · have isScheme : IsFileScheme fileScheme := by
      unfold IsFileScheme
      decide
    have plainText := uriToNormalizedPath_written resolved (pathOf_plainly path.text) isScheme
      (List.not_mem_nil : separator ∉ [])
    rw [textOf_plainly, List.append_nil] at plainText
    have keeps : KeepsSlash (plainly path.text) := by
      obtain ⟨rest, whole⟩ := List.head?_eq_some_iff.mp resolved.head?_text
      exact ⟨⟨separator, none, nofun⟩, plainly rest, by rw [whole]; rfl, rfl, rfl⟩
    rw [← and_iff_right (b := Unmistakable _) keeps, ← plainText]
    constructor
    · intro reads canonical isCanonical settled
      rw [← normalizedPathToFileUri_resolved resolved settled]
      exact reads canonical isCanonical settled
    · intro reads canonical isCanonical settled
      rw [normalizedPathToFileUri_resolved resolved settled]
      exact reads canonical isCanonical settled
  · intro other otherResolved canonical settled otherSettled same
    rw [normalizedPathToFileUri_resolved resolved settled,
      normalizedPathToFileUri_resolved otherResolved otherSettled] at same
    exact resolved.text_injective otherResolved (List.append_cancel_left same)

/-- `/a%20b`, which no space is in. -/
def percentPath : Path := ⟨true, [[97, 37, 50, 48, 98]], false⟩

theorem percentPath_resolved : percentPath.Resolved where
  names := by decide
  trailing := by decide
  absolute := rfl
  plain := by
    unfold Library.LexicalPath.Plain
    decide

/-- `/a%2520b`: the percent sign of the path is written as an escape. -/
def escapedPercent : List WrittenByte :=
  plainly [47, 97] ++ ⟨percent, some (50, 53), by rintro _ ⟨⟩; rfl⟩ :: plainly [50, 48, 98]

/-- The path does not come back from its own URI, and does from `FILE://h/a%2520b`. -/
theorem uriToNormalizedPath_roundTrips_percentPath :
    (¬∀ canonical, Canonical canonical → canonical percentPath.text = percentPath.text →
      uriToNormalizedPath canonical (normalizedPathToFileUri canonical percentPath.text) =
        percentPath.text) ∧
    ∀ canonical, Canonical canonical → canonical percentPath.text = percentPath.text →
      uriToNormalizedPath canonical ([70, 73, 76, 69, 58, 47, 47] ++ [104] ++ textOf escapedPercent) =
        percentPath.text := by
  have ⟨own, _, client⟩ := uriToNormalizedPath_roundTrips percentPath_resolved
  have isScheme : IsFileScheme [70, 73, 76, 69, 58, 47, 47] := by
    unfold IsFileScheme
    decide
  have written := client _ [104] escapedPercent isScheme (by decide) (by decide)
  refine ⟨fun reads => ?_, written.mpr ⟨⟨_, _, rfl, rfl, rfl⟩, ?_⟩⟩
  · have unescaped := (own.mp reads).2.2.1 rfl rfl
    exact unescaped rfl
  · simp [escapedPercent, plainly, Unmistakable, percent]

/-- The file `/a%20b` is taken for `/a b`. -/
theorem percent_path_lost :
    ¬∀ (canonical : Text → Text) (path : Path), Canonical canonical → path.Resolved →
      canonical path.text = path.text →
        uriToNormalizedPath canonical (normalizedPathToFileUri canonical path.text) =
          path.text := by
  intro holds
  have settled := withoutLinks_text percentPath_resolved
  have same := holds withoutLinks percentPath canonical_withoutLinks percentPath_resolved settled
  rw [normalizedPathToFileUri_resolved percentPath_resolved settled] at same
  revert same
  decide +kernel

end LlvmDsdl.LSP
