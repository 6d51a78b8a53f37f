import Mathlib

/-!
Contract: POSIX paths as text, without looking at a file system.

Owns: the parts of a path, the normal form, the path relative to a base, and the
test for a path below a directory.
-/

namespace LlvmDsdl.Library.LexicalPath

abbrev Text := List UInt8

/-- The `/` between two names. -/
def separator : UInt8 := 47

/-- The name `.` of the directory itself. -/
def dot : Text := [46]

/-- The name `..` of the directory above. -/
def dotDot : Text := [46, 46]

@[ext]
structure Path where
  absolute : Bool
  names : List Text
  /-- A separator ends the path, after its last name. -/
  trailing : Bool
  deriving DecidableEq, Repr

/-! ### Text -/

/-- Repeated separators count once. -/
def ofPieces (pieces : List Text) : Path where
  absolute := 1 < pieces.length && pieces.head? == some []
  names := pieces.filter fun piece => piece != []
  trailing := (pieces.filter fun piece => piece != []) != [] && pieces.getLast? == some []

def parse (text : Text) : Path :=
  ofPieces (text.splitOn separator)

def Path.pieces (path : Path) : List Text :=
  (if path.absolute then [[]] else []) ++
    (if path.names = [] then [[]] else path.names ++ if path.trailing then [[]] else [])

def Path.text (path : Path) : Text :=
  [separator].intercalate path.pieces

/-- The parts a text can have. -/
structure Path.Lawful (path : Path) : Prop where
  names : ∀ name ∈ path.names, name ≠ [] ∧ separator ∉ name
  trailing : path.trailing = true → path.names ≠ []

private theorem not_mem_piece (text : Text) :
    ∀ piece ∈ text.splitOn separator, separator ∉ piece := by
  induction text with
  | nil => simp
  | cons byte rest ih =>
      rw [List.splitOn_cons_eq_if_modifyHead]
      rcases split : rest.splitOn separator with _ | ⟨first, others⟩
      · exact absurd split (List.splitOn_ne_nil _ _)
      · rw [split] at ih
        intro piece member
        split at member
        · rcases List.mem_cons.mp member with rfl | later
          · exact List.not_mem_nil
          · exact ih piece later
        · rename_i different
          rcases List.mem_cons.mp member with rfl | later
          · have plain := ih first List.mem_cons_self
            simp only [beq_iff_eq] at different
            simp [plain, Ne.symm different]
          · exact ih piece (List.mem_cons_of_mem _ later)

theorem lawful_parse (text : Text) : (parse text).Lawful where
  names name member := by
    obtain ⟨inText, nonempty⟩ := List.mem_filter.mp member
    exact ⟨by simpa using nonempty, not_mem_piece text name inText⟩
  trailing ends := by
    simp only [parse, ofPieces, Bool.and_eq_true, bne_iff_ne] at ends
    exact ends.1

private theorem pieces_ne_nil (path : Path) : path.pieces ≠ [] := by
  unfold Path.pieces
  split <;> split <;> simp_all

private theorem not_mem_pieces {path : Path} (lawful : path.Lawful) :
    ∀ piece ∈ path.pieces, separator ∉ piece := by
  have names : ∀ name ∈ path.names, separator ∉ name := fun name member =>
    (lawful.names name member).2
  unfold Path.pieces
  intro piece member
  rcases List.mem_append.mp member with root | member
  · split at root <;> simp_all
  · split at member
    · simp_all
    · rcases List.mem_append.mp member with named | last
      · exact names piece named
      · split at last <;> simp_all

private theorem filter_names {path : Path} (lawful : path.Lawful) :
    path.names.filter (fun piece => piece != []) = path.names :=
  List.filter_eq_self.mpr fun name member => by simpa using (lawful.names name member).1

private theorem ofPieces_pieces {path : Path} (lawful : path.Lawful) :
    ofPieces path.pieces = path := by
  have kept := filter_names lawful
  rcases path with ⟨absolute, names, trailing⟩
  rcases names with _ | ⟨first, others⟩
  · rcases trailing with _ | _
    · cases absolute <;> rfl
    · exact absurd rfl (lawful.trailing rfl)
  · have nonempty : first ≠ [] := (lawful.names first List.mem_cons_self).1
    have last : (first :: others).getLast? ≠ some [] := fun ends =>
      (lawful.names [] (List.mem_of_getLast? ends)).1 rfl
    have ended : (first :: (others ++ [[]])).getLast? = some [] := by
      rw [← List.cons_append, List.getLast?_concat]
    cases absolute <;> cases trailing <;>
      simp_all [ofPieces, Path.pieces]

theorem parse_text {path : Path} (lawful : path.Lawful) : parse path.text = path := by
  rw [parse, Path.text,
    List.splitOn_intercalate separator (not_mem_pieces lawful) (pieces_ne_nil path)]
  exact ofPieces_pieces lawful

/-! ### Normal form -/

/-- One name more below the names on the stack, innermost first. -/
def pushName (absolute : Bool) (stack : List Text) (name : Text) : List Text :=
  if name = dot then stack
  else if name = dotDot then
    match stack with
    | [] => if absolute then [] else [dotDot]
    | top :: below => if top = dotDot then dotDot :: top :: below else below
  else name :: stack

def Path.lexicallyNormal (path : Path) : Path :=
  let names := (path.names.foldl (pushName path.absolute) []).reverse
  if names = [] then
    { absolute := path.absolute
      names := if path.absolute || path.names = [] then [] else [dot]
      trailing := false }
  else
    { absolute := path.absolute
      names := names
      trailing := names.getLast? ≠ some dotDot &&
        (path.trailing || path.names.getLast? = some dot || path.names.getLast? = some dotDot) }

/-- A name that stands for an entry of its directory. -/
def Plain (name : Text) : Prop :=
  name ≠ dot ∧ name ≠ dotDot

private theorem pushName_plain {stack : List Text} {name : Text} (plain : Plain name) :
    ∀ absolute, pushName absolute stack name = name :: stack := by
  intro absolute
  simp only [pushName, if_neg plain.1, if_neg plain.2]

private theorem mem_pushName {stack : List Text} {name other : Text}
    (member : other ∈ pushName true stack name) :
    other ∈ stack ∨ other = name ∧ Plain name := by
  unfold pushName at member
  split at member
  · exact Or.inl member
  · rename_i notDot
    split at member
    · rcases stack with _ | ⟨top, below⟩
      · exact Or.inl member
      · rename_i isDotDot
        dsimp only at member
        split at member
        · rename_i same
          rcases List.mem_cons.mp member with rfl | later
          · exact Or.inl (same ▸ List.mem_cons_self)
          · exact Or.inl later
        · exact Or.inl (List.mem_cons_of_mem _ member)
    · rename_i notDotDot
      rcases List.mem_cons.mp member with rfl | later
      · exact Or.inr ⟨rfl, notDot, notDotDot⟩
      · exact Or.inl later

private theorem foldl_pushName_names (names : List Text) : ∀ (stack : List Text) (other : Text),
    other ∈ names.foldl (pushName true) stack →
      other ∈ stack ∨ other ∈ names ∧ Plain other := by
  induction names with
  | nil => exact fun stack other member => Or.inl member
  | cons name rest ih =>
      intro stack other member
      rcases ih _ other member with pushed | ⟨later, plain⟩
      · rcases mem_pushName pushed with earlier | ⟨rfl, plain⟩
        · exact Or.inl earlier
        · exact Or.inr ⟨List.mem_cons_self, plain⟩
      · exact Or.inr ⟨List.mem_cons_of_mem _ later, plain⟩

private theorem foldl_pushName_plain (names : List Text) (plain : ∀ name ∈ names, Plain name) :
    ∀ stack, names.foldl (pushName true) stack = names.reverse ++ stack := by
  induction names with
  | nil => exact fun stack => rfl
  | cons name rest ih =>
      intro stack
      rw [List.foldl_cons, pushName_plain (plain name List.mem_cons_self),
        ih fun other member => plain other (List.mem_cons_of_mem _ member)]
      simp

@[simp]
theorem lexicallyNormal_absolute (path : Path) :
    path.lexicallyNormal.absolute = path.absolute := by
  unfold Path.lexicallyNormal
  dsimp only
  split <;> rfl

theorem lexicallyNormal_names {path : Path} (absolute : path.absolute = true) :
    ∀ name ∈ path.lexicallyNormal.names, name ∈ path.names ∧ Plain name := by
  intro name member
  unfold Path.lexicallyNormal at member
  dsimp only at member
  split at member
  · simp [absolute] at member
  · rw [absolute, List.mem_reverse] at member
    rcases foldl_pushName_names path.names [] name member with none | kept
    · exact absurd none List.not_mem_nil
    · exact kept

theorem lexicallyNormal_lawful {path : Path} (lawful : path.Lawful)
    (absolute : path.absolute = true) : path.lexicallyNormal.Lawful where
  names name member := lawful.names name (lexicallyNormal_names absolute name member).1
  trailing ends := by
    unfold Path.lexicallyNormal at ends ⊢
    dsimp only at ends ⊢
    split at ends
    · exact absurd ends Bool.false_ne_true
    · rename_i nonempty
      rwa [if_neg nonempty]

theorem lexicallyNormal_of_plain {path : Path} (lawful : path.Lawful)
    (absolute : path.absolute = true) (plain : ∀ name ∈ path.names, Plain name) :
    path.lexicallyNormal = path := by
  have kept : (path.names.foldl (pushName path.absolute) []).reverse = path.names := by
    rw [absolute, foldl_pushName_plain path.names plain]
    simp
  have notLast : ∀ name, ¬Plain name → path.names.getLast? ≠ some name := fun name unplain last =>
    unplain (plain name (List.mem_of_getLast? last))
  have notDot := notLast dot fun unplain => unplain.1 rfl
  have notDotDot := notLast dotDot fun unplain => unplain.2 rfl
  have ends := lawful.trailing
  unfold Path.lexicallyNormal
  rw [kept]
  rcases path with ⟨root, names, trailing⟩
  dsimp only at *
  subst absolute
  by_cases empty : names = []
  · rw [if_pos empty]
    cases trailing
    · simp [empty]
    · exact absurd empty (ends rfl)
  · rw [if_neg empty]
    simp [notDot, notDotDot]

structure Path.Resolved (path : Path) : Prop extends path.Lawful where
  absolute : path.absolute = true
  plain : ∀ name ∈ path.names, Plain name

theorem resolved_lexicallyNormal {path : Path} (lawful : path.Lawful)
    (absolute : path.absolute = true) : path.lexicallyNormal.Resolved where
  toLawful := lexicallyNormal_lawful lawful absolute
  absolute := (lexicallyNormal_absolute path).trans absolute
  plain name member := (lexicallyNormal_names absolute name member).2

theorem Path.Resolved.lexicallyNormal_eq {path : Path} (resolved : path.Resolved) :
    path.lexicallyNormal = path :=
  lexicallyNormal_of_plain resolved.toLawful resolved.absolute resolved.plain

theorem Path.Resolved.text_injective {first second : Path} (resolved : first.Resolved)
    (other : second.Resolved) (same : first.text = second.text) : first = second := by
  rw [← parse_text resolved.toLawful, same, parse_text other.toLawful]

theorem Path.Resolved.head?_text {path : Path} (resolved : path.Resolved) :
    path.text.head? = some separator := by
  unfold Path.text Path.pieces
  rw [if_pos resolved.absolute]
  by_cases empty : path.names = []
  · simp [empty]
  · rw [if_neg empty]
    obtain ⟨first, others, whole⟩ := List.exists_cons_of_ne_nil empty
    simp [whole]

/-! ### Length -/

private def extent (names : List Text) : ℕ :=
  (names.map fun name => name.length + 1).sum

private theorem extent_cons (name : Text) (names : List Text) :
    extent (name :: names) = name.length + 1 + extent names := by
  simp [extent]

private theorem extent_append (names others : List Text) :
    extent (names ++ others) = extent names + extent others := by
  simp [extent]

private theorem extent_filter_le (names : List Text) (kept : Text → Bool) :
    extent (names.filter kept) ≤ extent names := by
  induction names with
  | nil => exact Nat.le_refl _
  | cons name rest ih =>
      rw [List.filter_cons]
      split
      · rw [extent_cons, extent_cons]
        omega
      · rw [extent_cons]
        omega

private theorem length_intercalate (names : List Text) (nonempty : names ≠ []) :
    ([separator].intercalate names).length + 1 = extent names := by
  induction names with
  | nil => exact absurd rfl nonempty
  | cons name rest ih =>
      rcases rest with _ | ⟨next, others⟩
      · simp [extent]
      · have shorter := ih (List.cons_ne_nil _ _)
        rw [List.intercalate_cons_cons, extent_cons]
        simp only [List.length_append, List.length_singleton]
        omega

private def Path.extent (path : Path) : ℕ :=
  LexicalPath.extent path.names + if path.trailing then 1 else 0

private theorem length_text_le {path : Path} (absolute : path.absolute = true) :
    path.text.length ≤ max 1 path.extent := by
  have whole := length_intercalate path.pieces (pieces_ne_nil path)
  unfold Path.text Path.extent
  rw [Path.pieces, if_pos absolute] at *
  rw [extent_append] at whole
  by_cases empty : path.names = []
  · simp only [empty, if_true, extent, List.map_cons, List.map_nil, List.sum_cons, List.sum_nil,
      List.length_nil] at whole ⊢
    omega
  · rw [if_neg empty, extent_append] at whole
    rw [if_neg empty]
    simp only [extent] at whole ⊢
    cases trailing : path.trailing <;> simp [trailing] at whole ⊢ <;> omega

private theorem extent_ofPieces_le (others : List Text) :
    (ofPieces ([] :: others)).extent ≤ extent others := by
  unfold Path.extent ofPieces
  have smaller := extent_filter_le others fun piece => piece != []
  dsimp only
  split
  · rename_i ends
    rcases List.eq_nil_or_concat' others with rfl | ⟨init, last, rfl⟩
    · simp at ends
    · have isEmpty : last = [] := by
        rw [← List.cons_append, List.getLast?_concat] at ends
        simpa using (Bool.and_eq_true_iff.mp ends).2
      have less := extent_filter_le init fun piece => piece != []
      subst isEmpty
      simp only [List.filter_append, List.filter_cons, bne_self_eq_false, Bool.false_eq_true,
        if_false, List.filter_nil, List.append_nil, extent_append]
      simp only [extent, List.map_cons, List.map_nil, List.sum_cons, List.sum_nil,
        List.length_nil] at less ⊢
      omega
  · simpa using smaller

private theorem extent_pushName_le (stack : List Text) (name : Text) :
    extent (pushName true stack name) ≤ extent (name :: stack) := by
  unfold pushName
  rw [extent_cons]
  split
  · omega
  split
  · rename_i isDotDot
    subst isDotDot
    rcases stack with _ | ⟨top, below⟩
    · exact Nat.zero_le _
    · dsimp only
      split
      · exact Nat.le_of_eq (extent_cons _ _)
      · rw [extent_cons]
        omega
  · exact Nat.le_of_eq (extent_cons _ _)

private theorem extent_pushName_lt {stack : List Text} (plain : ∀ top ∈ stack, Plain top)
    {name : Text} (unplain : ¬Plain name) :
    extent (pushName true stack name) + 1 ≤ extent (name :: stack) := by
  unfold pushName
  rw [extent_cons]
  split
  · omega
  split
  · rename_i isDotDot
    subst isDotDot
    rcases stack with _ | ⟨top, below⟩
    · exact Nat.le_add_left _ _
    · dsimp only
      rw [if_neg (plain top List.mem_cons_self).2, extent_cons]
      omega
  · rename_i notDot notDotDot
    exact absurd ⟨notDot, notDotDot⟩ unplain

private theorem extent_foldl_pushName_le (names : List Text) :
    ∀ stack, extent (names.foldl (pushName true) stack) ≤ extent names + extent stack := by
  induction names with
  | nil => exact fun stack => Nat.le_add_left _ _
  | cons name rest ih =>
      intro stack
      have later := ih (pushName true stack name)
      have pushed := extent_pushName_le stack name
      rw [extent_cons] at pushed ⊢
      rw [List.foldl_cons]
      omega

private theorem extent_reverse (names : List Text) : extent names.reverse = extent names := by
  simp [extent]

private theorem extent_lexicallyNormal_le {path : Path} (absolute : path.absolute = true) :
    path.lexicallyNormal.extent ≤ path.extent := by
  unfold Path.lexicallyNormal
  rw [absolute]
  dsimp only
  have folded := extent_foldl_pushName_le path.names []
  split
  · simp [Path.extent, extent]
  · unfold Path.extent
    dsimp only
    rw [extent_reverse]
    split
    · rename_i ends
      rcases trailing : path.trailing
      · obtain ⟨last, isLast, unplain⟩ :
            ∃ last, path.names.getLast? = some last ∧ ¬Plain last := by
          simp only [trailing, Bool.and_eq_true, Bool.or_eq_true, decide_eq_true_eq] at ends
          rcases ends.2 with (impossible | isDot) | isDotDot
          · exact absurd impossible Bool.false_ne_true
          · exact ⟨dot, isDot, fun plain => plain.1 rfl⟩
          · exact ⟨dotDot, isDotDot, fun plain => plain.2 rfl⟩
        obtain ⟨init, whole⟩ := List.getLast?_eq_some_iff.mp isLast
        have before := extent_foldl_pushName_le init []
        have stackPlain : ∀ top ∈ init.foldl (pushName true) [], Plain top := fun top member =>
          (foldl_pushName_names init [] top member).elim (fun none => absurd none List.not_mem_nil)
            And.right
        have lost := extent_pushName_lt stackPlain unplain
        rw [whole, List.foldl_append, extent_append]
        rw [extent_cons] at lost
        simp only [List.foldl_cons, List.foldl_nil, extent_cons] at before ⊢
        simp only [extent, List.map_nil, List.sum_nil] at before lost ⊢
        simp only [Bool.false_eq_true, if_false]
        omega
      · simpa [extent] using folded
    · simp only [extent, List.map_nil, List.sum_nil] at folded ⊢
      omega

private theorem splitOn_absolute {text : Text} (absolute : text.head? = some separator) :
    ∃ next others, text.splitOn separator = [] :: next :: others := by
  rcases text with _ | ⟨first, rest⟩
  · cases absolute
  · obtain rfl : first = separator := by simpa using absolute
    obtain ⟨next, others, pieces⟩ :=
      List.exists_cons_of_ne_nil (List.splitOn_ne_nil separator rest)
    exact ⟨next, others, by simp [List.splitOn_cons_eq_if_modifyHead, pieces]⟩

theorem parse_absolute {text : Text} (absolute : text.head? = some separator) :
    (parse text).absolute = true := by
  obtain ⟨next, others, pieces⟩ := splitOn_absolute absolute
  simp [parse, ofPieces, pieces]

/-- The normal form of an absolute text is no longer than the text. -/
theorem length_lexicallyNormal_parse_le {text : Text} (absolute : text.head? = some separator) :
    (parse text).lexicallyNormal.text.length ≤ text.length := by
  obtain ⟨next, others, pieces⟩ := splitOn_absolute absolute
  have whole := length_intercalate (text.splitOn separator) (List.splitOn_ne_nil _ _)
  rw [List.intercalate_splitOn, pieces, extent_cons, List.length_nil] at whole
  have rooted := parse_absolute absolute
  have parsed : (parse text).extent ≤ text.length := by
    unfold parse
    rw [pieces]
    exact Nat.le_trans (extent_ofPieces_le (next :: others)) (by omega)
  have normal := length_text_le ((lexicallyNormal_absolute (parse text)).trans rooted)
  have smaller := extent_lexicallyNormal_le rooted
  have nonempty : 0 < text.length := List.length_pos_of_mem (List.mem_of_mem_head? absolute)
  omega

def Path.parentPath (path : Path) : Path :=
  if path.trailing then { path with trailing := false }
  else { path with names := path.names.dropLast }

theorem Path.Resolved.parentPath {path : Path} (resolved : path.Resolved) :
    path.parentPath.Resolved := by
  have within : ∀ name ∈ path.parentPath.names, name ∈ path.names := by
    unfold Path.parentPath
    split
    · exact fun name member => member
    · exact fun name member => List.dropLast_subset _ member
  refine ⟨⟨fun name member => resolved.names name (within name member), ?_⟩, ?_,
    fun name member => resolved.plain name (within name member)⟩
  · unfold Path.parentPath
    split <;> simp_all
  · unfold Path.parentPath
    split <;> exact resolved.absolute

/-! ### Relative to a base -/

/-- What iterating over a path gives after its root: the empty name ends a path
that a separator ends. -/
def Path.elements (path : Path) : List Text :=
  path.names ++ if path.trailing then [[]] else []

/-- Both lists after their first mismatch. -/
def mismatch : List Text → List Text → List Text × List Text
  | first :: rest, other :: others =>
      if first = other then mismatch rest others else (first :: rest, other :: others)
  | first, second => (first, second)

/-- How far below the common part a name of the base leads. -/
def descent (name : Text) : ℤ :=
  if name = dotDot then -1 else if name = [] || name = dot then 0 else 1

/-- The way from the end of `below` to the end of `rest`, past their common part. -/
def wayBetween (rest below : List Text) : Option (List Text) :=
  let depth := (below.map descent).sum
  if rest = [] ∧ below = [] then some [dot]
  else if depth = 0 ∧ (rest = [] ∨ rest.head? = some []) then some [dot]
  else if 0 ≤ depth then some (List.replicate depth.toNat dotDot ++ rest)
  else none

/-- The elements of the path that leads from `base` to `path`, if there is one. -/
def Path.lexicallyRelative (path base : Path) : Option (List Text) :=
  if path.absolute ≠ base.absolute then none
  else
    let parts := mismatch path.elements base.elements
    wayBetween parts.1 parts.2

/-- A relative path that is there, is not `.` and does not start with `..`. -/
def leadsDown : Option (List Text) → Bool
  | none => false
  | some relative =>
      if relative = [] || relative = [dot] then false else relative.head? != some dotDot

/-- The candidate is named below the root. -/
def isInside (root candidate : Path) : Bool :=
  leadsDown (candidate.lexicallyNormal.lexicallyRelative root.lexicallyNormal)

theorem mismatch_spec (first : List Text) : ∀ second, ∃ common,
    first = common ++ (mismatch first second).1 ∧ second = common ++ (mismatch first second).2 := by
  induction first with
  | nil => exact fun second => ⟨[], by cases second <;> simp [mismatch]⟩
  | cons name rest ih =>
      intro second
      rcases second with _ | ⟨other, others⟩
      · exact ⟨[], rfl, rfl⟩
      · by_cases same : name = other
        · obtain ⟨common, left, right⟩ := ih others
          refine ⟨name :: common, ?_, ?_⟩
          · rw [mismatch, if_pos same, List.cons_append, ← left]
          · rw [mismatch, if_pos same, List.cons_append, ← right, same]
        · exact ⟨[], by rw [mismatch, if_neg same]; exact ⟨rfl, rfl⟩⟩

private theorem filter_elements {path : Path} (lawful : path.Lawful) :
    path.elements.filter (fun name => name != []) = path.names := by
  rw [Path.elements, List.filter_append, filter_names lawful]
  split <;> simp

private theorem mem_dropLast_elements {path : Path} {name : Text}
    (member : name ∈ path.elements.dropLast) : name ∈ path.names := by
  unfold Path.elements at member
  split at member
  · rwa [List.dropLast_concat] at member
  · rw [List.append_nil] at member
    exact List.dropLast_subset _ member

private theorem depth_nonneg {below : List Text} (flat : ∀ name ∈ below, name ≠ dotDot) :
    0 ≤ (below.map descent).sum ∧
      ((below.map descent).sum = 0 → ∀ name ∈ below, name = [] ∨ name = dot) := by
  induction below with
  | nil => simp
  | cons name rest ih =>
      obtain ⟨nonneg, allEmpty⟩ :=
        ih fun other member => flat other (List.mem_cons_of_mem _ member)
      have notDotDot := flat name List.mem_cons_self
      rw [List.map_cons, List.sum_cons, descent, if_neg notDotDot]
      by_cases still : name = [] ∨ name = dot
      · rw [if_pos (by simpa using still)]
        refine ⟨by omega, fun zero other member => ?_⟩
        rcases List.mem_cons.mp member with rfl | later
        · exact still
        · exact allEmpty (by omega) other later
      · rw [if_neg (by simpa using still)]
        exact ⟨by omega, fun zero => by omega⟩

private theorem wayBetween_down {rest below : List Text}
    (flat : ∀ name ∈ below, name ≠ dotDot)
    (down : leadsDown (wayBetween rest below) = true) :
    (∀ name ∈ below, name = [] ∨ name = dot) ∧
      ∃ name more, rest = name :: more ∧ name ≠ [] := by
  obtain ⟨nonneg, allEmpty⟩ := depth_nonneg flat
  unfold wayBetween at down
  dsimp only at down
  by_cases same : rest = [] ∧ below = []
  · simp [leadsDown, if_pos same] at down
  rw [if_neg same] at down
  by_cases level : (below.map descent).sum = 0
  · refine ⟨allEmpty level, ?_⟩
    rcases rest with _ | ⟨name, more⟩
    · simp [leadsDown, level] at down
    · refine ⟨name, more, rfl, fun empty => ?_⟩
      simp [leadsDown, level, empty] at down
  · obtain ⟨count, depth⟩ : ∃ count, (below.map descent).sum.toNat = count + 1 :=
      ⟨(below.map descent).sum.toNat - 1, by omega⟩
    rw [if_neg (fun both => level both.1), if_pos nonneg, depth, List.replicate_succ] at down
    simp [leadsDown] at down

theorem isInside_absolute {root candidate : Path} (inside : isInside root candidate = true) :
    candidate.absolute = root.absolute := by
  unfold isInside Path.lexicallyRelative at inside
  split at inside
  · simp [leadsDown] at inside
  · rename_i kinds
    simpa using kinds

/-- What the test accepts is named below the root, no name leading up. -/
theorem isInside_below {root candidate : Path} (rootLawful : root.Lawful)
    (lawful : candidate.Lawful) (absolute : root.absolute = true)
    (inside : isInside root candidate = true) :
    candidate.absolute = true ∧ ∃ names, names ≠ [] ∧
      candidate.lexicallyNormal.names = root.lexicallyNormal.names ++ names := by
  have candidateAbsolute : candidate.absolute = true :=
    (isInside_absolute inside).trans absolute
  unfold isInside Path.lexicallyRelative at inside
  rw [if_neg (by simp [absolute, candidateAbsolute])] at inside
  obtain ⟨common, taken, base⟩ :=
    mismatch_spec candidate.lexicallyNormal.elements root.lexicallyNormal.elements
  dsimp only at inside
  generalize mismatch candidate.lexicallyNormal.elements root.lexicallyNormal.elements = parts
    at inside taken base
  obtain ⟨rest, below⟩ := parts
  have rootNames := lexicallyNormal_names absolute
  have rootElements : ∀ name ∈ below, name = [] ∨ Plain name ∧ name ≠ [] := by
    intro name member
    have inBase : name ∈ root.lexicallyNormal.elements := base ▸ List.mem_append_right _ member
    rcases List.mem_append.mp inBase with named | last
    · exact Or.inr ⟨(rootNames name named).2,
        ((lexicallyNormal_lawful rootLawful absolute).names name named).1⟩
    · split at last <;> simp_all
  have flat : ∀ name ∈ below, name ≠ dotDot := by
    intro name member same
    rcases rootElements name member with rfl | ⟨plain, _⟩
    · cases same
    · exact plain.2 same
  obtain ⟨allStill, name, more, rfl, nonempty⟩ := wayBetween_down flat inside
  have allEmpty : below.filter (fun name => name != []) = [] := by
    rw [List.filter_eq_nil_iff]
    intro other member
    rcases rootElements other member with rfl | ⟨plain, _⟩
    · simp
    · rcases allStill other member with rfl | isDot
      · simp
      · exact absurd isDot plain.1
  have named : ∀ other ∈ common, other ≠ [] := by
    intro other member
    have early : other ∈ candidate.lexicallyNormal.elements.dropLast := by
      rw [taken, List.dropLast_append_of_ne_nil (List.cons_ne_nil _ _)]
      exact List.mem_append_left _ member
    exact ((lexicallyNormal_lawful lawful candidateAbsolute).names other
      (mem_dropLast_elements early)).1
  have commonKept : common.filter (fun name => name != []) = common :=
    List.filter_eq_self.mpr fun other member => by simpa using named other member
  have rootEq : root.lexicallyNormal.names = common := by
    rw [← filter_elements (lexicallyNormal_lawful rootLawful absolute), base, List.filter_append,
      allEmpty, commonKept, List.append_nil]
  refine ⟨candidateAbsolute, name :: more.filter (fun name => name != []),
    List.cons_ne_nil _ _, ?_⟩
  rw [← filter_elements (lexicallyNormal_lawful lawful candidateAbsolute), taken,
    List.filter_append, commonKept, rootEq, List.filter_cons_of_pos (by simpa using nonempty)]

theorem isInside_names_ne_nil {root candidate : Path} (inside : isInside root candidate = true) :
    candidate.names ≠ [] := by
  intro empty
  have still : candidate.lexicallyNormal.elements = [] := by
    simp [Path.lexicallyNormal, Path.elements, empty]
  unfold isInside Path.lexicallyRelative wayBetween at inside
  have nothing : ∀ base, mismatch [] base = ([], base) := fun base => by
    cases base <;> rfl
  rw [still, nothing] at inside
  dsimp only at inside
  split at inside
  · simp [leadsDown] at inside
  split at inside
  · simp [leadsDown] at inside
  split at inside
  · simp [leadsDown] at inside
  split at inside
  · rename_i level deep
    obtain ⟨count, depth⟩ : ∃ count,
        (root.lexicallyNormal.elements.map descent).sum.toNat = count + 1 :=
      ⟨(root.lexicallyNormal.elements.map descent).sum.toNat - 1, by
        have notLevel : (root.lexicallyNormal.elements.map descent).sum ≠ 0 := fun zero =>
          level ⟨zero, Or.inl rfl⟩
        omega⟩
    rw [depth, List.replicate_succ] at inside
    simp [leadsDown] at inside
  · simp [leadsDown] at inside

end LlvmDsdl.Library.LexicalPath
