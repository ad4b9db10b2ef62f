/-!
# Paths

A path is a list of segments, written with dots between them. The empty text is the empty path;
any other text has one segment more than dots, and segments may be empty.
-/

namespace MessageMapping

-- the power of core, also where an algebra library brings its own
attribute [default_instance 20000, local instance (20000)] instPowNat

/-- The segments of a path, outermost first. -/
abbrev Path :=
  List String

namespace Path

/-- The pieces of a text between its dots. -/
def pieces (text : List Char) : List (List Char) :=
  text.foldr
    (fun c found =>
      match found with
      | piece :: rest => if c = '.' then [] :: piece :: rest else (c :: piece) :: rest
      | [] => [[c]])
    [[]]

/-- Reads the dotted form. -/
def ofText (text : String) : Path :=
  if text.isEmpty then [] else (pieces text.toList).map String.ofList

/-- Pieces with dots between them. -/
def joined : List (List Char) → List Char
  | [] => []
  | [piece] => piece
  | piece :: rest => piece ++ '.' :: joined rest

/-- The dotted form. -/
def text (path : Path) : String :=
  String.ofList (joined (path.map String.toList))

theorem pieces_ne_nil (text : List Char) : pieces text ≠ [] := by
  cases text with
  | nil => simp [pieces]
  | cons c rest =>
    simp only [pieces, List.foldr_cons]
    split
    · split <;> simp
    · simp

theorem joined_pieces (text : List Char) : joined (pieces text) = text := by
  induction text with
  | nil => rfl
  | cons c rest ih =>
    obtain ⟨piece, found, hrest⟩ := List.exists_cons_of_ne_nil (pieces_ne_nil rest)
    have hpieces : pieces (c :: rest) =
        if c = '.' then [] :: piece :: found else (c :: piece) :: found := by
      rw [pieces, List.foldr_cons, ← pieces, hrest]
    rw [hrest] at ih
    rw [hpieces]
    split
    · rename_i hc
      rw [joined, ih, hc]
      · rfl
      · simp
    · rw [← ih]
      cases found <;> rfl

/-- Writing a path that was read gives the text back. -/
theorem text_ofText (text : String) : (ofText text).text = text := by
  unfold ofText Path.text
  split
  · rename_i h
    rw [String.isEmpty_iff.1 h]
    rfl
  · simp [Function.comp_def, joined_pieces]

/-- The number written by decimal digits. -/
def decimal (digits : List Char) : Nat :=
  digits.foldl (fun n c => 10 * n + (c.toNat - 48)) 0

/-- The array index that a segment names: decimal digits, perhaps after one plus sign, of at most
64 bits. -/
def index? (segment : String) : Option Nat :=
  let digits :=
    match segment.toList with
    | '+' :: rest => rest
    | digits => digits
  if !digits.isEmpty && digits.all Char.isDigit && decimal digits < 2 ^ 64 then
    some (decimal digits)
  else none

end Path

end MessageMapping
