/-!
# Text

Text is kept as its list of characters.  There are two notions of blank character:

* `Text.isSpace` separates words inside a program;
* `Text.isWhite` is what trimming removes at both ends of a piece of text.

Every space is white (`Text.isWhite_of_isSpace`), the converse fails beyond ASCII.
-/

namespace ArithMips

/-- A piece of text as its list of characters. -/
abbrev Text := List Char

namespace Text

/-- The characters that separate words: tab, line feed, vertical tab, form feed, carriage return, blank. -/
def isSpace (c : Char) : Bool :=
  (0x09 ≤ c.toNat && c.toNat ≤ 0x0D) || c.toNat == 0x20

/-- The characters with the Unicode property White_Space. -/
def isWhite (c : Char) : Bool :=
  (0x09 ≤ c.toNat && c.toNat ≤ 0x0D) || c.toNat == 0x20 || c.toNat == 0x85 || c.toNat == 0xA0 ||
    c.toNat == 0x1680 || (0x2000 ≤ c.toNat && c.toNat ≤ 0x200A) || c.toNat == 0x2028 || c.toNat == 0x2029 ||
    c.toNat == 0x202F || c.toNat == 0x205F || c.toNat == 0x3000

theorem isWhite_of_isSpace {c : Char} (h : isSpace c = true) : isWhite c = true := by
  simp only [isSpace, Bool.or_eq_true] at h
  rcases h with h | h <;> simp [isWhite, h]

def trimStart (s : Text) : Text := s.dropWhile isWhite

def trimEnd (s : Text) : Text := (s.reverse.dropWhile isWhite).reverse

/-- The text without white characters at either end. -/
def trim (s : Text) : Text := trimEnd (trimStart s)

def utf8Size (s : Text) : Nat := s.foldl (fun n c => n + c.utf8Size) 0

/-- The maximal pieces without space characters, from left to right. -/
def words (s : Text) : List Text := (s.splitOnP isSpace).filter (· ≠ [])

/-- The pieces between the occurrences of a separator, trimmed, without the empty ones. -/
def trimmedPieces (separator : Char) (s : Text) : List Text :=
  ((s.splitOn separator).map trim).filter (· ≠ [])

end Text

end ArithMips
