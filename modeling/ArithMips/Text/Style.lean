import ArithMips.Text.Basic

/-!
# Styled output

Terminal colours.  A painted text is wrapped into an escape sequence that switches the style on and one that
resets it; without colours it stays as it is.  A text may itself hold reset sequences; the style is switched on
again after each of them, so that it lasts to the end of the text.
-/

namespace ArithMips

inductive Style where
  | red
  | green
  | cyan
  | dimmed
  deriving DecidableEq, Repr

namespace Style

/-- The number that selects a style in a terminal's escape sequence. -/
def code : Style → Text
  | red => ['3', '1']
  | green => ['3', '2']
  | cyan => ['3', '6']
  | dimmed => ['2']

/-- The escape sequence that switches a style on. -/
def opening (style : Style) : Text := '\x1b' :: '[' :: style.code ++ ['m']

/-- The escape sequence that resets all styles. -/
def reset : Text := ['\x1b', '[', '0', 'm']

/-- The text with a style switched on again after every reset in it. -/
def reopen (style : Style) : Text → Text
  | '\x1b' :: '[' :: '0' :: 'm' :: s => reset ++ style.opening ++ reopen style s
  | c :: s => c :: reopen style s
  | [] => []

/-- The text in a style, or as it is when colours are off.  An empty text is wrapped as well. -/
def paint (coloured : Bool) (style : Style) (s : Text) : Text :=
  if coloured then style.opening ++ style.reopen s ++ reset else s

end Style

end ArithMips
