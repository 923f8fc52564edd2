import ArithMips.Compilation
import ArithMips.Text.Style

/-!
# Traces as text

Every trace is a line with a label and the tokens it shows.
-/

namespace ArithMips

/-- A line with a label and a list. -/
def Trace.line (coloured : Bool) (label : String) (items : List Text) : Text :=
  Style.cyan.paint coloured label.toList ++ ' ' ::
    Style.dimmed.paint coloured (List.intercalate [' '] items) ++ ['\n']

/-- The line that shows a trace. -/
def Trace.text (coloured : Bool) : Trace → Text
  | tokens ts => line coloured "Tokens:" (ts.map Token.description)
  | polish ts => line coloured "Postfix:" (ts.map Token.text)

end ArithMips
