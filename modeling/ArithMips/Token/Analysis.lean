import ArithMips.Token.Polish
import ArithMips.Token.Scan

/-!
# Analysis of expressions

The way of an expression from its text to reverse Polish order, as a function of the text and the options alone:
the characters that were skipped, the traces that the options ask for, and the tokens or the error that ended it.
-/

namespace ArithMips

/-- A line that traces an expression. -/
inductive Trace where
  | tokens (tokens : List Token)
  | polish (tokens : List Token)
  deriving DecidableEq, Repr

/-- What the analysis of an expression gives. -/
structure Analysis where
  skipped : List Char
  traces : List Trace
  result : Except Error (List Token)

/-- Analyses the text of an expression. -/
def Text.analyse (options : Options) (s : Text) : Analysis :=
  let scan := s.scan options.limits
  match scan.result with
  | .error e => { skipped := scan.skipped, traces := [], result := .error e }
  | .ok tokens =>
    let traces := if options.traceTokens then [Trace.tokens tokens] else []
    match Token.polish options.strictParens tokens with
    | .error e => { skipped := scan.skipped, traces, result := .error e }
    | .ok polish =>
      { skipped := scan.skipped
        traces := if options.tracePolish then traces ++ [.polish polish] else traces
        result := .ok polish }

theorem Text.skipped_analyse (options : Options) (s : Text) :
    (s.analyse options).skipped = (s.scan options.limits).skipped := by
  unfold analyse
  dsimp only
  split
  · rfl
  · -- The characters are known before the tokens are reordered.
    split <;> rfl

end ArithMips
