/-!
# `Grove.Text.Paint` — coloured text for terminals

A painted text stands between a code that sets a style and one that resets it. A reset inside the text would
end the style too early, so the style is set again after it.
-/

namespace Grove.Text

/-- The code that resets all styles. -/
def resetCode : String := "\x1b[0m"

/-- `text` in the style with the given code numbers, or as it is where there are no colours. -/
def paint (colours : Bool) (codes text : String) : String :=
  if colours then
    let style := "\x1b[" ++ codes ++ "m"
    style ++ text.replace resetCode (resetCode ++ style) ++ resetCode
  else
    text

/-- Bold red, bold cyan, yellow and faint. -/
def boldRed : String := "1;31"

def boldCyan : String := "1;36"

def yellow : String := "33"

def faint : String := "2"

end Grove.Text
