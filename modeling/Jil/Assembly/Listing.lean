/-
Jil.Assembly.Listing — the assembly text of a class.

The text section holds the functions. The data section holds the static members
of the class and, behind them, the string constants, each ended by a zero byte.
-/
import Jil.Assembly.Function
import Jil.Assembly.Quoted
import Jil.Structure.Data

namespace Jil.Assembly

/-- A compiled class. -/
structure Listing where
  owner : String
  functions : List Function
  staticSymbol : String
  statics : List DataItem
  /-- Labels and texts of the string constants. -/
  strings : List (String × String)
  deriving Repr

namespace Listing

/-- The first function with a given symbol. -/
def function? (l : Listing) (symbol : String) : Option Function :=
  l.functions.find? (·.symbol = symbol)

/-- The lines of a string constant. -/
def stringLines : String × String → List String
  | (label, text) => [label ++ ":", "\t.asciz " ++ Quoted.ofText text]

/-- The lines of the data section. -/
def dataLines (l : Listing) : List String :=
  ["\t.data", "\t.balign 8", l.staticSymbol ++ ":"]
    ++ l.statics.map DataItem.text
    ++ l.strings.flatMap stringLines

/-- The assembly text. -/
def text (l : Listing) : String :=
  "\t.text\n" ++ String.join (l.functions.map Function.text)
    ++ String.join (l.dataLines.map (· ++ "\n"))

end Listing

end Jil.Assembly
