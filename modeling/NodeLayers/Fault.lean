import NodeLayers.Path
import NodeLayers.Piece

namespace NodeLayers

inductive PortFault
  | empty
  | notDigit
  | tooLarge
deriving DecidableEq, Repr

def PortFault.message : PortFault → String
  | .empty => "cannot parse integer from empty string"
  | .notDigit => "invalid digit found in string"
  | .tooLarge => "number too large to fit in target type"

inductive ValueFault
  | notBoolean
  | signed
  | port (fault : PortFault)
deriving DecidableEq, Repr

def ValueFault.message : ValueFault → String
  | .notBoolean =>
    "expected a boolean (1, t, T, TRUE, true, True, 0, f, F, FALSE, false, False)"
  | .signed => "a port number must not carry a sign"
  | .port fault => fault.message

inductive Fault
  | unterminatedQuote (q : Quote)
  | missingOpenBrace
  | lateGlobalBlock
  | unclosedBlock
  | strayOpenBrace
  | missingArgument (token : String)
  | invalidValue (token : String) (reason : ValueFault)
  | unknownOption (name : String)
  | repeatedGlobalOption (name : String)
  | refused (message : String)
deriving DecidableEq, Repr

def Fault.message : Fault → String
  | .unterminatedQuote q => "syntax error: unterminated quote " ++ q.mark.toString
  | .missingOpenBrace =>
    "syntax error: expected '\x7b' on the same line to open the server block"
  | .lateGlobalBlock => "syntax error: the global options block must be the first block"
  | .unclosedBlock => "syntax error: unclosed block, missing '\x7d'"
  | .strayOpenBrace => "syntax error: unexpected '\x7b'"
  | .missingArgument token =>
    "wrong argument count or unexpected line ending after '" ++ token ++ "'"
  | .invalidValue token _ => "invalid value '" ++ token ++ "'"
  | .unknownOption name => "unrecognized subdirective: " ++ name
  | .repeatedGlobalOption name => "global option '" ++ name ++ "' specified more than once"
  | .refused message => message

/-- The first fault of a document, and where it stands. -/
structure ParseError where
  location : Location
  fault : Fault
deriving DecidableEq, Repr

def ParseError.message (e : ParseError) : String :=
  e.location.text ++ ": " ++ e.fault.message

/-- The lines that report an error, the reason of a bad value last. -/
def ParseError.report (e : ParseError) : List String :=
  match e.fault with
  | .invalidValue _ reason => [e.message, reason.message]
  | _ => [e.message]

end NodeLayers
