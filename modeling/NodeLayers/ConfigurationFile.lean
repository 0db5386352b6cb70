import NodeLayers.Configuration

namespace NodeLayers

inductive ReadFault
  | missing
  | isDirectory
  | notDirectory
  | nameTooLong
  | notText
  | other (message : String)
deriving DecidableEq, Repr

def ReadFault.message : ReadFault → String
  | .missing => "No such file or directory (os error 2)"
  | .isDirectory => "Is a directory (os error 21)"
  | .notDirectory => "Not a directory (os error 20)"
  | .nameTooLong => "File name too long (os error 36)"
  | .notText => "stream did not contain valid UTF-8"
  | .other message => message

/-- Bytes that were read, as text. -/
def textOfBytes (bytes : Except ReadFault ByteArray) : Except ReadFault String := do
  match String.fromUTF8? (← bytes) with
  | some s => .ok s
  | none => .error .notText

inductive LoadError
  | unreadable (fault : ReadFault)
  | wrong (error : ParseError)
deriving DecidableEq, Repr

def LoadError.message : LoadError → String
  | .unreadable _ => "IO error"
  | .wrong _ => "Unable to parse Caddyfile"

/-- The lines that report what the message leaves open. -/
def LoadError.causes : LoadError → List String
  | .unreadable fault => [fault.message]
  | .wrong error => error.report

def Configuration.ofFile (path : Path) (bytes : Except ReadFault ByteArray) :
    Except LoadError Configuration := do
  let text ← (textOfBytes bytes).mapError .unreadable
  (Configuration.ofText (some path) text).mapError .wrong

end NodeLayers
