import NodeLayers.Command

namespace NodeLayers

/-- The system's number of an error, which some calls give negated. -/
def systemCode (code : UInt32) : UInt32 :=
  if code < 0x80000000 then code else 0 - code

def readFault : IO.Error → ReadFault
  | .noFileOrDirectory .. => .missing
  | .inappropriateType _ code details | .invalidArgument _ code details
  | .permissionDenied _ code details | .resourceExhausted _ code details =>
    match systemCode code with
    | 13 => .other "Permission denied (os error 13)"
    | 20 => .notDirectory
    | 21 => .isDirectory
    | 36 => .nameTooLong
    | n => .other (details ++ " (os error " ++ toString n ++ ")")
  | e => .other (toString e)

def attempt {α : Type} (action : IO α) : IO (Except ReadFault α) := do
  return (← action.toBaseIO).mapError readFault

/-- The place of a file and its bytes. A name that leads nowhere is read as it is, to learn why. -/
def readFile (file : String) : IO (Path × Except ReadFault ByteArray) := do
  match ← attempt (IO.FS.realPath file) with
  | .ok place => return (⟨place.toString⟩, ← attempt (IO.FS.readBinFile place))
  | .error _ => return (⟨file⟩, ← attempt (IO.FS.readBinFile file))

partial def readRest (input : IO.FS.Stream) (before : ByteArray) : IO ByteArray := do
  let chunk ← input.read 65536
  if chunk.isEmpty then return before else readRest input (before ++ chunk)

def readInput : IO (Path × Except ReadFault ByteArray) := do
  return (⟨""⟩, ← attempt (readRest (← IO.getStdin) ByteArray.empty))

def usage : String :=
  "Usage: <app|sites|lookup [NODE]> [-f FILE] [-F json|yaml]"

end NodeLayers

open NodeLayers in
def main (args : List String) : IO UInt32 := do
  match Command.ofArgs? args with
  | none =>
    (← IO.getStderr).putStrLn usage
    return 2
  | some command =>
    let (path, bytes) ← match command.file with
      | some file => readFile file
      | none => readInput
    let outcome := command.run path bytes
    (← IO.getStdout).putStr outcome.stdout
    (← IO.getStderr).putStr outcome.stderr
    return outcome.exit.toUInt32
