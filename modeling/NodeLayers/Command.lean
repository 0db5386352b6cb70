import NodeLayers.ConfigurationFile
import NodeLayers.HostEntry
import NodeLayers.Yaml

namespace NodeLayers

inductive Format
  | json
  | yaml
deriving DecidableEq, Repr

def Format.ofName? : String → Option Format
  | "json" => some .json
  | "yaml" => some .yaml
  | _ => none

def Format.render : Format → Json → String
  | .json => Json.pretty
  | .yaml => Json.yaml

inductive Question
  | app
  | sites
  | lookup (node : String)
deriving DecidableEq, Repr

namespace Question

def answer (c : Configuration) : Question → Json
  | .app => c.app.entry
  | .sites => Registry.json (c.provision ∅)
  | .lookup node => (Resolution.find node (c.provision ∅) c.app).json

end Question

inductive CommandOption
  | file
  | format
deriving DecidableEq, Repr

def CommandOption.ofLong? : String → Option CommandOption
  | "--input-file" => some .file
  | "--output-format" => some .format
  | _ => none

def CommandOption.ofShort? : Char → Option CommandOption
  | 'f' => some .file
  | 'F' => some .format
  | _ => none

/-- The option that an argument names, and its value if the argument holds that too. -/
def CommandOption.ofArg? (arg : String) : Option (CommandOption × Option String) :=
  match arg.toList with
  | '-' :: '-' :: rest =>
    let name := rest.takeWhile (· ≠ '=')
    let value := rest.dropWhile (· ≠ '=')
    (ofLong? (String.ofList ('-' :: '-' :: name))).map fun o =>
      (o, if value.isEmpty then none else some (String.ofList value.tail))
  | '-' :: letter :: rest =>
    let value := if rest.head? = some '=' then rest.tail else rest
    (ofShort? letter).map fun o => (o, if rest.isEmpty then none else some (String.ofList value))
  | _ => none

/-- An argument that looks like an option; a dash alone is a name. -/
def looksLikeOption (arg : String) : Bool :=
  match arg.toList with
  | '-' :: _ :: _ => true
  | _ => false

structure CommandArgs where
  file : Option String
  format : Option Format
  names : List String
deriving DecidableEq, Repr

namespace CommandArgs

/-- An option may be given once; a file needs a path and a format a known name. -/
def set? (a : CommandArgs) (o : CommandOption) (value : String) : Option CommandArgs :=
  match o with
  | .file => if a.file.isSome ∨ value = "" then none else some { a with file := some value }
  | .format =>
    if a.format.isSome then none
    else (Format.ofName? value).map fun format => { a with format := some format }

/-- The arguments behind a command, none if they are not well formed. -/
def ofList? (a : CommandArgs) : List String → Option CommandArgs
  | [] => some a
  | arg :: rest =>
    if arg = "--" then some { a with names := a.names ++ rest }
    else if looksLikeOption arg then
      match CommandOption.ofArg? arg, rest with
      | none, _ => none
      | some (o, some value), rest => (a.set? o value).bind (ofList? · rest)
      | some (_, none), [] => none
      | some (o, none), value :: rest =>
        if looksLikeOption value then none else (a.set? o value).bind (ofList? · rest)
    else ofList? { a with names := a.names ++ [arg] } rest

end CommandArgs

/-- A question about a document, and how to answer it. Without a file the document is the standard
input. -/
structure Command where
  question : Question
  file : Option String
  format : Format
deriving DecidableEq, Repr

structure Outcome where
  exit : Nat
  stdout : String
  stderr : String
deriving DecidableEq, Repr

namespace Command

def ofArgs? : List String → Option Command
  | [] => none
  | name :: rest => do
    let args ← CommandArgs.ofList? ⟨none, none, []⟩ rest
    let question ← match name, args.names with
      | "app", [] => some .app
      | "sites", [] => some .sites
      | "lookup", [] => some (.lookup Directive.defaultNode)
      | "lookup", [node] => some (.lookup node)
      | _, _ => none
    some ⟨question, args.file, args.format.getD .yaml⟩

/-- What the document says, or the lines that report why it cannot be told; `path` is where the file
was found. -/
def load (c : Command) (path : Path) (bytes : Except ReadFault ByteArray) :
    Except (List String) Configuration :=
  match c.file with
  | some _ => (Configuration.ofFile path bytes).mapError fun e => e.message :: e.causes
  | none => do
    let text ← (textOfBytes bytes).mapError fun fault => [fault.message]
    (Configuration.ofText none text).mapError ParseError.report

def run (c : Command) (path : Path) (bytes : Except ReadFault ByteArray) : Outcome :=
  match c.load path bytes with
  | .ok found => ⟨0, c.format.render (c.question.answer found), ""⟩
  | .error lines => ⟨1, "", String.join (lines.map (· ++ "\n"))⟩

end Command

end NodeLayers
