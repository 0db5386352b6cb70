import NodeLayers.Hidden
import NodeLayers.Json
import NodeLayers.Node

namespace NodeLayers

/-- What a value turns out to be: a scalar as a whole, of a container only its kind. -/
inductive Found
  | null
  | bool (value : Bool)
  | integer (value : Int)
  | real (value : Float)
  | text (value : String)
  | list
  | object

def Json.found : Json → Found
  | .null => .null
  | .bool b => .bool b
  | .integer n => .integer n
  | .real x => .real x
  | .text s => .text s
  | .list _ => .list
  | .object _ => .object

inductive Wanted
  | text
  | boolean
  | port
  | list
  | object
  | app
  | node
  | directive
deriving DecidableEq, Repr

def Wanted.message : Wanted → String
  | .text => "a string"
  | .boolean => "a boolean"
  | .port => "u16"
  | .list => "a sequence"
  | .object => "a map"
  | .app => "struct App"
  | .node => "struct Node"
  | .directive => "struct Directive"

/-- A character in a message: what could not be seen there is shown by its code point. -/
def shownChar (c : Char) : List Char :=
  if c = '\x00' then ['\\', '0']
  else if c = '\t' then ['\\', 't']
  else if c = '\r' then ['\\', 'r']
  else if c = '\n' then ['\\', 'n']
  else if c = '"' then ['\\', '"']
  else if c = '\\' then ['\\', '\\']
  else if isHidden c then '\\' :: 'u' :: '\x7b' :: Nat.toDigits 16 c.toNat ++ ['\x7d']
  else [c]

def shown (s : String) : String :=
  String.ofList ('"' :: s.toList.flatMap shownChar ++ ['"'])

def ticked (s : String) : String :=
  "\x60" ++ s ++ "\x60"

def Found.message : Found → String
  | .null => "null"
  | .bool true => "boolean " ++ ticked "true"
  | .bool false => "boolean " ++ ticked "false"
  | .integer n => "integer " ++ ticked (toString n)
  | .real x => "floating point " ++ ticked (Json.realForm.text x)
  | .text s => "string " ++ shown s
  | .list => "sequence"
  | .object => "map"

inductive Mismatch
  | wrongType (found : Found) (wanted : Wanted)
  | noPort (value : Int)
  | repeatedField (name : String)
  | noFlag
  | badFlag (fault : ValueFault)

def Mismatch.message : Mismatch → String
  | .wrongType found wanted =>
    "invalid type: " ++ found.message ++ ", expected " ++ wanted.message
  | .noPort value =>
    "invalid value: " ++ (Found.integer value).message ++ ", expected " ++ Wanted.port.message
  | .repeatedField name => "duplicate field " ++ ticked name
  | .noFlag => "data did not match any variant of untagged enum Repr"
  | .badFlag fault => fault.message

namespace Found

def asText : Found → Except Mismatch String
  | .text s => .ok s
  | f => .error (.wrongType f .text)

def asBoolean : Found → Except Mismatch Bool
  | .bool b => .ok b
  | f => .error (.wrongType f .boolean)

def asPort : Found → Except Mismatch UInt16
  | .integer n => if 0 ≤ n ∧ n < 65536 then .ok n.toNat.toUInt16 else .error (.noPort n)
  | f => .error (.wrongType f .port)

/-- A flag is left open by null and by two texts. -/
def asFlag : Found → Except Mismatch Flag
  | .null => .ok none
  | .bool b => .ok (some b)
  | .text s =>
    if s = "" ∨ s = "unset" then .ok none
    else ((readBool s).map some).mapError .badFlag
  | .integer _ | .real _ | .list | .object => .error .noFlag

end Found

end NodeLayers
