import PagedTree.Text.Blank

/-! # Shell commands

A line is a command word and the rest, both without the blanks around them. The word is read
without regard to the case of ASCII letters; `help` and `quit` ignore the rest.
-/
namespace PagedTree.Shell

inductive Command where
  | add (key : UInt64) (value : String)
  | get (key : UInt64)
  | del (key : UInt64)
  | scan
  | print
  | last
  | tables
  | help
  | quit
  deriving DecidableEq

inductive LineFault where
  | empty
  | unknown (word : String)
  | missing (command what : String)
  | badKey (word : String)
  | unexpected (command : String)
  deriving DecidableEq

def LineFault.message : LineFault → String
  | .empty => "empty command"
  | .unknown word => s!"unknown command '{word}' (try 'help')"
  | .missing command what => s!"'{command}' needs a {what}"
  | .badKey word => s!"'{word}' is not a valid key"
  | .unexpected command => s!"'{command}' takes no arguments"

namespace Command

open PagedTree.Text

def helpText : String := "\n".intercalate [
  "commands:",
  "  add <key> <value>   insert a key/value pair (value is the rest of the line)",
  "  get <key>           look up a key",
  "  del <key>           delete a key",
  "  scan                list every entry in key order",
  "  print               show the tree structure",
  "  last                show the rightmost leaf size and the next row id",
  "  tables              list catalog entries",
  "  help                show this text",
  "  quit                leave the shell"]

def digitsValue (digits : List Char) : Nat :=
  digits.foldl (fun n c => 10 * n + (c.toNat - '0'.toNat)) 0

/-- A key in decimal digits, with or without one plus sign in front. -/
def key? (word : List Char) : Option UInt64 :=
  let digits := match word with
    | '+' :: rest => rest
    | _ => word
  if digits.isEmpty || !digits.all Char.isDigit then none
  else
    let n := digitsValue digits
    if n < UInt64.size then some (.ofNat n) else none

def keyOf (command : String) (word : List Char) : Except LineFault UInt64 :=
  if word.isEmpty then .error (.missing command "key")
  else match key? word with
    | some key => .ok key
    | none => .error (.badKey (String.ofList word))

def alone (command : String) (rest : List Char) (c : Command) : Except LineFault Command :=
  if rest.isEmpty then .ok c else .error (.unexpected command)

def addOf (rest : List Char) : Except LineFault Command := do
  let (word, value) := splitFirst rest
  let key ← keyOf "add" word
  let value := trimStart value
  if value.isEmpty then
    throw (.missing "add" "value")
  return add key (String.ofList value)

def parse (line : String) : Except LineFault Command :=
  let (word, rest) := splitFirst (trim line.toList)
  let rest := trim rest
  match String.ofList (word.map Char.toLower) with
  | "" => .error .empty
  | "add" | "insert" => addOf rest
  | "get" => (keyOf "get" rest).map get
  | "del" | "delete" => (keyOf "del" rest).map del
  | "scan" => alone "scan" rest scan
  | "print" => alone "print" rest print
  | "last" => alone "last" rest last
  | "tables" => alone "tables" rest tables
  | "help" | "?" => .ok help
  | "quit" | "exit" | "q" => .ok quit
  | word => .error (.unknown word)

end Command

end PagedTree.Shell
