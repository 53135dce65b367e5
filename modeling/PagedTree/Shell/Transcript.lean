import PagedTree.Shell.Basic

/-! # Runs of the shell

What a run on a list of lines prints and with which code it ends. Blank lines are passed over,
failures go to the error output, and only `quit`, a fault or the last line ends a run.
-/
namespace PagedTree

structure Transcript where
  stdout : String
  stderr : String
  code : Nat

namespace Transcript

def failure (message : String) : Transcript := ⟨"", "error: " ++ message ++ "\n", 1⟩

/-- What is printed before the rest of a run. -/
def after (stdout stderr : String) (t : Transcript) : Transcript :=
  { t with stdout := stdout ++ t.stdout, stderr := stderr ++ t.stderr }

end Transcript

namespace Interrupt

/-- Faults and endless walks are no failures to report: the program is gone. -/
def message? : Interrupt → Option String
  | .error e => some e.message
  | .fault | .endless => none

end Interrupt

namespace Shell

/-- The code of a program that has died. -/
def faultCode : Nat := 101

/-- A reply as it is printed: the text for each of the two outputs, and the code if it ends the
run. -/
def Reply.printed : Reply → String × String × Option Nat
  | .print text => (text ++ "\n", "", none)
  | .quit => ("", "", some 0)
  | .rejected e => ("", "error: " ++ e.message ++ "\n", none)
  | .stopped i =>
    match i.message? with
    | some message => ("", "error: " ++ message ++ "\n", none)
    | none => ("", "", some faultCode)

def runLines : List String → Shell → Transcript × Shell
  | [], s => (⟨"", "", 0⟩, s)
  | line :: lines, s =>
    if line.toList.all Text.isBlank then runLines lines s
    else
      let (reply, s) := s.answer line
      match reply.printed with
      | (out, err, some code) => (⟨out, err, code⟩, s)
      | (out, err, none) =>
        let (t, s) := runLines lines s
        (t.after out err, s)

structure Options where
  path : String
  /-- Makes a new database in place of any file that is there. -/
  create : Bool
  root : PageNo

/-- The database that a run starts with, and the disk then. -/
def Options.database (o : Options) (disk : Disk) : Except Interrupt PageStore :=
  if o.create then Catalog.create disk
  else match Catalog.load o.path disk with
    | .ok s => .ok s
    | .error e => .error (.error e)

def startFailure (i : Interrupt) : Transcript :=
  match i.message? with
  | some message => .failure message
  | none => ⟨"", "", faultCode⟩

def run (o : Options) (lines : List String) (disk : Disk) : Transcript × Disk :=
  match o.database disk with
  | .error i => (startFailure i, disk)
  | .ok store =>
    match start store o.root with
    | .error i => (startFailure i, .file store.file)
    | .ok shell =>
      let (t, shell) := runLines lines shell
      (t, .file shell.store.file)

end Shell

end PagedTree
