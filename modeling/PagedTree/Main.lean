import PagedTree.Shell.Transcript

/-! # The program

Opens a database file, binds a shell to one of its trees and answers the lines of the standard
input. The file is saved after each line that has written a page.
-/
namespace PagedTree.Main

open PagedTree.Shell

def usage : String := "usage: PATH [--create] [--root PAGE] [--sync] [--log FILTER]"

def pageNo? (s : String) : Option PageNo := do
  let key ← Command.key? s.toList
  if key.toNat < UInt32.size then some (.ofNat key.toNat) else none

/-- Reads the arguments; `--sync` and `--log` change nothing that this program shows. -/
def options? : List String → Options → Option Options
  | [], o => if o.path.isEmpty then none else some o
  | "--create" :: rest, o => options? rest { o with create := true }
  | "--sync" :: rest, o => options? rest o
  | "--log" :: _ :: rest, o => options? rest o
  | "--root" :: page :: rest, o => do options? rest { o with root := ← pageNo? page }
  | arg :: rest, o =>
    if arg.startsWith "-" || !o.path.isEmpty then none else options? rest { o with path := arg }

/-- A path that is there but cannot be read as a file counts as a directory. -/
def diskAt (path : String) : IO Disk := do
  try
    return .file (.ofBytes (← IO.FS.readBinFile path))
  catch
    | .noFileOrDirectory .. => return .absent
    | _ => return .directory

def save (o : Options) (store : PageStore) : IO Unit :=
  IO.FS.writeBinFile o.path store.file.toBytes

partial def answerLines (o : Options) (input : IO.FS.Stream) (s : Shell) : IO UInt32 := do
  if ← input.isTty then
    IO.print "ember> "
    (← IO.getStdout).flush
  let line ← input.getLine
  if line.isEmpty then
    return 0
  if line.toList.all Text.isBlank then
    return ← answerLines o input s
  let (reply, s) := s.answer line
  if !s.store.journal.isEmpty then
    save o s.store
  let (out, err, code) := reply.printed
  IO.print out
  IO.eprint err
  match code with
  | some code => return .ofNat code
  | none => answerLines o input { s with store := s.store.forgetJournal }

def finish (t : Transcript) : IO UInt32 := do
  IO.print t.stdout
  IO.eprint t.stderr
  return .ofNat t.code

end PagedTree.Main

open PagedTree PagedTree.Main in
def main (args : List String) : IO UInt32 := do
  match options? args ⟨"", false, 0⟩ with
  | none =>
    IO.eprintln usage
    return 2
  | some o =>
    match o.database (← diskAt o.path) with
    | .error i => finish (Shell.startFailure i)
    | .ok store =>
      if o.create then
        save o store
      match Shell.start store o.root with
      | .error i => finish (Shell.startFailure i)
      | .ok shell => answerLines o (← IO.getStdin) shell
