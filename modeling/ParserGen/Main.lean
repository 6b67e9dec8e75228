import ParserGen.Session.Basic

/-!
# The interactive program

The program takes the path of a definitions file, prompts for lines, and answers each.
-/

namespace ParserGen

/-- The most moves that one token may cause. -/
def moveLimit : Nat := 0xffffffffffffffff

/-- The text of a file, if it can be read. -/
def readFile? (path : String) : IO (Option String) := do
  try
    let text ← IO.FS.readFile path
    return some text
  catch _ => return none

/-- Answer lines until the input or the session ends. -/
partial def converseOn (path : String) (input output : IO.FS.Stream) (s : Session) : IO Unit := do
  output.putStr Session.prompt
  output.flush
  let line ← input.getLine
  if line.isEmpty then return
  match s.respond moveLimit line.toList with
  | none => return
  | some r =>
    output.putStr r.output
    output.flush
    match r.written with
    | some text => IO.FS.writeFile path text
    | none => pure ()
    if r.ends then return
    converseOn path input output r.session

end ParserGen

open ParserGen in
/-- Run a session on the definitions file that the only argument names. -/
def main (arguments : List String) : IO UInt32 := do
  match arguments with
  | [path] =>
    let file ← readFile? path
    match Session.ofFile file with
    | .error e =>
      (← IO.getStderr).putStr s!"error: {e.message}\n"
      return 1
    | .ok s =>
      converseOn path (← IO.getStdin) (← IO.getStdout) s
      return 0
  | _ =>
    (← IO.getStderr).putStr "usage: parsergen DEFINITIONS\n"
    return 1
