import LuaTree.Cli
import LuaTree.Explorer.View

/-!
# The program

Reads the file, runs the command line on it, and writes what that answers. The
explorer is shown as lines of text and takes one key on each line of input.
-/

namespace LuaTree.Program

/-- The key that a line of input names. -/
def keyOfLine (line : String) : Explorer.Key :=
  match line with
  | "up" => .up
  | "down" => .down
  | "pageup" => .pageUp
  | "pagedown" => .pageDown
  | "home" => .home
  | "end" => .last
  | "tab" => .tab
  | "esc" => .escape
  | _ =>
    match line.toList with
    | [c] => .char c
    | _ => .other

/-- Draw, read a key, and go on until the explorer is left or the input ends. -/
partial def explore (stdin stdout : IO.FS.Stream) (e : Explorer) : IO Unit := do
  let e := e.settle 23 23
  for row in e.view 80 24 do
    stdout.putStrLn (String.ofList (row.map Explorer.Cell.char))
  stdout.flush
  if e.quit then
    return
  let line ← stdin.getLine
  if line.isEmpty then
    return
  explore stdin stdout (e.press (keyOfLine line.trimAscii.toString))

/-- What stands under a name. -/
def entry (path : String) : IO Cli.Entry := do
  try
    return .file (← IO.FS.readFile path)
  catch error =>
    match error with
    | .inappropriateType .. => return .directory
    | _ => return .missing

end LuaTree.Program

open LuaTree in
def main (args : List String) : IO UInt32 := do
  let entry ← match Cli.command {} args with
    | .run ⟨_, _, some file⟩ => Program.entry file
    | _ => pure .missing
  match Cli.run "luatree" args fun _ => entry with
  | .done outcome =>
    (← IO.getStdout).putStr outcome.stdout
    (← IO.getStderr).putStr outcome.stderr
    return outcome.exitCode.toUInt32
  | .explore arena source =>
    Program.explore (← IO.getStdin) (← IO.getStdout) (Explorer.start arena source)
    return 0
