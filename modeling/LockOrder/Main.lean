import LockOrder.CommandLine.Run

/-!
# The program

Reads what the command line names, runs the command, and reports.
-/

namespace LockOrder

open CommandLine

/-- Reads a stream to its end. -/
partial def readAll (stream : IO.FS.Stream) (found : ByteArray) : IO ByteArray := do
  let chunk ← stream.read 65536
  if chunk.isEmpty then return found else readAll stream (found ++ chunk)

/-- What an action of the system yields. -/
def sourceOf (action : IO ByteArray) : IO Dump.Source := do
  try return .ok (← action).toList
  catch failure => return .error (toString failure)

/-- Reads what a command needs, and nothing else. -/
def surroundingsOf (command : Command) : IO Surroundings := do
  let settings ← command.settings.mapM fun path => sourceOf (IO.FS.readBinFile path)
  let dump ←
    if command.dump = "-" then sourceOf (do readAll (← IO.getStdin) .empty)
    else sourceOf (IO.FS.readBinFile command.dump)
  return {
    file := fun path =>
      if command.settings = some path then settings.getD dump else dump
    input := dump }

end LockOrder

open LockOrder in
/-- Runs the command line. -/
def main (args : List String) : IO UInt32 := do
  let env ← IO.getEnv "LOCKGRAPH_CONFIG"
  let around ←
    match CommandLine.Command.parse env args with
    | .ok command => surroundingsOf command
    | .error _ => pure ⟨fun _ => .ok [], .ok []⟩
  let outcome := CommandLine.runLine around env args
  match outcome with
  | .text output => IO.print output
  | .failed failure => IO.eprintln ("Error: " ++ failure.detail)
  | .misused misuse => IO.eprintln ("error: " ++ misuse.message)
  return outcome.exitCode
