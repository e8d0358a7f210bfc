import FileGraph.CommandLine.Run
/-!
# Main — the command line

Runs on the files of the system.  Notices go to standard output, and what goes wrong to standard error.
-/
namespace FileGraph.CommandLine

def succeeds (action : IO Unit) : IO Bool := do
  try
    action
    return true
  catch _ => return false

/-- The host on the files of the system. -/
def Host.onSystem : Host IO where
  say n := do
    IO.println (n.text seconds)
    (← IO.getStdout).flush
  warn text := IO.eprintln text
  now := IO.monoMsNow
  read path := do
    try return some (← IO.FS.readBinFile path).data.toList
    catch _ => return none
  write path bytes := succeeds (IO.FS.writeBinFile path ⟨bytes.toArray⟩)
  makeFolder path := succeeds (IO.FS.createDirAll path)

/-- Carries out a command line on the files of the system, and gives the exit code. -/
def executeOnSystem (arguments : List String) : IO UInt32 := do
  let ending ← execute .onSystem arguments
  match ending with
  | .misused e => IO.eprintln ("error: " ++ e.message)
  | .failed f => IO.eprintln ("Error: " ++ f.message)
  | .version => IO.println versionText
  | .completed => pure ()
  return UInt32.ofNat ending.code

end FileGraph.CommandLine

def main (arguments : List String) : IO UInt32 := FileGraph.CommandLine.executeOnSystem arguments
