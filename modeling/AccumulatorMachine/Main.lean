import AccumulatorMachine.CommandLine.Job

/-!
The command line program: reads the files of a command, and passes on what its job writes.
-/
namespace AccumulatorMachine.CommandLine

def readBytes? (path : String) : IO (Option (List UInt8)) := do
  try
    return some (← IO.FS.readBinFile path).toList
  catch _ =>
    return none

/-- The named files as they are now. -/
def readFiles (paths : List String) : IO Files := do
  let contents ← paths.mapM readBytes?
  let known := paths.zip contents
  return fun path => (known.find? fun entry => entry.1 == path).bind Prod.snd

def finish (outcome : Outcome) : IO UInt32 := do
  (← IO.getStdout).putStr outcome.out
  (← IO.getStderr).putStr outcome.err
  return UInt32.ofNat outcome.status

/-- Runs a host tick by tick, with a pause after each. -/
partial def runHost (host : Host) (milliseconds : Nat) : IO UInt32 := do
  match host.tick with
  | .error e => finish (failure e.message)
  | .ok (halt, next) =>
    let out ← IO.getStdout
    out.putStr next.printed
    out.flush
    let err ← IO.getStderr
    next.reported.forM fun state => err.putStr (Host.breakpointLine state)
    match halt with
    | some halt => finish ⟨0, "", stopLine halt⟩
    | none =>
      IO.sleep (UInt32.ofNat (min milliseconds 0xFFFFFFFF))
      runHost { next with printed := "", reported := #[] } milliseconds

/-- Reads a line up to its line feed; no bytes are left when it is empty. -/
partial def readLine (input : IO.FS.Stream) (line : ByteArray) : IO (List UInt8) := do
  let chunk ← input.read 1
  if chunk.isEmpty then return line.toList
  let longer := line ++ chunk
  if chunk.toList == [10] then return longer.toList
  readLine input longer

partial def runDebugger (d : Debugger) : IO UInt32 := do
  let out ← IO.getStdout
  out.putStr Debugger.prompt
  out.flush
  let line ← readLine (← IO.getStdin) .empty
  if line.isEmpty then return 0
  match d.answerBytes line with
  | .more text next =>
    out.putStr text
    runDebugger next
  | .finish => return 0
  | .fail e => finish (failure e.message)

def runJob : Job → IO UInt32
  | .done outcome => finish outcome
  | .run host milliseconds => runHost host milliseconds
  | .debug d => do
    (← IO.getStdout).putStr d.banner
    runDebugger d

end AccumulatorMachine.CommandLine

open AccumulatorMachine.CommandLine in
def main (words : List String) : IO UInt32 := do
  let paths := match Command.ofWords words with
    | .ok command => command.paths
    | .error _ => []
  let files ← readFiles paths
  runJob (Job.ofWords files words)
