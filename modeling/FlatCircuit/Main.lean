import FlatCircuit.Command.Run

namespace FlatCircuit.Command

partial def readAll (stream : IO.FS.Stream) (bytes : ByteArray) : IO ByteArray := do
  let more ← stream.read 65536
  if more.isEmpty then return bytes else readAll stream (bytes ++ more)

def realHost : Host IO where
  readInput := do readAll (← IO.getStdin) ByteArray.empty
  readFile path := do
    try return some (← IO.FS.readBinFile path) catch _ => return none
  writeFile path content := do
    try
      IO.FS.writeFile path content
      return true
    catch _ => return false

end FlatCircuit.Command

/-- Integers have no limit here. -/
def main (args : List String) : IO UInt32 := do
  match ← FlatCircuit.Command.run FlatCircuit.Command.realHost .free args with
  | .exit outcome =>
    (← IO.getStdout).putStr outcome.out
    (← IO.getStderr).putStr outcome.err
    return outcome.exitCode.toUInt32
  | .escape f => throw (IO.userError f.text)
