import TreeControl.Demo

/-! # Command line

Reads standard input to its end and gives the answer of the demonstration program. -/

namespace TreeControl

/-- Reads a stream to its end. -/
partial def readToEnd (stream : IO.FS.Stream) (bytes : ByteArray) : IO ByteArray := do
  let more ← stream.read 65536
  if more.isEmpty then return bytes else readToEnd stream (bytes ++ more)

end TreeControl

def main : IO UInt32 := do
  let bytes ← TreeControl.readToEnd (← IO.getStdin) ByteArray.empty
  let response := TreeControl.Demo.respondBytes bytes
  IO.print response.stdout
  IO.eprint response.stderr
  return response.code.toUInt32
