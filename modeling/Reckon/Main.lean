import Reckon.Command.Run

namespace Reckon.Command

def Source.text : Source → IO (Except String String)
  | .standard => return .ok (← (← IO.getStdin).readToEnd)
  | .file name => do
    try return .ok (← IO.FS.readFile name)
    catch _ => return .error s!"open {name}: no such file or directory"

def perform (args : List String) : IO Output := respond Source.text args

end Reckon.Command

def main (args : List String) : IO UInt32 := do
  let output ← Reckon.Command.perform args
  IO.print output.out
  IO.eprint output.err
  return output.exit.toUInt32
