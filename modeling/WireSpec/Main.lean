import WireSpec.CommandLine
/-!
# The program

`check [--human] [--message NAME] [FILE ...]` and `decode FILE [--message NAME] HEX [HEX ...]`.
-/

namespace WireSpec

def readFault : IO.Error → CommandLine.ReadFault
  | .noFileOrDirectory .. => .notFound
  | .inappropriateType _ 21 _ => .isDirectory
  | .inappropriateType .. => .notDirectory
  | e => .other (toString e)

def readFile (path : String) : IO (Except CommandLine.ReadFault String) := do
  match ← (IO.FS.readBinFile path).toBaseIO with
  | .ok raw => return CommandLine.sourceText raw.toList
  | .error e => return .error (readFault e)

def readInput : IO (Except CommandLine.ReadFault String) := do
  let raw ← (← IO.getStdin).readBinToEnd
  return CommandLine.sourceText raw.toList

def printReport (r : CommandLine.Report) : IO UInt32 := do
  IO.print (CommandLine.Report.text r.out)
  IO.eprint (CommandLine.Report.text r.err)
  return r.exitStatus

end WireSpec

def main (args : List String) : IO UInt32 := do
  match args with
  | "check" :: args =>
      WireSpec.printReport (← WireSpec.CommandLine.check WireSpec.readFile WireSpec.readInput args)
  | "decode" :: args =>
      WireSpec.printReport (← WireSpec.CommandLine.decode WireSpec.readFile args)
  | _ => do
      IO.eprintln "usage: wirespec check [--human] [--message NAME] [FILE ...]"
      IO.eprintln "       wirespec decode FILE [--message NAME] HEX [HEX ...]"
      return 2
