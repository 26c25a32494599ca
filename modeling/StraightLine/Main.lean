import StraightLine.Report
set_option autoImplicit false

namespace StraightLine

def isDirectoryCode : UInt32 :=
  21

/-- Reads a file, with what can go wrong sorted into faults. Of two wrong types, one is a directory
in place of a file and the other a file in place of a directory. -/
def readFile (path : String) : IO (Except ReadFault String) := do
  try
    return decodeText (← IO.FS.readBinFile path)
  catch
    | .noFileOrDirectory .. => return .error .missing
    | .inappropriateType _ code _ =>
      return .error (if code = isDirectoryCode then .directory else .notDirectory)
    | e => return .error (.other (toString e))

def Command.paths : Command → List String
  | .run i => i.paths
  | _ => []

end StraightLine

open StraightLine in
def main (arguments : List String) : IO UInt32 := do
  let command := Command.ofArguments arguments
  let contents ← command.paths.mapM fun path => return (path, ← readFile path)
  let report := Report.ofCommand command fun path => (contents.lookup path).getD (.error .missing)
  IO.print report.output
  IO.eprint report.errors
  return report.exit.toUInt32
