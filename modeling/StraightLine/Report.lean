import StraightLine.CommandLine
import StraightLine.Directory
import StraightLine.Evaluation
set_option autoImplicit false

namespace StraightLine

structure Report where
  exit : Nat
  output : String
  errors : String
  deriving DecidableEq

def demonstration : List String :=
  ["x = 5;\ny = x + 3;\nz = -(-y * -2);",
   "x_2 = 0;",
   "x = 0\ny = x;\nz = ---(x+y);",
   "x = 1;\ny = 2;\nz = ---(x+y)*(x+-y);"]

structure Unreadable where
  path : String
  fault : ReadFault
  deriving DecidableEq

def Unreadable.message (u : Unreadable) : String :=
  "Failed to read the input file '" ++ u.path ++ "': " ++ u.fault.reason

namespace Invocation

def paths (i : Invocation) : List String :=
  if i.file then i.programs else []

def gather (i : Invocation) (read : String → Except ReadFault String) (gathered : List String)
    (argument : String) : Except Unreadable (List String) :=
  if i.file then
    match read argument with
    | .ok text => .ok (gathered ++ [text])
    | .error fault => .error ⟨argument, fault⟩
  else .ok (gathered ++ [argument])

def sources (i : Invocation) (read : String → Except ReadFault String) :
    Except Unreadable (List String) :=
  i.programs.foldlM (i.gather read) (if i.demo then demonstration else [])

end Invocation

namespace Report

def empty : Report :=
  ⟨0, "", ""⟩

def printLine (r : Report) (line : String) : Report :=
  { r with output := r.output ++ line ++ "\n" }

def program (r : Report) (source : String) : Report :=
  match interpret source with
  | .ok table =>
    (table.toList.foldl (fun r entry => r.printLine (Table.renderEntry entry)) r).printLine ""
  | .error _ => ({ r with exit := 1 }.printLine "error").printLine ""

def ofSources (sources : List String) : Report :=
  sources.foldl program empty

/-- All files are read before any program is run, so an unreadable one is all that is reported. -/
def ofInvocation (i : Invocation) (read : String → Except ReadFault String) : Report :=
  match i.sources read with
  | .ok sources => ofSources sources
  | .error u => ⟨1, "", u.message ++ "\n"⟩

def usage : String :=
  "Usage: tally [OPTIONS] [PROGRAMS]...\n"

def help : String :=
  "A single-pass interpreter for integer assignment programs\n\n" ++ usage ++
    "\nArguments:\n  [PROGRAMS]...  Programs to run, in order\n\nOptions:\n" ++
    String.join (Flag.all.map fun f => f.summary ++ "\n")

def ofCommand (c : Command) (read : String → Except ReadFault String) : Report :=
  match c with
  | .run i => ofInvocation i read
  | .help => ⟨0, help, ""⟩
  | .version => ⟨0, "tally 0.1.0\n", ""⟩
  | .misuse => ⟨2, "", usage ++ "\nFor more information, try '--help'.\n"⟩

end Report

end StraightLine
