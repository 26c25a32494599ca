set_option autoImplicit false

namespace StraightLine

inductive Flag where
  | file
  | demo
  | help
  | version
  deriving DecidableEq

namespace Flag

def all : List Flag :=
  [file, demo, help, version]

def letter : Flag → Char
  | file => 'f'
  | demo => 'd'
  | help => 'h'
  | version => 'V'

def word : Flag → String
  | file => "file"
  | demo => "demo"
  | help => "help"
  | version => "version"

def purpose : Flag → String
  | file => "Treats every argument as a path to a program file instead of a program"
  | demo => "Runs the built-in sample programs"
  | help => "Print help"
  | version => "Print version"

def ofLetter? (c : Char) : Option Flag :=
  all.find? fun f => f.letter = c

def ofWord? (text : String) : Option Flag :=
  all.find? fun f => f.word = text

/-- The purposes of all flags begin in one column. -/
def summary (f : Flag) : String :=
  "  -" ++ String.singleton f.letter ++ ", --" ++ String.ofList (f.word.toList.rightpad 9 ' ') ++
    f.purpose

end Flag

structure Invocation where
  file : Bool
  demo : Bool
  programs : List String
  deriving DecidableEq

inductive Command where
  | run (i : Invocation)
  | help
  | version
  | misuse
  deriving DecidableEq

inductive Argument where
  | flags (letters : List Char)
  | word (name : String)
  | program (text : String)
  deriving DecidableEq

/-- Two hyphens begin a long flag and one begins a bundle of short ones. A hyphen alone is a
program. -/
def Argument.ofString (text : String) : Argument :=
  match text.toList with
  | '-' :: '-' :: name => word (String.ofList name)
  | '-' :: c :: letters => flags (c :: letters)
  | _ => program text

namespace Invocation

def empty : Invocation :=
  ⟨false, false, []⟩

/-- Takes note of a flag. Help and version are shown at once, and no other flag may be given
twice. -/
def flag (i : Invocation) : Flag → Except Command Invocation
  | .file => if i.file then .error .misuse else .ok { i with file := true }
  | .demo => if i.demo then .error .misuse else .ok { i with demo := true }
  | .help => .error .help
  | .version => .error .version

def flag? (i : Invocation) : Option Flag → Except Command Invocation
  | some f => i.flag f
  | none => .error .misuse

def argument (i : Invocation) : Argument → Except Command Invocation
  | .flags letters => letters.foldlM (fun i c => i.flag? (Flag.ofLetter? c)) i
  | .word name => i.flag? (Flag.ofWord? name)
  | .program text => .ok { i with programs := i.programs ++ [text] }

def command (i : Invocation) : Command :=
  if i.programs.isEmpty && !i.demo then .misuse else .run i

def arguments (i : Invocation) : List String → Command
  | [] => i.command
  | "--" :: programs => { i with programs := i.programs ++ programs }.command
  | text :: more =>
    match i.argument (.ofString text) with
    | .ok next => next.arguments more
    | .error c => c

end Invocation

def Command.ofArguments (arguments : List String) : Command :=
  Invocation.empty.arguments arguments

end StraightLine
