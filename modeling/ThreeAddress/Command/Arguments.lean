import ThreeAddress.Suite.Report

/-!
# Command-line arguments

A command is a subcommand with its options. Arguments are read from left to right, and the first one
that is wrong, or that asks for help, decides. Options are written `--name value` or `--name=value`,
and `--` ends them.
-/

namespace ThreeAddress

inductive Command where
  /-- Source text to document. -/
  | parse
  /-- Run the document of a program. -/
  | interpret (source input : Option String)
  /-- Run source text. -/
  | run (file : String) (input : Option String)
  /-- Document to source text. -/
  | unparse (source : Option String)
  /-- Run the test cases of a directory. -/
  | test (directory : String) (recursive : Bool) (mode : Suite.Mode)
deriving DecidableEq, Repr

namespace Command

/-- Why arguments give no command. -/
inductive Refusal where
  | help
  | usage
deriving DecidableEq, Repr

/-! ## Options -/

/-- What a subcommand takes: options with a value, flags, and a number of plain words. -/
structure Shape where
  options : List String
  flags : List String
  words : Nat

structure Given where
  options : List (String × String)
  flags : List String
  words : List String

namespace Given

def none : Given := { options := [], flags := [], words := [] }

/-- Adds an option. Its value is not empty, and it is given once. -/
def addOption (g : Given) (name value : String) : Except Refusal Given :=
  if value.isEmpty || (g.options.lookup name).isSome then .error .usage
  else .ok { g with options := (name, value) :: g.options }

def addFlag (g : Given) (name : String) : Except Refusal Given :=
  if g.flags.contains name then .error .usage else .ok { g with flags := name :: g.flags }

def addWord (shape : Shape) (g : Given) (word : String) : Except Refusal Given :=
  if word.isEmpty || shape.words ≤ g.words.length then .error .usage
  else .ok { g with words := g.words ++ [word] }

end Given

/-- How one argument reads before the end of the options. -/
inductive Argument where
  | endOfOptions
  | help
  | long (name : String) (value : Option String)
  | word (s : String)
  /-- A short option, of which only the one for help exists. -/
  | short

def Argument.ofText (s : String) : Argument :=
  match s.toList with
  | ['-', '-'] => .endOfOptions
  | '-' :: '-' :: cs =>
    match Text.splitAtFirst? '=' cs with
    | some (name, value) => .long (String.ofList name) (some (String.ofList value))
    | none => if cs = "help".toList then .help else .long (String.ofList cs) none
  | ['-'] => .word s
  | '-' :: 'h' :: _ => .help
  | '-' :: _ => .short
  | _ => .word s

/-- Whether a text can be the value of the option before it. -/
def isValue (s : String) : Bool :=
  match Argument.ofText s with
  | .word _ => true
  | _ => false

/-- Reads the arguments of a subcommand. -/
def scan (shape : Shape) (g : Given) : List String → Except Refusal Given
  | [] => .ok g
  | arg :: rest =>
    match Argument.ofText arg with
    | .endOfOptions => rest.foldlM (Given.addWord shape) g
    | .help => .error .help
    | .short => .error .usage
    | .word s => do scan shape (← g.addWord shape s) rest
    | .long name (some value) =>
      if shape.options.contains name then do scan shape (← g.addOption name value) rest
      else .error .usage
    | .long name none =>
      if shape.flags.contains name then do scan shape (← g.addFlag name) rest
      else if shape.options.contains name then
        match rest with
        | [] => .error .usage
        | value :: rest =>
          if isValue value then do scan shape (← g.addOption name value) rest else .error .usage
      else .error .usage

/-! ## Subcommands -/

def names : List String := ["parse", "interpret", "run", "unparse", "test"]

def shapeOf? : String → Option Shape
  | "parse" => some { options := [], flags := [], words := 0 }
  | "interpret" => some { options := ["source", "input"], flags := [], words := 0 }
  | "run" => some { options := ["input"], flags := [], words := 1 }
  | "unparse" => some { options := ["source"], flags := [], words := 0 }
  | "test" =>
    some { options := ["directory"], flags := ["recursive", "parse-only", "int-only"], words := 0 }
  | _ => none

/-- The mode that the flags of a test run ask for. They exclude each other. -/
def modeOf (flags : List String) : Except Refusal Suite.Mode :=
  match flags.contains "parse-only", flags.contains "int-only" with
  | true, true => .error .usage
  | true, false => .ok .parseOnly
  | false, true => .ok .interpretOnly
  | false, false => .ok .both

def Given.command (g : Given) : String → Except Refusal Command
  | "parse" => .ok .parse
  | "interpret" => .ok (.interpret (g.options.lookup "source") (g.options.lookup "input"))
  | "run" =>
    match g.words with
    | [file] => .ok (.run file (g.options.lookup "input"))
    | _ => .error .usage
  | "unparse" => .ok (.unparse (g.options.lookup "source"))
  | "test" => do
    let mode ← modeOf g.flags
    let directory := (g.options.lookup "directory").getD "."
    return .test directory (g.flags.contains "recursive") mode
  | _ => .error .usage

/-- A request for help may name one subcommand. -/
def helpFor : List String → Refusal
  | [] => .help
  | [name] => if name = "help" ∨ name ∈ names then .help else .usage
  | _ => .usage

/-- The command that arguments ask for. -/
def ofArguments : List String → Except Refusal Command
  | [] => .error .usage
  | first :: rest =>
    match shapeOf? first with
    | some shape => do (← scan shape .none rest).command first
    | none =>
      if first = "help" then .error (helpFor rest)
      else
        match Argument.ofText first with
        | .help => .error .help
        | _ => .error .usage

end Command

end ThreeAddress
