import RecordPath.Command.Check

namespace RecordPath

inductive CommandOption where
  | help
  | version
  | verbose
  | input
  | pretty
  | compileOnly
  deriving DecidableEq, Repr

namespace CommandOption

def long : CommandOption → String
  | help => "help"
  | version => "version"
  | verbose => "verbose"
  | input => "input"
  | pretty => "pretty"
  | compileOnly => "syntax-only"

def short? : CommandOption → Option Char
  | help => some 'h'
  | version => some 'V'
  | verbose => some 'v'
  | input => some 'i'
  | pretty => some 'p'
  | compileOnly => none

end CommandOption

inductive UsageError where
  | missingCommand
  | unknownCommand (name : String)
  | unknownOption (text : String)
  | repeatedOption (option : CommandOption)
  | unexpectedValue (option : CommandOption)
  | missingValue (option : CommandOption)
  | missingOperand
  | unexpectedOperand (text : String)
  deriving DecidableEq, Repr

def UsageError.message : UsageError → String
  | missingCommand => "a command is required"
  | unknownCommand name => "unknown command '" ++ name ++ "'"
  | unknownOption text => "unknown option '" ++ text ++ "'"
  | repeatedOption o => "option '--" ++ o.long ++ "' is given more than once"
  | unexpectedValue o => "option '--" ++ o.long ++ "' takes no value"
  | missingValue o => "option '--" ++ o.long ++ "' needs a value"
  | missingOperand => "an argument is missing"
  | unexpectedOperand text => "unexpected argument '" ++ text ++ "'"

inductive Halt where
  | help
  | version
  | misuse (e : UsageError)
  deriving DecidableEq, Repr

/-- The options that may be given at some place, and how many operands. -/
structure Signature where
  options : List CommandOption
  operands : Nat

structure Arguments where
  switches : List CommandOption := []
  input : Option String := none
  operands : List String := []
  /-- Whether the next argument is the value of the input option. -/
  awaitsInput : Bool := false
  /-- Whether only operands follow. -/
  closed : Bool := false

namespace Arguments

def turnOn (a : Arguments) (o : CommandOption) : Except Halt Arguments :=
  match o with
  | .help => .error .help
  | .version => .error .version
  | o =>
    if o ∈ a.switches then .error (.misuse (.repeatedOption o))
    else .ok { a with switches := o :: a.switches }

def setInput (a : Arguments) (text : String) : Except Halt Arguments :=
  match a.input with
  | some _ => .error (.misuse (.repeatedOption .input))
  | none => .ok { a with input := some text, awaitsInput := false }

/-- Reads an option in its long form, with the value after the equals sign. -/
def readLong (s : Signature) (a : Arguments) (name : String) (value : Option String) :
    Except Halt Arguments :=
  match s.options.find? (·.long = name), value with
  | none, _ => .error (.misuse (.unknownOption ("--" ++ name)))
  | some .input, some text => a.setInput text
  | some .input, none => .ok { a with awaitsInput := true }
  | some o, some _ => .error (.misuse (.unexpectedValue o))
  | some o, none => a.turnOn o

/-- Reads a bundle of short options. The input option takes what is left of the bundle as its
value, less an equals sign in front. -/
def readShort (s : Signature) (a : Arguments) : List Char → Except Halt Arguments
  | [] => .ok a
  | c :: rest =>
    match s.options.find? (·.short? = some c), rest with
    | none, _ => .error (.misuse (.unknownOption (String.ofList ['-', c])))
    | some .input, [] => .ok { a with awaitsInput := true }
    | some .input, '=' :: text => a.setInput (String.ofList text)
    | some .input, text => a.setInput (String.ofList text)
    | some o, rest => do readShort s (← a.turnOn o) rest

def readOperand (s : Signature) (a : Arguments) (text : String) : Except Halt Arguments :=
  if a.operands.length < s.operands then .ok { a with operands := a.operands ++ [text] }
  else .error (.misuse (.unexpectedOperand text))

def isOption (text : String) : Bool :=
  match text.toList with
  | '-' :: _ :: _ => true
  | _ => false

/-- Reads one argument. Nothing that has the form of an option can be the value of one. -/
def read (s : Signature) (a : Arguments) (text : String) : Except Halt Arguments :=
  if a.closed then a.readOperand s text
  else if a.awaitsInput then
    if isOption text then .error (.misuse (.missingValue .input)) else a.setInput text
  else
    match text.toList with
    | ['-', '-'] => .ok { a with closed := true }
    | '-' :: '-' :: long =>
      let value := (long.dropWhile (· ≠ '=')).tail?
      a.readLong s (String.ofList (long.takeWhile (· ≠ '='))) (value.map String.ofList)
    | '-' :: c :: shorts => a.readShort s (c :: shorts)
    | _ => a.readOperand s text

/-- Reads all arguments; every operand has to be there. -/
def readAll (s : Signature) (texts : List String) : Except Halt Arguments := do
  let a ← texts.foldlM (read s) ({} : Arguments)
  if a.awaitsInput then throw (.misuse (.missingValue .input))
  if a.operands.length < s.operands then throw (.misuse .missingOperand)
  return a

end Arguments

inductive Command where
  | check (options : CheckOptions)
  /-- Prints a query in its canonical form. -/
  | format (query : String)
  | overview
  | topic (name : String)
  deriving DecidableEq, Repr

inductive Request where
  | run (verbose : Bool) (command : Command)
  | help
  | version
  deriving DecidableEq, Repr

namespace Command

def generalOptions : List CommandOption := [.verbose, .help]

/-- What follows the name of a command, and the command that it makes. -/
def named? : String → Option (Signature × (Arguments → Command))
  | "check" =>
    some (⟨generalOptions ++ [.input, .pretty, .compileOnly], 1⟩, fun a =>
      .check
        { query := a.operands.headD ""
          input := a.input
          pretty := .pretty ∈ a.switches
          compileOnly := .compileOnly ∈ a.switches })
  | "fmt" => some (⟨generalOptions, 1⟩, fun a => .format (a.operands.headD ""))
  | "docs" => some (⟨generalOptions, 0⟩, fun _ => .overview)
  | "doc" => some (⟨generalOptions, 1⟩, fun a => .topic (a.operands.headD ""))
  | _ => none

end Command

namespace Request

def helpOn : List String → Except UsageError Request
  | [] | ["help"] => .ok help
  | name :: rest =>
    if (Command.named? name).isNone then .error (.unknownCommand name)
    else
      match rest with
      | [] => .ok help
      | more :: _ => .error (.unknownCommand more)

def read (texts : List String) : Except Halt Request := do
  let general : Signature := ⟨.version :: Command.generalOptions, 0⟩
  let before ← Arguments.readAll general (texts.takeWhile Arguments.isOption)
  match texts.dropWhile Arguments.isOption with
  | [] => throw (.misuse .missingCommand)
  | name :: rest =>
    if before.closed then throw (.misuse (.unexpectedOperand name))
    if name = "help" then (helpOn rest).mapError .misuse
    else
      match Command.named? name with
      | none => throw (.misuse (.unknownCommand name))
      | some (signature, command) => do
        let after ← Arguments.readAll signature rest
        let verbose := .verbose ∈ before.switches ++ after.switches
        return run verbose (command after)

def ofArguments (texts : List String) : Except UsageError Request :=
  match read texts with
  | .ok r => .ok r
  | .error .help => .ok help
  | .error .version => .ok version
  | .error (.misuse e) => .error e

end Request

end RecordPath
