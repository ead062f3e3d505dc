/-!
# Arguments of a command line

An option has a long name, a short one of one letter, or both, and may take a value. The value
stands in the next argument, or in the same one, behind `=` or directly behind a short name. An
argument that starts with a dash is no value unless it is a single dash. Behind `--` no argument is
an option.

Arguments are judged from left to right, and the first that is wrong or asks for help decides. So
help is given only if nothing in front of the request is wrong; what is missing does not count as
wrong there.
-/

namespace EventScript.CommandLine

/-- An option of a command. -/
structure OptionSpec where
  /-- What the option is known by in the result. -/
  key : String
  long : Option String := none
  short : Option Char := none
  /-- The values the option takes; `none` for an option without a value. -/
  accepts : Option (String → Bool) := none
  /-- The option may be given more than once. -/
  repeats : Bool := false

/-- The arguments a command takes. -/
structure Command where
  options : List OptionSpec
  /-- How many arguments that are no options it takes at most; `none` for any number. -/
  limit : Option Nat
  /-- What such an argument may be. -/
  accepts : String → Bool
  /-- It has an option that asks for its version. -/
  versioned : Bool := false

/-- The options and other arguments of a command line, in order. -/
structure Arguments where
  /-- Options by key, each with its value, which is empty for an option without one. -/
  options : List (String × String) := []
  positional : List String := []
deriving DecidableEq, Repr

/-- Why a command does not run. -/
inductive Refusal where
  /-- The arguments ask for help. -/
  | help
  /-- The arguments ask for the version. -/
  | version
  /-- The arguments are not those of the command. -/
  | usage
deriving DecidableEq, Repr

namespace Arguments

/-- The value of an option, of the first if it was given more than once. -/
def value? (arguments : Arguments) (key : String) : Option String :=
  (arguments.options.find? fun option => option.1 == key).map Prod.snd

/-- The values of an option in order. -/
def values (arguments : Arguments) (key : String) : List String :=
  arguments.options.filterMap fun option => if option.1 == key then some option.2 else none

/-- The option was given. -/
def has (arguments : Arguments) (key : String) : Bool :=
  (arguments.value? key).isSome

/-- Add an option with its value. -/
def addOption (arguments : Arguments) (spec : OptionSpec) (value : String) :
    Except Refusal Arguments :=
  if arguments.has spec.key && !spec.repeats then .error .usage
  else if spec.accepts.all fun accepts => accepts value then
    .ok { arguments with options := arguments.options ++ [(spec.key, value)] }
  else .error .usage

/-- Add an argument that is no option. -/
def addPositional (arguments : Arguments) (command : Command) (argument : String) :
    Except Refusal Arguments :=
  if (command.limit.all fun limit => arguments.positional.length < limit) &&
      command.accepts argument then
    .ok { arguments with positional := arguments.positional ++ [argument] }
  else .error .usage

/-- Add arguments none of which is an option. -/
def addPositionals (arguments : Arguments) (command : Command) :
    List String → Except Refusal Arguments
  | [] => .ok arguments
  | argument :: rest =>
      match arguments.addPositional command argument with
      | .error refusal => .error refusal
      | .ok arguments => arguments.addPositionals command rest

end Arguments

/-- An argument that can be the value of an option in front of it. -/
def isValue (argument : String) : Bool :=
  argument.toList.head? != some '-' || argument == "-"

/-- What an argument gives: arguments so far, and an option that waits for its value. -/
abbrev Step := Except Refusal (Arguments × Option OptionSpec)

/-- A long option, with the text behind its `=`, if any. -/
def longOption (command : Command) (arguments : Arguments) (name : String)
    (attached : Option String) : Step :=
  if name = "help" then .error (if attached.isSome then .usage else .help)
  else if command.versioned ∧ name = "version" then
    .error (if attached.isSome then .usage else .version)
  else
    match command.options.find? fun spec => spec.long == some name with
    | none => .error .usage
    | some spec =>
        match spec.accepts, attached with
        | none, none => (arguments.addOption spec "").map (·, none)
        | none, some _ => .error .usage
        | some _, some value => (arguments.addOption spec value).map (·, none)
        | some _, none => .ok (arguments, some spec)

/-- Short options that stand together behind one dash. The first that takes a value takes the rest
of the argument. -/
def shortOptions (command : Command) (arguments : Arguments) : List Char → Step
  | [] => .ok (arguments, none)
  | letter :: rest =>
      if letter = 'h' then .error .help
      else if command.versioned ∧ letter = 'V' then .error .version
      else
        match command.options.find? fun spec => spec.short == some letter with
        | none => .error .usage
        | some spec =>
            match spec.accepts with
            | none =>
                match arguments.addOption spec "" with
                | .error refusal => .error refusal
                | .ok arguments => shortOptions command arguments rest
            | some _ =>
                match rest with
                | [] => .ok (arguments, some spec)
                | '=' :: value =>
                    (arguments.addOption spec (String.ofList value)).map (·, none)
                | value => (arguments.addOption spec (String.ofList value)).map (·, none)

/-- Read arguments behind those that are read already. `waiting` is an option in front of them that
has no value yet. -/
def parseFrom (command : Command) (arguments : Arguments) (waiting : Option OptionSpec) :
    List String → Except Refusal Arguments
  | [] => if waiting.isSome then .error .usage else .ok arguments
  | argument :: rest =>
      match waiting with
      | some spec =>
          if isValue argument then
            match arguments.addOption spec argument with
            | .error refusal => .error refusal
            | .ok arguments => parseFrom command arguments none rest
          else .error .usage
      | none =>
          match argument.toList with
          | ['-', '-'] => arguments.addPositionals command rest
          | '-' :: '-' :: text =>
              let name := String.ofList (text.takeWhile (· ≠ '='))
              let attached := match text.dropWhile (· ≠ '=') with
                | [] => none
                | _ :: value => some (String.ofList value)
              match longOption command arguments name attached with
              | .error refusal => .error refusal
              | .ok (arguments, waiting) => parseFrom command arguments waiting rest
          | '-' :: letter :: letters =>
              match shortOptions command arguments (letter :: letters) with
              | .error refusal => .error refusal
              | .ok (arguments, waiting) => parseFrom command arguments waiting rest
          | _ =>
              match arguments.addPositional command argument with
              | .error refusal => .error refusal
              | .ok arguments => parseFrom command arguments none rest

/-- Read the arguments of a command. -/
def parse (command : Command) (arguments : List String) : Except Refusal Arguments :=
  parseFrom command {} none arguments

end EventScript.CommandLine
