import MiniForth.Repl

/-!
# The command line

How the arguments of the program are read. They are options only, read from left to right:

* `--name`, and `--name value` or `--name=value` for the options that take a value;
* `-V` and `-h`, and `-e value`, `-evalue` or `-e=value`.

A value that stands as an argument of its own must not begin with a dash, unless it is a single dash.
An option other than `--eval` may be given once. Asking for help or for the version ends the reading,
so what follows is not looked at; a mistake in front of it still counts.
-/

namespace MiniForth.CommandLine

/-- The options without a value that change how the program runs. -/
inductive Switch where
  | showState
  | noRepl
  deriving DecidableEq, Repr

/-- The options with a value. -/
inductive Setting where
  | logLevel
  | eval
  | prompt
  deriving DecidableEq, Repr

/-- What an option is about. -/
inductive Key where
  | switch (switch : Switch)
  | setting (setting : Setting)
  | help
  | version
  deriving DecidableEq, Repr

/-- The option with a long name. -/
def Key.ofLong? : String → Option Key
  | "log-level"  => some (.setting .logLevel)
  | "eval"       => some (.setting .eval)
  | "prompt"     => some (.setting .prompt)
  | "show-state" => some (.switch .showState)
  | "no-repl"    => some (.switch .noRepl)
  | "help"       => some .help
  | "version"    => some .version
  | _            => none

/-- The option with a short name. -/
def Key.ofShort? : Char → Option Key
  | 'e' => some (.setting .eval)
  | 'h' => some .help
  | 'V' => some .version
  | _   => none

/-- A mistake in the arguments. -/
inductive Misuse where
  | unexpectedArgument (argument : String)
  | missingValue (argument : String)
  | unexpectedValue (argument : String)
  | repeated (argument : String)
  deriving DecidableEq, Repr

/-- The mistake in words. -/
def Misuse.text : Misuse → String
  | unexpectedArgument a => "unexpected argument '" ++ a ++ "' found"
  | missingValue a       => "a value is required for '" ++ a ++ "' but none was supplied"
  | unexpectedValue a    => "unexpected value in '" ++ a ++ "' found; no more were expected"
  | repeated a           => "the argument '" ++ a ++ "' cannot be used multiple times"

/-! ## The parts of an argument -/

/-- An argument by its form. -/
inductive Argument where
  /-- An option with the value that is attached to it, if any. -/
  | option (key : Key) (value : Option String)
  /-- Two dashes: no options follow. -/
  | endOfOptions
  /-- Anything else, which the program has no use for. -/
  | other
  deriving DecidableEq, Repr

/-- Splits at the first equals sign. -/
def splitEquals (text : List Char) : List Char × Option (List Char) :=
  match text.dropWhile (· != '=') with
  | []         => (text, none)
  | _ :: value => (text.takeWhile (· != '='), some value)

/-- The value that follows a short name directly, with or without an equals sign. -/
def attached : List Char → Option String
  | []           => none
  | '=' :: value => some (String.ofList value)
  | value        => some (String.ofList value)

/-- The form of an argument. Behind a short name that takes no value everything is ignored. -/
def Argument.ofText (text : String) : Argument :=
  match text.toList with
  | ['-', '-']           => .endOfOptions
  | '-' :: '-' :: long   =>
    let (name, value) := splitEquals long
    match Key.ofLong? (String.ofList name) with
    | some key => .option key (value.map String.ofList)
    | none     => .other
  | '-' :: short :: rest =>
    match Key.ofShort? short with
    | some (.setting s) => .option (.setting s) (attached rest)
    | some key          => .option key none
    | none              => .other
  | _                    => .other

/-- Can the argument be the value of an option in front of it? -/
def isValue (text : String) : Bool := text == "-" || text.toList.head? != some '-'

/-! ## Reading the arguments -/

/-- What the arguments ask for. -/
inductive Request where
  | run (options : Repl.Options)
  | help
  | version
  deriving DecidableEq, Repr

/-- A way to read arguments: what they ask for, unless there is a mistake in them. -/
abbrev Rules := List String → Except Misuse Request

/-- The options read so far, and those of them that must not come again. -/
structure Progress where
  options : Repl.Options := {}
  used    : List Key := []

namespace Progress

/-- Notes that an option is used, once. -/
def use (p : Progress) (key : Key) (argument : String) : Except Misuse Progress :=
  if key ∈ p.used then .error (.repeated argument) else .ok { p with used := key :: p.used }

/-- Takes a switch. -/
def turnOn (p : Progress) (argument : String) : Switch → Except Misuse Progress
  | .showState => do
    let p ← p.use (.switch .showState) argument
    return { p with options := { p.options with showState := true } }
  | .noRepl    => do
    let p ← p.use (.switch .noRepl) argument
    return { p with options := { p.options with interactive := false } }

/-- Takes an option with its value. -/
def assign (p : Progress) (argument value : String) : Setting → Except Misuse Progress
  | .logLevel => p.use (.setting .logLevel) argument
  | .eval     =>
    return { p with options := { p.options with lines := p.options.lines ++ [value] } }
  | .prompt   => do
    let p ← p.use (.setting .prompt) argument
    return { p with options := { p.options with prompt := value } }

end Progress

/-- Reads the arguments that follow what has been read. -/
def parseFrom (p : Progress) : List String → Except Misuse Request
  | []               => .ok (.run p.options)
  | argument :: rest =>
    match Argument.ofText argument, rest with
    | .other, _                              => .error (.unexpectedArgument argument)
    | .endOfOptions, []                      => .ok (.run p.options)
    | .endOfOptions, next :: _               => .error (.unexpectedArgument next)
    | .option .help none, _                  => .ok .help
    | .option .version none, _               => .ok .version
    | .option (.switch s) none, rest         => do parseFrom (← p.turnOn argument s) rest
    | .option (.setting s) (some value), rest => do parseFrom (← p.assign argument value s) rest
    | .option (.setting _) none, []          => .error (.missingValue argument)
    | .option (.setting s) none, value :: rest =>
      if isValue value then do parseFrom (← p.assign argument value s) rest
      else .error (.missingValue argument)
    | .option _ (some _), _                  => .error (.unexpectedValue argument)

/-- Reads the arguments of the program. -/
def parse (arguments : List String) : Except Misuse Request := parseFrom {} arguments

end MiniForth.CommandLine
