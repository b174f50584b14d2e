import MiniForth.CommandLine

/-!
# The program

From arguments and input to what is written and the exit status. `Program.run?` is the program as a
function of all its input; `Program.start?`, which it begins with, also serves the loop that reads the
input as it arrives. The rules by which arguments are read are a parameter of both; those of the
executable are `CommandLine.parse`.
-/

namespace MiniForth.Program

/-- The line that tells the version. -/
def versionText : String := "tforth 0.1.0\n"

/-- The lines of the help text. -/
def helpLines : List String :=
  ["A small threaded-code Forth virtual machine",
   "",
   "Usage: tforth [OPTIONS]",
   "",
   "Options:",
   "      --log-level <LOG_LEVEL>  What is logged to standard error [default: warn]",
   "      --show-state             Show the state of the session after each line",
   "  -e, --eval <LINE>            Process a line before any input; may be repeated",
   "      --no-repl                Do not read any input",
   "      --prompt <PROMPT>        Write this in front of each line of input",
   "  -h, --help                   Print help",
   "  -V, --version                Print version"]

/-- The help text. -/
def helpText : String := String.join (helpLines.map (· ++ "\n"))

/-- Turns allowed to each call: more than any run that ends will take. -/
def fuel : Nat := 0x4000000000000000

/-- What the program writes before it reads input, and whether it does. A mistake in the arguments
has an exit status of its own. -/
def start? (rules : CommandLine.Rules) (fuel : Nat) (arguments : List String) : Option Repl.Step :=
  match rules arguments with
  | .error misuse       =>
    some { written := "", complaint := "error: " ++ misuse.text, next := .stop 2 }
  | .ok .help           => some { written := helpText, next := .stop 0 }
  | .ok .version        => some { written := versionText, next := .stop 0 }
  | .ok (.run options)  => Repl.start? fuel options

/-! ## Input as bytes -/

/-- The byte that ends a line. -/
def newline : UInt8 := 10

/-- Splits bytes into lines. What follows the last newline is a line too, unless it is empty. -/
def splitLines (bytes : List UInt8) : List (List UInt8) :=
  bytes.foldr (fun byte lines =>
    if byte = newline then [] :: lines
    else match lines with
      | []            => [[byte]]
      | line :: lines => (byte :: line) :: lines) []

/-- The reading that the bytes of a line give. -/
def readingOfBytes (bytes : List UInt8) : Repl.Reading :=
  match String.fromUTF8? bytes.toByteArray with
  | some text => .line text
  | none      => .garbled

/-- The readings that an input gives. -/
def readings (input : ByteArray) : List Repl.Reading :=
  (splitLines input.data.toList).map readingOfBytes

/-- Runs the program. -/
def run? (rules : CommandLine.Rules) (fuel : Nat) (arguments : List String) (input : ByteArray) :
    Option Repl.Transcript :=
  (start? rules fuel arguments).bind fun step => Repl.converse? fuel step (readings input)

end MiniForth.Program
