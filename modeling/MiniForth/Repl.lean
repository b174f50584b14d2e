import MiniForth.Session.Line
import MiniForth.Session.Panel

/-!
# The interactive loop

A conversation around one session. Lines come first from the command line and then, unless that is
switched off, from the input; both are answered alike. A line is trimmed before it is processed, and
a blank one is no line of the session at all: it writes nothing.

The loop advances from one reading of the input to the next. `start?` gives what is written before the
first reading, `feed?` what is written after a further one, and each says how the conversation goes on.
`converse?` holds all of it over a list of readings.
-/

namespace MiniForth

namespace Repl

/-- What the user can choose. -/
structure Options where
  /-- Lines that are processed before any input. -/
  lines       : List String := []
  /-- Is the state panel shown after each line? -/
  showState   : Bool := false
  /-- Are lines read from the input? -/
  interactive : Bool := true
  /-- What is written in front of each reading of the input. -/
  prompt      : String := ""
  deriving DecidableEq, Repr

/-- What reading a line of the input can give. -/
inductive Reading where
  | line (text : String)
  /-- The bytes of the line are not UTF-8. -/
  | garbled
  deriving DecidableEq, Repr

end Repl

/-- A conversation that waits for the next reading of the input. -/
structure Repl where
  options : Repl.Options
  session : Session := .initial

namespace Repl

/-- How a conversation goes on. -/
inductive Next where
  | read (repl : Repl)
  | stop (status : Nat)

/-- A part of a conversation between two readings. -/
structure Step where
  /-- What is written to the user. -/
  written   : String
  /-- What is reported aside, on a channel of its own. -/
  complaint : String := ""
  next      : Next

/-- A whole conversation: what was written, and the exit status. -/
structure Transcript where
  written : String
  status  : Nat
  deriving DecidableEq, Repr

/-! ## Answers -/

/-- What is written for a line: the line itself with its response, and the panel if it is shown. -/
def echo (showState : Bool) (line : String) (response : Response) (s : Session) : String :=
  line ++ " " ++ response.text ++ "\n" ++ if showState then s.panel ++ "\n" else ""

/-- Answers a line, which has been trimmed already. -/
def answerTrimmed? (fuel : Nat) (showState : Bool) (s : Session) (line : String) :
    Option (String × Session) :=
  if line.isEmpty then some ("", s)
  else (s.process? fuel line).map fun (response, s) => (echo showState line response s, s)

/-- Answers a line. -/
def answer? (fuel : Nat) (showState : Bool) (s : Session) (line : String) :
    Option (String × Session) :=
  answerTrimmed? fuel showState s (Text.trim line)

/-- Answers lines one after the other. -/
def answerAll? (fuel : Nat) (showState : Bool) : Session → List String → Option (String × Session)
  | s, []            => some ("", s)
  | s, line :: lines =>
    (answer? fuel showState s line).bind fun (first, s) =>
      (answerAll? fuel showState s lines).map fun (others, s) => (first ++ others, s)

/-! ## The conversation -/

/-- The exit status when there is nothing left to read. -/
def endStatus : Nat := 0

/-- Waits for input, behind a prompt, after `written` has been written. -/
def await (r : Repl) (written : String) : Step :=
  { written := written ++ r.options.prompt, next := .read r }

/-- Begins a conversation: answers the lines given in advance. -/
def start? (fuel : Nat) (options : Options) : Option Step :=
  (answerAll? fuel options.showState .initial options.lines).map fun (written, session) =>
    if options.interactive then await { options, session } written
    else { written, next := .stop endStatus }

/-- Goes on with a reading of the input. Input that is not UTF-8 ends the conversation with a status
of its own. -/
def feed? (fuel : Nat) (r : Repl) : Reading → Option Step
  | .line text =>
    (answer? fuel r.options.showState r.session text).map fun (written, session) =>
      await { r with session } written
  | .garbled => some { written := "", complaint := "error: input is not UTF-8", next := .stop 1 }

/-- Holds the rest of a conversation, with all readings that the input has left. -/
def converse? (fuel : Nat) : Step → List Reading → Option Transcript
  | { written, next := .stop status, .. }, _ => some { written, status }
  | { written, next := .read _, .. }, []     => some { written, status := endStatus }
  | { written, next := .read r, .. }, reading :: readings => do
    let step ← r.feed? fuel reading
    let rest ← converse? fuel step readings
    return { rest with written := written ++ rest.written }

end Repl

end MiniForth
