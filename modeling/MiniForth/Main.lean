import MiniForth.Program

/-!
# The executable

Reads the input line by line and writes each part of the conversation as soon as it is known.
-/

namespace MiniForth.Console

/-- Reads the bytes up to the next newline, which is kept, or to the end of the input. -/
partial def readBytes (input : IO.FS.Stream) (line : ByteArray) : IO ByteArray := do
  let bytes ← input.read 1
  if bytes.isEmpty then return line
  else if bytes.data.contains Program.newline then return line ++ bytes
  else readBytes input (line ++ bytes)

/-- Reads one line of the input, if there is one. -/
def read? (input : IO.FS.Stream) : IO (Option Repl.Reading) := do
  let line ← readBytes input .empty
  return if line.isEmpty then none else some (Program.readingOfBytes line.data.toList)

/-- Writes a part of the conversation and goes on with the next one; answers the exit status. -/
partial def converse (input output errors : IO.FS.Stream) : Option Repl.Step → IO Nat
  | none => do
    errors.putStrLn "error: a call did not end"
    return 1
  | some step => do
    output.putStr step.written
    output.flush
    unless step.complaint.isEmpty do errors.putStrLn step.complaint
    match step.next with
    | .stop status => return status
    | .read repl   =>
      match ← read? input with
      | none         => return Repl.endStatus
      | some reading => converse input output errors (repl.feed? Program.fuel reading)

end MiniForth.Console

open MiniForth in
def main (arguments : List String) : IO UInt32 := do
  let status ← Console.converse (← IO.getStdin) (← IO.getStdout) (← IO.getStderr)
    (Program.start? CommandLine.parse Program.fuel arguments)
  return status.toUInt32
