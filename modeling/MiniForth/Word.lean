import MiniForth.Cell

/-!
# Words

What the dictionary holds. A word has a name, may be immediate (it runs even while a definition is
compiled) or hidden (no token finds it), and behaves in one of two ways: as a primitive of the
machine, or as code that was compiled from an address on.

A primitive that steers the flow of control does not move the cursor itself. It answers with a
`Flow`, and whoever ran it carries that out: in code memory on the next cell, at the top level on the
next token.
-/

namespace MiniForth

/-- The operations built into the machine. -/
inductive Primitive where
  /-- Ends the running definition. -/
  | exit
  /-- Pushes what follows as a number. -/
  | literal
  /-- Skips what follows. -/
  | branch
  /-- Takes a cell and skips what follows if it is 0. -/
  | zeroBranch
  /-- Turns to immediate mode. -/
  | leftBracket
  /-- Turns to compile mode. -/
  | rightBracket
  /-- Hides the newest word. -/
  | hide
  /-- Makes the newest word visible. -/
  | reveal
  /-- Starts a definition. -/
  | colon
  /-- Ends a definition. -/
  | semicolon
  /-- Prints the parameter stack. -/
  | printStack
  /-- Takes the topmost cell and prints it. -/
  | print
  /-- Replaces the two topmost cells by their sum. -/
  | add
  /-- Doubles the topmost cell. -/
  | dup
  /-- Prints the names of all visible words. -/
  | words
  /-- Takes a cell as the new background colour. -/
  | background
  deriving DecidableEq, Inhabited, Repr

namespace Primitive

/-- The fixed name of the primitive, which is not the name of a word. -/
def mnemonic : Primitive → String
  | exit         => "EXIT"
  | literal      => "LIT"
  | branch       => "BRANCH"
  | zeroBranch   => "0BRANCH"
  | leftBracket  => "LBRAC"
  | rightBracket => "RBRAC"
  | hide         => "HIDE"
  | reveal       => "REVEAL"
  | colon        => "COLON"
  | semicolon    => "SEMICOLON"
  | printStack   => "DOTS"
  | print        => "DOT"
  | add          => "ADD"
  | dup          => "DUP"
  | words        => "WORDS"
  | background   => "BG"

/-- All primitives. -/
def all : List Primitive :=
  [exit, literal, branch, zeroBranch, leftBracket, rightBracket, hide, reveal, colon, semicolon,
   printStack, print, add, dup, words, background]

/-- The primitive with the given fixed name. -/
def ofMnemonic? (name : String) : Option Primitive := all.find? (·.mnemonic == name)

/-- No two primitives share a fixed name. -/
@[simp] theorem ofMnemonic?_mnemonic (p : Primitive) : ofMnemonic? p.mnemonic = some p := by
  cases p <;> rfl

end Primitive

/-- What a primitive asks of whoever ran it. -/
inductive Flow where
  /-- Go on with what follows. -/
  | next
  /-- Pass over what follows. -/
  | skip
  /-- Push what follows as a number. -/
  | literal
  /-- Return to the caller. -/
  | exit
  deriving DecidableEq, Repr

/-- What running a word does. -/
inductive Behavior where
  | primitive (operation : Primitive)
  /-- Runs the code from an address on. -/
  | compiled (entry : Nat)
  deriving DecidableEq, Inhabited, Repr

/-- The behavior as text: a fixed name, or `DOCOL` with the address of the code. -/
def Behavior.text : Behavior → String
  | primitive p    => p.mnemonic
  | compiled entry => "DOCOL " ++ Decimal.ofNat entry

/-- An entry of the dictionary. -/
structure Word where
  /-- The name; empty while a definition waits for one. -/
  name      : String
  immediate : Bool := false
  hidden    : Bool := false
  behavior  : Behavior
  deriving DecidableEq, Inhabited, Repr

/-- Can tokens find the word? It has to have a name and must not be hidden. -/
def Word.isVisible (w : Word) : Bool := !w.hidden && !w.name.isEmpty

end MiniForth
