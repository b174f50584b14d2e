import MiniForth.Dictionary

/-!
# The initial vocabulary

The words every session starts with. Two of them are known to the compiler by index: `exit`, whose
cell ends each definition, and `lit`, whose cell announces a number. Words that have to act while a
definition is compiled are immediate; `]` and `reveal` are not, and neither are the two branches, so
a definition gets cells for them.
-/

namespace MiniForth.Vocabulary

/-- The index of `exit`. -/
def exitIndex : Nat := 0

/-- The index of `lit`. -/
def literalIndex : Nat := 2

/-- The initial words in the order of their indices. -/
def words : List Word :=
  [{ name := "exit",    behavior := .primitive .exit },
   { name := "docol",   behavior := .primitive .exit, hidden := true },
   { name := "lit",     behavior := .primitive .literal },
   { name := "[",       behavior := .primitive .leftBracket, immediate := true },
   { name := "]",       behavior := .primitive .rightBracket },
   { name := "hide",    behavior := .primitive .hide, immediate := true },
   { name := "reveal",  behavior := .primitive .reveal },
   { name := ":",       behavior := .primitive .colon, immediate := true },
   { name := ";",       behavior := .primitive .semicolon, immediate := true },
   { name := ".s",      behavior := .primitive .printStack },
   { name := "+",       behavior := .primitive .add },
   { name := "dup",     behavior := .primitive .dup },
   { name := ".",       behavior := .primitive .print },
   { name := "words",   behavior := .primitive .words },
   { name := "bg",      behavior := .primitive .background },
   { name := "branch",  behavior := .primitive .branch },
   { name := "0branch", behavior := .primitive .zeroBranch }]

/-- The dictionary of a new session. -/
def dictionary : Dictionary := Dictionary.empty.addAll words

@[simp] theorem words_dictionary : dictionary.words = words := by simp [dictionary]

/-- The word that ends definitions. -/
theorem get?_exitIndex :
    dictionary.get? exitIndex = some { name := "exit", behavior := .primitive .exit } := rfl

/-- The word that announces numbers. -/
theorem get?_literalIndex :
    dictionary.get? literalIndex = some { name := "lit", behavior := .primitive .literal } := rfl

end MiniForth.Vocabulary
