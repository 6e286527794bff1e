/-
# Printing a configuration

`samconfDumpConfigTree` prints a tree with one line for each node. What it prints is the
result here. The vector of indicators holds for every level above whether the node there
was the last of its siblings; a push that gets no memory leaves it as it is, and the code
does not ask. How `printf` writes a `double`, and what it writes for a string that is NULL,
is a parameter.
-/

import Samconf.Model.Node

namespace Samconf

open Foundation

/-- What depends on the C library: how `printf` writes a `double` with `%f`, and NULL with
`%s`. -/
structure Printf where
  real : Double → CString
  null : CString

/-- `printf` of a string with `%s`. -/
def Printf.string (printf : Printf) (string : Option CString) : CString :=
  string.getD printf.null

/-- `printf` of an integer with `%ld`. -/
def formatInteger (n : ℤ) : CString :=
  if n < 0 then '-' :: Nat.toDigits 10 n.natAbs else Nat.toDigits 10 n.natAbs

/-- `BOOL_STRING`. -/
def boolString (b : Bool) : CString := if b then "true".toList else "false".toList

/-- `SIGNED`. -/
def signedMark (sgnd : Bool) : CString := if sgnd then ['✅'] else ['❌']

/-- `_level`. -/
def level (indicator : List Bool) : CString :=
  indicator.flatMap fun ind => if ind then [' ', ' ', ' ', ' '] else ['│', ' ', ' ', ' ']

/-- How a line of `_dumpConfigTree` branches off. -/
def branch (last : Bool) : CString :=
  if last then ['└', '─', '─', ' '] else ['├', '─', '─', ' ']

/-- `safuVecPush` of an indicator. -/
def safuVecPush (indicator : List Bool) (last : Bool) : Run (List Bool) := do
  if ← Exec.alloc then pure (indicator ++ [last]) else pure indicator

/-- `safuVecPop`. -/
def safuVecPop (indicator : List Bool) : List Bool := indicator.dropLast

/-- The end of the line of a node that is neither OBJECT nor ARRAY. -/
def dumpValue (printf : Printf) (config : NodeData) : Run CString :=
  match config.type with
  | .boolean => do pure ([':', ' '] ++ boolString (← readBoolean config.value) ++ ['\n'])
  | .int => do pure ([':', ' '] ++ formatInteger (← readInteger config.value).toInt ++ ['\n'])
  | .real => do pure ([':', ' '] ++ printf.real (← readReal config.value) ++ ['\n'])
  | .string => do
      pure ([':', ' ', '"'] ++ printf.string (← readString config.value) ++ ['"', '\n'])
  | _ => pure ([':', ' '] ++ "UNKNOWN/ERROR".toList ++ ['\n'])

mutual

/-- `_dumpConfigTree`: what it prints, and the vector afterwards. -/
def dumpConfigTree (printf : Printf) :
    Config → List Bool → Bool → Run (CString × List Bool)
  | .node d children, indicator, last => do
      let line :=
        level indicator ++ branch last ++ signedMark d.isSigned ++ ' ' :: printf.string d.key
      let indicator ← safuVecPush indicator last
      match d.type with
      | .object | .array =>
          let (below, indicator) ← dumpChildren printf d.childCount children indicator
          pure (line ++ '\n' :: below, safuVecPop indicator)
      | _ =>
          let value ← dumpValue printf d
          pure (line ++ value, safuVecPop indicator)

/-- The loop over the children, with the rounds that are left: the last one has
`i + 1 >= childCount`. -/
def dumpChildren (printf : Printf) :
    ℕ → List Config → List Bool → Run (CString × List Bool)
  | 0, _, indicator => pure ([], indicator)
  | _ + 1, [], _ => Exec.fault .outOfBounds
  | n + 1, child :: children, indicator => do
      let (text, indicator) ← dumpConfigTree printf child indicator (decide (n = 0))
      let (rest, indicator) ← dumpChildren printf n children indicator
      pure (text ++ rest, indicator)

end

/-- `samconfDumpConfigTree`: nothing is printed for NULL, or when the vector cannot be
created. -/
def samconfDumpConfigTree (printf : Printf) : Option Config → Run CString
  | none => pure []
  | some config => do
      if ← Exec.alloc then
        let (below, _) ← dumpChildren printf config.label.childCount config.children []
        pure (signedMark config.label.isSigned ++ [' ', '/', ' ', '('] ++
          printf.string config.label.key ++ [')', '\n'] ++ below)
      else pure []

end Samconf
