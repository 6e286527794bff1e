/-
# Printing a configuration

`samconfDumpConfigTree` draws the tree that it is given: its bars hold together, and from
what it prints one can tell what was printed.
-/

import Samconf.Spec.TreeDump

namespace Samconf

open Foundation
open Exec (Yields)
open RoseTree (drawAll Holding)

variable {printf : Printf}

/-- A signed ARRAY without a key, of an INT and an OBJECT with a STRING. -/
def numberAndName : Config :=
  .node ⟨none, true, .array, .zero, 2⟩
    [.node ⟨some "0".toList, true, .int, .integer 7, 0⟩ [],
      .node ⟨some "1".toList, true, .object, .zero, 1⟩
        [.node ⟨some "name".toList, false, .string, .string (some "a: b".toList), 0⟩ []]]

/-- The same with the number as a STRING. -/
def digitAndName : Config :=
  .node ⟨none, true, .array, .zero, 2⟩
    [.node ⟨some "0".toList, true, .string, .string (some "7".toList), 0⟩ [],
      .node ⟨some "1".toList, true, .object, .zero, 1⟩
        [.node ⟨some "name".toList, false, .string, .string (some "a: b".toList), 0⟩ []]]

/-- A C library that writes the same for every `double`. -/
def constantPrintf : Printf :=
  ⟨fun _ => ['0', '.', '0'], ['(', 'n', 'u', 'l', 'l', ')']⟩

/-- **A printed configuration is a drawing of it.** Without failing allocations
`samconfDumpConfigTree` prints the flag and the key of the top and then a line for every
node that is shown, a node before what is below it. Every bar and branch that goes down
from a line comes down to the next, what comes down there went down from the line before
or begins below its label, and nothing goes down from the last line. -/
theorem samconfDumpConfigTree_draws {config : Config} (h : config.Showable) :
    ∃ lines : List (Line Shown),
      lines = drawAll (Config.shownAll printf config.children) [] ∧
      (samconfDumpConfigTree printf (some config)).Yields
        (signedMark config.label.isSigned ++ [' ', '/', ' ', '('] ++
          printf.string config.label.key ++ [')', '\n'] ++ linesText lines) ∧
      Holding [] lines :=
  ⟨_, rfl, samconfDumpConfigTree_yields h, RoseTree.holding_drawAll _ _⟩

/-- Three lines, of which the first has a sibling below it. -/
theorem numberAndName_draws : ∃ lines : List (Line Shown),
    lines.map Line.levels = [[], [], [true]] ∧ lines.map Line.last = [false, true, true] ∧
    (samconfDumpConfigTree constantPrintf (some numberAndName)).Yields
      (signedMark true ++ [' ', '/', ' ', '('] ++ constantPrintf.null ++ [')', '\n'] ++
        linesText lines) ∧
    Holding [] lines := by
  obtain ⟨lines, hlines, hprint, hholding⟩ :=
    @samconfDumpConfigTree_draws constantPrintf numberAndName ⟨by decide, by decide⟩
  refine ⟨lines, ?_, ?_, hprint, hholding⟩ <;> rw [hlines] <;> rfl

/-- **What is printed tells what was printed.** Let two configurations have keys and
strings that stay on a line, and no key that looks like one with a value behind it. When
`printf` writes a `double` and NULL as it does, `samconfDumpConfigTree` prints the same
for both, without failing allocations, exactly when they show the same: the flag and the
key of the top, and below it the same nodes with the same flags, keys and values. -/
theorem samconfDumpConfigTree_eq_iff {a b : Config} (ha : a.Printable) (hb : b.Printable)
    (hprintf : printf.Legible) : ∃ text text' : CString,
    (samconfDumpConfigTree printf (some a)).Yields text ∧
    (samconfDumpConfigTree printf (some b)).Yields text' ∧
    (text = text' ↔ a.label.isSigned = b.label.isSigned ∧
      printf.string a.label.key = printf.string b.label.key ∧
      Config.shownAll printf a.children = Config.shownAll printf b.children) :=
  ⟨a.printed printf, b.printed printf, samconfDumpConfigTree_yields ha.toShowable,
    samconfDumpConfigTree_yields hb.toShowable, Config.printed_eq_iff ha hb hprintf⟩

/-- A number and a string of its digit do not look alike. -/
theorem number_and_digit_printed : ∃ text text' : CString,
    (samconfDumpConfigTree constantPrintf (some numberAndName)).Yields text ∧
    (samconfDumpConfigTree constantPrintf (some digitAndName)).Yields text' ∧
    text ≠ text' := by
  have hnumber : numberAndName.Printable := ⟨⟨by decide, by decide⟩, by decide⟩
  have hdigit : digitAndName.Printable := ⟨⟨by decide, by decide⟩, by decide⟩
  have hprintf : constantPrintf.Legible :=
    ⟨fun _ => ⟨by simp [constantPrintf, Char.isDigit], by simp [constantPrintf]⟩, by decide⟩
  obtain ⟨text, text', hprint, hprint', hiff⟩ :=
    samconfDumpConfigTree_eq_iff hnumber hdigit hprintf
  refine ⟨text, text', hprint, hprint', fun heq => ?_⟩
  have hshown := (hiff.mp heq).2.2
  simp [numberAndName, digitAndName, Config.shownAll, Config.shown, NodeData.shown,
    NodeData.shownValue, NodeData.content, Value.read] at hshown

end Samconf
