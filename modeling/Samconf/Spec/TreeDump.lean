/-
# What a printed configuration shows

Of a node the printed line shows the flag, the key, and the value when it has one. What is
below a node that is neither OBJECT nor ARRAY is not shown. The stack of indicators of the
code holds the levels of the drawing: every call leaves it as it found it, so what is
printed is the drawing of what is shown.
-/

import Samconf.Foundation.Delimiters
import Samconf.Foundation.Drawing
import Samconf.Model.TreeDump
import Samconf.Spec.Merge
import Samconf.Spec.Numeral

namespace Samconf

open Foundation
open Exec (Yields)
open RoseTree (draw drawAll)

/-- What a line shows behind the key. -/
inductive ShownValue
  | container
  | boolean (value : Bool)
  | integer (value : Int64)
  | real (text : CString)
  | string (value : CString)
  | unknown
  deriving DecidableEq

/-- What a line shows of a node. -/
structure Shown where
  isSigned : Bool
  key : CString
  value : ShownValue
  deriving DecidableEq

namespace ShownValue

/-- How a value is written. -/
def text : ShownValue → CString
  | container => []
  | boolean b => [':', ' '] ++ boolString b
  | integer i => [':', ' '] ++ formatInteger i.toInt
  | real r => [':', ' '] ++ r
  | string s => [':', ' ', '"'] ++ s ++ ['"']
  | unknown => [':', ' '] ++ "UNKNOWN/ERROR".toList

end ShownValue

/-- How a line continues behind its branch. -/
def Shown.text (shown : Shown) : CString :=
  signedMark shown.isSigned ++ ' ' :: shown.key ++ shown.value.text

/-- A line without the newline. -/
def lineText (line : Line Shown) : CString :=
  level line.levels ++ branch line.last ++ line.label.text

/-- What the lines of a drawing are printed as. -/
def linesText (lines : List (Line Shown)) : CString :=
  lines.flatMap fun line => lineText line ++ ['\n']

section Shown

variable (printf : Printf)

/-- What is shown of the value of a node. -/
def NodeData.shownValue (d : NodeData) : ShownValue :=
  match d.type, d.content with
  | .object, _ | .array, _ => .container
  | .boolean, .boolean b => .boolean b
  | .int, .integer i => .integer i
  | .real, .real r => .real (printf.real r)
  | .string, .string s => .string (printf.string s)
  | _, _ => .unknown

/-- What is shown of a node. -/
def NodeData.shown (d : NodeData) : Shown :=
  ⟨d.isSigned, printf.string d.key, d.shownValue printf⟩

mutual

/-- The tree that is shown. -/
def Config.shown : Config → RoseTree Shown
  | .node d children =>
      .node (d.shown printf)
        (if d.shownValue printf = .container then Config.shownAll children else [])

/-- The trees of siblings. -/
def Config.shownAll : List Config → List (RoseTree Shown)
  | [] => []
  | child :: children => Config.shown child :: Config.shownAll children

end

/-- What is printed for a tree: its flag and key, and the drawing of what is below. -/
def Config.printed (config : Config) : CString :=
  signedMark config.label.isSigned ++ [' ', '/', ' ', '('] ++ printf.string config.label.key ++
    [')', '\n'] ++ linesText (drawAll (Config.shownAll printf config.children) [])

end Shown

variable {printf : Printf}

/-- Only containers show what is below them. -/
theorem shownValue_eq_container_iff {d : NodeData} :
    d.shownValue printf = .container ↔ d.type = .object ∨ d.type = .array := by
  rw [NodeData.shownValue]
  cases d.type with
  | object | array => simp
  | none => simp
  | string | int | real | boolean => split <;> simp_all

/-- A scalar is written behind its key, with the newline. -/
theorem dumpValue_yields {d : NodeData} (htagged : d.Tagged)
    (hobject : d.type ≠ .object) (harray : d.type ≠ .array) :
    (dumpValue printf d).Yields ((d.shownValue printf).text ++ ['\n']) := by
  rcases d with ⟨key, isSigned, type, value, childCount⟩
  have hwrite {text : CString} {read : Run CString} (hread : read = pure text) :
      read.Yields text := hread ▸ Exec.yields_pure text
  cases type with
  | object => exact absurd rfl hobject
  | array => exact absurd rfl harray
  | none => exact hwrite (by simp [dumpValue, NodeData.shownValue, ShownValue.text])
  | boolean =>
      cases value with
      | zero | boolean b =>
          exact hwrite (by simp [dumpValue, readBoolean, NodeData.shownValue, NodeData.content,
            Value.read, ShownValue.text])
      | _ => exact htagged.elim
  | int =>
      cases value with
      | zero | integer i =>
          exact hwrite (by simp [dumpValue, readInteger, NodeData.shownValue, NodeData.content,
            Value.read, ShownValue.text])
      | _ => exact htagged.elim
  | real =>
      cases value with
      | zero | real r =>
          exact hwrite (by simp [dumpValue, readReal, NodeData.shownValue, NodeData.content,
            Value.read, ShownValue.text])
      | _ => exact htagged.elim
  | string =>
      cases value with
      | zero | string s =>
          exact hwrite (by simp [dumpValue, readString, NodeData.shownValue, NodeData.content,
            Value.read, ShownValue.text])
      | _ => exact htagged.elim

/-- What a tree needs for its counts and values to be read. -/
structure Config.Showable (config : Config) : Prop where
  counted : config.Counted
  tagged : config.Tagged

/-- What is below a node can be shown as well. -/
theorem Config.Showable.child {d : NodeData} {children : List Config} {c : Config}
    (h : Config.Showable (.node d children)) (hc : c ∈ children) : c.Showable where
  counted := (RoseTree.everywhere_node.mp h.counted).2 c hc
  tagged := (RoseTree.everywhere_node.mp h.tagged).2 c hc

theorem linesText_append (lines more : List (Line Shown)) :
    linesText (lines ++ more) = linesText lines ++ linesText more := List.flatMap_append

/-- The loop over the children draws them, when every call draws one. -/
theorem dumpChildren_yields {children : List Config}
    (hchild : ∀ c ∈ children, ∀ (indicator : List Bool) (last : Bool),
      (dumpConfigTree printf c indicator last).Yields
        (linesText ((c.shown printf).draw indicator last), indicator))
    (indicator : List Bool) :
    (dumpChildren printf children.length children indicator).Yields
      (linesText (drawAll (Config.shownAll printf children) indicator), indicator) := by
  induction children with
  | nil => exact Exec.yields_pure _
  | cons c children ih =>
      have hlast : (Config.shownAll printf children).isEmpty =
          decide (children.length = 0) := by
        cases children <;> rfl
      rw [List.length_cons, dumpChildren, Config.shownAll, drawAll, linesText_append, hlast]
      apply (hchild c List.mem_cons_self indicator _).bind
      apply (ih fun d hd => hchild d (List.mem_cons_of_mem c hd)).bind
      exact Exec.yields_pure _

/-- **A call draws the node** and what is shown below it, and leaves the vector as it
was. -/
theorem dumpConfigTree_yields {config : Config} (h : config.Showable)
    (indicator : List Bool) (last : Bool) :
    (dumpConfigTree printf config indicator last).Yields
      (linesText ((config.shown printf).draw indicator last), indicator) := by
  induction config using RoseTree.induct generalizing indicator last with
  | node d children ih =>
      have htagged := (RoseTree.everywhere_node.mp h.tagged).1
      have hchildren := @dumpChildren_yields printf children fun c hc => ih c hc (h.child hc)
      have hpush : (safuVecPush indicator last).Yields (indicator ++ [last]) :=
        Exec.yields_alloc.bind (Exec.yields_pure _)
      have hpop : safuVecPop (indicator ++ [last]) = indicator := List.dropLast_concat
      have hcount : d.childCount = children.length := by
        simpa using (RoseTree.everywhere_node.mp h.counted).1
      -- the line of the node, and the lines below it
      have hdraw : linesText ((Config.shown printf (.node d children)).draw indicator last) =
          level indicator ++ branch last ++ signedMark d.isSigned ++ ' ' :: printf.string d.key ++
            ((d.shownValue printf).text ++ ['\n']) ++
            linesText (drawAll (if d.shownValue printf = .container
              then Config.shownAll printf children else []) (indicator ++ [last])) := by
        simp [Config.shown, draw, linesText, lineText, Shown.text, NodeData.shown]
      rw [hdraw, dumpConfigTree, hcount]
      apply hpush.bind
      cases htype : d.type with
      | object | array =>
          have hvalue : d.shownValue printf = .container :=
            shownValue_eq_container_iff.mpr (by simp [htype])
          simp only [hvalue, if_true, ShownValue.text]
          apply (hchildren (indicator ++ [last])).bind
          rw [hpop]
          simpa using Exec.yields_pure _
      | none | string | int | real | boolean =>
          rw [if_neg (shownValue_eq_container_iff.not.mpr (by simp [htype]))]
          apply (dumpValue_yields htagged (by simp [htype]) (by simp [htype])).bind
          rw [hpop]
          simpa [drawAll, linesText] using Exec.yields_pure _

/-- **The code prints** the drawing of what is shown. -/
theorem samconfDumpConfigTree_yields {config : Config} (h : config.Showable) :
    (samconfDumpConfigTree printf (some config)).Yields (config.printed printf) := by
  cases config with
  | node d children =>
      have hcount : d.childCount = children.length := by
        simpa using (RoseTree.everywhere_node.mp h.counted).1
      have hchildren := @dumpChildren_yields printf children fun c hc =>
        dumpConfigTree_yields (h.child hc)
      rw [samconfDumpConfigTree, Config.printed]
      apply Exec.yields_alloc.bind
      simp only [if_true, RoseTree.label_node, RoseTree.children_node, hcount]
      apply (hchildren []).bind
      exact Exec.yields_pure _

/-! ## Reading a value -/

/-- What the text of a `double` looks like: digits, a point and a sign, or one of the
words for infinity and for no number. -/
def IsRealText (text : CString) : Prop :=
  (∀ c ∈ text, c.isDigit = true ∨ c ∈ ['-', '.', 'i', 'n', 'f', 'a']) ∧ ('.' ∈ text ∨ 'n' ∈ text)

/-- What a value that is written after a colon can be read back as. -/
def ShownValue.read (body : CString) : ShownValue :=
  if body.head? = some '"' then .string (body.drop 1).dropLast
  else if body = "true".toList then .boolean true
  else if body = "false".toList then .boolean false
  else if body = "UNKNOWN/ERROR".toList then .unknown
  else if '.' ∈ body ∨ 'n' ∈ body then .real body
  else .integer (strtoll body).1

/-- A value that can be read from its line. -/
def ShownValue.Legible : ShownValue → Prop
  | .string s => '\n' ∉ s
  | .real r => IsRealText r
  | _ => True

theorem mem_formatInteger {n : ℤ} {c : Char} (h : c ∈ formatInteger n) :
    c.isDigit = true ∨ c = '-' := by
  have hdigit {c : Char} (hc : c ∈ Nat.toDigits 10 n.natAbs) : c.isDigit = true :=
    Nat.isDigit_of_mem_toDigits (by decide) (by decide) hc
  rw [formatInteger] at h
  split at h
  · exact (List.mem_cons.mp h).symm.imp_left hdigit
  · exact .inl (hdigit h)

/-- A text without the marks of the others is read as a number. -/
theorem ShownValue.read_of_not_mem {body : CString} (hquote : '"' ∉ body) (ht : 't' ∉ body)
    (hl : 'l' ∉ body) (hU : 'U' ∉ body) : ShownValue.read body =
      if '.' ∈ body ∨ 'n' ∈ body then .real body else .integer (strtoll body).1 := by
  have hne {c : Char} {word : CString} (hc : c ∉ body) (hword : c ∈ word) : body ≠ word := by
    rintro rfl
    exact hc hword
  have hhead : body.head? ≠ some '"' := fun hhead => hquote (List.mem_of_mem_head? hhead)
  rw [ShownValue.read, if_neg hhead, if_neg (hne ht (by decide)), if_neg (hne hl (by decide)),
    if_neg (hne hU (by decide))]

/-- What is written behind the key of a value. -/
theorem ShownValue.text_eq {value : ShownValue} (h : value.Legible) :
    value = .container ∧ value.text = [] ∨ ∃ body, value.text = [':', ' '] ++ body ∧
      '\n' ∉ body ∧ ShownValue.read body = value := by
  cases value with
  | container => exact .inl ⟨rfl, rfl⟩
  | boolean b => exact .inr ⟨_, rfl, by cases b <;> decide, by cases b <;> decide⟩
  | unknown => exact .inr ⟨_, rfl, by decide, by decide⟩
  | string s =>
      refine .inr ⟨'"' :: s ++ ['"'], rfl, ?_, ?_⟩
      · have hs : '\n' ∉ s := h
        simp [hs]
      · simp [ShownValue.read]
  | real r =>
      obtain ⟨hplain, hmarked⟩ := h
      have hout {c : Char} (hc : ¬ (c.isDigit = true ∨ c ∈ ['-', '.', 'i', 'n', 'f', 'a'])) :
          c ∉ r := fun hmem => hc (hplain c hmem)
      refine .inr ⟨r, rfl, hout (by decide), ?_⟩
      rw [ShownValue.read_of_not_mem (hout (by decide)) (hout (by decide)) (hout (by decide))
        (hout (by decide)), if_pos hmarked]
  | integer i =>
      have hout {c : Char} (hc : ¬ (c.isDigit = true ∨ c = '-')) : c ∉ formatInteger i.toInt :=
        fun hmem => hc (mem_formatInteger hmem)
      have hnumeral : DecimalNumeral (formatInteger i.toInt) i.toInt :=
        decimalNumeral_spelling i.toInt
      have hunmarked : ¬ ('.' ∈ formatInteger i.toInt ∨ 'n' ∈ formatInteger i.toInt) :=
        not_or.mpr ⟨hout (by decide), hout (by decide)⟩
      refine .inr ⟨_, rfl, hout (by decide), ?_⟩
      rw [ShownValue.read_of_not_mem (hout (by decide)) (hout (by decide)) (hout (by decide))
        (hout (by decide)), if_neg hunmarked, hnumeral.strtoll_eq]
      exact congrArg ShownValue.integer (Int64.toInt_inj.mp (toInt_saturate (fitsInt64_toInt i)))

/-! ## Reading a line -/

/-- A node that can be read from its line. -/
structure Shown.Legible (shown : Shown) : Prop where
  oneLine : '\n' ∉ shown.key
  colonFree : ¬ [':', ' '] <:+: shown.key
  value : shown.value.Legible

/-- A key with a value behind it is not the key of a container. -/
theorem ShownValue.key_inj {k k' : CString} {value value' : ShownValue}
    (hk : ¬ [':', ' '] <:+: k) (hk' : ¬ [':', ' '] <:+: k') (h : value.Legible)
    (h' : value'.Legible) (heq : k ++ value.text = k' ++ value'.text) :
    k = k' ∧ value = value' := by
  rcases ShownValue.text_eq h with ⟨rfl, hempty⟩ | ⟨body, hbody, -, hread⟩ <;>
    rcases ShownValue.text_eq h' with ⟨rfl, hempty'⟩ | ⟨body', hbody', -, hread'⟩
  · rw [hempty, List.append_nil, List.append_nil] at heq
    exact ⟨heq, rfl⟩
  · rw [hempty, hbody', List.append_nil] at heq
    exact absurd ⟨k', body', by rw [heq, List.append_assoc]⟩ hk
  · rw [hempty', hbody, List.append_nil] at heq
    exact absurd ⟨k, body, by rw [← heq, List.append_assoc]⟩ hk'
  · rw [hbody, hbody', (delimited_pair (by decide) hk).append_inj
      (delimited_pair (by decide) hk')] at heq
    obtain ⟨rfl, rfl⟩ := heq
    exact ⟨rfl, hread.symm.trans hread'⟩

theorem Shown.text_inj {a b : Shown} (ha : a.Legible) (hb : b.Legible) (heq : a.text = b.text) :
    a = b := by
  rcases a with ⟨signedA, keyA, valueA⟩
  rcases b with ⟨signedB, keyB, valueB⟩
  have hmark : signedMark signedA = signedMark signedB ∧
      keyA ++ valueA.text = keyB ++ valueB.text := by
    cases signedA <;> cases signedB <;> simp_all [Shown.text, signedMark]
  obtain ⟨rfl, rfl⟩ := ShownValue.key_inj ha.colonFree hb.colonFree ha.value hb.value hmark.2
  have hsigned : signedA = signedB := by
    cases signedA <;> cases signedB <;> simp_all [signedMark]
  rw [hsigned]

/-- The columns of a line, its branch and the rest. -/
theorem columns_inj {levels levels' : List Bool} {last last' : Bool} {text text' : CString}
    (heq : level levels ++ (branch last ++ text) = level levels' ++ (branch last' ++ text')) :
    levels = levels' ∧ last = last' ∧ text = text' := by
  induction levels generalizing levels' with
  | nil =>
      cases levels' with
      | nil => cases last <;> cases last' <;> simp_all [level, branch]
      | cons b levels' => cases b <;> cases last <;> simp [level, branch] at heq
  | cons a levels ih =>
      cases levels' with
      | nil => cases a <;> cases last' <;> simp [level, branch] at heq
      | cons b levels' =>
          have hrest : a = b ∧ level levels ++ (branch last ++ text) =
              level levels' ++ (branch last' ++ text') := by
            cases a <;> cases b <;> simp_all [level]
          obtain ⟨rfl, hrest⟩ := hrest
          obtain ⟨rfl, hboth⟩ := ih hrest
          exact ⟨rfl, hboth⟩

theorem lineText_inj {a b : Line Shown} (ha : a.label.Legible) (hb : b.label.Legible)
    (heq : lineText a = lineText b) : a = b := by
  rw [lineText, lineText, List.append_assoc, List.append_assoc] at heq
  obtain ⟨hlevels, hlast, htext⟩ := columns_inj heq
  rcases a with ⟨levels, last, label⟩
  rcases b with ⟨levels', last', label'⟩
  obtain rfl : levels = levels' := hlevels
  obtain rfl : last = last' := hlast
  obtain rfl : label = label' := Shown.text_inj ha hb htext
  rfl

/-- A line ends where it ends. -/
theorem newline_not_mem_lineText {line : Line Shown} (h : line.label.Legible) :
    '\n' ∉ lineText line := by
  have hlevel : '\n' ∉ level line.levels := by
    rw [level, List.mem_flatMap]
    rintro ⟨b, -, hb⟩
    cases b <;> revert hb <;> decide
  have hbranch : '\n' ∉ branch line.last := by cases line.last <;> decide
  have hmark : '\n' ∉ signedMark line.label.isSigned := by cases line.label.isSigned <;> decide
  have hvalue : '\n' ∉ line.label.value.text := by
    rcases ShownValue.text_eq h.value with ⟨-, hempty⟩ | ⟨body, hbody, hplain, -⟩
    · rw [hempty]
      exact List.not_mem_nil
    · rw [hbody]
      simp [hplain]
  simp [lineText, Shown.text, hlevel, hbranch, hmark, h.oneLine, hvalue]

/-- **Printed lines** can be read back. -/
theorem linesText_inj {lines lines' : List (Line Shown)} (h : ∀ line ∈ lines, line.label.Legible)
    (h' : ∀ line ∈ lines', line.label.Legible) :
    linesText lines = linesText lines' ↔ lines = lines' := by
  refine flatMap_append_inj (List.cons_ne_nil _ _) (fun line hline => ?_) (fun line hline => ?_)
    fun a ha b hb => lineText_inj (h a ha) (h' b hb)
  · exact delimited_singleton.mpr (newline_not_mem_lineText (h line hline))
  · exact delimited_singleton.mpr (newline_not_mem_lineText (h' line hline))

/-! ## Reading a tree -/

/-- A key that can be read from its line: it is on it, and does not look like one with a
value. -/
def KeyPrintable (key : CString) : Prop := '\n' ∉ key ∧ ¬ [':', ' '] <:+: key

instance (key : CString) : Decidable (KeyPrintable key) := inferInstanceAs (Decidable (_ ∧ _))

/-- A C library whose texts can be read from their lines. -/
structure Printf.Legible (printf : Printf) : Prop where
  real : ∀ r, IsRealText (printf.real r)
  null : KeyPrintable printf.null

/-- The string of a STRING node. -/
def NodeData.string? (d : NodeData) : Option CString :=
  match d.content with
  | .string s => s
  | _ => none

/-- A node whose key and value can be read from its line. -/
def NodeData.Printable (d : NodeData) : Prop :=
  (∀ key ∈ d.key, KeyPrintable key) ∧ ∀ s ∈ d.string?, '\n' ∉ s

instance (d : NodeData) : Decidable d.Printable := inferInstanceAs (Decidable (_ ∧ _))

/-- A configuration that can be read from what is printed. -/
structure Config.Printable (config : Config) : Prop extends Config.Showable config where
  printable : config.Everywhere fun d _ => d.Printable

theorem Printf.Legible.key (hprintf : printf.Legible) {key : Option CString}
    (h : ∀ k ∈ key, KeyPrintable k) : KeyPrintable (printf.string key) := by
  cases key with
  | none => exact hprintf.null
  | some k => exact h k rfl

theorem NodeData.Printable.shown {d : NodeData} (h : d.Printable) (hprintf : printf.Legible) :
    (d.shown printf).Legible := by
  have hkey : KeyPrintable (printf.string d.key) := hprintf.key h.1
  refine ⟨hkey.1, hkey.2, ?_⟩
  rw [NodeData.shown, NodeData.shownValue]
  split
  case h_5 => exact hprintf.real _
  case h_6 _ _ s _ hcontent =>
    cases s with
    | none => exact hprintf.null.1
    | some s => exact h.2 s (by rw [NodeData.string?, hcontent, Option.mem_some_iff])
  all_goals exact trivial

theorem Config.shownAll_eq_map (children : List Config) :
    Config.shownAll printf children = children.map (Config.shown printf) := by
  induction children with
  | nil => rfl
  | cons c children ih => rw [Config.shownAll, ih, List.map_cons]

/-- What is shown of a printable tree is legible. -/
theorem Config.shown_legible {config : Config} (h : config.Everywhere fun d _ => d.Printable)
    (hprintf : printf.Legible) :
    (config.shown printf).Everywhere (fun _ => ()) fun shown _ => shown.Legible := by
  induction config using RoseTree.induct with
  | node d children ih =>
      obtain ⟨hself, hbelow⟩ := RoseTree.everywhere_node.mp h
      rw [Config.shown]
      refine RoseTree.everywhere_node.mpr ⟨hself.shown hprintf, fun t ht => ?_⟩
      split at ht
      · rw [Config.shownAll_eq_map] at ht
        obtain ⟨c, hc, rfl⟩ := List.mem_map.mp ht
        exact ih c hc (hbelow c hc)
      · cases ht

/-- The lines of printable siblings. -/
theorem Config.legible_drawAll {children : List Config}
    (h : ∀ c ∈ children, Config.Everywhere (fun d _ => d.Printable) c)
    (hprintf : printf.Legible) :
    ∀ line ∈ drawAll (Config.shownAll printf children) [], line.label.Legible := by
  refine RoseTree.forall_mem_drawAll (fun t ht => ?_) []
  rw [Config.shownAll_eq_map] at ht
  obtain ⟨c, hc, rfl⟩ := List.mem_map.mp ht
  exact RoseTree.forall_mem_draw (Config.shown_legible (h c hc) hprintf)

/-- **What is printed says what is shown.** -/
theorem Config.printed_eq_iff {a b : Config} (ha : a.Printable) (hb : b.Printable)
    (hprintf : printf.Legible) :
    a.printed printf = b.printed printf ↔ a.label.isSigned = b.label.isSigned ∧
      printf.string a.label.key = printf.string b.label.key ∧
      Config.shownAll printf a.children = Config.shownAll printf b.children := by
  rcases a with ⟨d, children⟩
  rcases b with ⟨e, children'⟩
  obtain ⟨hself, hbelow⟩ := RoseTree.everywhere_node.mp ha.printable
  obtain ⟨hself', hbelow'⟩ := RoseTree.everywhere_node.mp hb.printable
  have htop {k : CString} (hk : '\n' ∉ k) : Delimited ['\n'] (k ++ [')']) :=
    delimited_singleton.mpr (by simp [hk])
  have hlines := linesText_inj (Config.legible_drawAll hbelow hprintf)
    (Config.legible_drawAll hbelow' hprintf)
  rw [← @RoseTree.drawAll_inj _ _ _ [], RoseTree.children_node, RoseTree.children_node, ← hlines]
  have hheading (text text' : CString) :
      signedMark d.isSigned ++ [' ', '/', ' ', '('] ++ printf.string d.key ++
            [')', '\n'] ++ text =
          signedMark e.isSigned ++ [' ', '/', ' ', '('] ++ printf.string e.key ++
            [')', '\n'] ++ text' ↔
        d.isSigned = e.isSigned ∧ (printf.string d.key ++ [')']) ++ (['\n'] ++ text) =
          (printf.string e.key ++ [')']) ++ (['\n'] ++ text') := by
    cases d.isSigned <;> cases e.isSigned <;> simp [signedMark]
  rw [Config.printed, Config.printed, RoseTree.label_node, RoseTree.label_node]
  refine (hheading _ _).trans (and_congr_right fun _ => ?_)
  rw [(htop (hprintf.key hself.1).1).append_inj (htop (hprintf.key hself'.1).1),
    List.append_left_inj]
  exact Iff.rfl

end Samconf
