/-
# Drawings of trees

The usual drawing of a tree has a line for every node, a node before its children. A line
begins with a column for each ancestor, where a bar runs down to the siblings that follow
it or nothing does, then branches off to the node and ends with its label. A drawing says
what was drawn, and its bars hold together: what goes down from a line comes down to the
next, and the other way round except for the branch to a first child.
-/

import Mathlib.Data.List.Chain
import Samconf.Foundation.RoseTree

namespace Foundation

/-- A line of a drawing: whether each ancestor was the last of its siblings, whether the
node is, and its label. -/
structure Line (α : Type) where
  levels : List Bool
  last : Bool
  label : α

namespace RoseTree

variable {α : Type}

mutual

/-- The lines of a node and of everything below it. -/
def draw : RoseTree α → List Bool → Bool → List (Line α)
  | node l cs, levels, last => ⟨levels, last, l⟩ :: drawAll cs (levels ++ [last])

/-- The lines of siblings. -/
def drawAll : List (RoseTree α) → List Bool → List (Line α)
  | [], _ => []
  | c :: cs, levels => draw c levels cs.isEmpty ++ drawAll cs levels

end

variable {t u : RoseTree α} {cs ds : List (RoseTree α)} {levels : List Bool} {last last' : Bool}
  {rest rest' : List (Line α)}

theorem head?_draw (t : RoseTree α) (levels : List Bool) (last : Bool) :
    (t.draw levels last).head? = some ⟨levels, last, t.label⟩ := by
  cases t
  rfl

theorem draw_ne_nil (t : RoseTree α) (levels : List Bool) (last : Bool) :
    t.draw levels last ≠ [] := by
  cases t
  exact List.cons_ne_nil _ _

theorem levels_of_head?_drawAll {line : Line α} (h : line ∈ (drawAll cs levels).head?) :
    line.levels = levels := by
  cases cs with
  | nil => cases h
  | cons c cs =>
      rw [drawAll, List.head?_append, head?_draw, Option.some_or, Option.mem_some_iff] at h
      exact h ▸ rfl

theorem forall_mem_drawAll {P : α → Prop}
    (h : ∀ c ∈ cs, ∀ (levels : List Bool) (last : Bool), ∀ line ∈ c.draw levels last,
      P line.label) (levels : List Bool) : ∀ line ∈ drawAll cs levels, P line.label := by
  induction cs with
  | nil => exact fun line hline => by cases hline
  | cons c cs ih =>
      intro line hline
      rcases List.mem_append.mp hline with hline | hline
      · exact h c List.mem_cons_self levels _ line hline
      · exact ih (fun d hd => h d (List.mem_cons_of_mem _ hd)) line hline

/-- The labels of the lines are those of the nodes. -/
theorem forall_mem_draw {P : α → Prop} (h : t.Everywhere (fun _ => ()) fun l _ => P l)
    (levels : List Bool) (last : Bool) : ∀ line ∈ t.draw levels last, P line.label := by
  induction t generalizing levels last with
  | node l cs ih =>
      obtain ⟨hself, hbelow⟩ := everywhere_node.mp h
      intro line hline
      rcases List.mem_cons.mp hline with rfl | hline
      · exact hself
      · exact forall_mem_drawAll (fun c hc => ih c hc (hbelow c hc)) _ line hline

/-! ## What a drawing says -/

/-- What follows does not begin below a level. -/
def Leaves (n : ℕ) (lines : List (Line α)) : Prop := ∀ line ∈ lines.head?, line.levels.length < n

/-- The siblings are those whose lines come first. -/
theorem drawAll_append_inj
    (hdraw : ∀ c ∈ cs, ∀ {u : RoseTree α} {levels : List Bool} {last last' : Bool}
      {rest rest' : List (Line α)}, Leaves (levels.length + 1) rest →
      Leaves (levels.length + 1) rest' →
      c.draw levels last ++ rest = u.draw levels last' ++ rest' → c = u ∧ rest = rest')
    (hrest : Leaves levels.length rest) (hrest' : Leaves levels.length rest')
    (h : drawAll cs levels ++ rest = drawAll ds levels ++ rest') : cs = ds ∧ rest = rest' := by
  have hnext {es : List (RoseTree α)} {more : List (Line α)} (hmore : Leaves levels.length more) :
      Leaves (levels.length + 1) (drawAll es levels ++ more) := by
    intro line hline
    rw [List.head?_append] at hline
    cases hhead : (drawAll es levels).head? with
    | none =>
        rw [hhead, Option.none_or] at hline
        exact Nat.lt_succ_of_lt (hmore line hline)
    | some first =>
        rw [hhead, Option.some_or, Option.mem_some_iff] at hline
        rw [← hline, levels_of_head?_drawAll hhead]
        exact Nat.lt_succ_self _
  have hends {e : RoseTree α} {es : List (RoseTree α)} {more more' : List (Line α)}
      (hmore : Leaves levels.length more) (heq : more = drawAll (e :: es) levels ++ more') :
      False := by
    have hfirst : (⟨levels, es.isEmpty, e.label⟩ : Line α) ∈ more.head? := by
      rw [heq, drawAll, List.append_assoc, List.head?_append, head?_draw]
      rfl
    exact Nat.lt_irrefl _ (hmore _ hfirst)
  induction cs generalizing ds with
  | nil =>
      cases ds with
      | nil => exact ⟨rfl, h⟩
      | cons d ds => exact (hends hrest h).elim
  | cons c cs ih =>
      cases ds with
      | nil => exact (hends hrest' h.symm).elim
      | cons d ds =>
          rw [drawAll, drawAll, List.append_assoc, List.append_assoc] at h
          obtain ⟨rfl, hrests⟩ := hdraw c List.mem_cons_self (hnext hrest) (hnext hrest') h
          obtain ⟨rfl, hlast⟩ := ih (fun c hc => hdraw c (List.mem_cons_of_mem _ hc)) hrests
          exact ⟨rfl, hlast⟩

/-- The node is the one whose lines come first. -/
theorem draw_append_inj (hrest : Leaves (levels.length + 1) rest)
    (hrest' : Leaves (levels.length + 1) rest')
    (h : t.draw levels last ++ rest = u.draw levels last' ++ rest') : t = u ∧ rest = rest' := by
  induction t generalizing u levels last last' rest rest' with
  | node l cs ih =>
      cases u with
      | node l' ds =>
          rw [draw, draw, List.cons_append, List.cons_append, List.cons.injEq, Line.mk.injEq] at h
          obtain ⟨⟨-, rfl, rfl⟩, htail⟩ := h
          have hlength : levels.length + 1 = (levels ++ [last]).length := by simp
          obtain ⟨rfl, hlast⟩ := drawAll_append_inj (fun c hc => ih c hc) (hlength ▸ hrest)
            (hlength ▸ hrest') htail
          exact ⟨rfl, hlast⟩

/-- **A drawing says what was drawn.** -/
theorem drawAll_inj : drawAll cs levels = drawAll ds levels ↔ cs = ds := by
  refine ⟨fun h => ?_, fun h => h ▸ rfl⟩
  have hnone {n : ℕ} : Leaves n ([] : List (Line α)) := by simp [Leaves]
  have hlines : drawAll cs levels ++ [] = drawAll ds levels ++ [] := by
    rw [List.append_nil, List.append_nil, h]
  exact (drawAll_append_inj (fun c _ => draw_append_inj) hnone hnone hlines).1

end RoseTree

/-! ## How the bars hold together -/

namespace Line

variable {α : Type}

/-- Something goes down from the line in a column: a bar, or the branch of a node with
siblings to come. -/
def GoesDown (line : Line α) (column : ℕ) : Prop :=
  (line.levels ++ [line.last])[column]? = some false

/-- Something comes down to the line in a column: a bar, or the branch of the node. -/
def ComesDown (line : Line α) (column : ℕ) : Prop :=
  line.levels[column]? = some false ∨ column = line.levels.length

/-- What goes down from a line comes down to the next, and what comes down there went down
from it or is the branch below its label. -/
def Joined (above below : Line α) : Prop :=
  ∀ column, (above.GoesDown column → below.ComesDown column) ∧
    (below.ComesDown column → above.GoesDown column ∨ column = above.levels.length + 1)

end Line

namespace RoseTree

variable {α : Type}

/-- Lines that hold together, of which the last has nothing below it but what goes down in
the columns of the levels. -/
structure Holding (levels : List Bool) (lines : List (Line α)) : Prop where
  joined : lines.IsChain Line.Joined
  closed : ∀ line ∈ lines.getLast?, ∀ column,
    line.GoesDown column ↔ levels[column]? = some false

/-- What comes down to a node is what goes down from one with siblings to come. -/
theorem comesDown_iff {line : Line α} (column : ℕ) :
    line.ComesDown column ↔ (line.levels ++ [false])[column]? = some false := by
  rw [Line.ComesDown, List.getElem?_append]
  generalize line.levels = levels
  by_cases hlt : column < levels.length
  · simp [hlt, Nat.ne_of_lt hlt]
  · by_cases heq : column = levels.length
    · simp [heq]
    · have hgt : column - levels.length ≠ 0 := by omega
      simp [hlt, heq, hgt]

/-- The last of some siblings has nothing in its own column. -/
theorem goesDown_last {levels : List Bool} (column : ℕ) :
    (levels ++ [true])[column]? = some false ↔ levels[column]? = some false := by
  rw [List.getElem?_append]
  by_cases hlt : column < levels.length
  · simp [hlt]
  · by_cases heq : column = levels.length
    · simp [heq]
    · have hgt : column - levels.length ≠ 0 := by omega
      simp [hlt, hgt]

theorem Holding.drawAll {cs : List (RoseTree α)} {levels : List Bool}
    (hdraw : ∀ c ∈ cs, ∀ (levels : List Bool) (last : Bool),
      Holding (levels ++ [last]) (c.draw levels last)) : Holding levels (drawAll cs levels) := by
  induction cs with
  | nil => exact ⟨List.IsChain.nil, by simp [RoseTree.drawAll]⟩
  | cons c cs ih =>
      have hfirst := hdraw c List.mem_cons_self levels cs.isEmpty
      have hrest := ih fun d hd => hdraw d (List.mem_cons_of_mem c hd)
      rw [RoseTree.drawAll]
      cases cs with
      | nil =>
          rw [RoseTree.drawAll, List.append_nil]
          exact ⟨hfirst.joined, fun line hline column =>
            (hfirst.closed line hline column).trans (goesDown_last column)⟩
      | cons d ds =>
          refine ⟨List.isChain_append.mpr ⟨hfirst.joined, hrest.joined, ?_⟩, ?_⟩
          · -- the branch of the first one goes down to that of the second
            intro above habove below hbelow column
            have hdown := hfirst.closed above habove column
            rw [comesDown_iff, levels_of_head?_drawAll hbelow]
            exact ⟨hdown.mp, fun hcomes => .inl (hdown.mpr hcomes)⟩
          · intro line hline
            refine hrest.closed line ?_
            rw [List.getLast?_append] at hline
            have hsome : (RoseTree.drawAll (d :: ds) levels).getLast? ≠ none := by
              simp [RoseTree.drawAll, List.getLast?_eq_none_iff, draw_ne_nil]
            obtain ⟨z, hz⟩ := Option.ne_none_iff_exists'.mp hsome
            rwa [hz, Option.some_or, ← hz] at hline

/-- **A drawing holds together.** -/
theorem holding_draw (t : RoseTree α) (levels : List Bool) (last : Bool) :
    Holding (levels ++ [last]) (t.draw levels last) := by
  induction t generalizing levels last with
  | node l cs ih =>
      have hbelow := @Holding.drawAll α cs (levels ++ [last]) ih
      rw [draw]
      cases cs with
      | nil =>
          refine ⟨List.IsChain.singleton _, fun line hline column => ?_⟩
          obtain rfl : ⟨levels, last, l⟩ = line := Option.some.inj hline
          exact Iff.rfl
      | cons c cs =>
          refine ⟨List.isChain_cons.mpr ⟨fun below hhead column => ?_, hbelow.joined⟩, ?_⟩
          · -- the branch to a first child begins below the label
            have hlevels := levels_of_head?_drawAll hhead
            rw [Line.ComesDown, hlevels, Line.GoesDown, List.length_append, List.length_singleton]
            exact ⟨.inl, id⟩
          · intro line hline
            refine hbelow.closed line ?_
            have hne : drawAll (c :: cs) (levels ++ [last]) ≠ [] := by
              simp [drawAll, draw_ne_nil]
            rwa [List.getLast?_cons_of_ne_nil hne] at hline

theorem holding_drawAll (cs : List (RoseTree α)) (levels : List Bool) :
    Holding levels (drawAll cs levels) :=
  .drawAll fun c _ => holding_draw c

end RoseTree

end Foundation

