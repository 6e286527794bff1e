/-
# What creating an option at a path computes

The `samconfCreate*At` functions make a node under the last segment of a path and
hang it into the tree. Where something is already, nothing changes; so as a write
to the map of settings, a creation is one that never goes over an entry.
-/

import Samconf.Model.FromString
import Samconf.Foundation.Overlay
import Samconf.Spec.Copy
import Samconf.Spec.Insert

namespace Samconf

open Foundation
open Exec (Yields Ensures Avoids)
open RoseTree (relabel)

/-- The label of a new option. -/
def optionData (path : CString) (type : ConfigValueType) (value : Value) : NodeData :=
  { NodeData.init with key := some (basename path), type := type, value := value }

/-- The status and the tree after creating an option. A path without segments is
an error. -/
def Config.created (root : Config) (path : CString) (type : ConfigValueType) (value : Value) :
    ConfigStatus × Config :=
  if pathSegments path = [] then (.error, root)
  else (.ok, Config.grow (.node (optionData path type value) []) root (pathSegments path))

/-- The base name of a path is its last segment. -/
theorem getLast?_pathSegments {path : CString} (h : pathSegments path ≠ []) :
    (pathSegments path).getLast? = some (basename path) := by
  have hlast := getLast?_segments h
  have hpath : path ≠ [] := by
    rintro rfl
    exact h segments_nil
  have hstripped : (path.reverse.dropWhile fun c => decide (c = '/')) ≠ [] := by
    intro hempty
    rw [hempty] at hlast
    have hmem := List.mem_of_getLast? hlast
    exact (isSegment_of_mem_segments hmem).1 rfl
  rw [basename]
  simp only [if_neg hpath, if_neg hstripped]
  exact hlast

section Create

variable {root : Config} {set : Config → Run (ConfigStatus × Config)} {type : ConfigValueType}
  {value : Value}

theorem createAt_yields (path : CString) (hsound : root.Sound)
    (hset : (set (.node { NodeData.init with key := some (basename path) } [])).Yields
      (.ok, .node (optionData path type value) [])) :
    (createAt set root path).Yields (root.created path type value) := by
  rw [createAt]
  apply samconfConfigNew_yields.bind
  apply (Exec.yields_allocFor path).bind
  apply (Exec.yields_allocFor (basename path)).bind
  apply hset.bind
  simp only [if_true]
  rw [Config.created]
  by_cases hempty : pathSegments path = []
  · rw [if_pos hempty, samconfInsertAt]
    apply (samconfPathCreateArray_yields path).bind
    simpa [hempty] using Exec.yields_pure _
  · rw [if_neg hempty]
    exact samconfInsertAt_yields path _ hsound hempty

theorem samconfCreateIntAt_yields (path : CString) (value : Int64) (hsound : root.Sound) :
    (samconfCreateIntAt root path value).Yields (root.created path .int (.integer value)) :=
  createAt_yields path hsound (setValue_yields (Value.fits_zero _))

theorem samconfCreateRealAt_yields (path : CString) (value : Double) (hsound : root.Sound) :
    (samconfCreateRealAt root path value).Yields (root.created path .real (.real value)) :=
  createAt_yields path hsound (setValue_yields (Value.fits_zero _))

theorem samconfCreateBoolAt_yields (path : CString) (value : Bool) (hsound : root.Sound) :
    (samconfCreateBoolAt root path value).Yields (root.created path .boolean (.boolean value)) :=
  createAt_yields path hsound (setValue_yields (Value.fits_zero _))

theorem samconfCreateStringAt_yields (path : CString) (value : CString) (hsound : root.Sound) :
    (samconfCreateStringAt root path (some value)).Yields
      (root.created path .string (.string (some value))) := by
  rw [samconfCreateStringAt]
  exact createAt_yields path hsound (samconfConfigSetString_yields value (Value.fits_zero _))

/-- Where the path names a node, the tree stays as it is, whichever allocations
fail. -/
theorem createAt_ensures_of_resolves {path : CString} {p : List ℕ} (hsound : root.Sound)
    (hfound : root.resolve (pathSegments path) = some p) :
    (createAt set root path).Ensures fun r => r.2 = root := by
  rw [createAt]
  apply samconfConfigNew_ensures.bind
  rintro created (rfl | rfl)
  · exact Exec.ensures_pure rfl
  · apply (Exec.ensures_allocFor path).bind
    rintro copyPath (rfl | rfl)
    · exact Exec.ensures_pure rfl
    · apply (Exec.ensures_allocFor (basename path)).bind
      rintro key (rfl | rfl)
      · exact Exec.ensures_pure rfl
      · apply (Exec.ensures_true _).bind
        intro written _
        simp only
        split
        · exact samconfInsertAt_ensures_of_resolves written.2 hsound hfound
        · exact Exec.ensures_pure rfl

end Create

/-! ## Values from text -/

/-- The type and the value that a text stands for. -/
def typedValue (strtod : CString → Double × CString) (value : CString) :
    ConfigValueType × Value :=
  if sameIgnoringCase value "true".toList then (.boolean, .boolean true)
  else if sameIgnoringCase value "false".toList then (.boolean, .boolean false)
  else if (strtoll value).2 = [] then (.int, .integer (strtoll value).1)
  else if (strtod value).2 = [] then (.real, .real (strtod value).1)
  else (.string, .string (some value))

/-- The conversion of texts that begin with no number. -/
def noNumber : CString → Double × CString := fun s => (⟨0⟩, s)

variable (strtod : CString → Double × CString)

theorem samconfConfigSetValueFromString_yields (config : Config) (value : CString) :
    (samconfConfigSetValueFromString strtod config (some value)).Yields
      (.ok, relabel (fun d => { d with
        type := (typedValue strtod value).1, value := (typedValue strtod value).2 }) config) := by
  rw [samconfConfigSetValueFromString, typedValue]
  split
  · exact Exec.yields_pure _
  · split
    · exact Exec.yields_pure _
    · split
      · exact Exec.yields_pure _
      · split
        · exact Exec.yields_pure _
        · apply (Exec.yields_allocFor value).bind
          exact Exec.yields_pure _

theorem isScalar_typedValue (value : CString) : (typedValue strtod value).1.IsScalar := by
  rw [typedValue]
  repeat' split
  all_goals simp [ConfigValueType.IsScalar]

theorem fits_typedValue (value : CString) :
    (typedValue strtod value).2.Fits (typedValue strtod value).1 := by
  rw [typedValue]
  repeat' split
  all_goals trivial

theorem samconfCreateFromStringAt_yields {root : Config} (path value : CString)
    (hsound : root.Sound) :
    (samconfCreateFromStringAt strtod root path (some value)).Yields
      (root.created path (typedValue strtod value).1 (typedValue strtod value).2) := by
  rw [samconfCreateFromStringAt]
  exact createAt_yields path hsound (samconfConfigSetValueFromString_yields strtod _ value)

/-! ## A creation as a write -/

namespace Config

/-- How new options are written to a map of settings: what is there stays. -/
def createWriter : Writer CString NodeData Setting where
  update _ b := b
  fresh d := d.setting
  blank k := (NodeData.blank k).setting

variable {root : Config} {segments : List CString} {d : NodeData}

/-- **Growing is one write** that goes over nothing. -/
theorem setting_grow (hkey : d.key = segments.getLast?) :
    setting (Config.grow (.node d []) root segments) =
      createWriter.put root.setting (segments, d) := by
  funext ls
  have hview := RoseTree.view_grow (π := NodeData.setting) NodeData.key_bump NodeData.key_blank
    NodeData.setting_bump (.node d []) root rfl (fun k hk => hkey.trans hk) ls
  rw [setting, Config.grow, hview, Writer.put]
  by_cases heq : ls = segments
  · subst heq
    simp only [if_true]
    cases hb : root.setting ls with
    | none =>
        have hnone : RoseTree.view NodeData.key NodeData.setting root ls = none := hb
        rw [hnone]
        rfl
    | some b =>
        have hsome : RoseTree.view NodeData.key NodeData.setting root ls = some b := hb
        rw [hsome]
        rfl
  · rw [if_neg heq, if_neg heq]
    rfl

/-- Growing keeps a tree sound. -/
theorem Sound.grow (h : root.Sound) (hkey : d.key = segments.getLast?)
    (hcount : d.childCount = 0) : Sound (Config.grow (.node d []) root segments) where
  counted := RoseTree.Everywhere.grow NodeData.key_bump NodeData.key_blank
    (fun k hk => hkey.trans hk) (fun l cs k _ hl _ => by simp [NodeData.bump, hl])
    (fun k _ => rfl) (RoseTree.everywhere_node.mpr ⟨hcount, by simp⟩) h.counted
  keyed := RoseTree.Everywhere.grow NodeData.key_bump NodeData.key_blank
    (fun k hk => hkey.trans hk) (fun l cs k _ hl _ => by simpa using hl)
    (fun k _ => by simp) (RoseTree.everywhere_node.mpr ⟨by simp, by simp⟩) h.keyed

/-- Growing keeps siblings distinct. -/
theorem Distinct.grow (h : root.Distinct) (hkey : d.key = segments.getLast?) :
    Distinct (Config.grow (.node d []) root segments) :=
  RoseTree.Everywhere.grow NodeData.key_bump NodeData.key_blank (fun k hk => hkey.trans hk)
    (fun l keys k _ hkeys hnew => List.nodup_append.mpr ⟨hkeys, by simp, fun a ha b hb => by
      rintro rfl
      simp_all⟩)
    (fun k _ => List.nodup_nil) (RoseTree.everywhere_node.mpr ⟨by simp, by simp⟩) h

end Config

end Samconf
