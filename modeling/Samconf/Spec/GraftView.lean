/-
# Merging seen through paths

A merge treats every path on its own: where the merged configuration has no node the
setting stays, and where it has one the node goes over the setting or becomes it. So
to whoever looks at settings a configuration that is merged is a map from paths to
nodes.
-/

import Samconf.Foundation.GraftView
import Samconf.Spec.Graft

namespace Samconf

open Foundation
open NodeData (grafting lawful_grafting)
open Config (settingWriter)

/-- The label of the node that a merge writes at the segments. -/
def Config.nodeAt (config : Config) (segments : List CString) : Option NodeData :=
  RoseTree.view NodeData.key id config.body segments

theorem shows_setting : grafting.Shows NodeData.setting settingWriter.update where
  bump _ := rfl
  write l d := Config.setting_overwrite l d

theorem entryAfter_eq (l : NodeData) (b : Option Setting) :
    grafting.entryAfter NodeData.setting settingWriter.update l b = settingWriter.result l b := by
  cases b <;> rfl

namespace Config

variable {config c : Config}

theorem setting_signedBy (config : Config) (b : Bool) (k : CString) (ks : List CString) :
    setting (config.signedBy b) (k :: ks) = config.setting (k :: ks) :=
  RoseTree.view_relabel _ config k ks

/-- Siblings of what is merged have different keys. -/
theorem Mergeable.distinct_body (h : c.Mergeable) : grafting.Distinct c.body := by
  have hdistinct : grafting.Distinct c := h.distinct
  rw [body]
  split
  · refine RoseTree.everywhere_node.mpr ⟨?_, fun d hd => ?_⟩
    · split <;> simp
    · split at hd
      · cases hd
      · obtain rfl := List.mem_singleton.mp hd
        exact RoseTree.everywhere_node.mpr ⟨hdistinct.self, fun e he => hdistinct.child he⟩
  · exact hdistinct

/-- **A merge treats every path on its own.** -/
theorem Mergeable.setting_grafted (h : c.Mergeable) (config : Config) (k : CString)
    (ks : List CString) :
    setting (config.grafted c) (k :: ks) =
      (c.nodeAt (k :: ks)).elim (config.setting (k :: ks)) fun d =>
        some (settingWriter.result d (config.setting (k :: ks))) := by
  have hview := lawful_grafting.toKeepsKeys.view_graft shows_setting h.distinct_body config k ks
  simp only [Grafting.combine, entryAfter_eq] at hview
  exact hview

theorem Mergeable.setting_stepByPath (h : c.Mergeable)
    (hrule : followsMergeRule config c = true) (k : CString) (ks : List CString) :
    setting (config.stepByPath c) (k :: ks) = setting (config.grafted c) (k :: ks) := by
  rw [stepByPath_eq_grafted config h, if_pos hrule, setting_signedBy]

end Config

end Samconf
