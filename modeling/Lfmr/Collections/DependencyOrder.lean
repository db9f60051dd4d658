import Mathlib.Logic.Relation
import Mathlib.Data.List.Nodup

/-!
# Dependencies first

A list in which each element comes once, after everything it depends on. What such a list holds is closed under
dependencies, and nothing in it depends on itself.
-/

namespace Lfmr.Collections.DependencyOrder

variable {α : Type} {next : α → List α} {order : List α} {v w : α}

def DependsOn (next : α → List α) (v w : α) : Prop := w ∈ next v

def OnCycle (next : α → List α) (v : α) : Prop := Relation.TransGen (DependsOn next) v v

inductive Ordered (next : α → List α) : List α → Prop
  | nil : Ordered next []
  | snoc {order : List α} {v : α} (hordered : Ordered next order) (hnew : v ∉ order) (hnext : ∀ w ∈ next v, w ∈ order) :
      Ordered next (order ++ [v])

section

variable (hordered : Ordered next order)
include hordered

theorem Ordered.mem_before : ∀ before after, order = before ++ v :: after → ∀ w ∈ next v, w ∈ before := by
  induction hordered with
  | nil =>
    intro before after horder
    simp at horder
  | @snoc order u _ _ hnext ih =>
    intro before after horder
    rcases List.eq_nil_or_concat after with rfl | ⟨after, last, rfl⟩
    · obtain ⟨rfl, rfl⟩ := List.append_inj' horder rfl |>.imp_right (List.cons.inj · |>.1)
      exact hnext
    · have hparts : order ++ [u] = (before ++ v :: after) ++ [last] := by simpa using horder
      exact ih before after (List.append_inj' hparts rfl).1

theorem Ordered.mem_of_dependsOn (hv : v ∈ order) (hdepends : DependsOn next v w) : w ∈ order := by
  obtain ⟨before, after, rfl⟩ := List.append_of_mem hv
  exact List.mem_append_left _ (hordered.mem_before before after rfl w hdepends)

theorem Ordered.mem_of_reaches (hv : v ∈ order)
    (hreaches : Relation.ReflTransGen (DependsOn next) v w) : w ∈ order := by
  induction hreaches with
  | refl => exact hv
  | tail _ hdepends ih => exact hordered.mem_of_dependsOn ih hdepends

theorem Ordered.not_onCycle (hv : v ∈ order) : ¬ OnCycle next v := by
  induction hordered with
  | nil => exact absurd hv List.not_mem_nil
  | @snoc order u hordered hnew hnext ih =>
    rcases List.mem_append.mp hv with hv | hv
    · exact ih hv
    · intro hcycle
      obtain rfl := List.mem_singleton.mp hv
      obtain ⟨w, hdepends, hback⟩ := Relation.TransGen.head'_iff.mp hcycle
      exact hnew (hordered.mem_of_reaches (hnext w hdepends) hback)

end

end Lfmr.Collections.DependencyOrder
