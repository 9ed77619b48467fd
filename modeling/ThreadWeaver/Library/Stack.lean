import Mathlib.Data.List.Basic
import Mathlib.Tactic.Common

/-!
# What lies under the entries of a stack

`Stacked R` holds of a stack if every entry of it lies on entries that `R` allows under it.
A step that replaces the entries at the top by others keeps it if the new ones lie on what
`R` allows, whatever happens further down.
-/

namespace Library

variable {O A : Type*} {R R' : O → List O → Prop} {op : O} {ops rest stack : List O}

/-- Every entry lies on what `R` allows under it. -/
def Stacked (R : O → List O → Prop) : List O → Prop
  | [] => True
  | op :: rest => R op rest ∧ Stacked R rest

namespace Stacked

theorem of_mem (h : Stacked R stack) (hop : op ∈ stack) :
    ∃ ops rest, stack = ops ++ op :: rest ∧ R op rest := by
  induction stack with
  | nil => cases hop
  | cons top stack ih =>
      rcases List.mem_cons.mp hop with rfl | hop
      · exact ⟨[], stack, rfl, h.1⟩
      · obtain ⟨ops, rest, hsplit, hfits⟩ := ih h.2 hop
        exact ⟨top :: ops, rest, by rw [hsplit, List.cons_append], hfits⟩

theorem of_append (h : Stacked R (ops ++ rest)) : Stacked R rest := by
  induction ops with
  | nil => exact h
  | cons top ops ih => exact ih h.2

/-- Entries that may lie on anything above `rest`. -/
theorem append (h : ∀ op ∈ ops, ∀ above, R op (above ++ rest)) (hrest : Stacked R rest) :
    Stacked R (ops ++ rest) := by
  induction ops with
  | nil => exact hrest
  | cons top ops ih =>
      refine ⟨h top List.mem_cons_self _, ?_⟩
      exact ih fun other hmem => h other (List.mem_cons_of_mem _ hmem)

theorem of_forall_mem (h : ∀ op ∈ stack, ∀ rest, R op rest) : Stacked R stack := by
  have hstack : Stacked R (stack ++ []) := append (fun op hop above => h op hop _) trivial
  rwa [List.append_nil] at hstack

theorem map_append {f : A → O} {items : List A}
    (h : ∀ item ∈ items, ∀ above, R (f item) (above ++ rest)) (hrest : Stacked R rest) :
    Stacked R (items.map f ++ rest) := by
  refine append (fun op hop => ?_) hrest
  obtain ⟨item, hitem, rfl⟩ := List.mem_map.mp hop
  exact h item hitem

/-- The turns of a loop, each of which lies on turns of the same loop. -/
theorem map_append_map {f : A → O} {items : List A}
    (h : ∀ item ∈ items, ∀ others : List A, R (f item) (others.map f ++ rest))
    (hrest : Stacked R rest) : Stacked R (items.map f ++ rest) := by
  induction items with
  | nil => exact hrest
  | cons first items ih =>
      refine ⟨h first List.mem_cons_self items, ih fun item hitem others => ?_⟩
      exact h item (List.mem_cons_of_mem _ hitem) others

theorem mono_of_mem (h : ∀ op ∈ stack, ∀ rest, R op rest → R' op rest)
    (hstack : Stacked R stack) : Stacked R' stack := by
  induction stack with
  | nil => trivial
  | cons top stack ih =>
      refine ⟨h top List.mem_cons_self _ hstack.1, ih ?_ hstack.2⟩
      exact fun op hop => h op (List.mem_cons_of_mem _ hop)

theorem mono (h : ∀ op rest, R op rest → R' op rest) (hstack : Stacked R stack) :
    Stacked R' stack :=
  mono_of_mem (fun op _ => h op) hstack

end Stacked

end Library
