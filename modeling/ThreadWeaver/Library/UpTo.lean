import Mathlib.Data.List.Basic
import Mathlib.Tactic.Common

/-!
# Up to the first failure

`upToFirst p l` is what is left of a list of tasks when they are done one after the other and
nothing is done after the first task for which `p` fails.  Where the tasks that have been done are
known from the state of each task, `filter_of_split` reads the list off, and `countP_of_getElem?`
its length.
-/

namespace Library

variable {α : Type*} {p done : α → Bool} {l before after : List α} {x : α}

/-- The entries up to and including the first one that does not satisfy `p`. -/
def upToFirst (p : α → Bool) : List α → List α
  | [] => []
  | x :: rest => x :: if p x then upToFirst p rest else []

theorem upToFirst_of_forall (h : ∀ y ∈ l, p y = true) : upToFirst p l = l := by
  induction l with
  | nil => rfl
  | cons y rest ih =>
      obtain ⟨hy, hrest⟩ := List.forall_mem_cons.mp h
      rw [upToFirst, if_pos hy, ih hrest]

theorem upToFirst_append (h : ∀ y ∈ before, p y = true) (hx : p x = false) :
    upToFirst p (before ++ x :: after) = before ++ [x] := by
  induction before with
  | nil => simp [upToFirst, hx]
  | cons y rest ih =>
      obtain ⟨hy, hrest⟩ := List.forall_mem_cons.mp h
      rw [List.cons_append, upToFirst, if_pos hy, ih hrest, List.cons_append]

/-- The first entry that does not satisfy `p`. -/
theorem find?_append_not (h : ∀ y ∈ before, p y = true) (hx : p x = false) :
    (before ++ x :: after).find? (fun y => !p y) = some x := by
  rw [List.find?_append, List.find?_eq_none.mpr (by simpa using h)]
  simp [hx]

theorem mem_upToFirst_of_find? (h : l.find? (fun y => !p y) = some x) : x ∈ upToFirst p l := by
  induction l with
  | nil => cases h
  | cons y rest ih =>
      rw [upToFirst]
      by_cases hy : p y = true
      · rw [List.find?_cons_of_neg (by simpa using hy)] at h
        rw [if_pos hy]
        exact List.mem_cons_of_mem _ (ih h)
      · rw [List.find?_cons_of_pos (by simpa using hy)] at h
        cases h
        exact List.mem_cons_self

/-- What has been done, when that is everything up to some entry. -/
theorem filter_of_split (hbefore : ∀ y ∈ before, done y = true)
    (hafter : ∀ y ∈ after, done y = false) :
    (before ++ x :: after).filter done = before ++ if done x then [x] else [] := by
  rw [List.filter_append, List.filter_eq_self.mpr hbefore, List.filter_cons,
    List.filter_eq_nil_iff.mpr (by simpa using hafter)]

/-- The number of entries that have been done, when these are the first ones. -/
theorem countP_of_getElem? {k : ℕ} (hk : k ≤ l.length)
    (h : ∀ i x, l[i]? = some x → (done x = true ↔ i < k)) : l.countP done = k := by
  induction l generalizing k with
  | nil => exact (Nat.le_zero.mp hk).symm
  | cons y rest ih =>
      have hfirst := h 0 y rfl
      cases k with
      | zero =>
          refine List.countP_eq_zero.mpr fun x hmem hx => ?_
          obtain ⟨i, hi⟩ := List.mem_iff_getElem?.mp hmem
          exact absurd ((h i x hi).mp hx) (Nat.not_lt_zero i)
      | succ k =>
          rw [List.countP_cons_of_pos (hfirst.mpr k.succ_pos)]
          have hrest := ih (Nat.le_of_succ_le_succ hk) fun i x hget =>
            (h (i + 1) x hget).trans Nat.succ_lt_succ_iff
          rw [hrest]

/-- Where everything before an entry that has been begun has been done, what has been begun is a
prefix of the list. -/
theorem filter_prefix {begun : α → Bool}
    (h : l.Pairwise fun y x => begun x = true → begun y = true) : l.filter begun <+: l := by
  induction l with
  | nil => exact List.prefix_rfl
  | cons y rest ih =>
      obtain ⟨hy, hrest⟩ := List.pairwise_cons.mp h
      by_cases hbegun : begun y = true
      · rw [List.filter_cons_of_pos hbegun]
        exact List.cons_prefix_cons.mpr ⟨rfl, ih hrest⟩
      · have hnone : rest.filter begun = [] :=
          List.filter_eq_nil_iff.mpr fun x hmem hx => hbegun (hy x hmem hx)
        rw [List.filter_cons_of_neg hbegun, hnone]
        exact List.nil_prefix

end Library
