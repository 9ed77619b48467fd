import Mathlib.Algebra.BigOperators.Finprod
import Mathlib.Algebra.Order.BigOperators.Group.Finset
import Mathlib.Data.Set.Card

/-!
# Work that is left

A measure of what is left to be done proves that it will be done: it never grows, and it shrinks
with every step that counts.  The measure of a system is the sum of those of its parts, of which a
step changes a few.
-/

namespace Library

variable {A : Type*}

theorem sum_add_le {s : Finset A} {f g : A → ℕ} {a : A} {paid : ℕ} (ha : a ∈ s)
    (hle : ∀ b ∈ s, f b ≤ g b) (hpaid : f a + paid ≤ g a) :
    ∑ b ∈ s, f b + paid ≤ ∑ b ∈ s, g b := by
  classical
  have hrest : ∑ b ∈ s.erase a, f b ≤ ∑ b ∈ s.erase a, g b :=
    Finset.sum_le_sum fun b hb => hle b (Finset.mem_of_mem_erase hb)
  have hf := Finset.add_sum_erase s f ha
  have hg := Finset.add_sum_erase s g ha
  omega

/-- What a finite sum becomes when one part is replaced. -/
theorem finsum_update_add [DecidableEq A] {f : A → ℕ} (hf : (Function.support f).Finite) (a : A)
    (n : ℕ) : finsum (Function.update f a n) + f a = finsum f + n := by
  have hsub : Function.support f ⊆ ↑(insert a hf.toFinset) := by
    intro b hb
    exact Finset.mem_coe.mpr (Finset.mem_insert_of_mem (hf.mem_toFinset.mpr hb))
  have hsub' : Function.support (Function.update f a n) ⊆ ↑(insert a hf.toFinset) := by
    intro b hb
    by_cases heq : b = a
    · rw [heq]
      exact Finset.mem_coe.mpr (Finset.mem_insert_self a _)
    · rw [Function.mem_support, Function.update_of_ne heq] at hb
      exact hsub hb
  rw [finsum_eq_sum_of_support_subset _ hsub, finsum_eq_sum_of_support_subset _ hsub',
    ← Finset.add_sum_erase _ _ (Finset.mem_insert_self a hf.toFinset),
    ← Finset.add_sum_erase _ f (Finset.mem_insert_self a hf.toFinset), Function.update_self]
  have hrest : ∑ b ∈ (insert a hf.toFinset).erase a, Function.update f a n b =
      ∑ b ∈ (insert a hf.toFinset).erase a, f b :=
    Finset.sum_congr rfl fun b hb => Function.update_of_ne (Finset.ne_of_mem_erase hb) _ _
  rw [hrest]
  omega

/-- **Work rule.**  Where what is left never grows and shrinks with every step that counts, no more
steps count than there was left at the beginning. -/
theorem ncard_le_of_work (work : ℕ → ℕ) {counts : Set ℕ} (hle : ∀ i, work (i + 1) ≤ work i)
    (hlt : ∀ i ∈ counts, work (i + 1) < work i) : counts.Finite ∧ counts.ncard ≤ work 0 := by
  classical
  have hspent : ∀ n, ((Finset.range n).filter (· ∈ counts)).card + work n ≤ work 0 := by
    intro n
    induction n with
    | zero => simp
    | succ n ih =>
        have hstep := hle n
        rw [Finset.range_add_one, Finset.filter_insert]
        split
        · rename_i hcounts
          have hdrop := hlt n hcounts
          have hcard := Finset.card_insert_le n ((Finset.range n).filter (· ∈ counts))
          omega
        · omega
  have hbound : ∀ part : Finset ℕ, ↑part ⊆ counts → part.card ≤ work 0 := by
    intro part hpart
    have hsub : part ⊆ (Finset.range (part.sup id + 1)).filter (· ∈ counts) := by
      intro i hi
      have hsup : i ≤ part.sup id := Finset.le_sup (f := id) hi
      exact Finset.mem_filter.mpr ⟨Finset.mem_range.mpr (by omega), hpart hi⟩
    have hcard := Finset.card_le_card hsub
    have := hspent (part.sup id + 1)
    omega
  have hfinite : counts.Finite := by
    by_contra hinfinite
    obtain ⟨part, hpart, hcard⟩ := Set.Infinite.exists_subset_card_eq hinfinite (work 0 + 1)
    have := hbound part hpart
    omega
  refine ⟨hfinite, ?_⟩
  rw [Set.ncard_eq_toFinset_card counts hfinite]
  exact hbound _ (by simp)

theorem exists_states {S : Type*} {move : S → S → Prop} {I : S → Prop}
    (h : ∀ s, I s → ∃ next, move s next ∧ I next) {s : S} (hs : I s) :
    ∃ states : ℕ → S, states 0 = s ∧ ∀ i, move (states i) (states (i + 1)) := by
  choose next hmove hnext using h
  let states : ℕ → {s // I s} := fun i =>
    Nat.rec ⟨s, hs⟩ (fun _ state => ⟨next state.1 state.2, hnext state.1 state.2⟩) i
  exact ⟨fun i => (states i).1, rfl, fun i => hmove (states i).1 (states i).2⟩

end Library
