import Mathlib.Data.Fintype.Card
import Mathlib.Data.Set.Finite.Basic
import Mathlib.Logic.Relation
import Mathlib.Order.WellFounded

/-!
# Acyclic relations

A relation without cycles orders what it relates, and in a finite part of it something comes
first.  Conversely, what has a rank that goes down along the relation has no cycles, and every path
comes to an end; it is enough that the rank goes down in the middle of every path of three.
-/

namespace Library

variable {A : Type*} {r : A → A → Prop}

theorem exists_notRelated_of_acyclic (hacyclic : ∀ a, ¬ Relation.TransGen r a a) {items : List A}
    (hne : items ≠ []) : ∃ a ∈ items, ∀ b ∈ items, ¬ r a b := by
  -- on the elements of the list the relation is well-founded from above
  let below : {a // a ∈ items} → {a // a ∈ items} → Prop :=
    fun b a => Relation.TransGen r a.1 b.1
  have htrans : IsTrans {a // a ∈ items} below := ⟨fun _ _ _ hba hcb => hcb.trans hba⟩
  have hirrefl : Std.Irrefl below := ⟨fun a => hacyclic a.1⟩
  have hfinite : Finite {a // a ∈ items} := (List.finite_toSet items).to_subtype
  have hwf : WellFounded below := Finite.wellFounded_of_trans_of_irrefl below
  obtain ⟨first, rest, rfl⟩ := List.exists_cons_of_ne_nil hne
  obtain ⟨a, -, hleast⟩ :=
    hwf.has_min Set.univ ⟨⟨first, List.mem_cons_self⟩, Set.mem_univ _⟩
  refine ⟨a.1, a.2, fun b hb hrelated => ?_⟩
  exact hleast ⟨b, hb⟩ (Set.mem_univ _) (.single hrelated)

/-- **Rank rule.**  A relation has no cycles if a rank goes down along every step that has a step
before it and one after it. -/
theorem acyclic_of_rank {X : Type*} [Preorder X] [WellFoundedLT X] (rank : A → X)
    (h : ∀ a b c d, r a b → r b c → r c d → rank c < rank b) (a : A) :
    ¬ Relation.TransGen r a a := by
  intro hcycle
  -- of the elements that lie on cycles, one has the least rank
  obtain ⟨b, hb, hleast⟩ := (InvImage.wf rank wellFounded_lt).has_min
    {b | Relation.TransGen r b b} ⟨a, hcycle⟩
  obtain ⟨c, hbc, hcb⟩ := Relation.TransGen.head'_iff.mp hb
  obtain ⟨e, hbe, heb⟩ := Relation.TransGen.tail'_iff.mp hb
  have hc : Relation.TransGen r c c := Relation.TransGen.tail' hcb hbc
  obtain ⟨d, hcd, -⟩ := Relation.TransGen.head'_iff.mp hc
  exact hleast c hc (h e b c d heb hbc hcd)

/-- Under the same condition everything leads, step by step, to something that leads nowhere. -/
theorem exists_terminal_of_rank {X : Type*} [Preorder X] [WellFoundedLT X] (rank : A → X)
    (h : ∀ a b c d, r a b → r b c → r c d → rank c < rank b) (a : A) :
    ∃ b, Relation.ReflTransGen r a b ∧ ∀ c, ¬ r b c := by
  by_contra hnot
  have hnext : ∀ b, Relation.ReflTransGen r a b → ∃ c, r b c := by
    intro b hb
    by_contra hlast
    exact hnot ⟨b, hb, fun c hbc => hlast ⟨c, hbc⟩⟩
  -- of the elements that come after the first, one has the least rank
  obtain ⟨first, hfirst⟩ := hnext a .refl
  obtain ⟨b, hb, hleast⟩ := (InvImage.wf rank wellFounded_lt).has_min
    {b | Relation.TransGen r a b} ⟨first, .single hfirst⟩
  obtain ⟨e, -, heb⟩ := Relation.TransGen.tail'_iff.mp hb
  obtain ⟨c, hbc⟩ := hnext b hb.to_reflTransGen
  have hc : Relation.TransGen r a c := .tail hb hbc
  obtain ⟨d, hcd⟩ := hnext c hc.to_reflTransGen
  exact hleast c hc (h e b c d heb hbc hcd)

end Library
