import Mathlib.Data.List.InsertIdx
import Mathlib.Data.List.Sort
import Mathlib.Data.Int.Notation
import Mathlib.Tactic.Common

/-!
# Insertion from the back

A queue that keeps the most urgent elements in front inserts a new element by walking from
the back over the elements that are less urgent.  `insertionIndex` is that loop.  The list
falls into the elements that stay in front of the new one and those it overtakes
(`insertFromBack_split`), and when the list was sorted by an order that refines the key,
it stays sorted (`pairwise_insertFromBack`).
-/

namespace Library

variable {α : Type*} (key : α → ℤ)

/-- The loop of the insertion: starting at position `i`, step back over the elements with a
smaller key. -/
def insertionIndex (x : α) (l : List α) : ℕ → ℕ
  | 0 => 0
  | i + 1 =>
      match l[i]? with
      | none => i + 1
      | some y => if key y < key x then insertionIndex x l i else i + 1

/-- Insert `x` behind the last element whose key is not smaller. -/
def insertFromBack (x : α) (l : List α) : List α :=
  l.insertIdx (insertionIndex key x l l.length) x

variable {key}

theorem insertionIndex_le (x : α) (l : List α) (i : ℕ) : insertionIndex key x l i ≤ i := by
  induction i with
  | zero => rfl
  | succ i ih =>
      simp only [insertionIndex]
      split
      · exact le_rfl
      · split
        · exact ih.trans (Nat.le_succ i)
        · exact le_rfl

/-- The element in front of the insertion index does not have a smaller key. -/
theorem key_le_of_pred_insertionIndex {x y : α} {l : List α} {i n : ℕ}
    (hn : insertionIndex key x l i = n + 1) (hy : l[n]? = some y) : key x ≤ key y := by
  induction i with
  | zero => simp [insertionIndex] at hn
  | succ i ih =>
      simp only [insertionIndex] at hn
      split at hn
      · rename_i hnone
        obtain rfl : i = n := by omega
        rw [hnone] at hy
        cases hy
      · rename_i z hz
        split at hn
        · exact ih hn
        · rename_i hnot
          obtain rfl : i = n := by omega
          rw [hz] at hy
          cases hy
          omega

/-- Every element the loop steps over has a smaller key. -/
theorem key_lt_of_insertionIndex_le {x y : α} {l : List α} {i n : ℕ}
    (hlow : insertionIndex key x l i ≤ n) (hhigh : n < i) (hy : l[n]? = some y) :
    key y < key x := by
  induction i with
  | zero => omega
  | succ i ih =>
      simp only [insertionIndex] at hlow
      split at hlow
      · omega
      · rename_i z hz
        split at hlow
        · rename_i hlt
          rcases Nat.lt_or_ge n i with hni | hni
          · exact ih hlow hni
          · obtain rfl : n = i := by omega
            rw [hz] at hy
            cases hy
            exact hlt
        · omega

private theorem insertIdx_eq_take_drop (x : α) {l : List α} {n : ℕ} (hn : n ≤ l.length) :
    l.insertIdx n x = l.take n ++ x :: l.drop n := by
  induction l generalizing n with
  | nil =>
      obtain rfl : n = 0 := by simpa using hn
      rfl
  | cons y rest ih =>
      cases n with
      | zero => rfl
      | succ n =>
          rw [List.insertIdx_succ_cons, ih (by simpa using hn)]
          rfl

/-- **The list falls apart at the insertion**: a front part, whose last element does not
have a smaller key, and a rest of elements with smaller keys. -/
theorem insertFromBack_split (key : α → ℤ) (x : α) (l : List α) :
    ∃ front back, l = front ++ back ∧ insertFromBack key x l = front ++ x :: back ∧
      (∀ y ∈ front.getLast?, key x ≤ key y) ∧ ∀ y ∈ back, key y < key x := by
  set n := insertionIndex key x l l.length with hn
  have hle : n ≤ l.length := insertionIndex_le x l l.length
  refine ⟨l.take n, l.drop n, (l.take_append_drop n).symm, ?_, ?_, ?_⟩
  · rw [insertFromBack, ← hn, insertIdx_eq_take_drop x hle]
  · intro y hy
    cases hcases : n with
    | zero => simp [hcases] at hy
    | succ m =>
        have hm : m < l.length := by omega
        have hlast : (l.take n).getLast? = l[m]? := by
          rw [hcases, List.getLast?_take]
          simp [hm]
        rw [hlast] at hy
        exact key_le_of_pred_insertionIndex (hn ▸ hcases) hy
  · intro y hy
    obtain ⟨m, hm⟩ := List.mem_iff_getElem?.mp hy
    rw [List.getElem?_drop] at hm
    have hlt : n + m < l.length := (List.getElem?_eq_some_iff.mp hm).1
    exact key_lt_of_insertionIndex_le (Nat.le_add_right n m) hlt hm

theorem insertFromBack_perm (key : α → ℤ) (x : α) (l : List α) : (insertFromBack key x l).Perm (x :: l) := by
  obtain ⟨front, back, hl, hinsert, _⟩ := insertFromBack_split key x l
  rw [hinsert, hl]
  exact List.perm_middle

@[simp] theorem mem_insertFromBack {x y : α} {l : List α} :
    y ∈ insertFromBack key x l ↔ y = x ∨ y ∈ l := by
  rw [(insertFromBack_perm key x l).mem_iff, List.mem_cons]

theorem insertionIndex_map {β : Type*} (f : β → α) (x : β) (l : List β) (i : ℕ) :
    insertionIndex key (f x) (l.map f) i = insertionIndex (key ∘ f) x l i := by
  induction i with
  | zero => rfl
  | succ i ih =>
      simp only [insertionIndex, List.getElem?_map, ih]
      cases l[i]? <;> rfl

theorem insertFromBack_map {β : Type*} (f : β → α) (x : β) (l : List β) :
    insertFromBack key (f x) (l.map f) = (insertFromBack (key ∘ f) x l).map f := by
  simp only [insertFromBack, insertionIndex_map, List.length_map, List.map_insertIdx]

/-- In a list that is sorted by falling key the elements in front of the new one are those whose
key is not smaller. -/
theorem insertFromBack_split_of_sorted {x : α} {l : List α}
    (hsorted : l.Pairwise fun y z => key z ≤ key y) :
    ∃ front back, l = front ++ back ∧ insertFromBack key x l = front ++ x :: back ∧
      (∀ y ∈ front, key x ≤ key y) ∧ ∀ y ∈ back, key y < key x := by
  obtain ⟨front, back, rfl, hinsert, hlast, hback⟩ := insertFromBack_split key x l
  refine ⟨front, back, rfl, hinsert, fun y hy => ?_, hback⟩
  obtain ⟨init, last, rfl⟩ : ∃ init last, front = init ++ [last] :=
    ⟨_, _, (List.dropLast_append_getLast (List.ne_nil_of_mem hy)).symm⟩
  have hle : key x ≤ key last := hlast last (by simp)
  rcases List.mem_append.mp hy with hinit | hy
  · have hpairs := (List.pairwise_append.mp (List.pairwise_append.mp hsorted).1).2.2
    exact hle.trans (hpairs y hinit last (by simp))
  · rwa [List.mem_singleton.mp hy]

/-- **Insertion keeps the order.**  `R` orders elements by falling key; elements of equal
key stand in an order of their own, in which the new element comes last. -/
theorem pairwise_insertFromBack {R : α → α → Prop} {x : α} {l : List α}
    (hkey : ∀ y z, R y z → key z ≤ key y)
    (hsorted : l.Pairwise R)
    (hbehind : ∀ y ∈ l, key x ≤ key y → R y x)
    (hbefore : ∀ y ∈ l, key y < key x → R x y) :
    (insertFromBack key x l).Pairwise R := by
  have hfalls : l.Pairwise fun y z => key z ≤ key y := hsorted.imp fun h => hkey _ _ h
  obtain ⟨front, back, rfl, hinsert, hfront, hback⟩ := insertFromBack_split_of_sorted hfalls
  rw [hinsert]
  rw [List.pairwise_append] at hsorted ⊢
  refine ⟨hsorted.1, ?_, ?_⟩
  · rw [List.pairwise_cons]
    exact ⟨fun y hy => hbefore y (List.mem_append_right _ hy) (hback y hy), hsorted.2.1⟩
  · intro y hy z hz
    rcases List.mem_cons.mp hz with rfl | hz
    · exact hbehind y (List.mem_append_left _ hy) (hfront y hy)
    · exact hsorted.2.2 y hy z hz

/-- Where the list falls apart: the new element comes between those whose key is not smaller
and those whose key is. -/
theorem insertFromBack_append {x : α} {front back : List α} (hfront : ∀ y ∈ front, key x ≤ key y)
    (hback : ∀ y ∈ back, key y < key x) :
    insertFromBack key x (front ++ back) = front ++ x :: back := by
  obtain ⟨front', back', hl, hinsert, hlast, hback'⟩ := insertFromBack_split key x (front ++ back)
  rw [hinsert]
  rcases List.append_eq_append_iff.mp hl with ⟨more, rfl, rfl⟩ | ⟨more, rfl, rfl⟩
  · rcases List.eq_nil_or_concat more with rfl | ⟨init, last, rfl⟩
    · simp
    · have hle := hlast last (by simp)
      have hlt := hback last (by simp)
      omega
  · cases more with
    | nil => simp
    | cons first more =>
        have hle := hfront first (by simp)
        have hlt := hback' first List.mem_cons_self
        omega

/-- **Insertion and selection.**  In a sorted list it does not matter whether the elements that are
not looked at are left out before or after the insertion. -/
theorem filter_insertFromBack {x : α} {l : List α} {p : α → Bool} (hx : p x = true)
    (hsorted : l.Pairwise fun y z => key z ≤ key y) :
    (insertFromBack key x l).filter p = insertFromBack key x (l.filter p) := by
  obtain ⟨front, back, rfl, hinsert, hfront, hback⟩ := insertFromBack_split_of_sorted hsorted
  rw [hinsert, List.filter_append, List.filter_cons_of_pos hx, List.filter_append]
  symm
  apply insertFromBack_append
  · exact fun y hy => hfront y (List.mem_of_mem_filter hy)
  · exact fun y hy => hback y (List.mem_of_mem_filter hy)

end Library
