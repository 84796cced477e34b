/-
Lists ordered by how recently their members occur in a history. General library: nothing here names a program.

`Later history x y` says that the last occurrence of `x` comes after that of `y`. A list is in order (`Recent`) when its
members occur in the history and each is later than those behind it. Moving a member to the front when it occurs again
keeps the list in order (`Recent.touch`), and so does removing members (`Recent.sublist`). The last member of such a
list is the one that has gone longest without occurring (`Recent.getLast`).
-/
import Mathlib.Tactic

namespace Recency

variable {α : Type}

/-- the last occurrence of `x` comes after that of `y` -/
def Later (history : List α) (x y : α) : Prop := ∃ pre post, history = pre ++ y :: post ∧ y ∉ post ∧ x ∈ post

/-- every member occurs in the history, and later than the members behind it -/
structure Recent (history : List α) (order : List α) : Prop where
  occurs : ∀ x ∈ order, x ∈ history
  ordered : order.Pairwise (Later history)

/-- `x` has gone longest without occurring among the members of a list -/
def Oldest (history order : List α) (x : α) : Prop := x ∈ order ∧ ∀ y ∈ order, y ≠ x → Later history y x

variable {history order : List α}

theorem Recent.nil : Recent ([] : List α) [] := ⟨by simp, List.Pairwise.nil⟩

theorem Recent.sublist (h : Recent history order) {order' : List α} (hs : order'.Sublist order) :
    Recent history order' := ⟨fun x hx => h.occurs x (hs.subset hx), h.ordered.sublist hs⟩

theorem Later.snoc {x y z : α} (h : Later history x y) (hy : y ≠ z) : Later (history ++ [z]) x y := by
  obtain ⟨pre, post, rfl, hnot, hmem⟩ := h
  refine ⟨pre, post ++ [z], by simp, ?_, List.mem_append_left _ hmem⟩
  simp [hnot, hy]

/-- what occurs now is later than everything else -/
theorem later_last {x z : α} (hx : x ∈ history) (hne : x ≠ z) : Later (history ++ [z]) z x := by
  obtain ⟨pre, post, hsplit, hnot⟩ := List.eq_append_cons_of_mem (List.mem_reverse.2 hx)
  have hrev : history = post.reverse ++ x :: pre.reverse := by
    have := congrArg List.reverse hsplit
    simpa using this
  refine ⟨post.reverse, pre.reverse ++ [z], by rw [hrev]; simp, ?_, by simp⟩
  simp [hnot, hne]

/-- **A member occurs again, or a new one does**: it moves to the front. -/
theorem Recent.touch [DecidableEq α] (h : Recent history order) (hnodup : order.Nodup) (z : α) :
    Recent (history ++ [z]) (z :: order.erase z) := by
  have hsub := List.erase_sublist (a := z) (l := order)
  have hne : ∀ x ∈ order.erase z, x ≠ z := fun x hx heq => hnodup.not_mem_erase (heq ▸ hx)
  refine ⟨?_, List.Pairwise.cons ?_ ?_⟩
  · intro x hx
    rcases List.mem_cons.1 hx with rfl | hx
    · simp
    · exact List.mem_append_left _ (h.occurs x (hsub.subset hx))
  · intro x hx
    exact later_last (h.occurs x (hsub.subset hx)) (hne x hx)
  · apply (h.ordered.sublist hsub).imp_of_mem
    intro x y _ hy hlater
    exact hlater.snoc (hne y hy)

/-- the last member has gone longest without occurring -/
theorem Recent.getLast (h : Recent history order) {x : α} (hx : order.getLast? = some x) : Oldest history order x := by
  obtain ⟨init, rfl⟩ := List.getLast?_eq_some_iff.1 hx
  refine ⟨by simp, ?_⟩
  intro y hy hne
  have hinit : y ∈ init := by
    rcases List.mem_append.1 hy with hy | hy
    · exact hy
    · exact absurd (List.mem_singleton.1 hy) hne
  exact (List.pairwise_append.1 h.ordered).2.2 y hinit x (by simp)

end Recency
