/-
Null-terminated linked lists, given by the successor of every node: the nodes that a pointer leads
to, in order. A change of successors off the list leaves the list as it is.
-/
import Mathlib.Data.List.Nodup

namespace Embark

/-- The pointer `head` leads through exactly the nodes `l` to the null pointer. -/
def IsList {α : Type} (next : α → Option α) : Option α → List α → Prop
  | head, [] => head = none
  | head, x :: l => head = some x ∧ IsList next (next x) l

namespace IsList

variable {α : Type} {next next' : α → Option α} {head : Option α} {x : α} {l : List α}

@[simp] theorem none_iff : IsList next none l ↔ l = [] := by
  cases l <;> simp [IsList]

/-- The list depends on the successors of its nodes alone. -/
theorem congr : ∀ {head : Option α} {l : List α}, (∀ x ∈ l, next' x = next x) → IsList next head l →
    IsList next' head l
  | _, [], _, h => h
  | _, x :: l, hn, ⟨hx, h⟩ => ⟨hx, by
    rw [hn x (by simp)]
    exact congr (fun y hy => hn y (by simp [hy])) h⟩

/-- Linking a node in front. -/
theorem cons (h : IsList next head l) (hx : next x = head) : IsList next (some x) (x :: l) :=
  ⟨rfl, by rw [hx]; exact h⟩

/-- A pointer leads through one list. -/
theorem unique : ∀ {head : Option α} {l l' : List α}, IsList next head l → IsList next head l' → l = l'
  | _, [], l', h, h' => by
    obtain rfl : _ = none := h
    exact (none_iff.1 h').symm
  | _, x :: l, [], ⟨hx, _⟩, h' => by
    rw [hx] at h'
    exact absurd h' (by simp [IsList])
  | _, x :: l, y :: l', ⟨hx, h⟩, ⟨hy, h'⟩ => by
    obtain rfl : x = y := Option.some.inj (hx.symm.trans hy)
    rw [unique h h']

end IsList

end Embark
