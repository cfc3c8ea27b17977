/-
Rings: cells that two counters which never wrap index modulo a capacity. An entry goes in at the
tail and comes out at the head, so the contents are read off the cells from the head on; as long as
no more entries are pending than there are cells, a push overwrites none of them.
-/
import Mathlib.Data.List.Range
import Mathlib.Data.Nat.ModEq
import Mathlib.Logic.Function.Basic

namespace Embark

/-- The cells of a ring and its counters. -/
structure Ring (α : Type) where
  cells : Nat → α
  head : Nat
  tail : Nat

namespace Ring

variable {α : Type}

/-- The entries pending in a ring of `c` cells, oldest first. -/
def contents (c : Nat) (r : Ring α) : List α := (List.range (r.tail - r.head)).map fun i => r.cells ((r.head + i) % c)

/-- An entry in at the tail. -/
def push (c : Nat) (r : Ring α) (x : α) : Ring α :=
  ⟨Function.update r.cells (r.tail % c) x, r.head, r.tail + 1⟩

/-- The entry at the head out. -/
def pop (r : Ring α) : Ring α := ⟨r.cells, r.head + 1, r.tail⟩

variable {c : Nat} {r : Ring α}

/-- Counters that differ, by less than the capacity, index different cells. -/
theorem mod_ne {c m n : Nat} (h : m < n) (hc : n < m + c) : m % c ≠ n % c := fun heq => by
  have hdvd : c ∣ n - m := (Nat.modEq_iff_dvd' h.le).1 heq
  have hle := Nat.le_of_dvd (by omega) hdvd
  omega

theorem contents_push (x : α) (hle : r.head ≤ r.tail) (hc : r.tail - r.head < c) :
    (r.push c x).contents c = r.contents c ++ [x] := by
  have hlen : r.tail + 1 - r.head = r.tail - r.head + 1 := by omega
  have hcells : ∀ i ∈ List.range (r.tail - r.head),
      Function.update r.cells (r.tail % c) x ((r.head + i) % c) = r.cells ((r.head + i) % c) := fun i hi => by
    rw [List.mem_range] at hi
    exact Function.update_of_ne (mod_ne (by omega) (by omega)) _ _
  unfold contents push
  simp only [hlen, List.range_succ, List.map_append, List.map_cons, List.map_nil]
  rw [List.map_congr_left hcells, Nat.add_sub_cancel' hle, Function.update_self]

theorem contents_pop (h : r.head < r.tail) : r.contents c = r.cells (r.head % c) :: r.pop.contents c := by
  have hlen : r.tail - r.head = r.tail - (r.head + 1) + 1 := by omega
  unfold contents pop
  simp only [hlen, List.range_succ_eq_map, List.map_cons, List.map_map, Nat.add_zero]
  congr 1
  refine List.map_congr_left fun i _ => ?_
  show r.cells ((r.head + (i + 1)) % c) = r.cells ((r.head + 1 + i) % c)
  rw [Nat.add_right_comm, Nat.add_assoc]

end Ring

end Embark
