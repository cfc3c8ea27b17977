/-
The levels of a binary tree: the part of a tree above a depth, and the keys at one depth from left
to right.
-/
import Embark.Lib.BinTree
import Mathlib.Data.List.Flatten

namespace Embark

namespace BinTree

variable {α : Type}

/-- The part of the tree that lies less than `d` deep. -/
def top : Nat → BinTree α → BinTree α
  | 0, _ => nil
  | _ + 1, nil => nil
  | d + 1, node l x r => node (top d l) x (top d r)

/-- The keys that lie `d` deep, from left to right. -/
def level : Nat → BinTree α → List α
  | _, nil => []
  | 0, node _ x _ => [x]
  | d + 1, node l _ r => level d l ++ level d r

/-- The keys that lie less than `h` deep, level by level. -/
def levels (h : Nat) (t : BinTree α) : List α := (List.range h).flatMap fun d => level d t

@[simp] theorem top_zero (t : BinTree α) : top 0 t = nil := by cases t <;> rfl
@[simp] theorem top_nil (d : Nat) : top d (nil : BinTree α) = nil := by cases d <;> rfl
@[simp] theorem top_succ_node (d : Nat) (l r : BinTree α) (x : α) :
    top (d + 1) (node l x r) = node (top d l) x (top d r) := rfl

@[simp] theorem level_nil (d : Nat) : level d (nil : BinTree α) = [] := by cases d <;> rfl
@[simp] theorem level_zero_node (l r : BinTree α) (x : α) : level 0 (node l x r) = [x] := rfl
@[simp] theorem level_succ_node (d : Nat) (l r : BinTree α) (x : α) :
    level (d + 1) (node l x r) = level d l ++ level d r := rfl

theorem levels_succ (h : Nat) (t : BinTree α) : levels (h + 1) t = levels h t ++ level h t := by
  unfold levels
  rw [List.range_succ, List.flatMap_append]
  simp

/-- One more level adds its keys. -/
theorem size_top_succ (d : Nat) (t : BinTree α) : (top (d + 1) t).size = (top d t).size + (level d t).length := by
  induction t generalizing d with
  | nil => simp
  | node l x r ihl ihr =>
    cases d with
    | zero => simp
    | succ d =>
      have hl := ihl d
      have hr := ihr d
      simp only [top_succ_node, size_node, level_succ_node, List.length_append] at hl hr ⊢
      omega

theorem length_levels (h : Nat) (t : BinTree α) : (levels h t).length = (top h t).size := by
  induction h with
  | zero => simp [levels]
  | succ h ih => rw [levels_succ, List.length_append, ih, size_top_succ]

theorem size_top_le (d : Nat) (t : BinTree α) : (top d t).size ≤ t.size := by
  induction t generalizing d with
  | nil => simp
  | node l x r ihl ihr =>
    cases d with
    | zero => simp
    | succ d =>
      have hl := ihl d
      have hr := ihr d
      simp only [top_succ_node, size_node]
      omega

/-- A part of the tree with all its nodes is the tree. -/
theorem top_eq_of_size {d : Nat} {t : BinTree α} (h : (top d t).size = t.size) : top d t = t := by
  induction t generalizing d with
  | nil => simp
  | node l x r ihl ihr =>
    cases d with
    | zero =>
      rw [top_zero, size_nil, size_node] at h
      omega
    | succ d =>
      have hl := size_top_le d l
      have hr := size_top_le d r
      simp only [top_succ_node, size_node] at h
      rw [top_succ_node, ihl (by omega), ihr (by omega)]

/-- Another level leaves the keys above it in place. -/
theorem keys_top_sublist (d : Nat) (t : BinTree α) : (top d t).keys.Sublist (top (d + 1) t).keys := by
  induction t generalizing d with
  | nil => simp
  | node l x r ihl ihr =>
    cases d with
    | zero => simp
    | succ d =>
      rw [top_succ_node d, top_succ_node (d + 1), keys_node, keys_node]
      exact (ihl d).append ((ihr d).cons_cons x)

theorem keys_zip_sublist {s t : BinTree α} (h : s.keys.Sublist t.keys) (ctx : List (Crumb α)) :
    (zip ctx s).keys.Sublist (zip ctx t).keys := by
  rw [keys_zip, keys_zip]
  exact ((List.Sublist.refl _).append h).append (List.Sublist.refl _)

/-- A tree that keeps some of the keys is no larger. -/
theorem size_le_of_sublist {s t : BinTree α} (h : s.keys.Sublist t.keys) : s.size ≤ t.size := by
  rw [← length_keys, ← length_keys]
  exact h.length_le

theorem keys_top_sublist_keys (d : Nat) (t : BinTree α) : (top d t).keys.Sublist t.keys := by
  induction t generalizing d with
  | nil => simp
  | node l x r ihl ihr =>
    cases d with
    | zero => simp
    | succ d => exact (ihl d).append ((ihr d).cons_cons x)

end BinTree

end Embark
