/-
Binary trees with a key at every node, and the cursor of a position in one: the list of the
ancestors of a subtree, nearest first, each with the key and the other subtree it holds. In-order
keys, size and height, and how each of them reads through a cursor.
-/
import Mathlib.Order.Basic
import Mathlib.Data.List.Pairwise
import Mathlib.Tactic.Linarith

namespace Embark

/-- A binary tree; `nil` is the empty one. -/
inductive BinTree (α : Type) where
  | nil
  | node (left : BinTree α) (x : α) (right : BinTree α)
deriving Repr, DecidableEq

namespace BinTree

variable {α : Type}

/-- The keys from left to right. -/
def keys : BinTree α → List α
  | nil => []
  | node l x r => l.keys ++ x :: r.keys

def size : BinTree α → Nat
  | nil => 0
  | node l _ r => 1 + l.size + r.size

/-- The number of nodes on a longest path from the root. -/
def height : BinTree α → Nat
  | nil => 0
  | node l _ r => 1 + max l.height r.height

@[simp] theorem keys_nil : (nil : BinTree α).keys = [] := rfl
@[simp] theorem keys_node (l r : BinTree α) (x : α) : (node l x r).keys = l.keys ++ x :: r.keys := rfl
theorem mem_keys_node {l r : BinTree α} {x y : α} :
    y ∈ (node l x r).keys ↔ y ∈ l.keys ∨ y = x ∨ y ∈ r.keys := by
  rw [keys_node, List.mem_append, List.mem_cons]
@[simp] theorem size_nil : (nil : BinTree α).size = 0 := rfl
@[simp] theorem size_node (l r : BinTree α) (x : α) : (node l x r).size = 1 + l.size + r.size := rfl
@[simp] theorem height_nil : (nil : BinTree α).height = 0 := rfl
@[simp] theorem height_node (l r : BinTree α) (x : α) :
    (node l x r).height = 1 + max l.height r.height := rfl

theorem length_keys (t : BinTree α) : t.keys.length = t.size := by
  induction t with
  | nil => rfl
  | node l x r ihl ihr => simp [ihl, ihr]; omega

/-- A tree of height `h` has fewer than `2 ^ h` nodes. -/
theorem size_lt_two_pow (t : BinTree α) : t.size < 2 ^ t.height := by
  induction t with
  | nil => simp
  | node l x r ihl ihr =>
    have hl : 2 ^ l.height ≤ 2 ^ max l.height r.height := Nat.pow_le_pow_right (by omega) (le_max_left ..)
    have hr : 2 ^ r.height ≤ 2 ^ max l.height r.height := Nat.pow_le_pow_right (by omega) (le_max_right ..)
    simp only [size_node, height_node, Nat.pow_add]
    omega

/-! ## Search order -/

/-- The search order: the keys increase strictly from left to right. -/
def Ordered [LT α] (t : BinTree α) : Prop := t.keys.Pairwise (· < ·)

theorem ordered_nil [LT α] : (nil : BinTree α).Ordered := List.Pairwise.nil

theorem ordered_node [LT α] {l r : BinTree α} {x : α} :
    (node l x r).Ordered ↔ l.Ordered ∧ r.Ordered ∧ (∀ y ∈ l.keys, y < x) ∧ (∀ y ∈ r.keys, x < y) ∧
      ∀ y ∈ l.keys, ∀ z ∈ r.keys, y < z := by
  unfold Ordered
  simp only [keys_node, List.pairwise_append, List.pairwise_cons, List.mem_cons]
  constructor
  · rintro ⟨hl, ⟨hx, hr⟩, h⟩
    exact ⟨hl, hr, fun y hy => h y hy x (.inl rfl), hx, fun y hy z hz => h y hy z (.inr hz)⟩
  · rintro ⟨hl, hr, hlx, hxr, h⟩
    refine ⟨hl, ⟨hxr, hr⟩, fun y hy z hz => ?_⟩
    rcases hz with rfl | hz
    · exact hlx y hy
    · exact h y hy z hz

/-! ## Cursors -/

/-- One ancestor of a position: the position is in its left, or in its right, subtree. -/
inductive Crumb (α : Type) where
  | left (x : α) (right : BinTree α)
  | right (left : BinTree α) (x : α)
deriving Repr, DecidableEq

namespace Crumb

/-- The ancestor, as a tree, over the subtree at the position. -/
def up : Crumb α → BinTree α → BinTree α
  | left x r, t => node t x r
  | right l x, t => node l x t

/-- The keys an ancestor holds to the left of the position. -/
def before : Crumb α → List α
  | left _ _ => []
  | right l x => l.keys ++ [x]

/-- The keys an ancestor holds to the right of the position. -/
def after : Crumb α → List α
  | left x r => x :: r.keys
  | right _ _ => []

@[simp] theorem keys_up (c : Crumb α) (t : BinTree α) : (c.up t).keys = c.before ++ t.keys ++ c.after := by
  cases c <;> simp [up, before, after]

theorem size_lt_size_up (c : Crumb α) (t : BinTree α) : t.size < (c.up t).size := by
  cases c <;> simp only [up, size_node] <;> omega

theorem height_up_le (c : Crumb α) (s t : BinTree α) :
    (c.up t).height ≤ max (c.up s).height (1 + t.height) := by
  cases c <;> simp only [up, height_node] <;> omega

theorem height_lt_height_up (c : Crumb α) (t : BinTree α) : t.height + 1 ≤ (c.up t).height := by
  cases c <;> simp only [up, height_node] <;> omega

/-- One more node below raises the size of the ancestor by the same one. -/
theorem size_up_of_size (c : Crumb α) {s t : BinTree α} {k : Nat} (h : t.size = s.size + k) :
    (c.up t).size = (c.up s).size + k := by
  cases c <;> simp only [up, size_node] <;> omega

end Crumb

/-- The whole tree around a position: the ancestors, nearest first, over the subtree there. -/
def zip (ctx : List (Crumb α)) (t : BinTree α) : BinTree α := ctx.foldl (fun t c => c.up t) t

@[simp] theorem zip_nil (t : BinTree α) : zip [] t = t := rfl
@[simp] theorem zip_cons (c : Crumb α) (ctx : List (Crumb α)) (t : BinTree α) :
    zip (c :: ctx) t = zip ctx (c.up t) := rfl

theorem zip_append (inner outer : List (Crumb α)) (t : BinTree α) :
    zip (inner ++ outer) t = zip outer (zip inner t) := by
  unfold zip; rw [List.foldl_append]

/-- The keys to the left of a position, in order. -/
def keysBefore (ctx : List (Crumb α)) : List α := ctx.foldl (fun ks c => c.before ++ ks) []

/-- The keys to the right of a position, in order. -/
def keysAfter (ctx : List (Crumb α)) : List α := ctx.foldl (fun ks c => ks ++ c.after) []

theorem foldl_before (ctx : List (Crumb α)) (ks : List α) :
    ctx.foldl (fun ks c => c.before ++ ks) ks = keysBefore ctx ++ ks := by
  induction ctx generalizing ks with
  | nil => rfl
  | cons c ctx ih =>
    simp only [keysBefore, List.foldl_cons]
    rw [ih, ih (c.before ++ [])]
    simp

theorem foldl_after (ctx : List (Crumb α)) (ks : List α) :
    ctx.foldl (fun ks c => ks ++ c.after) ks = ks ++ keysAfter ctx := by
  induction ctx generalizing ks with
  | nil => simp [keysAfter]
  | cons c ctx ih =>
    simp only [keysAfter, List.foldl_cons]
    rw [ih, ih ([] ++ c.after)]
    simp

@[simp] theorem keysBefore_cons (c : Crumb α) (ctx : List (Crumb α)) :
    keysBefore (c :: ctx) = keysBefore ctx ++ c.before := by
  rw [← foldl_before]; simp [keysBefore]

@[simp] theorem keysAfter_cons (c : Crumb α) (ctx : List (Crumb α)) :
    keysAfter (c :: ctx) = c.after ++ keysAfter ctx := by
  rw [← foldl_after]; simp [keysAfter]

/-- The in-order keys around a position. -/
theorem keys_zip (ctx : List (Crumb α)) (t : BinTree α) :
    (zip ctx t).keys = keysBefore ctx ++ t.keys ++ keysAfter ctx := by
  induction ctx generalizing t with
  | nil => simp [keysBefore, keysAfter]
  | cons c ctx ih => rw [zip_cons, ih]; simp

theorem length_le_height_zip (ctx : List (Crumb α)) (t : BinTree α) :
    t.height + ctx.length ≤ (zip ctx t).height := by
  induction ctx generalizing t with
  | nil => simp
  | cons c ctx ih =>
    have h := ih (c.up t)
    have := c.height_lt_height_up t
    rw [zip_cons, List.length_cons]
    omega

/-- Replacing the subtree at a position changes the height only through the new subtree. -/
theorem height_zip_le (ctx : List (Crumb α)) (s t : BinTree α) :
    (zip ctx t).height ≤ max (zip ctx s).height (ctx.length + t.height) := by
  induction ctx generalizing s t with
  | nil => simp
  | cons c ctx ih =>
    have h := ih (c.up s) (c.up t)
    have hc := c.height_up_le s t
    have hs := length_le_height_zip ctx (c.up s)
    simp only [zip_cons, List.length_cons]
    omega

/-- A subtree that is no higher leaves a tree that is no higher. -/
theorem height_zip_mono (ctx : List (Crumb α)) {s t : BinTree α} (h : s.height ≤ t.height) :
    (zip ctx s).height ≤ (zip ctx t).height := by
  have hle := height_zip_le ctx t s
  have hlen := length_le_height_zip ctx t
  omega

theorem size_zip_of_size (ctx : List (Crumb α)) {s t : BinTree α} {k : Nat} (h : t.size = s.size + k) :
    (zip ctx t).size = (zip ctx s).size + k := by
  induction ctx generalizing s t with
  | nil => simpa using h
  | cons c ctx ih => rw [zip_cons, zip_cons]; exact ih (c.size_up_of_size h)

/-- The search order reads through a cursor. -/
theorem ordered_zip [LT α] {ctx : List (Crumb α)} {t : BinTree α} :
    (zip ctx t).Ordered ↔ (keysBefore ctx ++ t.keys ++ keysAfter ctx).Pairwise (· < ·) := by
  unfold Ordered; rw [keys_zip]

/-- A subtree with the same keys may stand for another one. -/
theorem keys_zip_congr (ctx : List (Crumb α)) {s t : BinTree α} (h : s.keys = t.keys) :
    (zip ctx s).keys = (zip ctx t).keys := by
  rw [keys_zip, keys_zip, h]

end BinTree

end Embark
