/-
`ods::ScapegoatTree`, the search tree under the order-preserving encryption: `log32`,
`addWithDepth`, `rebuild` through `packIntoArray` and `buildBalanced`, and `add`.

Nodes are values of `BinTree`; a node pointer that the code follows upwards through `parent` is a
subtree with the list of its ancestors. Reading through `nil` and overflowing an `int` are `none`.
Subtree sizes stay at most `n`, itself a checked `int`, so `size` is a natural number.
-/
import Embark.Lib.BinTree
import Embark.Lib.Machine

namespace Embark

open BinTree

/-- `ScapegoatTree`: the root, the number of keys, and the overestimate that drives rebuilding. -/
structure ScapegoatTree (α : Type) where
  r : BinTree α
  n : Int
  q : Int
deriving Repr, DecidableEq

/-- The empty tree with both counters zero. -/
def ScapegoatTree.empty {α : Type} : ScapegoatTree α := ⟨nil, 0, 0⟩

/-- The tree as its constructors leave it: those of the base classes set the root and `n`, none sets
`q`, which is whatever the memory held. -/
def ScapegoatTree.constructed {α : Type} (q : Int) : ScapegoatTree α := ⟨nil, 0, q⟩

/-- The first exponent from `k` on, among the next `fuel`, with `q ≤ (3/2) ^ k`. -/
def ceilLog32 (q : Nat) : Nat → Nat → Nat
  | 0, k => k
  | fuel + 1, k => if q * 2 ^ k ≤ 3 ^ k then k else ceilLog32 q fuel (k + 1)

/-- `log32`: the ceiling of the logarithm to the base 3/2, as an exact number. For `q ≤ 0` the
conversion of a NaN or an infinity to `int` gives the least `int`. -/
def log32 (q : Int) : Int := if q ≤ 0 then -2 ^ 31 else ceilLog32 q.toNat q.toNat 0

/-- `packIntoArray`: the nodes of a subtree from left to right, after those already packed. -/
def packIntoArray {α : Type} : BinTree α → List α → List α
  | nil, a => a
  | node l x r, a => packIntoArray r (packIntoArray l a ++ [x])

/-- `buildBalanced`: a balanced tree of the `ns` nodes of `a` from `i` on. -/
def buildBalanced {α : Type} (a : List α) (i ns : Nat) : BinTree α :=
  if ns = 0 then nil
  else
    let m := ns / 2
    match a[i + m]? with
    | none => nil -- past the end of `a`; `rebuild` passes the length of `a`
    | some x => node (buildBalanced a i m) x (buildBalanced a (i + m + 1) (ns - m - 1))
termination_by ns

/-- `rebuild`: what stands in the place of the subtree `u`. -/
def rebuild {α : Type} (u : BinTree α) : BinTree α := buildBalanced (packIntoArray u []) 0 u.size

namespace ScapegoatTree

variable {α : Type} [LinearOrder α]

/-- The descent of `addWithDepth`: the ancestors of the free place for `x`, nearest first, or
`none` when `x` is stored. -/
def findPlace (x : α) : BinTree α → List (Crumb α) → Option (List (Crumb α))
  | nil, ctx => some ctx
  | node l y r, ctx =>
    if x < y then findPlace x l (.left y r :: ctx)
    else if y < x then findPlace x r (.right l y :: ctx)
    else none

/-- `addWithDepth`: the tree with the new node linked in, its depth (-1 for a stored key) and its
ancestors (`parent` of a node that was not linked in is `nil`). -/
def addWithDepth (t : ScapegoatTree α) (x : α) : Option (ScapegoatTree α × Int × List (Crumb α)) :=
  match findPlace x t.r [] with
  | none => some (t, -1, [])
  | some ctx => do
    let n ← int32 (t.n + 1)
    let q ← int32 (t.q + 1)
    return (⟨zip ctx (node nil x nil), n, q⟩, ctx.length, ctx)

/-- The scapegoat loop of `add` from the node `w` under the ancestors `ctx`, and the rebuilding
of the parent it stops at. At the root the parent is `nil`: its size 0 ends the loop and `rebuild`
reads through it. -/
def rebuildScapegoat : BinTree α → List (Crumb α) → Option (BinTree α)
  | _, [] => none
  | w, c :: ctx => do
    let p := c.up w
    let a3 ← int32 (3 * w.size)
    let b2 ← int32 (2 * p.size)
    if a3 ≤ b2 then rebuildScapegoat p ctx else return zip ctx (rebuild p)

/-- `add`: the tree after inserting `x`, and whether `x` was new. -/
def add (t : ScapegoatTree α) (x : α) : Option (ScapegoatTree α × Bool) := do
  let (t', d, ctx) ← t.addWithDepth x
  if log32 t'.q < d then
    match ctx with
    | [] => none -- `w` is `nil`, and `w->parent` reads through it
    | c :: ctx => do
      let r ← rebuildScapegoat (c.up (node nil x nil)) ctx
      return ({ t' with r }, decide (0 ≤ d))
  else return (t', decide (0 ≤ d))

/-- A sequence of `add` calls, all of which complete. -/
def addAll (t : ScapegoatTree α) (xs : List α) : Option (ScapegoatTree α) :=
  xs.foldlM (fun t x => (t.add x).map Prod.fst) t

/-- Trees built from the empty one by completed `add` calls, with the keys in call order. -/
def Built (xs : List α) (t : ScapegoatTree α) : Prop := empty.addAll xs = some t

instance (xs : List α) (t : ScapegoatTree α) : Decidable (Built xs t) := inferInstanceAs (Decidable (_ = _))

theorem addAll_append (t : ScapegoatTree α) (xs ys : List α) :
    t.addAll (xs ++ ys) = (t.addAll xs).bind fun s => s.addAll ys := by
  unfold addAll
  rw [List.foldlM_append]
  rfl

end ScapegoatTree

/-! ## The logarithm -/

theorem ceilLog32_spec {q : Nat} : ∀ (fuel k : Nat), q * 2 ^ (k + fuel) ≤ 3 ^ (k + fuel) →
    (∀ j < k, 3 ^ j < q * 2 ^ j) →
    q * 2 ^ ceilLog32 q fuel k ≤ 3 ^ ceilLog32 q fuel k ∧ ∀ j < ceilLog32 q fuel k, 3 ^ j < q * 2 ^ j
  | 0, k, h, hlt => ⟨h, hlt⟩
  | fuel + 1, k, h, hlt => by
    unfold ceilLog32
    by_cases hk : q * 2 ^ k ≤ 3 ^ k
    · rw [if_pos hk]; exact ⟨hk, hlt⟩
    · rw [if_neg hk]
      refine ceilLog32_spec fuel (k + 1) (by rwa [Nat.add_assoc, Nat.add_comm 1]) fun j hj => ?_
      rcases Nat.lt_succ_iff_lt_or_eq.1 hj with hj | rfl
      · exact hlt j hj
      · omega

theorem mul_two_pow_le_three_pow : ∀ q : Nat, q * 2 ^ q ≤ 3 ^ q
  | 0 => by decide
  | 1 => by decide
  | q + 2 => by
    have ih := mul_two_pow_le_three_pow (q + 1)
    rw [Nat.pow_succ _ (q + 1), Nat.pow_succ _ (q + 1), ← Nat.mul_assoc]
    rcases q with _ | q
    · decide
    · -- twice `2 ^ q` is at most `q * 2 ^ q`, so the third third of the right side pays for it
      have h2 : 2 * 2 ^ (q + 1 + 1) ≤ (q + 1 + 1) * 2 ^ (q + 1 + 1) := Nat.mul_le_mul_right _ (by omega)
      rw [show q + 1 + 2 = (q + 1 + 1) + 1 by omega, Nat.add_mul (q + 1 + 1) 1]
      omega

/-- `q ≤ (3/2) ^ k` is upwards closed in `k`. -/
theorem log32_step {q j k : Nat} (h : q * 2 ^ j ≤ 3 ^ j) (hjk : j ≤ k) : q * 2 ^ k ≤ 3 ^ k := by
  obtain ⟨i, rfl⟩ := Nat.exists_eq_add_of_le hjk
  have : 2 ^ i ≤ 3 ^ i := Nat.pow_le_pow_left (by omega) i
  calc q * 2 ^ (j + i) = q * 2 ^ j * 2 ^ i := by rw [Nat.pow_add, Nat.mul_assoc]
    _ ≤ 3 ^ j * 3 ^ i := Nat.mul_le_mul h this
    _ = 3 ^ (j + i) := (Nat.pow_add ..).symm

/-- `log32` is the ceiling of the logarithm: at most `k` exactly when `q ≤ (3/2) ^ k`. -/
theorem log32_le_iff {q k : Nat} (hq : 0 < q) : log32 q ≤ k ↔ q * 2 ^ k ≤ 3 ^ k := by
  have hpos : ¬ (q : Int) ≤ 0 := by omega
  unfold log32
  rw [if_neg hpos, Int.toNat_natCast]
  obtain ⟨h1, h2⟩ := ceilLog32_spec q 0 (q := q) (by simpa using mul_two_pow_le_three_pow q)
    (by simp)
  constructor
  · intro h; exact log32_step h1 (by omega)
  · intro h
    by_contra hlt
    have := h2 k (by omega)
    omega

theorem log32_nonneg {q : Nat} (hq : 0 < q) : 0 ≤ log32 q := by
  have hpos : ¬ (q : Int) ≤ 0 := by omega
  unfold log32; rw [if_neg hpos]; omega

/-- A path is longer than the logarithm exactly when it is longer than some `k` with
`q ≤ (3/2) ^ k`. -/
theorem log32_lt_iff {q d : Nat} (hq : 0 < q) : log32 q < d ↔ ∃ k, k < d ∧ q * 2 ^ k ≤ 3 ^ k := by
  constructor
  · intro hlt
    have h0 := log32_nonneg hq
    exact ⟨(log32 (q : Int)).toNat, by omega, (log32_le_iff hq).1 (by omega)⟩
  · rintro ⟨k, hk, hle⟩
    have := (log32_le_iff hq).2 hle
    omega

/-- A larger number of keys allows no smaller depth. -/
theorem log32_mono {p q : Nat} (hp : 0 < p) (hpq : p ≤ q) : log32 p ≤ log32 q := by
  have h0 := log32_nonneg (q := q) (by omega)
  have hq := (log32_le_iff (q := q) (k := (log32 q).toNat) (by omega)).1 (by omega)
  have hle := (log32_le_iff hp).2 ((Nat.mul_le_mul_right _ hpq).trans hq)
  omega

/-- Every `int` has a logarithm of at most 53. -/
theorem log32_int (q : Nat) (h : q < 2 ^ 31) : q * 2 ^ 53 ≤ 3 ^ 53 := by
  have : (2 : Nat) ^ 31 * 2 ^ 53 ≤ 3 ^ 53 := by decide
  calc q * 2 ^ 53 ≤ 2 ^ 31 * 2 ^ 53 := Nat.mul_le_mul_right _ h.le
    _ ≤ 3 ^ 53 := this

/-! ## Rebuilding -/

section Rebuild

variable {α : Type}

theorem packIntoArray_eq (t : BinTree α) (a : List α) : packIntoArray t a = a ++ t.keys := by
  induction t generalizing a with
  | nil => simp [packIntoArray]
  | node l x r ihl ihr => simp [packIntoArray, ihl, ihr]

theorem buildBalanced_of_getElem {a : List α} {i ns : Nat} {x : α} (h0 : ns ≠ 0)
    (hx : a[i + ns / 2]? = some x) : buildBalanced a i ns =
      node (buildBalanced a i (ns / 2)) x (buildBalanced a (i + ns / 2 + 1) (ns - ns / 2 - 1)) := by
  rw [buildBalanced, if_neg h0]
  simp only [hx]

theorem keys_buildBalanced (a : List α) (i ns : Nat) (h : i + ns ≤ a.length) :
    (buildBalanced a i ns).keys = (a.drop i).take ns := by
  induction i, ns using buildBalanced.induct (a := a) with
  | case1 i => simp [buildBalanced]
  | case2 i ns h0 m hm =>
    rw [List.getElem?_eq_none_iff] at hm
    omega
  | case3 i ns h0 m x hx ihl ihr =>
    have hlt : i + m < a.length := by omega
    have hx' : a[i + m] = x := by
      rw [List.getElem?_eq_getElem hlt, Option.some.injEq] at hx; exact hx
    rw [buildBalanced_of_getElem h0 hx, keys_node, ihl (by omega), ihr (by omega)]
    -- the keys from `i`: `m` of them, the one at `i + m`, and the rest
    have h1 : a.drop i = (a.drop i).take m ++ x :: a.drop (i + m + 1) := by
      rw [← hx', List.getElem_cons_drop, ← List.drop_drop, List.take_append_drop]
    have hns : ns = m + (1 + (ns - m - 1)) := by omega
    have hlen : ((a.drop i).take m).length = m := by simp; omega
    conv_rhs => rw [h1, hns, List.take_append, hlen]
    have : List.take (m + (1 + (ns - m - 1))) ((a.drop i).take m) = (a.drop i).take m :=
      List.take_of_length_le (by omega)
    rw [this, Nat.add_sub_cancel_left, Nat.add_comm 1, List.take_succ_cons]

/-- Rebuilding keeps the keys in order. -/
theorem keys_rebuild (u : BinTree α) : (rebuild u).keys = u.keys := by
  unfold rebuild
  rw [packIntoArray_eq, List.nil_append, keys_buildBalanced _ _ _ (by rw [length_keys]; omega),
    List.drop_zero, List.take_of_length_le (by rw [length_keys])]

theorem height_buildBalanced (a : List α) (i ns : Nat) :
    ∀ h : Nat, ns < 2 ^ h → (buildBalanced a i ns).height ≤ h := by
  induction i, ns using buildBalanced.induct (a := a) with
  | case1 i => simp [buildBalanced]
  | case2 i ns h0 m hm =>
    unfold buildBalanced
    rw [if_neg h0]
    simp [m, hm]
  | case3 i ns h0 m x hx ihl ihr =>
    intro h hlt
    cases h with
    | zero => simp at hlt; omega
    | succ h =>
      have hl := ihl h (by rw [Nat.pow_succ] at hlt; omega)
      have hr := ihr h (by rw [Nat.pow_succ] at hlt; omega)
      rw [buildBalanced_of_getElem h0 hx, height_node]
      simp only [m] at hl hr
      omega

/-- A rebuilt subtree of fewer than `2 ^ h` nodes has height at most `h`. -/
theorem height_rebuild (u : BinTree α) {h : Nat} (hu : u.size < 2 ^ h) : (rebuild u).height ≤ h :=
  height_buildBalanced _ _ _ h hu

end Rebuild

end Embark
