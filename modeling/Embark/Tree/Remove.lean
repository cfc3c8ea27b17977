/-
`ods::ScapegoatTree::remove` over `ods::BinarySearchTree::remove`: the removal of a key, the
rebuilding of the whole tree when `q` has fallen behind, and runs of additions and removals. A run
computes what the same operations compute on a finite set, up to the removal of the last key, which
rebuilds through `nil`.
-/
import Embark.Tree.Search
import Mathlib.Data.Finset.Sort

namespace Embark

open BinTree

namespace ScapegoatTree

/-! ## The source -/

section Splice

variable {α : Type}

/-- `splice`, for the node under `ctx` with the subtrees `left` and `right`: its only subtree takes
its place. -/
def splice (left right : BinTree α) (ctx : List (Crumb α)) : BinTree α :=
  match left with
  | nil => zip ctx right
  | node .. => zip ctx left

/-- The loop of `remove(Node *u)`, `while (w->left != nil) w = w->left`, from the node with the given
key and subtrees: where it stops, the key, the right subtree and the ancestors. -/
def leftmost : BinTree α → α → BinTree α → List (Crumb α) → α × BinTree α × List (Crumb α)
  | nil, y, r, ctx => (y, r, ctx)
  | node l' y' r', y, r, ctx => leftmost l' y' r' (.left y r :: ctx)

/-- `remove(Node *u)`, for the node under `ctx` with the subtrees `left` and `right`. A node with two
subtrees takes the key of the least node `w` to its right, and `w` is spliced out. -/
def removeNode (left right : BinTree α) (ctx : List (Crumb α)) : BinTree α :=
  match left, right with
  | nil, right => splice nil right ctx
  | left, nil => splice left nil ctx
  | left, node l y r =>
    let (z, wright, path) := leftmost l y r []
    splice nil wright (path ++ .right left z :: ctx)

end Splice

variable {α : Type} [LinearOrder α]

/-- `findLast`: the subtree at the last node on the way to `x`, with its ancestors. -/
def findLast (x : α) : BinTree α → List (Crumb α) → BinTree α × List (Crumb α) →
    BinTree α × List (Crumb α)
  | nil, _, prev => prev
  | node l y r, ctx, _ =>
    if x < y then findLast x l (.left y r :: ctx) (node l y r, ctx)
    else if y < x then findLast x r (.right l y :: ctx) (node l y r, ctx)
    else (node l y r, ctx)

/-- `BinarySearchTree::remove(const T &x)`. -/
def removeKey (t : ScapegoatTree α) (x : α) : Option (ScapegoatTree α × Bool) :=
  match findLast x t.r [] (nil, []) with
  | (nil, _) => some (t, false)
  | (node l y r, ctx) =>
    if x < y ∨ y < x then some (t, false)
    else do
      let n ← int32 (t.n - 1)
      return ({ t with r := removeNode l r ctx, n }, true)

/-- `remove`: the tree without `x`, and whether `x` was stored. -/
def remove (t : ScapegoatTree α) (x : α) : Option (ScapegoatTree α × Bool) := do
  let (t', found) ← t.removeKey x
  if found then
    let n2 ← int32 (2 * t'.n)
    if n2 < t'.q then
      match t'.r with
      | nil => none -- `rebuild` reads `parent` through `nil`
      | node l y r => return ({ t' with r := rebuild (node l y r), q := t'.n }, true)
    else return (t', true)
  else return (t', false)

/-! ## Where the key is -/

/-- The search ends at the key where it is stored. -/
theorem findLast_of_findPlace_none {x : α} : ∀ {t : BinTree α} {outer : List (Crumb α)}
    (prev : BinTree α × List (Crumb α)), findPlace x t outer = none →
    ∃ l r ctx, findLast x t outer prev = (node l x r, ctx) ∧ zip ctx (node l x r) = zip outer t
  | nil, outer, prev, h => by cases h
  | node l y r, outer, prev, h => by
    unfold findPlace at h
    unfold findLast
    split_ifs at h ⊢ with hlt hgt
    · exact findLast_of_findPlace_none _ h
    · exact findLast_of_findPlace_none _ h
    · obtain rfl : x = y := le_antisymm (not_lt.1 hgt) (not_lt.1 hlt)
      exact ⟨l, r, outer, rfl, rfl⟩

/-- Otherwise it ends at another key, or where it started. -/
theorem findLast_of_findPlace_some {x : α} : ∀ {t : BinTree α} {outer ctx : List (Crumb α)}
    (prev : BinTree α × List (Crumb α)), findPlace x t outer = some ctx →
    findLast x t outer prev = prev ∨ ∃ l y r ctx', findLast x t outer prev = (node l y r, ctx') ∧
    (x < y ∨ y < x)
  | nil, outer, ctx, prev, h => .inl rfl
  | node l y r, outer, ctx, prev, h => by
    unfold findPlace at h
    unfold findLast
    split_ifs at h ⊢ with hlt hgt
    · rcases findLast_of_findPlace_some _ h with he | he
      · exact .inr ⟨l, y, r, outer, he, .inl hlt⟩
      · exact .inr he
    · rcases findLast_of_findPlace_some _ h with he | he
      · exact .inr ⟨l, y, r, outer, he, .inr hgt⟩
      · exact .inr he

/-! ## What is left -/

section Splice

variable {α : Type}

/-- The least node under a node, by the way to it. -/
theorem leftmost_spec : ∀ {l : BinTree α} {y : α} {r : BinTree α} {ctx : List (Crumb α)} {z : α}
    {wright : BinTree α} {path : List (Crumb α)}, leftmost l y r ctx = (z, wright, path) →
    zip path (node nil z wright) = zip ctx (node l y r) ∧ keysBefore path = keysBefore ctx
  | nil, y, r, ctx, z, wright, path, h => by
    obtain ⟨rfl, rfl, rfl⟩ : y = z ∧ r = wright ∧ ctx = path := by simpa [leftmost] using h
    exact ⟨rfl, rfl⟩
  | node l' y' r', y, r, ctx, z, wright, path, h => by
    obtain ⟨hzip, hbefore⟩ := leftmost_spec (l := l') h
    refine ⟨hzip, ?_⟩
    rw [hbefore, keysBefore_cons]
    exact List.append_nil _

theorem splice_nil (right : BinTree α) (ctx : List (Crumb α)) : splice nil right ctx = zip ctx right := rfl

/-- The tree under `ctx` without the key at its root. -/
theorem removeNode_spec (left right : BinTree α) (x : α) (ctx : List (Crumb α)) :
    (removeNode left right ctx).keys = keysBefore ctx ++ (left.keys ++ right.keys) ++ keysAfter ctx ∧
    (removeNode left right ctx).height ≤ (zip ctx (node left x right)).height := by
  have hmono : ∀ s : BinTree α, s.height ≤ (node left x right).height →
      (zip ctx s).height ≤ (zip ctx (node left x right)).height := fun s hs => height_zip_mono ctx hs
  cases left with
  | nil =>
    refine ⟨by simp [removeNode, splice, keys_zip], hmono right ?_⟩
    rw [height_node]
    omega
  | node ll ly lr =>
    cases right with
    | nil =>
      refine ⟨by simp [removeNode, splice, keys_zip], hmono (node ll ly lr) ?_⟩
      rw [height_node (node ll ly lr)]
      omega
    | node rl ry rr =>
      obtain ⟨z, wright, path, hw⟩ : ∃ z wright path, leftmost rl ry rr [] = (z, wright, path) :=
        ⟨_, _, _, rfl⟩
      have hdef : removeNode (node ll ly lr) (node rl ry rr) ctx =
          zip ctx (node (node ll ly lr) z (zip path wright)) := by
        simp only [removeNode, hw, splice_nil]
        rw [zip_append]
        rfl
      obtain ⟨hzip, hbefore⟩ := leftmost_spec hw
      -- the least key on the right comes first there
      have hkeys : (node rl ry rr).keys = z :: (zip path wright).keys := by
        rw [← zip_nil (node rl ry rr), ← hzip, keys_zip, keys_zip, hbefore]
        rfl
      have hheight : (zip path wright).height ≤ (node rl ry rr).height := by
        rw [← zip_nil (node rl ry rr), ← hzip]
        exact height_zip_mono path (by rw [height_node]; omega)
      refine ⟨?_, ?_⟩
      · rw [hdef, keys_zip, hkeys, keys_node]
      · rw [hdef]
        refine hmono _ ?_
        rw [height_node, height_node (node ll ly lr)]
        omega

end Splice

/-! ## One call -/

section Call

variable {t t' : ScapegoatTree α} {x : α} {q0 : Nat}

/-- The keys left of and right of a stored key. -/
theorem keys_erase {l r : BinTree α} {ctx : List (Crumb α)} (ho : t.r.Ordered) (h : zip ctx (node l x r) = t.r) :
    keysBefore ctx ++ (l.keys ++ r.keys) ++ keysAfter ctx = t.r.keys.erase x := by
  have hkeys : t.r.keys = keysBefore ctx ++ l.keys ++ x :: (r.keys ++ keysAfter ctx) := by
    rw [← h, keys_zip, keys_node]
    simp only [List.append_assoc, List.cons_append]
  have hfresh : x ∉ keysBefore ctx ++ l.keys := by
    intro hx
    have hpair : (keysBefore ctx ++ l.keys ++ x :: (r.keys ++ keysAfter ctx)).Pairwise (· < ·) := hkeys ▸ ho
    exact lt_irrefl x ((List.pairwise_append.1 hpair).2.2 x hx x (List.mem_cons_self ..))
  rw [hkeys, List.erase_append_right _ hfresh, List.erase_cons_head]
  simp only [List.append_assoc]

/-- After a key is taken out: whether the tree is rebuilt. -/
theorem remove_of_found {n2 : Int} (h : t.removeKey x = some (t', true)) (hn2 : int32 (2 * t'.n) = some n2) :
    (¬ n2 < t'.q → t.remove x = some (t', true)) ∧
    (n2 < t'.q → t'.r = nil → t.remove x = none) ∧
    (n2 < t'.q → t'.r ≠ nil → t.remove x = some ({ t' with r := rebuild t'.r, q := t'.n }, true)) := by
  unfold remove
  rw [h]
  simp only [Option.bind_eq_bind, Option.bind_some, if_true, hn2]
  refine ⟨fun hq => if_neg hq, fun hq hr => ?_, fun hq hr => ?_⟩
  · rw [if_pos hq, hr]
  · rw [if_pos hq]
    cases hr' : t'.r with
    | nil => exact absurd hr' hr
    | node l y r => rfl

/-- A key that is not stored is not removed. -/
theorem removeKey_of_notMem (hx : x ∉ t.r.keys) : t.removeKey x = some (t, false) := by
  cases hf : findPlace x t.r [] with
  | none => exact absurd (findPlace_none hf) hx
  | some ctx =>
    unfold removeKey
    rcases findLast_of_findPlace_some (nil, []) hf with he | ⟨l, y, r, ctx', he, hne⟩
    · rw [he]
    · rw [he]
      exact if_pos hne

/-- A stored key is taken out, which makes no path longer. -/
theorem removeKey_of_mem (hw : GrownFrom q0 t) (hfit : 2 * t.r.size < 2 ^ 31) (hx : x ∈ t.r.keys) :
    ∃ u : BinTree α, u.keys = t.r.keys.erase x ∧ u.size + 1 = t.r.size ∧ u.height ≤ t.r.height ∧
      t.removeKey x = some (⟨u, u.size, t.q⟩, true) := by
  have hf : findPlace x t.r [] = none := (findPlace_eq_none_iff hw.ordered).2 hx
  obtain ⟨l, r, ctx, he, hzip⟩ := findLast_of_findPlace_none (nil, []) hf
  obtain ⟨hkeys, hheight⟩ := removeNode_spec l r x ctx
  rw [zip_nil] at hzip
  rw [keys_erase hw.ordered hzip] at hkeys
  rw [hzip] at hheight
  generalize hu : removeNode l r ctx = u at hkeys hheight
  have hsize : u.size + 1 = t.r.size := by
    have hlen := List.length_erase_add_one hx
    rwa [← hkeys, length_keys, length_keys] at hlen
  have hn : t.n - 1 = u.size := by
    rw [hw.n_eq]
    omega
  refine ⟨u, hkeys, hsize, hheight, ?_⟩
  unfold removeKey
  rw [he]
  simp only [lt_irrefl, or_self, if_false, hn, hu]
  rw [int32_of_lt (by omega) (by omega)]
  rfl

/-- Without the last key there is nothing to rebuild; while more than one is stored, `remove` takes
out the key and, once `q` is more than twice the number left, rebuilds the tree and lowers `q`. -/
theorem remove_cases (hw : GrownFrom q0 t) (hfit : 2 * t.r.size < 2 ^ 31) :
    (x ∉ t.r.keys ∧ t.remove x = some (t, false)) ∨
    (t.r.keys = [x] ∧ t.remove x = none) ∨
    ∃ u : BinTree α, u.keys = t.r.keys.erase x ∧ u.size + 1 = t.r.size ∧ 0 < u.size ∧
      u.height ≤ t.r.height ∧ x ∈ t.r.keys ∧
      t.remove x = some (if 2 * u.size < q0 + t.r.size then ⟨rebuild u, u.size, u.size⟩ else ⟨u, u.size, t.q⟩,
        true) := by
  by_cases hx : x ∈ t.r.keys
  · obtain ⟨u, hkeys, hsize, hheight, hkey⟩ := removeKey_of_mem hw hfit hx
    have hint : int32 (2 * (u.size : Int)) = some (2 * (u.size : Int)) := int32_of_lt (by omega) (by omega)
    obtain ⟨hkeep, hlast, hrebuild⟩ := remove_of_found hkey hint
    rw [hw.q_eq] at hkeep hlast hrebuild
    by_cases hnil : u = nil
    · rw [hnil, size_nil] at hsize
      obtain ⟨y, hy⟩ := List.length_eq_one_iff.1 (show t.r.keys.length = 1 by rw [length_keys]; omega)
      rw [hy, List.mem_singleton] at hx
      refine .inr (.inl ⟨by rw [hy, hx], hlast ?_ hnil⟩)
      rw [hnil, size_nil]
      omega
    · have hpos : 0 < u.size := by
        cases u with
        | nil => exact absurd rfl hnil
        | node ul uy ur => rw [size_node]; omega
      refine .inr (.inr ⟨u, hkeys, hsize, hpos, hheight, hx, ?_⟩)
      by_cases hq : 2 * u.size < q0 + t.r.size
      · rw [if_pos hq, hrebuild (by omega) hnil]
      · rw [if_neg hq, hkeep (by omega), hw.q_eq]
  · refine .inl ⟨hx, ?_⟩
    unfold remove
    rw [removeKey_of_notMem hx]
    rfl

end Call

end ScapegoatTree

/-! ## Runs -/

/-- A call on a tree. -/
inductive Op (α : Type)
  | add (x : α)
  | remove (x : α)
deriving Repr, DecidableEq

namespace Op

variable {α : Type} [DecidableEq α]

/-- What a call is for: the set after it, and whether it changed. -/
def onSet (s : Finset α) : Op α → Finset α × Bool
  | add x => (insert x s, decide (x ∉ s))
  | remove x => (s.erase x, decide (x ∈ s))

/-- A sequence of calls on a set. -/
def runOnSet (s : Finset α) : List (Op α) → Finset α × List Bool
  | [] => (s, [])
  | op :: ops => ((runOnSet (op.onSet s).1 ops).1, (op.onSet s).2 :: (runOnSet (op.onSet s).1 ops).2)

/-- Some call of the sequence removes the last element. -/
def Empties (s : Finset α) (ops : List (Op α)) : Prop :=
  ∃ ys x, ys ++ [remove x] <+: ops ∧ (runOnSet s ys).1 = {x}

/-- The sets along the sequence are small enough for the sizes to be counted. -/
def Fits (s : Finset α) (ops : List (Op α)) : Prop := ∀ ys, ys <+: ops → 3 * ((runOnSet s ys).1.card + 1) < 2 ^ 31

theorem empties_cons {s : Finset α} {op : Op α} {ops : List (Op α)} :
    Empties s (op :: ops) ↔ (∃ x, op = remove x ∧ s = {x}) ∨ Empties (op.onSet s).1 ops := by
  constructor
  · rintro ⟨ys, x, hys, hlast⟩
    cases ys with
    | nil => exact .inl ⟨x, (List.cons_prefix_cons.1 hys).1.symm, hlast⟩
    | cons y ys =>
      obtain ⟨rfl, hrest⟩ := List.cons_prefix_cons.1 hys
      exact .inr ⟨ys, x, hrest, hlast⟩
  · rintro (⟨x, rfl, hlast⟩ | ⟨ys, x, hys, hlast⟩)
    · exact ⟨[], x, List.cons_prefix_cons.2 ⟨rfl, List.nil_prefix⟩, hlast⟩
    · exact ⟨op :: ys, x, List.cons_prefix_cons.2 ⟨rfl, hys⟩, hlast⟩

theorem fits_cons {s : Finset α} {op : Op α} {ops : List (Op α)} (h : Fits s (op :: ops)) :
    3 * (s.card + 1) < 2 ^ 31 ∧ Fits (op.onSet s).1 ops :=
  ⟨h [] List.nil_prefix, fun ys hys => h (op :: ys) (List.cons_prefix_cons.2 ⟨rfl, hys⟩)⟩

theorem card_onSet_le (s : Finset α) (op : Op α) : (op.onSet s).1.card ≤ s.card + 1 := by
  cases op with
  | add x => exact Finset.card_insert_le x s
  | remove x => exact (Finset.card_erase_le).trans (Nat.le_succ _)

theorem card_runOnSet_le : ∀ (s : Finset α) (ops : List (Op α)), (runOnSet s ops).1.card ≤ s.card + ops.length
  | s, [] => le_rfl
  | s, op :: ops => by
    have hop := card_onSet_le s op
    have ih := card_runOnSet_le (op.onSet s).1 ops
    rw [List.length_cons]
    show (runOnSet (op.onSet s).1 ops).1.card ≤ _
    omega

/-- Runs of fewer than `2 ^ 29` calls are short enough. -/
theorem fits_of_length {ops : List (Op α)} (h : ops.length < 2 ^ 29) : Fits ∅ ops := by
  intro ys hys
  have hcard := card_runOnSet_le ∅ ys
  have hle := hys.length_le
  rw [Finset.card_empty] at hcard
  omega

end Op

namespace ScapegoatTree

variable {α : Type} [LinearOrder α]

/-- A call. -/
def call (t : ScapegoatTree α) : Op α → Option (ScapegoatTree α × Bool)
  | .add x => t.add x
  | .remove x => t.remove x

/-- A sequence of calls, with what they return. -/
def run (t : ScapegoatTree α) : List (Op α) → Option (ScapegoatTree α × List Bool)
  | [] => some (t, [])
  | op :: ops => do
    let (t', b) ← t.call op
    let (t'', bs) ← t'.run ops
    return (t'', b :: bs)

/-- The tree stores the elements of `s`, and `q` is between their number and twice as much. -/
structure Stores (s : Finset α) (t : ScapegoatTree α) : Prop where
  grown : ∃ q0, GrownFrom q0 t ∧ q0 ≤ t.r.size
  keys : t.r.keys.toFinset = s

section Stores

variable {s : Finset α} {t : ScapegoatTree α}

theorem Stores.mem (h : Stores s t) {x : α} : x ∈ t.r.keys ↔ x ∈ s := by
  rw [← h.keys, List.mem_toFinset]

theorem Stores.card (h : Stores s t) : s.card = t.r.size := by
  obtain ⟨q0, hw, -⟩ := h.grown
  rw [← h.keys, List.toFinset_card_of_nodup (hw.ordered.imp ne_of_lt), length_keys]

theorem Stores.sort (h : Stores s t) : t.r.keys = s.sort := by
  obtain ⟨q0, hw, -⟩ := h.grown
  rw [← h.keys]
  exact ((List.toFinset_sort _ (hw.ordered.imp ne_of_lt)).2 (hw.ordered.imp le_of_lt)).symm

theorem stores_empty : Stores ∅ (empty : ScapegoatTree α) := ⟨⟨0, wf_iff.1 empty_wf, Nat.zero_le _⟩, rfl⟩

/-- An addition completes. -/
theorem Stores.add (h : Stores s t) (hfit : 3 * (s.card + 1) < 2 ^ 31) (x : α) :
    ∃ t', t.add x = some (t', decide (x ∉ s)) ∧ Stores (insert x s) t' := by
  obtain ⟨q0, hw, hq⟩ := h.grown
  rw [h.card] at hfit
  obtain ⟨⟨t', b⟩, hadd⟩ :=
    Option.isSome_iff_exists.1 (hw.add_isSome_iff.2 (.inr ⟨by omega, hw.searchFits hfit x⟩))
  have hw' := hw.add hadd
  have hkeys : t'.r.keys.toFinset = insert x s := by
    ext y
    rw [List.mem_toFinset, mem_add hw hadd, Finset.mem_insert, h.mem]
  rcases hw.add_keys hadd with ⟨rfl, hx, rfl⟩ | ⟨ctx, hf, rfl, hk⟩
  · refine ⟨t', ?_, ⟨⟨q0, hw', hq⟩, hkeys⟩⟩
    rw [hadd, decide_eq_false (not_not.2 (h.mem.1 hx))]
  · have hx : x ∉ s := by
      rw [← h.mem, ← findPlace_eq_none_iff hw.ordered, hf]
      exact Option.some_ne_none ctx
    have hsize : t.r.size ≤ t'.r.size := by
      have hleaf : (zip ctx (node nil x nil)).size = (zip ctx nil).size + 1 := size_zip_of_size ctx rfl
      rw [← length_keys t'.r, hk, length_keys, hleaf, findPlace_zip hf, zip_nil]
      exact Nat.le_succ _
    refine ⟨t', ?_, ⟨⟨q0, hw', hq.trans hsize⟩, hkeys⟩⟩
    rw [hadd, decide_eq_true hx]

/-- A removal completes unless it is of the last key. -/
theorem Stores.remove (h : Stores s t) (hfit : 3 * (s.card + 1) < 2 ^ 31) (x : α) :
    (s = {x} ∧ t.remove x = none) ∨
      s ≠ {x} ∧ ∃ t', t.remove x = some (t', decide (x ∈ s)) ∧ Stores (s.erase x) t' := by
  obtain ⟨q0, hw, hq⟩ := h.grown
  have hcard := h.card
  rcases remove_cases hw (x := x) (by omega) with ⟨hx, hnone⟩ | ⟨hlast, hnone⟩ |
    ⟨u, hkeys, hsize, hpos, hheight, hx, hsome⟩
  · rw [h.mem] at hx
    refine .inr ⟨fun he => hx (he ▸ Finset.mem_singleton_self x), t, ?_, ?_⟩
    · rw [hnone, decide_eq_false hx]
    · rwa [Finset.erase_eq_of_notMem hx]
  · refine .inl ⟨?_, hnone⟩
    rw [← h.keys, hlast]
    rfl
  · have hx' := h.mem.1 hx
    have hnodup : t.r.keys.Nodup := hw.ordered.imp ne_of_lt
    have hset : u.keys.toFinset = s.erase x := by
      ext y
      rw [hkeys, List.mem_toFinset, hnodup.mem_erase_iff, h.mem, Finset.mem_erase]
    have ho : u.Ordered := by
      unfold Ordered
      rw [hkeys]
      exact hw.ordered.sublist List.erase_sublist
    have hlt := hw.q_lt
    refine .inr ⟨?_, _, by rw [hsome, decide_eq_true hx'], ?_⟩
    · rintro rfl
      rw [Finset.card_singleton] at hcard
      omega
    by_cases hrebuild : 2 * u.size < q0 + t.r.size
    · rw [if_pos hrebuild]
      have hrsize : (rebuild u).size = u.size := by
        rw [← length_keys, keys_rebuild, length_keys]
      refine ⟨⟨0, ⟨?_, ?_, ?_, ?_, ?_⟩, Nat.zero_le _⟩, by rw [keys_rebuild]; exact hset⟩
      · unfold Ordered
        rw [keys_rebuild]
        exact ho
      · rw [hrsize]
      · rw [hrsize, Nat.zero_add]
      · rw [hrsize]
        omega
      · -- three to the `k` is less than four to the `k`
        intro k hk
        rw [hrsize, Nat.zero_add] at hk
        refine height_rebuild u ?_
        have hfour : 3 ^ k ≤ 2 ^ k * 2 ^ k := by
          rw [← Nat.mul_pow]
          exact Nat.pow_le_pow_left (by omega) k
        have hle : u.size ≤ 2 ^ k := Nat.le_of_mul_le_mul_right (hk.trans hfour) (Nat.pow_pos (by omega))
        have htwo : 0 < 2 ^ k := Nat.pow_pos (by omega)
        rw [Nat.pow_succ]
        omega
    · rw [if_neg hrebuild]
      have hq0 : q0 + 1 + u.size = q0 + t.r.size := by omega
      refine ⟨⟨q0 + 1, ⟨ho, rfl, ?_, ?_, ?_⟩, ?_⟩, hset⟩
      · rw [hw.q_eq, hq0]
      · rw [hq0]
        exact hw.q_lt
      · intro k hk
        rw [hq0] at hk
        exact hheight.trans (hw.height_le k hk)
      · show q0 + 1 ≤ u.size
        omega

/-- Every call but the removal of the last key does to the tree what it does to the set. -/
theorem Stores.call (h : Stores s t) (hfit : 3 * (s.card + 1) < 2 ^ 31) (op : Op α) :
    ((∃ x, op = .remove x ∧ s = {x}) ∧ t.call op = none) ∨
      (¬ ∃ x, op = .remove x ∧ s = {x}) ∧ ∃ t', t.call op = some (t', (op.onSet s).2) ∧
      Stores (op.onSet s).1 t' := by
  cases op with
  | add x =>
    refine .inr ⟨?_, h.add hfit x⟩
    rintro ⟨y, hy, -⟩
    cases hy
  | remove x =>
    rcases h.remove hfit x with ⟨hs, hnone⟩ | ⟨hs, hsome⟩
    · exact .inl ⟨⟨x, rfl, hs⟩, hnone⟩
    · refine .inr ⟨?_, hsome⟩
      rintro ⟨y, hy, hsy⟩
      cases hy
      exact hs hsy

end Stores

/-- A run completes unless it removes the last key, and does to the tree what it does to the set. -/
theorem Stores.run : ∀ {ops : List (Op α)} {s : Finset α} {t : ScapegoatTree α}, Stores s t → Op.Fits s ops →
    (Op.Empties s ops ∧ t.run ops = none) ∨
      ¬ Op.Empties s ops ∧ ∃ t', t.run ops = some (t', (Op.runOnSet s ops).2) ∧ Stores (Op.runOnSet s ops).1 t'
  | [], s, t, h, _ => by
    refine .inr ⟨?_, t, rfl, h⟩
    rintro ⟨ys, x, hys, -⟩
    cases ys with
    | nil => cases List.prefix_nil.1 hys
    | cons y ys => cases List.prefix_nil.1 hys
  | op :: ops, s, t, h, hfits => by
    obtain ⟨hfit, hrest⟩ := Op.fits_cons hfits
    rw [Op.empties_cons]
    rcases h.call hfit op with ⟨hlast, hnone⟩ | ⟨hlast, t', hsome, ht'⟩
    · refine .inl ⟨.inl hlast, ?_⟩
      unfold ScapegoatTree.run
      rw [hnone]
      rfl
    · have hrun : t.run (op :: ops) = (t'.run ops).bind fun p => some (p.1, (op.onSet s).2 :: p.2) := by
        rw [ScapegoatTree.run, hsome]
        rfl
      rcases ht'.run hrest with ⟨hemp, hnone⟩ | ⟨hemp, t'', hsome', ht''⟩
      · exact .inl ⟨.inr hemp, by rw [hrun, hnone]; rfl⟩
      · refine .inr ⟨not_or.2 ⟨hlast, hemp⟩, t'', ?_, ht''⟩
        rw [hrun, hsome']
        rfl

/-- Runs of additions and removals on a new tree. As long as fewer than about `2 ^ 29.4` keys are
stored, a run completes unless it removes the last key; it returns what the same calls on a finite
set return, stores the elements of that set in order, counts them in `n`, keeps `q` between `n` and
`2 n`, and no node lies deeper than `log32 q`. -/
theorem run_stores {ops : List (Op α)} (hfits : Op.Fits ∅ ops) :
    (Op.Empties ∅ ops → empty.run ops = none) ∧
    (¬ Op.Empties ∅ ops → ∃ t : ScapegoatTree α, empty.run ops = some (t, (Op.runOnSet ∅ ops).2) ∧
      t.r.keys = (Op.runOnSet ∅ ops).1.sort ∧ t.n = (Op.runOnSet ∅ ops).1.card ∧ t.n ≤ t.q ∧
      t.q ≤ 2 * t.n ∧ ∀ l x r ctx, zip ctx (node l x r) = t.r → ctx.length ≤ log32 t.q) := by
  rcases stores_empty.run hfits with ⟨hemp, hnone⟩ | ⟨hemp, t, hsome, ht⟩
  · exact ⟨fun _ => hnone, fun h => absurd hemp h⟩
  · refine ⟨fun h => absurd h hemp, fun _ => ⟨t, hsome, ht.sort, ?_, ?_, ?_, ?_⟩⟩
    all_goals obtain ⟨q0, hw, hq⟩ := ht.grown
    · rw [hw.n_eq, ht.card]
    · rw [hw.n_eq, hw.q_eq]
      omega
    · rw [hw.n_eq, hw.q_eq]
      omega
    · exact fun l x r ctx h => hw.depth_le h

theorem run_stores_three : ∃ t : ScapegoatTree ℕ,
    empty.run [.add 3, .add 5, .remove 3, .add 5] = some (t, [true, true, true, false]) ∧ t.r.keys = [5] := by
  have hkeep : ¬ Op.Empties (∅ : Finset ℕ) [.add 3, .add 5, .remove 3, .add 5] := by
    simp only [Op.empties_cons]
    rintro (⟨x, h, -⟩ | ⟨x, h, -⟩ | ⟨x, h, hs⟩ | ⟨x, h, -⟩ | ⟨ys, x, h, -⟩)
    · cases h
    · cases h
    · cases h
      exact absurd hs (by decide)
    · cases h
    · cases ys <;> cases List.prefix_nil.1 h
  obtain ⟨t, hrun, hkeys, -⟩ := (run_stores (Op.fits_of_length (by decide))).2 hkeep
  have hset : (Op.runOnSet ∅ [.add 3, .add 5, .remove 3, .add 5]).1 = ({5} : Finset ℕ) := by decide
  exact ⟨t, hrun, by rw [hkeys, hset, Finset.sort_singleton]⟩

end ScapegoatTree

end Embark
