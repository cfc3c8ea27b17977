/-
The scapegoat tree as the sources hold it: nodes in memory with pointers to both children and to the
parent, which `addWithDepth`, `rebuild`, `splice` and `remove` relink one store at a time. A tree of
nodes represents a tree of keys; additions and removals keep it so and compute what they compute on
the tree of keys, and every node they allocate stays in the tree, is deleted, or is the node of a
key that was refused, which nothing points to.

Loops and recursions over nodes are given a number of rounds; `none` is a read or a store through
`nil` or through a deleted node, an overflow, or the end of the rounds.
-/
import Embark.Lib.LinkedTree
import Embark.Tree.Relabel
import Embark.Tree.Remove

namespace Embark

open BinTree

/-- `ScapegoatTree` as nodes: what is allocated, the root and the two counters. -/
structure NodeTree (α : Type) where
  nodes : Nodes α
  r : Nat
  n : Int
  q : Int

namespace BinTree

variable {α β : Type}

theorem exists_node {t : BinTree α} (hne : t ≠ nil) : ∃ l x r, t = node l x r := by
  cases t with
  | nil => exact absurd rfl hne
  | node l x r => exact ⟨l, x, r, rfl⟩

@[simp] theorem height_map (f : α → β) (t : BinTree α) : (t.map f).height = t.height := by
  induction t with
  | nil => rfl
  | node l x r ihl ihr => rw [map_node, height_node, height_node, ihl, ihr]

end BinTree

namespace ScapegoatTree

variable {α β : Type} {f : α → β}

theorem splice_map (f : α → β) (left right : BinTree α) (ctx : List (Crumb α)) :
    (splice left right ctx).map f = splice (left.map f) (right.map f) (ctx.map (Crumb.map f)) := by
  cases left with
  | nil => exact map_zip f ctx right
  | node l y r => exact map_zip f ctx (node l y r)

theorem leftmost_map : ∀ {l r : BinTree α} {y : α} {ctx path : List (Crumb α)} {z : α} {wright : BinTree α},
    leftmost l y r ctx = (z, wright, path) →
    leftmost (l.map f) (f y) (r.map f) (ctx.map (Crumb.map f)) = (f z, wright.map f, path.map (Crumb.map f))
  | nil, r, y, ctx, path, z, wright, h => by
    obtain ⟨rfl, rfl, rfl⟩ : y = z ∧ r = wright ∧ ctx = path := by simpa [leftmost] using h
    rfl
  | node l' y' r', r, y, ctx, path, z, wright, h => leftmost_map (l := l') h

end ScapegoatTree

namespace NodeTree

/-! ## The source -/

section Build

variable {α : Type}

/-- `size(Node *u)`. -/
def size (h : Nodes α) : Nat → Nat → Option Nat
  | 0, u => if u = 0 then some 0 else none
  | fuel + 1, u =>
    if u = 0 then some 0
    else do
      let nd ← h u
      let l ← size h fuel nd.left
      let r ← size h fuel nd.right
      return 1 + l + r

/-- `packIntoArray`, with what is in the array already. -/
def packIntoArray (h : Nodes α) : Nat → Nat → List Nat → Option (List Nat)
  | 0, u, a => if u = 0 then some a else none
  | fuel + 1, u, a =>
    if u = 0 then some a
    else do
      let nd ← h u
      let a ← packIntoArray h fuel nd.left a
      packIntoArray h fuel nd.right (a ++ [u])

/-- `buildBalanced`. -/
def buildBalanced (a : List Nat) (h : Nodes α) (i ns : Nat) : Option (Nodes α × Nat) :=
  if ns = 0 then some (h, 0)
  else do
    let w ← a[i + ns / 2]?
    let (h, l) ← buildBalanced a h i (ns / 2)
    let h ← h.setLeft w l
    let h ← h.setParentOf l w
    let (h, r) ← buildBalanced a h (i + ns / 2 + 1) (ns - ns / 2 - 1)
    let h ← h.setRight w r
    let h ← h.setParentOf r w
    return (h, w)
termination_by ns

/-- `rebuild`. -/
def rebuild (t : NodeTree α) (fuel u : Nat) : Option (NodeTree α) := do
  let ns ← size t.nodes fuel u
  let nd ← t.nodes u
  let a ← packIntoArray t.nodes fuel u []
  if nd.parent = 0 then
    let (h, r) ← buildBalanced a t.nodes 0 ns
    let h ← h.setParent r 0
    return { t with nodes := h, r }
  else
    let p ← t.nodes nd.parent
    let (h, b) ← buildBalanced a t.nodes 0 ns
    let h ← (if p.right = u then h.setRight nd.parent b else h.setLeft nd.parent b)
    let h ← h.setParent b nd.parent
    return { t with nodes := h }

/-- The loop of `add` from the node `w` upwards, and the rebuilding of the parent it stops at. -/
def rebuildScapegoat (t : NodeTree α) (fuel : Nat) : Nat → Nat → Option (NodeTree α)
  | 0, _ => none
  | k + 1, w => do
    let a ← size t.nodes fuel w
    let nd ← t.nodes w
    let b ← size t.nodes fuel nd.parent
    let a3 ← int32 (3 * a)
    let b2 ← int32 (2 * b)
    if a3 ≤ b2 then rebuildScapegoat t fuel k nd.parent else t.rebuild fuel nd.parent

/-- `splice`. -/
def splice (t : NodeTree α) (u : Nat) : Option (NodeTree α) := do
  let nd ← t.nodes u
  let s := if nd.left ≠ 0 then nd.left else nd.right
  let n ← int32 (t.n - 1)
  if u = t.r then
    let h ← t.nodes.setParentOf s 0
    return { t with nodes := h, r := s, n }
  else
    let p ← t.nodes nd.parent
    let h ← (if p.left = u then t.nodes.setLeft nd.parent s else t.nodes.setRight nd.parent s)
    let h ← h.setParentOf s nd.parent
    return { t with nodes := h, n }

/-- `while (w->left != nil) w = w->left`. -/
def leftmost (h : Nodes α) : Nat → Nat → Option Nat
  | 0, _ => none
  | fuel + 1, w => do
    let nd ← h w
    if nd.left ≠ 0 then leftmost h fuel nd.left else return w

/-- `delete`. -/
def delete (t : NodeTree α) (u : Nat) : NodeTree α := { t with nodes := Function.update t.nodes u none }

/-- `remove(Node *u)`. -/
def removeNode (t : NodeTree α) (fuel u : Nat) : Option (NodeTree α) := do
  let nd ← t.nodes u
  if nd.left = 0 ∨ nd.right = 0 then
    let t ← t.splice u
    return t.delete u
  else
    let w ← leftmost t.nodes fuel nd.right
    let wn ← t.nodes w
    let h ← t.nodes.modify u fun nd => { nd with x := wn.x }
    let t ← { t with nodes := h }.splice w
    return t.delete w

/-- A round of `clear`: the node is deleted when the tour leaves it upwards. -/
def clearVisit (u prev : Nat) (nd : TreeNode α) (h : Nodes α) : Nodes α :=
  if nd.next prev = nd.parent then Function.update h u none else h

/-- `clear` of a `BinaryTree`. -/
def clear (t : NodeTree α) (rounds : Nat) : Option (NodeTree α) := do
  let h ← walk id clearVisit rounds t.nodes t.r 0
  return { t with nodes := h, r := 0 }

/-- A round of `size2`: the node is counted when the tour comes to it from above. -/
def size2Visit (_ prev : Nat) (nd : TreeNode α) (n : Nat) : Nat := if prev = nd.parent then n + 1 else n

/-- `size2`. -/
def size2 (t : NodeTree α) (rounds : Nat) : Option Nat := walk (fun _ => t.nodes) size2Visit rounds 0 t.r 0

end Build

variable {α : Type} [LinearOrder α]

/-- The loop of `addWithDepth` from the node `w` at depth `d`, for the new node `u` with the key `x`. -/
def addLoop (u : Nat) (x : α) : Nat → Nodes α → Nat → Int → Option (Nodes α × Int)
  | 0, _, _, _ => none
  | fuel + 1, h, w, d => do
    let nd ← h w
    if x < nd.x then
      if nd.left = 0 then
        let h ← h.setLeft w u
        let h ← h.setParent u w
        return (h, d + 1)
      else addLoop u x fuel h nd.left (d + 1)
    else if nd.x < x then
      if nd.right = 0 then
        let h ← h.setRight w u
        let h ← h.setParent u w
        return (h, d + 1)
      else addLoop u x fuel h nd.right (d + 1)
    else return (h, -1)

/-- `addWithDepth`. -/
def addWithDepth (t : NodeTree α) (fuel u : Nat) (x : α) : Option (NodeTree α × Int) :=
  if t.r = 0 then do
    let n ← int32 (t.n + 1)
    let q ← int32 (t.q + 1)
    return ({ t with r := u, n, q }, 0)
  else do
    let (h, d) ← addLoop u x fuel t.nodes t.r 0
    if d = -1 then return ({ t with nodes := h }, d)
    else
      let n ← int32 (t.n + 1)
      let q ← int32 (t.q + 1)
      return ({ t with nodes := h, n, q }, d)

/-- `add`, where `new Node` returns `u`. -/
def add (t : NodeTree α) (fuel u : Nat) (x : α) : Option (NodeTree α × Bool) := do
  let (t, d) ← { t with nodes := Function.update t.nodes u (some ⟨0, 0, 0, x⟩) }.addWithDepth fuel u x
  if log32 t.q < d then
    let nd ← t.nodes u
    let t ← t.rebuildScapegoat fuel fuel nd.parent
    return (t, decide (0 ≤ d))
  else return (t, decide (0 ≤ d))

/-- `findLast`. -/
def findLast (h : Nodes α) (x : α) : Nat → Nat → Nat → Option Nat
  | 0, w, prev => if w = 0 then some prev else none
  | fuel + 1, w, prev =>
    if w = 0 then some prev
    else do
      let nd ← h w
      if x < nd.x then findLast h x fuel nd.left w
      else if nd.x < x then findLast h x fuel nd.right w
      else return w

/-- `BinarySearchTree::remove(const T &x)`. -/
def removeKey (t : NodeTree α) (fuel : Nat) (x : α) : Option (NodeTree α × Bool) := do
  let u ← findLast t.nodes x fuel t.r 0
  if u = 0 then return (t, false)
  else
    let nd ← t.nodes u
    if x < nd.x ∨ nd.x < x then return (t, false)
    else
      let t ← t.removeNode fuel u
      return (t, true)

/-- `remove`. -/
def remove (t : NodeTree α) (fuel : Nat) (x : α) : Option (NodeTree α × Bool) := do
  let (t, found) ← t.removeKey fuel x
  if found then
    let n2 ← int32 (2 * t.n)
    if n2 < t.q then
      let t ← t.rebuild fuel t.r
      return ({ t with q := t.n }, true)
    else return (t, true)
  else return (t, false)

/-! ## Rebuilding -/

section Build

variable {α : Type} {h : Nodes α}

theorem size_spec : ∀ {fuel p : Nat} {t : BinTree (Nat × α)}, Linked h p t → t.height ≤ fuel →
    size h fuel t.root = some t.size
  | 0, p, nil, _, _ => rfl
  | fuel + 1, p, nil, _, _ => rfl
  | 0, p, node l k r, _, hf => by
    rw [height_node] at hf
    omega
  | fuel + 1, p, node l (u, x) r, hl, hf => by
    obtain ⟨hu, hnode, hleft, hright⟩ := hl
    rw [height_node] at hf
    unfold size
    rw [root_node, if_neg hu, hnode]
    simp only [Option.bind_eq_bind, Option.bind_some, size_spec hleft (show l.height ≤ fuel by omega),
      size_spec hright (show r.height ≤ fuel by omega)]
    rfl

theorem packIntoArray_spec : ∀ {fuel p : Nat} {t : BinTree (Nat × α)} {a : List Nat}, Linked h p t →
    t.height ≤ fuel → packIntoArray h fuel t.root a = some (a ++ t.ptrs)
  | 0, p, nil, a, _, _ => by simp [packIntoArray]
  | fuel + 1, p, nil, a, _, _ => by simp [packIntoArray]
  | 0, p, node l k r, a, _, hf => by
    rw [height_node] at hf
    omega
  | fuel + 1, p, node l (u, x) r, a, hl, hf => by
    obtain ⟨hu, hnode, hleft, hright⟩ := hl
    rw [height_node] at hf
    unfold packIntoArray
    rw [root_node, if_neg hu, hnode]
    simp only [Option.bind_eq_bind, Option.bind_some, packIntoArray_spec hleft (show l.height ≤ fuel by omega),
      packIntoArray_spec hright (show r.height ≤ fuel by omega), ptrs_node, List.append_assoc, List.cons_append,
      List.nil_append]

/-- The addresses of the nodes that `buildBalanced` links. -/
theorem ptrs_buildBalanced {as : List (Nat × α)} {i ns : Nat} (hlen : i + ns ≤ as.length) :
    (Embark.buildBalanced as i ns).ptrs = ((as.drop i).take ns).map Prod.fst := by
  rw [ptrs, keys_buildBalanced as i ns hlen]

/-- `buildBalanced` links the nodes of the array, whatever pointers they hold, into the balanced tree
of their keys, and touches no other node. Its topmost node keeps its parent. -/
theorem buildBalanced_spec {as : List (Nat × α)} (hnodup : (as.map Prod.fst).Nodup) (i ns : Nat)
    (hlen : i + ns ≤ as.length) (h : Nodes α)
    (has : ∀ u x, (u, x) ∈ as → u ≠ 0 ∧ ∃ nd, h u = some nd ∧ nd.x = x) :
    ∃ h' p, buildBalanced (as.map Prod.fst) h i ns = some (h', (Embark.buildBalanced as i ns).root) ∧
      Linked h' p (Embark.buildBalanced as i ns) ∧
      (∀ u, u ∉ (Embark.buildBalanced as i ns).ptrs → h' u = h u) ∧ Nodes.SameKeys h h' := by
  induction i, ns using Embark.buildBalanced.induct (a := as) generalizing h with
  | case1 i =>
    have hnil : Embark.buildBalanced as i 0 = nil := by rw [Embark.buildBalanced, if_pos rfl]
    rw [hnil, buildBalanced, if_pos rfl]
    exact ⟨h, 0, rfl, trivial, fun _ _ => rfl, Nodes.SameKeys.refl h⟩
  | case2 i ns h0 m hm =>
    rw [List.getElem?_eq_none_iff] at hm
    omega
  | case3 i ns h0 m k hk ihl ihr =>
    obtain ⟨w, x⟩ := k
    have hmem : (w, x) ∈ as := List.mem_of_getElem? hk
    have hdef := buildBalanced_of_getElem h0 hk
    have hall : (Embark.buildBalanced as i ns).ptrs.Nodup := by
      rw [ptrs_buildBalanced hlen]
      exact hnodup.sublist (((List.take_sublist _ _).trans (List.drop_sublist _ _)).map _)
    rw [hdef] at hall ⊢
    rw [ptrs_node, List.nodup_append] at hall
    obtain ⟨hlnodup, hwr, hlr⟩ := hall
    obtain ⟨hw, hrnodup⟩ := List.nodup_cons.1 hwr
    have hlw : w ∉ (Embark.buildBalanced as i (ns / 2)).ptrs := fun hmem' => hlr w hmem' w (List.mem_cons_self ..) rfl
    -- the left half, hung below `w`
    obtain ⟨h1, p1, hb1, hl1, hsame1, hkeys1⟩ := ihl (by omega) h has
    obtain ⟨hw0, nd, hnd, hx⟩ := has w x hmem
    have hnd1 : h1 w = some nd := by rw [hsame1 w hlw, hnd]
    obtain ⟨h2, h3, hset2, hset3, hl3, hnd3, hsame3, hkeys3⟩ :=
      hl1.below (f := fun nd => { nd with left := (Embark.buildBalanced as i (ns / 2)).root }) hlnodup hlw hnd1 rfl
    have hkeys : Nodes.SameKeys h h3 := hkeys1.trans hkeys3
    -- the right half
    obtain ⟨h4, p4, hb4, hl4, hsame4, hkeys4⟩ := ihr (by omega) h3 (by
      intro u y hu
      obtain ⟨hu0, nd', hnd', hy⟩ := has u y hu
      obtain ⟨nd'', hnd'', hy'⟩ := hkeys.exists_node hnd'
      exact ⟨hu0, nd'', hnd'', hy'.trans hy⟩)
    have hnd4 : h4 w = some { nd with left := (Embark.buildBalanced as i (ns / 2)).root } := by rw [hsame4 w hw, hnd3]
    obtain ⟨h5, h6, hset5, hset6, hl6, hnd6, hsame6, hkeys6⟩ :=
      hl4.below (f := fun nd => { nd with right := (Embark.buildBalanced as (i + m + 1) (ns - m - 1)).root }) hrnodup
        hw hnd4 rfl
    refine ⟨h6, nd.parent, ?_, ⟨hw0, by rw [hnd6, ← hx], ?_, hl6⟩, ?_, (hkeys.trans hkeys4).trans hkeys6⟩
    · simp only [m] at hb1 hset3 hb4 hset5 hset6
      rw [buildBalanced, if_neg h0, List.getElem?_map, hk]
      simp only [Option.map_some, Option.bind_eq_bind, Option.bind_some, hb1, Nodes.setLeft, hset2, hset3, hb4,
        Nodes.setRight, hset5, hset6]
      rfl
    · have hfar : ∀ u ∈ (Embark.buildBalanced as i (ns / 2)).ptrs, u ≠ w ∧
          u ∉ (Embark.buildBalanced as (i + m + 1) (ns - m - 1)).ptrs :=
        fun u hu => ⟨fun he => hlw (he ▸ hu), fun hr => hlr u hu u (List.mem_cons_of_mem _ hr) rfl⟩
      refine hl3.congr fun u hu => ?_
      rw [hsame6 u (hfar u hu).1 (hfar u hu).2, hsame4 u (hfar u hu).2]
    · intro u hu
      rw [ptrs_node, List.mem_append, List.mem_cons, not_or, not_or] at hu
      obtain ⟨hul, huw, hur⟩ := hu
      rw [hsame6 u huw hur, hsame4 u hur, hsame3 u huw hul, hsame1 u hul]

theorem ptrs_rebuild (s : BinTree (Nat × α)) : (Embark.rebuild s).ptrs = s.ptrs := by
  rw [ptrs, keys_rebuild, ptrs]

theorem rebuild_ne_nil {s : BinTree (Nat × α)} (hne : s ≠ nil) : Embark.rebuild s ≠ nil := by
  intro he
  have hmem := root_mem_ptrs hne
  rw [← ptrs_rebuild, he] at hmem
  cases hmem

/-- `rebuild` puts the balanced tree of its nodes in the place of a subtree. -/
theorem rebuild_spec {t : NodeTree α} {ctx : List (Crumb (Nat × α))} {s : BinTree (Nat × α)} {lost : List Nat}
    {fuel : Nat} (hh : Holds t.nodes (zip ctx s) lost) (hr : t.r = (zip ctx s).root) (hne : s ≠ nil)
    (hf : s.height ≤ fuel) :
    ∃ h', t.rebuild fuel s.root = some { t with nodes := h', r := (zip ctx (Embark.rebuild s)).root } ∧
      Holds h' (zip ctx (Embark.rebuild s)) lost := by
  obtain ⟨haround, hl⟩ := linked_zip.1 hh.linked
  have hnodup := ((perm_zip ctx s).nodup_iff).1 hh.ptrs_nodup
  obtain ⟨hsn, -, hdis⟩ := List.nodup_append.1 hnodup
  have hptrs : (zip ctx (Embark.rebuild s)).ptrs = (zip ctx s).ptrs := by
    rw [ptrs, keys_zip_congr ctx (keys_rebuild s), ptrs]
  obtain ⟨h1, p1, hb1, hl1, hsame1, hkeys1⟩ :=
    buildBalanced_spec hsn 0 s.size (by rw [length_keys]; omega) t.nodes hl.mem_keys
  have hdef : Embark.buildBalanced s.keys 0 s.size = Embark.rebuild s := by
    rw [Embark.rebuild, packIntoArray_eq, List.nil_append]
  rw [hdef] at hb1 hl1 hsame1
  rw [ptrs_rebuild] at hsame1
  have hpack : packIntoArray t.nodes fuel s.root [] = some (s.keys.map Prod.fst) := by
    rw [packIntoArray_spec hl hf, List.nil_append, ptrs]
  obtain ⟨nd, hnd, hparent⟩ : ∃ nd, t.nodes s.root = some nd ∧ nd.parent = parentPtr ctx := by
    cases s with
    | nil => exact absurd rfl hne
    | node l k r => exact ⟨_, hl.2.1, rfl⟩
  unfold rebuild
  simp only [size_spec hl hf, hnd, hpack, hparent, Option.bind_eq_bind, Option.bind_some, hb1]
  have hrn : (Embark.rebuild s).ptrs.Nodup := by rwa [ptrs_rebuild]
  cases ctx with
  | nil =>
    obtain ⟨h2, hset2, hl2, -, hkeys2⟩ := hl1.setParent (rebuild_ne_nil hne) hrn 0
    refine ⟨h2, ?_, hh.relinked (hkeys1.trans hkeys2) hl2 (by rw [hptrs])⟩
    rw [if_pos (by rfl), hset2]
    rfl
  | cons c ctx =>
    have hc : c.ptr ≠ 0 := haround.1.1
    have hnode := haround.1.2.1
    have hfar : ∀ u ∈ ptrsAround (c :: ctx), h1 u = t.nodes u :=
      fun u hu => hsame1 u fun hmem => hdis u hmem u hu rfl
    obtain ⟨h2, h3, hset2, hset3, hl3, hkeys3⟩ := (haround.congr hfar).hang hl1 (by rwa [ptrs_rebuild])
    refine ⟨h3, ?_, hh.relinked (hkeys1.trans hkeys3) hl3 (by rw [hptrs])⟩
    have hroot : (Embark.rebuild s).root ≠ 0 := fun h0 => rebuild_ne_nil hne (hl1.root_eq_zero_iff.1 h0)
    rw [Nodes.setParentOf_of_ne hroot] at hset3
    rw [parentPtr, if_neg hc, hnode]
    simp only [Option.bind_some]
    rw [Crumb.setChild_of_right (sibling_root_ne hl hne hdis), hset2]
    simp only [Option.bind_some, hset3]
    rw [hr, root_zip_congr (t := Embark.rebuild s) (by simp)]
    rfl

/-- One round of the loop of `add`. -/
theorem rebuildScapegoat_step {t : NodeTree α} {fuel k w a b : Nat} {nd : TreeNode α}
    (ha : size t.nodes fuel w = some a) (hnd : t.nodes w = some nd) (hb : size t.nodes fuel nd.parent = some b) :
    t.rebuildScapegoat fuel (k + 1) w = (int32 (3 * a)).bind fun a3 => (int32 (2 * b)).bind fun b2 =>
      if a3 ≤ b2 then t.rebuildScapegoat fuel k nd.parent else t.rebuild fuel nd.parent := by
  rw [rebuildScapegoat, ha, Option.bind_eq_bind, Option.bind_some, hnd, Option.bind_eq_bind, Option.bind_some, hb,
    Option.bind_eq_bind, Option.bind_some]

/-- The loop of `add` over nodes rebuilds the subtree that it rebuilds over keys. -/
theorem rebuildScapegoat_spec {t : NodeTree α} {lost : List Nat} {fuel : Nat} {ctx : List (Crumb (Nat × α))}
    {s : BinTree (Nat × α)} {k : Nat} (hh : Holds t.nodes (zip ctx s) lost) (hr : t.r = (zip ctx s).root)
    (hne : s ≠ nil) (hf : (zip ctx s).height ≤ fuel) (hk : ctx.length < k) :
    Option.Rel (fun t' T => ∃ h', t' = { t with nodes := h', r := T.root } ∧ Holds h' T lost)
      (t.rebuildScapegoat fuel k s.root) (ScapegoatTree.rebuildScapegoat s ctx) := by
  induction ctx generalizing s k with
  | nil =>
    obtain ⟨k, rfl⟩ : ∃ j, k = j + 1 := ⟨k - 1, by omega⟩
    have hl : Linked t.nodes 0 s := hh.linked
    obtain ⟨nd, hnd, hparent, hpos⟩ : ∃ nd, t.nodes s.root = some nd ∧ nd.parent = 0 ∧ 0 < s.size := by
      cases s with
      | nil => exact absurd rfl hne
      | node l k r => exact ⟨_, hl.2.1, rfl, by rw [size_node]; omega⟩
    have hsize : size t.nodes fuel nd.parent = some 0 := by
      rw [hparent]
      cases fuel <;> rfl
    have hnone : t.rebuild fuel nd.parent = none := by
      unfold rebuild
      rw [hsize, hparent, hh.zero]
      rfl
    rw [rebuildScapegoat_step (size_spec hl hf) hnd hsize, hnone]
    cases ha3 : int32 (3 * s.size) with
    | none => exact .none
    | some a3 =>
      obtain ⟨-, rfl⟩ := int32_eq_some.1 ha3
      rw [Option.bind_some, int32_of_lt (by omega) (by omega), Option.bind_some, if_neg (by omega)]
      exact .none
  | cons c ctx ih =>
    obtain ⟨k, rfl⟩ : ∃ j, k = j + 1 := ⟨k - 1, by omega⟩
    obtain ⟨haround, hl⟩ := linked_zip.1 hh.linked
    have houter := (linked_zip.1 (show Linked t.nodes 0 (zip ctx (c.up s)) from hh.linked)).2
    have hheight : (c.up s).height ≤ fuel := by
      have hle := length_le_height_zip ctx (c.up s)
      rw [zip_cons] at hf
      omega
    have hs : s.height ≤ fuel := by
      have hlt := c.height_lt_height_up s
      omega
    obtain ⟨nd, hnd, hparent⟩ : ∃ nd, t.nodes s.root = some nd ∧ nd.parent = c.ptr := by
      cases s with
      | nil => exact absurd rfl hne
      | node l k r => exact ⟨_, hl.2.1, rfl⟩
    have hsize : size t.nodes fuel nd.parent = some (c.up s).size := by
      rw [hparent, ← c.root_up s, size_spec houter hheight]
    rw [rebuildScapegoat_step (size_spec hl hs) hnd hsize, hparent, ← Crumb.root_up c s,
      ScapegoatTree.rebuildScapegoat]
    cases int32 (3 * s.size) with
    | none => exact .none
    | some a3 =>
      cases int32 (2 * (c.up s).size) with
      | none => exact .none
      | some b2 =>
        simp only [Option.bind_eq_bind, Option.bind_some]
        split
        · exact ih (s := c.up s) hh hr (c.up_ne_nil s) hf (by rw [List.length_cons] at hk; omega)
        · obtain ⟨h', hrebuild, hh'⟩ := rebuild_spec (s := c.up s) hh hr (c.up_ne_nil s) hheight
          rw [hrebuild]
          exact .some ⟨h', rfl, hh'⟩

/-! ## Removing a node -/

/-- `splice` puts the only subtree of a node in its place; nothing points to the node any more. -/
theorem splice_spec {t : NodeTree α} {ctx : List (Crumb (Nat × α))} {l r : BinTree (Nat × α)} {u : Nat} {x : α}
    {lost : List Nat} {n : Int} (hh : Holds t.nodes (zip ctx (node l (u, x) r)) lost)
    (hr : t.r = (zip ctx (node l (u, x) r)).root) (hone : l = nil ∨ r = nil) (hn : int32 (t.n - 1) = some n) :
    ∃ h', t.splice u = some ⟨h', (ScapegoatTree.splice l r ctx).root, n, t.q⟩ ∧
      Holds (Function.update h' u none) (ScapegoatTree.splice l r ctx) lost := by
  obtain ⟨haround, hl⟩ := linked_zip.1 hh.linked
  have hnodup := ((perm_zip ctx _).nodup_iff).1 hh.ptrs_nodup
  obtain ⟨hsn, -, hdis⟩ := List.nodup_append.1 hnodup
  obtain ⟨hu, hnode, hleft, hright⟩ := hl
  -- the subtree that moves up
  obtain ⟨s, hs, hroot, hsl, hptrs⟩ : ∃ s, ScapegoatTree.splice l r ctx = zip ctx s ∧
      (if l.root ≠ 0 then l.root else r.root) = s.root ∧ Linked t.nodes u s ∧
      (node l (u, x) r).ptrs.Perm (u :: s.ptrs) := by
    rcases hone with rfl | rfl
    · exact ⟨r, rfl, if_neg (by simp), hright, by rw [ptrs_node]; rfl⟩
    · cases l with
      | nil => exact ⟨nil, rfl, if_neg (by simp), trivial, by rw [ptrs_node]; rfl⟩
      | node ll lk lr =>
        refine ⟨node ll lk lr, rfl, if_pos hleft.1, hleft, ?_⟩
        rw [ptrs_node]
        exact List.perm_append_comm
  have hperm : (zip ctx (node l (u, x) r)).ptrs.Perm (u :: (zip ctx s).ptrs) := by
    refine (perm_zip ctx _).trans ((hptrs.append_right _).trans ?_)
    exact (perm_zip ctx s).symm.cons u
  have hnodup' := ((hptrs.append_right _).nodup_iff).1 hnodup
  rw [List.cons_append, List.nodup_cons] at hnodup'
  rw [hs]
  unfold splice
  simp only [hnode, hroot, hn, Option.bind_eq_bind, Option.bind_some]
  cases ctx with
  | nil =>
    obtain ⟨h', hset, hl', -, hkeys⟩ := hsl.setParentOf (List.nodup_append.1 hnodup'.2).1 0
    refine ⟨h', ?_, hh.deleted hkeys hl' hperm⟩
    rw [if_pos (show u = t.r from hr.symm), hset]
    rfl
  | cons c ctx =>
    obtain ⟨h1, h2, hset1, hset2, hl', hkeys⟩ := haround.hang hsl hnodup'.2
    refine ⟨h2, ?_, hh.deleted hkeys hl' hperm⟩
    have htop : u ≠ t.r := by
      rw [hr]
      exact hdis u (by simp) _ (root_zip_mem _ (by simp))
    rw [if_neg htop, parentPtr, haround.1.2.1]
    simp only [Option.bind_some]
    have hside : c.sibling.root ≠ u :=
      sibling_root_ne (show Linked t.nodes _ (node l (u, x) r) from ⟨hu, hnode, hleft, hright⟩) (by simp) hdis
    rw [root_node, Crumb.setChild_of_left hside, hset1]
    simp only [Option.bind_some, hset2]
    rw [hr, root_zip_congr (t := s) (by simp)]
    rfl

/-- The loop `while (w->left != nil)` over nodes. -/
theorem leftmost_spec : ∀ {fuel : Nat} {l r : BinTree (Nat × α)} {k : Nat × α}
    {ctx path : List (Crumb (Nat × α))} {z : Nat × α} {wright : BinTree (Nat × α)} {p : Nat},
    Linked h p (node l k r) → (node l k r).height ≤ fuel →
    ScapegoatTree.leftmost l k r ctx = (z, wright, path) → leftmost h fuel k.1 = some z.1
  | 0, l, r, k, ctx, path, z, wright, p, _, hf, _ => by
    rw [height_node] at hf
    omega
  | fuel + 1, nil, r, k, ctx, path, z, wright, p, hl, hf, h => by
    obtain ⟨rfl, -, -⟩ : k = z ∧ r = wright ∧ ctx = path := by simpa [ScapegoatTree.leftmost] using h
    obtain ⟨u, x⟩ := k
    unfold leftmost
    rw [hl.2.1]
    rfl
  | fuel + 1, node ll lk lr, r, k, ctx, path, z, wright, p, hl, hf, h => by
    obtain ⟨u, x⟩ := k
    obtain ⟨v, y⟩ := lk
    obtain ⟨-, hnode, hleft, -⟩ := hl
    have hv : (node ll (v, y) lr).root ≠ 0 := hleft.1
    have hrec := leftmost_spec hleft (show (node ll (v, y) lr).height ≤ fuel by rw [height_node] at hf; omega) h
    unfold leftmost
    rw [hnode]
    simp only [Option.bind_eq_bind, Option.bind_some]
    rw [if_pos hv]
    exact hrec

/-- `remove(Node *u)`: the node, or the one whose key it takes, is deleted. -/
theorem removeNode_spec {t : NodeTree α} {ctx : List (Crumb (Nat × α))} {l r : BinTree (Nat × α)}
    {u : Nat} {x : α} {lost : List Nat} {fuel : Nat} {n : Int} (hh : Holds t.nodes (zip ctx (node l (u, x) r)) lost)
    (hr : t.r = (zip ctx (node l (u, x) r)).root) (hf : (node l (u, x) r).height ≤ fuel)
    (hn : int32 (t.n - 1) = some n) :
    ∃ h' T, t.removeNode fuel u = some ⟨h', T.root, n, t.q⟩ ∧ Holds h' T lost ∧ T.map Prod.snd =
      ScapegoatTree.removeNode (l.map Prod.snd) (r.map Prod.snd) (ctx.map (Crumb.map Prod.snd)) := by
  obtain ⟨haround, hl⟩ := linked_zip.1 hh.linked
  obtain ⟨hu, hnode, hleft, hright⟩ := hl
  unfold removeNode
  rw [hnode]
  simp only [Option.bind_eq_bind, Option.bind_some]
  by_cases hone : l = nil ∨ r = nil
  · obtain ⟨h', hsplice, hh'⟩ := splice_spec hh hr hone hn
    rw [if_pos (hone.imp hleft.root_eq_zero_iff.2 hright.root_eq_zero_iff.2), hsplice]
    refine ⟨_, _, rfl, hh', ?_⟩
    rw [ScapegoatTree.splice_map]
    rcases hone with rfl | rfl
    · rfl
    · cases l <;> rfl
  · obtain ⟨hlne, hrne⟩ := not_or.1 hone
    rw [if_neg (not_or.2 ⟨fun h0 => hlne (hleft.root_eq_zero_iff.1 h0),
      fun h0 => hrne (hright.root_eq_zero_iff.1 h0)⟩)]
    obtain ⟨ll, lk, lr, rfl⟩ := exists_node hlne
    obtain ⟨rl, rk, rr, rfl⟩ := exists_node hrne
    obtain ⟨z, wright, path, hw⟩ : ∃ z wright path, ScapegoatTree.leftmost rl rk rr [] = (z, wright, path) :=
      ⟨_, _, _, rfl⟩
    have hzip := (ScapegoatTree.leftmost_spec hw).1
    have hleast := leftmost_spec hright (show (node rl rk rr).height ≤ fuel by rw [height_node] at hf; omega) hw
    obtain ⟨-, wn, hwn, hx⟩ := hright.mem_keys z.1 z.2 (by
      rw [← zip_nil (node rl rk rr), ← hzip, keys_zip]
      simp)
    obtain ⟨h1, hset, hh1⟩ := hh.rekeyed z.2
    -- the tree as it is seen from `w`
    have hat : zip ctx (node (node ll lk lr) (u, z.2) (node rl rk rr)) =
        zip (path ++ .right (node ll lk lr) (u, z.2) :: ctx) (node nil z wright) := by
      rw [zip_append, hzip]
      rfl
    rw [hat] at hh1
    have hr1 : t.r = (zip (path ++ .right (node ll lk lr) (u, z.2) :: ctx) (node nil z wright)).root := by
      rw [hr, ← hat]
      cases ctx with
      | nil => rfl
      | cons c ctx => exact root_zip_congr (by simp)
    obtain ⟨h2, hsplice, hh2⟩ := splice_spec (t := { t with nodes := h1 }) (u := z.1) (x := z.2) hh1 hr1
      (.inl rfl) hn
    have hroot : (node rl rk rr).root = rk.1 := rfl
    rw [hroot, hleast]
    simp only [Option.bind_some, hwn, hx, hset, hsplice]
    refine ⟨_, _, rfl, hh2, ?_⟩
    rw [ScapegoatTree.splice_map]
    have hmap := ScapegoatTree.leftmost_map (f := Prod.snd) hw
    simp only [map_node, ScapegoatTree.removeNode]
    rw [List.map_nil] at hmap
    simp only [hmap, List.map_append, List.map_cons, Crumb.map, map_node, map_nil]

/-- Without a count to lower the node stays. -/
theorem removeNode_none {t : NodeTree α} {u fuel : Nat} (hn : int32 (t.n - 1) = none) :
    t.removeNode fuel u = none := by
  have hsplice : ∀ (h : Nodes α) (w : Nat), { t with nodes := h }.splice w = none := by
    intro h w
    unfold splice
    rw [hn]
    exact Option.bind_eq_none_iff.2 fun _ _ => rfl
  unfold removeNode
  cases t.nodes u with
  | none => rfl
  | some nd =>
    simp only [Option.bind_eq_bind, Option.bind_some]
    split
    · rw [hsplice t.nodes u]
      rfl
    · refine Option.bind_eq_none_iff.2 fun w _ => Option.bind_eq_none_iff.2 fun wn _ =>
        Option.bind_eq_none_iff.2 fun h _ => ?_
      rw [hsplice h w]
      rfl

end Build

/-! ## Calls -/

section Calls

variable {h : Nodes α} {x : α}

/-- The descent of `findLast` over nodes ends where it ends over keys. -/
theorem findLast_spec : ∀ {s P T : BinTree (Nat × α)} {ctx pctx : List (Crumb (Nat × α))} {fuel p : Nat},
    Linked h p s → s.height ≤ fuel → zip ctx s = T → P = nil ∨ zip pctx P = T →
    ∃ S sctx, findLast h x fuel s.root P.root = some S.root ∧
      ScapegoatTree.findLast x (s.map Prod.snd) (ctx.map (Crumb.map Prod.snd))
        (P.map Prod.snd, pctx.map (Crumb.map Prod.snd)) = (S.map Prod.snd, sctx.map (Crumb.map Prod.snd)) ∧
      (S = nil ∨ zip sctx S = T)
  | nil, P, T, ctx, pctx, fuel, p, _, _, _, hP => ⟨P, pctx, by cases fuel <;> rfl, rfl, hP⟩
  | node l (u, y) r, P, T, ctx, pctx, 0, p, _, hf, _, _ => by
    rw [height_node] at hf
    omega
  | node l (u, y) r, P, T, ctx, pctx, fuel + 1, p, hl, hf, hT, hP => by
    obtain ⟨hu, hnode, hleft, hright⟩ := hl
    rw [height_node] at hf
    have hhere : node l (u, y) r = nil ∨ zip ctx (node l (u, y) r) = T := .inr hT
    unfold findLast
    rw [root_node, if_neg hu, hnode]
    simp only [Option.bind_eq_bind, Option.bind_some, map_node, ScapegoatTree.findLast]
    split
    · exact findLast_spec hleft (by omega) (show zip (.left (u, y) r :: ctx) l = T from hT) hhere
    · split
      · exact findLast_spec hright (by omega) (show zip (.right l (u, y) :: ctx) r = T from hT) hhere
      · exact ⟨node l (u, y) r, ctx, rfl, rfl, .inr hT⟩

/-- The descent of `addWithDepth` over nodes finds the place that it finds over keys, and links the
new node in there. -/
theorem addLoop_spec {u : Nat} {x : α} (hu : u ≠ 0) (hnew : h u = some ⟨0, 0, 0, x⟩) :
    ∀ {s : BinTree (Nat × α)} {ctx : List (Crumb (Nat × α))} {fuel : Nat} {d : Int}, Linked h 0 (zip ctx s) →
    (u :: (zip ctx s).ptrs).Nodup → s ≠ nil → s.height ≤ fuel →
    (ScapegoatTree.findPlace x (s.map Prod.snd) (ctx.map (Crumb.map Prod.snd)) = none ∧
      addLoop u x fuel h s.root d = some (h, -1)) ∨
    ∃ (ctx' : List (Crumb (Nat × α))) (h' : Nodes α),
    ScapegoatTree.findPlace x (s.map Prod.snd) (ctx.map (Crumb.map Prod.snd)) =
        some (ctx'.map (Crumb.map Prod.snd)) ∧ ctx.length < ctx'.length ∧ zip ctx' nil = zip ctx s ∧
      addLoop u x fuel h s.root d = some (h', d + (ctx'.length - ctx.length : Int)) ∧
      Linked h' 0 (zip ctx' (node nil (u, x) nil)) ∧ Nodes.SameKeys h h'
  | nil, ctx, fuel, d, _, _, hne, _ => absurd rfl hne
  | node l (w, y) r, ctx, 0, d, _, _, _, hf => by
    rw [height_node] at hf
    omega
  | node l (w, y) r, ctx, fuel + 1, d, hl, hnodup, _, hf => by
    obtain ⟨-, -, hnode, hleft, hright⟩ := linked_zip.1 hl
    rw [height_node] at hf
    -- one more ancestor on either side
    have hdeeper : ∀ n : Nat, d + 1 + ((n : Int) - (ctx.length + 1 : Nat)) = d + (n - ctx.length) := by
      intro n
      omega
    have hhere : d + 1 = d + ((ctx.length + 1 : Nat) - ctx.length : Int) := by omega
    unfold addLoop
    rw [root_node, hnode]
    simp only [Option.bind_eq_bind, Option.bind_some, map_node, ScapegoatTree.findPlace]
    split
    · by_cases h0 : l = nil
      · subst h0
        obtain ⟨h1, h2, hset1, hset2, hl2, hkeys⟩ := LinkedAround.hang_leaf (c := .left (w, y) r) hu hnew hl hnodup
        have hset1' : h.setLeft w u = some h1 := hset1
        have hset2' : h1.setParent u w = some h2 := hset2
        refine .inr ⟨.left (w, y) r :: ctx, h2, rfl, by simp, rfl, ?_, hl2, hkeys⟩
        rw [root_nil, if_pos rfl, hset1', Option.bind_some, hset2', Option.bind_some, hhere]
        rfl
      · rw [if_neg fun hroot => h0 (hleft.root_eq_zero_iff.1 hroot)]
        rcases addLoop_spec (d := d + 1) hu hnew (show Linked h 0 (zip (.left (w, y) r :: ctx) l) from hl) hnodup h0
          (show l.height ≤ fuel by omega) with hnone | ⟨ctx', h', hplace, hlen, hzip, hrun, hl', hkeys⟩
        · exact .inl hnone
        · rw [List.length_cons] at hlen hrun
          rw [hdeeper] at hrun
          exact .inr ⟨ctx', h', hplace, by omega, hzip, hrun, hl', hkeys⟩
    · split
      · by_cases h0 : r = nil
        · subst h0
          obtain ⟨h1, h2, hset1, hset2, hl2, hkeys⟩ :=
            LinkedAround.hang_leaf (c := .right l (w, y)) hu hnew hl hnodup
          have hset1' : h.setRight w u = some h1 := hset1
          have hset2' : h1.setParent u w = some h2 := hset2
          refine .inr ⟨.right l (w, y) :: ctx, h2, rfl, by simp, rfl, ?_, hl2, hkeys⟩
          rw [root_nil, if_pos rfl, hset1', Option.bind_some, hset2', Option.bind_some, hhere]
          rfl
        · rw [if_neg fun hroot => h0 (hright.root_eq_zero_iff.1 hroot)]
          rcases addLoop_spec (d := d + 1) hu hnew (show Linked h 0 (zip (.right l (w, y) :: ctx) r) from hl) hnodup h0
            (show r.height ≤ fuel by omega) with hnone | ⟨ctx', h', hplace, hlen, hzip, hrun, hl', hkeys⟩
          · exact .inl hnone
          · rw [List.length_cons] at hlen hrun
            rw [hdeeper] at hrun
            exact .inr ⟨ctx', h', hplace, by omega, hzip, hrun, hl', hkeys⟩
      · exact .inl ⟨rfl, rfl⟩

/-- The nodes are those of a tree of the keys of `s`, with the counters of `s`, and the ones at `lost`. -/
structure Represents (t : NodeTree α) (T : BinTree (Nat × α)) (lost : List Nat) (s : ScapegoatTree α) : Prop where
  holds : Holds t.nodes T lost
  root : t.r = T.root
  keys : T.map Prod.snd = s.r
  n : t.n = s.n
  q : t.q = s.q

variable {t : NodeTree α} {T : BinTree (Nat × α)} {lost : List Nat} {s : ScapegoatTree α} {fuel : Nat}

theorem Represents.removeKey (hrep : Represents t T lost s) (hf : T.height ≤ fuel) (x : α) :
    Option.Rel (fun p p' => p.2 = p'.2 ∧ ∃ T', Represents p.1 T' lost p'.1 ∧ T'.height ≤ T.height)
      (t.removeKey fuel x) (s.removeKey x) := by
  obtain ⟨S, sctx, hnode, hkeys, hS⟩ :=
    findLast_spec (x := x) hrep.holds.linked hf (show zip [] T = T from rfl)
      (show (nil : BinTree (Nat × α)) = nil ∨ zip [] nil = T from .inl rfl)
  have hkeys' : ScapegoatTree.findLast x s.r [] (nil, []) = (S.map Prod.snd, sctx.map (Crumb.map Prod.snd)) := by
    rw [← hrep.keys]
    exact hkeys
  unfold NodeTree.removeKey ScapegoatTree.removeKey
  rw [hkeys', hrep.root]
  rw [root_nil] at hnode
  rw [hnode]
  cases S with
  | nil => exact .some ⟨rfl, T, hrep, le_rfl⟩
  | node l k r =>
    obtain ⟨u, y⟩ := k
    obtain hS := hS.resolve_left (by simp)
    have hh := hrep.holds
    have hroot := hrep.root
    rw [← hS] at hh hroot
    obtain ⟨-, hu, hat, -, -⟩ := linked_zip.1 hh.linked
    simp only [Option.bind_eq_bind, Option.bind_some, root_node, if_neg hu, hat, map_node]
    by_cases hne : x < y ∨ y < x
    · rw [if_pos hne, if_pos hne]
      exact .some ⟨rfl, T, hrep, le_rfl⟩
    · rw [if_neg hne, if_neg hne]
      have hheight : (node l (u, y) r).height ≤ T.height := by
        have hle := length_le_height_zip sctx (node l (u, y) r)
        rw [hS] at hle
        omega
      rw [← hrep.n]
      cases hn : int32 (t.n - 1) with
      | none =>
        rw [removeNode_none hn]
        exact .none
      | some n =>
        obtain ⟨h', T', hremove, hh', hT'⟩ := removeNode_spec hh hroot (hheight.trans hf) hn
        rw [hremove]
        refine .some ⟨rfl, T', ⟨hh', rfl, hT', rfl, hrep.q⟩, ?_⟩
        rw [← height_map Prod.snd, hT', ← height_map Prod.snd T, ← hS, map_zip]
        exact (ScapegoatTree.removeNode_spec _ _ y _).2

/-- `remove` over nodes computes what it computes over keys. -/
theorem Represents.remove (hrep : Represents t T lost s) (hf : T.height ≤ fuel) (x : α) :
    Option.Rel (fun p p' => p.2 = p'.2 ∧ ∃ T', Represents p.1 T' lost p'.1) (t.remove fuel x) (s.remove x) := by
  unfold NodeTree.remove ScapegoatTree.remove
  have hkey := hrep.removeKey hf x
  revert hkey
  generalize t.removeKey fuel x = a
  generalize s.removeKey x = b
  rintro (@⟨⟨t1, found⟩, ⟨s1, found'⟩, hfound, T1, hrep1, hheight⟩ | _)
  · obtain rfl : found = found' := hfound
    simp only [Option.bind_eq_bind, Option.bind_some]
    cases found with
    | false => exact .some ⟨rfl, T1, hrep1⟩
    | true =>
      rw [if_pos rfl, if_pos rfl, hrep1.n, hrep1.q]
      cases int32 (2 * s1.n) with
      | none => exact .none
      | some n2 =>
        simp only [Option.bind_some]
        by_cases hq : n2 < s1.q
        · rw [if_pos hq, if_pos hq]
          have hkeys := hrep1.keys
          have hh := hrep1.holds
          rw [hrep1.root, ← hkeys]
          cases T1 with
          | nil =>
            have hnone : t1.rebuild fuel 0 = none := by
              unfold NodeTree.rebuild
              rw [hh.zero]
              cases fuel <;> rfl
            rw [root_nil, hnone]
            exact .none
          | node l k r =>
            obtain ⟨h', hrebuild, hh'⟩ := rebuild_spec
              (show Holds t1.nodes (zip [] (node l k r)) lost from hh) hrep1.root (by simp) (hheight.trans hf)
            rw [hrebuild]
            refine .some ⟨rfl, Embark.rebuild (node l k r), hh', rfl, ?_, hrep1.n, hrep1.n⟩
            rw [map_rebuild]
            rfl
        · rw [if_neg hq, if_neg hq]
          exact .some ⟨rfl, T1, hrep1⟩
  · exact .none

section Add

variable {u : Nat} (hrep : Represents t T lost s) (hf : T.height < fuel) (hu : u ≠ 0) (hfree : t.nodes u = none)
include hrep hf hu hfree

/-- `addWithDepth` on the new node: its key is stored and it stays apart, or it is linked in at the
place of the key. -/
theorem Represents.addWithDepth (x : α) :
    Option.Rel (fun p p' => p.2 = p'.2.1 ∧
        (p.2 = -1 ∧ p'.2.2 = [] ∧ (∃ nd, p.1.nodes u = some nd ∧ nd.parent = 0) ∧
          Represents p.1 T (u :: lost) p'.1 ∨
          ∃ ctx : List (Crumb (Nat × α)), p.2 = (ctx.length : Int) ∧ p'.2.2 = ctx.map (Crumb.map Prod.snd) ∧
            zip ctx nil = T ∧ Represents p.1 (zip ctx (node nil (u, x) nil)) lost p'.1))
      ({ t with nodes := Function.update t.nodes u (some ⟨0, 0, 0, x⟩) }.addWithDepth fuel u x)
      (s.addWithDepth x) := by
  have hh := hrep.holds
  have hroot := hrep.root
  have hnodup : (u :: T.ptrs).Nodup :=
    List.nodup_cons.2 ⟨fun hmem => hh.fresh hfree (List.mem_append_left _ hmem), hh.ptrs_nodup⟩
  have hrefused : Holds (Function.update t.nodes u (some ⟨0, 0, 0, x⟩)) T (u :: lost) := hh.refused hu hfree
  have hnew : Function.update t.nodes u (some ⟨0, 0, 0, x⟩) u = some ⟨0, 0, 0, x⟩ := Function.update_self ..
  unfold NodeTree.addWithDepth ScapegoatTree.addWithDepth
  simp only [← hrep.keys, hrep.n, hrep.q]
  by_cases hnil : T = nil
  · subst hnil
    rw [if_pos (show t.r = 0 from hroot)]
    simp only [map_nil, ScapegoatTree.findPlace, Option.bind_eq_bind]
    cases int32 (s.n + 1) with
    | none => exact .none
    | some n =>
      simp only [Option.bind_some]
      cases int32 (s.q + 1) with
      | none => exact .none
      | some q =>
        refine .some ⟨rfl, .inr ⟨[], rfl, rfl, rfl, ?_, rfl, rfl, rfl, rfl⟩⟩
        exact hh.added hu hfree (Nodes.SameKeys.refl _) ⟨hu, hnew, trivial, trivial⟩ (List.Perm.refl _)
  · rw [if_neg (show ¬ t.r = 0 from fun h0 => hnil (hh.linked.root_eq_zero_iff.1 (hroot ▸ h0))), hroot]
    rcases addLoop_spec (d := 0) hu hnew (show Linked _ 0 (zip [] T) from hrefused.linked) hnodup hnil hf.le with
      ⟨hplace, hloop⟩ | ⟨ctx, h', hplace, hlen, hzip, hloop, hl', hkeys⟩
    · rw [List.map_nil] at hplace
      rw [hplace, hloop]
      exact .some ⟨rfl, .inl ⟨rfl, rfl, ⟨_, hnew, rfl⟩, hrefused, rfl, hrep.keys, rfl, rfl⟩⟩
    · rw [List.map_nil] at hplace
      rw [hplace, hloop]
      have hd : (0 : Int) + (ctx.length - ([] : List (Crumb (Nat × α))).length : Int) = ctx.length := by simp
      simp only [Option.bind_eq_bind, Option.bind_some, hd]
      rw [if_neg (by omega)]
      cases int32 (s.n + 1) with
      | none => exact .none
      | some n =>
        simp only [Option.bind_some]
        cases int32 (s.q + 1) with
        | none => exact .none
        | some q =>
          refine .some ⟨by simp, .inr ⟨ctx, rfl, rfl, hzip, ?_, ?_, ?_, rfl, rfl⟩⟩
          · refine hh.added hu hfree hkeys hl' ((perm_zip ctx _).trans ?_)
            rw [show T = zip ctx nil from hzip.symm]
            exact ((perm_zip ctx nil).cons u).symm
          · have hne : ctx ≠ [] := List.ne_nil_of_length_pos (by omega)
            rw [root_zip_congr (t := nil) hne, hzip, zip_nil]
          · rw [map_zip]
            rfl

/-- `add` over nodes computes what it computes over keys; the node of a refused key is lost. -/
theorem Represents.add (x : α) : Option.Rel (fun p p' => p.2 = p'.2 ∧
      ∃ T', Represents p.1 T' (if p.2 then lost else u :: lost) p'.1) (t.add fuel u x) (s.add x) := by
  have hdepth := hrep.addWithDepth hf hu hfree x
  unfold NodeTree.add ScapegoatTree.add
  revert hdepth
  generalize NodeTree.addWithDepth _ fuel u x = a
  generalize s.addWithDepth x = b
  rintro (@⟨⟨t1, d⟩, ⟨s1, d', ctx'⟩, hd, hcase⟩ | _)
  · obtain rfl : d = d' := hd
    simp only [Option.bind_eq_bind, Option.bind_some]
    have hnil : ∀ (t1 : NodeTree α), t1.nodes 0 = none → t1.rebuildScapegoat fuel fuel 0 = none := by
      intro t1 h0
      cases fuel with
      | zero => rfl
      | succ fuel =>
        unfold NodeTree.rebuildScapegoat
        rw [h0]
        rfl
    rcases hcase with ⟨rfl, rfl, ⟨nd, hnd, hparent⟩, hrep1⟩ | ⟨ctx, rfl, rfl, hzip, hrep1⟩
    · rw [hrep1.q]
      split
      · rw [hnd, Option.bind_some, hparent, hnil t1 hrep1.holds.zero]
        exact .none
      · exact .some ⟨rfl, T, hrep1⟩
    · rw [hrep1.q]
      have hpos : decide (0 ≤ (ctx.length : Int)) = true := decide_eq_true (by omega)
      simp only [hpos]
      have hlen := length_le_height_zip ctx nil
      have hle := height_zip_le ctx nil (node nil (u, x) nil)
      rw [hzip, height_nil] at hlen
      rw [hzip, height_node, height_nil] at hle
      have hheight : (zip ctx (node nil (u, x) nil)).height ≤ fuel := by omega
      have hrounds : ctx.length ≤ fuel := by omega
      have hh := hrep1.holds
      have hroot := hrep1.root
      split
      · cases ctx with
        | nil =>
          obtain ⟨-, hat, -, -⟩ := hh.linked
          rw [hat, Option.bind_some, hnil t1 hh.zero]
          exact .none
        | cons c ctx =>
          obtain ⟨-, -, hat, -, -⟩ := linked_zip.1 hh.linked
          have hrec :=
            rebuildScapegoat_spec (show Holds t1.nodes (zip ctx (c.up (node nil (u, x) nil))) lost from hh) hroot
            (c.up_ne_nil _) hheight (show ctx.length < fuel by rw [List.length_cons] at hrounds; omega)
          have hmap := ScapegoatTree.rebuildScapegoat_map Prod.snd (c.up (node nil (u, x) nil)) ctx
          rw [map_up] at hmap
          rw [hat, Option.bind_some, parentPtr, List.map_cons]
          simp only [map_node, map_nil] at hmap
          simp only [hmap]
          rw [Crumb.root_up] at hrec
          revert hrec
          generalize ScapegoatTree.rebuildScapegoat (c.up (node nil (u, x) nil)) ctx = b
          generalize t1.rebuildScapegoat fuel fuel c.ptr = a
          rintro (@⟨t2, T2, h2, rfl, hh2⟩ | _)
          · exact .some ⟨rfl, T2, hh2, rfl, rfl, hrep1.n, hrep1.q⟩
          · exact .none
      · exact .some ⟨rfl, _, hrep1⟩
  · exact .none

end Add

end Calls

/-! ## Tours -/

section Tours

variable {α : Type} {t : NodeTree α} {T : BinTree (Nat × α)} {lost : List Nat} {rounds : Nat}

theorem actions_clearVisit (h : Nodes α) (vs : List (Nat × Nat × TreeNode α)) (u : Nat) :
    actions clearVisit h vs u =
    if u ∈ (vs.filter fun v => v.2.2.next v.2.1 = v.2.2.parent).map Prod.fst then none else h u := by
  induction vs generalizing h with
  | nil => rfl
  | cons v vs ih =>
    have hcons : actions clearVisit h (v :: vs) = actions clearVisit (clearVisit v.1 v.2.1 v.2.2 h) vs := rfl
    rw [hcons, ih, List.filter_cons]
    by_cases hv : v.2.2.next v.2.1 = v.2.2.parent
    · have hdelete : clearVisit v.1 v.2.1 v.2.2 h = Function.update h v.1 none := if_pos hv
      rw [if_pos (decide_eq_true hv), List.map_cons, hdelete]
      by_cases hu : u = v.1
      · rw [hu, Function.update_self, if_pos (List.mem_cons_self ..), ite_self]
      · rw [Function.update_of_ne hu]
        simp only [List.mem_cons, hu, false_or]
    · have hkeep : clearVisit v.1 v.2.1 v.2.2 h = h := if_neg hv
      have hno : ¬ decide (v.2.2.next v.2.1 = v.2.2.parent) = true := by rwa [decide_eq_true_iff]
      rw [hkeep, if_neg hno]

theorem local_clearVisit : Local (σ := Nodes α) id clearVisit where
  other h u prev nd v hv := by
    show clearVisit u prev nd h v = h v
    unfold clearVisit
    split_ifs
    · exact Function.update_of_ne hv _ _
    · rfl
  early h u prev nd hne := by
    show clearVisit u prev nd h u = h u
    unfold clearVisit
    rw [if_neg hne]

theorem actions_size2Visit (vs : List (Nat × Nat × TreeNode α)) (n : Nat) :
    actions size2Visit n vs = n + (vs.filter fun v => v.2.1 = v.2.2.parent).length := by
  induction vs generalizing n with
  | nil => rfl
  | cons v vs ih =>
    have hcons : actions size2Visit n (v :: vs) = actions size2Visit (size2Visit v.1 v.2.1 v.2.2 n) vs := rfl
    rw [hcons, ih, List.filter_cons]
    by_cases hv : v.2.1 = v.2.2.parent
    · have hcount : size2Visit v.1 v.2.1 v.2.2 n = n + 1 := if_pos hv
      rw [if_pos (decide_eq_true hv), hcount, List.length_cons]
      omega
    · have hkeep : size2Visit v.1 v.2.1 v.2.2 n = n := if_neg hv
      have hno : ¬ decide (v.2.1 = v.2.2.parent) = true := by rwa [decide_eq_true_iff]
      rw [hkeep, if_neg hno]

/-- A tour of the nodes of a tree takes two rounds for each but one, and reads no other node. -/
theorem tour {σ : Type} {mem : σ → Nodes α} {act : Nat → Nat → TreeNode α → σ → σ}
    (hlocal : Local mem act) {s : σ}
    (hmem : mem s = t.nodes) (hh : Holds t.nodes T lost) (hr : t.r = T.root) (hrounds : 2 * T.size ≤ rounds) :
    walk mem act rounds s t.r 0 = some (actions act s (visits 0 T)) := by
  rw [hr]
  by_cases hne : T = nil
  · subst hne
    cases rounds <;> rfl
  · have hlen := length_visits 0 hne
    obtain ⟨k, rfl⟩ := Nat.exists_eq_add_of_le' (show (visits 0 T).length ≤ rounds by omega)
    rw [hlocal.walk_visits k (by rw [hmem]; exact hh.linked) hne hh.ptrs_nodup hh.zero_notMem_ptrs]
    cases k <;> rfl

/-- `clear` reads no node it has deleted, and leaves what the tree does not hold. -/
theorem clear_spec (hh : Holds t.nodes T lost) (hr : t.r = T.root) (hrounds : 2 * T.size ≤ rounds) :
    ∃ h', t.clear rounds = some { t with nodes := h', r := 0 } ∧ Holds h' nil lost := by
  unfold clear
  rw [tour local_clearVisit (s := t.nodes) rfl hh hr hrounds]
  refine ⟨_, rfl, trivial, (List.nodup_append.1 hh.nodup).2.1, fun u => ?_, ?_⟩
  · rw [actions_clearVisit]
    simp only [(perm_exits hh.linked hh.ptrs_nodup hh.zero_notMem_ptrs).mem_iff]
    split_ifs with hu
    · refine iff_of_false (by simp) ?_
      rintro (hmem | hmem)
      · cases hmem
      · exact (List.nodup_append.1 hh.nodup).2.2 u hu u hmem rfl
    · rw [hh.alloc, or_iff_right hu, ptrs_nil, or_iff_right List.not_mem_nil]
  · rw [actions_clearVisit, hh.zero, ite_self]

/-- `size2` counts the nodes of the tree. -/
theorem size2_spec (hh : Holds t.nodes T lost) (hr : t.r = T.root) (hrounds : 2 * T.size ≤ rounds) :
    t.size2 rounds = some T.size := by
  have hlocal : Local (fun _ : Nat => t.nodes) size2Visit := ⟨fun _ _ _ _ _ _ => rfl, fun _ _ _ _ _ => rfl⟩
  unfold size2
  rw [tour hlocal rfl hh hr hrounds, actions_size2Visit, Nat.zero_add,
    ← List.length_map (f := Prod.fst), (perm_entries hh.linked hh.ptrs_nodup hh.zero_notMem_ptrs).length_eq,
      length_ptrs]

end Tours

/-! ## Runs -/

/-- A call; an addition comes with the address that `new Node` returns in it. -/
inductive Call (α : Type)
  | add (x : α) (u : Nat)
  | remove (x : α)
deriving Repr, DecidableEq

namespace Call

/-- The call as the caller makes it. -/
def op : Call α → Op α
  | add x _ => .add x
  | remove x => .remove x

/-- The node of a key that is stored already. -/
def refused (s : Finset α) : Call α → List Nat
  | add x u => if x ∈ s then [u] else []
  | remove _ => []

/-- The nodes of the refused keys of a sequence of calls, the last one first. -/
def allRefused : Finset α → List (Call α) → List Nat
  | _, [] => []
  | s, c :: cs => allRefused (c.op.onSet s).1 cs ++ c.refused s

end Call

/-- The empty tree; nothing is allocated. -/
def empty : NodeTree α := ⟨fun _ => none, 0, 0, 0⟩

/-- A call. -/
def call (t : NodeTree α) (fuel : Nat) : Call α → Option (NodeTree α × Bool)
  | .add x u => t.add fuel u x
  | .remove x => t.remove fuel x

/-- A sequence of calls, with what they return. -/
def run (t : NodeTree α) (fuel : Nat) : List (Call α) → Option (NodeTree α × List Bool)
  | [] => some (t, [])
  | c :: cs => do
    let (t', b) ← t.call fuel c
    let (t'', bs) ← t'.run fuel cs
    return (t'', b :: bs)

/-- Every address that `new Node` returns is not zero and not in use. -/
def NewIsFree (fuel : Nat) : NodeTree α → List (Call α) → Prop
  | _, [] => True
  | t, c :: cs => (∀ x u, c = .add x u → u ≠ 0 ∧ t.nodes u = none) ∧
    ∀ t' b, t.call fuel c = some (t', b) → NewIsFree fuel t' cs

section Runs

variable {t : NodeTree α} {T : BinTree (Nat × α)} {lost : List Nat} {s : ScapegoatTree α} {set : Finset α}
  {fuel : Nat}

omit [LinearOrder α] in
theorem represents_empty : Represents (empty : NodeTree α) nil [] .empty :=
  ⟨⟨trivial, List.nodup_nil, fun u => by simp [empty], rfl⟩, rfl, rfl, rfl, rfl⟩

/-- A call does over nodes what it does over keys. -/
theorem Represents.call (hrep : Represents t T lost s) (hset : s.Stores set) (hfit : 3 * (set.card + 1) < 2 ^ 31)
    (hf : 56 ≤ fuel) {c : Call α} (hnew : ∀ x u, c = .add x u → u ≠ 0 ∧ t.nodes u = none) :
    Option.Rel (fun p p' => p.2 = p'.2 ∧ ∃ T', Represents p.1 T' (c.refused set ++ lost) p'.1) (t.call fuel c)
      (s.call c.op) := by
  obtain ⟨q0, hw, -⟩ := hset.grown
  have hheight : T.height ≤ 54 := by
    rw [← height_map Prod.snd, hrep.keys]
    exact hw.height_le_54
  cases c with
  | add x u =>
    obtain ⟨hu, hfree⟩ := hnew x u rfl
    obtain ⟨s', hs', -⟩ := hset.add hfit x
    have hadd := hrep.add (show T.height < fuel by omega) hu hfree x
    rw [hs'] at hadd
    show Option.Rel _ (t.add fuel u x) (s.add x)
    rw [hs']
    revert hadd
    generalize t.add fuel u x = a
    rintro (@⟨⟨t1, b⟩, _, hb, T1, hrep1⟩ | _)
    refine .some ⟨hb, T1, ?_⟩
    obtain rfl : b = decide (x ∉ set) := hb
    by_cases hx : x ∈ set
    · simpa [Call.refused, hx] using hrep1
    · simpa [Call.refused, hx] using hrep1
  | remove x => exact hrep.remove (by omega) x

/-- A run does over nodes what it does over keys. -/
theorem Represents.run (hf : 56 ≤ fuel) :
    ∀ {cs : List (Call α)} {t : NodeTree α} {T : BinTree (Nat × α)} {lost : List Nat}
    {s : ScapegoatTree α} {set : Finset α}, Represents t T lost s → s.Stores set →
    Op.Fits set (cs.map Call.op) → NewIsFree fuel t cs →
    Option.Rel (fun p p' => p.2 = p'.2 ∧ ∃ T', Represents p.1 T' (Call.allRefused set cs ++ lost) p'.1)
      (t.run fuel cs) (s.run (cs.map Call.op))
  | [], t, T, lost, s, set, hrep, _, _, _ => .some ⟨rfl, T, hrep⟩
  | c :: cs, t, T, lost, s, set, hrep, hset, hfits, hnew => by
    obtain ⟨hfit, hrest⟩ := Op.fits_cons hfits
    have hcall := hrep.call hset hfit hf hnew.1
    have hnext := hnew.2
    have hstores := hset.call hfit c.op
    rw [List.map_cons, NodeTree.run, ScapegoatTree.run]
    revert hcall hnext hstores
    generalize t.call fuel c = a
    generalize s.call c.op = b
    rintro (@⟨⟨t1, b1⟩, ⟨s1, b2⟩, hb, T1, hrep1⟩ | _) hnext hstores
    · obtain rfl : b1 = b2 := hb
      obtain ⟨-, s2, hs2, hset2⟩ := hstores.resolve_left (by simp)
      obtain ⟨rfl, -⟩ : s1 = s2 ∧ _ := by simpa using hs2
      have hrec := Represents.run hf hrep1 hset2 hrest (hnext t1 b1 rfl)
      simp only [Option.bind_eq_bind, Option.bind_some]
      revert hrec
      generalize t1.run fuel cs = a
      generalize s1.run (cs.map Call.op) = b
      rintro (@⟨⟨t2, bs⟩, ⟨s2, bs'⟩, hbs, T2, hrep2⟩ | _)
      · obtain rfl : bs = bs' := hbs
        refine .some ⟨rfl, T2, ?_⟩
        rw [Call.allRefused, List.append_assoc]
        exact hrep2
      · exact .none
    · exact .none

/-- Runs on a new tree, as long as fewer than about `2 ^ 29.4` keys are stored: over nodes they return
what they return over keys, and are cut short where those are. The nodes after them are those of a
linked tree of the keys, with one more for every key that was refused. No recursion goes deeper and
no loop runs longer than 56. -/
theorem run_represents {cs : List (Call α)} (hfits : Op.Fits ∅ (cs.map Call.op)) (hf : 56 ≤ fuel)
    (hnew : NewIsFree fuel empty cs) :
    Option.Rel (fun p p' => p.2 = p'.2 ∧ ∃ T, Represents p.1 T (Call.allRefused ∅ cs) p'.1)
      (empty.run fuel cs) (ScapegoatTree.empty.run (cs.map Call.op)) := by
  have hrun := Represents.run hf represents_empty ScapegoatTree.stores_empty hfits hnew
  rwa [List.append_nil] at hrun

theorem newIsFree_cons {t t' : NodeTree α} {c : Call α} {cs : List (Call α)} {b : Bool}
    (hfree : ∀ x u, c = .add x u → u ≠ 0 ∧ t.nodes u = none) (hcall : t.call fuel c = some (t', b))
    (hrest : NewIsFree fuel t' cs) : NewIsFree fuel t (c :: cs) := by
  refine ⟨hfree, fun t1 b1 h => ?_⟩
  rw [hcall] at h
  cases h
  exact hrest

theorem newIsFree_four : NewIsFree 56 (empty : NodeTree ℕ) [.add 3 1, .add 5 2, .add 3 3, .remove 5] := by
  refine newIsFree_cons ?_ rfl (newIsFree_cons ?_ rfl (newIsFree_cons ?_ rfl (newIsFree_cons ?_ rfl trivial)))
  · rintro x u ⟨⟩
    exact ⟨by decide, rfl⟩
  · rintro x u ⟨⟩
    exact ⟨by decide, rfl⟩
  · rintro x u ⟨⟩
    exact ⟨by decide, rfl⟩
  · rintro x u ⟨⟩

theorem run_represents_four : ∃ (t : NodeTree ℕ) (s : ScapegoatTree ℕ),
    empty.run 56 [.add 3 1, .add 5 2, .add 3 3, .remove 5] = some (t, [true, true, false, true]) ∧
    ScapegoatTree.empty.run [.add 3, .add 5, .add 3, .remove 5] = some (s, [true, true, false, true]) ∧
    ∃ T, Represents t T [3] s := by
  have hrun := run_represents (Op.fits_of_length (by decide)) le_rfl newIsFree_four
  have hrefused : Call.allRefused ∅ [.add 3 1, .add 5 2, .add 3 3, .remove 5] = [3] := by decide
  rw [hrefused] at hrun
  cases hrun with
  | some h => exact ⟨_, _, rfl, rfl, h.2⟩

/-- What is allocated at the end: after any such run a tour of the tree counts the keys stored, and
`clear` deletes their nodes and reads none of them afterwards. The nodes of the keys that were refused
stay, one for each call that returned false. -/
theorem run_clear {cs : List (Call α)} (hfits : Op.Fits ∅ (cs.map Call.op)) (hf : 56 ≤ fuel)
    (hnew : NewIsFree fuel empty cs) {t : NodeTree α} {bs : List Bool}
    (hrun : empty.run fuel cs = some (t, bs)) {rounds : Nat}
    (hrounds : 2 * (Op.runOnSet ∅ (cs.map Call.op)).1.card ≤ rounds) :
    t.size2 rounds = some (Op.runOnSet ∅ (cs.map Call.op)).1.card ∧ (Call.allRefused ∅ cs).Nodup ∧
    ∃ t', t.clear rounds = some t' ∧ ∀ u, (t'.nodes u).isSome ↔ u ∈ Call.allRefused ∅ cs := by
  have hrep := Represents.run hf represents_empty ScapegoatTree.stores_empty hfits hnew
  have hstores := ScapegoatTree.stores_empty.run hfits
  rw [hrun, List.append_nil] at hrep
  revert hrep hstores
  generalize ScapegoatTree.empty.run (cs.map Call.op) = a
  rintro (@⟨_, ⟨s, _⟩, _, T, hrep⟩) hstores
  obtain ⟨-, s', hs', hset⟩ := hstores.resolve_left (by simp)
  obtain ⟨rfl, -⟩ : s = s' ∧ _ := by simpa using hs'
  have hcard : T.size = (Op.runOnSet ∅ (cs.map Call.op)).1.card := by
    rw [hset.card, ← hrep.keys, size_map]
  have hh := hrep.holds
  rw [← hcard] at hrounds ⊢
  obtain ⟨h', hclear, hh'⟩ := clear_spec hh hrep.root hrounds
  refine ⟨size2_spec hh hrep.root hrounds, (List.nodup_append.1 hh.nodup).2.1, _, hclear, fun u => ?_⟩
  show (h' u).isSome ↔ _
  rw [hh'.alloc, ptrs_nil, or_iff_right List.not_mem_nil]

theorem run_clear_four : ∃ t t' : NodeTree ℕ,
    empty.run 56 [.add 3 1, .add 5 2, .add 3 3, .remove 5] = some (t, [true, true, false, true]) ∧
    t.size2 2 = some 1 ∧ t.clear 2 = some t' ∧ ∀ u, (t'.nodes u).isSome ↔ u ∈ [3] := by
  obtain ⟨hsize, -, t', hclear, halloc⟩ := run_clear (Op.fits_of_length (by decide)) le_rfl newIsFree_four rfl
    (show 2 * _ ≤ 2 by decide)
  exact ⟨_, t', rfl, hsize, hclear, halloc⟩

end Runs

end NodeTree

end Embark
