/-
Binary trees in memory: nodes with pointers to both children and to the parent. A tree whose keys
carry the addresses of their nodes is linked when every node holds the pointers its place in the
tree demands; a position in it is linked around when its ancestors do.
-/
import Embark.Lib.BinTree
import Mathlib.Data.List.Perm.Basic
import Mathlib.Logic.Function.Basic

namespace Embark

/-- A node of a tree; pointers are numbers, zero for none. -/
structure TreeNode (α : Type) where
  left : Nat
  right : Nat
  parent : Nat
  x : α
deriving Repr, DecidableEq

/-- Where a tour of a tree goes from a node it has come to from `prev`: down to the left when it comes
from above, then down to the right, then up. -/
def TreeNode.next {α : Type} (nd : TreeNode α) (prev : Nat) : Nat :=
  if prev = nd.parent then (if nd.left ≠ 0 then nd.left else if nd.right ≠ 0 then nd.right else nd.parent)
  else if prev = nd.left then (if nd.right ≠ 0 then nd.right else nd.parent)
  else nd.parent

/-- The nodes that are allocated. -/
abbrev Nodes (α : Type) := Nat → Option (TreeNode α)

namespace Nodes

variable {α : Type} {h : Nodes α} {u : Nat} {nd : TreeNode α}

/-- A store to the node at `u`; `none` where there is none. -/
def modify (h : Nodes α) (u : Nat) (f : TreeNode α → TreeNode α) : Option (Nodes α) :=
  (h u).map fun nd => Function.update h u (some (f nd))

theorem modify_eq (hu : h u = some nd) (f : TreeNode α → TreeNode α) :
    h.modify u f = some (Function.update h u (some (f nd))) := by
  rw [modify, hu]
  rfl

def setLeft (h : Nodes α) (u v : Nat) : Option (Nodes α) := h.modify u fun nd => { nd with left := v }

def setRight (h : Nodes α) (u v : Nat) : Option (Nodes α) := h.modify u fun nd => { nd with right := v }

def setParent (h : Nodes α) (u v : Nat) : Option (Nodes α) := h.modify u fun nd => { nd with parent := v }

/-- The store `u->parent = v` behind the test that `u` is a node. -/
def setParentOf (h : Nodes α) (u v : Nat) : Option (Nodes α) := if u = 0 then some h else h.setParent u v

theorem setParentOf_of_ne (hu : u ≠ 0) (v : Nat) : h.setParentOf u v = h.setParent u v := if_neg hu

/-- The same nodes with the same keys. -/
def SameKeys (h h' : Nodes α) : Prop := ∀ u, (h' u).map TreeNode.x = (h u).map TreeNode.x

theorem SameKeys.refl (h : Nodes α) : SameKeys h h := fun _ => rfl

theorem SameKeys.trans {h h' h'' : Nodes α} (h1 : SameKeys h h') (h2 : SameKeys h' h'') : SameKeys h h'' :=
  fun u => (h2 u).trans (h1 u)

theorem SameKeys.isSome_iff {h h' : Nodes α} (hs : SameKeys h h') (u : Nat) : (h' u).isSome ↔ (h u).isSome := by
  rw [← Option.isSome_map (f := TreeNode.x), hs u, Option.isSome_map]

theorem SameKeys.eq_none {h h' : Nodes α} (hs : SameKeys h h') {u : Nat} (hu : h u = none) : h' u = none := by
  have hmap := hs u
  rw [hu, Option.map_none] at hmap
  exact Option.map_eq_none_iff.1 hmap

theorem SameKeys.exists_node {h h' : Nodes α} (hs : SameKeys h h') (hu : h u = some nd) :
    ∃ nd', h' u = some nd' ∧ nd'.x = nd.x := by
  have hmap := hs u
  rw [hu, Option.map_some] at hmap
  exact Option.map_eq_some_iff.1 hmap

theorem sameKeys_update {nd' : TreeNode α} (hu : h u = some nd) (hx : nd'.x = nd.x) :
    SameKeys h (Function.update h u (some nd')) := by
  intro v
  by_cases hv : v = u
  · rw [hv, Function.update_self, hu, Option.map_some, Option.map_some, hx]
  · rw [Function.update_of_ne hv]

end Nodes

namespace BinTree

variable {α : Type}

/-- The pointer to a tree. -/
def root : BinTree (Nat × α) → Nat
  | nil => 0
  | node _ (u, _) _ => u

/-- The addresses of the nodes of a tree. -/
def ptrs (t : BinTree (Nat × α)) : List Nat := t.keys.map Prod.fst

@[simp] theorem root_nil : (nil : BinTree (Nat × α)).root = 0 := rfl
@[simp] theorem root_node (l r : BinTree (Nat × α)) (u : Nat) (x : α) : (node l (u, x) r).root = u := rfl
@[simp] theorem ptrs_nil : (nil : BinTree (Nat × α)).ptrs = [] := rfl
@[simp] theorem ptrs_node (l r : BinTree (Nat × α)) (u : Nat) (x : α) :
    (node l (u, x) r).ptrs = l.ptrs ++ u :: r.ptrs := by
  simp [ptrs]

theorem length_ptrs (t : BinTree (Nat × α)) : t.ptrs.length = t.size := by
  rw [ptrs, List.length_map, length_keys]

/-- Every node of the tree holds its pointers, the topmost one `p` as its parent. -/
def Linked (h : Nodes α) : Nat → BinTree (Nat × α) → Prop
  | _, nil => True
  | p, node l (u, x) r => u ≠ 0 ∧ h u = some ⟨l.root, r.root, p, x⟩ ∧ Linked h u l ∧ Linked h u r

section Linked

variable {h h' : Nodes α} {p : Nat} {t : BinTree (Nat × α)}

theorem Linked.congr : ∀ {t : BinTree (Nat × α)} {p : Nat}, Linked h p t → (∀ u ∈ t.ptrs, h' u = h u) →
    Linked h' p t
  | nil, _, _, _ => trivial
  | node l (u, x) r, p, hl, hsame => by
    obtain ⟨hu, hnode, hleft, hright⟩ := hl
    simp only [ptrs_node, List.mem_append, List.mem_cons] at hsame
    exact ⟨hu, by rw [hsame u (.inr (.inl rfl)), hnode], hleft.congr fun v hv => hsame v (.inl hv),
      hright.congr fun v hv => hsame v (.inr (.inr hv))⟩

theorem Linked.isSome : ∀ {t : BinTree (Nat × α)} {p : Nat}, Linked h p t →
    ∀ u ∈ t.ptrs, u ≠ 0 ∧ (h u).isSome
  | node l (v, x) r, p, hl, u, hu => by
    obtain ⟨hv, hnode, hleft, hright⟩ := hl
    simp only [ptrs_node, List.mem_append, List.mem_cons] at hu
    rcases hu with hu | rfl | hu
    · exact hleft.isSome u hu
    · exact ⟨hv, by rw [hnode]; rfl⟩
    · exact hright.isSome u hu

theorem Linked.mem_keys : ∀ {t : BinTree (Nat × α)} {p : Nat}, Linked h p t →
    ∀ u x, (u, x) ∈ t.keys → u ≠ 0 ∧ ∃ nd, h u = some nd ∧ nd.x = x
  | node l (v, y) r, p, hl, u, x, hu => by
    obtain ⟨hv, hnode, hleft, hright⟩ := hl
    rcases mem_keys_node.1 hu with hu | hu | hu
    · exact hleft.mem_keys u x hu
    · cases hu
      exact ⟨hv, _, hnode, rfl⟩
    · exact hright.mem_keys u x hu

/-- A tree is empty when its pointer is zero. -/
theorem Linked.root_eq_zero_iff (hl : Linked h p t) : t.root = 0 ↔ t = nil := by
  cases t with
  | nil => exact iff_of_true rfl rfl
  | node l k r => exact iff_of_false hl.1 (by simp)

theorem root_mem_ptrs (hne : t ≠ nil) : t.root ∈ t.ptrs := by
  cases t with
  | nil => exact absurd rfl hne
  | node l k r => simp [ptrs, root]

/-- A new parent for the topmost node. -/
theorem Linked.setParent (hl : Linked h p t) (hne : t ≠ nil) (hnodup : t.ptrs.Nodup) (q : Nat) :
    ∃ h', h.setParent t.root q = some h' ∧ Linked h' q t ∧ (∀ u, u ∉ t.ptrs → h' u = h u) ∧
    Nodes.SameKeys h h' := by
  cases t with
  | nil => exact absurd rfl hne
  | node l k r =>
    obtain ⟨u, x⟩ := k
    obtain ⟨hu, hnode, hleft, hright⟩ := hl
    rw [ptrs_node, List.nodup_append] at hnodup
    obtain ⟨-, hr, hlr⟩ := hnodup
    have hother : ∀ v, v ≠ u → Function.update h u (some ⟨l.root, r.root, q, x⟩) v = h v :=
      fun v hv => Function.update_of_ne hv _ _
    refine ⟨_, Nodes.modify_eq hnode _, ⟨hu, Function.update_self .., ?_, ?_⟩, fun v hv => hother v ?_,
      Nodes.sameKeys_update hnode rfl⟩
    · exact hleft.congr fun v hv => hother v fun he => hlr v hv u (List.mem_cons_self ..) he
    · refine hright.congr fun v hv => hother v ?_
      rintro rfl
      exact (List.nodup_cons.1 hr).1 hv
    · rintro rfl
      exact hv (by simp)

/-- The guarded store of a new parent. -/
theorem Linked.setParentOf (hl : Linked h p t) (hnodup : t.ptrs.Nodup) (q : Nat) :
    ∃ h', h.setParentOf t.root q = some h' ∧ Linked h' q t ∧ (∀ u, u ∉ t.ptrs → h' u = h u) ∧
    Nodes.SameKeys h h' := by
  by_cases hne : t = nil
  · subst hne
    exact ⟨h, rfl, trivial, fun _ _ => rfl, Nodes.SameKeys.refl h⟩
  · have hroot : t.root ≠ 0 := fun h0 => hne (hl.root_eq_zero_iff.1 h0)
    rw [Nodes.setParentOf_of_ne hroot]
    exact hl.setParent hne hnodup q

/-- A tree is hung below `w`: a store to `w`, and the guarded store of `w` as the new parent. -/
theorem Linked.below {w : Nat} {nd : TreeNode α} {f : TreeNode α → TreeNode α} (hl : Linked h p t)
    (hnodup : t.ptrs.Nodup) (hw : w ∉ t.ptrs) (hnd : h w = some nd) (hx : (f nd).x = nd.x) :
    ∃ h1 h2, h.modify w f = some h1 ∧ h1.setParentOf t.root w = some h2 ∧ Linked h2 w t ∧ h2 w = some (f nd) ∧
      (∀ u, u ≠ w → u ∉ t.ptrs → h2 u = h u) ∧ Nodes.SameKeys h h2 := by
  have hother : ∀ u, u ≠ w → Function.update h w (some (f nd)) u = h u := fun u hu => Function.update_of_ne hu _ _
  have hl1 : Linked (Function.update h w (some (f nd))) p t := hl.congr fun u hu => hother u fun he => hw (he ▸ hu)
  obtain ⟨h2, hset, hl2, hsame, hkeys⟩ := hl1.setParentOf hnodup w
  refine ⟨_, h2, Nodes.modify_eq hnd f, hset, hl2, ?_, fun u huw hu => ?_,
    (Nodes.sameKeys_update hnd hx).trans hkeys⟩
  · rw [hsame w hw, Function.update_self]
  · rw [hsame u hu, hother u huw]

end Linked

/-! ## Around a position -/

namespace Crumb

def ptr : Crumb (Nat × α) → Nat
  | left (u, _) _ => u
  | right _ (u, _) => u

/-- The other subtree. -/
def sibling : Crumb (Nat × α) → BinTree (Nat × α)
  | left _ r => r
  | right l _ => l

/-- The node of an ancestor, with the pointer to the position under it and the one to its parent. -/
def node : Crumb (Nat × α) → Nat → Nat → TreeNode α
  | left (_, x) r, hole, p => ⟨hole, r.root, p, x⟩
  | right l (_, x), hole, p => ⟨l.root, hole, p, x⟩

theorem root_up (c : Crumb (Nat × α)) (t : BinTree (Nat × α)) : (c.up t).root = c.ptr := by
  cases c <;> rfl

theorem up_ne_nil (c : Crumb (Nat × α)) (t : BinTree (Nat × α)) : c.up t ≠ nil := by
  cases c <;> exact nofun

theorem linked_up {h : Nodes α} {p : Nat} {c : Crumb (Nat × α)} {t : BinTree (Nat × α)} : Linked h p (c.up t) ↔
    (c.ptr ≠ 0 ∧ h c.ptr = some (c.node t.root p) ∧ Linked h c.ptr c.sibling) ∧ Linked h c.ptr t := by
  cases c with
  | left k r =>
    constructor
    · rintro ⟨hu, hnode, ht, hr⟩
      exact ⟨⟨hu, hnode, hr⟩, ht⟩
    · rintro ⟨⟨hu, hnode, hr⟩, ht⟩
      exact ⟨hu, hnode, ht, hr⟩
  | right l k =>
    constructor
    · rintro ⟨hu, hnode, hl, ht⟩
      exact ⟨⟨hu, hnode, hl⟩, ht⟩
    · rintro ⟨⟨hu, hnode, hl⟩, ht⟩
      exact ⟨hu, hnode, hl, ht⟩

theorem perm_up (c : Crumb (Nat × α)) (t : BinTree (Nat × α)) :
    (c.up t).ptrs.Perm (t.ptrs ++ c.ptr :: c.sibling.ptrs) := by
  cases c with
  | left k r => simp [up, ptr, sibling, ptrs]
  | right l k =>
    have hdef : (Crumb.up (.right l k) t).ptrs = l.ptrs ++ k.1 :: t.ptrs := by simp [up, ptrs]
    rw [hdef]
    show (l.ptrs ++ k.1 :: t.ptrs).Perm (t.ptrs ++ k.1 :: l.ptrs)
    exact (List.perm_append_comm).trans ((List.perm_middle).symm.trans (by simp))

end Crumb

/-- The parent of the position. -/
def parentPtr : List (Crumb (Nat × α)) → Nat
  | [] => 0
  | c :: _ => c.ptr

/-- The nodes outside the position. -/
def ptrsAround (ctx : List (Crumb (Nat × α))) : List Nat := ctx.flatMap fun c => c.ptr :: c.sibling.ptrs

@[simp] theorem ptrsAround_nil : ptrsAround ([] : List (Crumb (Nat × α))) = [] := rfl
@[simp] theorem ptrsAround_cons (c : Crumb (Nat × α)) (ctx : List (Crumb (Nat × α))) :
    ptrsAround (c :: ctx) = c.ptr :: (c.sibling.ptrs ++ ptrsAround ctx) := rfl

/-- The ancestors of the position and what hangs off them hold their pointers, that to the position
being `hole`. -/
def LinkedAround (h : Nodes α) : List (Crumb (Nat × α)) → Nat → Prop
  | [], _ => True
  | c :: ctx, hole =>
    (c.ptr ≠ 0 ∧ h c.ptr = some (c.node hole (parentPtr ctx)) ∧ Linked h c.ptr c.sibling) ∧
      LinkedAround h ctx c.ptr

theorem linked_zip {h : Nodes α} : ∀ {ctx : List (Crumb (Nat × α))} {t : BinTree (Nat × α)},
    Linked h 0 (zip ctx t) ↔ LinkedAround h ctx t.root ∧ Linked h (parentPtr ctx) t
  | [], t => ⟨fun hl => ⟨trivial, hl⟩, And.right⟩
  | c :: ctx, t => by
    rw [zip_cons, linked_zip, Crumb.linked_up, Crumb.root_up]
    simp only [LinkedAround, parentPtr]
    tauto

theorem perm_zip : ∀ (ctx : List (Crumb (Nat × α))) (t : BinTree (Nat × α)),
    (zip ctx t).ptrs.Perm (t.ptrs ++ ptrsAround ctx)
  | [], t => by simp
  | c :: ctx, t => by
    rw [zip_cons]
    refine (perm_zip ctx (c.up t)).trans ?_
    rw [ptrsAround_cons, ← List.cons_append, ← List.append_assoc]
    exact (c.perm_up t).append_right _

/-- The pointer to the whole tree: zero around an empty one. -/
theorem root_zip_congr : ∀ {ctx : List (Crumb (Nat × α))} {s t : BinTree (Nat × α)}, ctx ≠ [] →
    (zip ctx s).root = (zip ctx t).root
  | [c], s, t, _ => by rw [zip_cons, zip_cons, zip_nil, zip_nil, Crumb.root_up, Crumb.root_up]
  | c :: c' :: ctx, s, t, _ => by
    rw [zip_cons, zip_cons c]
    exact root_zip_congr (by simp)

section Around

variable {h h' : Nodes α} {ctx : List (Crumb (Nat × α))} {c : Crumb (Nat × α)} {hole hole' : Nat}

theorem LinkedAround.congr : ∀ {ctx : List (Crumb (Nat × α))} {hole : Nat}, LinkedAround h ctx hole →
    (∀ u ∈ ptrsAround ctx, h' u = h u) → LinkedAround h' ctx hole
  | [], _, _, _ => trivial
  | c :: ctx, hole, hl, hsame => by
    obtain ⟨⟨hc, hnode, hsib⟩, houter⟩ := hl
    simp only [ptrsAround_cons, List.mem_cons, List.mem_append] at hsame
    refine ⟨⟨hc, by rw [hsame c.ptr (.inl rfl), hnode], hsib.congr fun u hu => hsame u (.inr (.inl hu))⟩, ?_⟩
    exact houter.congr fun u hu => hsame u (.inr (.inr hu))

/-- Another subtree at the position: the parent gets a new pointer and nothing else changes. -/
theorem LinkedAround.relink (hl : LinkedAround h (c :: ctx) hole) (hnodup : (ptrsAround (c :: ctx)).Nodup)
    (hnode : h' c.ptr = some (c.node hole' (parentPtr ctx)))
    (hsame : ∀ u ∈ ptrsAround (c :: ctx), u ≠ c.ptr → h' u = h u) :
    LinkedAround h' (c :: ctx) hole' := by
  obtain ⟨⟨hc, -, hsib⟩, houter⟩ := hl
  simp only [ptrsAround_cons, List.nodup_cons, List.mem_append, not_or] at hnodup
  obtain ⟨⟨hsibling, haround⟩, -⟩ := hnodup
  simp only [ptrsAround_cons, List.mem_cons, List.mem_append] at hsame
  refine ⟨⟨hc, hnode, hsib.congr fun u hu => hsame u (.inr (.inl hu)) ?_⟩,
    houter.congr fun u hu => hsame u (.inr (.inr hu)) ?_⟩
  · rintro rfl
    exact hsibling hu
  · rintro rfl
    exact haround hu

/-- The store to the parent's pointer to the position. -/
def Crumb.setChild (c : Crumb (Nat × α)) (h : Nodes α) (v : Nat) : Option (Nodes α) :=
  match c with
  | .left (u, _) _ => h.setLeft u v
  | .right _ (u, _) => h.setRight u v

/-- The store to the parent changes the one pointer. -/
theorem Crumb.setChild_eq (c : Crumb (Nat × α)) (v : Nat) : ∃ f : TreeNode α → TreeNode α,
    (∀ h, c.setChild h v = Nodes.modify h c.ptr f) ∧ (∀ hole p, f (c.node hole p) = c.node v p) ∧
    ∀ nd, (f nd).x = nd.x := by
  cases c with
  | left k r => exact ⟨fun nd => { nd with left := v }, fun _ => rfl, fun _ _ => rfl, fun _ => rfl⟩
  | right l k => exact ⟨fun nd => { nd with right := v }, fun _ => rfl, fun _ _ => rfl, fun _ => rfl⟩

/-- The tests by which the sources tell on which side of its parent a subtree hangs. -/
theorem Crumb.setChild_of_right {p u v : Nat} (hne : c.sibling.root ≠ u) :
    (if (c.node u p).right = u then h.setRight c.ptr v else h.setLeft c.ptr v) = c.setChild h v := by
  cases c with
  | left k r => exact if_neg hne
  | right l k => exact if_pos rfl

theorem Crumb.setChild_of_left {p u v : Nat} (hne : c.sibling.root ≠ u) :
    (if (c.node u p).left = u then h.setLeft c.ptr v else h.setRight c.ptr v) = c.setChild h v := by
  cases c with
  | left k r => exact if_pos rfl
  | right l k => exact if_neg hne

/-- The same node does not hang on both sides. -/
theorem sibling_root_ne {s : BinTree (Nat × α)} {p : Nat} (hl : Linked h p s) (hne : s ≠ nil)
    (hdis : ∀ u ∈ s.ptrs, ∀ v ∈ ptrsAround (c :: ctx), u ≠ v) : c.sibling.root ≠ s.root := by
  intro he
  have hsib : c.sibling ≠ nil := by
    intro hnil
    rw [hnil] at he
    exact hne (hl.root_eq_zero_iff.1 he.symm)
  refine hdis s.root (root_mem_ptrs hne) c.sibling.root ?_ he.symm
  exact List.mem_cons_of_mem _ (List.mem_append_left _ (root_mem_ptrs hsib))

/-- The topmost node is one of the ancestors. -/
theorem root_zip_mem : ∀ {ctx : List (Crumb (Nat × α))} (s : BinTree (Nat × α)), ctx ≠ [] →
    (zip ctx s).root ∈ ptrsAround ctx
  | [c], s, _ => by
    rw [zip_cons, zip_nil, Crumb.root_up]
    exact List.mem_cons_self ..
  | c :: c' :: ctx, s, _ =>
    List.mem_cons_of_mem _ (List.mem_append_right _ (root_zip_mem (c.up s) (show c' :: ctx ≠ [] by simp)))

/-- A tree is hung at the position by two stores: to the parent, and to its topmost node. -/
theorem LinkedAround.hang {b : BinTree (Nat × α)} {p : Nat} (ha : LinkedAround h (c :: ctx) hole) (hb : Linked h p b)
    (hnodup : (b.ptrs ++ ptrsAround (c :: ctx)).Nodup) : ∃ h1 h2, c.setChild h b.root = some h1 ∧
      h1.setParentOf b.root c.ptr = some h2 ∧ Linked h2 0 (zip (c :: ctx) b) ∧ Nodes.SameKeys h h2 := by
  obtain ⟨hbn, han, hdis⟩ := List.nodup_append.1 hnodup
  have hc : c.ptr ∉ b.ptrs := fun hmem => hdis c.ptr hmem c.ptr (by simp) rfl
  obtain ⟨f, hset, hf, hx⟩ := c.setChild_eq b.root
  obtain ⟨h1, h2, hset1, hset2, hb2, hnode, hsame, hkeys⟩ := hb.below (f := f) hbn hc ha.1.2.1 (hx _)
  rw [hf] at hnode
  refine ⟨h1, h2, (hset h).trans hset1, hset2, linked_zip.2 ⟨ha.relink han hnode fun u hu hne => ?_, hb2⟩,
    hkeys⟩
  exact hsame u hne fun hmem => hdis u hmem u hu rfl

/-- A new node is hung at the position. -/
theorem LinkedAround.hang_leaf {u : Nat} {x : α} (hu : u ≠ 0) (hnew : h u = some ⟨0, 0, 0, x⟩)
    (hl : Linked h 0 (zip (c :: ctx) nil)) (hnodup : (u :: (zip (c :: ctx) nil).ptrs).Nodup) :
    ∃ h1 h2, c.setChild h u = some h1 ∧ h1.setParent u c.ptr = some h2 ∧
    Linked h2 0 (zip (c :: ctx) (node nil (u, x) nil)) ∧
      Nodes.SameKeys h h2 := by
  have hleaf : Linked h 0 (node nil (u, x) nil) := ⟨hu, hnew, trivial, trivial⟩
  have hapart : ((node nil (u, x) nil).ptrs ++ ptrsAround (c :: ctx)).Nodup :=
    (((perm_zip (c :: ctx) nil).cons u).nodup_iff).1 hnodup
  obtain ⟨h1, h2, hset1, hset2, hl2, hkeys⟩ := (linked_zip.1 hl).1.hang hleaf hapart
  rw [root_node, Nodes.setParentOf_of_ne hu] at hset2
  exact ⟨h1, h2, hset1, hset2, hl2, hkeys⟩

end Around

/-! ## A whole memory -/

/-- The allocated nodes are those of the tree `t`, which are linked, and those at the addresses in
`lost`, which nothing points to. -/
structure Holds (h : Nodes α) (t : BinTree (Nat × α)) (lost : List Nat) : Prop where
  linked : Linked h 0 t
  nodup : (t.ptrs ++ lost).Nodup
  alloc : ∀ u, (h u).isSome ↔ u ∈ t.ptrs ∨ u ∈ lost
  zero : h 0 = none

namespace Holds

variable {h h' : Nodes α} {t t' : BinTree (Nat × α)} {lost : List Nat} {u : Nat}

theorem ptrs_nodup (hh : Holds h t lost) : t.ptrs.Nodup := (List.nodup_append.1 hh.nodup).1

theorem zero_notMem_ptrs (hh : Holds h t lost) : 0 ∉ t.ptrs := fun hmem => (hh.linked.isSome 0 hmem).1 rfl

/-- Pointers change, and with them the shape of the tree. -/
theorem relinked (hh : Holds h t lost) (hkeys : Nodes.SameKeys h h') (hl : Linked h' 0 t')
    (hperm : t'.ptrs.Perm t.ptrs) :
    Holds h' t' lost where
  linked := hl
  nodup := ((hperm.append_right lost).nodup_iff).2 hh.nodup
  alloc u := by rw [hkeys.isSome_iff, hh.alloc, hperm.mem_iff]
  zero := hkeys.eq_none hh.zero

/-- A node takes another key. -/
theorem rekeyed {ctx : List (Crumb (Nat × α))} {l r : BinTree (Nat × α)} {x : α}
    (hh : Holds h (zip ctx (node l (u, x) r)) lost) (z : α) :
    ∃ h', h.modify u (fun nd => { nd with x := z }) = some h' ∧ Holds h' (zip ctx (node l (u, z) r)) lost := by
  obtain ⟨haround, hu, hnode, hleft, hright⟩ := linked_zip.1 hh.linked
  have hnodup := ((perm_zip ctx _).nodup_iff).1 hh.ptrs_nodup
  obtain ⟨hsn, -, hdis⟩ := List.nodup_append.1 hnodup
  rw [ptrs_node, List.nodup_append, List.nodup_cons] at hsn
  obtain ⟨-, ⟨hur, -⟩, hlr⟩ := hsn
  have hother : ∀ nd, ∀ v, v ≠ u → Function.update h u (some nd) v = h v :=
    fun nd v hv => Function.update_of_ne hv _ _
  refine ⟨_, Nodes.modify_eq hnode _, linked_zip.2 ⟨haround.congr fun v hv => hother _ v ?_, hu, ?_,
    hleft.congr fun v hv => hother _ v ?_, hright.congr fun v hv => hother _ v ?_⟩, ?_, fun v => ?_, ?_⟩
  · exact fun he => hdis u (by simp) v hv he.symm
  · rw [Function.update_self]
  · exact fun he => hlr v hv u (List.mem_cons_self ..) he
  · rintro rfl
    exact hur hv
  · have hptrs : (zip ctx (node l (u, z) r)).ptrs.Perm (zip ctx (node l (u, x) r)).ptrs := by
      refine (perm_zip ctx _).trans (.trans ?_ (perm_zip ctx _).symm)
      rw [ptrs_node, ptrs_node]
    exact ((hptrs.append_right lost).nodup_iff).2 hh.nodup
  · have hmem : v ∈ (zip ctx (node l (u, z) r)).ptrs ↔ v ∈ (zip ctx (node l (u, x) r)).ptrs := by
      rw [(perm_zip ctx _).mem_iff, (perm_zip ctx _).mem_iff, ptrs_node, ptrs_node]
    rw [hmem, ← hh.alloc]
    by_cases hv : v = u
    · subst hv
      rw [Function.update_self, hnode]
      exact iff_of_true rfl rfl
    · rw [hother _ v hv]
  · rw [hother _ 0 hu.symm, hh.zero]

/-- A node leaves the tree and is deleted. -/
theorem deleted (hh : Holds h t lost) (hkeys : Nodes.SameKeys h h') (hl : Linked h' 0 t')
    (hperm : t.ptrs.Perm (u :: t'.ptrs)) :
    Holds (Function.update h' u none) t' lost := by
  have hnodup := ((hperm.append_right lost).nodup_iff).1 hh.nodup
  rw [List.cons_append, List.nodup_cons] at hnodup
  have hother : ∀ v, v ≠ u → Function.update h' u none v = h' v := fun v hv => Function.update_of_ne hv _ _
  have hmem : ∀ v, v ∈ t'.ptrs ∨ v ∈ lost → v ≠ u := by
    rintro v hv rfl
    exact hnodup.1 (List.mem_append.2 hv)
  refine ⟨hl.congr fun v hv => hother v (hmem v (.inl hv)), hnodup.2, fun v => ?_, ?_⟩
  · by_cases hv : v = u
    · subst hv
      rw [Function.update_self]
      exact iff_of_false (by simp) fun hv => hmem v hv rfl
    · rw [hother v hv, hkeys.isSome_iff, hh.alloc, hperm.mem_iff, List.mem_cons, or_iff_right hv]
  · by_cases h0 : 0 = u
    · rw [← h0, Function.update_self]
    · rw [hother 0 h0, hkeys.eq_none hh.zero]

/-- A free address is none of the tree's. -/
theorem fresh (hh : Holds h t lost) (hu : h u = none) : u ∉ t.ptrs ++ lost := by
  rw [List.mem_append, ← hh.alloc, hu]
  exact nofun

theorem alloc_update {nd : TreeNode α} (hh : Holds h t lost) (v : Nat) :
    (Function.update h u (some nd) v).isSome ↔ v = u ∨ v ∈ t.ptrs ∨ v ∈ lost := by
  by_cases hv : v = u
  · rw [hv, Function.update_self]
    exact iff_of_true rfl (.inl rfl)
  · rw [Function.update_of_ne hv, hh.alloc, or_iff_right hv]

section Fresh

variable {nd : TreeNode α} (hh : Holds h t lost) (hu : u ≠ 0) (hfree : h u = none)
include hh hu hfree

/-- A new node that is not linked in is lost. -/
theorem refused : Holds (Function.update h u (some nd)) t (u :: lost) := by
  have hnot := hh.fresh hfree
  refine ⟨hh.linked.congr fun v hv => Function.update_of_ne ?_ _ _, ?_, fun v => ?_, ?_⟩
  · rintro rfl
    exact hnot (List.mem_append_left _ hv)
  · exact (List.perm_middle.nodup_iff).2 (List.nodup_cons.2 ⟨hnot, hh.nodup⟩)
  · rw [hh.alloc_update, List.mem_cons]
    tauto
  · rw [Function.update_of_ne hu.symm, hh.zero]

/-- A new node is linked in. -/
theorem added (hkeys : Nodes.SameKeys (Function.update h u (some nd)) h') (hl : Linked h' 0 t')
    (hperm : t'.ptrs.Perm (u :: t.ptrs)) : Holds h' t' lost := by
  refine ⟨hl, ?_, fun v => ?_, ?_⟩
  · exact ((hperm.append_right lost).nodup_iff).2 (List.nodup_cons.2 ⟨hh.fresh hfree, hh.nodup⟩)
  · rw [hkeys.isSome_iff, hh.alloc_update, hperm.mem_iff, List.mem_cons, or_assoc]
  · exact hkeys.eq_none (by rw [Function.update_of_ne hu.symm, hh.zero])

end Fresh

end Holds

/-! ## Tours -/

section Tours

variable {σ : Type} (mem : σ → Nodes α) (act : Nat → Nat → TreeNode α → σ → σ)

/-- A tour with an action at every visit, on states with a memory of nodes. -/
def walk : Nat → σ → Nat → Nat → Option σ
  | 0, s, u, _ => if u = 0 then some s else none
  | k + 1, s, u, prev =>
    if u = 0 then some s
    else do
      let nd ← mem s u
      walk k (act u prev nd s) (nd.next prev) u

/-- The visit of `u` on the way back from a subtree. -/
def back (u : Nat) (nd : TreeNode α) : BinTree (Nat × α) → List (Nat × Nat × TreeNode α)
  | nil => []
  | node _ (v, _) _ => [(u, v, nd)]

/-- The visits on a tour of a tree whose topmost node has the parent `p`: the node, where the tour comes
from, and what the node holds. -/
def visits : Nat → BinTree (Nat × α) → List (Nat × Nat × TreeNode α)
  | _, nil => []
  | p, node l (u, x) r =>
    (u, p, ⟨l.root, r.root, p, x⟩) :: ((visits u l ++ back u ⟨l.root, r.root, p, x⟩ l) ++
      (visits u r ++ back u ⟨l.root, r.root, p, x⟩ r))

/-- The state after the actions at some visits. -/
def actions (s : σ) (vs : List (Nat × Nat × TreeNode α)) : σ := vs.foldl (fun s v => act v.1 v.2.1 v.2.2 s) s

/-- An action changes at most the node it visits, and that only when the tour leaves it upwards. -/
structure Local : Prop where
  other : ∀ s u prev nd v, v ≠ u → mem (act u prev nd s) v = mem s v
  early : ∀ s u prev nd, nd.next prev ≠ nd.parent → mem (act u prev nd s) u = mem s u

variable {mem act}

/-- The ways out of a node of a linked tree: from above, from the left and from the right. -/
theorem Linked.next {h : Nodes α} {p u : Nat} {l r : BinTree (Nat × α)} {x : α} (hl : Linked h p (node l (u, x) r))
    (hnodup : (node l (u, x) r).ptrs.Nodup) (hp : p ∉ (node l (u, x) r).ptrs) {nd : TreeNode α}
    (hnd : nd = ⟨l.root, r.root, p, x⟩) :
    (nd.next p = if l.root ≠ 0 then l.root else if r.root ≠ 0 then r.root else p) ∧
    (l ≠ nil → nd.next l.root = if r.root ≠ 0 then r.root else p) ∧ (r ≠ nil → nd.next r.root = p) ∧
    (l ≠ nil → l.root ≠ p) ∧ (r ≠ nil → r.root ≠ p) := by
  obtain ⟨-, -, hleft, hright⟩ := hl
  rw [ptrs_node, List.nodup_append] at hnodup
  obtain ⟨-, -, hlr⟩ := hnodup
  simp only [ptrs_node, List.mem_append, List.mem_cons, not_or] at hp
  obtain ⟨hpl, -, hpr⟩ := hp
  have hleave : ∀ {t : BinTree (Nat × α)}, p ∉ t.ptrs → t ≠ nil → t.root ≠ p :=
    fun hnot hne he => hnot (he ▸ root_mem_ptrs hne)
  subst hnd
  refine ⟨if_pos rfl, fun hne => (if_neg (hleave hpl hne)).trans (if_pos rfl), fun hne => ?_, hleave hpl,
    hleave hpr⟩
  have hboth : r.root ≠ l.root := by
    intro he
    have hlne : l ≠ nil := fun hnil => hne (hright.root_eq_zero_iff.1 (he.trans (hleft.root_eq_zero_iff.2 hnil)))
    exact hlr l.root (root_mem_ptrs hlne) r.root (List.mem_cons_of_mem _ (root_mem_ptrs hne)) he.symm
  exact (if_neg (hleave hpr hne)).trans (if_neg hboth)

theorem actions_append (s : σ) (vs ws : List (Nat × Nat × TreeNode α)) :
    actions act s (vs ++ ws) = actions act (actions act s vs) ws := List.foldl_append

theorem length_visits : ∀ {t : BinTree (Nat × α)} (p : Nat), t ≠ nil → (visits p t).length + 1 = 2 * t.size
  | node l (u, x) r, p, _ => by
    have hl : (visits u l ++ back u ⟨l.root, r.root, p, x⟩ l).length = 2 * l.size := by
      cases l with
      | nil => rfl
      | node ll lk lr => rw [List.length_append, ← length_visits u (t := node ll lk lr) (by simp)]; rfl
    have hr : (visits u r ++ back u ⟨l.root, r.root, p, x⟩ r).length = 2 * r.size := by
      cases r with
      | nil => rfl
      | node rl rk rr => rw [List.length_append, ← length_visits u (t := node rl rk rr) (by simp)]; rfl
    unfold visits
    rw [List.length_cons, List.length_append, hl, hr, size_node]
    omega

theorem mem_of_back {u : Nat} {nd : TreeNode α} {t : BinTree (Nat × α)} {v : Nat × Nat × TreeNode α}
    (hv : v ∈ back u nd t) :
    v.1 = u := by
  cases t with
  | nil => cases hv
  | node l k r => rw [List.mem_singleton.1 hv]

theorem mem_visits : ∀ {t : BinTree (Nat × α)} {p : Nat}, ∀ v ∈ visits p t, v.1 ∈ t.ptrs
  | node l (u, x) r, p, v, hv => by
    unfold visits at hv
    simp only [List.mem_cons, List.mem_append] at hv
    simp only [ptrs_node, List.mem_append, List.mem_cons]
    rcases hv with rfl | (hv | hv) | hv | hv
    · exact .inr (.inl rfl)
    · exact .inl (mem_visits v hv)
    · exact .inr (.inl (mem_of_back hv))
    · exact .inr (.inr (mem_visits v hv))
    · exact .inr (.inl (mem_of_back hv))

/-- One visit among those of a tree and of the node above it, for a test that sorts them out. -/
theorem filter_back (q : Nat × Nat × TreeNode α → Bool) (u : Nat) (nd : TreeNode α) (t : BinTree (Nat × α)) :
    (t = nil ∨ q (u, t.root, nd) = false → (back u nd t).filter q = []) ∧
    (t ≠ nil → q (u, t.root, nd) = true → (back u nd t).filter q = [(u, t.root, nd)]) := by
  cases t with
  | nil => exact ⟨fun _ => rfl, fun h => absurd rfl h⟩
  | node l k r =>
    have hback : back u nd (node l k r) = [(u, (node l k r).root, nd)] := rfl
    rw [hback, List.filter_singleton]
    refine ⟨?_, fun _ hq => by rw [hq]; rfl⟩
    rintro (h | hq)
    · cases h
    · rw [hq]
      rfl

/-- A tour comes to every node from above once. -/
theorem perm_entries {h : Nodes α} : ∀ {t : BinTree (Nat × α)} {p : Nat}, Linked h p t → t.ptrs.Nodup →
    p ∉ t.ptrs → (((visits p t).filter fun v => v.2.1 = v.2.2.parent).map Prod.fst).Perm t.ptrs
  | nil, _, _, _, _ => List.Perm.refl _
  | node l (u, x) r, p, hl, hnodup, hp => by
    obtain ⟨-, -, -, hlp, hrp⟩ := hl.next hnodup hp rfl
    obtain ⟨hu, -, hleft, hright⟩ := hl
    rw [ptrs_node, List.nodup_append] at hnodup
    obtain ⟨hln, hrn, hlr⟩ := hnodup
    obtain ⟨hur, hrn⟩ := List.nodup_cons.1 hrn
    have hul : u ∉ l.ptrs := fun hmem => hlr u hmem u (List.mem_cons_self ..) rfl
    have hlback := (filter_back (fun v => v.2.1 = v.2.2.parent) u ⟨l.root, r.root, p, x⟩ l).1
      ((em (l = nil)).imp_right fun hne => decide_eq_false (hlp hne))
    have hrback := (filter_back (fun v => v.2.1 = v.2.2.parent) u ⟨l.root, r.root, p, x⟩ r).1
      ((em (r = nil)).imp_right fun hne => decide_eq_false (hrp hne))
    unfold visits
    simp only [List.filter_cons, decide_true, if_true, List.filter_append, hlback, hrback, List.append_nil,
      List.map_cons, List.map_append, ptrs_node]
    exact List.perm_middle.symm.trans ((perm_entries hleft hln hul).append ((perm_entries hright hrn hur).cons u))

/-- A tour leaves every node upwards once. -/
theorem perm_exits {h : Nodes α} : ∀ {t : BinTree (Nat × α)} {p : Nat}, Linked h p t → t.ptrs.Nodup →
    p ∉ t.ptrs → (((visits p t).filter fun v => v.2.2.next v.2.1 = v.2.2.parent).map Prod.fst).Perm t.ptrs
  | nil, _, _, _, _ => List.Perm.refl _
  | node l (u, x) r, p, hl, hnodup, hp => by
    obtain ⟨habove, hfromleft, hfromright, hlp, hrp⟩ := hl.next hnodup hp rfl
    obtain ⟨hu, -, hleft, hright⟩ := hl
    rw [ptrs_node, List.nodup_append] at hnodup
    obtain ⟨hln, hrn, hlr⟩ := hnodup
    obtain ⟨hur, hrn⟩ := List.nodup_cons.1 hrn
    have hul : u ∉ l.ptrs := fun hmem => hlr u hmem u (List.mem_cons_self ..) rfl
    have hlperm := perm_exits hleft hln hul
    have hrperm := perm_exits hright hrn hur
    have hlroot : l.root = 0 ↔ l = nil := hleft.root_eq_zero_iff
    have hrroot : r.root = 0 ↔ r = nil := hright.root_eq_zero_iff
    obtain ⟨hlstay, hlgo⟩ := filter_back (fun v => v.2.2.next v.2.1 = v.2.2.parent) u ⟨l.root, r.root, p, x⟩ l
    obtain ⟨hrstay, hrgo⟩ := filter_back (fun v => v.2.2.next v.2.1 = v.2.2.parent) u ⟨l.root, r.root, p, x⟩ r
    unfold visits
    simp only [List.filter_cons, List.filter_append, ptrs_node]
    by_cases hrnil : r = nil
    · subst hrnil
      by_cases hlnil : l = nil
      · subst hlnil
        have hup : TreeNode.next ⟨(nil : BinTree (Nat × α)).root, (nil : BinTree (Nat × α)).root, p, x⟩ p = p :=
          habove
        rw [decide_eq_true hup]
        exact List.Perm.refl _
      · rw [hlgo hlnil (decide_eq_true (hfromleft hlnil)), decide_eq_false]
        · simpa [visits, back] using hlperm.append_right [u]
        · rw [habove, if_pos fun h0 => hlnil (hlroot.1 h0)]
          exact hlp hlnil
    · rw [hrgo hrnil (decide_eq_true (hfromright hrnil)), hlstay, decide_eq_false]
      · simp only [Bool.false_eq_true, if_false, List.append_nil, List.map_append]
        exact hlperm.append ((hrperm.append_right [u]).trans List.perm_append_comm)
      · rw [habove]
        split_ifs with h1 h2
        · exact hlp fun hnil => h1 (hlroot.2 hnil)
        · exact hrp hrnil
        · exact absurd (hrroot.1 (not_not.1 h2)) hrnil
      · refine (em (l = nil)).imp_right fun hne => decide_eq_false ?_
        rw [hfromleft hne, if_pos fun h0 => hrnil (hrroot.1 h0)]
        exact hrp hrnil

namespace Local

variable (hlocal : Local mem act)
include hlocal

theorem mem_actions {v : Nat} : ∀ {vs : List (Nat × Nat × TreeNode α)} (s : σ), (∀ w ∈ vs, w.1 ≠ v) →
    mem (actions act s vs) v = mem s v
  | [], s, _ => rfl
  | w :: vs, s, h => by
    obtain ⟨hw, hvs⟩ := List.forall_mem_cons.1 h
    exact (mem_actions _ hvs).trans (hlocal.other s w.1 w.2.1 w.2.2 v hw.symm)

/-- The tour of a subtree ends at its parent, which is visited once more. -/
theorem walk_back {t : BinTree (Nat × α)} {s : σ} {u k : Nat} {nd : TreeNode α} (hu : u ≠ 0) (hne : t ≠ nil)
    (hnot : u ∉ t.ptrs) (hnd : mem s u = some nd)
    (ih : ∀ k, walk mem act (k + (visits u t).length) s t.root u =
      walk mem act k (actions act s (visits u t)) u t.root) :
    walk mem act (k + (visits u t ++ back u nd t).length) s t.root u =
      walk mem act k (actions act s (visits u t ++ back u nd t)) (nd.next t.root) u := by
  have hmem : mem (actions act s (visits u t)) u = some nd := by
    rw [hlocal.mem_actions (v := u) s fun w hw he => hnot (he ▸ mem_visits w hw), hnd]
  have hback : back u nd t = [(u, t.root, nd)] := by
    cases t with
    | nil => exact absurd rfl hne
    | node l k r => rfl
  have hlen : k + (visits u t ++ back u nd t).length = k + 1 + (visits u t).length := by
    rw [hback, List.length_append, List.length_singleton]
    omega
  rw [hlen, ih, actions_append, hback, walk, if_neg hu, hmem]
  rfl

/-- After the tour of a subtree its parent is as it was, unless it is left upwards. -/
theorem mem_back {t : BinTree (Nat × α)} {s : σ} {u : Nat} {nd : TreeNode α} (hnot : u ∉ t.ptrs)
    (hnd : mem s u = some nd)
    (hstay : t ≠ nil → nd.next t.root ≠ nd.parent) :
    mem (actions act s (visits u t ++ back u nd t)) u = some nd := by
  cases t with
  | nil => exact hnd
  | node l k r =>
    rw [actions_append]
    have hlast := hlocal.early (actions act s (visits u (node l k r))) u k.1 nd (hstay (by simp))
    refine hlast.trans ?_
    rw [hlocal.mem_actions (v := u) s fun w hw he => hnot (he ▸ mem_visits w hw), hnd]

/-- A tour enters a tree from above, visits its nodes in order, and leaves it upwards. -/
theorem walk_visits : ∀ {t : BinTree (Nat × α)} {p : Nat} {s : σ} (k : Nat), Linked (mem s) p t → t ≠ nil →
    t.ptrs.Nodup → p ∉ t.ptrs →
    walk mem act (k + (visits p t).length) s t.root p =
      walk mem act k (actions act s (visits p t)) p t.root
  | node l (u, x) r, p, s, k, hl, _, hnodup, hp => by
    generalize hnd : (⟨l.root, r.root, p, x⟩ : TreeNode α) = nd
    obtain ⟨habove, hfromleft, hfromright, hlp, hrp⟩ := hl.next hnodup hp hnd.symm
    obtain ⟨hu, hnode, hleft, hright⟩ := hl
    rw [hnd] at hnode
    rw [ptrs_node, List.nodup_append] at hnodup
    obtain ⟨hln, hrn, hlr⟩ := hnodup
    obtain ⟨hur, hrn⟩ := List.nodup_cons.1 hrn
    have hul : u ∉ l.ptrs := fun hmem => hlr u hmem u (List.mem_cons_self ..) rfl
    have hlroot : l.root = 0 ↔ l = nil := hleft.root_eq_zero_iff
    have hrroot : r.root = 0 ↔ r = nil := hright.root_eq_zero_iff
    have hparent : nd.parent = p := by rw [← hnd]
    -- down to the left and back
    obtain ⟨s1, hs1⟩ : ∃ s1, s1 = act u p nd s := ⟨_, rfl⟩
    have hsame1 : ∀ v, v ≠ u → mem s1 v = mem s v := fun v hv => by rw [hs1, hlocal.other _ _ _ _ _ hv]
    have hu1 : l ≠ nil ∨ r ≠ nil → mem s1 u = some nd := by
      intro hne
      rw [hs1, hlocal.early _ _ _ _ ?_, hnode]
      rw [habove, hparent]
      split_ifs with h1 h2
      · exact hlp fun hnil => h1 (hlroot.2 hnil)
      · exact hrp fun hnil => h2 (hrroot.2 hnil)
      · exact absurd hne (not_or.2 ⟨not_not.2 (hlroot.1 (not_not.1 h1)), not_not.2 (hrroot.1 (not_not.1 h2))⟩)
    have hl1 : Linked (mem s1) u l := hleft.congr fun v hv => hsame1 v fun he => hul (he ▸ hv)
    obtain ⟨s2, hs2⟩ : ∃ s2, s2 = actions act s1 (visits u l ++ back u nd l) := ⟨_, rfl⟩
    have hhalf1 : ∀ k, walk mem act (k + (visits u l ++ back u nd l).length) s1 (nd.next p) u =
        walk mem act k s2 (if r.root ≠ 0 then r.root else p) u := by
      intro k
      rw [habove, hs2]
      by_cases hne : l = nil
      · subst hne
        rfl
      · rw [if_pos fun h0 => hne (hlroot.1 h0),
          hlocal.walk_back hu hne hul (hu1 (.inl hne)) fun k => walk_visits k hl1 hne hln hul, hfromleft hne]
    -- down to the right and back
    have hu2 : r ≠ nil → mem s2 u = some nd := by
      intro hne
      rw [hs2]
      refine hlocal.mem_back hul (hu1 (.inr hne)) fun hlne => ?_
      rw [hfromleft hlne, hparent, if_pos fun h0 => hne (hrroot.1 h0)]
      exact hrp hne
    have hr2 : Linked (mem s2) u r := by
      refine hright.congr fun v hv => ?_
      have hvu : v ≠ u := fun he => hur (he ▸ hv)
      rw [hs2, hlocal.mem_actions (v := v), hsame1 v hvu]
      intro w hw
      rcases List.mem_append.1 hw with hw | hw
      · exact fun he => hlr v (he ▸ mem_visits w hw) v (List.mem_cons_of_mem _ hv) rfl
      · rw [mem_of_back hw]
        exact hvu.symm
    have hhalf2 :
      ∀ k, walk mem act (k + (visits u r ++ back u nd r).length) s2 (if r.root ≠ 0 then r.root else p) u =
        walk mem act k (actions act s2 (visits u r ++ back u nd r)) p u := by
      intro k
      by_cases hne : r = nil
      · subst hne
        rfl
      · rw [if_pos fun h0 => hne (hrroot.1 h0),
          hlocal.walk_back hu hne hur (hu2 hne) fun k => walk_visits k hr2 hne hrn hur, hfromright hne]
    have hvisits :
      visits p (node l (u, x) r) = (u, p, nd) :: ((visits u l ++ back u nd l) ++ (visits u r ++ back u nd r)) := by
      rw [← hnd]
      rfl
    have hlen : k + (visits p (node l (u, x) r)).length =
        k + (visits u r ++ back u nd r).length + (visits u l ++ back u nd l).length + 1 := by
      rw [hvisits, List.length_cons, List.length_append]
      omega
    have hdone : actions act s (visits p (node l (u, x) r)) = actions act s2 (visits u r ++ back u nd r) := by
      rw [hvisits, hs2, ← actions_append, hs1]
      rfl
    rw [hlen, root_node, walk, if_neg hu, hnode, Option.bind_eq_bind, Option.bind_some, ← hs1, hhalf1, hhalf2, hdone]

end Local

end Tours

end BinTree

end Embark
