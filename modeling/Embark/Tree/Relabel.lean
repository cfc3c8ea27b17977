/-
Relabelling a search tree by a strictly increasing function: every operation of the scapegoat tree
compares keys and nothing else, so it does the same to the relabelled tree, and two trees that
get order-isomorphic keys in the same order have the same shape.
-/
import Embark.Tree.Scapegoat
import Mathlib.Order.Monotone.Basic

namespace Embark

namespace BinTree

variable {α β : Type}

/-- The tree of the same shape with the keys `f x`. -/
def map (f : α → β) : BinTree α → BinTree β
  | nil => nil
  | node l x r => node (l.map f) (f x) (r.map f)

@[simp] theorem map_nil (f : α → β) : (nil : BinTree α).map f = nil := rfl
@[simp] theorem map_node (f : α → β) (l r : BinTree α) (x : α) :
    (node l x r).map f = node (l.map f) (f x) (r.map f) := rfl

@[simp] theorem keys_map (f : α → β) (t : BinTree α) : (t.map f).keys = t.keys.map f := by
  induction t with
  | nil => rfl
  | node l x r ihl ihr => simp [ihl, ihr]

@[simp] theorem size_map (f : α → β) (t : BinTree α) : (t.map f).size = t.size := by
  rw [← length_keys, keys_map, List.length_map, length_keys]

/-- The ancestor with the keys `f x`. -/
def Crumb.map (f : α → β) : Crumb α → Crumb β
  | .left x r => .left (f x) (r.map f)
  | .right l x => .right (l.map f) (f x)

@[simp] theorem map_up (f : α → β) (c : Crumb α) (t : BinTree α) : (c.up t).map f = (c.map f).up (t.map f) := by
  cases c <;> rfl

theorem map_zip (f : α → β) (ctx : List (Crumb α)) (t : BinTree α) :
    (zip ctx t).map f = zip (ctx.map (Crumb.map f)) (t.map f) := by
  induction ctx generalizing t with
  | nil => rfl
  | cons c ctx ih => rw [zip_cons, ih, map_up, List.map_cons, zip_cons]

end BinTree

open BinTree

/-! ## Rebuilding -/

section Rebuild

variable {α β : Type} (f : α → β)

theorem map_buildBalanced (a : List α) (i ns : Nat) :
    (buildBalanced a i ns).map f = buildBalanced (a.map f) i ns := by
  induction i, ns using buildBalanced.induct (a := a) with
  | case1 i => simp [buildBalanced]
  | case2 i ns h0 m hm =>
    have hm' : (a.map f)[i + m]? = none := by rw [List.getElem?_map, hm]; rfl
    rw [buildBalanced, buildBalanced, if_neg h0, if_neg h0]
    simp only [m] at hm hm'
    simp only [hm, hm', map_nil]
  | case3 i ns h0 m x hx ihl ihr =>
    have hx' : (a.map f)[i + m]? = some (f x) := by rw [List.getElem?_map, hx]; rfl
    rw [buildBalanced_of_getElem h0 hx, buildBalanced_of_getElem h0 hx', map_node, ihl, ihr]

theorem map_rebuild (u : BinTree α) : (rebuild u).map f = rebuild (u.map f) := by
  unfold rebuild
  rw [map_buildBalanced, packIntoArray_eq, packIntoArray_eq, size_map, keys_map]
  rfl

end Rebuild

namespace ScapegoatTree

variable {α β : Type} [LinearOrder α] [LinearOrder β] {f : α → β}

omit [LinearOrder α] [LinearOrder β] in
/-- The tree with the keys `f x` and the same counters. -/
def map (f : α → β) (t : ScapegoatTree α) : ScapegoatTree β := ⟨t.r.map f, t.n, t.q⟩

/-! ## Insertion -/

theorem findPlace_map (hf : StrictMono f) (x : α) : ∀ (t : BinTree α) (ctx : List (Crumb α)),
    findPlace (f x) (t.map f) (ctx.map (Crumb.map f)) = (findPlace x t ctx).map (List.map (Crumb.map f))
  | nil, ctx => rfl
  | node l y r, ctx => by
    simp only [map_node, findPlace, hf.lt_iff_lt]
    split
    · exact findPlace_map hf x l (.left y r :: ctx)
    · split
      · exact findPlace_map hf x r (.right l y :: ctx)
      · rfl

omit [LinearOrder α] [LinearOrder β] in
theorem rebuildScapegoat_map (f : α → β) (w : BinTree α) (ctx : List (Crumb α)) :
    rebuildScapegoat (w.map f) (ctx.map (Crumb.map f)) = (rebuildScapegoat w ctx).map (BinTree.map f) := by
  induction ctx generalizing w with
  | nil => rfl
  | cons c ctx ih =>
    have hzip : zip (ctx.map (Crumb.map f)) (rebuild ((c.map f).up (w.map f))) =
        (zip ctx (rebuild (c.up w))).map f := by
      rw [map_zip, map_rebuild, map_up]
    rw [List.map_cons]
    simp only [rebuildScapegoat, ← map_up, size_map, Option.bind_eq_bind, Option.pure_def]
    cases int32 (3 * w.size) with
    | none => rfl
    | some a3 =>
      cases int32 (2 * (c.up w).size) with
      | none => rfl
      | some b2 =>
        simp only [Option.bind_some]
        split
        · exact ih (c.up w)
        · rw [map_up, hzip]
          rfl

/-- Adding the image of a key to a relabelled tree. -/
theorem add_map (hf : StrictMono f) (t : ScapegoatTree α) (x : α) :
    (t.map f).add (f x) = (t.add x).map fun r => (r.1.map f, r.2) := by
  have hplace : findPlace (f x) (t.map f).r [] = (findPlace x t.r []).map (List.map (Crumb.map f)) :=
    findPlace_map hf x t.r []
  unfold add addWithDepth
  rw [hplace]
  cases findPlace x t.r [] with
  | none =>
    simp only [Option.map_none, Option.bind_eq_bind, Option.bind_some]
    show (if log32 t.q < -1 then _ else _) = Option.map _ (if log32 t.q < -1 then _ else _)
    split <;> rfl
  | some ctx =>
    simp only [Option.map_some, Option.bind_eq_bind]
    show (Option.bind (Option.bind (int32 (t.n + 1)) _) _) = _
    cases int32 (t.n + 1) with
    | none => rfl
    | some n =>
      simp only [Option.bind_some]
      show (Option.bind (Option.bind (int32 (t.q + 1)) _) _) = _
      cases int32 (t.q + 1) with
      | none => rfl
      | some q =>
        simp only [Option.bind_some, Option.pure_def, List.length_map]
        by_cases hd : log32 q < ctx.length
        · rw [if_pos hd, if_pos hd]
          cases ctx with
          | nil => rfl
          | cons c rest =>
            have hleaf : (c.map f).up (node nil (f x) nil) = (c.up (node nil x nil)).map f := by rw [map_up]; rfl
            simp only [List.map_cons, hleaf, rebuildScapegoat_map]
            cases rebuildScapegoat (c.up (node nil x nil)) rest <;> rfl
        · rw [if_neg hd, if_neg hd]
          simp only [map, map_zip, map_node, map_nil, Option.map_some]

/-- A sequence of calls with the images of the keys. -/
theorem addAll_map (hf : StrictMono f) : ∀ (xs : List α) (t : ScapegoatTree α),
    (t.map f).addAll (xs.map f) = (t.addAll xs).map (map f)
  | [], t => rfl
  | x :: xs, t => by
    simp only [addAll, List.map_cons, List.foldlM_cons, Option.bind_eq_bind]
    rw [add_map hf]
    cases t.add x with
    | none => rfl
    | some r => exact addAll_map hf xs r.1

end ScapegoatTree

end Embark
