/-
Which trees `add` can build. Adding the keys of a search tree level by level rebuilds nothing as
long as no level lies deeper than the logarithm of the number of keys above it allows, so every tree
of that kind is reachable, however far it is from balanced.
-/
import Embark.Lib.Levels
import Embark.Tree.Invariant

namespace Embark

open BinTree

/-- A depth that the logarithm allows, without the logarithm. -/
theorem le_log32_iff {q d : Nat} (hq : 0 < q) : d ≤ log32 q ↔ ∀ k < d, 3 ^ k < q * 2 ^ k := by
  rw [← not_lt, log32_lt_iff hq]
  push Not
  exact Iff.rfl

namespace ScapegoatTree

section Counted

variable {α : Type}

/-- A tree with both counters at the number of its nodes. -/
def counted (u : BinTree α) : ScapegoatTree α := ⟨u, u.size, u.size⟩

end Counted

variable {α : Type} [LinearOrder α]

/-! ## One key -/

/-- The descent takes the way to a position that lies between the smaller and the larger keys. -/
theorem findPlace_zip_of_between {x : α} {s : BinTree α} {outer : List (Crumb α)} : ∀ {ctx : List (Crumb α)},
    (∀ y ∈ keysBefore ctx, y < x) → (∀ y ∈ keysAfter ctx, x < y) →
    findPlace x (zip ctx s) outer = findPlace x s (ctx ++ outer)
  | [], _, _ => rfl
  | c :: ctx, hb, ha => by
    rw [keysBefore_cons] at hb
    rw [keysAfter_cons] at ha
    rw [zip_cons, findPlace_zip_of_between (fun y hy => hb y (List.mem_append_left _ hy))
      (fun y hy => ha y (List.mem_append_right _ hy))]
    cases c with
    | left y r =>
      have hxy : x < y := ha y (by simp [Crumb.after])
      simp only [Crumb.up, findPlace]
      rw [if_pos hxy]
      rfl
    | right l y =>
      have hyx : y < x := hb y (by simp [Crumb.before])
      simp only [Crumb.up, findPlace]
      rw [if_neg (not_lt.2 hyx.le), if_pos hyx]
      rfl

/-- A key that does not lie too deep is linked in and nothing else happens. -/
theorem add_counted {x : α} {ctx : List (Crumb α)} (ho : (zip ctx (node nil x nil)).Ordered)
    (hsize : (zip ctx (nil : BinTree α)).size + 1 < 2 ^ 31)
    (hlog : ctx.length ≤ log32 ((zip ctx (nil : BinTree α)).size + 1 : Nat)) :
    (counted (zip ctx nil)).add x = some (counted (zip ctx (node nil x nil)), true) := by
  have hs := ordered_zip.1 ho
  simp only [keys_node, keys_nil, List.nil_append, List.append_assoc, List.cons_append, List.pairwise_append,
    List.pairwise_cons] at hs
  obtain ⟨-, ⟨hafter, -⟩, hbefore⟩ := hs
  have hplace : findPlace x (zip ctx nil) [] = some ctx := by
    rw [findPlace_zip_of_between (fun y hy => hbefore y hy x (by simp)) hafter, List.append_nil]
    rfl
  have hleaf : (zip ctx (node nil x nil)).size = (zip ctx nil).size + 1 := size_zip_of_size ctx rfl
  push_cast at hlog
  unfold add addWithDepth counted
  simp only [hplace, Option.bind_eq_bind]
  rw [int32_of_lt (by omega) (by omega)]
  simp only [Option.bind_some, Option.pure_def]
  rw [if_neg (by omega), hleaf]
  push_cast
  simp

/-! ## One level -/

/-- Adding the keys of one level of a subtree. -/
theorem addAll_level {s : BinTree α} : ∀ (d : Nat) (ctx : List (Crumb α)), (zip ctx (top (d + 1) s)).Ordered →
    (zip ctx (top (d + 1) s)).size < 2 ^ 31 →
    ((ctx.length + d : Nat) ≤ log32 ((zip ctx (top d s)).size + 1 : Nat)) →
    (counted (zip ctx (top d s))).addAll (level d s) = some (counted (zip ctx (top (d + 1) s))) := by
  induction s with
  | nil => intro d ctx _ _ _; simp [addAll]
  | node l x r ihl ihr =>
    intro d ctx ho hsize hlog
    cases d with
    | zero =>
      have hleaf : (zip ctx (node nil x nil)).size = (zip ctx nil).size + 1 := size_zip_of_size ctx rfl
      simp only [top_succ_node, top_zero] at ho hsize hlog ⊢
      rw [level_zero_node]
      unfold addAll
      rw [List.foldlM_cons, add_counted ho (by omega) hlog]
      rfl
    | succ d =>
      -- the left subtree gets its keys first, then the right one
      have hright : (zip ctx (node (top (d + 1) l) x (top d r))).keys.Sublist
          (zip ctx (node (top (d + 1) l) x (top (d + 1) r))).keys :=
        keys_zip_sublist ((List.Sublist.refl _).append ((keys_top_sublist d r).cons_cons x)) ctx
      have hleft : (zip ctx (node (top d l) x (top d r))).keys.Sublist
          (zip ctx (node (top (d + 1) l) x (top d r))).keys :=
        keys_zip_sublist ((keys_top_sublist d l).append (List.Sublist.refl _)) ctx
      have hgrow := log32_mono (by omega) (Nat.succ_le_succ (size_le_of_sublist hleft))
      have hfit := size_le_of_sublist hright
      simp only [top_succ_node] at ho hsize hlog ⊢
      rw [level_succ_node, addAll_append]
      have h1 := ihl d (.left x (top d r) :: ctx) (ho.sublist hright) (lt_of_le_of_lt hfit hsize)
        (by rw [List.length_cons, Nat.add_right_comm]; exact hlog)
      have h2 := ihr d (.right (top (d + 1) l) x :: ctx) ho hsize
        (by rw [List.length_cons, Nat.add_right_comm]; exact le_trans hlog hgrow)
      simp only [zip_cons, Crumb.up] at h1 h2
      rw [h1, Option.bind_some, h2]

/-! ## All levels -/

/-- Every search tree is reachable whose levels the logarithm allows. -/
theorem built_levels {u : BinTree α} (ho : u.Ordered) (hsize : u.size < 2 ^ 31) : ∀ h : Nat,
    (∀ d < h, d ≤ log32 ((top d u).size + 1 : Nat)) → Built (levels h u) (counted (top h u))
  | 0, _ => by simp [Built, levels, addAll, counted, empty]
  | h + 1, hlog => by
    have ih := built_levels ho hsize h fun d hd => hlog d (by omega)
    have hlevel := addAll_level h [] (ho.sublist (keys_top_sublist_keys (h + 1) u))
      (lt_of_le_of_lt (size_top_le (h + 1) u) hsize) (by simpa using hlog h (by omega))
    unfold Built at ih ⊢
    rw [levels_succ, addAll_append, ih]
    exact hlevel

end ScapegoatTree

end Embark
