/-
The tree from its constructors on. They leave `q` at whatever `int` the memory held, and the first
`add` compares its logarithm with the depth of the root: below zero the root already counts as too
deep, and the search for a scapegoat starts at the parent it does not have. From zero on a larger
`q` only rebuilds later, and the tree is as high as `log32 q` allows.
-/
import Embark.Ope.Height
import Mathlib.Data.List.Dedup

namespace Embark

open BinTree

namespace ScapegoatTree

variable {α : Type} [LinearOrder α]

/-! ## The counters of a run -/

/-- A run from nothing stores one node for every different key. -/
theorem GrownFrom.size_eq {q0 : Nat} {s t : ScapegoatTree α} {xs : List α} (hs : GrownFrom q0 s) (h0 : s.r = nil)
    (h : s.addAll xs = some t) : t.r.size = xs.dedup.length := by
  obtain ⟨hw, hkeys⟩ := hs.addAll h
  have hnodup : t.r.keys.Nodup := hw.ordered.imp ne_of_lt
  have hperm : t.r.keys.Perm xs.dedup := by
    rw [List.perm_ext_iff_of_nodup hnodup (List.nodup_dedup xs)]
    intro y
    rw [hkeys, h0, List.mem_dedup]
    simp
  rw [← length_keys, hperm.length_eq]

theorem length_dedup_le_of_prefix {xs ys : List α} (h : ys <+: xs) : ys.dedup.length ≤ xs.dedup.length := by
  refine ((List.nodup_dedup ys).subperm fun y hy => ?_).length_le
  rw [List.mem_dedup] at hy ⊢
  exact h.subset hy

theorem length_dedup_append_singleton {ys : List α} {y : α} (h : y ∉ ys) :
    (ys ++ [y]).dedup.length = ys.dedup.length + 1 := by
  have hperm : (ys ++ [y]).dedup.Perm (y :: ys).dedup := (List.perm_append_singleton y ys).dedup
  rw [hperm.length_eq, List.dedup_cons_of_notMem h, List.length_cons]

/-- The first `add` of a constructed tree reads through `nil` or overflows, unless `q` is an `int`
that is not negative and has a successor. -/
theorem add_constructed_isSome_iff {q : Int} {x : α} :
    ((constructed q).add x).isSome ↔ 0 ≤ q ∧ q + 1 < 2 ^ 31 := by
  have hcount : int32 (0 + 1) = some 1 := int32_of_lt (by decide) (by decide)
  simp only [add, addWithDepth, constructed, findPlace, hcount, Option.bind_eq_bind, Option.bind_some]
  by_cases hq : 0 ≤ q ∧ q + 1 < 2 ^ 31
  · have hlog := log32_nonneg (q := (q + 1).toNat) (by omega)
    rw [Int.toNat_of_nonneg (by omega)] at hlog
    rw [int32_of_lt (by omega) hq.2]
    simp only [Option.bind_some, Option.pure_def, List.length_nil, Int.natCast_zero]
    rw [if_neg (by omega)]
    exact iff_of_true rfl hq
  · refine iff_of_false ?_ hq
    cases hint : int32 (q + 1) with
    | none => simp
    | some q' =>
      -- the root lies deeper than the logarithm, and has no parent
      obtain ⟨hrange, rfl⟩ := int32_eq_some.1 hint
      have hdeep : log32 (q + 1) < 0 := by
        unfold log32
        rw [if_pos (by omega)]
        decide
      simp [hdeep]

end ScapegoatTree

namespace OPETree

variable {α : Type} [LinearOrder α]

open ScapegoatTree (constructed GrownFrom)

/-! ## Runs on a constructed tree -/

/-- The path lengths of both walkers stay at most 128, on the way and where they end. -/
structure WalksFit (t : ScapegoatTree α) : Prop where
  position : ∀ ctx s, zip ctx s = t.r → ctx.length ≤ 128
  max : ∀ v path pathLength, maxWalk v t.r 0 0 none = some (path, pathLength) → pathLength + 1 ≤ 128
  min : ∀ v path pathLength, minWalk v t.r 0 0 none = some (path, pathLength) → pathLength + 1 ≤ 128

theorem walksFit_of_height {t : ScapegoatTree α} (h : t.r.height ≤ 127) : WalksFit t where
  position ctx s hs := by
    have hle := length_le_height_zip ctx s
    rw [hs] at hle
    omega
  max v path pathLength hw := by
    have hlt : pathLength < 127 := maxWalk_length_lt hw (by simp) (by omega)
    omega
  min v path pathLength hw := by
    have hlt : pathLength < 127 := minWalk_length_lt hw (by simp) (by omega)
    omega

/-- Every call of the run on the tree constructed with `q` in its memory completes, reading nothing
through `nil`, and leaves a tree whose walks fit. -/
def AddsSafe (q : Int) (xs : List α) : Prop :=
  ∀ ys, ys <+: xs → ∃ t, (constructed q : ScapegoatTree α).addAll ys = some t ∧ WalksFit t

/-- Whatever completes on a constructed tree leaves its walks short. -/
theorem addsSafe_iff_completes {q : Int} {xs : List α} :
    AddsSafe q xs ↔ ∀ ys, ys <+: xs → ∃ t, (constructed q : ScapegoatTree α).addAll ys = some t := by
  refine ⟨fun h ys hys => (h ys hys).imp fun t ht => ht.1, fun h ys hys => ?_⟩
  obtain ⟨t, ht⟩ := h ys hys
  refine ⟨t, ht, walksFit_of_height ?_⟩
  cases ys with
  | nil =>
    obtain rfl : constructed q = t := Option.some.inj ht
    exact Nat.zero_le _
  | cons y ys =>
    -- the first call has completed, so `q` was a natural number
    have hfirst : ((constructed q : ScapegoatTree α).add y).isSome := by
      obtain ⟨u, hu⟩ := h [y] (((List.prefix_append [y] ys)).trans hys)
      obtain ⟨s, b, hs, hadd⟩ := (ScapegoatTree.addAll_append_singleton []).1 hu
      obtain rfl : constructed q = s := Option.some.inj hs
      rw [hadd]
      rfl
    obtain ⟨hpos, hlt⟩ := ScapegoatTree.add_constructed_isSome_iff.1 hfirst
    obtain ⟨q0, rfl⟩ := Int.eq_ofNat_of_zero_le hpos
    have hw := (ScapegoatTree.constructed_grownFrom (α := α) (show q0 < 2 ^ 31 by omega)).addAll ht
    exact hw.1.height_le_54.trans (by decide)

/-- Calls with a `q` that can count the different keys are safe where every search fits. -/
theorem addsSafe_of_fits {q0 : Nat} {xs : List α} (hcount : q0 + xs.dedup.length < 2 ^ 31)
    (hfits : ∀ ys y, ys ++ [y] <+: xs → ∀ t, (constructed q0 : ScapegoatTree α).addAll ys = some t →
      t.SearchFits y) :
    AddsSafe q0 xs := by
  rw [addsSafe_iff_completes, ScapegoatTree.addAll_prefixes_iff]
  intro ys y hys t ht
  have hw := ScapegoatTree.constructed_grownFrom (α := α) (show q0 < 2 ^ 31 by omega)
  obtain ⟨hgrown, hkeys⟩ := hw.addAll ht
  rw [hgrown.add_isSome_iff]
  by_cases hy : y ∈ t.r.keys
  · exact .inl hy
  · refine .inr ⟨?_, hfits ys y hys t ht⟩
    have hnew : y ∉ ys := fun hmem => hy ((hkeys y).2 (.inl hmem))
    have hle := ScapegoatTree.length_dedup_le_of_prefix hys
    rw [ScapegoatTree.length_dedup_append_singleton hnew, ← hw.size_eq rfl ht] at hle
    omega

/-- Adds on a constructed tree are safe exactly when `q` is not negative and can count the different
keys, and the search of each call fits an `int`. -/
theorem addsSafe_iff {q : Int} {xs : List α} :
    AddsSafe q xs ↔ xs = [] ∨ 0 ≤ q ∧ q + xs.dedup.length < 2 ^ 31 ∧
      ∀ ys y, ys ++ [y] <+: xs → ∀ t, (constructed q : ScapegoatTree α).addAll ys = some t →
      t.SearchFits y := by
  cases xs with
  | nil =>
    refine iff_of_true (fun ys hys => ?_) (.inl rfl)
    obtain rfl := List.prefix_nil.1 hys
    exact ⟨_, rfl, walksFit_of_height (Nat.zero_le _)⟩
  | cons x xs =>
    simp only [reduceCtorEq, false_or]
    constructor
    · intro h
      rw [addsSafe_iff_completes, ScapegoatTree.addAll_prefixes_iff] at h
      obtain ⟨hpos, hlt⟩ := ScapegoatTree.add_constructed_isSome_iff.1 (h [] x (List.prefix_append [x] xs) _ rfl)
      obtain ⟨q0, rfl⟩ := Int.eq_ofNat_of_zero_le hpos
      have hw := ScapegoatTree.constructed_grownFrom (α := α) (show q0 < 2 ^ 31 by omega)
      refine ⟨hpos, ?_, fun ys y hys t ht => ?_⟩
      · obtain ⟨t, ht⟩ := ScapegoatTree.addAll_prefixes_iff.2 h _ (List.prefix_refl _)
        have hcount := (hw.addAll ht).1.q_lt
        rw [hw.size_eq rfl ht] at hcount
        exact_mod_cast hcount
      · rcases (hw.addAll ht).1.add_isSome_iff.1 (h ys y hys t ht) with hy | ⟨-, hfits⟩
        · exact ScapegoatTree.searchFits_of_mem (hw.addAll ht).1.ordered hy
        · exact hfits
    · rintro ⟨hpos, hcount, hfits⟩
      obtain ⟨q0, rfl⟩ := Int.eq_ofNat_of_zero_le hpos
      exact addsSafe_of_fits (by exact_mod_cast hcount) hfits

/-- Runs of at most 715827882 calls are safe where `q` starts at zero or above and can count them. -/
theorem addsSafe_of_short {q : Int} {xs : List α} (hq : 0 ≤ q) (hcount : q + xs.length < 2 ^ 31)
    (hlen : 3 * xs.length < 2 ^ 31) : AddsSafe q xs := by
  obtain ⟨q0, rfl⟩ := Int.eq_ofNat_of_zero_le hq
  have hw := ScapegoatTree.constructed_grownFrom (α := α) (show q0 < 2 ^ 31 by omega)
  refine addsSafe_of_fits ?_ fun ys y hys t ht => ?_
  · have hdedup := (List.dedup_sublist xs).length_le
    omega
  · have hle := hys.length_le
    have hsize := hw.size_le rfl ht
    rw [List.length_append, List.length_singleton] at hle
    exact (hw.addAll ht).1.searchFits (by omega) y

/-- Memory that held -1: the first port added is at depth zero, deeper than the logarithm of zero. -/
theorem negativeCounter_unsafe : ¬ AddsSafe (-1) ([80] : List (BitVec 16)) := by
  intro h
  obtain ⟨t, ht, -⟩ := h [80] (List.prefix_refl _)
  have hnone : (constructed (-1) : ScapegoatTree (BitVec 16)).addAll [80] = none := by decide
  rw [hnone] at ht
  cases ht

end OPETree

end Embark
