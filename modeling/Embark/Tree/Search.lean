/-
The search for the scapegoat, to the limits of an `int`. `add` multiplies the size of every subtree
on the way up by three and that of its parent by two, so the search needs a scapegoat whose size
survives the multiplication: it completes exactly when one of the subtrees around the new node is
that small and holds more than two thirds of its parent.
-/
import Embark.Tree.Invariant
import Mathlib.Data.List.Perm.Subperm
import Mathlib.Tactic.Ring

namespace Embark

open BinTree

namespace ScapegoatTree

/-! ## The loop -/

section Loop

variable {α : Type}

/-- One of the subtrees from `w` upwards holds more than two thirds of its parent, and three times
its size is an `int`. -/
def HasScapegoat (w : BinTree α) (ctx : List (Crumb α)) : Prop :=
  ∃ inner c outer, ctx = inner ++ c :: outer ∧ 2 * (c.up (zip inner w)).size < 3 * (zip inner w).size ∧
    3 * (zip inner w).size < 2 ^ 31

theorem not_hasScapegoat_nil (w : BinTree α) : ¬ HasScapegoat w [] := by
  rintro ⟨inner, c, outer, h, -⟩
  simp at h

theorem hasScapegoat_cons {w : BinTree α} {c : Crumb α} {ctx : List (Crumb α)} : HasScapegoat w (c :: ctx) ↔
    (2 * (c.up w).size < 3 * w.size ∧ 3 * w.size < 2 ^ 31) ∨ HasScapegoat (c.up w) ctx := by
  constructor
  · rintro ⟨inner, c', outer, h, hun⟩
    cases inner with
    | nil =>
      obtain ⟨rfl, rfl⟩ := List.cons.inj h
      exact .inl hun
    | cons c₀ inner =>
      obtain ⟨rfl, rfl⟩ := List.cons.inj h
      exact .inr ⟨inner, c', outer, rfl, hun⟩
  · rintro (hun | ⟨inner, c', outer, rfl, hun⟩)
    · exact ⟨[], c, ctx, rfl, hun⟩
    · exact ⟨c :: inner, c', outer, rfl, hun⟩

/-- The scapegoat is no smaller than the subtree the search starts at. -/
theorem HasScapegoat.size_lt {w : BinTree α} {ctx : List (Crumb α)} (h : HasScapegoat w ctx) :
    3 * w.size < 2 ^ 31 := by
  obtain ⟨inner, c, outer, -, -, hlt⟩ := h
  have := size_le_size_zip inner w
  omega

/-- The loop completes exactly when there is a scapegoat within the range of `int`. -/
theorem rebuildScapegoat_isSome_iff {ctx : List (Crumb α)} {w : BinTree α} :
    (rebuildScapegoat w ctx).isSome ↔ HasScapegoat w ctx := by
  induction ctx generalizing w with
  | nil => simp [rebuildScapegoat, not_hasScapegoat_nil]
  | cons c ctx ih =>
    rw [hasScapegoat_cons]
    simp only [rebuildScapegoat, Option.bind_eq_bind]
    by_cases ha : 3 * w.size < 2 ^ 31
    · rw [int32_of_lt (by omega) (by omega)]
      by_cases hb : 2 * (c.up w).size < 2 ^ 31
      · rw [int32_of_lt (by omega) (by omega)]
        simp only [Option.bind_some]
        split_ifs with hbal
        · rw [ih]
          exact ⟨.inr, fun h => h.resolve_left (by omega)⟩
        · exact iff_of_true rfl (.inl ⟨by omega, ha⟩)
      · -- twice the parent overflows, so it is no smaller than three times the child
        have hnone : int32 (2 * (c.up w).size) = none := if_neg (by omega)
        rw [hnone]
        refine iff_of_false (by simp) ?_
        rintro (⟨h, -⟩ | h)
        · omega
        · have := h.size_lt
          omega
    · have hnone : int32 (3 * w.size) = none := if_neg (by omega)
      have hup := c.size_lt_size_up w
      rw [hnone]
      refine iff_of_false (by simp) ?_
      rintro (⟨-, h⟩ | h)
      · exact ha h
      · have := h.size_lt
        omega

/-- The search may as well start at the new node itself, which is no scapegoat. -/
theorem hasScapegoat_leaf {x : α} {c : Crumb α} {ctx : List (Crumb α)} :
    HasScapegoat (node nil x nil) (c :: ctx) ↔ HasScapegoat (c.up (node nil x nil)) ctx := by
  have hup : 2 ≤ (c.up (node nil x nil)).size := c.size_lt_size_up (node nil x nil)
  rw [hasScapegoat_cons]
  simp only [size_node, size_nil]
  exact ⟨fun h => h.resolve_left (by omega), .inr⟩

/-- Without a scapegoat every subtree on the way holds at most two thirds of the next. -/
theorem size_le_of_not_hasScapegoat {ctx : List (Crumb α)} {w : BinTree α} (h : ¬ HasScapegoat w ctx)
    (hlt : 3 * (zip ctx w).size < 2 ^ 31) : 3 ^ ctx.length * w.size ≤ 2 ^ ctx.length * (zip ctx w).size := by
  induction ctx generalizing w with
  | nil => simp
  | cons c ctx ih =>
    rw [hasScapegoat_cons, not_or] at h
    rw [zip_cons] at hlt ⊢
    have hzip := size_le_size_zip ctx (c.up w)
    have hup := c.size_lt_size_up w
    have hbal : 3 * w.size ≤ 2 * (c.up w).size := by
      by_contra hun
      exact h.1 ⟨by omega, by omega⟩
    -- and so on up to the root
    calc 3 ^ (c :: ctx).length * w.size = 3 ^ ctx.length * (3 * w.size) := by
          rw [List.length_cons, Nat.pow_succ]; ring
      _ ≤ 3 ^ ctx.length * (2 * (c.up w).size) := Nat.mul_le_mul_left _ hbal
      _ = 2 * (3 ^ ctx.length * (c.up w).size) := by ring
      _ ≤ 2 * (2 ^ ctx.length * (zip ctx (c.up w)).size) := Nat.mul_le_mul_left _ (ih h.2 hlt)
      _ = 2 ^ (c :: ctx).length * (zip ctx (c.up w)).size := by
          rw [List.length_cons, Nat.pow_succ]; ring

/-- A path longer than the logarithm passes a scapegoat, if three times the number of nodes is an
`int`: without one the new node would be too small a part of the tree for its depth. -/
theorem hasScapegoat_of_deep {x : α} {ctx : List (Crumb α)} (hlt : 3 * (zip ctx (node nil x nil)).size < 2 ^ 31)
    (hdeep : log32 (zip ctx (node nil x nil)).size < ctx.length) : HasScapegoat (node nil x nil) ctx := by
  have hpos : 0 < (zip ctx (node nil x nil)).size := size_le_size_zip ctx (node nil x nil)
  have hlog := log32_nonneg hpos
  cases ctx with
  | nil =>
    rw [List.length_nil] at hdeep
    omega
  | cons c rest =>
    rw [hasScapegoat_leaf]
    by_contra hnone
    have hle := size_le_of_not_hasScapegoat hnone (by rwa [zip_cons] at hlt)
    have hup : 2 ≤ (c.up (node nil x nil)).size := c.size_lt_size_up (node nil x nil)
    rw [List.length_cons] at hdeep
    rw [← zip_cons, Nat.mul_comm (2 ^ _)] at hle
    -- the parent has two nodes, and the tree is at most `(3/2)` to the power of its depth
    have hq := (log32_le_iff hpos).1 (show log32 _ ≤ (rest.length : Int) by push_cast at hdeep; omega)
    have htwo : 3 ^ rest.length * 2 ≤ 3 ^ rest.length * (c.up (node nil x nil)).size := Nat.mul_le_mul_left _ hup
    have hthree : 0 < 3 ^ rest.length := Nat.pow_pos (by omega)
    omega

end Loop

variable {α : Type} [LinearOrder α] {t : ScapegoatTree α} {x : α}

/-! ## One call -/

/-- What a call of `add` needs: where the place of a new key lies deeper than the logarithm of the
new number of keys, one of the subtrees around that place, counted with the new key, holds more than
two thirds of its parent and three times its size is an `int`. -/
def SearchFits (t : ScapegoatTree α) (x : α) : Prop :=
  ∀ ctx, findPlace x t.r [] = some ctx → log32 (t.q + 1) < ctx.length →
    ∃ inner c outer, ctx = inner ++ c :: outer ∧
      2 * ((c.up (zip inner nil)).size + 1) < 3 * ((zip inner nil).size + 1) ∧
      3 * ((zip inner nil).size + 1) < 2 ^ 31

omit [LinearOrder α] in
/-- The sizes around the place before the new key is linked in. -/
theorem hasScapegoat_leaf_iff (x : α) (ctx : List (Crumb α)) : HasScapegoat (node nil x nil) ctx ↔
    ∃ inner c outer, ctx = inner ++ c :: outer ∧
      2 * ((c.up (zip inner nil)).size + 1) < 3 * ((zip inner nil).size + 1) ∧
      3 * ((zip inner nil).size + 1) < 2 ^ 31 := by
  have hzip : ∀ inner : List (Crumb α), (zip inner (node nil x nil)).size = (zip inner nil).size + 1 :=
    fun inner => size_zip_of_size inner rfl
  have hup : ∀ (c : Crumb α) (inner : List (Crumb α)),
      (c.up (zip inner (node nil x nil))).size = (c.up (zip inner nil)).size + 1 :=
    fun c inner => c.size_up_of_size (hzip inner)
  unfold HasScapegoat
  simp only [hzip, hup]

/-- A call completes exactly when the key is stored already, or both counters stay within an `int`
and the search fits. -/
theorem GrownFrom.add_isSome_iff {q0 : Nat} (hw : GrownFrom q0 t) :
    (t.add x).isSome ↔ x ∈ t.r.keys ∨ q0 + t.r.size + 1 < 2 ^ 31 ∧ t.SearchFits x := by
  have hq := hw.q_eq
  unfold ScapegoatTree.add addWithDepth SearchFits
  simp only [← hasScapegoat_leaf_iff x]
  rw [← findPlace_eq_none_iff hw.ordered]
  cases hf : findPlace x t.r [] with
  | none =>
    -- a stored key is in a tree that is not empty, so its logarithm is no less than the depth
    have hpos : 0 < t.r.size := by
      cases hr : t.r with
      | nil => rw [hr] at hf; simp [findPlace] at hf
      | node l y r => rw [size_node]; omega
    have hlog := log32_nonneg (q := q0 + t.r.size) (by omega)
    simp only [Option.bind_eq_bind, Option.bind_some]
    rw [hq, if_neg (by omega)]
    exact iff_of_true rfl (.inl trivial)
  | some ctx =>
    simp only [hw.n_eq, hq, Option.bind_eq_bind, reduceCtorEq, false_or]
    by_cases hint : q0 + t.r.size + 1 < 2 ^ 31
    · rw [int32_of_lt (by omega) (by omega), int32_of_lt (by omega) (by omega)]
      simp only [Option.bind_some, Option.pure_def, Option.some.injEq, forall_eq', hint, true_and]
      split_ifs with hlong
      · cases ctx with
        | nil =>
          have hlog := log32_nonneg (q := q0 + t.r.size + 1) (by omega)
          rw [List.length_nil] at hlong
          push_cast at hlog hlong
          omega
        | cons c rest =>
          simp only [Option.isSome_bind, Option.isSome_some]
          rw [hasScapegoat_leaf, ← rebuildScapegoat_isSome_iff]
          cases rebuildScapegoat (c.up (node nil x nil)) rest with
          | none => exact iff_of_false (by simp) fun h => by simpa using h hlong
          | some r => exact iff_of_true rfl fun _ => rfl
      · exact iff_of_true rfl fun h => absurd h hlong
    · -- the count itself overflows
      have hnone : int32 ((q0 + t.r.size : Nat) + 1 : Int) = none := if_neg (by omega)
      rw [hnone]
      refine iff_of_false ?_ fun h => hint h.1
      cases int32 ((t.r.size : Int) + 1) <;> simp

/-- A stored key has no free place to search from. -/
theorem searchFits_of_mem (ho : t.r.Ordered) (hx : x ∈ t.r.keys) : t.SearchFits x := by
  intro ctx hf
  rw [(findPlace_eq_none_iff ho).2 hx] at hf
  cases hf

/-- A call on a reachable tree completes exactly when its search fits. -/
theorem add_isSome_iff (hw : t.WF) (hn : t.r.size + 1 < 2 ^ 31) : (t.add x).isSome ↔ t.SearchFits x := by
  rw [(wf_iff.1 hw).add_isSome_iff, Nat.zero_add]
  refine ⟨?_, fun h => .inr ⟨hn, h⟩⟩
  rintro (hx | ⟨-, h⟩)
  · exact searchFits_of_mem hw.ordered hx
  · exact h

/-- The search fits while three times the number of nodes is an `int`. -/
theorem GrownFrom.searchFits {q0 : Nat} (hw : GrownFrom q0 t) (hn : 3 * (t.r.size + 1) < 2 ^ 31) (x : α) :
    t.SearchFits x := by
  intro ctx hf hdeep
  rw [← hasScapegoat_leaf_iff x]
  have hold : zip ctx nil = t.r := findPlace_zip hf
  have hsize : (zip ctx (node nil x nil)).size = t.r.size + 1 := by
    rw [← hold]
    exact size_zip_of_size ctx rfl
  refine hasScapegoat_of_deep (by omega) ?_
  rw [hsize]
  rw [hw.q_eq] at hdeep
  exact lt_of_le_of_lt (log32_mono (by omega) (by push_cast; omega)) hdeep

/-! ## Runs -/

/-- A run stores no more keys than it was given. -/
theorem GrownFrom.size_le {q0 : Nat} {s : ScapegoatTree α} {xs : List α} (hs : GrownFrom q0 s) (h0 : s.r = nil)
    (h : s.addAll xs = some t) : t.r.size ≤ xs.length := by
  obtain ⟨hw, hkeys⟩ := hs.addAll h
  have hnodup : t.r.keys.Nodup := hw.ordered.imp ne_of_lt
  rw [← length_keys]
  refine (hnodup.subperm fun y hy => ?_).length_le
  rw [hkeys, h0] at hy
  simpa using hy

/-- A built tree has no more nodes than it was given keys. -/
theorem Built.size_le {xs : List α} (h : Built xs t) : t.r.size ≤ xs.length := (wf_iff.1 empty_wf).size_le rfl h

theorem built_nil : Built ([] : List α) empty := rfl

/-- A run is a shorter run and one more call. -/
theorem addAll_append_singleton {s : ScapegoatTree α} (xs : List α) :
    s.addAll (xs ++ [x]) = some t ↔ ∃ u b, s.addAll xs = some u ∧ u.add x = some (t, b) := by
  rw [addAll_append]
  simp only [addAll, List.foldlM_cons, List.foldlM_nil, Option.bind_eq_bind, Option.pure_def, Option.bind_eq_some_iff,
    Option.map_eq_some_iff, Prod.exists]
  constructor
  · rintro ⟨u, hu, t', ⟨t'', b, hadd, rfl⟩, ht⟩
    obtain rfl := Option.some.inj ht
    exact ⟨u, b, hu, hadd⟩
  · rintro ⟨u, b, hu, hadd⟩
    exact ⟨u, hu, t, ⟨t, b, hadd, rfl⟩, rfl⟩

/-- Every call of a run completes exactly when each does in the tree the calls before it leave. -/
theorem addAll_prefixes_iff {s : ScapegoatTree α} {xs : List α} :
    (∀ ys, ys <+: xs → ∃ t, s.addAll ys = some t) ↔
      ∀ ys y, ys ++ [y] <+: xs → ∀ t, s.addAll ys = some t → (t.add y).isSome := by
  constructor
  · intro hall ys y hys t ht
    obtain ⟨t', ht'⟩ := hall _ hys
    obtain ⟨u, b, hu, hadd⟩ := (addAll_append_singleton _).1 ht'
    obtain rfl : t = u := Option.some.inj (ht.symm.trans hu)
    rw [hadd]
    rfl
  · intro hcalls ys
    induction ys using List.reverseRecOn with
    | nil => exact fun _ => ⟨s, rfl⟩
    | append_singleton ys y ih =>
      intro hys
      obtain ⟨t, ht⟩ := ih ((List.prefix_append ys [y]).trans hys)
      obtain ⟨⟨t', b⟩, hadd⟩ := Option.isSome_iff_exists.1 (hcalls ys y hys t ht)
      exact ⟨t', (addAll_append_singleton _).2 ⟨t, b, ht, hadd⟩⟩

/-- Every call of a run of fewer than `2 ^ 31` completes exactly when the search of each fits. -/
theorem built_prefixes_iff {xs : List α} (hlen : xs.length < 2 ^ 31) :
    (∀ ys, ys <+: xs → ∃ t, Built ys t) ↔ ∀ ys y, ys ++ [y] <+: xs → ∀ t, Built ys t →
    t.SearchFits y := by
  refine addAll_prefixes_iff.trans (forall₅_congr fun ys y hys t (ht : Built ys t) => ?_)
  have hle := hys.length_le
  have hsize := ht.size_le
  rw [List.length_append, List.length_singleton] at hle
  exact add_isSome_iff (built_wf ht) (by omega)

/-- The search of every call of a run fits. -/
def RunFits (xs : List α) : Prop := ∀ ys y, ys ++ [y] <+: xs → ∀ t, Built ys t → t.SearchFits y

/-- A run of fewer than `2 ^ 31` calls completes exactly when the search of each fits. -/
theorem exists_built_iff {xs : List α} (hlen : xs.length < 2 ^ 31) : (∃ t, Built xs t) ↔ RunFits xs := by
  refine Iff.trans ?_ (built_prefixes_iff hlen)
  constructor
  · rintro ⟨t, ht⟩ ys ⟨zs, rfl⟩
    unfold Built at ht
    rw [addAll_append] at ht
    obtain ⟨s, hs, -⟩ := Option.bind_eq_some_iff.1 ht
    exact ⟨s, hs⟩
  · exact fun h => h xs (List.prefix_refl xs)

/-- A stored key is added again without effect. -/
theorem GrownFrom.add_of_mem {q0 : Nat} (hw : GrownFrom q0 t) (hx : x ∈ t.r.keys) : t.add x = some (t, false) := by
  obtain ⟨⟨t', b⟩, hadd⟩ := Option.isSome_iff_exists.1 (hw.add_isSome_iff.2 (.inl hx))
  rcases add_cases hw.q_nonneg hw.eq_nil hadd with ⟨-, rfl, rfl⟩ | ⟨ctx, hf, -⟩
  · exact hadd
  · rw [(findPlace_eq_none_iff hw.ordered).2 hx] at hf
    cases hf

/-- So a run may make every call twice. -/
theorem addAll_twice : ∀ {xs : List α} {t : ScapegoatTree α}, GrownFrom 0 t →
    t.addAll (xs.flatMap fun x => [x, x]) = t.addAll xs
  | [], t, _ => rfl
  | x :: xs, t, hw => by
    rw [List.flatMap_cons, addAll_append, show x :: xs = [x] ++ xs from rfl, addAll_append]
    unfold addAll
    simp only [List.foldlM_cons, List.foldlM_nil, Option.bind_eq_bind, Option.pure_def]
    cases hadd : t.add x with
    | none => rfl
    | some p =>
      obtain ⟨t', b⟩ := p
      have hw' := hw.add hadd
      simp only [Option.map_some, Option.bind_some, hw'.add_of_mem ((mem_add hw hadd x).2 (.inl rfl))]
      exact addAll_twice hw'

/-- Runs whose number of different keys stays low always fit. -/
theorem runFits_of_size {xs : List α}
    (h : ∀ t ys y, ys ++ [y] <+: xs → Built ys t → 3 * (t.r.size + 1) < 2 ^ 31) : RunFits xs :=
  fun ys y hys t ht => (wf_iff.1 (built_wf ht)).searchFits (h t ys y hys ht) y

/-- So do all runs of at most 715827882 calls. -/
theorem runFits_of_short {xs : List α} (hlen : 3 * xs.length < 2 ^ 31) : RunFits xs :=
  runFits_of_size fun t ys y hys ht => by
    have hle := hys.length_le
    have hsize := ht.size_le
    rw [List.length_append, List.length_singleton] at hle
    omega

/-! ## Depth -/

omit [LinearOrder α] in
/-- A node under `ctx` makes the tree higher than `ctx` is long. -/
theorem length_lt_height {u l r : BinTree α} {ctx : List (Crumb α)} (h : zip ctx (node l x r) = u) :
    ctx.length < u.height := by
  have hle := length_le_height_zip ctx (node l x r)
  rw [h, height_node] at hle
  omega

/-- No node of a grown tree lies deeper than the logarithm of `q`. -/
theorem GrownFrom.depth_le {q0 : Nat} (hw : GrownFrom q0 t) {l r : BinTree α} {ctx : List (Crumb α)}
    (h : zip ctx (node l x r) = t.r) : ctx.length ≤ log32 t.q := by
  have hlt := length_lt_height h
  have hpos : 0 < t.r.size := by
    have := size_le_size_zip ctx (node l x r)
    rw [h, size_node] at this
    omega
  rw [hw.q_eq]
  by_contra hdeep
  obtain ⟨k, hk, hle⟩ := (log32_lt_iff (by omega)).1 (not_le.1 hdeep)
  have := hw.height_le k hle
  omega

/-- No node of a reachable tree lies deeper than the logarithm of the number of keys. -/
theorem WF.depth_le (hw : t.WF) {l r : BinTree α} {ctx : List (Crumb α)} (h : zip ctx (node l x r) = t.r) :
    ctx.length ≤ log32 t.q := (wf_iff.1 hw).depth_le h

end ScapegoatTree

end Embark
