/-
The invariant of the scapegoat tree over any sequence of completed `add` calls: the search order,
both counters equal to the number of nodes, and no node deeper than `log32 q`. The depth bound is
the one a rebuilding restores: the new node is the only one below the bound, so every subtree
around it lacks at least one node of being full, and an unbalanced one lacks enough of them.
-/
import Embark.Tree.Scapegoat
import Mathlib.Tactic.Ring

namespace Embark

open BinTree

namespace ScapegoatTree

/-! ## The scapegoat loop -/

section Scapegoat

variable {α : Type}

/-- The scapegoat loop rebuilds the subtree of an ancestor `p` whose child on the path holds more
than two thirds of it, and nothing else. -/
theorem rebuildScapegoat_spec {ctx : List (Crumb α)} {w r : BinTree α}
    (h : rebuildScapegoat w ctx = some r) : ∃ inner c outer, ctx = inner ++ c :: outer ∧
      2 * (c.up (zip inner w)).size < 3 * (zip inner w).size ∧
      r = zip outer (rebuild (c.up (zip inner w))) := by
  induction ctx generalizing w with
  | nil => simp [rebuildScapegoat] at h
  | cons c ctx ih =>
    simp only [rebuildScapegoat, Option.bind_eq_bind, Option.bind_eq_some_iff, int32_eq_some] at h
    obtain ⟨a3, ⟨-, rfl⟩, b2, ⟨-, rfl⟩, h⟩ := h
    split at h
    · obtain ⟨inner, c', outer, rfl, h1, h2⟩ := ih h
      exact ⟨c :: inner, c', outer, rfl, h1, h2⟩
    · rename_i hlt
      simp only [Option.pure_def, Option.some.injEq] at h
      exact ⟨[], c, ctx, rfl, by rw [zip_nil]; omega, h.symm⟩

theorem rebuildScapegoat_keys {w r : BinTree α} {ctx : List (Crumb α)}
    (h : rebuildScapegoat w ctx = some r) : r.keys = (zip ctx w).keys := by
  obtain ⟨inner, c, outer, rfl, -, rfl⟩ := rebuildScapegoat_spec h
  rw [zip_append, zip_cons]
  exact keys_zip_congr outer (keys_rebuild _)

/-- Rebuilding below the depth bound. The ancestors `inner` of the new node reach up to the child
`w` of the rebuilt subtree; the tree without the new node is at most as high as the path. -/
theorem height_rebuilt {x : α} (inner outer : List (Crumb α)) {c : Crumb α}
    (hold : (zip (inner ++ c :: outer) nil).height ≤ (inner ++ c :: outer).length)
    (hsc : 2 * (c.up (zip inner (node nil x nil))).size < 3 * (zip inner (node nil x nil)).size) :
    (zip outer (rebuild (c.up (zip inner (node nil x nil))))).height ≤ (inner ++ c :: outer).length := by
  have hlen : (inner ++ c :: outer).length = inner.length + 1 + outer.length := by simp; omega
  have hin : (zip (inner ++ c :: outer) nil) = zip outer (c.up (zip inner nil)) := by
    rw [zip_append, zip_cons]
  rw [hin] at hold
  -- without the new node the child is at most `inner.length` high, so not even full with it
  have hw : (zip inner (nil : BinTree α)).height ≤ inner.length := by
    have h1 := length_le_height_zip outer (c.up (zip inner nil))
    have h2 := c.height_lt_height_up (zip inner nil)
    omega
  have hsize : (zip inner (node nil x nil)).size = (zip inner nil).size + 1 :=
    size_zip_of_size inner (by simp)
  have hpow : 2 ^ (zip inner (nil : BinTree α)).height ≤ 2 ^ inner.length := Nat.pow_le_pow_right (by omega) hw
  have hlt := size_lt_two_pow (zip inner (nil : BinTree α))
  have hb : (c.up (zip inner (node nil x nil))).size < 2 ^ (inner.length + 1) := by
    rw [Nat.pow_succ]; omega
  have h1 := height_zip_le outer (c.up (zip inner nil)) (rebuild (c.up (zip inner (node nil x nil))))
  have h2 := height_rebuild _ hb
  omega

theorem size_le_size_zip (ctx : List (Crumb α)) (t : BinTree α) : t.size ≤ (zip ctx t).size := by
  induction ctx generalizing t with
  | nil => simp
  | cons c ctx ih => exact le_trans (c.size_lt_size_up t).le (ih _)

end Scapegoat

variable {α : Type} [LinearOrder α]

/-- The invariant of trees grown from nothing with `q` at `q0`. `q ≤ (3/2) ^ k` is `log32 q ≤ k`
(`log32_le_iff`), which no tree without keys contradicts. -/
structure GrownFrom (q0 : Nat) (t : ScapegoatTree α) : Prop where
  ordered : t.r.Ordered
  n_eq : t.n = t.r.size
  q_eq : t.q = (q0 + t.r.size : Nat)
  q_lt : q0 + t.r.size < 2 ^ 31
  height_le : ∀ k, (q0 + t.r.size) * 2 ^ k ≤ 3 ^ k → t.r.height ≤ k + 1

/-- The invariant of reachable trees, with both counters at the number of nodes. -/
structure WF (t : ScapegoatTree α) : Prop where
  ordered : t.r.Ordered
  n_eq : t.n = t.r.size
  q_eq : t.q = t.r.size
  size_lt : t.r.size < 2 ^ 31
  height_le : ∀ k, t.r.size * 2 ^ k ≤ 3 ^ k → t.r.height ≤ k + 1

theorem wf_iff {t : ScapegoatTree α} : t.WF ↔ GrownFrom 0 t := by
  constructor
  · rintro ⟨ho, hn, hq, hlt, hh⟩
    exact ⟨ho, hn, by rw [hq, Nat.zero_add], by rwa [Nat.zero_add], by simpa using hh⟩
  · rintro ⟨ho, hn, hq, hlt, hh⟩
    exact ⟨ho, hn, by rw [hq, Nat.zero_add], by rwa [Nat.zero_add] at hlt, by simpa using hh⟩

theorem empty_wf : (empty : ScapegoatTree α).WF :=
  ⟨ordered_nil, rfl, rfl, by simp [empty], by simp [empty]⟩

theorem constructed_grownFrom {q0 : Nat} (hq : q0 < 2 ^ 31) : GrownFrom q0 (constructed q0 : ScapegoatTree α) :=
  ⟨ordered_nil, rfl, rfl, hq, by simp [constructed]⟩

section Counters

variable {q0 : Nat} {t : ScapegoatTree α}

theorem GrownFrom.q_nonneg (hw : GrownFrom q0 t) : 0 ≤ t.q := by
  rw [hw.q_eq]
  omega

theorem GrownFrom.eq_nil (hw : GrownFrom q0 t) (h0 : t.q = 0) : t.r = nil := by
  have hq := hw.q_eq
  cases hr : t.r with
  | nil => rfl
  | node l y r =>
    rw [hr, size_node] at hq
    omega

end Counters

/-! ## The place of a new key -/

theorem findPlace_zip {x : α} : ∀ {t : BinTree α} {outer ctx : List (Crumb α)},
    findPlace x t outer = some ctx → zip ctx nil = zip outer t
  | nil, outer, ctx, h => by
    simp only [findPlace, Option.some.injEq] at h
    rw [h]
  | node l y r, outer, ctx, h => by
    simp only [findPlace] at h
    split at h
    · rw [findPlace_zip h]; rfl
    · split at h
      · rw [findPlace_zip h]; rfl
      · cases h

/-- The free place lies between the smaller and the larger keys. -/
theorem findPlace_between {x : α} : ∀ {t : BinTree α} {outer ctx : List (Crumb α)},
    findPlace x t outer = some ctx → (zip outer t).Ordered →
    (∀ y ∈ keysBefore outer, y < x) → (∀ y ∈ keysAfter outer, x < y) →
    (∀ y ∈ keysBefore ctx, y < x) ∧ ∀ y ∈ keysAfter ctx, x < y
  | nil, outer, ctx, h, _, hb, ha => by
    simp only [findPlace, Option.some.injEq] at h
    rw [← h]; exact ⟨hb, ha⟩
  | node l y r, outer, ctx, h, ho, hb, ha => by
    have hs := ordered_zip.1 ho
    simp only [List.pairwise_append] at hs
    obtain ⟨-, -, -, hr⟩ := ordered_node.1 hs.1.2.1
    simp only [findPlace] at h
    split at h
    · rename_i hxy
      refine findPlace_between h ho ?_ ?_
      · simpa [Crumb.before] using hb
      · intro z hz
        simp only [keysAfter_cons, Crumb.after, List.cons_append, List.mem_cons, List.mem_append] at hz
        rcases hz with rfl | hz | hz
        · exact hxy
        · exact lt_trans hxy (hr.1 z hz)
        · exact ha z hz
    · split at h
      · rename_i hyx
        refine findPlace_between h ho ?_ ?_
        · intro z hz
          simp only [keysBefore_cons, Crumb.before, List.mem_append, List.mem_singleton] at hz
          rcases hz with hz | hz | rfl
          · exact hb z hz
          · exact lt_trans (ordered_node.1 hs.1.2.1 |>.2.2.1 z hz) hyx
          · exact hyx
        · simpa [Crumb.after] using ha
      · cases h

theorem findPlace_none {x : α} : ∀ {t : BinTree α} {outer : List (Crumb α)},
    findPlace x t outer = none → x ∈ t.keys
  | nil, outer, h => by simp [findPlace] at h
  | node l y r, outer, h => by
    simp only [findPlace] at h
    simp only [mem_keys_node]
    split at h
    · exact .inl (findPlace_none h)
    · split at h
      · exact .inr (.inr (findPlace_none h))
      · rename_i h1 h2
        exact .inr (.inl (le_antisymm (not_lt.1 h2) (not_lt.1 h1)))

/-- A key without a free place is stored, and no other. -/
theorem findPlace_eq_none_iff {x : α} {t : BinTree α} (ho : t.Ordered) :
    findPlace x t [] = none ↔ x ∈ t.keys := by
  refine ⟨findPlace_none, fun hx => ?_⟩
  cases hf : findPlace x t [] with
  | none => rfl
  | some ctx =>
    obtain ⟨hb, ha⟩ := findPlace_between hf ho (by simp [keysBefore]) (by simp [keysAfter])
    rw [show t = zip ctx nil from (findPlace_zip hf).symm, keys_zip] at hx
    simp only [keys_nil, List.append_nil, List.mem_append] at hx
    rcases hx with hx | hx
    · exact absurd (hb x hx) (lt_irrefl x)
    · exact absurd (ha x hx) (lt_irrefl x)

/-- The new node, linked in at the place found. -/
theorem insert_ordered {x : α} {t : BinTree α} {ctx : List (Crumb α)}
    (h : findPlace x t [] = some ctx) (ho : t.Ordered) : (zip ctx (node nil x nil)).Ordered := by
  obtain ⟨hb, ha⟩ := findPlace_between h ho (by simp [keysBefore]) (by simp [keysAfter])
  have hs : (keysBefore ctx ++ keysAfter ctx).Pairwise (· < ·) := by
    have h0 : (zip ctx nil).Ordered := by rw [findPlace_zip h]; exact ho
    simpa using ordered_zip.1 h0
  rw [ordered_zip]
  simp only [List.pairwise_append] at hs
  obtain ⟨h1, h2, h3⟩ := hs
  simp only [keys_node, keys_nil, List.nil_append, List.append_assoc, List.cons_append, List.pairwise_append,
    List.pairwise_cons, List.mem_cons]
  refine ⟨h1, ⟨ha, h2⟩, fun y hy z hz => ?_⟩
  rcases hz with rfl | hz
  · exact hb y hy
  · exact h3 y hy z hz

/-! ## What one call does -/

/-- A completed `add` of a stored key changes nothing; one of a new key links it in at its place,
counts it, and where its depth exceeds `log32 q` the subtree at one of its proper ancestors is
rebuilt. -/
theorem add_cases {t t' : ScapegoatTree α} {x : α} {b : Bool} (hpos : 0 ≤ t.q) (hq : t.q = 0 → t.r = nil)
    (h : t.add x = some (t', b)) :
    (findPlace x t.r [] = none ∧ t' = t ∧ b = false ∨ ∃ ctx, findPlace x t.r [] = some ctx ∧
      (t.n + 1 < 2 ^ 31 ∧ t.q + 1 < 2 ^ 31) ∧ t'.n = t.n + 1 ∧ t'.q = t.q + 1 ∧ b = true ∧
      (¬ log32 (t.q + 1) < ctx.length ∧ t'.r = zip ctx (node nil x nil) ∨
        log32 (t.q + 1) < ctx.length ∧ ∃ c rest, ctx = c :: rest ∧
          rebuildScapegoat (c.up (node nil x nil)) rest = some t'.r)) := by
  unfold add addWithDepth at h
  cases hf : findPlace x t.r [] with
  | none =>
    left
    simp only [hf, Option.bind_eq_bind, Option.bind_some] at h
    have hq0 : 0 < t.q := by
      rcases eq_or_lt_of_le hpos with h0 | h0
      · rw [hq h0.symm] at hf; simp [findPlace] at hf
      · exact h0
    have hlog := log32_nonneg (q := t.q.toNat) (by omega)
    rw [Int.toNat_of_nonneg hpos] at hlog
    rw [if_neg (by omega)] at h
    simp only [Option.pure_def, Option.some.injEq, Prod.mk.injEq] at h
    exact ⟨rfl, h.1.symm, by rw [← h.2]; rfl⟩
  | some ctx =>
    right
    simp only [hf, Option.bind_eq_bind, Option.pure_def, Option.bind_assoc, Option.bind_eq_some_iff,
      Option.some.injEq] at h
    obtain ⟨n, hn, q, hq', s, rfl, h⟩ := h
    obtain ⟨hn1, rfl⟩ := int32_eq_some.1 hn
    obtain ⟨hq1, rfl⟩ := int32_eq_some.1 hq'
    refine ⟨ctx, rfl, ⟨hn1.2, hq1.2⟩, ?_⟩
    simp only at h
    split at h
    · rename_i hlt
      cases ctx with
      | nil => simp at h
      | cons c rest =>
        simp only [Option.bind_eq_some_iff, Option.some.injEq, Prod.mk.injEq] at h
        obtain ⟨r, hr, rfl, rfl⟩ := h
        exact ⟨rfl, rfl, by simp; omega, .inr ⟨hlt, c, rest, rfl, hr⟩⟩
    · rename_i hlt
      simp only [Option.some.injEq, Prod.mk.injEq] at h
      obtain ⟨rfl, rfl⟩ := h
      exact ⟨rfl, rfl, by simp, .inl ⟨hlt, rfl⟩⟩

/-! ## Keys -/

/-- The keys in order after a call: unchanged, or those of the tree with the new node. -/
theorem GrownFrom.add_keys {q0 : Nat} {t t' : ScapegoatTree α} {x : α} {b : Bool} (hw : GrownFrom q0 t)
    (h : t.add x = some (t', b)) :
    (b = false ∧ x ∈ t.r.keys ∧ t' = t) ∨
      ∃ ctx, findPlace x t.r [] = some ctx ∧ b = true ∧ t'.r.keys = (zip ctx (node nil x nil)).keys := by
  rcases add_cases hw.q_nonneg hw.eq_nil h with ⟨hf, rfl, rfl⟩ | ⟨ctx, hf, -, -, -, rfl, hr⟩
  · exact .inl ⟨rfl, findPlace_none hf, rfl⟩
  · refine .inr ⟨ctx, hf, rfl, ?_⟩
    rcases hr with ⟨-, hr⟩ | ⟨-, c, rest, rfl, hr⟩
    · rw [hr]
    · rw [rebuildScapegoat_keys hr, zip_cons]

theorem mem_zip_leaf {x y : α} {t : BinTree α} {ctx : List (Crumb α)} (h : findPlace x t [] = some ctx) :
    y ∈ (zip ctx (node nil x nil)).keys ↔ y = x ∨ y ∈ t.keys := by
  have h0 : (zip ctx nil).keys = t.keys := by rw [findPlace_zip h]; rfl
  rw [← h0, keys_zip, keys_zip]
  simp only [keys_node, keys_nil, List.nil_append, List.append_assoc, List.mem_append, List.mem_cons]
  tauto

/-- After `add x` the stored keys are `x` and those stored before. -/
theorem mem_add {q0 : Nat} {t t' : ScapegoatTree α} {x : α} {b : Bool} (hw : GrownFrom q0 t)
    (h : t.add x = some (t', b)) (y : α) : y ∈ t'.r.keys ↔ y = x ∨ y ∈ t.r.keys := by
  rcases hw.add_keys h with ⟨-, hx, rfl⟩ | ⟨ctx, hf, -, hk⟩
  · exact ⟨.inr, fun h => h.elim (fun h => h ▸ hx) id⟩
  · rw [hk, mem_zip_leaf hf]

/-! ## Depth -/

section Depth

variable {q0 : Nat} {t t' : ScapegoatTree α} {x : α} {ctx : List (Crumb α)}

/-- The new leaf is no deeper than the bound where its path is short. -/
theorem height_leaf (hw : GrownFrom q0 t) (hf : findPlace x t.r [] = some ctx) {k : Nat}
    (hk : (q0 + t.r.size + 1) * 2 ^ k ≤ 3 ^ k) (hlen : ctx.length ≤ k) :
    (zip ctx (node nil x nil)).height ≤ k + 1 := by
  have hold : zip ctx nil = t.r := findPlace_zip hf
  have hkold : t.r.height ≤ k + 1 := hw.height_le k (le_trans (Nat.mul_le_mul_right _ (by omega)) hk)
  have hh := height_zip_le ctx nil (node nil x nil)
  rw [hold] at hh
  simp only [height_node, height_nil] at hh
  omega

/-- A rebuilding at a path that is too long leaves no node deeper than the bound. -/
theorem height_rebuildScapegoat (hw : GrownFrom q0 t) {c : Crumb α} {rest : List (Crumb α)}
    (hf : findPlace x t.r [] = some (c :: rest)) {r : BinTree α}
    (hr : rebuildScapegoat (c.up (node nil x nil)) rest = some r)
    (hlong : ∃ k, k < (c :: rest).length ∧ (q0 + t.r.size + 1) * 2 ^ k ≤ 3 ^ k) {k : Nat}
    (hk : (q0 + t.r.size + 1) * 2 ^ k ≤ 3 ^ k) : r.height ≤ k + 1 := by
  have hold : zip (c :: rest) nil = t.r := findPlace_zip hf
  have hkold : t.r.height ≤ k + 1 := hw.height_le k (le_trans (Nat.mul_le_mul_right _ (by omega)) hk)
  obtain ⟨inner, c', outer, hctx, hsc, rfl⟩ := rebuildScapegoat_spec hr
  -- the parent of the new node is one of the old ones, so the path is at most one too long
  have hlen := length_le_height_zip (c :: rest) (nil : BinTree α)
  rw [hold] at hlen
  have hbound : t.r.height ≤ (c :: rest).length := by
    obtain ⟨k0, hk0, hle0⟩ := hlong
    have := hw.height_le k0 (le_trans (Nat.mul_le_mul_right _ (by omega)) hle0)
    omega
  have hsplit : c :: rest = (c :: inner) ++ c' :: outer := by rw [hctx]; rfl
  have hnew := height_rebuilt (x := x) (c := c') (c :: inner) outer
    (by rw [← hsplit, hold]; exact hbound) (by simpa using hsc)
  rw [← hsplit] at hnew
  simp only [zip_cons, height_nil] at hnew hlen
  omega

/-- Every completed call keeps the invariant. -/
theorem GrownFrom.add {b : Bool} (hw : GrownFrom q0 t) (h : t.add x = some (t', b)) : GrownFrom q0 t' := by
  have hkeys := hw.add_keys h
  rcases add_cases hw.q_nonneg hw.eq_nil h with ⟨-, rfl, -⟩ | ⟨ctx, hf, ⟨-, hq1⟩, hn', hq', rfl, hr⟩
  · exact hw
  obtain ⟨hb, -⟩ | ⟨ctx', hf', -, hk⟩ := hkeys
  · cases hb
  -- both case analyses are of the one free place
  obtain rfl : ctx = ctx' := by rw [hf] at hf'; exact Option.some.inj hf'
  have hold : zip ctx nil = t.r := findPlace_zip hf
  have hsize : t'.r.size = t.r.size + 1 := by
    rw [← length_keys, hk, length_keys, ← hold]
    exact size_zip_of_size ctx (by simp)
  rw [hw.q_eq] at hq1 hq'
  have hlog : log32 (t.q + 1) < ctx.length ↔ ∃ k, k < ctx.length ∧ (q0 + t.r.size + 1) * 2 ^ k ≤ 3 ^ k := by
    rw [hw.q_eq, ← log32_lt_iff (by omega)]
    push_cast
    rfl
  constructor
  · unfold Ordered
    rw [hk]
    exact insert_ordered hf hw.ordered
  · rw [hn', hw.n_eq, hsize]
    push_cast
    rfl
  · rw [hq', hsize]
    push_cast
    ring
  · omega
  · intro k hk'
    rw [hsize, ← Nat.add_assoc] at hk'
    rcases hr with ⟨hnot, hr⟩ | ⟨hlt, c, rest, rfl, hr⟩
    · have hd : ctx.length ≤ k := by
        by_contra hd
        exact hnot (hlog.2 ⟨k, by omega, hk'⟩)
      rw [hr]
      exact height_leaf hw hf hk' hd
    · exact height_rebuildScapegoat hw hf hr (hlog.1 hlt) hk'

/-- No node of a grown tree lies deeper than 53: both counters stay within an `int`. -/
theorem GrownFrom.height_le_54 (hw : GrownFrom q0 t) : t.r.height ≤ 54 := hw.height_le 53 (log32_int _ hw.q_lt)

end Depth

/-! ## Runs -/

/-- The invariant along a sequence of calls, with the keys stored at its end. -/
theorem GrownFrom.addAll {q0 : Nat} : ∀ {xs : List α} {t t' : ScapegoatTree α}, GrownFrom q0 t →
    t.addAll xs = some t' → GrownFrom q0 t' ∧ ∀ y, y ∈ t'.r.keys ↔ y ∈ xs ∨ y ∈ t.r.keys
  | [], t, t', hw, h => by
    simp only [ScapegoatTree.addAll, List.foldlM_nil, Option.pure_def, Option.some.injEq] at h
    subst h; exact ⟨hw, by simp⟩
  | x :: xs, t, t', hw, h => by
    simp only [ScapegoatTree.addAll, List.foldlM_cons, Option.bind_eq_bind, Option.bind_eq_some_iff,
      Option.map_eq_some_iff] at h
    obtain ⟨t1, ⟨⟨t1', b⟩, h1, rfl⟩, h⟩ := h
    obtain ⟨hw', hk⟩ := GrownFrom.addAll (hw.add h1) h
    refine ⟨hw', fun y => ?_⟩
    rw [hk, mem_add hw h1, List.mem_cons]
    tauto

theorem built_wf {xs : List α} {t : ScapegoatTree α} (h : Built xs t) : t.WF :=
  wf_iff.2 ((wf_iff.1 empty_wf).addAll h).1

/-- A built tree stores exactly the keys it was given. -/
theorem mem_built {xs : List α} {t : ScapegoatTree α} (h : Built xs t) (y : α) : y ∈ t.r.keys ↔ y ∈ xs := by
  rw [((wf_iff.1 empty_wf).addAll h).2]; simp [empty]

/-- No node of a built tree lies deeper than 53. -/
theorem height_wf {t : ScapegoatTree α} (h : t.WF) : t.r.height ≤ 54 := (wf_iff.1 h).height_le_54

end ScapegoatTree

end Embark
