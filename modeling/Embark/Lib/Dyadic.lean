/-
Dyadic positions in a search tree. A subtree owns an interval of `2 ^ w` codes: its root takes the
middle, its left subtree the half below and its right subtree the half above. The codes increase
with the keys, and in a tree of height `h` they are multiples of `2 ^ (w - h)`.
-/
import Embark.Lib.BinTree

namespace Embark

namespace BinTree

variable {α : Type} [LinearOrder α]

/-- The code of the place where the search for `v` ends, in the interval of `2 ^ w` codes from
`lo` on. -/
def codeAt (w lo : ℕ) : BinTree α → α → ℕ
  | nil, _ => lo
  | node l x r, v =>
    if v < x then codeAt (w - 1) lo l v
    else if x < v then codeAt (w - 1) (lo + 2 ^ (w - 1)) r v
    else lo + 2 ^ (w - 1)

section Children

variable {l r : BinTree α} {x v : α} {w lo : ℕ}

theorem codeAt_left (h : v < x) : codeAt w lo (node l x r) v = codeAt (w - 1) lo l v := by
  rw [codeAt, if_pos h]

theorem codeAt_right (h : x < v) :
    codeAt w lo (node l x r) v = codeAt (w - 1) (lo + 2 ^ (w - 1)) r v := by
  rw [codeAt, if_neg (not_lt.2 h.le), if_pos h]

theorem codeAt_root : codeAt w lo (node l x r) x = lo + 2 ^ (w - 1) := by
  rw [codeAt, if_neg (lt_irrefl x), if_neg (lt_irrefl x)]

end Children

/-- Every stored key has its code strictly inside the interval. -/
theorem codeAt_mem : ∀ {t : BinTree α} (w lo : ℕ), t.Ordered → t.height ≤ w → ∀ v ∈ t.keys,
    lo < codeAt w lo t v ∧ codeAt w lo t v < lo + 2 ^ w
  | nil, w, lo, _, _, v, hv => by simp at hv
  | node l x r, w, lo, ho, hh, v, hv => by
    obtain ⟨hl, hr, hlx, hxr, -⟩ := ordered_node.1 ho
    obtain ⟨w, rfl⟩ : ∃ w', w = w' + 1 := ⟨w - 1, by rw [height_node] at hh; omega⟩
    rw [height_node] at hh
    have hpos : 0 < 2 ^ w := Nat.pow_pos (by omega)
    rw [Nat.pow_succ]
    rw [mem_keys_node] at hv
    rcases hv with hv | rfl | hv
    · have := codeAt_mem w lo hl (by omega) v hv
      rw [codeAt_left (hlx v hv), Nat.add_sub_cancel]
      omega
    · rw [codeAt_root, Nat.add_sub_cancel]; omega
    · have := codeAt_mem w (lo + 2 ^ w) hr (by omega) v hv
      rw [codeAt_right (hxr v hv), Nat.add_sub_cancel]
      omega

/-- The codes of stored keys increase with the keys. -/
theorem codeAt_lt : ∀ {t : BinTree α} {w lo : ℕ}, t.Ordered → t.height ≤ w →
    ∀ u ∈ t.keys, ∀ v ∈ t.keys, u < v → codeAt w lo t u < codeAt w lo t v
  | nil, w, lo, _, _, u, hu, v, hv, _ => by simp at hu
  | node l x r, w, lo, ho, hh, u, hu, v, hv, huv => by
    obtain ⟨hl, hr, hlx, hxr, -⟩ := ordered_node.1 ho
    rw [height_node] at hh
    have hlow : ∀ y ∈ l.keys, codeAt (w - 1) lo l y < lo + 2 ^ (w - 1) := fun y hy =>
      (codeAt_mem _ _ hl (by omega) y hy).2
    have hhigh : ∀ y ∈ r.keys, lo + 2 ^ (w - 1) < codeAt (w - 1) (lo + 2 ^ (w - 1)) r y := fun y hy =>
      (codeAt_mem _ _ hr (by omega) y hy).1
    -- each of the two keys is in the left subtree, the root, or in the right subtree
    rw [mem_keys_node] at hu hv
    rcases hu with hu | rfl | hu <;> rcases hv with hv | rfl | hv
    · rw [codeAt_left (hlx u hu), codeAt_left (hlx v hv)]
      exact codeAt_lt hl (by omega) u hu v hv huv
    · rw [codeAt_left (hlx u hu), codeAt_root]
      exact hlow u hu
    · rw [codeAt_left (hlx u hu), codeAt_right (hxr v hv)]
      exact lt_trans (hlow u hu) (hhigh v hv)
    · exact absurd (hlx v hv) (not_lt.2 huv.le)
    · exact absurd huv (lt_irrefl _)
    · rw [codeAt_root, codeAt_right (hxr v hv)]
      exact hhigh v hv
    · exact absurd (lt_trans (hlx v hv) (hxr u hu)) (not_lt.2 huv.le)
    · exact absurd huv (not_lt.2 (hxr u hu).le)
    · rw [codeAt_right (hxr u hu), codeAt_right (hxr v hv)]
      exact codeAt_lt hr (by omega) u hu v hv huv

/-- The codes of a tree that leaves `j` levels of the interval unused are multiples of `2 ^ j`. -/
theorem dvd_codeAt {j : ℕ} : ∀ {t : BinTree α} {w lo : ℕ}, t.height + j ≤ w → 2 ^ j ∣ lo →
    ∀ v, 2 ^ j ∣ codeAt w lo t v
  | nil, w, lo, _, hlo, v => hlo
  | node l x r, w, lo, hh, hlo, v => by
    rw [height_node] at hh
    have hmid : 2 ^ j ∣ lo + 2 ^ (w - 1) := Nat.dvd_add hlo (Nat.pow_dvd_pow 2 (by omega))
    rw [codeAt]
    split
    · exact dvd_codeAt (by omega) hlo v
    · split
      · exact dvd_codeAt (by omega) hmid v
      · exact hmid

/-! ## Replacing a subtree -/

theorem ordered_of_zip {t : BinTree α} {ctx : List (Crumb α)} (h : (zip ctx t).Ordered) : t.Ordered := by
  rw [ordered_zip, List.pairwise_append, List.pairwise_append] at h
  exact h.1.2.1

/-- A key whose code does not depend on which of two subtrees stands at a position has the same code
in the trees around them. -/
theorem codeAt_zip_of_mem {s t : BinTree α} {y : α} : ∀ {ctx : List (Crumb α)}, (zip ctx s).Ordered →
    (zip ctx t).Ordered → y ∈ s.keys → y ∈ t.keys → (∀ w lo, codeAt w lo s y = codeAt w lo t y) →
    ∀ w lo, codeAt w lo (zip ctx s) y = codeAt w lo (zip ctx t) y
  | [], _, _, _, _, h => h
  | c :: ctx, hs, ht, hys, hyt, h => by
    rw [zip_cons] at hs ht
    have hos := ordered_of_zip hs
    have hot := ordered_of_zip ht
    refine codeAt_zip_of_mem (s := c.up s) (t := c.up t) hs ht (by rw [Crumb.keys_up]; simp [hys])
      (by rw [Crumb.keys_up]; simp [hyt]) fun w lo => ?_
    -- the search for a key of the subtree turns towards it at the ancestor
    cases c with
    | left x r =>
      have hlt := (ordered_node.1 hos).2.2.1 y hys
      simp only [Crumb.up]
      rw [codeAt_left hlt, codeAt_left hlt, h]
    | right l x =>
      have hlt := (ordered_node.1 hos).2.2.2.1 y hys
      simp only [Crumb.up]
      rw [codeAt_right hlt, codeAt_right hlt, h]

/-- The keys around a position keep their codes whatever subtree stands there. -/
theorem codeAt_zip {s t : BinTree α} {y : α} {ctx : List (Crumb α)} (hs : (zip ctx s).Ordered)
    (ht : (zip ctx t).Ordered) (hy : y ∈ keysBefore ctx ∨ y ∈ keysAfter ctx) (w lo : ℕ) :
    codeAt w lo (zip ctx s) y = codeAt w lo (zip ctx t) y := by
  induction ctx generalizing s t with
  | nil => simp [keysBefore, keysAfter] at hy
  | cons c ctx ih =>
    rw [zip_cons] at hs ht
    by_cases hout : y ∈ keysBefore ctx ∨ y ∈ keysAfter ctx
    · exact ih hs ht hout
    · -- the key is the nearest ancestor's, or in its other subtree
      have hnear : y ∈ c.before ∨ y ∈ c.after := by
        rw [keysBefore_cons, keysAfter_cons, List.mem_append, List.mem_append] at hy
        tauto
      have hin : ∀ u : BinTree α, y ∈ (c.up u).keys := fun u => by
        rw [Crumb.keys_up, List.mem_append, List.mem_append]
        tauto
      refine codeAt_zip_of_mem hs ht (hin s) (hin t) (fun w lo => ?_) w lo
      have hos := ordered_of_zip hs
      have hot := ordered_of_zip ht
      cases c with
      | left x r =>
        simp only [Crumb.before, Crumb.after, List.not_mem_nil, false_or, List.mem_cons] at hnear
        simp only [Crumb.up] at hos hot ⊢
        rcases hnear with rfl | hr
        · rw [codeAt_root, codeAt_root]
        · have hlt := (ordered_node.1 hos).2.2.2.1 y hr
          rw [codeAt_right hlt, codeAt_right hlt]
      | right l x =>
        simp only [Crumb.before, Crumb.after, List.not_mem_nil, or_false, List.mem_append, List.mem_singleton] at hnear
        simp only [Crumb.up] at hos hot ⊢
        rcases hnear with hl | rfl
        · have hlt := (ordered_node.1 hos).2.2.1 y hl
          rw [codeAt_left hlt, codeAt_left hlt]
        · rw [codeAt_root, codeAt_root]

end BinTree

end Embark
