/-
Trees with a long right spine: `spine a ns 0` hangs balanced trees of the keys of `a`, of the sizes
`ns`, to the left of the nodes of a path that always turns right. Only the sizes decide which of
these trees are reachable and where the search from the lower end of the path stops.
-/
import Embark.Tree.Levels
import Embark.Tree.Search

namespace Embark

open BinTree

section Shape

variable {α : Type}

/-- A path to the right through the keys of `a` from `i` on, with a balanced tree of each of the
sizes to its left. -/
def spine (a : List α) : List Nat → Nat → BinTree α
  | [], _ => nil
  | n :: ns, i =>
    match a[i + n]? with
    | none => nil
    | some x => node (buildBalanced a i n) x (spine a ns (i + n + 1))

/-- The ancestors of the free place at the lower end, nearest first. -/
def spineCrumbs (a : List α) : List Nat → Nat → List (Crumb α)
  | [], _ => []
  | n :: ns, i =>
    match a[i + n]? with
    | none => []
    | some x => spineCrumbs a ns (i + n + 1) ++ [.right (buildBalanced a i n) x]

/-- The number of nodes. -/
def spineSize : List Nat → Nat
  | [] => 0
  | n :: ns => n + 1 + spineSize ns

/-- The number of nodes that lie less than `d` deep. -/
def spineTop : Nat → List Nat → Nat
  | 0, _ => 0
  | _, [] => 0
  | d + 1, n :: ns => 1 + min n (2 ^ d - 1) + spineTop d ns

/-- All levels of a balanced tree but the last are full. -/
theorem size_top_buildBalanced {a : List α} {i ns : Nat} (h : i + ns ≤ a.length) (d : Nat) :
    (top d (buildBalanced a i ns)).size = min ns (2 ^ d - 1) := by
  induction i, ns using buildBalanced.induct (a := a) generalizing d with
  | case1 i => simp [buildBalanced]
  | case2 i ns h0 m hm =>
    rw [List.getElem?_eq_none_iff] at hm
    omega
  | case3 i ns h0 m x hx ihl ihr =>
    cases d with
    | zero => simp
    | succ d =>
      have hpow : 0 < 2 ^ d := Nat.pow_pos (by omega)
      rw [buildBalanced_of_getElem h0 hx, top_succ_node, size_node]
      simp only [m] at ihl ihr
      rw [ihl (by omega), ihr (by omega), Nat.pow_succ]
      omega

variable {a : List α}

theorem spine_cons {n i : Nat} {ns : List Nat} {x : α} (hx : a[i + n]? = some x) :
    spine a (n :: ns) i = node (buildBalanced a i n) x (spine a ns (i + n + 1)) := by
  rw [spine, hx]

theorem spineCrumbs_cons {n i : Nat} {ns : List Nat} {x : α} (hx : a[i + n]? = some x) :
    spineCrumbs a (n :: ns) i = spineCrumbs a ns (i + n + 1) ++ [.right (buildBalanced a i n) x] := by
  rw [spineCrumbs, hx]

theorem keys_spine {ns : List Nat} : ∀ {i : Nat}, i + spineSize ns = a.length → (spine a ns i).keys = a.drop i := by
  induction ns with
  | nil =>
    intro i h
    rw [List.drop_eq_nil_of_le (by simpa [spineSize] using h.ge)]
    rfl
  | cons n ns ih =>
    intro i h
    rw [spineSize] at h
    have hlt : i + n < a.length := by omega
    rw [spine_cons (List.getElem?_eq_getElem hlt), keys_node, keys_buildBalanced a i n (by omega), ih (by omega),
      ← List.drop_eq_getElem_cons hlt, ← List.drop_drop, List.take_append_drop]

theorem size_spine {ns : List Nat} {i : Nat} (h : i + spineSize ns = a.length) :
    (spine a ns i).size = spineSize ns := by
  rw [← length_keys, keys_spine h, List.length_drop]
  omega

theorem size_top_spine {ns : List Nat} : ∀ {i : Nat} (d : Nat), i + spineSize ns = a.length →
    (top d (spine a ns i)).size = spineTop d ns := by
  induction ns with
  | nil => intro i d _; cases d <;> simp [spine, spineTop]
  | cons n ns ih =>
    intro i d h
    cases d with
    | zero => simp [spineTop]
    | succ d =>
      rw [spineSize] at h
      have hlt : i + n < a.length := by omega
      rw [spine_cons (List.getElem?_eq_getElem hlt), top_succ_node, size_node, size_top_buildBalanced (by omega),
        ih d (by omega)]
      rfl

theorem zip_spineCrumbs {ns : List Nat} : ∀ {i : Nat}, i + spineSize ns = a.length →
    zip (spineCrumbs a ns i) nil = spine a ns i := by
  induction ns with
  | nil => intro i _; rfl
  | cons n ns ih =>
    intro i h
    rw [spineSize] at h
    have hx := List.getElem?_eq_getElem (show i + n < a.length by omega)
    rw [spineCrumbs_cons hx, spine_cons hx, zip_append, ih (by omega)]
    rfl

theorem length_spineCrumbs {ns : List Nat} : ∀ {i : Nat}, i + spineSize ns = a.length →
    (spineCrumbs a ns i).length = ns.length := by
  induction ns with
  | nil => intro i _; rfl
  | cons n ns ih =>
    intro i h
    rw [spineSize] at h
    rw [spineCrumbs_cons (List.getElem?_eq_getElem (show i + n < a.length by omega)), List.length_append,
      ih (by omega)]
    rfl

/-- The subtrees around the lower end have the sizes of the ends of `ns`. -/
theorem spineCrumbs_split {ns : List Nat} {inner : List (Crumb α)} {c : Crumb α} : ∀ {i : Nat}
    {outer : List (Crumb α)}, i + spineSize ns = a.length → spineCrumbs a ns i = inner ++ c :: outer →
    ∃ n rest, n :: rest <:+ ns ∧ (zip inner nil).size = spineSize rest ∧
      (c.up (zip inner nil)).size = spineSize (n :: rest) := by
  induction ns with
  | nil => intro i outer _ hsplit; simp [spineCrumbs] at hsplit
  | cons n ns ih =>
    intro i outer h hsplit
    rw [spineSize] at h
    have hlt : i + n < a.length := by omega
    have hx := List.getElem?_eq_getElem hlt
    rw [spineCrumbs_cons hx] at hsplit
    cases outer using List.reverseRecOn with
    | nil =>
      -- the whole spine
      obtain ⟨rfl, hc⟩ := List.append_inj' hsplit rfl
      obtain ⟨rfl, -⟩ := List.cons.inj hc
      have hinner : zip (spineCrumbs a ns (i + n + 1)) nil = spine a ns (i + n + 1) := zip_spineCrumbs (by omega)
      refine ⟨n, ns, List.suffix_refl _, by rw [hinner, size_spine (by omega)], ?_⟩
      have hsize : (spine a (n :: ns) i).size = spineSize (n :: ns) := size_spine (by rw [spineSize]; omega)
      rw [spine_cons hx] at hsize
      rw [hinner, ← hsize]
      rfl
    | append_singleton outer c' =>
      rw [← List.cons_append, ← List.append_assoc] at hsplit
      obtain ⟨hsplit, -⟩ := List.append_inj' hsplit rfl
      obtain ⟨n', rest, hsuffix, hsizes⟩ := ih (by omega) hsplit
      exact ⟨n', rest, hsuffix.trans (List.suffix_cons n ns), hsizes⟩

end Shape

namespace ScapegoatTree

variable {α : Type} [LinearOrder α] {a : List α} {ns : List Nat} {x : α}

/-- A key above all others goes to the lower end of the spine. -/
theorem findPlace_spine (hx : ∀ y ∈ a, y < x) : ∀ {ns : List Nat} {i : Nat} (outer : List (Crumb α)),
    i + spineSize ns = a.length → findPlace x (spine a ns i) outer = some (spineCrumbs a ns i ++ outer)
  | [], i, outer, _ => rfl
  | n :: ns, i, outer, h => by
    rw [spineSize] at h
    have hlt : i + n < a.length := by omega
    have hget := List.getElem?_eq_getElem hlt
    have hy : a[i + n] < x := hx _ (List.getElem_mem hlt)
    rw [spine_cons hget, spineCrumbs_cons hget, findPlace, if_neg (not_lt.2 hy.le), if_pos hy,
      findPlace_spine hx _ (by omega), List.append_assoc]
    rfl

/-- A spine is reachable when its sizes leave no level too deep. -/
theorem built_spine (ha : a.Pairwise (· < ·)) (hlen : spineSize ns = a.length) (hsize : a.length < 2 ^ 31) {h : Nat}
    (hlog : ∀ d < h, ∀ k < d, 3 ^ k < (spineTop d ns + 1) * 2 ^ k) (hall : spineTop h ns = spineSize ns) :
    Built (levels h (spine a ns 0)) (counted (spine a ns 0)) := by
  have hstart : 0 + spineSize ns = a.length := by omega
  have ho : (spine a ns 0).Ordered := by
    unfold Ordered
    rw [keys_spine hstart]
    exact ha
  have htop : top h (spine a ns 0) = spine a ns 0 :=
    top_eq_of_size (by rw [size_top_spine h hstart, size_spine hstart, hall])
  have hbuilt := built_levels ho (by rw [size_spine hstart]; omega) h fun d hd => by
    rw [le_log32_iff (by omega), size_top_spine d hstart]
    exact hlog d hd
  rwa [htop] at hbuilt

omit [LinearOrder α] in
theorem keys_counted_spine (hlen : spineSize ns = a.length) : (counted (spine a ns 0)).r.keys = a := by
  have hkeys : (spine a ns 0).keys = a.drop 0 := keys_spine (by rw [hlen, Nat.zero_add])
  rwa [List.drop_zero] at hkeys

/-- The search from the lower end of a spine fits an `int` only if one of the sizes does. -/
theorem not_searchFits_spine (hx : ∀ y ∈ a, y < x) (hlen : spineSize ns = a.length)
    (hdeep : log32 (spineSize ns + 1 : Nat) < ns.length)
    (hstuck : ∀ rest ∈ ns.tails, rest ≠ [] → 2 * (spineSize rest + 1) < 3 * (spineSize rest.tail + 1) →
      2 ^ 31 ≤ 3 * (spineSize rest.tail + 1)) : ¬ SearchFits (counted (spine a ns 0)) x := by
  have hstart : 0 + spineSize ns = a.length := by omega
  intro hfits
  obtain ⟨inner, c, outer, hsplit, hun, hlt⟩ := hfits (spineCrumbs a ns 0)
    (by simpa [counted] using findPlace_spine hx [] hstart)
    (by
      rw [length_spineCrumbs hstart]
      simp only [counted, size_spine hstart]
      push_cast at hdeep
      exact hdeep)
  obtain ⟨n, rest, hsuffix, hinner, hup⟩ := spineCrumbs_split hstart hsplit
  have := hstuck (n :: rest) (List.mem_tails _ _ |>.2 hsuffix) (by simp)
  rw [hinner] at hun hlt
  rw [hup] at hun
  simp only [List.tail_cons] at this
  omega

end ScapegoatTree

end Embark
