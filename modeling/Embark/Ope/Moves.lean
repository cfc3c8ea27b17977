/-
What an `add` does to the ciphertexts already handed out. A ciphertext is the place of its key, and
a rebuilding replaces one subtree where it stands: the keys around it keep their places, those in it
get others within the same interval, and a new key that only becomes a leaf moves no gap but the one
it falls into.
-/
import Embark.Ope.Height

namespace Embark

open BinTree

namespace OPETree

variable {α : Type} [LinearOrder α] {t t' : ScapegoatTree α} {x : α}

open ScapegoatTree (Built SearchFits findPlace rebuildScapegoat GrownFrom)

/-! ## The effect of a call -/

/-- No stored key separates the two: the gap of `v` contains `x`. -/
def GapContains (t : ScapegoatTree α) (v x : α) : Prop := ∀ y ∈ t.r.keys, y ≤ v ↔ y ≤ x

/-- The new key is a leaf at its place, no deeper than the logarithm allows. -/
def LinkedOnly (t t' : ScapegoatTree α) (x : α) : Prop :=
  ∃ ctx, findPlace x t.r [] = some ctx ∧ ¬ log32 (t.q + 1) < ctx.length ∧ t'.r = zip ctx (node nil x nil)

/-- The place of the new key is too deep, and of the tree with the leaf at it the subtree `u` is
rebuilt, below `outer`. -/
def RebuiltBelow (t t' : ScapegoatTree α) (x : α) (outer : List (Crumb α)) (u : BinTree α) : Prop :=
  ∃ ctx, findPlace x t.r [] = some ctx ∧ log32 (t.q + 1) < ctx.length ∧ zip outer u = zip ctx (node nil x nil) ∧
    x ∈ u.keys ∧ t'.r = zip outer (rebuild u)

/-- `add x` completes. A stored key changes no range. A new key that is only linked in leaves every
stored key its ciphertext and changes the range of those values only whose gap contained it; where a
subtree is rebuilt, the stored keys around it keep their ciphertexts and those in it get some that
lie between the ciphertexts of all keys to the left and to the right of the subtree. -/
def AddMoves (t : ScapegoatTree α) (x : α) : Prop :=
  ∃ t' b, t.add x = some (t', b) ∧
    (x ∈ t.r.keys → b = false ∧ ∀ v, ciphertextRange t' v = ciphertextRange t v) ∧
    (x ∉ t.r.keys → b = true ∧
      ((LinkedOnly t t' x ∧ (∀ y ∈ t.r.keys, endpointCiphertext t' y = endpointCiphertext t y) ∧
          ∀ v, ciphertextRange t' v ≠ ciphertextRange t v → GapContains t v x) ∨
        ∃ outer u, RebuiltBelow t t' x outer u ∧
          (∀ y, y ∈ keysBefore outer ∨ y ∈ keysAfter outer →
            endpointCiphertext t' y = endpointCiphertext t y) ∧
          ∀ y ∈ u.keys, (∀ p ∈ keysBefore outer, endpointCiphertext t p < endpointCiphertext t' y) ∧
            ∀ s ∈ keysAfter outer, endpointCiphertext t' y < endpointCiphertext t s))

/-! ## Places -/

theorem endpointCiphertext_eq (h : t.WF) (h' : t'.WF) {y : α} (hy : y ∈ t.r.keys) (hy' : y ∈ t'.r.keys)
    (hcode : codeAt 128 0 t'.r y = codeAt 128 0 t.r y) : endpointCiphertext t' y = endpointCiphertext t y := by
  apply BitVec.eq_of_toNat_eq
  rw [toNat_endpoint h hy, toNat_endpoint h' hy']
  exact hcode

theorem endpointCiphertext_lt (h : t.WF) {y z : α} (hy : y ∈ t.r.keys) (hz : z ∈ t.r.keys) (hlt : y < z) :
    endpointCiphertext t y < endpointCiphertext t z := by
  rw [BitVec.lt_def, toNat_endpoint h hy, toNat_endpoint h hz]
  exact (scale t h).mono y ((mem_scale_keys h).2 hy) z ((mem_scale_keys h).2 hz) hlt

/-- The keys around a position where other subtrees stand before and after keep their ciphertexts. -/
theorem endpointCiphertext_around (h : t.WF) (h' : t'.WF) {s s' : BinTree α} {ctx : List (Crumb α)}
    (hs : t.r = zip ctx s) (hs' : t'.r = zip ctx s') {y : α} (hy : y ∈ keysBefore ctx ∨ y ∈ keysAfter ctx) :
    endpointCiphertext t' y = endpointCiphertext t y := by
  have hmem : ∀ u : BinTree α, y ∈ (zip ctx u).keys := fun u => by
    rw [keys_zip, List.mem_append, List.mem_append]
    tauto
  refine endpointCiphertext_eq h h' (hs ▸ hmem s) (hs' ▸ hmem s') ?_
  have ho := h.ordered
  have ho' := h'.ordered
  rw [hs] at ho ⊢
  rw [hs'] at ho' ⊢
  exact codeAt_zip ho' ho hy 128 0

/-- The keys of a tree around a place that is free. -/
theorem mem_around_place {ctx : List (Crumb α)} (hf : findPlace x t.r [] = some ctx) {y : α} :
    y ∈ t.r.keys ↔ y ∈ keysBefore ctx ∨ y ∈ keysAfter ctx := by
  rw [show t.r = zip ctx nil from (ScapegoatTree.findPlace_zip hf).symm, keys_zip]
  simp

/-! ## A leaf -/

/-- A leaf leaves every gap it does not fall into as it was. -/
theorem ciphertextRange_of_not_gapContains (h : t.WF) (h' : t'.WF) (hlinked : LinkedOnly t t' x) {v : α}
    (hv : ¬ GapContains t v x) : ciphertextRange t' v = ciphertextRange t v := by
  obtain ⟨ctx, hf, -, hr⟩ := hlinked
  have hold : t.r = zip ctx nil := (ScapegoatTree.findPlace_zip hf).symm
  have hkeys : (scale t' h').keys = insert x (scale t h).keys := by
    ext y
    rw [mem_scale_keys, hr, ScapegoatTree.mem_zip_leaf hf, Finset.mem_insert, mem_scale_keys]
  have hcode : ∀ y ∈ (scale t h).keys, (scale t' h').code y = (scale t h).code y := by
    intro y hy
    rw [mem_scale_keys, mem_around_place hf] at hy
    have ho := h.ordered
    have ho' := h'.ordered
    show codeAt 128 0 t'.r y = codeAt 128 0 t.r y
    rw [hold] at ho ⊢
    rw [hr] at ho' ⊢
    exact codeAt_zip ho' ho hy 128 0
  have hnew : x ∉ t.r.keys := fun hx => by
    rw [← ScapegoatTree.findPlace_eq_none_iff h.ordered, hf] at hx
    cases hx
  -- the key between `v` and `x`
  unfold GapContains at hv
  push Not at hv
  obtain ⟨y, hy, hsep⟩ := hv
  have hyx : y ≠ x := fun he => hnew (he ▸ hy)
  have hyk := (mem_scale_keys h).2 hy
  refine Prod.ext (BitVec.eq_of_toNat_eq ?_) (BitVec.eq_of_toNat_eq ?_)
  · rw [toNat_range_fst h', toNat_range_fst h]
    refine Scale.lo_insert hkeys hcode fun hxv => ?_
    rcases hsep with ⟨hyv, hxy⟩ | ⟨hvy, hyx'⟩
    · exact ⟨y, hyk, hxy, hyv⟩
    · exact absurd (hyx'.trans hxv) (not_le.2 hvy)
  · rw [toNat_range_snd h', toNat_range_snd h]
    refine Scale.hi_insert hkeys rfl hcode fun hvx => ?_
    rcases hsep with ⟨hyv, hxy⟩ | ⟨hvy, hyx'⟩
    · exact absurd (hxy.trans_le hyv) (not_lt.2 hvx.le)
    · exact ⟨y, hyk, hvy, lt_of_le_of_ne hyx' hyx⟩

/-! ## A rebuilding -/

/-- The loop rebuilds one subtree of the tree with the new leaf. -/
theorem exists_rebuiltBelow {c : Crumb α} {rest : List (Crumb α)} (hf : findPlace x t.r [] = some (c :: rest))
    (hdeep : log32 (t.q + 1) < (c :: rest).length)
    (hr : rebuildScapegoat (c.up (node nil x nil)) rest = some t'.r) :
    ∃ outer u s, RebuiltBelow t t' x outer u ∧ t.r = zip outer s := by
  obtain ⟨inner, c', outer, rfl, -, hr⟩ := ScapegoatTree.rebuildScapegoat_spec hr
  have hsplit : ∀ s : BinTree α, zip (c :: (inner ++ c' :: outer)) s = zip outer (c'.up (zip inner (c.up s))) :=
    fun s => by rw [zip_cons, zip_append, zip_cons]
  refine ⟨outer, c'.up (zip inner (c.up (node nil x nil))), c'.up (zip inner (c.up nil)),
    ⟨_, hf, hdeep, (hsplit _).symm, ?_, hr⟩, ?_⟩
  · rw [Crumb.keys_up, keys_zip, Crumb.keys_up]
    simp
  · rw [← hsplit]
    exact (ScapegoatTree.findPlace_zip hf).symm

/-- The keys of the rebuilt subtree lie between those around it, before and after. -/
theorem between_around (h : t.WF) (h' : t'.WF) {s u : BinTree α} {outer : List (Crumb α)} (hs : t.r = zip outer s)
    (hu : t'.r = zip outer (rebuild u)) {y : α} (hy : y ∈ u.keys) :
    (∀ p ∈ keysBefore outer, endpointCiphertext t p < endpointCiphertext t' y) ∧
      ∀ a ∈ keysAfter outer, endpointCiphertext t' y < endpointCiphertext t a := by
  have hkeys : t'.r.keys = keysBefore outer ++ u.keys ++ keysAfter outer := by rw [hu, keys_zip, keys_rebuild]
  have ho : t'.r.keys.Pairwise (· < ·) := h'.ordered
  rw [hkeys] at ho
  simp only [List.pairwise_append, List.mem_append] at ho
  obtain ⟨⟨-, -, hbefore⟩, -, hafter⟩ := ho
  have hmem : ∀ z, z ∈ keysBefore outer ∨ z ∈ u.keys ∨ z ∈ keysAfter outer → z ∈ t'.r.keys :=
    fun z hz => by
    rw [hkeys, List.mem_append, List.mem_append]
    tauto
  constructor
  · intro p hp
    rw [← endpointCiphertext_around h h' hs hu (.inl hp)]
    exact endpointCiphertext_lt h' (hmem p (.inl hp)) (hmem y (.inr (.inl hy))) (hbefore p hp y hy)
  · intro a ha
    rw [← endpointCiphertext_around h h' hs hu (.inr ha)]
    exact endpointCiphertext_lt h' (hmem y (.inr (.inl hy))) (hmem a (.inr (.inr ha))) (hafter y (.inr hy) a ha)

/-! ## Every call -/

/-- A call that completes moves only what rebalancing moves. -/
theorem addMoves_of_isSome (h : t.WF) (hadd : (t.add x).isSome) : AddMoves t x := by
  obtain ⟨⟨t', b⟩, hadd⟩ := Option.isSome_iff_exists.1 hadd
  have hw := ScapegoatTree.wf_iff.1 h
  have h' : t'.WF := ScapegoatTree.wf_iff.2 (hw.add hadd)
  refine ⟨t', b, hadd, ?_⟩
  rcases ScapegoatTree.add_cases hw.q_nonneg hw.eq_nil hadd with ⟨hf, rfl, rfl⟩ | ⟨ctx, hf, -, -, -, rfl, hr⟩
  · have hx := ScapegoatTree.findPlace_none hf
    exact ⟨fun _ => ⟨rfl, fun _ => rfl⟩, fun hnew => absurd hx hnew⟩
  · refine ⟨fun hx => ?_, fun _ => ⟨rfl, ?_⟩⟩
    · rw [← ScapegoatTree.findPlace_eq_none_iff h.ordered, hf] at hx
      cases hx
    rcases hr with ⟨hshort, hr⟩ | ⟨hdeep, c, rest, rfl, hr⟩
    · have hlinked : LinkedOnly t t' x := ⟨ctx, hf, hshort, hr⟩
      refine .inl ⟨hlinked, fun y hy => ?_, fun v hne => ?_⟩
      · exact endpointCiphertext_around h h' (ScapegoatTree.findPlace_zip hf).symm hr ((mem_around_place hf).1 hy)
      · by_contra hgap
        exact hne (ciphertextRange_of_not_gapContains h h' hlinked hgap)
    · obtain ⟨outer, u, s, hrebuilt, hs⟩ := exists_rebuiltBelow hf hdeep hr
      obtain ⟨-, -, -, -, -, hu⟩ := id hrebuilt
      exact .inr ⟨outer, u, hrebuilt, fun y => endpointCiphertext_around h h' hs hu,
        fun y => between_around h h' hs hu⟩

/-- On a reachable tree `add x` moves only what rebalancing moves exactly when `x` is stored, or one
more key can be counted and the search for its place fits an `int`. -/
theorem addMoves_iff {xs : List α} (ht : Built xs t) (x : α) :
    AddMoves t x ↔ x ∈ t.r.keys ∨ t.n + 1 < 2 ^ 31 ∧ t.SearchFits x := by
  have h := ScapegoatTree.built_wf ht
  have hcount : (t.n + 1 < 2 ^ 31 ∧ t.SearchFits x) ↔ 0 + t.r.size + 1 < 2 ^ 31 ∧ t.SearchFits x := by
    rw [h.n_eq]
    exact and_congr_left' (by omega)
  rw [hcount, ← (ScapegoatTree.wf_iff.1 h).add_isSome_iff]
  refine ⟨?_, addMoves_of_isSome h⟩
  rintro ⟨t', b, hadd, -⟩
  rw [hadd]
  rfl

/-- A port between the two stored ones. -/
theorem addMoves_iff_fullPortRange : AddMoves fullPortRange 80 := by
  have h := ScapegoatTree.wf_iff.1 (ScapegoatTree.built_wf fullPortRange_built)
  exact (addMoves_iff fullPortRange_built 80).2 (.inr ⟨by decide, h.searchFits (by decide) 80⟩)

/-- The reachable tree whose search for the next address overflows. -/
theorem deepTree_not_addMoves : deepLevels.length < 2 ^ 31 ∧ Built deepLevels deepTree ∧
    ¬ AddMoves deepTree (BitVec.ofNat 32 715827885) := by
  refine ⟨by rw [length_deepLevels]; decide, deepTree_built, fun hmoves => ?_⟩
  have h := ScapegoatTree.built_wf deepTree_built
  obtain ⟨t', b, hadd, -⟩ := hmoves
  have hsome : (deepTree.add (BitVec.ofNat 32 715827885)).isSome := by
    rw [hadd]
    rfl
  rcases (ScapegoatTree.wf_iff.1 h).add_isSome_iff.1 hsome with hx | ⟨-, hfits⟩
  · exact notMem_deepTree hx
  · exact deepTree_not_searchFits hfits

end OPETree

end Embark
