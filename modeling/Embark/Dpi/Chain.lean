/-
The chain of marks in a window, for any test of the windows. Whatever windows pass and however they
overlap, the marks in each of them lead from its first offset to its last in steps of at most eight,
there are no marks outside the windows that pass, and the list that is returned holds the marks, the
last one first.
-/
import Embark.Dpi.Coverage

namespace Embark

namespace Dpi

/-- The marks from `s` to `e` begin at `s`, end at `e`, and follow each other at most eight
apart. -/
structure Chain (tok : Nat → Bool) (s e : Nat) : Prop where
  first : tok s
  last : tok e
  step : ∀ i j, s ≤ i → i < j → j ≤ e → tok i → tok j → (∀ k, i < k → k < j → tok k = false) →
    j ≤ i + minTokenSize

/-- Where every byte is within eight of a mark before it, no gap is longer. -/
theorem Covers.chain {tok : Nat → Bool} {s e : Nat} (h : Covers tok s e) (hlast : tok e) : Chain tok s e := by
  refine ⟨h.first, hlast, fun i j hsi hij hje _ _ hnone => ?_⟩
  by_contra hgap
  rw [Nat.not_le] at hgap
  obtain ⟨k, hk, -, hki, hik⟩ := h.covered (i + minTokenSize) (by omega) (by omega)
  -- the byte eight past the mark at `i` needs a mark of its own before `j`
  have hfree : tok k = false := hnone k (by omega) (by omega)
  rw [hfree] at hk
  exact absurd hk Bool.false_ne_true

section Chain

variable (w : Nat → Nat → Bool) (text : Memory) {n : Nat} {pool : Pool} {free : List Nat}

theorem offsets_eq (offsets : List Nat) : (offsets.map (tokenOf text)).map Prod.fst = offsets := by
  rw [List.map_map]
  exact List.map_id offsets

/-- In every window that passes the test `w` the marks are a chain; every mark is in a window that
passes; and with a free node for every byte of the text the function returns the marked offsets,
each once and the last one first. -/
theorem getUserTokensBy_chain (hfree : pool.Free free) (hlen : n ≤ free.length) :
    (∀ s e, IsWindow n s e → w s e → Chain (tokenizeBy w n) s e) ∧
    (∀ i, tokenizeBy w n i → i < n ∧ ∃ s e, IsWindow n s e ∧ w s e ∧ s ≤ i ∧ i ≤ e) ∧
    ∃ ln pool' tokens, getUserTokensBy w text n pool = some (ln, pool') ∧ TokensAt pool' ln tokens ∧
      tokens.length ≤ n ∧ (tokens.map Prod.fst).Pairwise (· > ·) ∧
      ∀ i, i ∈ tokens.map Prod.fst ↔ tokenizeBy w n i := by
  refine ⟨fun s e hw hsel => ?_, fun i hi => ?_, ?_⟩
  · exact (tokenizeBy_covers hw hsel).chain (tokenizeBy_last hw hsel)
  · obtain ⟨s, e, hw, hsel, hcase⟩ := tokenizeBy_cases hi
    have hlower := hw.lower
    exact ⟨lt_of_tokenizeBy hi, s, e, hw, hsel, by omega, by omega⟩
  · obtain ⟨ln, pool', hrun, htokens⟩ := getUserTokensBy_some w text n hfree (length_marksBy_le.trans hlen)
    refine ⟨ln, pool', _, hrun, htokens, ?_, ?_, fun i => ?_⟩
    · rw [List.length_map, List.length_reverse]
      exact length_marksBy_le
    · rw [offsets_eq, List.pairwise_reverse]
      exact marksBy_pairwise
    · rw [offsets_eq, List.mem_reverse, mem_marksBy]

/-- Two overlapping windows of ten and twelve bytes that pass, in a text of twenty. -/
theorem getUserTokensBy_chain_overlap :
    (∀ s e, IsWindow 20 s e → (s, e) ∈ [(0, 9), (5, 16)] →
      Chain (tokenizeBy (fun s e => (s, e) ∈ [(0, 9), (5, 16)]) 20) s e) ∧
    ∃ ln pool' tokens, getUserTokensBy (fun s e => (s, e) ∈ [(0, 9), (5, 16)]) slashText 20 (poolOf 20) =
      some (ln, pool') ∧ TokensAt pool' ln tokens ∧ tokens.length ≤ 20 := by
  obtain ⟨hchain, -, ln, pool', tokens, hrun, htokens, hlen, -⟩ :=
    getUserTokensBy_chain (fun s e => (s, e) ∈ [(0, 9), (5, 16)]) slashText (poolOf_free 20)
      (show 20 ≤ (List.range 20).length by rw [List.length_range])
  refine ⟨fun s e hw hsel => hchain s e hw ?_, ln, pool', tokens, hrun, htokens, hlen⟩
  exact decide_eq_true hsel

end Chain

end Dpi

end Embark
