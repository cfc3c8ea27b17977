/-
Which delimited windows of a text the tokens cover. The tokenizer tests the byte at the left edge of
a window against the dividers, but not the byte before it: that read is dropped and the letter `a`
is tested in its place. So a window with a divider at its left edge is always covered, and one that
is only preceded by a divider is not, unless the table makes `a` a divider.
-/
import Embark.Dpi.Marks
import Embark.Dpi.Push
import Embark.Dpi.Tokens

namespace Embark

namespace Dpi

/-! ## Delimited windows -/

/-- Text bytes below 128. -/
def Ascii (text : Memory) (textlen : Nat) : Prop := ∀ i < textlen, (text i).toNat < 128

instance (text : Memory) (textlen : Nat) : Decidable (Ascii text textlen) :=
  inferInstanceAs (Decidable (∀ i < textlen, _))

/-- The left edge of the window is a divider or preceded by one, and its right edge is one or
followed by one inside the text. -/
structure Delimited (text : Memory) (textlen : Nat) (dividers : Int → Bool) (s e : Nat) : Prop where
  left : dividers (text s).toInt ∨ 0 < s ∧ dividers (text (s - 1)).toInt
  right : dividers (text e).toInt ∨ e + 1 < textlen ∧ dividers (text (e + 1)).toInt

/-- From every free list of enough nodes the function returns a list with a token at `s`, whose
tokens of eight bytes with offsets from `s` to `e` cover every byte from `s` to `e`. -/
def TokensCover (text : Memory) (textlen : Nat) (dividers : Int → Bool) (s e : Nat) : Prop :=
  ∀ pool free, pool.Free free → textlen ≤ free.length → ∃ ln pool' tokens,
    getUserTokensFromBuffer text textlen dividers pool = some (ln, pool') ∧ TokensAt pool' ln tokens ∧
    (∃ t ∈ tokens, t.1 = s) ∧
    ∀ i, s ≤ i → i ≤ e → ∃ t ∈ tokens, t.2.length = minTokenSize ∧ s ≤ t.1 ∧ t.1 ≤ e ∧
      t.1 ≤ i ∧ i < t.1 + minTokenSize

section Cover

variable {text : Memory} {textlen : Nat} {dividers : Int → Bool} {s e : Nat}

/-- A window that is delimited passes the test when its left edge itself is a divider. -/
theorem selected_of_left (h : Delimited text textlen dividers s e)
    (hleft : dividers (text s).toInt ∨ dividers 0x61) : selected text dividers s e := by
  have hright : dividers (text e).toInt ∨ dividers (text (e + 1)).toInt := h.right.imp_right And.right
  unfold selected
  simp only [Bool.and_eq_true, Bool.or_eq_true]
  exact ⟨hleft, hright⟩

/-- Covering by marks is covering by the tokens that are returned. -/
theorem tokensCover_of_covers (h : Covers (tokenize text textlen dividers) s e) :
    TokensCover text textlen dividers s e := by
  intro pool free hfree hlen
  obtain ⟨ln, pool', hrun, htokens⟩ := getUserTokensFromBuffer_some text textlen dividers hfree
    (length_marks_le.trans hlen)
  have hmem : ∀ k, tokenize text textlen dividers k → tokenOf text k ∈ tokensOf text textlen dividers :=
    fun k hk => mem_tokensOf.2 ⟨hk, rfl⟩
  refine ⟨ln, pool', _, hrun, htokens, ⟨_, hmem s h.first, rfl⟩, fun i h1 h2 => ?_⟩
  obtain ⟨k, hk, hsk, hki, hik⟩ := h.covered i h1 h2
  exact ⟨_, hmem k hk, Memory.length_slice .., hsk, hki.trans h2, hki, hik⟩

/-- A token at `s` is a mark at `s`. -/
theorem tokenize_of_tokensCover {pool : Pool} {free : List Nat} (hfree : pool.Free free)
    (hlen : textlen ≤ free.length) (h : TokensCover text textlen dividers s e) :
    tokenize text textlen dividers s := by
  obtain ⟨ln, pool', tokens, hrun, htokens, ⟨t, ht, rfl⟩, -⟩ := h pool free hfree hlen
  obtain ⟨ln₁, pool₁, hrun₁, htokens₁⟩ := getUserTokensFromBuffer_some text textlen dividers hfree
    (length_marks_le.trans hlen)
  rw [hrun₁] at hrun
  obtain ⟨rfl, rfl⟩ := Prod.mk.inj (Option.some.inj hrun)
  rw [htokens.unique htokens₁] at ht
  exact (mem_tokensOf.1 ht).1

end Cover

/-! ## A text whose only dividers are around the window -/

/-- The byte `d` before the window and at its end, and `c` everywhere else. -/
def fencedText (c d : Byte) (s e : Nat) : Memory := fun i => if i + 1 = s ∨ i = e then d else c

section Fenced

variable {textlen : Nat} {dividers : Int → Bool} {c d : Byte} {s e : Nat}

theorem fencedText_delimited (hs : 0 < s) (hd : dividers d.toInt) :
    Delimited (fencedText c d s e) textlen dividers s e := by
  have hbefore : fencedText c d s e (s - 1) = d := if_pos (.inl (by omega))
  have hend : fencedText c d s e e = d := if_pos (.inr rfl)
  exact ⟨.inr ⟨hs, by rw [hbefore]; exact hd⟩, .inl (by rw [hend]; exact hd)⟩

/-- No mark falls on the start of the window: the windows that pass start before it or at its
end. -/
theorem fencedText_unmarked (hw : IsWindow textlen s e) (hc : dividers c.toInt = false)
    (ha : dividers 0x61 = false) : tokenize (fencedText c d s e) textlen dividers s = false := by
  have h7 := hw.lower
  rw [← Bool.not_eq_true]
  intro hmark
  obtain ⟨a, b, hab, hsel, hcase⟩ := tokenize_cases hmark
  have h7' := hab.lower
  have hstart : a + 1 = s ∨ a = e := by
    by_contra hne
    have hbyte : fencedText c d s e a = c := if_neg hne
    unfold selected at hsel
    simp only [hbyte, hc, ha, Bool.or_self, Bool.false_and] at hsel
    exact absurd hsel (by decide)
  simp only [minTokenSize] at hcase
  omega

end Fenced

/-- A pool with any number of nodes: node `i` has string `i` with buffer `32 * i`. -/
def poolOf (count : Nat) : Pool where
  mystrings := fun _ => 0
  csstrings := fun i => ⟨32 * i, .plaintext, 32, 0⟩
  nodes := fun i => ⟨i, if i + 1 < count then some (i + 1) else none⟩
  freed := if 0 < count then some 0 else none

theorem poolOf_free (count : Nat) : (poolOf count).Free (List.range count) := by
  have hlist :
    ∀ n i, i + n = count → IsList (poolOf count).next (if i < count then some i else none) (List.range' i n) := by
    intro n
    induction n with
    | zero =>
      intro i hi
      exact if_neg (by omega)
    | succ n ih =>
      intro i hi
      rw [if_pos (by omega), List.range'_succ]
      exact ⟨rfl, ih (i + 1) (by omega)⟩
  refine ⟨?_, ?_⟩
  · rw [List.range_eq_range']
    exact hlist count 0 (by omega)
  · refine List.Pairwise.imp_of_mem (fun {m n} _ _ (hlt : m < n) => ⟨?_, ?_⟩) List.pairwise_lt_range
    · exact Nat.ne_of_lt hlt
    · left
      show 32 * m + 32 ≤ 32 * n
      omega

/-! ## Coverage -/

/-- A delimited window is covered when its left edge itself is a divider or the table makes `a` one;
and at a position `[s, e]` the delimited window of every text is covered exactly when the window
starts the text, or `a` is a divider, or all characters are, or none is. -/
theorem tokensCover_iff {textlen s e : Nat} (dividers : Int → Bool) (hw : IsWindow textlen s e) :
    (∀ text, Ascii text textlen → Delimited text textlen dividers s e →
      (dividers (text s).toInt ∨ dividers 0x61) → TokensCover text textlen dividers s e) ∧
    ((∀ text, Ascii text textlen → Delimited text textlen dividers s e →
        TokensCover text textlen dividers s e) ↔
      s = 0 ∨ dividers 0x61 ∨ (∀ c : Byte, c.toNat < 128 → dividers c.toInt) ∨
        ∀ c : Byte, c.toNat < 128 → dividers c.toInt = false) := by
  have hlower := hw.lower
  have hinside := hw.inside
  have hcover : ∀ text, Delimited text textlen dividers s e → (dividers (text s).toInt ∨ dividers 0x61) →
      TokensCover text textlen dividers s e := fun text hd hleft =>
    tokensCover_of_covers (tokenize_covers hw (selected_of_left hd hleft))
  refine ⟨fun text _ hd hleft => hcover text hd hleft, ⟨fun hall => ?_, ?_⟩⟩
  · by_contra hno
    push Not at hno
    obtain ⟨hs, ha, ⟨c, hc128, hc⟩, ⟨d, hd128, hd⟩⟩ := hno
    rw [ne_eq, Bool.not_eq_true] at ha hc
    rw [ne_eq, Bool.not_eq_false] at hd
    have hascii : Ascii (fencedText c d s e) textlen := by
      intro i _
      unfold fencedText
      split
      · exact hd128
      · exact hc128
    have hcov := hall _ hascii (fencedText_delimited (by omega) hd)
    have hmark := tokenize_of_tokensCover (poolOf_free textlen) (by rw [List.length_range]) hcov
    rw [fencedText_unmarked hw hc ha] at hmark
    exact absurd hmark (by decide)
  · rintro (rfl | ha | hallc | hnone) text hascii hd
    · exact hcover text hd (.inl (hd.left.resolve_right fun h => absurd h.1 (lt_irrefl 0)))
    · exact hcover text hd (.inr ha)
    · exact hcover text hd (.inl (hallc _ (hascii s (by omega))))
    · -- without dividers nothing is delimited
      rcases hd.left with h | ⟨-, h⟩
      · rw [hnone _ (hascii s (by omega))] at h
        exact absurd h (by decide)
      · rw [hnone _ (hascii (s - 1) (by omega))] at h
        exact absurd h (by decide)

/-- The table that the constructor sets up in zeroed memory. -/
def constructorTable (i : Int) : Bool := decide (i ∈ MBArkDPI.dividerChars)

/-- The text `/bbbbbbb/`. -/
def slashText : Memory := fencedText 0x62 0x2f 1 8

theorem tokensCover_iff_slash : IsWindow 9 0 8 ∧ TokensCover slashText 9 constructorTable 0 8 := by
  have hw : IsWindow 9 0 8 := ⟨by decide, by decide, by decide⟩
  exact ⟨hw, (tokensCover_iff constructorTable hw).1 slashText (by decide) ⟨.inl (by decide), .inl (by decide)⟩
    (.inl (by decide))⟩

/-- The window behind the first slash is delimited, but has no token at its start. -/
theorem slashText_uncovered : IsWindow 9 1 8 ∧ Ascii slashText 9 ∧ Delimited slashText 9 constructorTable 1 8 ∧
    ¬ TokensCover slashText 9 constructorTable 1 8 := by
  have hw : IsWindow 9 1 8 := ⟨by decide, by decide, by decide⟩
  refine ⟨hw, by decide, fencedText_delimited (by decide) (by decide), fun hcov => ?_⟩
  have hmark := tokenize_of_tokensCover (poolOf_free 9) (by rw [List.length_range]) hcov
  unfold slashText at hmark
  rw [fencedText_unmarked hw (by decide) (by decide)] at hmark
  exact absurd hmark (by decide)

end Dpi

end Embark
