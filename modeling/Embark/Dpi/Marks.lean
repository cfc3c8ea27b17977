/-
Which offsets the windows of the tokenizer mark. A window that passes the divider test marks its
first and its last offset and fills the gaps between marks to at most eight; marks are never taken
back, so what one window covers stays covered whatever the other windows do.
-/
import Embark.Dpi.Tokenizer

namespace Embark

namespace Dpi

/-- A window of the rounds: 8 to 32 bytes from `s` to `e` inside the text. -/
structure IsWindow (textlen s e : Nat) : Prop where
  lower : s + 7 ≤ e
  upper : e ≤ s + 31
  inside : e < textlen

/-- Every byte from `s` to `e` is among the eight bytes from some marked offset in that range on,
and `s` itself is marked. -/
structure Covers (tokenize : Nat → Bool) (s e : Nat) : Prop where
  first : tokenize s
  covered : ∀ i, s ≤ i → i ≤ e → ∃ k, tokenize k ∧ s ≤ k ∧ k ≤ i ∧ i < k + minTokenSize

theorem Covers.mono {tok tok' : Nat → Bool} {s e : Nat} (h : Covers tok s e) (hle : ∀ i, tok i → tok' i) :
    Covers tok' s e where
  first := hle s h.first
  covered i h1 h2 :=
    let ⟨k, hk, hr⟩ := h.covered i h1 h2
    ⟨k, hle k hk, hr⟩

/-! ## One window -/

/-- The fill loop only adds marks. -/
theorem fillMarks_mono {endidx i : Nat} : ∀ (n j upto : Nat) {tok : Nat → Bool}, tok i →
    fillMarks endidx n j upto tok i
  | 0, _, _, _, h => h
  | n + 1, j, upto, tok, h => by
    unfold fillMarks
    by_cases hc : upto < endidx ∧ j ≤ endidx + 1
    · rw [if_pos hc]
      generalize (if tok j then j + minTokenSize - 1 else upto) = upto'
      split
      · apply fillMarks_mono
        split
        · rfl
        · exact h
      · exact fillMarks_mono n (j + 1) upto' h
    · rwa [if_neg hc]

/-- A mark that the fill loop adds lies behind `upto`, at or before the end of the window: `upto`
is at most seven past the last mark before `j`. -/
theorem fillMarks_cases {endidx i : Nat} : ∀ (n j upto : Nat) {tok : Nat → Bool}, 0 < j → upto ≤ j + 6 →
    fillMarks endidx n j upto tok i → tok i ∨ (upto < i ∧ i ≤ endidx)
  | 0, _, _, _, _, _, h => .inl h
  | n + 1, j, upto, tok, hpos, hj, h => by
    have h8 : minTokenSize = 8 := rfl
    unfold fillMarks at h
    by_cases hc : upto < endidx ∧ j ≤ endidx + 1
    · rw [if_pos hc] at h
      by_cases hmark : tok j
      · -- a token at `j` moves `upto` on and nothing is added
        rw [if_pos hmark, if_neg (by omega)] at h
        exact (fillMarks_cases n (j + 1) _ (by omega) (by omega) h).imp_right fun h => ⟨by omega, h.2⟩
      · rw [if_neg hmark] at h
        split at h
        · rename_i hupto
          rcases fillMarks_cases n (j + 1) _ (by omega) (by omega) h with h | h
          · split at h
            · rename_i hij
              exact .inr ⟨by omega, by omega⟩
            · exact .inl h
          · exact .inr ⟨by omega, h.2⟩
        · exact fillMarks_cases n (j + 1) upto (by omega) (by omega) h
    · rw [if_neg hc] at h
      exact .inl h

/-- The fill loop leaves no gap of more than eight bytes. What lies behind it is covered: every
byte up to `upto` by a mark before `j`, which is at most one past `upto`. -/
theorem fillMarks_covers {s endidx : Nat} : ∀ (n j upto : Nat) {tok : Nat → Bool}, j + n = endidx + 2 →
    0 < j → s ≤ j → j ≤ upto + 1 → tok s →
    (∀ i, s ≤ i → i ≤ upto → ∃ k, tok k ∧ s ≤ k ∧ k ≤ i ∧ i < k + minTokenSize) →
    Covers (fillMarks endidx n j upto tok) s endidx
  | 0, j, upto, tok, hn, _, _, hj, hs, hcov => ⟨hs, fun i h1 h2 => hcov i h1 (by omega)⟩
  | n + 1, j, upto, tok, hn, hpos, hsj, hj, hs, hcov => by
    have h8 : minTokenSize = 8 := rfl
    unfold fillMarks
    by_cases hc : upto < endidx ∧ j ≤ endidx + 1
    · rw [if_pos hc]
      dsimp only
      by_cases hmark : tok j
      · rw [if_pos hmark, if_neg (by omega)]
        refine fillMarks_covers n (j + 1) _ (by omega) (by omega) (by omega) (by omega) hs fun i h1 h2 => ?_
        by_cases hi : i ≤ upto
        · exact hcov i h1 hi
        · exact ⟨j, hmark, hsj, by omega, by omega⟩
      · rw [if_neg hmark]
        by_cases hupto : upto = j - 1
        · -- the byte at `j` is the first one not covered, and becomes a mark
          rw [if_pos hupto]
          refine fillMarks_covers n (j + 1) _ (by omega) (by omega) (by omega) (by omega) ?_ fun i h1 h2 => ?_
          · split
            · rfl
            · exact hs
          · by_cases hi : i ≤ upto
            · obtain ⟨k, hk, hr⟩ := hcov i h1 hi
              refine ⟨k, ?_, hr⟩
              split
              · rfl
              · exact hk
            · exact ⟨j, by rw [if_pos rfl], hsj, by omega, by omega⟩
        · rw [if_neg hupto]
          exact fillMarks_covers n (j + 1) upto (by omega) (by omega) (by omega) (by omega) hs hcov
    · rw [if_neg hc]
      exact ⟨hs, fun i h1 h2 => hcov i h1 (by omega)⟩

section Window

variable {w : Nat → Nat → Bool} {roundsize startidx i : Nat} {tok : Nat → Bool}

theorem markWindowBy_mono (h : tok i) : markWindowBy w roundsize tok startidx i := by
  unfold markWindowBy
  split
  · apply fillMarks_mono
    split
    · rfl
    · exact h
  · exact h

theorem markWindowBy_cases (h : markWindowBy w roundsize tok startidx i) : tok i ∨
    (w startidx (startidx + roundsize - 1) ∧
      (i = startidx ∨ i = startidx + roundsize - 1 ∨
        (startidx + minTokenSize ≤ i ∧ i ≤ startidx + roundsize - 1))) := by
  have h8 : minTokenSize = 8 := rfl
  unfold markWindowBy at h
  split at h
  · rename_i hsel
    rcases fillMarks_cases _ _ _ (by omega) (by omega) h with h | h
    · split at h
      · rename_i hi
        exact .inr ⟨hsel, hi.imp_right .inl⟩
      · exact .inl h
    · exact .inr ⟨hsel, .inr (.inr ⟨by omega, h.2⟩)⟩
  · exact .inl h

theorem markWindowBy_covers (hr : minTokenSize ≤ roundsize) (hsel : w startidx (startidx + roundsize - 1)) :
    Covers (markWindowBy w roundsize tok startidx) startidx (startidx + roundsize - 1) := by
  have h8 : minTokenSize = 8 := rfl
  unfold markWindowBy
  dsimp only
  rw [if_pos hsel]
  refine fillMarks_covers _ _ _ (by omega) (by omega) (by omega) (by omega) (by simp) fun i h1 h2 => ?_
  exact ⟨startidx, by simp, le_rfl, h1, by omega⟩

theorem markWindowBy_last (hsel : w startidx (startidx + roundsize - 1)) :
    markWindowBy w roundsize tok startidx (startidx + roundsize - 1) := by
  unfold markWindowBy
  rw [if_pos hsel]
  exact fillMarks_mono _ _ _ (by simp)

end Window

/-! ## All windows -/

/-- A fold keeps what each step keeps. -/
theorem foldl_keeps {α β : Type} {f : β → α → β} {Q : β → Prop} : ∀ {l : List α} {b : β},
    (∀ b, ∀ x ∈ l, Q b → Q (f b x)) → Q b → Q (l.foldl f b)
  | [], _, _, h => h
  | x :: l, b, hstep, h => by
    rw [List.foldl_cons]
    exact foldl_keeps (fun b y hy => hstep b y (List.mem_cons_of_mem _ hy)) (hstep b x (by simp) h)

/-- What one step of a fold establishes, and each step keeps, holds after the fold. -/
theorem foldl_of_mem {α β : Type} {f : β → α → β} {Q : β → Prop} {x : α} (hx : ∀ b, Q (f b x))
    (hstep : ∀ b y, Q b → Q (f b y)) : ∀ {l : List α} {b : β}, x ∈ l → Q (l.foldl f b)
  | y :: l, b, hmem => by
    rw [List.foldl_cons]
    rcases List.mem_cons.1 hmem with rfl | hmem
    · exact foldl_keeps (fun b y _ => hstep b y) (hx b)
    · exact foldl_of_mem hx hstep hmem

section Tokenize

variable {w : Nat → Nat → Bool} {textlen : Nat}

/-- The induction over the windows in their order. -/
theorem tokenizeBy_induction {Q : (Nat → Bool) → Prop} (h0 : Q fun _ => false)
    (hstep : ∀ tok s e, IsWindow textlen s e → Q tok → Q (markWindowBy w (e + 1 - s) tok s)) :
    Q (tokenizeBy w textlen) := by
  unfold tokenizeBy
  refine foldl_keeps (fun tok r hr h => foldl_keeps (fun tok s hs h => ?_) h) h0
  rw [List.mem_range'_1] at hr
  rw [List.mem_range] at hs
  simp only [minTokenSize, maxTokenSize] at hr
  have hw := hstep tok s (s + r - 1) ⟨by omega, by omega, by omega⟩ h
  rwa [show s + r - 1 + 1 - s = r by omega] at hw

/-- What the round of a window establishes, and every round keeps, holds in the end. -/
theorem tokenizeBy_of_window {Q : (Nat → Bool) → Prop} {s e : Nat} (hw : IsWindow textlen s e)
    (hwin : ∀ tok, Q (markWindowBy w (e + 1 - s) tok s))
    (hkeep : ∀ tok r x, Q tok → Q (markWindowBy w r tok x)) : Q (tokenizeBy w textlen) := by
  have h1 := hw.lower
  have h2 := hw.upper
  have h3 := hw.inside
  unfold tokenizeBy
  refine foldl_of_mem (x := e + 1 - s) (fun tok => ?_)
    (fun tok r h => foldl_keeps (fun tok x _ h => hkeep tok r x h) h) ?_
  · refine foldl_of_mem (x := s) hwin (fun tok x h => hkeep tok _ x h) ?_
    rw [List.mem_range]
    omega
  · rw [List.mem_range'_1]
    simp only [minTokenSize, maxTokenSize]
    omega

theorem IsWindow.end_eq {s e : Nat} (hw : IsWindow textlen s e) : s + (e + 1 - s) - 1 = e := by
  have := hw.lower
  omega

/-- A marked offset is the first or the last of a window that passes the test, or lies at least
eight bytes into one. -/
theorem tokenizeBy_cases {i : Nat} (h : tokenizeBy w textlen i) : ∃ s e, IsWindow textlen s e ∧ w s e ∧
    (i = s ∨ i = e ∨ (s + minTokenSize ≤ i ∧ i ≤ e)) := by
  revert h
  refine tokenizeBy_induction (Q := fun tok => tok i → ∃ s e, IsWindow textlen s e ∧ w s e ∧
    (i = s ∨ i = e ∨ (s + minTokenSize ≤ i ∧ i ≤ e))) (fun h => absurd h (by simp)) ?_
  intro tok s e hw ih h
  rcases markWindowBy_cases h with h | ⟨hsel, h⟩
  · exact ih h
  · rw [hw.end_eq] at hsel h
    exact ⟨s, e, hw, hsel, h⟩

/-- A window that passes the test is covered in the end. -/
theorem tokenizeBy_covers {s e : Nat} (hw : IsWindow textlen s e) (hsel : w s e) :
    Covers (tokenizeBy w textlen) s e := by
  have hmin : minTokenSize ≤ e + 1 - s := by
    have := hw.lower
    simp only [minTokenSize]
    omega
  refine tokenizeBy_of_window (Q := fun tok => Covers tok s e) hw (fun tok => ?_)
    fun tok r x h => h.mono fun i hi => markWindowBy_mono hi
  have hcov : Covers (markWindowBy w (e + 1 - s) tok s) s (s + (e + 1 - s) - 1) :=
    markWindowBy_covers hmin (by rwa [hw.end_eq])
  rwa [hw.end_eq] at hcov

/-- The last offset of a window that passes is marked too. -/
theorem tokenizeBy_last {s e : Nat} (hw : IsWindow textlen s e) (hsel : w s e) : tokenizeBy w textlen e := by
  refine tokenizeBy_of_window (Q := fun tok => tok e) hw (fun tok => ?_) fun tok r x h => markWindowBy_mono h
  have hlast : markWindowBy w (e + 1 - s) tok s (s + (e + 1 - s) - 1) := markWindowBy_last (by rwa [hw.end_eq])
  rwa [hw.end_eq] at hlast

/-- Every mark is inside the text. -/
theorem lt_of_tokenizeBy {i : Nat} (h : tokenizeBy w textlen i) : i < textlen := by
  obtain ⟨s, e, hw, -, hcase⟩ := tokenizeBy_cases h
  have h1 := hw.lower
  have h2 := hw.inside
  omega

/-- The windows are at least eight bytes, so shorter texts have no marks. -/
theorem tokenizeBy_of_short (h : textlen < minTokenSize) (i : Nat) : tokenizeBy w textlen i = false := by
  rw [← Bool.not_eq_true]
  intro hmark
  obtain ⟨s, e, hw, -, -⟩ := tokenizeBy_cases hmark
  have h1 := hw.lower
  have h2 := hw.inside
  simp only [minTokenSize] at h
  omega

end Tokenize

/-! ## The windows between dividers -/

section Dividers

variable {text : Memory} {textlen : Nat} {dividers : Int → Bool} {s e i : Nat}

theorem tokenize_cases (h : tokenize text textlen dividers i) : ∃ s e, IsWindow textlen s e ∧
    selected text dividers s e ∧ (i = s ∨ i = e ∨ (s + minTokenSize ≤ i ∧ i ≤ e)) := tokenizeBy_cases h

theorem tokenize_covers (hw : IsWindow textlen s e) (hsel : selected text dividers s e) :
    Covers (tokenize text textlen dividers) s e := tokenizeBy_covers hw hsel

theorem tokenize_last (hw : IsWindow textlen s e) (hsel : selected text dividers s e) :
    tokenize text textlen dividers e := tokenizeBy_last hw hsel

end Dividers

end Dpi

end Embark
