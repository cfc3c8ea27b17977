/-
Scales: a finite set of boundary keys in a linear order, each with a code strictly between 0 and a
top, in the order of the keys. A key lies in the gap between the codes of its two nearest
boundaries; comparing any code out of that gap with the code of a boundary answers the comparison
of the key with the boundary.
-/
import Mathlib.Data.Finset.Max
import Mathlib.Order.Basic

namespace Embark

/-- Boundary keys with order-preserving codes in `(0, top)`. -/
structure Scale (α : Type) [LinearOrder α] where
  top : ℕ
  keys : Finset α
  code : α → ℕ
  top_pos : 0 < top
  mono : ∀ x ∈ keys, ∀ y ∈ keys, x < y → code x < code y
  code_pos : ∀ x ∈ keys, 0 < code x
  code_lt : ∀ x ∈ keys, code x < top

namespace Scale

variable {α : Type} [LinearOrder α] (s : Scale α)

/-- The code of the greatest boundary at or below `v`, or 0. -/
def lo (v : α) : ℕ := (insert 0 ((s.keys.filter (· ≤ v)).image s.code)).max' (Finset.insert_nonempty ..)

/-- The code of the least boundary above `v`, or the top. -/
def hi (v : α) : ℕ := (insert s.top ((s.keys.filter (v < ·)).image s.code)).min' (Finset.insert_nonempty ..)

/-- A code out of the gap of `v`. -/
def InGap (v : α) (c : ℕ) : Prop := s.lo v ≤ c ∧ c < s.hi v

/-- No boundary separates `u` from `v`. -/
def SameGap (u v : α) : Prop := ∀ x ∈ s.keys, ¬ (u < x ∧ x ≤ v)

variable {s}

theorem code_le_lo {v x : α} (hx : x ∈ s.keys) (h : x ≤ v) : s.code x ≤ s.lo v :=
  Finset.le_max' _ _ (Finset.mem_insert_of_mem
    (Finset.mem_image_of_mem _ (Finset.mem_filter.2 ⟨hx, h⟩)))

theorem hi_le_code {v x : α} (hx : x ∈ s.keys) (h : v < x) : s.hi v ≤ s.code x :=
  Finset.min'_le _ _ (Finset.mem_insert_of_mem
    (Finset.mem_image_of_mem _ (Finset.mem_filter.2 ⟨hx, h⟩)))

theorem hi_le_top (v : α) : s.hi v ≤ s.top := Finset.min'_le _ _ (Finset.mem_insert_self ..)

theorem lo_cases (v : α) : s.lo v = 0 ∨ ∃ x ∈ s.keys, x ≤ v ∧ s.lo v = s.code x := by
  have h := Finset.max'_mem (insert 0 ((s.keys.filter (· ≤ v)).image s.code)) (Finset.insert_nonempty ..)
  rcases Finset.mem_insert.1 h with h | h
  · exact .inl h
  · obtain ⟨x, hx, he⟩ := Finset.mem_image.1 h
    exact .inr ⟨x, (Finset.mem_filter.1 hx).1, (Finset.mem_filter.1 hx).2, he.symm⟩

theorem hi_cases (v : α) : s.hi v = s.top ∨ ∃ x ∈ s.keys, v < x ∧ s.hi v = s.code x := by
  have h := Finset.min'_mem (insert s.top ((s.keys.filter (v < ·)).image s.code)) (Finset.insert_nonempty ..)
  rcases Finset.mem_insert.1 h with h | h
  · exact .inl h
  · obtain ⟨x, hx, he⟩ := Finset.mem_image.1 h
    exact .inr ⟨x, (Finset.mem_filter.1 hx).1, (Finset.mem_filter.1 hx).2, he.symm⟩

/-- The lower bound, read off the greatest boundary at or below `v`. -/
theorem lo_eq_code {v x : α} (hx : x ∈ s.keys) (h : x ≤ v) (hmax : ∀ y ∈ s.keys, y ≤ v → y ≤ x) :
    s.lo v = s.code x := by
  refine le_antisymm ?_ (code_le_lo hx h)
  rcases lo_cases (s := s) v with h0 | ⟨y, hy, hyv, he⟩
  · omega
  · rw [he]
    rcases lt_or_eq_of_le (hmax y hy hyv) with hlt | rfl
    · exact (s.mono y hy x hx hlt).le
    · exact le_rfl

theorem lo_eq_zero {v : α} (h : ∀ x ∈ s.keys, v < x) : s.lo v = 0 := by
  rcases lo_cases (s := s) v with h0 | ⟨y, hy, hyv, -⟩
  · exact h0
  · exact absurd (h y hy) (not_lt.2 hyv)

/-- The upper bound, read off the least boundary above `v`. -/
theorem hi_eq_code {v x : α} (hx : x ∈ s.keys) (h : v < x) (hmin : ∀ y ∈ s.keys, v < y → x ≤ y) :
    s.hi v = s.code x := by
  refine le_antisymm (hi_le_code hx h) ?_
  rcases hi_cases (s := s) v with h0 | ⟨y, hy, hyv, he⟩
  · have := s.code_lt x hx; omega
  · rw [he]
    rcases lt_or_eq_of_le (hmin y hy hyv) with hlt | rfl
    · exact (s.mono x hx y hy hlt).le
    · exact le_rfl

theorem hi_eq_top {v : α} (h : ∀ x ∈ s.keys, x ≤ v) : s.hi v = s.top := by
  rcases hi_cases (s := s) v with h0 | ⟨y, hy, hyv, -⟩
  · exact h0
  · exact absurd hyv (not_lt.2 (h y hy))

/-- The gap of a boundary starts at its own code. -/
theorem lo_of_mem {x : α} (hx : x ∈ s.keys) : s.lo x = s.code x :=
  lo_eq_code hx le_rfl fun _ _ h => h

theorem lo_lt_hi (v : α) : s.lo v < s.hi v := by
  rcases lo_cases (s := s) v with h0 | ⟨x, hx, hxv, he⟩ <;>
    rcases hi_cases (s := s) v with h1 | ⟨y, hy, hyv, he'⟩
  · have := s.top_pos; omega
  · have := s.code_pos y hy; omega
  · have := s.code_lt x hx; omega
  · have := s.mono x hx y hy (lt_of_le_of_lt hxv hyv); omega

/-! ## Comparing codes with boundaries -/

/-- Any code out of the gap of `v` compares with the code of a boundary as `v` with the boundary. -/
theorem code_le_iff {v x : α} {c : ℕ} (hc : s.InGap v c) (hx : x ∈ s.keys) : s.code x ≤ c ↔ x ≤ v := by
  constructor
  · intro h
    by_contra hn
    have := hi_le_code hx (not_le.1 hn)
    have := hc.2
    omega
  · intro h
    exact le_trans (code_le_lo hx h) hc.1

/-- Two keys no boundary separates lie in the same gap. -/
theorem gap_eq {u v : α} (huv : u ≤ v) (h : s.SameGap u v) : s.lo u = s.lo v ∧ s.hi u = s.hi v := by
  have hle : ∀ x ∈ s.keys, (x ≤ u ↔ x ≤ v) := fun x hx =>
    ⟨fun h' => le_trans h' huv, fun h' => not_lt.1 fun hlt => h x hx ⟨hlt, h'⟩⟩
  unfold lo hi
  constructor
  · congr 3
    exact Finset.filter_congr hle
  · congr 3
    exact Finset.filter_congr fun x hx => by rw [← not_le, ← not_le, hle x hx]

/-- A boundary between two keys separates their gaps. -/
theorem hi_le_lo {u v x : α} (hx : x ∈ s.keys) (hu : u < x) (hv : x ≤ v) : s.hi u ≤ s.lo v :=
  le_trans (hi_le_code hx hu) (code_le_lo hx hv)

/-- Neighbouring gaps share their bound: the code of the boundary between them. -/
theorem hi_eq_lo {u x : α} (hx : x ∈ s.keys) (hu : u < x) (h : ∀ y ∈ s.keys, u < y → x ≤ y) :
    s.hi u = s.lo x := by
  rw [hi_eq_code hx hu h, lo_of_mem hx]

/-- The codes the gaps cover: all of `[0, top)`, from the least boundary's code on where every key
is at or above some boundary. -/
theorem inGap_iff (c : ℕ) : (∃ v, s.InGap v c) ↔
    c < s.top ∧ ((∃ x ∈ s.keys, s.code x ≤ c) ∨ ∃ v, ∀ x ∈ s.keys, v < x) := by
  constructor
  · rintro ⟨v, h1, h2⟩
    refine ⟨lt_of_lt_of_le h2 (hi_le_top v), ?_⟩
    rcases lo_cases (s := s) v with h0 | ⟨x, hx, -, he⟩
    · refine .inr ⟨v, fun x hx => ?_⟩
      by_contra hn
      have := code_le_lo hx (not_lt.1 hn)
      have := s.code_pos x hx
      omega
    · exact .inl ⟨x, hx, by omega⟩
  · rintro ⟨htop, h⟩
    by_cases hex : ∃ x ∈ s.keys, s.code x ≤ c
    · -- the greatest boundary with a code up to `c`
      have hne : (s.keys.filter (s.code · ≤ c)).Nonempty := by
        obtain ⟨x, hx, hc⟩ := hex
        exact ⟨x, Finset.mem_filter.2 ⟨hx, hc⟩⟩
      obtain ⟨m, hm, hmax⟩ : ∃ m ∈ s.keys.filter (s.code · ≤ c),
        ∀ y ∈ s.keys.filter (s.code · ≤ c), y ≤ m :=
        ⟨_, Finset.max'_mem _ hne, Finset.le_max' _⟩
      rw [Finset.mem_filter] at hm
      refine ⟨m, by rw [lo_of_mem hm.1]; exact hm.2, ?_⟩
      rcases hi_cases (s := s) m with h0 | ⟨y, hy, hmy, he⟩
      · omega
      · by_contra hn
        exact absurd (hmax y (Finset.mem_filter.2 ⟨hy, by omega⟩)) (not_le.2 hmy)
    -- below every boundary's code: a key below every boundary has it
    · rcases h with h | ⟨v, hv⟩
      · exact absurd h hex
      · refine ⟨v, by rw [lo_eq_zero hv]; omega, ?_⟩
        rcases hi_cases (s := s) v with h0 | ⟨y, hy, -, he⟩
        · omega
        · by_contra hn
          exact hex ⟨y, hy, by omega⟩

/-! ## Closed ranges -/

/-- Where `v` is below `e`, or a boundary lies above `e` up to `v`, membership in the closed range
`[a, e]` of boundaries is read off any code of `v`. -/
theorem mem_range_iff {a e v : α} {c : ℕ} (ha : a ∈ s.keys) (he : e ∈ s.keys) (hc : s.InGap v c)
    (h : v < e ∨ ¬ s.SameGap e v) : (a ≤ v ∧ v ≤ e) ↔ (s.code a ≤ c ∧ c ≤ s.code e) := by
  rw [code_le_iff hc ha]
  refine and_congr_right fun _ => ?_
  rcases h with h | h
  · have := lt_of_lt_of_le hc.2 (hi_le_code he h)
    exact ⟨fun _ => this.le, fun _ => h.le⟩
  · unfold SameGap at h
    push Not at h
    obtain ⟨x, hx, hex, hxv⟩ := h
    have h1 := (code_le_iff hc hx).2 hxv
    have h2 := s.mono e he x hx hex
    exact ⟨fun hve => absurd (lt_of_lt_of_le hex hxv) (not_lt.2 hve), fun hce => by omega⟩

/-! ## One more boundary -/

/-- A new boundary moves the lower bound of no gap that it is not the start of. -/
theorem lo_insert {s' : Scale α} {x v : α} (hkeys : s'.keys = insert x s.keys)
    (hcode : ∀ y ∈ s.keys, s'.code y = s.code y) (h : x ≤ v → ∃ y ∈ s.keys, x < y ∧ y ≤ v) :
    s'.lo v = s.lo v := by
  have hin : ∀ y ∈ s.keys, y ∈ s'.keys := fun y hy => by rw [hkeys]; exact Finset.mem_insert_of_mem hy
  refine le_antisymm ?_ ?_
  · rcases lo_cases (s := s') v with h0 | ⟨z, hz, hzv, he⟩
    · omega
    rw [he]
    rw [hkeys, Finset.mem_insert] at hz
    rcases hz with rfl | hz
    · obtain ⟨y, hy, hzy, hyv⟩ := h hzv
      have hlt := s'.mono z (by rw [hkeys]; exact Finset.mem_insert_self ..) y (hin y hy) hzy
      rw [hcode y hy] at hlt
      exact hlt.le.trans (code_le_lo hy hyv)
    · rw [hcode z hz]
      exact code_le_lo hz hzv
  · rcases lo_cases (s := s) v with h0 | ⟨z, hz, hzv, he⟩
    · omega
    rw [he, ← hcode z hz]
    exact code_le_lo (hin z hz) hzv

/-- Nor the upper bound of a gap it is not the end of. -/
theorem hi_insert {s' : Scale α} {x v : α} (hkeys : s'.keys = insert x s.keys) (htop : s'.top = s.top)
    (hcode : ∀ y ∈ s.keys, s'.code y = s.code y) (h : v < x → ∃ y ∈ s.keys, v < y ∧ y < x) :
    s'.hi v = s.hi v := by
  have hin : ∀ y ∈ s.keys, y ∈ s'.keys := fun y hy => by rw [hkeys]; exact Finset.mem_insert_of_mem hy
  refine le_antisymm ?_ ?_
  · rcases hi_cases (s := s) v with h0 | ⟨z, hz, hzv, he⟩
    · rw [h0, ← htop]
      exact hi_le_top v
    rw [he, ← hcode z hz]
    exact hi_le_code (hin z hz) hzv
  · rcases hi_cases (s := s') v with h0 | ⟨z, hz, hzv, he⟩
    · rw [h0, htop]
      exact hi_le_top v
    rw [he]
    rw [hkeys, Finset.mem_insert] at hz
    rcases hz with rfl | hz
    · obtain ⟨y, hy, hvy, hyz⟩ := h hzv
      have hlt := s'.mono y (hin y hy) z (by rw [hkeys]; exact Finset.mem_insert_self ..) hyz
      rw [hcode y hy] at hlt
      exact (hi_le_code hy hvy).trans hlt.le
    · rw [hcode z hz]
      exact hi_le_code hz hzv

end Scale

end Embark
