/-
Texts of IPv6 addresses, as `inet_pton` accepts them: eight words in hexadecimal digits between
colons, the last two of which may be written as a quad, with one run of zero words left out.
-/
import Embark.Net.Address

namespace Embark

/-! ## Words -/

/-- One to four hexadecimal digits, in either case. -/
def IsHexWord (w : BitVec 16) (s : List Char) : Prop :=
  ∃ ds : List Nat, s.map hexDigit = ds.map some ∧ 1 ≤ ds.length ∧ ds.length ≤ 4 ∧
    ds.foldl (fun n d => 16 * n + d) 0 = w.toNat

/-- Words between colons. -/
inductive IsHexWords : List (BitVec 16) → List Char → Prop
  | one {w : BitVec 16} {s : List Char} (h : IsHexWord w s) : IsHexWords [w] s
  | cons {w : BitVec 16} {ws : List (BitVec 16)} {s t : List Char} (h : IsHexWord w s) (hs : IsHexWords ws t) :
    IsHexWords (w :: ws) (s ++ ':' :: t)

/-- Words between colons at the end of an address. -/
inductive IsLastWords : List (BitVec 16) → List Char → Prop
  | one {w : BitVec 16} {s : List Char} (h : IsHexWord w s) : IsLastWords [w] s
  | quad (q : Quad) : IsLastWords [q.a ++ q.b, q.c ++ q.d] q.text
  | cons {w : BitVec 16} {ws : List (BitVec 16)} {s t : List Char} (h : IsHexWord w s) (hs : IsLastWords ws t) :
    IsLastWords (w :: ws) (s ++ ':' :: t)

/-- The number of an address, the first word most significant. -/
def ip6Number (ws : List (BitVec 16)) : U128 := ws.foldl (fun x w => x <<< 16 ||| w.setWidth 128) 0

/-- A text of an address; two colons stand for one zero word or more. -/
inductive IsIp6Text : U128 → List Char → Prop
  | full {ws : List (BitVec 16)} {s : List Char} (h : IsLastWords ws s) (hlen : ws.length = 8) :
    IsIp6Text (ip6Number ws) s
  | compressed {ls rs : List (BitVec 16)} {l r : List Char} {zeros : Nat} (hl : ls = [] ∧ l = [] ∨ IsHexWords ls l)
    (hr : rs = [] ∧ r = [] ∨ IsLastWords rs r) (hpos : 1 ≤ zeros) (hlen : ls.length + zeros + rs.length = 8) :
    IsIp6Text (ip6Number (ls ++ List.replicate zeros 0 ++ rs)) (l ++ ':' :: ':' :: r)

/-! ## Characters -/

variable {s : List Char} {c : Char}

theorem IsHexWord.notMem {w : BitVec 16} (h : IsHexWord w s) (hc : hexDigit c = none) : c ∉ s := by
  obtain ⟨ds, hds, -⟩ := h
  intro hmem
  have hnone : none ∈ s.map hexDigit := List.mem_map.2 ⟨c, hmem, hc⟩
  rw [hds, List.mem_map] at hnone
  obtain ⟨_, -, hsome⟩ := hnone
  cases hsome

theorem isDigit_of_hexDigit (hc : hexDigit c = none) : c.isDigit = false := by
  by_contra hd
  rw [Bool.not_eq_false] at hd
  unfold hexDigit at hc
  rw [if_pos hd] at hc
  cases hc

theorem IsHexWords.notMem {ws : List (BitVec 16)} (h : IsHexWords ws s) (hc : hexDigit c = none) (hcolon : c ≠ ':') :
    c ∉ s := by
  induction h with
  | one h => exact h.notMem hc
  | cons h _ ih =>
    rw [List.mem_append, List.mem_cons, not_or, not_or]
    exact ⟨h.notMem hc, hcolon, ih⟩

theorem IsLastWords.notMem {ws : List (BitVec 16)} (h : IsLastWords ws s) (hc : hexDigit c = none) (hcolon : c ≠ ':')
    (hdot : c ≠ '.') : c ∉ s := by
  induction h with
  | one h => exact h.notMem hc
  | quad q => exact q.isText_text.notMem (isDigit_of_hexDigit hc) hdot
  | cons h _ ih =>
    rw [List.mem_append, List.mem_cons, not_or, not_or]
    exact ⟨h.notMem hc, hcolon, ih⟩

namespace IsIp6Text

variable {x : U128}

theorem notMem (h : IsIp6Text x s) (hc : hexDigit c = none) (hcolon : c ≠ ':') (hdot : c ≠ '.') : c ∉ s := by
  cases h with
  | full h _ => exact h.notMem hc hcolon hdot
  | @compressed ls rs l r _ hl hr _ _ =>
    have hcl : c ∉ l := by
      rcases hl with ⟨-, rfl⟩ | hl
      · exact List.not_mem_nil
      · exact hl.notMem hc hcolon
    have hcr : c ∉ r := by
      rcases hr with ⟨-, rfl⟩ | hr
      · exact List.not_mem_nil
      · exact hr.notMem hc hcolon hdot
    simp only [List.mem_append, List.mem_cons, not_or]
    exact ⟨hcl, hcolon, hcolon, hcr⟩

/-- A quad stands for two words only, so the others are behind a colon. -/
theorem colon_mem (h : IsIp6Text x s) : ':' ∈ s := by
  cases h with
  | full h hlen =>
    cases h with
    | one _ => cases hlen
    | quad _ => cases hlen
    | cons _ _ => exact List.mem_append_right _ List.mem_cons_self
  | compressed _ _ _ _ => exact List.mem_append_right _ List.mem_cons_self

end IsIp6Text

end Embark
