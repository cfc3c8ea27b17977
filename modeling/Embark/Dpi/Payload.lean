/-
What the tokens of a payload depend on. The window at the end of a payload tests the byte behind
it, the last tokens copy up to seven bytes behind it, and the constructor leaves the slots of the
characters that are no dividers as the memory of the element was; so for no payload of at least
eight bytes are the tokens determined by the payload.
-/
import Embark.Dpi.Marks
import Embark.Dpi.Push
import Embark.Dpi.Tokens

namespace Embark

namespace Dpi

namespace MBArkDPI

/-- The array `dividers` after the constructor: the slots it does not assign hold what the memory
held, and indices outside the array read what lies around it. -/
def dividers (memory : Nat → Bool) (around : Int → Bool) (i : Int) : Bool :=
  if i ∈ dividerChars then true else if 0 ≤ i ∧ i < 256 then memory i.toNat else around i

/-- The construction of an element and one call of the tokenizer return the list `tokens`. -/
def Returns (memory : Nat → Bool) (around : Int → Bool) (text : Memory) (textlen : Nat)
    (tokens : List (Nat × List Byte)) : Prop :=
  ∃ ln pool, getUserTokensFromBuffer text textlen (dividers memory around) Pool.init = some (ln, pool) ∧
    TokensAt pool ln tokens

/-- Whatever follows the payload in its buffer and whatever the memory of the array held, the same
tokens are returned. -/
def Determined (around : Int → Bool) (text : Memory) (textlen : Nat) : Prop :=
  ∀ memory₁ memory₂ text₁ text₂, (∀ i < textlen, text₁ i = text i) →
    (∀ i < textlen, text₂ i = text i) →
    ∃ tokens, Returns memory₁ around text₁ textlen tokens ∧ Returns memory₂ around text₂ textlen tokens

section Returns

variable {memory : Nat → Bool} {around : Int → Bool} {text : Memory} {textlen : Nat}
  {tokens : List (Nat × List Byte)}

theorem returns_of_le (h : textlen ≤ poolSize) :
    Returns memory around text textlen (tokensOf text textlen (dividers memory around)) := by
  obtain ⟨free, hfree, hlen⟩ := Pool.init_ready.free
  exact getUserTokensFromBuffer_some _ _ _ hfree (by rw [hlen]; exact length_marks_le.trans h)

theorem Returns.eq (h : Returns memory around text textlen tokens) :
    tokens = tokensOf text textlen (dividers memory around) := by
  obtain ⟨ln, pool, hrun, htokens⟩ := h
  obtain ⟨free, hfree, -⟩ := Pool.init_ready.free
  rcases Nat.lt_or_ge free.length (marks text textlen (dividers memory around)).length with hlt | hle
  · rw [getUserTokensFromBuffer_none _ _ _ hfree hlt] at hrun
    cases hrun
  · obtain ⟨ln₁, pool₁, hrun₁, htokens₁⟩ := getUserTokensFromBuffer_some _ _ _ hfree hle
    rw [hrun₁] at hrun
    obtain ⟨rfl, rfl⟩ := Prod.mk.inj (Option.some.inj hrun)
    exact htokens.unique htokens₁

end Returns

/-! ## Two runs -/

/-- The payload, then a slash, then the byte `x`. -/
def followedBy (text : Memory) (textlen : Nat) (x : Byte) : Memory := fun i =>
  if i < textlen then text i else if i = textlen then 0x2f else x

section Runs

variable (around : Int → Bool) (text : Memory) {textlen : Nat}

theorem followedBy_of_lt (x : Byte) {i : Nat} (h : i < textlen) : followedBy text textlen x i = text i := if_pos h

/-- In memory full of ones the letter `a` passes for a divider on the left, and the slash behind the
payload on the right, so the last byte of the payload is marked. -/
theorem followedBy_marked (x : Byte) (h : minTokenSize ≤ textlen) :
    tokenize (followedBy text textlen x) textlen (dividers (fun _ => true) around) (textlen - 1) := by
  have h8 : minTokenSize = 8 := rfl
  have hw : IsWindow textlen (textlen - 8) (textlen - 1) := ⟨by omega, by omega, by omega⟩
  refine tokenize_last hw ?_
  have hslash : followedBy text textlen x (textlen - 1 + 1) = 0x2f := by
    unfold followedBy
    rw [if_neg (by omega), if_pos (by omega)]
  unfold selected
  simp only [hslash]
  have hleft : dividers (fun _ => true) around 0x61 = true := by
    unfold dividers
    rw [if_neg (by decide), if_pos (by decide)]
  have hright : dividers (fun _ => true) around (0x2f : Byte).toInt = true := if_pos (by decide)
  rw [hleft, hright]
  simp

/-- The token of the last byte holds the byte `x`. -/
theorem followedBy_token (x y : Byte) (h : minTokenSize ≤ textlen)
    (heq : tokenOf (followedBy text textlen x) (textlen - 1) = tokenOf (followedBy text textlen y) (textlen - 1)) :
    x = y := by
  have h8 : minTokenSize = 8 := rfl
  have hbyte : ∀ z, (tokenOf (followedBy text textlen z) (textlen - 1)).2[2]? = some z := by
    intro z
    have hz : followedBy text textlen z (textlen - 1 + 2) = z := by
      unfold followedBy
      rw [if_neg (by omega), if_neg (by omega)]
    unfold tokenOf Memory.slice
    simp only [List.getElem?_map, h8]
    rw [show (List.range 8)[2]? = some 2 from rfl, Option.map_some, hz]
  have hx := hbyte x
  rw [heq, hbyte y] at hx
  exact (Option.some.inj hx).symm

/-- Two runs that differ in one byte behind the payload return different tokens, if they return. -/
theorem returns_ne (h : minTokenSize ≤ textlen) {tokens₀ tokens₁ : List (Nat × List Byte)}
    (h₀ : Returns (fun _ => true) around (followedBy text textlen 0) textlen tokens₀)
    (h₁ : Returns (fun _ => true) around (followedBy text textlen 1) textlen tokens₁) :
    tokens₀ ≠ tokens₁ := by
  intro heq
  rw [h₀.eq, h₁.eq] at heq
  have hmem : tokenOf (followedBy text textlen 0) (textlen - 1) ∈
      tokensOf (followedBy text textlen 0) textlen (dividers (fun _ => true) around) :=
    mem_tokensOf.2 ⟨followedBy_marked around text 0 h, rfl⟩
  rw [heq] at hmem
  exact absurd (followedBy_token text 0 1 h (mem_tokensOf.1 hmem).2) (by decide)

/-- The tokens of no payload of at least eight bytes are determined by it; up to 1500 bytes, two
runs return and return different tokens. -/
theorem not_determined (h : minTokenSize ≤ textlen) : ¬ Determined around text textlen ∧
    (textlen ≤ poolSize → ∃ memory text₀ text₁ tokens₀ tokens₁, (∀ i < textlen, text₀ i = text i) ∧
      (∀ i < textlen, text₁ i = text i) ∧ Returns memory around text₀ textlen tokens₀ ∧
      Returns memory around text₁ textlen tokens₁ ∧ tokens₀ ≠ tokens₁) := by
  have hagree : ∀ x, ∀ i < textlen, followedBy text textlen x i = text i := fun x i hi => followedBy_of_lt text x hi
  refine ⟨fun hdet => ?_, fun hle => ?_⟩
  · obtain ⟨tokens, h₀, h₁⟩ := hdet (fun _ => true) (fun _ => true) _ _ (hagree 0) (hagree 1)
    exact returns_ne around text h h₀ h₁ rfl
  · exact ⟨_, _, _, _, _, hagree 0, hagree 1, returns_of_le hle, returns_of_le hle,
      returns_ne around text h (returns_of_le hle) (returns_of_le hle)⟩

theorem not_determined_slash : minTokenSize ≤ 8 ∧ ¬ Determined (fun _ => false) (payload slashPacket) 8 :=
  ⟨by decide, (not_determined (fun _ => false) (payload slashPacket) (by decide)).1⟩

/-- Two runs on the payload `/abcdef/` that return different tokens. -/
theorem slash_runs_differ :
    ∃ memory text₀ text₁ tokens₀ tokens₁, (∀ i < 8, text₀ i = payload slashPacket i) ∧
    (∀ i < 8, text₁ i = payload slashPacket i) ∧ Returns memory (fun _ => false) text₀ 8 tokens₀ ∧
    Returns memory (fun _ => false) text₁ 8 tokens₁ ∧ tokens₀ ≠ tokens₁ :=
  ⟨fun _ => true, followedBy (payload slashPacket) 8 0, followedBy (payload slashPacket) 8 1, _, _,
    fun i hi => followedBy_of_lt _ 0 hi, fun i hi => followedBy_of_lt _ 1 hi, returns_of_le (by decide),
    returns_of_le (by decide),
    returns_ne _ _ (by decide) (returns_of_le (by decide)) (returns_of_le (by decide))⟩

end Runs

end MBArkDPI

end Dpi

end Embark
