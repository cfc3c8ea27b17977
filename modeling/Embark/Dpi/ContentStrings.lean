/-
`cs_get_from_snort_string`: a pattern such as `GET|0d 0a|` is turned into the bytes it stands for,
in one pass that counts them and a second one that writes them. The passes step differently inside
the groups but take the same way through the text.
-/
import Embark.Dpi.Tokenizer
import Embark.Lib.Text
import Embark.Lib.Walk

namespace Embark

namespace Dpi

/-! ## The function -/

/-- How a call ends without a result: its fuel is used up, it calls `exit(2)`, or it accesses the
text or `cs` out of bounds. -/
inductive Stop
  | running
  | exited
  | outOfBounds
deriving DecidableEq, Repr

/-- A number as a `uint32_t`. -/
def u32 (n : Nat) : Nat := n % 2 ^ 32

def bar : Byte := 0x7c

def backslash : Byte := 0x5c

/-- The byte of a text with a NUL behind it. -/
def textAt (s : List Byte) (i : Nat) : Byte := s[i]?.getD 0

/-- `s[i]`. -/
def charAt (s : List Byte) (i : Nat) : Except Stop Byte :=
  if i ≤ s.length then .ok (textAt s i) else .error .outOfBounds

/-- The text at `&(s[i])`. -/
def textFrom (s : List Byte) (i : Nat) : Except Stop (List Byte) :=
  if i ≤ s.length then .ok (s.drop i) else .error .outOfBounds

/-- `s[i] == '|' && (i == 0 || s[i - 1] != '\\')`. -/
def opensGroup (s : List Byte) (i : Nat) : Except Stop Bool := do
  let c ← charAt s i
  if c = bar then
    if i = 0 then return true
    else
      let before ← charAt s (i - 1)
      return before ≠ backslash
  else return false

/-- `i < strlen(s) && s[i] != '|'`. -/
def continuesGroup (s : List Byte) (i : Nat) : Except Stop Bool :=
  if i < s.length then do
    let c ← charAt s i
    return c ≠ bar
  else return false

/-- The byte as a character of the C locale. -/
def byteChar (b : Byte) : Char := Char.ofNat b.toNat

/-- What `sscanf(t, "%2hhx", _)` stores: white space is skipped, and of the next two characters a
sign and hexadecimal digits count. Nothing is stored for a sign alone, nor for `0x`: this is the rule
of the C standard, where glibc stores 0 for `0x`. -/
def scanHexByte (t : List Byte) : Option Byte :=
  match (t.map byteChar).dropWhile isSpace with
  | '-' :: c :: _ => (hexDigit c).map fun d => -BitVec.ofNat 8 d
  | '+' :: c :: _ => (hexDigit c).map fun d => BitVec.ofNat 8 d
  | [c] => (hexDigit c).map fun d => BitVec.ofNat 8 d
  | c :: x :: _ =>
    if c = '0' ∧ (x = 'x' ∨ x = 'X') then none
    else
      match hexDigit c, hexDigit x with
      | some d, some d' => some (BitVec.ofNat 8 (16 * d + d'))
      | some d, none => some (BitVec.ofNat 8 d)
      | none, _ => none
  | [] => none

/-- Where a pass is with the index `i`: at the condition of the `for` loop, or at the beginning of
the body of the `do` loop. -/
inductive Place
  | loop (i : Nat)
  | group (i : Nat)
deriving DecidableEq, Repr

/-- The counting pass so far: `cs_strlen`, and the indices at which a byte was counted, the last
one first. -/
structure Counted where
  csStrlen : Nat
  visited : List Nat
deriving DecidableEq, Repr

/-- `cs_strlen++`. -/
def Counted.add (c : Counted) (i : Nat) : Counted := ⟨u32 (c.csStrlen + 1), i :: c.visited⟩

/-- The counting pass from a place on. -/
def countFrom (s : List Byte) : Nat → Place → Counted → Except Stop Counted
  | 0, _, _ => .error .running
  | fuel + 1, .loop i, c =>
    if i < s.length then do
      if ← opensGroup s i then countFrom s fuel (.group i) c
      else countFrom s fuel (.loop (u32 (i + 1))) (c.add i)
    else .ok c
  | fuel + 1, .group i, c => do
    let c := c.add i
    let j := u32 (i + 3)
    if ← continuesGroup s j then countFrom s fuel (.group j) c
    else countFrom s fuel (.loop (u32 (j + 1))) c

/-- The filling pass so far: `csidx`, the indices at which it was at a byte, the last one first,
and the bytes at `cs`. -/
structure Filled where
  csidx : Nat
  visited : List Nat
  cs : Memory

/-- A write to `cs[csidx]`, of `csStrlen` bytes, where there is one, and `csidx++`. -/
def Filled.put (csStrlen : Nat) (f : Filled) (i : Nat) (b : Option Byte) : Except Stop Filled :=
  match b with
  | none => .ok ⟨u32 (f.csidx + 1), i :: f.visited, f.cs⟩
  | some b =>
    if f.csidx < csStrlen then .ok ⟨u32 (f.csidx + 1), i :: f.visited, f.cs.writeBytes f.csidx [b]⟩
    else .error .outOfBounds

/-- The filling pass from a place on. -/
def fillFrom (s : List Byte) (csStrlen : Nat) : Nat → Place → Filled → Except Stop Filled
  | 0, _, _ => .error .running
  | fuel + 1, .loop i, f =>
    if i < s.length then do
      if ← opensGroup s i then fillFrom s csStrlen fuel (.group i) f
      else
        let c ← charAt s i
        let f ← f.put csStrlen i (some c)
        fillFrom s csStrlen fuel (.loop (u32 (i + 1))) f
    else .ok f
  | fuel + 1, .group i, f => do
    let j := u32 (i + 1)
    let t ← textFrom s j
    let f ← f.put csStrlen i (scanHexByte t)
    let j := u32 (j + 2)
    if ← continuesGroup s j then fillFrom s csStrlen fuel (.group j) f
    else fillFrom s csStrlen fuel (.loop (u32 (j + 1))) f

/-- The result: the `content_string` with its buffer, and what the passes did. -/
structure SnortString where
  s : Memory
  type : StringType
  strlen : Nat
  counted : List Nat
  csidx : Nat
  filled : List Nat

/-- `cs_get_from_snort_string`, with what `malloc` leaves in the buffer. -/
def csGetFromSnortString (fuel : Nat) (heap : Memory) (s : List Byte) : Except Stop SnortString := do
  let c ← countFrom s fuel (.loop 0) ⟨0, []⟩
  if c.csStrlen = 0 then .error .exited
  else
    let f ← fillFrom s c.csStrlen fuel (.loop 0) ⟨0, [], heap⟩
    return ⟨f.cs, .snortCs, c.csStrlen, c.visited, f.csidx, f.visited⟩

/-! ## The way through the text -/

/-- The index of a place. -/
def Place.index : Place → Nat
  | .loop i => i
  | .group i => i

/-- A group is entered at a character of the text. -/
def Place.Inside (s : List Byte) : Place → Prop
  | .loop _ => True
  | .group i => i < s.length

/-- Whether a group begins at `i`. -/
def opens (s : List Byte) (i : Nat) : Bool := textAt s i = bar ∧ (i = 0 ∨ textAt s (i - 1) ≠ backslash)

/-- Whether a group goes on at `i`. -/
def goesOn (s : List Byte) (i : Nat) : Bool := i < s.length ∧ textAt s i ≠ bar

/-- The next place of either pass, and the index and the byte that are taken up on the way. -/
def nextPlace (s : List Byte) : Place → Option (Option (Nat × Option Byte) × Place)
  | .loop i =>
    if i < s.length then
      some (if opens s i then (none, .group i) else (some (i, some (textAt s i)), .loop (u32 (i + 1))))
    else none
  | .group i =>
    some (some (i, scanHexByte (s.drop (u32 (i + 1)))),
      if goesOn s (u32 (i + 3)) then .group (u32 (i + 3)) else .loop (u32 (u32 (i + 3) + 1)))

section Passes

variable {s : List Byte} {i : Nat}

theorem u32_of_lt {n : Nat} (h : n < 2 ^ 32) : u32 n = n := Nat.mod_eq_of_lt h

theorem u32_lt (n : Nat) : u32 n < 2 ^ 32 := Nat.mod_lt _ (by decide)

theorem u32_le (n : Nat) : u32 n ≤ n := Nat.mod_le _ _

theorem u32_u32_add (n k : Nat) : u32 (u32 n + k) = u32 (n + k) := by simp [u32]

theorem opensGroup_eq (hi : i < s.length) : opensGroup s i = .ok (opens s i) := by
  have hread : charAt s i = .ok (textAt s i) := if_pos hi.le
  have hbefore : charAt s (i - 1) = .ok (textAt s (i - 1)) := if_pos (by omega)
  unfold opensGroup opens
  rw [hread, hbefore]
  simp only [bind, Except.bind, pure, Except.pure]
  split_ifs with hbar h0
  · subst h0
    simp [hbar]
  · simp [hbar, h0]
  · simp [hbar]

theorem continuesGroup_eq (s : List Byte) (i : Nat) : continuesGroup s i = .ok (goesOn s i) := by
  unfold continuesGroup goesOn
  by_cases hi : i < s.length
  · have hread : charAt s i = .ok (textAt s i) := if_pos hi.le
    rw [if_pos hi, hread]
    simp [hi, bind, Except.bind, pure, Except.pure]
  · simp [hi, pure, Except.pure]

variable {pl pl' : Place} {e : Nat × Option Byte}

theorem nextPlace_none (h : nextPlace s pl = none) : ∃ i, pl = .loop i ∧ s.length ≤ i := by
  cases pl with
  | loop i =>
    dsimp only [nextPlace] at h
    split_ifs at h with hi
    exact ⟨i, rfl, Nat.le_of_not_lt hi⟩
  | group i => cases h

theorem nextPlace_silent (h : nextPlace s pl = some (none, pl')) :
    ∃ i, pl = .loop i ∧ i < s.length ∧ opens s i ∧ pl' = .group i := by
  cases pl with
  | loop i =>
    dsimp only [nextPlace] at h
    split_ifs at h with hi ho
    · exact ⟨i, rfl, hi, ho, (Prod.mk.inj (Option.some.inj h)).2.symm⟩
    · cases (Prod.mk.inj (Option.some.inj h)).1
  | group i => cases (Prod.mk.inj (Option.some.inj h)).1

theorem nextPlace_emit (h : nextPlace s pl = some (some e, pl')) :
    (∃ i, pl = .loop i ∧ i < s.length ∧ opens s i = false ∧ e = (i, some (textAt s i)) ∧
      pl' = .loop (u32 (i + 1))) ∨
    ∃ i, pl = .group i ∧ e = (i, scanHexByte (s.drop (u32 (i + 1)))) ∧
      pl' = if goesOn s (u32 (i + 3)) then .group (u32 (i + 3)) else .loop (u32 (u32 (i + 3) + 1)) := by
  cases pl with
  | loop i =>
    dsimp only [nextPlace] at h
    split_ifs at h with hi ho
    · cases (Prod.mk.inj (Option.some.inj h)).1
    · obtain ⟨he, hpl⟩ := Prod.mk.inj (Option.some.inj h)
      exact .inl ⟨i, rfl, hi, Bool.eq_false_iff.2 ho, (Option.some.inj he).symm, hpl.symm⟩
  | group i =>
    obtain ⟨he, hpl⟩ := Prod.mk.inj (Option.some.inj h)
    exact .inr ⟨i, rfl, (Option.some.inj he).symm, hpl.symm⟩

theorem nextPlace_inside {e : Option (Nat × Option Byte)} (h : nextPlace s pl = some (e, pl')) : pl'.Inside s := by
  cases e with
  | none =>
    obtain ⟨i, -, hi, -, rfl⟩ := nextPlace_silent h
    exact hi
  | some e =>
    rcases nextPlace_emit h with ⟨i, -, -, -, -, rfl⟩ | ⟨i, -, -, rfl⟩
    · trivial
    · split
      · rename_i hg
        simp only [goesOn, Bool.decide_and, Bool.and_eq_true, decide_eq_true_eq] at hg
        exact hg.1
      · trivial

/-- The counting pass takes the way of `nextPlace`, and no count fails. -/
theorem countFrom_runs (s : List Byte) : Runs (nextPlace s) (Place.Inside s) (fun c e => .ok (c.add e.1)) Stop.running
    (countFrom s) where
  keeps _ hstep := nextPlace_inside hstep
  zero _ _ := rfl
  ends _ hend := by
    obtain ⟨i, rfl, hi⟩ := nextPlace_none hend
    exact if_neg (Nat.not_lt_of_le hi)
  silent _ hstep := by
    obtain ⟨i, rfl, hi, ho, rfl⟩ := nextPlace_silent hstep
    rw [countFrom, if_pos hi, opensGroup_eq hi, ho]
    rfl
  emit _ hstep := by
    rcases nextPlace_emit hstep with ⟨i, rfl, hi, ho, rfl, rfl⟩ | ⟨i, rfl, rfl, rfl⟩
    · rw [countFrom, if_pos hi, opensGroup_eq hi, ho]
      rfl
    · rw [countFrom, continuesGroup_eq]
      cases goesOn s (u32 (i + 3)) <;> rfl

/-- So does the filling pass. -/
theorem fillFrom_runs (s : List Byte) (csStrlen : Nat) : Runs (nextPlace s) (Place.Inside s)
    (fun f e => f.put csStrlen e.1 e.2) Stop.running (fillFrom s csStrlen) where
  keeps _ hstep := nextPlace_inside hstep
  zero _ _ := rfl
  ends _ hend := by
    obtain ⟨i, rfl, hi⟩ := nextPlace_none hend
    exact if_neg (Nat.not_lt_of_le hi)
  silent _ hstep := by
    obtain ⟨i, rfl, hi, ho, rfl⟩ := nextPlace_silent hstep
    rw [fillFrom, if_pos hi, opensGroup_eq hi, ho]
    rfl
  emit hinside hstep := by
    rcases nextPlace_emit hstep with ⟨i, rfl, hi, ho, rfl, rfl⟩ | ⟨i, rfl, rfl, rfl⟩
    · have hread : charAt s i = .ok (textAt s i) := if_pos hi.le
      rw [fillFrom, if_pos hi, opensGroup_eq hi, ho, hread]
      rfl
    · -- `&(s[i])` is at most at the NUL
      have hi : i < s.length := hinside
      have htext : textFrom s (u32 (i + 1)) = .ok (s.drop (u32 (i + 1))) := if_pos ((u32_le _).trans hi)
      rw [fillFrom]
      simp only [htext, continuesGroup_eq, u32_u32_add]
      cases goesOn s (u32 (i + 3)) <;> rfl

end Passes

end Dpi

end Embark
