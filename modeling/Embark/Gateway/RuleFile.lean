/-
`FromFile`, through which the loader reads its rules, and `MBArkFirewall::initialize` on a file. The
descriptor is given by what its `read_buffer` calls return; a file that `open` or the decompressing
pipe refuses has none. `read_line` looks for the end of a line in the buffer and goes on into the
next ones; `_pos` is unsigned, and where it is left outside the buffer the next call reads there,
which is `outside` here.
-/
import Embark.Gateway.RuleLine

namespace Embark

/-! ## Reading lines -/

/-- What one `read_buffer` call returns after the first: at least one character, or an error. Once
there are no more, it returns 0. -/
inductive ReadBuffer
  | chars (c : Char) (s : List Char)
  | error
deriving DecidableEq, Repr

/-- `FromFile`: the characters from `_pos` to `_len`, if `_pos` is no further than `_len`, and what
the descriptor has left. -/
structure FromFile where
  buffer : Option (List Char)
  reads : List ReadBuffer
deriving DecidableEq, Repr

/-- What `read_line` does: a line, a return value that is not positive, or a read outside the buffer. -/
inductive ReadLine
  | line (result : List Char) (file : FromFile)
  | stop (errcode : Int)
  | outside
deriving DecidableEq, Repr

/-- A line within the buffer, with its end, and what follows it. A carriage return at the end of the
buffer is left for the next one to decide. -/
def scanLine : List Char → Option (List Char × List Char)
  | [] => none
  | '\n' :: s => some (['\n'], s)
  | '\r' :: [] => none
  | '\r' :: '\n' :: s => some (['\r', '\n'], s)
  | '\r' :: c :: s => some (['\r'], c :: s)
  | c :: s => (scanLine s).map fun (l, rest) => (c :: l, rest)

/-- Where the position ends up behind a line that ends with the buffer's last carriage return:
`read_buffer` has subtracted the length of the line from it, so that it only stays within the buffer
if that length was one and a line feed has moved it back to the start. -/
def afterReturn (sa s : List Char) : Option (List Char) :=
  match sa, s with
  | [_], '\n' :: _ => some s
  | _, _ => none

/-- "otherwise, build up a line": `sa` holds its characters so far. -/
def buildLine (sa : List Char) : List ReadBuffer → ReadLine
  | [] =>
    if sa = [] then .stop 0
    else if sa.getLast? = some '\r' then .line sa ⟨none, []⟩
    else .line sa ⟨some [], []⟩
  | .error :: _ => .stop (-1)
  | .chars c s :: reads =>
    if sa.getLast? = some '\r' then
      .line (if c = '\n' then sa ++ ['\n'] else sa) ⟨afterReturn sa (c :: s), reads⟩
    else match scanLine (c :: s) with
      | some (l, rest) => .line (sa ++ l) ⟨some rest, reads⟩
      | none => buildLine (sa ++ c :: s) reads

/-- `read_line`. -/
def FromFile.readLine (file : FromFile) : ReadLine :=
  match file.buffer with
  | none => .outside
  | some s =>
    match scanLine s with
    | some (l, rest) => .line l ⟨some rest, file.reads⟩
    | none => buildLine s file.reads

/-- The lines that `while (ff_.read_line(line, errh) > 0)` goes through. Every line takes at least one
character, so that as many rounds as there are characters suffice. -/
def FromFile.lines : Nat → FromFile → Option (List (List Char))
  | 0, _ => some []
  | fuel + 1, file =>
    match file.readLine with
    | .line l file => (FromFile.lines fuel file).map (l :: ·)
    | .stop _ => some []
    | .outside => none

theorem FromFile.lines_succ (n : Nat) (file : FromFile) : file.lines (n + 1) =
    match file.readLine with
    | .line l file => (FromFile.lines n file).map (l :: ·)
    | .stop _ => some []
    | .outside => none := rfl

/-! ## The element -/

/-- A file: whether it can be opened, and what its reads return. -/
structure RuleFile where
  opened : Bool
  reads : List ReadBuffer
deriving DecidableEq, Repr

namespace RuleFile

/-- The characters the reads return, up to the first error. -/
def text : List ReadBuffer → List Char
  | .chars c s :: reads => c :: s ++ text reads
  | _ => []

/-- `FromFile::initialize`: the first buffer is read. Its errors and the empty file are negative
return values, here `none`. -/
def start (file : RuleFile) : Option FromFile :=
  match file.opened, file.reads with
  | true, .chars c s :: reads => some ⟨some (c :: s), reads⟩
  | _, _ => none

end RuleFile

/-- `initialize`: the return value and the element after it; aborts and undefined behaviour are
`none`. -/
def MBArkFirewall.initializeFile (queryIp : List Char → Option (BitVec 32)) (fw : MBArkFirewall) (file : RuleFile) :
    Option (Int × MBArkFirewall) :=
  match file.start with
  | none => some (-1, fw)
  | some ff => do
    -- the loop also ends where `read_line` returns an error
    let lines ← ff.lines ((RuleFile.text file.reads).length + 1)
    return (0, ← fw.initializeFrom queryIp lines)

/-! ## Lines without carriage returns -/

section Plain

variable {l s : List Char}

theorem scanLine_append (hl : '\n' ∉ l ∧ '\r' ∉ l) : scanLine (l ++ '\n' :: s) = some (l ++ ['\n'], s) := by
  induction l with
  | nil => rfl
  | cons c l ih =>
    simp only [List.mem_cons, not_or] at hl
    obtain ⟨⟨hnl, hl₁⟩, hcr, hl₂⟩ := hl
    rw [List.cons_append, scanLine, ih ⟨hl₁, hl₂⟩]
    · rfl
    all_goals
      intros
      simp_all

theorem scanLine_none (hs : '\n' ∉ s ∧ '\r' ∉ s) : scanLine s = none := by
  induction s with
  | nil => rfl
  | cons c s ih =>
    simp only [List.mem_cons, not_or] at hs
    obtain ⟨⟨hnl, hs₁⟩, hcr, hs₂⟩ := hs
    rw [scanLine, ih ⟨hs₁, hs₂⟩]
    · rfl
    all_goals
      intros
      simp_all

end Plain

/-! ## Lines across buffers -/

/-- The characters a file still has. -/
def FromFile.remaining (file : FromFile) : List Char := file.buffer.getD [] ++ RuleFile.text file.reads

/-- A file whose position is in its buffer, whose reads succeed and whose rest is `s`. -/
structure FromFile.Reads (file : FromFile) (s : List Char) : Prop where
  inside : file.buffer.isSome
  succeed : ReadBuffer.error ∉ file.reads
  remaining_eq : file.remaining = s

section Buffers

variable {l s sa rest : List Char} {reads : List ReadBuffer}

/-- A line feed in two parts of a text is in the first, or the first is all before it. -/
theorem append_eq_line {a b : List Char} (h : a ++ b = l ++ '\n' :: rest) :
    (∃ t, a = l ++ '\n' :: t ∧ rest = t ++ b) ∨ ∃ t, l = a ++ t ∧ b = t ++ '\n' :: rest := by
  rcases List.append_eq_append_iff.1 h with ⟨t, rfl, hb⟩ | ⟨t, rfl, ht⟩
  · exact .inr ⟨t, rfl, hb⟩
  · cases t with
    | nil => exact .inr ⟨[], by simp, ht.symm⟩
    | cons c t =>
      obtain ⟨rfl, rfl⟩ := List.cons.inj ht
      exact .inl ⟨t, rfl, rfl⟩

theorem getLast?_ne_return (h : '\r' ∉ sa) : sa.getLast? ≠ some '\r' := fun he => h (List.mem_of_getLast? he)

/-- The line that `sa` starts ends in one of the next buffers. -/
theorem buildLine_line (hsa : '\r' ∉ sa) (hl : '\n' ∉ l ∧ '\r' ∉ l) (hreads : ReadBuffer.error ∉ reads)
    (htext : RuleFile.text reads = l ++ '\n' :: rest) :
    ∃ file, buildLine sa reads = .line (sa ++ l ++ ['\n']) file ∧ file.Reads rest := by
  induction reads generalizing sa l with
  | nil => simp [RuleFile.text] at htext
  | cons r reads ih =>
    rw [List.mem_cons, not_or] at hreads
    cases r with
    | error => exact absurd rfl hreads.1
    | chars c s =>
      rw [buildLine, if_neg (getLast?_ne_return hsa)]
      rcases append_eq_line htext with ⟨t, ht, rfl⟩ | ⟨t, rfl, ht⟩
      · rw [ht, scanLine_append hl]
        exact ⟨⟨some t, reads⟩, by simp, rfl, hreads.2, rfl⟩
      · simp only [List.mem_append, not_or] at hl
        rw [scanLine_none ⟨hl.1.1, hl.2.1⟩]
        have hsa' : '\r' ∉ sa ++ c :: s := by
          rw [List.mem_append, not_or]
          exact ⟨hsa, hl.2.1⟩
        obtain ⟨file, hfile, hr⟩ := ih hsa' ⟨hl.1.2, hl.2.2⟩ hreads.2 ht
        exact ⟨file, by simp only [hfile, List.append_assoc], hr⟩

/-- The file ends without the end of the line. -/
theorem buildLine_last (hsa : '\r' ∉ sa ++ l) (hl : '\n' ∉ l) (hne : sa ++ l ≠ [])
    (hreads : ReadBuffer.error ∉ reads) (htext : RuleFile.text reads = l) :
    ∃ file, buildLine sa reads = .line (sa ++ l) file ∧ file.Reads [] := by
  induction reads generalizing sa l with
  | nil =>
    obtain rfl : [] = l := htext
    rw [List.append_nil] at hsa hne ⊢
    rw [buildLine, if_neg hne, if_neg (getLast?_ne_return hsa)]
    exact ⟨_, rfl, rfl, List.not_mem_nil, rfl⟩
  | cons r reads ih =>
    rw [List.mem_cons, not_or] at hreads
    cases r with
    | error => exact absurd rfl hreads.1
    | chars c s =>
      obtain rfl : (c :: s) ++ RuleFile.text reads = l := htext
      have hsa' := hsa
      rw [← List.append_assoc] at hsa' hne
      simp only [List.mem_append, not_or] at hsa hl
      rw [buildLine, if_neg (getLast?_ne_return hsa.1), scanLine_none ⟨hl.1, hsa.2.1⟩]
      obtain ⟨file, hfile, hr⟩ := ih hsa' hl.2 hne hreads.2 rfl
      exact ⟨file, by simp only [hfile, List.append_assoc], hr⟩

namespace FromFile.Reads

variable {file : FromFile}

/-- `read_line` on a line that ends. -/
theorem readLine (h : file.Reads (l ++ '\n' :: rest)) (hl : '\n' ∉ l ∧ '\r' ∉ l) :
    ∃ file', file.readLine = .line (l ++ ['\n']) file' ∧ file'.Reads rest := by
  obtain ⟨b, hb⟩ := Option.isSome_iff_exists.1 h.inside
  have htext : b ++ RuleFile.text file.reads = l ++ '\n' :: rest := by
    have hrest := h.remaining_eq
    rwa [FromFile.remaining, hb] at hrest
  unfold FromFile.readLine
  rw [hb]
  rcases append_eq_line htext with ⟨t, rfl, rfl⟩ | ⟨t, rfl, ht⟩
  · simp only [scanLine_append hl]
    exact ⟨_, rfl, rfl, h.succeed, rfl⟩
  · simp only [List.mem_append, not_or] at hl
    simp only [scanLine_none (s := b) ⟨hl.1.1, hl.2.1⟩]
    exact buildLine_line hl.2.1 ⟨hl.1.2, hl.2.2⟩ h.succeed ht

/-- `read_line` on a last line without an end. -/
theorem readLine_last (h : file.Reads l) (hl : '\n' ∉ l ∧ '\r' ∉ l) (hne : l ≠ []) :
    ∃ file', file.readLine = .line l file' ∧ file'.Reads [] := by
  obtain ⟨b, hb⟩ := Option.isSome_iff_exists.1 h.inside
  obtain rfl : b ++ RuleFile.text file.reads = l := by
    have hrest := h.remaining_eq
    rwa [FromFile.remaining, hb] at hrest
  unfold FromFile.readLine
  rw [hb]
  have hcr := hl.2
  simp only [List.mem_append, not_or] at hl
  simp only [scanLine_none (s := b) ⟨hl.1.1, hl.2.1⟩]
  exact buildLine_last hcr hl.1.2 hne h.succeed rfl

/-- `read_line` at the end of the file. -/
theorem readLine_end (h : file.Reads []) : file.readLine = .stop 0 := by
  obtain ⟨b, hb⟩ := Option.isSome_iff_exists.1 h.inside
  have hrest := h.remaining_eq
  rw [FromFile.remaining, hb, List.append_eq_nil_iff] at hrest
  obtain ⟨hb', htext⟩ := hrest
  obtain rfl : b = [] := hb'
  have hreads : file.reads = [] := by
    cases hr : file.reads with
    | nil => rfl
    | cons r reads =>
      have hok := h.succeed
      rw [hr] at htext hok
      cases r with
      | error => simp at hok
      | chars c s => simp [RuleFile.text] at htext
  unfold FromFile.readLine
  rw [hb, hreads]
  rfl

/-- The lines of a text, each with its line feed. The last may lack it. -/
theorem lines {ls : List (List Char)} (last : List Char) {fuel : Nat} (hls : ∀ l ∈ ls, '\n' ∉ l ∧ '\r' ∉ l)
    (hlast : '\n' ∉ last ∧ '\r' ∉ last) (hfuel : ls.length + 1 ≤ fuel)
    (h : file.Reads (ls.flatMap (· ++ ['\n']) ++ last)) :
    file.lines fuel = some (ls.map (· ++ ['\n']) ++ if last = [] then [] else [last]) := by
  induction ls generalizing file fuel with
  | nil =>
    rw [List.length_nil, Nat.zero_add] at hfuel
    obtain ⟨fuel, rfl⟩ := Nat.exists_eq_add_of_le' hfuel
    rw [List.flatMap_nil, List.nil_append] at h
    rw [FromFile.lines_succ]
    by_cases hne : last = []
    · rw [hne] at h ⊢
      rw [h.readLine_end]
      rfl
    · obtain ⟨file', hline, hend⟩ := h.readLine_last hlast hne
      rw [hline, if_neg hne]
      simp only
      cases fuel with
      | zero => rfl
      | succ fuel =>
        rw [FromFile.lines_succ, hend.readLine_end]
        rfl
  | cons l ls ih =>
    rw [List.length_cons] at hfuel
    obtain ⟨fuel, rfl⟩ := Nat.exists_eq_add_of_le' (show 1 ≤ fuel by omega)
    rw [List.flatMap_cons, List.append_assoc, List.append_assoc, List.singleton_append] at h
    obtain ⟨file', hline, hrest⟩ := h.readLine (hls l (List.mem_cons_self ..))
    rw [FromFile.lines_succ, hline]
    simp only
    rw [ih (fun l hl => hls l (List.mem_cons_of_mem _ hl)) (by omega) hrest]
    rfl

end FromFile.Reads

end Buffers

end Embark
