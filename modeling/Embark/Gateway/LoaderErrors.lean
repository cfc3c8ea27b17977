/-
`MBArkFirewall::initialize` on files that are no rules. Neither the fields of a line nor the return
value of `read_line` is checked: a negative value is returned only where `FromFile::initialize`
returns one, and from the first buffer on the loop either runs into undefined behaviour or an
assertion, or ends with success, whatever its lines say and wherever its reads stop.
-/
import Embark.Gateway.RuleTrees

namespace Embark

/-- The loop over the characters finds one component for every tab. -/
theorem length_components (cur s : List Char) : (components cur s).length = s.count '\t' := by
  induction s generalizing cur with
  | nil => rfl
  | cons c s ih =>
    rw [components]
    split_ifs with hc
    · rw [List.length_cons, ih, hc, List.count_cons_self]
    · rw [ih, List.count_cons_of_ne hc]

/-- The file cannot be opened, is empty, or its first buffer cannot be read. -/
def RuleFile.StartFails (file : RuleFile) : Prop :=
  file.opened = false ∨ file.reads = [] ∨ ∃ reads, file.reads = .error :: reads

theorem RuleFile.start_eq_none_iff {file : RuleFile} : file.start = none ↔ file.StartFails := by
  obtain ⟨opened, reads⟩ := file
  unfold start StartFails
  cases opened with
  | false => simp
  | true =>
    cases reads with
    | nil => simp
    | cons r reads => cases r <;> simp

namespace MBArkFirewall

variable {queryIp : List Char → Option (BitVec 32)} {fw fw' : MBArkFirewall} {file : RuleFile}

/-- `initialize` neither aborts nor indexes `component[]` outside its six elements, and does not
report success: it returns a negative value. -/
def FailsCleanly (queryIp : List Char → Option (BitVec 32)) (fw : MBArkFirewall) (file : RuleFile) : Prop :=
  ∃ ret fw', fw.initializeFile queryIp file = some (ret, fw') ∧ ret < 0

/-- Every return value once the first buffer is read. -/
theorem initializeFile_ret (hstart : ¬ file.StartFails) {ret : Int}
    (h : fw.initializeFile queryIp file = some (ret, fw')) : ret = 0 := by
  unfold initializeFile at h
  cases hff : file.start with
  | none => exact absurd (RuleFile.start_eq_none_iff.1 hff) hstart
  | some ff =>
    rw [hff] at h
    simp only [Option.bind_eq_bind, Option.bind_eq_some_iff, Option.pure_def, Option.some.injEq, Prod.mk.injEq] at h
    obtain ⟨lines, -, fw₁, -, rfl, -⟩ := h
    rfl

/-- A line with more than six tabs is written behind the end of `component[]`. -/
theorem loadLine_eq_none_of_tabs {line : List Char} (h : 6 < line.count '\t') : fw.loadLine queryIp line = none := by
  unfold loadLine
  rw [if_pos (by rwa [length_components])]

/-- A length outside 0 to 32 fails the assertion of `make_prefix`. -/
theorem readPrefix_eq_none {component : List Char} {start n : Int}
    (hn : atoi (suffix component (findLeft component '/' + 1)) = some n) (h : n < 0 ∨ 32 < n) :
    readPrefix queryIp component start = none := by
  have hmask : makePrefix n = none := by
    unfold makePrefix
    rw [if_neg (by omega)]
  unfold readPrefix
  simp only [hn, hmask, Option.bind_eq_bind, Option.bind_some, Option.bind_none]

/-- What is read before an error is loaded, and the rest of the file is not missed. -/
theorem initializeFile_of_error {c : Char} {s : List Char} {reads : List ReadBuffer} :
    fw.initializeFile queryIp ⟨true, .chars c s :: .error :: reads⟩ =
      fw.initializeFile queryIp ⟨true, [.chars c s, .error]⟩ := by
  have hlines : ∀ (n : Nat) (b : Option (List Char)), FromFile.lines n ⟨b, .error :: reads⟩ =
      FromFile.lines n ⟨b, [.error]⟩ := by
    intro n
    induction n with
    | zero => exact fun _ => rfl
    | succ n ih =>
      intro b
      rw [FromFile.lines_succ, FromFile.lines_succ]
      cases b with
      | none => rfl
      | some b =>
        unfold FromFile.readLine
        cases hscan : scanLine b with
        | none => simp only [hscan, buildLine]
        | some p => simp only [hscan, ih]
  unfold initializeFile
  simp only [RuleFile.start, hlines, RuleFile.text]

/-- Loading fails cleanly exactly where it does not start. -/
theorem failsCleanly_iff : FailsCleanly queryIp fw file ↔ file.StartFails := by
  constructor
  · rintro ⟨ret, fw', h, hneg⟩
    by_contra hstart
    have := initializeFile_ret hstart h
    omega
  · intro hstart
    refine ⟨-1, fw, ?_, by decide⟩
    unfold initializeFile
    rw [RuleFile.start_eq_none_iff.2 hstart]

theorem not_wellFormedLine_nil : ¬ WellFormedLine [] := by
  rintro ⟨r, s, d, sp, dp, p, m, further, -, -, -, -, -, -, -, h⟩
  cases h

/-- A blank line: `initialize` reports success, and the addresses 0.0.0.0 and 255.255.255.255 are
boundaries that no rule denotes. -/
theorem blankLine_loads : ¬ WellFormedLine [] ∧
    ((({ RuleEncryptor.unloaded with v4 := true } : MBArkFirewall).initializeFile (fun _ => none) (ruleFile ['\n'])).map
      fun r => (r.1, r.2.srcAddrTreeV4.r.keys, r.2.srcPortTree.r.keys)) = some (0, [0, 0xffffffff], [0]) ∧
    ¬ FailsCleanly (fun _ => none) { RuleEncryptor.unloaded with v4 := true } (ruleFile ['\n']) := by
  refine ⟨not_wellFormedLine_nil, by decide, ?_⟩
  rintro ⟨ret, fw', h, hneg⟩
  have hstart : ¬ (ruleFile ['\n']).StartFails := by
    rintro (h | h | ⟨reads, h⟩) <;> cases h
  have := initializeFile_ret hstart h
  omega

end MBArkFirewall

end Embark
