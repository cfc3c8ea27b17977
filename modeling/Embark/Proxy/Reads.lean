/-
`parse_http_req` with its reads checked: a read outside the packet's data, a failing assertion and
an append that starts at the null pointer are `none`. It gets through exactly the payloads that
`RequestSafe` describes, and then finds a url of the length `UrlLength` describes.
-/
import Embark.Proxy.Request

namespace Embark

/-- A read of the packet's data. -/
def Packet.read (p : Packet) (a : Nat) : Option Byte := if a < p.length then some (p.data a) else none

theorem Packet.read_of_lt {p : Packet} {a : Nat} (h : a < p.length) : p.read a = some (p.data a) := if_pos h

theorem Packet.read_of_le {p : Packet} {a : Nat} (h : p.length ≤ a) : p.read a = none := if_neg (by omega)

namespace MBArkProxy

/-! ## The parser with checked reads -/

/-- `strncmp(s, t, n) == 0`, which reads up to the first character that differs. -/
def startsWithChecked (p : Packet) : Nat → List Byte → Option Bool
  | _, [] => some true
  | s, c :: t => (p.read s).bind fun b => if b = c then startsWithChecked p (s + 1) t else some false

/-- `findSpace` with checked reads. -/
def findSpaceChecked (p : Packet) : Nat → Nat → Option Nat
  | 0, q => some q
  | n + 1, q => (p.read q).bind fun b => if b = 0x20 then some q else findSpaceChecked p n (q + 1)

/-- `scanHeaders` with checked reads. -/
def scanHeadersChecked (p : Packet) (e : Nat) :
    Nat → Nat → HeaderState → Option Nat → Option (Option (Option Nat × Nat))
  | 0, _, _, _ => some none
  | n + 1, s, state, urlStart =>
    if s < e then
      match state with
      | .host => (startsWithChecked p s hostLit).bind fun found =>
          if found then scanHeadersChecked p e n (s + 6) .value (some (s + 6))
          else scanHeadersChecked p e n (s + 6) .line urlStart
      | .value => (p.read s).bind fun b =>
          scanHeadersChecked p e n (s + 1) (if b = 0x0d then .valueEnd else .value) urlStart
      | .line => (p.read s).bind fun b =>
          if b = 0x0a then some (some (urlStart, s - 1))
          else scanHeadersChecked p e n (s + 1) (if b = 0x0d then .lineEnd else .line) urlStart
      | .valueEnd => (p.read s).bind fun b =>
          if b = 0x0a then some (some (urlStart, s - 1)) else scanHeadersChecked p e n (s + 1) .valueEnd urlStart
      | .lineEnd => (p.read s).bind fun b =>
          scanHeadersChecked p e n (s + 1) (if b = 0x0a then .host else .lineEnd) urlStart
    else some none

/-- The result of the parser once the scan is done: the url is the value and the target, whose
characters have been read before they are appended. -/
def urlOf (p : Packet) (target : List Byte) : Option (Option Nat × Nat) → Option (Option (List Byte))
  | none => some none
  | some (none, _) => none
  | some (some urlStart, urlEnd) => some (some (p.data.slice urlStart (urlEnd - urlStart) ++ target))

/-- `parse_http_req` with checked reads. -/
def parseHttpReqChecked (p : Packet) (data len : Nat) : Option (Option (List Byte)) :=
  (startsWithChecked p data getLit).bind fun get =>
    if get then
      let e := data + len
      (findSpaceChecked p (e - (data + 4)) (data + 4)).bind fun q =>
        if q = e then some none
        else if data + 4 < q then
          let target := p.data.slice (data + 4) (q - (data + 4))
          (p.read (data + 4)).bind fun b =>
            if b = 0x2f then (scanHeadersChecked p e len data .host none).bind (urlOf p target)
            else some (some target)
        else none
    else some none

/-! ## What is read -/

section Conditions

variable (p : Packet)

/-- As long as the characters from `s` on agree with the literal, the next one lies in the packet. -/
def Compared (s : Nat) (t : List Byte) : Prop := ∀ j < t.length, p.data.slice s j = t.take j → s + j < p.length

/-- The first place from `a` on and before `e` with a character of the set. -/
def First (P : Byte → Prop) (a e x : Nat) : Prop :=
  a ≤ x ∧ x < e ∧ P (p.data x) ∧ ∀ i, a ≤ i → i < x → ¬P (p.data i)

/-- Every place from `a` on and before `e`, up to the first with a character of the set, lies in
the packet. -/
def Inside (P : Byte → Prop) (a e : Nat) : Prop :=
  ∀ x, a ≤ x → x < e → (∀ i, a ≤ i → i < x → ¬P (p.data i)) → x < p.length

/-- CR or LF. -/
def LineEnd (b : Byte) : Prop := b = 0x0d ∨ b = 0x0a

/-- The places where a scan that starts at `data` looks for the Host header: the first, and behind
the line feed that follows the first CR of a line without that header, six characters from its
start or later. -/
inductive LooksAt (data e : Nat) : Nat → Prop
  | start : LooksAt data e data
  | next {s c x : Nat} : LooksAt data e s → s < e → startsWith p.data s hostLit = false →
      First p LineEnd (s + 6) e c → p.data c = 0x0d → First p (· = 0x0a) (c + 1) e x → LooksAt data e (x + 1)

/-- The header scan stays in the packet, and in no line it passes over a line feed comes first. -/
structure ScanSafe (data e : Nat) : Prop where
  compared : ∀ s, LooksAt p data e s → s < e → Compared p s hostLit
  line : ∀ s, LooksAt p data e s → s < e → startsWith p.data s hostLit = false →
    Inside p LineEnd (s + 6) e ∧
      ∀ c, First p LineEnd (s + 6) e c → p.data c ≠ 0x0a ∧ Inside p (· = 0x0a) (c + 1) e
  value : ∀ s, LooksAt p data e s → s < e → startsWith p.data s hostLit = true →
    Inside p (· = 0x0d) (s + 6) e ∧ ∀ c, First p (· = 0x0d) (s + 6) e c → Inside p (· = 0x0a) (c + 1) e

/-- The parser gets through `len` characters at `data`. -/
structure RequestSafe (data len : Nat) : Prop where
  get : Compared p data getLit
  target : startsWith p.data data getLit → 4 ≤ len ∧ Inside p (· = 0x20) (data + 4) (data + len) ∧
    (4 < len → p.data (data + 4) ≠ 0x20)
  headers : startsWith p.data data getLit → (∃ q, First p (· = 0x20) (data + 4) (data + len) q) →
    p.data (data + 4) = 0x2f → ScanSafe p data (data + len)

/-- The length of the url in `len` characters at `data`: that of the target, and for a target that
starts with a slash that of the value of the Host header the scan looks at. -/
def UrlLength (data len k : Nat) : Prop :=
  startsWith p.data data getLit ∧ ∃ q, First p (· = 0x20) (data + 4) (data + len) q ∧
    (p.data (data + 4) ≠ 0x2f ∧ k = q - (data + 4) ∨
      p.data (data + 4) = 0x2f ∧ ∃ s c x, LooksAt p data (data + len) s ∧ s < data + len ∧
        startsWith p.data s hostLit ∧ First p (· = 0x0d) (s + 6) (data + len) c ∧
        First p (· = 0x0a) (c + 1) (data + len) x ∧ k = x - 1 - (s + 6) + (q - (data + 4)))

end Conditions

section Reads

variable {p : Packet}

theorem First.unique {P : Byte → Prop} {a e x y : Nat} (hx : First p P a e x) (hy : First p P a e y) : x = y := by
  obtain ⟨hax, -, hPx, hbx⟩ := hx
  obtain ⟨hay, -, hPy, hby⟩ := hy
  rcases Nat.lt_trichotomy x y with h | h | h
  · exact absurd hPx (hby x hax h)
  · exact h
  · exact absurd hPy (hbx y hay h)

/-- Comparing reads up to the first difference. -/
theorem startsWithChecked_eq : ∀ (t : List Byte) (s : Nat),
    (Compared p s t → startsWithChecked p s t = some (startsWith p.data s t)) ∧
      (¬Compared p s t → startsWithChecked p s t = none)
  | [], s => ⟨fun _ => by simp [startsWithChecked, startsWith, Memory.slice],
    fun h => absurd (fun j hj => by simp at hj) h⟩
  | c :: t, s => by
    obtain ⟨htrue, hfalse⟩ := startsWithChecked_eq t (s + 1)
    have hcons : Compared p s (c :: t) ↔ s < p.length ∧ (p.data s = c → Compared p (s + 1) t) := by
      constructor
      · intro h
        refine ⟨h 0 (by simp) rfl, fun hc j hj hslice => ?_⟩
        have := h (j + 1) (by simpa using hj) (by rw [Memory.slice_succ, hc, hslice, List.take_succ_cons])
        omega
      · rintro ⟨hs, h⟩ j hj hslice
        cases j with
        | zero => exact hs
        | succ j =>
          rw [Memory.slice_succ, List.take_succ_cons, List.cons.injEq] at hslice
          have := h hslice.1 j (by simpa using hj) hslice.2
          omega
    have hstart : startsWith p.data s (c :: t) = (p.data s == c && startsWith p.data (s + 1) t) := by
      unfold startsWith
      rw [List.length_cons, Memory.slice_succ, List.cons_beq_cons]
    rw [hcons, hstart, startsWithChecked]
    by_cases hs : s < p.length
    · rw [Packet.read_of_lt hs, Option.bind_some]
      by_cases hc : p.data s = c
      · rw [if_pos hc, beq_iff_eq.2 hc, Bool.true_and]
        exact ⟨fun h => htrue (h.2 hc), fun h => hfalse fun h' => h ⟨hs, fun _ => h'⟩⟩
      · rw [if_neg hc, beq_false_of_ne hc, Bool.false_and]
        exact ⟨fun _ => rfl, fun h => absurd ⟨hs, fun h' => absurd h' hc⟩ h⟩
    · rw [Packet.read_of_le (by omega), Option.bind_none]
      exact ⟨fun h => absurd h.1 hs, fun _ => rfl⟩

/-! ## Searching -/

section Search

variable {P : Byte → Prop} {a e x : Nat}

theorem inside_succ (hP : ¬P (p.data a)) : Inside p P a e ↔ (a < e → a < p.length) ∧ Inside p P (a + 1) e := by
  constructor
  · intro h
    refine ⟨fun hae => h a le_rfl hae fun i h1 h2 => by omega, fun x hx hxe hbefore => h x (by omega) hxe ?_⟩
    intro i h1 h2
    rcases Nat.eq_or_lt_of_le h1 with rfl | h1
    · exact hP
    · exact hbefore i h1 h2
  · rintro ⟨ha, h⟩ x hx hxe hbefore
    rcases Nat.eq_or_lt_of_le hx with rfl | hx
    · exact ha hxe
    · exact h x hx hxe fun i h1 h2 => hbefore i (by omega) h2

theorem first_succ (hP : ¬P (p.data a)) : First p P a e x ↔ First p P (a + 1) e x := by
  constructor
  · rintro ⟨hax, hxe, hPx, hbefore⟩
    have hne : a ≠ x := fun h => hP (h ▸ hPx)
    exact ⟨by omega, hxe, hPx, fun i h1 h2 => hbefore i (by omega) h2⟩
  · rintro ⟨hax, hxe, hPx, hbefore⟩
    refine ⟨by omega, hxe, hPx, fun i h1 h2 => ?_⟩
    rcases Nat.eq_or_lt_of_le h1 with rfl | h1
    · exact hP
    · exact hbefore i h1 h2

theorem first_self (hae : a < e) (hP : P (p.data a)) : First p P a e a := ⟨le_rfl, hae, hP, fun i h1 h2 => by omega⟩

/-- A loop `f` that reads up to the first character of a set: it fails when it leaves the packet,
goes on as `found` from where it finds one, and ends with `missing` otherwise. -/
structure Searches {α : Type} (p : Packet) (P : Byte → Prop) (e : Nat) (f found : Nat → Option α) (missing : α)
    (a : Nat) : Prop where
  outside : ¬Inside p P a e → f a = none
  hit : Inside p P a e → ∀ x, First p P a e x → f a = found x
  miss : Inside p P a e → (∀ x, ¬First p P a e x) → f a = some missing

theorem search {α : Type} {f found : Nat → Option α} {missing : α}
    (hend : ∀ s, e ≤ s → f s = some missing) (hout : ∀ s < e, p.length ≤ s → f s = none)
    (hfound : ∀ s < e, s < p.length → P (p.data s) → f s = found s)
    (hnext : ∀ s < e, s < p.length → ¬P (p.data s) → f s = f (s + 1)) (a : Nat) :
    Searches p P e f found missing a := by
  induction hk : e - a generalizing a with
  | zero =>
    refine ⟨fun h => absurd (fun x h1 h2 => by omega) h, fun _ x hx => ?_, fun _ _ => hend a (by omega)⟩
    have := hx.1
    have := hx.2.1
    omega
  | succ k ih =>
    have hae : a < e := by omega
    by_cases ha : a < p.length
    · by_cases hP : P (p.data a)
      · refine ⟨fun h => absurd (fun x hx hxe hbefore => ?_) h, fun _ x hx => ?_, fun _ h => ?_⟩
        · -- the search stops at `a`
          have hxa : x = a := by
            by_contra hne
            exact hbefore a le_rfl (by omega) hP
          rwa [hxa]
        · rw [hx.unique (first_self hae hP)]
          exact hfound a hae ha hP
        · exact absurd (first_self hae hP) (h a)
      · have ih := ih (a + 1) (by omega)
        refine ⟨fun h => ?_, fun h x hx => ?_, fun h hno => ?_⟩ <;> rw [hnext a hae ha hP]
        · exact ih.outside fun h' => h ((inside_succ hP).2 ⟨fun _ => ha, h'⟩)
        · exact ih.hit ((inside_succ hP).1 h).2 x ((first_succ hP).1 hx)
        · exact ih.miss ((inside_succ hP).1 h).2 fun x hx => hno x ((first_succ hP).2 hx)
    · have hno : ¬Inside p P a e := fun h => ha (h a le_rfl hae fun i h1 h2 => by omega)
      exact ⟨fun _ => hout a hae (by omega), fun h => absurd h hno, fun h => absurd h hno⟩

end Search

/-! ## The header scan -/

section Scan

variable {e s n : Nat} {u : Option Nat}

theorem scanHeadersChecked_end {state : HeaderState} (h : e ≤ s) :
    scanHeadersChecked p e n s state u = some none := by
  cases n with
  | zero => rfl
  | succ n => cases state <;> simp only [scanHeadersChecked, if_neg (Nat.not_lt.2 h)]

theorem scanHeadersChecked_enough : ∀ {n k s : Nat} {state : HeaderState} {u : Option Nat}, e - s ≤ n →
    e - s ≤ k → scanHeadersChecked p e n s state u = scanHeadersChecked p e k s state u
  | 0, _, _, _, _, hn, _ => by rw [scanHeadersChecked_end (by omega), scanHeadersChecked_end (by omega)]
  | _ + 1, 0, _, _, _, _, hk => by rw [scanHeadersChecked_end (by omega), scanHeadersChecked_end (by omega)]
  | n + 1, k + 1, s, state, u, hn, hk => by
    have hstep : ∀ (j : Nat) (state : HeaderState) (u : Option Nat), 0 < j →
        scanHeadersChecked p e n (s + j) state u = scanHeadersChecked p e k (s + j) state u :=
      fun j _ _ hj => scanHeadersChecked_enough (by omega) (by omega)
    cases state <;> simp only [scanHeadersChecked, hstep 6 _ _ (by decide), hstep 1 _ _ (by decide)]

/-- The checked scan from `s` on, with as many rounds as are left. -/
def scanChecked (p : Packet) (e s : Nat) (state : HeaderState) (u : Option Nat) : Option (Option (Option Nat × Nat)) :=
  scanHeadersChecked p e (e - s) s state u

theorem scanChecked_end {state : HeaderState} (h : e ≤ s) : scanChecked p e s state u = some none :=
  scanHeadersChecked_end h

theorem scanHeadersChecked_eq {state : HeaderState} (h : e - s ≤ n) :
    scanHeadersChecked p e n s state u = scanChecked p e s state u := scanHeadersChecked_enough h le_rfl

theorem scanChecked_step {state : HeaderState} (h : s < e) :
    scanChecked p e s state u = scanHeadersChecked p e (e - s - 1 + 1) s state u := by
  rw [scanChecked, Nat.sub_add_cancel (by omega)]

theorem scanChecked_host (h : s < e) : scanChecked p e s .host u = (startsWithChecked p s hostLit).bind fun found =>
    if found then scanChecked p e (s + 6) .value (some (s + 6)) else scanChecked p e (s + 6) .line u := by
  rw [scanChecked_step h, scanHeadersChecked, if_pos h]
  simp only [scanHeadersChecked_eq (show e - (s + 6) ≤ e - s - 1 by omega)]

theorem scanChecked_out {state : HeaderState} (h : s < e) (hs : p.length ≤ s) (hstate : state ≠ .host) :
    scanChecked p e s state u = none := by
  rw [scanChecked_step h]
  cases state
  · exact absurd rfl hstate
  all_goals simp only [scanHeadersChecked, if_pos h, Packet.read_of_le hs, Option.bind_none]

theorem scanChecked_value (h : s < e) (hs : s < p.length) :
    scanChecked p e s .value u = scanChecked p e (s + 1) (if p.data s = 0x0d then .valueEnd else .value) u := by
  rw [scanChecked_step h, scanHeadersChecked, if_pos h, Packet.read_of_lt hs, Option.bind_some]
  simp only [scanHeadersChecked_eq (show e - (s + 1) ≤ e - s - 1 by omega)]

theorem scanChecked_line (h : s < e) (hs : s < p.length) : scanChecked p e s .line u =
    if p.data s = 0x0a then some (some (u, s - 1))
    else scanChecked p e (s + 1) (if p.data s = 0x0d then .lineEnd else .line) u := by
  rw [scanChecked_step h, scanHeadersChecked, if_pos h, Packet.read_of_lt hs, Option.bind_some]
  simp only [scanHeadersChecked_eq (show e - (s + 1) ≤ e - s - 1 by omega)]

theorem scanChecked_valueEnd (h : s < e) (hs : s < p.length) : scanChecked p e s .valueEnd u =
    if p.data s = 0x0a then some (some (u, s - 1)) else scanChecked p e (s + 1) .valueEnd u := by
  rw [scanChecked_step h, scanHeadersChecked, if_pos h, Packet.read_of_lt hs, Option.bind_some]
  simp only [scanHeadersChecked_eq (show e - (s + 1) ≤ e - s - 1 by omega)]

theorem scanChecked_lineEnd (h : s < e) (hs : s < p.length) :
    scanChecked p e s .lineEnd u = scanChecked p e (s + 1) (if p.data s = 0x0a then .host else .lineEnd) u := by
  rw [scanChecked_step h, scanHeadersChecked, if_pos h, Packet.read_of_lt hs, Option.bind_some]
  simp only [scanHeadersChecked_eq (show e - (s + 1) ≤ e - s - 1 by omega)]

/-- State 1 searches for CR. -/
theorem search_value (u : Option Nat) (e a : Nat) : Searches p (· = 0x0d) e (scanChecked p e · .value u)
    (fun s => scanChecked p e (s + 1) .valueEnd u) none a :=
  search (fun s h => scanChecked_end h) (fun s h hs => scanChecked_out h hs (by decide))
    (fun s h hs hP => by rw [scanChecked_value h hs, if_pos hP])
    (fun s h hs hP => by rw [scanChecked_value h hs, if_neg hP]) a

/-- State 3 searches for LF. -/
theorem search_valueEnd (u : Option Nat) (e a : Nat) : Searches p (· = 0x0a) e (scanChecked p e · .valueEnd u)
    (fun s => some (some (u, s - 1))) none a :=
  search (fun s h => scanChecked_end h) (fun s h hs => scanChecked_out h hs (by decide))
    (fun s h hs hP => by rw [scanChecked_valueEnd h hs, if_pos hP])
    (fun s h hs hP => by rw [scanChecked_valueEnd h hs, if_neg hP]) a

/-- State 2 searches for either. -/
theorem search_line (u : Option Nat) (e a : Nat) : Searches p LineEnd e (scanChecked p e · .line u)
    (fun s => if p.data s = 0x0a then some (some (u, s - 1)) else scanChecked p e (s + 1) .lineEnd u) none a := by
  refine search (fun s h => scanChecked_end h) (fun s h hs => scanChecked_out h hs (by decide))
    (fun s h hs hP => ?_) (fun s h hs hP => ?_) a
  · rw [scanChecked_line h hs]
    rcases hP with hP | hP
    · rw [hP, if_pos rfl]
    · rw [if_pos hP, if_pos hP]
  · rw [scanChecked_line h hs, if_neg fun h => hP (.inr h), if_neg fun h => hP (.inl h)]

/-- State 4 searches for LF. -/
theorem search_lineEnd (u : Option Nat) (e a : Nat) : Searches p (· = 0x0a) e (scanChecked p e · .lineEnd u)
    (fun s => scanChecked p e (s + 1) .host u) none a :=
  search (fun s h => scanChecked_end h) (fun s h hs => scanChecked_out h hs (by decide))
    (fun s h hs hP => by rw [scanChecked_lineEnd h hs, if_pos hP])
    (fun s h hs hP => by rw [scanChecked_lineEnd h hs, if_neg hP]) a

/-- The result of a scan that the parser can use: no read outside, and no null pointer. -/
def Fine (r : Option (Option (Option Nat × Nat))) : Prop := r ≠ none ∧ ∀ y, r ≠ some (some (none, y))

/-- A look at a Host header. -/
theorem scan_hostLine {v : Nat} (hs : s < e) (hcmp : Compared p s hostLit) (hstart : startsWith p.data s hostLit)
    (hv : v = s + 6) : scanChecked p e s .host u = scanChecked p e v .value (some v) := by
  rw [scanChecked_host hs, (startsWithChecked_eq hostLit s).1 hcmp, Option.bind_some, if_pos hstart, hv]

/-- A look at another line. -/
theorem scan_otherLine (hs : s < e) (hcmp : Compared p s hostLit) (hstart : startsWith p.data s hostLit = false) :
    scanChecked p e s .host u = scanChecked p e (s + 6) .line u := by
  rw [scanChecked_host hs, (startsWithChecked_eq hostLit s).1 hcmp, Option.bind_some, hstart, if_neg (by decide)]

theorem compared_of_fine (hs : s < e) (h : Fine (scanChecked p e s .host u)) : Compared p s hostLit := by
  by_contra hcmp
  exact h.1 (by rw [scanChecked_host hs, (startsWithChecked_eq hostLit s).2 hcmp, Option.bind_none])

/-- What a fine scan of a line without the header has read. -/
theorem line_of_fine {a : Nat} (h : Fine (scanChecked p e a .line none)) : Inside p LineEnd a e ∧
    ∀ c, First p LineEnd a e c → p.data c ≠ 0x0a ∧ Inside p (· = 0x0a) (c + 1) e := by
  have hsearch := search_line (p := p) none e a
  have hin : Inside p LineEnd a e := by
    by_contra hin
    exact h.1 (hsearch.outside hin)
  refine ⟨hin, fun c hc => ?_⟩
  have hhit := hsearch.hit hin c hc
  have hlf : p.data c ≠ 0x0a := fun hlf => h.2 (c - 1) (by rw [hhit, if_pos hlf])
  refine ⟨hlf, ?_⟩
  by_contra hin'
  exact h.1 (by rw [hhit, if_neg hlf]; exact (search_lineEnd none e (c + 1)).outside hin')

/-- What a fine scan of a value has read. -/
theorem value_of_fine {a : Nat} (h : Fine (scanChecked p e a .value u)) : Inside p (· = 0x0d) a e ∧
    ∀ c, First p (· = 0x0d) a e c → Inside p (· = 0x0a) (c + 1) e := by
  have hsearch := search_value (p := p) u e a
  have hin : Inside p (· = 0x0d) a e := by
    by_contra hin
    exact h.1 (hsearch.outside hin)
  refine ⟨hin, fun c hc => ?_⟩
  by_contra hin'
  exact h.1 ((hsearch.hit hin c hc).trans ((search_valueEnd u e (c + 1)).outside hin'))

/-- A line that is passed over leads to the next look. -/
theorem scan_next {c x : Nat} (hs : s < e) (hcmp : Compared p s hostLit) (hstart : startsWith p.data s hostLit = false)
    (hin : Inside p LineEnd (s + 6) e) (hc : First p LineEnd (s + 6) e c) (hcr : p.data c = 0x0d)
    (hin' : Inside p (· = 0x0a) (c + 1) e) (hx : First p (· = 0x0a) (c + 1) e x) :
    scanChecked p e s .host none = scanChecked p e (x + 1) .host none := by
  have hlf : p.data c ≠ 0x0a := by
    rw [hcr]
    decide
  rw [scan_otherLine hs hcmp hstart]
  have hhit := (search_line (p := p) none e (s + 6)).hit hin c hc
  rw [if_neg hlf] at hhit
  exact hhit.trans ((search_lineEnd none e (c + 1)).hit hin' x hx)

/-- A look at the Host header with its value inside. -/
theorem scan_found {c x : Nat} (hs : s < e) (hcmp : Compared p s hostLit) (hstart : startsWith p.data s hostLit)
    (hin : Inside p (· = 0x0d) (s + 6) e) (hc : First p (· = 0x0d) (s + 6) e c)
    (hin' : Inside p (· = 0x0a) (c + 1) e) (hx : First p (· = 0x0a) (c + 1) e x) :
    scanChecked p e s .host u = some (some (some (s + 6), x - 1)) := by
  rw [scan_hostLine hs hcmp hstart rfl]
  exact ((search_value (some (s + 6)) e (s + 6)).hit hin c hc).trans
    ((search_valueEnd (some (s + 6)) e (c + 1)).hit hin' x hx)

variable {data : Nat}

/-- A fine scan goes on from every place it looks at. -/
theorem scan_looksAt (h : Fine (scanChecked p e data .host none)) (hs : LooksAt p data e s) :
    scanChecked p e data .host none = scanChecked p e s .host none := by
  induction hs with
  | start => rfl
  | next _ hlt hstart hc hcr hx ih =>
    have hfine := ih ▸ h
    have hcmp := compared_of_fine hlt hfine
    have hline := line_of_fine (scan_otherLine hlt hcmp hstart ▸ hfine)
    exact ih.trans (scan_next hlt hcmp hstart hline.1 hc hcr (hline.2 _ hc).2 hx)

theorem scanSafe_of_fine (h : Fine (scanChecked p e data .host none)) : ScanSafe p data e where
  compared s hs hlt := compared_of_fine hlt (scan_looksAt h hs ▸ h)
  line s hs hlt hstart := by
    have hfine := scan_looksAt h hs ▸ h
    exact line_of_fine (scan_otherLine hlt (compared_of_fine hlt hfine) hstart ▸ hfine)
  value s hs hlt hstart := by
    have hfine := scan_looksAt h hs ▸ h
    exact value_of_fine (scan_hostLine hlt (compared_of_fine hlt hfine) hstart rfl ▸ hfine)

/-- A value the scan finds, from `v` to `y`. -/
def Found (p : Packet) (data e v y : Nat) : Prop :=
  ∃ s c x, LooksAt p data e s ∧ s < e ∧ startsWith p.data s hostLit ∧ First p (· = 0x0d) (s + 6) e c ∧
    First p (· = 0x0a) (c + 1) e x ∧ v = s + 6 ∧ y = x - 1

/-- The result of a safe scan, by the place it has got to. -/
theorem scan_of_safe (hsafe : ScanSafe p data e) (hs : LooksAt p data e s) :
    scanChecked p e s .host none = some none ∨
      ∃ v y, Found p data e v y ∧ scanChecked p e s .host none = some (some (some v, y)) := by
  induction hk : e - s using Nat.strong_induction_on generalizing s with
  | _ k ih =>
    by_cases hlt : s < e
    · have hcmp := hsafe.compared s hs hlt
      cases hstart : startsWith p.data s hostLit with
      | true =>
        obtain ⟨hin, hin'⟩ := hsafe.value s hs hlt hstart
        by_cases hc : ∃ c, First p (· = 0x0d) (s + 6) e c
        · obtain ⟨c, hc⟩ := hc
          by_cases hx : ∃ x, First p (· = 0x0a) (c + 1) e x
          · obtain ⟨x, hx⟩ := hx
            exact .inr ⟨s + 6, x - 1, ⟨s, c, x, hs, hlt, hstart, hc, hx, rfl, rfl⟩,
              scan_found hlt hcmp hstart hin hc (hin' c hc) hx⟩
          · rw [scan_hostLine hlt hcmp hstart rfl]
            exact .inl (((search_value _ e _).hit hin c hc).trans
              ((search_valueEnd _ e _).miss (hin' c hc) (not_exists.1 hx)))
        · rw [scan_hostLine hlt hcmp hstart rfl]
          exact .inl ((search_value _ e _).miss hin (not_exists.1 hc))
      | false =>
        obtain ⟨hin, hin'⟩ := hsafe.line s hs hlt hstart
        by_cases hc : ∃ c, First p LineEnd (s + 6) e c
        · obtain ⟨c, hc⟩ := hc
          have hlf := (hin' c hc).1
          have hcr : p.data c = 0x0d := hc.2.2.1.resolve_right hlf
          by_cases hx : ∃ x, First p (· = 0x0a) (c + 1) e x
          · obtain ⟨x, hx⟩ := hx
            rw [scan_next hlt hcmp hstart hin hc hcr (hin' c hc).2 hx]
            have h1 := hc.1
            have h2 := hx.1
            exact ih (e - (x + 1)) (by omega) (.next hs hlt hstart hc hcr hx) rfl
          · rw [scan_otherLine hlt hcmp hstart]
            have hhit := (search_line (p := p) none e (s + 6)).hit hin c hc
            rw [if_neg hlf] at hhit
            exact .inl (hhit.trans ((search_lineEnd none e (c + 1)).miss (hin' c hc).2 (not_exists.1 hx)))
        · rw [scan_otherLine hlt hcmp hstart]
          exact .inl ((search_line none e (s + 6)).miss hin (not_exists.1 hc))
    · exact .inl (scanChecked_end (by omega))

theorem fine_iff_scanSafe : Fine (scanChecked p e data .host none) ↔ ScanSafe p data e := by
  refine ⟨scanSafe_of_fine, fun hsafe => ?_⟩
  rcases scan_of_safe hsafe .start with h | ⟨v, y, -, h⟩ <;> rw [h] <;> exact ⟨by simp, by simp⟩

/-- A safe scan finds what there is to find. -/
theorem scan_found_iff (hsafe : ScanSafe p data e) {v y : Nat} :
    scanChecked p e data .host none = some (some (some v, y)) ↔ Found p data e v y := by
  constructor
  · intro h
    rcases scan_of_safe hsafe .start with h' | ⟨v', y', hfound, h'⟩
    · rw [h] at h'
      simp at h'
    · rw [h] at h'
      cases h'
      exact hfound
  · rintro ⟨s, c, x, hs, hlt, hstart, hc, hx, rfl, rfl⟩
    obtain ⟨hin, hin'⟩ := hsafe.value s hs hlt hstart
    rw [scan_looksAt (fine_iff_scanSafe.2 hsafe) hs]
    exact scan_found hlt (hsafe.compared s hs hlt) hstart hin hc (hin' c hc) hx

end Scan

/-! ## The parser -/

section Parse

variable {data len q : Nat}

/-- The target is searched for its space, up to the end. -/
theorem search_space (e a : Nat) :
    Searches p (· = 0x20) e (fun q => findSpaceChecked p (e - q) (min q e)) some e a := by
  refine search (fun s h => ?_) (fun s h hs => ?_) (fun s h hs hP => ?_) (fun s h hs hP => ?_) a
  · rw [Nat.sub_eq_zero_of_le h, Nat.min_eq_right h]
    rfl
  all_goals rw [show e - s = e - (s + 1) + 1 by omega, Nat.min_eq_left h.le, findSpaceChecked]
  · rw [Packet.read_of_le hs, Option.bind_none]
  · rw [Packet.read_of_lt hs, Option.bind_some, if_pos hP]
  · rw [Packet.read_of_lt hs, Option.bind_some, if_neg hP, Nat.min_eq_left (by omega : s + 1 ≤ e)]

/-- The parser behind `"GET "`. -/
theorem parseChecked_get (hget : Compared p data getLit) (hstart : startsWith p.data data getLit) :
    parseHttpReqChecked p data len =
      (findSpaceChecked p (data + len - (data + 4)) (data + 4)).bind fun q =>
        if q = data + len then some none
        else if data + 4 < q then (p.read (data + 4)).bind fun b =>
          if b = 0x2f then (scanChecked p (data + len) data .host none).bind
            (urlOf p (p.data.slice (data + 4) (q - (data + 4))))
          else some (some (p.data.slice (data + 4) (q - (data + 4))))
        else none := by
  unfold parseHttpReqChecked
  rw [(startsWithChecked_eq getLit data).1 hget, hstart, Option.bind_some, if_pos rfl]
  simp only [scanHeadersChecked_eq (show data + len - data ≤ len by omega)]

/-- The parser with a target that ends at `q`. -/
theorem parseChecked_target (hget : Compared p data getLit) (hstart : startsWith p.data data getLit)
    (hin : Inside p (· = 0x20) (data + 4) (data + len)) (hq : First p (· = 0x20) (data + 4) (data + len) q)
    (hne : p.data (data + 4) ≠ 0x20) :
    parseHttpReqChecked p data len =
      if p.data (data + 4) = 0x2f then (scanChecked p (data + len) data .host none).bind
        (urlOf p (p.data.slice (data + 4) (q - (data + 4))))
      else some (some (p.data.slice (data + 4) (q - (data + 4)))) := by
  obtain ⟨h1, h2, hspace, -⟩ := id hq
  have hpos : data + 4 < q := lt_of_le_of_ne h1 fun h => hne (h ▸ hspace)
  have hread : data + 4 < p.length := hin (data + 4) le_rfl (by omega) fun i h1 h2 => by omega
  have hfind := (search_space (data + len) (data + 4)).hit hin q hq
  simp only [Nat.min_eq_left (show data + 4 ≤ data + len by omega)] at hfind
  rw [parseChecked_get hget hstart, hfind, Option.bind_some, if_neg (by omega), if_pos hpos, Packet.read_of_lt hread,
    Option.bind_some]

/-- The parser without `"GET "`. -/
theorem parseChecked_other (hget : Compared p data getLit) (hstart : startsWith p.data data getLit = false) :
    parseHttpReqChecked p data len = some none := by
  unfold parseHttpReqChecked
  rw [(startsWithChecked_eq getLit data).1 hget, hstart, Option.bind_some, if_neg (by decide)]

/-- The parser without a space behind the target. -/
theorem parseChecked_noSpace (hget : Compared p data getLit) (hstart : startsWith p.data data getLit) (h4 : 4 ≤ len)
    (hin : Inside p (· = 0x20) (data + 4) (data + len)) (hq : ∀ q, ¬First p (· = 0x20) (data + 4) (data + len) q) :
    parseHttpReqChecked p data len = some none := by
  have hfind := (search_space (data + len) (data + 4)).miss hin hq
  simp only [Nat.min_eq_left (show data + 4 ≤ data + len by omega)] at hfind
  rw [parseChecked_get hget hstart, hfind, Option.bind_some, if_pos rfl]

/-- The parser where the data ends before the first four bytes are compared. -/
theorem parseChecked_notCompared (hget : ¬Compared p data getLit) : parseHttpReqChecked p data len = none := by
  unfold parseHttpReqChecked
  rw [(startsWithChecked_eq getLit data).2 hget, Option.bind_none]

/-- The parser with fewer than four bytes announced: the target would end before it starts. -/
theorem parseChecked_short (hget : Compared p data getLit) (hstart : startsWith p.data data getLit) (h4 : ¬4 ≤ len) :
    parseHttpReqChecked p data len = none := by
  have hzero : data + len - (data + 4) = 0 := by omega
  rw [parseChecked_get hget hstart, hzero, findSpaceChecked, Option.bind_some, if_neg (by omega), if_neg (by omega)]

/-- The parser with a target that runs over the end of the data. -/
theorem parseChecked_outside (hget : Compared p data getLit) (hstart : startsWith p.data data getLit) (h4 : 4 ≤ len)
    (hin : ¬Inside p (· = 0x20) (data + 4) (data + len)) : parseHttpReqChecked p data len = none := by
  have hfind := (search_space (data + len) (data + 4)).outside hin
  simp only [Nat.min_eq_left (show data + 4 ≤ data + len by omega)] at hfind
  rw [parseChecked_get hget hstart, hfind, Option.bind_none]

/-- The parser with an empty target fails its assertion. -/
theorem parseChecked_empty (hget : Compared p data getLit) (hstart : startsWith p.data data getLit) (hlen : 4 < len)
    (hin : Inside p (· = 0x20) (data + 4) (data + len)) (hne : p.data (data + 4) = 0x20) :
    parseHttpReqChecked p data len = none := by
  have hfind := (search_space (data + len) (data + 4)).hit hin _ (first_self (by omega) hne)
  simp only [Nat.min_eq_left (show data + 4 ≤ data + len by omega)] at hfind
  rw [parseChecked_get hget hstart, hfind, Option.bind_some, if_neg (by omega), if_neg (by omega)]

theorem urlOf_isSome_iff {target : List Byte} {r : Option (Option (Option Nat × Nat))} :
    (r.bind (urlOf p target)).isSome ↔ Fine r := by
  rcases r with _ | _ | ⟨_ | v, y⟩ <;> simp [Fine, urlOf]

/-- The parser gets through exactly the safe requests. -/
theorem parseChecked_isSome_iff : (parseHttpReqChecked p data len).isSome ↔ RequestSafe p data len := by
  by_cases hget : Compared p data getLit
  · cases hstart : startsWith p.data data getLit with
    | false =>
      rw [parseChecked_other hget hstart]
      exact ⟨fun _ => ⟨hget, by simp [hstart], by simp [hstart]⟩, fun _ => rfl⟩
    | true =>
      by_cases h4 : 4 ≤ len
      · by_cases hin : Inside p (· = 0x20) (data + 4) (data + len)
        · by_cases hq : ∃ q, First p (· = 0x20) (data + 4) (data + len) q
          · obtain ⟨q, hq⟩ := hq
            by_cases hne : p.data (data + 4) = 0x20
            · have hlen : 4 < len := by
                have := hq.1
                have := hq.2.1
                omega
              rw [parseChecked_empty hget hstart hlen hin hne]
              exact ⟨fun h => by simp at h, fun h => absurd hne ((h.target hstart).2.2 hlen)⟩
            · rw [parseChecked_target hget hstart hin hq hne]
              by_cases hslash : p.data (data + 4) = 0x2f
              · rw [if_pos hslash, urlOf_isSome_iff, fine_iff_scanSafe]
                exact ⟨fun h => ⟨hget, fun _ => ⟨h4, hin, fun _ => hne⟩, fun _ _ _ => h⟩,
                  fun h => h.headers hstart ⟨q, hq⟩ hslash⟩
              · rw [if_neg hslash]
                exact ⟨fun _ => ⟨hget, fun _ => ⟨h4, hin, fun _ => hne⟩, fun _ _ h => absurd h hslash⟩,
                  fun _ => rfl⟩
          · rw [parseChecked_noSpace hget hstart h4 hin (not_exists.1 hq)]
            refine ⟨fun _ => ⟨hget, fun _ => ⟨h4, hin, fun hlen hne => ?_⟩, fun _ h => absurd h hq⟩,
              fun _ => rfl⟩
            exact hq ⟨data + 4, first_self (by omega) hne⟩
        · rw [parseChecked_outside hget hstart h4 hin]
          exact ⟨fun h => by simp at h, fun h => absurd (h.target hstart).2.1 hin⟩
      · rw [parseChecked_short hget hstart h4]
        exact ⟨fun h => by simp at h, fun h => absurd (h.target hstart).1 h4⟩
  · rw [parseChecked_notCompared hget]
    exact ⟨fun h => by simp at h, fun h => absurd h.get hget⟩

/-- A safe request gives a url of the length it describes, and no other. -/
theorem urlLength_iff (hsafe : RequestSafe p data len) {k : Nat} :
    UrlLength p data len k ↔ ∃ url, parseHttpReqChecked p data len = some (some url) ∧ url.length = k := by
  unfold UrlLength
  cases hstart : startsWith p.data data getLit with
  | false =>
    rw [parseChecked_other hsafe.get hstart]
    simp
  | true =>
    obtain ⟨h4, hin, hne⟩ := hsafe.target hstart
    by_cases hq : ∃ q, First p (· = 0x20) (data + 4) (data + len) q
    · obtain ⟨q, hq⟩ := hq
      have hlen : 4 < len := by
        have := hq.1
        have := hq.2.1
        omega
      rw [parseChecked_target hsafe.get hstart hin hq (hne hlen)]
      by_cases hslash : p.data (data + 4) = 0x2f
      · have hscan := @scan_found_iff p (data + len) data (hsafe.headers hstart ⟨q, hq⟩ hslash)
        rw [if_pos hslash]
        constructor
        · rintro ⟨-, q', hq', ⟨hother, -⟩ | ⟨-, s, c, x, hs, hlt, hhost, hc, hx, rfl⟩⟩
          · exact absurd hslash hother
          · rw [hq'.unique hq, hscan.2 ⟨s, c, x, hs, hlt, hhost, hc, hx, rfl, rfl⟩, Option.bind_some]
            exact ⟨_, rfl, by simp⟩
        · rintro ⟨url, hurl, rfl⟩
          obtain ⟨r, hr, hurl⟩ := Option.bind_eq_some_iff.1 hurl
          rcases r with _ | ⟨_ | v, y⟩ <;> simp only [urlOf, Option.some.injEq, reduceCtorEq] at hurl
          obtain ⟨s, c, x, hs, hlt, hhost, hc, hx, rfl, rfl⟩ := hscan.1 hr
          exact ⟨rfl, q, hq, .inr ⟨hslash, s, c, x, hs, hlt, hhost, hc, hx, by simp [← hurl]⟩⟩
      · rw [if_neg hslash]
        constructor
        · rintro ⟨-, q', hq', ⟨-, rfl⟩ | ⟨h, -⟩⟩
          · rw [hq'.unique hq]
            exact ⟨_, rfl, by simp⟩
          · exact absurd h hslash
        · rintro ⟨url, hurl, rfl⟩
          cases hurl
          exact ⟨rfl, q, hq, .inl ⟨hslash, by simp⟩⟩
    · rw [parseChecked_noSpace hsafe.get hstart h4 hin (not_exists.1 hq)]
      constructor
      · rintro ⟨-, q, h, -⟩
        exact absurd ⟨q, h⟩ hq
      · rintro ⟨url, hurl, -⟩
        cases hurl

end Parse

/-! ## The checked parser is the parser -/

section Refine

theorem startsWith_of_checked {s : Nat} {t : List Byte} {b : Bool} (h : startsWithChecked p s t = some b) :
    startsWith p.data s t = b := by
  by_cases hcmp : Compared p s t
  · rw [(startsWithChecked_eq t s).1 hcmp] at h
    simpa using h
  · rw [(startsWithChecked_eq t s).2 hcmp] at h
    cases h

theorem read_eq_some {a : Nat} {b : Byte} (h : p.read a = some b) : p.data a = b := by
  unfold Packet.read at h
  split at h
  · simpa using h
  · cases h

theorem findSpace_of_checked : ∀ {n q x : Nat}, findSpaceChecked p n q = some x → findSpace p.data n q = x
  | 0, q, x, h => by simpa [findSpaceChecked, findSpace] using h
  | n + 1, q, x, h => by
    rw [findSpaceChecked] at h
    obtain ⟨b, hb, h⟩ := Option.bind_eq_some_iff.1 h
    rw [findSpace, read_eq_some hb]
    split_ifs at h ⊢
    · simpa using h
    · exact findSpace_of_checked h

theorem scanHeaders_of_checked {e : Nat} : ∀ {n s : Nat} {state : HeaderState} {u : Option Nat}
    {r : Option (Option Nat × Nat)}, scanHeadersChecked p e n s state u = some r →
    scanHeaders p.data e n s state u = r
  | 0, s, state, u, r, h => by simpa [scanHeadersChecked, scanHeaders] using h
  | n + 1, s, state, u, r, h => by
    by_cases hs : s < e
    · cases state <;> simp only [scanHeadersChecked, scanHeaders, if_pos hs] at h ⊢ <;>
        obtain ⟨b, hb, h⟩ := Option.bind_eq_some_iff.1 h
      · rw [startsWith_of_checked hb]
        split_ifs at h ⊢ <;> exact scanHeaders_of_checked h
      · rw [read_eq_some hb]
        exact scanHeaders_of_checked h
      · rw [read_eq_some hb]
        split_ifs at h ⊢
        · simpa using h
        all_goals exact scanHeaders_of_checked h
      · rw [read_eq_some hb]
        split_ifs at h ⊢
        · simpa using h
        · exact scanHeaders_of_checked h
      · rw [read_eq_some hb]
        exact scanHeaders_of_checked h
    · rw [scanHeadersChecked_end (by omega)] at h
      rw [scanHeaders_end (by omega)]
      simpa using h

/-- Where the checked parser gets through, the parser gives the same result. -/
theorem parseHttpReq_of_checked {data len : Nat} {r : Option (List Byte)}
    (h : parseHttpReqChecked p data len = some r) : parseHttpReq p.data data len = some r := by
  unfold parseHttpReqChecked at h
  unfold parseHttpReq
  obtain ⟨get, hget, h⟩ := Option.bind_eq_some_iff.1 h
  rw [startsWith_of_checked hget]
  split_ifs at h ⊢
  · obtain ⟨q, hq, h⟩ := Option.bind_eq_some_iff.1 h
    simp only [findSpace_of_checked hq]
    by_cases hend : q = data + len
    · rw [if_pos hend] at h ⊢
      exact h
    · rw [if_neg hend] at h ⊢
      split at h
      · rename_i hpos
        obtain ⟨b, hb, h⟩ := Option.bind_eq_some_iff.1 h
        rw [if_pos hpos, read_eq_some hb]
        split_ifs at h ⊢
        · obtain ⟨r', hr, h⟩ := Option.bind_eq_some_iff.1 h
          rw [scanHeaders_of_checked hr]
          rcases r' with _ | ⟨_ | v, y⟩ <;> exact h
        · exact h
      · cases h
  · exact h

end Refine

end Reads

end MBArkProxy

end Embark
