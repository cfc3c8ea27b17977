/-
`parse_http_req` on well-formed requests. Where the header scanner looks for the Host header it
passes over six characters of a line that is no Host header, so a line shorter than that takes it
into the lines behind. The lengths of the lines before the Host header decide whether it gets to
look at that header, and with it whether the url is found.
-/
import Embark.Proxy.HttpRequest

namespace Embark

/-- Of two byte strings at one address the shorter one is a prefix of the longer one. -/
theorem Memory.Holds.isPrefix {m : Memory} : ∀ {a : Nat} {bs cs : List Byte}, m.Holds a bs → m.Holds a cs →
    bs.length ≤ cs.length → bs <+: cs
  | _, [], _, _, _, _ => List.nil_prefix
  | _, _ :: _, [], _, _, h => by simp at h
  | a, b :: bs, c :: cs, hb, hc, h => by
    rw [List.cons_prefix_cons]
    exact ⟨hb.1.symm.trans hc.1, hb.2.isPrefix hc.2 (by simpa using h)⟩

namespace MBArkProxy

/-! ## The scanner without its counter -/

section Scan

variable {m : Memory} {e s n : Nat} {u : Option Nat}

theorem scanHeaders_end {state : HeaderState} (h : e ≤ s) : scanHeaders m e n s state u = none := by
  cases n with
  | zero => rfl
  | succ n => cases state <;> simp only [scanHeaders, if_neg (Nat.not_lt.2 h)]

theorem scanHeaders_enough : ∀ {n k s : Nat} {state : HeaderState} {u : Option Nat}, e - s ≤ n → e - s ≤ k →
    scanHeaders m e n s state u = scanHeaders m e k s state u
  | 0, _, _, _, _, hn, _ => by rw [scanHeaders_end (by omega), scanHeaders_end (by omega)]
  | _ + 1, 0, _, _, _, _, hk => by rw [scanHeaders_end (by omega), scanHeaders_end (by omega)]
  | n + 1, k + 1, s, state, u, hn, hk => by
    have hstep : ∀ (j : Nat) (state : HeaderState) (u : Option Nat), 0 < j →
        scanHeaders m e n (s + j) state u = scanHeaders m e k (s + j) state u :=
      fun j _ _ hj => scanHeaders_enough (by omega) (by omega)
    cases state <;> simp only [scanHeaders, hstep 6 _ _ (by decide), hstep 1 _ _ (by decide)]

/-- The scan from `s` on, with as many rounds as are left. -/
def scan (m : Memory) (e s : Nat) (state : HeaderState) (u : Option Nat) : Option (Option Nat × Nat) :=
  scanHeaders m e (e - s) s state u

theorem scanHeaders_eq_scan {state : HeaderState} (h : e - s ≤ n) :
    scanHeaders m e n s state u = scan m e s state u :=
  scanHeaders_enough h le_rfl

theorem scan_end {state : HeaderState} (h : e ≤ s) : scan m e s state u = none := by
  rw [scan, scanHeaders_end h]

theorem scan_step {state : HeaderState} (h : s < e) :
    scan m e s state u = scanHeaders m e (e - s - 1 + 1) s state u := by
  rw [scan, Nat.sub_add_cancel (by omega)]

theorem scan_host (h : s < e) : scan m e s .host u =
    if startsWith m s hostLit then scan m e (s + 6) .value (some (s + 6)) else scan m e (s + 6) .line u := by
  rw [scan_step h, scanHeaders, if_pos h]
  simp only [scanHeaders_eq_scan (show e - (s + 6) ≤ e - s - 1 by omega)]

theorem scan_value (h : s < e) :
    scan m e s .value u = scan m e (s + 1) (if m s = 0x0d then .valueEnd else .value) u := by
  rw [scan_step h, scanHeaders, if_pos h]
  simp only [scanHeaders_eq_scan (show e - (s + 1) ≤ e - s - 1 by omega)]

theorem scan_line (h : s < e) : scan m e s .line u =
    if m s = 0x0a then some (u, s - 1) else scan m e (s + 1) (if m s = 0x0d then .lineEnd else .line) u := by
  rw [scan_step h, scanHeaders, if_pos h]
  simp only [scanHeaders_eq_scan (show e - (s + 1) ≤ e - s - 1 by omega)]

theorem scan_valueEnd (h : s < e) :
    scan m e s .valueEnd u = if m s = 0x0a then some (u, s - 1) else scan m e (s + 1) .valueEnd u := by
  rw [scan_step h, scanHeaders, if_pos h]
  simp only [scanHeaders_eq_scan (show e - (s + 1) ≤ e - s - 1 by omega)]

theorem scan_lineEnd (h : s < e) :
    scan m e s .lineEnd u = scan m e (s + 1) (if m s = 0x0a then .host else .lineEnd) u := by
  rw [scan_step h, scanHeaders, if_pos h]
  simp only [scanHeaders_eq_scan (show e - (s + 1) ≤ e - s - 1 by omega)]

end Scan

/-! ## Lines -/

/-- CR LF. -/
def crlf : List Byte := [0x0d, 0x0a]

/-- A line has neither CR nor LF. -/
def Plain (l : List Byte) : Prop := ∀ c ∈ l, c ≠ 0x0d ∧ c ≠ 0x0a

instance (l : List Byte) : Decidable (Plain l) := inferInstanceAs (Decidable (∀ c ∈ l, _))

/-- Lines with their ends. -/
def linesText (ls : List (List Byte)) : List Byte := ls.flatMap (· ++ crlf)

def isHost (l : List Byte) : Bool := hostLit.isPrefixOf l

theorem isHost_iff {l : List Byte} : isHost l ↔ hostLit <+: l := List.isPrefixOf_iff_prefix

theorem linesText_cons (l : List Byte) (ls : List (List Byte)) :
    linesText (l :: ls) = l ++ crlf ++ linesText ls := by simp [linesText]

theorem holds_linesText_cons {m : Memory} {s : Nat} {l : List Byte} {ls : List (List Byte)} :
    m.Holds s (linesText (l :: ls)) ↔ m.Holds s (l ++ crlf) ∧ m.Holds (s + l.length + 2) (linesText ls) := by
  rw [linesText_cons, Memory.holds_append, List.length_append, ← Nat.add_assoc]
  rfl

theorem length_linesText_cons (l : List Byte) (ls : List (List Byte)) :
    (linesText (l :: ls)).length = l.length + 2 + (linesText ls).length := by
  simp [linesText_cons, crlf]
  omega

section Lines

variable {m : Memory} {e : Nat} {u : Option Nat}

/-- State 2 reads to the end of its line, and state 4 past it. -/
theorem scan_line_text : ∀ {l : List Byte} {s : Nat}, m.Holds s (l ++ crlf) → Plain l → s + l.length + 2 ≤ e →
    scan m e s .line u = scan m e (s + l.length + 2) .host u
  | [], s, ⟨hcr, hlf, _⟩, _, he => by
    have he : s + 2 ≤ e := he
    rw [scan_line (by omega), hcr, if_neg (by decide), if_pos rfl, scan_lineEnd (by omega), hlf, if_pos rfl]
    rfl
  | c :: l, s, ⟨hc, htext⟩, hplain, he => by
    obtain ⟨hcr, hlf⟩ := hplain c (by simp)
    rw [List.length_cons] at he ⊢
    rw [scan_line (by omega), hc, if_neg hlf, if_neg hcr,
      scan_line_text htext (fun x hx => hplain x (List.mem_cons_of_mem c hx)) (by omega)]
    congr 1
    omega

/-- State 1 reads the value to the end of its line, and state 3 ends the scan. -/
theorem scan_value_text : ∀ {l : List Byte} {s : Nat}, m.Holds s (l ++ crlf) → Plain l →
    s + l.length + 2 ≤ e → scan m e s .value u = some (u, s + l.length)
  | [], s, ⟨hcr, hlf, _⟩, _, he => by
    have he : s + 2 ≤ e := he
    rw [scan_value (by omega), hcr, if_pos rfl, scan_valueEnd (by omega), hlf, if_pos rfl]
    rfl
  | c :: l, s, ⟨hc, htext⟩, hplain, he => by
    obtain ⟨hcr, -⟩ := hplain c (by simp)
    rw [List.length_cons] at he ⊢
    rw [scan_value (by omega), hc, if_neg hcr,
      scan_value_text htext (fun x hx => hplain x (List.mem_cons_of_mem c hx)) (by omega)]
    simp only [Option.some.injEq, Prod.mk.injEq, true_and]
    omega

/-- `strncmp` at the start of a line compares with that line alone. -/
theorem startsWith_line {l : List Byte} {s : Nat} (h : m.Holds s (l ++ crlf)) : startsWith m s hostLit = isHost l := by
  have hl := (Memory.holds_append.1 h).1
  have hend : m.Holds s (l ++ [0x0d]) := by
    have hsplit : l ++ crlf = (l ++ [0x0d]) ++ [0x0a] := by simp [crlf]
    rw [hsplit] at h
    exact (Memory.holds_append.1 h).1
  rw [Bool.eq_iff_iff, isHost_iff]
  constructor
  · intro hstart
    have hhost : m.Holds s hostLit := by
      have hslice := Memory.holds_slice m s hostLit.length
      rwa [eq_of_beq hstart] at hslice
    by_cases hlen : hostLit.length ≤ l.length
    · exact hhost.isPrefix hl hlen
    · -- the line ends inside the literal, which has no CR
      have hcr : (0x0d : Byte) ∈ hostLit := (hend.isPrefix hhost (by simp; omega)).subset (by simp)
      exact absurd hcr (by decide)
  · rintro ⟨v, rfl⟩
    have hhost := (Memory.holds_append.1 hl).1
    unfold startsWith
    rw [hhost.slice_eq, beq_self_eq_true]

/-- A look at the Host header reads its value. -/
theorem scan_host_text {value : List Byte} {s : Nat} (h : m.Holds s (hostLit ++ value ++ crlf))
    (hplain : Plain (hostLit ++ value)) (he : s + 6 + value.length + 2 ≤ e) :
    scan m e s .host u = some (some (s + 6), s + 6 + value.length) := by
  have hhost : isHost (hostLit ++ value) := isHost_iff.2 (List.prefix_append hostLit value)
  have hvalue : m.Holds (s + 6) (value ++ crlf) := by
    rw [List.append_assoc, Memory.holds_append] at h
    exact h.2
  rw [scan_host (by omega), startsWith_line h, hhost, if_pos rfl,
    scan_value_text hvalue (fun c hc => hplain c (List.mem_append_right hostLit hc)) he]

/-! ## Getting across the lines before the Host header -/

/-- The scan at a line of which `skip` characters are still to be passed over, or, where that is
six, which is looked at for the Host header. -/
def after (m : Memory) (e skip s : Nat) : Option (Option Nat × Nat) :=
  if skip = 6 then scan m e s .host none else scan m e (s + skip) .line none

/-- What is left of the skip after a line, if the scan is not ended there: a scan that gets into
the line reads it to its end and looks at the next one; one that gets exactly to its line feed
ends, with the null pointer; and one that gets past it goes on in the next line. -/
theorem after_line {l : List Byte} {s skip : Nat} (h : m.Holds s (l ++ crlf)) (hplain : Plain l)
    (he : s + l.length + 2 ≤ e) (hskip : skip ≤ 6) (hhost : skip = 6 → isHost l = false) :
    after m e skip s =
      if skip ≤ l.length then after m e 6 (s + l.length + 2)
      else if skip = l.length + 1 then some (none, s + l.length)
      else after m e (skip - l.length - 2) (s + l.length + 2) := by
  have hread : after m e skip s = scan m e (s + skip) .line none := by
    unfold after
    split
    · rename_i h6
      rw [scan_host (by omega), startsWith_line h, hhost h6, if_neg (by decide), h6]
    · rfl
  rw [hread]
  split_ifs with h1 h2
  · have hrest : m.Holds (s + skip) (l.drop skip ++ crlf) := by
      rw [← List.take_append_drop skip l, List.append_assoc, Memory.holds_append, List.length_take,
        Nat.min_eq_left h1] at h
      exact h.2
    have hlen : skip + (l.drop skip).length = l.length := by
      rw [List.length_drop]
      omega
    rw [scan_line_text hrest (fun c hc => hplain c (List.mem_of_mem_drop hc)) (by omega), after, if_pos rfl]
    congr 1
    omega
  · have hlf : m (s + skip) = 0x0a := by
      rw [Memory.holds_append] at h
      rw [h2, ← Nat.add_assoc]
      exact h.2.2.1
    rw [scan_line (by omega), hlf, if_pos rfl]
    simp only [Option.some.injEq, Prod.mk.injEq, true_and]
    omega
  · rw [after, if_neg (by omega)]
    congr 1
    omega

/-- Whether the scan gets from a skip to lines of the given lengths to a look at the line behind
them. -/
def getsAcross : Nat → List Nat → Bool
  | skip, [] => skip == 6
  | skip, len :: lens =>
    if skip ≤ len then getsAcross 6 lens
    else if skip = len + 1 then false
    else getsAcross (skip - len - 2) lens

theorem after_across : ∀ {ls : List (List Byte)} {s skip : Nat}, m.Holds s (linesText ls) →
    (∀ l ∈ ls, Plain l ∧ isHost l = false) → s + (linesText ls).length ≤ e → skip ≤ 6 →
    getsAcross skip (ls.map List.length) → after m e skip s = scan m e (s + (linesText ls).length) .host none
  | [], s, skip, _, _, _, _, hacross => by
    rw [List.map_nil, getsAcross, beq_iff_eq] at hacross
    rw [after, if_pos hacross]
    rfl
  | l :: ls, s, skip, htext, hls, he, hskip, hacross => by
    rw [holds_linesText_cons] at htext
    rw [length_linesText_cons] at he ⊢
    obtain ⟨hplain, hhost⟩ := hls l (by simp)
    have hnext : ∀ k ≤ 6, getsAcross k (ls.map List.length) → after m e k (s + l.length + 2) =
        scan m e (s + (l.length + 2 + (linesText ls).length)) .host none := by
      intro k hk hacross
      rw [after_across htext.2 (fun x hx => hls x (List.mem_cons_of_mem l hx)) (by omega) hk hacross]
      congr 1
      omega
    rw [after_line htext.1 hplain (by omega) hskip fun _ => hhost]
    rw [List.map_cons, getsAcross] at hacross
    split_ifs at hacross ⊢ with h1
    · exact hnext 6 le_rfl hacross
    · exact hnext _ (by omega) hacross

/-- Without a Host header no url is found. -/
theorem after_noHost : ∀ {ls : List (List Byte)} {s skip : Nat}, m.Holds s (linesText ls) →
    (∀ l ∈ ls, Plain l ∧ isHost l = false) → s + (linesText ls).length = e → skip ≤ 6 →
    ∀ v x, after m e skip s ≠ some (some v, x)
  | [], s, skip, _, _, he, _, v, x => by
    have he : s = e := he
    unfold after
    split_ifs <;> rw [scan_end (by omega)] <;> simp
  | l :: ls, s, skip, htext, hls, he, hskip, v, x => by
    rw [holds_linesText_cons] at htext
    rw [length_linesText_cons] at he
    obtain ⟨hplain, hhost⟩ := hls l (by simp)
    have hnext : ∀ k ≤ 6, after m e k (s + l.length + 2) ≠ some (some v, x) := fun k hk =>
      after_noHost htext.2 (fun x hx => hls x (List.mem_cons_of_mem l hx)) (by omega) hk v x
    rw [after_line htext.1 hplain (by omega) hskip fun _ => hhost]
    split_ifs
    · exact hnext 6 le_rfl
    · simp
    · exact hnext _ (by omega)

/-- A scan that does not get across the lines before it misses the only Host header. -/
theorem after_lost {host : List Byte} {post : List (List Byte)} (hhost : Plain host ∧ isHost host)
    (hpost : ∀ l ∈ post, Plain l ∧ isHost l = false) : ∀ {pre : List (List Byte)} {s skip : Nat},
    m.Holds s (linesText (pre ++ host :: post)) → (∀ l ∈ pre, Plain l ∧ isHost l = false) →
    s + (linesText (pre ++ host :: post)).length = e → skip ≤ 6 →
    getsAcross skip (pre.map List.length) = false → ∀ v x, after m e skip s ≠ some (some v, x)
  | [], s, skip, htext, _, he, hskip, hacross, v, x => by
    rw [List.nil_append] at htext he
    rw [holds_linesText_cons] at htext
    rw [length_linesText_cons] at he
    rw [List.map_nil, getsAcross, beq_eq_false_iff_ne] at hacross
    have hlen : 6 ≤ host.length := (isHost_iff.1 hhost.2).length_le
    rw [after_line htext.1 hhost.1 (by omega) hskip fun h => absurd h hacross, if_pos (by omega)]
    exact after_noHost htext.2 hpost (by omega) le_rfl v x
  | l :: pre, s, skip, htext, hpre, he, hskip, hacross, v, x => by
    rw [List.cons_append] at htext he
    rw [holds_linesText_cons] at htext
    rw [length_linesText_cons] at he
    obtain ⟨hplain, hl⟩ := hpre l (by simp)
    have hnext : ∀ k ≤ 6, getsAcross k (pre.map List.length) = false →
        after m e k (s + l.length + 2) ≠ some (some v, x) := fun k hk hacross =>
      after_lost hhost hpost htext.2 (fun x hx => hpre x (List.mem_cons_of_mem l hx)) (by omega)
        hk hacross v x
    rw [after_line htext.1 hplain (by omega) hskip fun _ => hl]
    rw [List.map_cons, getsAcross] at hacross
    split_ifs at hacross ⊢
    · exact hnext 6 le_rfl hacross
    · simp
    · exact hnext _ (by omega) hacross

end Lines

/-! ## Requests -/

theorem findSpace_text {m : Memory} {rest : List Byte} : ∀ {t : List Byte} {q n : Nat},
    m.Holds q (t ++ 0x20 :: rest) → (∀ c ∈ t, c ≠ 0x20) → t.length < n → findSpace m n q = q + t.length
  | [], _, n + 1, h, _, _ => by
    rw [findSpace, if_pos h.1]
    rfl
  | c :: t, q, n + 1, h, ht, hn => by
    have hc : m q ≠ 0x20 := by
      rw [h.1]
      exact ht c (by simp)
    rw [List.length_cons] at hn ⊢
    rw [findSpace, if_neg hc, findSpace_text h.2 (fun x hx => ht x (List.mem_cons_of_mem c hx)) (by omega)]
    omega

/-- `" HTTP/1.1"`. -/
def httpLit : List Byte := [0x20, 0x48, 0x54, 0x54, 0x50, 0x2f, 0x31, 0x2e, 0x31]

/-- A GET request: its target and its header lines. -/
structure Request where
  target : List Byte
  lines : List (List Byte)
  target_ne : target ≠ []
  target_plain : ∀ c ∈ target, c ≠ 0x20 ∧ c ≠ 0x0d ∧ c ≠ 0x0a
  lines_plain : ∀ l ∈ lines, Plain l

namespace Request

/-- The request line, without its end. -/
def requestLine (r : Request) : List Byte := getLit ++ r.target ++ httpLit

def text (r : Request) : List Byte := linesText (r.requestLine :: r.lines)

/-- The target starts with a slash. -/
def originForm (r : Request) : Prop := r.target.head? = some 0x2f

instance (r : Request) : Decidable r.originForm := inferInstanceAs (Decidable (_ = _))

/-- The header lines before the first Host header. -/
def beforeHost (r : Request) : List (List Byte) := r.lines.takeWhile fun l => !isHost l

/-- `parse_http_req` finds the url of a request: the target itself or, for a target that starts
with a slash, the target behind the value of the only Host header. -/
structure UrlFound (r : Request) (m : Memory) (data : Nat) : Prop where
  origin : r.originForm → ∀ value, r.lines.filter isHost = [hostLit ++ value] →
    parseHttpReq m data r.text.length = some (some (value ++ r.target))
  absolute : ¬r.originForm → parseHttpReq m data r.text.length = some (some r.target)

variable {r : Request} {m : Memory} {data : Nat}

theorem requestLine_plain (r : Request) : Plain r.requestLine := by
  have hget : Plain getLit := by decide
  have hhttp : Plain httpLit := by decide
  intro c hc
  rw [requestLine, List.mem_append, List.mem_append] at hc
  rcases hc with (hc | hc) | hc
  · exact hget c hc
  · exact (r.target_plain c hc).2
  · exact hhttp c hc

theorem length_requestLine (r : Request) : r.requestLine.length = r.target.length + 13 := by
  simp [requestLine, getLit, httpLit]

/-- The request line is no Host header: it starts with a G. -/
theorem requestLine_not_host (r : Request) : isHost r.requestLine = false := rfl

/-- The parts of the request line, where the text is stored. -/
theorem holds_requestLine (hm : m.Holds data (r.requestLine ++ crlf)) :
    m.Holds data getLit ∧ m.Holds (data + 4) (r.target ++ 0x20 :: (httpLit.tail ++ crlf)) := by
  rw [requestLine, List.append_assoc, List.append_assoc, Memory.holds_append] at hm
  exact hm

/-- The parser looks at the first byte of the target. -/
theorem slash_iff_originForm {t : List Byte} (h : m.Holds (data + 4) (r.target ++ t)) :
    m (data + 4) = 0x2f ↔ r.originForm := by
  unfold originForm
  cases ht : r.target with
  | nil => exact absurd ht r.target_ne
  | cons c rest =>
    rw [ht] at h
    rw [h.1, List.head?_cons, Option.some.injEq]

/-- What the parser does up to its header scan. -/
theorem parseHttpReq_text (hm : m.Holds data r.text) : parseHttpReq m data r.text.length =
    if r.originForm then
      match after m (data + r.text.length) 6 (data + r.requestLine.length + 2) with
      | none => some none
      | some (none, _) => none
      | some (some urlStart, urlEnd) => some (some (m.slice urlStart (urlEnd - urlStart) ++ r.target))
    else some (some r.target) := by
  have hlines := holds_linesText_cons.1 hm
  have hlen : r.text.length = r.requestLine.length + 2 + (linesText r.lines).length := length_linesText_cons ..
  have hline := r.length_requestLine
  have hne := List.length_pos_iff.2 r.target_ne
  obtain ⟨hget, htarget⟩ := holds_requestLine hlines.1
  have hstart : startsWith m data getLit := by
    unfold startsWith
    rw [hget.slice_eq, beq_self_eq_true]
  have hspace : findSpace m (data + r.text.length - (data + 4)) (data + 4) = data + 4 + r.target.length :=
    findSpace_text htarget (fun c hc => (r.target_plain c hc).1) (by omega)
  have hslice : m.slice (data + 4) (data + 4 + r.target.length - (data + 4)) = r.target := by
    rw [Nat.add_sub_cancel_left]
    exact (Memory.holds_append.1 htarget).1.slice_eq
  have hslash := slash_iff_originForm htarget
  have hscan : scanHeaders m (data + r.text.length) r.text.length data .host none =
      after m (data + r.text.length) 6 (data + r.requestLine.length + 2) := by
    rw [scanHeaders_eq_scan (by omega)]
    have h := after_line (e := data + r.text.length) hlines.1 r.requestLine_plain (by omega) (le_refl 6)
      fun _ => r.requestLine_not_host
    rw [if_pos (by omega)] at h
    exact h
  unfold parseHttpReq
  rw [if_pos hstart]
  simp only [hspace, hslice]
  rw [if_neg (by omega), if_pos (by omega)]
  by_cases horigin : r.originForm
  · refine (if_pos (hslash.2 horigin)).trans (Eq.trans ?_ (if_pos horigin).symm)
    exact hscan ▸ rfl
  · exact (if_neg (hslash.not.2 horigin)).trans (if_neg horigin).symm

/-- A request with one Host header, taken apart at it. -/
theorem exists_host {value : List Byte} (h : r.lines.filter isHost = [hostLit ++ value]) :
    ∃ post, r.lines = r.beforeHost ++ (hostLit ++ value) :: post ∧
    (∀ l ∈ r.beforeHost, Plain l ∧ isHost l = false) ∧
      (Plain (hostLit ++ value) ∧ isHost (hostLit ++ value)) ∧ ∀ l ∈ post, Plain l ∧ isHost l = false := by
  obtain ⟨pre, post, hsplit, hpre, hhost, hpost⟩ := List.filter_eq_cons_iff.1 h
  have hplain : ∀ l ∈ pre ++ (hostLit ++ value) :: post, Plain l := fun l hl => r.lines_plain l (hsplit ▸ hl)
  have hpre' : ∀ l ∈ pre, (!isHost l) = true := fun l hl => by simpa using hpre l hl
  have hbefore : r.beforeHost = pre := by
    rw [beforeHost, hsplit, List.takeWhile_append_of_pos hpre', List.takeWhile_cons, hhost]
    simp
  refine ⟨post, hbefore ▸ hsplit, ?_, ⟨hplain _ (by simp), hhost⟩, ?_⟩
  · rw [hbefore]
    exact fun l hl => ⟨hplain l (by simp [hl]), by simpa using hpre l hl⟩
  · rw [List.filter_eq_nil_iff] at hpost
    exact fun l hl => ⟨hplain l (by simp [hl]), by simpa using hpost l hl⟩

/-- Of a request for a path with one Host header the url is found exactly where the scan gets
across the lines before that header. -/
theorem parseHttpReq_origin_iff {value : List Byte} (hm : m.Holds data r.text) (horigin : r.originForm)
    (h : r.lines.filter isHost = [hostLit ++ value]) :
    parseHttpReq m data r.text.length = some (some (value ++ r.target)) ↔
      getsAcross 6 (r.beforeHost.map List.length) := by
  obtain ⟨post, hsplit, hpre, hhost, hpost⟩ := exists_host h
  have hlines := (holds_linesText_cons.1 hm).2
  have hlen : r.text.length = r.requestLine.length + 2 + (linesText r.lines).length := length_linesText_cons ..
  rw [parseHttpReq_text hm, if_pos horigin]
  constructor
  · intro hurl
    by_contra hacross
    rw [Bool.not_eq_true] at hacross
    have hend : data + r.requestLine.length + 2 + (linesText (r.beforeHost ++ (hostLit ++ value) :: post)).length =
        data + r.text.length := by
      rw [← hsplit]
      omega
    rw [hsplit] at hlines
    have hlost := after_lost hhost hpost hlines hpre hend le_rfl hacross
    split at hurl
    · cases hurl
    · cases hurl
    · rename_i heq
      exact hlost _ _ heq
  · intro hacross
    have htext : linesText r.lines = linesText r.beforeHost ++ linesText ((hostLit ++ value) :: post) := by
      rw [hsplit, linesText, List.flatMap_append]
      rfl
    have hfit : (linesText r.lines).length = (linesText r.beforeHost).length + ((hostLit ++ value).length + 2 +
        (linesText post).length) := by rw [htext, List.length_append, length_linesText_cons]
    have hsix : (hostLit ++ value).length = 6 + value.length := by rw [List.length_append]; rfl
    rw [htext, Memory.holds_append, holds_linesText_cons] at hlines
    obtain ⟨hbefore, hline, -⟩ := hlines
    rw [after_across hbefore hpre (by omega) le_rfl hacross]
    rw [scan_host_text hline hhost.1 (by omega)]
    have hvalue : m.Holds (data + r.requestLine.length + 2 + (linesText r.beforeHost).length + 6) value := by
      rw [List.append_assoc, Memory.holds_append, Memory.holds_append] at hline
      exact hline.2.1
    simp only [Nat.add_sub_cancel_left, hvalue.slice_eq]

/-- `parse_http_req` finds the url of a request exactly where its target does not start with a
slash, where it has not one Host header, or where the lengths of the lines before that header let
the scan across. -/
theorem urlFound_iff (r : Request) (m : Memory) (data : Nat) : r.UrlFound (m.writeBytes data r.text) data ↔
    (r.originForm → (r.lines.filter isHost).length = 1 → getsAcross 6 (r.beforeHost.map List.length)) := by
  have hm := Memory.holds_writeBytes m data r.text
  constructor
  · intro hfound horigin hone
    obtain ⟨host, hfilter⟩ := List.length_eq_one_iff.1 hone
    have hhost : isHost host := (List.mem_filter.1 (hfilter ▸ List.mem_singleton_self host)).2
    obtain ⟨value, rfl⟩ := isHost_iff.1 hhost
    exact (parseHttpReq_origin_iff hm horigin hfilter).1 (hfound.origin horigin value hfilter)
  · intro hacross
    refine ⟨fun horigin value hfilter => ?_, fun habsolute => ?_⟩
    · exact (parseHttpReq_origin_iff hm horigin hfilter).2 (hacross horigin (by rw [hfilter]; rfl))
    · rw [parseHttpReq_text hm, if_neg habsolute]

/-- A request with a header of four characters before the Host header. -/
def shortHeader : Request where
  target := [0x2f]
  lines := [[0x41, 0x3a, 0x20, 0x62], hostLit ++ [0x68]]
  target_ne := by decide
  target_plain := by decide
  lines_plain := by decide

/-- `GET / HTTP/1.1`, `A: b`, `Host: h`: the scan passes over `A: b` and its end, reads the Host
header as the rest of that line, and no url is found. -/
theorem shortHeader_lost : parseHttpReq (Memory.writeBytes (fun _ => 0) 0 shortHeader.text) 0
      shortHeader.text.length = some none ∧
    ¬shortHeader.UrlFound (Memory.writeBytes (fun _ => 0) 0 shortHeader.text) 0 := by
  have hparse : parseHttpReq (Memory.writeBytes (fun _ => 0) 0 shortHeader.text) 0 shortHeader.text.length =
      some none := by decide
  refine ⟨hparse, fun hfound => ?_⟩
  have hurl := hfound.origin (by decide) [0x68] (by decide)
  rw [hparse] at hurl
  cases hurl

end Request

end MBArkProxy

end Embark
