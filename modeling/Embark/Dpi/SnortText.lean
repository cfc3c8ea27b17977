/-
What `cs_get_from_snort_string` makes of a text. Both passes take the same way, so the count is the
number of bytes that are written, as long as the index does not wrap behind the end of the text; and
a text of literal characters and groups of hexadecimal bytes is turned into the bytes it stands for.
-/
import Embark.Dpi.ContentStrings

namespace Embark

namespace Dpi

/-! ## Texts and what they stand for -/

/-- Two-digit hexadecimal bytes with single spaces between them, and their values. -/
inductive IsHexGroup : List Byte → List Byte → Prop
  | single {x y : Byte} {d d' : Nat} : hexDigit (byteChar x) = some d → hexDigit (byteChar y) = some d' →
      IsHexGroup [x, y] [BitVec.ofNat 8 (16 * d + d')]
  | cons {x y : Byte} {d d' : Nat} {g bs : List Byte} : hexDigit (byteChar x) = some d →
      hexDigit (byteChar y) = some d' → IsHexGroup g bs →
      IsHexGroup (x :: y :: 0x20 :: g) (BitVec.ofNat 8 (16 * d + d') :: bs)

/-- Literal characters, other than bars and backslashes, and groups between bars, and the bytes they
stand for. -/
inductive IsSnortText : List Byte → List Byte → Prop
  | nil : IsSnortText [] []
  | literal {c : Byte} {t bs : List Byte} : c ≠ 0 → c ≠ bar → c ≠ backslash → IsSnortText t bs →
      IsSnortText (c :: t) (c :: bs)
  | group {g gs t bs : List Byte} : IsHexGroup g gs → IsSnortText t bs →
      IsSnortText (bar :: (g ++ bar :: t)) (gs ++ bs)

/-- No call accesses the text or the buffer out of bounds, and where it returns, both passes were at
the same indices and the second one has written as many bytes as the first one counted. -/
def InLockStep (s : List Byte) : Prop :=
  ∀ fuel heap, csGetFromSnortString fuel heap s ≠ .error .outOfBounds ∧
    ∀ r, csGetFromSnortString fuel heap s = .ok r → r.counted = r.filled ∧ r.csidx = r.strlen

/-- With enough fuel a call returns the bytes `bs`. -/
def DecodesTo (s bs : List Byte) : Prop :=
  ∀ heap, ∃ enough r, (∀ fuel ≥ enough, csGetFromSnortString fuel heap s = .ok r) ∧ r.type = .snortCs ∧
    r.strlen = bs.length ∧ r.s.slice 0 r.strlen = bs

theorem IsHexGroup.length_le {g gs : List Byte} (h : IsHexGroup g gs) : 0 < gs.length ∧ gs.length ≤ g.length := by
  induction h with
  | single _ _ => exact ⟨Nat.one_pos, by simp⟩
  | cons _ _ _ ih =>
    simp only [List.length_cons]
    omega

theorem IsSnortText.length_le {t bs : List Byte} (h : IsSnortText t bs) :
    bs.length ≤ t.length ∧ (t ≠ [] → 0 < bs.length) := by
  induction h with
  | nil => exact ⟨le_rfl, fun h => absurd rfl h⟩
  | literal _ _ _ _ ih =>
    simp only [List.length_cons]
    omega
  | group hg _ ih =>
    have := hg.length_le
    simp only [List.length_cons, List.length_append]
    omega

/-! ## What the passes take up -/

/-- The bytes of a sequence of events put into a buffer of `csStrlen` bytes. -/
def Filled.putAll (csStrlen : Nat) (f : Filled) (es : List (Nat × Option Byte)) : Except Stop Filled :=
  es.foldlM (fun f e => f.put csStrlen e.1 e.2) f

section Events

/-- The count, modulo `2^32`, and the indices. -/
theorem foldlM_add : ∀ (es : List (Nat × Option Byte)) (c : Counted), u32 c.csStrlen = c.csStrlen →
    es.foldlM (fun c e => (.ok (c.add e.1) : Except Stop Counted)) c =
      .ok ⟨u32 (c.csStrlen + es.length), (es.map Prod.fst).reverse ++ c.visited⟩
  | [], c, h => by
    rw [List.foldlM_nil, List.length_nil, Nat.add_zero, h]
    rfl
  | e :: es, c, h => by
    rw [List.foldlM_cons]
    have ih := foldlM_add es (c.add e.1) (Nat.mod_mod _ _)
    refine ih.trans ?_
    rw [List.length_cons, List.map_cons, List.reverse_cons, List.append_assoc, Counted.add, u32_u32_add,
      Nat.add_right_comm, Nat.add_assoc]
    rfl

/-- With room for all of them, the bytes are put into the buffer one behind the other. -/
theorem putAll_eq {csStrlen : Nat} (hcap : csStrlen < 2 ^ 32) : ∀ (es : List (Nat × Option Byte)) (f : Filled),
    f.csidx + es.length ≤ csStrlen →
    ∃ cs, f.putAll csStrlen es = .ok ⟨f.csidx + es.length, (es.map Prod.fst).reverse ++ f.visited, cs⟩ ∧
      ∀ bs, es.map Prod.snd = bs.map some → cs.slice 0 (f.csidx + es.length) = f.cs.slice 0 f.csidx ++ bs
  | [], f, _ => by
    refine ⟨f.cs, rfl, fun bs hbs => ?_⟩
    obtain rfl := List.map_eq_nil_iff.1 hbs.symm
    rw [List.length_nil, Nat.add_zero, List.append_nil]
  | (i, b) :: es, f, h => by
    rw [List.length_cons] at h
    have hidx : u32 (f.csidx + 1) = f.csidx + 1 := u32_of_lt (by omega)
    obtain ⟨f', hput, hcsidx, hvisited, hcs⟩ : ∃ f', f.put csStrlen i b = .ok f' ∧ f'.csidx = f.csidx + 1 ∧
        f'.visited = i :: f.visited ∧ ∀ x, b = some x → f'.cs = f.cs.writeBytes f.csidx [x] := by
      cases b with
      | none => exact ⟨_, rfl, hidx, rfl, fun x hx => absurd hx (by simp)⟩
      | some x =>
        refine ⟨_, if_pos (by omega), hidx, rfl, fun y hy => ?_⟩
        rw [Option.some.inj hy]
    obtain ⟨cs, hrest, hslice⟩ := putAll_eq hcap es f' (by omega)
    refine ⟨cs, ?_, fun bs hbs => ?_⟩
    · rw [Filled.putAll, List.foldlM_cons, hput]
      refine hrest.trans ?_
      rw [hcsidx, hvisited, List.length_cons, List.map_cons, List.reverse_cons, List.append_assoc, Nat.add_assoc,
        Nat.add_comm 1]
      rfl
    · cases bs with
      | nil => exact absurd hbs (by simp)
      | cons x bs =>
        obtain ⟨hx, hbs⟩ := List.cons.inj hbs
        have hfirst : f'.cs.slice 0 (f.csidx + 1) = f.cs.slice 0 f.csidx ++ [x] := by
          rw [hcs x hx]
          exact Memory.slice_writeBytes_append _ _ [x]
        have hall := hslice bs hbs
        rw [hcsidx, hfirst, List.append_assoc] at hall
        rw [List.length_cons, Nat.add_comm es.length, ← Nat.add_assoc]
        exact hall

/-- A byte that is to be written behind the end of the buffer. -/
theorem putAll_outOfBounds {csStrlen : Nat} (hcap : csStrlen < 2 ^ 32) {i : Nat} {x : Byte} :
    ∀ {es : List (Nat × Option Byte)} {f : Filled}, f.csidx ≤ csStrlen →
    es[csStrlen - f.csidx]? = some (i, some x) →
      f.putAll csStrlen es = .error .outOfBounds
  | [], f, _, h => by simp at h
  | (j, b) :: es, f, hle, h => by
    rw [Filled.putAll, List.foldlM_cons]
    by_cases heq : f.csidx = csStrlen
    · rw [heq, Nat.sub_self] at h
      obtain ⟨rfl, rfl⟩ := Prod.mk.inj (Option.some.inj h)
      have hput : f.put csStrlen j (some x) = .error .outOfBounds := if_neg (by omega)
      dsimp only
      rw [hput]
      rfl
    · have hidx : u32 (f.csidx + 1) = f.csidx + 1 := u32_of_lt (by omega)
      obtain ⟨f', hput, hcsidx⟩ : ∃ f', f.put csStrlen j b = .ok f' ∧ f'.csidx = f.csidx + 1 := by
        cases b with
        | none => exact ⟨_, rfl, hidx⟩
        | some y => exact ⟨_, if_pos (by omega), hidx⟩
      dsimp only
      rw [hput]
      rw [show csStrlen - f.csidx = csStrlen - (f.csidx + 1) + 1 by omega, List.getElem?_cons_succ, ← hcsidx] at h
      exact putAll_outOfBounds hcap (by omega) h

end Events

/-! ## Runs over the way -/

section Runs

variable {s : List Byte} {n fuel : Nat} {heap : Memory} {es : List (Nat × Option Byte)} {e : Place}

/-- A call with enough fuel, over the events of the way. -/
theorem csGetFromSnortString_eq (hw : Walk (nextPlace s) n (.loop 0) es e) (he : nextPlace s e = none) (hn : n < fuel) :
    csGetFromSnortString fuel heap s =
      if u32 es.length = 0 then .error .exited
      else (Filled.putAll (u32 es.length) ⟨0, [], heap⟩ es).map fun f =>
        ⟨f.cs, .snortCs, u32 es.length, (es.map Prod.fst).reverse, f.csidx, f.visited⟩ := by
  have hcount : countFrom s fuel (.loop 0) ⟨0, []⟩ = .ok ⟨u32 es.length, (es.map Prod.fst).reverse⟩ := by
    have hfold := foldlM_add es ⟨0, []⟩ rfl
    rw [Nat.zero_add, List.append_nil] at hfold
    exact ((countFrom_runs s).eq_foldlM hw he trivial hn).trans hfold
  have hfill : fillFrom s (u32 es.length) fuel (.loop 0) ⟨0, [], heap⟩ =
    Filled.putAll (u32 es.length) ⟨0, [], heap⟩ es :=
    (fillFrom_runs s (u32 es.length)).eq_foldlM hw he trivial hn
  unfold csGetFromSnortString
  rw [hcount]
  simp only [bind, Except.bind, pure, Except.pure, hfill]
  split_ifs
  · rfl
  · cases Filled.putAll (u32 es.length) ⟨0, [], heap⟩ es <;> rfl

/-- A call uses up its fuel in the counting pass, or the way is shorter than the fuel. -/
theorem running_or_walk (fuel : Nat) (heap : Memory) (s : List Byte) :
    csGetFromSnortString fuel heap s = .error .running ∨
      ∃ n es e, n < fuel ∧ Walk (nextPlace s) n (.loop 0) es e ∧ nextPlace s e = none := by
  have hstart : Place.Inside s (.loop 0) := trivial
  rcases hcount : countFrom s fuel (.loop 0) ⟨0, []⟩ with x | c
  · have hx : x = .running := by
      rcases (countFrom_runs s).error_cases hstart hcount with hx | ⟨c, e, hx⟩
      · exact hx
      · cases hx
    left
    unfold csGetFromSnortString
    rw [hcount, hx]
    rfl
  · obtain ⟨n, es, e, hn, hw, he⟩ := (countFrom_runs s).exists_walk hstart hcount
    exact .inr ⟨n, es, e, hn, hw, he⟩

end Runs

/-! ## Lock step -/

section LockStep

variable {s : List Byte} {n : Nat} {pl e : Place} {es : List (Nat × Option Byte)}

theorem index_lt (h : Walk (nextPlace s) n pl es e) (hpl : pl.index < 2 ^ 32) : e.index < 2 ^ 32 := by
  induction h with
  | nil => exact hpl
  | silent hs _ ih =>
    obtain ⟨i, rfl, -, -, rfl⟩ := nextPlace_silent hs
    exact ih hpl
  | emit hs _ ih =>
    apply ih
    rcases nextPlace_emit hs with ⟨i, -, -, -, -, rfl⟩ | ⟨i, -, -, rfl⟩
    · exact u32_lt _
    · split
      · exact u32_lt _
      · exact u32_lt _

/-- Every event moves the index on, but for the last group of a text of `2^32 - 3` characters, behind
which the index begins at zero again. -/
theorem index_add_length (hlen : s.length + 3 ≤ 2 ^ 32) (h : Walk (nextPlace s) n pl es e) (he : nextPlace s e = none)
    (hpl : pl.Inside s) :
    pl.index + es.length ≤ e.index ∨ ∃ m fs, Walk (nextPlace s) m (.loop 0) fs e ∧ fs.length < es.length := by
  induction h with
  | nil => exact .inl le_rfl
  | silent hs _ ih =>
    obtain ⟨i, rfl, hi, -, rfl⟩ := nextPlace_silent hs
    exact ih he hi
  | @emit m a b c x fs hs hrest ih =>
    have hb := ih he (nextPlace_inside hs)
    rw [List.length_cons]
    rcases nextPlace_emit hs with ⟨i, rfl, hi, -, -, rfl⟩ | ⟨i, rfl, -, rfl⟩
    · have hidx : u32 (i + 1) = i + 1 := u32_of_lt (by omega)
      rw [hidx] at hb
      refine hb.imp (fun h => ?_) fun ⟨m, gs, hw, hlt⟩ => ⟨m, gs, hw, by omega⟩
      simp only [Place.index] at h ⊢
      omega
    · have hi : i < s.length := hpl
      have hidx : u32 (i + 3) = i + 3 := u32_of_lt (by omega)
      rw [hidx] at hb hrest
      split at hb
      · refine hb.imp (fun h => ?_) fun ⟨m, gs, hw, hlt⟩ => ⟨m, gs, hw, by omega⟩
        simp only [Place.index] at h ⊢
        omega
      · rename_i hg
        rw [if_neg hg] at hrest
        by_cases hwrap : i + 4 < 2 ^ 32
        · rw [u32_of_lt hwrap] at hb
          refine hb.imp (fun h => ?_) fun ⟨m, gs, hw, hlt⟩ => ⟨m, gs, hw, by omega⟩
          simp only [Place.index] at h ⊢
          omega
        · have hzero : u32 (i + 3 + 1) = 0 := by
            rw [show i + 3 + 1 = 2 ^ 32 by omega]
            rfl
          rw [hzero] at hrest
          exact .inr ⟨m, fs, hrest, Nat.lt_succ_self _⟩

/-- A way that ends takes up fewer than `2^32` bytes, unless the text is two characters or one short
of that: a way that came back to zero would not end, and neither does one in a longer text. -/
theorem length_lt_of_ends (hlen : s.length + 3 ≤ 2 ^ 32 ∨ 2 ^ 32 ≤ s.length)
    (h : Walk (nextPlace s) n (.loop 0) es e) (he : nextPlace s e = none) : es.length < 2 ^ 32 := by
  have hlt := index_lt h (by decide)
  rcases hlen with hlen | hlen
  · rcases index_add_length hlen h he trivial with hle | ⟨m, fs, hw, hshort⟩
    · simp only [Place.index] at hle hlt
      omega
    · obtain ⟨rfl, -⟩ := hw.unique he h he
      exact absurd hshort (lt_irrefl _)
  · obtain ⟨i, rfl, hi⟩ := nextPlace_none he
    simp only [Place.index] at hlt
    omega

theorem inLockStep (hlen : s.length + 3 ≤ 2 ^ 32 ∨ 2 ^ 32 ≤ s.length) : InLockStep s := by
  intro fuel heap
  rcases running_or_walk fuel heap s with hrun | ⟨n, es, e, hn, hw, he⟩
  · rw [hrun]
    exact ⟨by simp, fun r hr => absurd hr (by simp)⟩
  · have hlt := length_lt_of_ends hlen hw he
    obtain ⟨cs, hput, -⟩ := putAll_eq hlt es ⟨0, [], heap⟩ (Nat.zero_add es.length).le
    rw [csGetFromSnortString_eq hw he hn, u32_of_lt hlt, hput]
    split_ifs
    · exact ⟨by simp, fun r hr => absurd hr (by simp)⟩
    · refine ⟨by simp [Except.map], fun r hr => ?_⟩
      obtain rfl := Except.ok.inj hr
      exact ⟨(List.append_nil _).symm, Nat.zero_add _⟩

/-- In a text of `2^32` characters or more the index does not reach the end. -/
theorem csGetFromSnortString_running (hlen : 2 ^ 32 ≤ s.length) (fuel : Nat) (heap : Memory) :
    csGetFromSnortString fuel heap s = .error .running := by
  rcases running_or_walk fuel heap s with hrun | ⟨n, es, e, -, hw, he⟩
  · exact hrun
  · have hlt := index_lt hw (by decide)
    obtain ⟨i, rfl, hi⟩ := nextPlace_none he
    simp only [Place.index] at hlt
    omega

end LockStep

/-! ## Decoding -/

section Digits

variable {c : Char} {d : Nat}

theorem le_of_hexDigit (h : hexDigit c = some d) : '0' ≤ c := by
  unfold hexDigit at h
  split_ifs at h with hdigit hlower hupper
  · exact (isDigit_iff.1 hdigit).1
  · exact Char.le_trans (by decide) hlower.1
  · exact Char.le_trans (by decide) hupper.1

theorem isSpace_of_hexDigit (h : hexDigit c = some d) : isSpace c = false := isSpace_of_zero_le (le_of_hexDigit h)

theorem ne_of_hexDigit {c' : Char} (h : hexDigit c = some d) (h' : hexDigit c' = none) : c ≠ c' := by
  rintro rfl
  rw [h] at h'
  cases h'

/-- Two digits are read, whatever follows them. -/
theorem scanHexByte_digits {x y : Byte} {d' : Nat} (hx : hexDigit (byteChar x) = some d)
    (hy : hexDigit (byteChar y) = some d') (t : List Byte) :
    scanHexByte (x :: y :: t) = some (BitVec.ofNat 8 (16 * d + d')) := by
  have hdrop : ((x :: y :: t).map byteChar).dropWhile isSpace = byteChar x :: byteChar y :: t.map byteChar := by
    rw [List.map_cons, List.map_cons, List.dropWhile_cons, isSpace_of_hexDigit hx]
    rfl
  have hminus : byteChar x ≠ '-' := ne_of_hexDigit hx rfl
  have hplus : byteChar x ≠ '+' := ne_of_hexDigit hx rfl
  have hprefix : ¬ (byteChar x = '0' ∧ (byteChar y = 'x' ∨ byteChar y = 'X')) := by
    rintro ⟨-, h | h⟩
    · exact ne_of_hexDigit hy rfl h
    · exact ne_of_hexDigit hy rfl h
  unfold scanHexByte
  rw [hdrop]
  split
  · rename_i heq
    exact absurd (List.cons.inj heq).1 hminus
  · rename_i heq
    exact absurd (List.cons.inj heq).1 hplus
  · rename_i heq
    exact absurd (List.cons.inj heq).2 (by simp)
  · rename_i heq
    obtain ⟨rfl, htail⟩ := List.cons.inj heq
    obtain ⟨rfl, -⟩ := List.cons.inj htail
    rw [if_neg hprefix, hx, hy]
  · rename_i heq
    cases heq

end Digits

section Steps

variable {s : List Byte} {i : Nat}

theorem nextPlace_opens (hi : i < s.length) (ho : opens s i) : nextPlace s (.loop i) = some (none, .group i) := by
  dsimp only [nextPlace]
  rw [if_pos hi, ho]
  rfl

theorem nextPlace_literal (hlen : s.length < 2 ^ 32) (hi : i < s.length) (hc : textAt s i ≠ bar) :
    nextPlace s (.loop i) = some (some (i, some (textAt s i)), .loop (i + 1)) := by
  have hopen : opens s i = false := decide_eq_false fun h => hc h.1
  dsimp only [nextPlace]
  rw [if_pos hi, hopen, u32_of_lt (by omega)]
  rfl

theorem nextPlace_goesOn (hlen : s.length < 2 ^ 32) (hi : i + 3 < s.length) (hc : textAt s (i + 3) ≠ bar) :
    nextPlace s (.group i) = some (some (i, scanHexByte (s.drop (i + 1))), .group (i + 3)) := by
  have hgoes : goesOn s (u32 (i + 3)) = true := by
    rw [u32_of_lt (by omega)]
    exact decide_eq_true ⟨hi, hc⟩
  dsimp only [nextPlace]
  rw [hgoes, if_pos rfl, u32_of_lt (by omega), u32_of_lt (by omega)]

theorem nextPlace_closes (hi : i + 1 < 2 ^ 32) (hc : textAt s (u32 (i + 3)) = bar) :
    nextPlace s (.group i) = some (some (i, scanHexByte (s.drop (i + 1))), .loop (u32 (i + 4))) := by
  have hstop : goesOn s (u32 (i + 3)) = false := decide_eq_false fun h => h.2 hc
  dsimp only [nextPlace]
  rw [hstop, if_neg Bool.false_ne_true, u32_of_lt hi, u32_u32_add]

end Steps

section Decode

variable {s t g gs bs : List Byte}

theorem textAt_of_eq (before : List Byte) (c : Byte) (t : List Byte) (hs : s = before ++ c :: t) :
    before.length < s.length ∧ textAt s before.length = c := by
  subst hs
  refine ⟨by simp, ?_⟩
  simp [textAt]

/-- The way through a group, from its bar or one of its spaces on. -/
theorem group_walk (hg : IsHexGroup g gs) : ∀ (before : List Byte) (c : Byte), s = before ++ c :: (g ++ bar :: t) →
    s.length < 2 ^ 32 → ∃ n es, Walk (nextPlace s) n (.group before.length) es
      (.loop (before.length + g.length + 2)) ∧ es.map Prod.snd = gs.map some := by
  induction hg with
  | @single x y d d' hx hy =>
    intro before c hs hlen
    have hend := textAt_of_eq (before ++ [c, x, y]) bar t (hs.trans (by simp))
    rw [List.length_append, List.length_cons, List.length_cons, List.length_singleton] at hend
    have hscan : scanHexByte (s.drop (before.length + 1)) = some (BitVec.ofNat 8 (16 * d + d')) := by
      rw [hs, List.drop_length_add_append]
      exact scanHexByte_digits hx hy _
    have hstep := nextPlace_closes (s := s) (i := before.length) (by omega) (by rw [u32_of_lt (by omega)]; exact hend.2)
    rw [hscan, u32_of_lt (by omega)] at hstep
    exact ⟨1, _, .emit hstep (.nil _), rfl⟩
  | @cons x y d d' g bs hx hy _ ih =>
    intro before c hs hlen
    have hspace := textAt_of_eq (before ++ [c, x, y]) 0x20 (g ++ bar :: t) (hs.trans (by simp))
    obtain ⟨n, es, hw, hes⟩ := ih (before ++ [c, x, y]) 0x20 (hs.trans (by simp)) hlen
    rw [List.length_append, List.length_cons, List.length_cons, List.length_singleton] at hspace hw
    have hscan : scanHexByte (s.drop (before.length + 1)) = some (BitVec.ofNat 8 (16 * d + d')) := by
      rw [hs, List.drop_length_add_append]
      exact scanHexByte_digits hx hy _
    have hstep := nextPlace_goesOn hlen hspace.1 (by rw [hspace.2]; decide)
    rw [hscan] at hstep
    refine ⟨n + 1, _, .emit hstep ?_, congrArg _ hes⟩
    rw [List.length_cons, List.length_cons, List.length_cons]
    rwa [show before.length + 3 + g.length + 2 = before.length + (g.length + 1 + 1 + 1) + 2 by omega] at hw

/-- The way through a text, or the rest of one that no backslash stands before. -/
theorem text_walk (h : IsSnortText t bs) : ∀ (before : List Byte), s = before ++ t → s.length < 2 ^ 32 →
    (before.length = 0 ∨ textAt s (before.length - 1) ≠ backslash) →
    ∃ n es, Walk (nextPlace s) n (.loop before.length) es (.loop s.length) ∧ es.map Prod.snd = bs.map some := by
  induction h with
  | nil =>
    intro before hs _ _
    rw [List.append_nil] at hs
    subst hs
    exact ⟨0, [], .nil _, rfl⟩
  | @literal c t bs _ hbar hback _ ih =>
    intro before hs hlen _
    obtain ⟨hlt, hc⟩ := textAt_of_eq before _ _ hs
    obtain ⟨n, es, hw, hes⟩ := ih (before ++ [c]) (hs.trans (by simp)) hlen
      (.inr (by rw [List.length_append, List.length_singleton, Nat.add_sub_cancel, hc]; exact hback))
    have hstep := nextPlace_literal hlen hlt (by rw [hc]; exact hbar)
    rw [hc] at hstep
    rw [List.length_append, List.length_singleton] at hw
    exact ⟨n + 1, _, .emit hstep hw, congrArg _ hes⟩
  | @group g gs t bs hg _ ih =>
    intro before hs hlen hbefore
    obtain ⟨hlt, hc⟩ := textAt_of_eq before _ _ hs
    have hclose := textAt_of_eq (before ++ bar :: g) bar t (hs.trans (by simp))
    obtain ⟨n, es, hw, hes⟩ := group_walk hg before bar hs hlen
    obtain ⟨m, fs, hw', hfs⟩ := ih (before ++ bar :: (g ++ [bar])) (hs.trans (by simp)) hlen (.inr (by
      rw [List.length_append, List.length_cons] at hclose
      rw [List.length_append, List.length_cons, List.length_append, List.length_singleton,
        show before.length + (g.length + 1 + 1) - 1 = before.length + (g.length + 1) by omega, hclose.2]
      decide))
    have hstep := nextPlace_opens hlt (decide_eq_true ⟨hc, hbefore⟩)
    rw [List.length_append, List.length_cons, List.length_append, List.length_singleton,
      show before.length + (g.length + 1 + 1) = before.length + g.length + 2 by omega] at hw'
    refine ⟨_, es ++ fs, .silent hstep (hw.append hw'), ?_⟩
    rw [List.map_append, hes, hfs, List.map_append]

theorem decodesTo (h : IsSnortText s bs) (hne : s ≠ []) (hlen : s.length < 2 ^ 32) : DecodesTo s bs := by
  intro heap
  obtain ⟨n, es, hw, hes⟩ := text_walk h [] (List.nil_append s).symm hlen (.inl rfl)
  obtain ⟨hle, hpos⟩ := h.length_le
  have hpos := hpos hne
  have heslen : es.length = bs.length := by
    have := congrArg List.length hes
    rwa [List.length_map, List.length_map] at this
  have he : nextPlace s (.loop s.length) = none := if_neg (lt_irrefl _)
  have hcount : u32 es.length = bs.length := by
    rw [heslen]
    exact u32_of_lt (by omega)
  have hcap : bs.length < 2 ^ 32 := by omega
  obtain ⟨cs, hput, hslice⟩ := putAll_eq hcap es ⟨0, [], heap⟩ (by rw [heslen, Nat.zero_add])
  refine ⟨n + 1, ⟨cs, .snortCs, bs.length, (es.map Prod.fst).reverse, 0 + es.length,
    (es.map Prod.fst).reverse ++ []⟩, fun fuel hfuel => ?_, rfl, rfl, ?_⟩
  · rw [csGetFromSnortString_eq hw he hfuel, hcount, hput, if_neg (by omega)]
    rfl
  · have hall := hslice bs hes
    rwa [heslen, Nat.zero_add] at hall

end Decode

/-- Short of `2^32 - 2` characters, and from `2^32` on, the passes are in lock step. A text of literal
characters and groups that is not empty and has fewer than `2^32` characters is decoded. -/
theorem csGetFromSnortString_decodes (s : List Byte) :
    (s.length + 3 ≤ 2 ^ 32 ∨ 2 ^ 32 ≤ s.length → InLockStep s) ∧
    ∀ bs, IsSnortText s bs → s ≠ [] → s.length < 2 ^ 32 → DecodesTo s bs :=
  ⟨inLockStep, fun _ => decodesTo⟩

/-- The text `G|00 Ff|`. -/
theorem csGetFromSnortString_decodes_get :
    DecodesTo [0x47, 0x7c, 0x30, 0x30, 0x20, 0x46, 0x66, 0x7c] [0x47, 0x00, 0xff] := by
  have hzero : hexDigit (byteChar 0x30) = some 0 := rfl
  have hf : hexDigit (byteChar 0x46) = some 15 := rfl
  have hf' : hexDigit (byteChar 0x66) = some 15 := rfl
  have hgroup : IsHexGroup [0x30, 0x30, 0x20, 0x46, 0x66] [0x00, 0xff] :=
    .cons hzero hzero (.single hf hf')
  exact (csGetFromSnortString_decodes _).2 _ (.literal (by decide) (by decide) (by decide) (.group hgroup .nil))
    (by simp) (by decide)

/-! ## Texts that the index wraps in -/

/-- The text `||aaaa|` or, for `r = 1`, `|||aaa|`, then `k` times `a`, then a bar that no group
follows. -/
def wrapText (r k : Nat) : List Byte :=
  (List.range (k + 8)).map fun i => if i < r + 2 ∨ i = 6 ∨ i = k + 7 then bar else 0x61

section Wrap

variable {s : List Byte} {r k q i : Nat}

theorem length_wrapText : (wrapText r k).length = k + 8 := by rw [wrapText, List.length_map, List.length_range]

theorem textAt_wrapText (hi : i < k + 8) :
    textAt (wrapText r k) i = if i < r + 2 ∨ i = 6 ∨ i = k + 7 then bar else 0x61 := by
  unfold textAt wrapText
  rw [List.getElem?_map, List.getElem?_range hi]
  rfl

theorem textAt_wrapText_bar (hi : i < k + 8) (h : i < r + 2 ∨ i = 6 ∨ i = k + 7) :
    textAt (wrapText r k) i = bar := by
  rw [textAt_wrapText hi, if_pos h]

theorem textAt_wrapText_literal (hi : i < k + 8) (h : ¬ (i < r + 2 ∨ i = 6 ∨ i = k + 7)) :
    textAt (wrapText r k) i ≠ bar := by
  rw [textAt_wrapText hi, if_neg h]
  decide

/-- No backslash is in the text. -/
theorem opens_wrapText (hi : i < k + 8) (h : i < r + 2 ∨ i = 6 ∨ i = k + 7) : opens (wrapText r k) i := by
  refine decide_eq_true ⟨textAt_wrapText_bar hi h, .inr ?_⟩
  rw [textAt_wrapText (by omega)]
  split <;> decide

/-- A stretch without bars, outside groups. -/
theorem literals_walk (hlen : s.length < 2 ^ 32) :
    ∀ {k i : Nat}, (∀ j, i ≤ j → j < i + k → j < s.length ∧ textAt s j ≠ bar) →
    Walk (nextPlace s) k (.loop i) ((List.range' i k).map fun j => (j, some (textAt s j))) (.loop (i + k))
  | 0, i, _ => .nil _
  | k + 1, i, h => by
    obtain ⟨hi, hc⟩ := h i le_rfl (by omega)
    have hrest := literals_walk hlen (k := k) (i := i + 1) fun j h1 h2 => h j (by omega) (by omega)
    rw [List.range'_succ, List.map_cons]
    rw [Nat.add_assoc, Nat.add_comm 1] at hrest
    exact .emit (nextPlace_literal hlen hi hc) hrest

/-- A group with no bar at any third character. -/
theorem stride_walk (hlen : s.length < 2 ^ 32) : ∀ {q i : Nat},
    (∀ t < q, i + 3 * t + 3 < s.length ∧ textAt s (i + 3 * t + 3) ≠ bar) →
    ∃ es, Walk (nextPlace s) q (.group i) es (.group (i + 3 * q)) ∧ es.length = q
  | 0, i, _ => ⟨[], .nil _, rfl⟩
  | q + 1, i, h => by
    obtain ⟨hi, hc⟩ := h 0 (Nat.succ_pos q)
    rw [Nat.mul_zero, Nat.add_zero] at hi hc
    obtain ⟨es, hw, hes⟩ := stride_walk hlen (q := q) (i := i + 3) fun t ht => by
      have := h (t + 1) (by omega)
      rwa [show i + 3 * (t + 1) + 3 = i + 3 + 3 * t + 3 by omega] at this
    rw [show i + 3 + 3 * q = i + 3 * (q + 1) by omega] at hw
    exact ⟨_, .emit (nextPlace_goesOn hlen hi hc) hw, by rw [List.length_cons, hes]⟩

/-- The last bar takes the index back to the bar at `r`, and from the one behind it a group goes
through the whole text. -/
theorem wrapText_walk (hr : r ≤ 1) (hk : k + 10 = 2 ^ 32 + r) (hq : 3 * q + 7 = 2 ^ 32) :
    ∃ n es, Walk (nextPlace (wrapText r k)) n (.loop 0) es (.loop (k + 8)) ∧ es.length = k + q + 4 ∧
      ∀ j, j < k → es[j + 2]? = some (7 + j, some (textAt (wrapText r k) (7 + j))) := by
  have hlength : (wrapText r k).length = k + 8 := length_wrapText
  have hlen : (wrapText r k).length < 2 ^ 32 := by omega
  have hfirst := nextPlace_opens (s := wrapText r k) (i := 0) (by omega) (opens_wrapText (by omega) (.inl (by omega)))
  have hgroup0 := nextPlace_goesOn hlen (i := 0) (by omega) (textAt_wrapText_literal (by omega) (by omega))
  have hgroup3 := nextPlace_closes (s := wrapText r k) (i := 3)
    (by omega) (textAt_wrapText_bar (by rw [u32_of_lt] <;> omega) (.inr (.inl rfl)))
  rw [show u32 (3 + 4) = 7 from rfl] at hgroup3
  have hliterals := literals_walk hlen (k := k) (i := 7) fun j h1 h2 =>
    ⟨by omega, textAt_wrapText_literal (by omega) (by omega)⟩
  have hbar := nextPlace_opens (s := wrapText r k) (i := 7 + k) (by omega) (opens_wrapText (by omega) (by omega))
  have hwrap : u32 (7 + k + 3) = r := by
    rw [show 7 + k + 3 = r + 2 ^ 32 by omega, u32, Nat.add_mod_right]
    exact Nat.mod_eq_of_lt (by omega)
  have hback := nextPlace_closes (s := wrapText r k) (i := 7 + k) (by omega) (by
    rw [hwrap]
    exact textAt_wrapText_bar (by omega) (by omega))
  have hwrap' : u32 (7 + k + 4) = r + 1 := by
    rw [show 7 + k + 4 = r + 1 + 2 ^ 32 by omega, u32, Nat.add_mod_right]
    exact Nat.mod_eq_of_lt (by omega)
  rw [hwrap'] at hback
  have hsecond := nextPlace_opens (s := wrapText r k) (i := r + 1) (by omega) (opens_wrapText (by omega) (by omega))
  obtain ⟨fs, hstride, hfs⟩ := stride_walk hlen (q := q) (i := r + 1) fun t ht =>
    ⟨by omega, textAt_wrapText_literal (by omega) (by omega)⟩
  have hend := nextPlace_closes (s := wrapText r k) (i := r + 1 + 3 * q) (by omega) (by
    rw [u32_of_lt (by omega)]
    exact textAt_wrapText_bar (by omega) (by omega))
  rw [u32_of_lt (show r + 1 + 3 * q + 4 < 2 ^ 32 by omega),
    show r + 1 + 3 * q + 4 = k + 8 by omega] at hend
  have hround := Walk.silent hbar (.emit hback (.silent hsecond (hstride.append (.emit hend (.nil _)))))
  have hwalk := Walk.silent hfirst (.emit hgroup0 (.emit hgroup3 (hliterals.append hround)))
  refine ⟨_, _, hwalk, ?_, fun j hj => ?_⟩
  · simp only [List.length_cons, List.length_append, List.length_map, List.length_range', List.length_nil, hfs]
    omega
  · rw [List.getElem?_cons_succ, List.getElem?_cons_succ,
      List.getElem?_append_left (by rw [List.length_map, List.length_range']; exact hj), List.getElem?_map,
      List.getElem?_range' hj, Nat.one_mul]
    rfl

/-- The count of such a text wraps, and the filling pass writes behind the buffer. -/
theorem not_inLockStep_wrapText (hr : r ≤ 1) (hk : k + 10 = 2 ^ 32 + r) : ¬ InLockStep (wrapText r k) := by
  intro h
  obtain ⟨q, hq⟩ : ∃ q, 3 * q + 7 = 2 ^ 32 := ⟨1431655763, rfl⟩
  obtain ⟨n, es, hw, hes, hliteral⟩ := wrapText_walk hr hk hq
  have he : nextPlace (wrapText r k) (.loop (k + 8)) = none := if_neg (by rw [length_wrapText]; exact lt_irrefl _)
  have hcount : u32 es.length = r + (q - 6) := by
    rw [hes, show k + q + 4 = r + (q - 6) + 2 ^ 32 by omega, u32, Nat.add_mod_right]
    exact Nat.mod_eq_of_lt (by omega)
  -- the byte past the wrapped count is one of the letters
  have hnext := hliteral (r + (q - 6) - 2) (by omega)
  rw [Nat.sub_add_cancel (by omega)] at hnext
  have hput : Filled.putAll (r + (q - 6)) ⟨0, [], fun _ => 0⟩ es = .error .outOfBounds :=
    putAll_outOfBounds (by omega) (Nat.zero_le _) hnext
  refine (h (n + 1) fun _ => 0).1 ?_
  rw [csGetFromSnortString_eq hw he (Nat.lt_succ_self n), hcount, hput, if_neg (by omega)]
  rfl

end Wrap

theorem isSnortText_replicate (n : Nat) : IsSnortText (List.replicate n 0x61) (List.replicate n 0x61) := by
  induction n with
  | zero => exact .nil
  | succ n ih =>
    rw [List.replicate_succ]
    exact .literal (by decide) (by decide) (by decide) ih

/-- A text of `2^32` letters is not decoded, and in texts of `2^32 - 2` and of `2^32 - 1` characters
the buffer is overrun. -/
theorem csGetFromSnortString_fails :
    IsSnortText (List.replicate (2 ^ 32) 0x61) (List.replicate (2 ^ 32) 0x61) ∧
    ¬ DecodesTo (List.replicate (2 ^ 32) 0x61) (List.replicate (2 ^ 32) 0x61) ∧
    ¬ InLockStep (wrapText 0 (2 ^ 32 - 10)) ∧ ¬ InLockStep (wrapText 1 (2 ^ 32 - 9)) := by
  refine ⟨isSnortText_replicate _, fun h => ?_, not_inLockStep_wrapText (by omega) (by omega),
    not_inLockStep_wrapText (by omega) (by omega)⟩
  obtain ⟨enough, r, hrun, -⟩ := h fun _ => 0
  have hrunning := csGetFromSnortString_running (s := List.replicate (2 ^ 32) 0x61)
    (by rw [List.length_replicate]) enough fun _ => 0
  rw [hrun enough le_rfl] at hrunning
  cases hrunning

end Dpi

end Embark
