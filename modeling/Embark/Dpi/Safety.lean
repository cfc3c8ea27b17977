/-
The accesses of the tokenizer to its arrays, checked: `dividers` has 256 slots and is indexed by
signed characters, `tokenize` has 32 more slots than the text has bytes, and the free list has a
node for each token it is asked for. A call of `push` never gets through all of them with a byte of 128
or more where it looks one up in `dividers`. Without such bytes it does for every payload of at most
1500 bytes, and for all payloads of a greater length exactly with a table that has no divider below 128.
-/
import Embark.Dpi.Marks
import Embark.Dpi.Push
import Embark.Dpi.Tokens
import Mathlib.Data.Set.Card

namespace Embark

namespace Dpi

/-! ## Checked accesses -/

/-- `dividers[i]`. -/
def dividerAt (dividers : Int → Bool) (i : Int) : Option Bool :=
  if 0 ≤ i ∧ i < 256 then some (dividers i) else none

/-- `tokenize[j]`, read. -/
def markAt (size : Nat) (tokenize : Nat → Bool) (j : Nat) : Option Bool :=
  if j < size then some (tokenize j) else none

/-- `tokenize[j] = true`. -/
def setMark (size : Nat) (tokenize : Nat → Bool) (j : Nat) : Option (Nat → Bool) :=
  if j < size then some fun i => if i = j then true else tokenize i else none

/-- `selected`, with the accesses that its operators evaluate. -/
def selectedChecked (text : Memory) (dividers : Int → Bool) (startidx endidx : Nat) : Option Bool := do
  let inclusiveleft ← dividerAt dividers (text startidx).toInt
  let left ← if inclusiveleft then some true else dividerAt dividers 0x61
  if left then
    let inclusiveright ← dividerAt dividers (text endidx).toInt
    if inclusiveright then some true else dividerAt dividers (text (endidx + 1)).toInt
  else some false

/-- `fillMarks`. -/
def fillMarksChecked (size endidx : Nat) : Nat → Nat → Nat → (Nat → Bool) → Option (Nat → Bool)
  | 0, _, _, tokenize => some tokenize
  | n + 1, j, upto, tokenize =>
    if upto < endidx ∧ j ≤ endidx + 1 then do
      let mark ← markAt size tokenize j
      let upto := if mark then j + minTokenSize - 1 else upto
      if upto = j - 1 then
        let tokenize ← setMark size tokenize j
        fillMarksChecked size endidx n (j + 1) (j + minTokenSize - 1) tokenize
      else fillMarksChecked size endidx n (j + 1) upto tokenize
    else some tokenize

/-- `markWindow`. -/
def markWindowChecked (size : Nat) (text : Memory) (dividers : Int → Bool) (roundsize : Nat) (tokenize : Nat → Bool)
    (startidx : Nat) : Option (Nat → Bool) := do
  let endidx := startidx + roundsize - 1
  if ← selectedChecked text dividers startidx endidx then
    let tokenize ← setMark size tokenize startidx
    let tokenize ← setMark size tokenize endidx
    fillMarksChecked size endidx (endidx + 1 - startidx) (startidx + 1) (startidx + minTokenSize - 1) tokenize
  else some tokenize

/-- `tokenize`. -/
def tokenizeChecked (text : Memory) (textlen : Nat) (dividers : Int → Bool) : Option (Nat → Bool) :=
  (List.range' minTokenSize (maxTokenSize + 1 - minTokenSize)).foldlM
    (fun tok roundsize => (List.range (textlen + 1 - roundsize)).foldlM
      (markWindowChecked (textlen + maxTokenSize) text dividers roundsize) tok)
    fun _ => false

/-- `get_user_tokens_from_buffer_easy_3`; taking a node from an empty free list is `none` already
in `takeTokens`. -/
def getUserTokensChecked (text : Memory) (textlen : Nat) (dividers : Int → Bool) (pool : Pool) :
    Option (Option Nat × Pool) := do
  let tok ← tokenizeChecked text textlen dividers
  takeTokens text tok (textlen + maxTokenSize) 0 none pool

/-! ## When the accesses are in range -/

/-- The bytes of a window that are looked up are below 128: the first one, if the left test passes
the last one, and if that one is no divider the byte behind it. -/
def IndexBytes (text : Memory) (dividers : Int → Bool) (s e : Nat) : Prop :=
  (text s).toNat < 128 ∧ (dividers (text s).toInt ∨ dividers 0x61 →
    (text e).toNat < 128 ∧ (dividers (text e).toInt = false → (text (e + 1)).toNat < 128))

instance (text : Memory) (dividers : Int → Bool) (s e : Nat) : Decidable (IndexBytes text dividers s e) :=
  inferInstanceAs (Decidable (_ ∧ _))

/-- The offset begins or ends a window that passes the test. -/
def EdgeOffset (text : Memory) (textlen : Nat) (dividers : Int → Bool) (i : Nat) : Prop :=
  ∃ s e, IsWindow textlen s e ∧ selected text dividers s e ∧ (i = s ∨ i = e)

/-- The offset lies in a window that passes the test. -/
def WindowOffset (text : Memory) (textlen : Nat) (dividers : Int → Bool) (i : Nat) : Prop :=
  ∃ s e, IsWindow textlen s e ∧ selected text dividers s e ∧ s ≤ i ∧ i ≤ e

theorem dividerAt_byte (dividers : Int → Bool) (b : Byte) :
    dividerAt dividers b.toInt = if b.toNat < 128 then some (dividers b.toInt) else none := by
  have hb := b.isLt
  have hrange : 0 ≤ b.toInt ∧ b.toInt < 256 ↔ b.toNat < 128 := by
    rw [BitVec.toInt_eq_toNat_cond]
    split_ifs <;> omega
  unfold dividerAt
  simp only [hrange]

/-- The test of the right edge. -/
theorem rightChecked_eq (text : Memory) (dividers : Int → Bool) (e : Nat) :
    ((dividerAt dividers (text e).toInt).bind fun inclusiveright =>
      if inclusiveright then some true else dividerAt dividers (text (e + 1)).toInt) =
    if (text e).toNat < 128 ∧ (dividers (text e).toInt = false → (text (e + 1)).toNat < 128) then
      some (dividers (text e).toInt || dividers (text (e + 1)).toInt) else none := by
  simp only [dividerAt_byte]
  by_cases he : (text e).toNat < 128
  · cases hr : dividers (text e).toInt with
    | true => simp [he]
    | false => simp [he]
  · simp [he]

theorem selectedChecked_eq (text : Memory) (dividers : Int → Bool) (s e : Nat) :
    selectedChecked text dividers s e = if IndexBytes text dividers s e then some (selected text dividers s e)
    else none := by
  have ha : dividerAt dividers 0x61 = some (dividers 0x61) := if_pos (by decide)
  unfold selectedChecked IndexBytes selected
  simp only [Option.bind_eq_bind, rightChecked_eq, ha]
  rw [dividerAt_byte]
  by_cases hs : (text s).toNat < 128
  · by_cases hl : dividers (text s).toInt
    · simp [hs, hl]
    · by_cases h61 : dividers 0x61 <;> simp [hs, hl, h61]
  · simp [hs]

/-- With room behind the window the marks are all in range. -/
theorem fillMarksChecked_eq {size endidx : Nat} (hsize : endidx + 1 < size) : ∀ (n j upto : Nat) (tok : Nat → Bool),
    fillMarksChecked size endidx n j upto tok = some (fillMarks endidx n j upto tok)
  | 0, _, _, _ => rfl
  | n + 1, j, upto, tok => by
    unfold fillMarksChecked fillMarks
    by_cases hc : upto < endidx ∧ j ≤ endidx + 1
    · have hread : markAt size tok j = some (tok j) := if_pos (by omega)
      have hwrite : setMark size tok j = some fun i => if i = j then true else tok i := if_pos (by omega)
      rw [if_pos hc, if_pos hc, hread]
      simp only [Option.bind_eq_bind, Option.bind_some, hwrite]
      generalize (if tok j then j + minTokenSize - 1 else upto) = upto'
      split
      · exact fillMarksChecked_eq hsize ..
      · exact fillMarksChecked_eq hsize ..
    · rw [if_neg hc, if_neg hc]

theorem markWindowChecked_eq {size roundsize startidx : Nat} (hr : 0 < roundsize) (hsize : startidx + roundsize < size)
    (text : Memory) (dividers : Int → Bool) (tok : Nat → Bool) :
    markWindowChecked size text dividers roundsize tok startidx =
      if IndexBytes text dividers startidx (startidx + roundsize - 1) then
        some (markWindow text dividers roundsize tok startidx) else none := by
  unfold markWindowChecked markWindow
  simp only [selectedChecked_eq, Option.bind_eq_bind]
  split
  · rw [Option.bind_some]
    split
    · have hstart : setMark size tok startidx = some fun i => if i = startidx then true else tok i := if_pos (by omega)
      have hend : ∀ tok : Nat → Bool, setMark size tok (startidx + roundsize - 1) =
          some fun i => if i = startidx + roundsize - 1 then true else tok i := fun _ => if_pos (by omega)
      rw [hstart, Option.bind_some, hend, Option.bind_some, fillMarksChecked_eq (by omega)]
      congr 2
      funext i
      by_cases h1 : i = startidx <;> by_cases h2 : i = startidx + roundsize - 1 <;> simp [h1, h2]
    · rfl
  · rfl

/-- A fold whose steps may fail, each by its element alone. -/
theorem foldlM_ite {α β : Type} {step : β → α → Option β} {f : β → α → β} {ok : α → Prop}
    [DecidablePred ok] :
    ∀ {l : List α} {b : β}, (∀ x ∈ l, ∀ b, step b x = if ok x then some (f b x) else none) →
    l.foldlM step b = if ∀ x ∈ l, ok x then some (l.foldl f b) else none
  | [], b, _ => by simp
  | x :: l, b, h => by
    rw [List.foldlM_cons, h x (by simp), List.foldl_cons]
    by_cases hx : ok x
    · have ih := foldlM_ite (l := l) (b := f b x) fun y hy => h y (List.mem_cons_of_mem _ hy)
      simp only [hx, if_true, Option.bind_eq_bind, Option.bind_some, ih, List.forall_mem_cons, true_and]
    · simp [hx]

/-- The marking gets through exactly when every byte that is looked up is below 128. -/
theorem tokenizeChecked_eq (text : Memory) (textlen : Nat) (dividers : Int → Bool) :
    ((∀ s e, IsWindow textlen s e → IndexBytes text dividers s e) →
      tokenizeChecked text textlen dividers = some (tokenize text textlen dividers)) ∧
    (¬ (∀ s e, IsWindow textlen s e → IndexBytes text dividers s e) →
      tokenizeChecked text textlen dividers = none) := by
  have hround : ∀ r ∈ List.range' minTokenSize (maxTokenSize + 1 - minTokenSize), ∀ tok : Nat → Bool,
      (List.range (textlen + 1 - r)).foldlM (markWindowChecked (textlen + maxTokenSize) text dividers r) tok =
        if ∀ s ∈ List.range (textlen + 1 - r), IndexBytes text dividers s (s + r - 1) then
          some ((List.range (textlen + 1 - r)).foldl (markWindow text dividers r) tok) else none := by
    intro r hr tok
    rw [List.mem_range'_1] at hr
    simp only [minTokenSize, maxTokenSize] at hr
    refine foldlM_ite fun s hs b => ?_
    rw [List.mem_range] at hs
    exact markWindowChecked_eq (by omega) (by simp only [maxTokenSize]; omega) text dividers b
  have hall :
    (∀ r ∈ List.range' minTokenSize (maxTokenSize + 1 - minTokenSize), ∀ s ∈ List.range (textlen + 1 - r),
      IndexBytes text dividers s (s + r - 1)) ↔ ∀ s e, IsWindow textlen s e → IndexBytes text dividers s e := by
    simp only [List.mem_range'_1, List.mem_range, minTokenSize, maxTokenSize]
    constructor
    · intro h s e hw
      have h1 := hw.lower
      have h2 := hw.upper
      have h3 := hw.inside
      have hse := h (e + 1 - s) ⟨by omega, by omega⟩ s (by omega)
      rwa [show s + (e + 1 - s) - 1 = e by omega] at hse
    · intro h r hr s hs
      exact h s (s + r - 1) ⟨by omega, by omega, by omega⟩
  have hdef : tokenizeChecked text textlen dividers =
      if ∀ r ∈ List.range' minTokenSize (maxTokenSize + 1 - minTokenSize), ∀ s ∈ List.range (textlen + 1 - r),
        IndexBytes text dividers s (s + r - 1) then some (tokenize text textlen dividers) else none :=
    foldlM_ite hround
  rw [hdef]
  exact ⟨fun h => if_pos (hall.2 h), fun h => if_neg fun h' => h (hall.1 h')⟩

/-! ## How many nodes are needed -/

section Marks

variable {text : Memory} {textlen : Nat} {dividers : Int → Bool}

theorem ncard_marks : {i | i ∈ marks text textlen dividers}.ncard = (marks text textlen dividers).length := by
  have hnodup : (marks text textlen dividers).Nodup := marks_pairwise.imp Nat.ne_of_lt
  rw [← List.toFinset_card_of_nodup hnodup, ← Set.ncard_coe_finset, List.coe_toFinset]

/-- Both ends of a window that passes are marked. -/
theorem ncard_edgeOffset_le :
    {i | EdgeOffset text textlen dividers i}.ncard ≤ (marks text textlen dividers).length := by
  rw [← ncard_marks]
  refine Set.ncard_le_ncard ?_ (List.finite_toSet _)
  rintro i ⟨s, e, hw, hsel, rfl | rfl⟩
  · exact mem_marks.2 (tokenize_covers hw hsel).first
  · exact mem_marks.2 (tokenize_last hw hsel)

/-- No mark falls outside the windows that pass. -/
theorem length_marks_le_ncard :
    (marks text textlen dividers).length ≤ {i | WindowOffset text textlen dividers i}.ncard := by
  rw [← ncard_marks]
  refine Set.ncard_le_ncard (fun i hi => ?_) ((Set.finite_lt_nat textlen).subset ?_)
  · obtain ⟨s, e, hw, hsel, hcase⟩ := tokenize_cases (mem_marks.1 hi)
    have hle := hw.lower
    refine ⟨s, e, hw, hsel, ?_⟩
    omega
  · rintro i ⟨s, e, hw, -, -, hi⟩
    exact lt_of_le_of_lt hi hw.inside

/-- In a text of nothing but one divider every window passes, so every offset is marked. -/
theorem length_marks_const {c : Byte} (hc : dividers c.toInt) (hlen : 15 ≤ textlen) :
    textlen ≤ (marks (fun _ => c) textlen dividers).length := by
  have hsel : ∀ s e, selected (fun _ => c) dividers s e := by
    intro s e
    simp [selected, hc]
  have hsub : List.range textlen ⊆ marks (fun _ => c) textlen dividers := by
    intro i hi
    rw [List.mem_range] at hi
    rw [mem_marks]
    by_cases hfirst : i + 8 ≤ textlen
    · exact (tokenize_covers (e := i + 7) ⟨by omega, by omega, by omega⟩ (hsel i _)).first
    · exact tokenize_last (s := i - 7) ⟨by omega, by omega, by omega⟩ (hsel _ i)
  have hle := (List.nodup_range.subperm hsub).length_le
  rwa [List.length_range] at hle

/-- Without a divider below 128 no window passes. -/
theorem not_selected {s e : Nat} (hnone : ∀ c : Byte, c.toNat < 128 → dividers c.toInt = false)
    (hs : (text s).toNat < 128) : selected text dividers s e = false := by
  have ha : dividers 0x61 = false := hnone 0x61 (by decide)
  simp [selected, hnone (text s) hs, ha]

theorem marks_eq_nil (hnone : ∀ c : Byte, c.toNat < 128 → dividers c.toInt = false)
    (hfirst : ∀ s e, IsWindow textlen s e → (text s).toNat < 128) : marks text textlen dividers = [] := by
  refine List.eq_nil_iff_forall_not_mem.2 fun i hi => ?_
  obtain ⟨s, e, hw, hsel, -⟩ := tokenize_cases (mem_marks.1 hi)
  rw [not_selected hnone (hfirst s e hw)] at hsel
  cases hsel

end Marks

/-! ## A call of `push` -/

namespace MBArkDPI

section Push

variable (aes : Vector Byte 16 → Vector Byte 16) (dividers : Int → Bool)

/-- `push` with the accesses of the tokenizer checked. -/
def pushChecked (fuel : Nat) (pool : Pool) (p : Packet) : Option (List Sent × Pool) :=
  let forward : Sent := ⟨0, p.data.slice 0 p.length⟩
  if isHttp p then
    let bytes := payloadBytes p
    if (minTokenSize : Int) ≤ bytes then do
      let textlen := (bytes % 2 ^ 16).toNat
      let header := p.data.slice 0 headerLen
      let (ln, pool) ← getUserTokensChecked (payload p) textlen dividers pool
      let (sent, seg, pool) ← sendTokens aes header fuel ln [] header pool
      return (sent ++ [⟨1, seg⟩, forward], pool)
    else some ([forward], pool)
  else some ([forward], pool)

/-- A packet from or to port 80 whose payload has 8 to 65495 bytes. -/
structure Tokenizable (p : Packet) : Prop where
  http : isHttp p
  lower : headerLen + minTokenSize ≤ p.length
  upper : p.length ≤ headerLen + 65495

instance (p : Packet) : Decidable (Tokenizable p) :=
  decidable_of_iff (isHttp p ∧ headerLen + minTokenSize ≤ p.length ∧ p.length ≤ headerLen + 65495)
    ⟨fun h => ⟨h.1, h.2.1, h.2.2⟩, fun h => ⟨h.1, h.2, h.3⟩⟩

/-- The length of the payload. -/
def payloadLen (p : Packet) : Nat := p.length - headerLen

/-- Every byte of the payload that is looked up in `dividers`, and the byte behind it where that is,
is below 128. -/
def IndexBytesOf (p : Packet) : Prop :=
  ∀ s e, IsWindow (payloadLen p) s e → IndexBytes (payload p) dividers s e

section Call

variable {aes dividers} {fuel : Nat} {pool : Pool} {p : Packet}

/-- The call, down to the tokenizer. -/
theorem pushChecked_eq (hp : Tokenizable p) : pushChecked aes dividers fuel pool p =
    (getUserTokensChecked (payload p) (payloadLen p) dividers pool).bind fun r =>
      (sendTokens aes (p.data.slice 0 headerLen) fuel r.1 [] (p.data.slice 0 headerLen) r.2).bind fun r =>
        some (r.1 ++ [⟨1, r.2.1⟩, ⟨0, p.data.slice 0 p.length⟩], r.2.2) := by
  have h1 := hp.lower
  have h2 := hp.upper
  simp only [headerLen, minTokenSize] at h1 h2
  have hbytes : payloadBytes p = (p.length : Int) - headerLen := by
    unfold payloadBytes headerLen
    exact Int.bmod_eq_of_le (by omega) (by omega)
  have hlen : (payloadBytes p % 2 ^ 16).toNat = payloadLen p := by
    rw [hbytes]
    unfold payloadLen headerLen
    omega
  have hmin : (minTokenSize : Int) ≤ payloadBytes p := by
    rw [hbytes]
    unfold minTokenSize headerLen
    omega
  unfold pushChecked
  simp only [hp.http, if_true, hmin, hlen]
  rfl

/-- With all looked-up bytes below 128 and at most 1500 marks the call completes. -/
theorem pushChecked_isSome (hfuel : poolSize < fuel) (hpool : pool.Ready) (hp : Tokenizable p)
    (hbytes : IndexBytesOf dividers p) (hmarks : (marks (payload p) (payloadLen p) dividers).length ≤ poolSize) :
    (pushChecked aes dividers fuel pool p).isSome := by
  obtain ⟨ln, pool₁, tokens, free, htok, h, -⟩ :=
    getUserTokensFromBuffer_holding (payload p) dividers hpool hmarks
  obtain ⟨groups, group, pool₂, hrun, -⟩ :=
    @sendTokens_holding aes p _ _ _ _ _ [] [] h (lt_of_le_of_lt (Nat.le.intro h.length_add) hfuel)
      length_tokenPacket_nil_lt (by simp)
  rw [tokenPacket_nil, List.map_nil] at hrun
  have hget : getUserTokensChecked (payload p) (payloadLen p) dividers pool = some (ln, pool₁) := by
    unfold getUserTokensChecked
    rw [(tokenizeChecked_eq _ _ _).1 hbytes]
    exact htok
  rw [pushChecked_eq hp, hget, Option.bind_some, hrun]
  rfl

/-- A byte of 128 or more at an index, or a mark too many, stops it. -/
theorem pushChecked_eq_none (hpool : pool.Ready) (hp : Tokenizable p) (h : ¬ (IndexBytesOf dividers p ∧
    (marks (payload p) (payloadLen p) dividers).length ≤ poolSize)) : pushChecked aes dividers fuel pool p =
      none := by
  have hget : getUserTokensChecked (payload p) (payloadLen p) dividers pool = none := by
    unfold getUserTokensChecked
    by_cases hbytes : IndexBytesOf dividers p
    · obtain ⟨free, hfree, hlen⟩ := hpool.free
      have hmarks : free.length < (marks (payload p) (payloadLen p) dividers).length := by
        rw [hlen]
        exact Nat.lt_of_not_le fun hle => h ⟨hbytes, hle⟩
      rw [(tokenizeChecked_eq _ _ _).1 hbytes]
      exact getUserTokensFromBuffer_none _ _ _ hfree hmarks
    · rw [(tokenizeChecked_eq _ _ _).2 hbytes]
      rfl
  rw [pushChecked_eq hp, hget]
  rfl

/-- What a call needs that completes. -/
theorem of_pushChecked_isSome (hpool : pool.Ready) (hp : Tokenizable p)
    (hsome : (pushChecked aes dividers fuel pool p).isSome) :
    IndexBytesOf dividers p ∧ (marks (payload p) (payloadLen p) dividers).length ≤ poolSize := by
  by_contra h
  rw [pushChecked_eq_none hpool hp h] at hsome
  cases hsome

/-- Texts of at most 1500 bytes have no more marks. -/
theorem pushChecked_isSome_of_short (hfuel : poolSize < fuel) (hpool : pool.Ready) (hp : Tokenizable p)
    (hle : payloadLen p ≤ poolSize) (hbytes : IndexBytesOf dividers p) :
    (pushChecked aes dividers fuel pool p).isSome :=
  pushChecked_isSome hfuel hpool hp hbytes (length_marks_le.trans hle)

end Call

/-- `slashPacket` with another payload, of `n` bytes. -/
def withPayload (text : Memory) (n : Nat) : Packet :=
  { slashPacket with
    data := fun i => if i < headerLen then slashPacket.data i else text (i - headerLen)
    length := headerLen + n }

theorem payload_withPayload (text : Memory) (n : Nat) : payload (withPayload text n) = text := by
  funext k
  unfold payload withPayload
  dsimp only
  rw [if_neg (by omega), Nat.add_sub_cancel_left]

theorem payloadLen_withPayload (text : Memory) (n : Nat) : payloadLen (withPayload text n) = n :=
  Nat.add_sub_cancel_left ..

theorem tokenizable_withPayload (text : Memory) {n : Nat} (h1 : 8 ≤ n) (h2 : n ≤ 65495) :
    Tokenizable (withPayload text n) := by
  refine ⟨?_, ?_, ?_⟩
  · show isHttp slashPacket
    decide
  · show headerLen + 8 ≤ headerLen + n
    omega
  · show headerLen + n ≤ headerLen + 65495
    omega

/-- A payload of nothing but one character below 128. -/
theorem indexBytesOf_const {dividers : Int → Bool} {c : Byte} {n : Nat} (hc : c.toNat < 128) :
    IndexBytesOf dividers (withPayload (fun _ => c) n) := by
  intro s e _
  rw [payload_withPayload]
  exact ⟨hc, fun _ => ⟨hc, fun _ => hc⟩⟩

/-- A call for a tokenizable packet, from a pool with all its nodes free, keeps every access to its
arrays in range and never takes a node from an empty list: only if every byte it looks up is below
128, and no more than 1500 offsets begin or end a window that passes; if so and no more than 1500
offsets lie in such windows, which is always the case for a payload of at most 1500 bytes; and for all
payloads of `n` bytes exactly when `n` is at most 1500 or the table has no divider below 128. -/
theorem pushChecked_isSome_iff {fuel : Nat} (hfuel : poolSize < fuel) {pool : Pool} (hpool : pool.Ready) :
    (∀ p, Tokenizable p → (pushChecked aes dividers fuel pool p).isSome →
      IndexBytesOf dividers p ∧ {i | EdgeOffset (payload p) (payloadLen p) dividers i}.ncard ≤ poolSize) ∧
    (∀ p, Tokenizable p → IndexBytesOf dividers p →
      {i | WindowOffset (payload p) (payloadLen p) dividers i}.ncard ≤ poolSize →
      (pushChecked aes dividers fuel pool p).isSome) ∧
    (∀ p, Tokenizable p → payloadLen p ≤ poolSize →
      ((pushChecked aes dividers fuel pool p).isSome ↔ IndexBytesOf dividers p)) ∧
    ∀ n, 8 ≤ n → n ≤ 65495 →
      ((∀ p, Tokenizable p → payloadLen p = n → IndexBytesOf dividers p →
        (pushChecked aes dividers fuel pool p).isSome) ↔
        n ≤ poolSize ∨ ∀ c : Byte, c.toNat < 128 → dividers c.toInt = false) := by
  refine ⟨fun p hp hsome => ?_, fun p hp hbytes hle => ?_, fun p hp hle => ?_,
    fun n h8 hmax => ⟨fun hall => ?_, ?_⟩⟩
  · exact (of_pushChecked_isSome hpool hp hsome).imp_right ncard_edgeOffset_le.trans
  · exact pushChecked_isSome hfuel hpool hp hbytes (length_marks_le_ncard.trans hle)
  · exact ⟨fun hsome => (of_pushChecked_isSome hpool hp hsome).1, pushChecked_isSome_of_short hfuel hpool hp hle⟩
  · by_contra hno
    push Not at hno
    obtain ⟨hlong, c, hc128, hc⟩ := hno
    rw [ne_eq, Bool.not_eq_false] at hc
    have hp := tokenizable_withPayload (fun _ => c) h8 hmax
    have hsome := hall _ hp (payloadLen_withPayload _ n) (indexBytesOf_const hc128)
    have hmarks := (of_pushChecked_isSome hpool hp hsome).2
    rw [payload_withPayload, payloadLen_withPayload] at hmarks
    have h1500 : poolSize = 1500 := rfl
    have hle := (length_marks_const hc (by omega)).trans hmarks
    omega
  · rintro (hle | hnone) p hp hlen hbytes
    · exact pushChecked_isSome_of_short hfuel hpool hp (hlen ▸ hle) hbytes
    · refine pushChecked_isSome hfuel hpool hp hbytes ?_
      rw [marks_eq_nil hnone fun s e hw => (hbytes s e hw).1]
      exact Nat.zero_le _

/-- The windows of a text of eight bytes. -/
theorem isWindow_eight {s e : Nat} (hw : IsWindow 8 s e) : s = 0 ∧ e = 7 := by
  have h1 := hw.lower
  have h2 := hw.inside
  omega

theorem pushChecked_isSome_iff_slash : Tokenizable slashPacket ∧
    (pushChecked blueAes (· ∈ dividerChars) 1501 Pool.init slashPacket).isSome := by
  have hp : Tokenizable slashPacket := by decide
  refine ⟨hp, ((pushChecked_isSome_iff blueAes _ (by decide) Pool.init_ready).2.2.1 _ hp (by decide)).2 ?_⟩
  intro s e hw
  obtain ⟨rfl, rfl⟩ := isWindow_eight hw
  decide

/-- The text `éééé` in UTF-8. -/
def accents : Memory := fun i => if i % 2 = 0 then 0xc3 else 0xa9

/-- Nothing but slashes. -/
def slashes : Memory := fun _ => 0x2f

/-- Bytes from 128 on index `dividers` below its start, and 1501 slashes need 1501 nodes. -/
theorem push_unsafe :
    (Tokenizable (withPayload accents 8) ∧
      pushChecked blueAes (· ∈ dividerChars) 1501 Pool.init (withPayload accents 8) = none) ∧
    (Tokenizable (withPayload slashes 1501) ∧
      pushChecked blueAes (· ∈ dividerChars) 1501 Pool.init (withPayload slashes 1501) = none) := by
  have ha := tokenizable_withPayload accents (n := 8) (by decide) (by decide)
  have hs := tokenizable_withPayload slashes (n := 1501) (by decide) (by decide)
  refine ⟨⟨ha, pushChecked_eq_none Pool.init_ready ha fun h => ?_⟩,
    ⟨hs, pushChecked_eq_none Pool.init_ready hs fun h => ?_⟩⟩
  · have hfirst := (h.1 0 7 ⟨by decide, by decide, by decide⟩).1
    rw [payload_withPayload] at hfirst
    exact absurd hfirst (by decide)
  · have hmarks := h.2
    rw [payload_withPayload, payloadLen_withPayload] at hmarks
    exact absurd ((length_marks_const (by decide) (by decide)).trans hmarks) (by decide)

end Push

end MBArkDPI

end Dpi

end Embark
