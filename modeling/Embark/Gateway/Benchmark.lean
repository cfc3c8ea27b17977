/-
The loading loop of the benchmark's `main` beside `MBArkFirewall::initialize`. The benchmark has a
parser of its own, on `std::string` and `std::istringstream`. It reads the sources and the ports as
the gateway does; it drops the first character of the destination, where there is no `@`, and looks
for a colon where the protocol has a slash.
-/
import Embark.Gateway.RuleTrees

namespace Embark

/-! ## Strings and streams -/

/-- `std::string::substr(pos, n)` with `int` arguments: a negative `pos` is behind every string and
throws, a negative `n` is larger than every length. -/
def substr (s : List Char) (pos n : Int) : Option (List Char) :=
  if 0 ≤ pos ∧ pos ≤ s.length then
    some (if n < 0 then s.drop pos.toNat else (s.drop pos.toNat).take n.toNat)
  else none

/-- `std::string::substr(pos)`. -/
def substrFrom (s : List Char) (pos : Int) : Option (List Char) := substr s pos (-1)

/-- `s >> x` for an `int`, on the characters a stream has left (`none` after a failure): what it stores
in `x`, if anything, and the stream after it. -/
def extractInt : Option (List Char) → Option Int × Option (List Char)
  | none => (none, none)
  | some s =>
    match s.dropWhile isSpace with
    | [] => (none, none)
    | c :: t =>
      let (neg, u) := takeSign (c :: t)
      let n : Int := Nat.ofDigitChars 10 (u.takeWhile Char.isDigit) 0
      let n := if neg then -n else n
      if u.takeWhile Char.isDigit = [] then (some 0, none)
      else if n < -2 ^ 31 then (some (-2 ^ 31), none)
      else if 2 ^ 31 ≤ n then (some (2 ^ 31 - 1), none)
      else (some n, some (u.dropWhile Char.isDigit))

/-- `s >> c` for a `char` that is not looked at. -/
def extractChar : Option (List Char) → Option (List Char)
  | none => none
  | some s =>
    match s.dropWhile isSpace with
    | [] => none
    | _ :: t => some t

/-- `byte << k`, the bits an `int` has room for; other values are undefined. -/
def shiftInt (byte : Int) (k : Nat) : Option Int :=
  if 0 ≤ byte ∧ byte * 2 ^ k < 2 ^ 32 then some (BitVec.ofInt 32 (byte * 2 ^ k)).toInt else none

namespace RuleBench

/-! ## The loop -/

/-- `(byte1 << 24) + (byte2 << 16) + (byte3 << 8) + byte4`. -/
def joinBytes (byte1 byte2 byte3 byte4 : Int) : Option (BitVec 32) := do
  let x1 ← shiftInt byte1 24
  let x2 ← shiftInt byte2 16
  let x3 ← shiftInt byte3 8
  let x ← int32 (x1 + x2)
  let x ← int32 (x + x3)
  let x ← int32 (x + byte4)
  return BitVec.ofInt 32 x

/-- The four bytes of a prefix, and the address; a byte the stream does not store is read
uninitialised, here `none`. -/
def readAddr (pre : List Char) : Option (BitVec 32) :=
  let (byte1, s) := extractInt (some pre)
  let (byte2, s) := extractInt (extractChar s)
  let (byte3, s) := extractInt (extractChar s)
  let (byte4, _) := extractInt (extractChar s)
  match byte1, byte2, byte3, byte4 with
  | some byte1, some byte2, some byte3, some byte4 => joinBytes byte1 byte2 byte3 byte4
  | _, _, _, _ => none

/-- `umask`; a shift by a negative count is undefined. -/
def netmask (maskLen : Int) : Option (BitVec 32) :=
  if maskLen ≤ 0 then some 0 else if maskLen ≤ 32 then some (0xffffffff <<< (32 - maskLen.toNat)) else none

/-- "ip src" and "ip dst", which both skip the first character. -/
def readPrefix (component : List Char) : Option (BitVec 32 × BitVec 32) := do
  let delim := findLeft component '/'
  let pre ← substr component 1 (delim - 1)
  let maskLen ← atoi (← substrFrom component (delim + 1))
  let umask ← netmask maskLen
  let addr ← readAddr pre
  return (addr &&& umask, addr ||| ~~~umask)

/-- "port src" and "port dst". -/
def readPorts (component : List Char) : Option (BitVec 16 × BitVec 16) := do
  let delim := findLeft component ':'
  let first ← substr component 0 delim
  let last ← substrFrom component (delim + 1)
  return (BitVec.ofInt 16 (← atoi first), BitVec.ofInt 16 (← atoi last))

/-- "proto". -/
def readProto (component : List Char) : Option (BitVec 8) := do
  let delim := findLeft component ':'
  let val ← substr component 0 delim
  let mask ← substrFrom component (delim + 1)
  return (strtoulHex val &&& strtoulHex mask).setWidth 8

/-- The keys that one round of the loop adds, for a line without its line feed. -/
def lineEndpoints (line : List Char) : Option Endpoints := do
  let component := components [] line
  if 6 < component.length then none
  else
    let src ← readPrefix (component.getD 0 [])
    let dst ← readPrefix (component.getD 1 [])
    let srcPorts ← readPorts (component.getD 2 [])
    let dstPorts ← readPorts (component.getD 3 [])
    let proto ← readProto (component.getD 4 [])
    return ⟨[src.1, src.2], [dst.1, dst.2], [srcPorts.1, srcPorts.2], [dstPorts.1, dstPorts.2], [proto]⟩

/-- `while (std::getline(infile, line) && (i++ < n))`: the keys of the first `n` lines. -/
def load (n : Nat) (lines : List (List Char)) : Option Endpoints := do
  return .concat (← (lines.take n).mapM lineEndpoints)

end RuleBench

/-! ## Strings -/

section Strings

variable {s t u : List Char} {c : Char}

theorem substr_append (pre : List Char) : substr (pre ++ (s ++ t)) pre.length s.length = some s := by
  unfold substr
  rw [if_pos (by simp; omega), if_neg (by omega), Int.toNat_natCast, Int.toNat_natCast, List.drop_left, List.take_left]

theorem substr_zero : substr (s ++ t) 0 s.length = some s := substr_append []

theorem substrFrom_append : substrFrom (s ++ c :: t) (s.length + 1) = some t := by
  unfold substrFrom substr
  rw [if_pos (by simp; omega), if_pos (by omega), show ((s.length : Int) + 1).toNat = s.length + 1 by omega,
    List.append_cons, List.drop_left' (by simp)]

/-- An `int` out of a numeral, up to a character that is no digit. -/
theorem extractInt_numeral {n : Nat} (hs : IsNumeral s n) (hn : n < 2 ^ 31) (ht : EndsNumeral t) :
    extractInt (some (s ++ t)) = (some (n : Int), some t) := by
  obtain ⟨d, ds, hcons, hd⟩ := hs.exists_cons
  have hspace : (s ++ t).dropWhile isSpace = s ++ t := by
    rw [hcons, List.cons_append, List.dropWhile_cons, isSpace_of_isDigit hd]
    rfl
  have hdigits := hs.takeWhile ht
  have hrest : (s ++ t).dropWhile Char.isDigit = t := by
    have happ := List.takeWhile_append_dropWhile (p := Char.isDigit) (l := s ++ t)
    rw [hdigits] at happ
    exact List.append_cancel_left happ
  unfold extractInt
  rw [hcons, List.cons_append] at hspace hdigits hrest ⊢
  simp only [hspace, takeSign_of_isDigit hd, hdigits, hrest, Bool.false_eq_true, if_false]
  rw [← hcons, hs.value, if_neg hs.ne_nil, if_neg (by omega), if_neg (by omega)]

theorem extractChar_dot : extractChar (some ('.' :: t)) = some t := rfl

end Strings

namespace RuleBench

/-! ## Addresses -/

theorem toNat_host (q : Quad) :
    q.host.toNat = q.a.toNat * 2 ^ 24 + q.b.toNat * 2 ^ 16 + q.c.toNat * 2 ^ 8 + q.d.toNat := by
  have hb := q.b.isLt
  have hc := q.c.isLt
  have hd := q.d.isLt
  unfold Quad.host
  rw [BitVec.toNat_append, BitVec.toNat_append, BitVec.toNat_append, ← Nat.shiftLeft_add_eq_or_of_lt hb,
    ← Nat.shiftLeft_add_eq_or_of_lt hc, ← Nat.shiftLeft_add_eq_or_of_lt hd]
  simp only [Nat.shiftLeft_eq]
  omega

/-- A byte shifted within the positive range. -/
theorem shiftInt_of_le (b : Byte) {k : Nat} (hk : k ≤ 16) :
    shiftInt b.toNat k = some ((b.toNat * 2 ^ k : Nat) : Int) := by
  have hb := b.isLt
  have hpow : (2 : Nat) ^ k ≤ 2 ^ 16 := Nat.pow_le_pow_right (by decide) hk
  have hlt : b.toNat * 2 ^ k < 2 ^ 24 := by
    calc b.toNat * 2 ^ k ≤ b.toNat * 2 ^ 16 := Nat.mul_le_mul_left _ hpow
      _ < 2 ^ 24 := by omega
  have hcast : (b.toNat : Int) * 2 ^ k = (b.toNat * 2 ^ k : Nat) := by push_cast; rfl
  unfold shiftInt
  rw [hcast, if_pos (by omega), BitVec.toInt_ofInt, Int.bmod_eq_of_le (by omega) (by omega)]

/-- The first byte shifted to the sign bit. -/
theorem shiftInt_top (b : Byte) : ∃ z : Int, shiftInt b.toNat 24 = some z ∧ -2 ^ 31 ≤ z ∧ z ≤ 127 * 2 ^ 24 ∧
    (z = b.toNat * 2 ^ 24 ∨ z = b.toNat * 2 ^ 24 - 2 ^ 32) := by
  have hb := b.isLt
  unfold shiftInt
  rw [if_pos (by omega), BitVec.toInt_ofInt]
  refine ⟨_, rfl, ?_⟩
  by_cases hlow : b.toNat < 128
  · rw [Int.bmod_eq_of_le (by omega) (by omega)]
    omega
  · rw [Int.bmod_neg _ _ (by omega)]
    omega

theorem joinBytes_quad (q : Quad) : joinBytes q.a.toNat q.b.toNat q.c.toNat q.d.toNat = some q.host := by
  have hqa := q.a.isLt
  have hqb := q.b.isLt
  have hqc := q.c.isLt
  have hqd := q.d.isLt
  obtain ⟨z, hz, hlo, hhi, hval⟩ := shiftInt_top q.a
  have hhost := toNat_host q
  -- the sums of non-negative numbers onto one that is at most 127 times `2 ^ 24`
  have h1 : int32 (z + (q.b.toNat * 2 ^ 16 : Nat)) = some (z + (q.b.toNat * 2 ^ 16 : Nat)) :=
    int32_of_range (by omega) (by omega)
  have h2 : int32 (z + (q.b.toNat * 2 ^ 16 : Nat) + (q.c.toNat * 2 ^ 8 : Nat)) =
      some (z + (q.b.toNat * 2 ^ 16 : Nat) + (q.c.toNat * 2 ^ 8 : Nat)) := int32_of_range (by omega) (by omega)
  have h3 : int32 (z + (q.b.toNat * 2 ^ 16 : Nat) + (q.c.toNat * 2 ^ 8 : Nat) + q.d.toNat) =
      some (z + (q.b.toNat * 2 ^ 16 : Nat) + (q.c.toNat * 2 ^ 8 : Nat) + q.d.toNat) :=
    int32_of_range (by omega) (by omega)
  have hsum : BitVec.ofInt 32 (z + (q.b.toNat * 2 ^ 16 : Nat) + (q.c.toNat * 2 ^ 8 : Nat) + q.d.toNat) = q.host := by
    apply BitVec.eq_of_toNat_eq
    rw [BitVec.toNat_ofInt]
    omega
  unfold joinBytes
  rw [hz, shiftInt_of_le q.b (k := 16) (by decide), shiftInt_of_le q.c (k := 8) (by decide)]
  simp only [Option.bind_eq_bind, Option.bind_some]
  rw [h1, Option.bind_some, h2, Option.bind_some, h3, Option.bind_some, hsum]
  rfl

/-- `istringstream` on a quad. -/
theorem readAddr_text {q : Quad} {s : List Char} (h : q.IsText s) : readAddr s = some q.host := by
  obtain ⟨a, b, c, d, ha, hb, hc, hd, rfl⟩ := h
  have hqa := q.a.isLt
  have hqb := q.b.isLt
  have hqc := q.c.isLt
  have hqd := q.d.isLt
  have hlast : extractInt (some d) = (some (q.d.toNat : Int), some []) := by
    have h := extractInt_numeral hd (by omega) endsNumeral_nil
    rwa [List.append_nil] at h
  unfold readAddr
  simp only [extractInt_numeral ha (by omega) endsNumeral_dot, extractInt_numeral hb (by omega) endsNumeral_dot,
    extractInt_numeral hc (by omega) endsNumeral_dot, extractChar_dot, hlast]
  exact joinBytes_quad q

theorem netmask_of_le {len : Nat} (h : len ≤ 32) : netmask len = some (Block.mask 32 len) := by
  unfold netmask
  rcases Nat.eq_zero_or_pos len with rfl | hpos
  · rfl
  · rw [if_neg (by omega), if_pos (by omega), Int.toNat_natCast]
    rfl

/-- The bits outside the mask are set in any case. -/
theorem or_not_mask (a : BitVec 32) (len : Nat) : a ||| ~~~Block.mask 32 len = Block.last a len := by
  rw [← Block.or_not_mask, ← Block.and_mask]
  ext i hi
  simp only [BitVec.getElem_or, BitVec.getElem_not, BitVec.getElem_and]
  cases a[i] <;> cases (Block.mask 32 len)[i] <;> rfl

/-- The prefix behind the first character of a component. -/
theorem readPrefix_cons {c : Char} {s n : List Char} {len : Nat} (hc : c ≠ '/') (hs : '/' ∉ s)
    (hn : IsNumeral n len) (hle : len ≤ 32) :
    readPrefix ((c :: s) ++ '/' :: n) = (readAddr s).map fun a => (Block.first a len, Block.last a len) := by
  have hslash : '/' ∉ c :: s := by
    rw [List.mem_cons, not_or]
    exact ⟨Ne.symm hc, hs⟩
  have hsub : substr ((c :: s) ++ '/' :: n) 1 ((c :: s).length - 1) = some s := by
    have h := substr_append (s := s) (t := '/' :: n) [c]
    rwa [show (([c] : List Char).length : Int) = 1 from rfl,
      show (s.length : Int) = (c :: s).length - 1 by simp] at h
  have hatoi : atoi n = some (len : Int) := hn.atoi_all (by omega)
  unfold readPrefix
  simp only [findLeft_append hslash, hsub, substrFrom_append, hatoi, netmask_of_le hle, Option.bind_eq_bind,
    Option.bind_some, Option.pure_def]
  cases readAddr s with
  | none => rfl
  | some a => simp only [Option.bind_some, Option.map_some, Block.and_mask, or_not_mask]

/-- Without a digit in front of the first dot the stream fails at once, and the other bytes are never
stored. -/
theorem readAddr_dot (s : List Char) : readAddr ('.' :: s) = none := rfl

theorem readPorts_text {r : PortRange} {s : List Char} (h : r.IsText s) : readPorts s = some (r.lo, r.hi) := by
  obtain ⟨first, last, rfl, hcolon, hfirst, hlast⟩ := h.split
  unfold readPorts
  simp only [findLeft_append hcolon, substr_zero, substrFrom_append, hfirst, hlast, ofInt_toNat, Option.bind_eq_bind,
    Option.bind_some, Option.pure_def]

/-- Without a colon both texts are the whole component, and `strtoul` stops at the slash. -/
theorem readProto_text {p m : List Char} {b c : BitVec 8} (hp : IsHexByte p b) (hm : IsHexByte m c) :
    readProto (p ++ '/' :: m) = some b := by
  have hcolon : ':' ∉ p ++ '/' :: m := by
    simp only [List.mem_append, List.mem_cons, not_or]
    exact ⟨hp.notMem (by decide) (by decide), by decide, hm.notMem (by decide) (by decide)⟩
  have hdelim : findLeft (p ++ '/' :: m) ':' = -1 := if_neg hcolon
  have hval : substr (p ++ '/' :: m) 0 (-1) = some (p ++ '/' :: m) := by
    unfold substr
    rw [if_pos (by constructor <;> omega), if_pos (by decide)]
    rfl
  have hb := hp.strtoulHex (t := '/' :: m) (by simp [hexDigit, Char.isDigit])
  have hlt := b.isLt
  unfold readProto
  simp only [hdelim, hval, substrFrom, show (-1 : Int) + 1 = 0 from rfl, hb, Option.bind_eq_bind, Option.bind_some,
    Option.pure_def, Option.some.injEq, BitVec.and_self]
  apply BitVec.eq_of_toNat_eq
  rw [BitVec.toNat_setWidth, BitVec.toNat_ofNat, Nat.mod_eq_of_lt (a := b.toNat) (by omega),
    Nat.mod_eq_of_lt (by omega)]

/-! ## Agreement of a line -/

/-- The digits of the first byte of the destination behind the first digit. -/
def dstDigits (line : List Char) : List Char := (((components [] line).getD 1 []).takeWhile Char.isDigit).drop 1

/-- The destination with those digits for its first byte. -/
def dstRead (r : Rule) (line : List Char) : Quad :=
  { r.dst.quad with a := BitVec.ofNat 8 (Nat.ofDigitChars 10 (dstDigits line) 0) }

/-- The first byte of the destination has a second digit, the first one makes no difference to the
bits of the prefix, and the mask keeps every bit of the protocol. -/
def Agrees (r : Rule) (line : List Char) : Prop :=
  dstDigits line ≠ [] ∧
    (dstRead r line).host.toNat / 2 ^ (32 - r.dst.len) = r.dst.quad.host.toNat / 2 ^ (32 - r.dst.len) ∧
    r.proto &&& r.protoMask = r.proto

/-- The number of the digits behind the first one is no larger. -/
theorem ofDigitChars_tail_le {c : Char} {ds : List Char} {n : Nat} (h : IsNumeral (c :: ds) n) :
    Nat.ofDigitChars 10 ds 0 ≤ n := by
  have hval := h.value
  rw [Nat.ofDigitChars_cons, Nat.ofDigitChars_eq_ofDigitChars_zero] at hval
  omega

/-- The destination behind its first character: nothing is stored where its first byte has one digit,
otherwise the digits that are left are its first byte. -/
theorem readPrefix_dst {p : RulePrefix} {s ds : List Char} (h : p.IsText s)
    (hds : (s.takeWhile Char.isDigit).drop 1 = ds) {q : Quad}
    (hq : q = { p.quad with a := BitVec.ofNat 8 (Nat.ofDigitChars 10 ds 0) }) :
    readPrefix s = if ds = [] then none else some (Block.first q.host p.len, Block.last q.host p.len) := by
  obtain ⟨_, n, ⟨a, b, c, d, ha, hb, hc, hd, rfl⟩, hn, rfl⟩ := h
  obtain ⟨c₀, a', rfl, hc₀⟩ := ha.exists_cons
  have hdigits : ds = a' := by
    rw [← hds, List.append_assoc (c₀ :: a'), List.cons_append (a := '.'), ha.takeWhile (endsNumeral_cons rfl)]
    rfl
  have hslash : '/' ∉ a' ++ '.' :: (b ++ '.' :: (c ++ '.' :: d)) := by
    simp only [List.mem_append, List.mem_cons, not_or]
    exact ⟨fun hmem => ha.notMem (c := '/') rfl (List.mem_cons_of_mem _ hmem), by decide, hb.notMem rfl, by decide,
      hc.notMem rfl, by decide, hd.notMem rfl⟩
  have hne : c₀ ≠ '/' := by
    rintro rfl
    cases hc₀
  have hread := readPrefix_cons hne hslash hn p.le
  rw [← List.cons_append] at hread
  rw [hread]
  by_cases hnil : a' = []
  · rw [if_pos (hdigits.trans hnil), hnil, List.nil_append, readAddr_dot]
    rfl
  · -- what is left of the first byte is a numeral, of a number no larger
    have hle := ofDigitChars_tail_le ha
    have hlt := p.quad.a.isLt
    have hnum : IsNumeral a' q.a.toNat := by
      refine ⟨hnil, fun e he => ha.isDigit e (List.mem_cons_of_mem _ he), ?_⟩
      rw [hq, hdigits, BitVec.toNat_ofNat, Nat.mod_eq_of_lt (by omega)]
    have hquad : q.IsText (a' ++ '.' :: (b ++ '.' :: (c ++ '.' :: d))) := by
      rw [hq] at hnum ⊢
      exact ⟨a', b, c, d, hnum, hb, hc, hd, rfl⟩
    rw [if_neg fun he => hnil (hdigits.symm.trans he), readAddr_text hquad]
    rfl

section Lines

variable {r : Rule} {line : List Char}

/-- The components as they are read. -/
theorem lineEndpoints_text (h : r.IsText line) : lineEndpoints line =
    if dstDigits line = [] then none
    else some { r.endpoints with
      dstAddr := [Block.first (dstRead r line).host r.dst.len, Block.last (dstRead r line).host r.dst.len]
      proto := [r.proto] } := by
  obtain ⟨s, d, sp, dp, p, m, rest, ⟨qs, ns, hqs, hns, rfl⟩, hd, hsp, hdp, hp, hm, hrest, hcomp⟩ :=
    h.components (List.not_mem_nil : '\t' ∉ [])
  rw [List.append_nil] at hcomp
  have hdigits : (d.takeWhile Char.isDigit).drop 1 = dstDigits line := by
    unfold dstDigits
    rw [hcomp]
    rfl
  have hsrc : readPrefix ('@' :: (qs ++ '/' :: ns)) = some (r.src.first, r.src.last) := by
    have hread := readPrefix_cons (c := '@') (by decide) (hqs.notMem (c := '/') rfl (by decide)) hns r.src.le
    rw [readAddr_text hqs] at hread
    exact hread
  have hdst := readPrefix_dst hd hdigits (q := dstRead r line) rfl
  have hfew : ¬ 6 < (('@' :: (qs ++ '/' :: ns)) :: d :: sp :: dp :: (p ++ '/' :: m) :: rest).length := by
    simp only [List.length_cons]
    omega
  unfold lineEndpoints
  rw [hcomp]
  simp only [hfew, if_false, List.getD_cons_zero, List.getD_cons_succ, hsrc, hdst, readPorts_text hsp,
    readPorts_text hdp, readProto_text hp hm, Option.bind_eq_bind, Option.bind_some, Option.pure_def]
  split_ifs
  · rfl
  · rfl

/-- A line agrees exactly when the benchmark reads the rule's endpoints off it. -/
theorem agrees_iff (h : r.IsText line) : Agrees r line ↔ lineEndpoints line = some r.endpoints := by
  rw [lineEndpoints_text h]
  unfold Agrees
  by_cases hnil : dstDigits line = []
  · simp [hnil]
  · rw [if_neg hnil, Option.some.injEq, Endpoints.ext_iff]
    simp only [Rule.endpoints, List.cons.injEq, and_true, true_and]
    rw [← Block.first_eq_iff]
    constructor
    · rintro ⟨-, hfirst, hproto⟩
      exact ⟨⟨hfirst, Block.last_eq_of_first_eq hfirst⟩, hproto.symm⟩
    · rintro ⟨⟨hfirst, -⟩, hproto⟩
      exact ⟨hnil, hfirst, hproto.symm⟩

/-- Both loaders add as many keys for a line. -/
theorem append_inj {es es' : Endpoints} {e : Endpoints} (h : r.IsText line) (he : lineEndpoints line = some e) :
    e.append es = r.endpoints.append es' ↔ e = r.endpoints ∧ es = es' := by
  rw [lineEndpoints_text h] at he
  split_ifs at he
  obtain rfl := Option.some.inj he
  simp only [Endpoints.append, Endpoints.ext_iff, Rule.endpoints, List.cons_append, List.nil_append, List.cons.injEq]
  tauto

end Lines

/-! ## Agreement of the loaders -/

theorem load_succ (n : Nat) (line : List Char) (lines : List (List Char)) : load (n + 1) (line :: lines) =
    (lineEndpoints line).bind fun e => (load n lines).map e.append := by
  unfold load
  rw [List.take_succ_cons, List.mapM_cons]
  cases lineEndpoints line with
  | none => rfl
  | some e =>
    simp only [Option.bind_eq_bind, Option.bind_some]
    cases (lines.take n).mapM lineEndpoints <;> rfl

/-- The loop reads what the rules denote exactly when it gets to the last line and every line agrees. -/
theorem load_eq_denoted_iff {rules : List Rule} {lines : List (List Char)}
    (h : List.Forall₂ Rule.IsText rules lines) :
    ∀ n, load n lines = some (denoted rules) ↔ lines.length ≤ n ∧ List.Forall₂ Agrees rules lines := by
  induction h with
  | nil =>
    intro n
    exact iff_of_true (by unfold load; rw [List.take_nil]; rfl) ⟨Nat.zero_le n, .nil⟩
  | @cons r line rules lines hr _ ih =>
    intro n
    cases n with
    | zero =>
      -- nothing is read, and the first rule denotes two source addresses
      refine iff_of_false (fun hload => ?_) fun hle => absurd hle.1 (Nat.not_succ_le_zero _)
      cases congrArg (Option.map Endpoints.srcAddr) hload
    | succ n =>
      rw [load_succ, List.length_cons, Nat.succ_le_succ_iff, List.forall₂_cons, agrees_iff hr,
        and_left_comm, ← ih n]
      cases he : lineEndpoints line with
      | none => simp
      | some e =>
        rw [Option.bind_some, Option.some.injEq, Option.map_eq_some_iff]
        constructor
        · rintro ⟨es, hes, heq⟩
          obtain ⟨rfl, rfl⟩ := (append_inj hr he).1 heq
          exact ⟨rfl, hes⟩
        · rintro ⟨rfl, hes⟩
          exact ⟨_, hes, rfl⟩

/-- The two loaders insert the same endpoints in the same order if and only if the limit lets the
benchmark read every line and every line agrees. -/
theorem load_agrees_iff {rules : List Rule} {lines : List (List Char)}
    (h : List.Forall₂ Rule.IsText rules lines) (n : Nat) (queryIp : List Char → Option (BitVec 32)) :
    (∃ e, load n lines = some e ∧ MBArkFirewall.insertions queryIp (lines.map (· ++ ['\n'])) = some e) ↔
      lines.length ≤ n ∧ List.Forall₂ Agrees rules lines := by
  rw [MBArkFirewall.insertions_eq (Forall₂.isRead h), ← load_eq_denoted_iff h n]
  constructor
  · rintro ⟨e, hload, he⟩
    rw [hload, he]
  · intro hload
    exact ⟨_, hload, rfl⟩

/-- A rule that survives the loss of the first digit of its destination. -/
def wideRule : Rule :=
  { MBArkFirewall.hostRule 0x0a000002 with dst := ⟨⟨10, 0, 0, 0⟩, 4, Nat.le_add_right 4 28⟩ }

theorem load_agrees_wideRule :
    ∃ e, load 1 [wideRule.text] = some e ∧
      MBArkFirewall.insertions (fun _ => none) ([wideRule.text].map (· ++ ['\n'])) = some e := by
  have hagrees : Agrees wideRule wideRule.text := ⟨by decide, by decide, by rfl⟩
  exact (load_agrees_iff (.cons wideRule.isText_text .nil) 1 _).2 ⟨le_rfl, .cons hagrees .nil⟩

/-- The first rule of the benchmark's own file. -/
def firstRule : Rule where
  src := ⟨⟨170, 226, 34, 116⟩, 4, Nat.le_add_right 4 28⟩
  dst := ⟨⟨124, 12, 85, 109⟩, 4, Nat.le_add_right 4 28⟩
  srcPorts := ⟨8175, 64662⟩
  dstPorts := ⟨49921, 61240⟩
  proto := 0x6d
  protoMask := 0xff

/-- Its line. -/
def firstLine : List Char :=
  "@170.226.34.116/4\t124.12.85.109/4\t8175 : 64662\t49921 : 61240\t0x6d/0xFF\t0xa08c/0x222a\t".toList

theorem isText_firstLine : firstRule.IsText firstLine := by
  refine ⟨"170.226.34.116/4".toList, "124.12.85.109/4".toList, "8175 : 64662".toList, "49921 : 61240".toList,
    "0x6d".toList, "0xFF".toList, "0xa08c/0x222a\t".toList, ?_, ?_, ?_, ?_, ?_, ?_,
      .inr ⟨"0xa08c/0x222a".toList, ?_, by rfl⟩,
    by rfl⟩
  · exact ⟨_, _, Quad.isText_text _, isNumeral_decimal _, by rfl⟩
  · exact ⟨_, _, Quad.isText_text _, isNumeral_decimal _, by rfl⟩
  · exact ⟨_, _, isNumeral_decimal _, isNumeral_decimal _, by rfl⟩
  · exact ⟨_, _, isNumeral_decimal _, isNumeral_decimal _, by rfl⟩
  · exact ⟨'6', 'd', 6, 13, by rfl, by rfl, by rfl, by rfl⟩
  · exact ⟨'F', 'F', 15, 15, by rfl, by rfl, by rfl, by rfl⟩
  · exact ⟨by decide, by decide, by decide⟩

/-- The benchmark takes its destination for 24.12.85.109, whose first four bits are others. -/
theorem not_agrees_firstLine : ¬ Agrees firstRule firstLine := by
  rintro ⟨-, hbits, -⟩
  revert hbits
  decide

theorem firstLine_disagrees : firstRule.IsText firstLine ∧ ¬ ∃ e, load 1 [firstLine] = some e ∧
    MBArkFirewall.insertions (fun _ => none) ([firstLine].map (· ++ ['\n'])) = some e := by
  have hlines : List.Forall₂ Rule.IsText [firstRule] [firstLine] := .cons isText_firstLine .nil
  refine ⟨isText_firstLine, ?_⟩
  rw [MBArkFirewall.insertions_eq (Forall₂.isRead hlines)]
  rintro ⟨e, hload, he⟩
  rw [← he, load_eq_denoted_iff hlines 1, List.forall₂_cons] at hload
  exact not_agrees_firstLine hload.2.1

end RuleBench

end Embark
