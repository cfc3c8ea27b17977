/-
Well-formed rule lines, the endpoints they denote, and the keys that `MBArkFirewall::initialize`
passes to `add` for a line. The loader interleaves reading a line with adding to seven trees; since
no tree depends on another, a line amounts to the keys it adds to each.
-/
import Embark.Gateway.Encryptor

namespace Embark

open RuleEncryptor (compatible ntoh128_ip6Address)

/-! ## Rules -/

/-- `a.b.c.d/len`. -/
structure RulePrefix where
  quad : Quad
  len : Nat
  le : len ≤ 32

/-- `lo : hi`. -/
structure PortRange where
  lo : BitVec 16
  hi : BitVec 16

/-- A rule of the firewall's file. -/
structure Rule where
  src : RulePrefix
  dst : RulePrefix
  srcPorts : PortRange
  dstPorts : PortRange
  proto : BitVec 8
  protoMask : BitVec 8

namespace RulePrefix

/-- The first address, in host order. -/
def first (p : RulePrefix) : BitVec 32 := Block.first p.quad.host p.len

/-- The last address. -/
def last (p : RulePrefix) : BitVec 32 := Block.last p.quad.host p.len

/-- A text of the prefix. -/
def IsText (p : RulePrefix) (s : List Char) : Prop :=
  ∃ q n, p.quad.IsText q ∧ IsNumeral n p.len ∧ s = q ++ '/' :: n

end RulePrefix

/-- A text of the range. -/
def PortRange.IsText (r : PortRange) (s : List Char) : Prop :=
  ∃ l h, IsNumeral l r.lo.toNat ∧ IsNumeral h r.hi.toNat ∧ s = l ++ ' ' :: ':' :: ' ' :: h

/-- `0x` and two digits of the byte, in either case. -/
def IsHexByte (s : List Char) (b : BitVec 8) : Prop :=
  ∃ c₁ c₂ d₁ d₂, hexDigit c₁ = some d₁ ∧ hexDigit c₂ = some d₂ ∧ 16 * d₁ + d₂ = b.toNat ∧
    s = ['0', 'x', c₁, c₂]

/-- Characters that end no component and no line. -/
def IsPlain (s : List Char) : Prop := '\t' ∉ s ∧ '\n' ∉ s ∧ '\r' ∉ s

/-- A line of the rule: five components, each ended by a tab, and at most one more. -/
def Rule.IsText (r : Rule) (line : List Char) : Prop :=
  ∃ s d sp dp p m further, r.src.IsText s ∧ r.dst.IsText d ∧ r.srcPorts.IsText sp ∧ r.dstPorts.IsText dp ∧
    IsHexByte p r.proto ∧ IsHexByte m r.protoMask ∧
      (further = [] ∨ ∃ f, IsPlain f ∧ further = f ++ ['\t']) ∧
    line = '@' :: s ++ '\t' :: (d ++ '\t' :: (sp ++ '\t' :: (dp ++ '\t' :: ((p ++ '/' :: m) ++ '\t' :: further))))

/-- A line is well-formed if it is a line of some rule. -/
def WellFormedLine (line : List Char) : Prop := ∃ r : Rule, r.IsText line

/-! ## Endpoints -/

/-- Keys for the five kinds of trees, in the order of the `add` calls; addresses in host order. -/
@[ext] structure Endpoints where
  srcAddr : List (BitVec 32)
  dstAddr : List (BitVec 32)
  srcPort : List (BitVec 16)
  dstPort : List (BitVec 16)
  proto : List (BitVec 8)

namespace Endpoints

/-- No keys at all. -/
def empty : Endpoints := ⟨[], [], [], [], []⟩

/-- The keys of one sequence of calls and of the next. -/
def append (e e' : Endpoints) : Endpoints :=
  ⟨e.srcAddr ++ e'.srcAddr, e.dstAddr ++ e'.dstAddr, e.srcPort ++ e'.srcPort, e.dstPort ++ e'.dstPort,
    e.proto ++ e'.proto⟩

/-- The keys of a list of sequences. -/
def concat (es : List Endpoints) : Endpoints := es.foldr append empty

end Endpoints

/-- The endpoints a rule denotes. -/
def Rule.endpoints (r : Rule) : Endpoints where
  srcAddr := [r.src.first, r.src.last]
  dstAddr := [r.dst.first, r.dst.last]
  srcPort := [r.srcPorts.lo, r.srcPorts.hi]
  dstPort := [r.dstPorts.lo, r.dstPorts.hi]
  proto := [r.proto &&& r.protoMask]

namespace MBArkFirewall

section Read

variable (queryIp : List Char → Option (BitVec 32))

/-- What the loader reads off a line. -/
def lineEndpoints (line : List Char) : Option Endpoints := do
  let component := components [] line
  if 6 < component.length then none
  else
    let src ← readPrefix queryIp (component.getD 0 []) 1
    let dst ← readPrefix queryIp (component.getD 1 []) 0
    let srcPorts ← readPorts (component.getD 2 [])
    let dstPorts ← readPorts (component.getD 3 [])
    return ⟨[ntohl src.1, ntohl src.2], [ntohl dst.1, ntohl dst.2], [srcPorts.1, srcPorts.2],
      [dstPorts.1, dstPorts.2], [readProto (component.getD 4 [])]⟩

/-- The keys of all lines, in the order of the `add` calls. -/
def insertions (lines : List (List Char)) : Option Endpoints := do
  return .concat (← lines.mapM (lineEndpoints queryIp))

end Read

/-- The addresses the loader adds to the 32-bit trees: all with `V4`, none without. -/
def keysV4 (fw : MBArkFirewall) (addrs : List (BitVec 32)) : List (BitVec 32) := if fw.v4 then addrs else []

/-- The addresses it adds to the 128-bit trees. -/
def keysV6 (fw : MBArkFirewall) (addrs : List (BitVec 32)) : List U128 := if fw.v4 then [] else addrs.map compatible

end MBArkFirewall

/-- A sequence of `add` calls on the tree under the encryption. -/
def OPETree.addAll {α : Type} [LinearOrder α] (t : OPETree α) (xs : List α) : Option (OPETree α) :=
  (t.toScapegoatTree.addAll xs).map fun s => { t with toScapegoatTree := s }

/-- The calls with the keys `e`, all of which complete, take the element to `fw'`. -/
structure MBArkFirewall.Adds (e : Endpoints) (fw fw' : MBArkFirewall) : Prop where
  srcAddr : fw.srcAddrTree.addAll (fw.keysV6 e.srcAddr) = some fw'.srcAddrTree
  dstAddr : fw.dstAddrTree.addAll (fw.keysV6 e.dstAddr) = some fw'.dstAddrTree
  srcAddrV4 : fw.srcAddrTreeV4.addAll (fw.keysV4 e.srcAddr) = some fw'.srcAddrTreeV4
  dstAddrV4 : fw.dstAddrTreeV4.addAll (fw.keysV4 e.dstAddr) = some fw'.dstAddrTreeV4
  srcPort : fw.srcPortTree.addAll e.srcPort = some fw'.srcPortTree
  dstPort : fw.dstPortTree.addAll e.dstPort = some fw'.dstPortTree
  proto : fw.protoTree.addAll e.proto = some fw'.protoTree
  v4 : fw'.v4 = fw.v4
  enable : fw'.enable = fw.enable
  stateful : fw'.stateful = fw.stateful

/-! ## Reading a well-formed line -/

section Text

variable {queryIp : List Char → Option (BitVec 32)}

theorem RulePrefix.IsText.notMem {p : RulePrefix} {s : List Char} (h : p.IsText s) {c : Char} (hd : c.isDigit = false)
    (hdot : c ≠ '.') (hslash : c ≠ '/') : c ∉ s := by
  obtain ⟨q, n, hq, hn, rfl⟩ := h
  simp only [List.mem_append, List.mem_cons, not_or]
  exact ⟨hq.notMem hd hdot, hslash, hn.notMem hd⟩

theorem PortRange.IsText.notMem {r : PortRange} {s : List Char} (h : r.IsText s) {c : Char} (hd : c.isDigit = false)
    (hspace : c ≠ ' ') (hcolon : c ≠ ':') : c ∉ s := by
  obtain ⟨l, h, hl, hh, rfl⟩ := h
  simp only [List.mem_append, List.mem_cons, not_or]
  exact ⟨hl.notMem hd, hspace, hcolon, hspace, hh.notMem hd⟩

theorem IsHexByte.notMem {s : List Char} {b : BitVec 8} (h : IsHexByte s b) {c : Char} (hc : hexDigit c = none)
    (hx : c ≠ 'x') : c ∉ s := by
  obtain ⟨c₁, c₂, d₁, d₂, h₁, h₂, -, rfl⟩ := h
  have hzero : c ≠ '0' := by
    rintro rfl
    cases hc
  have hne₁ : c ≠ c₁ := by
    rintro rfl
    rw [h₁] at hc
    cases hc
  have hne₂ : c ≠ c₂ := by
    rintro rfl
    rw [h₂] at hc
    cases hc
  simp [hzero, hx, hne₁, hne₂]

/-- `strtoul` of a byte, up to a character that is no digit. -/
theorem IsHexByte.strtoulHex {s t : List Char} {b : BitVec 8} (h : IsHexByte s b)
    (ht : ∀ c ∈ t.head?, hexDigit c = none) : strtoulHex (s ++ t) = BitVec.ofNat 64 b.toNat := by
  obtain ⟨c₁, c₂, d₁, d₂, h₁, h₂, hb, rfl⟩ := h
  have hlt := b.isLt
  have hval := strtoulHex_byte h₁ h₂ ht
  rw [hb, Nat.min_eq_left (by omega)] at hval
  exact hval

/-- The texts on both sides of the colon, and their numbers. -/
theorem PortRange.IsText.split {r : PortRange} {s : List Char} (h : r.IsText s) :
    ∃ first last, s = first ++ ':' :: last ∧
    ':' ∉ first ∧ atoi first = some (r.lo.toNat : Int) ∧ atoi last = some (r.hi.toNat : Int) := by
  obtain ⟨l, h, hl, hh, rfl⟩ := h
  have hlo := r.lo.isLt
  have hhi := r.hi.isLt
  refine ⟨l ++ [' '], ' ' :: h, by simp, ?_, ?_, ?_⟩
  · rw [List.mem_append, not_or]
    exact ⟨hl.notMem (by decide), by decide⟩
  · exact hl.atoi (by omega) (endsNumeral_cons rfl)
  · rw [atoi_space]
    exact hh.atoi_all (by omega)

/-- The number of a port, as it is stored. -/
theorem ofInt_toNat (p : BitVec 16) : BitVec.ofInt 16 p.toNat = p := BitVec.eq_of_toNat_eq (by simp)

/-- The two ends of a port range. -/
theorem PortRange.IsText.readPorts {r : PortRange} {s : List Char} (h : r.IsText s) :
    MBArkFirewall.readPorts s = some (r.lo, r.hi) := by
  obtain ⟨first, last, rfl, hcolon, hfirst, hlast⟩ := h.split
  unfold MBArkFirewall.readPorts
  simp only [findLeft_append hcolon, substring_append, suffix_append, hfirst, hlast, ofInt_toNat, Option.bind_eq_bind,
    Option.bind_some, Option.pure_def]

/-- The protocol under its mask. -/
theorem readProto_text {p m : List Char} {b c : BitVec 8} (hp : IsHexByte p b) (hm : IsHexByte m c) :
    MBArkFirewall.readProto (p ++ '/' :: m) = b &&& c := by
  have hslash : '/' ∉ p := hp.notMem (by decide) (by decide)
  have hb := hp.strtoulHex (t := []) (by simp)
  have hc := hm.strtoulHex (t := []) (by simp)
  rw [List.append_nil] at hb hc
  unfold MBArkFirewall.readProto
  simp only [findLeft_append hslash, substring_append, suffix_append, hb, hc]
  apply BitVec.eq_of_toNat_eq
  have hlb := b.isLt
  have hlc := c.isLt
  have hand : b.toNat &&& c.toNat ≤ b.toNat := Nat.and_le_left
  rw [BitVec.toNat_setWidth, BitVec.toNat_and, BitVec.toNat_and, BitVec.toNat_ofNat, BitVec.toNat_ofNat,
    Nat.mod_eq_of_lt (a := b.toNat) (by omega), Nat.mod_eq_of_lt (a := c.toNat) (by omega), Nat.mod_eq_of_lt (by omega)]

/-- The components of a well-formed line and how many they are, whatever ends the line. -/
theorem Rule.IsText.components {r : Rule} {line eol : List Char} (h : r.IsText line) (heol : '\t' ∉ eol) :
    ∃ s d sp dp p m rest, r.src.IsText s ∧ r.dst.IsText d ∧ r.srcPorts.IsText sp ∧ r.dstPorts.IsText dp ∧
      IsHexByte p r.proto ∧ IsHexByte m r.protoMask ∧ rest.length ≤ 1 ∧
      components [] (line ++ eol) = ('@' :: s) :: d :: sp :: dp :: (p ++ '/' :: m) :: rest := by
  obtain ⟨s, d, sp, dp, p, m, further, hs, hd, hsp, hdp, hp, hm, hfurther, rfl⟩ := h
  have htab : '\t' ∉ '@' :: s := by
    rw [List.mem_cons, not_or]
    exact ⟨by decide, hs.notMem (by decide) (by decide) (by decide)⟩
  have hproto : '\t' ∉ p ++ '/' :: m := by
    rw [List.mem_append, List.mem_cons, not_or, not_or]
    exact ⟨hp.notMem (by decide) (by decide), by decide, hm.notMem (by decide) (by decide)⟩
  refine ⟨s, d, sp, dp, p, m, Embark.components [] (further ++ eol), hs, hd, hsp, hdp, hp, hm, ?_, ?_⟩
  · rcases hfurther with rfl | ⟨f, hf, rfl⟩
    · rw [List.nil_append, components_of_noTab heol]
      exact Nat.zero_le _
    · rw [List.append_assoc, List.singleton_append, components_tab hf.1, components_of_noTab heol]
      exact le_rfl
  · simp only [List.append_assoc, List.cons_append]
    rw [← List.cons_append, components_tab htab, components_tab (hd.notMem (by decide) (by decide) (by decide)),
      components_tab (hsp.notMem (by decide) (by decide) (by decide)),
      components_tab (hdp.notMem (by decide) (by decide) (by decide)), ← List.cons_append, ← List.append_assoc,
      components_tab hproto]
    rfl

/-- The loader reads the endpoints of a rule off its line. -/
theorem Rule.IsText.lineEndpoints {r : Rule} {line eol : List Char} (h : r.IsText line) (heol : '\t' ∉ eol) :
    MBArkFirewall.lineEndpoints queryIp (line ++ eol) = some r.endpoints := by
  obtain ⟨s, d, sp, dp, p, m, rest, ⟨qs, ns, hqs, hns, rfl⟩, ⟨qd, nd, hqd, hnd, rfl⟩, hsp, hdp, hp, hm, hrest,
    hcomp⟩ :=
    h.components heol
  obtain ⟨a, b, hsrc, ha, hb⟩ := MBArkFirewall.readPrefix_text queryIp ['@'] hqs hns r.src.le (by decide)
  obtain ⟨a', b', hdst, ha', hb'⟩ := MBArkFirewall.readPrefix_text queryIp [] hqd hnd r.dst.le (by decide)
  have hfew :
    ¬ 6 < (('@' :: (qs ++ '/' :: ns)) :: (qd ++ '/' :: nd) :: sp :: dp :: (p ++ '/' :: m) :: rest).length := by
    simp only [List.length_cons]
    omega
  unfold MBArkFirewall.lineEndpoints
  rw [hcomp]
  simp only [hfew, if_false, List.getD_cons_zero, List.getD_cons_succ]
  rw [show MBArkFirewall.readPrefix queryIp ('@' :: (qs ++ '/' :: ns)) 1 = some (a, b) from hsrc,
    show MBArkFirewall.readPrefix queryIp (qd ++ '/' :: nd) 0 = some (a', b') from hdst, hsp.readPorts, hdp.readPorts,
    readProto_text hp hm]
  simp only [Option.bind_eq_bind, Option.bind_some, Option.pure_def, ha, hb, ha', hb']
  rfl

end Text

/-! ## Printed rules -/

/-- The number of an address, byte by byte. -/
def Quad.ofHost (x : BitVec 32) : Quad :=
  ⟨x.extractLsb' 24 8, x.extractLsb' 16 8, x.extractLsb' 8 8, x.extractLsb' 0 8⟩

theorem Quad.host_ofHost (x : BitVec 32) : (Quad.ofHost x).host = x := by
  unfold Quad.ofHost Quad.host
  apply BitVec.eq_of_getLsbD_eq
  intro i hi
  simp only [BitVec.getLsbD_append, BitVec.getLsbD_extractLsb']
  grind

def RulePrefix.text (p : RulePrefix) : List Char := p.quad.text ++ '/' :: decimal p.len

def PortRange.text (r : PortRange) : List Char := decimal r.lo.toNat ++ ' ' :: ':' :: ' ' :: decimal r.hi.toNat

/-- `0x` and the two digits of a byte. -/
def hexByte (b : BitVec 8) : List Char := ['0', 'x', Nat.digitChar (b.toNat / 16), Nat.digitChar (b.toNat % 16)]

/-- A line of the rule, with five components. -/
def Rule.text (r : Rule) : List Char :=
  '@' :: r.src.text ++ '\t' :: (r.dst.text ++ '\t' :: (r.srcPorts.text ++ '\t' :: (r.dstPorts.text ++ '\t' ::
    ((hexByte r.proto ++ '/' :: hexByte r.protoMask) ++ '\t' :: []))))

theorem hexDigit_digitChar : ∀ n < 16, hexDigit (Nat.digitChar n) = some n := by decide

theorem isHexByte_hexByte (b : BitVec 8) : IsHexByte (hexByte b) b := by
  have hlt := b.isLt
  exact ⟨_, _, b.toNat / 16, b.toNat % 16, hexDigit_digitChar _ (by omega),
    hexDigit_digitChar _ (by omega), by omega, rfl⟩

theorem Rule.isText_text (r : Rule) : r.IsText r.text :=
  ⟨_, _, _, _, _, _, [], ⟨_, _, r.src.quad.isText_text, isNumeral_decimal _, rfl⟩,
    ⟨_, _, r.dst.quad.isText_text, isNumeral_decimal _, rfl⟩,
      ⟨_, _, isNumeral_decimal _, isNumeral_decimal _, rfl⟩,
    ⟨_, _, isNumeral_decimal _, isNumeral_decimal _, rfl⟩, isHexByte_hexByte _, isHexByte_hexByte _,
      .inl rfl, rfl⟩

end Embark
