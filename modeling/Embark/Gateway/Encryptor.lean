/-
The rule encryptor (`decode_prefix`, `handle_addr`, `output_addr`) beside the gateway's loader. The
encryptor stores an IPv4 address as `::ffff:a.b.c.d` and the gateway as `::a.b.c.d`; both
embeddings are strictly increasing, so the same list of prefixes drives both trees through the
same insertions, and the ciphertexts the encryptor prints are the ones the gateway's tree gives.
-/
import Embark.Gateway.Rules
import Embark.Ope.Relabel

namespace Embark

open ScapegoatTree (empty addAll addAll_append)

namespace RuleEncryptor

/-! ## The encryptor -/

def isPrefixText (s : List Char) : Bool := decide ('/' ∈ s)

def isV6 (s : List Char) : Bool := decide (':' ∈ s)

/-- What `output_addr` prints: `any _`, two ciphertexts, or one and `_`, as the words in network
order that are passed to `inet_ntop`. -/
inductive EncryptedAddr
  | any
  | range (first last : U128)
  | single (addr : U128)
deriving DecidableEq, Repr

section Encryptor

-- what `inet_pton` stores for a text, as a number on the host
variable (pton4 : List Char → BitVec 32) (pton6 : List Char → U128)

/-- `decode_prefix`. Shifting by the width of the mask or more is undefined, here `none`. -/
def decodePrefix (s : List Char) : Option (U128 × U128) := do
  -- without a slash `find` returns `npos`, -1 as an `int`
  let slashPos := findLeft s '/'
  let addr := if slashPos < 0 then s else s.take slashPos.toNat
  let len ← atoi (s.drop (slashPos + 1).toNat)
  if isV6 s then
    if 1 ≤ len ∧ len ≤ 128 then
      let mask : U128 := BitVec.allOnes 128 <<< (128 - len.toNat)
      let first := ntoh128 (pton6 addr) &&& mask
      return (first, first ||| ~~~mask)
    else none
  else
    if 1 ≤ len ∧ len ≤ 32 then
      let mask : BitVec 32 := BitVec.allOnes 32 <<< (32 - len.toNat)
      let first := ntohl (pton4 addr) &&& mask
      let last := first ||| ~~~mask
      let mask2 : U128 := 0xffff <<< 32
      return (first.setWidth 128 ||| mask2, last.setWidth 128 ||| mask2)
    else none

/-- `decode_addr`; an IPv6 address stays in network order. -/
def decodeAddr (s : List Char) : U128 :=
  if isV6 s then pton6 s else (ntohl (pton4 s)).setWidth 128 ||| 0xffff <<< 32

/-- `handle_addr`. -/
def handleAddr (t : ScapegoatTree U128) (s : List Char) : Option (ScapegoatTree U128) :=
  if s = "any".toList then some t
  else if isPrefixText s then do
    let pair ← decodePrefix pton4 pton6 s
    t.addAll [pair.1, pair.2]
  else t.addAll [decodeAddr pton4 pton6 s]

/-- `output_addr`. -/
def outputAddr (t : ScapegoatTree U128) (s : List Char) : Option EncryptedAddr :=
  if s = "any".toList then some .any
  else if isPrefixText s then do
    let pair ← decodePrefix pton4 pton6 s
    return .range (hton128 (OPETree.endpointCiphertext t pair.1)) (hton128 (OPETree.endpointCiphertext t pair.2))
  else some (.single (hton128 (OPETree.endpointCiphertext t (decodeAddr pton4 pton6 s))))

/-- The source column of `test`: the first pass over the fields builds the tree, the second prints
the ciphertexts. -/
def encryptSources (fields : List (List Char)) : Option (ScapegoatTree U128 × List EncryptedAddr) := do
  let t ← fields.foldlM (handleAddr pton4 pton6) empty
  return (t, ← fields.mapM (outputAddr pton4 pton6 t))

end Encryptor

/-! ## Prefixes -/

/-- An IPv4 prefix `a.b.c.d/len`. -/
structure Prefix where
  quad : Quad
  len : Nat
  pos : 1 ≤ len
  le : len ≤ 32

namespace Prefix

/-- The text of a prefix. -/
def text (p : Prefix) : List Char := p.quad.text ++ '/' :: decimal p.len

/-- A line of the gateway's rule file whose source is the prefix. -/
def line (p : Prefix) (rest : List Char) : List Char := '@' :: p.text ++ '\t' :: rest

def mask (p : Prefix) : BitVec 32 := BitVec.allOnes 32 <<< (32 - p.len)

/-- The first address of a prefix. -/
def first (p : Prefix) : BitVec 32 := p.quad.host &&& p.mask

/-- The last address of a prefix. -/
def last (p : Prefix) : BitVec 32 := p.first ||| ~~~p.mask

end Prefix

/-- The gateway's embedding, `::a.b.c.d`. -/
def compatible (x : BitVec 32) : U128 := x.setWidth 128

/-- `::a.b.c.d` as `::ffff:a.b.c.d`. -/
def toMapped (x : U128) : U128 := x ||| 0xffff <<< 32

/-- The encryptor's embedding, `::ffff:a.b.c.d`. -/
def mapped (x : BitVec 32) : U128 := x.setWidth 128 ||| 0xffff <<< 32

theorem toNat_compatible (x : BitVec 32) : (compatible x).toNat = x.toNat := by
  have := x.isLt
  unfold compatible
  rw [BitVec.toNat_setWidth, Nat.mod_eq_of_lt (by omega)]

theorem toNat_mapped (x : BitVec 32) : (mapped x).toNat = 0xffff * 2 ^ 32 + x.toNat := by
  have hmask : (0xffff <<< 32 : U128).toNat = 2 ^ 32 * 0xffff := by decide
  unfold mapped
  rw [BitVec.toNat_or, hmask, show (x.setWidth 128).toNat = x.toNat from toNat_compatible x, Nat.or_comm,
    ← Nat.two_pow_add_eq_or_of_lt x.isLt, Nat.mul_comm]

theorem compatible_strictMono : StrictMono compatible := fun x y h => by
  rw [BitVec.lt_def] at h ⊢
  rwa [toNat_compatible, toNat_compatible]

theorem mapped_strictMono : StrictMono mapped := fun x y h => by
  rw [BitVec.lt_def] at h ⊢
  rw [toNat_mapped, toNat_mapped]
  omega

/-! ## Byte order of the operations on addresses -/

/-- The key the gateway computes from an embedded address. -/
theorem ntoh128_ip6Address (x : BitVec 32) : ntoh128 (ip6Address x) = compatible (ntohl x) := by
  have hwords : ip6Address x = x ++ (0 : BitVec 32) ++ (0 : BitVec 32) ++ (0 : BitVec 32) := by
    unfold ip6Address
    apply BitVec.eq_of_getLsbD_eq
    intro i hi
    simp only [BitVec.getLsbD_append, BitVec.getLsbD_shiftLeft, BitVec.getLsbD_setWidth]
    grind
  rw [hwords, show ntoh128 = hton128 from rfl, hton128_append, show htonl 0 = 0 from rfl]
  unfold compatible
  apply BitVec.eq_of_getLsbD_eq
  intro i hi
  simp only [BitVec.getLsbD_append, BitVec.getLsbD_setWidth]
  show _ = (decide (i < 128) && (htonl x).getLsbD i)
  grind

/-! ## Reading the texts -/

namespace Prefix

variable (p : Prefix)

theorem notMem_text {c : Char} (hd : c.isDigit = false) (hdot : c ≠ '.') (hslash : c ≠ '/') : c ∉ p.text := by
  unfold text
  simp only [List.mem_append, List.mem_cons, not_or]
  exact ⟨p.quad.isText_text.notMem hd hdot, hslash, (isNumeral_decimal p.len).notMem hd⟩

theorem slash_notMem : '/' ∉ p.quad.text := p.quad.isText_text.notMem (by decide) (by decide)

end Prefix

section Read

variable (queryIp : List Char → Option (BitVec 32)) {pton4 : List Char → BitVec 32} {pton6 : List Char → U128}
  (p : Prefix)

/-- The addresses the gateway reads from its source component. -/
theorem readPrefix_src : ∃ a b, MBArkFirewall.readPrefix queryIp ('@' :: p.text) 1 = some (a, b) ∧
    ntohl a = p.first ∧ ntohl b = p.last := by
  have hread := MBArkFirewall.readPrefix_text queryIp ['@'] p.quad.isText_text (isNumeral_decimal p.len) p.le
    (by decide)
  rwa [← Block.or_not_mask, ← Block.and_mask] at hread

/-- `decode_prefix` on a text and a length behind a slash. -/
theorem decodePrefix_slash (pton4 : List Char → BitVec 32) (pton6 : List Char → U128) {s n : List Char} {len : Nat}
    (hslash : '/' ∉ s) (hn : IsNumeral n len) (hlen : len < 2 ^ 31) : decodePrefix pton4 pton6 (s ++ '/' :: n) =
    if isV6 (s ++ '/' :: n) then
      if 1 ≤ len ∧ len ≤ 128 then
        some (Block.first (ntoh128 (pton6 s)) len, Block.last (ntoh128 (pton6 s)) len)
      else none
    else
      if 1 ≤ len ∧ len ≤ 32 then
        some (mapped (Block.first (ntohl (pton4 s)) len), mapped (Block.last (ntohl (pton4 s)) len))
      else none := by
  have hdelim : findLeft (s ++ '/' :: n) '/' = s.length := findLeft_append hslash
  have hdrop : (s ++ '/' :: n).drop ((s.length : Int) + 1).toNat = n := by
    rw [show ((s.length : Int) + 1).toNat = s.length + 1 by omega, List.append_cons, List.drop_left' (by simp)]
  have hatoi : atoi n = some (len : Int) := hn.atoi_all hlen
  have hneg : ¬ (s.length : Int) < 0 := by omega
  have h6 : (1 ≤ (len : Int) ∧ (len : Int) ≤ 128) ↔ 1 ≤ len ∧ len ≤ 128 := by omega
  have h4 : (1 ≤ (len : Int) ∧ (len : Int) ≤ 32) ↔ 1 ≤ len ∧ len ≤ 32 := by omega
  unfold decodePrefix
  simp only [hdelim, hdrop, hneg, hatoi, h6, h4, Option.bind_eq_bind, Option.bind_some, if_false, Int.toNat_natCast,
    List.take_left, ← Block.or_not_mask, ← Block.and_mask]
  split_ifs
  · rfl
  · rfl
  · rfl
  · rfl

/-- The keys the encryptor computes for the same prefix. -/
theorem decodePrefix_text (hpton : ∀ q : Quad, pton4 q.text = q.network) :
    decodePrefix pton4 pton6 p.text = some (mapped p.first, mapped p.last) := by
  have hlen := p.le
  have hv6 : isV6 p.text = false := by
    unfold isV6
    exact decide_eq_false (p.notMem_text (by decide) (by decide) (by decide))
  have hsplit := decodePrefix_slash pton4 pton6 p.slash_notMem (isNumeral_decimal p.len) (by omega)
  rw [show p.quad.text ++ '/' :: decimal p.len = p.text from rfl, hv6, if_neg Bool.false_ne_true,
    if_pos ⟨p.pos, hlen⟩, hpton, Quad.ntohl_network, ← Block.or_not_mask, ← Block.and_mask] at hsplit
  exact hsplit

theorem text_ne_any : p.text ≠ "any".toList := by
  intro h
  have hslash : '/' ∈ p.text := by
    unfold Prefix.text
    simp
  rw [h] at hslash
  exact absurd hslash (by decide)

theorem isPrefixText_text : isPrefixText p.text := by
  unfold isPrefixText Prefix.text
  simp

theorem handleAddr_text (hpton : ∀ q : Quad, pton4 q.text = q.network) (t : ScapegoatTree U128) :
    handleAddr pton4 pton6 t p.text = t.addAll [mapped p.first, mapped p.last] := by
  unfold handleAddr
  rw [if_neg (text_ne_any p), if_pos (isPrefixText_text p), decodePrefix_text p hpton]
  rfl

theorem outputAddr_text (hpton : ∀ q : Quad, pton4 q.text = q.network) (t : ScapegoatTree U128) :
    outputAddr pton4 pton6 t p.text = some (.range (hton128 (OPETree.endpointCiphertext t (mapped p.first)))
      (hton128 (OPETree.endpointCiphertext t (mapped p.last)))) := by
  unfold outputAddr
  rw [if_neg (text_ne_any p), if_pos (isPrefixText_text p), decodePrefix_text p hpton]
  rfl

end Read

/-! ## Loading a line -/

section Load

variable {queryIp : List Char → Option (BitVec 32)} {fw fw' : MBArkFirewall}

/-- What the sections after the first leave as it is. -/
def SameSource (fw fw' : MBArkFirewall) : Prop := fw'.v4 = fw.v4 ∧ fw'.srcAddrTree = fw.srcAddrTree

theorem loadDst_sameSource {component : List Char} (h : MBArkFirewall.loadDst queryIp fw component = some fw') :
    SameSource fw fw' := by
  simp only [MBArkFirewall.loadDst, Option.bind_eq_bind, Option.bind_eq_some_iff] at h
  obtain ⟨⟨first, last⟩, -, h⟩ := h
  split at h
  · simp only [Option.bind_eq_some_iff, Option.pure_def, Option.some.injEq] at h
    obtain ⟨t, -, rfl⟩ := h
    exact ⟨rfl, rfl⟩
  · simp only [Option.bind_eq_some_iff, Option.pure_def, Option.some.injEq] at h
    obtain ⟨t, -, rfl⟩ := h
    exact ⟨rfl, rfl⟩

theorem loadSrcPort_sameSource {component : List Char} (h : fw.loadSrcPort component = some fw') :
    SameSource fw fw' := by
  simp only [MBArkFirewall.loadSrcPort, Option.bind_eq_bind, Option.bind_eq_some_iff, Option.pure_def,
    Option.some.injEq] at h
  obtain ⟨⟨first, last⟩, -, t, -, rfl⟩ := h
  exact ⟨rfl, rfl⟩

theorem loadDstPort_sameSource {component : List Char} (h : fw.loadDstPort component = some fw') :
    SameSource fw fw' := by
  simp only [MBArkFirewall.loadDstPort, Option.bind_eq_bind, Option.bind_eq_some_iff, Option.pure_def,
    Option.some.injEq] at h
  obtain ⟨⟨first, last⟩, -, t, -, rfl⟩ := h
  exact ⟨rfl, rfl⟩

theorem loadProto_sameSource {component : List Char} (h : fw.loadProto component = some fw') :
    SameSource fw fw' := by
  simp only [MBArkFirewall.loadProto, Option.bind_eq_bind, Option.bind_eq_some_iff, Option.pure_def,
    Option.some.injEq] at h
  obtain ⟨t, -, rfl⟩ := h
  exact ⟨rfl, rfl⟩

/-- The range of a prefix, added to the tree of an encryption. -/
theorem addRange_eq_addAll {α : Type} [LinearOrder α] {t t' : OPETree α} {a b : α} (h : t.addRange a b = some t') :
    t.toScapegoatTree.addAll [a, b] = some t'.toScapegoatTree := by
  simp only [OPETree.addRange, OPETree.add, Option.bind_eq_bind, Option.bind_eq_some_iff, Option.pure_def,
    Option.some.injEq] at h
  obtain ⟨t1, ⟨⟨s1, b1⟩, h1, rfl⟩, ⟨s2, b2⟩, h2, rfl⟩ := h
  simp only [ScapegoatTree.addAll, List.foldlM_cons, List.foldlM_nil, h1, Option.map_some, Option.bind_eq_bind,
    Option.bind_some, Option.pure_def]
  simp only at h2
  rw [h2]
  rfl

/-- A line with an IPv4 prefix adds its two ends to the source tree, whatever the other components
are. -/
theorem loadLine_line {p : Prefix} {rest : List Char} (hv4 : fw.v4 = false)
    (h : fw.loadLine queryIp (p.line rest) = some fw') :
    fw'.v4 = false ∧ fw.srcAddrTree.toScapegoatTree.addAll [compatible p.first, compatible p.last] =
      some fw'.srcAddrTree.toScapegoatTree := by
  have htab : '\t' ∉ '@' :: p.text := by
    rw [List.mem_cons, not_or]
    exact ⟨by decide, p.notMem_text (by decide) (by decide) (by decide)⟩
  have hcomp : components [] (p.line rest) = ('@' :: p.text) :: components [] rest := components_tab htab
  obtain ⟨a, b, hread, ha, hb⟩ := readPrefix_src queryIp p
  unfold MBArkFirewall.loadLine at h
  simp only [hcomp] at h
  split at h
  · cases h
  · simp only [Option.bind_eq_bind, Option.bind_eq_some_iff, List.getD_cons_zero] at h
    obtain ⟨fw₁, hsrc, fw₂, h2, fw₃, h3, fw₄, h4, h5⟩ := h
    obtain ⟨hv2, ht2⟩ := loadDst_sameSource h2
    obtain ⟨hv3, ht3⟩ := loadSrcPort_sameSource h3
    obtain ⟨hv4', ht4⟩ := loadDstPort_sameSource h4
    obtain ⟨hv5, ht5⟩ := loadProto_sameSource h5
    simp only [MBArkFirewall.loadSrc, hread, hv4, Option.bind_eq_bind, Option.bind_some, Bool.false_eq_true, if_false,
      Option.bind_eq_some_iff, Option.pure_def, Option.some.injEq] at hsrc
    obtain ⟨t, ht, rfl⟩ := hsrc
    rw [ntoh128_ip6Address, ntoh128_ip6Address, ha, hb] at ht
    refine ⟨by rw [hv5, hv4', hv3, hv2], ?_⟩
    rw [ht5, ht4, ht3, ht2]
    exact addRange_eq_addAll ht

/-- The addresses of a list of prefixes, in the order in which both loaders add them. -/
def endpoints (ps : List Prefix) : List (BitVec 32) := ps.flatMap fun p => [p.first, p.last]

/-- The gateway's source tree after a list of lines. -/
theorem initializeFrom_lines : ∀ {rules : List (Prefix × List Char)} {fw fw' : MBArkFirewall}, fw.v4 = false →
    fw.initializeFrom queryIp (rules.map fun r => r.1.line r.2) = some fw' →
    fw.srcAddrTree.toScapegoatTree.addAll ((endpoints (rules.map Prod.fst)).map compatible) =
      some fw'.srcAddrTree.toScapegoatTree
  | [], fw, fw', _, h => by
    simp only [MBArkFirewall.initializeFrom, List.map_nil, List.foldlM_nil, Option.pure_def, Option.some.injEq] at h
    rw [h]
    rfl
  | (p, rest) :: rules, fw, fw', hv4, h => by
    simp only [MBArkFirewall.initializeFrom, List.map_cons, List.foldlM_cons, Option.bind_eq_bind,
      Option.bind_eq_some_iff] at h
    obtain ⟨fw₁, h1, h⟩ := h
    obtain ⟨hv4', hadd⟩ := loadLine_line hv4 h1
    have ih := initializeFrom_lines hv4' h
    have hsplit : (endpoints (((p, rest) :: rules).map Prod.fst)).map compatible =
        [compatible p.first, compatible p.last] ++ (endpoints (rules.map Prod.fst)).map compatible := rfl
    rw [hsplit, addAll_append, hadd]
    exact ih

/-- The encryptor's tree after the same prefixes. -/
theorem foldlM_handleAddr {pton4 : List Char → BitVec 32} {pton6 : List Char → U128}
    (hpton : ∀ q : Quad, pton4 q.text = q.network) : ∀ (ps : List Prefix) (t : ScapegoatTree U128),
    (ps.map Prefix.text).foldlM (handleAddr pton4 pton6) t = t.addAll ((endpoints ps).map mapped)
  | [], t => rfl
  | p :: ps, t => by
    have hsplit : (endpoints (p :: ps)).map mapped = [mapped p.first, mapped p.last] ++ (endpoints ps).map mapped := rfl
    rw [List.map_cons, List.foldlM_cons, handleAddr_text p hpton, hsplit, addAll_append]
    simp only [Option.bind_eq_bind]
    congr 1
    funext t
    exact foldlM_handleAddr hpton ps t

/-- What the encryptor prints for them. -/
theorem mapM_outputAddr {pton4 : List Char → BitVec 32} {pton6 : List Char → U128}
    (hpton : ∀ q : Quad, pton4 q.text = q.network) (t : ScapegoatTree U128) :
    ∀ rules : List (Prefix × List Char), (rules.map fun r => r.1.text).mapM (outputAddr pton4 pton6 t) =
      some (rules.map fun r => .range (hton128 (OPETree.endpointCiphertext t (mapped r.1.first)))
        (hton128 (OPETree.endpointCiphertext t (mapped r.1.last))))
  | [] => rfl
  | r :: rules => by
    rw [List.map_cons, List.mapM_cons, outputAddr_text r.1 hpton, mapM_outputAddr hpton t rules]
    rfl

end Load

/-! ## Agreement -/

theorem map_map_mapped (t : ScapegoatTree (BitVec 32)) :
    (t.map compatible).map toMapped = t.map mapped := by
  have hmap : ∀ u : BinTree (BitVec 32), (u.map compatible).map toMapped = u.map mapped := by
    intro u
    induction u with
    | nil => rfl
    | node l x r ihl ihr =>
      simp only [BinTree.map_node, ihl, ihr]
      exact rfl
  unfold ScapegoatTree.map
  rw [hmap]

/-- For every list of IPv4 prefixes that the gateway loads, whatever the other components of its
lines: the encryptor loads their texts too, its tree is the gateway's source tree with every key
`::a.b.c.d` replaced by `::ffff:a.b.c.d`, and for every prefix of the list it prints the lower
ends of the gateway's ciphertext ranges of the first and the last address. -/
theorem encryptSources_agrees {queryIp : List Char → Option (BitVec 32)} {pton4 : List Char → BitVec 32}
    (pton6 : List Char → U128) (hpton : ∀ q : Quad, pton4 q.text = q.network) {fw fw' : MBArkFirewall}
    (hv4 : fw.v4 = false) (hempty : fw.srcAddrTree.toScapegoatTree = empty) {rules : List (Prefix × List Char)}
    (hload : fw.initializeFrom queryIp (rules.map fun r => r.1.line r.2) = some fw') :
    ∃ t, encryptSources pton4 pton6 (rules.map fun r => r.1.text) = some (t, rules.map fun r => .range
        (hton128 (OPETree.ciphertextRange fw'.srcAddrTree.toScapegoatTree (compatible r.1.first)).1)
        (hton128 (OPETree.ciphertextRange fw'.srcAddrTree.toScapegoatTree (compatible r.1.last)).1)) ∧
      t = fw'.srcAddrTree.toScapegoatTree.map toMapped ∧
      t.r.keys = fw'.srcAddrTree.r.keys.map toMapped := by
  have hgw := initializeFrom_lines hv4 hload
  rw [hempty] at hgw
  -- both trees are images of the tree of the 32-bit addresses themselves
  have hbase := ScapegoatTree.addAll_map compatible_strictMono (endpoints (rules.map Prod.fst)) empty
  rw [show (empty : ScapegoatTree (BitVec 32)).map compatible = empty from rfl, hgw] at hbase
  obtain ⟨base, hrun, hbase⟩ := Option.map_eq_some_iff.1 hbase.symm
  have henc := @foldlM_handleAddr pton4 pton6 hpton (rules.map Prod.fst) empty
  rw [show (empty : ScapegoatTree U128) = (empty : ScapegoatTree (BitVec 32)).map mapped from rfl,
    ScapegoatTree.addAll_map mapped_strictMono, hrun, List.map_map] at henc
  have htree : base.map mapped = fw'.srcAddrTree.toScapegoatTree.map toMapped := by
    rw [← hbase, map_map_mapped]
  refine ⟨base.map mapped, ?_, htree, ?_⟩
  · have hrange : ∀ x, OPETree.endpointCiphertext (base.map mapped) (mapped x) =
        (OPETree.ciphertextRange fw'.srcAddrTree.toScapegoatTree (compatible x)).1 := by
      intro x
      unfold OPETree.endpointCiphertext
      rw [← hbase, OPETree.ciphertextRange_map mapped_strictMono, OPETree.ciphertextRange_map compatible_strictMono]
    have hout := @mapM_outputAddr pton4 pton6 hpton (base.map mapped) rules
    simp only [hrange] at hout
    unfold encryptSources
    have henc' : (rules.map fun r => r.1.text).foldlM (handleAddr pton4 pton6) empty = some (base.map mapped) := henc
    rw [henc']
    simp only [Option.bind_eq_bind, Option.bind_some, hout, Option.pure_def]
  · rw [htree]
    exact BinTree.keys_map _ _

/-- An element as constructed, with `V4` false; the engines do not matter for loading. -/
def unloaded : MBArkFirewall where
  srcAddrTree := ⟨empty, fun _ => 0⟩
  dstAddrTree := ⟨empty, fun _ => 0⟩
  srcAddrTreeV4 := ⟨empty, fun _ => 0⟩
  dstAddrTreeV4 := ⟨empty, fun _ => 0⟩
  srcPortTree := ⟨empty, fun _ => 0⟩
  dstPortTree := ⟨empty, fun _ => 0⟩
  protoTree := ⟨empty, fun _ => 0⟩
  v4 := false
  enable := true
  stateful := true

/-- 170.226.34.116/4. -/
def firstSource : Prefix := ⟨⟨170, 226, 34, 116⟩, 4, by decide, by decide⟩

/-- The other components of the first line of the rule file. -/
def firstRest : List Char :=
  "124.12.85.109/4\t8175 : 64662\t49921 : 61240\t0x6d/0xFF\t0xa08c/0x222a\t\n".toList

/-- `inet_pton` on quads. -/
def quadAddr : List Char → BitVec 32 := ipAddress fun _ => none

theorem firstLine_loads : (unloaded.initializeFrom (fun _ => none) [firstSource.line firstRest]).isSome := by decide

theorem encryptSources_agrees_first : ∃ fw' t,
    unloaded.initializeFrom (fun _ => none) [firstSource.line firstRest] = some fw' ∧
    encryptSources quadAddr (fun _ => 0) [firstSource.text] = some (t, [.range
      (hton128 (OPETree.ciphertextRange fw'.srcAddrTree.toScapegoatTree (compatible firstSource.first)).1)
      (hton128 (OPETree.ciphertextRange fw'.srcAddrTree.toScapegoatTree (compatible firstSource.last)).1)]) ∧
    t.r.keys = fw'.srcAddrTree.r.keys.map toMapped := by
  obtain ⟨fw', hload⟩ := Option.isSome_iff_exists.1 firstLine_loads
  obtain ⟨t, henc, -, hkeys⟩ := @encryptSources_agrees (fun _ => none) quadAddr (fun _ => 0)
    (ipAddress_text fun _ => none) unloaded fw' rfl rfl [(firstSource, firstRest)] hload
  exact ⟨fw', t, hload, henc, hkeys⟩

/-- The two trees of that line hold different keys. -/
theorem keys_differ :
    (unloaded.initializeFrom (fun _ => none) [firstSource.line firstRest]).map (·.srcAddrTree.r.keys) =
      some [0xa0000000, 0xafffffff] ∧
    (encryptSources quadAddr (fun _ => 0) [firstSource.text]).map (·.1.r.keys) =
      some [0xffffa0000000, 0xffffafffffff] := by decide

end RuleEncryptor

end Embark
