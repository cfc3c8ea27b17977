/-
`MBArkFirewall::initialize`: every line of the rule file, in tab-separated components, adds the two
ends of its prefixes and port ranges, and its protocol, to the element's trees. A line whose mask
fails the assertion of `make_prefix`, or with more components than the array has, is `none`.
-/
import Embark.Gateway.Firewall
import Embark.Net.Address

namespace Embark

/-- `add` on the tree under the encryption. -/
def OPETree.add {α : Type} [LinearOrder α] (t : OPETree α) (x : α) : Option (OPETree α) := do
  let (s, _) ← t.toScapegoatTree.add x
  return { t with toScapegoatTree := s }

/-- Both ends of a range, in the order of the calls. -/
def OPETree.addRange {α : Type} [LinearOrder α] (t : OPETree α) (first last : α) : Option (OPETree α) := do
  (← t.add first).add last

/-- The loop over the characters of a line: the texts before each tab. What follows the last tab
goes to no component. -/
def components : List Char → List Char → List (List Char)
  | _, [] => []
  | cur, c :: s => if c = '\t' then cur.reverse :: components [] s else components (c :: cur) s

namespace MBArkFirewall

section Load

variable (queryIp : List Char → Option (BitVec 32))

/-- The first and last address, in network order, of the prefix that starts at `start` in a
component. -/
def readPrefix (component : List Char) (start : Int) : Option (BitVec 32 × BitVec 32) := do
  let delim := findLeft component '/'
  let maskLen ← atoi (suffix component (delim + 1))
  let mask ← makePrefix maskLen
  let addr := ipAddress queryIp (substring component start (delim - start)) &&& mask
  return (addr, addr ||| ~~~mask)

/-- The two ends of a port range. -/
def readPorts (component : List Char) : Option (BitVec 16 × BitVec 16) := do
  let delim := findLeft component ':'
  let first ← atoi (substring component 0 delim)
  let last ← atoi (suffix component (delim + 1))
  return (BitVec.ofInt 16 first, BitVec.ofInt 16 last)

/-- The protocol under its mask. -/
def readProto (component : List Char) : BitVec 8 :=
  let delim := findLeft component '/'
  (strtoulHex (substring component 0 delim) &&& strtoulHex (suffix component (delim + 1))).setWidth 8

/-- "ip src": the prefix stands behind an `@`. -/
def loadSrc (fw : MBArkFirewall) (component : List Char) : Option MBArkFirewall := do
  let (first, last) ← readPrefix queryIp component 1
  if fw.v4 then return { fw with srcAddrTreeV4 := ← fw.srcAddrTreeV4.addRange (ntohl first) (ntohl last) }
  else return { fw with
    srcAddrTree := ← fw.srcAddrTree.addRange (ntoh128 (ip6Address first)) (ntoh128 (ip6Address last)) }

/-- "ip dst". -/
def loadDst (fw : MBArkFirewall) (component : List Char) : Option MBArkFirewall := do
  let (first, last) ← readPrefix queryIp component 0
  if fw.v4 then return { fw with dstAddrTreeV4 := ← fw.dstAddrTreeV4.addRange (ntohl first) (ntohl last) }
  else return { fw with
    dstAddrTree := ← fw.dstAddrTree.addRange (ntoh128 (ip6Address first)) (ntoh128 (ip6Address last)) }

/-- "port src". -/
def loadSrcPort (fw : MBArkFirewall) (component : List Char) : Option MBArkFirewall := do
  let (first, last) ← readPorts component
  return { fw with srcPortTree := ← fw.srcPortTree.addRange first last }

/-- "port dst". -/
def loadDstPort (fw : MBArkFirewall) (component : List Char) : Option MBArkFirewall := do
  let (first, last) ← readPorts component
  return { fw with dstPortTree := ← fw.dstPortTree.addRange first last }

/-- "proto". -/
def loadProto (fw : MBArkFirewall) (component : List Char) : Option MBArkFirewall := do
  return { fw with protoTree := ← fw.protoTree.add (readProto component) }

/-- One round of the loop over the lines. -/
def loadLine (fw : MBArkFirewall) (line : List Char) : Option MBArkFirewall := do
  let component := components [] line
  -- the array has six components
  if 6 < component.length then none
  else
    let fw ← loadSrc queryIp fw (component.getD 0 [])
    let fw ← loadDst queryIp fw (component.getD 1 [])
    let fw ← loadSrcPort fw (component.getD 2 [])
    let fw ← loadDstPort fw (component.getD 3 [])
    loadProto fw (component.getD 4 [])

/-- `initialize` on the lines of the rule file. -/
def initializeFrom (fw : MBArkFirewall) (lines : List (List Char)) : Option MBArkFirewall :=
  lines.foldlM (loadLine queryIp) fw

end Load

end MBArkFirewall

/-! ## The components -/

theorem components_tab {s rest : List Char} : ∀ {cur : List Char}, '\t' ∉ s →
    components cur (s ++ '\t' :: rest) = (cur.reverse ++ s) :: components [] rest := by
  induction s with
  | nil =>
    intro cur _
    simp [components]
  | cons c s ih =>
    intro cur h
    rw [List.mem_cons, not_or] at h
    obtain ⟨hc, hs⟩ := h
    rw [List.cons_append, components, if_neg (Ne.symm hc), ih hs]
    simp

/-- What follows the last tab. -/
theorem components_of_noTab {s cur : List Char} (h : '\t' ∉ s) : components cur s = [] := by
  induction s generalizing cur with
  | nil => rfl
  | cons c s ih =>
    rw [List.mem_cons, not_or] at h
    rw [components, if_neg (Ne.symm h.1), ih h.2]

/-- A prefix behind some other characters without a slash. -/
theorem MBArkFirewall.readPrefix_text (queryIp : List Char → Option (BitVec 32)) {q : Quad} (pre : List Char)
    {s n : List Char} {len : Nat} (hs : q.IsText s) (hn : IsNumeral n len) (hle : len ≤ 32) (hpre : '/' ∉ pre) :
    ∃ a b, readPrefix queryIp (pre ++ (s ++ '/' :: n)) pre.length = some (a, b) ∧
      ntohl a = Block.first q.host len ∧ ntohl b = Block.last q.host len := by
  have hsplit : pre ++ (s ++ '/' :: n) = (pre ++ s) ++ '/' :: n := (List.append_assoc ..).symm
  have hslash : '/' ∉ pre ++ s := by
    rw [List.mem_append, not_or]
    exact ⟨hpre, hs.notMem (by decide) (by decide)⟩
  have hdelim : findLeft (pre ++ (s ++ '/' :: n)) '/' = (pre ++ s).length := by rw [hsplit, findLeft_append hslash]
  have hsuffix : suffix (pre ++ (s ++ '/' :: n)) ((pre ++ s).length + 1) = n := by rw [hsplit, suffix_append]
  have hquad : substring (pre ++ (s ++ '/' :: n)) pre.length ((pre ++ s).length - pre.length) = s := by
    have hlen : (((pre ++ s).length : Int) - pre.length) = s.length := by
      rw [List.length_append]
      omega
    rw [hlen, substring_eq (by simp), List.drop_left, List.take_left]
  have hatoi : atoi n = some (len : Int) := hn.atoi_all (by omega)
  refine ⟨q.network &&& htonl (Block.mask 32 len), q.network &&& htonl (Block.mask 32 len) |||
    ~~~htonl (Block.mask 32 len), ?_, ?_, ?_⟩
  · unfold readPrefix
    simp only [hdelim, hsuffix, hatoi, makePrefix_of_le hle, hquad, hs.ipAddress, Option.bind_eq_bind,
      Option.bind_some, Option.pure_def]
  · rw [ntohl_and, Quad.ntohl_network, Block.and_mask]
  · rw [ntohl_or_not, ntohl_and, Quad.ntohl_network, Block.and_mask, Block.or_not_mask]

end Embark
