/-
What `MBArkFirewall::push` changes in a packet: the addresses, and the four bytes behind a header
of the fixed length `encrypt_v4` and `encrypt_v6` assume. Whether these are the ports of the
packet is decided by its header length and its protocol.
-/
import Embark.Gateway.Fields
import Embark.Net.Checksum

namespace Embark

open OPETree

/-! ## What one call does -/

section Encrypt

variable {w : Nat} {f : AddressFamily w}

/-- The bytes outside the fields are not touched. -/
theorem AddressFamily.writeFields_of_outside (f : AddressFamily w) (m : Memory) (c : FlowID w) {i : Nat}
    (haddr : i < f.src ∨ f.src + w / 8 ≤ i) (haddr' : i < f.dst ∨ f.dst + w / 8 ≤ i)
    (hport : i < f.udp ∨ f.udp + 4 ≤ i) : f.writeFields m c i = m i := by
  unfold writeFields
  rw [Memory.store_of_disjoint _ _ (by omega), Memory.store_of_disjoint _ _ (by omega),
    Memory.store_of_disjoint _ _ haddr', Memory.store_of_disjoint _ _ haddr]

/-- Whether a flow identifier can be built is decided by the bytes before the addresses. -/
structure AddressFamily.HeaderOnly (f : AddressFamily w) : Prop where
  isSome : ∀ (p : Packet) (n : Nat) (m : Memory) (reverse : Bool), (∀ i < f.src, m i = p.data i) →
    (f.flowId { p.setNetworkHeader n with data := m } reverse).isSome = (f.flowId (p.setNetworkHeader n) false).isSome

theorem ipFirstFrag_congr {m m' : Memory} (h : ∀ i < 8, m i = m' i) : ipFirstFrag m 0 = ipFirstFrag m' 0 := by
  unfold ipFirstFrag ipOff Memory.load
  rw [Memory.loadLE_congr fun i _ h2 => h i (by omega)]

theorem ipv4_headerOnly : ipv4.HeaderOnly where
  isSome p n m reverse hm := by
    have hfrag : ipFirstFrag m 0 = ipFirstFrag p.data 0 :=
      ipFirstFrag_congr fun i hi => hm i (by simp only [ipv4]; omega)
    simp only [ipv4, ipFlowId, Packet.setNetworkHeader, hfrag]
    split_ifs <;> simp only [Option.isSome_some, Option.isSome_none]

theorem ipv6_headerOnly : ipv6.HeaderOnly where
  isSome p n m reverse hm := by
    have hv : ipV m 0 = ipV p.data 0 := by
      unfold ipV
      rw [hm 0 (by decide)]
    have hfrag : ipFirstFrag m 0 = ipFirstFrag p.data 0 :=
      ipFirstFrag_congr fun i hi => hm i (by simp only [ipv6]; omega)
    simp only [ipv6, ip6FlowId, Packet.setNetworkHeader, hv, hfrag]
    split_ifs <;> simp only [Option.isSome_some, Option.isSome_none]

variable {enable stateful : Bool} {t : FlowTrees w} {table : FlowTable w} {p : Packet}

/-- The packet a call returns. -/
theorem encrypt_packet {r : Packet × FlowTrees w × FlowTable w} (h : encrypt f enable stateful t table p = some r) :
    r.1.length = p.length ∧
      r.1.data = if enable then f.writeFields p.data (encryptFields f t p.data).1 else p.data := by
  unfold encrypt at h
  simp only [Option.bind_eq_bind, Option.pure_def] at h
  obtain ⟨before, -, h⟩ := Option.bind_eq_some_iff.1 h
  cases stateful with
  | true =>
    obtain ⟨after, -, h⟩ := Option.bind_eq_some_iff.1 h
    cases h
    cases enable <;> exact ⟨rfl, rfl⟩
  | false =>
    cases h
    cases enable <;> exact ⟨rfl, rfl⟩

/-- A call completes when the flow identifier of the packet as it came can be built. -/
theorem encrypt_isSome (hf : f.HeaderOnly) : (encrypt f enable stateful t table p).isSome =
    (f.flowId (p.setNetworkHeader (f.headerLength p.data)) false).isSome := by
  have hdata : (p.setNetworkHeader (f.headerLength p.data)).data = p.data := rfl
  unfold encrypt
  simp only [Option.bind_eq_bind, Option.pure_def, hdata]
  cases hbefore : f.flowId (p.setNetworkHeader (f.headerLength p.data)) false with
  | none => rfl
  | some before =>
    cases stateful with
    | false => rfl
    | true =>
      cases enable with
      | false => simp only [Option.bind_some, Bool.false_eq_true, if_false, if_true, hbefore, Option.isSome_some]
      | true =>
        have hafter := hf.isSome p (f.headerLength p.data) (f.writeFields p.data (encryptFields f t p.data).1) false
          fun i hi => f.writeFields_of_lt _ _ hi
        rw [hbefore] at hafter
        obtain ⟨after, hafter⟩ := Option.isSome_iff_exists.1 hafter
        simp only [Option.bind_some, if_true, hafter, Option.isSome_some]

/-- The byte behind the fixed header after a call is the high byte of the encrypted source port. -/
theorem writeFields_udp (f : AddressFamily w) (m : Memory) (c : FlowID w) :
    (f.writeFields m c f.udp).toNat = (ntohs c.sport).toNat / 256 := by
  have hsport : (f.writeFields m c).load 16 f.udp = c.sport := congrArg FlowID.sport (f.flow_writeFields m c)
  have hload := load16_toNat (f.writeFields m c) f.udp
  have hlow := (f.writeFields m c f.udp).isLt
  have hhigh := (f.writeFields m c (f.udp + 1)).isLt
  rw [hsport] at hload
  rw [ntohs_toNat, hload]
  omega

/-- An engine that returns the word `x` next, and then zeros. -/
def firstWord (x : BitVec 64) : Engine := fun n => if n = 0 then x else 0

theorem random128_firstWord (x : BitVec 64) : (random128 (firstWord x)).1.toNat = x.toNat := by
  have hx := x.isLt
  have hdraw : (random128 (firstWord x)).1 = x.setWidth 128 ||| (0 : BitVec 64).setWidth 128 <<< 64 := rfl
  rw [hdraw]
  simp
  omega

/-- A draw below `2^16` is the encrypted source port. -/
theorem sport_firstWord (h : t.Loaded) (f : AddressFamily w) (m : Memory) {x : BitVec 64} (hx : x.toNat < 2 ^ 16) :
    (ntohs (encryptFields f (t.withEngines fun _ => firstWord x) m).1.sport).toNat = x.toNat := by
  have hwf : t.srcPort.toScapegoatTree.WF := h.wf .srcPort
  have hport : ntohs (encryptFields f (t.withEngines fun _ => firstWord x) m).1.sport =
      ((⟨t.srcPort.toScapegoatTree, firstWord x⟩ : OPETree (BitVec 16)).generateCiphertext
        (ntohs (f.flow m).sport)).1.setWidth 16 := ntohs_htons _
  have hgap := gap_width hwf (ntohs (f.flow m).sport)
  rw [hport, toNat_narrow (by decide) ⟨t.srcPort.toScapegoatTree, firstWord x⟩ hwf, random128_firstWord]
  unfold gapWidth
  rw [toNat_range_fst hwf, toNat_range_snd hwf]
  have hdraw : x.toNat % ((scale t.srcPort.toScapegoatTree hwf).hi (ntohs (f.flow m).sport) -
      (scale t.srcPort.toScapegoatTree hwf).lo (ntohs (f.flow m).sport)) = x.toNat := Nat.mod_eq_of_lt (by omega)
  rw [hdraw, Nat.mod_eq_of_lt hx]

/-- Whatever a byte is, some outcome of the engines puts another one behind the fixed header. -/
theorem exists_engines (h : t.Loaded) (f : AddressFamily w) (m : Memory) (b : Byte) :
    ∃ e, f.writeFields m (encryptFields f (t.withEngines e) m).1 f.udp ≠ b := by
  -- a draw of 0 makes the byte 0, a draw of 256 makes it 1
  have hbyte : ∀ x : BitVec 64, x.toNat < 2 ^ 16 →
      (f.writeFields m (encryptFields f (t.withEngines fun _ => firstWord x) m).1 f.udp).toNat = x.toNat / 256 := by
    intro x hx
    rw [writeFields_udp, sport_firstWord h f m hx]
  by_cases hb : b = 0
  · refine ⟨fun _ => firstWord 256, fun he => ?_⟩
    have h1 := hbyte 256 (by decide)
    rw [he, hb] at h1
    exact absurd h1 (by decide)
  · refine ⟨fun _ => firstWord 0, fun he => hb (BitVec.eq_of_toNat_eq ?_)⟩
    rw [← he]
    exact hbyte 0 (by decide)

end Encrypt

/-! ## The element -/

/-- The length of the header that is announced to `set_network_header`. -/
def MBArkFirewall.headerLength (fw : MBArkFirewall) (m : Memory) : Nat :=
  if fw.v4 then ipv4.headerLength m else ipv6.headerLength m

/-- `push` with the assertion of `set_network_header`: the header ends within the buffer, which
reaches `room` bytes from `data()` on. -/
def MBArkFirewall.pushChecked (fw : MBArkFirewall) (room : Nat) (mbarkt : MBarkTable) (p : Packet) :
    Option (Packet × MBArkFirewall × MBarkTable) :=
  if fw.headerLength p.data ≤ room then fw.push mbarkt p else none

/-- The places of the addresses and, in a first-fragment TCP or UDP packet, of the ports. -/
def FieldByte (v4 : Bool) (m : Memory) (i : Nat) : Prop :=
  if v4 then
    12 ≤ i ∧ i < 20 ∨
      ipFirstFrag m 0 ∧ (ipP m 0 = 6 ∨ ipP m 0 = 17) ∧ ipHl m 0 * 4 ≤ i ∧ i < ipHl m 0 * 4 + 4
  else 8 ≤ i ∧ i < 40 ∨ (ip6Nxt m 0 = 6 ∨ ip6Nxt m 0 = 17) ∧ 40 ≤ i ∧ i < 44

/-- The packet `q` differs from `p` in the fields alone. -/
structure SameButFields (v4 : Bool) (p q : Packet) : Prop where
  length : q.length = p.length
  data : ∀ i < p.length, q.data i ≠ p.data i → FieldByte v4 p.data i

/-- The ports are where the element writes them, or there is nothing. -/
def PortsInPlace (v4 : Bool) (p : Packet) : Prop :=
  if v4 then ipHl p.data 0 = 5 ∧ (ipP p.data 0 = 6 ∨ ipP p.data 0 = 17) ∨ p.length ≤ 20
  else (ip6Nxt p.data 0 = 6 ∨ ip6Nxt p.data 0 = 17) ∨ p.length ≤ 40

/-- The flow of an IPv4 packet can be read when it is a first fragment. -/
theorem ipv4_flowId_isSome (p : Packet) (n : Nat) :
    (ipv4.flowId (p.setNetworkHeader n) false).isSome = ipFirstFrag p.data 0 := by
  simp only [ipv4, ipFlowId, Packet.setNetworkHeader]
  cases ipFirstFrag p.data 0 with
  | false => rfl
  | true => rfl

namespace MBArkFirewall

section Frame

variable {fw : MBArkFirewall} {room : Nat} {mbarkt : MBarkTable} {p : Packet}

/-- The packet `push` sends on, by the family of the element. -/
theorem pushChecked_packet {r : Packet × MBArkFirewall × MBarkTable} (h : fw.pushChecked room mbarkt p = some r) :
    r.1.length = p.length ∧ r.1.data =
      if fw.enable then
        if fw.v4 then ipv4.writeFields p.data (encryptFields ipv4 fw.treesV4 p.data).1
        else ipv6.writeFields p.data (encryptFields ipv6 fw.treesV6 p.data).1
      else p.data := by
  unfold pushChecked push encryptV4 encryptV6 at h
  simp only [Option.bind_eq_bind, Option.pure_def] at h
  split_ifs at h with _ hv4
  · obtain ⟨x, hx, h⟩ := Option.bind_eq_some_iff.1 h
    cases h
    rw [if_pos hv4]
    exact encrypt_packet hx
  · obtain ⟨x, hx, h⟩ := Option.bind_eq_some_iff.1 h
    cases h
    rw [if_neg hv4]
    exact encrypt_packet hx

/-- An element processes the packets whose header fits the buffer and whose flow can be read. -/
theorem pushChecked_isSome : (fw.pushChecked room mbarkt p).isSome ↔ fw.headerLength p.data ≤ room ∧
    if fw.v4 then (ipv4.flowId (p.setNetworkHeader (ipv4.headerLength p.data)) false).isSome
    else (ipv6.flowId (p.setNetworkHeader (ipv6.headerLength p.data)) false).isSome := by
  have hbind : ∀ {α β : Type} (x : Option α) (g : α → β), (x.bind fun a => some (g a)).isSome = x.isSome := by
    intro α β x g
    cases x <;> rfl
  unfold pushChecked push encryptV4 encryptV6
  simp only [Option.bind_eq_bind, Option.pure_def]
  split_ifs with hroom hv4
  · rw [hbind, encrypt_isSome ipv4_headerOnly, and_iff_right hroom]
  · rw [hbind, encrypt_isSome ipv6_headerOnly, and_iff_right hroom]
  · exact ⟨fun h => by simp at h, fun h => absurd h.1 hroom⟩
  · exact ⟨fun h => by simp at h, fun h => absurd h.1 hroom⟩

theorem SameRules.headerLength {fw' : MBArkFirewall} (h : SameRules fw fw') : fw'.headerLength = fw.headerLength := by
  funext m
  unfold MBArkFirewall.headerLength
  rw [h.v4]

/-- Where the ports of a first fragment are in place, every byte written is one of a field. -/
theorem ipv4_writeFields_of_not_field (hfrag : ipFirstFrag p.data 0) (hplace : PortsInPlace true p) {i : Nat}
    (hi : i < p.length) (hfield : ¬FieldByte true p.data i) (c : FlowID 32) :
    ipv4.writeFields p.data c i = p.data i := by
  simp only [PortsInPlace, FieldByte, if_true, hfrag, true_and] at hplace hfield
  have hout : (i < 12 ∨ 20 ≤ i) ∧ (i < 20 ∨ 24 ≤ i) := by
    rcases hplace with ⟨hhl, hproto⟩ | hlen
    · simp only [hproto, hhl, true_and] at hfield
      omega
    · have := (not_or.1 hfield).1
      omega
  refine ipv4.writeFields_of_outside _ _ ?_ ?_ ?_ <;> simp only [ipv4] <;> omega

theorem ipv6_writeFields_of_not_field (hplace : PortsInPlace false p) {i : Nat} (hi : i < p.length)
    (hfield : ¬FieldByte false p.data i) (c : FlowID 128) : ipv6.writeFields p.data c i = p.data i := by
  simp only [PortsInPlace, FieldByte, Bool.false_eq_true, if_false] at hplace hfield
  have hout : (i < 8 ∨ 40 ≤ i) ∧ (i < 40 ∨ 44 ≤ i) := by
    rcases hplace with hproto | hlen
    · simp only [hproto, true_and] at hfield
      omega
    · have := (not_or.1 hfield).1
      omega
  refine ipv6.writeFields_of_outside _ _ ?_ ?_ ?_ <;> simp only [ipv6] <;> omega

/-- Without encryption, and where the ports are in place, the fields alone change. -/
theorem sameButFields_of_inPlace (hplace : fw.enable = false ∨ PortsInPlace fw.v4 p)
    {r : Packet × MBArkFirewall × MBarkTable} (h : fw.pushChecked room mbarkt p = some r) :
    SameButFields fw.v4 p r.1 := by
  obtain ⟨hlen, hdata⟩ := pushChecked_packet h
  refine ⟨hlen, fun i hi hne => ?_⟩
  by_contra hfield
  apply hne
  rw [hdata]
  cases henable : fw.enable with
  | false => rfl
  | true =>
    rw [henable] at hplace
    have hplace := hplace.resolve_left (by decide)
    have hflow := (pushChecked_isSome.1 (by rw [h]; rfl : (fw.pushChecked room mbarkt p).isSome)).2
    cases hv4 : fw.v4 with
    | true =>
      rw [hv4] at hplace hfield hflow
      rw [if_pos rfl, ipv4_flowId_isSome] at hflow
      exact ipv4_writeFields_of_not_field hflow hplace hi hfield _
    | false =>
      rw [hv4] at hplace hfield
      exact ipv6_writeFields_of_not_field hplace hi hfield _

/-- With encryption on, some outcome of the engines changes the byte behind the fixed header. -/
theorem exists_changed (hl : fw.Loaded) (henable : fw.enable) (hpush : (fw.pushChecked room mbarkt p).isSome) :
    ∃ fw' r, SameRules fw fw' ∧ fw'.pushChecked room mbarkt p = some r ∧
      r.1.data (if fw.v4 then 20 else 40) ≠ p.data (if fw.v4 then 20 else 40) := by
  have hother : ∀ fw', SameRules fw fw' → ∃ r, fw'.pushChecked room mbarkt p = some r := by
    intro fw' hrules
    rw [← Option.isSome_iff_exists, pushChecked_isSome, hrules.headerLength, hrules.v4]
    exact pushChecked_isSome.1 hpush
  by_cases hv4 : fw.v4
  · obtain ⟨e, he⟩ := exists_engines hl.v4 ipv4 p.data (p.data 20)
    have hrules := sameRules_setTreesV4 fw e
    obtain ⟨r, hr⟩ := hother _ hrules
    have hdata := (pushChecked_packet hr).2
    rw [hrules.enable, hrules.v4, if_pos henable, if_pos hv4] at hdata
    rw [if_pos hv4]
    exact ⟨_, r, hrules, hr, by rw [hdata]; exact he⟩
  · obtain ⟨e, he⟩ := exists_engines hl.v6 ipv6 p.data (p.data 40)
    have hrules := sameRules_setTreesV6 fw e
    obtain ⟨r, hr⟩ := hother _ hrules
    have hdata := (pushChecked_packet hr).2
    rw [hrules.enable, hrules.v4, if_pos henable, if_neg hv4] at hdata
    rw [if_neg hv4]
    exact ⟨_, r, hrules, hr, by rw [hdata]; exact he⟩

/-- For every element and every packet it processes: whatever the engines draw, the packet sent on
differs from the packet that came in the fields alone, exactly when encryption is off or the ports
are where the element writes them. -/
theorem sameButFields_iff (hl : fw.Loaded) (hpush : (fw.pushChecked room mbarkt p).isSome) :
    (∀ fw', SameRules fw fw' → ∀ r, fw'.pushChecked room mbarkt p = some r → SameButFields fw.v4 p r.1) ↔
      fw.enable = false ∨ PortsInPlace fw.v4 p := by
  constructor
  · intro hframe
    by_contra hplace
    push Not at hplace
    obtain ⟨henable, hplace⟩ := hplace
    rw [ne_eq, Bool.not_eq_false] at henable
    obtain ⟨fw', r, hrules, hr, hne⟩ := exists_changed hl henable hpush
    have hsame := (hframe fw' hrules r hr).data
    unfold PortsInPlace at hplace
    cases hv4 : fw.v4 with
    | true =>
      rw [hv4, if_pos rfl] at hne hplace
      have hfield := hsame 20 (by omega) hne
      rw [FieldByte, hv4, if_pos rfl] at hfield
      rcases hfield with hfield | ⟨-, hproto, h1, h2⟩
      · omega
      · exact hplace (.inl ⟨by omega, hproto⟩)
    | false =>
      rw [hv4, if_neg (by decide)] at hne hplace
      have hfield := hsame 40 (by omega) hne
      rw [FieldByte, hv4, if_neg (by decide)] at hfield
      rcases hfield with hfield | ⟨hproto, -⟩
      · omega
      · exact hplace (.inl hproto)
  · intro hplace fw' hrules r hr
    rw [← hrules.v4] at hplace ⊢
    rw [← hrules.enable] at hplace
    exact sameButFields_of_inPlace hplace hr

end Frame

theorem sameButFields_iff_oneRule : ∃ r,
    (oneRule true true).pushChecked 40 .empty (tcpV4 ⟨0x0100000a, 0xd204, 0x0101a8c0, 0x5000⟩) = some r ∧
      SameButFields true (tcpV4 ⟨0x0100000a, 0xd204, 0x0101a8c0, 0x5000⟩) r.1 := by
  have hpush : ((oneRule true true).pushChecked 40 .empty
      (tcpV4 ⟨0x0100000a, 0xd204, 0x0101a8c0, 0x5000⟩)).isSome := by decide +kernel
  obtain ⟨r, hr⟩ := Option.isSome_iff_exists.1 hpush
  have hplace : PortsInPlace true (tcpV4 ⟨0x0100000a, 0xd204, 0x0101a8c0, 0x5000⟩) := by
    unfold PortsInPlace
    decide
  exact ⟨r, hr, (sameButFields_iff (oneRule_loaded true true) hpush).2 (.inr hplace) _ (SameRules.refl _) r hr⟩

/-- A TCP packet from 10.0.0.1:1234 to 192.168.1.1:80 with four bytes of IP options (router
alert), 44 bytes long. -/
def optionPacket : Packet where
  data := fun i => ([0x46, 0, 0, 44, 0, 1, 0, 0, 64, 6, 0, 0, 10, 0, 0, 1, 192, 168, 1, 1, 0x94, 4, 0, 0,
    0x04, 0xd2, 0, 80] : List Byte)[i]?.getD 0
  length := 44
  networkHeader := none
  transportHeader := none

/-- With all engines from the default seed the option is overwritten. -/
theorem options_overwritten : ∃ r, (oneRule true true).pushChecked 44 .empty optionPacket = some r ∧
    ¬SameButFields true optionPacket r.1 := by
  refine ⟨_, rfl, fun h => ?_⟩
  have hfield := h.data 20 (by decide) (by decide +kernel)
  revert hfield
  unfold FieldByte
  decide

end MBArkFirewall

end Embark
