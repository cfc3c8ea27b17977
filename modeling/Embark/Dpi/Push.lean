/-
`MBArkDPI::push`: a TCP packet from or to port 80 has its payload tokenized, and the tokens leave
on output 1, the first five bytes of each one's cipher block, in packets that begin with the
headers of the original; every packet then leaves on output 0. Whatever the payloads, the token
packets of a call carry each marked offset once and the pool is whole again after it.
-/
import Embark.Dpi.Pool
import Embark.Net.ByteOrder
import Embark.Net.Packet

namespace Embark

namespace Dpi

/-- The sizes of `click_ip` and `click_tcp` together. -/
def headerLen : Nat := 40

def maxPktLen : Nat := 1400

/-- The bytes of each cipher block that are sent. -/
def recordLen : Nat := 5

/-- A packet pushed to an output. -/
structure Sent where
  port : Nat
  bytes : List Byte
deriving DecidableEq

namespace MBArkDPI

section Push

variable (aes : Vector Byte 16 → Vector Byte 16) (dividers : Int → Bool)

/-- The loop that sends and frees the tokens from `ln` on: the packets sent so far, and the bytes
of the segment buffer up to `bytesin`. It ends when the list does; `none` is a list longer than
`fuel`. -/
def sendTokens (header : List Byte) : Nat → Option Nat → List Sent → List Byte → Pool →
    Option (List Sent × List Byte × Pool)
  | 0, _, _, _, _ => none
  | _ + 1, none, sent, seg, pool => some (sent, seg, pool)
  | fuel + 1, some ln, sent, seg, pool =>
    let out := aes (blockAt pool.mystrings (pool.buffer ln))
    let seg := seg ++ out.toList.take recordLen
    -- read before the node is freed
    let next := pool.next ln
    if maxPktLen ≤ seg.length then
      sendTokens header fuel next (sent ++ [⟨1, seg⟩]) header (pool.free ln)
    else sendTokens header fuel next sent seg (pool.free ln)

/-- The test for TCP with port 80 on either side. -/
def isHttp (p : Packet) : Bool :=
  ipP p.data 0 == 6 && (ntohs (p.data.load 16 20) == 80 || ntohs (p.data.load 16 22) == 80)

/-- `int bytes = p->end_data() - dataptr`. -/
def payloadBytes (p : Packet) : Int := ((p.length : Int) - headerLen).bmod (2 ^ 32)

/-- `push`: the packets pushed to the outputs, in order. -/
def push (fuel : Nat) (pool : Pool) (p : Packet) : Option (List Sent × Pool) :=
  let forward : Sent := ⟨0, p.data.slice 0 p.length⟩
  if isHttp p then
    let bytes := payloadBytes p
    if (minTokenSize : Int) ≤ bytes then
      let text : Memory := fun k => p.data (headerLen + k)
      -- the parameter is a `uint16_t`
      let textlen := (bytes % 2 ^ 16).toNat
      let header := p.data.slice 0 headerLen
      match getUserTokensFromBuffer text textlen dividers pool with
      | none => none
      | some (ln, pool) =>
        match sendTokens aes header fuel ln [] header pool with
        | none => none
        | some (sent, seg, pool) => some (sent ++ [⟨1, seg⟩, forward], pool)
    else some ([forward], pool)
  else some ([forward], pool)

/-- The calls of `push` for a sequence of packets: the packets sent by each call and the pool
after it. -/
def run (fuel : Nat) : Pool → List Packet → Option (List (List Sent × Pool))
  | _, [] => some []
  | pool, p :: ps =>
    match push aes dividers fuel pool p with
    | none => none
    | some (sent, pool) => (run fuel pool ps).map ((sent, pool) :: ·)

end Push

/-! ## Records and packets -/

section Spec

variable (aes : Vector Byte 16 → Vector Byte 16) (dividers : Int → Bool)

/-- The payload of a packet, and the bytes behind it. -/
def payload (p : Packet) : Memory := fun k => p.data (headerLen + k)

/-- The record of the token at offset `i`. -/
def record (text : Memory) (i : Nat) : List Byte := (aes (paddedWindow text i)).toList.take recordLen

/-- A token packet: the headers of `p` and one record for each offset. -/
def tokenPacket (p : Packet) (offsets : List Nat) : Sent :=
  ⟨1, p.data.slice 0 headerLen ++ offsets.flatMap (record aes (payload p))⟩

/-- What a call of `push` sends for `p`: token packets of at most 1400 bytes, made of whole records
of the marked offsets, each once and the last one first, and then `p`. -/
def Tokenized (p : Packet) (sent : List Sent) : Prop :=
  ∃ groups : List (List Nat), sent = groups.map (tokenPacket aes p) ++ [⟨0, p.data.slice 0 p.length⟩] ∧
    groups.flatten.Pairwise (· > ·) ∧
    (∀ i, i ∈ groups.flatten ↔ tokenize (payload p) (p.length - headerLen) dividers i) ∧
    ∀ s ∈ groups.map (tokenPacket aes p), s.bytes.length ≤ maxPktLen

/-- A TCP packet with port 80 on either side and at most 1500 bytes after the headers. -/
structure Admitted (p : Packet) : Prop where
  http : isHttp p
  length : p.length ≤ headerLen + poolSize

theorem length_record (text : Memory) (i : Nat) : (record aes text i).length = recordLen := by
  simp [record, recordLen]

theorem length_tokenPacket (p : Packet) (offsets : List Nat) :
    (tokenPacket aes p offsets).bytes.length = headerLen + recordLen * offsets.length := by
  unfold tokenPacket
  rw [List.length_append, Memory.length_slice]
  congr 1
  induction offsets with
  | nil => rfl
  | cons i offsets ih =>
    rw [List.flatMap_cons, List.length_append, length_record, ih, List.length_cons, Nat.mul_succ, Nat.add_comm]

end Spec

/-! ## The send loop -/

section SendLoop

variable {aes : Vector Byte 16 → Vector Byte 16} {p : Packet}

theorem tokenPacket_nil : (tokenPacket aes p []).bytes = p.data.slice 0 headerLen := by simp [tokenPacket]

/-- A segment with one more record is the packet with one more offset. -/
theorem tokenPacket_append (group : List Nat) (i : Nat) :
    (tokenPacket aes p (group ++ [i])).bytes = (tokenPacket aes p group).bytes ++ record aes (payload p) i := by
  simp [tokenPacket]

/-- The headers are forty bytes and the limit is a multiple of the record size above them: a
segment under the limit has room for one more record. -/
theorem length_tokenPacket_append_le {group : List Nat} (h : (tokenPacket aes p group).bytes.length < maxPktLen)
    (i : Nat) :
    (tokenPacket aes p (group ++ [i])).bytes.length ≤ maxPktLen := by
  rw [length_tokenPacket] at h ⊢
  simp only [headerLen, recordLen, maxPktLen, List.length_append, List.length_singleton] at h ⊢
  omega

theorem length_tokenPacket_nil_lt : (tokenPacket aes p []).bytes.length < maxPktLen := by
  rw [length_tokenPacket]
  decide

/-- One more segment within the limit. -/
theorem length_le_append {groups : List (List Nat)} {group : List Nat}
    (hgroups : ∀ s ∈ groups.map (tokenPacket aes p), s.bytes.length ≤ maxPktLen)
    (hgroup : (tokenPacket aes p group).bytes.length ≤ maxPktLen) :
    ∀ s ∈ (groups ++ [group]).map (tokenPacket aes p), s.bytes.length ≤ maxPktLen := by
  intro s hs
  rw [List.map_append, List.mem_append, List.map_singleton, List.mem_singleton] at hs
  rcases hs with hs | rfl
  · exact hgroups s hs
  · exact hgroup

/-- The segment buffer is a token packet, under the length at which it is sent. -/
theorem sendTokens_holding : ∀ {tokens : List (Nat × Nat)} {fuel : Nat} {ln : Option Nat} {pool : Pool}
    {free : List Nat} (groups : List (List Nat)) (group : List Nat),
    Holding (payload p) pool ln tokens free → tokens.length < fuel →
    (tokenPacket aes p group).bytes.length < maxPktLen →
    (∀ s ∈ groups.map (tokenPacket aes p), s.bytes.length ≤ maxPktLen) →
    ∃ (groups' : List (List Nat)) (group' : List Nat) (pool' : Pool),
      sendTokens aes (p.data.slice 0 headerLen) fuel ln (groups.map (tokenPacket aes p))
        (tokenPacket aes p group).bytes pool =
        some (groups'.map (tokenPacket aes p), (tokenPacket aes p group').bytes, pool') ∧
      pool'.Ready ∧
      groups'.flatten ++ group' = groups.flatten ++ group ++ tokens.map Prod.snd ∧
      (tokenPacket aes p group').bytes.length ≤ maxPktLen ∧
      ∀ s ∈ groups'.map (tokenPacket aes p), s.bytes.length ≤ maxPktLen
  | _, 0, _, _, _, _, _, _, hfuel, _, _ => absurd hfuel (Nat.not_lt_zero _)
  | [], fuel + 1, ln, pool, free, groups, group, h, _, hgroup, hgroups => by
    obtain rfl : ln = none := h.tokenList
    exact ⟨groups, group, pool, rfl, h.ready, by simp, hgroup.le, hgroups⟩
  | (n, i) :: tokens, fuel + 1, ln, pool, free, groups, group, h, hfuel, hgroup, hgroups => by
    obtain rfl : ln = some n := h.tokenList.1
    have hseg : (tokenPacket aes p group).bytes ++
        (aes (blockAt pool.mystrings (pool.buffer n))).toList.take recordLen =
        (tokenPacket aes p (group ++ [i])).bytes := by
      rw [h.window (n, i) (by simp), tokenPacket_append]
      rfl
    have hlen := length_tokenPacket_append_le hgroup i
    have hfuel' : tokens.length < fuel := by simpa using hfuel
    unfold sendTokens
    dsimp only
    rw [hseg]
    by_cases hfull : maxPktLen ≤ (tokenPacket aes p (group ++ [i])).bytes.length
    · -- the full segment is sent and the next one begins with the headers alone
      rw [if_pos hfull]
      have hsent : groups.map (tokenPacket aes p) ++ [⟨1, (tokenPacket aes p (group ++ [i])).bytes⟩] =
          (groups ++ [group ++ [i]]).map (tokenPacket aes p) := by
        simp [tokenPacket]
      have hgroups' := length_le_append hgroups hlen
      have ih := sendTokens_holding (groups ++ [group ++ [i]]) [] h.release hfuel' length_tokenPacket_nil_lt hgroups'
      rw [tokenPacket_nil] at ih
      rw [hsent]
      obtain ⟨groups', group', pool', hrun, hready, hflat, hrest⟩ := ih
      exact ⟨groups', group', pool', hrun, hready, by rw [hflat]; simp, hrest⟩
    · rw [if_neg hfull]
      obtain ⟨groups', group', pool', hrun, hready, hflat, hrest⟩ :=
        sendTokens_holding groups (group ++ [i]) h.release hfuel' (Nat.lt_of_not_le hfull) hgroups
      exact ⟨groups', group', pool', hrun, hready, by rw [hflat]; simp, hrest⟩

end SendLoop

/-! ## A call -/

section Run

variable (aes : Vector Byte 16 → Vector Byte 16) (dividers : Int → Bool)

theorem payloadBytes_eq {p : Packet} (hp : Admitted p) : payloadBytes p = (p.length : Int) - headerLen := by
  have hlen := hp.length
  simp only [headerLen, poolSize] at hlen
  unfold payloadBytes headerLen
  exact Int.bmod_eq_of_le (by omega) (by omega)

/-- The groups of a packet's marked offsets, the last one first, are what is to be sent. -/
theorem tokenized_of_groups {p : Packet} {groups : List (List Nat)}
    (hflat : groups.flatten = (marks (payload p) (p.length - headerLen) dividers).reverse)
    (hlen : ∀ s ∈ groups.map (tokenPacket aes p), s.bytes.length ≤ maxPktLen) :
    Tokenized aes dividers p (groups.map (tokenPacket aes p) ++ [⟨0, p.data.slice 0 p.length⟩]) := by
  refine ⟨groups, rfl, ?_, fun i => ?_, hlen⟩
  · rw [hflat, List.pairwise_reverse]
    exact marks_pairwise
  · rw [hflat, List.mem_reverse, mem_marks]

/-- A call with an admitted packet and a whole pool sends the packet's tokens and leaves the pool
whole. -/
theorem push_admitted {fuel : Nat} {pool : Pool} {p : Packet} (hfuel : poolSize < fuel) (hpool : pool.Ready)
    (hp : Admitted p) :
    ∃ sent pool', push aes dividers fuel pool p = some (sent, pool') ∧ Tokenized aes dividers p sent ∧
      pool'.Ready := by
  have hlen := hp.length
  have hbytes := payloadBytes_eq hp
  unfold push
  dsimp only
  rw [if_pos hp.http]
  by_cases hshort : (minTokenSize : Int) ≤ payloadBytes p
  · rw [if_pos hshort]
    have htextlen : (payloadBytes p % 2 ^ 16).toNat = p.length - headerLen := by
      simp only [hbytes, minTokenSize, headerLen, poolSize] at hshort hlen ⊢
      omega
    rw [htextlen]
    obtain ⟨ln, pool₁, tokens, free, htok, h, hsnd⟩ :=
      getUserTokensFromBuffer_holding (payload p) dividers hpool 
        (length_marks_le.trans (show p.length - headerLen ≤ poolSize by omega))
    obtain ⟨groups, group, pool₂, hrun, hready, hflat, hgroup, hgroups⟩ :=
      @sendTokens_holding aes p _ _ _ _ _ [] [] h (lt_of_le_of_lt (Nat.le.intro h.length_add) hfuel)
        length_tokenPacket_nil_lt (by simp)
    rw [tokenPacket_nil] at hrun
    have hmarks : (groups ++ [group]).flatten = (marks (payload p) (p.length - headerLen) dividers).reverse := by
      rw [← hsnd]
      simpa using hflat
    refine ⟨_, pool₂, ?_, tokenized_of_groups aes dividers hmarks (length_le_append hgroups hgroup), hready⟩
    simp only [show (fun k => p.data (headerLen + k)) = payload p from rfl, htok]
    rw [show ([] : List Sent) = List.map (tokenPacket aes p) [] from rfl, hrun]
    simp [tokenPacket]
  · -- fewer than eight bytes: nothing is marked and nothing is sent
    rw [if_neg hshort]
    refine ⟨_, pool, rfl, ⟨[], rfl, List.Pairwise.nil, fun i => ?_, by simp⟩, hpool⟩
    have hlt : p.length - headerLen < minTokenSize := by
      simp only [hbytes, minTokenSize] at hshort ⊢
      omega
    rw [tokenize_eq, tokenizeBy_of_short hlt]
    simp

/-- The calls for a sequence of admitted packets from a whole pool. -/
theorem run_admitted {fuel : Nat} (hfuel : poolSize < fuel) : ∀ {ps : List Packet} {pool : Pool}, pool.Ready →
    (∀ p ∈ ps, Admitted p) →
    ∃ calls, run aes dividers fuel pool ps = some calls ∧
      List.Forall₂ (fun p call => Tokenized aes dividers p call.1 ∧ call.2.Ready) ps calls
  | [], _, _, _ => ⟨[], rfl, .nil⟩
  | p :: ps, pool, hpool, hps => by
    obtain ⟨sent, pool', hpush, htok, hready⟩ :=
      push_admitted aes dividers hfuel hpool (hps p (by simp))
    obtain ⟨calls, hrun, hcalls⟩ := run_admitted hfuel hready fun q hq => hps q (List.mem_cons_of_mem _ hq)
    refine ⟨(sent, pool') :: calls, ?_, .cons ⟨htok, hready⟩ hcalls⟩
    simp only [run, hpush, hrun, Option.map_some]

/-- Every sequence of admitted packets is processed to its end; each call sends the tokens of its
packet, and after each call the free list holds every node once, with its own string and buffer. -/
theorem run_tokenized {fuel : Nat} (hfuel : poolSize < fuel) (ps : List Packet) (hps : ∀ p ∈ ps, Admitted p) :
    ∃ calls, run aes dividers fuel Pool.init ps = some calls ∧
      List.Forall₂ (fun p call => Tokenized aes dividers p call.1 ∧ call.2.Ready) ps calls :=
  run_admitted aes dividers hfuel Pool.init_ready hps

/-- The characters that the constructor makes dividers. -/
def dividerChars : List Int := [
  0x22, 0x23, 0x24, 0x25, 0x26, 0x27, 0x28, 0x29, 0x2a, 0x2b, 0x2d, 0x2e, 0x2f, 0x3a, 0x3b, 0x3c, 0x3d, 0x3e,
  0x3f, 0x40, 0x5b, 0x5c, 0x5d, 0x5e, 0x5f, 0x60, 0x7b, 0x7d, 0x7e]

/-- A request from 10.0.0.1 to port 80 of 10.0.0.2 with the payload `/abcdef/`. -/
def slashPacket : Packet where
  data := fun i => [
    0x45, 0x00, 0x00, 0x30, 0x00, 0x01, 0x00, 0x00, 0x40, 0x06, 0x00, 0x00, 0x0a, 0x00, 0x00, 0x01, 0x0a, 0x00,
    0x00, 0x02,
    0xc0, 0x00, 0x00, 0x50, 0x00, 0x00, 0x00, 0x01, 0x00, 0x00, 0x00, 0x01, 0x50, 0x18, 0x20, 0x00, 0x00, 0x00,
    0x00, 0x00,
    0x2f, 0x61, 0x62, 0x63, 0x64, 0x65, 0x66, 0x2f][i]?.getD 0
  length := 48
  networkHeader := none
  transportHeader := none

/-- The cipher under the constructor's key, `blueblueblueblue`, at the two windows of `/abcdef/`. -/
def blueAes (block : Vector Byte 16) : Vector Byte 16 :=
  if block.toList.take 8 = [0x2f, 0x61, 0x62, 0x63, 0x64, 0x65, 0x66, 0x2f] then
    #v[0x04, 0x8f, 0x82, 0xa4, 0x2e, 0x38, 0x4f, 0xf4, 0x87, 0x63, 0x34, 0xc3, 0xda, 0x1a, 0x3d, 0x5a]
  else #v[0xeb, 0xd3, 0x98, 0x89, 0x35, 0x09, 0x84, 0x2a, 0x9f, 0x44, 0x58, 0x85, 0x22, 0xc2, 0x5e, 0x78]

theorem slashPacket_admitted : Admitted slashPacket := ⟨by decide, by decide⟩

theorem run_tokenized_slash :
    ∃ calls, run blueAes (· ∈ dividerChars) 1501 Pool.init [slashPacket, slashPacket] = some calls ∧
      List.Forall₂ (fun p call => Tokenized blueAes (· ∈ dividerChars) p call.1 ∧ call.2.Ready)
        [slashPacket, slashPacket] calls := by
  refine run_tokenized blueAes (· ∈ dividerChars) (by decide) [slashPacket, slashPacket] fun p hp => ?_
  obtain rfl : p = slashPacket := by simpa using hp
  exact slashPacket_admitted

end Run

end MBArkDPI

end Dpi

end Embark
