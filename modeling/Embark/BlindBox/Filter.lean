/-
`BlindBoxFilter::push` over runs of packets: the SYNs of new connections enter the signature table
until its queue is full, and every TCP packet looks its connection's record up. As no lookup finds
a record, a run is correct exactly where no TCP packet belongs to the connection of an accepted SYN
before it.
-/
import Embark.BlindBox.SignatureTable
import Embark.Net.Packet

namespace Embark

namespace BlindBox

/-! ## The element -/

/-- The size of `click_ether`, after which the IP header starts. -/
def etherLen : Nat := 14

/-- The offset of the TCP header, after an IP header without options. -/
def tcpAt : Nat := etherLen + 20

/-- A TCP packet: `ETHERTYPE_IP` and `IP_PROTO_TCP`. -/
def isTcp (p : Packet) : Bool := ntohs (p.data.load 16 12) == 0x0800 && ipP p.data etherLen == 6

/-- `TH_SYN` is set. -/
def synFlag (p : Packet) : Bool := p.data (tcpAt + 13) &&& 0x02 == 0x02

/-- The flow in the headers. -/
def flow (p : Packet) : IPFlowID := FlowID.read 32 p.data (etherLen + 12) (etherLen + 16) tcpAt

/-- The connection of a packet, the same in both directions. -/
def connectionId (p : Packet) : ConnectionID :=
  let f := flow p
  if f.saddr < f.daddr then ⟨f.saddr, f.daddr, f.sport, f.dport⟩ else ⟨f.daddr, f.saddr, f.dport, f.sport⟩

/-- What `push` did with a packet: the record that `getConnRecord` returned, the record that
`addToPendingConnections` made, and whether the packet was forwarded. -/
structure Outcome where
  record : Option Nat
  enqueued : Option Nat
  forwarded : Bool
deriving DecidableEq, Repr

/-- `r ? r->status : NO_RECORD`. -/
def status (st : SignatureTable) (r : Option Nat) : ConnStatus :=
  match r.bind (st.records[·]?) with
  | some record => record.status
  | none => .noRecord

/-- `push`. -/
def push (st : SignatureTable) (p : Packet) : Option (Outcome × SignatureTable) :=
  if isTcp p then
    let id := connectionId p
    let r := st.getConnRecord id
    if synFlag p ∧ status st r = .noRecord then
      match st.addToPendingConnections id (flow p).saddr (ntohl (p.data.load 32 (tcpAt + 4))) with
      | none => none
      | some (false, st) => some (⟨r, none, false⟩, st)
      | some (true, st') => some (⟨r, some st.records.length, true⟩, st')
    else some (⟨r, none, true⟩, st)
  else some (⟨none, none, true⟩, st)

/-! ## What a run is to do -/

/-- Packets of one connection, in either direction. -/
def SameConnection (p q : Packet) : Prop := flow p = flow q ∨ flow p = (flow q).reverse

/-- A step of the run whose packet is an accepted SYN of the connection of `p`. -/
def AcceptedSynOf (s : Packet × Outcome) (p : Packet) : Prop := s.2.enqueued ≠ none ∧ SameConnection s.1 p

/-- The lookup for `p` after the steps `done`: the record of the connection, made at one of its own
accepted SYNs, where there is one, and no second entry for the connection; no record otherwise. -/
structure FindsConnection (done : List (Packet × Outcome)) (st : SignatureTable) (p : Packet) (o : Outcome) :
    Prop where
  found : (∃ s ∈ done, AcceptedSynOf s p) →
    (∃ s ∈ done, AcceptedSynOf s p ∧ o.record = s.2.enqueued) ∧ status st o.record ≠ .noRecord ∧
      o.enqueued = none
  notFound : (¬∃ s ∈ done, AcceptedSynOf s p) → o.record = none

/-- A run from the table after the steps `done` in which every TCP packet finds its connection. -/
def CorrectRun (done : List (Packet × Outcome)) (st : SignatureTable) : List Packet → Prop
  | [] => True
  | p :: ps => ∃ o st', push st p = some (o, st') ∧ (isTcp p → FindsConnection done st p o) ∧
      CorrectRun (done ++ [(p, o)]) st' ps

/-- A TCP packet with `TH_SYN`. -/
def isSyn (p : Packet) : Bool := isTcp p && synFlag p

/-- The SYNs for which there is room in the queue. -/
def firstSyns (ps : List Packet) : List Packet := (ps.filter isSyn).take maxConnections

/-! ## Steps -/

/-- The accepted SYNs among some steps. -/
def acceptedSyns (done : List (Packet × Outcome)) : List Packet := (done.filter (·.2.enqueued.isSome)).map Prod.fst

/-- The table after the steps `done`. -/
structure After (done : List (Packet × Outcome)) (st : SignatureTable) : Prop where
  keys : st.LongKeys
  head : st.pendingHead = 0
  tail : st.pendingTail.toNat = (acceptedSyns done).length
  accepted : acceptedSyns done = firstSyns (done.map Prod.fst)

theorem after_init : After [] .init := ⟨SignatureTable.init_longKeys, rfl, rfl, rfl⟩

theorem saddr_mem_connectionId (p : Packet) :
    (flow p).saddr = (connectionId p).ip1 ∨ (flow p).saddr = (connectionId p).ip2 := by
  unfold connectionId
  dsimp only
  split
  · exact .inl rfl
  · exact .inr rfl

theorem firstSyns_append_of_not (ps : List Packet) {p : Packet} (hp : isSyn p = false) :
    firstSyns (ps ++ [p]) = firstSyns ps := by
  simp [firstSyns, List.filter_append, hp]

theorem firstSyns_append_of_lt {ps : List Packet} {p : Packet} (hp : isSyn p)
    (hlt : (firstSyns ps).length < maxConnections) : firstSyns (ps ++ [p]) = firstSyns ps ++ [p] := by
  unfold firstSyns at hlt ⊢
  rw [List.length_take] at hlt
  have hroom : (ps.filter isSyn).length + 1 ≤ maxConnections := by omega
  rw [List.filter_append, List.filter_cons_of_pos hp, List.filter_nil, List.take_of_length_le (Nat.le_of_succ_le hroom),
    List.take_of_length_le]
  rwa [List.length_append, List.length_singleton]

theorem firstSyns_append_of_le {ps : List Packet} (p : Packet) (hle : maxConnections ≤ (firstSyns ps).length) :
    firstSyns (ps ++ [p]) = firstSyns ps := by
  unfold firstSyns at hle ⊢
  rw [List.length_take] at hle
  rw [List.filter_append, List.take_append_of_le_length (by omega)]

theorem acceptedSyns_append (done : List (Packet × Outcome)) (p : Packet) (o : Outcome) :
    acceptedSyns (done ++ [(p, o)]) = acceptedSyns done ++ if o.enqueued.isSome then [p] else [] := by
  unfold acceptedSyns
  rw [List.filter_append, List.map_append]
  congr 1
  by_cases h : o.enqueued.isSome <;> simp [h]

section Steps

variable {done : List (Packet × Outcome)} {st st' : SignatureTable} {p : Packet} {o : Outcome}

/-- A step that enqueues nothing and whose packet is no SYN to accept. -/
theorem After.append_none (h : After done st) (ho : o.enqueued = none)
    (hp : firstSyns (done.map Prod.fst ++ [p]) = firstSyns (done.map Prod.fst)) : After (done ++ [(p, o)]) st := by
  have hacc : acceptedSyns (done ++ [(p, o)]) = acceptedSyns done := by
    rw [acceptedSyns_append, ho]
    simp
  refine ⟨h.keys, h.head, by rw [h.tail, hacc], ?_⟩
  rw [hacc, h.accepted, List.map_append]
  exact hp.symm

/-- A step that accepts a SYN while there is room. -/
theorem After.append_some (h : After done st) (ho : o.enqueued.isSome) (hp : isSyn p)
    (hroom : (firstSyns (done.map Prod.fst)).length < maxConnections) (hkeys : st'.LongKeys)
    (hhead : st'.pendingHead = st.pendingHead) (htail : st'.pendingTail = st.pendingTail + 1) :
    After (done ++ [(p, o)]) st' := by
  have hacc : acceptedSyns (done ++ [(p, o)]) = acceptedSyns done ++ [p] := by
    rw [acceptedSyns_append, if_pos ho]
  refine ⟨hkeys, hhead.trans h.head, ?_, ?_⟩
  · -- the tail stays within the queue, so the 32-bit counter does not wrap
    have hmax : maxConnections = 1000 := rfl
    have hlt : st.pendingTail.toNat < 1000 := by
      rw [h.tail, h.accepted]
      omega
    rw [htail, hacc, List.length_append, ← h.tail, BitVec.toNat_add]
    exact Nat.mod_eq_of_lt (by simp; omega)
  · rw [hacc, h.accepted, List.map_append]
    exact (firstSyns_append_of_lt hp hroom).symm

/-- One call: no record is found, and a SYN is accepted while there is room. -/
theorem After.push (h : After done st) (p : Packet) :
    ∃ o st', push st p = some (o, st') ∧ o.record = none ∧ After (done ++ [(p, o)]) st' := by
  unfold BlindBox.push
  by_cases htcp : isTcp p
  · have hnone := h.keys.getConnRecord (connectionId p)
    rw [if_pos htcp]
    dsimp only
    rw [hnone]
    by_cases hsyn : synFlag p
    · rw [if_pos ⟨hsyn, rfl⟩]
      have hpsyn : isSyn p := by simp [isSyn, htcp, hsyn]
      have hpending : (st.pendingTail - st.pendingHead).toNat = (firstSyns (done.map Prod.fst)).length := by
        rw [h.head, show st.pendingTail - 0 = st.pendingTail from BitVec.sub_zero _, h.tail, h.accepted]
      -- no record means no status: every SYN is taken for one of a new connection
      rcases st.addToPendingConnections_cases (saddr_mem_connectionId p) (ntohl (p.data.load 32 (tcpAt + 4))) with
        ⟨hfull, hadd⟩ | ⟨hroom, st', hadd, hhead, htail, hactive⟩
      · rw [hadd]
        rw [hpending] at hfull
        exact ⟨_, _, rfl, rfl, h.append_none rfl (firstSyns_append_of_le p hfull)⟩
      · rw [hadd]
        rw [hpending] at hroom
        exact ⟨_, _, rfl, rfl, h.append_some rfl hpsyn hroom (h.keys.insertNew hactive) hhead htail⟩
    · rw [if_neg fun hc => hsyn hc.1]
      refine ⟨_, _, rfl, rfl, h.append_none rfl (firstSyns_append_of_not _ ?_)⟩
      simp [isSyn, hsyn]
  · rw [if_neg htcp]
    refine ⟨_, _, rfl, rfl, h.append_none rfl (firstSyns_append_of_not _ ?_)⟩
    simp [isSyn, htcp]

/-- Without a record the lookup is right where no SYN of the connection was accepted. -/
theorem After.findsConnection_iff (h : After done st) (ho : o.record = none) :
    FindsConnection done st p o ↔ ∀ q ∈ firstSyns (done.map Prod.fst), ¬SameConnection q p := by
  -- what was accepted is known from the packets alone
  have hsyns : (∃ s ∈ done, AcceptedSynOf s p) ↔ ∃ q ∈ firstSyns (done.map Prod.fst), SameConnection q p := by
    rw [← h.accepted]
    unfold acceptedSyns AcceptedSynOf
    simp only [List.mem_map, List.mem_filter, Option.isSome_iff_ne_none]
    constructor
    · rintro ⟨s, hs, hne, hsame⟩
      exact ⟨s.1, ⟨s, ⟨hs, hne⟩, rfl⟩, hsame⟩
    · rintro ⟨_, ⟨s, ⟨hs, hne⟩, rfl⟩, hsame⟩
      exact ⟨s, hs, hne, hsame⟩
  constructor
  · intro hfinds q hq hsame
    obtain ⟨-, hstatus, -⟩ := hfinds.found (hsyns.2 ⟨q, hq, hsame⟩)
    rw [ho] at hstatus
    exact hstatus rfl
  · intro hnone
    have hno : ¬∃ s ∈ done, AcceptedSynOf s p := by
      rw [hsyns]
      rintro ⟨q, hq, hsame⟩
      exact hnone q hq hsame
    exact ⟨fun hex => absurd hex hno, fun _ => ho⟩

end Steps

/-! ## Runs -/

theorem correctRun_iff :
    ∀ {ps : List Packet} {done : List (Packet × Outcome)} {st : SignatureTable}, After done st →
    (CorrectRun done st ps ↔ ∀ pre q post, ps = pre ++ q :: post → isTcp q →
      ∀ p ∈ firstSyns (done.map Prod.fst ++ pre), ¬SameConnection p q)
  | [], _, _, _ => iff_of_true trivial fun pre q post heq => absurd heq (by simp)
  | p :: ps, done, st, h => by
    obtain ⟨o, st', hpush, hrecord, hafter⟩ := h.push p
    have ih := @correctRun_iff ps _ _ hafter
    have hmap : (done ++ [(p, o)]).map Prod.fst = done.map Prod.fst ++ [p] := by simp
    rw [hmap] at ih
    constructor
    · rintro ⟨o', st₂, hpush', hfinds, hrun⟩
      rw [hpush] at hpush'
      obtain ⟨rfl, rfl⟩ : o = o' ∧ st' = st₂ := by simpa using hpush'
      intro pre q post heq hq
      cases pre with
      | nil =>
        obtain ⟨rfl, rfl⟩ : p = q ∧ ps = post := by simpa using heq
        rw [List.append_nil]
        exact (h.findsConnection_iff hrecord).1 (hfinds hq)
      | cons p' pre =>
        obtain ⟨rfl, rfl⟩ : p = p' ∧ ps = pre ++ q :: post := by simpa using heq
        have := ih.1 hrun pre q post rfl hq
        rwa [List.append_assoc, List.singleton_append] at this
    · intro hall
      refine ⟨o, st', hpush, fun hp => ?_, ih.2 fun pre q post heq hq => ?_⟩
      · rw [h.findsConnection_iff hrecord]
        have := hall [] p ps rfl hp
        rwa [List.append_nil] at this
      · rw [List.append_assoc, List.singleton_append]
        exact hall (p :: pre) q post (by rw [heq]; rfl) hq

/-- Every TCP packet of a run finds its connection exactly if none belongs to the connection of one
of the first 1000 SYNs before it. -/
theorem run_correct_iff (ps : List Packet) :
    CorrectRun [] .init ps ↔ ∀ pre q post, ps = pre ++ q :: post → isTcp q →
      ∀ p ∈ firstSyns pre, ¬SameConnection p q :=
  correctRun_iff after_init

/-- A TCP packet from port 49152 of 10.0.0.1 to port 443 of 10.0.0.2. -/
def tcpPacket (seq ack flags : Byte) : Packet where
  data := fun i => [
    0x02, 0x00, 0x00, 0x00, 0x00, 0x02, 0x02, 0x00, 0x00, 0x00, 0x00, 0x01, 0x08, 0x00,
    0x45, 0x00, 0x00, 0x28, 0x00, 0x01, 0x40, 0x00, 0x40, 0x06, 0x00, 0x00, 0x0a, 0x00, 0x00, 0x01, 0x0a, 0x00,
    0x00, 0x02,
    0xc0, 0x00, 0x01, 0xbb, 0, 0, 0, seq, 0, 0, 0, ack, 0x50, flags, 0x20, 0x00, 0, 0, 0, 0][i]?.getD 0
  length := 54
  networkHeader := none
  transportHeader := none

/-- The client's SYN. -/
def synPacket : Packet := tcpPacket 1 0 0x02

/-- The client's next packet. -/
def ackPacket : Packet := tcpPacket 2 9 0x10

theorem isSyn_synPacket : isSyn synPacket := by decide

theorem isTcp_ackPacket : isTcp ackPacket := by decide

theorem sameConnection_ackPacket : SameConnection synPacket ackPacket := by
  left
  simp [flow, FlowID.read, Memory.load, Memory.loadLE, synPacket, ackPacket, tcpPacket, etherLen, tcpAt]

/-- After a connection's SYN no record is found for the client's next packet. -/
theorem syn_not_found : ¬CorrectRun [] .init [synPacket, ackPacket] := by
  rw [correctRun_iff after_init]
  intro h
  refine h [synPacket] ackPacket [] rfl isTcp_ackPacket synPacket ?_ sameConnection_ackPacket
  simp [firstSyns, isSyn_synPacket, maxConnections]

end BlindBox

end Embark
