/-
The queue of pending connections between `addToPendingConnections` and the loop of `GarbleSpeaker`.
Both counters run freely; the consumer reduces its index modulo the capacity and the producer does
not, so the queue is a ring as long as the tail has not reached the capacity, and the first entry
accepted after that is written behind the array.
-/
import Embark.BlindBox.SignatureTable
import Embark.Lib.Ring

namespace Embark

namespace BlindBox

open SignatureTable (insertNew exists_newRecord)

namespace SignatureTable

/-! ## The consumer -/

/-- One round of `run_task` for a table whose counters differ: the connection it reads, and the table
with its record allowed. A connection without a record is a null pointer, here `none`. -/
def takePending (st : SignatureTable) : Option (ConnectionID × SignatureTable) :=
  let next := st.pendingConnectionsQueue (st.pendingHead.toNat % maxConnections)
  (st.activeConnections next.bytes).map fun record =>
    (next, { st with
      pendingHead := st.pendingHead + 1
      records := st.records.modify record fun r => { r with status := .allow } })

/-- What the next rounds read, if nothing is added. -/
def pending (st : SignatureTable) : List ConnectionID :=
  (List.range (st.pendingTail - st.pendingHead).toNat).map fun i =>
    st.pendingConnectionsQueue ((st.pendingHead + BitVec.ofNat 32 i).toNat % maxConnections)

end SignatureTable

/-! ## Runs -/

/-- The indices written so far, the connections accepted and those the consumer obtained, in order. -/
structure PendingLog where
  writes : List Nat
  accepted : List ConnectionID
  consumed : List ConnectionID

/-- The interleavings of calls that accept, calls that refuse, and rounds of the consumer. -/
inductive PendingRun : SignatureTable → PendingLog → Prop
  | init : PendingRun SignatureTable.init ⟨[], [], []⟩
  | accept {st st' log id srcIp initSeqno} : PendingRun st log →
      st.addToPendingConnections id srcIp initSeqno = some (true, st') →
      PendingRun st' ⟨log.writes ++ [st.pendingTail.toNat], log.accepted ++ [id], log.consumed⟩
  | refuse {st st' log id srcIp initSeqno} : PendingRun st log →
      st.addToPendingConnections id srcIp initSeqno = some (false, st') → PendingRun st' log
  | consume {st st' log id} : PendingRun st log → st.pendingTail ≠ st.pendingHead →
      st.takePending = some (id, st') → PendingRun st' { log with consumed := log.consumed ++ [id] }

/-- Every write was inside the array, no more entries are pending than it holds, what was accepted
and not obtained yet is what the next rounds read, in that order, and the next round finds a record. -/
structure BoundedFifo (st : SignatureTable) (log : PendingLog) : Prop where
  inBounds : ∀ i ∈ log.writes, i < maxConnections
  bounded : (st.pendingTail - st.pendingHead).toNat ≤ maxConnections
  fifo : log.accepted = log.consumed ++ st.pending
  served : st.pendingTail ≠ st.pendingHead → ∃ r, st.takePending = some r

/-! ## The calls -/

section Calls

variable {st st' : SignatureTable} {id : ConnectionID} {srcIp initSeqno : BitVec 32}

/-- A call that accepts. -/
theorem accept_spec (h : st.addToPendingConnections id srcIp initSeqno = some (true, st')) :
    (st.pendingTail - st.pendingHead).toNat < maxConnections ∧
      st'.pendingConnectionsQueue = Function.update st.pendingConnectionsQueue st.pendingTail.toNat id ∧
      st'.pendingHead = st.pendingHead ∧ st'.pendingTail = st.pendingTail + 1 ∧
      st'.activeConnections = insertNew st.activeConnections id.bytes st.records.length := by
  unfold SignatureTable.addToPendingConnections at h
  by_cases hfull : maxConnections ≤ (st.pendingTail - st.pendingHead).toNat
  · rw [if_pos hfull] at h
    cases h
  · rw [if_neg hfull] at h
    cases hrecord : SignatureTable.newRecord id srcIp initSeqno with
    | none =>
      rw [hrecord] at h
      cases h
    | some record =>
      rw [hrecord] at h
      cases h
      refine ⟨Nat.lt_of_not_le hfull, ?_, rfl, rfl, rfl⟩
      funext k
      rw [Function.update_apply]

/-- A call that refuses changes nothing. -/
theorem refuse_spec (h : st.addToPendingConnections id srcIp initSeqno = some (false, st')) : st' = st := by
  unfold SignatureTable.addToPendingConnections at h
  by_cases hfull : maxConnections ≤ (st.pendingTail - st.pendingHead).toNat
  · rw [if_pos hfull] at h
    cases h
    rfl
  · rw [if_neg hfull] at h
    cases hrecord : SignatureTable.newRecord id srcIp initSeqno with
    | none =>
      rw [hrecord] at h
      cases h
    | some record =>
      rw [hrecord] at h
      cases h

/-- A round of the consumer. -/
theorem consume_spec (h : st.takePending = some (id, st')) :
    id = st.pendingConnectionsQueue (st.pendingHead.toNat % maxConnections) ∧
      st'.pendingConnectionsQueue = st.pendingConnectionsQueue ∧ st'.pendingHead = st.pendingHead + 1 ∧
      st'.pendingTail = st.pendingTail ∧ st'.activeConnections = st.activeConnections := by
  unfold SignatureTable.takePending at h
  obtain ⟨record, -, heq⟩ := Option.map_eq_some_iff.1 h
  cases heq
  exact ⟨rfl, rfl, rfl, rfl, rfl⟩

end Calls

/-! ## Every run -/

/-- The counters count modulo `2 ^ 32`, the writes are at the counts, and every accepted connection
has a record. -/
structure Counted (st : SignatureTable) (log : PendingLog) : Prop where
  tail : st.pendingTail = BitVec.ofNat 32 log.accepted.length
  head : st.pendingHead = BitVec.ofNat 32 log.consumed.length
  writes : log.writes = (List.range log.accepted.length).map (· % 2 ^ 32)
  recorded : ∀ id ∈ log.accepted, st.activeConnections id.bytes ≠ none

namespace PendingRun

variable {st : SignatureTable} {log : PendingLog}

theorem counted (h : PendingRun st log) : Counted st log := by
  induction h with
  | init => exact ⟨rfl, rfl, rfl, fun _ h => absurd h List.not_mem_nil⟩
  | @accept st st' log id _ _ _ hadd ih =>
    obtain ⟨-, -, hhead, htail, hactive⟩ := accept_spec hadd
    refine ⟨?_, hhead.trans ih.head, ?_, fun x hx => ?_⟩
    · rw [htail, ih.tail, List.length_append, List.length_singleton, BitVec.ofNat_add]
      rfl
    · rw [ih.writes, ih.tail, List.length_append, List.length_singleton, List.range_succ, List.map_append,
        BitVec.toNat_ofNat]
      rfl
    · rw [hactive]
      unfold insertNew
      rcases List.mem_append.1 hx with hx | hx
      · rw [if_neg fun hnew => ih.recorded x hx hnew.2]
        exact ih.recorded x hx
      · rw [List.mem_singleton.1 hx]
        by_cases hnew : st.activeConnections id.bytes = none
        · rw [if_pos ⟨rfl, hnew⟩]
          exact Option.some_ne_none _
        · rw [if_neg fun h => hnew h.2]
          exact hnew
  | refuse _ hadd ih =>
    rw [refuse_spec hadd]
    exact ih
  | consume _ _ htake ih =>
    obtain ⟨-, -, hhead, htail, hactive⟩ := consume_spec htake
    refine ⟨htail.trans ih.tail, ?_, ih.writes, fun x hx => ?_⟩
    · rw [hhead, ih.head, List.length_append, List.length_singleton, BitVec.ofNat_add]
      rfl
    · rw [hactive]
      exact ih.recorded x hx

/-- The queue with the counts for its counters. -/
def ring (st : SignatureTable) (log : PendingLog) : Ring ConnectionID :=
  ⟨st.pendingConnectionsQueue, log.consumed.length, log.accepted.length⟩

/-- Below the capacity the write is where the ring puts it. -/
theorem ring_accept (h : PendingRun st log) {st' : SignatureTable} {id : ConnectionID} {srcIp initSeqno : BitVec 32}
    (hadd : st.addToPendingConnections id srcIp initSeqno = some (true, st'))
    (hlt : log.accepted.length < maxConnections) (writes : List Nat) :
    ring st' ⟨writes, log.accepted ++ [id], log.consumed⟩ = (ring st log).push maxConnections id := by
  obtain ⟨-, hqueue, -, -, -⟩ := accept_spec hadd
  have hcap : maxConnections = 1000 := rfl
  have htail : st.pendingTail.toNat = log.accepted.length % maxConnections := by
    rw [h.counted.tail, BitVec.toNat_ofNat, Nat.mod_eq_of_lt (by omega), Nat.mod_eq_of_lt hlt]
  unfold ring Ring.push
  simp only [hqueue, htail, List.length_append, List.length_singleton]

/-- A round of the consumer takes what the ring has at its head. -/
theorem ring_consume (h : PendingRun st log) {st' : SignatureTable} {id : ConnectionID}
    (htake : st.takePending = some (id, st')) (hlt : log.consumed.length < maxConnections) :
    id = (ring st log).cells ((ring st log).head % maxConnections) ∧
      ring st' { log with consumed := log.consumed ++ [id] } = (ring st log).pop := by
  obtain ⟨hid, hqueue, -, -, -⟩ := consume_spec htake
  have hcap : maxConnections = 1000 := rfl
  constructor
  · rw [hid, h.counted.head, BitVec.toNat_ofNat, Nat.mod_eq_of_lt (a := log.consumed.length) (by omega)]
    rfl
  · unfold ring Ring.pop
    simp only [hqueue, List.length_append, List.length_singleton]

/-- Up to the capacity the queue is a ring of what was accepted and not obtained. -/
theorem eq_contents (h : PendingRun st log) : log.accepted.length ≤ maxConnections →
    log.accepted = log.consumed ++ (ring st log).contents maxConnections := by
  induction h with
  | init => exact fun _ => rfl
  | @accept st st' log id _ _ hrun hadd ih =>
    intro hle
    rw [List.length_append, List.length_singleton] at hle
    have hcontents := ih (by omega)
    have hcount : (ring st log).head ≤ (ring st log).tail := List.IsPrefix.length_le ⟨_, hcontents.symm⟩
    have hroom : (ring st log).tail - (ring st log).head < maxConnections := by
      show log.accepted.length - log.consumed.length < maxConnections
      omega
    rw [hrun.ring_accept hadd (by omega), Ring.contents_push _ hcount hroom, ← List.append_assoc, ← hcontents]
  | refuse _ hadd ih =>
    rw [refuse_spec hadd]
    exact ih
  | @consume st st' log id hrun hne htake ih =>
    intro hle
    have hcontents := ih hle
    -- the counters differ, so the counts do
    have hlt : log.consumed.length < log.accepted.length := by
      refine lt_of_le_of_ne (List.IsPrefix.length_le ⟨_, hcontents.symm⟩) fun heq => hne ?_
      rw [hrun.counted.tail, hrun.counted.head, heq]
    obtain ⟨hid, hring⟩ := hrun.ring_consume htake (Nat.lt_of_lt_of_le hlt hle)
    rw [hring, List.append_assoc, List.singleton_append, hid, ← Ring.contents_pop hlt]
    exact hcontents

theorem consumed_le (h : PendingRun st log) (hle : log.accepted.length ≤ maxConnections) :
    log.consumed.length ≤ log.accepted.length := List.IsPrefix.length_le ⟨_, (h.eq_contents hle).symm⟩

/-- What the next rounds read is what the ring contains. -/
theorem pending_eq (h : PendingRun st log) (hle : log.accepted.length ≤ maxConnections) :
    st.pending = (ring st log).contents maxConnections := by
  have hcount := h.consumed_le hle
  have hcap : maxConnections = 1000 := rfl
  have hdiff : (st.pendingTail - st.pendingHead).toNat = log.accepted.length - log.consumed.length := by
    rw [h.counted.tail, h.counted.head, BitVec.toNat_sub, BitVec.toNat_ofNat, BitVec.toNat_ofNat]
    omega
  unfold SignatureTable.pending Ring.contents ring
  rw [hdiff]
  refine List.map_congr_left fun i hi => ?_
  rw [List.mem_range] at hi
  rw [h.counted.head, ← BitVec.ofNat_add, BitVec.toNat_ofNat,
    Nat.mod_eq_of_lt (a := log.consumed.length + i) (by omega)]

/-- A run that accepted no more than the capacity. -/
theorem boundedFifo (h : PendingRun st log) (hle : log.accepted.length ≤ maxConnections) : BoundedFifo st log := by
  have hcap : maxConnections = 1000 := rfl
  have hcontents := h.eq_contents hle
  rw [← h.pending_eq hle] at hcontents
  refine ⟨fun i hi => ?_, ?_, hcontents, fun hne => ?_⟩
  · rw [h.counted.writes, List.mem_map] at hi
    obtain ⟨k, hk, rfl⟩ := hi
    rw [List.mem_range] at hk
    omega
  · have hlen := congrArg List.length hcontents
    rw [List.length_append] at hlen
    have hpending : st.pending.length = (st.pendingTail - st.pendingHead).toNat := by simp [SignatureTable.pending]
    omega
  · -- the next connection is one that was accepted, so it has a record
    have hpos : (st.pendingTail - st.pendingHead).toNat ≠ 0 := fun hzero => by
      apply hne
      apply BitVec.eq_of_toNat_eq
      have htail := st.pendingTail.isLt
      have hhead := st.pendingHead.isLt
      rw [BitVec.toNat_sub] at hzero
      omega
    have hnext : st.pendingConnectionsQueue (st.pendingHead.toNat % maxConnections) ∈ log.accepted := by
      rw [hcontents]
      refine List.mem_append_right _ (List.mem_map.2 ⟨0, List.mem_range.2 (by omega), ?_⟩)
      show st.pendingConnectionsQueue ((st.pendingHead + 0#32).toNat % maxConnections) = _
      rw [BitVec.add_zero]
    obtain ⟨record, hrecord⟩ := Option.ne_none_iff_exists'.1 (h.counted.recorded _ hnext)
    unfold SignatureTable.takePending
    simp only [hrecord]
    exact ⟨_, rfl⟩

/-- The entry after the last place of the array was written there. -/
theorem not_boundedFifo (h : PendingRun st log) (hgt : maxConnections < log.accepted.length) :
    ¬ BoundedFifo st log := by
  intro hfifo
  have hwrite : maxConnections ∈ log.writes := by
    rw [h.counted.writes, List.mem_map]
    exact ⟨maxConnections, List.mem_range.2 hgt, rfl⟩
  exact lt_irrefl _ (hfifo.inBounds _ hwrite)

/-- The queue is a bounded FIFO in exactly those states that are reached by accepting no more
connections than it has places. -/
theorem boundedFifo_iff (h : PendingRun st log) : BoundedFifo st log ↔ log.accepted.length ≤ maxConnections := by
  constructor
  · intro hfifo
    by_contra hgt
    exact h.not_boundedFifo (Nat.lt_of_not_le hgt) hfifo
  · exact h.boundedFifo

/-! ## Runs up to the capacity -/

/-- A call while a place is free. -/
theorem exists_accept (h : PendingRun st log) (id : ConnectionID)
    (hroom : (st.pendingTail - st.pendingHead).toNat < maxConnections) :
    ∃ st', PendingRun st' ⟨log.writes ++ [st.pendingTail.toNat], log.accepted ++ [id], log.consumed⟩ := by
  have hsrc : id.ip1 = id.ip1 ∨ id.ip1 = id.ip2 := .inl rfl
  rcases st.addToPendingConnections_cases hsrc 0 with ⟨hfull, -⟩ | ⟨-, st', hadd, -⟩
  · exact absurd hroom (Nat.not_lt_of_le hfull)
  · exact ⟨st', h.accept hadd⟩

/-- No place is taken where every accepted connection was obtained. -/
theorem drained (h : PendingRun st log) (hall : log.accepted.length = log.consumed.length) :
    (st.pendingTail - st.pendingHead).toNat < maxConnections := by
  rw [h.counted.tail, h.counted.head, hall, BitVec.sub_self]
  decide

/-- A round while accepted connections wait obtains the first of them. -/
theorem exists_consume (h : PendingRun st log) (hle : log.accepted.length ≤ maxConnections)
    (hlt : log.consumed.length < log.accepted.length) :
    ∃ id st', log.accepted[log.consumed.length]? = some id ∧
      PendingRun st' { log with consumed := log.consumed ++ [id] } := by
  have hcap : maxConnections = 1000 := rfl
  have hne : st.pendingTail ≠ st.pendingHead := by
    rw [h.counted.tail, h.counted.head]
    intro heq
    have hnat := congrArg BitVec.toNat heq
    rw [BitVec.toNat_ofNat, BitVec.toNat_ofNat] at hnat
    omega
  obtain ⟨⟨id, st'⟩, htake⟩ := (h.boundedFifo hle).served hne
  have hrun := h.consume hne htake
  have hfifo : log.accepted = log.consumed ++ [id] ++ st'.pending := (hrun.boundedFifo hle).fifo
  refine ⟨id, st', ?_, hrun⟩
  rw [hfifo]
  simp

/-- From 10.0.0.2 to port 443 of 10.0.0.3, in network order. -/
def connection : ConnectionID := ⟨0x0200000a, 0x0300000a, 0x3412, 0xbb01⟩

/-- From another port of 10.0.0.2. -/
def otherConnection : ConnectionID := ⟨0x0200000a, 0x0300000a, 0x3512, 0xbb01⟩

/-- Two connections that wait at the same time, and are obtained in their order. -/
theorem boundedFifo_drained : ∃ st st', PendingRun st ⟨[0, 1], [connection, otherConnection], []⟩ ∧
    BoundedFifo st ⟨[0, 1], [connection, otherConnection], []⟩ ∧
    PendingRun st' ⟨[0, 1], [connection, otherConnection], [connection, otherConnection]⟩ ∧
    BoundedFifo st' ⟨[0, 1], [connection, otherConnection], [connection, otherConnection]⟩ := by
  obtain ⟨st1, h1⟩ := exists_accept .init connection (by decide)
  obtain ⟨st2, h2⟩ := h1.exists_accept otherConnection (by rw [h1.counted.tail, h1.counted.head]; decide)
  rw [h1.counted.tail] at h2
  obtain ⟨id, st3, hid, h3⟩ := h2.exists_consume (by decide) (by decide)
  obtain rfl : connection = id := Option.some.inj hid
  obtain ⟨id, st4, hid, h4⟩ := h3.exists_consume (by decide) (by decide)
  obtain rfl : otherConnection = id := Option.some.inj hid
  exact ⟨st2, st4, h2, h2.boundedFifo_iff.2 (by decide), h4, h4.boundedFifo_iff.2 (by decide)⟩

/-- One connection after another is accepted and obtained, as many times as there are places. -/
theorem exists_alternating : ∀ n ≤ maxConnections,
    ∃ st log, PendingRun st log ∧ log.accepted.length = n ∧ log.consumed.length = n
  | 0, _ => ⟨_, _, .init, rfl, rfl⟩
  | n + 1, hn => by
    obtain ⟨st, log, hrun, ha, hc⟩ := exists_alternating n (by omega)
    obtain ⟨st', hrun'⟩ := hrun.exists_accept connection (hrun.drained (by rw [ha, hc]))
    have hlen : (log.accepted ++ [connection]).length = n + 1 := by
      rw [List.length_append, ha]
      rfl
    obtain ⟨id, st'', -, hrun''⟩ := hrun'.exists_consume (by rw [hlen]; exact hn)
      (by rw [hlen, hc]; exact Nat.lt_succ_self n)
    refine ⟨st'', _, hrun'', hlen, ?_⟩
    rw [List.length_append, hc]
    rfl

/-- A thousand connections are accepted and obtained, then another one is accepted. -/
theorem exists_not_boundedFifo : ∃ st log, PendingRun st log ∧ ¬ BoundedFifo st log := by
  obtain ⟨st, log, hrun, ha, hc⟩ := exists_alternating maxConnections le_rfl
  obtain ⟨st', hrun'⟩ := hrun.exists_accept connection (hrun.drained (by rw [ha, hc]))
  refine ⟨st', _, hrun', hrun'.not_boundedFifo ?_⟩
  rw [List.length_append, ha]
  exact Nat.lt_succ_self _

end PendingRun

end BlindBox

end Embark
