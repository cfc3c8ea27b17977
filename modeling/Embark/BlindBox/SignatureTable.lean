/-
`ThreadLocalSignatureTable`: the queue of pending connections and the records of connections, found
in a map whose keys are byte strings. Records go in under the twelve bytes of a `ConnectionID` and
are looked up under as many of them as a pointer is wide.
-/
import Embark.Lib.Bytes

namespace Embark

namespace BlindBox

/-- `ConnectionID`: the addresses and ports in network byte order. -/
structure ConnectionID where
  ip1 : BitVec 32
  ip2 : BitVec 32
  sp1 : BitVec 16
  sp2 : BitVec 16
deriving DecidableEq, Repr

inductive ConnStatus
  | allow
  | deny
  | pending
  | noRecord
deriving DecidableEq, Repr

structure ConnRecord where
  id : ConnectionID
  initialSeqnoIp1 : BitVec 32
  initialSeqnoIp2 : BitVec 32
  status : ConnStatus
deriving DecidableEq, Repr

/-- `sizeof(void*)`. -/
def pointerSize : Nat := 8

def maxConnections : Nat := 1000

/-- The bytes of a `ConnectionID` in memory. -/
def ConnectionID.bytes (id : ConnectionID) : List Byte :=
  toLE 4 id.ip1.toNat ++ toLE 4 id.ip2.toNat ++ toLE 2 id.sp1.toNat ++ toLE 2 id.sp2.toNat

/-- `active_connections` as an exact map from byte strings to records, which are numbered in the
order of their allocation. -/
structure SignatureTable where
  pendingConnectionsQueue : Nat → ConnectionID
  pendingHead : BitVec 32
  pendingTail : BitVec 32
  activeConnections : List Byte → Option Nat
  records : List ConnRecord

namespace SignatureTable

/-- The constructor. -/
def init : SignatureTable := ⟨fun _ => ⟨0, 0, 0, 0⟩, 0, 0, fun _ => none, []⟩

/-- `if_not_contains_then_insert` of the map. -/
def insertNew (active : List Byte → Option Nat) (label : List Byte) (record : Nat) :
    List Byte → Option Nat := fun key =>
  if key = label ∧ active key = none then some record else active key

/-- The record of a new connection. With a source address that is neither of the two the program
exits: `none`. -/
def newRecord (id : ConnectionID) (srcIp initSeqno : BitVec 32) : Option ConnRecord :=
  if srcIp = id.ip1 then some ⟨⟨0, 0, 0, 0⟩, initSeqno, 0, .pending⟩
  else if srcIp = id.ip2 then some ⟨⟨0, 0, 0, 0⟩, 0, initSeqno, .pending⟩
  else none

/-- `addToPendingConnections`. -/
def addToPendingConnections (st : SignatureTable) (id : ConnectionID) (srcIp initSeqno : BitVec 32) :
    Option (Bool × SignatureTable) :=
  if maxConnections ≤ (st.pendingTail - st.pendingHead).toNat then some (false, st)
  else
    match newRecord id srcIp initSeqno with
    | none => none
    | some record => some (true, {
        pendingConnectionsQueue := fun k => if k = st.pendingTail.toNat then id else st.pendingConnectionsQueue k
        pendingHead := st.pendingHead
        pendingTail := st.pendingTail + 1
        activeConnections := insertNew st.activeConnections id.bytes st.records.length
        records := st.records ++ [record] })

/-- `getConnRecord`, with `sizeof(id)` the size of a pointer. -/
def getConnRecord (st : SignatureTable) (id : ConnectionID) : Option Nat :=
  st.activeConnections (id.bytes.take pointerSize)

/-! ## Keys -/

theorem length_bytes (id : ConnectionID) : id.bytes.length = 12 := by simp [ConnectionID.bytes]

/-- Every key is as long as a `ConnectionID`. -/
def LongKeys (st : SignatureTable) : Prop := ∀ key, st.activeConnections key ≠ none → key.length = 12

theorem init_longKeys : init.LongKeys := fun _ h => absurd rfl h

/-- No lookup finds a record. -/
theorem LongKeys.getConnRecord {st : SignatureTable} (h : st.LongKeys) (id : ConnectionID) :
    st.getConnRecord id = none := by
  by_contra hfound
  have hlen := h _ hfound
  rw [List.length_take, length_bytes] at hlen
  exact absurd hlen (by decide)

theorem exists_newRecord {id : ConnectionID} {srcIp : BitVec 32} (hsrc : srcIp = id.ip1 ∨ srcIp = id.ip2)
    (initSeqno : BitVec 32) : ∃ record, newRecord id srcIp initSeqno = some record := by
  unfold newRecord
  by_cases h1 : srcIp = id.ip1
  · exact ⟨_, if_pos h1⟩
  · rw [if_neg h1]
    exact ⟨_, if_pos (hsrc.resolve_left h1)⟩

/-- What `addToPendingConnections` does where the source address is one of the two. -/
theorem addToPendingConnections_cases (st : SignatureTable) {id : ConnectionID} {srcIp : BitVec 32}
    (hsrc : srcIp = id.ip1 ∨ srcIp = id.ip2) (initSeqno : BitVec 32) :
    (maxConnections ≤ (st.pendingTail - st.pendingHead).toNat ∧
      st.addToPendingConnections id srcIp initSeqno = some (false, st)) ∨
    ((st.pendingTail - st.pendingHead).toNat < maxConnections ∧
      ∃ st', st.addToPendingConnections id srcIp initSeqno = some (true, st') ∧
        st'.pendingHead = st.pendingHead ∧ st'.pendingTail = st.pendingTail + 1 ∧
        st'.activeConnections = insertNew st.activeConnections id.bytes st.records.length) := by
  unfold addToPendingConnections
  by_cases hfull : maxConnections ≤ (st.pendingTail - st.pendingHead).toNat
  · exact .inl ⟨hfull, if_pos hfull⟩
  · obtain ⟨record, hrecord⟩ := exists_newRecord hsrc initSeqno
    rw [if_neg hfull, hrecord]
    exact .inr ⟨Nat.lt_of_not_le hfull, _, rfl, rfl, rfl, rfl⟩

theorem LongKeys.insertNew {st st' : SignatureTable} {id : ConnectionID} {n : Nat} (h : st.LongKeys)
    (hactive : st'.activeConnections = SignatureTable.insertNew st.activeConnections id.bytes n) : st'.LongKeys := by
  intro key hkey
  rw [hactive] at hkey
  unfold SignatureTable.insertNew at hkey
  by_cases hnew : key = id.bytes ∧ st.activeConnections key = none
  · rw [hnew.1, length_bytes]
  · rw [if_neg hnew] at hkey
    exact h key hkey

end SignatureTable

end BlindBox

end Embark
