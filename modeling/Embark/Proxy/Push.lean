/-
`MBArkProxy::push` as a whole: finding the request, rewriting the payload, and the TCP checksum of
the result, with the checksum functions of both address families. A failing assertion and
undefined behaviour are `none`.
-/
import Embark.Net.Checksum
import Embark.Proxy.HttpRequest

namespace Embark

namespace MBArkProxy

/-- The offset of the checksum in a TCP header. -/
def thSum (tcp : Nat) : Nat := tcp + 16

/-- The rewriting of the payload, up to the checksum: where the TCP header is and the memory,
`some none` where nothing is rewritten. -/
def rewrite (enc : List Byte → List Byte) (m : Memory) : Option (Option (Nat × Memory)) :=
  match tcpHeader m with
  | none => none
  | some none => some none
  | some (some (tcp, dataLen)) =>
    if ntohs (m.load 16 (tcp + 2)) = 80 ∧ 0 < dataLen then
      (rewriteRequest enc m (tcp + (m (tcp + 12) >>> 4).toNat * 4) dataLen.toNat).map (·.map fun m => (tcp, m))
    else some none

/-- The update of the checksum: zero first, then the checksum of the segment. For `V4` the
segment is what `transport_length` takes it to be, which without a transport header is undefined;
otherwise the length and the protocol are those of the IPv6 header. -/
def updateChecksum (ipv4 : Bool) (p : Packet) (tcp : Nat) (m : Memory) : Option Memory :=
  let m := m.store (thSum tcp) (0 : BitVec 16)
  if ipv4 then
    p.transportHeader.map fun (th : Nat) =>
      let len := (p.length : Int) - th
      m.store (thSum tcp) (inCksumPseudohdr (inCksum m tcp len) m 0 len)
  else
    let plen := m.load 16 4
    some (m.store (thSum tcp) (htons (in6FastCksum m 8 24 plen (ip6Nxt m 0) (m.load 16 (thSum tcp)) tcp plen)))

/-- `push`: the packet's memory after it. -/
def push (ipv4 : Bool) (enc : List Byte → List Byte) (p : Packet) : Option Memory :=
  match rewrite enc p.data with
  | none => none
  | some none => some p.data
  | some (some (tcp, m)) => updateChecksum ipv4 p tcp m

section Rewrite

variable {enc : List Byte → List Byte} {m m' : Memory} {tcp : Nat}

/-- What a rewriting has done: the TCP header is where `tcpHeader` finds it, and nothing before
the payload has changed. -/
theorem rewrite_some (h : rewrite enc m = some (some (tcp, m'))) :
    ∃ dataLen, tcpHeader m = some (some (tcp, dataLen)) ∧ ∀ i < tcp, m' i = m i := by
  unfold rewrite at h
  split at h
  · cases h
  · cases h
  · rename_i tcp' dataLen hheader
    split at h
    · rw [Option.map_eq_some_iff] at h
      obtain ⟨r, hr, h⟩ := h
      obtain ⟨m₁, rfl, h⟩ := Option.map_eq_some_iff.1 h
      cases h
      refine ⟨dataLen, hheader, fun i hi => ?_⟩
      unfold rewriteRequest at hr
      split at hr
      · cases hr
      · cases hr
      · simp only [Option.map_eq_some_iff, Option.some.injEq, exists_eq_right] at hr
        unfold rewritePayload at hr
        simp only at hr
        split at hr
        · cases hr
          exact Memory.writeBytes_of_disjoint m (.inl (by omega))
        · cases hr
    · cases h

/-- With the checksum zeroed nothing before the TCP header has changed either. -/
theorem rewrite_zeroed (h : rewrite enc m = some (some (tcp, m'))) {i : Nat} (hi : i < tcp) :
    m'.store (thSum tcp) (0 : BitVec 16) i = m i := by
  obtain ⟨-, -, hsame⟩ := rewrite_some h
  rw [Memory.store_of_disjoint _ _ (.inl (by unfold thSum; omega)), hsame i hi]

end Rewrite

end MBArkProxy

end Embark
