/-
The assertions on the IPv4 path of the gateway. `encrypt_v4` and `simple_action` announce a header
of `ip_hl` words to `set_network_header`, which asserts that it ends within the buffer, and build
flow identifiers, whose constructor asserts a first fragment; nothing on the path checks either.
Both elements rewrite addresses and ports only, so what holds of the packet that came holds of the
rewritten one.
-/
import Embark.Gateway.Frame

namespace Embark

section Restore

variable {w : Nat} {f : AddressFamily w} {table : FlowTable w} {p : Packet}

/-- `simple_action` completes when the flow identifier of the packet as it came can be built. -/
theorem restore_isSome (hf : f.HeaderOnly) : (restore f table p).isSome =
    (f.flowId (p.setNetworkHeader (f.headerLength p.data)) false).isSome := by
  rw [← hf.isSome p (f.headerLength p.data) p.data true fun _ _ => rfl]
  unfold restore
  simp only [Option.bind_eq_bind, Option.pure_def]
  cases hafter : f.flowId (p.setNetworkHeader (f.headerLength p.data)) true with
  | none =>
    simp only [Option.bind_none, Option.isSome_none]
    exact (congrArg Option.isSome hafter).symm
  | some after =>
    simp only [Option.bind_some, Option.isSome_some]
    exact (congrArg Option.isSome hafter).symm

end Restore

/-- `encrypt_v4` with the assertion of `set_network_header`; the buffer reaches `room` bytes from
`data()` on. -/
def MBArkFirewall.encryptV4Checked (fw : MBArkFirewall) (room : Nat) (mbarkt : MBarkTable) (p : Packet) :
    Option (Packet × MBArkFirewall × MBarkTable) :=
  if ipv4.headerLength p.data ≤ room then fw.encryptV4 mbarkt p else none

/-- `simple_action` with the assertion of `set_network_header`. -/
def MBArkFirewallRev.simpleActionChecked (room : Nat) (v4 : Bool) (mbarkt : MBarkTable) (p : Packet) : Option Packet :=
  if (if v4 then ipv4.headerLength p.data else ipv6.headerLength p.data) ≤ room then
    simpleAction v4 mbarkt p else none

theorem MBArkFirewall.encryptV4Checked_isSome_iff (fw : MBArkFirewall) (room : Nat) (mbarkt : MBarkTable) (p : Packet) :
    (fw.encryptV4Checked room mbarkt p).isSome ↔ ipFirstFrag p.data 0 ∧ ipHl p.data 0 * 4 ≤ room := by
  have hencrypt : (fw.encryptV4 mbarkt p).isSome = ipFirstFrag p.data 0 := by
    rw [← ipv4_flowId_isSome p (ipv4.headerLength p.data), ← encrypt_isSome ipv4_headerOnly]
    unfold MBArkFirewall.encryptV4
    simp only [Option.bind_eq_bind, Option.pure_def]
    cases encrypt ipv4 fw.enable fw.stateful fw.treesV4 mbarkt.tableV4 p <;> rfl
  unfold encryptV4Checked
  split_ifs with hroom
  · rw [hencrypt]
    exact ⟨fun h => ⟨h, hroom⟩, And.left⟩
  · exact ⟨fun h => by simp at h, fun h => absurd h.2 hroom⟩

theorem MBArkFirewallRev.simpleActionChecked_isSome_iff (room : Nat) (mbarkt : MBarkTable) (p : Packet) :
    (simpleActionChecked room true mbarkt p).isSome ↔ ipFirstFrag p.data 0 ∧ ipHl p.data 0 * 4 ≤ room := by
  unfold simpleActionChecked simpleAction
  simp only [if_true]
  split_ifs with hroom
  · rw [restore_isSome ipv4_headerOnly, ipv4_flowId_isSome]
    exact ⟨fun h => ⟨h, hroom⟩, And.left⟩
  · exact ⟨fun h => by simp at h, fun h => absurd h.2 hroom⟩

/-- Whatever the rules, the engines and the table, no assertion fails on the way of a packet
through either element exactly when it is a first fragment whose header ends within the buffer. -/
theorem ipv4_path_completes_iff (fw : MBArkFirewall) (mbarkt mbarkt' : MBarkTable) (room : Nat) (p : Packet) :
    (fw.encryptV4Checked room mbarkt p).isSome ∧ (MBArkFirewallRev.simpleActionChecked room true mbarkt' p).isSome ↔
      ipFirstFrag p.data 0 ∧ ipHl p.data 0 * 4 ≤ room := by
  rw [MBArkFirewall.encryptV4Checked_isSome_iff, MBArkFirewallRev.simpleActionChecked_isSome_iff, and_self]

/-- The second fragment of a datagram, of 28 bytes: the fragment offset is eight bytes. -/
def secondFragment : Packet where
  data := fun i => ([0x45, 0, 0, 28, 0, 1, 0, 1, 64, 17, 0, 0, 10, 0, 0, 1, 192, 168, 1, 1,
    0, 0, 0, 0, 0, 0, 0, 0] : List Byte)[i]?.getD 0
  length := 28
  networkHeader := none
  transportHeader := none

/-- Neither element gets it through, however long the buffer is. -/
theorem secondFragment_fails :
    (∀ room, ((oneRule true true).encryptV4Checked room .empty secondFragment).isNone) ∧
      ∀ room, (MBArkFirewallRev.simpleActionChecked room true .empty secondFragment).isNone := by
  have hfrag : ipFirstFrag secondFragment.data 0 = false := by decide
  constructor
  · intro room
    rw [← Option.not_isSome, Bool.not_eq_true', ← Bool.not_eq_true,
      MBArkFirewall.encryptV4Checked_isSome_iff, hfrag]
    simp
  · intro room
    rw [← Option.not_isSome, Bool.not_eq_true', ← Bool.not_eq_true,
      MBArkFirewallRev.simpleActionChecked_isSome_iff, hfrag]
    simp

end Embark
