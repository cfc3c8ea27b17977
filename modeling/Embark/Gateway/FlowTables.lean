/-
The flow table of the gateway as Click keeps it: `_table` and `_table_v4` are `HashTable`s, swapped by
`take_state`. Packets in both directions leave the gateway as they do over maps from flows to flows.
The hash code of a flow is a parameter: for some ports the source shifts by the width of the type.
-/
import Embark.Click.HashTable
import Embark.Gateway.HotSwap

namespace Embark

/-- How the flows of one address family are hashed. -/
abbrev FlowHash (w : Nat) := FlowID w → BitVec 64

/-- `HashTable<IPFlowID, IPFlowID>` and its IPv6 sibling. -/
abbrev HashedFlows (w : Nat) := HashTable (FlowID w) (FlowID w)

namespace HashedFlows

variable {w : Nat} (hash : FlowHash w)

/-- `lookup`. -/
def lookup (table : HashedFlows w) (after : FlowID w) : FlowID w := (table.find hash after).getD FlowID.zero

/-- `insert`. -/
def insert (table : HashedFlows w) (before after : FlowID w) : HashedFlows w := table.indexAssign hash before after

variable {hash} {table : HashedFlows w} {flows : FlowTable w}

theorem lookup_eq (hr : table.Represents hash flows) (after : FlowID w) :
    table.lookup hash after = flows.lookup after := by
  rw [lookup, hr.find, FlowTable.lookup]

theorem insert_represents (hr : table.Represents hash flows) (before after : FlowID w) :
    (table.insert hash before after).Represents hash (flows.insert before after) := by
  have hinsert : flows.insert before after = Function.update flows before (some after) := by
    funext k
    rw [FlowTable.insert, Function.update_apply]
  rw [hinsert]
  exact (hr.indexAssign before after).1

end HashedFlows

/-! ## Packets -/

section Packets

variable {w : Nat} (hash : FlowHash w) (f : AddressFamily w)

/-- `encrypt_v4` and `encrypt_v6`, with the table of the source. -/
def encryptHashed (enable stateful : Bool) (t : FlowTrees w) (table : HashedFlows w) (p : Packet) :
    Option (Packet × FlowTrees w × HashedFlows w) := do
  let q := p.setNetworkHeader (f.headerLength p.data)
  let before ← f.flowId q false
  let cipher := encryptFields f t q.data
  let q := if enable then { q with data := f.writeFields q.data cipher.1 } else q
  if stateful then
    let after ← f.flowId q false
    return (q, cipher.2, table.insert hash before after)
  else return (q, cipher.2, table)

/-- `simple_action` of `MBArkFirewallRev`, with the table of the source. -/
def restoreHashed (table : HashedFlows w) (p : Packet) : Option Packet := do
  let q := p.setNetworkHeader (f.headerLength p.data)
  let after ← f.flowId q true
  let before := table.lookup hash after
  return { q with data := f.writeFields q.data before.reverse }

variable {hash f} {table : HashedFlows w} {flows : FlowTable w}

/-- Encrypting over the hash table and over the map gives one packet, and tables that still agree. -/
theorem encryptHashed_rel (hr : table.Represents hash flows) (enable stateful : Bool) (t : FlowTrees w) (p : Packet) :
    Option.Rel (fun x y => x.1 = y.1 ∧ x.2.1 = y.2.1 ∧ x.2.2.Represents hash y.2.2)
      (encryptHashed hash f enable stateful t table p) (encrypt f enable stateful t flows p) := by
  unfold encryptHashed encrypt
  generalize p.setNetworkHeader (f.headerLength p.data) = q
  simp only [Option.bind_eq_bind]
  cases f.flowId q false with
  | none => exact .none
  | some before =>
    rw [Option.bind_some, Option.bind_some]
    cases stateful with
    | false => exact .some ⟨rfl, rfl, hr⟩
    | true =>
      simp only [if_true]
      generalize (if enable then { q with data := f.writeFields q.data (encryptFields f t q.data).1 } else q) = q'
      cases f.flowId q' false with
      | none => exact .none
      | some after => exact .some ⟨rfl, rfl, HashedFlows.insert_represents hr before after⟩

theorem restoreHashed_eq (hr : table.Represents hash flows) (p : Packet) :
    restoreHashed hash f table p = restore f flows p := by
  unfold restoreHashed restore
  simp only [HashedFlows.lookup_eq hr]

end Packets

/-! ## The elements -/

/-- `MBarkTable`, with the tables of the source. -/
structure HashedMBarkTable where
  table : HashedFlows 128
  tableV4 : HashedFlows 32

/-- The hash codes of both kinds of flows. -/
structure FlowHashes where
  v6 : FlowHash 128
  v4 : FlowHash 32

namespace HashedMBarkTable

/-- `MBarkTable()`. -/
def empty : HashedMBarkTable := ⟨.ofDefault FlowID.zero, .ofDefault FlowID.zero⟩

/-- `take_state`. -/
def takeState (t : HashedMBarkTable) : Option HashedMBarkTable → HashedMBarkTable × Option HashedMBarkTable
  | none => (t, none)
  | some mbarkt => ({ t with table := mbarkt.table }, some { mbarkt with table := t.table })

/-- Both tables hold the maps of the flow table. -/
structure Represents (hash : FlowHashes) (t : HashedMBarkTable) (m : MBarkTable) : Prop where
  table : t.table.Represents hash.v6 m.table
  tableV4 : t.tableV4.Represents hash.v4 m.tableV4

theorem represents_empty (hash : FlowHashes) : empty.Represents hash MBarkTable.empty :=
  ⟨HashTable.represents_ofDefault _, HashTable.represents_ofDefault _⟩

end HashedMBarkTable

/-- `push` of `MBArkFirewall`. -/
def MBArkFirewall.pushHashed (hash : FlowHashes) (fw : MBArkFirewall) (mbarkt : HashedMBarkTable) (p : Packet) :
    Option (Packet × MBArkFirewall × HashedMBarkTable) :=
  if fw.v4 then do
    let (q, t, tableV4) ← encryptHashed hash.v4 ipv4 fw.enable fw.stateful fw.treesV4 mbarkt.tableV4 p
    return (q, fw.setTreesV4 t, { mbarkt with tableV4 })
  else do
    let (q, t, table) ← encryptHashed hash.v6 ipv6 fw.enable fw.stateful fw.treesV6 mbarkt.table p
    return (q, fw.setTreesV6 t, { mbarkt with table })

/-- `simple_action` of `MBArkFirewallRev`. -/
def MBArkFirewallRev.simpleActionHashed (hash : FlowHashes) (v4 : Bool) (mbarkt : HashedMBarkTable) (p : Packet) :
    Option Packet :=
  if v4 then restoreHashed hash.v4 ipv4 mbarkt.tableV4 p else restoreHashed hash.v6 ipv6 mbarkt.table p

theorem MBArkFirewall.pushHashed_rel {hash : FlowHashes} {t : HashedMBarkTable} {m : MBarkTable}
    (hr : t.Represents hash m) (fw : MBArkFirewall) (p : Packet) :
    Option.Rel (fun x y => x.1 = y.1 ∧ x.2.1 = y.2.1 ∧ x.2.2.Represents hash y.2.2) (fw.pushHashed hash t p)
      (fw.push m p) := by
  unfold MBArkFirewall.pushHashed MBArkFirewall.push
  by_cases hv : fw.v4 = true
  · rw [if_pos hv, if_pos hv, MBArkFirewall.encryptV4]
    have hrel := encryptHashed_rel (f := ipv4) hr.tableV4 fw.enable fw.stateful fw.treesV4 p
    revert hrel
    generalize encryptHashed hash.v4 ipv4 fw.enable fw.stateful fw.treesV4 t.tableV4 p = x
    generalize encrypt ipv4 fw.enable fw.stateful fw.treesV4 m.tableV4 p = y
    rintro (@⟨⟨q, t1, h1⟩, ⟨q', t1', m1⟩, rfl, rfl, hr1⟩ | _)
    · exact .some ⟨rfl, rfl, hr.table, hr1⟩
    · exact .none
  · rw [if_neg hv, if_neg hv, MBArkFirewall.encryptV6]
    have hrel := encryptHashed_rel (f := ipv6) hr.table fw.enable fw.stateful fw.treesV6 p
    revert hrel
    generalize encryptHashed hash.v6 ipv6 fw.enable fw.stateful fw.treesV6 t.table p = x
    generalize encrypt ipv6 fw.enable fw.stateful fw.treesV6 m.table p = y
    rintro (@⟨⟨q, t1, h1⟩, ⟨q', t1', m1⟩, rfl, rfl, hr1⟩ | _)
    · exact .some ⟨rfl, rfl, hr1, hr.tableV4⟩
    · exact .none

theorem MBArkFirewallRev.simpleActionHashed_eq {hash : FlowHashes} {t : HashedMBarkTable} {m : MBarkTable}
    (hr : t.Represents hash m) (v4 : Bool) (p : Packet) :
    MBArkFirewallRev.simpleActionHashed hash v4 t p = MBArkFirewallRev.simpleAction v4 m p := by
  unfold MBArkFirewallRev.simpleActionHashed MBArkFirewallRev.simpleAction
  rw [restoreHashed_eq hr.tableV4, restoreHashed_eq hr.table]

/-! ## Runs of the gateway -/

/-- What reaches the gateway. -/
inductive GatewayEvent
  | outgoing (p : Packet)
  | returning (p : Packet)
  /-- New elements, whose `MBarkTable` takes the state of the old one. -/
  | reconfigure (fw : MBArkFirewall) (v4 : Bool)

namespace Gateway

/-- The packets that leave the gateway, over maps; a failing assertion ends the run. -/
def run : Bool → MBArkFirewall → MBarkTable → List GatewayEvent → Option (List Packet)
  | _, _, _, [] => some []
  | v4, fw, m, .outgoing p :: es => do
    let (q, fw, m) ← fw.push m p
    let qs ← run v4 fw m es
    return q :: qs
  | v4, fw, m, .returning p :: es => do
    let q ← MBArkFirewallRev.simpleAction v4 m p
    let qs ← run v4 fw m es
    return q :: qs
  | _, _, m, .reconfigure fw v4 :: es => run v4 fw m.swapped es

/-- The packets that leave the gateway, over the tables of the source. -/
def runHashed (hash : FlowHashes) : Bool → MBArkFirewall → HashedMBarkTable → List GatewayEvent →
    Option (List Packet)
  | _, _, _, [] => some []
  | v4, fw, t, .outgoing p :: es => do
    let (q, fw, t) ← fw.pushHashed hash t p
    let qs ← runHashed hash v4 fw t es
    return q :: qs
  | v4, fw, t, .returning p :: es => do
    let q ← MBArkFirewallRev.simpleActionHashed hash v4 t p
    let qs ← runHashed hash v4 fw t es
    return q :: qs
  | _, _, t, .reconfigure fw v4 :: es => runHashed hash v4 fw (HashedMBarkTable.empty.takeState (some t)).1 es

theorem runHashed_eq {hash : FlowHashes} : ∀ {es : List GatewayEvent} {v4 : Bool} {fw : MBArkFirewall}
    {t : HashedMBarkTable} {m : MBarkTable}, t.Represents hash m → runHashed hash v4 fw t es = run v4 fw m es
  | [], _, _, _, _, _ => rfl
  | .outgoing p :: es, v4, fw, t, m, hr => by
    have hrel := MBArkFirewall.pushHashed_rel hr fw p
    rw [runHashed, run]
    revert hrel
    generalize fw.pushHashed hash t p = x
    generalize fw.push m p = y
    rintro (@⟨⟨q, fw1, t1⟩, ⟨q', fw1', m1⟩, rfl, rfl, hr1⟩ | _)
    · simp only [Option.bind_eq_bind, Option.bind_some, runHashed_eq hr1]
    · rfl
  | .returning p :: es, v4, fw, t, m, hr => by
    rw [runHashed, run, MBArkFirewallRev.simpleActionHashed_eq hr]
    simp only [runHashed_eq hr]
  | .reconfigure fw v4 :: es, _, _, t, m, hr => by
    rw [runHashed, run]
    exact runHashed_eq ⟨hr.table, (HashedMBarkTable.represents_empty hash).tableV4⟩

/-- Whatever the hash codes are, the gateway over Click's hash tables and the gateway over maps send the
same packets, through outgoing and returning packets and reconfigurations in any order. -/
theorem runHashed_empty (hash : FlowHashes) (v4 : Bool) (fw : MBArkFirewall) (es : List GatewayEvent) :
    runHashed hash v4 fw .empty es = run v4 fw .empty es :=
  runHashed_eq (HashedMBarkTable.represents_empty hash)

end Gateway

end Embark
