/-
The four encrypted fields of a packet, each with its search tree: what `encrypt` writes into a
field is the ciphertext of its plaintext value, narrowed to the width of the field. The engines of
a firewall are the only state that its encryption changes; each call draws once from every engine
it uses.
-/
import Embark.Gateway.Firewall
import Embark.Ope.Gaps

namespace Embark

open OPETree

open ScapegoatTree (Built)

inductive Field
  | srcAddr
  | dstAddr
  | srcPort
  | dstPort
deriving DecidableEq, Repr

namespace Field

/-- The bits of the field in a family with addresses of `w` bits. -/
def width (w : Nat) : Field → Nat
  | srcAddr => w
  | dstAddr => w
  | srcPort => 16
  | dstPort => 16

def IsAddr (F : Field) : Prop := F = srcAddr ∨ F = dstAddr

instance (F : Field) : Decidable F.IsAddr := inferInstanceAs (Decidable (_ ∨ _))

end Field

/-! ## Values and trees by field -/

/-- The value of a field of a flow, in host byte order. -/
def AddressFamily.host {w : Nat} (f : AddressFamily w) (a : FlowID w) : (F : Field) → BitVec (F.width w)
  | .srcAddr => f.ntoh a.saddr
  | .dstAddr => f.ntoh a.daddr
  | .srcPort => ntohs a.sport
  | .dstPort => ntohs a.dport

namespace FlowTrees

variable {w : Nat}

/-- The tree of a field. -/
def tree (t : FlowTrees w) : (F : Field) → OPETree (BitVec (F.width w))
  | .srcAddr => t.srcAddr
  | .dstAddr => t.dstAddr
  | .srcPort => t.srcPort
  | .dstPort => t.dstPort

/-- The stored boundaries of a field. -/
def keys (t : FlowTrees w) (F : Field) : List (BitVec (F.width w)) := (t.tree F).r.keys

/-- The trees with the engines `e`. -/
def withEngines (t : FlowTrees w) (e : Field → Engine) : FlowTrees w :=
  ⟨⟨t.srcAddr.toScapegoatTree, e .srcAddr⟩, ⟨t.dstAddr.toScapegoatTree, e .dstAddr⟩,
    ⟨t.srcPort.toScapegoatTree, e .srcPort⟩, ⟨t.dstPort.toScapegoatTree, e .dstPort⟩⟩

def engines (t : FlowTrees w) (F : Field) : Engine := (t.tree F).prng

/-- The trees are the result of adding lists of boundaries. -/
structure Loaded (t : FlowTrees w) : Prop where
  built : ∀ F, ∃ xs, Built xs (t.tree F).toScapegoatTree

theorem Loaded.wf {t : FlowTrees w} (h : t.Loaded) (F : Field) : (t.tree F).toScapegoatTree.WF :=
  have ⟨_, hb⟩ := h.built F
  ScapegoatTree.built_wf hb

@[simp] theorem tree_withEngines (t : FlowTrees w) (e : Field → Engine) (F : Field) :
    (t.withEngines e).tree F = ⟨(t.tree F).toScapegoatTree, e F⟩ := by cases F <;> rfl

/-- The trees after one draw from each engine. -/
def advance (t : FlowTrees w) : FlowTrees w := t.withEngines fun F => (t.engines F).tail.tail

end FlowTrees

/-- The width of the gap of `v`: the modulus that `random_bound` reduces its draw by. -/
def OPETree.gapWidth {α : Type} [LinearOrder α] (t : ScapegoatTree α) (v : α) : ℕ :=
  (ciphertextRange t v).2.toNat - (ciphertextRange t v).1.toNat

/-! ## What `encrypt` writes -/

section Encrypt

variable {w : Nat} (f : AddressFamily w)

@[simp] theorem encryptFields_trees (t : FlowTrees w) (m : Memory) : (encryptFields f t m).2 = t.advance := rfl

/-- An encrypted field, in host byte order, is the narrowed ciphertext of the plaintext. -/
theorem host_encryptFields (t : FlowTrees w) (m : Memory) (F : Field) :
    f.host (encryptFields f t m).1 F =
      ((t.tree F).generateCiphertext (f.host (f.flow m) F)).1.setWidth (F.width w) := by
  cases F with
  | srcAddr => exact f.ntoh_hton _
  | dstAddr => exact f.ntoh_hton _
  | srcPort => exact ntohs_htons _
  | dstPort => exact ntohs_htons _

/-- A ciphertext narrowed to `k` bits: the remainder of the draw over the lower bound of the gap. -/
theorem toNat_setWidth_generate {k : Nat} (t : OPETree (BitVec k)) (h : t.toScapegoatTree.WF) (v : BitVec k) :
    ((t.generateCiphertext v).1.setWidth k).toNat =
      ((random128 t.prng).1.toNat % gapWidth t.toScapegoatTree v + (scale t.toScapegoatTree h).lo v) % 2 ^ k := by
  unfold gapWidth
  rw [BitVec.toNat_setWidth, toNat_generate t h, toNat_range_fst h, toNat_range_snd h]

/-- A field of at most 74 bits keeps the remainder of the draw alone: the lower bound of the gap
is a multiple of `2 ^ 74`. -/
theorem toNat_narrow {k : Nat} (hk : k ≤ 74) (t : OPETree (BitVec k)) (h : t.toScapegoatTree.WF) (v : BitVec k) :
    ((t.generateCiphertext v).1.setWidth k).toNat =
      (random128 t.prng).1.toNat % gapWidth t.toScapegoatTree v % 2 ^ k := by
  obtain ⟨j, hj⟩ : 2 ^ k ∣ (scale t.toScapegoatTree h).lo v := Dvd.dvd.trans (Nat.pow_dvd_pow 2 hk) (dvd_lo h v)
  rw [toNat_setWidth_generate t h, hj, Nat.add_mul_mod_self_left]

end Encrypt

/-! ## Firewalls with the same rules -/

namespace MBArkFirewall

/-- Both families' trees are the result of adding lists of boundaries. -/
structure Loaded (fw : MBArkFirewall) : Prop where
  v4 : fw.treesV4.Loaded
  v6 : fw.treesV6.Loaded

/-- `fw'` holds the rules and the configuration of `fw`; its engines may stand anywhere. -/
structure SameRules (fw fw' : MBArkFirewall) : Prop where
  treesV4 : fw'.treesV4 = fw.treesV4.withEngines fw'.treesV4.engines
  treesV6 : fw'.treesV6 = fw.treesV6.withEngines fw'.treesV6.engines
  v4 : fw'.v4 = fw.v4
  enable : fw'.enable = fw.enable
  stateful : fw'.stateful = fw.stateful

@[simp] theorem treesV4_setTreesV4 (fw : MBArkFirewall) (t : FlowTrees 32) : (fw.setTreesV4 t).treesV4 = t := rfl

@[simp] theorem treesV6_setTreesV6 (fw : MBArkFirewall) (t : FlowTrees 128) : (fw.setTreesV6 t).treesV6 = t := rfl

theorem SameRules.refl (fw : MBArkFirewall) : SameRules fw fw := ⟨rfl, rfl, rfl, rfl, rfl⟩

theorem sameRules_setTreesV4 (fw : MBArkFirewall) (e : Field → Engine) :
    SameRules fw (fw.setTreesV4 (fw.treesV4.withEngines e)) := ⟨rfl, rfl, rfl, rfl, rfl⟩

theorem sameRules_setTreesV6 (fw : MBArkFirewall) (e : Field → Engine) :
    SameRules fw (fw.setTreesV6 (fw.treesV6.withEngines e)) := ⟨rfl, rfl, rfl, rfl, rfl⟩

theorem SameRules.trans {fw fw' fw'' : MBArkFirewall} (h : SameRules fw fw') (h' : SameRules fw' fw'') :
    SameRules fw fw'' where
  treesV4 := by rw [h'.treesV4, h.treesV4]; rfl
  treesV6 := by rw [h'.treesV6, h.treesV6]; rfl
  v4 := h'.v4.trans h.v4
  enable := h'.enable.trans h.enable
  stateful := h'.stateful.trans h.stateful

theorem sameRules_advanceV4 (fw : MBArkFirewall) : SameRules fw (fw.setTreesV4 fw.treesV4.advance) :=
  sameRules_setTreesV4 fw _

theorem SameRules.loaded {fw fw' : MBArkFirewall} (h : SameRules fw fw') (hl : fw.Loaded) : fw'.Loaded where
  v4 := ⟨fun F => by rw [h.treesV4, FlowTrees.tree_withEngines]; exact hl.v4.built F⟩
  v6 := ⟨fun F => by rw [h.treesV6, FlowTrees.tree_withEngines]; exact hl.v6.built F⟩

end MBArkFirewall

/-! ## A gateway with one rule -/

/-- The first words of `std::mt19937_64` from its default seed 5489. -/
def engine5489 : Engine := fun n =>
  [14514284786278117030, 4620546740167642908, 13109570281517897720, 17462938647148434322].getD n 0

/-- The firewall after loading `@10.0.0.0/8`, `192.168.1.0/24`, `0 : 65535`, `80 : 80`, `0x06/0xff`. -/
def oneRule (v4 enable : Bool) : MBArkFirewall where
  srcAddrTree := ⟨⟨.node .nil 0x0a000000 (.node .nil 0x0affffff .nil), 2, 2⟩, engine5489⟩
  dstAddrTree := ⟨⟨.node .nil 0xc0a80100 (.node .nil 0xc0a801ff .nil), 2, 2⟩, engine5489⟩
  srcAddrTreeV4 := ⟨⟨.node .nil 0x0a000000 (.node .nil 0x0affffff .nil), 2, 2⟩, engine5489⟩
  dstAddrTreeV4 := ⟨⟨.node .nil 0xc0a80100 (.node .nil 0xc0a801ff .nil), 2, 2⟩, engine5489⟩
  srcPortTree := ⟨⟨.node .nil 0 (.node .nil 65535 .nil), 2, 2⟩, engine5489⟩
  dstPortTree := ⟨⟨.node .nil 80 .nil, 1, 1⟩, engine5489⟩
  protoTree := ⟨⟨.node .nil 6 .nil, 1, 1⟩, engine5489⟩
  v4 := v4
  enable := enable
  stateful := true

theorem oneRule_loaded (v4 enable : Bool) : (oneRule v4 enable).Loaded where
  v4 := ⟨fun
    | .srcAddr => ⟨[0x0a000000, 0x0affffff], by decide +revert⟩
    | .dstAddr => ⟨[0xc0a80100, 0xc0a801ff], by decide +revert⟩
    | .srcPort => ⟨[0, 65535], by decide +revert⟩
    | .dstPort => ⟨[80, 80], by decide +revert⟩⟩
  v6 := ⟨fun
    | .srcAddr => ⟨[0x0a000000, 0x0affffff], by decide +revert⟩
    | .dstAddr => ⟨[0xc0a80100, 0xc0a801ff], by decide +revert⟩
    | .srcPort => ⟨[0, 65535], by decide +revert⟩
    | .dstPort => ⟨[80, 80], by decide +revert⟩⟩

/-- A TCP packet of the flow `a` over IPv4. -/
def tcpV4 (a : IPFlowID) : Packet where
  data := ipv4.writeFields (fun i => if i = 0 then 0x45 else if i = 9 then 6 else 0) a
  length := 40
  networkHeader := none
  transportHeader := none

theorem tcpV4_plain (a : IPFlowID) : PlainV4 (tcpV4 a) := by
  have hlow : ∀ i < 12, (tcpV4 a).data i = if i = 0 then 0x45 else if i = 9 then 6 else 0 := fun i hi =>
    ipv4.writeFields_of_lt _ _ hi
  refine ⟨?_, ?_, .inl ?_, ?_, show 24 ≤ 40 by decide⟩
  · unfold ipV; rw [hlow 0 (by decide)]; rfl
  · unfold ipHl; rw [hlow 0 (by decide)]; rfl
  · unfold ipP; rw [hlow 9 (by decide)]; rfl
  · unfold ipFirstFrag ipOff Memory.load
    rw [Memory.loadLE_congr fun i _ h2 => hlow i (by omega)]
    rfl

@[simp] theorem flow_tcpV4 (a : IPFlowID) : ipv4.flow (tcpV4 a).data = a := ipv4.flow_writeFields _ _

end Embark
