/-
Order on the wire: whether the field written into one packet is smaller than the field written
into another whenever a stored boundary separates their plaintext values. A 128-bit address field
holds the whole ciphertext and keeps its order; narrower fields keep the low bits of the ciphertext
only, which are those of the random draw.
-/
import Embark.Gateway.Fields

namespace Embark

open OPETree

open ScapegoatTree (Built)

section Order

variable {w : Nat} (f : AddressFamily w)

/-- A boundary of `keys` lies above the value of the field in `p₁`, up to its value in `p₂`. -/
def Separated (keys : (F : Field) → List (BitVec (F.width w))) (p₁ p₂ : Packet) (F : Field) : Prop :=
  ∃ x ∈ keys F, f.host (f.flow p₁.data) F < x ∧ x ≤ f.host (f.flow p₂.data) F

/-- Both calls push a packet, and where a boundary separates the two plaintext values the written
values are in order, read in host byte order. -/
def OrderOnWire (keys : (F : Field) → List (BitVec (F.width w))) (p₁ p₂ : Packet)
    (out₁ out₂ : Option (Packet × MBArkFirewall × MBarkTable)) (F : Field) : Prop :=
  ∃ q₁ q₂ s₁ s₂, out₁ = some (q₁, s₁) ∧ out₂ = some (q₂, s₂) ∧
    ∀ x ∈ keys F, f.host (f.flow p₁.data) F < x → x ≤ f.host (f.flow p₂.data) F →
      f.host (f.flow q₁.data) F < f.host (f.flow q₂.data) F

/-- What the next draw of the field's engine leaves modulo the width of the gap of the plaintext,
in the low bits that fit the field. -/
def lowBits (t : FlowTrees w) (p : Packet) (F : Field) : ℕ :=
  (random128 (t.engines F)).1.toNat % gapWidth (t.tree F).toScapegoatTree (f.host (f.flow p.data) F) %
    2 ^ F.width w

variable {f} {t : FlowTrees w} {p₁ p₂ : Packet} {F : Field}

/-- A field as wide as the ciphertext keeps the order. -/
theorem host_lt_of_separated (ht : t.Loaded) (e₁ e₂ : Field → Engine) (hw : F.width w = 128)
    (hs : Separated f t.keys p₁ p₂ F) :
    f.host (encryptFields f (t.withEngines e₁) p₁.data).1 F <
      f.host (encryptFields f (t.withEngines e₂) p₂.data).1 F := by
  obtain ⟨x, hx, h1, h2⟩ := hs
  have hlt := generate_lt ⟨(t.tree F).toScapegoatTree, e₁ F⟩ ⟨(t.tree F).toScapegoatTree, e₂ F⟩ rfl
    (ht.wf F) hx h1 h2
  have hpow : 2 ^ F.width w = 2 ^ 128 := by rw [hw]
  rw [host_encryptFields, host_encryptFields, FlowTrees.tree_withEngines, FlowTrees.tree_withEngines,
    BitVec.lt_def, BitVec.toNat_setWidth, BitVec.toNat_setWidth, hpow, Nat.mod_eq_of_lt (BitVec.isLt _),
    Nat.mod_eq_of_lt (BitVec.isLt _)]
  exact hlt

/-- A narrow field is in order exactly when the low bits of the two draws are. -/
theorem host_lt_iff (ht : t.Loaded) (e₁ e₂ : Field → Engine) (hw : F.width w ≤ 74) :
    f.host (encryptFields f (t.withEngines e₁) p₁.data).1 F <
      f.host (encryptFields f (t.withEngines e₂) p₂.data).1 F ↔
      lowBits f (t.withEngines e₁) p₁ F < lowBits f (t.withEngines e₂) p₂ F := by
  have hnarrow : ∀ (e : Field → Engine) (p : Packet),
      (f.host (encryptFields f (t.withEngines e) p.data).1 F).toNat = lowBits f (t.withEngines e) p F := by
    intro e p
    rw [host_encryptFields, FlowTrees.tree_withEngines]
    unfold lowBits FlowTrees.engines
    rw [FlowTrees.tree_withEngines]
    exact toNat_narrow hw ⟨(t.tree F).toScapegoatTree, e F⟩ (ht.wf F) _
  rw [BitVec.lt_def, hnarrow, hnarrow]

/-- The order on the wire for one outcome of the engines. -/
theorem order_iff (p₁ p₂ : Packet) (ht : t.Loaded) (e₁ e₂ : Field → Engine)
    (hw : F.width w = 128 ∨ F.width w ≤ 74) :
    (Separated f t.keys p₁ p₂ F →
      f.host (encryptFields f (t.withEngines e₁) p₁.data).1 F <
        f.host (encryptFields f (t.withEngines e₂) p₂.data).1 F) ↔
      F.width w = 128 ∨ ¬ Separated f t.keys p₁ p₂ F ∨
        lowBits f (t.withEngines e₁) p₁ F < lowBits f (t.withEngines e₂) p₂ F := by
  by_cases hs : Separated f t.keys p₁ p₂ F
  · rw [forall_prop_of_true hs, or_iff_right (not_not.2 hs)]
    rcases hw with hw | hw
    · exact iff_of_true (host_lt_of_separated ht e₁ e₂ hw hs) (.inl hw)
    · rw [host_lt_iff ht e₁ e₂ hw, or_iff_right (by omega)]
  · exact iff_of_true (fun h => absurd h hs) (.inr (.inl hs))

/-- The order of two pushed packets, as an implication. -/
theorem orderOnWire_iff {out₁ out₂ : Option (Packet × MBArkFirewall × MBarkTable)} {q₁ q₂ : Packet}
    {s₁ s₂ : MBArkFirewall × MBarkTable} (hq₁ : out₁ = some (q₁, s₁))
    (hq₂ : out₂ = some (q₂, s₂)) :
    OrderOnWire f t.keys p₁ p₂ out₁ out₂ F ↔
      (Separated f t.keys p₁ p₂ F → f.host (f.flow q₁.data) F < f.host (f.flow q₂.data) F) := by
  subst hq₁ hq₂
  unfold OrderOnWire Separated
  constructor
  · rintro ⟨_, _, _, _, ⟨⟩, ⟨⟩, h⟩ ⟨x, hx, h1, h2⟩
    exact h x hx h1 h2
  · intro h
    exact ⟨q₁, q₂, s₁, s₂, rfl, rfl, fun x hx h1 h2 => h ⟨x, hx, h1, h2⟩⟩

/-- Draws of zeros leave every narrow field zero. -/
theorem lowBits_zero (p : Packet) : lowBits f (t.withEngines fun _ => Stream'.const 0) p F = 0 := by
  have h0 : (random128 (Stream'.const 0)).1.toNat = 0 := by decide
  unfold lowBits FlowTrees.engines
  rw [FlowTrees.tree_withEngines, h0, Nat.zero_mod, Nat.zero_mod]

end Order

namespace MBArkFirewall

/-! ## The element's calls -/

section Calls

variable (fw : MBArkFirewall) (T : MBarkTable) {p : Packet}

/-- `encrypt_v4` on a plain packet: the written flow, the advanced engines, the stored pair. -/
theorem encryptV4_plain (h : PlainV4 p) :
    ∃ q T', fw.encryptV4 T p = some (q, fw.setTreesV4 fw.treesV4.advance, T') ∧
    T'.tableV4 = (if fw.stateful then T.tableV4.insert (ipv4.flow p.data) (ipv4.flow q.data) else T.tableV4) ∧
    ipv4.flow q.data = if fw.enable then (encryptFields ipv4 fw.treesV4 p.data).1 else ipv4.flow p.data := by
  obtain ⟨q, hq, hflow⟩ := encrypt_plain h.plain fw.enable fw.stateful fw.treesV4 T.tableV4
  refine ⟨q, ⟨T.table, _⟩, ?_, rfl, hflow⟩
  unfold encryptV4
  rw [hq]
  rfl

/-- `encrypt_v6` on a plain packet. -/
theorem encryptV6_plain (h : PlainV6 p) :
    ∃ q T', fw.encryptV6 T p = some (q, fw.setTreesV6 fw.treesV6.advance, T') ∧
    T'.table = (if fw.stateful then T.table.insert (ipv6.flow p.data) (ipv6.flow q.data) else T.table) ∧
    ipv6.flow q.data = if fw.enable then (encryptFields ipv6 fw.treesV6 p.data).1 else ipv6.flow p.data := by
  obtain ⟨q, hq, hflow⟩ := encrypt_plain h.plain fw.enable fw.stateful fw.treesV6 T.table
  refine ⟨q, ⟨_, T.tableV4⟩, ?_, rfl, hflow⟩
  unfold encryptV6
  rw [hq]
  rfl

end Calls

/-! ## Order on the wire -/

variable {fw : MBArkFirewall} {p₁ p₂ : Packet} {F : Field}

theorem orderOnWireV4_iff (hl : fw.Loaded) (he : fw.enable = true) (h₁ : PlainV4 p₁) (h₂ : PlainV4 p₂)
    {fw₁ fw₂ : MBArkFirewall} (hs₁ : SameRules fw fw₁) (hs₂ : SameRules fw fw₂) (T₁ T₂ : MBarkTable) :
    OrderOnWire ipv4 fw.treesV4.keys p₁ p₂ (fw₁.encryptV4 T₁ p₁) (fw₂.encryptV4 T₂ p₂) F ↔
      ¬ Separated ipv4 fw.treesV4.keys p₁ p₂ F ∨
      lowBits ipv4 fw₁.treesV4 p₁ F < lowBits ipv4 fw₂.treesV4 p₂ F := by
  obtain ⟨q₁, T₁', hq₁, -, hf₁⟩ := encryptV4_plain fw₁ T₁ h₁
  obtain ⟨q₂, T₂', hq₂, -, hf₂⟩ := encryptV4_plain fw₂ T₂ h₂
  rw [hs₁.enable, he, if_pos rfl] at hf₁
  rw [hs₂.enable, he, if_pos rfl] at hf₂
  have hne : F.width 32 ≠ 128 := by cases F <;> decide
  have hw : F.width 32 ≤ 74 := by cases F <;> decide
  have hord := order_iff (f := ipv4) p₁ p₂ hl.v4 fw₁.treesV4.engines fw₂.treesV4.engines (.inr hw)
  rw [← hs₁.treesV4, ← hs₂.treesV4, ← hf₁, ← hf₂, or_iff_right hne] at hord
  rw [orderOnWire_iff hq₁ hq₂, hord]

theorem orderOnWireV6_iff (hl : fw.Loaded) (he : fw.enable = true) (h₁ : PlainV6 p₁) (h₂ : PlainV6 p₂)
    {fw₁ fw₂ : MBArkFirewall} (hs₁ : SameRules fw fw₁) (hs₂ : SameRules fw fw₂) (T₁ T₂ : MBarkTable) :
    OrderOnWire ipv6 fw.treesV6.keys p₁ p₂ (fw₁.encryptV6 T₁ p₁) (fw₂.encryptV6 T₂ p₂) F ↔
      F.IsAddr ∨ ¬ Separated ipv6 fw.treesV6.keys p₁ p₂ F ∨
        lowBits ipv6 fw₁.treesV6 p₁ F < lowBits ipv6 fw₂.treesV6 p₂ F := by
  obtain ⟨q₁, T₁', hq₁, -, hf₁⟩ := encryptV6_plain fw₁ T₁ h₁
  obtain ⟨q₂, T₂', hq₂, -, hf₂⟩ := encryptV6_plain fw₂ T₂ h₂
  rw [hs₁.enable, he, if_pos rfl] at hf₁
  rw [hs₂.enable, he, if_pos rfl] at hf₂
  have haddr : F.width 128 = 128 ↔ F.IsAddr := by cases F <;> decide
  have hw : F.width 128 = 128 ∨ F.width 128 ≤ 74 := by cases F <;> decide
  have hord := order_iff (f := ipv6) p₁ p₂ hl.v6 fw₁.treesV6.engines fw₂.treesV6.engines hw
  rw [← hs₁.treesV6, ← hs₂.treesV6, ← hf₁, ← hf₂, haddr] at hord
  rw [orderOnWire_iff hq₁ hq₂, hord]

/-- Order on the wire under a loaded rule set with encryption on. Over IPv4 a written field keeps
the order of two separated values exactly for the engine outcomes whose low bits happen to be in
order, so for all outcomes only where no boundary separates the values; over IPv6 the address
fields keep it always and the ports as over IPv4. -/
theorem order_on_wire_iff (hl : fw.Loaded) (he : fw.enable = true) (F : Field) (p₁ p₂ : Packet) :
    (PlainV4 p₁ → PlainV4 p₂ →
      (∀ fw₁ fw₂ T₁ T₂, SameRules fw fw₁ → SameRules fw fw₂ →
        (OrderOnWire ipv4 fw.treesV4.keys p₁ p₂ (fw₁.encryptV4 T₁ p₁) (fw₂.encryptV4 T₂ p₂) F ↔
          ¬ Separated ipv4 fw.treesV4.keys p₁ p₂ F ∨
            lowBits ipv4 fw₁.treesV4 p₁ F < lowBits ipv4 fw₂.treesV4 p₂ F)) ∧
      ((∀ fw₁ fw₂ T₁ T₂, SameRules fw fw₁ → SameRules fw fw₂ →
        OrderOnWire ipv4 fw.treesV4.keys p₁ p₂ (fw₁.encryptV4 T₁ p₁) (fw₂.encryptV4 T₂ p₂) F) ↔
          ¬ Separated ipv4 fw.treesV4.keys p₁ p₂ F)) ∧
    (PlainV6 p₁ → PlainV6 p₂ →
      (∀ fw₁ fw₂ T₁ T₂, SameRules fw fw₁ → SameRules fw fw₂ →
        (OrderOnWire ipv6 fw.treesV6.keys p₁ p₂ (fw₁.encryptV6 T₁ p₁) (fw₂.encryptV6 T₂ p₂) F ↔
          F.IsAddr ∨ ¬ Separated ipv6 fw.treesV6.keys p₁ p₂ F ∨
            lowBits ipv6 fw₁.treesV6 p₁ F < lowBits ipv6 fw₂.treesV6 p₂ F)) ∧
      ((∀ fw₁ fw₂ T₁ T₂, SameRules fw fw₁ → SameRules fw fw₂ →
        OrderOnWire ipv6 fw.treesV6.keys p₁ p₂ (fw₁.encryptV6 T₁ p₁) (fw₂.encryptV6 T₂ p₂) F) ↔
          F.IsAddr ∨ ¬ Separated ipv6 fw.treesV6.keys p₁ p₂ F)) := by
  refine ⟨fun h₁ h₂ => ?_, fun h₁ h₂ => ?_⟩
  · have hone := fun fw₁ fw₂ T₁ T₂ (hs₁ : SameRules fw fw₁) (hs₂ : SameRules fw fw₂) =>
      orderOnWireV4_iff (F := F) hl he h₁ h₂ hs₁ hs₂ T₁ T₂
    refine ⟨hone, fun hall => ?_, fun hn fw₁ fw₂ T₁ T₂ hs₁ hs₂ =>
      (hone _ _ T₁ T₂ hs₁ hs₂).2 (.inl hn)⟩
    -- two equal draws: their low bits are not in order
    have hs := sameRules_setTreesV4 fw fun _ => Stream'.const 0
    rcases (hone _ _ MBarkTable.empty MBarkTable.empty hs hs).1 (hall _ _ _ _ hs hs) with hn | hlt
    · exact hn
    · rw [treesV4_setTreesV4, lowBits_zero, lowBits_zero] at hlt
      exact absurd hlt (lt_irrefl 0)
  · have hone := fun fw₁ fw₂ T₁ T₂ (hs₁ : SameRules fw fw₁) (hs₂ : SameRules fw fw₂) =>
      orderOnWireV6_iff (F := F) hl he h₁ h₂ hs₁ hs₂ T₁ T₂
    refine ⟨hone, fun hall => ?_, fun hn fw₁ fw₂ T₁ T₂ hs₁ hs₂ =>
      (hone _ _ T₁ T₂ hs₁ hs₂).2 (hn.imp id .inl)⟩
    -- two equal draws again, here only for the ports
    have hs := sameRules_setTreesV6 fw fun _ => Stream'.const 0
    rcases (hone _ _ MBarkTable.empty MBarkTable.empty hs hs).1 (hall _ _ _ _ hs hs) with ha | hn | hlt
    · exact .inl ha
    · exact .inr hn
    · rw [treesV6_setTreesV6, lowBits_zero, lowBits_zero] at hlt
      exact absurd hlt (lt_irrefl 0)

/-- A packet from 10.0.0.1:1234 to the given port of 192.168.1.1. -/
def toPort (port : BitVec 16) : Packet := tcpV4 ⟨htonl 0x0a000001, htons 1234, htonl 0xc0a80101, htons port⟩

theorem toPort_plain (port : BitVec 16) : PlainV4 (toPort port) := tcpV4_plain _

theorem host_toPort (port : BitVec 16) : ipv4.host (ipv4.flow (toPort port).data) .dstPort = port := by
  unfold toPort
  rw [flow_tcpV4]
  exact ntohs_htons port

theorem separated_toPort (v4 enable : Bool) (a b : BitVec 16) :
    Separated ipv4 (oneRule v4 enable).treesV4.keys (toPort a) (toPort b) .dstPort ↔ a < 80 ∧ 80 ≤ b := by
  unfold Separated
  rw [host_toPort, host_toPort]
  constructor
  · rintro ⟨x, hx, h⟩
    obtain rfl : x = (80 : BitVec 16) := List.mem_singleton.1 hx
    exact h
  · exact fun h => ⟨(80 : BitVec 16), List.mem_singleton.2 rfl, h⟩

theorem order_on_wire_iff_toPort : (oneRule true true).Loaded ∧ PlainV4 (toPort 81) ∧ PlainV4 (toPort 80) ∧
    ∀ fw₁ fw₂ T₁ T₂, SameRules (oneRule true true) fw₁ → SameRules (oneRule true true) fw₂ →
      OrderOnWire ipv4 (oneRule true true).treesV4.keys (toPort 81) (toPort 80) (fw₁.encryptV4 T₁ (toPort 81))
        (fw₂.encryptV4 T₂ (toPort 80)) .dstPort :=
  ⟨oneRule_loaded true true, toPort_plain _, toPort_plain _,
    (((order_on_wire_iff (oneRule_loaded true true) rfl .dstPort (toPort 81) (toPort 80)).1
      (toPort_plain _) (toPort_plain _)).2).2 (by rw [separated_toPort]; decide)⟩

/-- Port 80 is a boundary, so 79 and 80 are separated; the first two draws of the engine write the
greater number into the packet to port 79. -/
theorem port_order_lost : (oneRule true true).Loaded ∧ PlainV4 (toPort 79) ∧ PlainV4 (toPort 80) ∧
    Separated ipv4 (oneRule true true).treesV4.keys (toPort 79) (toPort 80) .dstPort ∧
    ∀ T₁ T₂, ¬ OrderOnWire ipv4 (oneRule true true).treesV4.keys (toPort 79) (toPort 80)
      ((oneRule true true).encryptV4 T₁ (toPort 79))
      (((oneRule true true).setTreesV4 (oneRule true true).treesV4.advance).encryptV4 T₂ (toPort 80)) .dstPort := by
  have hsep := (separated_toPort true true 79 80).2 (by decide)
  refine ⟨oneRule_loaded true true, toPort_plain _, toPort_plain _, hsep, fun T₁ T₂ => ?_⟩
  rw [orderOnWireV4_iff (oneRule_loaded true true) rfl (toPort_plain _) (toPort_plain _)
    (SameRules.refl _) (sameRules_advanceV4 _)]
  rintro (hn | hlt)
  · exact hn hsep
  · revert hlt
    unfold lowBits
    rw [host_toPort, host_toPort]
    decide

end MBArkFirewall

end Embark
