/-
The reverse path: a firewall and a reverse firewall that share a flow table, over any interleaving
of outgoing and returning packets. `insert` stores the encrypted tuple under the plaintext flow,
while `lookup` is asked for the plaintext flow under the encrypted tuple, so what a returning packet
is given is the tuple last issued for the plaintext flow that its reversed tuple happens to equal,
or the zero flow.
-/
import Embark.Gateway.Flow

namespace Embark

open OPETree

/-- A packet that meets the firewall on its way out, or the reverse firewall on its way back. -/
inductive Event
  | outgoing (p : Packet)
  | returning (p : Packet)

/-- The events of a run, each with the packet that left the element. -/
abbrev Trace := List (Event × Packet)

/-- The runs of `fw₀`, whose table is empty at first, and of a reverse firewall with the same flag
`v4` over that table: the trace so far and the state it leads to. -/
inductive Run (fw₀ : MBArkFirewall) : Trace → MBArkFirewall → MBarkTable → Prop
  | nil : Run fw₀ [] fw₀ MBarkTable.empty
  | outgoing {tr fw fw' T T' p q} : Run fw₀ tr fw T → fw₀.Admits p → fw.push T p = some (q, fw', T') →
      Run fw₀ (tr ++ [(.outgoing p, q)]) fw' T'
  | returning {tr fw T p q} : Run fw₀ tr fw T → fw₀.Admits p →
      MBArkFirewallRev.simpleAction fw₀.v4 T p = some q → Run fw₀ (tr ++ [(.returning p, q)]) fw T

/-! ## What was issued -/

section Issued

variable {w : Nat} (f : AddressFamily w)

/-- The plaintext flows of a trace with the encrypted flows they were given, in order. -/
def issued (tr : Trace) : List (FlowID w × FlowID w) :=
  tr.filterMap fun
    | (.outgoing p, q) => some (f.flow p.data, f.flow q.data)
    | (.returning _, _) => none

@[simp] theorem issued_outgoing (tr : Trace) (p q : Packet) :
    issued f (tr ++ [(.outgoing p, q)]) = issued f tr ++ [(f.flow p.data, f.flow q.data)] := by
  simp [issued]

@[simp] theorem issued_returning (tr : Trace) (p q : Packet) :
    issued f (tr ++ [(.returning p, q)]) = issued f tr := by
  simp [issued]

/-- The encrypted flow last given to the plaintext flow `b`. -/
def latest (hist : List (FlowID w × FlowID w)) (b : FlowID w) : Option (FlowID w) :=
  (hist.reverse.find? (·.1 = b)).map Prod.snd

theorem latest_append (hist : List (FlowID w × FlowID w)) (b a k : FlowID w) :
    latest (hist ++ [(b, a)]) k = if k = b then some a else latest hist k := by
  unfold latest
  rw [List.reverse_append, List.reverse_singleton, List.singleton_append, List.find?_cons]
  by_cases h : k = b
  · simp [h]
  · simp [h, Ne.symm h]

/-- A stored tuple was issued for its key. -/
theorem mem_of_latest {hist : List (FlowID w × FlowID w)} {b a : FlowID w} (h : latest hist b = some a) :
    (b, a) ∈ hist := by
  unfold latest at h
  obtain ⟨x, hx, rfl⟩ := Option.map_eq_some_iff.1 h
  have hmem := List.mem_reverse.1 (List.mem_of_find?_eq_some hx)
  have hkey : x.1 = b := by simpa using List.find?_some hx
  rwa [← hkey]

theorem latest_eq_none {hist : List (FlowID w × FlowID w)} {b : FlowID w} :
    latest hist b = none ↔ ∀ x ∈ hist, x.1 ≠ b := by
  unfold latest
  rw [Option.map_eq_none_iff, List.find?_eq_none]
  simp

/-! ## Restoring a flow -/

/-- The returning packet `p` left as `q` with the flow restored: if its reversed tuple was issued
for `b`, from the destination of `b` to its source; if it was never issued, not with the restored
endpoints of any flow sent before, and not with zero addresses and ports. -/
structure RestoresAt (tr : Trace) (p q : Packet) : Prop where
  known : ∀ b, (b, (f.flow p.data).reverse) ∈ issued f tr → f.flow q.data = b.reverse
  unknown : (∀ b, (b, (f.flow p.data).reverse) ∉ issued f tr) →
    f.flow q.data ≠ FlowID.zero ∧ ∀ x ∈ issued f tr, f.flow q.data ≠ x.1.reverse

/-- The condition on the history before `p` returns. If the reversed tuple `t` was issued for `b`,
then `b` is also the tuple last issued for a plaintext flow `t`, or `b` is the zero flow and no
plaintext flow `t` was sent. If `t` was never issued, a plaintext flow `t` was sent, and the tuple
last issued for it is neither zero nor a plaintext flow sent before. -/
structure StoredBackwards (tr : Trace) (p : Packet) : Prop where
  known : ∀ b, (b, (f.flow p.data).reverse) ∈ issued f tr →
    latest (issued f tr) (f.flow p.data).reverse = some b ∨
      b = FlowID.zero ∧ ∀ x ∈ issued f tr, x.1 ≠ (f.flow p.data).reverse
  unknown : (∀ b, (b, (f.flow p.data).reverse) ∉ issued f tr) →
    ∃ a, latest (issued f tr) (f.flow p.data).reverse = some a ∧ a ≠ FlowID.zero ∧
      ∀ x ∈ issued f tr, x.1 ≠ a

variable {f}

/-- A packet that is given the reverse of what is stored is restored exactly when what is stored
under its reversed tuple is right. -/
theorem restoresAt_iff {tr : Trace} {p q : Packet}
    (hq : f.flow q.data = ((latest (issued f tr) (f.flow p.data).reverse).getD FlowID.zero).reverse) :
    RestoresAt f tr p q ↔ StoredBackwards f tr p := by
  cases hL : latest (issued f tr) (f.flow p.data).reverse with
  | none =>
    rw [hL] at hq
    -- nothing stored under the tuple: the lookup returns the zero flow and inserts nothing
    have hzero : f.flow q.data = FlowID.zero := hq
    have hkey := latest_eq_none.1 hL
    constructor
    · intro h
      refine ⟨fun b hb => .inr ⟨?_, hkey⟩, fun hn => absurd hzero (h.unknown hn).1⟩
      have hb' : b.reverse = FlowID.zero := (h.known b hb).symm.trans hzero
      exact congrArg FlowID.reverse hb'
    · intro h
      refine ⟨fun b hb => ?_, fun hn => ?_⟩
      · rcases h.known b hb with hs | ⟨rfl, -⟩
        · rw [hL] at hs
          cases hs
        · exact hzero
      · obtain ⟨a, ha, -⟩ := h.unknown hn
        rw [hL] at ha
        cases ha
  | some a =>
    rw [hL, Option.getD_some] at hq
    -- the flow stored under the tuple is the one that was sent as it
    have hmem := mem_of_latest hL
    constructor
    · intro h
      refine ⟨fun b hb => .inl ?_, fun hn => ⟨a, hL, ?_, fun x hx he => ?_⟩⟩
      · rw [hL, FlowID.reverse_inj.1 (hq.symm.trans (h.known b hb))]
      · rintro rfl
        exact (h.unknown hn).1 hq
      · exact (h.unknown hn).2 x hx (by rw [hq, he])
    · intro h
      refine ⟨fun b hb => ?_, fun hn => ?_⟩
      · rcases h.known b hb with hs | ⟨-, hkey⟩
        · rw [hL] at hs
          cases hs
          exact hq
        · exact absurd rfl (hkey _ hmem)
      · obtain ⟨a', ha', hz, hne⟩ := h.unknown hn
        rw [hL] at ha'
        cases ha'
        refine ⟨fun h0 => hz ?_, fun x hx he => hne x hx ?_⟩
        · exact FlowID.reverse_inj.1 (hq.symm.trans h0)
        · exact (FlowID.reverse_inj.1 (hq.symm.trans he)).symm

/-- Where every packet left as it came, restoring works exactly for the issued tuples. -/
theorem storedBackwards_iff_of_identity {tr : Trace} {p : Packet} (hid : ∀ x ∈ issued f tr, x.2 = x.1) :
    StoredBackwards f tr p ↔ ∃ b, (b, (f.flow p.data).reverse) ∈ issued f tr := by
  constructor
  · intro h
    by_contra hn
    push Not at hn
    obtain ⟨a, ha, -⟩ := h.unknown hn
    have hmem := mem_of_latest ha
    obtain rfl : a = (f.flow p.data).reverse := hid _ hmem
    exact hn _ hmem
  · rintro ⟨b, hb⟩
    refine ⟨fun b' hb' => .inl ?_, fun hn => absurd hb (hn b)⟩
    obtain rfl : (f.flow p.data).reverse = b' := hid _ hb'
    cases hL : latest (issued f tr) (f.flow p.data).reverse with
    | none => exact absurd rfl (latest_eq_none.1 hL _ hb')
    | some a => exact congrArg some (hid _ (mem_of_latest hL))

end Issued

/-! ## Every run -/

namespace MBArkFirewall

variable {fw fw' : MBArkFirewall} {T T' : MBarkTable} {p q : Packet}

theorem table_push_v4 (hv : fw.v4 = true) (hs : fw.stateful = true) (h : PlainV4 p)
    (hp : fw.push T p = some (q, fw', T')) : T'.tableV4 = T.tableV4.insert (ipv4.flow p.data) (ipv4.flow q.data) := by
  obtain ⟨q', T'', hq, ht, -⟩ := encryptV4_plain fw T h
  unfold push at hp
  rw [if_pos hv, hq] at hp
  cases hp
  rw [ht, if_pos hs]

theorem table_push_v6 (hv : fw.v4 = false) (hs : fw.stateful = true) (h : PlainV6 p)
    (hp : fw.push T p = some (q, fw', T')) : T'.table = T.table.insert (ipv6.flow p.data) (ipv6.flow q.data) := by
  obtain ⟨q', T'', hq, ht, -⟩ := encryptV6_plain fw T h
  unfold push at hp
  rw [if_neg (by simp [hv]), hq] at hp
  cases hp
  rw [ht, if_pos hs]

end MBArkFirewall

namespace Run

variable {fw₀ fw : MBArkFirewall} {tr : Trace} {T : MBarkTable}

theorem sameRules (h : Run fw₀ tr fw T) : MBArkFirewall.SameRules fw₀ fw := by
  induction h with
  | nil => exact .refl _
  | outgoing _ _ hq ih => exact ih.trans (by rw [MBArkFirewall.push_after hq]; exact MBArkFirewall.sameRules_after _ 1)
  | returning _ _ _ ih => exact ih

/-- The table holds what was last issued, under the plaintext flow. -/
theorem tableV4_eq (h : Run fw₀ tr fw T) (hs : fw₀.stateful = true) (hv : fw₀.v4 = true) (k : IPFlowID) :
    T.tableV4 k = latest (issued ipv4 tr) k := by
  induction h with
  | nil => rfl
  | returning _ _ _ ih => rw [issued_returning]; exact ih
  | outgoing hrun hp hq ih =>
    have hr := hrun.sameRules
    rw [MBArkFirewall.table_push_v4 (hr.v4.trans hv) (hr.stateful.trans hs) ((MBArkFirewall.admits_v4 hv).1 hp) hq,
      issued_outgoing, latest_append, ← ih]
    rfl

theorem table_eq (h : Run fw₀ tr fw T) (hs : fw₀.stateful = true) (hv : fw₀.v4 = false) (k : IP6FlowID) :
    T.table k = latest (issued ipv6 tr) k := by
  induction h with
  | nil => rfl
  | returning _ _ _ ih => rw [issued_returning]; exact ih
  | outgoing hrun hp hq ih =>
    have hr := hrun.sameRules
    rw [MBArkFirewall.table_push_v6 (hr.v4.trans hv) (hr.stateful.trans hs) ((MBArkFirewall.admits_v6 hv).1 hp) hq,
      issued_outgoing, latest_append, ← ih]
    rfl

/-- With encryption off every tuple is issued for itself. -/
theorem issued_identity_v4 (h : Run fw₀ tr fw T) (hv : fw₀.v4 = true) (he : fw₀.enable = false) :
    ∀ x ∈ issued ipv4 tr, x.2 = x.1 := by
  induction h with
  | nil => intro x hx; cases hx
  | returning _ _ _ ih => rw [issued_returning]; exact ih
  | outgoing hrun hp hq ih =>
    have hr := hrun.sameRules
    have hf := MBArkFirewall.flow_push_v4 (hr.v4.trans hv) ((MBArkFirewall.admits_v4 hv).1 hp) hq
    rw [hr.enable, he] at hf
    intro x hx
    rw [issued_outgoing, List.mem_append, List.mem_singleton] at hx
    rcases hx with hx | rfl
    · exact ih x hx
    · exact hf

theorem issued_identity_v6 (h : Run fw₀ tr fw T) (hv : fw₀.v4 = false) (he : fw₀.enable = false) :
    ∀ x ∈ issued ipv6 tr, x.2 = x.1 := by
  induction h with
  | nil => intro x hx; cases hx
  | returning _ _ _ ih => rw [issued_returning]; exact ih
  | outgoing hrun hp hq ih =>
    have hr := hrun.sameRules
    have hf := MBArkFirewall.flow_push_v6 (hr.v4.trans hv) ((MBArkFirewall.admits_v6 hv).1 hp) hq
    rw [hr.enable, he] at hf
    intro x hx
    rw [issued_outgoing, List.mem_append, List.mem_singleton] at hx
    rcases hx with hx | rfl
    · exact ih x hx
    · exact hf

/-- What a returning IPv4 packet leaves with. -/
theorem simpleAction_v4 (h : Run fw₀ tr fw T) (hs : fw₀.stateful = true) (hv : fw₀.v4 = true) {p : Packet}
    (hp : fw₀.Admits p) : ∃ q, MBArkFirewallRev.simpleAction fw₀.v4 T p = some q ∧
      (RestoresAt ipv4 tr p q ↔ StoredBackwards ipv4 tr p) := by
  obtain ⟨q, hq, hf⟩ := restore_plain ((MBArkFirewall.admits_v4 hv).1 hp).plain T.tableV4
  refine ⟨q, by unfold MBArkFirewallRev.simpleAction; rw [if_pos hv, hq], restoresAt_iff ?_⟩
  rw [hf, FlowTable.lookup, h.tableV4_eq hs hv]

theorem simpleAction_v6 (h : Run fw₀ tr fw T) (hs : fw₀.stateful = true) (hv : fw₀.v4 = false) {p : Packet}
    (hp : fw₀.Admits p) : ∃ q, MBArkFirewallRev.simpleAction fw₀.v4 T p = some q ∧
      (RestoresAt ipv6 tr p q ↔ StoredBackwards ipv6 tr p) := by
  obtain ⟨q, hq, hf⟩ := restore_plain ((MBArkFirewall.admits_v6 hv).1 hp).plain T.table
  refine ⟨q, by unfold MBArkFirewallRev.simpleAction; rw [if_neg (by simp [hv]), hq], restoresAt_iff ?_⟩
  rw [hf, FlowTable.lookup, h.table_eq hs hv]

end Run

/-- In every state of every run, a returning packet is restored exactly under `StoredBackwards`;
with encryption off that is exactly when its reversed tuple was issued. -/
theorem reverse_restores_iff {fw₀ fw : MBArkFirewall} {tr : Trace} {T : MBarkTable} (h : Run fw₀ tr fw T)
    (hs : fw₀.stateful = true) {p : Packet} (hp : fw₀.Admits p) :
    ∃ q, MBArkFirewallRev.simpleAction fw₀.v4 T p = some q ∧
      (fw₀.v4 = true → (RestoresAt ipv4 tr p q ↔ StoredBackwards ipv4 tr p) ∧
        (fw₀.enable = false → (RestoresAt ipv4 tr p q ↔ ∃ b,
          (b, (ipv4.flow p.data).reverse) ∈ issued ipv4 tr))) ∧
      (fw₀.v4 = false → (RestoresAt ipv6 tr p q ↔ StoredBackwards ipv6 tr p) ∧
        (fw₀.enable = false → (RestoresAt ipv6 tr p q ↔ ∃ b,
          (b, (ipv6.flow p.data).reverse) ∈ issued ipv6 tr))) := by
  cases hv : fw₀.v4 with
  | true =>
    obtain ⟨q, hq, hiff⟩ := h.simpleAction_v4 hs hv hp
    refine ⟨q, hv ▸ hq, fun _ => ⟨hiff, fun he => ?_⟩, fun hc => Bool.noConfusion hc⟩
    rw [hiff, storedBackwards_iff_of_identity (h.issued_identity_v4 hv he)]
  | false =>
    obtain ⟨q, hq, hiff⟩ := h.simpleAction_v6 hs hv hp
    refine ⟨q, hv ▸ hq, fun hc => Bool.noConfusion hc, fun _ => ⟨hiff, fun he => ?_⟩⟩
    rw [hiff, storedBackwards_iff_of_identity (h.issued_identity_v6 hv he)]

/-! ## A flow there and back -/

open MBArkFirewall (toPort toPort_plain host_toPort)

/-- The firewall of `oneRule` after the packet to port 80. -/
theorem run_toPort (enable : Bool) : ∃ q fw T, Run (oneRule true enable) [(.outgoing (toPort 80), q)] fw T ∧
    ipv4.flow q.data = if enable then (encryptFields ipv4 (oneRule true enable).treesV4 (toPort 80).data).1 else
      ipv4.flow (toPort 80).data := by
  obtain ⟨q, ⟨fw, T⟩, hq⟩ := MBArkFirewall.push_total (oneRule true enable) MBarkTable.empty (toPort_plain 80)
  exact ⟨q, fw, T, Run.outgoing .nil (toPort_plain 80) hq, MBArkFirewall.flow_push_v4 rfl (toPort_plain 80) hq⟩

/-- The answer to a packet of the flow `a`. -/
def answerTo (a : IPFlowID) : Packet := tcpV4 a.reverse

theorem answerTo_plain (a : IPFlowID) : PlainV4 (answerTo a) := tcpV4_plain _

theorem reverse_flow_answerTo (a : IPFlowID) : (ipv4.flow (answerTo a).data).reverse = a := by
  unfold answerTo
  rw [flow_tcpV4, FlowID.reverse_reverse]

theorem reverse_restores_iff_oneRule : ∃ tr fw T q, Run (oneRule true false) tr fw T ∧
    MBArkFirewallRev.simpleAction true T (answerTo (ipv4.flow (toPort 80).data)) = some q ∧
    RestoresAt ipv4 tr (answerTo (ipv4.flow (toPort 80).data)) q := by
  obtain ⟨q₀, fw, T, hrun, hf⟩ := run_toPort false
  obtain ⟨q, hq, hiff, -⟩ := reverse_restores_iff hrun rfl (answerTo_plain (ipv4.flow (toPort 80).data))
  refine ⟨_, fw, T, q, hrun, hq, ((hiff rfl).2 rfl).2 ⟨ipv4.flow (toPort 80).data, ?_⟩⟩
  rw [reverse_flow_answerTo]
  exact List.mem_singleton.2 (by rw [hf]; rfl)

/-- With encryption on, the answer to the first packet finds nothing under its reversed tuple and
leaves with zero addresses and ports. -/
theorem answer_lost : ∃ tr fw T p q, Run (oneRule true true) tr fw T ∧ PlainV4 p ∧
    (∀ x ∈ issued ipv4 tr, ∀ y ∈ issued ipv4 tr, x.2 = y.2 → x.1 = y.1) ∧
    (∃ b, (b, (ipv4.flow p.data).reverse) ∈ issued ipv4 tr) ∧
    MBArkFirewallRev.simpleAction true T p = some q ∧ ¬ RestoresAt ipv4 tr p q := by
  obtain ⟨q₀, fw, T, hrun, hf⟩ := run_toPort true
  rw [if_pos rfl] at hf
  obtain ⟨q, hq, hiff⟩ := hrun.simpleAction_v4 rfl rfl (answerTo_plain (ipv4.flow q₀.data))
  have hissued : issued ipv4 [(.outgoing (toPort 80), q₀)] = [(ipv4.flow (toPort 80).data, ipv4.flow q₀.data)] :=
    rfl
  have ht := reverse_flow_answerTo (ipv4.flow q₀.data)
  refine ⟨_, fw, T, answerTo (ipv4.flow q₀.data), q, hrun, answerTo_plain _, ?_,
    ⟨ipv4.flow (toPort 80).data, ?_⟩, hq, fun hr => ?_⟩
  · rw [hissued]
    intro x hx y hy _
    rw [List.mem_singleton.1 hx, List.mem_singleton.1 hy]
  · rw [ht, hissued]
    exact List.mem_singleton.2 rfl
  · have hne : ipv4.flow q₀.data ≠ ipv4.flow (toPort 80).data := by
      intro he
      have hport : ((oneRule true true).dstPortTree.generateCiphertext 80).1.setWidth 16 = 80 := by
        have := congrArg (ipv4.host · .dstPort) he
        simp only [hf, host_encryptFields, host_toPort] at this
        exact this
      exact absurd hport (by decide)
    have hstored := (hiff.1 hr).known (ipv4.flow (toPort 80).data)
    rw [ht, hissued] at hstored
    replace hstored := hstored (List.mem_singleton.2 rfl)
    rcases hstored with hs | ⟨hz, -⟩
    · rw [← List.nil_append [(_, _)], latest_append, if_neg hne] at hs
      cases hs
    · have hport : (80 : BitVec 16) = ntohs 0 := by
        have := congrArg (ipv4.host · .dstPort) hz
        simp only [host_toPort] at this
        exact this
      exact absurd hport (by decide)

end Embark
