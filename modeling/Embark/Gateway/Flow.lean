/-
Encryption within a flow. A run of the firewall draws from every engine once per packet, whatever
the packet is, so the draws behind two packets of one flow are those of their positions in the run:
the written fields agree exactly when these draws do, modulo the widths of the gaps.
-/
import Embark.Gateway.Wire

namespace Embark

open OPETree

/-- The number that the `i`-th call of `random128` returns. -/
def draw (e : Engine) (i : ℕ) : ℕ := (random128 (e.drop (2 * i))).1.toNat

section Agree

variable {w : Nat} {f : AddressFamily w} {t : FlowTrees w}

theorem FlowID.eq_iff_host (f : AddressFamily w) {a b : FlowID w} : a = b ↔ ∀ F, f.host a F = f.host b F := by
  refine ⟨fun h F => by rw [h], fun h => ?_⟩
  obtain ⟨saddr, sport, daddr, dport⟩ := a
  obtain ⟨saddr', sport', daddr', dport'⟩ := b
  have hs := congrArg f.hton (h .srcAddr)
  have hd := congrArg f.hton (h .dstAddr)
  have hsp : htons (ntohs sport) = htons (ntohs sport') := congrArg htons (h .srcPort)
  have hdp : htons (ntohs dport) = htons (ntohs dport') := congrArg htons (h .dstPort)
  simp only [AddressFamily.host, f.hton_ntoh] at hs hd
  have hback : ∀ x, htons (ntohs x) = x := ntohs_htons
  rw [hback, hback] at hsp hdp
  rw [hs, hd, hsp, hdp]

/-- The draws `x` and `y` of a field leave the same bits in the field: they agree modulo the width
of the gap of its plaintext in `a`, in the bits that fit. -/
def DrawsAgree (f : AddressFamily w) (t : FlowTrees w) (a : FlowID w) (F : Field) (x y : ℕ) : Prop :=
  x % gapWidth (t.tree F).toScapegoatTree (f.host a F) % 2 ^ F.width w =
    y % gapWidth (t.tree F).toScapegoatTree (f.host a F) % 2 ^ F.width w

/-- Two encryptions of one flow, by engines at any two positions. -/
theorem encryptFields_eq_iff (ht : t.Loaded) (e e' : Field → Engine) {m m' : Memory} (hm : f.flow m' = f.flow m) :
    (encryptFields f (t.withEngines e) m).1 = (encryptFields f (t.withEngines e') m').1 ↔
      ∀ F, DrawsAgree f t (f.flow m) F (random128 (e F)).1.toNat (random128 (e' F)).1.toNat := by
  have hnat := fun (e : Field → Engine) F =>
    toNat_setWidth_generate ⟨(t.tree F).toScapegoatTree, e F⟩ (ht.wf F) (f.host (f.flow m) F)
  rw [FlowID.eq_iff_host f]
  refine forall_congr' fun F => ?_
  rw [host_encryptFields, host_encryptFields, FlowTrees.tree_withEngines, FlowTrees.tree_withEngines, hm,
    ← BitVec.toNat_inj, hnat, hnat]
  exact ⟨fun h => Nat.ModEq.add_right_cancel' _ h, fun h => Nat.ModEq.add_right _ h⟩

/-- Both packets were pushed, with equal addresses and ports. -/
def EqualFields (f : AddressFamily w) (out out' : Option Packet) : Prop :=
  ∃ q q', out = some q ∧ out' = some q' ∧ f.flow q.data = f.flow q'.data

/-- Two packets with the same addresses and ports, and the same protocol byte at `proto`. -/
structure SameTuple (f : AddressFamily w) (proto : Memory → Byte) (p p' : Packet) : Prop where
  flow : f.flow p'.data = f.flow p.data
  proto : proto p'.data = proto p.data

/-- The fields written for one flow from two states of the engines. -/
theorem equalFields_iff (ht : t.Loaded) {enable : Bool} {e e' : Field → Engine} {p p' q q' : Packet}
    (hp : f.flow p'.data = f.flow p.data)
    (hq : f.flow q.data = if enable then (encryptFields f (t.withEngines e) p.data).1 else f.flow p.data)
    (hq' : f.flow q'.data = if enable then (encryptFields f (t.withEngines e') p'.data).1 else f.flow p'.data) :
    EqualFields f (some q) (some q') ↔ enable = false ∨
      ∀ F, DrawsAgree f t (f.flow p.data) F (random128 (e F)).1.toNat (random128 (e' F)).1.toNat := by
  have heq : EqualFields f (some q) (some q') ↔ f.flow q.data = f.flow q'.data := by
    refine ⟨?_, fun h => ⟨q, q', rfl, rfl, h⟩⟩
    rintro ⟨_, _, ⟨⟩, ⟨⟩, h⟩
    exact h
  rw [heq, hq, hq']
  cases enable with
  | false => exact iff_of_true hp.symm (.inl rfl)
  | true =>
    rw [if_pos rfl, if_pos rfl, encryptFields_eq_iff ht e e' hp]
    exact ⟨.inr, fun h => h.resolve_left (by decide)⟩

/-- The draws 0 and 1 never agree: every gap is wider than the field has bits. -/
theorem not_drawsAgree_zero_one (ht : t.Loaded) (hw : 0 < w) (a : FlowID w) (F : Field) :
    ¬ DrawsAgree f t a F 0 1 := by
  have hgap := gap_width (ht.wf F) (f.host a F)
  rw [← toNat_range_fst (ht.wf F), ← toNat_range_snd (ht.wf F)] at hgap
  have hpow : 1 < 2 ^ F.width w := Nat.one_lt_two_pow (by cases F <;> simp [Field.width] <;> omega)
  unfold DrawsAgree
  rw [Nat.zero_mod, Nat.zero_mod, Nat.mod_eq_of_lt (b := gapWidth _ _) (by unfold gapWidth; omega),
    Nat.mod_eq_of_lt hpow]
  decide

/-- Engines whose next draw is `x`. -/
def drawing (x : BitVec 64) : Field → Engine := fun _ => Stream'.cons x (Stream'.const 0)

/-- If `out e` and `out' e` are what the engines `e` make of two packets of one flow, they agree
for all engines only with encryption off. -/
theorem equalFields_forall_iff (ht : t.Loaded) (hw : 0 < w) {enable : Bool} {p p' : Packet}
    {out out' : (Field → Engine) → Option Packet} (hp : f.flow p'.data = f.flow p.data)
    (hout : ∀ e, ∃ q, out e = some q ∧
      f.flow q.data = if enable then (encryptFields f (t.withEngines e) p.data).1 else f.flow p.data)
    (hout' : ∀ e, ∃ q, out' e = some q ∧
      f.flow q.data = if enable then (encryptFields f (t.withEngines e) p'.data).1 else f.flow p'.data) :
    (∀ e e', EqualFields f (out e) (out' e')) ↔ enable = false := by
  have hone : ∀ e e', EqualFields f (out e) (out' e') ↔ enable = false ∨
      ∀ F, DrawsAgree f t (f.flow p.data) F (random128 (e F)).1.toNat (random128 (e' F)).1.toNat := by
    intro e e'
    obtain ⟨q, hq, hf⟩ := hout e
    obtain ⟨q', hq', hf'⟩ := hout' e'
    rw [hq, hq']
    exact equalFields_iff ht hp hf hf'
  refine ⟨fun hall => ?_, fun he e e' => (hone e e').2 (.inl he)⟩
  -- engines that draw 0 and 1 give different source addresses
  refine ((hone _ _).1 (hall (drawing 0) (drawing 1))).resolve_right fun hd => ?_
  have h0 : (random128 (drawing 0 .srcAddr)).1.toNat = 0 := by decide
  have h1 : (random128 (drawing 1 .srcAddr)).1.toNat = 1 := by decide
  have hsrc := hd .srcAddr
  rw [h0, h1] at hsrc
  exact not_drawsAgree_zero_one ht hw _ .srcAddr hsrc

end Agree

namespace MBArkFirewall

/-! ## Runs -/

/-- The firewall on a list of packets: the packets it pushes. -/
def run (fw : MBArkFirewall) (T : MBarkTable) : List Packet → Option (List Packet × MBArkFirewall × MBarkTable)
  | [] => some ([], fw, T)
  | p :: ps => do
    let (q, fw, T) ← fw.push T p
    let (qs, fw, T) ← fw.run T ps
    return (q :: qs, fw, T)

/-- The firewall after `n` packets of a run: the engines it uses have drawn `n` times. -/
def after (fw : MBArkFirewall) (n : ℕ) : MBArkFirewall :=
  if fw.v4 then fw.setTreesV4 (fw.treesV4.withEngines fun F => (fw.treesV4.engines F).drop (2 * n))
  else fw.setTreesV6 (fw.treesV6.withEngines fun F => (fw.treesV6.engines F).drop (2 * n))

theorem after_zero (fw : MBArkFirewall) : fw.after 0 = fw := by
  unfold after
  split <;> rfl

theorem sameRules_after (fw : MBArkFirewall) (n : ℕ) : SameRules fw (fw.after n) := by
  unfold after
  split
  · exact sameRules_setTreesV4 fw _
  · exact sameRules_setTreesV6 fw _

theorem after_after (fw : MBArkFirewall) (n : ℕ) : (fw.after 1).after n = fw.after (n + 1) := by
  have hdrop : ∀ e : Engine, (e.drop (2 * 1)).drop (2 * n) = e.drop (2 * (n + 1)) := fun e => by
    funext i
    show e (i + 2 * n + 2 * 1) = e (i + 2 * (n + 1))
    congr 1
  unfold after
  cases hv : fw.v4 with
  | true =>
    simp only [if_pos, setTreesV4, hv, treesV4, FlowTrees.withEngines, FlowTrees.engines, FlowTrees.tree, hdrop]
  | false =>
    simp only [setTreesV6, hv, treesV6, FlowTrees.withEngines, FlowTrees.engines, FlowTrees.tree, hdrop,
      Bool.false_eq_true, if_false]

theorem encrypt_trees {w : Nat} {f : AddressFamily w} {enable stateful : Bool} {t t' : FlowTrees w}
    {table table' : FlowTable w} {p q : Packet} (h : encrypt f enable stateful t table p = some (q, t', table')) :
    t' = t.advance := by
  unfold encrypt at h
  simp only [Option.bind_eq_bind, Option.bind_eq_some_iff] at h
  obtain ⟨before, -, h⟩ := h
  split at h
  · obtain ⟨after, -, h⟩ := Option.bind_eq_some_iff.1 h
    cases h
    exact encryptFields_trees ..
  · cases h
    exact encryptFields_trees ..

/-- Every push that completes draws once from every engine it uses. -/
theorem push_after {fw fw' : MBArkFirewall} {T T' : MBarkTable} {p q : Packet}
    (h : fw.push T p = some (q, fw', T')) : fw' = fw.after 1 := by
  unfold push encryptV4 encryptV6 at h
  unfold after
  split at h
  · rename_i hv
    obtain ⟨⟨q', t, table⟩, henc, h⟩ := Option.bind_eq_some_iff.1 h
    cases h
    rw [if_pos hv, encrypt_trees henc]
    rfl
  · rename_i hv
    obtain ⟨⟨q', t, table⟩, henc, h⟩ := Option.bind_eq_some_iff.1 h
    cases h
    rw [if_neg hv, encrypt_trees henc]
    rfl

/-- The packet at position `i` of a run is pushed by the firewall after `i` packets. -/
theorem run_get : ∀ {ps : List Packet} {fw : MBArkFirewall} {T : MBarkTable} {qs : List Packet}
    {r : MBArkFirewall × MBarkTable} {i : ℕ} {p : Packet}, fw.run T ps = some (qs, r) → ps[i]? = some p →
    ∃ Ti q s, qs[i]? = some q ∧ (fw.after i).push Ti p = some (q, s)
  | [], fw, T, qs, r, i, p, _, hi => by simp at hi
  | p₀ :: ps, fw, T, qs, r, i, p, h, hi => by
    obtain ⟨⟨q₀, fw₁, T₁⟩, hpush, h⟩ := Option.bind_eq_some_iff.1 h
    obtain ⟨⟨qs₁, r₁⟩, hrun, h⟩ := Option.bind_eq_some_iff.1 h
    cases h
    cases i with
    | zero =>
      cases hi
      exact ⟨T, q₀, _, rfl, by rw [after_zero]; exact hpush⟩
    | succ i =>
      obtain ⟨Ti, q, s, hq, hs⟩ := run_get hrun hi
      exact ⟨Ti, q, s, hq, by rw [← after_after, ← push_after hpush]; exact hs⟩

/-! ## Packets of one flow -/

section Pushed

variable {fw : MBArkFirewall} {T : MBarkTable} {p q : Packet} {s : MBArkFirewall × MBarkTable}

/-- The flow that `push` leaves in a plain IPv4 packet. -/
theorem flow_push_v4 (hv : fw.v4 = true) (h : PlainV4 p) (hp : fw.push T p = some (q, s)) :
    ipv4.flow q.data = if fw.enable then (encryptFields ipv4 fw.treesV4 p.data).1 else ipv4.flow p.data := by
  obtain ⟨q', T', hq, -, hf⟩ := encryptV4_plain fw T h
  unfold push at hp
  rw [if_pos hv, hq] at hp
  cases hp
  exact hf

/-- The flow that `push` leaves in a plain IPv6 packet. -/
theorem flow_push_v6 (hv : fw.v4 = false) (h : PlainV6 p) (hp : fw.push T p = some (q, s)) :
    ipv6.flow q.data = if fw.enable then (encryptFields ipv6 fw.treesV6 p.data).1 else ipv6.flow p.data := by
  obtain ⟨q', T', hq, -, hf⟩ := encryptV6_plain fw T h
  unfold push at hp
  rw [if_neg (by simp [hv]), hq] at hp
  cases hp
  exact hf

end Pushed

theorem after_v4 {fw : MBArkFirewall} (hv : fw.v4 = true) (n : ℕ) :
    (fw.after n).treesV4 = fw.treesV4.withEngines fun F => (fw.treesV4.engines F).drop (2 * n) := by
  unfold after
  rw [if_pos hv, treesV4_setTreesV4]

theorem after_v6 {fw : MBArkFirewall} (hv : fw.v4 = false) (n : ℕ) :
    (fw.after n).treesV6 = fw.treesV6.withEngines fun F => (fw.treesV6.engines F).drop (2 * n) := by
  unfold after
  rw [if_neg (by simp [hv]), treesV6_setTreesV6]

section TwoRuns

variable {fw fw' : MBArkFirewall} {T T' : MBarkTable} {ps ps' qs qs' : List Packet}
  {r r' : MBArkFirewall × MBarkTable} {i j : ℕ} {p p' : Packet}

theorem equalFields_run_v4 (hl : fw.Loaded) (hs : SameRules fw fw') (hrun : fw.run T ps = some (qs, r))
    (hrun' : fw'.run T' ps' = some (qs', r')) (hi : ps[i]? = some p) (hj : ps'[j]? = some p') (hv : fw.v4 = true)
    (h : PlainV4 p) (h' : PlainV4 p') (hflow : ipv4.flow p'.data = ipv4.flow p.data) :
    EqualFields ipv4 qs[i]? qs'[j]? ↔ fw.enable = false ∨ ∀ F, DrawsAgree ipv4 fw.treesV4 (ipv4.flow p.data) F
      (draw (fw.treesV4.engines F) i) (draw (fw'.treesV4.engines F) j) := by
  obtain ⟨Ti, q, s, hq, hpush⟩ := run_get hrun hi
  obtain ⟨Tj, q', s', hq', hpush'⟩ := run_get hrun' hj
  have hv' : fw'.v4 = true := hs.v4.trans hv
  have hsi := sameRules_after fw i
  have hsj := sameRules_after fw' j
  have hf := flow_push_v4 (hsi.v4.trans hv) h hpush
  have hf' := flow_push_v4 (hsj.v4.trans hv') h' hpush'
  rw [hsi.enable, after_v4 hv] at hf
  rw [hsj.enable, after_v4 hv', hs.enable, hs.treesV4] at hf'
  rw [hq, hq']
  exact equalFields_iff hl.v4 hflow hf hf'

theorem equalFields_run_v6 (hl : fw.Loaded) (hs : SameRules fw fw') (hrun : fw.run T ps = some (qs, r))
    (hrun' : fw'.run T' ps' = some (qs', r')) (hi : ps[i]? = some p) (hj : ps'[j]? = some p') (hv : fw.v4 = false)
    (h : PlainV6 p) (h' : PlainV6 p') (hflow : ipv6.flow p'.data = ipv6.flow p.data) :
    EqualFields ipv6 qs[i]? qs'[j]? ↔ fw.enable = false ∨ ∀ F, DrawsAgree ipv6 fw.treesV6 (ipv6.flow p.data) F
      (draw (fw.treesV6.engines F) i) (draw (fw'.treesV6.engines F) j) := by
  obtain ⟨Ti, q, s, hq, hpush⟩ := run_get hrun hi
  obtain ⟨Tj, q', s', hq', hpush'⟩ := run_get hrun' hj
  have hv' : fw'.v4 = false := hs.v4.trans hv
  have hsi := sameRules_after fw i
  have hsj := sameRules_after fw' j
  have hf := flow_push_v6 (hsi.v4.trans hv) h hpush
  have hf' := flow_push_v6 (hsj.v4.trans hv') h' hpush'
  rw [hsi.enable, after_v6 hv] at hf
  rw [hsj.enable, after_v6 hv', hs.enable, hs.treesV6] at hf'
  rw [hq, hq']
  exact equalFields_iff hl.v6 hflow hf hf'

/-- Two packets of one flow at positions `i` and `j` of runs of two firewalls with the same rules
(or of one firewall). The written fields are equal exactly when encryption is off or, in each of
the four fields, the draws number `i` and `j` agree modulo the width of the gap. -/
theorem sameFlow_iff (hl : fw.Loaded) (hs : SameRules fw fw') (hrun : fw.run T ps = some (qs, r))
    (hrun' : fw'.run T' ps' = some (qs', r')) (hi : ps[i]? = some p) (hj : ps'[j]? = some p') :
    (fw.v4 = true → PlainV4 p → PlainV4 p' → SameTuple ipv4 (ipP · 0) p p' →
      (EqualFields ipv4 qs[i]? qs'[j]? ↔ fw.enable = false ∨ ∀ F, DrawsAgree ipv4 fw.treesV4 (ipv4.flow p.data) F
        (draw (fw.treesV4.engines F) i) (draw (fw'.treesV4.engines F) j))) ∧
    (fw.v4 = false → PlainV6 p → PlainV6 p' → SameTuple ipv6 (ip6Nxt · 0) p p' →
      (EqualFields ipv6 qs[i]? qs'[j]? ↔ fw.enable = false ∨ ∀ F, DrawsAgree ipv6 fw.treesV6 (ipv6.flow p.data) F
        (draw (fw.treesV6.engines F) i) (draw (fw'.treesV6.engines F) j))) :=
  ⟨fun hv h h' hsame => equalFields_run_v4 hl hs hrun hrun' hi hj hv h h' hsame.flow,
    fun hv h h' hsame => equalFields_run_v6 hl hs hrun hrun' hi hj hv h h' hsame.flow⟩

/-- A plain packet of the family the element is configured for. -/
def Admits (fw : MBArkFirewall) (p : Packet) : Prop := if fw.v4 then PlainV4 p else PlainV6 p

theorem admits_v4 {fw : MBArkFirewall} {p : Packet} (hv : fw.v4 = true) : fw.Admits p ↔ PlainV4 p := by
  unfold Admits
  rw [if_pos hv]

theorem admits_v6 {fw : MBArkFirewall} {p : Packet} (hv : fw.v4 = false) : fw.Admits p ↔ PlainV6 p := by
  unfold Admits
  rw [if_neg (by simp [hv])]

theorem push_total (fw : MBArkFirewall) (T : MBarkTable) {p : Packet} (h : fw.Admits p) :
    ∃ q s, fw.push T p = some (q, s) := by
  unfold Admits at h
  unfold push
  split at h
  · rename_i hv
    obtain ⟨q, T', hq, -⟩ := encryptV4_plain fw T h
    exact ⟨q, _, by rw [if_pos hv, hq]⟩
  · rename_i hv
    obtain ⟨q, T', hq, -⟩ := encryptV6_plain fw T h
    exact ⟨q, _, by rw [if_neg hv, hq]⟩

/-- A run over plain packets completes. -/
theorem run_total : ∀ (ps : List Packet) (fw : MBArkFirewall) (T : MBarkTable), (∀ p ∈ ps, fw.Admits p) →
    ∃ qs r, fw.run T ps = some (qs, r)
  | [], fw, T, _ => ⟨[], _, rfl⟩
  | p :: ps, fw, T, h => by
    obtain ⟨q, ⟨fw', T'⟩, hq⟩ := push_total fw T (h p (by simp))
    have hfw' : ∀ p ∈ ps, fw'.Admits p := fun p hp => by
      rw [push_after hq]
      unfold Admits
      rw [(sameRules_after fw 1).v4]
      exact h p (by simp [hp])
    obtain ⟨qs, r, hrun⟩ := run_total ps fw' T' hfw'
    refine ⟨q :: qs, r, ?_⟩
    unfold run
    rw [hq]
    show (run fw' T' ps).bind _ = _
    rw [hrun]
    rfl

/-- The next packet of an element whose engines are `e`. -/
theorem exists_push_v4 (hv : fw.v4 = true) (T : MBarkTable) {p : Packet} (h : PlainV4 p) (e : Field → Engine) :
    ∃ q, ((fw.setTreesV4 (fw.treesV4.withEngines e)).push T p).map Prod.fst = some q ∧
      ipv4.flow q.data =
        if fw.enable then (encryptFields ipv4 (fw.treesV4.withEngines e) p.data).1 else ipv4.flow p.data := by
  have hs := sameRules_setTreesV4 fw e
  have hv' := hs.v4.trans hv
  obtain ⟨q, s, hq⟩ := push_total _ T ((admits_v4 hv').2 h)
  have hf := flow_push_v4 hv' h hq
  rw [hs.enable, treesV4_setTreesV4] at hf
  exact ⟨q, by rw [hq]; rfl, hf⟩

theorem exists_push_v6 (hv : fw.v4 = false) (T : MBarkTable) {p : Packet} (h : PlainV6 p) (e : Field → Engine) :
    ∃ q, ((fw.setTreesV6 (fw.treesV6.withEngines e)).push T p).map Prod.fst = some q ∧
      ipv6.flow q.data =
        if fw.enable then (encryptFields ipv6 (fw.treesV6.withEngines e) p.data).1 else ipv6.flow p.data := by
  have hs := sameRules_setTreesV6 fw e
  have hv' := hs.v4.trans hv
  obtain ⟨q, s, hq⟩ := push_total _ T ((admits_v6 hv').2 h)
  have hf := flow_push_v6 hv' h hq
  rw [hs.enable, treesV6_setTreesV6] at hf
  exact ⟨q, by rw [hq]; rfl, hf⟩

/-- Over all outcomes of the engines the fields of one flow are equal only with encryption off. -/
theorem equalFields_always (hl : fw.Loaded) (T T' : MBarkTable) :
    (fw.v4 = true → PlainV4 p → PlainV4 p' → SameTuple ipv4 (ipP · 0) p p' →
      ((∀ e e', EqualFields ipv4 (((fw.setTreesV4 (fw.treesV4.withEngines e)).push T p).map Prod.fst)
        (((fw.setTreesV4 (fw.treesV4.withEngines e')).push T' p').map Prod.fst)) ↔ fw.enable = false)) ∧
    (fw.v4 = false → PlainV6 p → PlainV6 p' → SameTuple ipv6 (ip6Nxt · 0) p p' →
      ((∀ e e', EqualFields ipv6 (((fw.setTreesV6 (fw.treesV6.withEngines e)).push T p).map Prod.fst)
        (((fw.setTreesV6 (fw.treesV6.withEngines e')).push T' p').map Prod.fst)) ↔ fw.enable = false)) := by
  constructor
  · intro hv h h' hsame
    apply equalFields_forall_iff (f := ipv4) hl.v4 (by decide) hsame.flow
    · exact exists_push_v4 hv T h
    · exact exists_push_v4 hv T' h'
  · intro hv h h' hsame
    apply equalFields_forall_iff (f := ipv6) hl.v6 (by decide) hsame.flow
    · exact exists_push_v6 hv T h
    · exact exists_push_v6 hv T' h'

end TwoRuns

/-- Two packets to port 80 in one run. -/
theorem oneRule_run (enable : Bool) :
    ∃ qs r, (oneRule true enable).run MBarkTable.empty [toPort 80, toPort 80] = some (qs, r) :=
  run_total _ _ _ fun p hp => by
    obtain rfl : p = toPort 80 := by simpa using hp
    exact toPort_plain 80

theorem sameFlow_iff_oneRule : ∃ qs r,
    (oneRule true false).run MBarkTable.empty [toPort 80, toPort 80] = some (qs, r) ∧
    EqualFields ipv4 qs[0]? qs[1]? := by
  obtain ⟨qs, r, hrun⟩ := oneRule_run false
  exact ⟨qs, r, hrun,
    ((sameFlow_iff (oneRule_loaded true false) (SameRules.refl _) hrun hrun (i := 0) (j := 1) rfl rfl).1
    rfl (toPort_plain 80) (toPort_plain 80) ⟨rfl, rfl⟩).2 (.inl rfl)⟩

/-- The same packet twice, encrypted from consecutive draws. -/
theorem sameFlow_differs : (oneRule true true).Loaded ∧ PlainV4 (toPort 80) ∧ ∃ qs r,
    (oneRule true true).run MBarkTable.empty [toPort 80, toPort 80] = some (qs, r) ∧
      ¬ EqualFields ipv4 qs[0]? qs[1]? := by
  obtain ⟨qs, r, hrun⟩ := oneRule_run true
  refine ⟨oneRule_loaded true true, toPort_plain 80, qs, r, hrun, ?_⟩
  rw [equalFields_run_v4 (oneRule_loaded true true) (SameRules.refl _) hrun hrun (i := 0) (j := 1) rfl rfl rfl
    (toPort_plain 80) (toPort_plain 80) rfl]
  rintro (h | h)
  · cases h
  · have hport := h .dstPort
    unfold DrawsAgree at hport
    rw [host_toPort] at hport
    revert hport
    decide

end MBArkFirewall

end Embark
