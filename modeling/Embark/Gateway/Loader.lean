/-
The loop of `MBArkFirewall::initialize` as the keys it adds: a line that can be read adds the two ends
of its ranges to the trees in use, the loop adds those of all lines, and it completes exactly when
every line can be read and every `add` completes.
-/
import Embark.Gateway.RuleLine

namespace Embark

open RuleEncryptor (ntoh128_ip6Address)

/-! ## Calls on a tree under the encryption -/

namespace OPETree

variable {α : Type} [LinearOrder α] {t t' : OPETree α}

theorem addAll_eq_some {xs : List α} : t.addAll xs = some t' ↔
    t.toScapegoatTree.addAll xs = some t'.toScapegoatTree ∧ t'.prng = t.prng := by
  unfold addAll
  rw [Option.map_eq_some_iff]
  constructor
  · rintro ⟨s, hs, rfl⟩
    exact ⟨hs, rfl⟩
  · rintro ⟨hs, hprng⟩
    exact ⟨_, hs, by rw [← hprng]⟩

theorem addAll_nil : t.addAll [] = some t := rfl

theorem addAll_append (xs ys : List α) : t.addAll (xs ++ ys) = (t.addAll xs).bind fun u => u.addAll ys := by
  unfold addAll
  rw [ScapegoatTree.addAll_append]
  cases t.toScapegoatTree.addAll xs <;> rfl

theorem add_eq (t : OPETree α) (x : α) : t.add x = t.addAll [x] := by
  unfold add addAll ScapegoatTree.addAll
  simp only [List.foldlM_cons, List.foldlM_nil]
  cases t.toScapegoatTree.add x <;> rfl

theorem addRange_eq (t : OPETree α) (x y : α) : t.addRange x y = t.addAll [x, y] := by
  have happ := addAll_append (t := t) [x] [y]
  rw [List.singleton_append] at happ
  unfold addRange
  rw [happ, add_eq]
  exact congrArg _ (funext fun u => add_eq u y)

end OPETree

namespace MBArkFirewall

variable {queryIp : List Char → Option (BitVec 32)} {fw fw' : MBArkFirewall}

/-! ## A line is the keys it adds -/

theorem loadSrc_eq_some_iff {component : List Char} : fw.loadSrc queryIp component = some fw' ↔
    ∃ p t t4, readPrefix queryIp component 1 = some p ∧
      fw.srcAddrTree.addAll (fw.keysV6 [ntohl p.1, ntohl p.2]) = some t ∧
      fw.srcAddrTreeV4.addAll (fw.keysV4 [ntohl p.1, ntohl p.2]) = some t4 ∧
      { fw with srcAddrTree := t, srcAddrTreeV4 := t4 } = fw' := by
  unfold loadSrc keysV6 keysV4
  cases fw.v4 <;>
    simp [OPETree.addRange_eq, OPETree.addAll_nil, ntoh128_ip6Address, Option.bind_eq_some_iff]

theorem loadDst_eq_some_iff {component : List Char} : fw.loadDst queryIp component = some fw' ↔
    ∃ p t t4, readPrefix queryIp component 0 = some p ∧
      fw.dstAddrTree.addAll (fw.keysV6 [ntohl p.1, ntohl p.2]) = some t ∧
      fw.dstAddrTreeV4.addAll (fw.keysV4 [ntohl p.1, ntohl p.2]) = some t4 ∧
      { fw with dstAddrTree := t, dstAddrTreeV4 := t4 } = fw' := by
  unfold loadDst keysV6 keysV4
  cases fw.v4 <;>
    simp [OPETree.addRange_eq, OPETree.addAll_nil, ntoh128_ip6Address, Option.bind_eq_some_iff]

theorem loadSrcPort_eq_some_iff {component : List Char} : fw.loadSrcPort component = some fw' ↔
    ∃ p t, readPorts component = some p ∧ fw.srcPortTree.addAll [p.1, p.2] = some t ∧
      { fw with srcPortTree := t } = fw' := by
  unfold loadSrcPort
  simp [OPETree.addRange_eq, Option.bind_eq_some_iff]

theorem loadDstPort_eq_some_iff {component : List Char} : fw.loadDstPort component = some fw' ↔
    ∃ p t, readPorts component = some p ∧ fw.dstPortTree.addAll [p.1, p.2] = some t ∧
      { fw with dstPortTree := t } = fw' := by
  unfold loadDstPort
  simp [OPETree.addRange_eq, Option.bind_eq_some_iff]

theorem loadProto_eq_some_iff {component : List Char} : fw.loadProto component = some fw' ↔
    ∃ t, fw.protoTree.addAll [readProto component] = some t ∧ { fw with protoTree := t } = fw' := by
  unfold loadProto
  simp [OPETree.add_eq, Option.bind_eq_some_iff]

/-- One round of the loop completes exactly when the line can be read and its keys added. -/
theorem loadLine_eq_some_iff {line : List Char} : fw.loadLine queryIp line = some fw' ↔
    ∃ e, lineEndpoints queryIp line = some e ∧ Adds e fw fw' := by
  unfold loadLine lineEndpoints
  by_cases hmany : 6 < (components [] line).length
  · simp [hmany]
  · simp only [if_neg hmany, Option.bind_eq_bind, Option.bind_eq_some_iff, loadSrc_eq_some_iff, loadDst_eq_some_iff,
      loadSrcPort_eq_some_iff, loadDstPort_eq_some_iff, loadProto_eq_some_iff, Option.pure_def, Option.some.injEq]
    constructor
    · rintro ⟨_, ⟨p, t, t4, hp, ht, ht4, rfl⟩, _, ⟨q, u, u4, hq, hu, hu4, rfl⟩, _, ⟨sp, s, hsp, hs, rfl⟩,
        _, ⟨dp, d, hdp, hd, rfl⟩, pr, hpr, rfl⟩
      exact ⟨_, ⟨p, hp, q, hq, sp, hsp, dp, hdp, rfl⟩, ht, hu, ht4, hu4, hs, hd, hpr, rfl, rfl, rfl⟩
    · rintro ⟨e, ⟨p, hp, q, hq, sp, hsp, dp, hdp, rfl⟩, h⟩
      obtain ⟨st, dt, st4, dt4, spt, dpt, pt, v4, en, sf⟩ := fw'
      obtain ⟨hst, hdt, hst4, hdt4, hspt, hdpt, hpt, rfl, rfl, rfl⟩ := h
      exact ⟨_, ⟨p, st, st4, hp, hst, hst4, rfl⟩, _, ⟨q, dt, dt4, hq, hdt, hdt4, rfl⟩, _,
        ⟨sp, spt, hsp, hspt, rfl⟩, _, ⟨dp, dpt, hdp, hdpt, rfl⟩, pt, hpt, rfl⟩

section Keys

variable (fw)

theorem keysV4_nil : fw.keysV4 [] = [] := by
  unfold keysV4
  split <;> rfl

theorem keysV6_nil : fw.keysV6 [] = [] := by
  unfold keysV6
  split <;> rfl

theorem keysV4_append (xs ys : List (BitVec 32)) : fw.keysV4 (xs ++ ys) = fw.keysV4 xs ++ fw.keysV4 ys := by
  unfold keysV4
  split <;> rfl

theorem keysV6_append (xs ys : List (BitVec 32)) : fw.keysV6 (xs ++ ys) = fw.keysV6 xs ++ fw.keysV6 ys := by
  unfold keysV6
  split
  · rfl
  · exact List.map_append

variable {fw}

/-- Which trees are in use depends on the flag alone. -/
theorem keysV4_congr {fw₁ : MBArkFirewall} (h : fw₁.v4 = fw.v4) (xs : List (BitVec 32)) :
    fw₁.keysV4 xs = fw.keysV4 xs := by
  unfold keysV4
  rw [h]

theorem keysV6_congr {fw₁ : MBArkFirewall} (h : fw₁.v4 = fw.v4) (xs : List (BitVec 32)) :
    fw₁.keysV6 xs = fw.keysV6 xs := by
  unfold keysV6
  rw [h]

end Keys

theorem adds_empty : Adds .empty fw fw' ↔ fw = fw' := by
  constructor
  · rintro ⟨h1, h2, h3, h4, h5, h6, h7, h8, h9, h10⟩
    simp only [Endpoints.empty, keysV4_nil, keysV6_nil, OPETree.addAll_nil, Option.some.injEq] at h1 h2 h3 h4 h5 h6 h7
    obtain ⟨st, dt, st4, dt4, spt, dpt, pt, v4, en, sf⟩ := fw'
    simp only at *
    subst_vars
    rfl
  · rintro rfl
    constructor <;> simp [Endpoints.empty, keysV4_nil, keysV6_nil, OPETree.addAll_nil]

theorem adds_append {e e' : Endpoints} :
    Adds (e.append e') fw fw' ↔ ∃ fw₁, Adds e fw fw₁ ∧ Adds e' fw₁ fw' := by
  constructor
  · rintro ⟨h1, h2, h3, h4, h5, h6, h7, h8, h9, h10⟩
    simp only [Endpoints.append, keysV4_append, keysV6_append, OPETree.addAll_append,
      Option.bind_eq_some_iff] at h1 h2 h3 h4 h5 h6 h7
    obtain ⟨t1, h1, g1⟩ := h1
    obtain ⟨t2, h2, g2⟩ := h2
    obtain ⟨t3, h3, g3⟩ := h3
    obtain ⟨t4, h4, g4⟩ := h4
    obtain ⟨t5, h5, g5⟩ := h5
    obtain ⟨t6, h6, g6⟩ := h6
    obtain ⟨t7, h7, g7⟩ := h7
    exact ⟨⟨t1, t2, t3, t4, t5, t6, t7, fw.v4, fw.enable, fw.stateful⟩,
      ⟨h1, h2, h3, h4, h5, h6, h7, rfl, rfl, rfl⟩, ⟨g1, g2, g3, g4, g5, g6, g7, h8, h9, h10⟩⟩
  · rintro ⟨fw₁, ⟨h1, h2, h3, h4, h5, h6, h7, h8, h9, h10⟩, g1, g2, g3, g4, g5, g6, g7, g8, g9, g10⟩
    rw [keysV6_congr h8] at g1 g2
    rw [keysV4_congr h8] at g3 g4
    constructor
    · simp only [Endpoints.append, keysV6_append, OPETree.addAll_append, h1, Option.bind_some, g1]
    · simp only [Endpoints.append, keysV6_append, OPETree.addAll_append, h2, Option.bind_some, g2]
    · simp only [Endpoints.append, keysV4_append, OPETree.addAll_append, h3, Option.bind_some, g3]
    · simp only [Endpoints.append, keysV4_append, OPETree.addAll_append, h4, Option.bind_some, g4]
    · simp only [Endpoints.append, OPETree.addAll_append, h5, Option.bind_some, g5]
    · simp only [Endpoints.append, OPETree.addAll_append, h6, Option.bind_some, g6]
    · simp only [Endpoints.append, OPETree.addAll_append, h7, Option.bind_some, g7]
    · rw [g8, h8]
    · rw [g9, h9]
    · rw [g10, h10]

theorem insertions_cons {line : List Char} {lines : List (List Char)} : insertions queryIp (line :: lines) =
    (lineEndpoints queryIp line).bind fun e => (insertions queryIp lines).map e.append := by
  unfold insertions
  rw [List.mapM_cons]
  cases lineEndpoints queryIp line with
  | none => rfl
  | some e =>
    simp only [Option.bind_eq_bind, Option.bind_some]
    cases lines.mapM (lineEndpoints queryIp) <;> rfl

/-- The whole loop. -/
theorem initializeFrom_eq_some_iff {lines : List (List Char)} : fw.initializeFrom queryIp lines = some fw' ↔
    ∃ e, insertions queryIp lines = some e ∧ Adds e fw fw' := by
  induction lines generalizing fw with
  | nil =>
    have hnil : insertions queryIp [] = some .empty := rfl
    simp only [initializeFrom, List.foldlM_nil, hnil, Option.pure_def, Option.some.injEq, exists_eq_left']
    exact adds_empty.symm
  | cons line lines ih =>
    have hcons : fw.initializeFrom queryIp (line :: lines) = (fw.loadLine queryIp line).bind fun fw₁ =>
        fw₁.initializeFrom queryIp lines := List.foldlM_cons
    rw [hcons, Option.bind_eq_some_iff, insertions_cons]
    simp only [loadLine_eq_some_iff, ih, Option.bind_eq_some_iff, Option.map_eq_some_iff]
    constructor
    · rintro ⟨fw₁, ⟨e, he, h⟩, es, hes, h'⟩
      exact ⟨_, ⟨e, he, es, hes, rfl⟩, adds_append.2 ⟨fw₁, h, h'⟩⟩
    · rintro ⟨_, ⟨e, he, es, hes, rfl⟩, h⟩
      obtain ⟨fw₁, h, h'⟩ := adds_append.1 h
      exact ⟨fw₁, ⟨e, he, h⟩, es, hes, h'⟩

end MBArkFirewall

end Embark
