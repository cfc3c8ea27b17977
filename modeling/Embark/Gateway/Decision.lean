/-
The middlebox's decision. The rule encryptor turns the source prefix of a rule into two ciphertexts,
the gateway turns the source address of a packet into one, and the box compares them without a key.
End to end, from the texts of the rules to the packets of a run, the comparison decides whether the
plaintext address lies in the prefix, except from the last address of the prefix up to the next
endpoint of any rule: there the draw of the engine decides.
-/
import Embark.Gateway.Flow
import Embark.Gateway.Loader
import Embark.Ope.PrefixMatch

namespace Embark

open OPETree

open ScapegoatTree (Built empty mem_built built_wf)

namespace RuleEncryptor

/-! ## The decision -/

/-- The middlebox's test of the address `c` of a packet against a printed source. -/
def EncryptedAddr.Admits (c : U128) : EncryptedAddr → Prop
  | any => True
  | range first last => ntoh128 first ≤ ntoh128 c ∧ ntoh128 c ≤ ntoh128 last
  | single addr => c = addr

instance (c : U128) : DecidablePred (EncryptedAddr.Admits c)
  | .any => isTrue trivial
  | .range _ _ => inferInstanceAs (Decidable (_ ∧ _))
  | .single _ => inferInstanceAs (Decidable (_ = _))

/-- The address `v`, in the gateway's embedding, lies in the prefix. -/
def Prefix.Contains (v : U128) (p : Prefix) : Prop := compatible p.first ≤ v ∧ v ≤ compatible p.last

instance (v : U128) : DecidablePred (Prefix.Contains v) := fun _ => inferInstanceAs (Decidable (_ ∧ _))

/-- `v` is the last address of `p` or comes after it, before any greater endpoint of the rules. -/
def AtEndOf (ps : List Prefix) (v : U128) (p : Prefix) : Prop :=
  compatible p.last ≤ v ∧ ∀ x ∈ endpoints ps, compatible x ≤ v → compatible x ≤ compatible p.last

instance (ps : List Prefix) (v : U128) : DecidablePred (AtEndOf ps v) := fun _ =>
  inferInstanceAs (Decidable (_ ∧ ∀ x ∈ endpoints ps, compatible x ≤ v → _))

/-! ## Rules and trees -/

section Rules

variable {queryIp : List Char → Option (BitVec 32)} {fw fw' : MBArkFirewall} {rules : List (Prefix × List Char)}

theorem mem_endpoints {ps : List Prefix} {p : Prefix} (hp : p ∈ ps) :
    p.first ∈ endpoints ps ∧ p.last ∈ endpoints ps := by
  unfold endpoints
  simp only [List.mem_flatMap, List.mem_cons, List.not_mem_nil, or_false]
  exact ⟨⟨p, hp, .inl rfl⟩, p, hp, .inr rfl⟩

/-- The first address is the last with the bits outside the mask cleared. -/
theorem Prefix.first_le_last (p : Prefix) : compatible p.first ≤ compatible p.last := by
  have hor : p.first.toNat ≤ p.last.toNat := by
    unfold Prefix.last
    rw [BitVec.toNat_or]
    exact Nat.left_le_or
  rw [BitVec.le_def, toNat_compatible, toNat_compatible]
  exact hor

/-- The source tree of a gateway that loaded the rules from an empty tree. -/
theorem built_source (hv4 : fw.v4 = false) (hempty : fw.srcAddrTree.toScapegoatTree = empty)
    (hload : fw.initializeFrom queryIp (rules.map fun r => r.1.line r.2) = some fw') :
    Built ((endpoints (rules.map Prod.fst)).map compatible) fw'.srcAddrTree.toScapegoatTree := by
  have hgw := initializeFrom_lines hv4 hload
  rw [hempty] at hgw
  exact hgw

/-- What the encryptor prints for the rules, in the gateway's ciphertexts. -/
theorem encryptSources_eq {pton4 : List Char → BitVec 32} (pton6 : List Char → U128)
    (hpton : ∀ q : Quad, pton4 q.text = q.network) {t : ScapegoatTree U128}
    (hbuilt : Built ((endpoints (rules.map Prod.fst)).map compatible) t) :
    ∃ u, encryptSources pton4 pton6 (rules.map fun r => r.1.text) = some (u, rules.map fun r =>
      .range (hton128 (endpointCiphertext t (compatible r.1.first)))
        (hton128 (endpointCiphertext t (compatible r.1.last)))) := by
  have hmap := ScapegoatTree.addAll_map compatible_strictMono (endpoints (rules.map Prod.fst)) empty
  rw [show (empty : ScapegoatTree (BitVec 32)).map compatible = empty from rfl] at hmap
  obtain ⟨base, hrun, rfl⟩ := Option.map_eq_some_iff.1 (hmap.symm.trans hbuilt)
  have henc : (rules.map fun r => r.1.text).foldlM (handleAddr pton4 pton6) empty = some (base.map mapped) := by
    have h := @foldlM_handleAddr pton4 pton6 hpton (rules.map Prod.fst) empty
    rwa [show (empty : ScapegoatTree U128) = (empty : ScapegoatTree (BitVec 32)).map mapped from rfl,
      ScapegoatTree.addAll_map mapped_strictMono, hrun, List.map_map] at h
  have hsame : ∀ x, endpointCiphertext (base.map mapped) (mapped x) =
      endpointCiphertext (base.map compatible) (compatible x) := fun x => by
    unfold endpointCiphertext
    rw [ciphertextRange_map mapped_strictMono, ciphertextRange_map compatible_strictMono]
  have hout := @mapM_outputAddr pton4 pton6 hpton (base.map mapped) rules
  simp only [hsame] at hout
  refine ⟨base.map mapped, ?_⟩
  unfold encryptSources
  simp only [henc, hout, Option.bind_eq_bind, Option.bind_some, Option.pure_def]

end Rules

/-! ## One packet -/

section Packet

variable {ps : List Prefix} {t : ScapegoatTree U128} {p : Prefix} {v : U128}

/-- The gap that starts at the last address of a rule, by the endpoints of the rules. -/
theorem outsideGapOf_iff (ht : Built ((endpoints ps).map compatible) t) :
    OutsideGapOf t (compatible p.last) v ↔ ¬ AtEndOf ps v p := by
  have hkeys : ∀ x, x ∈ t.r.keys ↔ ∃ y ∈ endpoints ps, compatible y = x := fun x => by
    rw [mem_built ht, List.mem_map]
  unfold OutsideGapOf AtEndOf
  simp only [hkeys]
  constructor
  · rintro (hlt | ⟨_, ⟨x, hx, rfl⟩, hgt, hle⟩) ⟨hlast, hmax⟩
    · exact absurd hlast (not_le.2 hlt)
    · exact absurd (hmax x hx hle) (not_le.2 hgt)
  · intro hnot
    rcases lt_or_ge v (compatible p.last) with hlt | hge
    · exact .inl hlt
    · push Not at hnot
      obtain ⟨x, hx, hle, hgt⟩ := hnot hge
      exact .inr ⟨_, ⟨x, hx, rfl⟩, hgt, hle⟩

/-- The test of one ciphertext against the printed range of one rule. -/
theorem admits_iff (ht : Built ((endpoints ps).map compatible) t) (hp : p ∈ ps) (v : U128) (prng : Engine) :
    (EncryptedAddr.range (hton128 (endpointCiphertext t (compatible p.first)))
        (hton128 (endpointCiphertext t (compatible p.last)))).Admits
      (hton128 ((⟨t, prng⟩ : OPETree U128).generateCiphertext v).1) ↔
    if AtEndOf ps v p then (random128 prng).1.toNat % gapWidth t (compatible p.last) = 0 else p.Contains v := by
  have hwf := built_wf ht
  have hstored : ∀ x ∈ endpoints ps, compatible x ∈ t.r.keys := fun x hx =>
    (mem_built ht _).2 (List.mem_map_of_mem hx)
  have hfirst := hstored _ (mem_endpoints hp).1
  have hlast := hstored _ (mem_endpoints hp).2
  have hmatch : (EncryptedAddr.range (hton128 (endpointCiphertext t (compatible p.first)))
        (hton128 (endpointCiphertext t (compatible p.last)))).Admits
      (hton128 ((⟨t, prng⟩ : OPETree U128).generateCiphertext v).1) ↔
      Matches t (compatible p.first) (compatible p.last) ((⟨t, prng⟩ : OPETree U128).generateCiphertext v).1 := by
    simp only [EncryptedAddr.Admits, Matches, ntoh128_hton128]
  rw [hmatch]
  split
  · rename_i hend
    -- the lower comparison holds, the upper one is left to the draw
    have hlow := (endpoint_le_generate ⟨t, prng⟩ hwf hfirst v).2 (p.first_le_last.trans hend.1)
    have hgap : ∀ x ∈ t.r.keys, ¬ (compatible p.last < x ∧ x ≤ v) := by
      intro x hx
      obtain ⟨y, hy, rfl⟩ := List.mem_map.1 ((mem_built ht x).1 hx)
      rintro ⟨hgt, hle⟩
      exact absurd (hend.2 y hy hle) (not_le.2 hgt)
    unfold Matches
    rw [and_iff_right hlow]
    exact generate_le_endpoint_iff hwf hlast hend.1 hgap prng
  · rename_i hend
    exact (matches_of_outside hwf hfirst hlast ((outsideGapOf_iff ht).2 hend) prng).symm

end Packet

/-! ## Runs -/

theorem findIdx?_congr {α β : Type} {p : α → Bool} {q : β → Bool} (f : α → β) : ∀ {l : List α},
    (∀ a ∈ l, q (f a) = p a) → (l.map f).findIdx? q = l.findIdx? p
  | [], _ => rfl
  | a :: l, h => by
    rw [List.map_cons, List.findIdx?_cons, List.findIdx?_cons, h a List.mem_cons_self,
      findIdx?_congr f fun b hb => h b (List.mem_cons_of_mem _ hb)]

/-- The source address of an IPv6 packet, as it is on the wire. -/
def wireSource (p : Packet) : U128 := (ipv6.flow p.data).saddr

/-- A TCP packet over IPv6 from the address `v`. -/
def tcpFrom (v : U128) : Packet where
  data := ipv6.writeFields (fun i => if i = 0 then 0x60 else if i = 6 then 6 else 0) ⟨hton128 v, 0, 0, 0⟩
  length := 60
  networkHeader := none
  transportHeader := none

theorem tcpFrom_plain (v : U128) : PlainV6 (tcpFrom v) := by
  have hlow : ∀ i < 8, (tcpFrom v).data i = if i = 0 then 0x60 else if i = 6 then 6 else 0 := fun i hi =>
    ipv6.writeFields_of_lt _ _ hi
  refine ⟨?_, .inl ?_, show 44 ≤ 60 by decide⟩
  · unfold ipV
    rw [hlow 0 (by decide)]
    rfl
  · unfold ip6Nxt
    rw [hlow 6 (by decide)]
    rfl

theorem ntoh128_wireSource_tcpFrom (v : U128) : ntoh128 (wireSource (tcpFrom v)) = v := by
  unfold wireSource tcpFrom
  rw [AddressFamily.flow_writeFields, ntoh128_hton128]

end RuleEncryptor

end Embark
