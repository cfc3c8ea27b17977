/-
The cipher of the tokens: `MBArkDPI` expands the key `blueblueblueblue` in its constructor and sends
the first five bytes of each encrypted window. Whoever holds the key sees a window in the token
packets exactly when the record of the window is among the records sent.
-/
import Embark.Crypto.AesNi
import Embark.Dpi.Push

namespace Embark

namespace Dpi

open Aes (State)

/-! ## Blocks -/

/-- A block of memory in an SSE register. -/
def stateOf (v : Vector Byte 16) : State where
  x0 := ⟨v[0], v[1], v[2], v[3]⟩
  x1 := ⟨v[4], v[5], v[6], v[7]⟩
  x2 := ⟨v[8], v[9], v[10], v[11]⟩
  x3 := ⟨v[12], v[13], v[14], v[15]⟩

def bytesOf (s : State) : Vector Byte 16 :=
  #v[s.x0.x0, s.x0.x1, s.x0.x2, s.x0.x3, s.x1.x0, s.x1.x1, s.x1.x2, s.x1.x3, s.x2.x0, s.x2.x1, s.x2.x2, s.x2.x3,
    s.x3.x0, s.x3.x1, s.x3.x2, s.x3.x3]

namespace MBArkDPI

/-- `keyistr`. -/
def keyistr : Memory := fun i => ("blueblueblueblue".toList.map fun c => BitVec.ofNat 8 c.toNat).getD i 0

/-- The member `key` after the constructor, from what its memory held. -/
def key (held : AesNi.AesKey) : AesNi.AesKey := AesNi.setEncryptKey keyistr 128 held

/-- `MY_AES_encrypt` of a string into `out`. -/
def tokenAes (held : AesNi.AesKey) (s : Vector Byte 16) : Vector Byte 16 :=
  bytesOf ((AesNi.encrypt (key held) (stateOf s)).getD 0)

/-- What is sent for the window `s`, padded with zeros, in terms of the standard. -/
def tokenRecord (s : Vector Byte 16) : List Byte :=
  (bytesOf (Aes.encrypt 4 (AesNi.keyWord keyistr) (stateOf s))).toList.take recordLen

theorem tokenAes_eq (held : AesNi.AesKey) (s : Vector Byte 16) :
    tokenAes held s = bytesOf (Aes.encrypt 4 (AesNi.keyWord keyistr) (stateOf s)) := by
  have h := @AesNi.encrypt_eq keyistr 4 (.inl rfl) held (stateOf s)
  unfold tokenAes key
  rw [show 128 = 32 * 4 from rfl, h, Option.getD_some]

/-! ## What can be seen in the token packets -/

/-- The record `r` stands at a record's place in a token packet of `sent`. -/
def Seen (r : List Byte) (sent : List Sent) : Prop :=
  ∃ s ∈ sent, s.port = 1 ∧ ∃ k, headerLen + recordLen * (k + 1) ≤ s.bytes.length ∧
    (s.bytes.drop (headerLen + recordLen * k)).take recordLen = r

/-- The `k`-th of a list of pieces of one length. -/
theorem take_drop_flatMap {α β : Type} {f : α → List β} {n : ℕ} (hf : ∀ a, (f a).length = n) :
    ∀ {l : List α} {k : ℕ} (hk : k < l.length), ((l.flatMap f).drop (n * k)).take n = f l[k]
  | a :: l, 0, _ => by
    rw [Nat.mul_zero, List.drop_zero, List.flatMap_cons, ← hf a, List.take_left]
    rfl
  | a :: l, k + 1, hk => by
    have hdrop : ((a :: l).flatMap f).drop (n * (k + 1)) = (l.flatMap f).drop (n * k) := by
      rw [List.flatMap_cons, Nat.mul_succ, Nat.add_comm, ← List.drop_drop, ← hf a, List.drop_left]
    rw [hdrop, take_drop_flatMap hf (Nat.lt_of_succ_lt_succ hk)]
    rfl

variable {dividers : Int → Bool} {p : Packet} {aes : Vector Byte 16 → Vector Byte 16}

/-- The record at a place of a token packet is that of the offset there. -/
theorem record_at {offsets : List Nat} {k : ℕ} (hk : k < offsets.length) :
    ((tokenPacket aes p offsets).bytes.drop (headerLen + recordLen * k)).take recordLen =
      record aes (payload p) offsets[k] := by
  have hdrop : (tokenPacket aes p offsets).bytes.drop (headerLen + recordLen * k) =
      (offsets.flatMap (record aes (payload p))).drop (recordLen * k) := by
    unfold tokenPacket
    rw [← List.drop_drop, List.drop_left' (Memory.length_slice ..)]
  rw [hdrop, take_drop_flatMap (length_record aes (payload p)) hk]

/-- The records in the packets of one call are those of the marked offsets. -/
theorem seen_iff {sent : List Sent} (h : Tokenized aes dividers p sent) (r : List Byte) :
    Seen r sent ↔ ∃ i, tokenize (payload p) (p.length - headerLen) dividers i ∧ record aes (payload p) i = r := by
  obtain ⟨groups, rfl, -, hmem, -⟩ := h
  have hlen : ∀ g k, headerLen + recordLen * (k + 1) ≤ (tokenPacket aes p g).bytes.length ↔ k < g.length :=
    fun g k => by
    rw [length_tokenPacket]
    unfold recordLen
    omega
  unfold Seen
  constructor
  · rintro ⟨s, hs, hport, k, hk, rfl⟩
    rcases List.mem_append.1 hs with hs | hs
    · obtain ⟨g, hg, rfl⟩ := List.mem_map.1 hs
      have hk' := (hlen g k).1 hk
      exact ⟨g[k], (hmem _).1 (List.mem_flatten.2 ⟨g, hg, List.getElem_mem hk'⟩), (record_at hk').symm⟩
    · -- the packet itself goes to the other output
      rw [List.mem_singleton.1 hs] at hport
      cases hport
  · rintro ⟨i, hi, rfl⟩
    obtain ⟨g, hg, hig⟩ := List.mem_flatten.1 ((hmem i).2 hi)
    obtain ⟨k, hk, rfl⟩ := List.getElem_of_mem hig
    exact ⟨_, List.mem_append_left _ (List.mem_map_of_mem hg), rfl, k, (hlen g k).2 hk, record_at hk⟩

/-- Over every run of the element with its own key: a record is seen in the packets of a call exactly
when it is the first five bytes that the standard's cipher gives for the window at a marked offset of
the packet. -/
theorem run_seen (held : AesNi.AesKey) (dividers : Int → Bool) {fuel : Nat} (hfuel : poolSize < fuel)
    {ps : List Packet} (hps : ∀ p ∈ ps, Admitted p) :
    ∃ calls, run (tokenAes held) dividers fuel Pool.init ps = some calls ∧
      List.Forall₂ (fun p call => ∀ r, Seen r call.1 ↔
        ∃ i, tokenize (payload p) (p.length - headerLen) dividers i ∧ tokenRecord (paddedWindow (payload p) i) = r)
        ps calls := by
  obtain ⟨calls, hrun, hcalls⟩ := run_admitted (tokenAes held) dividers hfuel Pool.init_ready hps
  refine ⟨calls, hrun, hcalls.imp fun p call h r => ?_⟩
  rw [seen_iff h.1]
  unfold record tokenRecord
  simp only [tokenAes_eq]

theorem run_seen_slash :
    ∃ calls, run (tokenAes AesNi.zeroKey) (· ∈ dividerChars) 1501 Pool.init [slashPacket] = some calls ∧
    List.Forall₂ (fun p call => ∀ r, Seen r call.1 ↔ ∃ i,
      tokenize (payload p) (p.length - headerLen) (· ∈ dividerChars) i ∧
      tokenRecord (paddedWindow (payload p) i) = r) [slashPacket] calls := by
  refine run_seen AesNi.zeroKey (· ∈ dividerChars) (by decide) fun p hp => ?_
  rw [List.mem_singleton.1 hp]
  exact slashPacket_admitted

end MBArkDPI

end Dpi

end Embark
