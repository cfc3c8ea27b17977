/-
The codec between the gateway's `MBArkProxy` and `handleClient` of the proxy. Each `conn.Read`
fills at most its buffer and may return less; `handleClient` never reads on, so it decodes what the
gateway wrote exactly when its three reads return all they asked for.
-/
import Embark.Proxy.HttpRequest
import Mathlib.Data.List.Forall2

namespace Embark

namespace Proxy

/-- `conn.Read` into a zeroed buffer of `n` bytes, where the connection hands over at most `cut`
bytes: the buffer and the rest of the stream, or `none` for an error at its end. -/
def connRead (cut : Nat) (stream : List Byte) (n : Nat) : Option (List Byte × List Byte) :=
  if n = 0 then some ([], stream)
  else if stream = [] then none
  else
    let k := min n (min cut stream.length)
    some (stream.take k ++ List.replicate (n - k) 0, stream.drop k)

/-- `binary.Read` of a little-endian `int32`. -/
def readInt32 (buf : List Byte) : Int := (BitVec.ofNat 32 (ofLE buf)).toInt

/-- What the first part of `handleClient` comes to: the connection closed, a panic of `make` on a
negative length, or the decrypted url with the number of bytes taken from the stream. -/
inductive ClientRead
  | closed
  | panic
  | request (url : List Byte) (consumed : Nat)
deriving DecidableEq, Repr

/-- `handleClient` up to the cache: the bytes that read number `i` may return are `cut i`. An
error of the second read is overwritten by that of the third. -/
def handleClient (dec : List Byte → List Byte) (cut : Nat → Nat) (stream : List Byte) : ClientRead :=
  match connRead (cut 0) stream 8 with
  | none => .closed
  | some (buf, stream₁) =>
    let length := readInt32 (buf.take 4)
    let totalLen := readInt32 (buf.drop 4)
    if length < 0 then .panic
    else
      let crypt := (connRead (cut 1) stream₁ length.toNat).getD (List.replicate length.toNat 0, stream₁)
      let url := dec crypt.1
      if totalLen < 0 then .panic
      else match connRead (cut 2) crypt.2 totalLen.toNat with
        | none => .closed
        | some (_, stream₃) => .request url (stream.length - stream₃.length)

/-! ## Reads -/

section Reads

variable {cut n : Nat} {stream buf rest : List Byte}

/-- A read takes some number of bytes, up to the buffer's size and the cut. -/
theorem connRead_some (h : connRead cut stream n = some (buf, rest)) :
    ∃ k, k ≤ n ∧ k ≤ cut ∧ k ≤ stream.length ∧
    buf = stream.take k ++ List.replicate (n - k) 0 ∧ rest = stream.drop k := by
  unfold connRead at h
  split at h
  · rename_i hn
    cases h
    exact ⟨0, by omega, by omega, by omega, by simp [hn], rfl⟩
  · split at h
    · cases h
    · cases h
      exact ⟨_, by omega, by omega, by omega, rfl, rfl⟩

/-- A read whose error is ignored takes some number of bytes as well. -/
theorem connRead_getD (cut n : Nat) (stream unread : List Byte) : ∃ k, k ≤ n ∧ k ≤ cut ∧
    ((connRead cut stream n).getD (unread, stream)).2 = stream.drop k := by
  cases hr : connRead cut stream n with
  | none => exact ⟨0, by omega, by omega, rfl⟩
  | some r =>
    obtain ⟨k, hk, hc, -, -, he⟩ := connRead_some hr
    exact ⟨k, hk, hc, he⟩

theorem connRead_full (hc : n ≤ cut) (hs : n ≤ stream.length) :
    connRead cut stream n = some (stream.take n, stream.drop n) := by
  unfold connRead
  by_cases hn : n = 0
  · simp [hn]
  · have hne : stream ≠ [] := by
      rintro rfl
      rw [List.length_nil] at hs
      omega
    have hk : min n (min cut stream.length) = n := by omega
    rw [if_neg hn, if_neg hne]
    simp [hk]

/-- A buffer filled in part is no greater, byte by byte, than the bytes of the stream. -/
theorem filled_le {k : Nat} (hk : k ≤ n) (hn : n ≤ stream.length) :
    List.Forall₂ (fun x y : Byte => x.toNat ≤ y.toNat) (stream.take k ++ List.replicate (n - k) 0)
      (stream.take n) := by
  have hsplit : stream.take n = stream.take k ++ (stream.drop k).take (n - k) := by
    rw [← List.take_append_drop k (stream.take n), List.take_take, List.drop_take, Nat.min_eq_left hk]
  rw [hsplit]
  refine List.rel_append (List.forall₂_same.2 fun _ _ => le_rfl) ?_
  refine List.forall₂_iff_get.2 ⟨by simp; omega, fun i h1 h2 => ?_⟩
  rw [List.get_eq_getElem, List.getElem_replicate]
  exact Nat.zero_le _

/-- Non-negative lengths are read as they are. -/
theorem readInt32_of_lt (h : ofLE buf < 2 ^ 31) : readInt32 buf = ofLE buf := by
  have hnat : (BitVec.ofNat 32 (ofLE buf)).toNat = ofLE buf := by
    rw [BitVec.toNat_ofNat, Nat.mod_eq_of_lt (by omega)]
  unfold readInt32
  rw [BitVec.toInt_eq_toNat_of_lt (by rw [hnat]; omega), hnat]

end Reads

/-! ## The codec -/

/-- The two length fields, the ciphertext and the rest of a rewritten payload. -/
structure Rewritten (payload cipher : List Byte) : Prop where
  fits : cipher.length + 8 ≤ payload.length
  isInt : payload.length < 2 ^ 31
  head : payload.take (8 + cipher.length) =
    toLE 4 cipher.length ++ toLE 4 (payload.length - cipher.length - 8) ++ cipher

section Rewritten

variable {payload cipher : List Byte}

theorem Rewritten.take_eight (h : Rewritten payload cipher) :
    payload.take 8 = toLE 4 cipher.length ++ toLE 4 (payload.length - cipher.length - 8) := by
  have hhead := congrArg (List.take 8) h.head
  rw [List.take_take, Nat.min_eq_left (by omega), List.take_append_of_le_length (by simp)] at hhead
  rw [hhead, List.take_of_length_le (by simp)]

theorem Rewritten.take_drop (h : Rewritten payload cipher) : (payload.drop 8).take cipher.length = cipher := by
  have hhead := congrArg (List.drop 8) h.head
  rw [List.drop_take, Nat.add_sub_cancel_left] at hhead
  rw [hhead, List.drop_left' (by simp)]

end Rewritten

/-- The length fields of a header of which only the first `k` bytes were read: at most the fields
that were sent, and these when all were read. -/
theorem header_le {payload cipher : List Byte} (h : Rewritten payload cipher) (after : List Byte) {k : Nat}
    (hk : k ≤ 8) :
    let buf := (payload ++ after).take k ++ List.replicate (8 - k) 0
    ofLE (buf.take 4) ≤ cipher.length ∧ ofLE (buf.drop 4) ≤ payload.length - cipher.length - 8 := by
  have hfits := h.fits
  have hint := h.isInt
  have height : (payload ++ after).take 8 = payload.take 8 := List.take_append_of_le_length (by omega)
  have hlen : 8 ≤ (payload ++ after).length := by
    rw [List.length_append]
    omega
  have hle := filled_le hk hlen
  rw [height, h.take_eight] at hle
  -- byte by byte the buffer is at most the header, so each field is
  have h4 : ∀ x, x < 2 ^ 31 → ofLE (toLE 4 x) = x := fun x hx => by
    rw [ofLE_toLE, Nat.mod_eq_of_lt (by omega)]
  have htake : ∀ x y, (toLE 4 x ++ toLE 4 y).take 4 = toLE 4 x := fun x y => List.take_left' (length_toLE 4 x)
  have hdrop : ∀ x y, (toLE 4 x ++ toLE 4 y).drop 4 = toLE 4 y := fun x y => List.drop_left' (length_toLE 4 x)
  constructor
  · have hfirst := ofLE_le (List.forall₂_take 4 hle)
    rwa [htake, h4 _ (by omega)] at hfirst
  · have hsecond := ofLE_le (List.forall₂_drop 4 hle)
    rwa [hdrop, h4 _ (by omega)] at hsecond

/-- All three reads return what they are asked for. -/
def FullReads (cut : Nat → Nat) (payload cipher : List Byte) : Prop :=
  8 ≤ cut 0 ∧ cipher.length ≤ cut 1 ∧ payload.length - cipher.length - 8 ≤ cut 2

/-- With full reads the client decrypts the ciphertext and takes the whole payload. -/
theorem handleClient_full {payload cipher : List Byte} (h : Rewritten payload cipher) (dec : List Byte → List Byte)
    {cut : Nat → Nat} (hc : FullReads cut payload cipher) (after : List Byte) :
    handleClient dec cut (payload ++ after) = .request (dec cipher) payload.length := by
  have hfits := h.fits
  have hint := h.isInt
  obtain ⟨hc0, hc1, hc2⟩ := hc
  have h8 : (payload ++ after).take 8 = toLE 4 cipher.length ++ toLE 4 (payload.length - cipher.length - 8) := by
    rw [List.take_append_of_le_length (by omega), h.take_eight]
  have hlen : readInt32 (toLE 4 cipher.length) = cipher.length := by
    rw [readInt32_of_lt (by rw [ofLE_toLE]; omega), ofLE_toLE, Nat.mod_eq_of_lt (by omega)]
  have hrem : readInt32 (toLE 4 (payload.length - cipher.length - 8)) = (payload.length - cipher.length - 8 : ℕ) := by
    rw [readInt32_of_lt (by rw [ofLE_toLE]; omega), ofLE_toLE, Nat.mod_eq_of_lt (by omega)]
  unfold handleClient
  -- the three reads in turn: header, ciphertext, rest
  rw [connRead_full hc0 (by rw [List.length_append]; omega), h8]
  simp only [List.take_left' (length_toLE 4 cipher.length), List.drop_left' (length_toLE 4 cipher.length), hlen, hrem,
    Int.toNat_natCast]
  rw [if_neg (by omega), if_neg (by omega), connRead_full hc1 (by rw [List.length_drop, List.length_append]; omega)]
  simp only [Option.getD_some]
  rw [connRead_full hc2 (by rw [List.length_drop, List.length_drop, List.length_append]; omega)]
  have hcipher : ((payload ++ after).drop 8).take cipher.length = cipher := by
    rw [List.drop_append_of_le_length (by omega), List.take_append_of_le_length (by rw [List.length_drop]; omega),
      h.take_drop]
  simp only [hcipher, List.length_drop, List.length_append]
  congr 1
  omega

/-- A client that takes exactly the payload made three full reads. -/
theorem fullReads_of_request {payload cipher : List Byte} (h : Rewritten payload cipher)
    {dec : List Byte → List Byte} {cut : Nat → Nat} {after url : List Byte}
    (hr : handleClient dec cut (payload ++ after) = .request url payload.length) : FullReads cut payload cipher := by
  have hfits := h.fits
  have hint := h.isInt
  unfold handleClient at hr
  split at hr
  · cases hr
  · rename_i buf stream₁ hread
    obtain ⟨k, hk8, hkc, hks, rfl, rfl⟩ := connRead_some hread
    obtain ⟨hl, ht⟩ := header_le h after hk8
    simp only at hr
    rw [readInt32_of_lt (by omega), readInt32_of_lt (by omega), if_neg (by omega), if_neg (by omega), Int.toNat_natCast,
      Int.toNat_natCast] at hr
    -- the second read takes at most the length it decoded, whether or not it fails
    obtain ⟨k₁, hk₁, hc₁, hs₁⟩ := connRead_getD (cut 1) _ ((payload ++ after).drop k) (List.replicate _ 0)
    rw [hs₁] at hr
    split at hr
    · cases hr
    · rename_i buf₂ stream₃ hread₂
      obtain ⟨k₂, hk₂, hc₂, hs₂, -, rfl⟩ := connRead_some hread₂
      rw [ClientRead.request.injEq] at hr
      obtain ⟨-, hsum⟩ := hr
      simp only [List.length_drop, List.length_append] at hsum hs₂ hks
      refine ⟨?_, ?_, ?_⟩ <;> omega

/-- What `push` leaves in the payload. -/
theorem rewritten_of_rewritePayload {enc : List Byte → List Byte} {m m' : Memory} {pData dataLen : Nat}
    {url : List Byte} (hint : dataLen < 2 ^ 31)
    (h : MBArkProxy.rewritePayload enc m pData dataLen url = some m') :
    Rewritten (m'.slice pData dataLen) (enc url) := by
  unfold MBArkProxy.rewritePayload at h
  simp only at h
  split at h
  · rename_i hle
    cases h
    refine ⟨by rw [Memory.length_slice]; omega, by rw [Memory.length_slice]; omega, ?_⟩
    rw [Memory.length_slice, Memory.slice_writeBytes _ (by simp; omega), List.take_left' (by simp; omega)]
  · cases h

/-- Every payload the gateway rewrites is decoded exactly when the three reads are full. -/
theorem codec_iff {enc dec : List Byte → List Byte} (hlength : ∀ m, (enc m).length = m.length)
    (hdec : ∀ m, dec (enc m) = m) {m m' : Memory} {pData dataLen : Nat} {url : List Byte} (hint : dataLen < 2 ^ 31)
    (hparse : MBArkProxy.parseHttpReq m pData dataLen = some (some url))
    (hrewrite : MBArkProxy.rewriteRequest enc m pData dataLen = some (some m')) (cut : Nat → Nat)
    (after : List Byte) :
    handleClient dec cut (m'.slice pData dataLen ++ after) = .request url dataLen ↔
      8 ≤ cut 0 ∧ url.length ≤ cut 1 ∧ dataLen - url.length - 8 ≤ cut 2 := by
  have hr := rewritten_of_rewritePayload hint (MBArkProxy.rewriteRequest_some hparse hrewrite)
  have hlen : (m'.slice pData dataLen).length = dataLen := Memory.length_slice ..
  have hiff : FullReads cut (m'.slice pData dataLen) (enc url) ↔
      8 ≤ cut 0 ∧ url.length ≤ cut 1 ∧ dataLen - url.length - 8 ≤ cut 2 := by
    unfold FullReads
    rw [hlen, hlength]
  rw [← hiff]
  constructor
  · intro h
    exact fullReads_of_request hr (by rw [hlen]; exact h)
  · intro h
    rw [handleClient_full hr dec h after, hdec, hlen]

/-! ## One request -/

/-- The encryption of the zero block by AES-256 with the all-zero key. -/
def zeroBlock : List Byte :=
  [0xdc, 0x95, 0xc0, 0x78, 0xa2, 0x40, 0x89, 0x89, 0xad, 0x48, 0xa2, 0x14, 0x92, 0x84, 0x20, 0x87]

/-- AES-256-CFB with the all-zero key and IV on texts of at most one block. -/
def cfbBlock (m : List Byte) : List Byte := m.mapIdx fun i b => b ^^^ zeroBlock[i]?.getD 0

theorem length_cfbBlock (m : List Byte) : (cfbBlock m).length = m.length := List.length_mapIdx

theorem cfbBlock_cfbBlock (m : List Byte) : cfbBlock (cfbBlock m) = m := by
  apply List.ext_getElem
  · rw [length_cfbBlock, length_cfbBlock]
  · intro i h1 h2
    simp only [cfbBlock, List.getElem_mapIdx]
    rw [BitVec.xor_assoc, BitVec.xor_self, BitVec.xor_zero]

/-- `GET b.com/ HTTP/1.1` and an empty header. -/
def request : List Byte :=
  [0x47, 0x45, 0x54, 0x20, 0x62, 0x2e, 0x63, 0x6f, 0x6d, 0x2f, 0x20, 0x48, 0x54, 0x54, 0x50, 0x2f, 0x31, 0x2e, 0x31,
    0x0d, 0x0a, 0x0d, 0x0a]

/-- `b.com/`. -/
def requestUrl : List Byte := [0x62, 0x2e, 0x63, 0x6f, 0x6d, 0x2f]

def requestMemory : Memory := fun i => request[i]?.getD 0

theorem parse_request : MBArkProxy.parseHttpReq requestMemory 0 23 = some (some requestUrl) := by decide

theorem rewrite_request : ∃ m', MBArkProxy.rewriteRequest cfbBlock requestMemory 0 23 = some (some m') := ⟨_, rfl⟩

theorem codec_iff_request : ∃ m', MBArkProxy.rewriteRequest cfbBlock requestMemory 0 23 = some (some m') ∧
    handleClient cfbBlock (fun _ => 1460) (m'.slice 0 23) = .request requestUrl 23 := by
  obtain ⟨m', hm'⟩ := rewrite_request
  have h := (codec_iff length_cfbBlock cfbBlock_cfbBlock (by decide) parse_request hm' (fun _ => 1460) []).2 (by decide)
  rw [List.append_nil] at h
  exact ⟨m', hm', h⟩

/-- The first read returns four of the eight header bytes: the client does not recover the url
from the payload. -/
theorem header_cut : ∃ m', MBArkProxy.rewriteRequest cfbBlock requestMemory 0 23 = some (some m') ∧
    (∀ m, cfbBlock (cfbBlock m) = m) ∧
    handleClient cfbBlock (fun i => if i = 0 then 4 else 1460) (m'.slice 0 23) ≠ .request requestUrl 23 := by
  obtain ⟨m', hm'⟩ := rewrite_request
  refine ⟨m', hm', cfbBlock_cfbBlock, fun h => ?_⟩
  have hr := rewritten_of_rewritePayload (by decide) (MBArkProxy.rewriteRequest_some parse_request hm')
  have hfull : FullReads _ _ _ := fullReads_of_request hr (by
    rw [List.append_nil, Memory.length_slice]
    exact h)
  exact absurd hfull.1 (by decide)

end Proxy

end Embark
