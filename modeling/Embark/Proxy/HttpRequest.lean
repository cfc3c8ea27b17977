/-
`MBArkProxy`: finding the HTTP payload of a packet, `parse_http_req`, and the rewriting of the
payload: the length of the encrypted url, the length of the rest, the encrypted url, and the rest
of the payload in place. A failing assertion and undefined behaviour are `none`.
-/
import Embark.Net.Packet

namespace Embark

namespace MBArkProxy

/-- `strncmp(s, t, n) == 0` for a literal `t` of `n` characters. -/
def startsWith (m : Memory) (s : Nat) (t : List Byte) : Bool := m.slice s t.length == t

/-- `"GET "`. -/
def getLit : List Byte := [0x47, 0x45, 0x54, 0x20]

/-- `"Host: "`. -/
def hostLit : List Byte := [0x48, 0x6f, 0x73, 0x74, 0x3a, 0x20]

/-- The first of the next `n` characters from `q` on that is a space, or the end. -/
def findSpace (m : Memory) : Nat → Nat → Nat
  | 0, q => q
  | n + 1, q => if m q = 0x20 then q else findSpace m n (q + 1)

/-- The states 0 to 4 of the header scanner. -/
inductive HeaderState
  | host
  | value
  | line
  | valueEnd
  | lineEnd
deriving DecidableEq, Repr

/-- The header scanner from `s` to `e`, with `url_start` (`none` for the null pointer): the value
of the Host header as `url_start` and `url_end`, or `none` when the scan ends without `url_end`.
Each round moves `s` on, so `e - data` rounds reach the end. -/
def scanHeaders (m : Memory) (e : Nat) : Nat → Nat → HeaderState → Option Nat → Option (Option Nat × Nat)
  | 0, _, _, _ => none
  | n + 1, s, state, urlStart =>
    if s < e then
      match state with
      | .host =>
        if startsWith m s hostLit then scanHeaders m e n (s + 6) .value (some (s + 6))
        else scanHeaders m e n (s + 6) .line urlStart
      | .value => scanHeaders m e n (s + 1) (if m s = 0x0d then .valueEnd else .value) urlStart
      | .line =>
        -- the case falls through into that of state 3, which a line feed ends
        if m s = 0x0a then some (urlStart, s - 1)
        else scanHeaders m e n (s + 1) (if m s = 0x0d then .lineEnd else .line) urlStart
      | .valueEnd => if m s = 0x0a then some (urlStart, s - 1) else scanHeaders m e n (s + 1) .valueEnd urlStart
      | .lineEnd => scanHeaders m e n (s + 1) (if m s = 0x0a then .host else .lineEnd) urlStart
    else none

/-- `parse_http_req`: the url, or `some none` where it returns false. Appending a range that
starts at the null pointer is undefined. -/
def parseHttpReq (m : Memory) (data len : Nat) : Option (Option (List Byte)) :=
  if startsWith m data getLit then
    let p := data + 4
    let e := data + len
    let q := findSpace m (e - p) p
    if q = e then some none
    else if p < q then
      let target := m.slice p (q - p)
      if m p = 0x2f then
        match scanHeaders m e len data .host none with
        | none => some none
        | some (none, _) => none
        | some (some urlStart, urlEnd) => some (some (m.slice urlStart (urlEnd - urlStart) ++ target))
      else some (some target)
    else none
  else some none

/-- Where `push` finds the TCP header and how long it takes the payload to be: for IPv6, with one
destination-options header (`ext_hdr`, 56 bytes) or none, and for IPv4. -/
def tcpHeader (m : Memory) : Option (Option (Nat × Int)) :=
  let thOff (tcp : Nat) : Int := ((m (tcp + 12)) >>> 4).toNat
  let plen : Int := (ntohs (m.load 16 4)).toNat
  let len : Int := (ntohs (m.load 16 2)).toNat
  if ipV m 0 = 6 then
    if ip6Nxt m 0 = 60 then
      let tcp := 40 + 56
      -- `assert(option->hdr_ext_len == 6)`
      if m 41 = 6 then some (some (tcp, plen - thOff tcp * 4 - 56)) else none
    else if ip6Nxt m 0 = 6 then some (some (40, plen - thOff 40 * 4))
    else some none
  else if ipV m 0 = 4 then
    if ipP m 0 = 6 then
      let tcp := ipHl m 0 * 4
      some (some (tcp, len - ipHl m 0 * 4 - thOff tcp * 4))
    else some none
  else some none

/-- The payload `push` works on, as its offset and length. -/
def payload (m : Memory) : Option (Option (Nat × Nat)) :=
  match tcpHeader m with
  | none => none
  | some none => some none
  | some (some (tcp, dataLen)) =>
    if ntohs (m.load 16 (tcp + 2)) = 80 ∧ 0 < dataLen then
      some (some (tcp + ((m (tcp + 12)) >>> 4).toNat * 4, dataLen.toNat))
    else some none

/-- The rewriting of a payload with the url `url`, encrypted by `enc`: the copy of `buffer`, of
2048 bytes, over its start. -/
def rewritePayload (enc : List Byte → List Byte) (m : Memory) (pData dataLen : Nat) (url : List Byte) :
    Option Memory :=
  let cipher := enc url
  if cipher.length + 8 ≤ 2048 ∧ cipher.length + 8 ≤ dataLen then
    some (m.writeBytes pData (toLE 4 cipher.length ++ toLE 4 (dataLen - cipher.length - 8) ++ cipher))
  else none

/-- What `push` does to the payload before it updates the checksum: `some none` where the payload
is not a request. -/
def rewriteRequest (enc : List Byte → List Byte) (m : Memory) (pData dataLen : Nat) : Option (Option Memory) :=
  match parseHttpReq m pData dataLen with
  | none => none
  | some none => some none
  | some (some url) => (rewritePayload enc m pData dataLen url).map some

theorem rewriteRequest_some {enc : List Byte → List Byte} {m m' : Memory} {pData dataLen : Nat} {url : List Byte}
    (hparse : parseHttpReq m pData dataLen = some (some url))
    (h : rewriteRequest enc m pData dataLen = some (some m')) : rewritePayload enc m pData dataLen url = some m' := by
  unfold rewriteRequest at h
  rw [hparse] at h
  simpa using h

end MBArkProxy

end Embark
