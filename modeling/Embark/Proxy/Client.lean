/-
`handleClient` as a whole: what it does with the url that it reads off a connection, and what it
comes to. A panic in one handler ends the process, and so does `checkError` by `log.Fatal`, whose
callers go on where it returns 0 for an error.
-/
import Embark.Proxy.Codec

namespace Embark

namespace Proxy

/-! ## The handler -/

/-- What ends the process: a panic or `log.Fatal`. -/
inductive Stop
  | panic
  | fatal (message : String)
deriving DecidableEq, Repr

/-- `checkError` on the text of an error. -/
def checkError : Option String → Except Stop Int
  | none => .ok 1
  | some err => if err = "EOF" then .ok 0 else .error (.fatal ("Unknown Error!" ++ err))

/-- The use of a pointer, which panics if it is nil. -/
def deref {α : Type} : Option α → Except Stop α
  | none => .error .panic
  | some a => .ok a

/-- What the handler calls: the CFB decrypter with a zero key and a zero IV, `http.NewRequest`,
`Header.Add`, `client.Do` and `httputil.DumpResponse` with the body, with the texts of their errors. -/
structure Library (Request Response : Type) where
  decrypt : List Byte → List Byte
  newRequest : String → List Byte → Option Request × Option String
  addHeader : String → String → Request → Request
  clientDo : Request → Option Response × Option String
  dumpResponse : Response → List Byte × Option String

/-- A connection: the error of `SetNoDelay`, the bytes that each read may return, and the stream. -/
structure Connection where
  noDelay : Option String
  cut : Nat → Nat
  stream : List Byte

/-- The responses by their urls. -/
abbrev Cache := List Byte → Option (List Byte)

/-- `http://`. -/
def scheme : List Byte := [0x68, 0x74, 0x74, 0x70, 0x3a, 0x2f, 0x2f]

section Handler

variable {Request Response : Type} (lib : Library Request Response)

/-- The response to a url that is not in the cache. `DumpResponse` looks at its argument at once. -/
def fetch (url : List Byte) : Except Stop (List Byte) := do
  let (request, err) := lib.newRequest "GET" (scheme ++ url)
  let _ ← checkError err
  let request ← deref request
  let (response, err) := lib.clientDo (lib.addHeader "Accept-Encoding" "gzip" request)
  let _ ← checkError err
  let response ← deref response
  let (dump, err) := lib.dumpResponse response
  let _ ← checkError err
  return dump

/-- All of `handleClient`: the cache after it, and what is written to the connection. -/
def handleClientConn (cache : Cache) (conn : Connection) : Except Stop (Cache × List Byte) := do
  let _ ← checkError conn.noDelay
  match handleClient lib.decrypt conn.cut conn.stream with
  | .closed => return (cache, [])
  | .panic => throw .panic
  | .request url _ =>
    match cache url with
    | some data => return (cache, data)
    | none =>
      let data ← fetch lib url
      return (Function.update cache url (some data), data)

end Handler

/-! ## Connections that stop nothing -/

/-- An error that `checkError` returns from. -/
def Tolerated (err : Option String) : Prop := err = none ∨ err = some "EOF"

/-- The calls for a url return no other errors, and no nil pointers that are used. -/
def Fetched {Request Response : Type} (lib : Library Request Response) (url : List Byte) : Prop :=
  ∃ request response errBuild errDo, lib.newRequest "GET" (scheme ++ url) = (some request, errBuild) ∧
    Tolerated errBuild ∧ lib.clientDo (lib.addHeader "Accept-Encoding" "gzip" request) = (some response, errDo) ∧
    Tolerated errDo ∧
    Tolerated (lib.dumpResponse response).2

namespace Connection

variable (conn : Connection)

/-- One of the two length fields that the first read gets is negative. -/
def NegativeLength : Prop := ∃ buf rest, connRead (conn.cut 0) conn.stream 8 = some (buf, rest) ∧
  (readInt32 (buf.take 4) < 0 ∨ readInt32 (buf.drop 4) < 0)

/-- The second read gets a url, and the third one meets no end of the stream. -/
def Asks (dec : List Byte → List Byte) (url : List Byte) : Prop :=
  ∃ buf rest crypt left, connRead (conn.cut 0) conn.stream 8 = some (buf, rest) ∧
    (connRead (conn.cut 1) rest (readInt32 (buf.take 4)).toNat).getD
      (List.replicate (readInt32 (buf.take 4)).toNat 0, rest) = (crypt, left) ∧
    (connRead (conn.cut 2) left (readInt32 (buf.drop 4)).toNat).isSome ∧ url = dec crypt

end Connection

/-- The connection is set up, sends no negative length, and asks for no url that is neither in the
cache nor fetched without an error. -/
structure Harmless {Request Response : Type} (lib : Library Request Response) (cache : Cache) (conn : Connection) :
    Prop where
  noDelay : Tolerated conn.noDelay
  lengths : ¬ conn.NegativeLength
  fetched : ∀ url, conn.Asks lib.decrypt url → cache url = none → Fetched lib url

/-! ## The calls -/

theorem exists_bind_ok {ε α β : Type} {x : Except ε α} {f : α → Except ε β} :
    (∃ b, x >>= f = .ok b) ↔ ∃ a, x = .ok a ∧ ∃ b, f a = .ok b := by
  cases x with
  | error e =>
    constructor
    · rintro ⟨_, h⟩
      cases h
    · rintro ⟨_, h, -⟩
      cases h
  | ok a =>
    constructor
    · rintro ⟨b, h⟩
      exact ⟨a, rfl, b, h⟩
    · rintro ⟨_, ha, b, h⟩
      cases ha
      exact ⟨b, h⟩

theorem exists_checkError {err : Option String} : (∃ n, checkError err = .ok n) ↔ Tolerated err := by
  unfold Tolerated
  cases err with
  | none => exact iff_of_true ⟨1, rfl⟩ (.inl rfl)
  | some err =>
    have hcheck : checkError (some err) =
        if err = "EOF" then .ok 0 else .error (.fatal ("Unknown Error!" ++ err)) := rfl
    rw [hcheck]
    by_cases heof : err = "EOF"
    · rw [if_pos heof, heof]
      exact iff_of_true ⟨0, rfl⟩ (.inr rfl)
    · rw [if_neg heof]
      constructor
      · rintro ⟨_, h⟩
        cases h
      · rintro (h | h)
        · cases h
        · exact absurd (Option.some.inj h) heof

theorem deref_eq_ok {α : Type} {p : Option α} {a : α} : deref p = .ok a ↔ p = some a := by
  cases p with
  | none =>
    constructor
    · intro h
      cases h
    · intro h
      cases h
  | some b =>
    unfold deref
    rw [Except.ok.injEq, Option.some.injEq]

section Outcomes

variable {Request Response : Type} {lib : Library Request Response} {cache : Cache} {conn : Connection}

theorem exists_checked {err : Option String} {β : Type} {f : Int → Except Stop β} (hf : ∀ n n', f n = f n') :
    (∃ b, checkError err >>= f = .ok b) ↔ Tolerated err ∧ ∃ b, f 1 = .ok b := by
  rw [exists_bind_ok, ← exists_checkError]
  constructor
  · rintro ⟨n, hn, hb⟩
    exact ⟨⟨n, hn⟩, by rwa [hf 1 n]⟩
  · rintro ⟨⟨n, hn⟩, hb⟩
    exact ⟨n, hn, by rwa [hf n 1]⟩

theorem exists_fetch {url : List Byte} : (∃ data, fetch lib url = .ok data) ↔ Fetched lib url := by
  unfold fetch Fetched
  rcases hbuild : lib.newRequest "GET" (scheme ++ url) with ⟨request, errBuild⟩
  simp only
  rw [exists_checked fun _ _ => rfl, exists_bind_ok]
  simp only [deref_eq_ok]
  constructor
  · rintro ⟨hb, request, rfl, data, hdata⟩
    rcases hdo : lib.clientDo (lib.addHeader "Accept-Encoding" "gzip" request) with ⟨response, errDo⟩
    simp only [hdo] at hdata
    have hrest := (exists_checked fun _ _ => rfl).1 ⟨data, hdata⟩
    rw [exists_bind_ok] at hrest
    obtain ⟨hd, response, hresponse, hdump⟩ := hrest
    rw [deref_eq_ok] at hresponse
    rw [exists_checked fun _ _ => rfl] at hdump
    exact ⟨request, response, errBuild, errDo, rfl, hb, by rw [hdo, hresponse], hd, hdump.1⟩
  · rintro ⟨request, response, _, errDo, heq, hb, hdo, hd, hdump⟩
    cases heq
    refine ⟨hb, request, rfl, ?_⟩
    simp only [hdo]
    rw [exists_checked fun _ _ => rfl, exists_bind_ok]
    refine ⟨hd, response, rfl, ?_⟩
    rw [exists_checked fun _ _ => rfl]
    exact ⟨hdump, _, rfl⟩

/-- `make` panics on a negative length of either buffer. -/
theorem handleClient_eq_panic (dec : List Byte → List Byte) :
    handleClient dec conn.cut conn.stream = .panic ↔ conn.NegativeLength := by
  unfold handleClient Connection.NegativeLength
  cases hread : connRead (conn.cut 0) conn.stream 8 with
  | none =>
    constructor
    · intro h
      cases h
    · rintro ⟨_, _, h, -⟩
      cases h
  | some r =>
    obtain ⟨buf, rest⟩ := r
    simp only [Option.some.injEq, Prod.mk.injEq]
    by_cases hlen : readInt32 (buf.take 4) < 0
    · simp [hlen]
    · rw [if_neg hlen]
      by_cases htotal : readInt32 (buf.drop 4) < 0
      · simp [htotal]
      · rw [if_neg htotal]
        split
        · simp [hlen, htotal]
        · simp [hlen, htotal]

/-- Without negative lengths a url is handed on exactly when it is asked for. -/
theorem exists_request {dec : List Byte → List Byte} (h : ¬ conn.NegativeLength) (url : List Byte) :
    (∃ n, handleClient dec conn.cut conn.stream = .request url n) ↔ conn.Asks dec url := by
  unfold handleClient Connection.Asks
  unfold Connection.NegativeLength at h
  cases hread : connRead (conn.cut 0) conn.stream 8 with
  | none =>
    constructor
    · rintro ⟨_, h⟩
      cases h
    · rintro ⟨_, _, _, _, h, -⟩
      cases h
  | some r =>
    obtain ⟨buf, rest⟩ := r
    simp only [hread, Option.some.injEq, Prod.mk.injEq, not_exists, not_and, not_or] at h
    obtain ⟨hlen, htotal⟩ := h buf rest ⟨rfl, rfl⟩
    simp only [if_neg hlen, if_neg htotal, Option.some.injEq, Prod.mk.injEq]
    rcases hcrypt : (connRead (conn.cut 1) rest (readInt32 (buf.take 4)).toNat).getD
      (List.replicate (readInt32 (buf.take 4)).toNat 0, rest) with ⟨crypt, left⟩
    simp only
    constructor
    · rintro ⟨n, hn⟩
      refine ⟨buf, rest, crypt, left, ⟨rfl, rfl⟩, hcrypt, ?_⟩
      cases hthird : connRead (conn.cut 2) left (readInt32 (buf.drop 4)).toNat with
      | none =>
        rw [hthird] at hn
        cases hn
      | some r =>
        rw [hthird] at hn
        cases hn
        exact ⟨rfl, rfl⟩
    · rintro ⟨_, _, _, _, ⟨rfl, rfl⟩, hcrypt', hthird, rfl⟩
      rw [hcrypt] at hcrypt'
      cases hcrypt'
      obtain ⟨r, hr⟩ := Option.isSome_iff_exists.1 hthird
      rw [hr]
      exact ⟨_, rfl⟩

/-- A connection that is closed early is harmless once it is set up. -/
theorem harmless_iff_of_closed (hread : handleClient lib.decrypt conn.cut conn.stream = .closed) :
    Harmless lib cache conn ↔ Tolerated conn.noDelay := by
  have hneg : ¬ conn.NegativeLength := by
    rw [← handleClient_eq_panic lib.decrypt, hread]
    intro h
    cases h
  constructor
  · intro h
    exact h.noDelay
  · intro hdelay
    refine ⟨hdelay, hneg, fun url hasks => ?_⟩
    obtain ⟨n, hn⟩ := (exists_request hneg url).2 hasks
    rw [hread] at hn
    cases hn

/-- Of a request it depends on the one url. -/
theorem harmless_iff_of_request {url : List Byte} {n : Nat}
    (hread : handleClient lib.decrypt conn.cut conn.stream = .request url n) :
    Harmless lib cache conn ↔ Tolerated conn.noDelay ∧ (cache url = none → Fetched lib url) := by
  have hneg : ¬ conn.NegativeLength := by
    rw [← handleClient_eq_panic lib.decrypt, hread]
    intro h
    cases h
  constructor
  · intro h
    exact ⟨h.noDelay, h.fetched url ((exists_request hneg url).1 ⟨n, hread⟩)⟩
  · rintro ⟨hdelay, hfetch⟩
    refine ⟨hdelay, hneg, fun url' hasks => ?_⟩
    obtain ⟨n', hn'⟩ := (exists_request hneg url').2 hasks
    rw [hread] at hn'
    cases hn'
    exact hfetch

/-- The handler ends its connection and nothing else exactly when the connection is harmless. -/
theorem handleClientConn_isOk_iff : (∃ r, handleClientConn lib cache conn = .ok r) ↔ Harmless lib cache conn := by
  unfold handleClientConn
  rw [exists_checked fun _ _ => rfl]
  cases hread : handleClient lib.decrypt conn.cut conn.stream with
  | closed =>
    rw [harmless_iff_of_closed hread]
    exact and_iff_left ⟨_, rfl⟩
  | panic =>
    constructor
    · rintro ⟨-, _, h⟩
      cases h
    · intro h
      exact absurd ((handleClient_eq_panic lib.decrypt).1 hread) h.lengths
  | request url n =>
    rw [harmless_iff_of_request hread]
    refine and_congr_right fun _ => ?_
    simp only
    cases hcache : cache url with
    | some data =>
      refine iff_of_true ⟨_, rfl⟩ fun h => ?_
      cases h
    | none =>
      simp only [true_imp_iff]
      rw [exists_bind_ok, ← exists_fetch]
      exact exists_congr fun data => and_iff_left ⟨_, rfl⟩

end Outcomes

/-! ## One client -/

/-- A proxy whose name server knows no host. -/
def offline : Library (List Byte) (List Byte) where
  decrypt := cfbBlock
  newRequest _ url := (some url, none)
  addHeader _ _ request := request
  clientDo _ := (none, some "no such host")
  dumpResponse response := (response, none)

/-- Eight bytes, the first four of them the length -1, make the process panic; a request for `b.com/`
ends it by `log.Fatal`. -/
theorem client_stops_proxy :
    handleClientConn offline (fun _ => none) ⟨none, fun _ => 1460, toLE 4 0xffffffff ++ toLE 4 0⟩ =
        .error .panic ∧
      handleClientConn offline (fun _ => none) ⟨none, fun _ => 1460, toLE 4 6 ++ toLE 4 0 ++ cfbBlock requestUrl⟩ =
        .error (.fatal "Unknown Error!no such host") := by
  constructor
  · rfl
  · rfl

end Proxy

end Embark
