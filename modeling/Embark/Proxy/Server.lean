/-
`startProxy`: a handler for every connection, all over one cache. The handlers take turns in any order,
and the network may answer every request differently. An access to the map of the cache takes two
turns. The locks of `Get` and `Put` are commented out, so nothing keeps a write from overlapping
another access; what happens then Go leaves open, and a run ends there. Accesses that do not overlap
take effect one after the other.
-/
import Embark.Proxy.Client

namespace Embark

namespace Proxy

/-! ## Handlers -/

/-- How far `handleClient` has come: before its reads, before `Get`, in the read of the map, before the
request, before `Put`, in the write to the map, before `Write`, and closed with what it has written. -/
inductive Handler
  | accepted (conn : Connection)
  | asked (url : List Byte)
  | getting (url : List Byte)
  | missed (url : List Byte)
  | fetched (url data : List Byte)
  | putting (url data : List Byte)
  | answering (data : List Byte)
  | closed (answer : List Byte)

/-- The next turn of a handler begins an access to the map while another handler is in one, and one of
the two writes. -/
def Handler.clashes : Handler → Handler → Bool
  | asked _, putting _ _ => true
  | fetched _ _, getting _ => true
  | fetched _ _, putting _ _ => true
  | _, _ => false

/-- What ends a run: what ends the process, or a write that overlaps another access to the map. -/
inductive Halt
  | stop (reason : Stop)
  | race
deriving DecidableEq, Repr

/-- `startProxy`: the cache, and the handlers in the order in which their connections were accepted. -/
structure Server where
  cache : Cache
  handlers : List Handler

/-- The server before the first connection. -/
def Server.start : Server := ⟨fun _ => none, []⟩

/-- The outcome of `client.Do` at some time. -/
abbrev Network (Request Response : Type) := Request → Option Response × Option String

/-- What happens next: a connection is accepted, or the handler with a number goes on. -/
inductive Event (Request Response : Type)
  | accept (conn : Connection)
  | turn (i : Nat) (net : Network Request Response)

section Steps

variable {Request Response : Type} (lib : Library Request Response)

/-- The library over a network. -/
def Library.over (net : Network Request Response) : Library Request Response := { lib with clientDo := net }

/-- One turn of a handler. -/
def Handler.step (net : Network Request Response) (cache : Cache) : Handler → Except Stop (Cache × Handler)
  | accepted conn => do
    let _ ← checkError conn.noDelay
    match handleClient lib.decrypt conn.cut conn.stream with
    | .closed => return (cache, closed [])
    | .panic => throw .panic
    | .request url _ => return (cache, asked url)
  | asked url => return (cache, getting url)
  | getting url =>
    match cache url with
    | some data => return (cache, answering data)
    | none => return (cache, missed url)
  | missed url => do
    let data ← fetch (lib.over net) url
    return (cache, fetched url data)
  | fetched url data => return (cache, putting url data)
  | putting url data => return (Function.update cache url (some data), answering data)
  | answering data => return (cache, closed data)
  | closed answer => return (cache, closed answer)

def Server.step (s : Server) : Event Request Response → Except Halt Server
  | .accept conn => return { s with handlers := s.handlers ++ [.accepted conn] }
  | .turn i net =>
    match s.handlers[i]? with
    | none => return s
    | some h =>
      if s.handlers.any h.clashes then throw .race
      else do
        let (cache, h') ← (h.step lib net s.cache).mapError .stop
        return ⟨cache, s.handlers.set i h'⟩

/-- A run. -/
def Server.run (s : Server) : List (Event Request Response) → Except Halt Server
  | [] => return s
  | e :: es => do
    let s ← s.step lib e
    run s es

/-- The connections one after the other, each handled to its end: the cache after them, and the answers. -/
def serveAll (cache : Cache) : List Connection → Except Stop (Cache × List (List Byte))
  | [] => return (cache, [])
  | conn :: conns => do
    let (cache, answer) ← handleClientConn lib cache conn
    let (cache, answers) ← serveAll cache conns
    return (cache, answer :: answers)

end Steps

/-- The connections accepted in a run. -/
def accepted {Request Response : Type} (es : List (Event Request Response)) : List Connection :=
  es.filterMap fun
    | .accept conn => some conn
    | .turn _ _ => none

/-- The turns of one handler. -/
def turns {Request Response : Type} (i : Nat) (es : List (Event Request Response)) : Nat :=
  es.countP fun
    | .accept _ => false
    | .turn j _ => i == j

/-! ## Runs -/

section Runs

variable {Request Response : Type} {lib : Library Request Response} {s s' : Server}
  {es es' : List (Event Request Response)} {e : Event Request Response}

theorem bind_eq_ok {ε α β : Type} {x : Except ε α} {f : α → Except ε β} {b : β} :
    x >>= f = .ok b ↔ ∃ a, x = .ok a ∧ f a = .ok b := by
  cases x with
  | error e =>
    constructor
    · intro h
      cases h
    · rintro ⟨_, h, -⟩
      cases h
  | ok a =>
    constructor
    · intro h
      exact ⟨a, rfl, h⟩
    · rintro ⟨_, h, hf⟩
      cases h
      exact hf

theorem mapError_eq_ok {ε ε' α : Type} {f : ε → ε'} {x : Except ε α} {a : α} :
    x.mapError f = .ok a ↔ x = .ok a := by
  cases x with
  | error e =>
    constructor
    · intro h
      cases h
    · intro h
      cases h
  | ok b =>
    unfold Except.mapError
    rw [Except.ok.injEq, Except.ok.injEq]

theorem run_cons : Server.run lib s (e :: es) = .ok s' ↔
    ∃ s1, s.step lib e = .ok s1 ∧ s1.run lib es = .ok s' := by
  rw [Server.run, bind_eq_ok]

theorem run_append : Server.run lib s (es ++ es') = .ok s' ↔
    ∃ s1, s.run lib es = .ok s1 ∧ s1.run lib es' = .ok s' := by
  induction es generalizing s with
  | nil =>
    constructor
    · intro h
      exact ⟨s, rfl, h⟩
    · rintro ⟨s1, h1, h2⟩
      cases h1
      exact h2
  | cons e es ih =>
    rw [List.cons_append, run_cons]
    constructor
    · rintro ⟨s1, h1, h2⟩
      obtain ⟨s2, h3, h4⟩ := ih.1 h2
      exact ⟨s2, run_cons.2 ⟨s1, h1, h3⟩, h4⟩
    · rintro ⟨s2, h1, h2⟩
      obtain ⟨s1, h3, h4⟩ := run_cons.1 h1
      exact ⟨s1, h3, ih.2 ⟨s2, h4, h2⟩⟩

theorem run_snoc : Server.run lib s (es ++ [e]) = .ok s' ↔
    ∃ s1, s.run lib es = .ok s1 ∧ s1.step lib e = .ok s' := by
  rw [run_append]
  refine exists_congr fun s1 => and_congr_right fun _ => ?_
  rw [run_cons]
  constructor
  · rintro ⟨s2, h, h'⟩
    cases h'
    exact h
  · intro h
    exact ⟨s', h, rfl⟩

/-- What a step does: it accepts, or one handler goes on. -/
theorem step_cases (h : s.step lib e = .ok s') :
    (∃ conn, e = .accept conn ∧ s' = { s with handlers := s.handlers ++ [.accepted conn] }) ∨
    (∃ i net, e = .turn i net ∧ s.handlers[i]? = none ∧ s' = s) ∨
    (∃ i net h cache h', e = .turn i net ∧ s.handlers[i]? = some h ∧ s.handlers.any h.clashes = false ∧
      h.step lib net s.cache = .ok (cache, h') ∧ s' = ⟨cache, s.handlers.set i h'⟩) := by
  cases e with
  | accept conn =>
    cases h
    exact .inl ⟨conn, rfl, rfl⟩
  | turn i net =>
    rw [Server.step] at h
    cases hi : s.handlers[i]? with
    | none =>
      rw [hi] at h
      cases h
      exact .inr (.inl ⟨i, net, rfl, hi, rfl⟩)
    | some hd =>
      simp only [hi] at h
      split at h
      · cases h
      · rename_i hclash
        obtain ⟨⟨cache, h'⟩, hstep, heq⟩ := bind_eq_ok.1 h
        cases heq
        exact .inr (.inr ⟨i, net, hd, cache, h', rfl, hi, Bool.eq_false_iff.2 hclash, mapError_eq_ok.1 hstep, rfl⟩)

/-- What a turn does to a handler and to the cache. -/
inductive Turn (lib : Library Request Response) (net : Network Request Response) (cache : Cache) :
    Handler → Cache → Handler → Prop
  | hangUp {conn : Connection} (hd : Tolerated conn.noDelay)
      (hr : handleClient lib.decrypt conn.cut conn.stream = .closed) :
      Turn lib net cache (.accepted conn) cache (.closed [])
  | ask {conn : Connection} {url : List Byte} {n : Nat} (hd : Tolerated conn.noDelay)
      (hr : handleClient lib.decrypt conn.cut conn.stream = .request url n) :
      Turn lib net cache (.accepted conn) cache (.asked url)
  | get (url : List Byte) : Turn lib net cache (.asked url) cache (.getting url)
  | hit {url data : List Byte} (hc : cache url = some data) : Turn lib net cache (.getting url) cache (.answering data)
  | miss {url : List Byte} (hc : cache url = none) : Turn lib net cache (.getting url) cache (.missed url)
  | request {url data : List Byte} (hf : fetch (lib.over net) url = .ok data) :
      Turn lib net cache (.missed url) cache (.fetched url data)
  | put (url data : List Byte) : Turn lib net cache (.fetched url data) cache (.putting url data)
  | store (url data : List Byte) :
      Turn lib net cache (.putting url data) (Function.update cache url (some data)) (.answering data)
  | write (data : List Byte) : Turn lib net cache (.answering data) cache (.closed data)
  | rest (answer : List Byte) : Turn lib net cache (.closed answer) cache (.closed answer)

theorem turn_of_step {net : Network Request Response} {cache cache' : Cache} {h h' : Handler}
    (hs : h.step lib net cache = .ok (cache', h')) : Turn lib net cache h cache' h' := by
  cases h with
  | accepted conn =>
    obtain ⟨n, hcheck, hrest⟩ := bind_eq_ok.1 hs
    have hd := exists_checkError.1 ⟨n, hcheck⟩
    revert hrest
    cases hr : handleClient lib.decrypt conn.cut conn.stream with
    | closed =>
      intro hrest
      cases hrest
      exact .hangUp hd hr
    | panic =>
      intro hrest
      cases hrest
    | request url n =>
      intro hrest
      cases hrest
      exact .ask hd hr
  | asked url =>
    cases hs
    exact .get url
  | getting url =>
    rw [Handler.step] at hs
    cases hc : cache url with
    | some data =>
      rw [hc] at hs
      cases hs
      exact .hit hc
    | none =>
      rw [hc] at hs
      cases hs
      exact .miss hc
  | missed url =>
    obtain ⟨data, hf, hrest⟩ := bind_eq_ok.1 hs
    cases hrest
    exact .request hf
  | fetched url data =>
    cases hs
    exact .put url data
  | putting url data =>
    cases hs
    exact .store url data
  | answering data =>
    cases hs
    exact .write data
  | closed answer =>
    cases hs
    exact .rest answer

/-! ## Where answers come from -/

/-- The connection is set up and asks for the url. -/
def Requests (lib : Library Request Response) (conn : Connection) (url : List Byte) : Prop :=
  Tolerated conn.noDelay ∧ ∃ n, handleClient lib.decrypt conn.cut conn.stream = .request url n

/-- The connection is set up and ends before a url is read. -/
def HangsUp (lib : Library Request Response) (conn : Connection) : Prop :=
  Tolerated conn.noDelay ∧ handleClient lib.decrypt conn.cut conn.stream = .closed

/-- Some request for the url was answered so in the run. -/
def FetchedIn (lib : Library Request Response) (es : List (Event Request Response)) (url data : List Byte) : Prop :=
  ∃ i net, .turn i net ∈ es ∧ fetch (lib.over net) url = .ok data

theorem FetchedIn.snoc {url data : List Byte} (h : FetchedIn lib es url data) : FetchedIn lib (es ++ [e]) url data := by
  obtain ⟨i, net, hmem, hf⟩ := h
  exact ⟨i, net, List.mem_append_left _ hmem, hf⟩

/-- What a handler may have come to for its connection. -/
def Explains (lib : Library Request Response) (es : List (Event Request Response)) (cache : Cache) (conn : Connection) :
    Handler → Prop
  | .accepted c => c = conn
  | .asked url | .getting url | .missed url => Requests lib conn url
  | .fetched url data | .putting url data => Requests lib conn url ∧ FetchedIn lib es url data
  | .answering data => ∃ url, Requests lib conn url ∧ FetchedIn lib es url data ∧ cache url ≠ none
  | .closed answer => HangsUp lib conn ∧ answer = [] ∨
      ∃ url, Requests lib conn url ∧ FetchedIn lib es url answer ∧ cache url ≠ none

/-- The state of the server explained by the events up to it. -/
structure Traced (lib : Library Request Response) (es : List (Event Request Response)) (s : Server) : Prop where
  length : s.handlers.length = (accepted es).length
  handlers : ∀ (i : Nat) (h : Handler), s.handlers[i]? = some h →
    ∃ conn, (accepted es)[i]? = some conn ∧ Explains lib es s.cache conn h
  cache : ∀ url data, s.cache url = some data → FetchedIn lib es url data ∧
    ∃ conn ∈ accepted es, Requests lib conn url

theorem Explains.mono {cache cache' : Cache} {conn : Connection} {h : Handler} (hx : Explains lib es cache conn h)
    (hc : ∀ url, cache url ≠ none → cache' url ≠ none) : Explains lib (es ++ [e]) cache' conn h := by
  cases h with
  | accepted c => exact hx
  | asked url => exact hx
  | getting url => exact hx
  | missed url => exact hx
  | fetched url data => exact ⟨hx.1, hx.2.snoc⟩
  | putting url data => exact ⟨hx.1, hx.2.snoc⟩
  | answering data =>
    obtain ⟨url, hreq, hf, hsome⟩ := hx
    exact ⟨url, hreq, hf.snoc, hc url hsome⟩
  | closed answer =>
    rcases hx with hup | ⟨url, hreq, hf, hsome⟩
    · exact .inl hup
    · exact .inr ⟨url, hreq, hf.snoc, hc url hsome⟩

/-- A turn keeps the cache explained, forgets no url, and takes its handler to a state that its
connection explains. -/
theorem Turn.explains {i : Nat} {net : Network Request Response} {cache cache' : Cache} {h h' : Handler}
    {conn : Connection} (ht : Turn lib net cache h cache' h') (hx : Explains lib es cache conn h)
    (hcache : ∀ url data, cache url = some data → FetchedIn lib es url data) :
    (∀ url, cache url ≠ none → cache' url ≠ none) ∧ Explains lib (es ++ [.turn i net]) cache' conn h' ∧
      ∀ url data, cache' url = some data → cache url = some data ∨
      FetchedIn lib es url data ∧ Requests lib conn url := by
  have hsame : ∀ url data, cache url = some data →
      cache url = some data ∨ FetchedIn lib es url data ∧ Requests lib conn url := fun _ _ => .inl
  cases ht with
  | hangUp hd hr =>
    obtain rfl : _ = conn := hx
    exact ⟨fun _ => id, .inl ⟨⟨hd, hr⟩, rfl⟩, hsame⟩
  | ask hd hr =>
    obtain rfl : _ = conn := hx
    exact ⟨fun _ => id, ⟨hd, _, hr⟩, hsame⟩
  | @hit url data hc => exact ⟨fun _ => id, ⟨url, hx, (hcache url data hc).snoc, by rw [hc]; simp⟩, hsame⟩
  | get url => exact ⟨fun _ => id, hx, hsame⟩
  | miss hc => exact ⟨fun _ => id, hx, hsame⟩
  | @request url data hf => exact ⟨fun _ => id, ⟨hx, i, net, List.mem_append_right _ List.mem_cons_self, hf⟩,
      hsame⟩
  | put url data => exact ⟨fun _ => id, ⟨hx.1, hx.2.snoc⟩, hsame⟩
  | store url data =>
    obtain ⟨hreq, hf⟩ := hx
    refine ⟨fun u hu => ?_, ⟨url, hreq, hf.snoc, by rw [Function.update_self]; simp⟩, fun u d hud => ?_⟩
    · by_cases h : u = url
      · rw [h, Function.update_self]
        simp
      · rwa [Function.update_of_ne h]
    · by_cases h : u = url
      · rw [h, Function.update_self] at hud
        cases hud
        exact .inr ⟨h ▸ hf, h ▸ hreq⟩
      · rw [Function.update_of_ne h] at hud
        exact .inl hud
  | write data => exact ⟨fun _ => id, .inr (hx.imp fun _ h => ⟨h.1, h.2.1.snoc, h.2.2⟩), hsame⟩
  | rest answer => exact ⟨fun _ => id, hx.mono fun _ => id, hsame⟩

theorem traced_start : Traced lib [] Server.start where
  length := rfl
  handlers i h hi := by simp [Server.start] at hi
  cache url data h := by simp [Server.start] at h

theorem Traced.step (ht : Traced lib es s) (hs : s.step lib e = .ok s') : Traced lib (es ++ [e]) s' := by
  rcases step_cases hs with ⟨conn, rfl, rfl⟩ | ⟨i, net, rfl, -, rfl⟩ |
    ⟨i, net, h, cache, h', rfl, hi, -, hturn, rfl⟩
  · have hacc : accepted (es ++ [.accept conn]) = accepted es ++ [conn] := by simp [accepted]
    refine ⟨by simp [hacc, ht.length], fun j hd hj => ?_, fun url data hud => ?_⟩
    · rw [hacc]
      by_cases hlt : j < s.handlers.length
      · rw [List.getElem?_append_left hlt] at hj
        obtain ⟨c, hc, hx⟩ := ht.handlers j hd hj
        exact ⟨c, by rw [List.getElem?_append_left (ht.length ▸ hlt)]; exact hc, hx.mono fun _ => id⟩
      · rw [List.getElem?_append_right (Nat.le_of_not_lt hlt), List.getElem?_singleton] at hj
        split at hj
        · rename_i hzero
          cases hj
          refine ⟨conn, ?_, rfl⟩
          rw [List.getElem?_append_right (by rw [← ht.length]; exact Nat.le_of_not_lt hlt), ← ht.length, hzero]
          rfl
        · cases hj
    · obtain ⟨hf, c, hc, hreq⟩ := ht.cache url data hud
      exact ⟨hf.snoc, c, by rw [hacc]; exact List.mem_append_left _ hc, hreq⟩
  · have hacc : accepted (es ++ [.turn i net]) = accepted es := by simp [accepted]
    refine ⟨by rw [hacc, ht.length], fun j hd hj => ?_, fun url data hud => ?_⟩
    · obtain ⟨c, hc, hx⟩ := ht.handlers j hd hj
      exact ⟨c, by rwa [hacc], hx.mono fun _ => id⟩
    · rw [hacc]
      exact (ht.cache url data hud).imp_left .snoc
  · have hacc : accepted (es ++ [.turn i net]) = accepted es := by simp [accepted]
    obtain ⟨conn, hconn, hx⟩ := ht.handlers i h hi
    obtain ⟨hgrow, hx', hcache⟩ := (turn_of_step hturn).explains (i := i) hx fun url data hud =>
      (ht.cache url data hud).1
    refine ⟨by rw [hacc, List.length_set, ht.length], fun j hd hj => ?_, fun url data hud => ?_⟩
    · rw [hacc]
      rw [List.getElem?_set] at hj
      split at hj
      · rename_i hij
        subst hij
        split at hj
        · cases hj
          exact ⟨conn, hconn, hx'⟩
        · cases hj
      · obtain ⟨c, hc, hxc⟩ := ht.handlers j hd hj
        exact ⟨c, hc, hxc.mono hgrow⟩
    · rw [hacc]
      rcases hcache url data hud with hold | ⟨hf, hreq⟩
      · exact (ht.cache url data hold).imp_left .snoc
      · exact ⟨hf.snoc, conn, List.mem_of_getElem? hconn, hreq⟩

theorem traced_of_run (h : Server.start.run lib es = .ok s) : Traced lib es s := by
  induction es using List.reverseRecOn generalizing s with
  | nil =>
    cases h
    exact traced_start
  | append_singleton es e ih =>
    obtain ⟨s1, h1, h2⟩ := run_snoc.1 h
    exact (ih h1).step h2

/-- In every run without overlapping writes, whatever the network answers and in whichever order the
handlers go on: a client is answered with nothing where it hangs up early, and else with what some
request for its own url was answered in this run. -/
theorem run_answers_own (h : Server.start.run lib es = .ok s) {i : Nat} {answer : List Byte}
    (hi : s.handlers[i]? = some (.closed answer)) :
    ∃ conn, (accepted es)[i]? = some conn ∧ (HangsUp lib conn ∧ answer = [] ∨
      ∃ url, Requests lib conn url ∧ FetchedIn lib es url answer) := by
  obtain ⟨conn, hconn, hx⟩ := (traced_of_run h).handlers i _ hi
  refine ⟨conn, hconn, hx.imp_right ?_⟩
  rintro ⟨url, hreq, hf, -⟩
  exact ⟨url, hreq, hf⟩

/-! ## Enough turns -/

/-- How many turns a handler needs at most. -/
def Handler.left : Handler → Nat
  | accepted _ => 7
  | asked _ => 6
  | getting _ => 5
  | missed _ => 4
  | fetched _ _ => 3
  | putting _ _ => 2
  | answering _ => 1
  | closed _ => 0

theorem Turn.left {net : Network Request Response} {cache cache' : Cache} {h h' : Handler}
    (ht : Turn lib net cache h cache' h') : h'.left ≤ h.left - 1 := by
  cases ht with
  | hangUp hd hr => exact Nat.zero_le _
  | ask hd hr => exact le_rfl
  | get url => exact le_rfl
  | hit hc => exact (by decide : 1 ≤ 5 - 1)
  | miss hc => exact le_rfl
  | request hf => exact le_rfl
  | put url data => exact le_rfl
  | store url data => exact le_rfl
  | write data => exact le_rfl
  | rest answer => exact le_rfl

/-- Nothing that other handlers do keeps a handler from going on. -/
theorem run_left {i : Nat} {h : Handler} (hi : s.handlers[i]? = some h) (hrun : s.run lib es = .ok s') :
    ∃ h', s'.handlers[i]? = some h' ∧ h'.left ≤ h.left - turns i es := by
  induction es generalizing s h with
  | nil =>
    cases hrun
    exact ⟨h, hi, le_rfl⟩
  | cons e es ih =>
    obtain ⟨s1, hstep, hrest⟩ := run_cons.1 hrun
    rcases step_cases hstep with ⟨conn, rfl, rfl⟩ | ⟨j, net, rfl, hnone, rfl⟩ |
      ⟨j, net, hd, cache, h1, rfl, hj, -, hturn, rfl⟩
    · have hlt := (List.getElem?_eq_some_iff.1 hi).1
      have hi' : (s.handlers ++ [.accepted conn])[i]? = some h := by rwa [List.getElem?_append_left hlt]
      have hturns : turns i (.accept conn :: es) = turns i es := by simp [turns]
      rw [hturns]
      exact ih hi' hrest
    · have hij : i ≠ j := by
        rintro rfl
        rw [hi] at hnone
        cases hnone
      have hturns : turns i (.turn j net :: es) = turns i es := by simp [turns, hij]
      rw [hturns]
      exact ih hi hrest
    · by_cases hij : i = j
      · subst hij
        rw [hi] at hj
        cases hj
        have hlt := (List.getElem?_eq_some_iff.1 hi).1
        obtain ⟨h', hi', hle⟩ := ih (h := h1) (List.getElem?_set_self hlt) hrest
        have hturns : turns i (.turn i net :: es) = turns i es + 1 := by simp [turns]
        have hleft := (turn_of_step hturn).left
        refine ⟨h', hi', ?_⟩
        rw [hturns]
        omega
      · have hturns : turns i (.turn j net :: es) = turns i es := by simp [turns, hij]
        rw [hturns]
        exact ih (by rwa [List.getElem?_set_ne (Ne.symm hij)]) hrest

/-- Seven turns close a connection. -/
theorem closed_of_turns {i : Nat} (hi : i < s.handlers.length) (hrun : s.run lib es = .ok s') (h7 : 7 ≤ turns i es) :
    ∃ answer, s'.handlers[i]? = some (.closed answer) := by
  obtain ⟨h', hi', hle⟩ := run_left (List.getElem?_eq_getElem hi) hrun
  have hmax : (s.handlers[i]).left ≤ 7 := by
    cases s.handlers[i] <;> simp [Handler.left]
  cases h' with
  | closed answer => exact ⟨answer, hi'⟩
  | accepted _ | asked _ | getting _ | missed _ | fetched _ _ | putting _ _ | answering _ =>
    exfalso
    rw [Handler.left] at hle
    omega

theorem handlers_length (hrun : s.run lib es = .ok s') (hacc : accepted es = []) :
    s'.handlers.length = s.handlers.length := by
  induction es generalizing s with
  | nil =>
    cases hrun
    rfl
  | cons e es ih =>
    obtain ⟨s1, hstep, hrest⟩ := run_cons.1 hrun
    rcases step_cases hstep with ⟨conn, rfl, rfl⟩ | ⟨j, net, rfl, -, rfl⟩ |
      ⟨j, net, hd, cache, h1, rfl, hj, -, -, rfl⟩
    · simp [accepted] at hacc
    · exact ih hrest (by simpa [accepted] using hacc)
    · exact (ih hrest (by simpa [accepted] using hacc)).trans (List.length_set ..)

/-! ## One connection after the other -/

/-- What a connection is answered where a url has one response. -/
def answerTo (lib : Library Request Response) (conn : Connection) : List Byte :=
  match handleClient lib.decrypt conn.cut conn.stream with
  | .request url _ => (fetch lib url).toOption.getD []
  | _ => []

/-- The connection hangs up, or its url is fetched without an error. -/
def Served (lib : Library Request Response) (conn : Connection) : Prop :=
  HangsUp lib conn ∨ ∃ url data, Requests lib conn url ∧ fetch lib url = .ok data

theorem bind_of_tolerated {err : Option String} {β : Type} {x : Except Stop β} (h : Tolerated err) :
    (checkError err >>= fun _ => x) = x := by
  obtain ⟨n, hn⟩ := exists_checkError.2 h
  rw [hn]
  rfl

theorem Requests.unique {conn : Connection} {url url' : List Byte} (h : Requests lib conn url)
    (h' : Requests lib conn url') : url' = url := by
  obtain ⟨-, n, hn⟩ := h
  obtain ⟨-, m, hm⟩ := h'
  rw [hn] at hm
  cases hm
  rfl

theorem Requests.not_hangsUp {conn : Connection} {url : List Byte} (h : Requests lib conn url) :
    ¬ HangsUp lib conn := by
  rintro ⟨-, hup⟩
  obtain ⟨-, n, hn⟩ := h
  rw [hup] at hn
  cases hn

theorem answerTo_of_hangsUp {conn : Connection} (h : HangsUp lib conn) : answerTo lib conn = [] := by
  rw [answerTo, h.2]

theorem answerTo_of_requests {conn : Connection} {url data : List Byte} (h : Requests lib conn url)
    (hf : fetch lib url = .ok data) : answerTo lib conn = data := by
  obtain ⟨-, n, hr⟩ := h
  rw [answerTo, hr]
  simp only [hf]
  rfl

theorem handleClientConn_of_hangsUp {conn : Connection} (h : HangsUp lib conn) (cache : Cache) :
    handleClientConn lib cache conn = .ok (cache, []) := by
  rw [handleClientConn, bind_of_tolerated h.1, h.2]
  rfl

/-- A url of which the cache holds nothing else is answered with its response, and then cached. -/
theorem handleClientConn_of_requests {conn : Connection} {url data : List Byte} (h : Requests lib conn url)
    (hf : fetch lib url = .ok data) {cache : Cache} (hcache : ∀ d, cache url = some d → d = data) :
    handleClientConn lib cache conn = .ok (Function.update cache url (some data), data) := by
  obtain ⟨hd, n, hr⟩ := h
  rw [handleClientConn, bind_of_tolerated hd, hr]
  cases hc : cache url with
  | none => simp only [hc, hf]; rfl
  | some d =>
    obtain rfl := hcache d hc
    simp only [hc]
    rw [← hc, Function.update_eq_self]
    rfl

theorem serveAll_cons {conn : Connection} {conns : List Connection} {cache cache' cache'' : Cache}
    (h : handleClientConn lib cache conn = .ok (cache', answerTo lib conn))
    (hall : serveAll lib cache' conns = .ok (cache'', conns.map (answerTo lib))) :
    serveAll lib cache (conn :: conns) = .ok (cache'', (conn :: conns).map (answerTo lib)) := by
  rw [serveAll, h]
  show serveAll lib cache' conns >>= _ = _
  rw [hall]
  rfl

/-- The url of the first connection is as good as cached. -/
theorem cached_or_requested {conn : Connection} {conns : List Connection} {url data : List Byte}
    (hreq : Requests lib conn url)
    (hf : fetch lib url = .ok data) {cache : Cache} (honly : ∀ d, cache url = some d → d = data) (u d : List Byte) :
    (Function.update cache url (some data) u = some d ∨
        (∃ c ∈ conns, Requests lib c u) ∧ fetch lib u = .ok d) ↔
      cache u = some d ∨ (∃ c ∈ conn :: conns, Requests lib c u) ∧ fetch lib u = .ok d := by
  by_cases hu : u = url
  · subst hu
    rw [Function.update_self]
    constructor
    · rintro (hd | ⟨-, hfu⟩)
      · cases hd
        exact .inr ⟨⟨conn, List.mem_cons_self, hreq⟩, hf⟩
      · exact .inr ⟨⟨conn, List.mem_cons_self, hreq⟩, hfu⟩
    · rintro (hd | ⟨-, hfu⟩)
      · rw [honly d hd]
        exact .inl rfl
      · rw [hf] at hfu
        cases hfu
        exact .inl rfl
  · rw [Function.update_of_ne hu]
    refine or_congr_right (and_congr_left' ⟨?_, ?_⟩)
    · rintro ⟨c, hc, hr⟩
      exact ⟨c, List.mem_cons_of_mem _ hc, hr⟩
    · rintro ⟨c, hc, hr⟩
      rcases List.mem_cons.1 hc with rfl | hc
      · exact absurd (hreq.unique hr) hu
      · exact ⟨c, hc, hr⟩

/-- The cache after connections that were all served. -/
theorem serveAll_eq : ∀ {conns : List Connection} {cache : Cache}, (∀ conn ∈ conns, Served lib conn) →
    (∀ url data, cache url = some data → fetch lib url = .ok data) →
    ∃ cache', serveAll lib cache conns = .ok (cache', conns.map (answerTo lib)) ∧
      ∀ url data, cache' url = some data ↔
        cache url = some data ∨ (∃ conn ∈ conns, Requests lib conn url) ∧ fetch lib url = .ok data
  | [], cache, _, _ => ⟨cache, rfl, by simp⟩
  | conn :: conns, cache, hserved, hcache => by
    have hrest : ∀ c ∈ conns, Served lib c := fun c hc => hserved c (List.mem_cons_of_mem _ hc)
    rcases hserved conn List.mem_cons_self with hup | ⟨url, data, hreq, hf⟩
    · obtain ⟨cache', hall, hspec⟩ := serveAll_eq hrest hcache
      have hfirst : handleClientConn lib cache conn = .ok (cache, answerTo lib conn) := by
        rw [handleClientConn_of_hangsUp hup, answerTo_of_hangsUp hup]
      refine ⟨cache', serveAll_cons hfirst hall, fun u d => (hspec u d).trans ?_⟩
      refine or_congr_right (and_congr_left' ⟨?_, ?_⟩)
      · rintro ⟨c, hc, hr⟩
        exact ⟨c, List.mem_cons_of_mem _ hc, hr⟩
      · rintro ⟨c, hc, hr⟩
        rcases List.mem_cons.1 hc with rfl | hc
        · exact absurd hup hr.not_hangsUp
        · exact ⟨c, hc, hr⟩
    · have honly : ∀ d, cache url = some d → d = data := by
        intro d hd
        have h := hcache url d hd
        rw [hf] at h
        cases h
        rfl
      have hcache' : ∀ u d, Function.update cache url (some data) u = some d → fetch lib u = .ok d := by
        intro u d hud
        by_cases h : u = url
        · rw [h, Function.update_self] at hud
          cases hud
          rwa [h]
        · rw [Function.update_of_ne h] at hud
          exact hcache u d hud
      obtain ⟨cache', hall, hspec⟩ := serveAll_eq hrest hcache'
      have hfirst :
        handleClientConn lib cache conn = .ok (Function.update cache url (some data), answerTo lib conn) := by
        rw [handleClientConn_of_requests hreq hf honly, answerTo_of_requests hreq hf]
      exact ⟨cache', serveAll_cons hfirst hall,
        fun u d => (hspec u d).trans (cached_or_requested hreq hf honly u d)⟩

/-! ## Any order of turns -/

/-- The network answers every request in the run as the library does. -/
def Steady (lib : Library Request Response) (es : List (Event Request Response)) : Prop :=
  ∀ i net, .turn i net ∈ es → net = lib.clientDo

theorem FetchedIn.fetch {url data : List Byte} (h : FetchedIn lib es url data) (hs : Steady lib es) :
    fetch lib url = .ok data := by
  obtain ⟨i, net, hmem, hf⟩ := h
  rwa [hs i net hmem] at hf

/-- A closed handler has answered as its connection demands, and its url is cached. -/
theorem explains_closed {cache : Cache} {conn : Connection} {answer : List Byte} (hs : Steady lib es)
    (hx : Explains lib es cache conn (.closed answer)) :
    answer = answerTo lib conn ∧ Served lib conn ∧ ∀ url, Requests lib conn url → cache url ≠ none := by
  rcases hx with ⟨hup, rfl⟩ | ⟨url, hreq, hf, hcached⟩
  · exact ⟨(answerTo_of_hangsUp hup).symm, .inl hup, fun url hreq => absurd hup hreq.not_hangsUp⟩
  · refine ⟨(answerTo_of_requests hreq (hf.fetch hs)).symm, .inr ⟨url, answer, hreq, hf.fetch hs⟩,
      fun u hu => ?_⟩
    rwa [hreq.unique hu]

theorem Traced.handlers_eq (ht : Traced lib es s)
    (hclosed : ∀ i (hi : i < (accepted es).length), s.handlers[i]? = some (.closed (answerTo lib (accepted es)[i]))) :
    s.handlers = (accepted es).map fun conn => .closed (answerTo lib conn) := by
  refine List.ext_getElem? fun i => ?_
  rw [List.getElem?_map]
  by_cases hi : i < (accepted es).length
  · rw [hclosed i hi, List.getElem?_eq_getElem hi]
    rfl
  · rw [List.getElem?_eq_none (by rw [ht.length]; exact Nat.le_of_not_lt hi),
      List.getElem?_eq_none (Nat.le_of_not_lt hi)]
    rfl

/-- The same connections one after the other, where all urls are cached in the end. -/
theorem Traced.serveAll (ht : Traced lib es s) (hsteady : Steady lib es)
    (hserved : ∀ conn ∈ accepted es, Served lib conn)
    (hcached : ∀ i (hi : i < (accepted es).length), ∀ url, Requests lib (accepted es)[i] url →
      s.cache url ≠ none)
    {conns : List Connection} (hperm : conns.Perm (accepted es)) :
    serveAll lib (fun _ => none) conns = .ok (s.cache, conns.map (answerTo lib)) := by
  obtain ⟨cache', hserve, hspec⟩ :=
    @serveAll_eq _ _ lib conns (fun _ => none) (fun conn hc => hserved conn (hperm.mem_iff.1 hc)) (by simp)
  have hcache : cache' = s.cache := by
    funext url
    ext data
    rw [hspec]
    constructor
    · rintro (hnone | ⟨⟨conn, hc, hreq⟩, hf⟩)
      · cases hnone
      · obtain ⟨i, hi, rfl⟩ := List.mem_iff_getElem.1 (hperm.mem_iff.1 hc)
        obtain ⟨d, hd⟩ := Option.ne_none_iff_exists'.1 (hcached i hi url hreq)
        have hf' := (ht.cache url d hd).1.fetch hsteady
        rw [hf] at hf'
        cases hf'
        exact hd
    · intro hd
      obtain ⟨hf, conn, hc, hreq⟩ := ht.cache url data hd
      exact .inr ⟨⟨conn, hperm.mem_iff.2 hc, hreq⟩, hf.fetch hsteady⟩
  rw [hserve, hcache]

/-- A handler whose connection is served is not what ends the process. -/
theorem exists_step {cache : Cache} {conn : Connection} {h : Handler} (hserved : Served lib conn)
    (hx : Explains lib es cache conn h) : ∃ r, h.step lib lib.clientDo cache = .ok r := by
  cases h with
  | accepted c =>
    obtain rfl : c = conn := hx
    rw [Handler.step]
    rcases hserved with ⟨hd, hup⟩ | ⟨url, data, ⟨hd, n, hr⟩, -⟩
    · rw [bind_of_tolerated hd, hup]
      exact ⟨_, rfl⟩
    · rw [bind_of_tolerated hd, hr]
      exact ⟨_, rfl⟩
  | getting url =>
    rw [Handler.step]
    cases cache url with
    | some data => exact ⟨_, rfl⟩
    | none => exact ⟨_, rfl⟩
  | missed url =>
    have hreq : Requests lib conn url := hx
    rcases hserved with hup | ⟨url', data, hreq', hf⟩
    · exact absurd hup hreq.not_hangsUp
    · obtain rfl := hreq.unique hreq'
      exact ⟨_, bind_eq_ok.2 ⟨data, hf, rfl⟩⟩
  | asked _ | fetched _ _ | putting _ _ | answering _ | closed _ => exact ⟨_, rfl⟩

/-- Where a run ends early. -/
theorem run_eq_error {x : Halt} (h : s.run lib es = .error x) :
    ∃ es₁ e es₂ s₁, es = es₁ ++ e :: es₂ ∧ s.run lib es₁ = .ok s₁ ∧ s₁.step lib e = .error x := by
  induction es generalizing s with
  | nil => cases h
  | cons e es ih =>
    cases hstep : s.step lib e with
    | error y =>
      rw [Server.run, hstep] at h
      cases h
      exact ⟨[], e, es, s, rfl, rfl, hstep⟩
    | ok s1 =>
      rw [Server.run, hstep] at h
      obtain ⟨es₁, e', es₂, s₁, rfl, hrun, herr⟩ := ih h
      exact ⟨e :: es₁, e', es₂, s₁, rfl, run_cons.2 ⟨s1, hstep, hrun⟩, herr⟩

theorem step_eq_stop {reason : Stop} (h : s.step lib e = .error (.stop reason)) :
    ∃ i net hd, e = .turn i net ∧ s.handlers[i]? = some hd ∧ hd.step lib net s.cache = .error reason := by
  cases e with
  | accept conn => cases h
  | turn i net =>
    rw [Server.step] at h
    cases hi : s.handlers[i]? with
    | none =>
      rw [hi] at h
      cases h
    | some hd =>
      simp only [hi] at h
      split at h
      · cases h
      · cases hstep : hd.step lib net s.cache with
        | error y =>
          rw [hstep] at h
          cases h
          exact ⟨i, net, hd, rfl, hi, hstep⟩
        | ok r =>
          rw [hstep] at h
          cases h

/-- Where every connection is served by a steady network, nothing ends the process. -/
theorem run_ne_stop (hsteady : Steady lib es) (hserved : ∀ conn ∈ accepted es, Served lib conn) (reason : Stop) :
    Server.start.run lib es ≠ .error (.stop reason) := by
  intro h
  obtain ⟨es₁, e, es₂, s₁, rfl, hrun, herr⟩ := run_eq_error h
  obtain ⟨i, net, hd, rfl, hi, hstep⟩ := step_eq_stop herr
  obtain ⟨conn, hconn, hx⟩ := (traced_of_run hrun).handlers i hd hi
  have hmem : conn ∈ accepted (es₁ ++ .turn i net :: es₂) := by
    rw [accepted, List.filterMap_append]
    exact List.mem_append_left _ (List.mem_of_getElem? hconn)
  obtain ⟨r, hr⟩ := exists_step (hserved conn hmem) hx
  rw [← hsteady i net (List.mem_append_right _ List.mem_cons_self), hstep] at hr
  cases hr

/-- With a steady network and connections that it serves, once every handler has had seven more turns in
any order, unless a write overlaps another access to the map: all connections are closed, and answers
and cache are those of handling the same connections one after the other, in whichever order. -/
theorem run_serial (hsteady : Steady lib (es ++ es')) (hserved : ∀ conn ∈ accepted es, Served lib conn)
    (hacc : accepted es' = []) (h7 : ∀ i < (accepted es).length, 7 ≤ turns i es') :
    Server.start.run lib (es ++ es') = .error .race ∨ ∃ s', Server.start.run lib (es ++ es') = .ok s' ∧
      s'.handlers = (accepted es).map (fun conn => .closed (answerTo lib conn)) ∧
      ∀ conns, conns.Perm (accepted es) →
        serveAll lib (fun _ => none) conns = .ok (s'.cache, conns.map (answerTo lib)) := by
  have hall : accepted (es ++ es') = accepted es := by
    rw [accepted, List.filterMap_append]
    exact (congrArg _ hacc).trans (List.append_nil _)
  cases hrun : Server.start.run lib (es ++ es') with
  | error x =>
    cases x with
    | stop reason => exact absurd hrun (run_ne_stop hsteady (hall ▸ hserved) reason)
    | race => exact .inl rfl
  | ok s' =>
    refine .inr ⟨s', rfl, ?_⟩
    have ht := traced_of_run hrun
    rw [← hall] at h7 hserved ⊢
    have hclosed : ∀ i (hi : i < (accepted (es ++ es')).length),
        s'.handlers[i]? = some (.closed (answerTo lib (accepted (es ++ es'))[i])) ∧
          ∀ url, Requests lib (accepted (es ++ es'))[i] url → s'.cache url ≠ none := by
      intro i hi
      obtain ⟨s, h, h'⟩ := run_append.1 hrun
      have hlt : i < s.handlers.length := by
        rwa [← handlers_length h' hacc, ht.length]
      obtain ⟨answer, hi'⟩ := closed_of_turns hlt h' (h7 i hi)
      obtain ⟨conn, hconn, hx⟩ := ht.handlers i _ hi'
      rw [List.getElem?_eq_getElem hi] at hconn
      cases hconn
      obtain ⟨rfl, -, hcached⟩ := explains_closed hsteady hx
      exact ⟨hi', hcached⟩
    exact ⟨ht.handlers_eq fun i hi => (hclosed i hi).1, fun conns hperm =>
      ht.serveAll hsteady hserved (fun i hi => (hclosed i hi).2) hperm⟩

end Runs

/-! ## Two clients -/

/-- A network that answers every request with itself. -/
def echo : Library (List Byte) (List Byte) := { offline with clientDo := fun request => (some request, none) }

/-- A request for a url of at most a block. -/
def requestFor (url : List Byte) : Connection :=
  ⟨none, fun _ => 1460, toLE 4 url.length ++ toLE 4 0 ++ cfbBlock url⟩

/-- `c.com/`. -/
def otherUrl : List Byte := [0x63, 0x2e, 0x63, 0x6f, 0x6d, 0x2f]

/-- Two connections are accepted. -/
def twoAccepted (url url' : List Byte) : List (Event (List Byte) (List Byte)) :=
  [.accept (requestFor url), .accept (requestFor url')]

/-- Both handlers look into the map, one after the other, before either has fetched; then each of them
fetches, and stores what it got. -/
def bothMiss : List (Event (List Byte) (List Byte)) :=
  [0, 1, 0, 0, 1, 1, 0, 1, 0, 0, 1, 1, 0, 1].map fun i => .turn i echo.clientDo

/-- Two handlers in lock step write at once. -/
example : Server.start.run echo (twoAccepted requestUrl requestUrl ++
    [0, 1, 0, 1, 0, 1, 0, 1, 0, 1].map fun i => .turn i echo.clientDo) = .error .race := rfl

theorem run_answers_own_two : ∃ s, Server.start.run echo (twoAccepted requestUrl otherUrl ++ bothMiss) = .ok s ∧
    s.handlers[1]? = some (.closed (scheme ++ otherUrl)) ∧ ∃ url, Requests echo (requestFor otherUrl) url ∧
      FetchedIn echo (twoAccepted requestUrl otherUrl ++ bothMiss) url (scheme ++ otherUrl) := by
  have hclosed : ∃ s, Server.start.run echo (twoAccepted requestUrl otherUrl ++ bothMiss) = .ok s ∧
      s.handlers[1]? = some (.closed (scheme ++ otherUrl)) := ⟨_, rfl, rfl⟩
  obtain ⟨s, hrun, hi⟩ := hclosed
  obtain ⟨conn, hconn, hanswer⟩ := run_answers_own hrun hi
  cases hconn
  exact ⟨s, hrun, hi, hanswer.resolve_left fun h => absurd h.2 (by decide)⟩

theorem steady_bothMiss : Steady echo (twoAccepted requestUrl requestUrl ++ bothMiss) := by
  intro i net hmem
  rcases List.mem_append.1 hmem with h | h
  · simp [twoAccepted] at h
  · obtain ⟨j, -, hj⟩ := List.mem_map.1 h
    cases hj
    rfl

theorem served_request : Served echo (requestFor requestUrl) :=
  .inr ⟨requestUrl, scheme ++ requestUrl, ⟨.inl rfl, _, rfl⟩, rfl⟩

theorem run_serial_two : ∃ s', Server.start.run echo (twoAccepted requestUrl requestUrl ++ bothMiss) = .ok s' ∧
    s'.handlers = [.closed (scheme ++ requestUrl), .closed (scheme ++ requestUrl)] ∧
    serveAll echo (fun _ => none) [requestFor requestUrl, requestFor requestUrl] =
      .ok (s'.cache, [scheme ++ requestUrl, scheme ++ requestUrl]) := by
  have hserved : ∀ conn ∈ accepted (twoAccepted requestUrl requestUrl), Served echo conn := by
    intro conn hc
    obtain rfl : conn = requestFor requestUrl := by simpa [twoAccepted, accepted] using hc
    exact served_request
  rcases run_serial steady_bothMiss hserved rfl (by decide) with hrace | ⟨s', hrun, hall, hserve⟩
  · cases hrace
  · exact ⟨s', hrun, hall, hserve _ .rfl⟩

end Proxy

end Embark
