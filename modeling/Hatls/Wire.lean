import Hatls.Lib.JsonLine
import Hatls.Lib.Pieces

/-!
# Requests on the wire

What goes over the connections of a relying party and a guest: `HatlsClient.request` of
`hatls/client.py`, and `guest_server` and `relay` of `examples/relay_demo.py`.  A request is a line
of JSON, and a reply is JSON with its length before it.  A relay passes both on as they are.

A connection delivers bytes in order and in pieces, and may close before the last of them.  What a
server has sent when it closes is a function of what has arrived at it.  An exception in a server
ends the connection with nothing sent.  A client that waits on a closed connection raises; the
exceptions of the TLS library are not told apart from `ConnectionError`.

## Main definitions

* `Wire.Direction`, `Wire.Connection` — connections.
* `Wire.serve`, `Wire.relay`, `Wire.relays`, `Wire.request` — the parties.
* `Wire.Sends`, `Wire.Answers` — what a server does with a line, or with a part of it.
* `Wire.requested` — the reply is the answer to the request, or there is none.
-/

namespace Hatls.Wire

/-! ## The parties -/

/-- One direction of a connection: what arrives at one end of what is sent at the other. -/
structure Direction where
  deliver : Bytes → Incoming UInt8
  inOrder : ∀ sent, (deliver sent).values <+: sent

/-- A connection of a client to a server. -/
structure Connection where
  toServer : Direction
  toClient : Direction

/-- It stays open until all has arrived. -/
structure Connection.Open (c : Connection) : Prop where
  toServer : ∀ sent, (c.toServer.deliver sent).values = sent
  toClient : ∀ sent, (c.toClient.deliver sent).values = sent

/-- A server: what it has sent when it closes, of what has arrived. -/
abbrev Server := Incoming UInt8 → Bytes

/-- `_line`: up to a line break, byte by byte. -/
def line (incoming : Incoming UInt8) : Option (Bytes × Incoming UInt8) := incoming.recvUntil 10

/-- `struct.pack(">I", n) + blob`; a number beyond four bytes raises, and nothing is sent. -/
def framed (n : ℕ) (blob : Bytes) : Bytes :=
  match Bytes.toBytes 4 n with
  | none => []
  | some head => head ++ blob

/-- A connection of `guest_server`. -/
def serve (answer : Json → Except Exn Json) : Server := fun incoming =>
  match line incoming with
  | none => []
  | some (request, _) =>
    match Json.loads request >>= answer with
    | .error _ => []
    | .ok out =>
      let blob := Bytes.ofAscii out.dumpInOrder
      framed blob.length blob

/-- Send a line, then read four bytes, and as many as they say. -/
def exchange (c : Connection) (server : Server) (line : Bytes) : Option (ℕ × Bytes) :=
  match (c.toClient.deliver (server (c.toServer.deliver line))).recvExact 4 with
  | none => none
  | some (head, incoming) =>
    match incoming.recvExact (Bytes.fromBytes head) with
    | none => none
    | some (blob, _) => some (Bytes.fromBytes head, blob)

/-- A thief with the key of a server between it and its client: it has a connection of its own to
the server, and forwards everything verbatim. -/
def relay (up : Connection) (server : Server) : Server := fun incoming =>
  match line incoming with
  | none => []
  | some (request, _) =>
    match exchange up server request with
    | none => []
    | some (n, blob) => framed n blob

/-- Relays in a row, each with its connection to the next. -/
def relays (ups : List Connection) (server : Server) : Server := ups.foldr relay server

/-- `HatlsClient.request`. -/
def request (c : Connection) (server : Server) (obj : Json) : Except Exn Json :=
  match exchange c server (Bytes.ofAscii (obj.dumpInOrder ++ "\n")) with
  | none => .error .osError
  | some (_, blob) => Json.loads blob

/-! ## Lines and frames -/

theorem length_framed {blob : Bytes} (h : blob.length < 2 ^ 32) :
    ∃ head : Bytes, head.length = 4 ∧ Bytes.fromBytes head = blob.length ∧
      framed blob.length blob = head ++ blob := by
  have hfits : blob.length < 256 ^ 4 := by omega
  refine ⟨(Bytes.toLittle 4 blob.length).reverse, ?_, Bytes.fromBytes_toLittle hfits, ?_⟩
  · rw [List.length_reverse, Bytes.length_toLittle]
  · rw [framed, Bytes.toBytes, if_pos hfits]

theorem framed_eq_nil {blob : Bytes} (h : ¬ blob.length < 2 ^ 32) : framed blob.length blob = [] := by
  have hlong : ¬ blob.length < 256 ^ 4 := by omega
  rw [framed, Bytes.toBytes, if_neg hlong]

/-- A number of bytes is read where so many come, and they are the first. -/
theorem recvExact_eq_some {s s' : Incoming UInt8} {n : ℕ} {b : Bytes} (h : s.recvExact n = some (b, s')) :
    n ≤ s.values.length ∧ b = s.values.take n ∧ s'.values = s.values.drop n := by
  by_cases hle : n ≤ s.values.length
  · obtain ⟨s₁, hsome, hrest⟩ := Incoming.recvExact_of_le hle
    rw [hsome] at h
    obtain ⟨rfl, rfl⟩ := Prod.mk.inj (Option.some.inj h)
    exact ⟨hle, rfl, hrest⟩
  · rw [Incoming.recvExact_of_lt (not_le.mp hle)] at h
    cases h

/-- A line is read whole or not at all. -/
theorem line_cases {text : Bytes} (htext : (10 : UInt8) ∉ text) {s : Incoming UInt8}
    (h : s.values <+: text ++ [10]) :
    line s = none ∨ ∃ s', line s = some (text ++ [10], s') := by
  rcases List.prefix_concat_iff.mp h with heq | hpart
  · obtain ⟨s', hline, -⟩ := Incoming.recvUntil_of_mark htext heq
    exact .inr ⟨s', hline⟩
  · left
    apply Incoming.recvUntil_of_not_mem
    intro hmem
    exact htext (hpart.subset hmem)

/-! ## What a server does with a line -/

/-- Whatever arrives of a line, a server sends the frame of a blob, if there is one, or nothing. -/
def Sends (server : Server) (text : Bytes) (blob : Option Bytes) : Prop :=
  ∀ s : Incoming UInt8, s.values <+: text ++ [10] →
    server s = [] ∨ ∃ b, blob = some b ∧ server s = framed b.length b

/-- Where all of a line arrives, it sends the frame. -/
def Answers (server : Server) (text blob : Bytes) : Prop :=
  ∀ s : Incoming UInt8, s.values = text ++ [10] → server s = framed blob.length blob

section Server

variable {c : Connection} {server : Server} {text b : Bytes} {blob : Option Bytes}

/-- **A client gets the blob or nothing.** -/
theorem exchange_of_sends (h : Sends server text blob) :
    exchange c server (text ++ [10]) = none ∨
      ∃ b, blob = some b ∧ exchange c server (text ++ [10]) = some (b.length, b) := by
  have harrives := c.toClient.inOrder (server (c.toServer.deliver (text ++ [10])))
  generalize hs : c.toClient.deliver (server (c.toServer.deliver (text ++ [10]))) = s at harrives
  have hnothing : s.values = [] → exchange c server (text ++ [10]) = none := by
    intro hempty
    rw [exchange, hs, Incoming.recvExact_of_lt (by rw [hempty]; exact Nat.zero_lt_succ 3)]
  rcases h _ (c.toServer.inOrder _) with hnil | ⟨b, rfl, hframe⟩
  · rw [hnil] at harrives
    exact .inl (hnothing (List.prefix_nil.mp harrives))
  by_cases hfits : b.length < 2 ^ 32
  · obtain ⟨head, hlength, hvalue, hparts⟩ := length_framed hfits
    rw [hframe, hparts] at harrives
    cases hhead : s.recvExact 4 with
    | none =>
        left
        simp only [exchange, hs, hhead]
    | some r =>
        obtain ⟨head', s'⟩ := r
        obtain ⟨hle, rfl, hrest⟩ := recvExact_eq_some hhead
        obtain ⟨late, hlate⟩ := harrives
        rw [← List.take_append_drop 4 s.values, List.append_assoc] at hlate
        have hfour : (s.values.take 4).length = head.length := by
          rw [List.length_take, hlength]
          omega
        obtain ⟨hsame, hafter⟩ := List.append_inj hlate hfour
        have hlater : s'.values <+: b := ⟨late, by rw [hrest, hafter]⟩
        cases hbody : s'.recvExact b.length with
        | none =>
            left
            simp only [exchange, hs, hhead, hsame, hvalue, hbody]
        | some r =>
            obtain ⟨b', s''⟩ := r
            obtain ⟨henough, rfl, -⟩ := recvExact_eq_some hbody
            have hall : s'.values = b := hlater.eq_of_length (le_antisymm hlater.length_le henough)
            right
            refine ⟨b, rfl, ?_⟩
            simp only [exchange, hs, hhead, hsame, hvalue, hbody, hall, List.take_length]
  · rw [hframe, framed_eq_nil hfits] at harrives
    exact .inl (hnothing (List.prefix_nil.mp harrives))

/-- On an open connection it gets the blob. -/
theorem exchange_of_answers (hc : c.Open) (h : Answers server text b) (hfits : b.length < 2 ^ 32) :
    exchange c server (text ++ [10]) = some (b.length, b) := by
  obtain ⟨head, hlength, hvalue, hparts⟩ := length_framed hfits
  have hsent := h _ (hc.toServer (text ++ [10]))
  have harrives := hc.toClient (server (c.toServer.deliver (text ++ [10])))
  rw [hsent, hparts] at harrives
  obtain ⟨s', hhead, hrest⟩ := Incoming.recvExact_of_le (n := 4)
    (s := c.toClient.deliver (head ++ b)) (by rw [harrives, List.length_append]; omega)
  rw [harrives, List.take_left' hlength] at hhead
  rw [harrives, List.drop_left' hlength] at hrest
  obtain ⟨s'', hbody, -⟩ := Incoming.recvExact_of_le (n := b.length) (s := s') (by rw [hrest])
  rw [hrest, List.take_length] at hbody
  simp only [exchange, hsent, hparts, hhead, hvalue, hbody]

/-- A relay sends what its server sends. -/
theorem sends_relay (htext : (10 : UInt8) ∉ text) (h : Sends server text blob) :
    Sends (relay c server) text blob := by
  intro s hs
  rcases line_cases htext hs with hline | ⟨s', hline⟩
  · left
    simp only [relay, hline]
  · rcases exchange_of_sends (c := c) h with hnone | ⟨b, rfl, hsome⟩
    · left
      simp only [relay, hline, hnone]
    · right
      refine ⟨b, rfl, ?_⟩
      simp only [relay, hline, hsome]

theorem answers_relay (htext : (10 : UInt8) ∉ text) (hc : c.Open) (hfits : b.length < 2 ^ 32)
    (h : Answers server text b) : Answers (relay c server) text b := by
  intro s hs
  obtain ⟨s', hline, -⟩ := Incoming.recvUntil_of_mark htext hs
  have hexchange := exchange_of_answers hc h hfits
  simp only [relay, line, hline, hexchange]

/-- **So do any number of relays.** -/
theorem sends_relays (htext : (10 : UInt8) ∉ text) (ups : List Connection) (h : Sends server text blob) :
    Sends (relays ups server) text blob := by
  induction ups with
  | nil => exact h
  | cons up ups ih => exact sends_relay htext ih

theorem answers_relays (htext : (10 : UInt8) ∉ text) {ups : List Connection} (hups : ∀ c ∈ ups, c.Open)
    (hfits : b.length < 2 ^ 32) (h : Answers server text b) : Answers (relays ups server) text b := by
  induction ups with
  | nil => exact h
  | cons up ups ih =>
      obtain ⟨hup, hups⟩ := List.forall_mem_cons.mp hups
      exact answers_relay htext hup hfits (ih hups)

end Server

/-! ## Requests and replies -/

/-- The bytes of a reply. -/
def blobOf (answer : Json → Except Exn Json) (obj : Json) : Option Bytes :=
  match answer obj with
  | .error _ => none
  | .ok out => some (Bytes.ofAscii out.dumpInOrder)

section Requests

variable {answer : Json → Except Exn Json} {fields : List (String × Json)}

theorem ofAscii_line (j : Json) :
    Bytes.ofAscii (j.dumpInOrder ++ "\n") = Bytes.ofAscii j.dumpInOrder ++ [10] := by
  rw [Bytes.ofAscii, Bytes.ofAscii, String.toList_append, List.map_append]
  rfl

/-- What `guest_server` sends is the answer to the request that the line spells. -/
theorem serve_of_line (hfields : Json.KeysOnce (.obj fields)) {s s' : Incoming UInt8}
    (hline : line s = some (Bytes.ofAscii (Json.obj fields).dumpInOrder ++ [10], s')) :
    serve answer s = match blobOf answer (.obj fields) with
      | none => []
      | some blob => framed blob.length blob := by
  rw [← ofAscii_line] at hline
  simp only [serve, hline, Json.loads_line hfields, Exn.ok_bind, blobOf]
  cases answer (.obj fields) <;> rfl

theorem sends_serve (hfields : Json.KeysOnce (.obj fields)) :
    Sends (serve answer) (Bytes.ofAscii (Json.obj fields).dumpInOrder) (blobOf answer (.obj fields)) := by
  intro s hs
  rcases line_cases (Json.newline_notMem_dumpInOrder _) hs with hline | ⟨s', hline⟩
  · left
    simp only [serve, hline]
  · rw [serve_of_line hfields hline]
    cases blobOf answer (.obj fields) with
    | none => exact .inl rfl
    | some blob => exact .inr ⟨blob, rfl, rfl⟩

theorem answers_serve (hfields : Json.KeysOnce (.obj fields)) {blob : Bytes}
    (hblob : blobOf answer (.obj fields) = some blob) :
    Answers (serve answer) (Bytes.ofAscii (Json.obj fields).dumpInOrder) blob := by
  intro s hs
  obtain ⟨s', hline, -⟩ := Incoming.recvUntil_of_mark (Json.newline_notMem_dumpInOrder _) hs
  rw [serve_of_line hfields hline, hblob]

variable (answer) in
/-- A client gets the answer of the server, or raises. -/
theorem request_cases (hfields : Json.KeysOnce (.obj fields))
    (hanswer : ∀ out, answer (.obj fields) = .ok out → Json.KeysOnce out) (c : Connection)
    (ups : List Connection) :
    request c (relays ups (serve answer)) (.obj fields) = .error .osError ∨
      ∃ out, answer (.obj fields) = .ok out ∧
        request c (relays ups (serve answer)) (.obj fields) = .ok out := by
  have htext : (10 : UInt8) ∉ Bytes.ofAscii (Json.obj fields).dumpInOrder :=
    Json.newline_notMem_dumpInOrder _
  rcases exchange_of_sends (c := c) (sends_relays htext ups (sends_serve hfields)) with
    hnone | ⟨blob, hblob, hsome⟩
  · left
    rw [request, ofAscii_line, hnone]
  · right
    cases hout : answer (.obj fields) with
    | error x => simp only [blobOf, hout, reduceCtorEq] at hblob
    | ok out =>
        simp only [blobOf, hout, Option.some.injEq] at hblob
        refine ⟨out, rfl, ?_⟩
        rw [request, ofAscii_line, hsome, ← hblob]
        exact Json.loads_dumpInOrder (hanswer out hout)

/-- It gets the answer where no connection closes early. -/
theorem request_of_open (hfields : Json.KeysOnce (.obj fields)) {out : Json} (hout : Json.KeysOnce out)
    (hanswer : answer (.obj fields) = .ok out)
    (hfits : (Bytes.ofAscii out.dumpInOrder).length < 2 ^ 32) {c : Connection} {ups : List Connection}
    (hopen : ∀ d ∈ c :: ups, d.Open) :
    request c (relays ups (serve answer)) (.obj fields) = .ok out := by
  have htext : (10 : UInt8) ∉ Bytes.ofAscii (Json.obj fields).dumpInOrder :=
    Json.newline_notMem_dumpInOrder _
  obtain ⟨hc, hups⟩ := List.forall_mem_cons.mp hopen
  have hblob : blobOf answer (.obj fields) = some (Bytes.ofAscii out.dumpInOrder) := by
    simp only [blobOf, hanswer]
  have hserve := answers_serve hfields hblob
  rw [request, ofAscii_line, exchange_of_answers hc (answers_relays htext hups hfits hserve) hfits]
  exact Json.loads_dumpInOrder hout

/-- A client of a server that answers gets the answer, unless something closes early. -/
theorem request_of_answer (hfields : Json.KeysOnce (.obj fields)) {out : Json} (hout : Json.KeysOnce out)
    (hanswer : answer (.obj fields) = .ok out) (c : Connection) (ups : List Connection) :
    request c (relays ups (serve answer)) (.obj fields) = .ok out ∨
      (¬ ((∀ d ∈ c :: ups, d.Open) ∧ (Bytes.ofAscii out.dumpInOrder).length < 2 ^ 32) ∧
        request c (relays ups (serve answer)) (.obj fields) = .error .osError) := by
  have honly : ∀ out', answer (.obj fields) = .ok out' → out' = out := by
    intro out' hout'
    exact Except.ok.inj (hout'.symm.trans hanswer)
  rcases request_cases answer hfields (fun out' hout' => honly out' hout' ▸ hout) c ups with
    herror | ⟨out', hout', hreply⟩
  · right
    refine ⟨?_, herror⟩
    rintro ⟨hopen, hfits⟩
    rw [request_of_open hfields hout hanswer hfits hopen] at herror
    cases herror
  · left
    rw [hreply, honly out' hout']

/-- **The reply to a request is the server's answer to it, or there is none**: in whatever pieces
things arrive, however many relays are in between, and wherever a connection closes early.  Where
none does, and the answer is not too long for its length, the client gets it. -/
theorem requested (hfields : Json.KeysOnce (.obj fields))
    (hanswer : ∀ out, answer (.obj fields) = .ok out → Json.KeysOnce out) (c : Connection)
    (ups : List Connection) :
    (request c (relays ups (serve answer)) (.obj fields) = .error .osError ∨
      ∃ out, answer (.obj fields) = .ok out ∧
        request c (relays ups (serve answer)) (.obj fields) = .ok out) ∧
    ((∀ d ∈ c :: ups, d.Open) → ∀ out, answer (.obj fields) = .ok out →
      (Bytes.ofAscii out.dumpInOrder).length < 2 ^ 32 →
        request c (relays ups (serve answer)) (.obj fields) = .ok out) := by
  refine ⟨request_cases answer hfields hanswer c ups, ?_⟩
  intro hopen out hout hfits
  exact request_of_open hfields (hanswer out hout) hout hfits hopen

end Requests

/-! ## An example -/

theorem flatten_trickle (sent : Bytes) : (sent.map fun b => [b]).flatten = sent := by
  rw [← List.flatMap_def, List.flatMap_singleton']

/-- Everything arrives, byte by byte. -/
def Direction.trickle : Direction where
  deliver sent := ⟨sent.map fun b => [b], by simp⟩
  inOrder sent := ⟨[], (List.append_nil _).trans (flatten_trickle sent)⟩

/-- A connection that trickles both ways. -/
def Connection.trickle : Connection := ⟨.trickle, .trickle⟩

theorem Connection.open_trickle : Connection.trickle.Open := ⟨flatten_trickle, flatten_trickle⟩

/-- A server that answers a request with the request, behind two relays. -/
theorem requested_echo :
    request .trickle (relays [.trickle, .trickle] (serve .ok)) (.obj [("steps", .int 2)]) =
      .ok (.obj [("steps", .int 2)]) := by
  have hfields : Json.KeysOnce (.obj [("steps", .int 2)]) := ⟨by simp, trivial, trivial⟩
  have hanswer : ∀ out, Except.ok (Json.obj [("steps", .int 2)]) = (.ok out : Except Exn Json) →
      Json.KeysOnce out := by
    rintro out ⟨⟩
    exact hfields
  refine (requested hfields hanswer .trickle [.trickle, .trickle]).2 ?_ _ rfl (by decide +kernel)
  intro c hc
  simp only [List.mem_cons, List.not_mem_nil, or_false, or_self] at hc
  rw [hc]
  exact Connection.open_trickle

end Hatls.Wire
