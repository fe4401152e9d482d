import Hatls.Lockstep
import Hatls.Progress
import Hatls.Transcript

/-!
# The guest probe

`tools/guest_probe.py`: the script that runs in a confidential guest without access to the
library.  It derives the links of a chain and the binder of a handshake by code of its own,
and walks the chain in a loop whose first iteration is special, where the library has an
object with a state.  The two produce the same chain, and the mandate accepts it.

## Main definitions

* `GuestProbe.hkdfExpandLabel`, `GuestProbe.intraLink`, `GuestProbe.postLink`,
  `GuestProbe.reportDataFor`, `GuestProbe.chain` — the chain, as the probe walks it.
* `GuestProbe.firstHandshakeMessage`, `GuestProbe.transcriptChSh`,
  `GuestProbe.tls13HkdfExpandLabel`, `GuestProbe.draftBinder` — its copies of the binder.
* `Attester.attests` — successive steps of an attester.
* `readers_reassemble`, `probe_agrees` — that they agree with the library and the mandate.
-/

namespace Hatls

namespace GuestProbe

open Binder

section Chain

variable (P : Primitives)

def hkdfExpandLabel (secret label ctx : Bytes) (n : ℕ) : Except Exn Bytes := do
  let full := ascii "EXPERIMENTAL-hatls " ++ label
  let width ← toBytes 2 n
  let labelLength ← byte full.length
  let ctxLength ← byte ctx.length
  loop secret (width ++ labelLength ++ full ++ ctxLength ++ ctx) n [] [] 1
where
  loop (secret info : Bytes) (n : ℕ) (t out : Bytes) (i : ℕ) : Except Exn Bytes :=
    if out.length < n then
      match byte i with
      | .error x => .error x
      | .ok index =>
        let t := P.hmacSha384 secret (t ++ info ++ index)
        loop secret info n t (out ++ t) (i + 1)
    else .ok (out.take n)
  termination_by n - out.length
  decreasing_by simp only [List.length_append, Primitives.length_hmacSha384]; omega

def intraLink (th tikPub : Bytes) : Except Exn Bytes := do
  let base ← hkdfExpandLabel P (List.replicate 48 0) (ascii "attestation base") th 48
  hkdfExpandLabel P base (ascii "attestation") (P.sha384 tikPub) 32

def postLink (exp prev : Bytes) (counter : ℕ) : Except Exn Bytes := do
  let bytes ← toBytes 8 counter
  hkdfExpandLabel P exp (ascii "continuity") (prev ++ bytes) 32

def reportDataFor (link : Bytes) (head : Option Bytes) : Bytes :=
  match head with
  | none => P.sha512 (ascii "HATLS-continuity-v0" ++ link)
  | some head => P.sha512 (ascii "HATLS-continuity-v1" ++ link ++ head)

/-- One entry of the chain: what the chip was asked to sign, and its report. -/
structure Entry where
  counter : ℕ
  postLink : Bytes
  reportData : Bytes
  report : Json

/-- `prev if counter else intra_link(sc, tik_pub)`. -/
def linkBefore (sc tikPub : Bytes) (counter : ℕ) (prev : Bytes) : Except Exn Bytes :=
  if counter ≠ 0 then .ok prev else intraLink P sc tikPub

/-- One iteration of the chain loop. -/
def entry (snpReport : Bytes → Except Exn Json) (exp sc tikPub : Bytes) (head : Option Bytes)
    (counter : ℕ) (prev : Bytes) : Except Exn Entry := do
  let pl ← postLink P exp (← linkBefore P sc tikPub counter prev) counter
  let rd := reportDataFor P pl head
  let rep ← snpReport rd
  return ⟨counter, pl, rd, rep⟩

/-- The chain loop of `main`, with the exception that ended it, if one did. -/
def chain (snpReport : Bytes → Except Exn Json) (exp sc tikPub : Bytes) (head : Option Bytes)
    (steps : ℕ) : List Entry × Except Exn Unit :=
  match intraLink P sc tikPub with
  | .error x => ([], .error x)
  | .ok prev => loop steps 0 prev
where
  /-- `steps` more iterations, from a counter on. -/
  loop : ℕ → ℕ → Bytes → List Entry × Except Exn Unit
    | 0, _, _ => ([], .ok ())
    | steps + 1, counter, prev =>
      match entry P snpReport exp sc tikPub head counter prev with
      | .error x => ([], .error x)
      | .ok e =>
        let rest := loop steps (counter + 1) e.postLink
        (e :: rest.1, rest.2)

end Chain

section Binder

variable (H : HashAlgorithm)

def tls13HkdfExpandLabel (secret label context : Bytes) (length : ℕ) : Except Exn Bytes := do
  let full := ascii "tls13 " ++ label
  let width ← toBytes 2 length
  let labelLength ← byte full.length
  let contextLength ← byte context.length
  loop secret (width ++ labelLength ++ full ++ contextLength ++ context) length [] [] 1
where
  loop (secret info : Bytes) (length : ℕ) (t out : Bytes) (i : ℕ) : Except Exn Bytes :=
    if out.length < length then
      match byte i with
      | .error x => .error x
      | .ok index =>
        let t := H.hmac secret (t ++ info ++ index)
        loop secret info length t (out ++ t) (i + 1)
    else .ok (out.take length)
  termination_by length - out.length
  decreasing_by
    have := H.digestSize_pos
    simp only [List.length_append, HashAlgorithm.length_hmac]
    omega

def draftBinder (ch sh serverSpkiDer : Bytes) : Except Exn Bytes := do
  let base ← tls13HkdfExpandLabel H (List.replicate H.digestSize 0) (ascii "attestation base")
    (H.digest (ch ++ sh)) H.digestSize
  tls13HkdfExpandLabel H base (ascii "attestation") (H.digest serverSpkiDer) H.digestSize

end Binder

def hrrRandom : Bytes :=
  [0xcf, 0x21, 0xad, 0x74, 0xe5, 0x9a, 0x61, 0x11, 0xbe, 0x1d, 0x8c, 0x02, 0x1e, 0x65, 0xb8, 0x91,
    0xc2, 0xa2, 0x11, 0x16, 0x7a, 0xbb, 0x8c, 0x5e, 0x07, 0x9e, 0x09, 0xe2, 0xc8, 0xa8, 0x33, 0x9c]

def firstHandshakeMessage (stream : Bytes) (msgType : ℤ) : Option Bytes := loop 0 []
where
  loop (i : ℕ) (hs : Bytes) : Option Bytes :=
    if i + 5 ≤ stream.length then
      let ctype := stream.getD i 0
      let rlen := Bytes.fromBytes (Bytes.slice stream (i + 3) (i + 5))
      let body := Bytes.slice stream (i + 5) (i + 5 + rlen)
      if ctype ≠ 0x16 then
        if hs ≠ [] then none else loop (i + (5 + rlen)) hs
      else
        if 4 ≤ (hs ++ body).length then
          let t := (hs ++ body).getD 0 0
          let len := Bytes.fromBytes (Bytes.slice (hs ++ body) 1 4)
          if 4 + len ≤ (hs ++ body).length then
            if (t.toNat : ℤ) = msgType then some (Bytes.slice (hs ++ body) 0 (4 + len)) else none
          else loop (i + (5 + rlen)) (hs ++ body)
        else loop (i + (5 + rlen)) (hs ++ body)
    else none
  termination_by stream.length - i
  decreasing_by all_goals omega

def transcriptChSh (clientToServer serverToClient : Bytes) : Except Exn (Bytes × Bytes) :=
  match firstHandshakeMessage clientToServer 0x01, firstHandshakeMessage serverToClient 0x02 with
  | some ch, some sh =>
    if Bytes.slice sh 6 38 = hrrRandom then .error .valueError else .ok (ch, sh)
  | _, _ => .error .valueError

/-! ## The same functions -/

section Same

theorem hkdfLoop_eq (P : Primitives) (secret info : Bytes) (n : ℕ) (t out : Bytes) (i : ℕ) :
    hkdfExpandLabel.loop P secret info n t out i = Binder.expandLoop P secret info n t out i := by
  fun_induction Binder.expandLoop P secret info n t out i with
  | case1 t out i hroom x hbyte =>
      rw [hkdfExpandLabel.loop, if_pos hroom, hbyte]
  | case2 t out i hroom index hbyte t' ih =>
      rw [hkdfExpandLabel.loop, if_pos hroom, hbyte]
      exact ih
  | case3 t out i hroom =>
      rw [hkdfExpandLabel.loop, if_neg hroom]

theorem hkdfExpandLabel_eq_binder (P : Primitives) : hkdfExpandLabel P = Binder.hkdfExpandLabel P := by
  funext secret label ctx n
  simp only [hkdfExpandLabel, Binder.hkdfExpandLabel, hkdfLoop_eq]

theorem intraLink_eq_binder (P : Primitives) : intraLink P = Binder.intraLink P := by
  funext th tikPub
  simp only [intraLink, Binder.intraLink, hkdfExpandLabel_eq_binder]

theorem postLink_eq_binder (P : Primitives) : postLink P = Binder.postLink P := by
  funext exp prev counter
  simp only [postLink, Binder.postLink, hkdfExpandLabel_eq_binder]

theorem reportDataFor_eq_binder (P : Primitives) : reportDataFor P = Binder.reportDataFor P := rfl

theorem tls13Loop_eq (H : HashAlgorithm) (secret info : Bytes) (length : ℕ) (t out : Bytes) (i : ℕ) :
    tls13HkdfExpandLabel.loop H secret info length t out i =
      Transcript.hkdfExpand.loop H secret info length t out i := by
  fun_induction Transcript.hkdfExpand.loop H secret info length t out i with
  | case1 t out i hroom x hbyte =>
      rw [tls13HkdfExpandLabel.loop, if_pos hroom, hbyte]
  | case2 t out i hroom index hbyte t' ih =>
      rw [tls13HkdfExpandLabel.loop, if_pos hroom, hbyte]
      exact ih
  | case3 t out i hroom =>
      rw [tls13HkdfExpandLabel.loop, if_neg hroom]

theorem tls13HkdfExpandLabel_eq_transcript (H : HashAlgorithm) :
    tls13HkdfExpandLabel H = Transcript.tls13HkdfExpandLabel H := by
  funext secret label context length
  simp only [tls13HkdfExpandLabel, Transcript.tls13HkdfExpandLabel, tls13Loop_eq,
    Transcript.hkdfExpand]

/-- The binder of a handshake is the library's. -/
theorem draftBinder_eq_transcript (H : HashAlgorithm) : draftBinder H = Transcript.draftBinder H := by
  funext ch sh spki
  simp only [draftBinder, Transcript.draftBinder, tls13HkdfExpandLabel_eq_transcript]

theorem readerLoop_eq (stream : Bytes) (msgType : ℤ) (n : ℕ) :
    ∀ (i : ℕ) (hs : Bytes), stream.length - i ≤ n →
      firstHandshakeMessage.loop stream msgType i hs =
        Transcript.firstHandshakeMessage.loop stream msgType i hs := by
  induction n with
  | zero =>
      intro i hs hn
      have hend : ¬ i + 5 ≤ stream.length := by omega
      rw [firstHandshakeMessage.loop, Transcript.firstHandshakeMessage.loop, if_neg hend, if_neg hend]
  | succ n ih =>
      intro i hs hn
      rw [firstHandshakeMessage.loop, Transcript.firstHandshakeMessage.loop]
      by_cases hroom : i + 5 ≤ stream.length
      · have hnext : ∀ (rlen : ℕ) (hs' : Bytes),
            firstHandshakeMessage.loop stream msgType (i + (5 + rlen)) hs' =
              Transcript.firstHandshakeMessage.loop stream msgType (i + (5 + rlen)) hs' := by
          intro rlen hs'
          exact ih _ _ (by omega)
        simp only [if_pos hroom, hnext]
      · rw [if_neg hroom, if_neg hroom]

/-- The reader of a recorded connection is the library's. -/
theorem firstHandshakeMessage_eq_transcript :
    firstHandshakeMessage = Transcript.firstHandshakeMessage := by
  funext stream msgType
  exact readerLoop_eq stream msgType stream.length 0 [] (by omega)

theorem transcriptChSh_eq_transcript : transcriptChSh = Transcript.transcriptChSh := by
  funext clientToServer serverToClient
  rw [transcriptChSh, Transcript.transcriptChSh, firstHandshakeMessage_eq_transcript]
  rfl

/-- **Reassembly does not depend on the records**, in either copy of the reader.  Both are
total functions: the loop ends on every stream. -/
theorem readers_reassemble :
    Reassembles Transcript.firstHandshakeMessage ∧ Reassembles firstHandshakeMessage := by
  constructor
  · exact Transcript.reassembles
  · rw [firstHandshakeMessage_eq_transcript]
    exact Transcript.reassembles

/-- A message cut in its header, after a record of another type and before a stray byte. -/
theorem readers_reassemble_split :
    Transcript.firstHandshakeMessage
      [0x14, 3, 3, 0, 1, 1, 0x16, 3, 3, 0, 3, 1, 0, 0, 0x16, 3, 3, 0, 4, 2, 7, 8, 9, 0xff] 1 =
        some [1, 0, 0, 2, 7, 8] := by
  have hother : ∀ x ∈ [TlsRecord.mk 0x14 3 3 [1] (by decide)], x.ctype ≠ 0x16 := by simp
  have hcut : ∀ x ∈ [TlsRecord.mk 0x16 3 3 [1, 0, 0] (by decide),
      TlsRecord.mk 0x16 3 3 [2, 7, 8, 9] (by decide)], x.ctype = 0x16 := by simp
  exact readers_reassemble.1.whole ⟨1, [7, 8], by decide⟩ [9] _ _ [0xff] hother hcut rfl

end Same

end GuestProbe

/-! ## The library's chain -/

namespace Attester

variable (P : Primitives)

/-- What an attester asks its chip to sign: a chip that answers with what it was asked
makes it known. -/
def asks (a : Attester) (ctx exporter : Bytes) (head : Option Bytes) : Except Exn Bytes := do
  let msg ← (a.attest P (fun rd => .ok (.str (Bytes.hex rd))) ctx exporter head).1
  (← msg.item "evidence").fromHex

/-- Successive steps of an attester, up to the first exception: the messages, with what the
chip was asked for each. -/
def attests (report : Bytes → Except Exn Json) (ctx exporter : Bytes) (head : Option Bytes) :
    ℕ → Attester → List (Json × Except Exn Bytes) × Except Exn Unit
  | 0, _ => ([], .ok ())
  | steps + 1, a =>
    match a.attest P report ctx exporter head with
    | (.error x, _) => ([], .error x)
    | (.ok msg, a') =>
      let rest := attests report ctx exporter head steps a'
      ((msg, a.asks P ctx exporter head) :: rest.1, rest.2)

end Attester

namespace GuestProbe

/-- The message the library builds for an entry. -/
def Entry.attested (head : Option Bytes) (e : Entry) : Json :=
  let msg : List (String × Json) := [
    ("counter", .int e.counter),
    ("intra_ok_base", .bool (e.counter = 0)),
    ("post_link", .str (Bytes.hex e.postLink)),
    ("evidence", e.report)]
  match head with
  | none => .obj msg
  | some head => .obj (msg ++ [("head", .str (Bytes.hex head))])

/-- The message a relying party builds of an entry that the probe sent it. -/
def Entry.message (e : Entry) : Json :=
  .obj [
    ("counter", .int e.counter),
    ("post_link", .str (Bytes.hex e.postLink)),
    ("evidence", e.report)]

variable {P : Primitives}

open Binder

section Agree

variable {a : Attester} {il prev ctx exporter : Bytes} {report : Bytes → Except Exn Json}
  {head : Option Bytes}

/-- Where an attester stands after the links an iteration has made. -/
structure At (a : Attester) (counter : ℕ) (prev : Bytes) : Prop where
  counter_eq : a.counter = counter
  prev_eq : a.prev = if counter = 0 then none else some prev

theorem At.base {counter : ℕ} (h : At a counter prev)
    (hil : Binder.intraLink P ctx a.tikPub = .ok il) :
    linkBefore P ctx a.tikPub counter prev = .ok (a.prev.getD il) := by
  rw [linkBefore, h.prev_eq, intraLink_eq_binder, hil]
  by_cases hzero : counter = 0 <;> simp [hzero]

/-- A chip that answers with the question makes it known. -/
theorem asks_eq (hil : Binder.intraLink P ctx a.tikPub = .ok il) {pl : Bytes}
    (hlink : Binder.postLink P exporter (a.prev.getD il) a.counter = .ok pl) :
    a.asks P ctx exporter head = .ok (Binder.reportDataFor P pl head) := by
  cases head <;>
    simp [Attester.asks, Attester.attest, hil, hlink, Json.item, Json.lookup, Json.fromHex]

/-- **One step of the library is one iteration of the probe.** -/
theorem attest_eq_entry (hil : Binder.intraLink P ctx a.tikPub = .ok il) {counter : ℕ}
    (h : At a counter prev) :
    match entry P report exporter ctx a.tikPub head counter prev with
    | .error x => (a.attest P report ctx exporter head).1 = .error x
    | .ok e => a.attest P report ctx exporter head =
          (.ok (e.attested head), { a with prev := some e.postLink, counter := counter + 1 }) ∧
        a.asks P ctx exporter head = .ok e.reportData := by
  obtain rfl := h.counter_eq
  rw [entry, h.base hil, Exn.ok_bind, postLink_eq_binder, reportDataFor_eq_binder]
  cases hlink : Binder.postLink P exporter (a.prev.getD il) a.counter with
  | error x => simp [Attester.attest, hil, hlink]
  | ok pl =>
      cases hrep : report (Binder.reportDataFor P pl head) with
      | error x => simp [Attester.attest, hil, hlink, hrep]
      | ok rep =>
          have hfirst : a.prev.isNone = decide (a.counter = 0) := by
            rw [h.prev_eq]
            by_cases hzero : a.counter = 0 <;> simp [hzero]
          simp only [Exn.ok_bind, hrep, Exn.pure_eq_ok]
          constructor
          · cases head <;> simp [Attester.attest, hil, hlink, hrep, hfirst, Entry.attested]
          · exact asks_eq hil hlink

/-- **Successive steps of the library are the iterations of the probe.** -/
theorem attests_eq_loop {k : Bytes} (hil : Binder.intraLink P ctx k = .ok il) (steps : ℕ) :
    ∀ {a : Attester} {counter : ℕ} {prev : Bytes}, a.tikPub = k → At a counter prev →
      a.attests P report ctx exporter head steps =
        (((chain.loop P report exporter ctx k head steps counter prev).1.map fun e =>
            (e.attested head, .ok e.reportData)),
          (chain.loop P report exporter ctx k head steps counter prev).2) := by
  induction steps with
  | zero =>
      intro a counter prev _ _
      rfl
  | succ steps ih =>
      intro a counter prev htik h
      subst htik
      have hstep := @attest_eq_entry P a il prev ctx exporter report head hil counter h
      rw [chain.loop, Attester.attests]
      cases hentry : entry P report exporter ctx a.tikPub head counter prev with
      | error x =>
          simp only [hentry] at hstep
          generalize a.attest P report ctx exporter head = out at hstep
          obtain ⟨answer, a'⟩ := out
          subst hstep
          rfl
      | ok e =>
          simp only [hentry] at hstep
          have hnext : At { a with prev := some e.postLink, counter := counter + 1 } (counter + 1)
              e.postLink := ⟨rfl, by simp⟩
          have hrest := ih (show ({ a with prev := some e.postLink, counter := counter + 1 } :
            Attester).tikPub = a.tikPub from rfl) hnext
          rw [hstep.1, hstep.2]
          simp only [hrest, List.map_cons]

/-- **The probe and the library produce the same chain.** -/
theorem attests_eq_chain (report : Bytes → Except Exn Json) (ctx exporter k : Bytes)
    (head : Option Bytes) (steps : ℕ) :
    ((Attester.new k).attests P report ctx exporter head steps).1 =
        (chain P report exporter ctx k head steps).1.map
          (fun e => (e.attested head, .ok e.reportData)) ∧
      (0 < steps → ((Attester.new k).attests P report ctx exporter head steps).2 =
        (chain P report exporter ctx k head steps).2) := by
  cases hil : Binder.intraLink P ctx k with
  | ok il =>
      have hstart : At (Attester.new k) 0 il := ⟨rfl, rfl⟩
      rw [chain, intraLink_eq_binder, hil, attests_eq_loop hil steps rfl hstart]
      exact ⟨rfl, fun _ => rfl⟩
  | error x =>
      rw [chain, intraLink_eq_binder, hil]
      cases steps with
      | zero => exact ⟨rfl, fun h => absurd h (lt_irrefl 0)⟩
      | succ steps =>
          have hattest : (Attester.new k).attest P report ctx exporter head =
              (.error x, Attester.new k) := by
            simp [Attester.attest, Attester.new, hil]
          rw [Attester.attests, hattest]
          exact ⟨rfl, fun _ => rfl⟩

end Agree

/-! ## The chain in front of a mandate -/

open Mandate

/-- The chip answers with evidence that the mandate accepts, of one instance at one
place. -/
def ChipAt (cfg : Config) (inst : Bytes) (place : Option Bytes) (report : Bytes → Except Exn Json) :
    Prop :=
  ∀ rd evidence, report rd = .ok evidence → ∃ anchor : Anchor,
    cfg.verifyReport evidence rd = .ok (true, some anchor) ∧ anchor.inst = inst ∧ anchor.place = place

/-- Where the mandate requires a place, there is one, and it is the one on record. -/
def AtPlace (cfg : Config) (r : Record) (place : Option Bytes) : Prop :=
  cfg.requirePlace = true → place.isSome ∧
    ((nonEmpty r.enrolledPlace).isSome → place = nonEmpty r.enrolledPlace)

/-- An identity is at the place it was enrolled with. -/
theorem atPlace_enrolled {cfg : Config} {r : Record} {place : Option Bytes}
    (hrecord : r.enrolledPlace = nonEmpty place) (hplaced : cfg.requirePlace = true → place.isSome) :
    AtPlace cfg r place := by
  intro hreq
  obtain ⟨p, rfl⟩ := Option.isSome_iff_exists.mp (hplaced hreq)
  refine ⟨rfl, fun hsome => ?_⟩
  rw [hrecord] at hsome ⊢
  by_cases hempty : p = []
  · rw [hempty] at hsome
    cases hsome
  · rw [nonEmpty_some hempty, nonEmpty_some hempty]

/-- **The mandate has the identity enrolled on the instance**, and the session is new to it:
the record is in force and nothing else was observed, where a place is required it is the one on
record, and a head is one the log has had. -/
structure Ready (P : Primitives) (cfg : Config) (m : Mandate) (k ctx inst : Bytes)
    (place head : Option Bytes) : Prop where
  coherent : Coherent (m.record k) inst
  placed : AtPlace cfg (m.record k) place
  fresh : m.sessions (sessionKey P k ctx) = none
  known : ∀ h, head = some h → m.knowsHead h = true

/-- Messages presented in order, each at its time. -/
def presents (k ctx exporter : Bytes) (head : Option Bytes) (msgs : List Json)
    (times : List Moment) : List (Moment × Call) :=
  List.zipWith (fun msg t => (t, .present k ctx exporter msg head none)) msgs times

/-- A message with what the mandate reads of an entry. -/
structure Carries (e : Entry) (msg : Json) : Prop where
  counter : msg.item "counter" = .ok (.int e.counter)
  link : postLinkOf msg = .ok e.postLink
  evidence : msg.item "evidence" = .ok e.report

theorem carries_message (e : Entry) : Carries e e.message where
  counter := rfl
  link := by simp [postLinkOf, Entry.message, Json.item, Json.lookup, Json.fromHex]
  evidence := rfl

theorem carries_attested (head : Option Bytes) (e : Entry) : Carries e (e.attested head) := by
  constructor
  · cases head <;> rfl
  · cases head <;> simp [postLinkOf, Entry.attested, Json.item, Json.lookup, Json.fromHex]
  · cases head <;> rfl

section Presented

variable {cfg : Config} {k ctx exporter inst : Bytes} {place head : Option Bytes}
  {report : Bytes → Except Exn Json}

/-- What an iteration produces is the next link, and the chip's answer to it. -/
theorem entry_eq_ok {counter : ℕ} {prev base : Bytes} {e : Entry}
    (hbase : linkBefore P ctx k counter prev = .ok base) (hlength : base.length = 32)
    (h : entry P report exporter ctx k head counter prev = .ok e) :
    counter < 2 ^ 64 ∧ e.counter = counter ∧ e.postLink = nextLink P exporter base counter ∧
      report (Binder.reportDataFor P (nextLink P exporter base counter) head) = .ok e.report := by
  rw [entry, hbase, Exn.ok_bind, postLink_eq_binder, reportDataFor_eq_binder] at h
  by_cases hcounter : counter < 2 ^ 64
  · rw [Binder.postLink_eq P exporter hlength hcounter, Exn.ok_bind] at h
    obtain ⟨rep, hrep, he⟩ := Exn.bind_eq_ok h
    cases he
    exact ⟨hcounter, rfl, rfl, hrep⟩
  · rw [Binder.postLink_error P exporter base (Nat.le_of_not_lt hcounter)] at h
    cases h

/-- An entry holds what the chip answered. -/
theorem report_of_mem_loop (steps : ℕ) : ∀ {counter : ℕ} {prev : Bytes},
    ∀ e ∈ (chain.loop P report exporter ctx k head steps counter prev).1,
      report e.reportData = .ok e.report := by
  induction steps with
  | zero =>
      intro counter prev e he
      cases he
  | succ steps ih =>
      intro counter prev e he
      rw [chain.loop] at he
      cases hentry : entry P report exporter ctx k head counter prev with
      | error x =>
          rw [hentry] at he
          cases he
      | ok first =>
          simp only [hentry, List.mem_cons] at he
          rcases he with rfl | he
          · obtain ⟨base, -, hrest⟩ := Exn.bind_eq_ok hentry
            obtain ⟨pl, -, hrest⟩ := Exn.bind_eq_ok hrest
            obtain ⟨rep, hrep, heq⟩ := Exn.bind_eq_ok hrest
            cases heq
            exact hrep
          · exact ih e he

theorem report_of_mem_chain {steps : ℕ} {e : Entry}
    (h : e ∈ (chain P report exporter ctx k head steps).1) : report e.reportData = .ok e.report := by
  rw [chain] at h
  cases hil : intraLink P ctx k with
  | error x =>
      rw [hil] at h
      cases h
  | ok il =>
      rw [hil] at h
      exact report_of_mem_loop steps e h

/-- **The mandate accepts what the loop produces**, from wherever the two stand. -/
theorem accepts_loop (hchip : ChipAt cfg inst place report) {form : Entry → Json}
    (hform : ∀ e, Carries e (form e)) (steps : ℕ) :
    ∀ {m : Mandate} {counter : ℕ} {prev base : Bytes} (times : List Moment),
      Coherent (m.record k) inst → AtPlace cfg (m.record k) place →
      (∀ h, head = some h → m.knowsHead h = true) →
      linkBefore P ctx k counter prev = .ok base → base.length = 32 →
      m.Expects P k ctx base counter →
      Run.Along (step P cfg) (fun m i => (m.step P cfg i).1.accepted = true) m
        (presents k ctx exporter head
          ((chain.loop P report exporter ctx k head steps counter prev).1.map form) times) := by
  induction steps with
  | zero =>
      intro m counter prev base times _ _ _ _ _ _
      simp [chain.loop, presents]
  | succ steps ih =>
      intro m counter prev base times hco hplaced hknown hbase hlength hexp
      rw [chain.loop]
      cases hentry : entry P report exporter ctx k head counter prev with
      | error x => simp [presents]
      | ok e =>
          cases times with
          | nil => simp [presents]
          | cons t times =>
              obtain ⟨hcounter, hnumber, hlink, hreport⟩ := entry_eq_ok hbase hlength hentry
              obtain ⟨anchor, hver, rfl, rfl⟩ := hchip _ _ hreport
              have hmsg := hform e
              have hadm : Admits P cfg m k ctx exporter (form e) head none (some anchor.inst)
                  anchor.place (nextLink P exporter base counter) counter := by
                apply admits_of_anchor
                · rw [hmsg.counter, hnumber]
                · rw [hmsg.link, hlink]
                · rw [verifyEvidence, hmsg.evidence]
                  exact hver
                · exact hlength
                · exact hcounter
                · exact hco.welcome
                · exact hplaced
                · cases head with
                  | none => rfl
                  | some h => simp [checkHead, hknown h rfl]
                · exact hexp
              have hstep := step_of_admits m t hadm
              simp only [List.map_cons, presents, List.zipWith_cons_cons, Run.along_cons]
              constructor
              · rw [hstep]
                rfl
              · have hrecord : (m.step P cfg (t, .present k ctx exporter (form e) head none)).2.record k =
                    { m.record k with
                      observedInstance := some anchor.inst
                      observedPlace := nonEmpty anchor.place } := by
                  rw [hstep, record_recordDecision, record_admitted_self]
                apply @ih _ _ e.postLink e.postLink times
                · rw [hrecord]
                  exact ⟨hco.notRevoked, hco.enrolled, fun o ho => (Option.some.inj ho).symm⟩
                · rw [hrecord]
                  exact hplaced
                · intro h hh
                  exact knowsHead_step _ (hknown h hh)
                · rfl
                · rw [hlink, length_nextLink]
                · rw [hstep, Expects, sessions_recordDecision, sessions_admitted,
                    Function.update_self, hlink]
                  exact ⟨rfl, rfl⟩

/-- **The mandate accepts the chain**, whichever of the two forms its messages have. -/
theorem accepts_chain (hchip : ChipAt cfg inst place report) {m : Mandate}
    (h : Ready P cfg m k ctx inst place head) {form : Entry → Json}
    (hform : ∀ e, Carries e (form e)) (steps : ℕ) (times : List Moment) :
    Run.Along (step P cfg) (fun m i => (m.step P cfg i).1.accepted = true) m
      (presents k ctx exporter head
        ((chain P report exporter ctx k head steps).1.map form) times) := by
  rw [chain, intraLink_eq_binder]
  cases hil : Binder.intraLink P ctx k with
  | error x => simp [presents]
  | ok il =>
      have hctx : ctx.length < 256 := by
        by_contra hlong
        rw [Binder.intraLink_error P (Nat.le_of_not_lt hlong)] at hil
        cases hil
      obtain rfl : firstLink P ctx k = il := by
        rw [Binder.intraLink_eq P hctx] at hil
        exact Except.ok.inj hil
      apply accepts_loop hchip hform steps times h.coherent h.placed h.known
      · rw [linkBefore, intraLink_eq_binder]
        simpa using hil
      · exact length_firstLink P ctx k
      · rw [Expects, h.fresh]
        exact ⟨rfl, hil⟩

/-- An iteration produces its entry where the chip answers. -/
theorem entry_of_report {counter : ℕ} {prev base : Bytes} {rep : Json}
    (hbase : linkBefore P ctx k counter prev = .ok base) (hlength : base.length = 32)
    (hcounter : counter < 2 ^ 64)
    (hrep : report (Binder.reportDataFor P (nextLink P exporter base counter) head) = .ok rep) :
    entry P report exporter ctx k head counter prev = .ok ⟨counter, nextLink P exporter base counter,
      Binder.reportDataFor P (nextLink P exporter base counter) head, rep⟩ := by
  rw [entry, hbase, Exn.ok_bind, postLink_eq_binder, Binder.postLink_eq P exporter hlength hcounter,
    Exn.ok_bind, reportDataFor_eq_binder]
  simp only [hrep, Exn.ok_bind, Exn.pure_eq_ok]

/-- As many entries as steps, where the chip answers and nothing is too long. -/
theorem length_loop (hanswers : ∀ rd, ∃ evidence, report rd = .ok evidence) (steps : ℕ) :
    ∀ {counter : ℕ} {prev base : Bytes}, linkBefore P ctx k counter prev = .ok base →
      base.length = 32 → counter + steps ≤ 2 ^ 64 →
      (chain.loop P report exporter ctx k head steps counter prev).1.length = steps := by
  induction steps with
  | zero =>
      intro counter prev base _ _ _
      rfl
  | succ steps ih =>
      intro counter prev base hbase hlength hfits
      obtain ⟨rep, hrep⟩ := hanswers (Binder.reportDataFor P (nextLink P exporter base counter) head)
      rw [chain.loop, entry_of_report hbase hlength (by omega) hrep]
      simp only [List.length_cons]
      rw [@ih (counter + 1) _ (nextLink P exporter base counter) rfl (length_nextLink P _ _ _) (by omega)]

theorem length_chain (hanswers : ∀ rd, ∃ evidence, report rd = .ok evidence)
    (hctx : ctx.length < 256) {steps : ℕ} (hsteps : steps ≤ 2 ^ 64) :
    (chain P report exporter ctx k head steps).1.length = steps := by
  rw [chain, intraLink_eq_binder, Binder.intraLink_eq P hctx]
  apply @length_loop P k ctx exporter head report hanswers steps _ _ (firstLink P ctx k)
  · rw [linkBefore, intraLink_eq_binder]
    simpa using Binder.intraLink_eq P hctx k
  · exact length_firstLink P ctx k
  · omega

end Presented

/-- **The probe, the library and the mandate walk one chain**, of any number of steps, and
the probe's copies of the binder are the library's. -/
theorem probe_agrees (P : Primitives) :
    (∀ report ctx exporter k head steps,
      ((Attester.new k).attests P report ctx exporter head steps).1 =
        (chain P report exporter ctx k head steps).1.map
          fun e => (e.attested head, .ok e.reportData)) ∧
    (∀ cfg report inst place m ctx exporter k head steps times,
      ChipAt cfg inst place report → Ready P cfg m k ctx inst place head →
        Run.Along (step P cfg) (fun m i => (m.step P cfg i).1.accepted = true) m
            (presents k ctx exporter head
              ((chain P report exporter ctx k head steps).1.map Entry.message) times) ∧
          Run.Along (step P cfg) (fun m i => (m.step P cfg i).1.accepted = true) m
            (presents k ctx exporter head
              (((Attester.new k).attests P report ctx exporter head steps).1.map Prod.fst) times)) ∧
    (∀ report ctx exporter k head steps, (∀ rd, ∃ evidence, report rd = .ok evidence) →
      ctx.length < 256 → steps ≤ 2 ^ 64 →
        (chain P report exporter ctx k head steps).1.length = steps) ∧
    firstHandshakeMessage = Transcript.firstHandshakeMessage ∧
    transcriptChSh = Transcript.transcriptChSh ∧
    ∀ H, draftBinder H = Transcript.draftBinder H := by
  refine ⟨?_, ?_, ?_, firstHandshakeMessage_eq_transcript, transcriptChSh_eq_transcript,
    draftBinder_eq_transcript⟩
  · intro report ctx exporter k head steps
    exact (attests_eq_chain report ctx exporter k head steps).1
  · intro cfg report inst place m ctx exporter k head steps times hchip hready
    refine ⟨accepts_chain hchip hready carries_message steps times, ?_⟩
    rw [(attests_eq_chain report ctx exporter k head steps).1, List.map_map]
    exact accepts_chain hchip hready (carries_attested head) steps times
  · intro report ctx exporter k head steps hanswers hctx hsteps
    exact length_chain hanswers hctx hsteps

open Tee in
/-- A probe on the enrolled chip walks two steps, and both are accepted. -/
theorem probe_agrees_twoChips :
    let entries := (chain .plain (fun rd => .ok (teeA.report .plain [] rd)) [4] [3] tik none 2).1
    entries.length = 2 ∧
      Run.Along (step .plain twoChips) (fun m i => (m.step .plain twoChips i).1.accepted = true)
        (after .plain twoChips (fun _ => none) (birth none))
        (presents tik [3] [4] none (entries.map Entry.message) [instant 2, instant 3]) := by
  obtain ⟨-, haccepts, hlength, -⟩ := probe_agrees .plain
  constructor
  · exact hlength _ [3] [4] tik none 2 (fun rd => ⟨_, rfl⟩) (by decide) (by norm_num)
  · have hchip : ChipAt twoChips teeA.inst (some teeA.chip)
        fun rd => .ok (teeA.report .plain [] rd) := by
      intro rd evidence h
      obtain rfl := Except.ok.inj h
      exact ⟨teeA_trusted.anchor, mockVerifier_report .plain teeA_trusted [] rd, rfl, rfl⟩
    have hrecord := record_birth trustsChips none
    have hsessions := sessions_birth trustsChips none (sessionKey .plain tik [3])
    generalize after .plain twoChips (fun _ => none) (birth none) = m at hrecord hsessions ⊢
    refine (haccepts twoChips _ teeA.inst (some teeA.chip) m [3] [4] tik none 2 _ hchip ?_).1
    constructor
    · rw [hrecord]
      exact ⟨rfl, rfl, fun o ho => nomatch ho⟩
    · exact atPlace_enrolled (by rw [hrecord]; rfl) fun _ => rfl
    · exact hsessions
    · intro h hh
      cases hh

open Tee in
/-- **The owner's probe can be locked out.**  Another instance is served while the identity is not
enrolled; the owner then enrols, and the first step of its probe, in a new session, is refused. -/
theorem probe_locked_out :
    let entries := (chain .plain (fun rd => .ok (teeA.report .plain [] rd)) [4] [3] tik none 1).1
    Reachable .plain twoChips contested ∧ entries.length = 1 ∧
      (contested.record tik).enrolledInstance = some teeA.inst ∧
      contested.sessions (sessionKey .plain tik [3]) = none ∧
      ¬ Run.Along (step .plain twoChips) (fun m i => (m.step .plain twoChips i).1.accepted = true)
        contested (presents tik [3] [4] none (entries.map Entry.message) [instant 3]) := by
  intro entries
  obtain ⟨-, henrolled, hobserved, hsessions⟩ := step_openedElsewhere
  have hlength : entries.length = 1 :=
    length_chain (fun rd => ⟨_, rfl⟩) (by decide) (by norm_num)
  obtain ⟨e, hentries⟩ := List.length_eq_one_iff.mp hlength
  refine ⟨⟨_, _, .empty, rfl⟩, hlength, henrolled, hsessions, ?_⟩
  rw [hentries]
  rintro ⟨haccepted, -⟩
  obtain ⟨inst, place, pl, n, hadm, -⟩ := contested.admits_of_accepted (instant 3) haccepted
  -- the evidence is of the owner, and another instance was observed
  obtain ⟨anchor, hver, hinst, -⟩ := hadm.verified
  have hreport : Except.ok (teeA.report .plain [] e.reportData) = Except.ok (ε := Exn) e.report :=
    report_of_mem_chain (P := .plain) (hentries ▸ List.mem_singleton_self e)
  have hver : mockVerifier .plain ["0a", "0b"] e.report (Binder.reportDataFor .plain pl none) =
      .ok (true, anchor) := hver
  rw [← Except.ok.inj hreport] at hver
  rw [mockVerifier_report_eq .plain hver, mockVerifier_report .plain teeA_trusted] at hver
  obtain rfl := (Prod.mk.inj (Except.ok.inj hver)).2
  have hsole := hadm.sole teeB.inst teeA.inst (by rw [hobserved]; rfl) (by rw [hinst]; rfl)
  exact absurd hsole (by decide)

end GuestProbe

end Hatls
