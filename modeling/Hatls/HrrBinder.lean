import Mathlib.Data.List.Dedup
import Hatls.DraftBinder

/-!
# Binders after a HelloRetryRequest

`examples/hrr_binder.py`: where a server asks for another ClientHello, the words of the draft allow
four readings of what the binder is derived from.  The reader of all plaintext messages, the four
derivations, and how they differ.

The four binders are told apart by what each reading covers, so they are four where the two
ClientHellos differ, and three where the client sent the same one again.

## Main definitions

* `plaintextHandshakeMessages`, `binder`, `fourReadings` — the program.
* `Retry` — the four messages of such a handshake.
* `Reading.covers` — the messages that a reading hashes.
* `retry_read`, `readings_commit` — the readings of a retried handshake.
-/

namespace Hatls.HrrBinder

open Transcript Binder

/-! ## The program -/

/-- The handshake bytes of the plaintext records at the front of a stream. -/
def plaintextHandshake (stream : Bytes) : Bytes := loop 0 []
where
  loop (i : ℕ) (hs : Bytes) : Bytes :=
    if i + 5 ≤ stream.length then
      let ct := stream.getD i 0
      let ln := Bytes.fromBytes (Bytes.slice stream (i + 3) (i + 5))
      let body := Bytes.slice stream (i + 5) (i + 5 + ln)
      if ct = 0x16 then loop (i + (5 + ln)) (hs ++ body)
      else if ct = 0x14 then loop (i + (5 + ln)) hs
      else hs
    else hs
  termination_by stream.length - i
  decreasing_by all_goals omega

/-- The messages that handshake bytes begin with. -/
def messages (hs : Bytes) : List Bytes :=
  if 4 ≤ hs.length then
    let len := Bytes.fromBytes (Bytes.slice hs 1 4)
    if hs.length < 4 + len then []
    else Bytes.slice hs 0 (4 + len) :: messages (hs.drop (4 + len))
  else []
termination_by hs.length
decreasing_by
  rw [List.length_drop]
  omega

/-- Handshake messages from the plaintext records at the front of a stream, in order. -/
def plaintextHandshakeMessages (stream : Bytes) : List Bytes := messages (plaintextHandshake stream)

section Derivation

variable (H : HashAlgorithm)

/-- The binder that is derived from a transcript hash. -/
def binder (transcriptHash spki : Bytes) : Except Exn Bytes := do
  let base ← tls13HkdfExpandLabel H (List.replicate H.digestSize 0) (ascii "attestation base")
    transcriptHash H.digestSize
  tls13HkdfExpandLabel H base (ascii "attestation") (H.digest spki) H.digestSize

/-- The four readings. -/
inductive Reading
  | retryIgnored
  | messagesAsSent
  | messageHash
  | secondClientHello
  deriving DecidableEq

/-- In the order in which they are listed. -/
def Reading.all : List Reading := [.retryIgnored, .messagesAsSent, .messageHash, .secondClientHello]

/-- The ClientHellos of a stream. -/
def clientHellos (c2s : Bytes) : List Bytes :=
  (plaintextHandshakeMessages c2s).filter fun m => m.getD 0 0 = 0x01

/-- The ServerHellos of a stream, with those that ask for another ClientHello. -/
def serverMessages (s2c : Bytes) : List Bytes :=
  (plaintextHandshakeMessages s2c).filter fun m => m.getD 0 0 = 0x02

def helloRetryRequests (s2c : Bytes) : List Bytes :=
  (serverMessages s2c).filter fun m => Bytes.slice m 6 38 = hrrRandom

def serverHellos (s2c : Bytes) : List Bytes :=
  (serverMessages s2c).filter fun m => Bytes.slice m 6 38 ≠ hrrRandom

/-- The binder under each reading, and the lengths of the four messages.  The assertion that there
are four messages is given as a `ValueError`. -/
def fourReadings (c2s s2c spki : Bytes) : Except Exn ((Reading → Bytes) × (ℕ × ℕ × ℕ × ℕ)) :=
  match clientHellos c2s, helloRetryRequests s2c, serverHellos s2c with
  | [ch1, ch2], [hrr], [sh] => do
    let size ← byte H.digestSize
    let msgHash := [0xfe, 0x00, 0x00] ++ size ++ H.digest ch1
    let a ← binder H (H.digest (ch1 ++ sh)) spki
    let b ← binder H (H.digest (ch1 ++ hrr ++ ch2 ++ sh)) spki
    let c ← binder H (H.digest (msgHash ++ hrr ++ ch2 ++ sh)) spki
    let d ← binder H (H.digest (ch2 ++ sh)) spki
    let binders : Reading → Bytes
      | .retryIgnored => a
      | .messagesAsSent => b
      | .messageHash => c
      | .secondClientHello => d
    return (binders, (ch1.length, hrr.length, ch2.length, sh.length))
  | _, _, _ => .error .valueError

end Derivation

/-- `len(set(b.values()))`. -/
def distinct (binders : Reading → Bytes) : ℕ := ((Reading.all.map binders).dedup).length

/-! ## Messages -/

/-- **What the reader does with handshake bytes**: it takes the first message off. -/
theorem messages_eq (hs : Bytes) :
    messages hs = match firstWhole hs with
      | some m => m :: messages (hs.drop m.length)
      | none => [] := by
  rw [messages, firstWhole]
  by_cases hheader : 4 ≤ hs.length
  · by_cases hbody : 4 + Bytes.fromBytes (Bytes.slice hs 1 4) ≤ hs.length
    · have hlength : (Bytes.slice hs 0 (4 + Bytes.fromBytes (Bytes.slice hs 1 4))).length =
          4 + Bytes.fromBytes (Bytes.slice hs 1 4) := by
        rw [Bytes.slice, List.drop_zero, List.length_take]
        omega
      simp only [if_pos hheader, if_neg (Nat.not_lt.mpr hbody), if_pos (And.intro hheader hbody),
        hlength]
    · simp only [if_pos hheader, if_pos (Nat.lt_of_not_le hbody), if_neg fun h => hbody (And.right h)]
  · simp only [if_neg hheader, if_neg fun h => hheader (And.left h)]

theorem messages_handshake (m : Handshake) (rest : Bytes) :
    messages (m.encode ++ rest) = m.encode :: messages rest := by
  rw [messages_eq, firstWhole_handshake]
  simp only [List.drop_left]

theorem messages_flatMap (ms : List Handshake) (rest : Bytes) :
    messages (ms.flatMap Handshake.encode ++ rest) = ms.map Handshake.encode ++ messages rest := by
  induction ms with
  | nil => rfl
  | cons m ms ih => rw [List.flatMap_cons, List.append_assoc, messages_handshake, ih]; rfl

theorem messages_nil : messages [] = [] := by
  rw [messages, if_neg (by simp)]

/-- Every message is an encoded one. -/
theorem exists_of_mem_messages (n : ℕ) :
    ∀ hs : Bytes, hs.length ≤ n → ∀ b ∈ messages hs, ∃ m : Handshake, b = m.encode := by
  induction n with
  | zero =>
      intro hs hn b hb
      rw [List.length_eq_zero_iff.mp (Nat.le_zero.mp hn), messages_nil] at hb
      cases hb
  | succ n ih =>
      intro hs hn b hb
      rw [messages_eq] at hb
      cases hwhole : firstWhole hs with
      | none => simp [hwhole] at hb
      | some b' =>
          obtain ⟨m, hm, -⟩ := exists_handshake hwhole
          simp only [hwhole, List.mem_cons] at hb
          obtain rfl | hb := hb
          · exact ⟨m, hm⟩
          · refine ih _ ?_ b hb
            have hlength := length_handshake m
            rw [List.length_drop, hm]
            omega

theorem handshake_of_message {stream b : Bytes} (hb : b ∈ plaintextHandshakeMessages stream) :
    ∃ m : Handshake, b = m.encode :=
  exists_of_mem_messages _ _ le_rfl b hb

/-- A message is read off its encoding. -/
theorem encode_injective : Function.Injective Handshake.encode := by
  intro m m' heq
  obtain ⟨t, body, hshort⟩ := m
  obtain ⟨t', body', hshort'⟩ := m'
  have hheader : ∀ (t : UInt8) (body : Bytes),
      ([t] ++ (Bytes.toLittle 3 body.length).reverse).length = 4 := by
    intro t body
    simp [Bytes.length_toLittle]
  have hbody : body = body' := by
    have hdrop := congrArg (List.drop 4) heq
    simp only [Handshake.encode] at hdrop
    rwa [List.drop_left' (hheader t body), List.drop_left' (hheader t' body')] at hdrop
  have htype : t = t' := (List.cons.inj heq).1
  subst hbody htype
  rfl

/-- **Messages that stand one after another are told apart.** -/
theorem flatMap_encode_injective {ms ms' : List Handshake}
    (h : ms.flatMap Handshake.encode = ms'.flatMap Handshake.encode) : ms = ms' := by
  have hread := messages_flatMap ms []
  rw [h, messages_flatMap ms' [], messages_nil, List.append_nil, List.append_nil] at hread
  exact (List.map_injective_iff.mpr encode_injective hread).symm

/-! ## Records -/

open plaintextHandshake (loop)

/-- The step over a record. -/
theorem loop_plaintext (before : Bytes) (r : TlsRecord) (after hs : Bytes) :
    loop (before ++ (r.encode ++ after)) before.length hs =
      if r.ctype = 0x16 then
        loop (before ++ (r.encode ++ after)) (before ++ r.encode).length (hs ++ r.payload)
      else if r.ctype = 0x14 then
        loop (before ++ (r.encode ++ after)) (before ++ r.encode).length hs
      else hs := by
  obtain ⟨htype, hlength, hpayload⟩ := at_record before r after
  have hroom : before.length + 5 ≤ (before ++ (r.encode ++ after)).length := by
    rw [List.length_append, List.length_append, length_record]
    omega
  rw [lengthAt] at hlength
  rw [payloadAt, lengthAt, hlength] at hpayload
  rw [loop, if_pos hroom]
  simp only [htype, hlength, hpayload, List.length_append, length_record]

/-- What ends the plaintext: no room for a header, or a record of another type. -/
def Ends (tail : Bytes) : Prop := tail.length < 5 ∨ tail.getD 0 0 ≠ 0x16 ∧ tail.getD 0 0 ≠ 0x14

theorem loop_ends (before : Bytes) {tail : Bytes} (h : Ends tail) (hs : Bytes) :
    loop (before ++ tail) before.length hs = hs := by
  rw [loop]
  by_cases hroom : before.length + 5 ≤ (before ++ tail).length
  · rw [if_pos hroom, List.getD_append_right _ _ _ _ le_rfl, Nat.sub_self]
    obtain hshort | ⟨hhandshake, hchange⟩ := h
    · rw [List.length_append] at hroom
      omega
    · simp only [if_neg hhandshake, if_neg hchange]
  · rw [if_neg hroom]

/-- The handshake records among records. -/
def handshakeRecords (records : List TlsRecord) : List TlsRecord :=
  records.filter fun x => x.ctype = 0x16

theorem handshakeRecords_cons_of_handshake {x : TlsRecord} (h : x.ctype = 0x16)
    (records : List TlsRecord) :
    handshakeRecords (x :: records) = x :: handshakeRecords records :=
  List.filter_cons_of_pos (by simpa using h)

theorem handshakeRecords_cons_of_other {x : TlsRecord} (h : x.ctype ≠ 0x16)
    (records : List TlsRecord) : handshakeRecords (x :: records) = handshakeRecords records :=
  List.filter_cons_of_neg (by simpa using h)

/-- **Records are put together**, whatever ChangeCipherSpec stands between them. -/
theorem loop_records (records : List TlsRecord)
    (hplain : ∀ x ∈ records, x.ctype = 0x16 ∨ x.ctype = 0x14) {tail : Bytes} (htail : Ends tail)
    (before hs : Bytes) :
    loop (before ++ (records.flatMap TlsRecord.encode ++ tail)) before.length hs =
      hs ++ (handshakeRecords records).flatMap TlsRecord.payload := by
  induction records generalizing before hs with
  | nil =>
      rw [List.flatMap_nil, List.nil_append, loop_ends before htail]
      simp [handshakeRecords]
  | cons x records ih =>
      have hrest := ih (fun y hy => hplain y (List.mem_cons_of_mem _ hy)) (before ++ x.encode)
      rw [List.flatMap_cons, List.append_assoc, loop_plaintext]
      simp only [List.append_assoc] at hrest ⊢
      obtain hhandshake | hchange := hplain x List.mem_cons_self
      · rw [if_pos hhandshake, hrest, handshakeRecords_cons_of_handshake hhandshake,
          List.flatMap_cons, List.append_assoc]
      · have hother : x.ctype ≠ 0x16 := by
          rw [hchange]
          decide
        rw [if_neg hother, if_pos hchange, hrest, handshakeRecords_cons_of_other hother]

/-- Messages, cut into records, as a stream begins with them: then part of a message at most, and
the end of the plaintext. -/
structure Capture (ms : List Handshake) where
  records : List TlsRecord
  rest : Bytes
  tail : Bytes
  plain : ∀ x ∈ records, x.ctype = 0x16 ∨ x.ctype = 0x14
  joined : (handshakeRecords records).flatMap TlsRecord.payload = ms.flatMap Handshake.encode ++ rest
  incomplete : firstWhole rest = none
  ended : Ends tail

/-- The bytes of the stream. -/
def Capture.stream {ms : List Handshake} (c : Capture ms) : Bytes :=
  c.records.flatMap TlsRecord.encode ++ c.tail

/-- **The reader finds the messages of a stream**, however they were cut. -/
theorem Capture.messages_eq {ms : List Handshake} (c : Capture ms) :
    plaintextHandshakeMessages c.stream = ms.map Handshake.encode := by
  have hread := loop_records c.records c.plain c.ended [] []
  have hnone : messages c.rest = [] := by rw [HrrBinder.messages_eq, c.incomplete]
  rw [List.nil_append, List.nil_append, c.joined] at hread
  rw [plaintextHandshakeMessages, plaintextHandshake]
  exact (congrArg messages hread).trans (by rw [messages_flatMap, hnone, List.append_nil])

/-! ## Two readers -/

theorem loop_begins (stream : Bytes) (n : ℕ) :
    ∀ (i : ℕ) (hs : Bytes), stream.length - i ≤ n → hs <+: loop stream i hs := by
  induction n with
  | zero =>
      intro i hs hn
      have hstop : loop stream i hs = hs := by rw [loop, if_neg (by omega)]
      exact hstop.symm ▸ List.prefix_refl hs
  | succ n ih =>
      intro i hs hn
      rw [loop]
      split_ifs with hroom
      · simp only
        split_ifs
        · exact (List.prefix_append _ _).trans (ih _ _ (by omega))
        · exact ih _ _ (by omega)
        · exact List.prefix_refl _
      · exact List.prefix_refl _

/-- What the one reader finds is the first message for the other, unless its plaintext ends before. -/
theorem loop_agrees {stream b : Bytes} {t : ℤ} (n : ℕ) :
    ∀ (i : ℕ) (hs : Bytes), stream.length - i ≤ n →
      firstHandshakeMessage.loop stream t i hs = some b →
        loop stream i hs = [] ∨ firstWhole (loop stream i hs) = some b := by
  induction n with
  | zero =>
      intro i hs hn h
      rw [loop_eq, if_neg (by omega)] at h
      cases h
  | succ n ih =>
      intro i hs hn h
      have hlength : Bytes.fromBytes (Bytes.slice stream (i + 3) (i + 5)) = lengthAt stream i := rfl
      have hpayload : Bytes.slice stream (i + 5) (i + 5 + lengthAt stream i) = payloadAt stream i := rfl
      rw [loop_eq] at h
      rw [loop]
      by_cases hroom : i + 5 ≤ stream.length
      · simp only [if_pos hroom, hlength, hpayload] at h ⊢
        by_cases htype : stream.getD i 0 = 0x16
        · simp only [htype, ne_eq, not_true_eq_false, if_false, if_true] at h ⊢
          cases hwhole : firstWhole (hs ++ payloadAt stream i) with
          | none =>
              simp only [hwhole] at h
              exact ih _ _ (by omega) h
          | some m =>
              simp only [hwhole, ofType] at h
              split_ifs at h
              obtain rfl : m = b := Option.some.inj h
              obtain ⟨more, hmore⟩ := loop_begins stream n (i + (5 + lengthAt stream i))
                (hs ++ payloadAt stream i) (by omega)
              exact .inr (hmore ▸ firstWhole_append hwhole more)
        · simp only [htype, ne_eq, not_false_eq_true, if_true, if_false] at h ⊢
          split_ifs at h with hhs
          subst hhs
          split_ifs
          · exact ih _ _ (by omega) h
          · exact .inl rfl
      · rw [if_neg hroom] at h
        cases h

/-- **The two readers agree**: where both find messages, the one finds the first of the other's. -/
theorem found_first {stream b : Bytes} {t : ℤ} (h : firstHandshakeMessage stream t = some b) :
    plaintextHandshakeMessages stream = [] ∨
      ∃ rest, plaintextHandshakeMessages stream = b :: rest := by
  rw [plaintextHandshakeMessages]
  obtain hnil | hwhole := loop_agrees stream.length 0 [] (by omega) h
  · have hempty : plaintextHandshake stream = [] := hnil
    rw [hempty, messages_nil]
    exact .inl rfl
  · have hfirst : firstWhole (plaintextHandshake stream) = some b := hwhole
    rw [messages_eq, hfirst]
    exact .inr ⟨_, rfl⟩

/-! ## Retried handshakes -/

/-- The four messages of a handshake in which the server asked for another ClientHello. -/
structure Retry where
  ch1 : Handshake
  hrr : Handshake
  ch2 : Handshake
  sh : Handshake
  ch1_type : ch1.msgType = 0x01
  hrr_type : hrr.msgType = 0x02
  ch2_type : ch2.msgType = 0x01
  sh_type : sh.msgType = 0x02
  hrr_random : hrr.serverRandom = hrrRandom
  sh_random : sh.serverRandom ≠ hrrRandom

namespace Retry

/-- The messages are those of two streams. -/
structure Found (r : Retry) (c2s s2c : Bytes) : Prop where
  client : clientHellos c2s = [r.ch1.encode, r.ch2.encode]
  retry : helloRetryRequests s2c = [r.hrr.encode]
  server : serverHellos s2c = [r.sh.encode]

/-- The lengths of the messages. -/
def sizes (r : Retry) : ℕ × ℕ × ℕ × ℕ :=
  (r.ch1.encode.length, r.hrr.encode.length, r.ch2.encode.length, r.sh.encode.length)

variable (H : HashAlgorithm) (r : Retry)

/-- The bytes that a reading hashes. -/
def transcript : Reading → Bytes
  | .retryIgnored => r.ch1.encode ++ r.sh.encode
  | .messagesAsSent => r.ch1.encode ++ r.hrr.encode ++ r.ch2.encode ++ r.sh.encode
  | .messageHash => [0xfe, 0x00, 0x00, UInt8.ofNat H.digestSize] ++ H.digest r.ch1.encode ++
      r.hrr.encode ++ r.ch2.encode ++ r.sh.encode
  | .secondClientHello => r.ch2.encode ++ r.sh.encode

/-- The messages that a reading covers. -/
def covers : Reading → List Handshake
  | .retryIgnored => [r.ch1, r.sh]
  | .messagesAsSent => [r.ch1, r.hrr, r.ch2, r.sh]
  | .messageHash => [r.ch1, r.hrr, r.ch2, r.sh]
  | .secondClientHello => [r.ch2, r.sh]

end Retry

variable {H : HashAlgorithm}

theorem binder_digest (t spki : Bytes) : binder H (H.digest t) spki = draftBinder H t [] spki := by
  rw [draftBinder, List.append_nil]
  rfl

/-- **What is derived where the four messages are found.** -/
theorem fourReadings_of_found (hsize : H.digestSize < 256) {r : Retry} {c2s s2c : Bytes}
    (h : r.Found c2s s2c) (spki : Bytes) :
    ∃ binders, fourReadings H c2s s2c spki = .ok (binders, r.sizes) ∧
      ∀ i, binder H (H.digest (r.transcript H i)) spki = .ok (binders i) := by
  have hbinder : ∀ t, binder H (H.digest t) spki =
      .ok (H.hmac (binderInput H t [] spki).1 (binderInput H t [] spki).2) := by
    intro t
    rw [binder_digest, draftBinder_eq H t [] spki hsize]
  have hbyte : byte H.digestSize = .ok [UInt8.ofNat H.digestSize] := if_pos hsize
  refine ⟨fun i => H.hmac (binderInput H (r.transcript H i) [] spki).1
    (binderInput H (r.transcript H i) [] spki).2, ?_, fun i => hbinder _⟩
  simp only [fourReadings, h.client, h.retry, h.server, hbyte, hbinder, Exn.ok_bind]
  refine congrArg Except.ok (Prod.ext ?_ rfl)
  funext i
  cases i <;> rfl

/-- **What is found where four binders are derived.** -/
theorem found_of_fourReadings {c2s s2c spki : Bytes} {binders : Reading → Bytes}
    {sizes : ℕ × ℕ × ℕ × ℕ} (h : fourReadings H c2s s2c spki = .ok (binders, sizes)) :
    H.digestSize < 256 ∧ ∃ r : Retry, r.Found c2s s2c ∧ sizes = r.sizes ∧
      ∀ i, binder H (H.digest (r.transcript H i)) spki = .ok (binders i) := by
  rw [fourReadings] at h
  split at h
  next ch1 ch2 hrr sh hclient hretry hserver =>
    have hsize : H.digestSize < 256 := by
      by_contra hlarge
      rw [byte, if_neg hlarge] at h
      cases h
    have hclients : ∀ b ∈ [ch1, ch2], ∃ m : Handshake, b = m.encode ∧ m.msgType = 0x01 := by
      intro b hb
      rw [← hclient, clientHellos, List.mem_filter] at hb
      obtain ⟨m, rfl⟩ := handshake_of_message hb.1
      exact ⟨m, rfl, of_decide_eq_true hb.2⟩
    have hservers : ∀ b ∈ serverMessages s2c, ∃ m : Handshake, b = m.encode ∧ m.msgType = 0x02 := by
      intro b hb
      rw [serverMessages, List.mem_filter] at hb
      obtain ⟨m, rfl⟩ := handshake_of_message hb.1
      exact ⟨m, rfl, of_decide_eq_true hb.2⟩
    have hhrr : hrr ∈ helloRetryRequests s2c := by simp [hretry]
    have hsh : sh ∈ serverHellos s2c := by simp [hserver]
    rw [helloRetryRequests, List.mem_filter] at hhrr
    rw [serverHellos, List.mem_filter] at hsh
    obtain ⟨m₁, rfl, htype₁⟩ := hclients ch1 (by simp)
    obtain ⟨m₂, rfl, htype₂⟩ := hclients ch2 (by simp)
    obtain ⟨m₃, rfl, htype₃⟩ := hservers hrr hhrr.1
    obtain ⟨m₄, rfl, htype₄⟩ := hservers sh hsh.1
    have hrandom₃ : m₃.serverRandom = hrrRandom := by simpa [Handshake.slice_encode] using hhrr.2
    have hrandom₄ : m₄.serverRandom ≠ hrrRandom := by simpa [Handshake.slice_encode] using hsh.2
    let r : Retry := ⟨m₁, m₃, m₂, m₄, htype₁, htype₃, htype₂, htype₄, hrandom₃, hrandom₄⟩
    have hfound : r.Found c2s s2c := ⟨hclient, hretry, hserver⟩
    obtain ⟨binders', heq, hbinders⟩ := fourReadings_of_found hsize hfound spki
    rw [fourReadings, hclient, hretry, hserver] at heq
    obtain ⟨rfl, rfl⟩ := Prod.mk.inj (Except.ok.inj (h.symm.trans heq))
    exact ⟨hsize, r, hfound, rfl, hbinders⟩
  next => cases h

/-! ## How the readings differ -/

theorem transcript_of_ne (r : Retry) {i : Reading} (h : i ≠ .messageHash) :
    r.transcript H i = (r.covers i).flatMap Handshake.encode := by
  cases i with
  | messageHash => exact absurd rfl h
  | _ => simp [Retry.transcript, Retry.covers]

/-- Transcripts that are of messages begin with a ClientHello. -/
theorem head_transcript (r : Retry) {i : Reading} (h : i ≠ .messageHash) :
    (r.transcript H i).head? = some 0x01 := by
  cases i with
  | messageHash => exact absurd rfl h
  | secondClientHello => exact congrArg some r.ch2_type
  | _ => exact congrArg some r.ch1_type

/-- The synthetic message that replaces a ClientHello determines it. -/
theorem messageHash_inj {r r' : Retry}
    (hdigest : H.digest r.ch1.encode = H.digest r'.ch1.encode → r.ch1.encode = r'.ch1.encode)
    (h : r.transcript H .messageHash = r'.transcript H .messageHash) :
    r.covers .messageHash = r'.covers .messageHash := by
  simp only [Retry.transcript, List.append_assoc] at h
  have hrest := List.append_cancel_left h
  have hlength : (H.digest r.ch1.encode).length = (H.digest r'.ch1.encode).length := by
    rw [H.length_digest, H.length_digest]
  obtain ⟨hfirst, hmessages⟩ := List.append_inj hrest hlength
  have hch1 : r.ch1 = r'.ch1 := encode_injective (hdigest hfirst)
  have hlist : [r.hrr, r.ch2, r.sh] = [r'.hrr, r'.ch2, r'.sh] := by
    apply flatMap_encode_injective
    simpa using hmessages
  rw [Retry.covers, Retry.covers, hch1, hlist]

/-- **Two readings hash the same bytes exactly where they cover the same messages**, and both or
neither replace the first by its hash. -/
theorem transcript_eq_iff {r r' : Retry} {i j : Reading}
    (hdigest : H.digest r.ch1.encode = H.digest r'.ch1.encode → r.ch1.encode = r'.ch1.encode) :
    r.transcript H i = r'.transcript H j ↔
      (i = .messageHash ↔ j = .messageHash) ∧ r.covers i = r'.covers j := by
  by_cases hi : i = .messageHash
  · by_cases hj : j = .messageHash
    · subst hi hj
      refine ⟨fun h => ⟨Iff.rfl, messageHash_inj hdigest h⟩, ?_⟩
      rintro ⟨-, hcovers⟩
      simp only [Retry.covers, List.cons.injEq, and_true] at hcovers
      obtain ⟨hch1, hhrr, hch2, hsh⟩ := hcovers
      rw [Retry.transcript, Retry.transcript, hch1, hhrr, hch2, hsh]
    · subst hi
      constructor
      · intro h
        have hhead := congrArg List.head? h
        rw [head_transcript r' hj] at hhead
        exact absurd (Option.some.inj hhead) (by decide)
      · exact fun h => absurd (h.1.mp rfl) hj
  · by_cases hj : j = .messageHash
    · subst hj
      constructor
      · intro h
        have hhead := congrArg List.head? h
        rw [head_transcript r hi] at hhead
        exact absurd (Option.some.inj hhead) (by decide)
      · exact fun h => absurd (h.1.mpr rfl) hi
    · rw [transcript_of_ne r hi, transcript_of_ne r' hj]
      constructor
      · exact fun h => ⟨iff_of_false hi hj, flatMap_encode_injective h⟩
      · exact fun h => congrArg _ h.2

namespace Retry

/-- What the four derivations hash. -/
def digested (r : Retry) (H : HashAlgorithm) (spki : Bytes) : List Bytes :=
  r.ch1.encode :: Reading.all.flatMap fun i => Transcript.digested (r.transcript H i) [] spki

/-- What they take the HMAC of. -/
def maced (r : Retry) (H : HashAlgorithm) (spki : Bytes) : List (Bytes × Bytes) :=
  Reading.all.flatMap fun i => Transcript.maced H (r.transcript H i) [] spki

theorem digested_subset (r : Retry) (H : HashAlgorithm) (i : Reading) (spki : Bytes) :
    Transcript.digested (r.transcript H i) [] spki ⊆ r.digested H spki := by
  intro x hx
  refine List.mem_cons_of_mem _ (List.mem_flatMap.mpr ⟨i, ?_, hx⟩)
  cases i <;> decide

theorem maced_subset (r : Retry) (H : HashAlgorithm) (i : Reading) (spki : Bytes) :
    Transcript.maced H (r.transcript H i) [] spki ⊆ r.maced H spki := by
  intro x hx
  refine List.mem_flatMap.mpr ⟨i, ?_, hx⟩
  cases i <;> decide

end Retry

/-- **Two binders are equal exactly where they are of one key and cover the same messages.** -/
theorem binder_eq_iff {r r' : Retry} {spki spki' b b' : Bytes} {i j : Reading}
    (hfree : Uncollided H (r.digested H spki ++ r'.digested H spki')
      (r.maced H spki ++ r'.maced H spki'))
    (h : binder H (H.digest (r.transcript H i)) spki = .ok b)
    (h' : binder H (H.digest (r'.transcript H j)) spki' = .ok b') :
    b = b' ↔ (i = .messageHash ↔ j = .messageHash) ∧ r.covers i = r'.covers j ∧ spki = spki' := by
  have hdigest : H.digest r.ch1.encode = H.digest r'.ch1.encode → r.ch1.encode = r'.ch1.encode :=
    hfree.digest _ (by simp [Retry.digested]) _ (by simp [Retry.digested])
  rw [← and_assoc, ← transcript_eq_iff hdigest]
  constructor
  · rintro rfl
    rw [binder_digest] at h h'
    have hfree' := hfree.mono
      (List.append_subset.mpr ⟨List.subset_append_of_subset_left _ (r.digested_subset H i spki),
        List.subset_append_of_subset_right _ (r'.digested_subset H j spki')⟩)
      (List.append_subset.mpr ⟨List.subset_append_of_subset_left _ (r.maced_subset H i spki),
        List.subset_append_of_subset_right _ (r'.maced_subset H j spki')⟩)
    obtain ⟨htranscript, hspki⟩ := eq_of_draftBinder hfree' h h'
    rw [List.append_nil, List.append_nil] at htranscript
    exact ⟨htranscript, hspki⟩
  · rintro ⟨htranscript, rfl⟩
    rw [htranscript] at h
    exact Except.ok.inj (h.symm.trans h')

/-- Two readings of one handshake cover the same only where the client repeated its ClientHello. -/
theorem alike_iff (r : Retry) (i j : Reading) :
    ((i = .messageHash ↔ j = .messageHash) ∧ r.covers i = r.covers j) ↔
      i = j ∨ r.ch1 = r.ch2 ∧ (i = .retryIgnored ∧ j = .secondClientHello ∨
        i = .secondClientHello ∧ j = .retryIgnored) := by
  cases i <;> cases j <;> simp [Retry.covers]
  exact eq_comm

/-- The number of binders. -/
theorem distinct_eq {r : Retry} {binders : Reading → Bytes}
    (h : ∀ i j, binders i = binders j ↔
      (i = .messageHash ↔ j = .messageHash) ∧ r.covers i = r.covers j) :
    distinct binders = if r.ch1.encode = r.ch2.encode then 3 else 4 := by
  simp only [alike_iff, ← encode_injective.eq_iff] at h
  by_cases hsame : r.ch1.encode = r.ch2.encode
  · rw [if_pos hsame]
    simp [distinct, Reading.all, List.dedup_cons_of_mem, List.dedup_cons_of_notMem, h, hsame]
  · rw [if_neg hsame]
    simp [distinct, Reading.all, List.dedup_cons_of_notMem, h, hsame]

/-- The four messages are found in one way. -/
theorem Retry.Found.unique {r r' : Retry} {c2s s2c : Bytes} (h : r.Found c2s s2c)
    (h' : r'.Found c2s s2c) : r' = r := by
  have hclient := h'.client.symm.trans h.client
  have hretry := h'.retry.symm.trans h.retry
  have hserver := h'.server.symm.trans h.server
  simp only [List.cons.injEq, encode_injective.eq_iff, and_true] at hclient hretry hserver
  obtain ⟨ch1, hrr, ch2, sh⟩ := r
  obtain ⟨ch1', hrr', ch2', sh'⟩ := r'
  obtain ⟨rfl, rfl⟩ := hclient
  obtain rfl := hretry
  obtain rfl := hserver
  rfl

/-! ## What the library makes of such a handshake -/

/-- The first message of a type, where a reader finds one. -/
theorem filter_of_found {stream b : Bytes} {t : UInt8}
    (h : firstHandshakeMessage stream t.toNat = some b)
    (hsome : (plaintextHandshakeMessages stream).filter (fun m => m.getD 0 0 = t) ≠ []) :
    ∃ rest, (plaintextHandshakeMessages stream).filter (fun m => m.getD 0 0 = t) = b :: rest := by
  obtain hnil | ⟨rest, hrest⟩ := found_first h
  · rw [hnil] at hsome
    exact absurd rfl hsome
  · obtain ⟨m, rfl, htype⟩ := readMessage h
    have hm : m.encode.getD 0 0 = t := UInt8.toNat_inj.mp (by exact_mod_cast htype)
    rw [hrest]
    exact ⟨_, List.filter_cons_of_pos (by simpa using hm)⟩

/-- **`transcript_ch_sh` refuses such a handshake**, unless the server sent its ServerHello before
it asked for another ClientHello. -/
theorem transcriptChSh_of_found {r : Retry} {c2s s2c : Bytes} (h : r.Found c2s s2c) :
    transcriptChSh c2s s2c = .error .valueError ∨
      transcriptChSh c2s s2c = .ok (r.ch1.encode, r.sh.encode) ∧
        ∃ rest, serverMessages s2c = r.sh.encode :: rest := by
  have hclients : clientHellos c2s ≠ [] := by simp [h.client]
  have hservers : serverMessages s2c ≠ [] := by
    intro hnil
    have hretry := h.retry
    simp [helloRetryRequests, hnil] at hretry
  rw [transcriptChSh]
  split
  next ch sh hch hsh =>
    split_ifs with hrandom
    · exact .inl rfl
    · obtain ⟨rest, hrest⟩ := filter_of_found (t := 0x01) hch hclients
      obtain ⟨rest', hrest'⟩ := filter_of_found (t := 0x02) hsh hservers
      have hch1 : ch = r.ch1.encode := (List.cons.inj (hrest.symm.trans h.client)).1
      have hmessages : serverMessages s2c = sh :: rest' := hrest'
      have hserver : serverHellos s2c = sh :: rest'.filter fun m => Bytes.slice m 6 38 ≠ hrrRandom := by
        rw [serverHellos, hmessages, List.filter_cons_of_pos (by simpa using hrandom)]
      have hsh' : sh = r.sh.encode := (List.cons.inj (hserver.symm.trans h.server)).1
      rw [← hch1, ← hsh']
      exact .inr ⟨rfl, rest', hmessages⟩
  next => exact .inl rfl

/-! ## The readings of a retried handshake -/

/-- The messages of a type in what was captured. -/
theorem Capture.filter_messages {ms : List Handshake} (c : Capture ms) (t : UInt8) :
    (plaintextHandshakeMessages c.stream).filter (fun m => m.getD 0 0 = t) =
      (ms.filter fun m => m.msgType = t).map Handshake.encode := by
  rw [c.messages_eq, List.filter_map]
  rfl

theorem found_of_capture {r : Retry} {cs ss : List Handshake} (client : Capture cs)
    (server : Capture ss) (hcs : (cs.filter fun m => m.msgType = 0x01) = [r.ch1, r.ch2])
    (hss : (ss.filter fun m => m.msgType = 0x02) = [r.hrr, r.sh]) :
    r.Found client.stream server.stream := by
  have hserver : serverMessages server.stream = [r.hrr.encode, r.sh.encode] := by
    rw [serverMessages, server.filter_messages, hss]
    rfl
  have hhrr : Bytes.slice r.hrr.encode 6 38 = hrrRandom := by
    rw [Handshake.slice_encode, r.hrr_random]
  have hsh : Bytes.slice r.sh.encode 6 38 ≠ hrrRandom := by
    rw [Handshake.slice_encode]
    exact r.sh_random
  constructor
  · rw [clientHellos, client.filter_messages, hcs]
    rfl
  · simp [helloRetryRequests, hserver, hhrr, hsh]
  · simp [serverHellos, hserver, hhrr, hsh]

/-- **A retried handshake is read in four ways.**  However the two ClientHellos of the client, and
the HelloRetryRequest and the ServerHello of the server, are cut into records, with what other
messages and what ChangeCipherSpec between them, and before whatever ends the plaintext:
`four_readings` derives the four binders from these messages and gives their lengths, and
`transcript_ch_sh` refuses the handshake. -/
theorem retry_read (H : HashAlgorithm) (hsize : H.digestSize < 256) (r : Retry)
    {cs ss : List Handshake} (client : Capture cs) (server : Capture ss) (spki : Bytes)
    (hcs : (cs.filter fun m => m.msgType = 0x01) = [r.ch1, r.ch2])
    (hss : (ss.filter fun m => m.msgType = 0x02) = [r.hrr, r.sh]) :
    (∃ binders, fourReadings H client.stream server.stream spki = .ok (binders, r.sizes) ∧
      ∀ i, binder H (H.digest (r.transcript H i)) spki = .ok (binders i)) ∧
    transcriptChSh client.stream server.stream = .error .valueError := by
  have hfound := found_of_capture client server hcs hss
  refine ⟨fourReadings_of_found hsize hfound spki, ?_⟩
  obtain hrefused | ⟨-, rest, hrest⟩ := transcriptChSh_of_found hfound
  · exact hrefused
  · rw [serverMessages, server.filter_messages, hss] at hrest
    have hsame : r.hrr = r.sh := encode_injective (List.cons.inj hrest).1
    exact absurd (hsame ▸ r.hrr_random) r.sh_random

/-- **The readings commit to what they cover.**  Wherever `four_readings` returns, it has found the
four messages of a retried handshake; `transcript_ch_sh` refuses the same streams, or gives the
first ClientHello and the ServerHello, and then the draft binder is the first reading.  Where no two
inputs of the hash and of the HMAC collide, a binder of one handshake is a binder of another exactly
where both are of one key and cover the same messages, both or neither with the first replaced by
its hash; and a handshake has four distinct binders, or three where the client sent the same
ClientHello again. -/
theorem readings_commit (H : HashAlgorithm) {c2s s2c spki c2s' s2c' spki' : Bytes}
    {binders binders' : Reading → Bytes} {sizes sizes' : ℕ × ℕ × ℕ × ℕ}
    (h : fourReadings H c2s s2c spki = .ok (binders, sizes))
    (h' : fourReadings H c2s' s2c' spki' = .ok (binders', sizes')) :
    ∃ r r' : Retry, r.Found c2s s2c ∧ r'.Found c2s' s2c' ∧ sizes = r.sizes ∧
      (transcriptChSh c2s s2c = .error .valueError ∨
        transcriptChSh c2s s2c = .ok (r.ch1.encode, r.sh.encode) ∧
          draftBinder H r.ch1.encode r.sh.encode spki = .ok (binders .retryIgnored)) ∧
      (Uncollided H (r.digested H spki ++ r'.digested H spki')
          (r.maced H spki ++ r'.maced H spki') →
        (∀ i j, binders i = binders' j ↔
          (i = .messageHash ↔ j = .messageHash) ∧ r.covers i = r'.covers j ∧ spki = spki') ∧
        distinct binders = if r.ch1.encode = r.ch2.encode then 3 else 4) := by
  obtain ⟨-, r, hfound, hsizes, hbinders⟩ := found_of_fourReadings h
  obtain ⟨-, r', hfound', -, hbinders'⟩ := found_of_fourReadings h'
  refine ⟨r, r', hfound, hfound', hsizes, ?_, ?_⟩
  · obtain hrefused | ⟨hgiven, -⟩ := transcriptChSh_of_found hfound
    · exact .inl hrefused
    · exact .inr ⟨hgiven, hbinders .retryIgnored⟩
  · intro hfree
    refine ⟨fun i j => binder_eq_iff hfree (hbinders i) (hbinders' j), distinct_eq ?_⟩
    intro i j
    have hself : Uncollided H (r.digested H spki ++ r.digested H spki)
        (r.maced H spki ++ r.maced H spki) :=
      hfree.mono (List.append_subset.mpr ⟨List.subset_append_left _ _, List.subset_append_left _ _⟩)
        (List.append_subset.mpr ⟨List.subset_append_left _ _, List.subset_append_left _ _⟩)
    simpa using binder_eq_iff hself (hbinders i) (hbinders j)

/-! ## An example -/

/-- A client asks twice, without and with a byte, and the server answers both. -/
def retried : Retry where
  ch1 := ⟨1, [], by decide⟩
  hrr := ⟨2, [3, 3] ++ hrrRandom, by decide⟩
  ch2 := ⟨1, [7], by decide⟩
  sh := ⟨2, [3, 3], by decide⟩
  ch1_type := rfl
  hrr_type := rfl
  ch2_type := rfl
  sh_type := rfl
  hrr_random := by decide
  sh_random := by decide

/-- What the client sent: the second ClientHello in two records, with a ChangeCipherSpec between
them. -/
def retriedClient : Capture [retried.ch1, retried.ch2] where
  records := [⟨0x16, 3, 1, [1, 0, 0, 0, 1], by decide⟩, ⟨0x14, 3, 3, [1], by decide⟩,
    ⟨0x16, 3, 3, [0, 0, 1, 7], by decide⟩]
  rest := []
  tail := [0x17, 3, 3, 0, 1, 0]
  plain := by decide
  joined := by decide
  incomplete := by decide
  ended := .inr (by decide)

/-- What the server sent. -/
def retriedServer : Capture [retried.hrr, retried.sh] where
  records := [⟨0x16, 3, 3, retried.hrr.encode, by decide⟩, ⟨0x14, 3, 3, [1], by decide⟩,
    ⟨0x16, 3, 3, retried.sh.encode, by decide⟩]
  rest := []
  tail := [0x17, 3, 3]
  plain := by decide
  joined := by decide
  incomplete := by decide
  ended := .inl (by decide)

/-- The library refuses it. -/
theorem retry_read_retried :
    transcriptChSh retriedClient.stream retriedServer.stream = .error .valueError :=
  (retry_read sha384 (by decide) retried retriedClient retriedServer [0x30] rfl rfl).2

/-- What is hashed, each once. -/
theorem uncollided_retried : Uncollided sha384
    (retried.digested sha384 [0x30] ++ retried.digested sha384 [0x30])
    (retried.maced sha384 [0x30] ++ retried.maced sha384 [0x30]) := by
  have hfree : Uncollided sha384 ([0x30] :: retried.ch1.encode ::
      Reading.all.map (retried.transcript sha384)) (retried.maced sha384 [0x30]) :=
    .of_nodup (by decide +kernel) (by decide +kernel)
  have hdigested : retried.digested sha384 [0x30] ⊆
      [0x30] :: retried.ch1.encode :: Reading.all.map (retried.transcript sha384) := by
    intro x hx
    simp only [Retry.digested, Transcript.digested, Reading.all, List.flatMap_cons, List.flatMap_nil,
      List.append_nil, List.mem_cons, List.mem_append, List.not_mem_nil] at hx
    simp only [Reading.all, List.map_cons, List.map_nil, List.mem_cons, List.not_mem_nil]
    tauto
  exact hfree.mono (List.append_subset.mpr ⟨hdigested, hdigested⟩)
    (List.append_subset.mpr ⟨List.Subset.refl _, List.Subset.refl _⟩)

/-- It has four binders. -/
theorem readings_commit_retried :
    ∃ binders, fourReadings sha384 retriedClient.stream retriedServer.stream [0x30] =
        .ok (binders, retried.sizes) ∧ distinct binders = 4 := by
  have hfound : retried.Found retriedClient.stream retriedServer.stream :=
    found_of_capture retriedClient retriedServer rfl rfl
  obtain ⟨binders, hread, -⟩ := fourReadings_of_found (H := sha384) (by decide) hfound [0x30]
  obtain ⟨r, r', hr, hr', -, -, hcommit⟩ := readings_commit sha384 hread hread
  obtain rfl : r = retried := hfound.unique hr
  obtain rfl : r' = retried := hfound.unique hr'
  have hdiffer : retried.ch1.encode ≠ retried.ch2.encode := by decide
  have hcount := (hcommit uncollided_retried).2
  rw [if_neg hdiffer] at hcount
  exact ⟨binders, hread, hcount⟩

end Hatls.HrrBinder
