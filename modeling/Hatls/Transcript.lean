import Mathlib.Data.List.GetD
import Hatls.Binder

/-!
# Reading a handshake out of a recorded connection

`hatls/transcript.py`: the reader that finds the first handshake message in the bytes of
one direction of a TLS connection, and the binder that is derived from the two Hello
messages.  Messages are framed twice, by the records of the connection and by a header of
their own; how they were cut into records is of no consequence to the reader, and neither
is what comes after them.

## Main definitions

* `HashAlgorithm` — a hash function, as the binder takes it.
* `Transcript.firstHandshakeMessage`, `Transcript.transcriptChSh` — the reader.
* `Transcript.tls13HkdfExpandLabel`, `Transcript.draftBinder` — the derivation.
* `TlsRecord`, `Handshake` — the two framings.
* `Reassembles` — what is asked of a reader.
-/

namespace Hatls

/-- A `hashlib` constructor: its digest, the HMAC over it, and the length of both. -/
structure HashAlgorithm where
  digest : Bytes → Bytes
  /-- `hmac.new(key, msg, H).digest()`. -/
  hmac : Bytes → Bytes → Bytes
  digestSize : ℕ
  length_digest : ∀ b, (digest b).length = digestSize
  length_hmac : ∀ key msg, (hmac key msg).length = digestSize
  digestSize_pos : 0 < digestSize

namespace Transcript

open Binder

/-- The random value by which a ServerHello asks for another ClientHello. -/
def hrrRandom : Bytes :=
  [0xcf, 0x21, 0xad, 0x74, 0xe5, 0x9a, 0x61, 0x11, 0xbe, 0x1d, 0x8c, 0x02, 0x1e, 0x65, 0xb8, 0x91,
    0xc2, 0xa2, 0x11, 0x16, 0x7a, 0xbb, 0x8c, 0x5e, 0x07, 0x9e, 0x09, 0xe2, 0xc8, 0xa8, 0x33, 0x9c]

/-- The first handshake message of a type in a raw byte stream, with its header, put
together across records if it spans several.  `none` if the first handshake message is of
another type or is incomplete. -/
def firstHandshakeMessage (stream : Bytes) (msgType : ℤ) : Option Bytes := loop 0 []
where
  loop (i : ℕ) (hs : Bytes) : Option Bytes :=
    if i + 5 ≤ stream.length then
      let ctype := stream.getD i 0
      let rlen := Bytes.fromBytes (Bytes.slice stream (i + 3) (i + 5))
      let body := Bytes.slice stream (i + 5) (i + 5 + rlen)
      if ctype ≠ 0x16 then
        if hs ≠ [] then none else loop (i + (5 + rlen)) hs
      else
        if 4 ≤ (hs ++ body).length then
          let t := (hs ++ body).getD 0 0
          let len := Bytes.fromBytes (Bytes.slice (hs ++ body) 1 4)
          if 4 + len ≤ (hs ++ body).length then
            if (t.toNat : ℤ) = msgType then some (Bytes.slice (hs ++ body) 0 (4 + len)) else none
          else loop (i + (5 + rlen)) (hs ++ body)
        else loop (i + (5 + rlen)) (hs ++ body)
    else none
  termination_by stream.length - i
  decreasing_by all_goals omega

/-- ClientHello and ServerHello as sent on the wire. -/
def transcriptChSh (clientToServer serverToClient : Bytes) : Except Exn (Bytes × Bytes) :=
  match firstHandshakeMessage clientToServer 0x01, firstHandshakeMessage serverToClient 0x02 with
  | some ch, some sh =>
    if Bytes.slice sh 6 38 = hrrRandom then .error .valueError else .ok (ch, sh)
  | _, _ => .error .valueError

section Derivation

variable (H : HashAlgorithm)

/-- `_hkdf_expand`: output blocks until there are `length` bytes. -/
def hkdfExpand (prk info : Bytes) (length : ℕ) : Except Exn Bytes := loop [] [] 1
where
  loop (t out : Bytes) (i : ℕ) : Except Exn Bytes :=
    if out.length < length then
      match byte i with
      | .error x => .error x
      | .ok index =>
        let t := H.hmac prk (t ++ info ++ index)
        loop t (out ++ t) (i + 1)
    else .ok (out.take length)
  termination_by length - out.length
  decreasing_by
    have := H.digestSize_pos
    simp only [List.length_append, HashAlgorithm.length_hmac]
    omega

/-- HKDF-Expand-Label of TLS 1.3. -/
def tls13HkdfExpandLabel (secret label context : Bytes) (length : ℕ) : Except Exn Bytes := do
  let full := ascii "tls13 " ++ label
  let width ← toBytes 2 length
  let labelLength ← byte full.length
  let contextLength ← byte context.length
  hkdfExpand H secret (width ++ labelLength ++ full ++ contextLength ++ context) length

/-- The attestation binder of a handshake. -/
def draftBinder (ch sh serverSpkiDer : Bytes) : Except Exn Bytes := do
  let transcriptHash := H.digest (ch ++ sh)
  let base ← tls13HkdfExpandLabel H (List.replicate H.digestSize 0) (ascii "attestation base")
    transcriptHash H.digestSize
  tls13HkdfExpandLabel H base (ascii "attestation") (H.digest serverSpkiDer) H.digestSize

end Derivation

end Transcript

/-! ## The two framings -/

/-- A record of a connection. -/
structure TlsRecord where
  ctype : UInt8
  major : UInt8
  minor : UInt8
  payload : Bytes
  short : payload.length < 2 ^ 16

/-- A handshake message. -/
structure Handshake where
  msgType : UInt8
  body : Bytes
  short : body.length < 2 ^ 24

/-- A record on the wire: its type, the version, the length, the payload. -/
def TlsRecord.encode (r : TlsRecord) : Bytes :=
  [r.ctype, r.major, r.minor] ++ (Bytes.toLittle 2 r.payload.length).reverse ++ r.payload

/-- A message with its header: its type and the length of its body. -/
def Handshake.encode (m : Handshake) : Bytes :=
  [m.msgType] ++ (Bytes.toLittle 3 m.body.length).reverse ++ m.body

/-- **What is asked of a reader.**  However a message, and what follows it, is cut into
handshake records, after records of other types and before any bytes, the reader returns it
where it is of the type asked for and nothing where it is not; and what it returns for a
stream it returns for every longer one. -/
structure Reassembles (read : Bytes → ℤ → Option Bytes) : Prop where
  whole : ∀ (m : Handshake) (r : Bytes) (front cut : List TlsRecord) (tail : Bytes),
    (∀ x ∈ front, x.ctype ≠ 0x16) → (∀ x ∈ cut, x.ctype = 0x16) →
      cut.flatMap TlsRecord.payload = m.encode ++ r →
        read (front.flatMap TlsRecord.encode ++ cut.flatMap TlsRecord.encode ++ tail)
          m.msgType.toNat = some m.encode
  other : ∀ (m : Handshake) (r : Bytes) (front cut : List TlsRecord) (tail : Bytes) (t : ℤ),
    (∀ x ∈ front, x.ctype ≠ 0x16) → (∀ x ∈ cut, x.ctype = 0x16) →
      cut.flatMap TlsRecord.payload = m.encode ++ r → t ≠ m.msgType.toNat →
        read (front.flatMap TlsRecord.encode ++ cut.flatMap TlsRecord.encode ++ tail) t = none
  extends_ : ∀ (s more m : Bytes) (t : ℤ), read s t = some m → read (s ++ more) t = some m

/-! ## One record -/

namespace Transcript

/-- The length field of the record at a place. -/
def lengthAt (stream : Bytes) (i : ℕ) : ℕ := Bytes.fromBytes (Bytes.slice stream (i + 3) (i + 5))

/-- The payload of the record at a place, as far as the stream has it. -/
def payloadAt (stream : Bytes) (i : ℕ) : Bytes :=
  Bytes.slice stream (i + 5) (i + 5 + lengthAt stream i)

/-- The first message, where the handshake bytes hold all of it. -/
def firstWhole (hs : Bytes) : Option Bytes :=
  if 4 ≤ hs.length ∧ 4 + Bytes.fromBytes (Bytes.slice hs 1 4) ≤ hs.length then
    some (Bytes.slice hs 0 (4 + Bytes.fromBytes (Bytes.slice hs 1 4)))
  else none

/-- What the reader returns for the first message. -/
def ofType (msgType : ℤ) (m : Bytes) : Option Bytes :=
  if ((m.getD 0 0).toNat : ℤ) = msgType then some m else none

open firstHandshakeMessage (loop)

theorem getD_slice {hs : Bytes} {n : ℕ} (hn : 0 < n) : (Bytes.slice hs 0 n).getD 0 0 = hs.getD 0 0 := by
  cases hs with
  | nil => simp [Bytes.slice]
  | cons x hs =>
      obtain ⟨n, rfl⟩ := Nat.exists_eq_succ_of_ne_zero hn.ne'
      simp [Bytes.slice]

/-- **What the loop does with the record at a place.** -/
theorem loop_eq (stream : Bytes) (msgType : ℤ) (i : ℕ) (hs : Bytes) :
    loop stream msgType i hs =
      if i + 5 ≤ stream.length then
        if stream.getD i 0 ≠ 0x16 then
          if hs ≠ [] then none else loop stream msgType (i + (5 + lengthAt stream i)) hs
        else
          match firstWhole (hs ++ payloadAt stream i) with
          | some m => ofType msgType m
          | none => loop stream msgType (i + (5 + lengthAt stream i)) (hs ++ payloadAt stream i)
      else none := by
  have hlength : Bytes.fromBytes (Bytes.slice stream (i + 3) (i + 5)) = lengthAt stream i := rfl
  have hpayload : Bytes.slice stream (i + 5) (i + 5 + lengthAt stream i) = payloadAt stream i := rfl
  rw [loop]
  simp only [hlength, hpayload]
  generalize hs ++ payloadAt stream i = hs'
  by_cases hroom : i + 5 ≤ stream.length
  · by_cases htype : stream.getD i 0 ≠ 0x16
    · simp only [if_pos hroom, if_pos htype]
    · simp only [if_pos hroom, if_neg htype]
      by_cases hheader : 4 ≤ hs'.length
      · by_cases hbody : 4 + Bytes.fromBytes (Bytes.slice hs' 1 4) ≤ hs'.length
        · have hwhole : firstWhole hs' =
              some (Bytes.slice hs' 0 (4 + Bytes.fromBytes (Bytes.slice hs' 1 4))) :=
            if_pos ⟨hheader, hbody⟩
          simp only [if_pos hheader, if_pos hbody, hwhole, ofType]
          rw [getD_slice (by omega)]
        · have hpart : firstWhole hs' = none := if_neg fun h => hbody h.2
          simp only [if_pos hheader, if_neg hbody, hpart]
      · have hpart : firstWhole hs' = none := if_neg fun h => hheader h.1
        simp only [if_neg hheader, hpart]
  · simp only [if_neg hroom]

/-- A message that is whole stays the first, whatever follows it. -/
theorem firstWhole_append {hs m : Bytes} (h : firstWhole hs = some m) (more : Bytes) :
    firstWhole (hs ++ more) = some m := by
  simp only [firstWhole] at h ⊢
  split_ifs at h with hwhole
  have hheader : Bytes.slice (hs ++ more) 1 4 = Bytes.slice hs 1 4 :=
    Bytes.slice_append_left hwhole.1 more
  rw [hheader, if_pos, Bytes.slice_append_left hwhole.2]
  · exact h
  · rw [List.length_append]
    omega

theorem length_handshake (m : Handshake) : m.encode.length = 4 + m.body.length := by
  simp only [Handshake.encode, List.length_append, List.length_reverse, Bytes.length_toLittle,
    List.length_singleton]

/-- What the header says. -/
theorem header_handshake (m : Handshake) (r : Bytes) :
    Bytes.fromBytes (Bytes.slice (m.encode ++ r) 1 4) = m.body.length := by
  have hslice : Bytes.slice (m.encode ++ r) 1 4 = (Bytes.toLittle 3 m.body.length).reverse := by
    have hsplit : m.encode ++ r =
        [m.msgType] ++ ((Bytes.toLittle 3 m.body.length).reverse ++ (m.body ++ r)) := by
      simp [Handshake.encode]
    rw [hsplit]
    exact Bytes.slice_middle (i := 1) (n := 3) rfl (by simp [Bytes.length_toLittle]) _
  rw [hslice, Bytes.fromBytes_toLittle (by simpa using m.short)]

/-- **A message with what follows it is whole.** -/
theorem firstWhole_handshake (m : Handshake) (r : Bytes) :
    firstWhole (m.encode ++ r) = some m.encode := by
  have hlength := length_handshake m
  rw [firstWhole, header_handshake, if_pos]
  · rw [Bytes.slice, List.drop_zero, ← hlength, List.take_left' rfl]
  · rw [List.length_append]
    omega

/-- What is less than a message is not. -/
theorem firstWhole_part {m : Handshake} {hs r : Bytes} (hpart : hs <+: m.encode ++ r)
    (hshort : hs.length < m.encode.length) : firstWhole hs = none := by
  obtain ⟨more, hmore⟩ := hpart
  apply if_neg
  intro h
  have hheader : Bytes.fromBytes (Bytes.slice hs 1 4) = m.body.length := by
    rw [← header_handshake m r, ← hmore, Bytes.slice_append_left h.1]
  have hlength := length_handshake m
  omega

theorem ofType_handshake (m : Handshake) (t : ℤ) :
    ofType t m.encode = if (m.msgType.toNat : ℤ) = t then some m.encode else none := rfl

/-! ## Streams of records -/

theorem length_record (r : TlsRecord) : r.encode.length = 5 + r.payload.length := by
  simp only [TlsRecord.encode, List.length_append, List.length_reverse, Bytes.length_toLittle,
    List.length_cons, List.length_nil]

/-- What stands at the place of a record. -/
theorem at_record (before : Bytes) (r : TlsRecord) (after : Bytes) :
    (before ++ (r.encode ++ after)).getD before.length 0 = r.ctype ∧
      lengthAt (before ++ (r.encode ++ after)) before.length = r.payload.length ∧
      payloadAt (before ++ (r.encode ++ after)) before.length = r.payload := by
  have hlength : lengthAt (before ++ (r.encode ++ after)) before.length = r.payload.length := by
    have hslice : Bytes.slice (r.encode ++ after) 3 5 =
        (Bytes.toLittle 2 r.payload.length).reverse := by
      have hsplit : r.encode ++ after = [r.ctype, r.major, r.minor] ++
          ((Bytes.toLittle 2 r.payload.length).reverse ++ (r.payload ++ after)) := by
        simp [TlsRecord.encode]
      rw [hsplit]
      exact Bytes.slice_middle (i := 3) (n := 2) rfl (by simp [Bytes.length_toLittle]) _
    rw [lengthAt, Bytes.slice_append_right, hslice, Bytes.fromBytes_toLittle (by simpa using r.short)]
  refine ⟨?_, hlength, ?_⟩
  · rw [List.getD_append_right _ _ _ _ le_rfl, Nat.sub_self]
    rfl
  · have hsplit : r.encode ++ after =
        ([r.ctype, r.major, r.minor] ++ (Bytes.toLittle 2 r.payload.length).reverse) ++
          (r.payload ++ after) := by
      simp [TlsRecord.encode]
    have hfive : ([r.ctype, r.major, r.minor] ++
        (Bytes.toLittle 2 r.payload.length).reverse).length = 5 := by
      simp [Bytes.length_toLittle]
    rw [payloadAt, hlength, Nat.add_assoc, Bytes.slice_append_right, hsplit]
    exact Bytes.slice_middle hfive rfl after

/-- The step over a record. -/
theorem loop_record (before : Bytes) (r : TlsRecord) (after : Bytes) (msgType : ℤ) (hs : Bytes) :
    loop (before ++ (r.encode ++ after)) msgType before.length hs =
      if r.ctype ≠ 0x16 then
        if hs ≠ [] then none
        else loop (before ++ (r.encode ++ after)) msgType (before ++ r.encode).length hs
      else
        match firstWhole (hs ++ r.payload) with
        | some m => ofType msgType m
        | none => loop (before ++ (r.encode ++ after)) msgType (before ++ r.encode).length
            (hs ++ r.payload) := by
  obtain ⟨htype, hlength, hpayload⟩ := at_record before r after
  have hroom : before.length + 5 ≤ (before ++ (r.encode ++ after)).length := by
    rw [List.length_append, List.length_append, length_record]
    omega
  rw [loop_eq, if_pos hroom, htype, hlength, hpayload, ← length_record, ← List.length_append]

/-- Records of other types before the first handshake record are passed over. -/
theorem loop_front (front : List TlsRecord) (hfront : ∀ x ∈ front, x.ctype ≠ 0x16)
    (before after : Bytes) (msgType : ℤ) :
    loop (before ++ (front.flatMap TlsRecord.encode ++ after)) msgType before.length [] =
      loop (before ++ (front.flatMap TlsRecord.encode ++ after)) msgType
        (before ++ front.flatMap TlsRecord.encode).length [] := by
  induction front generalizing before with
  | nil => simp
  | cons r front ih =>
      have hr := hfront r List.mem_cons_self
      have hrest := ih (fun x hx => hfront x (List.mem_cons_of_mem _ hx)) (before ++ r.encode)
      rw [List.flatMap_cons, List.append_assoc, loop_record, if_pos hr, if_neg (by simp)]
      simpa only [List.append_assoc] using hrest

/-- **The message is put together**, from wherever its records stand. -/
theorem loop_cut {m : Handshake} {r : Bytes} (cut : List TlsRecord)
    (hcut : ∀ x ∈ cut, x.ctype = 0x16) (before after hs : Bytes) (msgType : ℤ)
    (hjoin : hs ++ cut.flatMap TlsRecord.payload = m.encode ++ r)
    (hshort : hs.length < m.encode.length) :
    loop (before ++ (cut.flatMap TlsRecord.encode ++ after)) msgType before.length hs =
      ofType msgType m.encode := by
  induction cut generalizing before hs with
  | nil =>
      have hlength := congrArg List.length hjoin
      simp only [List.flatMap_nil, List.append_nil, List.length_append] at hlength
      omega
  | cons x cut ih =>
      have hx : ¬ x.ctype ≠ 0x16 := fun h => h (hcut x List.mem_cons_self)
      rw [List.flatMap_cons, ← List.append_assoc] at hjoin
      rw [List.flatMap_cons, List.append_assoc, loop_record, if_neg hx]
      by_cases hmore : (hs ++ x.payload).length < m.encode.length
      · have hpart : firstWhole (hs ++ x.payload) = none :=
          firstWhole_part ⟨_, hjoin⟩ hmore
        have hrest := ih (fun y hy => hcut y (List.mem_cons_of_mem _ hy)) (before ++ x.encode)
          (hs ++ x.payload) hjoin hmore
        simp only [hpart]
        simpa only [List.append_assoc] using hrest
      · have hprefix : m.encode <+: hs ++ x.payload := by
          apply List.prefix_of_prefix_length_le (List.prefix_append m.encode r)
          · exact ⟨_, hjoin⟩
          · exact Nat.le_of_not_lt hmore
        obtain ⟨rest, hrest⟩ := hprefix
        rw [← hrest, firstWhole_handshake]

/-- The reader, on a message cut into records. -/
theorem firstHandshakeMessage_cut {m : Handshake} {r : Bytes} {front cut : List TlsRecord}
    (hfront : ∀ x ∈ front, x.ctype ≠ 0x16) (hcut : ∀ x ∈ cut, x.ctype = 0x16)
    (hjoin : cut.flatMap TlsRecord.payload = m.encode ++ r) (tail : Bytes) (t : ℤ) :
    firstHandshakeMessage
        (front.flatMap TlsRecord.encode ++ cut.flatMap TlsRecord.encode ++ tail) t =
      ofType t m.encode := by
  have hskip := loop_front front hfront [] (cut.flatMap TlsRecord.encode ++ tail) t
  have hread := loop_cut cut hcut (front.flatMap TlsRecord.encode) tail [] t
    (by simpa using hjoin) (by rw [length_handshake, List.length_nil]; omega)
  rw [firstHandshakeMessage, List.append_assoc]
  exact hskip.trans hread

/-! ## Longer streams -/

/-- A record that a stream holds the header of is of the same type in a longer stream, and
its payload is as long or longer. -/
theorem at_append {stream : Bytes} {i : ℕ} (hroom : i + 5 ≤ stream.length) (more : Bytes) :
    (stream ++ more).getD i 0 = stream.getD i 0 ∧
      lengthAt (stream ++ more) i = lengthAt stream i ∧
      ∃ rest, payloadAt (stream ++ more) i = payloadAt stream i ++ rest ∧
        (i + (5 + lengthAt stream i) ≤ stream.length → rest = []) := by
  have hlength : lengthAt (stream ++ more) i = lengthAt stream i := by
    rw [lengthAt, lengthAt, Bytes.slice_append_left hroom]
  refine ⟨List.getD_append _ _ _ _ (by omega), hlength, ?_⟩
  obtain ⟨rest, hrest⟩ := Bytes.slice_prefix stream more (i + 5) (i + 5 + lengthAt stream i)
  refine ⟨rest, ?_, ?_⟩
  · rw [payloadAt, hlength, payloadAt, hrest]
  · intro hfits
    rw [Bytes.slice_append_left (by omega)] at hrest
    simpa using hrest

/-- **What is returned for a stream is returned for every longer one.** -/
theorem loop_append {stream m : Bytes} {msgType : ℤ} (more : Bytes) (n : ℕ) :
    ∀ (i : ℕ) (hs : Bytes), stream.length - i ≤ n → loop stream msgType i hs = some m →
      loop (stream ++ more) msgType i hs = some m := by
  induction n with
  | zero =>
      intro i hs hn h
      rw [loop_eq, if_neg (by omega)] at h
      cases h
  | succ n ih =>
      intro i hs hn h
      rw [loop_eq] at h ⊢
      by_cases hroom : i + 5 ≤ stream.length
      · obtain ⟨htype, hlength, rest, hpayload, hfits⟩ := at_append hroom more
        rw [if_pos hroom] at h
        rw [if_pos (by rw [List.length_append]; omega), htype, hlength, hpayload]
        by_cases hother : stream.getD i 0 ≠ 0x16
        · rw [if_pos hother] at h ⊢
          by_cases hhs : hs ≠ []
          · rw [if_pos hhs] at h
            cases h
          · rw [if_neg hhs] at h ⊢
            exact ih _ _ (by omega) h
        · rw [if_neg hother] at h ⊢
          cases hwhole : firstWhole (hs ++ payloadAt stream i) with
          | some m' =>
              rw [← List.append_assoc, firstWhole_append hwhole]
              simpa only [hwhole] using h
          | none =>
              simp only [hwhole] at h
              -- the reader went on, so the record did not end with the stream
              have hnext : i + (5 + lengthAt stream i) ≤ stream.length := by
                by_contra hend
                rw [loop_eq, if_neg (by omega)] at h
                cases h
              rw [hfits hnext, List.append_nil, hwhole]
              exact ih _ _ (by omega) h
      · rw [if_neg hroom] at h
        cases h

/-- The reader finds a message however it was cut. -/
theorem reassembles : Reassembles firstHandshakeMessage where
  whole m r front cut tail hfront hcut hjoin := by
    rw [firstHandshakeMessage_cut hfront hcut hjoin, ofType_handshake, if_pos rfl]
  other m r front cut tail t hfront hcut hjoin hne := by
    rw [firstHandshakeMessage_cut hfront hcut hjoin, ofType_handshake, if_neg (Ne.symm hne)]
  extends_ s more m t h := loop_append more s.length 0 [] (by omega) h

end Transcript

end Hatls
