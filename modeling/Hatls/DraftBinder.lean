import Hatls.Lib.PrefixCode
import Hatls.Lib.Sha2
import Hatls.Transcript

/-!
# What the draft binder commits to

The binder of `hatls/transcript.py` hashes the two Hello messages one after the other, with
nothing between them.  What the reader returns ends by itself, so the place where the second
message begins can be found again; the two derivations name their contexts by length.  So a
binder has one ClientHello, one ServerHello and one key, as far as no two of the inputs that
were hashed collide.

## Main definitions

* `Handshake.serverRandom` — the random value of a ServerHello.
* `Transcript.readMessage` — what the reader returns is a message of the type asked for.
* `Transcript.digested`, `Transcript.maced` — all that `draftBinder` evaluates.
* `Uncollided` — no two of some inputs collide.
-/

namespace Hatls

/-! ## Messages end by themselves -/

namespace Handshake

/-- The random value of a ServerHello, after the two bytes of its version. -/
def serverRandom (m : Handshake) : Bytes := Bytes.slice m.body 2 34

/-- **A message is read off** the front of whatever it is followed by. -/
theorem readsOff (m : Handshake) : ReadsOff (fun _ => True) encode encode m := by
  intro m' s t _ _ heq
  have hfirst := Transcript.firstWhole_handshake m s
  rw [heq, Transcript.firstWhole_handshake m' t] at hfirst
  have hmm' : m'.encode = m.encode := Option.some.inj hfirst
  rw [hmm'] at heq
  exact ⟨hmm'.symm, List.append_cancel_left heq⟩

/-- Where the random value stands, counted from the header. -/
theorem slice_encode (m : Handshake) : Bytes.slice m.encode 6 38 = m.serverRandom := by
  have hfour : ([m.msgType] ++ (Bytes.toLittle 3 m.body.length).reverse).length = 4 := by
    simp [Bytes.length_toLittle]
  have h := Bytes.slice_append_right ([m.msgType] ++ (Bytes.toLittle 3 m.body.length).reverse)
    m.body 2 34
  rw [hfour] at h
  exact h

end Handshake

namespace Transcript

open Binder

/-- The bytes of a whole first message are the encoding of a message. -/
theorem exists_handshake {hs b : Bytes} (h : firstWhole hs = some b) :
    ∃ m : Handshake, b = m.encode ∧ m.msgType = b.getD 0 0 := by
  simp only [firstWhole] at h
  split_ifs at h with hwhole
  obtain ⟨hheader, hbody⟩ := hwhole
  rcases hs with _ | ⟨t, _ | ⟨x, _ | ⟨y, _ | ⟨z, rest⟩⟩⟩⟩
  · simp at hheader
  · simp at hheader
  · simp at hheader
  · simp at hheader
  · have hlength : Bytes.slice (t :: x :: y :: z :: rest) 1 4 = [x, y, z] := rfl
    rw [hlength] at h hbody
    have hthree : Bytes.fromBytes [x, y, z] < 256 ^ 3 := Bytes.fromBytes_lt [x, y, z]
    have hle : Bytes.fromBytes [x, y, z] ≤ rest.length := by
      simp only [List.length_cons] at hbody
      omega
    have hb : b = t :: x :: y :: z :: rest.take (Bytes.fromBytes [x, y, z]) := by
      rw [← Option.some.inj h, Bytes.slice, List.drop_zero, Nat.add_comm]
      rfl
    have hlen : (rest.take (Bytes.fromBytes [x, y, z])).length = Bytes.fromBytes [x, y, z] := by
      rw [List.length_take, Nat.min_eq_left hle]
    have hwidth : (Bytes.toLittle 3 (rest.take (Bytes.fromBytes [x, y, z])).length).reverse =
        [x, y, z] := by
      rw [hlen]
      exact Bytes.toLittle_fromBytes [x, y, z]
    refine ⟨⟨t, rest.take (Bytes.fromBytes [x, y, z]), by simpa [hlen] using hthree⟩, ?_, ?_⟩
    · rw [hb, Handshake.encode, hwidth]
      rfl
    · rw [hb]
      rfl

/-- What the loop returns is a message of the type asked for. -/
theorem loop_message {stream b : Bytes} {t : ℤ} (n : ℕ) :
    ∀ (i : ℕ) (hs : Bytes), stream.length - i ≤ n →
      firstHandshakeMessage.loop stream t i hs = some b →
        ∃ m : Handshake, b = m.encode ∧ (m.msgType.toNat : ℤ) = t := by
  induction n with
  | zero =>
      intro i hs hn h
      rw [loop_eq, if_neg (by omega)] at h
      cases h
  | succ n ih =>
      intro i hs hn h
      rw [loop_eq] at h
      split_ifs at h with hroom hother hhs
      · exact ih _ _ (by omega) h
      · cases hwhole : firstWhole (hs ++ payloadAt stream i) with
        | none =>
            simp only [hwhole] at h
            exact ih _ _ (by omega) h
        | some b' =>
            simp only [hwhole, ofType] at h
            split_ifs at h with htype
            obtain ⟨m, hm, hmtype⟩ := exists_handshake hwhole
            have hbb' : b' = b := Option.some.inj h
            refine ⟨m, hbb' ▸ hm, ?_⟩
            rw [hmtype]
            exact htype

/-- **What the reader returns is a message of the type asked for**, whatever the stream. -/
theorem readMessage {stream b : Bytes} {t : ℤ} (h : firstHandshakeMessage stream t = some b) :
    ∃ m : Handshake, b = m.encode ∧ (m.msgType.toNat : ℤ) = t :=
  loop_message stream.length 0 [] (by omega) h

/-- **What an accepted pair of streams holds**: two messages, and the second of them does not
ask for another ClientHello. -/
theorem accepted {clientToServer serverToClient ch sh : Bytes}
    (h : transcriptChSh clientToServer serverToClient = .ok (ch, sh)) :
    ∃ client server : Handshake, ch = client.encode ∧ sh = server.encode ∧
      client.msgType = 0x01 ∧ server.msgType = 0x02 ∧ server.serverRandom ≠ hrrRandom := by
  simp only [transcriptChSh] at h
  cases hch : firstHandshakeMessage clientToServer 0x01 with
  | none => simp [hch] at h
  | some b =>
      cases hsh : firstHandshakeMessage serverToClient 0x02 with
      | none => simp [hch, hsh] at h
      | some b' =>
          simp only [hch, hsh] at h
          split_ifs at h with hretry
          obtain ⟨hb, hb'⟩ := Prod.mk.inj (Except.ok.inj h)
          obtain ⟨client, hclient, hone⟩ := readMessage hch
          obtain ⟨server, hserver, htwo⟩ := readMessage hsh
          refine ⟨client, server, hb ▸ hclient, hb' ▸ hserver, ?_, ?_, ?_⟩
          · apply UInt8.toNat_inj.mp
            exact_mod_cast hone
          · apply UInt8.toNat_inj.mp
            exact_mod_cast htwo
          · rw [← server.slice_encode, ← hserver]
            exact hretry

/-- The other direction: a ClientHello and a ServerHello are accepted however they are cut
into records, unless the second asks for another ClientHello. -/
theorem transcriptChSh_cut (client server : Handshake) (r r' : Bytes)
    (front cut front' cut' : List TlsRecord) (hclient : client.msgType = 0x01)
    (hserver : server.msgType = 0x02) (hfront : ∀ x ∈ front, x.ctype ≠ 0x16)
    (hcut : ∀ x ∈ cut, x.ctype = 0x16) (hfront' : ∀ x ∈ front', x.ctype ≠ 0x16)
    (hcut' : ∀ x ∈ cut', x.ctype = 0x16)
    (hjoin : cut.flatMap TlsRecord.payload = client.encode ++ r)
    (hjoin' : cut'.flatMap TlsRecord.payload = server.encode ++ r') (tail tail' : Bytes) :
    transcriptChSh (front.flatMap TlsRecord.encode ++ cut.flatMap TlsRecord.encode ++ tail)
        (front'.flatMap TlsRecord.encode ++ cut'.flatMap TlsRecord.encode ++ tail') =
      if server.serverRandom = hrrRandom then .error .valueError
      else .ok (client.encode, server.encode) := by
  have hch := reassembles.whole client r front cut tail hfront hcut hjoin
  have hsh := reassembles.whole server r' front' cut' tail' hfront' hcut' hjoin'
  rw [hclient] at hch
  rw [hserver] at hsh
  have hone : ((0x01 : UInt8).toNat : ℤ) = 0x01 := rfl
  have htwo : ((0x02 : UInt8).toNat : ℤ) = 0x02 := rfl
  rw [hone] at hch
  rw [htwo] at hsh
  simp only [transcriptChSh, hch, hsh, server.slice_encode]

/-! ## Values of the derivation -/

/-- What the one block of output is computed from, after the secret. -/
def labelInfo (label context : Bytes) (length : ℕ) : Bytes :=
  let full := ascii "tls13 " ++ label
  (Bytes.toLittle 2 length).reverse ++ [UInt8.ofNat full.length] ++ full ++
    [UInt8.ofNat context.length] ++ context ++ [1]

/-- The context of a derivation can be read off its input. -/
theorem labelInfo_inj {label context context' : Bytes} {length : ℕ}
    (h : labelInfo label context length = labelInfo label context' length) : context = context' := by
  simp only [labelInfo, List.append_assoc] at h
  have htail := List.append_cancel_left (List.append_cancel_left (List.append_cancel_left
    (List.append_cancel_left h)))
  exact List.append_cancel_right (List.cons.inj htail).2

variable (H : HashAlgorithm)

/-- **A digest's length is expanded in one block.** -/
theorem tls13HkdfExpandLabel_eq (secret : Bytes) {label context : Bytes}
    (hlabel : label.length < 250) (hcontext : context.length < 256) (hsize : H.digestSize < 256) :
    tls13HkdfExpandLabel H secret label context H.digestSize =
      .ok (H.hmac secret (labelInfo label context H.digestSize)) := by
  have hfull : (ascii "tls13 " ++ label).length < 256 := by
    have : (ascii "tls13 ").length = 6 := by decide
    rw [List.length_append]
    omega
  have hwidth : toBytes 2 H.digestSize = .ok (Bytes.toLittle 2 H.digestSize).reverse := by
    rw [toBytes, Bytes.toBytes, if_pos (by omega)]
  have h1 : byte 1 = .ok [1] := rfl
  simp only [tls13HkdfExpandLabel, hwidth, byte, hfull, hcontext, if_true, Exn.ok_bind]
  rw [hkdfExpand, hkdfExpand.loop, if_pos (by simpa using H.digestSize_pos), h1]
  simp only [List.nil_append]
  rw [hkdfExpand.loop, if_neg (by rw [H.length_hmac]; omega), List.take_of_length_le]
  · rfl
  · rw [H.length_hmac]

/-- A derivation that returns was given a context that fits its length byte. -/
theorem context_lt {secret label context b : Bytes} {length : ℕ}
    (h : tls13HkdfExpandLabel H secret label context length = .ok b) : context.length < 256 := by
  by_contra hlong
  simp only [tls13HkdfExpandLabel, byte, if_neg hlong] at h
  cases hwidth : toBytes 2 length with
  | error x => simp [hwidth] at h
  | ok width =>
      by_cases hfull : (ascii "tls13 " ++ label).length < 256
      · simp only [hwidth, if_pos hfull, Exn.ok_bind, Exn.error_bind] at h
        cases h
      · simp only [hwidth, if_neg hfull, Exn.ok_bind, Exn.error_bind] at h
        cases h

/-- The HMAC's key and message where the secret of the binder is derived. -/
def baseInput (ch sh : Bytes) : Bytes × Bytes :=
  (List.replicate H.digestSize 0,
    labelInfo (ascii "attestation base") (H.digest (ch ++ sh)) H.digestSize)

/-- The secret the binder is derived with. -/
def attestBase (ch sh : Bytes) : Bytes := H.hmac (baseInput H ch sh).1 (baseInput H ch sh).2

/-- The HMAC's key and message where the binder is derived. -/
def binderInput (ch sh spki : Bytes) : Bytes × Bytes :=
  (attestBase H ch sh, labelInfo (ascii "attestation") (H.digest spki) H.digestSize)

theorem draftBinder_eq (ch sh spki : Bytes) (hsize : H.digestSize < 256) :
    draftBinder H ch sh spki =
      .ok (H.hmac (binderInput H ch sh spki).1 (binderInput H ch sh spki).2) := by
  have hbase := tls13HkdfExpandLabel_eq H (List.replicate H.digestSize 0)
    (show (ascii "attestation base").length < 250 by decide)
    (show (H.digest (ch ++ sh)).length < 256 by rw [H.length_digest]; exact hsize) hsize
  have hbinder := tls13HkdfExpandLabel_eq H (attestBase H ch sh)
    (show (ascii "attestation").length < 250 by decide)
    (show (H.digest spki).length < 256 by rw [H.length_digest]; exact hsize) hsize
  simp only [draftBinder, hbase, Exn.ok_bind]
  exact hbinder

/-- A binder is returned where the digests fit a length byte, as those of the suites do. -/
theorem digestSize_lt {ch sh spki b : Bytes} (h : draftBinder H ch sh spki = .ok b) :
    H.digestSize < 256 := by
  simp only [draftBinder] at h
  cases hbase : tls13HkdfExpandLabel H (List.replicate H.digestSize 0)
      (ascii "attestation base") (H.digest (ch ++ sh)) H.digestSize with
  | error x => simp [hbase] at h
  | ok base =>
      have hfits := context_lt H hbase
      rwa [H.length_digest] at hfits

/-! ## Commitment -/

/-- What a binder hashes. -/
def digested (ch sh spki : Bytes) : List Bytes := [ch ++ sh, spki]

/-- What a binder takes the HMAC of, each with its key. -/
def maced (ch sh spki : Bytes) : List (Bytes × Bytes) :=
  [baseInput H ch sh, binderInput H ch sh spki]

end Transcript

/-- **No two distinct inputs collide**, neither under the hash nor under the HMAC. -/
structure Uncollided (H : HashAlgorithm) (digested : List Bytes) (maced : List (Bytes × Bytes)) :
    Prop where
  digest : ∀ x ∈ digested, ∀ y ∈ digested, H.digest x = H.digest y → x = y
  hmac : ∀ x ∈ maced, ∀ y ∈ maced, H.hmac x.1 x.2 = H.hmac y.1 y.2 → x = y

theorem Uncollided.of_nodup {H : HashAlgorithm} {digested : List Bytes}
    {maced : List (Bytes × Bytes)} (hdigest : (digested.map H.digest).Nodup)
    (hhmac : (maced.map fun x => H.hmac x.1 x.2).Nodup) : Uncollided H digested maced where
  digest _ hx _ hy heq := List.inj_on_of_nodup_map hdigest hx hy heq
  hmac _ hx _ hy heq := List.inj_on_of_nodup_map hhmac hx hy heq

theorem Uncollided.mono {H : HashAlgorithm} {digested digested' : List Bytes}
    {maced maced' : List (Bytes × Bytes)} (h : Uncollided H digested maced)
    (hdigested : digested' ⊆ digested) (hmaced : maced' ⊆ maced) : Uncollided H digested' maced' where
  digest x hx y hy := h.digest x (hdigested hx) y (hdigested hy)
  hmac x hx y hy := h.hmac x (hmaced hx) y (hmaced hy)

namespace Transcript

/-- Equal binders were derived from equal transcripts and equal keys. -/
theorem eq_of_draftBinder {H : HashAlgorithm} {ch sh spki ch' sh' spki' b : Bytes}
    (hfree : Uncollided H (digested ch sh spki ++ digested ch' sh' spki')
      (maced H ch sh spki ++ maced H ch' sh' spki'))
    (h : draftBinder H ch sh spki = .ok b) (h' : draftBinder H ch' sh' spki' = .ok b) :
    ch ++ sh = ch' ++ sh' ∧ spki = spki' := by
  have hsize := digestSize_lt H h
  rw [draftBinder_eq H ch sh spki hsize] at h
  rw [draftBinder_eq H ch' sh' spki' hsize] at h'
  have hmac : H.hmac (binderInput H ch sh spki).1 (binderInput H ch sh spki).2 =
      H.hmac (binderInput H ch' sh' spki').1 (binderInput H ch' sh' spki').2 :=
    (Except.ok.inj h).trans (Except.ok.inj h').symm
  have hbinder : binderInput H ch sh spki = binderInput H ch' sh' spki' :=
    hfree.hmac _ (by simp [maced]) _ (by simp [maced]) hmac
  obtain ⟨hsecret, hkey⟩ := Prod.mk.inj hbinder
  have hbase : baseInput H ch sh = baseInput H ch' sh' :=
    hfree.hmac _ (by simp [maced]) _ (by simp [maced]) hsecret
  have htranscript : H.digest (ch ++ sh) = H.digest (ch' ++ sh') :=
    labelInfo_inj (Prod.mk.inj hbase).2
  constructor
  · exact hfree.digest _ (by simp [digested]) _ (by simp [digested]) htranscript
  · exact hfree.digest _ (by simp [digested]) _ (by simp [digested]) (labelInfo_inj hkey)

/-- The messages of two accepted pairs can be told apart in what is hashed. -/
theorem hellos_inj {clientToServer serverToClient clientToServer' serverToClient' ch sh ch' sh' : Bytes}
    (h : transcriptChSh clientToServer serverToClient = .ok (ch, sh))
    (h' : transcriptChSh clientToServer' serverToClient' = .ok (ch', sh'))
    (heq : ch ++ sh = ch' ++ sh') : ch = ch' ∧ sh = sh' := by
  obtain ⟨client, _, hch, -⟩ := accepted h
  obtain ⟨client', _, hch', -⟩ := accepted h'
  rw [hch, hch'] at heq ⊢
  exact client.readsOff client' sh sh' trivial trivial heq

/-- **The draft binder commits to one ClientHello, one ServerHello and one key.**  For what is
read from any two accepted pairs of streams, the bytes that are hashed determine both
messages; the binder determines both messages and the key, where no two inputs of the hash
and of the HMAC collide; and the second message is a ServerHello whose random value does not
ask for another ClientHello. -/
theorem draftBinder_commits (H : HashAlgorithm)
    {clientToServer serverToClient clientToServer' serverToClient' ch sh ch' sh' : Bytes}
    (spki spki' : Bytes) (h : transcriptChSh clientToServer serverToClient = .ok (ch, sh))
    (h' : transcriptChSh clientToServer' serverToClient' = .ok (ch', sh')) :
    (ch ++ sh = ch' ++ sh' → ch = ch' ∧ sh = sh') ∧
      (∀ b, Uncollided H (digested ch sh spki ++ digested ch' sh' spki')
          (maced H ch sh spki ++ maced H ch' sh' spki') →
        draftBinder H ch sh spki = .ok b → draftBinder H ch' sh' spki' = .ok b →
          ch = ch' ∧ sh = sh' ∧ spki = spki') ∧
      ∃ server : Handshake, sh = server.encode ∧ server.msgType = 0x02 ∧
        server.serverRandom ≠ hrrRandom := by
  refine ⟨hellos_inj h h', ?_, ?_⟩
  · intro b hfree hb hb'
    obtain ⟨htranscript, hspki⟩ := eq_of_draftBinder hfree hb hb'
    obtain ⟨hch, hsh⟩ := hellos_inj h h' htranscript
    exact ⟨hch, hsh, hspki⟩
  · obtain ⟨_, server, -, hsh, -, htype, hrandom⟩ := accepted h
    exact ⟨server, hsh, htype, hrandom⟩

/-- SHA-384 as the suite's hash. -/
def sha384 : HashAlgorithm where
  digest := Sha2.sha384
  hmac := Sha2.hmacSha384
  digestSize := 48
  length_digest := Sha2.length_sha384
  length_hmac := Sha2.length_hmacSha384
  digestSize_pos := by decide

/-- A ClientHello in one record. -/
def oneHello : Bytes := [0x16, 3, 1, 0, 4, 1, 0, 0, 0]

/-- Another, after a record of another type and cut into two. -/
def cutHello : Bytes :=
  [0x14, 3, 3, 0, 1, 1, 0x16, 3, 1, 0, 2, 1, 0, 0x16, 3, 1, 0, 3, 0, 1, 7]

/-- A ServerHello. -/
def serverHello : Bytes := [0x16, 3, 3, 0, 4, 2, 0, 0, 0]

theorem accepted_oneHello :
    transcriptChSh oneHello serverHello = .ok ([1, 0, 0, 0], [2, 0, 0, 0]) := by
  have h := transcriptChSh_cut ⟨1, [], by decide⟩ ⟨2, [], by decide⟩ [] []
    [] [⟨0x16, 3, 1, [1, 0, 0, 0], by decide⟩] [] [⟨0x16, 3, 3, [2, 0, 0, 0], by decide⟩]
    rfl rfl (by simp) (by simp) (by simp) (by simp) rfl rfl [] []
  exact h

theorem accepted_cutHello :
    transcriptChSh cutHello serverHello = .ok ([1, 0, 0, 1, 7], [2, 0, 0, 0]) := by
  have h := transcriptChSh_cut ⟨1, [7], by decide⟩ ⟨2, [], by decide⟩ [] []
    [⟨0x14, 3, 3, [1], by decide⟩]
    [⟨0x16, 3, 1, [1, 0], by decide⟩, ⟨0x16, 3, 1, [0, 1, 7], by decide⟩]
    [] [⟨0x16, 3, 3, [2, 0, 0, 0], by decide⟩]
    rfl rfl (by simp) (by simp) (by simp) (by simp) rfl rfl [] []
  exact h

theorem uncollided_hellos : Uncollided sha384
    (digested [1, 0, 0, 0] [2, 0, 0, 0] [0x30] ++ digested [1, 0, 0, 1, 7] [2, 0, 0, 0] [0x31])
    (maced sha384 [1, 0, 0, 0] [2, 0, 0, 0] [0x30] ++
      maced sha384 [1, 0, 0, 1, 7] [2, 0, 0, 0] [0x31]) :=
  .of_nodup (by decide +kernel) (by decide +kernel)

/-- Two handshakes that differ in the ClientHello and in the key both have a binder, and not the
same. -/
theorem draftBinder_commits_hellos :
    ∃ b b', draftBinder sha384 [1, 0, 0, 0] [2, 0, 0, 0] [0x30] = .ok b ∧
      draftBinder sha384 [1, 0, 0, 1, 7] [2, 0, 0, 0] [0x31] = .ok b' ∧ b ≠ b' := by
  have hsize : sha384.digestSize < 256 := by decide
  have hb := draftBinder_eq sha384 [1, 0, 0, 0] [2, 0, 0, 0] [0x30] hsize
  have hb' := draftBinder_eq sha384 [1, 0, 0, 1, 7] [2, 0, 0, 0] [0x31] hsize
  have hcommits :=
    (draftBinder_commits sha384 [0x30] [0x31] accepted_oneHello accepted_cutHello).2.1
  refine ⟨_, _, hb, hb', fun heq => ?_⟩
  rw [← heq] at hb'
  exact absurd (hcommits _ uncollided_hellos hb hb').1 (by decide)

end Transcript

end Hatls
