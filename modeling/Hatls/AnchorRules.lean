import Hatls.Tee

/-!
# The anchor rules

`hatls/tee.py`: how the identifiers of a platform are read off its evidence.  Each rule takes
fields of fixed width out of a report and turns a field of zeros into no claim at all; the
three spell "zeros" in three ways.  Whatever they claim has a nonzero byte, so nothing is lost
where a mandate keeps anchors that are known to be usable.

## Main definitions

* `Identifies` — a byte string that can stand for something.
* `Tee.Claims` — what a rule says of a report.
* `Tee.parseSnp`, `Tee.snpAnchor`, `Tee.sevsnpVerifier` — the rule of SEV-SNP.
* `Tee.parseTdreport`, `Tee.parseTdxQuote`, `Tee.tdxAnchor` — the rule of TDX.
* `Tee.Rule`, `Tee.TakesAnchor` — a verifier whose anchors come from these rules.
-/

namespace Hatls

/-- A byte string with a nonzero byte. -/
def Identifies (b : Bytes) : Prop := b.any (· ≠ 0) = true

instance (b : Bytes) : Decidable (Identifies b) := inferInstanceAs (Decidable (_ = true))

/-- A string of a known width that is not all zeros. -/
theorem identifies_of_ne_zeros {b : Bytes} {n : ℕ} (hlen : b.length = n) (hne : b ≠ List.replicate n 0) :
    Identifies b := by
  by_contra hno
  apply hne
  rw [List.eq_replicate_iff]
  refine ⟨hlen, fun x hx => ?_⟩
  by_contra hx0
  exact hno (List.any_eq_true.mpr ⟨x, hx, decide_eq_true hx0⟩)

namespace Tee

/-- The two claims a rule makes about a platform, as the dictionary it returns. -/
structure Claims where
  inst : Bytes
  place : Option Bytes

end Tee

/-- The claims of an anchor. -/
def Anchor.claims (a : Anchor) : Tee.Claims := ⟨a.inst, a.place⟩

namespace Tee

/-- The claims that name an instance and, if any, a place. -/
structure Claims.Sound (c : Claims) : Prop where
  inst : Identifies c.inst
  place : ∀ p, c.place = some p → Identifies p

/-- Claims as a mandate keeps them. -/
def Claims.anchor (c : Claims) : Option Anchor :=
  if h : c.inst.any (· ≠ 0) = true then some ⟨c.inst, c.place, h⟩ else none

theorem Claims.Sound.anchor_eq {c : Claims} (h : c.Sound) : c.anchor = some ⟨c.inst, c.place, h.inst⟩ :=
  dif_pos h.inst

theorem present_eq_some {v w : Bytes} : present v = some w ↔ w = v ∧ Identifies v := by
  have hif : present v = if Identifies v then some v else none := rfl
  rw [hif]
  by_cases h : Identifies v
  · rw [if_pos h, Option.some.injEq]
    exact ⟨fun heq => ⟨heq.symm, h⟩, fun heq => heq.1.symm⟩
  · rw [if_neg h]
    exact ⟨fun heq => (nomatch heq), fun heq => absurd heq.2 h⟩

/-! ## The mock -/

/-- The rule of `mock_verifier`, after the signature has verified. -/
def mockAnchor (inst chip : Bytes) : Option Claims :=
  if present inst = none then none else some ⟨inst, present chip⟩

theorem mockAnchor_sound {inst chip : Bytes} {c : Claims} (h : mockAnchor inst chip = some c) :
    c.inst = inst ∧ c.Sound := by
  simp only [mockAnchor] at h
  split_ifs at h with hnone
  cases h
  obtain ⟨w, hw⟩ := Option.ne_none_iff_exists'.mp hnone
  refine ⟨rfl, (present_eq_some.mp hw).2, fun p hp => ?_⟩
  obtain ⟨rfl, hp⟩ := present_eq_some.mp hp
  exact hp

/-! ## SEV-SNP -/

/-- `struct.unpack_from` of a little-endian integer. -/
def unpackFrom (b : Bytes) (offset width : ℕ) : ℕ :=
  Bytes.fromBytes (b.slice offset (offset + width)).reverse

/-- Field view of an attestation report. -/
structure Snp where
  version : ℕ
  product : String
  signingKey : String ⊕ ℕ
  maskChipKey : ℕ
  policy : ℕ
  chipId : Bytes
  chipIdZero : Bool
  measurement : Bytes
  hostData : Bytes
  reportId : Bytes
  reportData : Bytes
  tcb : ℕ × ℕ × ℕ × ℕ

/-- The product a report of version three or later names by its family and model. -/
def product (fam mod : ℕ) : String :=
  if fam = 0x19 ∧ mod ≤ 0x0f then "Milan"
  else if fam = 0x19 ∧ 0x10 ≤ mod ∧ mod ≤ 0x1f then "Genoa"
  else if fam = 0x1a then "Turin"
  else "Milan"

/-- The key that signed a report; a value that is not assigned stands for itself. -/
def signingKey (n : ℕ) : String ⊕ ℕ :=
  match n with
  | 0 => .inl "VCEK"
  | 1 => .inl "VLEK"
  | 7 => .inl "none"
  | n => .inr n

/-- `parse_snp`: the fields of a 1184-byte report. -/
def parseSnp (b : Bytes) : Except Exn Snp :=
  if b.length ≠ 1184 then .error .valueError
  else
    let flags := unpackFrom b 0x48 4
    let tcb := unpackFrom b 0x180 8
    let ver := unpackFrom b 0x00 4
    let chip := b.slice 0x1A0 (0x1A0 + 64)
    .ok {
      version := ver
      product := if ver < 3 then "Milan" else product (unpackFrom b 0x188 1) (unpackFrom b 0x189 1)
      signingKey := signingKey ((flags >>> 2) &&& 7)
      maskChipKey := (flags >>> 1) &&& 1
      policy := unpackFrom b 0x08 8
      chipId := chip
      chipIdZero := chip = List.replicate 64 0
      measurement := b.slice 0x90 (0x90 + 48)
      hostData := b.slice 0xC0 (0xC0 + 32)
      reportId := b.slice 0x140 (0x140 + 32)
      reportData := b.slice 0x50 (0x50 + 64)
      tcb := (tcb &&& 0xff, (tcb >>> 8) &&& 0xff, (tcb >>> 48) &&& 0xff, (tcb >>> 56) &&& 0xff) }

/-- `snp_anchor`: the instance is the report identifier, and the place is the chip identifier
unless a flag or the field itself says that it is hidden. -/
def snpAnchor (f : Snp) : Option Claims :=
  match present f.reportId with
  | none => none
  | some inst => some ⟨inst, if f.maskChipKey ≠ 0 ∨ f.chipIdZero = true then none else some f.chipId⟩

/-- The field of the chip has its width, and the view says whether it is zero. -/
theorem chipId_parseSnp {b : Bytes} {f : Snp} (h : parseSnp b = .ok f) :
    f.chipId.length = 64 ∧ f.chipIdZero = decide (f.chipId = List.replicate 64 0) := by
  unfold parseSnp at h
  split_ifs at h with hlen
  cases h
  have hlen' : b.length = 1184 := not_not.mp hlen
  simp [Bytes.slice, hlen']

theorem snpAnchor_sound {b : Bytes} {f : Snp} (hf : parseSnp b = .ok f) {c : Claims}
    (h : snpAnchor f = some c) : c.inst = f.reportId ∧ c.Sound := by
  obtain ⟨hlen, hzero⟩ := chipId_parseSnp hf
  simp only [snpAnchor] at h
  cases hid : present f.reportId with
  | none =>
      rw [hid] at h
      cases h
  | some inst =>
      rw [hid] at h
      cases h
      obtain ⟨rfl, hinst⟩ := present_eq_some.mp hid
      refine ⟨rfl, hinst, fun p hp => ?_⟩
      split_ifs at hp with hhidden
      cases hp
      apply identifies_of_ne_zeros hlen
      intro heq
      exact hhidden (.inr (by rw [hzero, decide_eq_true heq]))

/-- `sevsnp_verifier`.  How the report is spelled in the evidence and what certifies it are
parameters: the certificates come from the vendor or with the evidence. -/
def sevsnpVerifier (decode : Json → Except Exn Bytes) (certified : Json → Bytes → Snp → Bool)
    (allowDebug : Bool) (measurement : Option Bytes) (ev : Json) (expectedRd : Bytes) :
    Except Exn (Bool × Option Claims) :=
  match ev with
  | .obj fields =>
    if !(Json.getD fields "kind" .null).eqStr "sev-snp" then .ok (false, none)
    else
      match (do let b ← decode (← ev.item "report"); return (b, ← parseSnp b)) with
      | .error _ => .ok (false, none)
      | .ok (b, f) =>
        if f.reportData ≠ expectedRd then .ok (false, none)
        else if f.policy.testBit 19 && !allowDebug then .ok (false, none)
        else if measurement.any (f.measurement ≠ ·) then .ok (false, none)
        else if certified ev b f then .ok (true, snpAnchor f)
        else .ok (false, none)
  | _ => .error .attributeError

/-! ## TDX -/

/-- The measurement registers of a trust domain. -/
inductive Register
  | mrtd | mrconfigid | mrowner | mrownerconfig | rtmr0 | rtmr1 | rtmr2 | rtmr3

/-- Where a register stands in a TDREPORT. -/
def Register.tdreport : Register → ℕ
  | mrtd => 528
  | mrconfigid => 576
  | mrowner => 624
  | mrownerconfig => 672
  | rtmr0 => 720
  | rtmr1 => 768
  | rtmr2 => 816
  | rtmr3 => 864

/-- Where a register stands in the body of a quote. -/
def Register.quoteBody : Register → ℕ
  | mrtd => 136
  | mrconfigid => 184
  | mrowner => 232
  | mrownerconfig => 280
  | rtmr0 => 328
  | rtmr1 => 376
  | rtmr2 => 424
  | rtmr3 => 472

/-- Field view of a TDX report; a quote has no MAC. -/
structure Tdx where
  register : Register → Bytes
  reportData : Bytes
  mac : Option Bytes
  kind : String

/-- `parse_tdreport`: the fields of a 1024-byte TDREPORT. -/
def parseTdreport (b : Bytes) : Except Exn Tdx :=
  if b.length ≠ 1024 then .error .valueError
  else .ok {
    register := fun k => b.slice k.tdreport (k.tdreport + 48)
    reportData := b.slice 128 192
    mac := some (b.slice 224 256)
    kind := "tdreport" }

/-- `parse_tdx_quote`: the fields of the report body in a quote of version four. -/
def parseTdxQuote (q : Bytes) : Except Exn Tdx :=
  if q.length < 632 ∨ unpackFrom q 0 2 ≠ 4 then .error .valueError
  else
    let body := q.slice 48 632
    .ok {
      register := fun k => body.slice k.quoteBody (k.quoteBody + 48)
      reportData := body.slice 520 584
      mac := none
      kind := "tdx-quote" }

/-- `tdx_anchor`: the instance is the last runtime register, and there is no place. -/
def tdxAnchor (f : Tdx) : Option Claims :=
  let r := f.register .rtmr3
  if r = List.replicate 48 0 then none else some ⟨r, none⟩

theorem rtmr3_parseTdreport {b : Bytes} {f : Tdx} (h : parseTdreport b = .ok f) :
    (f.register .rtmr3).length = 48 := by
  simp only [parseTdreport] at h
  split_ifs at h with hlen
  cases h
  have hlen' : b.length = 1024 := not_not.mp hlen
  simp [Bytes.slice, Register.tdreport, hlen']

theorem rtmr3_parseTdxQuote {q : Bytes} {f : Tdx} (h : parseTdxQuote q = .ok f) :
    (f.register .rtmr3).length = 48 := by
  simp only [parseTdxQuote] at h
  split_ifs at h with hbad
  cases h
  have hlen : 632 ≤ q.length := not_lt.mp fun hlt => hbad (.inl hlt)
  simp [Bytes.slice, Register.quoteBody, hlen]

theorem tdxAnchor_sound {f : Tdx} (hf : (f.register .rtmr3).length = 48) {c : Claims}
    (h : tdxAnchor f = some c) : c.inst = f.register .rtmr3 ∧ c.Sound := by
  unfold tdxAnchor at h
  simp only at h
  split_ifs at h with hzero
  cases h
  exact ⟨rfl, identifies_of_ne_zeros hf hzero, fun p hp => nomatch hp⟩

/-! ## Verifiers that use them -/

/-- The rules, with where the report stands in the evidence. -/
inductive Rule
  | mock
  | snp (report : Json → Except Exn Bytes)
  | tdreport (report : Json → Except Exn Bytes)
  | tdxQuote (report : Json → Except Exn Bytes)

/-- The instance field of evidence. -/
def Rule.instanceField (rule : Rule) (ev : Json) : Except Exn Bytes :=
  match rule with
  | .mock => do (← ev.item "instance").fromHex
  | .snp report => do return (← parseSnp (← report ev)).reportId
  | .tdreport report => do return (← parseTdreport (← report ev)).register .rtmr3
  | .tdxQuote report => do return (← parseTdxQuote (← report ev)).register .rtmr3

/-- The claims a rule makes about evidence. -/
def Rule.claims (rule : Rule) (ev : Json) : Except Exn (Option Claims) :=
  match rule with
  | .mock => do
    let chip ← (← ev.item "chip").fromHex
    let inst ← (← ev.item "instance").fromHex
    return mockAnchor inst chip
  | .snp report => do return snpAnchor (← parseSnp (← report ev))
  | .tdreport report => do return tdxAnchor (← parseTdreport (← report ev))
  | .tdxQuote report => do return tdxAnchor (← parseTdxQuote (← report ev))

/-- **What a rule claims is there**: an instance with a nonzero byte, which is the instance
field of the evidence, and a place with one or none. -/
theorem Rule.claims_sound {rule : Rule} {ev : Json} {c : Claims} (h : rule.claims ev = .ok (some c)) :
    rule.instanceField ev = .ok c.inst ∧ c.Sound := by
  cases rule with
  | mock =>
      obtain ⟨jchip, hjchip, h⟩ := Exn.bind_eq_ok h
      obtain ⟨chip, hchip, h⟩ := Exn.bind_eq_ok h
      obtain ⟨jinst, hjinst, h⟩ := Exn.bind_eq_ok h
      obtain ⟨inst, hinst, h⟩ := Exn.bind_eq_ok h
      obtain ⟨heq, hsound⟩ := mockAnchor_sound (Except.ok.inj h)
      exact ⟨by simp only [instanceField, hjinst, Exn.ok_bind, hinst, heq], hsound⟩
  | snp report =>
      obtain ⟨b, hb, h⟩ := Exn.bind_eq_ok h
      obtain ⟨f, hf, h⟩ := Exn.bind_eq_ok h
      obtain ⟨heq, hsound⟩ := snpAnchor_sound hf (Except.ok.inj h)
      exact ⟨by simp only [instanceField, hb, Exn.ok_bind, hf, heq, Exn.pure_eq_ok], hsound⟩
  | tdreport report =>
      obtain ⟨b, hb, h⟩ := Exn.bind_eq_ok h
      obtain ⟨f, hf, h⟩ := Exn.bind_eq_ok h
      obtain ⟨heq, hsound⟩ := tdxAnchor_sound (rtmr3_parseTdreport hf) (Except.ok.inj h)
      exact ⟨by simp only [instanceField, hb, Exn.ok_bind, hf, heq, Exn.pure_eq_ok], hsound⟩
  | tdxQuote report =>
      obtain ⟨b, hb, h⟩ := Exn.bind_eq_ok h
      obtain ⟨f, hf, h⟩ := Exn.bind_eq_ok h
      obtain ⟨heq, hsound⟩ := tdxAnchor_sound (rtmr3_parseTdxQuote hf) (Except.ok.inj h)
      exact ⟨by simp only [instanceField, hb, Exn.ok_bind, hf, heq, Exn.pure_eq_ok], hsound⟩

/-- A verifier, as it is written: its claims come from a rule. -/
def Claimed (rule : Json → Rule) (verify : Json → Bytes → Except Exn (Bool × Option Claims)) : Prop :=
  ∀ ev rd ok c, verify ev rd = .ok (ok, some c) → (rule ev).claims ev = .ok (some c)

/-- A verifier, as a mandate is built with it: its anchors come from a rule. -/
def TakesAnchor (rule : Json → Rule) (verify : Json → Bytes → Except Exn (Bool × Option Anchor)) : Prop :=
  ∀ ev rd ok a, verify ev rd = .ok (ok, some a) → (rule ev).claims ev = .ok (some a.claims)

/-- A verifier that returns claims, for a mandate. -/
def anchored (verify : Json → Bytes → Except Exn (Bool × Option Claims)) (ev : Json) (rd : Bytes) :
    Except Exn (Bool × Option Anchor) :=
  (verify ev rd).map fun answer => (answer.1, answer.2.bind Claims.anchor)

/-- **Such a verifier loses nothing**: the mandate is told the claims of the rules. -/
theorem anchored_claims {rule : Json → Rule} {verify : Json → Bytes → Except Exn (Bool × Option Claims)}
    (h : Claimed rule verify) (ev : Json) (rd : Bytes) :
    (anchored verify ev rd).map (fun answer => (answer.1, answer.2.map Anchor.claims)) = verify ev rd := by
  simp only [anchored]
  rcases hv : verify ev rd with x | ⟨ok, _ | c⟩
  · rfl
  · rfl
  · have hsound := (Rule.claims_sound (h ev rd ok c hv)).2
    simp [Except.map, hsound.anchor_eq, Anchor.claims]

theorem Claimed.takesAnchor {rule : Json → Rule}
    {verify : Json → Bytes → Except Exn (Bool × Option Claims)} (h : Claimed rule verify) :
    TakesAnchor rule (anchored verify) := by
  intro ev rd ok a ha
  have hclaims := anchored_claims h ev rd
  rw [ha] at hclaims
  exact h ev rd ok a.claims hclaims.symm

/-- A verifier whose anchors come from a rule is built from one whose claims do. -/
theorem TakesAnchor.exists_claimed {rule : Json → Rule}
    {verify : Json → Bytes → Except Exn (Bool × Option Anchor)} (h : TakesAnchor rule verify) :
    ∃ verify', Claimed rule verify' ∧ verify = anchored verify' := by
  refine ⟨fun ev rd => (verify ev rd).map fun answer => (answer.1, answer.2.map Anchor.claims), ?_, ?_⟩
  · intro ev rd ok c hc
    simp only at hc
    rcases hv : verify ev rd with x | ⟨ok', _ | a⟩
    · rw [hv] at hc
      cases hc
    · rw [hv] at hc
      cases hc
    · rw [hv] at hc
      cases hc
      exact h ev rd ok' a hv
  · funext ev rd
    rcases hv : verify ev rd with x | ⟨ok, _ | a⟩
    · simp only [anchored, hv, Except.map]
    · simp only [anchored, hv, Except.map, Option.map_none, Option.bind_none]
    · have hanchor : a.claims.anchor = some a := dif_pos a.usable
      simp only [anchored, hv, Except.map, Option.map_some, Option.bind_some, hanchor]

/-- The verifier of the mock chips takes its anchors by the rule of the mock. -/
theorem mockVerifier_takesAnchor (P : Primitives) (trustedPubs : List String) :
    TakesAnchor (fun _ => .mock) (mockVerifier P trustedPubs) := by
  intro ev rd ok a h
  cases ev with
  | obj fields =>
      unfold mockVerifier at h
      simp only at h
      split_ifs at h
      · cases h
      obtain ⟨pub, -, h⟩ := Exn.bind_eq_ok h
      obtain ⟨trusted, -, h⟩ := Exn.bind_eq_ok h
      split_ifs at h
      · cases h
      obtain ⟨jrd, -, h⟩ := Exn.bind_eq_ok h
      obtain ⟨reportData, -, h⟩ := Exn.bind_eq_ok h
      split_ifs at h
      · cases h
      obtain ⟨spki, -, h⟩ := Exn.bind_eq_ok h
      obtain ⟨-, -, h⟩ := Exn.bind_eq_ok h
      obtain ⟨jchip, hjchip, h⟩ := Exn.bind_eq_ok h
      obtain ⟨chip, hchip, h⟩ := Exn.bind_eq_ok h
      obtain ⟨jinst, hjinst, h⟩ := Exn.bind_eq_ok h
      obtain ⟨inst, hinst, h⟩ := Exn.bind_eq_ok h
      split at h
      · cases h
      split_ifs at h with husable
      · cases h
        have hpresent : present inst ≠ none := by
          rw [present_eq_some.mpr ⟨rfl, husable⟩]
          simp
        simp only [Rule.claims, hjchip, hchip, hjinst, hinst, Exn.ok_bind, mockAnchor,
          if_neg hpresent, Exn.pure_eq_ok, Anchor.claims]
      · cases h
  | _ => cases h

/-- The verifier of SEV-SNP reports takes its claims by the rule of SEV-SNP. -/
theorem sevsnpVerifier_claimed (decode : Json → Except Exn Bytes)
    (certified : Json → Bytes → Snp → Bool) (allowDebug : Bool) (measurement : Option Bytes) :
    Claimed (fun _ => .snp fun ev => do decode (← ev.item "report"))
      (sevsnpVerifier decode certified allowDebug measurement) := by
  intro ev rd ok c h
  cases ev with
  | obj fields =>
      unfold sevsnpVerifier at h
      simp only at h
      split_ifs at h
      · cases h
      split at h
      · cases h
      next b f hread =>
        obtain ⟨j, hj, hread⟩ := Exn.bind_eq_ok hread
        obtain ⟨b', hb, hread⟩ := Exn.bind_eq_ok hread
        obtain ⟨f', hf, hread⟩ := Exn.bind_eq_ok hread
        cases hread
        split_ifs at h
        · cases h
        · cases h
        · cases h
        · obtain ⟨-, hc⟩ := Prod.mk.inj (Except.ok.inj h)
          simp only [Rule.claims, hj, hb, hf, hc, Exn.ok_bind, Exn.pure_eq_ok]
        · cases h
  | _ => cases h

end Tee

end Hatls
