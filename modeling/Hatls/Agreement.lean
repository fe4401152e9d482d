import Hatls.World

/-!
# Agreement on position

What a chip signs is the last link of a chain, and the last link determines the chain.
So evidence for a link, from a chip that signs for attesters only, is evidence for the
whole chain at the mandate: for the number of its links, for the exporter of each, for
the session context it began in and for the identity.

## Main definitions

* `Consistent`, `Consistent.step` — the parties agree with the record of what has happened.
* `Agreed`, `agreement_on_position` — the guarantee.
-/

namespace Hatls

open Mandate Binder HashInput

variable {P : Primitives} {cfg : Config}

/-! ## The invariant -/

variable {I : Type}

/-- **The parties and the record of what has happened agree.** -/
structure Consistent (P : Primitives) (tik : I → Bytes) (w : World I) : Prop where
  heads : ∀ head, w.mandate.knowsHead head = true → head.length = 32
  guests : ∀ who, Chained P w.hashed (tik who) (w.guests who)
  texts : ∀ r ∈ w.requests, ofReport r.text ∈ w.hashed
  backed : ∀ who earlier now, .link who earlier now ∈ w.requests →
    earlier <+: (w.guests who).done ∧ now.link.length = 32 ∧
      ∃ ctx, Ran P w.hashed ctx (tik who) (earlier.map Attested.toLinked ++ [now.toLinked])
  tracked : Tracked P w.hashed w.admissions w.mandate

namespace Consistent

variable {tik : I → Bytes} {w : World I}

theorem new (ledger : Bytes → Option Record) : Consistent P tik (.new P ledger tik) where
  heads head h := by
    by_cases heq : head = MerkleLog.head P ⟨[]⟩
    · rw [heq]
      exact Log.length_root P _
    · simp [World.new, knowsHead, Mandate.new, Function.update_of_ne heq] at h
  guests _ := .fresh
  texts r hr := by cases hr
  backed who earlier now h := by cases h
  tracked key s h := by cases h

/-- What is recorded of the requests stays right when the attesters move on. -/
theorem backed_mono {more : List HashInput} {guests : I → Guest} (h : Consistent P tik w)
    (hsub : w.hashed ⊆ more) (hdone : ∀ who, (w.guests who).done <+: (guests who).done) {who : I}
    {earlier : List Attested} {now : Attested} (hin : .link who earlier now ∈ w.requests) :
    earlier <+: (guests who).done ∧ now.link.length = 32 ∧
      ∃ ctx, Ran P more ctx (tik who) (earlier.map Attested.toLinked ++ [now.toLinked]) := by
  obtain ⟨hbegins, hlength, ctx, hran⟩ := h.backed who earlier now hin
  exact ⟨hbegins.trans (hdone who), hlength, ctx, hran.mono hsub⟩

theorem tracked_mono {more : List HashInput} {admissions : List Admission} {m : Mandate}
    (h : Tracked P w.hashed w.admissions w.mandate) (hsub : w.hashed ⊆ more)
    (hadmissions : w.admissions <+: admissions)
    (hm : ∀ key s, m.sessions key = some s → w.mandate.sessions key = some s) :
    Tracked P more admissions m := by
  intro key s hs
  obtain ⟨ctx, ps, hps, hheld, hend⟩ := h key s (hm key s hs)
  exact ⟨ctx, ps, hps.trans hadmissions.sublist, hheld.mono hsub, hend⟩

/-- A world with more hashed, and a mandate that has moved on. -/
theorem of_mandate (h : Consistent P tik w) {m : Mandate} {admissions : List Admission}
    {hashed : List HashInput} (hsub : w.hashed ⊆ hashed)
    (hheads : ∀ head, m.knowsHead head = true → w.mandate.knowsHead head = true ∨ head.length = 32)
    (htracked : Tracked P hashed admissions m) :
    Consistent P tik { w with mandate := m, admissions := admissions, hashed := hashed } := by
  constructor
  · intro head hhead
    rcases hheads head hhead with hknown | hlength
    · exact h.heads head hknown
    · exact hlength
  · exact fun who => (h.guests who).mono hsub
  · exact fun r hr => hsub (h.texts r hr)
  · exact fun who earlier now hr => h.backed_mono hsub (fun _ => List.prefix_rfl) hr
  · exact htracked

/-- A step of an attester. -/
theorem attest [DecidableEq I] (h : Consistent P tik w) (who : I) (report : Bytes → Except Exn Json)
    (c exporter : Bytes) (head : Option Bytes) :
    Consistent P tik (w.attest P who report c exporter head) := by
  cases hderive : (w.guests who).attester.derive P c exporter with
  | error x =>
      simp only [World.attest, hderive]
      exact h
  | ok link =>
      have htik : (w.guests who).attester.tikPub = tik who := by
        cases hg : w.guests who with
        | mk a done =>
            have hchained := h.guests who
            rw [hg] at hchained
            cases hchained <;> rfl
      have hsub : w.hashed ⊆ (w.attest P who report c exporter head).hashed := by
        simp only [World.attest, hderive]
        exact List.subset_append_left _ _
      have hnew : ofIntra P c (tik who) ++ [ofNext exporter ((w.guests who).attester.base P c)
          (w.guests who).attester.counter, ofReport (reportText link head)] ⊆
          (w.attest P who report c exporter head).hashed := by
        simp only [World.attest, hderive, htik]
        exact List.subset_append_right _ _
      obtain ⟨hlength, hran, hmoved⟩ := (h.guests who).next head hsub
        (fun x hx => hnew (by simp [hx])) (hnew (by simp)) hderive
      have hguest : Chained P (w.attest P who report c exporter head).hashed (tik who)
            ((w.attest P who report c exporter head).guests who) ∧
          (w.guests who).done <+: ((w.attest P who report c exporter head).guests who).done := by
        rcases (w.guests who).attester.attest_of_derive hderive report head with
          ⟨x, hattest⟩ | ⟨msg, hattest⟩
        · have hsame : (w.attest P who report c exporter head).guests who = w.guests who := by
            simp only [World.attest, hderive, hattest, Function.update_self]
          rw [hsame]
          exact ⟨(h.guests who).mono hsub, List.prefix_rfl⟩
        · have hstep : (w.attest P who report c exporter head).guests who =
              ⟨{ (w.guests who).attester with
                  prev := some link, counter := (w.guests who).attester.counter + 1 },
                (w.guests who).done ++ [⟨⟨c, exporter, (w.guests who).attester.counter, link⟩, head⟩]⟩ := by
            simp only [World.attest, hderive, hattest, Function.update_self]
          rw [hstep]
          exact ⟨hmoved, List.prefix_append _ _⟩
      have hothers : ∀ other, other ≠ who →
          (w.attest P who report c exporter head).guests other = w.guests other := by
        intro other hne
        simp only [World.attest, hderive, Function.update_of_ne hne]
      have hdone : ∀ other,
          (w.guests other).done <+: ((w.attest P who report c exporter head).guests other).done := by
        intro other
        by_cases hwho : other = who
        · rw [hwho]
          exact hguest.2
        · rw [hothers other hwho]
      have hrequests : (w.attest P who report c exporter head).requests =
          w.requests ++ [.link who (w.guests who).done
            ⟨⟨c, exporter, (w.guests who).attester.counter, link⟩, head⟩] := by
        simp only [World.attest, hderive]
      constructor
      · simp only [World.attest, hderive]
        exact h.heads
      · intro other
        by_cases hwho : other = who
        · rw [hwho]
          exact hguest.1
        · rw [hothers other hwho]
          exact (h.guests other).mono hsub
      · intro r hr
        rw [hrequests] at hr
        rcases List.mem_append.mp hr with hr | hr
        · exact hsub (h.texts r hr)
        · obtain rfl := List.mem_singleton.mp hr
          exact hnew (by simp [Request.text])
      · intro other earlier now hr
        rw [hrequests] at hr
        rcases List.mem_append.mp hr with hr | hr
        · exact h.backed_mono hsub hdone hr
        · obtain ⟨rfl, rfl, rfl⟩ := Request.link.inj (List.mem_singleton.mp hr)
          exact ⟨hguest.2, hlength, hran⟩
      · have hmandate : (w.attest P who report c exporter head).mandate = w.mandate ∧
            (w.attest P who report c exporter head).admissions = w.admissions := by
          simp only [World.attest, hderive, and_self]
        rw [hmandate.1, hmandate.2]
        exact tracked_mono h.tracked hsub List.prefix_rfl fun _ _ hs => hs

/-- A request for an enrolment report. -/
theorem enrolmentReport [DecidableEq I] (h : Consistent P tik w) (inst nonce csrDer : Bytes) :
    Consistent P tik (w.step P cfg (.enrolmentReport inst nonce csrDer)).2 := by
  have hsub : w.hashed ⊆ w.hashed ++ [ofReport (nonce ++ csrDer)] := List.subset_append_left _ _
  constructor
  · exact h.heads
  · exact fun who => (h.guests who).mono hsub
  · intro r hr
    rcases List.mem_append.mp hr with hr | hr
    · exact hsub (h.texts r hr)
    · obtain rfl := List.mem_singleton.mp hr
      simp [World.step, Request.text]
  · intro who earlier now hr
    rcases List.mem_append.mp hr with hr | hr
    · exact h.backed_mono hsub (fun _ => List.prefix_rfl) hr
    · cases List.mem_singleton.mp hr
  · exact tracked_mono h.tracked hsub List.prefix_rfl fun _ _ hs => hs

/-- A call of the mandate. -/
theorem call (h : Consistent P tik w) (env : Env) (c : Call) :
    Consistent P tik (w.call P cfg env c).2 := by
  have hheads : ∀ head, (w.mandate.serve P cfg env c).2.knowsHead head = true →
      w.mandate.knowsHead head = true ∨ head.length = 32 := fun _ => knowsHead_serve
  have hquiet : (∀ key s, (w.mandate.serve P cfg env c).2.sessions key = some s →
      w.mandate.sessions key = some s) →
      Consistent P tik { w with mandate := (w.mandate.serve P cfg env c).2 } := fun hm =>
    h.of_mandate (List.Subset.refl _) hheads
      (tracked_mono h.tracked (List.Subset.refl _) List.prefix_rfl hm)
  cases c with
  | present k ctx exporter msg head bundle =>
      rcases added_cases P cfg w.mandate env k ctx exporter msg head bundle with
        ⟨inst, place, pl, n, hadm, hothers⟩ | ⟨hnone, hm⟩
      · have hsub : w.hashed ⊆ w.hashed ++ presentInputs P w.mandate k ctx exporter head ⟨pl, n⟩ :=
          List.subset_append_left _ _
        simp only [World.call, added_of_admits hadm]
        refine h.of_mandate hsub hheads fun key s hs => ?_
        by_cases hkey : key = sessionKey P k ctx
        · rw [hkey, sessions_serve_of_admits hadm, Function.update_self] at hs
          obtain rfl := Option.some.inj hs
          obtain ⟨ctx₀, ps, hps, hlength, -, hheld⟩ :=
            h.tracked.admit hadm hsub (List.subset_append_right _ _)
          subst hkey
          refine ⟨ctx₀, _, hps.append (List.Sublist.refl _), hheld, by simp [hlength], ?_⟩
          have hchain := hheld.ran.chain
          simp only [List.map_append, List.map_singleton] at hchain ⊢
          exact hchain.last
        · exact tracked_mono h.tracked hsub (List.prefix_append _ _) (fun _ _ hs => hs) key s
            (hothers key s hkey hs)
      · simp only [World.call, hnone]
        exact hquiet hm
  | _ =>
      refine hquiet fun key s hs => sessions_serve_other ?_ hs
      exact fun k hk => hk

/-- **Whatever happens keeps it.** -/
theorem step [DecidableEq I] (h : Consistent P tik w) (e : Happening I) :
    Consistent P tik (w.step P cfg e).2 := by
  cases e with
  | attest who report c exporter head => exact h.attest who report c exporter head
  | enrolmentReport inst nonce csrDer => exact h.enrolmentReport inst nonce csrDer
  | call env c => exact h.call env c

/-- So does every run. -/
theorem run [DecidableEq I] (ledger : Bytes → Option Record) (events : List (Happening I)) :
    Consistent P tik (Run.exec (World.step P cfg) (.new P ledger tik) events) :=
  Run.exec_invariant' (World.step P cfg) (Consistent P tik) (fun _ e h => h.step e) events
    (.new ledger)

end Consistent

/-! ## The guarantee -/

/-- A head that passes the check is a hash. -/
theorem length_of_checkHead {m : Mandate} {head : Option Bytes} {bundle : Option Json}
    (hheads : ∀ h, m.knowsHead h = true → h.length = 32)
    (h : m.checkHead P cfg head bundle = .ok none) {b : Bytes} (hb : head = some b) :
    b.length = 32 := by
  subst hb
  cases bundle with
  | none =>
      by_cases hknown : m.knowsHead b = true
      · exact hheads b hknown
      · simp [checkHead, hknown] at h
  | some entries =>
      by_cases hverify : Federation.verifyBundle P b entries = true
      · have hcommit : Federation.bundleCommitment P entries = b := by
          simpa [Federation.verifyBundle] using hverify
        rw [← hcommit]
        exact P.length_sha256 _
      · simp [checkHead, hverify] at h

/-- All links of one chain of the mandate were presented in one session context. -/
theorem ChainHeld.context {inputs : List HashInput} {k ctx ctx₀ : Bytes} {ps : List Admission}
    {p : Admission} (hfree : NoCollision P inputs)
    (h : ChainHeld P inputs (sessionKey P k ctx) ctx₀ (ps ++ [p])) (hp : p.sessionContext = ctx) :
    ctx₀ = ctx ∧ ∀ q ∈ ps, q.sessionContext = ctx := by
  have hin : ofContext ctx ∈ inputs := hp ▸ (h.own p (by simp)).2.2
  have hall : ∀ q ∈ ps ++ [p], q.sessionContext = ctx := by
    intro q hq
    obtain ⟨-, hkey, hq⟩ := h.own q hq
    exact hfree.context hq hin (congrArg Prod.snd hkey)
  refine ⟨?_, fun q hq => hall q (List.mem_append_left _ hq)⟩
  cases ps with
  | nil =>
      rw [← h.ran.first p.toLinked rfl]
      exact hp
  | cons q ps =>
      rw [← h.ran.first q.toLinked rfl]
      exact hall q (by simp)

/-- **What is agreed on.**  An attester on the instance, with the key of the identity, had
completed as many steps as the counter says and then asked its chip for the link of the
message, with the same exporter and the same head; its first step was in the session
context of the presentation; and the links it had made before are the links the mandate
had added to the chain, in order, each with the same exporter. -/
structure Agreed (host tik : I → Bytes) (w : World I) (inst k ctx exporter : Bytes) (msg : Json)
    (head : Option Bytes) (n : ℕ) (who : I) (earlier : List Attested) (now : Attested) : Prop where
  requested : .link who earlier now ∈ w.requests
  completed : earlier <+: (w.guests who).done
  instance_eq : host who = inst
  tikPub_eq : tik who = k
  position : earlier.length = n ∧ now.counter = n
  exporter_eq : now.exporter = exporter
  head_eq : now.head = head
  link_eq : postLinkOf msg = .ok now.link
  context_eq : ∀ s, (earlier ++ [now]).head? = some s → s.sessionContext = ctx
  history : ∃ ps : List Admission, ps.Sublist w.admissions ∧
    (∀ p ∈ ps, p.tikPub = k ∧ p.sessionContext = ctx) ∧
    ps.map (fun p => p.counter) = List.range n ∧
    earlier.map (fun s => s.counter) = List.range n ∧
    ps.map (fun p => p.exporter) = earlier.map (fun s => s.exporter) ∧
    ps.map (fun p => p.link) = earlier.map (fun s => s.link)

theorem World.call_fst (w : World I) (env : Env) (c : Call) :
    (w.call P cfg env c).1 = (w.mandate.serve P cfg env c).1 := by
  cases c with
  | present k ctx exporter msg head bundle =>
      simp only [World.call]
      split <;> rfl
  | _ => rfl

/-- A presentation that is admitted adds a link. -/
theorem World.call_of_admits (w : World I) (env : Env) {k ctx exporter pl : Bytes} {msg : Json}
    {head : Option Bytes} {bundle : Option Json} {inst place : Option Bytes} {n : ℕ}
    (h : Admits P cfg w.mandate k ctx exporter msg head bundle inst place pl n) :
    (w.call P cfg env (.present k ctx exporter msg head bundle)).2 =
      { w with
        mandate := (w.mandate.serve P cfg env (.present k ctx exporter msg head bundle)).2
        admissions := w.admissions ++ [⟨⟨ctx, exporter, n, pl⟩, k⟩]
        hashed := w.hashed ++ presentInputs P w.mandate k ctx exporter head ⟨pl, n⟩ } := by
  simp only [World.call, added_of_admits h]

variable [DecidableEq I]

/-- A step of an attester whose chip answers. -/
theorem World.attest_of_ok {w : World I} {who : I} {a a' : Attester} {done : List Attested}
    (hguest : w.guests who = ⟨a, done⟩) {report : Bytes → Except Exn Json} {c exporter link : Bytes}
    {head : Option Bytes} {msg : Json} (hderive : a.derive P c exporter = .ok link)
    (hattest : a.attest P report c exporter head = (.ok msg, a')) :
    w.attest P who report c exporter head =
      { w with
        guests := Function.update w.guests who
          ⟨a', done ++ [⟨⟨c, exporter, a.counter, link⟩, head⟩]⟩
        requests := w.requests ++ [.link who done ⟨⟨c, exporter, a.counter, link⟩, head⟩]
        hashed := w.hashed ++ (ofIntra P c a.tikPub ++
          [ofNext exporter (a.base P c) a.counter, ofReport (reportText link head)]) } := by
  simp only [World.attest, hguest, hderive, hattest]

/-- The state of the world after a run. -/
def World.after (P : Primitives) (cfg : Config) (tik : I → Bytes) (ledger : Bytes → Option Record)
    (events : List (Happening I)) : World I :=
  Run.exec (World.step P cfg) (.new P ledger tik) events

/-- **Agreement on position.**  In any run, if the evidence of an accepted presentation
names an instance only for what the chip of the instance was asked to sign, that chip
signs enrolment requests of more than eighty-three bytes only, and no two inputs hashed
in the run collide, then an attester on the instance stood at the same position of the
same chain. -/
theorem agreement_on_position (host tik : I → Bytes) {ledger : Bytes → Option Record}
    {events : List (Happening I)} {w : World I} (hw : w = World.after P cfg tik ledger events)
    {inst : Bytes} (hcsr : ∀ nonce csrDer, .enrolment inst nonce csrDer ∈ w.requests →
      83 < csrDer.length)
    {env : Env} {k ctx exporter : Bytes} {msg : Json} {head : Option Bytes} {bundle : Option Json}
    {v : Verdict}
    (hreply : (w.step P cfg (.call env (.present k ctx exporter msg head bundle))).1 =
      some (.decision v)) (hok : v.ok = true) (hinst : v.inst = some inst)
    (hasked : ∀ evidence rd anchor, msg.item "evidence" = .ok evidence →
      cfg.verifyReport evidence rd = .ok (true, some anchor) → anchor.inst = inst →
        ∃ r ∈ w.requests, r.inst host = inst ∧ r.reportData P = rd)
    (hfree : NoCollision P
      (w.step P cfg (.call env (.present k ctx exporter msg head bundle))).2.hashed) :
    ∃ n : ℕ, (∃ c, msg.item "counter" = .ok c ∧ c.eqInt n = true) ∧
      ∃ who earlier now, Agreed host tik w inst k ctx exporter msg head n who earlier now := by
  have hw : Consistent P tik w := by
    rw [hw]
    exact Consistent.run ledger events
  have hserve : (w.mandate.serve P cfg env (.present k ctx exporter msg head bundle)).1 =
      .decision v := by
    rw [← World.call_fst]
    exact Option.some.inj hreply
  obtain ⟨place, pl, n, hadm⟩ := serve_accepted hserve hok
  rw [hinst] at hadm
  have hhashed : (w.step P cfg (.call env (.present k ctx exporter msg head bundle))).2.hashed =
      w.hashed ++ presentInputs P w.mandate k ctx exporter head ⟨pl, n⟩ := by
    simp only [World.step, World.call, added_of_admits hadm]
  rw [hhashed] at hfree
  have hsub := List.subset_append_left w.hashed
    (presentInputs P w.mandate k ctx exporter head ⟨pl, n⟩)
  have hnew := List.subset_append_right w.hashed
    (presentInputs P w.mandate k ctx exporter head ⟨pl, n⟩)
  obtain ⟨ctx₀, ps, hps, hlength, hpl, hheld⟩ := hw.tracked.admit hadm hsub hnew
  obtain ⟨rfl, hcontexts⟩ := hheld.context hfree rfl
  -- what the chip was asked for is the link of an attester
  obtain ⟨evidence, anchor, hevidence, hverified, hanchor, -⟩ := hadm.toVerified.exists_anchor
  obtain ⟨r, hr, hhost, hdata⟩ := hasked evidence _ anchor hevidence hverified hanchor
  rw [r.reportData_eq, reportDataFor_eq] at hdata
  have htext : r.text = reportText pl head :=
    hfree.report (hsub (hw.texts r hr)) (hnew (by simp [presentInputs])) hdata
  cases r with
  | enrolment inst' nonce csrDer =>
      obtain rfl : inst' = inst := hhost
      have hlong := hcsr nonce csrDer hr
      have hshort := length_reportText_le hpl
        fun h hh => length_of_checkHead hw.heads hadm.known hh
      rw [← htext] at hshort
      simp only [Request.text, List.length_append] at hshort
      omega
  | link who earlier now =>
      obtain ⟨hbegins, hnow, ctx', hran⟩ := hw.backed who earlier now hr
      obtain ⟨hlink, hhead⟩ := reportText_inj hnow hpl htext
      have hmandate := hheld.ran
      rw [List.map_append, List.map_singleton] at hmandate
      -- both chains end in this link, so they are one
      obtain ⟨rfl, rfl, hexporter, hexporters, hlinks⟩ :=
        hmandate.eq_of_last hfree (hran.mono hsub) hlink.symm
      obtain ⟨hpsCounters, -⟩ := hmandate.counters_concat
      obtain ⟨hearlier, hcounter⟩ := hran.counters_concat
      have hlengths : earlier.length = n := by
        have heq := congrArg List.length hlinks
        simp only [List.length_map] at heq
        rw [← heq, hlength]
      rw [List.length_map, hlengths] at hearlier hcounter
      rw [List.length_map, hlength] at hpsCounters
      simp only [List.map_map] at hexporters hlinks hpsCounters hearlier
      refine ⟨n, hadm.counter, who, earlier, now, ?_⟩
      constructor
      · exact hr
      · exact hbegins
      · exact hhost
      · rfl
      · exact ⟨hlengths, hcounter⟩
      · exact hexporter.symm
      · exact hhead
      · rw [hlink]
        exact hadm.link
      · intro s hs
        apply hran.first s.toLinked
        cases earlier with
        | nil =>
            cases hs
            rfl
        | cons s' rest =>
            cases hs
            rfl
      · refine ⟨ps, hps, fun p hp => ⟨?_, hcontexts p hp⟩, hpsCounters, hearlier, hexporters, hlinks⟩
        exact (hheld.own p (List.mem_append_left _ hp)).1

section Second

open Tee

/-- The world after the first step of the one attester there is. -/
def World.afterHello (P : Primitives) (cfg : Config) (tee : MockTEE) (rnd k ctx exporter : Bytes)
    (ledger : Bytes → Option Record) : World Unit :=
  .after P cfg (fun _ => k) ledger
    [.attest () (fun rd => .ok (tee.report P rnd rd)) ctx exporter none]

variable {tee : MockTEE} {rnd k ctx exporter : Bytes} {ledger : Bytes → Option Record}

variable (P cfg tee rnd k exporter ledger) in
theorem World.afterHello_eq (hctx : ctx.length < 256) :
    World.afterHello P cfg tee rnd k ctx exporter ledger =
      { mandate := .new P ledger
        guests := fun _ => ⟨(Attester.new k).advance P ctx exporter,
          [⟨⟨ctx, exporter, 0, nextLink P exporter (firstLink P ctx k) 0⟩, none⟩]⟩
        requests :=
          [.link () [] ⟨⟨ctx, exporter, 0, nextLink P exporter (firstLink P ctx k) 0⟩, none⟩]
        admissions := []
        hashed := ofIntra P ctx k ++ [ofNext exporter (firstLink P ctx k) 0,
          ofReport (reportText (nextLink P exporter (firstLink P ctx k) 0) none)] } := by
  have hlink := postLink_eq P exporter (length_firstLink P ctx k) (show 0 < 2 ^ 64 by omega)
  have hderive : (Attester.new k).derive P ctx exporter =
      .ok (nextLink P exporter (firstLink P ctx k) 0) := by
    simp only [Attester.derive, Attester.new, intraLink_eq P hctx, Exn.ok_bind, Option.getD_none, hlink]
  have hattest := tee.attest_hello P hctx rnd k exporter
  rw [World.afterHello, World.after, Run.exec_cons, Run.exec_nil]
  simp only [World.step, World.attest, World.new, hderive, hattest]
  congr 1

/-- The second message of an attester on a chip, in the same session. -/
def secondHello (P : Primitives) (tee : MockTEE) (rnd k ctx exporter exporter' : Bytes) : Json :=
  let link := nextLink P exporter' (nextLink P exporter (firstLink P ctx k) 0) 1
  .obj [
    ("counter", .int 1),
    ("intra_ok_base", .bool false),
    ("post_link", .str (Bytes.hex link)),
    ("evidence", tee.report P rnd (reportDataFor P link none))]

variable (P tee rnd k exporter) in
theorem attest_secondHello (hctx : ctx.length < 256) (exporter' : Bytes) :
    ((Attester.new k).advance P ctx exporter).attest P (fun rd => .ok (tee.report P rnd rd)) ctx
        exporter' none =
      (.ok (secondHello P tee rnd k ctx exporter exporter'),
        ((Attester.new k).advance P ctx exporter).advance P ctx exporter') := by
  have hlink := postLink_eq P exporter' (length_nextLink P exporter (firstLink P ctx k) 0)
    (show 1 < 2 ^ 64 by omega)
  simp only [Attester.attest, Attester.advance, Attester.new, Attester.base, intraLink_eq P hctx,
    Option.getD_none, Option.getD_some, zero_add, hlink, Exn.ok_bind, Exn.pure_eq_ok]
  rfl

/-- The world after its first step was presented, and its second made. -/
def World.afterSecond (P : Primitives) (cfg : Config) (tee : MockTEE)
    (rnd k ctx exporter exporter' : Bytes) (ledger : Bytes → Option Record) (t : Moment) : World Unit :=
  .after P cfg (fun _ => k) ledger [
    .attest () (fun rd => .ok (tee.report P rnd rd)) ctx exporter none,
    .call t.env (.present k ctx exporter (tee.hello P rnd k ctx exporter) none none),
    .attest () (fun rd => .ok (tee.report P rnd rd)) ctx exporter' none]

variable {t : Moment} {inst place : Option Bytes}

/-- The first step is presented, and admitted. -/
theorem World.presented_hello (hctx : ctx.length < 256)
    (hadm : Admits P cfg (.new P ledger) k ctx exporter (tee.hello P rnd k ctx exporter) none none
      inst place (nextLink P exporter (firstLink P ctx k) 0) 0) :
    let link := nextLink P exporter (firstLink P ctx k) 0
    ((World.afterHello P cfg tee rnd k ctx exporter ledger).step P cfg
      (.call t.env (.present k ctx exporter (tee.hello P rnd k ctx exporter) none none))).2 =
      { mandate := ((Mandate.new P ledger).step P cfg
          (t, .present k ctx exporter (tee.hello P rnd k ctx exporter) none none)).2
        guests := fun _ =>
          ⟨(Attester.new k).advance P ctx exporter, [⟨⟨ctx, exporter, 0, link⟩, none⟩]⟩
        requests := [.link () [] ⟨⟨ctx, exporter, 0, link⟩, none⟩]
        admissions := [⟨⟨ctx, exporter, 0, link⟩, k⟩]
        hashed := ofIntra P ctx k ++
          [ofNext exporter (firstLink P ctx k) 0, ofReport (reportText link none)] ++
          presentInputs P (.new P ledger) k ctx exporter none ⟨link, 0⟩ } := by
  intro link
  rw [World.afterHello_eq P cfg tee rnd k exporter ledger hctx, ← serve_env]
  exact World.call_of_admits _ t.env hadm

/-- The attester makes its second step. -/
theorem World.afterSecond_eq (hctx : ctx.length < 256) (exporter' : Bytes)
    (hadm : Admits P cfg (.new P ledger) k ctx exporter (tee.hello P rnd k ctx exporter) none none
      inst place (nextLink P exporter (firstLink P ctx k) 0) 0) :
    let link := nextLink P exporter (firstLink P ctx k) 0
    let link' := nextLink P exporter' link 1
    World.afterSecond P cfg tee rnd k ctx exporter exporter' ledger t =
      { mandate := ((Mandate.new P ledger).step P cfg
          (t, .present k ctx exporter (tee.hello P rnd k ctx exporter) none none)).2
        guests := fun _ => ⟨((Attester.new k).advance P ctx exporter).advance P ctx exporter',
          [⟨⟨ctx, exporter, 0, link⟩, none⟩, ⟨⟨ctx, exporter', 1, link'⟩, none⟩]⟩
        requests := [.link () [] ⟨⟨ctx, exporter, 0, link⟩, none⟩,
          .link () [⟨⟨ctx, exporter, 0, link⟩, none⟩] ⟨⟨ctx, exporter', 1, link'⟩, none⟩]
        admissions := [⟨⟨ctx, exporter, 0, link⟩, k⟩]
        hashed := ofIntra P ctx k ++
          [ofNext exporter (firstLink P ctx k) 0, ofReport (reportText link none)] ++
          presentInputs P (.new P ledger) k ctx exporter none ⟨link, 0⟩ ++
          (ofIntra P ctx k ++ [ofNext exporter' link 1, ofReport (reportText link' none)]) } := by
  intro link link'
  have hderive : ((Attester.new k).advance P ctx exporter).derive P ctx exporter' = .ok link' := by
    have hlink := postLink_eq P exporter' (length_nextLink P exporter (firstLink P ctx k) 0)
      (show 1 < 2 ^ 64 by omega)
    simp only [Attester.derive, Attester.advance, Attester.new, Attester.base, intraLink_eq P hctx,
      Exn.ok_bind, Option.getD_none, Option.getD_some, zero_add, hlink, link', link]
  have hpresented := World.presented_hello (t := t) hctx hadm
  rw [World.afterHello, World.after] at hpresented
  rw [World.afterSecond, World.after, Run.exec_cons, Run.exec_cons, Run.exec_cons, Run.exec_nil]
  rw [Run.exec_cons, Run.exec_nil] at hpresented
  rw [hpresented]
  simp only [World.step]
  refine Eq.trans (World.attest_of_ok rfl hderive
    (attest_secondHello P tee rnd k exporter hctx exporter')) ?_
  simp only [Attester.advance, Attester.new, Attester.base, Option.getD_none, Option.getD_some,
    zero_add, List.nil_append, List.cons_append, World.mk.injEq, true_and]
  exact ⟨funext fun _ => Function.update_self _ _ _, rfl, rfl, rfl⟩

/-- What the chip was asked for is the two links. -/
theorem asked_second (hctx : ctx.length < 256) {exporter' : Bytes} {trustedPubs : List String}
    (hcfg : cfg.verifyReport = mockVerifier P trustedPubs)
    (hadm : Admits P cfg (.new P ledger) k ctx exporter (tee.hello P rnd k ctx exporter) none none
      inst place (nextLink P exporter (firstLink P ctx k) 0) 0) {evidence : Json} {rd : Bytes}
    {anchor : Anchor}
    (hevidence : (secondHello P tee rnd k ctx exporter exporter').item "evidence" = .ok evidence)
    (hverified : cfg.verifyReport evidence rd = .ok (true, some anchor)) :
    ∃ r ∈ (World.afterSecond P cfg tee rnd k ctx exporter exporter' ledger t).requests,
      r.inst (fun _ => tee.inst) = tee.inst ∧ r.reportData P = rd := by
  have hitem : (secondHello P tee rnd k ctx exporter exporter').item "evidence" =
      .ok (tee.report P rnd (reportDataFor P
        (nextLink P exporter' (nextLink P exporter (firstLink P ctx k) 0) 1) none)) := by
    simp [secondHello, Json.item, Json.lookup]
  obtain rfl := Except.ok.inj (hitem.symm.trans hevidence)
  rw [hcfg] at hverified
  rw [World.afterSecond_eq hctx exporter' hadm]
  exact ⟨_, List.mem_cons_of_mem _ (List.mem_singleton_self _), rfl,
    (mockVerifier_report_eq P hverified).symm⟩

/-- **The second message is admitted** where the first was. -/
theorem admits_second (hctx : ctx.length < 256) (rnd exporter' : Bytes) {trustedPubs : List String}
    (hcfg : cfg.verifyReport = mockVerifier P trustedPubs) (htee : tee.Trusted P trustedPubs)
    (hplace : cfg.requirePlace = false) {m : Mandate} (hrec : Welcome cfg (m.record k) tee.inst)
    (hsession : m.sessions (sessionKey P k ctx) =
      some ⟨nextLink P exporter (firstLink P ctx k) 0, 0⟩) :
    ∃ place, Admits P cfg m k ctx exporter' (secondHello P tee rnd k ctx exporter exporter') none none
      (some tee.inst) place (nextLink P exporter' (nextLink P exporter (firstLink P ctx k) 0) 1) 1 := by
  have hprev : ∀ l, ((Attester.new k).advance P ctx exporter).prev = some l → l.length = 32 := by
    intro l hl
    rw [← Option.some.inj hl]
    exact length_nextLink P _ _ _
  refine admits_of_known hplace (Attester.genuine_of_attest hprev (MockTEE.chipOf hcfg htee rnd)
    (attest_secondHello P tee rnd k exporter hctx exporter')) hrec rfl ?_
  simp [Expects, hsession]

/-- Three links are hashed, and two reports. -/
theorem noCollision_second (hctx : ctx.length < 256) {exporter' : Bytes}
    (hlinks : [firstLink P ctx k, nextLink P exporter (firstLink P ctx k) 0,
      nextLink P exporter' (nextLink P exporter (firstLink P ctx k) 0) 1].Nodup)
    (hdata : reportDataFor P (nextLink P exporter (firstLink P ctx k) 0) none ≠
      reportDataFor P (nextLink P exporter' (nextLink P exporter (firstLink P ctx k) 0) 1) none)
    (hadm : Admits P cfg (.new P ledger) k ctx exporter (tee.hello P rnd k ctx exporter) none none
      inst place (nextLink P exporter (firstLink P ctx k) 0) 0) {env : Env} {inst' place' : Option Bytes}
    (hadm' : Admits P cfg (World.afterSecond P cfg tee rnd k ctx exporter exporter' ledger t).mandate k
      ctx exporter' (secondHello P tee rnd k ctx exporter exporter') none none inst' place'
        (nextLink P exporter' (nextLink P exporter (firstLink P ctx k) 0) 1) 1)
    (hsession : (World.afterSecond P cfg tee rnd k ctx exporter exporter' ledger t).mandate.sessions
      (sessionKey P k ctx) = some ⟨nextLink P exporter (firstLink P ctx k) 0, 0⟩) :
    NoCollision P ((World.afterSecond P cfg tee rnd k ctx exporter exporter' ledger t).step P cfg
      (.call env (.present k ctx exporter' (secondHello P tee rnd k ctx exporter exporter') none
        none))).2.hashed := by
  have hinputs : presentInputs P (World.afterSecond P cfg tee rnd k ctx exporter exporter' ledger
      t).mandate k ctx exporter' none
        ⟨nextLink P exporter' (nextLink P exporter (firstLink P ctx k) 0) 1, 1⟩ =
      [ofContext ctx, ofReport (reportText
        (nextLink P exporter' (nextLink P exporter (firstLink P ctx k) 0) 1) none),
        ofNext exporter' (nextLink P exporter (firstLink P ctx k) 0) 1] := by
    simp only [presentInputs, hsession]
    rfl
  simp only [World.step, World.call_of_admits _ env hadm', hinputs]
  simp only [World.afterSecond_eq hctx exporter' hadm, presentInputs, Mandate.new]
  have hfree : NoCollision P [ofBase ctx, ofKey k, ofFirst P ctx k,
      ofNext exporter (firstLink P ctx k) 0,
      ofNext exporter' (nextLink P exporter (firstLink P ctx k) 0) 1,
      ofReport (reportText (nextLink P exporter (firstLink P ctx k) 0) none),
      ofReport (reportText (nextLink P exporter' (nextLink P exporter (firstLink P ctx k) 0) 1) none),
      ofContext ctx] := by
    rw [reportDataFor_eq, reportDataFor_eq] at hdata
    have hlinks : [(ofFirst P ctx k).digest P, (ofNext exporter (firstLink P ctx k) 0).digest P,
      (ofNext exporter' (nextLink P exporter (firstLink P ctx k) 0) 1).digest P].Nodup := hlinks
    generalize reportText (nextLink P exporter (firstLink P ctx k) 0) none = text at hdata ⊢
    generalize reportText (nextLink P exporter' (nextLink P exporter (firstLink P ctx k) 0) 1) none =
      text' at hdata ⊢
    have hreports : (ofReport text).digest P ≠ (ofReport text').digest P := hdata
    generalize nextLink P exporter (firstLink P ctx k) 0 = link at hlinks ⊢
    apply NoCollision.of_nodup
    simpa [ofBase, ofKey, ofReport, ofContext, ofFirst, ofNext, and_assoc] using And.intro hlinks hreports
  refine hfree.mono fun x hx => ?_
  simp only [ofIntra, List.mem_append, List.mem_cons, List.not_mem_nil, or_false] at hx ⊢
  tauto

theorem links_second :
    [firstLink .plain [1] tik, nextLink .plain [2] (firstLink .plain [1] tik) 0,
      nextLink .plain [3] (nextLink .plain [2] (firstLink .plain [1] tik) 0) 1].Nodup ∧
    reportDataFor .plain (nextLink .plain [2] (firstLink .plain [1] tik) 0) none ≠
      reportDataFor .plain (nextLink .plain [3] (nextLink .plain [2] (firstLink .plain [1] tik) 0) 1)
        none := by
  decide +kernel

/-- An attester's first step was presented, and its second is made.  The mandate accepts the
second step, and the one it added before is the first. -/
theorem agreement_on_position_second :
    (((World.afterSecond .plain twoChips teeA [] tik [1] [2] [3] (fun _ => none) (instant 0)).step
      .plain twoChips (.call (instant 1).env (.present tik [1] [3]
        (secondHello .plain teeA [] tik [1] [2] [3]) none none))).1 =
          some (.decision (acceptedVerdict (some teeA.inst)))) ∧
    ∃ who earlier now, Agreed (fun _ : Unit => teeA.inst) (fun _ => tik)
      (World.afterSecond .plain twoChips teeA [] tik [1] [2] [3] (fun _ => none) (instant 0))
      teeA.inst tik [1] [3] (secondHello .plain teeA [] tik [1] [2] [3]) none 1 who earlier now := by
  have hctx : ([1] : Bytes).length < 256 := by decide
  have hadm := admits_hello .plain twoChips teeA (.new .plain fun _ => none) tik rfl teeA_trusted
    hctx (welcome_blank rfl _) (fun h => nomatch h) rfl [] [2]
  have hworld := World.afterSecond_eq (t := instant 0) hctx [3] hadm
  have hstep := step_of_admits (Mandate.new .plain fun _ => none) (instant 0) hadm
  have hsession : (World.afterSecond .plain twoChips teeA [] tik [1] [2] [3] (fun _ => none)
      (instant 0)).mandate.sessions (sessionKey .plain tik [1]) =
        some ⟨nextLink .plain [2] (firstLink .plain [1] tik) 0, 0⟩ := by
    rw [hworld, hstep]
    simp only [sessions_recordDecision, sessions_admitted, Function.update_self]
  have hrec : Welcome twoChips ((World.afterSecond .plain twoChips teeA [] tik [1] [2] [3]
      (fun _ => none) (instant 0)).mandate.record tik) teeA.inst := by
    rw [hworld, hstep]
    simp only [record_recordDecision, record_admitted_self]
    exact ⟨rfl, fun h => (nomatch h), fun _ h => (nomatch h), fun _ h => (Option.some.inj h).symm⟩
  obtain ⟨place, hadm'⟩ := admits_second hctx [] [3] rfl teeA_trusted rfl hrec hsession
  have hreply : ((World.afterSecond .plain twoChips teeA [] tik [1] [2] [3] (fun _ => none)
      (instant 0)).step .plain twoChips (.call (instant 1).env (.present tik [1] [3]
        (secondHello .plain teeA [] tik [1] [2] [3]) none none))).1 =
          some (.decision (acceptedVerdict (some teeA.inst))) := by
    simp only [World.step, World.call_fst, serve_env, step_of_admits _ _ hadm']
  have hcsr : ∀ nonce csrDer, .enrolment teeA.inst nonce csrDer ∈ (World.afterSecond .plain twoChips
      teeA [] tik [1] [2] [3] (fun _ => none) (instant 0)).requests → 83 < csrDer.length := by
    intro nonce csrDer hin
    rw [hworld] at hin
    simp only [List.mem_cons, reduceCtorEq, List.not_mem_nil, or_false] at hin
  obtain ⟨n, ⟨c, hc, hcn⟩, hagreed⟩ := agreement_on_position (fun _ : Unit => teeA.inst) (fun _ => tik)
    rfl hcsr hreply rfl rfl
    (fun _ _ _ hevidence hverified _ => asked_second hctx rfl hadm hevidence hverified)
    (noCollision_second hctx links_second.1 links_second.2 hadm hadm' hsession)
  have hcounter : (secondHello .plain teeA [] tik [1] [2] [3]).item "counter" = .ok (.int 1) := rfl
  obtain rfl := Except.ok.inj (hcounter.symm.trans hc)
  obtain rfl : n = 1 := by
    simpa [Json.eqInt, Json.asInt?, eq_comm] using hcn
  exact ⟨hreply, hagreed⟩

end Second

end Hatls
