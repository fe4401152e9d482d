import Hatls.Lib.HashChain
import Hatls.Binder

/-!
# What a link commits to

The links of a chain as a chain of hashes: the exporters are fed to it, and it begins
with a hash of the session context and of the identity.  Nothing is asked of the hash
functions in general.  What is asked is that no two of the inputs they are given collide
after the cuts the program makes, and it is asked of a list of inputs.

## Main definitions

* `HashInput`, `HashInput.digest` — an input, and what the program keeps of its hash.
* `NoCollision` — the digests tell the inputs of a list apart.
* `ChainFrom` — the links of a chain, with all of their inputs in a list.
* `ChainFrom.eq_of_last` — the last link determines the chain.
* `reportDataFor_inj` — report data determine the link and the head.
-/

namespace Hatls

open Binder

/-! ## Inputs of hash functions -/

/-- What a hash is taken for. -/
inductive HashUse
  /-- SHA-256 of a session context, cut to sixteen bytes. -/
  | sessionKey
  /-- SHA-384 of an identity key. -/
  | keyHash
  /-- SHA-512 of what a chip signs. -/
  | report
  /-- HMAC-SHA-384, whole. -/
  | secret
  /-- HMAC-SHA-384, cut to thirty-two bytes. -/
  | link
  deriving DecidableEq

/-- An input of a hash function; only an HMAC has a key. -/
structure HashInput where
  use : HashUse
  key : Bytes
  msg : Bytes
  deriving DecidableEq

namespace HashInput

def ofContext (sessionContext : Bytes) : HashInput := ⟨.sessionKey, [], sessionContext⟩

def ofKey (tikPub : Bytes) : HashInput := ⟨.keyHash, [], tikPub⟩

def ofReport (text : Bytes) : HashInput := ⟨.report, [], text⟩

/-- The input of the secret the first link is derived with. -/
def ofBase (sessionContext : Bytes) : HashInput :=
  ⟨.secret, List.replicate 48 0, info (ascii "attestation base") sessionContext 48⟩

variable (P : Primitives)

/-- The input of the first link. -/
def ofFirst (sessionContext tikPub : Bytes) : HashInput :=
  ⟨.link, base P sessionContext, info (ascii "attestation") (P.sha384 tikPub) 32⟩

/-- The input of a later link. -/
def ofNext (exporter prevLink : Bytes) (counter : ℕ) : HashInput :=
  ⟨.link, exporter, info (ascii "continuity") (prevLink ++ (Bytes.toLittle 8 counter).reverse) 32⟩

/-- All that `intraLink` evaluates. -/
def ofIntra (sessionContext tikPub : Bytes) : List HashInput :=
  [ofBase sessionContext, ofKey tikPub, ofFirst P sessionContext tikPub]

/-- What the program keeps of the hash. -/
def digest (x : HashInput) : Bytes :=
  match x.use with
  | .sessionKey => (P.sha256 x.msg).take 16
  | .keyHash => P.sha384 x.msg
  | .report => P.sha512 x.msg
  | .secret => P.hmacSha384 x.key x.msg
  | .link => (P.hmacSha384 x.key x.msg).take 32

end HashInput

open HashInput

/-- **No two distinct inputs of a list collide**, as far as the program keeps the hash. -/
def NoCollision (P : Primitives) (inputs : List HashInput) : Prop :=
  ∀ x ∈ inputs, ∀ y ∈ inputs, x.use = y.use → x.digest P = y.digest P → x = y

namespace NoCollision

variable {P : Primitives} {inputs : List HashInput}

theorem mono {more : List HashInput} (h : NoCollision P more) (hsub : inputs ⊆ more) :
    NoCollision P inputs :=
  fun x hx y hy => h x (hsub hx) y (hsub hy)

theorem of_nodup (h : (inputs.map fun x => (x.use, x.digest P)).Nodup) : NoCollision P inputs := by
  intro x hx y hy huse hdigest
  exact List.inj_on_of_nodup_map h hx hy (Prod.ext huse hdigest)

/-- The context of a derivation can be read off its input. -/
theorem info_inj {label ctx ctx' : Bytes} {n : ℕ} (h : info label ctx n = info label ctx' n) :
    ctx = ctx' := by
  simp only [info, List.append_assoc] at h
  have htail := List.append_cancel_left (List.append_cancel_left (List.append_cancel_left
    (List.append_cancel_left h)))
  exact List.append_cancel_right (List.cons.inj htail).2

/-- The keys sessions are kept under tell the contexts apart. -/
theorem context (h : NoCollision P inputs) {ctx ctx' : Bytes} (hin : ofContext ctx ∈ inputs)
    (hin' : ofContext ctx' ∈ inputs) (heq : (P.sha256 ctx).take 16 = (P.sha256 ctx').take 16) :
    ctx = ctx' :=
  congrArg HashInput.msg (h _ hin _ hin' rfl heq)

/-- Report texts are told apart. -/
theorem report (h : NoCollision P inputs) {text text' : Bytes} (hin : ofReport text ∈ inputs)
    (hin' : ofReport text' ∈ inputs) (heq : P.sha512 text = P.sha512 text') : text = text' :=
  congrArg HashInput.msg (h _ hin _ hin' rfl heq)

/-- **The first link commits to the session context and to the identity.** -/
theorem firstLink (h : NoCollision P inputs) {ctx ctx' k k' : Bytes}
    (hin : ofIntra P ctx k ⊆ inputs) (hin' : ofIntra P ctx' k' ⊆ inputs)
    (heq : Binder.firstLink P ctx k = Binder.firstLink P ctx' k') : ctx = ctx' ∧ k = k' := by
  have hfirst : ofFirst P ctx k = ofFirst P ctx' k' :=
    h _ (hin (by simp [ofIntra])) _ (hin' (by simp [ofIntra])) rfl heq
  have hbase : base P ctx = base P ctx' := congrArg HashInput.key hfirst
  have hhash : P.sha384 k = P.sha384 k' := info_inj (congrArg HashInput.msg hfirst)
  have hctx : ofBase ctx = ofBase ctx' :=
    h _ (hin (by simp [ofIntra])) _ (hin' (by simp [ofIntra])) rfl hbase
  have hkey : ofKey k = ofKey k' :=
    h _ (hin (by simp [ofIntra])) _ (hin' (by simp [ofIntra])) rfl hhash
  exact ⟨info_inj (congrArg HashInput.msg hctx), congrArg HashInput.msg hkey⟩

end NoCollision

/-! ## Chains -/

/-- A link is computed from what fits its fields, and its input is in the list. -/
structure Fed (inputs : List HashInput) (exporter prevLink : Bytes) (counter : ℕ) : Prop where
  length : prevLink.length = 32
  short : counter < 2 ^ 64
  mem : ofNext exporter prevLink counter ∈ inputs

theorem Fed.mono {inputs more : List HashInput} (hsub : inputs ⊆ more) {exporter prevLink : Bytes}
    {counter : ℕ} (h : Fed inputs exporter prevLink counter) :
    Fed more exporter prevLink counter :=
  ⟨h.length, h.short, hsub h.mem⟩

/-- **A later link commits to the exporter, to the link before and to the counter.** -/
theorem Fed.inj {P : Primitives} {inputs : List HashInput} (hfree : NoCollision P inputs)
    {exporter l exporter' l' : Bytes} {n n' : ℕ} (h : Fed inputs exporter l n)
    (h' : Fed inputs exporter' l' n')
    (heq : nextLink P exporter l n = nextLink P exporter' l' n') :
    exporter = exporter' ∧ l = l' ∧ n = n' := by
  have hinput : ofNext exporter l n = ofNext exporter' l' n' := hfree _ h.mem _ h'.mem rfl heq
  have hctx : l ++ (Bytes.toLittle 8 n).reverse = l' ++ (Bytes.toLittle 8 n').reverse :=
    NoCollision.info_inj (congrArg HashInput.msg hinput)
  obtain ⟨hprev, hcounter⟩ := List.append_inj hctx (by rw [h.length, h'.length])
  have hshort := h.short
  have hshort' := h'.short
  refine ⟨congrArg HashInput.key hinput, hprev, ?_⟩
  exact Bytes.toLittle_injective (by omega) (by omega) (List.reverse_injective hcounter)

/-- The last link of the chain of an identity that begins in a session context. -/
def lastLink (P : Primitives) (ctx k : Bytes) (exporters : List Bytes) : Bytes :=
  HashChain.value (nextLink P) (firstLink P ctx k) exporters

@[simp] theorem length_lastLink (P : Primitives) (ctx k : Bytes) (exporters : List Bytes) :
    (lastLink P ctx k exporters).length = 32 := by
  induction exporters using List.reverseRecOn with
  | nil => simp [lastLink]
  | append_singleton exporters e => simp [lastLink]

/-- **A chain**: its links with the exporters they were derived with, where all inputs are
in a list. -/
structure ChainFrom (P : Primitives) (inputs : List HashInput) (ctx k : Bytes)
    (exporters links : List Bytes) : Prop where
  links_eq : links = HashChain.values (nextLink P) (firstLink P ctx k) exporters
  first : ofIntra P ctx k ⊆ inputs
  fed : HashChain.Within (nextLink P) (Fed inputs) (firstLink P ctx k) exporters

namespace ChainFrom

variable {P : Primitives} {inputs : List HashInput} {ctx k : Bytes} {exporters links : List Bytes}

theorem nil (h : ofIntra P ctx k ⊆ inputs) : ChainFrom P inputs ctx k [] [] :=
  ⟨rfl, h, HashChain.within_nil _ _⟩

theorem mono {more : List HashInput} (h : ChainFrom P inputs ctx k exporters links)
    (hsub : inputs ⊆ more) : ChainFrom P more ctx k exporters links :=
  ⟨h.links_eq, fun _ hx => hsub (h.first hx), h.fed.mono fun _ _ _ hfed => hfed.mono hsub⟩

/-- One link more. -/
theorem concat (h : ChainFrom P inputs ctx k exporters links) {exporter : Bytes}
    (hshort : exporters.length < 2 ^ 64)
    (hmem : ofNext exporter (lastLink P ctx k exporters) exporters.length ∈ inputs) :
    ChainFrom P inputs ctx k (exporters ++ [exporter])
      (links ++ [nextLink P exporter (lastLink P ctx k exporters) exporters.length]) where
  links_eq := by
    rw [HashChain.values_concat, HashChain.value_concat, ← h.links_eq]
    rfl
  first := h.first
  fed := HashChain.within_concat.mpr ⟨h.fed, length_lastLink P ctx k exporters, hshort, hmem⟩

/-- The last of the links. -/
theorem last {exporter link : Bytes}
    (h : ChainFrom P inputs ctx k (exporters ++ [exporter]) (links ++ [link])) :
    link = lastLink P ctx k (exporters ++ [exporter]) := by
  have hlinks := h.links_eq
  rw [HashChain.values_concat] at hlinks
  exact (List.cons.inj (List.append_inj' hlinks rfl).2).1

/-- **The last link determines the chain**: the identity, the session context, the
exporters and all links before. -/
theorem eq_of_last (hfree : NoCollision P inputs) {ctx' k' : Bytes} {exporters' links' : List Bytes}
    (h : ChainFrom P inputs ctx k exporters links)
    (h' : ChainFrom P inputs ctx' k' exporters' links') (hne : exporters ≠ [])
    (hne' : exporters' ≠ []) (heq : lastLink P ctx k exporters = lastLink P ctx' k' exporters') :
    ctx = ctx' ∧ k = k' ∧ exporters = exporters' ∧ links = links' := by
  obtain ⟨hexporters, hfirst⟩ := HashChain.eq_of_value_eq
    (fun _ _ _ _ _ _ hfed hfed' => Fed.inj hfree hfed hfed') hne hne' h.fed h'.fed heq
  obtain ⟨hctx, hk⟩ := hfree.firstLink h.first h'.first hfirst
  subst hctx hk hexporters
  exact ⟨rfl, rfl, rfl, h.links_eq.trans h'.links_eq.symm⟩

end ChainFrom

/-! ## Report data -/

/-- What `reportDataFor` hashes. -/
def reportText (link : Bytes) (head : Option Bytes) : Bytes :=
  match head with
  | none => ascii "HATLS-continuity-v0" ++ link
  | some head => ascii "HATLS-continuity-v1" ++ link ++ head

theorem reportDataFor_eq (P : Primitives) (link : Bytes) (head : Option Bytes) :
    reportDataFor P link head = P.sha512 (reportText link head) := by
  cases head <;> rfl

theorem length_reportText_le {link : Bytes} {head : Option Bytes} (hlink : link.length = 32)
    (hhead : ∀ h, head = some h → h.length = 32) : (reportText link head).length ≤ 83 := by
  cases head with
  | none => simp [reportText, ascii, hlink]
  | some h => simp [reportText, ascii, hlink, hhead h rfl]

/-- **The text determines the link and the head**, and whether there is one. -/
theorem reportText_inj {link link' : Bytes} {head head' : Option Bytes} (hlink : link.length = 32)
    (hlink' : link'.length = 32) (h : reportText link head = reportText link' head') :
    link = link' ∧ head = head' := by
  have htags : (ascii "HATLS-continuity-v0").length = (ascii "HATLS-continuity-v1").length := by
    decide
  have hdiffer : ascii "HATLS-continuity-v0" ≠ ascii "HATLS-continuity-v1" := by decide
  have hlengths : link.length = link'.length := hlink.trans hlink'.symm
  cases head with
  | none =>
      cases head' with
      | none => exact ⟨List.append_cancel_left h, rfl⟩
      | some b =>
          simp only [reportText, List.append_assoc] at h
          exact absurd (List.append_inj h htags).1 hdiffer
  | some a =>
      cases head' with
      | none =>
          simp only [reportText, List.append_assoc] at h
          exact absurd (List.append_inj h htags.symm).1 hdiffer.symm
      | some b =>
          simp only [reportText, List.append_assoc] at h
          obtain ⟨hl, hh⟩ := List.append_inj (List.append_cancel_left h) hlengths
          exact ⟨hl, congrArg some hh⟩

end Hatls
