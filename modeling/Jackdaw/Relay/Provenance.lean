import Jackdaw.Relay.Certificates
import Jackdaw.Relay.Isolation
import Jackdaw.Relay.Issuance

/-!
# Relay — where a certificate comes from

A stored certificate has a history, over several tasks, and all of it is in the log: an answer of
`le.order_cert` to the task that stored it, the finalize request that created this task and won its
claim, the CSR in that request, the signature on it, and the validation of the domain before it.

* `Submitted`, `Commissioned`, `Obtained`: the stages of that history, the last one first.
* `certificate_provenance`: every certificate in the database has it, its expiry and serial are
  those of the chain, and every answered download of it gives the chain to the owner of the order.
* `certificates_le_issuances`: an order has at most as many certificates as issuing tasks were
  created for it.

This holds in every run: crashes, restarts and failing statements lose certificates, and never mix
them up.
-/

namespace Jackdaw

open Support Support.Interleave

/-! ### The stages -/

/-- Task `i` handed in the CSR for order `id`, which was `a`'s, ready, and for `domain`. -/
def Submitted (l : List Entry) (i : Nat) (a id domain : String) (csrDer : List UInt8) : Prop :=
  ∃ g ∈ l, g.tid = i ∧ ∃ csr r, g.pc = .finalize a id (.get csr) ∧ b64urlDecode csr = some csrDer ∧
    g.pre.orders.get id = some r ∧ r.accountId = a ∧ r.status = .ready ∧
    r.identifiers.head?.map Identifier.value = some domain

/-- Task `i` was created by a finalize request of account `a`, for the CSR it handed in, and with
the domain validated before. -/
def Commissioned (o : Oracle) (cfg : Settings) (l : List Entry) (i : Nat) (a id domain : String)
    (csrDer : List UInt8) : Prop :=
  ∃ l₂ w l₁, l = l₂ ++ w :: l₁ ∧ w.child = i ∧
    w.seg.spawn = some (.processFinalize id domain csrDer) ∧
    Submitted l₁ w.tid a id domain csrDer ∧ SignedAs o cfg l₁ w.tid a ∧ Validated o id domain l₁

/-- `le.order_cert` returned the chain to task `i`, which was created for it. -/
def Obtained (o : Oracle) (cfg : Settings) (l : List Entry) (i : Nat) (id domain : String)
    (csrDer : List UInt8) (chain : String) (expiresAt : Int) : Prop :=
  ∃ l₂ x l₁ a, l = l₂ ++ x :: l₁ ∧ x.tid = i ∧ x.pc = .processFinalize id domain csrDer .issue ∧
    x.seg.next = .goto (.processFinalize id domain csrDer (.get chain expiresAt)) ∧
    expiresAt = certExpiryFromPem o chain x.now ∧ Commissioned o cfg l₁ i a id domain csrDer

theorem Submitted.append {l : List Entry} {i : Nat} {a id domain : String} {csrDer : List UInt8}
    (h : Submitted l i a id domain csrDer) (l' : List Entry) :
    Submitted (l' ++ l) i a id domain csrDer := by
  obtain ⟨g, hg, h⟩ := h
  exact ⟨g, List.mem_append_right l' hg, h⟩

theorem Commissioned.append {o : Oracle} {cfg : Settings} {l : List Entry} {i : Nat}
    {a id domain : String} {csrDer : List UInt8} (h : Commissioned o cfg l i a id domain csrDer)
    (l' : List Entry) : Commissioned o cfg (l' ++ l) i a id domain csrDer := by
  obtain ⟨l₂, w, l₁, rfl, h⟩ := h
  exact ⟨l' ++ l₂, w, l₁, (List.append_assoc ..).symm, h⟩

theorem Obtained.append {o : Oracle} {cfg : Settings} {l : List Entry} {i : Nat}
    {id domain chain : String} {csrDer : List UInt8} {expiresAt : Int}
    (h : Obtained o cfg l i id domain csrDer chain expiresAt) (l' : List Entry) :
    Obtained o cfg (l' ++ l) i id domain csrDer chain expiresAt := by
  obtain ⟨l₂, x, l₁, a, rfl, h⟩ := h
  exact ⟨l' ++ l₂, x, l₁, a, (List.append_assoc ..).symm, h⟩

/-- What the certificate is: the answer to an issuing task of its order, with the expiry and the
serial read off it. -/
def Sourced (o : Oracle) (cfg : Settings) (l : List Entry) (i : Nat) (cert : Certificate) : Prop :=
  (∃ domain csrDer, Obtained o cfg l i cert.orderId domain csrDer cert.pemChain cert.expiresAt) ∧
    cert.serial = leafSerialHex o cert.pemChain

theorem Sourced.append {o : Oracle} {cfg : Settings} {l : List Entry} {i : Nat}
    {cert : Certificate} (h : Sourced o cfg l i cert) (l' : List Entry) :
    Sourced o cfg (l' ++ l) i cert := by
  obtain ⟨⟨domain, csrDer, hob⟩, hserial⟩ := h
  exact ⟨⟨domain, csrDer, hob.append l'⟩, hserial⟩

/-! ### What a task can show -/

/-- What task `i` can show for the CSR and the certificate it holds; what it commits last is about
the order alone. -/
def Pc.Shows (o : Oracle) (cfg : Settings) (i : Nat) (l : List Entry) : Pc → Prop
  | .finalize a id (.update _ csrDer domain) => Submitted l i a id domain csrDer
  | .finalize a id (.commit _ csrDer domain _) => Submitted l i a id domain csrDer
  | .processFinalize id domain csrDer .getOrder => ∃ a, Commissioned o cfg l i a id domain csrDer
  | .processFinalize id domain csrDer .issue => ∃ a, Commissioned o cfg l i a id domain csrDer
  | .processFinalize id domain csrDer (.get chain expiresAt) =>
      Obtained o cfg l i id domain csrDer chain expiresAt
  | .processFinalize _ _ _ (.store _ _ cert) => Sourced o cfg l i cert
  | .processFinalize id _ _ (.commit flush) => ∀ d ∈ flush, ∃ p, d = .updateOrder id p
  | _ => True

theorem Pc.Shows.append {o : Oracle} {cfg : Settings} {i : Nat} {l : List Entry} {pc : Pc}
    (h : pc.Shows o cfg i l) (l' : List Entry) : pc.Shows o cfg i (l' ++ l) := by
  cases pc with
  | finalize a id p =>
      cases p with
      | update order csrDer domain => exact Submitted.append h l'
      | commit order csrDer domain rowcount => exact Submitted.append h l'
      | get _ | status | authzs _ => trivial
  | processFinalize id domain csrDer p =>
      cases p with
      | getOrder | issue =>
          obtain ⟨a, h⟩ := h
          exact ⟨a, h.append l'⟩
      | get chain expiresAt => exact Obtained.append h l'
      | store order k cert => exact Sourced.append h l'
      | commit flush => exact h
      | failGet _ => trivial
  | _ => trivial

section

variable {o : Oracle} {cfg : Settings} {P : Relay → Relay → Prop} {c : Relay} {i : Nat}
  {t u : Task} {seg : Seg Pc} {out : Outcome Shared Task}

/-- A handler that starts has nothing to show. -/
theorem Pc.isStart_shows {p : Pc} (h : p.isStart = true) {l : List Entry} :
    p.Shows o cfg i l := by
  unfold Pc.isStart at h
  split at h <;> trivial

theorem finalizeChecks_csr {order : Order} {csr : String} {csrDer : List UInt8} {domain : String}
    (h : finalizeChecks order csr = .ok (csrDer, domain)) : b64urlDecode csr = some csrDer := by
  unfold finalizeChecks at h
  split at h
  · cases h
  · obtain ⟨der, hder, h⟩ := ok_of_bind h
    obtain ⟨ident, -, h⟩ := ok_of_bind h
    cases h
    exact orElse_eq_ok.mp hder

/-- `finalize_order`: the CSR is the one in the request. -/
theorem Turn.shows_finalize (h : Turn o cfg c i t seg out) (hu : out.self = some u)
    {a id : String} {p : FinalizePc} (hpc : t.pc = .finalize a id p)
    (hk : t.pc.Shows o cfg i c.shared.log) : u.pc.Shows o cfg i out.shared.log := by
  obtain ⟨ch, hseg⟩ := h.goes_on hu
  have hn := (h.self hu).1
  have hlog : out.shared.log = [h.entry] ++ c.shared.log := h.log
  rw [hpc] at hseg hk
  have hseg := Option.some.inj hseg
  rw [hlog]
  cases p with
  | get csr =>
      have hr : seg.Reads fun q => ∃ order csrDer domain,
          q = .finalize a id (.update order csrDer domain) ∧
          requireOrderOwner a (c.shared.db.orders.get id) = .ok order ∧
          finalizeChecks order csr = .ok (csrDer, domain) :=
        hseg ▸ .map _ (.attempt fun order ho => .attempt fun (csrDer, domain) hch =>
          .goto ⟨order, csrDer, domain, rfl, ho, hch⟩)
      obtain ⟨order, csrDer, domain, hq, ho, hch⟩ := hr.of_goto hn
      obtain ⟨horder, howner⟩ := requireOrderOwner_ok ho
      obtain ⟨hready, hdomain⟩ := finalizeChecks_ok hch
      rw [hq]
      exact ⟨h.entry, List.mem_cons_self, rfl, csr, order, hpc, finalizeChecks_csr hch, horder,
        howner, hready, hdomain⟩
  | update order csrDer domain =>
      subst hseg
      rw [← Next.goto.inj hn]
      exact Submitted.append hk _
  | commit order csrDer domain rowcount =>
      simp only [finalizeSeg] at hseg
      split at hseg
      all_goals
        subst hseg
        rw [← Next.goto.inj hn]
        trivial
  | status => exact absurd hn (hseg ▸ ((Seg.fail_quiet _).map _).next _)
  | authzs order => exact absurd hn (hseg ▸ ((Seg.respond_quiet _).map _).next _)

/-- `process_finalize`: what it stores is what it was answered. -/
theorem Turn.shows_processFinalize (h : Turn o cfg c i t seg out) (hu : out.self = some u)
    {id domain : String} {csrDer : List UInt8} {p : ProcessFinalizePc}
    (hpc : t.pc = .processFinalize id domain csrDer p) (hk : t.pc.Shows o cfg i c.shared.log) :
    u.pc.Shows o cfg i out.shared.log := by
  obtain ⟨ch, hseg⟩ := h.goes_on hu
  have hn := (h.self hu).1
  have hlog : out.shared.log = [h.entry] ++ c.shared.log := h.log
  rw [hpc] at hseg hk
  obtain ⟨seg', h', rfl⟩ := Option.map_eq_some_iff.mp hseg
  rw [hlog]
  cases p with
  | getOrder =>
      simp only [processFinalizeSeg] at h'
      split at h' <;> cases Option.some.inj h'
      · cases hn
      · rw [← Next.goto.inj hn]
        obtain ⟨a, hcom⟩ := hk
        exact ⟨a, hcom.append _⟩
  | issue =>
      simp only [processFinalizeSeg] at h'
      split at h' <;> cases Option.some.inj h'
      · rw [← Next.goto.inj hn]
        trivial
      · -- the entry of this turn is the answer
        obtain ⟨a, hcom⟩ := hk
        rw [← Next.goto.inj hn]
        exact ⟨[], h.entry, c.shared.log, a, rfl, rfl, hpc, rfl, rfl, hcom⟩
  | failGet problem =>
      simp only [processFinalizeSeg] at h'
      split at h' <;> cases Option.some.inj h'
      · cases hn
      · rw [← Next.goto.inj hn]
        exact fun d hd => ⟨_, Order.eq_of_mem_flush hd⟩
  | get chain expiresAt =>
      simp only [processFinalizeSeg] at h'
      split at h'
      · cases Option.some.inj h'
        cases hn
      · split at h'
        · cases Option.some.inj h'
          rw [← Next.goto.inj hn]
          exact ⟨⟨domain, csrDer, Obtained.append hk _⟩, rfl⟩
        · cases h'
  | store order k cert =>
      cases Option.some.inj h'
      rw [← Next.goto.inj hn]
      exact fun d hd => ⟨_, Order.eq_of_mem_flush hd⟩
  | commit flush =>
      cases Option.some.inj h'
      cases hn

/-- **What a task can show, step by step.** -/
theorem Turn.shows (h : Turn o cfg c i t seg out) (hu : out.self = some u)
    (hk : t.pc.Shows o cfg i c.shared.log) : u.pc.Shows o cfg i out.shared.log := by
  rcases h.stays_or_starts hu with e | hs | ⟨a, p, e⟩
  · cases hq : u.pc with
    | finalize a id q =>
        rw [hq] at e
        obtain ⟨p, hpc⟩ := Pc.eq_finalize e.symm
        exact hq ▸ h.shows_finalize hu hpc hk
    | processFinalize id domain csrDer q =>
        rw [hq] at e
        obtain ⟨p, hpc⟩ := Pc.eq_processFinalize e.symm
        exact hq ▸ h.shows_processFinalize hu hpc hk
    | _ => trivial
  · exact Pc.isStart_shows hs
  · rw [e]
    trivial

/-- **A task is commissioned** by the request that creates it. -/
theorem Turn.commissions (hr : Reach (relay o cfg) P .init c) (h : Turn o cfg c i t seg out)
    (hk : t.pc.Shows o cfg i c.shared.log) {id domain : String} {csrDer : List UInt8}
    (hb : seg.spawn = some (.processFinalize id domain csrDer)) :
    ∃ a, Commissioned o cfg out.shared.log c.next a id domain csrDer := by
  have hvalid : Validated o id domain c.shared.log :=
    h.justified (Jackdaw.knows hr h.task) ((validationSafety o cfg P).reach hr).1.1 hb
  have hsp := h.proper.spawn _ hb
  cases hpc : t.pc with
  | finalize a id' p =>
      have hsigned : SignedAs o cfg c.shared.log i a :=
        (entitled hr h.task).signed a (by rw [hpc]; rfl)
      rw [hpc] at hsp hk
      cases p with
      | commit order csrDer' domain' rowcount =>
          obtain ⟨-, e⟩ := hsp
          cases e
          exact ⟨a, [], h.entry, c.shared.log, h.log, rfl, hb, hk, hsigned, hvalid⟩
      | get _ | update _ _ _ | status | authzs _ => exact hsp.elim
  | challenge a z p =>
      rw [hpc] at hsp
      cases p with
      | owner authz => cases hsp.2
      | commit authz flush => cases hsp
      | get | flush _ => exact hsp.elim
  | _ =>
      rw [hpc] at hsp
      exact hsp.elim

/-! ### The rows -/

/-- The task stores the certificate under `k`. -/
def Pc.Stores (k : String) (cert : Certificate) : Pc → Prop
  | .processFinalize _ _ _ (.store _ k' cert') => k' = k ∧ cert' = cert
  | _ => False

theorem Pc.Stores.unique {k k' : String} {cert cert' : Certificate} {pc : Pc}
    (h : pc.Stores k cert) (h' : pc.Stores k' cert') : k = k' ∧ cert = cert' := by
  unfold Pc.Stores at h h'
  split at h
  · obtain ⟨rfl, rfl⟩ := h
    exact h'
  · exact h.elim

/-- **Where certificates come from**: one that appears is the one its task held. -/
theorem Turn.certificate_from (h : Turn o cfg c i t seg out) (hk : t.pc.Shows o cfg i c.shared.log)
    {k : String} {cert : Certificate} (hc : out.shared.db.certificates.get k = some cert) :
    c.shared.db.certificates.get k = some cert ∨ t.pc.Stores k cert := by
  have hkeep : c.shared.db.Same out.shared.db .certificates →
      c.shared.db.certificates.get k = some cert ∨ t.pc.Stores k cert := by
    intro hs
    have hs : out.shared.db.certificates = c.shared.db.certificates := hs
    exact .inl (hs ▸ hc)
  by_cases hpc : ∃ id domain csrDer p, t.pc = .processFinalize id domain csrDer p
  · obtain ⟨id, domain, csrDer, p, hpc⟩ := hpc
    rcases h.committed with e | ⟨hcom, e⟩
    · exact .inl (e ▸ hc)
    · obtain ⟨ch, hseg⟩ := h.commits hcom
      rw [h.tx_nil (by rw [hpc]; rfl)] at e
      rw [hpc] at hseg hk
      obtain ⟨seg', h', rfl⟩ := Option.map_eq_some_iff.mp hseg
      rcases processFinalizeSeg_commit h' hcom with ⟨order, k', cert', rfl⟩ | ⟨flush, rfl⟩
      · cases Option.some.inj h'
        obtain ⟨db₁, h₁, e⟩ := Option.bind_eq_some_iff.mp e
        obtain ⟨tab, ht, rfl⟩ := Option.map_eq_some_iff.mp h₁
        rw [← Option.some.inj e] at hc
        rcases get_of_get_insert? ht hc with hold | ⟨rfl, rfl⟩
        · exact .inl hold
        · refine .inr ?_
          rw [hpc]
          exact ⟨rfl, rfl⟩
      · -- the second commit is of the order
        cases Option.some.inj h'
        refine hkeep (Dml.execAll_same e fun d hd => ?_)
        obtain ⟨p, rfl⟩ := hk d hd
        exact nofun
  · refine hkeep (h.same fun d hmay => ?_)
    cases hq : t.pc with
    | processFinalize id domain csrDer p => exact absurd ⟨id, domain, csrDer, p, hq⟩ hpc
    | _ =>
        rw [hq] at hmay
        cases d <;> first | exact hmay.elim | exact nofun

def provenanceSafety (o : Oracle) (cfg : Settings) (P : Relay → Relay → Prop) :
    Safety o cfg P where
  Inv _ s := ∀ k cert, s.db.certificates.get k = some cert → ∃ i, Sourced o cfg s.log i cert
  Ok i s t := t.pc.Shows o cfg i s.log
  start _ _ h := by cases h
  run {c i t seg out} hr h _ hI hk := by
    refine ⟨fun k cert hc => ?_, fun u hu => h.shows hu hk, fun b hb => ?_⟩
    · have hlog : out.shared.log = [h.entry] ++ c.shared.log := h.log
      rw [hlog]
      rcases h.certificate_from hk hc with hold | hstore
      · obtain ⟨j, hs⟩ := hI k cert hold
        exact ⟨j, hs.append _⟩
      · refine ⟨i, Sourced.append ?_ _⟩
        unfold Pc.Stores at hstore
        split at hstore
        · rename_i hpc
          obtain ⟨-, rfl⟩ := hstore
          rw [hpc] at hk
          exact hk
        · exact hstore.elim
    · cases b with
      | runChallenge z id => trivial
      | processFinalize id domain csrDer => exact h.commissions hr hk hb
  others _ h _ _ _ _ hne hu := by
    obtain ⟨l, hlog, -⟩ := (h.later hne).log
    rw [hlog]
    exact hu.append l
  request {c t} _ _ _ hpc := by
    rcases hpc with ⟨req, e⟩ | ⟨p, e⟩ | ⟨cutoff, e⟩ <;> rw [e] <;> trivial
  fresh hI := hI
  clock _ hI := ⟨hI, fun _ _ h => h⟩
  restart hI := ⟨hI, trivial⟩

/-- **What a download is answered with**: the chain of a row that is there, for the owner of its
order. -/
theorem Turn.downloads (h : Turn o cfg c i t seg out) (ho : t.pc.Owns c.shared.db) {b k : String}
    {p : DownloadCertPc} (hpc : t.pc = .downloadCert b k p) {r : Response}
    (hr : seg.next = .respond r) (hst : r.status = 200) :
    ∃ cert, c.shared.db.certificates.get k = some cert ∧
      r = ⟨200, .pem cert.pemChain, none⟩ ∧ c.shared.db.OwnedBy cert.orderId b := by
  have hacc : ¬ seg.Refuses := fun hx => by
    have := hx r hr
    omega
  rcases h.runs with ⟨ch, hseg⟩ | rfl
  · rw [hpc] at hseg ho
    have hseg := Option.some.inj hseg
    subst hseg
    cases p with
    | get =>
        exact absurd (Seg.Refuses.map (.attempt (.orElse (.http (by decide)))
          fun _ _ => .goto _) _) hacc
    | owner cert =>
        obtain ⟨y, hy⟩ := requireParentOwner_of_accepted hacc
        simp only [downloadCertSeg, hy] at hr
        exact ⟨cert, ho, (Next.respond.inj hr).symm, requireParentOwner_owned hy⟩
  · cases hr

/-- **A certificate has its provenance.**  In every run, whenever the database holds a certificate,
`le.order_cert` returned its chain to a task created for its order, by a finalize request that was
signed for the owner `a` of the order and carried the CSR, behind a validation of the one domain of
the order; the stored expiry and serial are those of the chain.  Whatever `download_cert` has
answered for this certificate is that chain, to a request signed for `a`. -/
theorem certificate_provenance (h : Reachable o cfg c) {k : String} {cert : Certificate}
    (hk : c.shared.db.certificates.get k = some cert) :
    ∃ l₃ x l₂ w l₁ a domain csrDer,
      c.shared.log = l₃ ++ x :: (l₂ ++ w :: l₁) ∧
      x.pc = .processFinalize cert.orderId domain csrDer .issue ∧
      x.seg.next =
        .goto (.processFinalize cert.orderId domain csrDer (.get cert.pemChain cert.expiresAt)) ∧
      cert.expiresAt = certExpiryFromPem o cert.pemChain x.now ∧
      cert.serial = leafSerialHex o cert.pemChain ∧
      w.child = x.tid ∧ w.seg.spawn = some (.processFinalize cert.orderId domain csrDer) ∧
      Submitted l₁ w.tid a cert.orderId domain csrDer ∧ SignedAs o cfg l₁ w.tid a ∧
      Validated o cert.orderId domain l₁ ∧
      (∃ r, c.shared.db.orders.get cert.orderId = some r ∧ r.accountId = a ∧
        r.identifiers = [⟨"dns", domain⟩]) ∧
      ∀ e ∈ c.shared.log, ∀ b p r, e.pc = .downloadCert b k p → e.seg.next = .respond r →
        r.status = 200 →
        r = ⟨200, .pem cert.pemChain, none⟩ ∧ b = a ∧ SignedAs o cfg c.shared.log e.tid a := by
  obtain ⟨i, ⟨domain, csrDer, hob⟩, hserial⟩ := ((provenanceSafety o cfg _).reach h).1 k cert hk
  obtain ⟨l₃, x, l, a, hlog, rfl, hx, hnext, hexp, l₂, w, l₁, rfl, hchild, hspawn, hsub, hsigned,
    hvalid⟩ := hob
  have hmem : ∀ {e}, e ∈ l₁ → e ∈ c.shared.log := fun he => by
    rw [hlog]
    simp [he]
  -- the owner is the one who handed in the CSR
  obtain ⟨r, hr, ha⟩ : ∃ r, c.shared.db.orders.get cert.orderId = some r ∧ r.accountId = a := by
    obtain ⟨g, hg, -, csr, r, -, -, hr, ha, -⟩ := hsub
    exact Db.OwnedBy.grows ⟨r, hr, ha⟩ (entry_grows h (hmem hg)).1
  have hident : r.identifiers = [⟨"dns", domain⟩] := by
    obtain ⟨z, token, expected, m, v, l₀, rfl, -, -, g, hg, -, -, ⟨q, hq, ho, hd, -⟩, -⟩ := hvalid
    have hgrows := (entry_grows h (hmem (e := g) (by simp [hg]))).1
    obtain ⟨q', hq', hf⟩ := hgrows.authorizations hq
    obtain ⟨ho', hd', -⟩ := Authorization.fixed_eq hf
    obtain ⟨order, horder, hids⟩ := (linked h).order hq'
    rw [ho'.trans ho, hr] at horder
    cases horder
    rw [hids, hd'.trans hd]
  refine ⟨l₃, x, l₂, w, l₁, a, domain, csrDer, hlog, hx, hnext, hexp, hserial, hchild, hspawn, hsub,
    hsigned, hvalid, ⟨r, hr, ha, hident⟩, fun e he b p rsp hpc hrsp hst => ?_⟩
  obtain ⟨m, m', hm⟩ := List.append_of_mem he
  obtain ⟨c₀, j, t, seg, out, hturn, hr₀, -, rfl⟩ := entry_turn h hm
  obtain ⟨cert', hcert', hbody, hown⟩ := hturn.downloads (entitled hr₀ hturn.task).owns hpc hrsp hst
  have hgrows := (entry_grows h he).1
  rw [hgrows.certificates hcert'] at hk
  cases hk
  obtain ⟨r', hr', rfl⟩ := hown.grows hgrows
  rw [hr] at hr'
  cases hr'
  subst ha
  exact ⟨hbody, rfl, (entry_entitled h he).signed _ (by rw [hpc]; rfl)⟩

/-! ### Counting -/

/-- The task has not stored its certificate, and may still do so. -/
def ProcessFinalizePc.unstored : ProcessFinalizePc → Bool
  | .getOrder | .issue | .get _ _ | .store _ _ _ => true
  | .failGet _ | .commit _ => false

/-- The task may still store a certificate of order `id`. -/
def Task.issuing (id : String) (t : Task) : Bool :=
  match t.pc with
  | .processFinalize id' _ _ p => decide (id' = id) && p.unstored
  | _ => false

/-- The certificates of order `id`. -/
def Db.certificatesOf (db : Db) (id : String) : Nat :=
  db.certificates.count fun _ cert => decide (cert.orderId = id)

theorem Db.certificatesOf_le {db db' : Db} {id : String}
    (h : ∀ k cert, db'.certificates.get k = some cert → cert.orderId = id →
      db.certificates.get k = some cert) : db'.certificatesOf id ≤ db.certificatesOf id := by
  refine Table.count_le fun {k cert} hc hp => ?_
  have hid := of_decide_eq_true hp
  exact ⟨cert, h k cert hc hid, decide_eq_true hid⟩

/-- A task that may still store one came from one that might, and has stored none in between. -/
theorem Turn.issuing_self (h : Turn o cfg c i t seg out) (hu : out.self = some u) {id : String}
    (hi : u.issuing id = true) : t.issuing id = true ∧ ∀ k cert, ¬ t.pc.Stores k cert := by
  obtain ⟨ch, hseg⟩ := h.goes_on hu
  have hn := (h.self hu).1
  rcases h.stays_or_starts hu with e | hs | ⟨a, p, e⟩
  · cases hq : u.pc with
    | processFinalize id' domain csrDer q =>
        rw [hq] at e
        obtain ⟨p, hpc⟩ := Pc.eq_processFinalize e.symm
        simp only [Task.issuing, hq, Bool.and_eq_true, decide_eq_true_eq] at hi
        obtain ⟨rfl, hq'⟩ := hi
        rw [hpc] at hseg
        obtain ⟨seg', h', rfl⟩ := Option.map_eq_some_iff.mp hseg
        simp only [Task.issuing, hpc, decide_true, Bool.true_and]
        cases p with
        | getOrder | issue | get _ _ => exact ⟨rfl, fun _ _ h => h⟩
        | failGet problem =>
            simp only [processFinalizeSeg] at h'
            split at h' <;> cases Option.some.inj h'
            · cases hn
            · rw [← Next.goto.inj hn] at hq
              cases hq
              cases hq'
        | store order k cert =>
            cases Option.some.inj h'
            rw [← Next.goto.inj hn] at hq
            cases hq
            cases hq'
        | commit flush =>
            cases Option.some.inj h'
            cases hn
    | _ =>
        simp only [Task.issuing, hq] at hi
        cases hi
  · unfold Pc.isStart at hs
    simp only [Task.issuing] at hi
    split at hs <;> first | (rename_i e; rw [e] at hi; cases hi) | cases hs
  · simp only [Task.issuing, e] at hi
    cases hi

/-- **A task that stores a certificate has done its work**: what is stored, and what may still be
stored, do not grow together. -/
theorem Turn.certificatesOf (h : Turn o cfg c i t seg out)
    (hk : t.pc.Shows o cfg i c.shared.log) (id : String) :
    out.shared.db.certificatesOf id + (out.self.any (Task.issuing id)).toNat ≤
      c.shared.db.certificatesOf id + (t.issuing id).toNat := by
  by_cases hstore : ∃ k cert, t.pc.Stores k cert ∧ cert.orderId = id
  · obtain ⟨k, cert, hstore, rfl⟩ := hstore
    have hself : out.self.any (Task.issuing cert.orderId) = false := by
      rw [Bool.eq_false_iff]
      intro hany
      obtain ⟨u, hu, hi⟩ := (Option.any_eq_true _ _).mp hany
      exact (h.issuing_self hu hi).2 k cert hstore
    have ht : t.issuing cert.orderId = true := by
      have hpend := h.sane.pending
      unfold Pc.Stores at hstore
      split at hstore
      · rename_i id' domain csrDer order k' cert' hpc
        obtain ⟨rfl, rfl⟩ := hstore
        rw [hpc] at hpend
        have hid : cert'.orderId = id' := hpend _ List.mem_cons_self
        simp only [Task.issuing, hpc, hid, decide_true, Bool.true_and]
        rfl
      · exact hstore.elim
    -- the one new row is under `k`
    have hcount : out.shared.db.certificatesOf cert.orderId ≤
        c.shared.db.certificatesOf cert.orderId + 1 := by
      refine Table.count_le_add_one k fun {k' cert'} hne hc hp => ?_
      rcases h.certificate_from hk hc with hold | hs
      · exact ⟨cert', hold, hp⟩
      · exact absurd (Pc.Stores.unique hs hstore).1 hne
    rw [hself, ht]
    exact hcount
  · have hcount : out.shared.db.certificatesOf id ≤ c.shared.db.certificatesOf id :=
      Db.certificatesOf_le fun k cert hc hid =>
        (h.certificate_from hk hc).resolve_right fun hs => hstore ⟨k, cert, hs, hid⟩
    refine Nat.add_le_add hcount ?_
    cases hany : out.self.any (Task.issuing id) with
    | false => exact Nat.zero_le _
    | true =>
        obtain ⟨u, hu, hi⟩ := (Option.any_eq_true _ _).mp hany
        rw [(h.issuing_self hu hi).1]

/-- A task that is created may store one. -/
theorem Turn.issuing_child (h : Turn o cfg c i t seg out) (id : String) :
    (out.child.any (Task.issuing id)).toNat ≤ if h.entry.issues id then 1 else 0 := by
  cases hany : out.child.any (Task.issuing id) with
  | false => exact Nat.zero_le _
  | true =>
      obtain ⟨u, hu, hi⟩ := (Option.any_eq_true _ _).mp hany
      rw [h.child] at hu
      obtain ⟨b, hb, rfl⟩ := Option.map_eq_some_iff.mp hu
      cases b with
      | runChallenge z id' => cases hi
      | processFinalize id' domain csrDer =>
          obtain ⟨rfl, -⟩ := (Bool.and_eq_true _ _).mp hi |>.imp_left of_decide_eq_true
          rw [if_pos (Entry.issues_iff.mpr ⟨domain, csrDer, hb⟩)]
          exact le_rfl

/-- **No certificate without an issuance.**  In every run, an order has at most as many certificates
as issuing tasks were created for it, and those under way that have stored none yet are not among
the ones that have. -/
theorem certificates_le_issuances (h : Reach (relay o cfg) P .init c) (id : String) :
    c.shared.db.certificatesOf id + c.count (Task.issuing id) ≤ issuances c.shared.log id := by
  induction h with
  | start => exact le_rfl
  | @step c c' a hr hs hp ih =>
      rcases Machine.step_cases hs with ⟨i, b, t, out, -, hi, ho, rfl⟩ | ⟨b, t, -, ht, rfl⟩ |
          ⟨b, s, -, hs', rfl⟩ | ⟨b, s, t, -, hs', rfl⟩
      · obtain ⟨seg, hturn⟩ := turn_of_run hr hi ho
        have hcount := Config.count_after (p := Task.issuing id) out hi (hr.lt_next hi)
        have hcerts := hturn.certificatesOf (((provenanceSafety o cfg P).reach hr).2 i t hi) id
        have hchild := hturn.issuing_child id
        have hlog : issuances out.shared.log id =
            issuances c.shared.log id + if hturn.entry.issues id then 1 else 0 := by
          rw [hturn.log]
          exact issuances_cons ..
        show out.shared.db.certificatesOf id + (c.after i out).count (Task.issuing id) ≤
          issuances out.shared.log id
        omega
      · have harrive := Config.count_arrive (p := Task.issuing id) c t
        have ht : t.issuing id = false := by
          obtain ⟨-, -, hpc⟩ := arrive_cases ht
          rcases hpc with ⟨req, e⟩ | ⟨p, e⟩ | ⟨cutoff, e⟩ <;> rw [Task.issuing, e]
        rw [harrive, ht]
        exact ih
      · obtain ⟨now, rfl⟩ := tick_cases hs'
        exact ih
      · obtain ⟨rfl, rfl⟩ := restart_cases hs'
        rw [Config.count_restart]
        exact (Nat.le_add_right _ _).trans ih

end

/-- The certificate of the finalized order: one issuing task, one certificate. -/
theorem certificates_le_issuances_run :
    ∃ c, Demo.run (fun _ _ => true) Demo.certifiedOrder = some c ∧
      c.shared.db.certificatesOf (Demo.uuid 3) = 1 ∧
      c.shared.db.certificatesOf (Demo.uuid 3) + c.count (Task.issuing (Demo.uuid 3)) ≤
        issuances c.shared.log (Demo.uuid 3) := by
  obtain ⟨c, hc, -, -, hone⟩ := Demo.certifiedOrder_run
  exact ⟨c, hc, hone, certificates_le_issuances
    (P := fun _ _ => True) (Demo.reach (fun _ _ => trivial) hc) (Demo.uuid 3)⟩

theorem certificate_provenance_run :
    ∃ c cert, Demo.run (fun _ _ => true) Demo.certifiedOrder = some c ∧
      c.shared.db.certificates.get (Demo.uuid 5) = some cert ∧ cert.pemChain = "pem" ∧
      ∃ l₁ i a domain csrDer, Submitted l₁ i a cert.orderId domain csrDer ∧
        SignedAs Demo.oracle Demo.settings l₁ i a ∧
        Validated Demo.oracle cert.orderId domain l₁ := by
  obtain ⟨c, hc, -, ⟨cert, hk, hpem⟩, -⟩ := Demo.certifiedOrder_run
  obtain ⟨-, -, -, w, l₁, a, domain, csrDer, -, -, -, -, -, -, -, hsub, hsigned, hvalid, -⟩ :=
    certificate_provenance (Demo.reach (fun _ _ => trivial) hc) hk
  exact ⟨c, cert, hc, hk, hpem, l₁, w.tid, a, domain, csrDer, hsub, hsigned, hvalid⟩

end Jackdaw
