import Jackdaw.Relay.Rows

/-!
# Relay — certificates and their orders

`process_finalize` stores a certificate in one transaction and writes its identifier to the order,
together with the status, in the next.  So an order that names a certificate names one that is
there and that names the order back, and an order that is valid names one (`Db.Certified`).  The
order `process_finalize` writes back was loaded before the certificate was stored, and by then did
not name it, so the identifier is among the columns that are written; no other coroutine writes
that column at all.

* `valid_has_certificate`: an order that is valid has its certificate, in every reached state, and
  its owner can download it from then on.
-/

namespace Jackdaw

open Support Support.Interleave

/-- The certificate is there, and is one of order `id`. -/
def Db.CertOf (db : Db) (k id : String) : Prop :=
  ∃ cert, db.certificates.get k = some cert ∧ cert.orderId = id

theorem Db.CertOf.grows {db db' : Db} {k id : String} (h : db.CertOf k id) (hg : db.Grows db') :
    db'.CertOf k id := by
  obtain ⟨cert, hc, ho⟩ := h
  exact ⟨cert, hg.certificates hc, ho⟩

/-- An order names a certificate of its own, and a valid one names one. -/
structure Db.Certified (db : Db) : Prop where
  link : ∀ {id r k}, db.orders.get id = some r → r.certId = some k → db.CertOf k id
  valid : ∀ {id r}, db.orders.get id = some r → r.status = .valid → r.certId ≠ none

/-- The patch of order `id` names a certificate of its own, and turns the order valid only when it
names one. -/
def OrderPatch.Certifies (p : OrderPatch) (db : Db) (id : String) : Prop :=
  (∀ x, p.certId = some x → ∃ k, x = some k ∧ db.CertOf k id) ∧
    (p.status = some .valid → p.certId ≠ none)

/-- The statement keeps orders certified. -/
def Dml.Certifies (db : Db) : Dml → Prop
  | .insertOrder _ row => row.certId = none ∧ row.status = .pending
  | .updateOrder id p => p.Certifies db id
  | _ => True

/-- What `process_finalize` knows of the certificate it is about to store or to name. -/
def Pc.Certifies (db : Db) : Pc → Prop
  | .processFinalize _ _ _ (.store order _ _) =>
      ∀ k, order.certId = some k → db.certificates.get k ≠ none
  | .processFinalize id _ _ (.commit flush) => ∀ p, .updateOrder id p ∈ flush → p.Certifies db id
  | _ => True

theorem OrderPatch.Certifies.grows {p : OrderPatch} {db db' : Db} {id : String}
    (h : p.Certifies db id) (hg : db.Grows db') : p.Certifies db' id := by
  refine ⟨fun x hx => ?_, h.2⟩
  obtain ⟨k, rfl, hk⟩ := h.1 x hx
  exact ⟨k, rfl, hk.grows hg⟩

theorem Dml.Certifies.grows {d : Dml} {db db' : Db} (h : d.Certifies db) (hg : db.Grows db') :
    d.Certifies db' := by
  cases d with
  | insertOrder id row => exact h
  | updateOrder id p => exact OrderPatch.Certifies.grows h hg
  | _ => trivial

theorem Pc.Certifies.grows {pc : Pc} {db db' : Db} (h : pc.Certifies db) (hg : db.Grows db') :
    pc.Certifies db' := by
  cases pc with
  | processFinalize id domain csrDer p =>
      cases p with
      | store order k cert =>
          intro k' hk'
          obtain ⟨cert', hc⟩ := Option.ne_none_iff_exists'.mp (h k' hk')
          rw [hg.certificates hc]
          exact Option.some_ne_none cert'
      | commit flush => exact fun p hp => (h p hp).grows hg
      | _ => trivial
  | _ => trivial

/-- An order that only its status and error were changed of. -/
theorem Db.Certified.update {db : Db} (h : db.Certified) {p : String → Order → Bool}
    {f : Order → Order} (hf : ∀ r, (f r).certId = r.certId ∧ (f r).status ≠ .valid) :
    Db.Certified { db with orders := db.orders.updateWhere p f } := by
  constructor
  · intro id r' k hr' hk
    simp only [Table.get_updateWhere, Option.map_eq_some_iff] at hr'
    obtain ⟨r, hr, rfl⟩ := hr'
    refine h.link hr (hk ▸ ?_)
    split
    · rw [(hf r).1]
    · rfl
  · intro id r' hr' hst
    simp only [Table.get_updateWhere, Option.map_eq_some_iff] at hr'
    obtain ⟨r, hr, rfl⟩ := hr'
    split at hst
    · exact absurd hst (hf r).2
    · rename_i hp
      rw [if_neg hp]
      exact h.valid hr hst

/-- The `UPDATE` of an order by a patch. -/
theorem Db.Certified.patch {db : Db} (h : db.Certified) {id : String} {p : OrderPatch}
    (hp : p.Certifies db id) :
    Db.Certified { db with orders := db.orders.update id p.apply } := by
  constructor
  · intro id' r' k hr' hk
    simp only [Table.get_update] at hr'
    split at hr'
    · rename_i e
      subst e
      obtain ⟨r, hr, rfl⟩ := Option.map_eq_some_iff.mp hr'
      cases hc : p.certId with
      | none =>
          rw [OrderPatch.apply, hc] at hk
          exact h.link hr hk
      | some x =>
          rw [OrderPatch.apply, hc] at hk
          obtain ⟨k', rfl, hk'⟩ := hp.1 x hc
          cases hk
          exact hk'
    · exact h.link hr' hk
  · intro id' r' hr' hst
    simp only [Table.get_update] at hr'
    split at hr'
    · rename_i e
      subst e
      obtain ⟨r, hr, rfl⟩ := Option.map_eq_some_iff.mp hr'
      show p.certId.getD r.certId ≠ none
      cases hc : p.certId with
      | none =>
          cases hs : p.status with
          | none =>
              rw [OrderPatch.apply, hs] at hst
              exact h.valid hr hst
          | some st =>
              rw [OrderPatch.apply, hs] at hst
              exact absurd hc (hp.2 (by rw [hs, ← show st = .valid from hst]))
      | some x =>
          obtain ⟨k, rfl, -⟩ := hp.1 x hc
          exact Option.some_ne_none k
    · exact h.valid hr' hst

/-- **Every statement that certifies keeps orders certified.** -/
theorem Dml.exec_certified {d : Dml} {db db' : Db} (h : d.exec db = some db') (hd : d.Certifies db)
    (hdb : db.Certified) : db'.Certified := by
  cases d with
  | insertOrder id row =>
      obtain ⟨t, ht, rfl⟩ := Option.map_eq_some_iff.mp h
      constructor
      · intro id' r k hr hk
        rcases get_of_get_insert? ht hr with hr | ⟨-, rfl⟩
        · exact hdb.link hr hk
        · rw [hd.1] at hk
          cases hk
      · intro id' r hr hst
        rcases get_of_get_insert? ht hr with hr | ⟨-, rfl⟩
        · exact hdb.valid hr hst
        · rw [hd.2] at hst
          cases hst
  | updateOrder id p =>
      cases Option.some.inj h
      exact hdb.patch hd
  | claimOrder id =>
      cases Option.some.inj h
      exact hdb.update fun r => ⟨rfl, nofun⟩
  | resetOrders =>
      cases Option.some.inj h
      exact hdb.update fun r => ⟨rfl, nofun⟩
  | insertCert k row =>
      obtain ⟨t, ht, rfl⟩ := Option.map_eq_some_iff.mp h
      refine ⟨fun hr hk => ?_, hdb.valid⟩
      obtain ⟨cert, hc, ho⟩ := hdb.link hr hk
      exact ⟨cert, get_insert?_of_get ht hc, ho⟩
  | insertAccount _ _ | insertAuthz _ _ | insertNonce _ _ =>
      obtain ⟨t, ht, rfl⟩ := Option.map_eq_some_iff.mp h
      exact ⟨hdb.link, hdb.valid⟩
  | setAccountKey _ _ | updateAuthz _ _ | resetAuthzs | consumeNonce _ _ | pruneNonces _ =>
      cases Option.some.inj h
      exact ⟨hdb.link, hdb.valid⟩

theorem Dml.execAll_certified {ds : List Dml} {db db' : Db} (h : Dml.execAll ds db = some db')
    (hd : ∀ d ∈ ds, d.Certifies db) (hdb : db.Certified) : db'.Certified := by
  refine (Dml.execAll_induction
    (R := fun a b => db.Grows a → a.Certified → db.Grows b ∧ b.Certified)
    (fun _ hg ha => ⟨hg, ha⟩) ?_ ?_ h (.refl db) hdb).2
  · intro a b c h₁ h₂ hg ha
    obtain ⟨hg', hb⟩ := h₁ hg ha
    exact h₂ hg' hb
  · intro d hmem a b hab hg ha
    exact ⟨hg.trans (Dml.exec_grows hab), Dml.exec_certified hab ((hd d hmem).grows hg) ha⟩

section

variable {o : Oracle} {cfg : Settings} {c : Relay} {i : Nat} {t u : Task} {seg : Seg Pc}
  {out : Outcome Shared Task}

/-! ### One step -/

/-- `process_finalize` commits where it stores the certificate and where it ends. -/
theorem processFinalizeSeg_commit {id : String} {csrDer : List UInt8} {db : Db} {now : Int}
    {ch : Choice} {p : ProcessFinalizePc} {seg : Seg ProcessFinalizePc}
    (h : processFinalizeSeg o id csrDer db now p ch = some seg) (hc : seg.commit = true) :
    (∃ order k cert, p = .store order k cert) ∨ ∃ flush, p = .commit flush := by
  cases p with
  | store order k cert => exact .inl ⟨order, k, cert, rfl⟩
  | commit flush => exact .inr ⟨flush, rfl⟩
  | getOrder | issue | failGet _ =>
      simp only [processFinalizeSeg] at h
      split at h <;> cases Option.some.inj h <;> cases hc
  | get pemChain expiresAt =>
      simp only [processFinalizeSeg] at h
      split at h
      · cases Option.some.inj h
        cases hc
      · split at h
        · cases Option.some.inj h
          cases hc
        · cases h

/-- The statements a turn commits certify. -/
theorem Turn.statements_certify (h : Turn o cfg c i t seg out) (hc : seg.commit = true)
    (hk : t.pc.Certifies c.shared.db) : ∀ d ∈ t.tx ++ seg.write, d.Certifies c.shared.db := by
  intro d hd
  have hmay := h.may_statement hd
  cases d with
  | insertOrder id row =>
      cases hpc : t.pc <;> rw [hpc] at hmay <;> first | exact hmay.elim | exact ⟨hmay.2.2.1, hmay.2.1⟩
  | updateOrder id p =>
      cases hpc : t.pc with
      | challenge a z q =>
          rw [hpc] at hmay
          refine ⟨fun x hx => ?_, fun hst => ?_⟩
          · rw [hmay.2] at hx
            cases hx
          · cases hmay.1 _ hst
      | runChallenge z id' q =>
          rw [hpc] at hmay
          refine ⟨fun x hx => ?_, fun hst => ?_⟩
          · rw [hmay.2.2] at hx
            cases hx
          · rcases hmay.2.1 _ hst with e | e <;> cases e
      | processFinalize id' domain csrDer q =>
          rw [hpc] at hmay hk
          obtain ⟨ch, hseg⟩ := h.commits hc
          rw [hpc] at hseg
          obtain ⟨seg', h', rfl⟩ := Option.map_eq_some_iff.mp hseg
          rw [h.tx_nil (by rw [hpc]; rfl)] at hd
          obtain ⟨rfl, -⟩ := hmay
          rcases processFinalizeSeg_commit h' hc with ⟨order, k, cert, rfl⟩ | ⟨flush, rfl⟩
          · cases Option.some.inj h'
            cases List.mem_singleton.mp hd
          · cases Option.some.inj h'
            exact hk p hd
      | _ =>
          rw [hpc] at hmay
          exact hmay.elim
  | _ => trivial

theorem Turn.certified (h : Turn o cfg c i t seg out) (hk : t.pc.Certifies c.shared.db)
    (hI : c.shared.db.Certified) : out.shared.db.Certified := by
  rcases h.committed with e | ⟨hc, e⟩
  · rw [e]
    exact hI
  · exact Dml.execAll_certified e (h.statements_certify hc hk) hI

/-- What `process_finalize` knows after a turn. -/
theorem Turn.certifies_processFinalize (h : Turn o cfg c i t seg out) (hu : out.self = some u)
    {id domain : String} {csrDer : List UInt8} {p : ProcessFinalizePc}
    (hpc : t.pc = .processFinalize id domain csrDer p) (hk : t.pc.Certifies c.shared.db)
    (hI : c.shared.db.Certified) : u.pc.Certifies out.shared.db := by
  obtain ⟨ch, hseg⟩ := h.goes_on hu
  have hn := (h.self hu).1
  have hpend := h.sane.pending
  rw [hpc] at hseg hk hpend
  obtain ⟨seg', h', rfl⟩ := Option.map_eq_some_iff.mp hseg
  cases p with
  | getOrder | issue =>
      simp only [processFinalizeSeg] at h'
      split at h' <;> cases Option.some.inj h' <;>
        first | (rw [← Next.goto.inj hn]; trivial) | cases hn
  | failGet problem =>
      simp only [processFinalizeSeg] at h'
      split at h' <;> cases Option.some.inj h'
      · cases hn
      · rw [← Next.goto.inj hn]
        intro p hp
        cases Order.eq_of_mem_flush hp
        refine ⟨fun x hx => ?_, fun hst => ?_⟩
        · cases (changed_self _).symm.trans hx
        · cases (changed_eq_some.mp hst).2
  | get pemChain expiresAt =>
      simp only [processFinalizeSeg] at h'
      split at h'
      · cases Option.some.inj h'
        cases hn
      · rename_i order horder
        split at h'
        · cases Option.some.inj h'
          rw [← Next.goto.inj hn]
          intro k hk
          obtain ⟨cert, hc, -⟩ := (hI.link horder hk).grows h.grows
          rw [hc]
          exact Option.some_ne_none cert
        · cases h'
  | store order k cert =>
      cases Option.some.inj h'
      rw [← Next.goto.inj hn]
      -- the certificate is there now, and was not when the order was loaded
      have hins : c.shared.db.certificates.get k = none ∧
          out.shared.db.certificates.get k = some cert := by
        rcases h.db with ⟨-, e⟩ | ⟨hcf, -⟩
        · rw [h.tx_nil (by rw [hpc]; rfl)] at e
          obtain ⟨db₁, h₁, e⟩ := Option.bind_eq_some_iff.mp e
          obtain ⟨tab, ht, rfl⟩ := Option.map_eq_some_iff.mp h₁
          rw [← Option.some.inj e]
          exact ⟨Table.get_of_insert? ht, by rw [Table.get_insert? ht, if_pos rfl]⟩
        · cases hcf
      intro p hp
      cases Order.eq_of_mem_flush hp
      refine ⟨fun x hx => ?_, fun _ => ?_⟩
      · exact ⟨k, (changed_eq_some.mp hx).2.symm, cert, hins.2, hpend _ List.mem_cons_self⟩
      · show changed order.certId (some k) ≠ none
        rw [changed, if_neg]
        · exact Option.some_ne_none _
        · exact fun e => hk k e hins.1
  | commit flush =>
      cases Option.some.inj h'
      cases hn

theorem Turn.certifies (h : Turn o cfg c i t seg out) (hu : out.self = some u)
    (hk : t.pc.Certifies c.shared.db) (hI : c.shared.db.Certified) :
    u.pc.Certifies out.shared.db := by
  rcases h.stays_or_starts hu with e | hs | ⟨a, p, e⟩
  · cases hq : u.pc with
    | processFinalize id domain csrDer q =>
        rw [hq] at e
        obtain ⟨p, hpc⟩ := Pc.eq_processFinalize e.symm
        exact hq ▸ h.certifies_processFinalize hu hpc hk hI
    | _ => trivial
  · unfold Pc.isStart at hs
    split at hs <;> first | (rename_i e; rw [e]; trivial) | cases hs
  · rw [e]
    trivial

def certificateSafety (o : Oracle) (cfg : Settings) (P : Relay → Relay → Prop) :
    Safety o cfg P where
  Inv _ s := s.db.Certified
  Ok _ s t := t.pc.Certifies s.db
  start := ⟨fun h => (by cases h), fun h => by cases h⟩
  run _ h _ hI hk := by
    refine ⟨h.certified hk hI, fun _ hu => h.certifies hu hk hI, fun b _ => ?_⟩
    cases b <;> trivial
  others _ h _ _ _ _ _ hk := hk.grows h.grows
  request {c t} _ _ _ hpc := by
    rcases hpc with ⟨req, e⟩ | ⟨p, e⟩ | ⟨cutoff, e⟩ <;> rw [e] <;> trivial
  fresh hI := hI
  clock _ hI := ⟨hI, fun _ _ h => h⟩
  restart hI := ⟨hI, trivial⟩

theorem certified {P : Relay → Relay → Prop} (h : Reach (relay o cfg) P .init c) :
    c.shared.db.Certified :=
  ((certificateSafety o cfg P).reach h).1

theorem certifies {P : Relay → Relay → Prop} (h : Reach (relay o cfg) P .init c)
    (ht : c.tasks i = some t) : t.pc.Certifies c.shared.db :=
  ((certificateSafety o cfg P).reach h).2 i t ht

/-- **A valid order has its certificate.**  It names one that is there and names the order back;
`get_order` shows its URL to the owner, and `download_cert` answers the owner with the chain, on
this database and on every later one. -/
theorem valid_has_certificate (h : Reachable o cfg c) {id : String} {r : Order}
    (hr : c.shared.db.orders.get id = some r) (hst : r.status = .valid) :
    ∃ k cert, r.certId = some k ∧ c.shared.db.certificates.get k = some cert ∧
      cert.orderId = id ∧
      getOrderSeg cfg r.accountId id c.shared.db .get = .goto (.authzs r) ∧
      (∃ b, getOrderSeg cfg r.accountId id c.shared.db (.authzs r) =
        .respond ⟨200, .order b, none⟩ ∧ b.certificate = some (certUrl cfg k)) ∧
      ∀ db', c.shared.db.Grows db' →
        downloadCertSeg r.accountId k db' .get = .goto (.owner cert) ∧
        downloadCertSeg r.accountId k db' (.owner cert) =
          .respond ⟨200, .pem cert.pemChain, none⟩ := by
  have hI := certified h
  obtain ⟨k, hk⟩ := Option.ne_none_iff_exists'.mp (hI.valid hr hst)
  obtain ⟨cert, hcert, rfl⟩ := hI.link hr hk
  refine ⟨k, cert, hk, hcert, rfl, ?_, ⟨_, rfl, ?_⟩, fun db' hg => ⟨?_, ?_⟩⟩
  · simp [getOrderSeg, requireOrderOwner, hr, Seg.attempt]
  · simp [hk]
  · simp [downloadCertSeg, hg.certificates hcert, orElse, Seg.attempt]
  · obtain ⟨r', hr', hf⟩ := hg.orders hr
    simp [downloadCertSeg, requireParentOwner, hr', (Order.fixed_eq hf).1, Seg.attempt]

end

/-- The finalized order, with its certificate. -/
def Demo.certifiedOrder : List (Nat → List (Action Input)) :=
  finalizedOrder ++
    [fun _ => go 49 (turns 1 ++ [{ issued := .ok "pem" }, { uuid := uuid 5 }] ++ turns 2)]

/-- The order is valid, and one certificate is stored. -/
theorem Demo.certifiedOrder_run : ∃ c, run (fun _ _ => true) certifiedOrder = some c ∧
    (∃ r, c.shared.db.orders.get (uuid 3) = some r ∧ r.status = .valid) ∧
    (∃ cert, c.shared.db.certificates.get (uuid 5) = some cert ∧ cert.pemChain = "pem") ∧
    (c.shared.db.certificates.count fun _ cert => decide (cert.orderId = uuid 3)) = 1 := by
  have hrun : (run (fun _ _ => true) certifiedOrder).any (fun c =>
      (c.shared.db.orders.get (uuid 3)).any (fun r => decide (r.status = .valid)) &&
      (c.shared.db.certificates.get (uuid 5)).any (fun cert => decide (cert.pemChain = "pem")) &&
      decide ((c.shared.db.certificates.count fun _ cert => decide (cert.orderId = uuid 3)) = 1)) =
      true := by decide +kernel
  obtain ⟨c, hc, h⟩ := (Option.any_eq_true _ _).mp hrun
  simp only [Bool.and_eq_true, Option.any_eq_true, decide_eq_true_eq] at h
  exact ⟨c, hc, h.1.1, h.1.2, h.2⟩

theorem valid_has_certificate_run :
    ∃ c, Demo.run (fun _ _ => true) Demo.certifiedOrder = some c ∧
      ∃ r, c.shared.db.orders.get (Demo.uuid 3) = some r ∧ r.status = .valid ∧
        ∃ k cert, r.certId = some k ∧ c.shared.db.certificates.get k = some cert ∧
          cert.orderId = Demo.uuid 3 ∧
          downloadCertSeg r.accountId k c.shared.db (.owner cert) =
            .respond ⟨200, .pem cert.pemChain, none⟩ := by
  obtain ⟨c, hc, ⟨r, hr, hst⟩, -⟩ := Demo.certifiedOrder_run
  obtain ⟨k, cert, hk, hcert, ho, -, -, hd⟩ :=
    valid_has_certificate (Demo.reach (fun _ _ => trivial) hc) hr hst
  exact ⟨c, hc, r, hr, hst, k, cert, hk, hcert, ho, (hd _ (.refl _)).2⟩

end Jackdaw
