import Jackdaw.Relay.Life

/-!
# Relay — recording an issued certificate

`store_cert` commits the certificate, and `process_finalize` then writes it to the order in a commit
of its own.  Between the two there is a certificate that no order names, and what ends the task
there, a crash or a failing statement, leaves it so: the order stays processing, and after the next
start it is invalid (`certificate_lost`).

* `certificates_recorded`: where no `process_finalize` is ended between its two commits, and no
  second validating task is created for an authorization, every certificate whose issuing task is
  over is the one its order names, and the order is valid.

The invariant is about tasks as well as rows: a certificate that is not recorded has a task that is
about to record it (`Recording`).
-/

namespace Jackdaw

open Support Support.Interleave

/-- Order `id` is valid and names certificate `k`. -/
def Db.Records (db : Db) (k id : String) : Prop :=
  ∃ r, db.orders.get id = some r ∧ r.status = .valid ∧ r.certId = some k

/-- No `process_finalize` of order `id` is running. -/
def IssuanceOver (c : Relay) (id : String) : Prop :=
  ∀ i t domain csrDer p, c.tasks i = some t → t.pc ≠ .processFinalize id domain csrDer p

/-- Every certificate whose issuing task is over is recorded. -/
def AllRecorded (c : Relay) : Prop :=
  ∀ {k cert}, c.shared.db.certificates.get k = some cert → IssuanceOver c cert.orderId →
    c.shared.db.Records k cert.orderId

/-- **The step ends no `process_finalize` between its two commits**: one that has stored its
certificate is still there after the step, or the step is its commit. -/
def KeepsRecording (c c' : Relay) : Prop :=
  ∀ i t id domain csrDer flush, c.tasks i = some t →
    t.pc = .processFinalize id domain csrDer (.commit flush) →
    (∃ k, c.shared.db.CertOf k id) →
    c'.tasks i ≠ none ∨
      ∃ e, c'.shared.log = e :: c.shared.log ∧ e.tid = i ∧ e.seg.commit = true

/-- Task `i` is about to record certificate `k` with order `id`. -/
def Recording (c : Relay) (i : Nat) (k id : String) : Prop :=
  ∃ t domain csrDer flush order, c.tasks i = some t ∧
    t.pc = .processFinalize id domain csrDer (.commit flush) ∧
    c.shared.db.orders.get id = some order ∧
    flush = order.flush id { order with certId := some k, status := .valid }

/-- Every certificate is recorded, or about to be. -/
def Filed (c : Relay) : Prop :=
  ∀ k cert, c.shared.db.certificates.get k = some cert →
    c.shared.db.Records k cert.orderId ∨ ∃ i, Recording c i k cert.orderId

section

variable {o : Oracle} {cfg : Settings} {c : Relay} {i j : Nat} {t u : Task} {seg : Seg Pc}
  {out : Outcome Shared Task}

/-! ### One turn -/

/-- **Where certificates come from**: the first commit of a `process_finalize`. -/
theorem Turn.cert_from (h : Turn o cfg c i t seg out) (hh : t.pc.Holds c.shared.db t.tx)
    {k : String} {cert : Certificate} (hk : out.shared.db.certificates.get k = some cert) :
    c.shared.db.certificates.get k = some cert ∨ ∃ id domain csrDer order,
      t.pc = .processFinalize id domain csrDer (.store order k cert) ∧ seg.commit = true := by
  rcases h.committed with e | ⟨hc, e⟩
  · exact .inl (e ▸ hk)
  · by_cases hpf : ∃ id domain csrDer p, t.pc = .processFinalize id domain csrDer p
    · obtain ⟨id, domain, csrDer, p, hpc⟩ := hpf
      obtain ⟨-, ⟨order, k', cert', rfl, -, hcerts⟩ | ⟨_, _, _, -, -, -, hcerts, -⟩⟩ :=
        h.processFinalize_rows hh hpc hc
      · rw [hcerts] at hk
        split at hk
        · rename_i e
          cases hk
          subst e
          exact .inr ⟨id, domain, csrDer, order, hpc, hc⟩
        · exact .inl hk
      · exact .inl (hcerts ▸ hk)
    · have hsame : out.shared.db.certificates = c.shared.db.certificates := by
        refine h.same (n := .certificates) fun d hmay htab => ?_
        cases d with
        | insertCert _ _ =>
            cases hpc : t.pc with
            | processFinalize id domain csrDer p => exact hpf ⟨id, domain, csrDer, p, hpc⟩
            | _ =>
                rw [hpc] at hmay
                exact hmay.elim
        | _ => cases htab
      exact .inl (hsame ▸ hk)

/-- A record is kept. -/
theorem Turn.records (h : Turn o cfg c i t seg out)
    (hr : Reach (relay o cfg) FirstDispatch .init c) {k id : String}
    (hrec : c.shared.db.Records k id) : out.shared.db.Records k id := by
  obtain ⟨r, hrow, hst, hk⟩ := hrec
  rcases h.order_life hr id with e | ⟨r', -, hstep⟩
  · exact ⟨r, e.trans hrow, hst, hk⟩
  · -- a valid order makes no step
    rw [hrow] at hstep
    cases hstep with
    | acknowledge _ _ _ old | claim _ old | validate _ old _ | refute _ old | record _ old _
    | refuse _ old | interrupt _ old =>
        rw [hst] at old
        cases old

/-- **The last commit of `process_finalize` records its certificate.** -/
theorem Turn.records_last (h : Turn o cfg c i t seg out) (hc : seg.commit = true)
    {k id domain : String} {csrDer : List UInt8} {order : Order}
    (hpc : t.pc = .processFinalize id domain csrDer
      (.commit (order.flush id { order with certId := some k, status := .valid })))
    (ho : c.shared.db.orders.get id = some order) : out.shared.db.Records k id := by
  obtain ⟨ch, hseg⟩ := h.commits hc
  rw [hpc] at hseg
  cases Option.some.inj hseg
  rcases h.db with ⟨-, e⟩ | ⟨hcf, -⟩
  · rw [h.tx_nil (by rw [hpc]; rfl)] at e
    obtain ⟨hos, -⟩ := Order.exec_flush ho (by rfl) e
    exact ⟨_, (hos id).trans (if_pos rfl), rfl, rfl⟩
  · cases hcf

/-- A task that is about to record goes on to be, while another one runs. -/
theorem Turn.recording_other (h : Turn o cfg c i t seg out)
    (hr : Reach (relay o cfg) FirstDispatch .init c) (hp : FirstDispatch c (c.after i out))
    (hne : j ≠ i) {k id : String} (hrec : Recording c j k id) :
    Recording (c.after i out) j k id := by
  obtain ⟨u, domain, csrDer, flush, order, hu, hpc, ho, hflush⟩ := hrec
  have hf := Jackdaw.finds hr h.task
  have hbefore := Jackdaw.finds hr hu
  have hafter := h.finds_other hr hf (Jackdaw.lifecycle hr) hp hu hne hbefore
  rw [hpc] at hbefore hafter
  refine ⟨u, domain, csrDer, flush, order, ?_, hpc, ?_, hflush⟩
  · show Function.update (Function.update c.tasks i out.self) c.next out.child j = some u
    rw [Function.update_of_ne (hr.lt_next hu).ne, Function.update_of_ne hne, hu]
  · exact (h.order_still (Jackdaw.knows hr h.task) hf (Jackdaw.holds hr h.task) hbefore.2
      hafter.2).trans ho

/-- **A turn leaves every certificate recorded or about to be.** -/
theorem Turn.filed (h : Turn o cfg c i t seg out)
    (hr : Reach (relay o cfg) FirstDispatch .init c) (hp : FirstDispatch c (c.after i out))
    (hkeep : KeepsRecording c (c.after i out)) (hI : Filed c) : Filed (c.after i out) := by
  have hself : (c.after i out).tasks i = out.self := by
    show Function.update (Function.update c.tasks i out.self) c.next out.child i = _
    rw [Function.update_of_ne (hr.lt_next h.task).ne, Function.update_self]
  intro k cert hk
  rcases h.cert_from (Jackdaw.holds hr h.task) hk with hold | ⟨id, domain, csrDer, order, hpc, hc⟩
  · rcases hI k cert hold with hrec | ⟨j, hrec⟩
    · exact .inl (h.records hr hrec)
    · by_cases hne : j = i
      · subst hne
        obtain ⟨u, domain, csrDer, flush, order, hu, hpc, ho, rfl⟩ := hrec
        rw [h.task] at hu
        cases hu
        have hcert : ∃ k, c.shared.db.CertOf k cert.orderId := ⟨k, cert, hold, rfl⟩
        left
        rcases hkeep j t _ _ _ _ h.task hpc hcert with hsome | ⟨e, he, -, hc⟩
        · -- it does not go on from its last segment
          obtain ⟨u, hu⟩ := Option.ne_none_iff_exists'.mp (hself ▸ hsome)
          obtain ⟨ch, hseg⟩ := h.goes_on hu
          rw [hpc] at hseg
          cases Option.some.inj hseg
          cases (h.self hu).1
        · have he : out.shared.log = e :: c.shared.log := he
          rw [h.log] at he
          cases he
          exact h.records_last hc hpc ho
      · exact .inr ⟨j, h.recording_other hr hp hne hrec⟩
  · -- the certificate was stored just now
    right
    have hh := Jackdaw.holds hr h.task
    have hpend := h.sane.pending
    obtain ⟨ch, hseg⟩ := h.commits hc
    obtain ⟨-, ⟨_, _, _, e, ho, -⟩ | ⟨_, _, _, e, -⟩⟩ := h.processFinalize_rows hh hpc hc
    · cases e
      rw [hpc] at hseg hh hpend
      cases Option.some.inj hseg
      have hid : cert.orderId = id := hpend _ List.mem_cons_self
      rw [hid]
      obtain ⟨tx, hu⟩ := h.goes rfl
      refine ⟨i, _, domain, csrDer, _, order, hself.trans hu, rfl, ?_, rfl⟩
      show out.shared.db.orders.get id = _
      rw [ho]
      exact hh
    · cases e

/-! ### Runs -/

/-- **Every certificate is recorded, or about to be.** -/
theorem filed (h : Reach (relay o cfg)
    (fun c c' => FirstDispatch c c' ∧ KeepsRecording c c') .init c) : Filed c := by
  induction h with
  | start => exact fun _ _ h => by cases h
  | @step c c' a hr hs hp ih =>
      have hr' := hr.mono (Q := FirstDispatch) fun _ _ h => h.1
      rcases Machine.step_cases hs with ⟨i, b, t, out, -, hi, ho, rfl⟩ | ⟨b, t, -, ht, rfl⟩ |
          ⟨b, s, -, ht, rfl⟩ | ⟨b, s, t, -, ht, rfl⟩
      · obtain ⟨seg, hturn⟩ := turn_of_run hr hi ho
        exact hturn.filed hr' hp.1 hp.2 ih
      · intro k cert hk
        refine (ih k cert hk).imp_right fun ⟨j, u, domain, csrDer, flush, order, hu, h⟩ => ?_
        refine ⟨j, u, domain, csrDer, flush, order, ?_, h⟩
        show Function.update c.tasks c.next (some t) j = some u
        rw [Function.update_of_ne (hr.lt_next hu).ne, hu]
      · obtain ⟨now, rfl⟩ := tick_cases ht
        exact ih
      · obtain ⟨rfl, rfl⟩ := restart_cases ht
        intro k cert hk
        rcases ih k cert hk with hrec | ⟨j, u, domain, csrDer, flush, order, hu, hpc, -⟩
        · exact .inl hrec
        · -- a restart ends the task, and adds nothing to the log
          rcases hp.2 j u _ _ _ _ hu hpc ⟨k, cert, hk, rfl⟩ with hsome | ⟨e, he, -⟩
          · refine absurd ?_ hsome
            show Function.update (fun _ => none) c.next (some _) j = none
            rw [Function.update_of_ne (hr.lt_next hu).ne]
          · exact absurd (congrArg List.length he) (Nat.lt_succ_self _).ne

/-- **Issued certificates are recorded**, in every run in which no `process_finalize` is ended
between its two commits and no second validating task is created for an authorization. -/
theorem certificates_recorded (h : Reach (relay o cfg)
    (fun c c' => FirstDispatch c c' ∧ KeepsRecording c c') .init c) : AllRecorded c := by
  intro k cert hk hover
  rcases filed h k cert hk with hrec | ⟨i, t, domain, csrDer, flush, order, ht, hpc, -⟩
  · exact hrec
  · exact absurd hpc (hover i t domain csrDer _ ht)

end

/-- A test for `KeepsRecording` that may be run. -/
def keepsRecording (c c' : Relay) : Bool :=
  c.shared.db.certificates.rows.isEmpty || (List.range c.next).all fun i =>
    (c.tasks i).all fun t => match t.pc with
      | .processFinalize _ _ _ (.commit _) => (c'.tasks i).isSome ||
          decide (c'.shared.log.length ≠ c.shared.log.length) &&
            c'.shared.log.head?.any fun e => decide (e.tid = i) && e.seg.commit
      | _ => true

theorem keepsRecording_sound {o : Oracle} {cfg : Settings} {P : Relay → Relay → Prop}
    {c c' : Relay} {a : Action Input} (hr : Reach (relay o cfg) P .init c)
    (hs : (relay o cfg).step c a = some c') (h : keepsRecording c c' = true) :
    KeepsRecording c c' := by
  rintro i t id domain csrDer flush ht hpc ⟨k, cert, hk, -⟩
  have hne : c.shared.db.certificates.rows ≠ [] :=
    List.ne_nil_of_mem (Table.get_eq_some_iff.mp hk)
  simp only [keepsRecording, Bool.or_eq_true, List.isEmpty_iff, hne, false_or,
    List.all_eq_true] at h
  have := h i (List.mem_range.mpr (hr.lt_next ht))
  simp only [ht, hpc, Option.all_some, Bool.or_eq_true, Bool.and_eq_true, decide_eq_true_eq,
    Option.any_eq_true] at this
  rcases this with hsome | ⟨hlen, e, he, hi, hc⟩
  · exact .inl (Option.ne_none_iff_isSome.mpr hsome)
  · rcases step_log hs with e' | ⟨e', hlog⟩
    · exact absurd (congrArg List.length e') hlen
    · rw [hlog, List.head?_cons] at he
      cases he
      exact .inr ⟨e, hlog, hi, hc⟩

theorem certificates_recorded_run :
    ∃ c, Demo.run (fun c c' => firstDispatch c c' && keepsRecording c c')
        Demo.certifiedOrder = some c ∧
      (∃ cert, c.shared.db.certificates.get (Demo.uuid 5) = some cert) ∧ AllRecorded c := by
  have hrun : (Demo.run (fun c c' => firstDispatch c c' && keepsRecording c c')
      Demo.certifiedOrder).any (fun c =>
        (c.shared.db.certificates.get (Demo.uuid 5)).isSome) = true := by
    decide +kernel
  obtain ⟨c, hc, h⟩ := (Option.any_eq_true _ _).mp hrun
  refine ⟨c, hc, Option.isSome_iff_exists.mp h,
    certificates_recorded (Demo.reach_steps (fun hr hs h => ?_) hc)⟩
  rw [Bool.and_eq_true] at h
  exact ⟨firstDispatch_sound h.1, keepsRecording_sound hr hs h.2⟩

/-- The certificate is stored, and the relay starts again before the order is written. -/
def Demo.crashedIssuance : List (Nat → List (Action Input)) :=
  finalizedOrder ++
    [fun _ => go 49 (turns 1 ++ [{ issued := .ok "pem" }, { uuid := uuid 5 }] ++ turns 1), boot]

/-- **A stored certificate of an invalid order.** -/
theorem certificate_lost : ¬ ∀ c, Reachable Demo.oracle Demo.settings c → AllRecorded c := by
  intro hall
  have hrun : (Demo.run (fun _ _ => true) Demo.crashedIssuance).any (fun c =>
      ((c.shared.db.certificates.get (Demo.uuid 5)).any fun cert =>
        decide (cert.orderId = Demo.uuid 3)) &&
      ((c.shared.db.orders.get (Demo.uuid 3)).any fun r => decide (r.status = .invalid)) &&
      (List.range c.next).all fun i => (c.tasks i).isNone) = true := by
    decide +kernel
  obtain ⟨c, hc, h⟩ := (Option.any_eq_true _ _).mp hrun
  simp only [Bool.and_eq_true, decide_eq_true_eq, Option.any_eq_true, List.all_eq_true,
    Option.isNone_iff_eq_none, List.mem_range] at h
  obtain ⟨⟨⟨cert, hcert, ho⟩, r, hr, hst⟩, hover⟩ := h
  have hreach : Reachable Demo.oracle Demo.settings c := Demo.reach (fun _ _ => trivial) hc
  have hidle : IssuanceOver c cert.orderId := by
    intro i t domain csrDer p ht
    rw [hover i (hreach.lt_next ht)] at ht
    cases ht
  obtain ⟨r', hr', hvalid, -⟩ := hall c hreach hcert hidle
  rw [ho, hr] at hr'
  cases hr'
  rw [hst] at hvalid
  cases hvalid

end Jackdaw
