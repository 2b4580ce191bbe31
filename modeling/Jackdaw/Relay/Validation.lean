import Jackdaw.Relay.Rows

/-!
# Relay — proof before issuance

A certificate is asked for only after the domain was proved: whenever `finalize_order` creates the
issuing task for an order and a domain, a `run_challenge` of an authorization of that order, for
that domain, has had its `validate_http01` return before, on the key authorization of the stored
token and of the key the owning account had when the task read it.

The invariant is that a ready order is a validated one (`Ready`).  Only `run_challenge` turns an
order ready, and only from a commit behind a validation that returned; what the task knows on the
way there is `RunChallengePc.Proves`.
-/

namespace Jackdaw

open Support Support.Interleave

/-- Task `i` read, for authorization `z` of order `id`, the domain, the token, and the key of the
account that owns the order, from which it has the text to expect. -/
def KeyRead (o : Oracle) (i : Nat) (z id domain token expected : String) (l : List Entry) : Prop :=
  ∃ g ∈ l, g.tid = i ∧ (∃ authz order, g.pc = .runChallenge z id (.getAccount authz order)) ∧
    (∃ r, g.pre.authorizations.get z = some r ∧ r.orderId = id ∧ r.identifier = domain ∧
      r.challengeToken = some token) ∧
    ∃ order account, g.pre.orders.get id = some order ∧
      g.pre.accounts.get order.accountId = some account ∧
      keyAuthorization o token account.publicKey = some expected

/-- A `run_challenge` of an authorization of order `id` for `domain` saw its
`validate_http01(domain, token, expected)` return. -/
def Validated (o : Oracle) (id domain : String) (l : List Entry) : Prop :=
  ∃ z token expected l₂ v l₁, l = l₂ ++ v :: l₁ ∧
    v.pc = .runChallenge z id (.validate domain token expected) ∧
    v.seg.next = .goto (.runChallenge z id (.regetAuthz none)) ∧
    KeyRead o v.tid z id domain token expected l₁

theorem KeyRead.append {o : Oracle} {i : Nat} {z id domain token expected : String}
    {l : List Entry} (h : KeyRead o i z id domain token expected l) (l' : List Entry) :
    KeyRead o i z id domain token expected (l' ++ l) := by
  obtain ⟨g, hg, h⟩ := h
  exact ⟨g, List.mem_append_right l' hg, h⟩

theorem Validated.append {o : Oracle} {id domain : String} {l : List Entry}
    (h : Validated o id domain l) (l' : List Entry) : Validated o id domain (l' ++ l) := by
  obtain ⟨z, token, expected, l₂, v, l₁, rfl, h⟩ := h
  exact ⟨z, token, expected, l' ++ l₂, v, l₁, by rw [List.append_assoc], h⟩

/-- Authorization `z`, one of order `id`, is for a domain that was validated. -/
def Proved (o : Oracle) (z id : String) (s : Shared) : Prop :=
  ∃ r, s.db.authorizations.get z = some r ∧ r.orderId = id ∧ Validated o id r.identifier s.log

theorem Proved.grows {o : Oracle} {z id : String} {s s' : Shared} (h : Proved o z id s)
    (hg : s.db.Grows s'.db) {l : List Entry} (hl : s'.log = l ++ s.log) : Proved o z id s' := by
  obtain ⟨r, hr, rfl, hv⟩ := h
  obtain ⟨r', hr', hf⟩ := hg.authorizations hr
  obtain ⟨ho, hi, -⟩ := Authorization.fixed_eq hf
  refine ⟨r', hr', ho, ?_⟩
  rw [hi, hl]
  exact hv.append l

/-- What `run_challenge`, task `i`, has proved where it is suspended. -/
def RunChallengePc.Proves (o : Oracle) (i : Nat) (z id : String) (s : Shared) :
    RunChallengePc → Prop
  | .getAuthz => True
  | .getOrder authz => ∀ a, authz = some a → s.db.HasAuthz z a
  | .getAccount authz order =>
      s.db.HasAuthz z authz ∧ authz.challengeToken ≠ none ∧ s.db.HasOrder id order
  | .validate domain token expected =>
      KeyRead o i z id domain token expected s.log ∧
        ∃ r, s.db.authorizations.get z = some r ∧ r.orderId = id ∧ r.identifier = domain
  | .regetAuthz problem => problem = none → Proved o z id s
  | .regetOrder problem _ => problem = none → Proved o z id s
  | .statuses _ _ => Proved o z id s
  | .commit flush => SetsReady id flush → Proved o z id s

theorem RunChallengePc.Proves.later {o : Oracle} {i : Nat} {z id : String} {s s' : Shared}
    {p : RunChallengePc} (h : p.Proves o i z id s) (hg : s.db.Grows s'.db) {l : List Entry}
    (hl : s'.log = l ++ s.log) : p.Proves o i z id s' := by
  cases p with
  | getAuthz => trivial
  | getOrder authz => exact fun a ha => (h a ha).grows hg
  | getAccount authz order => exact ⟨h.1.grows hg, h.2.1, h.2.2.grows hg⟩
  | validate domain token expected =>
      obtain ⟨hk, r, hr, ho, hi⟩ := h
      obtain ⟨r', hr', hf⟩ := hg.authorizations hr
      obtain ⟨ho', hi', -⟩ := Authorization.fixed_eq hf
      exact ⟨hl ▸ hk.append l, r', hr', ho'.trans ho, hi'.trans hi⟩
  | regetAuthz problem => exact fun hp => (h hp).grows hg hl
  | regetOrder problem authz => exact fun hp => (h hp).grows hg hl
  | statuses authz order => exact Proved.grows h hg hl
  | commit flush => exact fun hp => (h hp).grows hg hl

/-- What a task has proved: nothing is asked of the other coroutines. -/
def Pc.Proves (o : Oracle) (i : Nat) (s : Shared) : Pc → Prop
  | .runChallenge z id p => p.Proves o i z id s
  | _ => True

/-- Turning both rows invalid does not turn the order ready. -/
theorem invalidate_not_ready {z id : String} {authz : Authorization} {order : Order}
    {problem : Problem} : ¬ SetsReady id (invalidate z id authz order problem) := by
  rintro ⟨p, hp, hst⟩
  rcases List.mem_append.mp hp with hp | hp
  · obtain ⟨q, e, -⟩ := Authorization.mem_flush hp
    cases e
  · obtain ⟨q, e, hq⟩ := Order.mem_flush hp
    cases e
    cases hq _ hst

section

variable {o : Oracle} {cfg : Settings} {c : Relay} {i : Nat} {t u : Task} {seg : Seg Pc}
  {out : Outcome Shared Task}

/-- What holds of a task whose segment sent nothing, in the state with its entry. -/
theorem Turn.reads_proves (h : Turn o cfg c i t seg out) (hu : out.self = some u)
    (hr : seg.Reads fun p => ∀ s : Shared, s.db = c.shared.db →
      s.log = [⟨i, t.pc, seg, c.shared.db, c.shared.db, c.shared.now, c.next⟩] ++ c.shared.log →
      p.Proves o i s) : u.pc.Proves o i out.shared := by
  obtain ⟨hk, hdb, -⟩ := h.reads hr hu
  refine hk _ hdb ?_
  rw [h.log, hdb]
  rfl

/-- The segment that computes the key authorization, from the token of the authorization and the
key of the order's account. -/
theorem Turn.proves_getAccount (h : Turn o cfg c i t seg out) (hu : out.self = some u)
    {z id : String} {authz : Authorization} {order : Order} {ch : Choice}
    (hpc : t.pc = .runChallenge z id (.getAccount authz order))
    (hseg : (runChallengeSeg o z id c.shared.db ch (.getAccount authz order)).map
      (.runChallenge z id) = seg)
    (hof : c.shared.db.AuthzOf z id)
    (hp : (RunChallengePc.getAccount authz order).Proves o i z id c.shared) :
    u.pc.Proves o i out.shared := by
  obtain ⟨⟨r, hr, hf⟩, htok, ⟨order', ho, hfo⟩⟩ := hp
  obtain ⟨token, htok⟩ := Option.ne_none_iff_exists'.mp htok
  refine h.reads_proves hu (hseg ▸ .map _ ?_)
  simp only [runChallengeSeg]
  split
  · exact .goto fun s _ _ hready => absurd hready invalidate_not_ready
  · rename_i account hacc
    split
    · exact .fail _
    · rename_i expected hexp
      refine .goto fun s hdb hl => ?_
      obtain ⟨hro, hri, hrt⟩ := Authorization.fixed_eq hf
      obtain ⟨r', hr', hid⟩ := hof
      rw [hr] at hr'
      cases hr'
      refine ⟨?_, r, hdb ▸ hr, hid, hri⟩
      rw [hl]
      refine ⟨_, List.mem_cons_self, ?_⟩
      refine ⟨rfl, ⟨authz, order, hpc⟩, ⟨r, hr, hid, hri, ?_⟩, order', account, ho, ?_, hexp⟩
      · rw [hrt, htok]
        rfl
      · rw [(Order.fixed_eq hfo).1]
        exact hacc

/-- **What `run_challenge` proves, step by step.** -/
theorem Turn.proves_runChallenge (h : Turn o cfg c i t seg out) (hu : out.self = some u)
    {z id : String} {p : RunChallengePc} (hpc : t.pc = .runChallenge z id p)
    (hof : c.shared.db.AuthzOf z id) (hp : p.Proves o i z id c.shared) :
    u.pc.Proves o i out.shared := by
  obtain ⟨ch, hseg⟩ := h.goes_on hu
  have hn := (h.self hu).1
  rw [hpc] at hseg
  have hseg := Option.some.inj hseg
  have hinv : ∀ {authz order problem} {s : Shared}, (RunChallengePc.commit
      (invalidate z id authz order problem)).Proves o i z id s :=
    fun hready => absurd hready invalidate_not_ready
  cases p with
  | getAuthz =>
      refine h.reads_proves hu (hseg ▸ .map _ (.goto fun s hdb _ => ?_))
      exact fun a ha => ⟨a, hdb ▸ ha, rfl⟩
  | getOrder authz =>
      refine h.reads_proves hu (hseg ▸ .map _ ?_)
      cases authz with
      | none => exact .inl Seg.stop_quiet
      | some a =>
          cases ho : c.shared.db.orders.get id with
          | none =>
              simp only [runChallengeSeg, ho]
              exact .inl Seg.stop_quiet
          | some order =>
              simp only [runChallengeSeg, ho]
              split
              · exact .goto fun s _ _ => hinv
              · rename_i htok
                refine .goto fun s hdb _ => ⟨?_, by simpa using htok, order, hdb ▸ ho, rfl⟩
                rw [hdb]
                exact hp a rfl
  | getAccount authz order => exact h.proves_getAccount hu hpc hseg hof hp
  | validate domain token expected =>
      obtain ⟨hkey, r, hr, ho, rfl⟩ := hp
      refine h.reads_proves hu (.inr ⟨_, hseg.symm, fun s hdb hl hval => ?_⟩)
      refine ⟨r, hdb ▸ hr, ho, z, token, expected, [], _, c.shared.log, hl, hpc, ?_, hkey⟩
      rw [← hval, ← hseg]
      rfl
  | regetAuthz problem =>
      refine h.reads_proves hu (.inr ⟨_, hseg.symm, fun s hdb hl hnone => ?_⟩)
      exact (hp hnone).grows (hdb ▸ .refl _) hl
  | regetOrder problem authz =>
      refine h.reads_proves hu ?_
      rw [← hseg]
      refine .map _ ?_
      simp only [runChallengeSeg]
      split
      · split
        · exact .goto fun s hdb hl => (hp rfl).grows (hdb ▸ .refl _) hl
        · exact .goto fun s _ _ => hinv
      · exact .inl Seg.stop_quiet
  | statuses authz order =>
      subst hseg
      rw [← Next.goto.inj hn]
      exact fun _ => Proved.grows hp h.grows (l := [_]) h.log
  | commit flush =>
      subst hseg
      cases hn

theorem Turn.proves (h : Turn o cfg c i t seg out) (hu : out.self = some u)
    (hk : t.pc.Knows i c.shared t.tx) (hp : t.pc.Proves o i c.shared) :
    u.pc.Proves o i out.shared := by
  by_cases hrc : ∃ z id p, t.pc = .runChallenge z id p
  · obtain ⟨z, id, p, hpc⟩ := hrc
    rw [hpc] at hk hp
    exact h.proves_runChallenge hu hpc hk.1 hp
  · -- no other coroutine turns into a `run_challenge`
    cases hupc : u.pc with
    | runChallenge z id q =>
        rcases h.coroutine hu with e | ⟨req, a, payload, rowcount, -, e⟩
        · rw [hupc] at e
          obtain ⟨p, hpc⟩ := Pc.eq_runChallenge e.symm
          exact absurd ⟨z, id, p, hpc⟩ hrc
        · rw [hupc] at e
          cases hroute : req.route <;> rw [hroute] at e <;> cases e
    | _ => trivial

/-! ### Ready orders -/

/-- A ready order's domain was validated. -/
def Ready (o : Oracle) (s : Shared) : Prop :=
  ∀ {id order}, s.db.orders.get id = some order → order.status = .ready →
    ∃ domain, order.identifiers.head?.map Identifier.value = some domain ∧
      Validated o id domain s.log

/-- Every issuing task of the log was created for a validated domain. -/
def Justified (o : Oracle) : List Entry → Prop
  | [] => True
  | e :: l => (∀ id domain csrDer, e.seg.spawn = some (.processFinalize id domain csrDer) →
      Validated o id domain l) ∧ Justified o l

theorem Justified.split {o : Oracle} {e : Entry} {l₁ : List Entry} :
    ∀ l₂ : List Entry, Justified o (l₂ ++ e :: l₁) → ∀ {id domain csrDer},
      e.seg.spawn = some (.processFinalize id domain csrDer) → Validated o id domain l₁
  | [], h => fun hs => h.1 _ _ _ hs
  | _ :: l₂, h => Justified.split l₂ h.2

/-- **A ready order is a validated one**, before and after a turn. -/
theorem Turn.ready (h : Turn o cfg c i t seg out) (hl : c.shared.db.Linked)
    (hk : t.pc.Knows i c.shared t.tx) (hp : t.pc.Proves o i c.shared) (hr : Ready o c.shared) : Ready o out.shared := by
  intro id order' ho' hst'
  have hlog : out.shared.log = [_] ++ c.shared.log := h.log
  by_cases hold : c.shared.db.orderStatus id = some .ready
  · obtain ⟨order, ho, hst⟩ := Db.orderStatus_eq_some.mp hold
    obtain ⟨domain, hd, hv⟩ := hr ho hst
    obtain ⟨order'', ho'', hf⟩ := h.grows.orders ho
    rw [ho'] at ho''
    cases ho''
    rw [(Order.fixed_eq hf).2.1, hlog]
    exact ⟨domain, hd, hv.append _⟩
  · obtain ⟨z, flush, hpc, hset⟩ := h.turns_ready hk
      (Db.orderStatus_eq_some.mpr ⟨order', ho', hst'⟩) hold
    rw [hpc] at hp
    obtain ⟨r, hr, rfl, hv⟩ := hp hset
    obtain ⟨order, ho, hident⟩ := hl.order hr
    obtain ⟨order'', ho'', hf⟩ := h.grows.orders ho
    rw [ho'] at ho''
    cases ho''
    rw [(Order.fixed_eq hf).2.1, hident, hlog]
    exact ⟨r.identifier, rfl, hv.append _⟩

/-- A task is created for a validated domain. -/
theorem Turn.justified (h : Turn o cfg c i t seg out) (hk : t.pc.Knows i c.shared t.tx)
    (hr : Ready o c.shared) {id domain : String} {csrDer : List UInt8}
    (hs : seg.spawn = some (.processFinalize id domain csrDer)) :
    Validated o id domain c.shared.log := by
  have hsp := h.proper.spawn _ hs
  unfold Pc.Spawns at hsp
  split at hsp
  · rename_i hpc
    rw [hpc] at hk
    obtain ⟨hrow, e⟩ := hsp
    cases e
    obtain ⟨⟨⟨order', ho', hf⟩, hd⟩, -, -, hready⟩ := hk
    obtain ⟨order, ho, hst⟩ := Db.orderStatus_eq_some.mp (hready.mp hrow)
    rw [ho'] at ho
    cases ho
    obtain ⟨domain', hd', hv⟩ := hr ho' hst
    rw [(Order.fixed_eq hf).2.1, hd] at hd'
    cases hd'
    exact hv
  · cases hsp.2
  · cases hsp
  · exact hsp.elim

def validationSafety (o : Oracle) (cfg : Settings) (P : Relay → Relay → Prop) :
    Safety o cfg P where
  Inv _ s := Ready o s ∧ Justified o s.log
  Ok i s t := t.pc.Proves o i s
  start := ⟨fun h => (by cases h), trivial⟩
  run {c i t seg out} hr h _ hI hp := by
    have hk := knows hr h.task
    refine ⟨⟨h.ready (linked hr) hk hp hI.1, ?_⟩, fun u hu => h.proves hu hk hp, fun b _ => ?_⟩
    · rw [h.log]
      exact ⟨fun id domain csrDer hs => h.justified hk hI.1 hs, hI.2⟩
    · cases b <;> trivial
  others {c i j t u seg out} _ h _ _ _ _ hne hu := by
    have hl := h.later hne
    obtain ⟨l, hlog, -⟩ := hl.log
    cases hpc : u.pc with
    | runChallenge z id p =>
        rw [hpc] at hu
        exact RunChallengePc.Proves.later hu hl.grows hlog
    | _ => trivial
  request {c t} _ _ _ hpc := by
    rcases hpc with ⟨req, e⟩ | ⟨p, e⟩ | ⟨cutoff, e⟩ <;> rw [e] <;> trivial
  fresh hI := hI
  clock _ hI := ⟨hI, fun _ _ hp => hp⟩
  restart hI := ⟨hI, trivial⟩

/-- **Proof before issuance.**  In every run, whenever the issuing task is created for an order and
a domain, a `run_challenge` of an authorization of that order for that domain has seen its
validation return before. -/
theorem validated_before_issuance (h : Reachable o cfg c) {l₂ l₁ : List Entry} {e : Entry}
    (hlog : c.shared.log = l₂ ++ e :: l₁) {id domain : String} {csrDer : List UInt8}
    (hs : e.seg.spawn = some (.processFinalize id domain csrDer)) : Validated o id domain l₁ := by
  have hj := ((validationSafety o cfg _).reach h).1.2
  rw [hlog] at hj
  exact hj.split l₂ hs

end

theorem validated_before_issuance_run :
    ∃ c l₂ e l₁, Demo.run (fun _ _ => true) Demo.finalizedOrder = some c ∧
      c.shared.log = l₂ ++ e :: l₁ ∧
      e.seg.spawn = some (.processFinalize (Demo.uuid 3) "host.test" Demo.csrDer) ∧
      Validated Demo.oracle (Demo.uuid 3) "host.test" l₁ := by
  obtain ⟨c, hc, -, ⟨e, he, hs⟩, -⟩ := Demo.finalizedOrder_run
  obtain ⟨l₂, l₁, hlog⟩ := List.append_of_mem he
  exact ⟨c, l₂, e, l₁, hc, hlog, hs,
    validated_before_issuance (Demo.reach (fun _ _ => trivial) hc) hlog hs⟩

end Jackdaw
