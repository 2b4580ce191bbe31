import Jackdaw.Relay.Certificates
import Jackdaw.Relay.Isolation
import Jackdaw.Relay.Visible

/-!
# Relay — what the answers say of an order

A client gets to know an order from several answers: `new_order`, `get_order` and `finalize_order`
show the order itself, `get_authz` and `acknowledge_challenge` its authorization.  They are computed
at different times from rows loaded at others, while other tasks write to the same rows.

* `Db.Equipped`: every order has an authorization, which `Db.Linked` says is its only one.
* `resources_agree`: all answers about an order agree on everything but its status and error, the
  links in them lead to its own resources, and the token in them is the one its validations ask for.
-/

namespace Jackdaw

open Support Support.Interleave

/-! ### Answers -/

/-- The entry answers its client with the order `b`, about order `id`. -/
def Entry.AnswersOrder (e : Entry) (id : String) (b : OrderBody) : Prop :=
  e.pc.order = some id ∧ ∃ r, e.seg.next = .respond r ∧ r.status < 400 ∧ r.body = .order b

/-- The entry answers its client with the authorization `b`, about authorization `z`. -/
def Entry.AnswersAuthz (e : Entry) (z : String) (b : AuthzBody) : Prop :=
  (∃ a p, e.pc = .getAuthz a z p) ∧ ∃ r, e.seg.next = .respond r ∧ r.status < 400 ∧ r.body = .authz b

/-- The entry answers its client with the challenge `b`, about authorization `z`. -/
def Entry.AnswersChallenge (e : Entry) (z : String) (b : ChallengeBody) : Prop :=
  (∃ a p, e.pc = .challenge a z p) ∧
    ∃ r, e.seg.next = .respond r ∧ r.status < 400 ∧ r.body = .challenge b

/-- The order that is shown is order `id`, with the links to its authorization `z` and to a
certificate of its own. -/
structure OrderBody.Describes (cfg : Settings) (db : Db) (id z : String) (b : OrderBody) : Prop where
  row : ∃ r, db.orders.get id = some r ∧ b.identifiers = r.identifiers ∧ b.expires = r.expiresAt
  authorizations : b.authorizations = [authzUrl cfg z]
  finalize : b.finalize = orderUrl cfg id ++ "/finalize"
  certificate : ∀ url, b.certificate = some url → ∃ k, url = certUrl cfg k ∧ db.CertOf k id

/-- The challenge that is shown is the one of authorization `z`. -/
def ChallengeBody.Describes (cfg : Settings) (db : Db) (z : String) (b : ChallengeBody) : Prop :=
  b.url = cfg.relayBaseUrl ++ "/acme/challenge/" ++ z ∧
    ∃ r, db.authorizations.get z = some r ∧ b.token = r.challengeToken.getD ""

/-- The authorization that is shown is authorization `z`. -/
def AuthzBody.Describes (cfg : Settings) (db : Db) (z : String) (b : AuthzBody) : Prop :=
  (∃ r, db.authorizations.get z = some r ∧ b.identifier = ⟨"dns", r.identifier⟩) ∧
    b.challenge.Describes cfg db z

section Grows

variable {cfg : Settings} {db db' : Db} {id z : String}

theorem OrderBody.Describes.grows {b : OrderBody} (h : b.Describes cfg db id z)
    (hg : db.Grows db') : b.Describes cfg db' id z where
  row := by
    obtain ⟨r, hr, hi, he⟩ := h.row
    obtain ⟨r', hr', hf⟩ := hg.orders hr
    obtain ⟨-, hi', he'⟩ := Order.fixed_eq hf
    exact ⟨r', hr', hi.trans hi'.symm, he.trans he'.symm⟩
  authorizations := h.authorizations
  finalize := h.finalize
  certificate url hurl := by
    obtain ⟨k, hk, hof⟩ := h.certificate url hurl
    exact ⟨k, hk, hof.grows hg⟩

theorem ChallengeBody.Describes.grows {b : ChallengeBody} (h : b.Describes cfg db z)
    (hg : db.Grows db') : b.Describes cfg db' z := by
  obtain ⟨hurl, r, hr, htok⟩ := h
  obtain ⟨r', hr', hf⟩ := hg.authorizations hr
  refine ⟨hurl, r', hr', ?_⟩
  rw [htok, (Authorization.fixed_eq hf).2.2]

theorem AuthzBody.Describes.grows {b : AuthzBody} (h : b.Describes cfg db z)
    (hg : db.Grows db') : b.Describes cfg db' z := by
  obtain ⟨⟨r, hr, hi⟩, hch⟩ := h
  obtain ⟨r', hr', hf⟩ := hg.authorizations hr
  exact ⟨⟨r', hr', by rw [hi, (Authorization.fixed_eq hf).2.1]⟩, hch.grows hg⟩

/-- The fixed columns of the row an authorization was loaded from. -/
theorem Db.HasAuthz.describes {authz : Authorization} (h : db.HasAuthz z authz)
    {b : ChallengeBody} (hurl : b.url = cfg.relayBaseUrl ++ "/acme/challenge/" ++ z)
    (htok : b.token = authz.challengeToken.getD "") : b.Describes cfg db z := by
  obtain ⟨r, hr, hf⟩ := h
  exact ⟨hurl, r, hr, by rw [htok, (Authorization.fixed_eq hf).2.2]⟩

end Grows

/-! ### Every order has its authorization -/

/-- Every order has an authorization. -/
def Db.Equipped (db : Db) : Prop :=
  ∀ id r, db.orders.get id = some r → ∃ z, db.AuthzOf z id

/-- The URLs of the authorizations of an order that has one. -/
theorem authzUrls_eq {cfg : Settings} {db : Db} (hl : db.Linked) {z id : String}
    (hz : db.AuthzOf z id) : authzUrls cfg db id = [authzUrl cfg z] := by
  obtain ⟨r, hr, rfl⟩ := hz
  have hmem : (z, r) ∈ db.authorizations.select fun _ a => decide (a.orderId = r.orderId) :=
    Table.mem_select.mpr ⟨hr, decide_eq_true rfl⟩
  have hle := Table.length_select_le_one (t := db.authorizations)
    (p := fun _ a => decide (a.orderId = r.orderId)) fun {k k' q q'} hq hp hq' hp' =>
      hl.unique hq hq' ((of_decide_eq_true hp).trans (of_decide_eq_true hp').symm)
  rw [authzUrls]
  cases hsel : db.authorizations.select fun _ a => decide (a.orderId = r.orderId) with
  | nil =>
      rw [hsel] at hmem
      cases hmem
  | cons x xs =>
      rw [hsel] at hmem hle
      obtain rfl : xs = [] :=
        List.eq_nil_of_length_eq_zero (Nat.le_zero.mp (Nat.le_of_succ_le_succ hle))
      cases List.mem_singleton.mp hmem
      rfl

section

variable {o : Oracle} {cfg : Settings} {P : Relay → Relay → Prop} {c : Relay} {i : Nat}
  {t u : Task} {seg : Seg Pc} {out : Outcome Shared Task}

theorem Turn.equipped (h : Turn o cfg c i t seg out) (hk : t.pc.Knows i c.shared t.tx)
    (he : c.shared.db.Equipped) : out.shared.db.Equipped := by
  intro id r' hr'
  rcases h.places hk with ⟨k, row, z, v, r, -, ho, -, -, -, -, e⟩ | ⟨-, hkeep⟩
  · obtain ⟨db₁, h₁, e⟩ := Option.bind_eq_some_iff.mp e
    obtain ⟨db₂, h₂, e⟩ := Option.bind_eq_some_iff.mp e
    obtain ⟨tab, ht, rfl⟩ := Option.map_eq_some_iff.mp h₁
    obtain ⟨tab', ht', rfl⟩ := Option.map_eq_some_iff.mp h₂
    have hdb := Option.some.inj e
    rw [← hdb] at hr'
    rcases get_of_get_insert? ht hr' with hold | ⟨rfl, rfl⟩
    · obtain ⟨w, hw⟩ := he id r' hold
      exact ⟨w, hw.grows h.grows⟩
    · refine ⟨z, r, ?_, ho⟩
      rw [← hdb]
      show tab'.get z = some r
      rw [Table.get_insert? ht', if_pos rfl]
  · obtain ⟨r, hr, -⟩ := hkeep hr'
    obtain ⟨w, hw⟩ := he id r hr
    exact ⟨w, hw.grows h.grows⟩

/-! ### What a handler has loaded -/

/-- The order a handler is about to show is there, and so is the certificate it names. -/
def Pc.Loaded (db : Db) : Pc → Prop
  | .getOrder _ id (.authzs order) =>
      db.HasOrder id order ∧ ∀ k, order.certId = some k → db.CertOf k id
  | .finalize _ id (.authzs order) => db.HasOrder id order
  | _ => True

theorem Pc.Loaded.grows {db db' : Db} {pc : Pc} (h : pc.Loaded db) (hg : db.Grows db') :
    pc.Loaded db' := by
  cases pc with
  | getOrder a id p =>
      cases p with
      | get => trivial
      | authzs order => exact ⟨h.1.grows hg, fun k hk => (h.2 k hk).grows hg⟩
  | finalize a id p =>
      cases p with
      | authzs order => exact Db.HasOrder.grows h hg
      | _ => trivial
  | _ => trivial

theorem Pc.isStart_loaded {p : Pc} (h : p.isStart = true) {db : Db} : p.Loaded db := by
  unfold Pc.isStart at h
  split at h <;> trivial

theorem Turn.loaded (h : Turn o cfg c i t seg out) (hu : out.self = some u)
    (hk : t.pc.Knows i c.shared t.tx) (hc : c.shared.db.Certified) :
    u.pc.Loaded out.shared.db := by
  obtain ⟨ch, hseg⟩ := h.goes_on hu
  have hn := (h.self hu).1
  rcases h.stays_or_starts hu with e | hs | ⟨a, p, e⟩
  · cases hq : u.pc with
    | getOrder a id q =>
        rw [hq] at e hn
        obtain ⟨p, hpc⟩ := Pc.eq_getOrder e.symm
        rw [hpc] at hseg
        have hseg := Option.some.inj hseg
        cases p with
        | get =>
            have hr : seg.Reads fun q => q.Loaded c.shared.db :=
              hseg ▸ .map _ (.attempt fun order ho => .goto
                ⟨⟨order, (requireOrderOwner_ok ho).1, rfl⟩,
                  fun k hk => hc.link (requireOrderOwner_ok ho).1 hk⟩)
            exact (hr.of_goto hn).grows h.grows
        | authzs order => exact absurd hn (hseg ▸ ((Seg.respond_quiet _).map _).next _)
    | finalize a id q =>
        rw [hq] at e hn
        obtain ⟨p, hpc⟩ := Pc.eq_finalize e.symm
        rw [hpc] at hseg hk
        have hseg := Option.some.inj hseg
        cases p with
        | get csr =>
            have hr : seg.Reads fun q => q.Loaded c.shared.db :=
              hseg ▸ .map _ (.attempt fun _ _ => .attempt fun _ _ => .goto trivial)
            exact (hr.of_goto hn).grows h.grows
        | update order csrDer domain =>
            subst hseg
            cases hn
            trivial
        | commit order csrDer domain rowcount =>
            obtain ⟨⟨horder, -⟩, -⟩ := hk
            simp only [finalizeSeg] at hseg
            split at hseg
            · subst hseg
              cases hn
              trivial
            · subst hseg
              cases hn
              exact horder.grows h.grows
        | status => exact absurd hn (hseg ▸ ((Seg.fail_quiet _).map _).next _)
        | authzs order => exact absurd hn (hseg ▸ ((Seg.respond_quiet _).map _).next _)
    | _ => trivial
  · exact Pc.isStart_loaded hs
  · rw [e]
    trivial

def linksSafety (o : Oracle) (cfg : Settings) (P : Relay → Relay → Prop) : Safety o cfg P where
  Inv _ s := s.db.Equipped
  Ok _ s t := t.pc.Loaded s.db
  start _ _ h := by cases h
  run hr h _ hI _ :=
    ⟨h.equipped (Jackdaw.knows hr h.task) hI,
      fun _ hu => h.loaded hu (Jackdaw.knows hr h.task) (certified hr),
      fun b _ => by cases b <;> trivial⟩
  others _ h _ _ _ _ _ hu := hu.grows h.grows
  request {c t} _ _ _ hpc := by
    rcases hpc with ⟨req, e⟩ | ⟨p, e⟩ | ⟨cutoff, e⟩ <;> rw [e] <;> trivial
  fresh hI := hI
  clock _ hI := ⟨hI, fun _ _ h => h⟩
  restart hI := ⟨hI, trivial⟩

/-! ### The answers -/

/-- An answer that is not an error is not a refusal. -/
theorem Seg.Refuses.not_respond {Q : Type} {seg : Seg Q} (h : seg.Refuses) {r : Response}
    (hr : seg.next = .respond r) (hst : r.status < 400) : False :=
  Nat.not_le.mpr hst (h r hr)

theorem Turn.answers_order (h : Turn o cfg c i t seg out) (hk : t.pc.Knows i c.shared t.tx)
    (hl : c.shared.db.Linked) (he : c.shared.db.Equipped) (hlo : t.pc.Loaded c.shared.db)
    {id : String} {b : OrderBody} (ha : h.entry.AnswersOrder id b) :
    ∃ z, out.shared.db.AuthzOf z id ∧ b.Describes cfg out.shared.db id z := by
  obtain ⟨hid, r, hr, hst, hb⟩ := ha
  have hid : t.pc.order = some id := hid
  have hr : seg.next = .respond r := hr
  rcases h.runs with ⟨ch, hseg⟩ | rfl
  case inr => cases hr
  -- an order that was loaded before its authorizations
  have hshown : ∀ {order : Order}, c.shared.db.HasOrder id order →
      b.identifiers = order.identifiers ∧ b.expires = order.expiresAt →
      b.authorizations = authzUrls cfg c.shared.db id →
      b.finalize = orderUrl cfg id ++ "/finalize" →
      (∀ url, b.certificate = some url → ∃ k, url = certUrl cfg k ∧ c.shared.db.CertOf k id) →
      ∃ z, out.shared.db.AuthzOf z id ∧ b.Describes cfg out.shared.db id z := by
    rintro order ⟨row, hrow, hf⟩ ⟨hi, hx⟩ hz hfin hcert
    obtain ⟨-, hi', hx'⟩ := Order.fixed_eq hf
    obtain ⟨z, hof⟩ := he id row hrow
    refine ⟨z, hof.grows h.grows, OrderBody.Describes.grows ?_ h.grows⟩
    exact ⟨⟨row, hrow, hi.trans hi'.symm, hx.trans hx'.symm⟩, hz.trans (authzUrls_eq hl hof), hfin,
      hcert⟩
  cases hpc : t.pc with
  | getOrder a id' p =>
      rw [hpc] at hid hseg hlo
      cases Option.some.inj hid
      have hseg := Option.some.inj hseg
      subst hseg
      cases p with
      | get =>
          exact ((Seg.Refuses.attempt (requireOrderOwner_refuses _ _)
            fun _ _ => .goto _).map _).not_respond hr hst |>.elim
      | authzs order =>
          cases Next.respond.inj hr
          cases hb
          refine hshown hlo.1 ⟨rfl, rfl⟩ rfl rfl fun url hurl => ?_
          obtain ⟨k, hk, rfl⟩ := Option.map_eq_some_iff.mp hurl
          exact ⟨k, rfl, hlo.2 k hk⟩
  | finalize a id' p =>
      rw [hpc] at hid
      cases Option.some.inj hid
      have hof : h.entry.OfFinalize id := .inl ⟨a, p, hpc⟩
      rcases h.answer_finalize hof hr with hle | ⟨-, a', order, hpc'⟩
      · omega
      · rw [hpc'] at hseg hlo
        have hseg := Option.some.inj hseg
        subst hseg
        cases Next.respond.inj hr
        cases hb
        exact hshown hlo ⟨rfl, rfl⟩ rfl rfl fun url hurl => by cases hurl
  | newOrder a p =>
      cases p with
      | count ids start =>
          rw [hpc] at hid
          cases hid
      | commit id' row authzs =>
          rw [hpc] at hid hk hseg
          cases Option.some.inj hid
          cases Option.some.inj hseg
          cases Next.respond.inj hr
          cases hb
          obtain ⟨v, z, q, hident, rfl, ho, hi⟩ := hk
          -- the order and its authorization are there now
          rcases h.db with ⟨-, e⟩ | ⟨hcf, -⟩
          case inr => cases hcf
          rw [h.tx_nil (by rw [hpc]; rfl)] at e
          obtain ⟨db₁, h₁, e⟩ := Option.bind_eq_some_iff.mp e
          obtain ⟨db₂, h₂, e⟩ := Option.bind_eq_some_iff.mp e
          obtain ⟨tab, ht, rfl⟩ := Option.map_eq_some_iff.mp h₁
          obtain ⟨tab', ht', rfl⟩ := Option.map_eq_some_iff.mp h₂
          rw [← Option.some.inj e]
          have hrow : tab.get id = some row := by rw [Table.get_insert? ht, if_pos rfl]
          have hauthz : tab'.get z = some q := by rw [Table.get_insert? ht', if_pos rfl]
          exact ⟨z, ⟨q, hauthz, ho⟩, ⟨row, hrow, rfl, rfl⟩, rfl, rfl,
            fun url hurl => by cases hurl⟩
  | _ =>
      rw [hpc] at hid
      cases hid

theorem Turn.answers_authz (h : Turn o cfg c i t seg out) (ho : t.pc.Owns c.shared.db) {z : String}
    {b : AuthzBody} (ha : h.entry.AnswersAuthz z b) : b.Describes cfg c.shared.db z := by
  obtain ⟨⟨a, p, hpc⟩, r, hr, hst, hb⟩ := ha
  have hpc : t.pc = .getAuthz a z p := hpc
  have hr : seg.next = .respond r := hr
  rcases h.runs with ⟨ch, hseg⟩ | rfl
  case inr => cases hr
  rw [hpc] at hseg ho
  have hseg := Option.some.inj hseg
  subst hseg
  cases p with
  | get =>
      exact ((Seg.Refuses.attempt (.orElse (.http (by decide)))
        fun _ _ => .goto _).map _).not_respond hr hst |>.elim
  | owner authz =>
      obtain ⟨y, hy⟩ := requireParentOwner_of_accepted fun hx => hx.not_respond hr hst
      simp only [getAuthzSeg, hy] at hr
      cases Next.respond.inj hr
      cases hb
      refine ⟨?_, Db.HasAuthz.describes ho rfl rfl⟩
      obtain ⟨q, hq, hf⟩ := ho
      exact ⟨q, hq, by rw [(Authorization.fixed_eq hf).2.1]⟩

theorem Turn.answers_challenge (h : Turn o cfg c i t seg out) (ho : t.pc.Owns c.shared.db)
    {z : String} {b : ChallengeBody} (ha : h.entry.AnswersChallenge z b) :
    b.Describes cfg c.shared.db z := by
  obtain ⟨⟨a, p, hpc⟩, r, hr, hst, hb⟩ := ha
  have hpc : t.pc = .challenge a z p := hpc
  have hr : seg.next = .respond r := hr
  rcases h.runs with ⟨ch, hseg⟩ | rfl
  case inr => cases hr
  rw [hpc] at hseg ho
  have hseg := Option.some.inj hseg
  subst hseg
  cases p with
  | get =>
      exact ((Seg.Refuses.attempt (.orElse (.http (by decide)))
        fun _ _ => .goto _).map _).not_respond hr hst |>.elim
  | owner authz =>
      obtain ⟨y, hy⟩ := requireParentOwner_of_accepted fun hx => hx.not_respond hr hst
      simp only [challengeSeg, hy, Seg.attempt] at hr
      split at hr
      · cases hr
      · cases Next.respond.inj hr
        cases hb
        exact Db.HasAuthz.describes ho rfl rfl
      · cases Next.respond.inj hr
        cases hb
  | flush authz => cases hr
  | commit authz flush =>
      cases Next.respond.inj hr
      cases hb
      exact Db.HasAuthz.describes ho.1 rfl rfl

/-- What a validation asks for is what its authorization has. -/
theorem validation_asks (h : Reach (relay o cfg) P .init c) (ht : c.tasks i = some t)
    {z id domain token expected : String}
    (hpc : t.pc = .runChallenge z id (.validate domain token expected)) :
    ∃ r, c.shared.db.authorizations.get z = some r ∧ r.orderId = id ∧ r.identifier = domain ∧
      r.challengeToken = some token := by
  have hproves : t.pc.Proves o i c.shared := ((validationSafety o cfg P).reach h).2 i t ht
  rw [hpc] at hproves
  obtain ⟨⟨g, hg, -, -, ⟨r, hr, ho, hi, htok⟩, -⟩, -⟩ := hproves
  obtain ⟨r', hr', hf⟩ := (entry_grows h hg).1.authorizations hr
  obtain ⟨ho', hi', htok'⟩ := Authorization.fixed_eq hf
  exact ⟨r', hr', ho'.trans ho, hi'.trans hi, htok'.trans htok⟩

/-- **The answers about an order agree.**  In every run, an order has one authorization `z` and no
other; whatever was answered about the order shows its one identifier, its expiry, the URL of `z` and the URL to
finalize it at, and no certificate but one of its own; whatever was answered about `z` shows the
identifier, the URL of its challenge and its token; and every validation of `z` asked for that token
under that name. -/
theorem resources_agree (h : Reachable o cfg c) {id : String} {row : Order}
    (hrow : c.shared.db.orders.get id = some row) :
    ∃ z authz, c.shared.db.authorizations.get z = some authz ∧ authz.orderId = id ∧
      (∀ z' authz', c.shared.db.authorizations.get z' = some authz' → authz'.orderId = id →
        z' = z) ∧
      row.identifiers = [⟨"dns", authz.identifier⟩] ∧
      (∀ e ∈ c.shared.log, ∀ b, e.AnswersOrder id b →
        b.identifiers = row.identifiers ∧ b.expires = row.expiresAt ∧
        b.authorizations = [authzUrl cfg z] ∧ b.finalize = orderUrl cfg id ++ "/finalize" ∧
        ∀ url, b.certificate = some url → ∃ k, url = certUrl cfg k ∧ c.shared.db.CertOf k id) ∧
      (∀ e ∈ c.shared.log, ∀ b, e.AnswersAuthz z b →
        b.identifier = ⟨"dns", authz.identifier⟩ ∧
        b.challenge.url = cfg.relayBaseUrl ++ "/acme/challenge/" ++ z ∧
        b.challenge.token = authz.challengeToken.getD "") ∧
      (∀ e ∈ c.shared.log, ∀ b, e.AnswersChallenge z b →
        b.url = cfg.relayBaseUrl ++ "/acme/challenge/" ++ z ∧
        b.token = authz.challengeToken.getD "") ∧
      ∀ e ∈ c.shared.log, ∀ id' domain token expected,
        e.pc = .runChallenge z id' (.validate domain token expected) →
        id' = id ∧ domain = authz.identifier ∧ authz.challengeToken = some token := by
  obtain ⟨z, authz, hauthz, rfl⟩ := ((linksSafety o cfg _).reach h).1 id row hrow
  have hident : row.identifiers = [⟨"dns", authz.identifier⟩] := by
    obtain ⟨order, horder, hident⟩ := (linked h).order hauthz
    rw [hrow] at horder
    cases horder
    exact hident
  have hturn : ∀ e ∈ c.shared.log, ∃ c₀ i t seg out, ∃ hturn : Turn o cfg c₀ i t seg out,
      Reachable o cfg c₀ ∧ e = hturn.entry ∧ c₀.shared.db.Grows c.shared.db ∧
        out.shared.db.Grows c.shared.db := by
    intro e he
    obtain ⟨l₂, l₁, hl⟩ := List.append_of_mem he
    obtain ⟨c₀, i, t, seg, out, hturn, hr₀, -, rfl⟩ := entry_turn h hl
    exact ⟨c₀, i, t, seg, out, hturn, hr₀, rfl, entry_grows h he⟩
  have honly : ∀ z' authz', c.shared.db.authorizations.get z' = some authz' →
      authz'.orderId = authz.orderId → z' = z :=
    fun z' authz' hz' ho => (linked h).unique hz' hauthz ho
  refine ⟨z, authz, hauthz, rfl, honly, hident, fun e he b hb => ?_, fun e he b hb => ?_,
    fun e he b hb => ?_, fun e he id' domain token expected hpc => ?_⟩
  · obtain ⟨c₀, i, t, seg, out, hturn, hr₀, rfl, -, hpost⟩ := hturn e he
    obtain ⟨hequip, hloaded⟩ := (linksSafety o cfg _).reach hr₀
    obtain ⟨w, hw, hd⟩ := hturn.answers_order (Jackdaw.knows hr₀ hturn.task) (linked hr₀) hequip
      (hloaded i t hturn.task) hb
    have hd := hd.grows hpost
    obtain ⟨row', hrow', hi, hx⟩ := hd.row
    rw [hrow] at hrow'
    cases hrow'
    -- the order has no other authorization
    obtain ⟨q, hq, hid⟩ := hw.grows hpost
    obtain rfl := (linked h).unique hq hauthz hid
    exact ⟨hi, hx, hd.authorizations, hd.finalize, hd.certificate⟩
  · obtain ⟨c₀, i, t, seg, out, hturn, hr₀, rfl, hpre, -⟩ := hturn e he
    obtain ⟨⟨q, hq, hi⟩, hurl, q', hq', htok⟩ :=
      (hturn.answers_authz (entitled hr₀ hturn.task).owns hb).grows hpre
    rw [hauthz] at hq hq'
    cases hq
    cases hq'
    exact ⟨hi, hurl, htok⟩
  · obtain ⟨c₀, i, t, seg, out, hturn, hr₀, rfl, hpre, -⟩ := hturn e he
    obtain ⟨hurl, q, hq, htok⟩ :=
      (hturn.answers_challenge (entitled hr₀ hturn.task).owns hb).grows hpre
    rw [hauthz] at hq
    cases hq
    exact ⟨hurl, htok⟩
  · obtain ⟨c₀, i, t, seg, out, hturn, hr₀, rfl, hpre, -⟩ := hturn e he
    obtain ⟨q, hq, ho, hi, htok⟩ := validation_asks hr₀ hturn.task hpc
    obtain ⟨q', hq', hf⟩ := hpre.authorizations hq
    obtain ⟨ho', hi', htok'⟩ := Authorization.fixed_eq hf
    rw [hauthz] at hq'
    cases hq'
    exact ⟨(ho'.trans ho).symm, (hi'.trans hi).symm, htok'.trans htok⟩

end

theorem resources_agree_run :
    ∃ c row, Demo.run (fun _ _ => true) Demo.certifiedOrder = some c ∧
      c.shared.db.orders.get (Demo.uuid 3) = some row ∧
      ∃ z, ∀ e ∈ c.shared.log, ∀ b, e.AnswersOrder (Demo.uuid 3) b →
        b.identifiers = row.identifiers ∧ b.authorizations = [authzUrl Demo.settings z] := by
  obtain ⟨c, hc, ⟨row, hrow, -⟩, -⟩ := Demo.certifiedOrder_run
  obtain ⟨z, -, -, -, -, -, horder, -⟩ :=
    resources_agree (Demo.reach (fun _ _ => trivial) hc) hrow
  refine ⟨c, row, hc, hrow, z, fun e he b hb => ?_⟩
  obtain ⟨hi, -, hz, -⟩ := horder e he b hb
  exact ⟨hi, hz⟩

end Jackdaw
