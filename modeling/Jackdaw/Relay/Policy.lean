import Jackdaw.Dns.Zone
import Jackdaw.Relay.Rows

/-!
# Relay — the domain policy

Where `ALLOWED_DOMAINS` names domains, `new_order` accepts what falls under one of them.  The test
compares texts; what it decides is a relation of labels (`Under`), the one `_apex_domain` uses to
choose a zone.

* `checkDomainPolicy_ok_iff`: the test is the one on labels.
* `not_under_of_text`: ending with the text of a domain is not enough.
* `stored_permitted`: whatever the relay does, what it stores is permitted.
-/

namespace Jackdaw

open Support Support.Interleave

/-- The policy permits the name: it falls under an allowed domain. -/
def Settings.Permits (cfg : Settings) (name : String) : Prop :=
  ∃ base ∈ cfg.allowedDomainList, Under name base

section Policy

variable {o : Oracle} {cfg : Settings} {ids : List Identifier}

theorem underAllowed_iff {name : String} :
    underAllowed cfg.allowedDomainList name = true ↔ cfg.Permits name := by
  rw [underAllowed, List.any_eq_true]
  exact exists_congr fun base => and_congr_right fun _ => under_iff

/-- A request is refused with the identifier the policy does not permit. -/
theorem checkDomainPolicy_cases (o : Oracle) (hne : cfg.allowedDomainList ≠ [])
    (ids : List Identifier) : (∀ i ∈ ids, cfg.Permits i.value) ∧ checkDomainPolicy o cfg ids = .ok () ∨
      ∃ i ∈ ids, ¬ cfg.Permits i.value ∧ checkDomainPolicy o cfg ids =
        .error (.http 403 (.problem AcmeErrors.rejectedIdentifier
          ("Domain " ++ o.repr (.str i.value) ++ " is not under an allowed base domain"))) := by
  have hempty : ¬ cfg.allowedDomainList.isEmpty = true := fun h => hne (List.isEmpty_iff.mp h)
  rw [checkDomainPolicy, if_neg hempty]
  cases hfind : ids.find? fun i => !underAllowed cfg.allowedDomainList i.value with
  | none =>
      refine .inl ⟨fun i hi => underAllowed_iff.mp ?_, rfl⟩
      simpa using List.find?_eq_none.mp hfind i hi
  | some i =>
      refine .inr ⟨i, List.mem_of_find?_eq_some hfind, fun hp => ?_, rfl⟩
      have hno := List.find?_some hfind
      rw [underAllowed_iff.mpr hp] at hno
      cases hno

/-- **The test is the one on labels.** -/
theorem checkDomainPolicy_ok_iff (hne : cfg.allowedDomainList ≠ []) :
    checkDomainPolicy o cfg ids = .ok () ↔ ∀ i ∈ ids, cfg.Permits i.value := by
  rcases checkDomainPolicy_cases o hne ids with ⟨hall, hok⟩ | ⟨i, hi, hno, herr⟩
  · exact iff_of_true hok hall
  · rw [herr]
    exact iff_of_false nofun fun hall => hno (hall i hi)

/-- **Ending with the text of a domain is not enough**, unless a dot stands before it. -/
theorem not_under_of_text {p base : String} (hp : p ≠ "") (hdot : p.toList.getLast? ≠ some '.') :
    ¬ Under (p ++ base) base := by
  intro h
  rcases Text.split_suffix_iff.mp h with e | ⟨q, hq⟩
  · have hlen := congrArg (fun s => s.toList.length) e
    simp only [String.toList_append, List.length_append] at hlen
    exact hp (String.toList_eq_nil_iff.mp (List.eq_nil_of_length_eq_zero (by omega)))
  · rw [String.toList_append, ← List.singleton_append, ← List.append_assoc] at hq
    rw [List.append_cancel_right hq] at hdot
    simp at hdot

/-- A request with an identifier that is not permitted ends where it is checked. -/
theorem newOrderStart_of_rejected (hne : cfg.allowedDomainList ≠ []) {payload : Json}
    (hids : newOrderRequest payload = some ids) (hno : ∃ i ∈ ids, ¬ cfg.Permits i.value)
    (a : String) (now : Int) (ch : Choice) :
    ∃ e, newOrderStart o cfg a payload now ch = some (.fail e) := by
  obtain ⟨i, hi, hno⟩ := hno
  have hrejected : checkDomainPolicy o cfg ids ≠ .ok () := fun hok =>
    hno ((checkDomainPolicy_ok_iff hne).mp hok i hi)
  simp only [newOrderStart, hids]
  split
  · exact ⟨_, rfl⟩
  · next hok =>
      obtain ⟨_, -, hok⟩ := ok_of_bind hok
      exact absurd hok hrejected

end Policy

/-! ### Runs -/

/-- The identifiers a `new_order` has checked. -/
def Pc.checked : Pc → List Identifier
  | .newOrder _ (.count ids _) => ids
  | .newOrder _ (.commit _ row _) => row.identifiers
  | _ => []

/-- What is stored is permitted. -/
def Db.Permitted (cfg : Settings) (db : Db) : Prop :=
  ∀ id row, db.orders.get id = some row → ∀ i ∈ row.identifiers, cfg.Permits i.value

section Runs

variable {o : Oracle} {cfg : Settings} {P : Relay → Relay → Prop} {c : Relay} {i : Nat} {t u : Task}
  {seg : Seg Pc} {out : Outcome Shared Task} {id : String}

theorem placeOrder_checked {a : String} {ids : List Identifier} {now : Int} {ch : Choice}
    {seg : Seg NewOrderPc} (h : placeOrder a ids now ch = some seg) :
    seg.Reads fun p => (Pc.newOrder a p).checked = ids := by
  unfold placeOrder at h
  split at h
  · cases Option.some.inj h
    exact .goto rfl
  · cases h

theorem newOrderStart_checked (hne : cfg.allowedDomainList ≠ []) {a : String} {payload : Json}
    {now : Int} {ch : Choice} {seg : Seg NewOrderPc}
    (h : newOrderStart o cfg a payload now ch = some seg) :
    seg.Reads fun p => ∀ i ∈ (Pc.newOrder a p).checked, cfg.Permits i.value := by
  unfold newOrderStart at h
  split at h
  · cases Option.some.inj h
    exact .fail _
  · split at h
    · cases Option.some.inj h
      exact .fail _
    · rename_i hok
      obtain ⟨_, -, hok⟩ := ok_of_bind hok
      have hall := (checkDomainPolicy_ok_iff hne).mp hok
      split at h
      · cases Option.some.inj h
        exact .goto hall
      · exact (placeOrder_checked h).mono fun p hp => hp ▸ hall

theorem Pc.isStart_checked {p : Pc} (h : p.isStart = true) : p.checked = [] := by
  unfold Pc.isStart at h
  split at h <;> first | rfl | cases h

/-- The handler of a route starts with identifiers that are permitted, if with any. -/
theorem routeStart_checked (hne : cfg.allowedDomainList ≠ []) {req : Request} {a : String}
    {payload : Json} {now : Int} {ch : Choice}
    (h : routeStart o cfg req a payload now ch = some seg) :
    seg.Reads fun p => ∀ i ∈ p.checked, cfg.Permits i.value := by
  rcases routeStart_cases h with ⟨seg', -, h', rfl⟩ | hr
  · exact (newOrderStart_checked hne h').map _
  · exact hr.mono fun p hp i hi => by rw [p.isStart_checked hp.1] at hi; cases hi

/-- **A task carries permitted identifiers** from where it has checked them. -/
theorem Turn.checked (hne : cfg.allowedDomainList ≠ []) (h : Turn o cfg c i t seg out)
    (hok : ∀ i ∈ t.pc.checked, cfg.Permits i.value) (hu : out.self = some u) :
    ∀ i ∈ u.pc.checked, cfg.Permits i.value := by
  obtain ⟨ch, hseg⟩ := h.goes_on hu
  have hn := (h.self hu).1
  intro x hx
  by_cases hnew : ∃ a p, u.pc = .newOrder a p
  · obtain ⟨a, p, hp⟩ := hnew
    cases hpc : t.pc with
    | jws req q =>
        rw [hpc] at hseg
        rcases jwsSeg_goto hseg hn with ⟨p', e⟩ | ⟨-, b, payload, rowcount, rfl, -⟩
        · rw [hp] at e
          cases e
        · simp only [Pc.seg, jwsSeg] at hseg
          split at hseg
          · cases Option.some.inj hseg
            exact absurd hn ((Seg.fail_quiet _).next _)
          · obtain ⟨seg', h', rfl⟩ := Option.map_eq_some_iff.mp hseg
            exact (routeStart_checked hne h').of_goto hn x hx
    | newOrder b q =>
        rw [hpc] at hseg hok
        obtain ⟨seg', h', rfl⟩ := Option.map_eq_some_iff.mp hseg
        cases q with
        | count ids start =>
            obtain ⟨q', hn', e⟩ := Next.map_eq_goto hn
            simp only [newOrderSeg] at h'
            split at h'
            · cases Option.some.inj h'
              exact absurd hn' ((Seg.fail_quiet _).next _)
            · rw [e] at hx
              refine hok x ?_
              rw [← (placeOrder_checked h').of_goto hn']
              exact hx
        | commit id row authzs =>
            cases Option.some.inj h'
            cases hn
    | _ =>
        rcases h.coroutine hu with e | ⟨req, b, payload, rowcount, e, -⟩
        · rw [hp, hpc] at e
          cases e
        · rw [hpc] at e
          cases e
  · unfold Pc.checked at hx
    split at hx
    · exact absurd ⟨_, _, by assumption⟩ hnew
    · exact absurd ⟨_, _, by assumption⟩ hnew
    · cases hx

/-- An order that appears is one a `new_order` commits. -/
theorem Turn.order_committed (h : Turn o cfg c i t seg out) {row : Order}
    (hrow : out.shared.db.orders.get id = some row) :
    (∃ r, c.shared.db.orders.get id = some r ∧ row.identifiers = r.identifiers) ∨
      ∀ x ∈ row.identifiers, x ∈ t.pc.checked := by
  rcases h.order_from hrow with ⟨r, hr, hf⟩ | ⟨-, p, hpc⟩
  · exact .inl ⟨r, hr, (Order.fixed_eq hf).2.1⟩
  rcases h.committed with e | ⟨hc, -⟩
  · exact .inl ⟨row, by rw [← e]; exact hrow, rfl⟩
  cases p with
  | count ids start =>
      obtain ⟨ch, hseg⟩ := h.commits hc
      rw [hpc] at hseg
      obtain ⟨seg', h', rfl⟩ := Option.map_eq_some_iff.mp hseg
      simp only [newOrderSeg] at h'
      split at h'
      · cases Option.some.inj h'
        cases hc
      · rw [Seg.map_commit, (placeOrder_reads h').commit] at hc
        cases hc
  | commit k placed authzs =>
      rw [h.places_order hpc hc] at hrow
      split at hrow
      · cases hrow
        rw [hpc]
        exact .inr fun x hx => hx
      · exact .inl ⟨row, hrow, rfl⟩

def policySafety (o : Oracle) {cfg : Settings} (hne : cfg.allowedDomainList ≠ [])
    (P : Relay → Relay → Prop) : Safety o cfg P where
  Inv _ s := s.db.Permitted cfg
  Ok _ _ t := ∀ i ∈ t.pc.checked, cfg.Permits i.value
  start := nofun
  run _ h _ hI hok := by
    refine ⟨fun id row hrow x hx => ?_, fun u hu => h.checked hne hok hu, fun b _ => ?_⟩
    · rcases h.order_committed hrow with ⟨r, hr, e⟩ | hfrom
      · exact hI id r hr x (e ▸ hx)
      · exact hok x (hfrom x hx)
    · cases b <;> exact List.forall_mem_nil _
  others _ _ _ _ _ _ _ hu := hu
  request _ _ _ hpc := by
    rcases hpc with ⟨req, e⟩ | ⟨p, e⟩ | ⟨cutoff, e⟩ <;> rw [e] <;> exact List.forall_mem_nil _
  fresh hI := hI
  clock _ hI := ⟨hI, fun _ _ h => h⟩
  restart hI := ⟨hI, List.forall_mem_nil _⟩

/-- **What is stored is permitted**, in every run of the relay: no order, and no authorization, is
written for a name the policy does not permit. -/
theorem stored_permitted (hne : cfg.allowedDomainList ≠ []) (h : Reach (relay o cfg) P .init c) :
    c.shared.db.Permitted cfg ∧
    ∀ z row, c.shared.db.authorizations.get z = some row → cfg.Permits row.identifier := by
  have hI : c.shared.db.Permitted cfg := ((policySafety o hne P).reach h).1
  refine ⟨hI, fun z row hrow => ?_⟩
  obtain ⟨order, horder, hids⟩ := (linked h).order hrow
  exact hI _ order horder ⟨"dns", row.identifier⟩ (hids ▸ List.mem_singleton_self _)

/-- **The domain policy is label-wise.**  Names are accepted exactly where the labels of an allowed
domain end the labels of each; what ends with the text of one only is not; and with a name that is
rejected `new_order` stops before its first statement, so that nothing is ever stored for one. -/
theorem domain_policy_labelwise (o : Oracle) (hne : cfg.allowedDomainList ≠ []) :
    (∀ ids, checkDomainPolicy o cfg ids = .ok () ↔
      ∀ i ∈ ids, ∃ base ∈ cfg.allowedDomainList, labels base <:+ labels i.value) ∧
    (∀ p base : String, p ≠ "" → p.toList.getLast? ≠ some '.' →
      ¬ labels base <:+ labels (p ++ base)) ∧
    (∀ payload ids, newOrderRequest payload = some ids →
      (∃ i ∈ ids, ¬ ∃ base ∈ cfg.allowedDomainList, labels base <:+ labels i.value) →
      ∀ a now ch, ∃ e, newOrderStart o cfg a payload now ch = some (.fail e)) ∧
    ∀ c, Reachable o cfg c →
      (∀ id row, c.shared.db.orders.get id = some row → ∀ i ∈ row.identifiers,
        ∃ base ∈ cfg.allowedDomainList, labels base <:+ labels i.value) ∧
      ∀ z row, c.shared.db.authorizations.get z = some row →
        ∃ base ∈ cfg.allowedDomainList, labels base <:+ labels row.identifier :=
  ⟨fun _ => checkDomainPolicy_ok_iff hne, fun _ _ hp hdot => not_under_of_text hp hdot,
    fun _ _ hids hno a now ch => newOrderStart_of_rejected hne hids hno a now ch,
    fun _ h => stored_permitted hne h⟩

/-- A subdomain is accepted, and a name that only ends with the text is not. -/
theorem subdomain_accepted :
    ({ Demo.settings with allowedDomains := " example.com, " } : Settings).allowedDomainList ≠ [] ∧
    checkDomainPolicy Demo.oracle { Demo.settings with allowedDomains := " example.com, " }
      [⟨"dns", "www.example.com"⟩] = .ok () ∧
    checkDomainPolicy Demo.oracle { Demo.settings with allowedDomains := " example.com, " }
      [⟨"dns", "badexample.com"⟩] ≠ .ok () := by
  have hlist : ({ Demo.settings with allowedDomains := " example.com, " } :
      Settings).allowedDomainList = ["example.com"] := by decide +kernel
  have hne : ({ Demo.settings with allowedDomains := " example.com, " } :
      Settings).allowedDomainList ≠ [] := by rw [hlist]; exact List.cons_ne_nil _ _
  obtain ⟨hiff, htext, -⟩ := domain_policy_labelwise Demo.oracle hne
  refine ⟨hne, (hiff _).mpr ?_, fun hok => ?_⟩
  · intro i hi
    rw [List.mem_singleton.mp hi, hlist]
    exact ⟨"example.com", List.mem_singleton_self _, by decide +kernel⟩
  · obtain ⟨base, hbase, hsuffix⟩ := (hiff _).mp hok _ (List.mem_singleton_self _)
    rw [hlist] at hbase
    rw [List.mem_singleton.mp hbase] at hsuffix
    exact htext "bad" "example.com" (by decide) (by decide) hsuffix

end Runs

end Jackdaw
