import Mathlib.Data.List.Nodup
import Jackdaw.Dns.Namecheap

/-!
# Dns — Providers

`porkbun.py`, `cloudflare.py` and `route53.py` next to Namecheap, each against what its API does
with the records it keeps, and the zone all of them are to change in the same way.

* `lingering_harmless_iff`: `set_txt` adds its value to what stands at the name, and `delete_txt`
  then leaves nothing there, with every other record as it was, exactly where the state of the
  account allows it: always at Porkbun and Namecheap, at Cloudflare where all TXT records of the name
  fit on one page of the listing, and at Route 53 only where the name has no TXT record set yet.
  `CREATE` does not add to a record set that exists, so there a lingering record makes every later
  `set_txt` fail (`lingering_harmful`).
-/

namespace Jackdaw

open Support

/-! ### Zones -/

/-- A record of a zone. -/
structure Rr where
  value : String
  ttl : String
deriving DecidableEq

/-- The records of a zone, by name and type. -/
abbrev Zone := String → String → List Rr

/-- A TXT value is added at a name, and nothing else changes. -/
def Zone.AddsTxt (z z' : Zone) (name value : String) : Prop :=
  (∃ ttl, z' name "TXT" = z name "TXT" ++ [⟨value, ttl⟩]) ∧
    ∀ n t, (n, t) ≠ (name, "TXT") → z' n t = z n t

/-- The TXT values at a name are gone, and nothing else changes. -/
def Zone.ClearsTxt (z z' : Zone) (name : String) : Prop :=
  z' name "TXT" = [] ∧ ∀ n t, (n, t) ≠ (name, "TXT") → z' n t = z n t

/-- The name of a challenge: `_acme-challenge` in front of a host in a registered domain. -/
structure Challenge where
  apex : String
  /-- What stands before the apex in the host, if it is not the apex itself. -/
  sub : Option String
  dotted : '.' ∈ apex.toList
  noFinalDot : apex.toList.getLast? ≠ some '.'

/-- The name, relative to the apex. -/
def Challenge.rel (c : Challenge) : String :=
  match c.sub with
  | none => "_acme-challenge"
  | some sub => "_acme-challenge." ++ sub

/-- The full name. -/
def Challenge.name (c : Challenge) : String := c.rel ++ ("." ++ c.apex)

theorem Challenge.relName_eq (c : Challenge) : relName c.apex c.name = c.rel :=
  Text.removeSuffix_append ..

/-! ### Porkbun and Cloudflare -/

/-- A record of the account. -/
structure ApiRecord where
  id : Nat
  name : String
  type : String
  content : String
  ttl : String

/-- The records of the account; the API gives each an id of its own. -/
structure RecordStore where
  records : List ApiRecord
  nextId : Nat
  lt_nextId : ∀ r ∈ records, r.id < nextId
  nodup : (records.map (·.id)).Nodup

namespace RecordStore

/-- Creating a record adds it. -/
def create (s : RecordStore) (name type content ttl : String) : RecordStore where
  records := s.records ++ [⟨s.nextId, name, type, content, ttl⟩]
  nextId := s.nextId + 1
  lt_nextId := by
    intro r hr
    rcases List.mem_append.mp hr with hr | hr
    · exact Nat.lt_succ_of_lt (s.lt_nextId r hr)
    · rw [List.mem_singleton.mp hr]
      exact Nat.lt_succ_self _
  nodup := by
    rw [List.map_append, List.map_singleton, List.nodup_append]
    refine ⟨s.nodup, List.nodup_singleton _, ?_⟩
    intro a ha b hb
    obtain ⟨r, hr, rfl⟩ := List.mem_map.mp ha
    rw [List.mem_singleton.mp hb]
    exact Nat.ne_of_lt (s.lt_nextId r hr)

/-- The records of a name and type. -/
def list (s : RecordStore) (name type : String) : List ApiRecord :=
  s.records.filter fun r => r.name = name && r.type = type

/-- Deleting a record by its id. -/
def delete (s : RecordStore) (id : Nat) : Except String RecordStore :=
  if id ∈ s.records.map (·.id) then
    .ok {
      records := s.records.filter fun r => r.id ≠ id
      nextId := s.nextId
      lt_nextId := fun r hr => s.lt_nextId r (List.mem_of_mem_filter hr)
      nodup := s.nodup.sublist (List.filter_sublist.map _) }
  else .error "record not found"

def zone (s : RecordStore) : Zone := fun name type =>
  (s.list name type).map fun r => ⟨r.content, r.ttl⟩

end RecordStore

/-- `CloudflareDNSProvider.set_txt`, in the zone `_get_zone_id` finds. -/
def Cloudflare.setTxt (s : RecordStore) (name value : String) : Except String RecordStore :=
  .ok (s.create name "TXT" value "120")

/-- The loop of `CloudflareDNSProvider.delete_txt`. -/
def Cloudflare.deleteRecords (s : RecordStore) : List ApiRecord → Except String RecordStore
  | [] => .ok s
  | r :: rs => do
      let s ← s.delete r.id
      deleteRecords s rs

/-- `CloudflareDNSProvider.delete_txt`; the API lists `perPage` records at most. -/
def Cloudflare.deleteTxt (perPage : Nat) (s : RecordStore) (name : String) :
    Except String RecordStore :=
  Cloudflare.deleteRecords s ((s.list name "TXT").take perPage)

/-- The full name of a Porkbun subdomain. -/
def Porkbun.fullName (domain subdomain : String) : String :=
  if subdomain = "" then domain else subdomain ++ ("." ++ domain)

/-- `PorkbunDNSProvider.set_txt`. -/
def Porkbun.setTxt (s : RecordStore) (domain name value : String) : Except String RecordStore :=
  .ok (s.create (Porkbun.fullName domain (relName domain name)) "TXT" value "120")

/-- The loop of `PorkbunDNSProvider.delete_txt`, which does not look at the answers. -/
def Porkbun.deleteRecords (s : RecordStore) : List ApiRecord → RecordStore
  | [] => s
  | r :: rs => match s.delete r.id with
      | .ok s' => deleteRecords s' rs
      | .error _ => deleteRecords s rs

/-- `PorkbunDNSProvider.delete_txt`. -/
def Porkbun.deleteTxt (s : RecordStore) (domain name : String) : Except String RecordStore :=
  .ok (Porkbun.deleteRecords s (s.list (Porkbun.fullName domain (relName domain name)) "TXT"))

/-! ### Route 53 -/

/-- A record set: the values as they are written, and their TTL. -/
structure RecordSet where
  ttl : String
  values : List String
deriving DecidableEq

/-- The record sets of a hosted zone, and the one the listing goes on to behind a name without TXT
records. -/
structure HostedZone where
  sets : String → String → Option RecordSet
  after : String → Option (String × RecordSet)

inductive ChangeAction where
  | create
  | delete

/-- The change `_change_xml` asks for, of a TXT record set with a TTL of 120. -/
structure Change where
  action : ChangeAction
  name : String
  set : RecordSet

/-- `_change_xml`. -/
def changeXml (action : ChangeAction) (name : String) (values : List String) : Change :=
  ⟨action, name ++ ".", ⟨"120", values⟩⟩

/-- The zone with another TXT record set at a name. -/
def HostedZone.put (z : HostedZone) (name : String) (set : Option RecordSet) : HostedZone :=
  { z with sets := fun n t => if n = name ∧ t = "TXT" then set else z.sets n t }

/-- `ChangeResourceRecordSets`: `CREATE` fails where the record set exists, `DELETE` where it is not
exactly the one given. -/
def HostedZone.change (z : HostedZone) (c : Change) : Except String HostedZone :=
  let name := Text.removeSuffix c.name "."
  match c.action with
  | .create =>
      if (z.sets name "TXT").isSome then .error "already exists" else .ok (z.put name (some c.set))
  | .delete =>
      if z.sets name "TXT" = some c.set then .ok (z.put name none) else .error "not found"

/-- The listing from a name and `TXT` on, its first entry: a name with a final dot, and its values. -/
def HostedZone.listFrom (z : HostedZone) (name : String) : Option (String × RecordSet) :=
  match z.sets name "TXT" with
  | some set => some (name ++ ".", set)
  | none => z.after name

/-- `s.lower()`, of ASCII text. -/
def lower (s : String) : String := String.ofList (s.toList.map Char.toLower)

/-- `Route53DNSProvider.set_txt`, in the zone `_zone_id` finds. -/
def Route53.setTxt (z : HostedZone) (name value : String) : Except String HostedZone :=
  z.change (changeXml .create name ["\"" ++ value ++ "\""])

/-- `Route53DNSProvider.delete_txt`. -/
def Route53.deleteTxt (z : HostedZone) (name : String) : Except String HostedZone :=
  match z.listFrom name with
  | none => .ok z
  | some (rrsetName, set) =>
      if lower (Text.rstripChar rrsetName '.') ≠ lower name then .ok z
      else z.change (changeXml .delete name set.values)

/-- The text a TXT value is written for, without its quotes. -/
def unquote (text : String) : String := String.ofList (text.toList.tail.dropLast)

def HostedZone.zone (z : HostedZone) : Zone := fun name type =>
  match z.sets name type with
  | none => []
  | some set => set.values.map fun v => ⟨unquote v, set.ttl⟩

/-! ### Namecheap -/

/-- The full name of a Namecheap host. -/
def Namecheap.fullName (domain host : String) : String :=
  if host = "@" then domain else host ++ ("." ++ domain)

/-- `set_txt` or `delete_txt` of `NamecheapDNSProvider`, with its calls one after the other. -/
def Namecheap.run (nc : Namecheap) (domain : String) (hosts : List Host) (op : TxtOp) :
    Except String (List Host) :=
  match splitDomain domain with
  | none => .error "not enough values to unpack"
  | some (sld, tld) =>
      match op.change domain ((hosts.map Host.element).map parseHost) with
      | some changed => .ok (setHosts (nc.setHostsParams sld tld changed))
      | none => .ok hosts

def Namecheap.zone (domain : String) (hosts : List Host) : Zone := fun name type =>
  (hosts.filter fun h => Namecheap.fullName domain h.name = name && h.type = type).map
    fun h => ⟨h.address, h.ttl⟩

/-! ### The records of an account -/

variable {s s' : RecordStore} {name value domain : String} {rs : List ApiRecord} {c : Challenge}

theorem RecordStore.list_create (s : RecordStore) (name type content ttl n t : String) :
    (s.create name type content ttl).list n t = s.list n t ++
      if n = name ∧ t = type then [⟨s.nextId, name, type, content, ttl⟩] else [] := by
  rw [list, create, List.filter_append]
  by_cases h : n = name ∧ t = type
  · obtain ⟨rfl, rfl⟩ := h
    simp [list]
  · have hne : ¬ (name = n ∧ type = t) := fun e => h ⟨e.1.symm, e.2.symm⟩
    simp [list, h, hne]

/-- Creating a TXT record adds it to the zone. -/
theorem RecordStore.addsTxt_create (s : RecordStore) (name value : String) :
    Zone.AddsTxt s.zone (s.create name "TXT" value "120").zone name value := by
  refine ⟨⟨"120", ?_⟩, fun n t hne => ?_⟩
  · simp [zone, list_create]
  · have hnot : ¬ (n = name ∧ t = "TXT") := fun e => hne (by rw [e.1, e.2])
    simp [zone, list_create, hnot]

theorem RecordStore.eq_of_id {r r' : ApiRecord} (hr : r ∈ s.records) (hr' : r' ∈ s.records)
    (h : r.id = r'.id) : r = r' :=
  List.inj_on_of_nodup_map s.nodup hr hr' h

/-- Records that are there are deleted, by the loop that looks at the answers and by the one that
does not. -/
theorem deleteRecords_ok (s : RecordStore) (rs : List ApiRecord) (hnodup : (rs.map (·.id)).Nodup)
    (hmem : ∀ r ∈ rs, r.id ∈ s.records.map (·.id)) :
    ∃ s', Cloudflare.deleteRecords s rs = .ok s' ∧ Porkbun.deleteRecords s rs = s' ∧
      s'.records = s.records.filter fun r => r.id ∉ rs.map (·.id) := by
  induction rs generalizing s with
  | nil => exact ⟨s, rfl, rfl, by simp⟩
  | cons r rs ih =>
      rw [List.map_cons, List.nodup_cons] at hnodup
      obtain ⟨s₁, hdelete, hrecords⟩ : ∃ s₁, s.delete r.id = .ok s₁ ∧
          s₁.records = s.records.filter fun x => x.id ≠ r.id :=
        ⟨_, if_pos (hmem r List.mem_cons_self), rfl⟩
      have hmem₁ : ∀ x ∈ rs, x.id ∈ s₁.records.map (·.id) := by
        intro x hx
        obtain ⟨y, hy, hid⟩ := List.mem_map.mp (hmem x (List.mem_cons_of_mem _ hx))
        refine List.mem_map.mpr ⟨y, ?_, hid⟩
        rw [hrecords]
        refine List.mem_filter.mpr ⟨hy, decide_eq_true fun e => hnodup.1 ?_⟩
        rw [← e, hid]
        exact List.mem_map_of_mem hx
      obtain ⟨s', hcloudflare, hporkbun, hrest⟩ := ih s₁ hnodup.2 hmem₁
      refine ⟨s', ?_, ?_, ?_⟩
      · simp only [Cloudflare.deleteRecords, hdelete, bind, Except.bind, hcloudflare]
      · simp only [Porkbun.deleteRecords, hdelete, hporkbun]
      · rw [hrest, hrecords, List.filter_filter]
        refine List.filter_congr fun x _ => ?_
        by_cases e : x.id = r.id
        · simp [e]
        · simp [e]

/-- Deleting TXT records of a name leaves all others. -/
theorem list_of_deleted (hsub : ∀ r ∈ rs, r ∈ s.list name "TXT")
    (h : s'.records = s.records.filter fun r => r.id ∉ rs.map (·.id)) {n t : String}
    (hne : (n, t) ≠ (name, "TXT")) : s'.list n t = s.list n t := by
  rw [RecordStore.list, h, List.filter_filter]
  refine List.filter_congr fun r hr => ?_
  by_cases hr' : (r.name = n && r.type = t) = true
  · have hnot : r.id ∉ rs.map (·.id) := by
      intro hid
      obtain ⟨x, hx, hid⟩ := List.mem_map.mp hid
      have hlisted := List.mem_filter.mp (hsub x hx)
      cases s.eq_of_id hr hlisted.1 hid.symm
      simp only [Bool.and_eq_true, decide_eq_true_eq] at hr' hlisted
      exact hne (by rw [← hr'.1, ← hr'.2, hlisted.2.1, hlisted.2.2])
    simp [hr', hnot]
  · simp only [Bool.not_eq_true] at hr'
    simp [hr']

theorem nodup_list_ids (s : RecordStore) (n t : String) : ((s.list n t).map (·.id)).Nodup :=
  s.nodup.sublist (List.filter_sublist.map _)

theorem mem_ids_of_list {n t : String} {r : ApiRecord} (h : r ∈ s.list n t) :
    r.id ∈ s.records.map (·.id) :=
  List.mem_map_of_mem (List.mem_of_mem_filter h)

/-- Deleting all of them leaves none. -/
theorem clearsTxt_of_deleted
    (h : s'.records = s.records.filter fun r => r.id ∉ (s.list name "TXT").map (·.id)) :
    Zone.ClearsTxt s.zone s'.zone name := by
  refine ⟨?_, fun n t hne => ?_⟩
  · have hnil : s'.list name "TXT" = [] := by
      rw [RecordStore.list, h, List.filter_filter, List.filter_eq_nil_iff]
      intro r hr hboth
      simp only [Bool.and_eq_true, decide_eq_true_eq] at hboth
      refine hboth.2 (List.mem_map_of_mem (List.mem_filter.mpr ⟨hr, ?_⟩))
      simp [hboth.1]
    rw [RecordStore.zone, hnil]
    rfl
  · unfold RecordStore.zone
    rw [list_of_deleted (fun r hr => hr) h hne]

/-- Deleting a page of them leaves those behind it. -/
theorem mem_list_of_page {perPage : Nat} {r : ApiRecord}
    (h : s'.records = s.records.filter fun r =>
      r.id ∉ ((s.list name "TXT").take perPage).map (·.id))
    (hr : r ∈ (s.list name "TXT").drop perPage) : r ∈ s'.list name "TXT" := by
  have hlisted := List.mem_filter.mp (List.mem_of_mem_drop hr)
  have hnodup := nodup_list_ids s name "TXT"
  rw [← List.take_append_drop perPage (s.list name "TXT"), List.map_append] at hnodup
  have hnot : r.id ∉ ((s.list name "TXT").take perPage).map (·.id) := fun hid =>
    List.disjoint_of_nodup_append hnodup hid (List.mem_map_of_mem hr)
  rw [RecordStore.list, h]
  exact List.mem_filter.mpr ⟨List.mem_filter.mpr ⟨hlisted.1, decide_eq_true hnot⟩, hlisted.2⟩

/-! ### The four of them -/

/-- An account at a provider, with the records it keeps. -/
inductive DnsAccount where
  | porkbun (s : RecordStore)
  | cloudflare (perPage : Nat) (s : RecordStore)
  | route53 (z : HostedZone)
  | namecheap (nc : Namecheap) (hosts : List Host)

namespace DnsAccount

/-- `DNSProvider.set_txt`. -/
def setTxt (domain name value : String) : DnsAccount → Except String DnsAccount
  | .porkbun s => (Porkbun.setTxt s domain name value).map .porkbun
  | .cloudflare perPage s => (Cloudflare.setTxt s name value).map (.cloudflare perPage)
  | .route53 z => (Route53.setTxt z name value).map .route53
  | .namecheap nc hosts => (nc.run domain hosts (.setTxt name value)).map (.namecheap nc)

/-- `DNSProvider.delete_txt`. -/
def deleteTxt (domain name : String) : DnsAccount → Except String DnsAccount
  | .porkbun s => (Porkbun.deleteTxt s domain name).map .porkbun
  | .cloudflare perPage s => (Cloudflare.deleteTxt perPage s name).map (.cloudflare perPage)
  | .route53 z => (Route53.deleteTxt z name).map .route53
  | .namecheap nc hosts => (nc.run domain hosts (.deleteTxt name)).map (.namecheap nc)

/-- The zone of a domain, as the records make it. -/
def zone (domain : String) : DnsAccount → Zone
  | .porkbun s | .cloudflare _ s => s.zone
  | .route53 z => z.zone
  | .namecheap _ hosts => Namecheap.zone domain hosts

end DnsAccount

/-- `set_txt` adds its value to the zone, and `delete_txt` then clears the name. -/
def Harmless (a : DnsAccount) (c : Challenge) (value : String) : Prop :=
  ∃ a₁, a.setTxt c.apex c.name value = .ok a₁ ∧
    Zone.AddsTxt (a.zone c.apex) (a₁.zone c.apex) c.name value ∧
    ∃ a₂, a₁.deleteTxt c.apex c.name = .ok a₂ ∧
      Zone.ClearsTxt (a₁.zone c.apex) (a₂.zone c.apex) c.name

/-- The account has room for one more TXT record at the name: on a page of the Cloudflare listing, and
at Route 53 as its first. -/
def Roomy (c : Challenge) : DnsAccount → Prop
  | .porkbun _ | .namecheap _ _ => True
  | .cloudflare perPage s => (s.list c.name "TXT").length < perPage
  | .route53 z => z.sets c.name "TXT" = none

theorem Challenge.rel_ne (c : Challenge) : c.rel ≠ "" ∧ c.rel ≠ "@" := by
  unfold Challenge.rel
  cases c.sub with
  | none => decide
  | some sub =>
      refine ⟨fun h => ?_, fun h => ?_⟩
      · simpa using congrArg String.toList h
      · simpa using congrArg String.toList h

theorem harmless_porkbun (s : RecordStore) (c : Challenge) (value : String) :
    Harmless (.porkbun s) c value := by
  have hname : Porkbun.fullName c.apex (relName c.apex c.name) = c.name := by
    rw [c.relName_eq, Porkbun.fullName, if_neg c.rel_ne.1, Challenge.name]
  have hset : DnsAccount.setTxt c.apex c.name value (.porkbun s) =
      .ok (.porkbun (s.create c.name "TXT" value "120")) := by
    simp only [DnsAccount.setTxt, Porkbun.setTxt, hname, Except.map]
  refine ⟨_, hset, s.addsTxt_create c.name value, ?_⟩
  obtain ⟨s', -, hdelete, hrecords⟩ := deleteRecords_ok (s.create c.name "TXT" value "120")
    ((s.create c.name "TXT" value "120").list c.name "TXT") (nodup_list_ids ..)
    (fun r hr => mem_ids_of_list hr)
  refine ⟨.porkbun s', ?_, clearsTxt_of_deleted hrecords⟩
  simp only [DnsAccount.deleteTxt, Porkbun.deleteTxt, hname, hdelete, Except.map]

theorem harmless_cloudflare_iff (perPage : Nat) (s : RecordStore) (c : Challenge) (value : String) :
    Harmless (.cloudflare perPage s) c value ↔ Roomy c (.cloudflare perPage s) := by
  obtain ⟨s₁, hs₁⟩ : ∃ s₁, s₁ = s.create c.name "TXT" value "120" := ⟨_, rfl⟩
  have hset : DnsAccount.setTxt c.apex c.name value (.cloudflare perPage s) =
      .ok (.cloudflare perPage s₁) := by
    simp only [DnsAccount.setTxt, Cloudflare.setTxt, Except.map, hs₁]
  have hlength : (s₁.list c.name "TXT").length = (s.list c.name "TXT").length + 1 := by
    simp [hs₁, RecordStore.list_create]
  obtain ⟨s₂, hdelete, -, hrecords⟩ := deleteRecords_ok s₁
    ((s₁.list c.name "TXT").take perPage)
    ((nodup_list_ids s₁ c.name "TXT").sublist ((List.take_sublist _ _).map _))
    (fun r hr => mem_ids_of_list (List.mem_of_mem_take hr))
  have hdel : DnsAccount.deleteTxt c.apex c.name (.cloudflare perPage s₁) =
      .ok (.cloudflare perPage s₂) := by
    simp only [DnsAccount.deleteTxt, Cloudflare.deleteTxt, hdelete, Except.map]
  show _ ↔ (s.list c.name "TXT").length < perPage
  constructor
  · rintro ⟨a₁, hset', -, a₂, hdel', hclear, -⟩
    rw [hset] at hset'
    cases hset'
    rw [hdel] at hdel'
    cases hdel'
    -- A record behind the first page is still there.
    by_contra hfull
    have hlt : perPage < (s₁.list c.name "TXT").length := by omega
    have hmem := mem_list_of_page hrecords (List.drop_eq_getElem_cons hlt ▸ List.mem_cons_self)
    have hnil : s₂.list c.name "TXT" = [] := List.map_eq_nil_iff.mp hclear
    rw [hnil] at hmem
    cases hmem
  · intro hroom
    refine ⟨_, hset, hs₁ ▸ s.addsTxt_create c.name value, _, hdel, ?_⟩
    rw [List.take_of_length_le (by omega)] at hrecords
    exact clearsTxt_of_deleted hrecords

/-! #### Route 53 -/

/-- The name comes back from the listing with a final dot, and has none of its own. -/
theorem Challenge.rstrip_name (c : Challenge) :
    Text.rstripChar (c.name ++ ".") '.' = c.name := by
  have hne : c.apex.toList ≠ [] := fun h => by
    have hdot := c.dotted
    rw [h] at hdot
    cases hdot
  have hlist : c.name.toList = (c.rel.toList ++ ['.']) ++ c.apex.toList := by
    simp [Challenge.name]
  refine Text.rstripChar_append rfl ?_
  rw [hlist, List.getLast?_append_of_ne_nil _ hne]
  exact c.noFinalDot

theorem HostedZone.zone_put (z : HostedZone) (name : String) (set : Option RecordSet) {n t : String}
    (hne : (n, t) ≠ (name, "TXT")) : (z.put name set).zone n t = z.zone n t := by
  have hnot : ¬ (n = name ∧ t = "TXT") := fun e => hne (by rw [e.1, e.2])
  simp only [zone, put, if_neg hnot]

theorem HostedZone.sets_put (z : HostedZone) (name : String) (set : Option RecordSet) :
    (z.put name set).sets name "TXT" = set := if_pos ⟨rfl, rfl⟩

theorem unquote_quoted (value : String) : unquote ("\"" ++ value ++ "\"") = value := by
  simp [unquote]

theorem harmless_route53_iff (z : HostedZone) (c : Challenge) (value : String) :
    Harmless (.route53 z) c value ↔ Roomy c (.route53 z) := by
  have hname : Text.removeSuffix (c.name ++ ".") "." = c.name := Text.removeSuffix_append ..
  show _ ↔ z.sets c.name "TXT" = none
  constructor
  · rintro ⟨a₁, hset, -⟩
    -- `CREATE` does not add to a record set.
    by_contra hsome
    have hfails : Route53.setTxt z c.name value = .error "already exists" := by
      simp only [Route53.setTxt, HostedZone.change, changeXml, hname,
        Option.isSome_iff_ne_none.mpr hsome, if_true]
    simp only [DnsAccount.setTxt, hfails, Except.map, reduceCtorEq] at hset
  · intro hnone
    obtain ⟨z₁, hz₁⟩ : ∃ z₁, z₁ = z.put c.name (some ⟨"120", ["\"" ++ value ++ "\""]⟩) := ⟨_, rfl⟩
    have hset : Route53.setTxt z c.name value = .ok z₁ := by
      simp [Route53.setTxt, HostedZone.change, changeXml, hname, hnone, hz₁]
    have hsets : z₁.sets c.name "TXT" = some ⟨"120", ["\"" ++ value ++ "\""]⟩ := by
      rw [hz₁, HostedZone.sets_put]
    have hdelete : Route53.deleteTxt z₁ c.name = .ok (z₁.put c.name none) := by
      simp [Route53.deleteTxt, HostedZone.listFrom, hsets, c.rstrip_name, HostedZone.change,
        changeXml, hname]
    refine ⟨.route53 z₁, ?_, ⟨⟨"120", ?_⟩, ?_⟩, .route53 (z₁.put c.name none), ?_, ?_, ?_⟩
    · simp only [DnsAccount.setTxt, hset, Except.map]
    · simp [DnsAccount.zone, HostedZone.zone, hsets, hnone, unquote_quoted]
    · intro n t hne
      show z₁.zone n t = z.zone n t
      rw [hz₁, z.zone_put _ _ hne]
    · simp only [DnsAccount.deleteTxt, hdelete, Except.map]
    · simp [DnsAccount.zone, HostedZone.zone, HostedZone.sets_put]
    · exact fun n t hne => z₁.zone_put _ _ hne

/-! #### Namecheap -/

theorem splitDomain_of_dot {domain : String} (h : '.' ∈ domain.toList) :
    ∃ p, splitDomain domain = some p := by
  have hlt : (domain.toList.takeWhile (· ≠ '.')).length < domain.toList.length := by
    refine lt_of_le_of_ne (List.takeWhile_sublist _).length_le fun hlen => ?_
    have hall := (List.takeWhile_sublist (· ≠ '.')).eq_of_length hlen
    exact absurd rfl (of_decide_eq_true (List.takeWhile_eq_self_iff.mp hall '.' h))
  exact ⟨_, if_pos hlt⟩

/-- An operation at Namecheap comes to what it is for. -/
theorem Namecheap.run_ok (nc : Namecheap) {domain : String} (h : '.' ∈ domain.toList)
    (hosts : List Host) (op : TxtOp) : nc.run domain hosts op = .ok (op.apply domain hosts) := by
  obtain ⟨⟨sld, tld⟩, hsplit⟩ := splitDomain_of_dot h
  have hchange := TxtOp.change_getD domain hosts op
  simp only [Namecheap.run, hsplit, map_parseHost_element, setHosts_setHostsParams]
  cases hop : op.change domain hosts with
  | some changed =>
      rw [hop] at hchange
      exact congrArg Except.ok hchange
  | none =>
      rw [hop] at hchange
      exact congrArg Except.ok hchange

/-- The hosts of the full name are those of the relative one. -/
theorem Challenge.fullName_iff (c : Challenge) (host : String) :
    Namecheap.fullName c.apex host = c.name ↔ host = c.rel := by
  unfold Namecheap.fullName
  split
  · next hat =>
      refine iff_of_false (fun h => ?_) (fun h => c.rel_ne.2 (h ▸ hat))
      have hlen := congrArg (fun s : String => s.toList.length) h
      simp only [Challenge.name, String.toList_append, String.reduceToList, List.cons_append,
        List.nil_append, List.length_append, List.length_cons] at hlen
      omega
  · constructor
    · intro h
      have hlist := congrArg String.toList h
      simp only [Challenge.name, String.toList_append] at hlist
      exact String.toList_injective (List.append_cancel_right hlist)
    · rintro rfl
      rfl

theorem harmless_namecheap (nc : Namecheap) (hosts : List Host) (c : Challenge) (value : String) :
    Harmless (.namecheap nc hosts) c value := by
  obtain ⟨hosts₁, h₁⟩ : ∃ hosts₁, hosts₁ = hosts ++ [(⟨c.rel, "TXT", value, "10", "120"⟩ : Host)] :=
    ⟨_, rfl⟩
  have hset : nc.run c.apex hosts (.setTxt c.name value) = .ok hosts₁ := by
    rw [nc.run_ok c.dotted, TxtOp.apply, c.relName_eq, h₁]
  obtain ⟨hosts₂, h₂⟩ : ∃ hosts₂, hosts₂ = hosts₁.filter fun h => !isTxt c.rel h := ⟨_, rfl⟩
  have hdelete : nc.run c.apex hosts₁ (.deleteTxt c.name) = .ok hosts₂ := by
    rw [nc.run_ok c.dotted, TxtOp.apply, c.relName_eq, h₂]
  have hfull := (c.fullName_iff c.rel).mpr rfl
  refine ⟨.namecheap nc hosts₁, ?_, ⟨⟨"120", ?_⟩, ?_⟩, .namecheap nc hosts₂, ?_, ?_, ?_⟩
  · simp only [DnsAccount.setTxt, hset, Except.map]
  · simp [DnsAccount.zone, Namecheap.zone, h₁, hfull]
  · intro n t hne
    have hnot : ¬ (c.name = n ∧ "TXT" = t) := fun e => hne (by rw [e.1, e.2])
    simp [DnsAccount.zone, Namecheap.zone, h₁, hfull, hnot]
  · simp only [DnsAccount.deleteTxt, hdelete, Except.map]
  · show Namecheap.zone c.apex hosts₂ c.name "TXT" = []
    rw [Namecheap.zone, h₂, List.filter_filter, List.map_eq_nil_iff, List.filter_eq_nil_iff]
    intro h _ hboth
    simp only [c.fullName_iff, isTxt, Bool.not_and, Bool.and_eq_true, Bool.or_eq_true,
      Bool.not_eq_true', decide_eq_true_eq, decide_eq_false_iff_not] at hboth
    rcases hboth.2 with ht | hn
    · exact ht hboth.1.2
    · exact hn hboth.1.1
  · intro n t hne
    show Namecheap.zone c.apex hosts₂ n t = Namecheap.zone c.apex hosts₁ n t
    rw [Namecheap.zone, Namecheap.zone, h₂, List.filter_filter]
    refine congrArg _ (List.filter_congr fun h _ => ?_)
    by_cases ht : isTxt c.rel h = true
    · have hnot : ¬ (Namecheap.fullName c.apex h.name = n ∧ h.type = t) := by
        rintro ⟨hn, ht'⟩
        simp only [isTxt, Bool.and_eq_true, decide_eq_true_eq] at ht
        exact hne (by rw [← hn, ← ht', ht.1, ht.2, hfull])
      simp only [ht, Bool.not_true, Bool.and_false, Bool.false_eq, Bool.and_eq_false_imp,
        decide_eq_true_eq, decide_eq_false_iff_not]
      exact fun hn ht' => hnot ⟨hn, ht'⟩
    · simp [ht]

/-- **A lingering TXT record is harmless**, exactly where the account has room for another one. -/
theorem lingering_harmless_iff (a : DnsAccount) (c : Challenge) (value : String) :
    Harmless a c value ↔ Roomy c a := by
  cases a with
  | porkbun s => exact iff_of_true (harmless_porkbun s c value) trivial
  | cloudflare perPage s => exact harmless_cloudflare_iff perPage s c value
  | route53 z => exact harmless_route53_iff z c value
  | namecheap nc hosts => exact iff_of_true (harmless_namecheap nc hosts c value) trivial

/-- The challenge of `host.example.com`. -/
def Demo.challenge : Challenge := ⟨"example.com", some "host", by decide, by decide⟩

/-- **A lingering TXT record that is harmful**: an earlier `delete_txt` at Route 53 failed. -/
theorem lingering_harmful :
    ¬ ∀ (a : DnsAccount) (c : Challenge) (value : String), Harmless a c value := by
  intro hall
  obtain ⟨a₁, hset, -⟩ := hall
    (.route53 ⟨fun _ _ => some ⟨"120", ["\"earlier\""]⟩, fun _ => none⟩) Demo.challenge "v"
  cases hset

end Jackdaw
