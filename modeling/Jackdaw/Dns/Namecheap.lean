import Jackdaw.Support.Interleave
import Jackdaw.Support.Text

/-!
# Dns — Namecheap

`namecheap.py`.  The API has no call for a single record: `getHosts` returns the host list, and
`setHosts` replaces it by the hosts in its numbered parameters.  `set_txt` and `delete_txt` read the
list, change it and write it back, under a lock for each apex domain.

* `setHosts_setHostsParams`: the numbered parameters of a host list are read as that list.
* `namecheap_sequential`: under any interleaving of any number of operations, with any of their
  calls failing, the host list is the one the operations that succeeded make of it one after the
  other, in the order in which they got the lock; and the hosts that no operation is about stay,
  in their order and with all their fields.
-/

namespace Jackdaw

open Support Interleave

/-! ### Hosts and parameters -/

/-- A host. -/
structure Host where
  name : String
  type : String
  address : String
  mxPref : String
  ttl : String
deriving DecidableEq

/-- A `host` element of a `getHosts` response: its attributes. -/
structure HostElement where
  name : Option String
  type : Option String
  address : Option String
  mxPref : Option String
  ttl : Option String

/-- The element the API writes for a host. -/
def Host.element (h : Host) : HostElement :=
  ⟨some h.name, some h.type, some h.address, some h.mxPref, some h.ttl⟩

/-- The comprehension of `_get_hosts`. -/
def parseHost (e : HostElement) : Host where
  name := e.name.getD ""
  type := e.type.getD ""
  address := e.address.getD ""
  mxPref := e.mxPref.getD "10"
  ttl := e.ttl.getD "1800"

theorem map_parseHost_element (hosts : List Host) :
    (hosts.map Host.element).map parseHost = hosts := by
  simp [parseHost, Host.element, Function.comp_def]

/-- Form parameters, the one set last first. -/
abbrev Params := List (String × String)

/-- The numbered parameters. -/
inductive HostParam where
  | hostName
  | recordType
  | address
  | mxPref
  | ttl
deriving DecidableEq

def HostParam.text : HostParam → String
  | .hostName => "HostName"
  | .recordType => "RecordType"
  | .address => "Address"
  | .mxPref => "MXPref"
  | .ttl => "TTL"

/-- The key of a numbered parameter. -/
def HostParam.key (p : HostParam) (i : Nat) : String := p.text ++ toString i

/-- What a numbered parameter says of its host. -/
def HostParam.value (h : Host) : HostParam → String
  | .hostName => h.name
  | .recordType => h.type
  | .address => h.address
  | .mxPref => h.mxPref
  | .ttl => h.ttl

/-- The credentials of the account. -/
structure Namecheap where
  apiUser : String
  apiKey : String
  username : String
  clientIp : String

/-- `_base_params`. -/
def Namecheap.baseParams (nc : Namecheap) (command sld tld : String) : Params :=
  [("TLD", tld), ("SLD", sld), ("Command", command), ("ClientIp", nc.clientIp),
    ("UserName", nc.username), ("ApiKey", nc.apiKey), ("ApiUser", nc.apiUser)]

/-- One pass of the loop of `_set_hosts`. -/
def setHostParams (i : Nat) (h : Host) (ps : Params) : Params :=
  (HostParam.ttl.key i, h.ttl) :: (HostParam.mxPref.key i, h.mxPref) ::
    (HostParam.address.key i, h.address) :: (HostParam.recordType.key i, h.type) ::
    (HostParam.hostName.key i, h.name) :: ps

/-- The loop of `_set_hosts`, from a host on. -/
def hostParams : Nat → List Host → Params → Params
  | _, [], ps => ps
  | i, h :: hs, ps => hostParams (i + 1) hs (setHostParams i h ps)

/-- The parameters of `_set_hosts`. -/
def Namecheap.setHostsParams (nc : Namecheap) (sld tld : String) (hosts : List Host) : Params :=
  hostParams 1 hosts (nc.baseParams "namecheap.domains.dns.setHosts" sld tld)

/-- How the API reads the numbered parameters: from a number on, as long as there are some. -/
def readHosts (ps : Params) : (fuel i : Nat) → List Host
  | 0, _ => []
  | fuel + 1, i =>
      match ps.lookup (HostParam.hostName.key i), ps.lookup (HostParam.recordType.key i),
        ps.lookup (HostParam.address.key i), ps.lookup (HostParam.mxPref.key i),
        ps.lookup (HostParam.ttl.key i) with
      | some name, some type, some address, some mxPref, some ttl =>
          ⟨name, type, address, mxPref, ttl⟩ :: readHosts ps fuel (i + 1)
      | _, _, _, _, _ => []

/-- The host list `setHosts` leaves. -/
def setHosts (ps : Params) : List Host := readHosts ps ps.length 1

/-! ### Reading what was written -/

theorem HostParam.key_injective {p q : HostParam} {i j : Nat} (h : p.key i = q.key j) :
    p = q ∧ i = j := by
  have hlist : p.text.toList ++ (toString i).toList = q.text.toList ++ (toString j).toList := by
    simpa [HostParam.key] using congrArg String.toList h
  have hpq : p = q := by
    cases p <;> cases q <;> first | rfl | simp [HostParam.text] at hlist
  subst hpq
  exact ⟨rfl, Text.toString_injective (String.toList_injective (List.append_cancel_left hlist))⟩

theorem lookup_baseParams (nc : Namecheap) (command sld tld : String) (p : HostParam) (i : Nat) :
    (nc.baseParams command sld tld).lookup (p.key i) = none := by
  refine List.lookup_eq_none_iff.mpr fun kv hkv => ?_
  have hkey : kv.1 ∈ ["TLD", "SLD", "Command", "ClientIp", "UserName", "ApiKey", "ApiUser"] :=
    List.mem_map_of_mem (f := Prod.fst) hkv
  have hne : ∀ k ∈ ["TLD", "SLD", "Command", "ClientIp", "UserName", "ApiKey", "ApiUser"],
      p.key i ≠ k := by
    intro k hk h
    have hlist := congrArg String.toList h
    simp only [List.mem_cons, List.not_mem_nil, or_false] at hk
    rcases hk with rfl | rfl | rfl | rfl | rfl | rfl | rfl <;> cases p <;>
      simp [HostParam.key, HostParam.text] at hlist
  simpa using hne _ hkey

theorem lookup_key (p q : HostParam) (j i : Nat) (v : String) (ps : Params) :
    List.lookup (p.key j) ((q.key i, v) :: ps) =
      if p = q ∧ j = i then some v else List.lookup (p.key j) ps := by
  by_cases h : p = q ∧ j = i
  · obtain ⟨rfl, rfl⟩ := h
    simp
  · have hne : p.key j ≠ q.key i := fun e => h (HostParam.key_injective e)
    rw [if_neg h, List.lookup_cons, beq_false_of_ne hne]

theorem lookup_setHostParams (p : HostParam) (j i : Nat) (h : Host) (ps : Params) :
    (setHostParams i h ps).lookup (p.key j) =
      if j = i then some (p.value h) else ps.lookup (p.key j) := by
  unfold setHostParams
  by_cases e : j = i
  · cases p <;> simp [lookup_key, HostParam.value, e]
  · simp [lookup_key, e]

/-- The parameters of later hosts leave those of earlier ones. -/
theorem lookup_hostParams_of_lt {p : HostParam} {j i : Nat} (hs : List Host) (ps : Params)
    (h : j < i) : (hostParams i hs ps).lookup (p.key j) = ps.lookup (p.key j) := by
  induction hs generalizing i ps with
  | nil => rfl
  | cons host hs ih =>
      rw [hostParams, ih _ (Nat.lt_succ_of_lt h), lookup_setHostParams,
        if_neg (Nat.ne_of_lt h)]

theorem readHosts_hostParams {i fuel : Nat} (hs : List Host) (ps : Params)
    (hps : ∀ j, i ≤ j → ps.lookup (HostParam.hostName.key j) = none) (hfuel : hs.length ≤ fuel) :
    readHosts (hostParams i hs ps) fuel i = hs := by
  induction hs generalizing i fuel ps with
  | nil =>
      cases fuel with
      | zero => rfl
      | succ fuel => simp only [readHosts, hostParams, hps i le_rfl]
  | cons host hs ih =>
      cases fuel with
      | zero => cases hfuel
      | succ fuel =>
          have hread : ∀ p : HostParam,
              (hostParams i (host :: hs) ps).lookup (p.key i) = some (p.value host) := by
            intro p
            rw [hostParams, lookup_hostParams_of_lt _ _ (Nat.lt_succ_self i),
              lookup_setHostParams, if_pos rfl]
          have hrest : readHosts (hostParams i (host :: hs) ps) fuel (i + 1) = hs := by
            refine ih (setHostParams i host ps) (fun j hj => ?_) (Nat.le_of_succ_le_succ hfuel)
            rw [lookup_setHostParams, if_neg (Nat.ne_of_gt hj), hps j (Nat.le_of_succ_le hj)]
          simp only [readHosts, hread, HostParam.value, hrest]

theorem length_hostParams (i : Nat) (hs : List Host) (ps : Params) :
    hs.length ≤ (hostParams i hs ps).length := by
  have hlen : ∀ (hs : List Host) (i : Nat) (ps : Params),
      (hostParams i hs ps).length = 5 * hs.length + ps.length := by
    intro hs
    induction hs with
    | nil => exact fun _ ps => (Nat.zero_add _).symm
    | cons host hs ih =>
        intro i ps
        rw [hostParams, ih]
        simp only [setHostParams, List.length_cons]
        omega
  rw [hlen]
  omega

/-- **What `setHosts` leaves is what it was given**: the numbered parameters of a host list are read
as that list. -/
theorem setHosts_setHostsParams (nc : Namecheap) (sld tld : String) (hosts : List Host) :
    setHosts (nc.setHostsParams sld tld hosts) = hosts :=
  readHosts_hostParams hosts _ (fun _ _ => lookup_baseParams ..) (length_hostParams ..)

/-! ### The operations -/

/-- A call of the provider. -/
inductive TxtOp where
  | setTxt (name value : String)
  | deleteTxt (name : String)

def TxtOp.name : TxtOp → String
  | .setTxt name _ | .deleteTxt name => name

/-- `rel_name`. -/
def relName (domain name : String) : String := Text.removeSuffix name ("." ++ domain)

/-- The host an operation deletes, or one like it. -/
def isTxt (rel : String) (h : Host) : Bool := h.type = "TXT" && h.name = rel

/-- The host list an operation makes of another, if it writes one. -/
def TxtOp.change (domain : String) (hosts : List Host) : TxtOp → Option (List Host)
  | .setTxt name value => some (hosts ++ [⟨relName domain name, "TXT", value, "10", "120"⟩])
  | .deleteTxt name =>
      let kept := hosts.filter fun h => !isTxt (relName domain name) h
      if kept.length < hosts.length then some kept else none

/-- `_split_domain`. -/
def splitDomain (domain : String) : Option (String × String) :=
  let sld := domain.toList.takeWhile (· ≠ '.')
  if sld.length < domain.toList.length then
    some (String.ofList sld, Text.drop domain (sld.length + 1))
  else none

/-- Where a call is suspended. -/
inductive NamecheapPc where
  | lock (sld tld : String)
  | getHosts (sld tld : String)
  /-- `getHosts` has answered. -/
  | gotHosts (sld tld : String) (elements : List HostElement)
  | setHosts (params : Params)
  /-- `setHosts` has answered. -/
  | wrote

structure NamecheapTask where
  op : TxtOp
  pc : NamecheapPc

/-- The host list at Namecheap; who holds the lock of the domain, and who got it so far; and the
calls that have succeeded. -/
structure NamecheapZone where
  hosts : List Host
  holder : Option Nat
  acquired : List (Nat × TxtOp)
  succeeded : List Nat

/-- What decides the next move: a call that begins, an await that is over, or one that raises. -/
inductive NamecheapInput where
  | begin (op : TxtOp)
  | goOn
  | fail

/-- The zone at first. -/
def NamecheapZone.start (hosts : List Host) : NamecheapZone := ⟨hosts, none, [], []⟩

/-- `set_txt` and `delete_txt`, from one await to the next.  The API answers `getHosts` and `setHosts`
at a moment of its own; a call that raises had no effect. -/
def namecheapSeg (nc : Namecheap) (domain : String) (i : Nat) (z : NamecheapZone) (op : TxtOp) :
    NamecheapPc → NamecheapInput → Option (NamecheapZone × Option NamecheapPc)
  | .lock sld tld, .goOn =>
      if z.holder = none then
        some ({ z with holder := some i, acquired := z.acquired ++ [(i, op)] },
          some (.getHosts sld tld))
      else none
  | .lock _ _, .fail => some (z, none)
  | .getHosts sld tld, .goOn => some (z, some (.gotHosts sld tld (z.hosts.map Host.element)))
  | .getHosts _ _, .fail => some ({ z with holder := none }, none)
  | .gotHosts sld tld elements, .goOn =>
      match op.change domain (elements.map parseHost) with
      | some hosts => some (z, some (.setHosts (nc.setHostsParams sld tld hosts)))
      | none => some ({ z with holder := none, succeeded := z.succeeded ++ [i] }, none)
  | .gotHosts _ _ _, .fail => some ({ z with holder := none }, none)
  | .setHosts params, .goOn =>
      some ({ z with hosts := setHosts params, succeeded := z.succeeded ++ [i] }, some .wrote)
  | .setHosts _, .fail => some ({ z with holder := none }, none)
  | .wrote, .goOn => some ({ z with holder := none }, none)
  | _, _ => none

/-- The calls on one provider for one apex domain. -/
def namecheap (nc : Namecheap) (domain : String) :
    Machine NamecheapZone NamecheapTask NamecheapInput where
  run i _ z t a := (namecheapSeg nc domain i z t.op t.pc a).map fun r =>
    ⟨r.1, r.2.map fun pc => ⟨t.op, pc⟩, none⟩
  arrive _
    | .begin op => (splitDomain domain).map fun p => ⟨op, .lock p.1 p.2⟩
    | _ => none
  tick _ _ := none
  restart _ _ := none

/-! ### One after the other -/

/-- What an operation is for. -/
def TxtOp.apply (domain : String) (hosts : List Host) : TxtOp → List Host
  | .setTxt name value => hosts ++ [⟨relName domain name, "TXT", value, "10", "120"⟩]
  | .deleteTxt name => hosts.filter fun h => !isTxt (relName domain name) h

/-- An operation writes what it is for, or has nothing to write. -/
theorem TxtOp.change_getD (domain : String) (hosts : List Host) (op : TxtOp) :
    (op.change domain hosts).getD hosts = op.apply domain hosts := by
  cases op with
  | setTxt name value => rfl
  | deleteTxt name =>
      simp only [TxtOp.change, TxtOp.apply]
      split
      · rfl
      · next hlt =>
          have hlen := le_antisymm (List.length_filter_le _ _) (not_lt.mp hlt)
          exact (List.filter_sublist.eq_of_length hlen).symm

variable {nc : Namecheap} {domain : String} {op : TxtOp}

/-- The operations that succeeded, in the order in which they got the lock. -/
def NamecheapZone.history (z : NamecheapZone) : List TxtOp :=
  (z.acquired.filter fun p => p.1 ∈ z.succeeded).map (·.2)

/-- The call holds the lock, got it last, and has not succeeded yet. -/
def Holds (i : Nat) (op : TxtOp) (z : NamecheapZone) : Prop :=
  z.holder = some i ∧ i ∉ z.succeeded ∧
    ∃ earlier, z.acquired = earlier ++ [(i, op)] ∧ ∀ p ∈ earlier, p.1 ≠ i

/-- What a call knows of the zone where it is suspended. -/
def NamecheapTask.Ok (domain : String) (i : Nat) (z : NamecheapZone) (t : NamecheapTask) : Prop :=
  match t.pc with
  | .lock _ _ => i ∉ z.succeeded ∧ (∀ p ∈ z.acquired, p.1 ≠ i) ∧ z.holder ≠ some i
  | .getHosts _ _ => Holds i t.op z
  | .gotHosts _ _ elements => Holds i t.op z ∧ elements.map parseHost = z.hosts
  | .setHosts params => Holds i t.op z ∧ setHosts params = t.op.apply domain z.hosts
  | .wrote => z.holder = some i

/-- Before a call succeeds it is not part of the history, and then it is its last operation. -/
theorem Holds.history {i : Nat} {z : NamecheapZone} (h : Holds i op z) :
    ((z.acquired.filter fun p => p.1 ∈ z.succeeded ++ [i]).map (·.2)) = z.history ++ [op] := by
  obtain ⟨-, hnot, earlier, hacq, hne⟩ := h
  have hsame : earlier.filter (fun p => decide (p.1 ∈ z.succeeded ++ [i])) =
      earlier.filter fun p => decide (p.1 ∈ z.succeeded) :=
    List.filter_congr fun p hp => by simp [hne p hp]
  rw [NamecheapZone.history, hacq, List.filter_append, List.filter_append, hsame]
  simp [hnot]

/-- A call that succeeds adds what it is for to what the history makes of the first hosts. -/
theorem Holds.succeeds {i : Nat} {z : NamecheapZone} {first hosts : List Host} (h : Holds i op z)
    (hhosts : z.hosts = z.history.foldl (TxtOp.apply domain) first)
    (happly : hosts = op.apply domain z.hosts) (holder : Option Nat) :
    hosts = (NamecheapZone.history ⟨hosts, holder, z.acquired, z.succeeded ++ [i]⟩).foldl
      (TxtOp.apply domain) first := by
  have hhistory : NamecheapZone.history ⟨hosts, holder, z.acquired, z.succeeded ++ [i]⟩ =
      z.history ++ [op] := h.history
  rw [hhistory, List.foldl_append, ← hhosts]
  exact happly

theorem mem_succeeds {i k : Nat} {succeeded : List Nat} (h : k ∈ succeeded ++ [i]) :
    k ∈ succeeded ∨ k = i := by
  simpa using h

/-- What a move of call `i` leaves of the zone for the others: a move needs the lock, or leaves the
zone as it is. -/
structure MovesAlone (i : Nat) (z z' : NamecheapZone) : Prop where
  locked : z' = z ∨ z.holder = none ∨ z.holder = some i
  acquired : ∀ p ∈ z'.acquired, p ∈ z.acquired ∨ p.1 = i
  succeeded : ∀ k ∈ z'.succeeded, k ∈ z.succeeded ∨ k = i
  holder : ∀ k, z'.holder = some k → z.holder = some k ∨ k = i

theorem MovesAlone.refl (i : Nat) (z : NamecheapZone) : MovesAlone i z z :=
  ⟨.inl rfl, fun _ h => .inl h, fun _ h => .inl h, fun _ h => .inl h⟩

/-- The holder of the lock keeps it or lets it go, and has perhaps succeeded. -/
theorem MovesAlone.of_holder {i : Nat} {z : NamecheapZone} (h : z.holder = some i)
    (hosts : List Host) {holder : Option Nat} {succeeded : List Nat}
    (hs : ∀ k ∈ succeeded, k ∈ z.succeeded ∨ k = i) (hh : ∀ k, holder = some k → z.holder = some k) :
    MovesAlone i z ⟨hosts, holder, z.acquired, succeeded⟩ :=
  ⟨.inr (.inr h), fun _ h => .inl h, hs, fun k hk => .inl (hh k hk)⟩

/-- What a move of call `i` leaves: the host list its history makes of the first, a call that knows
the zone, and the zone of the others. -/
structure Serial (domain : String) (first : List Host) (i : Nat) (op : TxtOp) (z z' : NamecheapZone)
    (next : Option NamecheapPc) : Prop where
  hosts : z'.hosts = z'.history.foldl (TxtOp.apply domain) first
  ok : ∀ pc, next = some pc → NamecheapTask.Ok domain i z' ⟨op, pc⟩
  alone : MovesAlone i z z'

section Serial

variable {first : List Host} {i : Nat} {z z' : NamecheapZone} {next : Option NamecheapPc}
  {a : NamecheapInput}

/-- A call that only looks. -/
theorem Serial.looks {pc : NamecheapPc}
    (hhosts : z.hosts = z.history.foldl (TxtOp.apply domain) first)
    (hok : NamecheapTask.Ok domain i z ⟨op, pc⟩) : Serial domain first i op z z (some pc) := by
  refine ⟨hhosts, ?_, .refl i z⟩
  rintro _ ⟨⟩
  exact hok

/-- A call that lets the lock go and is over. -/
theorem Serial.lets_go (hhosts : z.hosts = z.history.foldl (TxtOp.apply domain) first)
    (h : z.holder = some i) : Serial domain first i op z { z with holder := none } none :=
  ⟨hhosts, nofun, .of_holder h _ (fun _ hk => .inl hk) nofun⟩

/-- A call that gets the lock. -/
theorem Serial.locks {sld tld : String}
    (hhosts : z.hosts = z.history.foldl (TxtOp.apply domain) first) (hfree : z.holder = none)
    (hok : NamecheapTask.Ok domain i z ⟨op, .lock sld tld⟩) :
    Serial domain first i op z { z with holder := some i, acquired := z.acquired ++ [(i, op)] }
      (some (.getHosts sld tld)) := by
  refine ⟨?_, ?_, .inr (.inl hfree), fun p hp => ?_, fun _ hk => .inl hk,
    fun k hk => .inr (Option.some.inj hk).symm⟩
  · simpa [NamecheapZone.history, hok.1] using hhosts
  · rintro _ ⟨⟩
    exact ⟨rfl, hok.1, z.acquired, rfl, hok.2.1⟩
  · rcases List.mem_append.mp hp with hp | hp
    · exact .inl hp
    · exact .inr (by rw [List.mem_singleton.mp hp])

/-- The host list is in, and the call writes one of its own or has nothing to write. -/
theorem Serial.computes {sld tld : String} {elements : List HostElement}
    (h : namecheapSeg nc domain i z op (.gotHosts sld tld elements) .goOn = some (z', next))
    (hok : NamecheapTask.Ok domain i z ⟨op, .gotHosts sld tld elements⟩)
    (hhosts : z.hosts = z.history.foldl (TxtOp.apply domain) first) :
    Serial domain first i op z z' next := by
  obtain ⟨hholds, helements⟩ := hok
  have hchange := TxtOp.change_getD domain z.hosts op
  simp only [namecheapSeg, helements] at h
  split at h
  · next hosts hh =>
      cases h
      rw [hh, Option.getD_some] at hchange
      exact .looks hhosts ⟨hholds, (setHosts_setHostsParams ..).trans hchange⟩
  · next hh =>
      cases h
      rw [hh, Option.getD_none] at hchange
      exact ⟨hholds.succeeds hhosts hchange none, nofun,
        .of_holder hholds.1 _ (fun _ => mem_succeeds) nofun⟩

/-- **One move of a call**: the host list stays the one its history makes of the first. -/
theorem namecheapSeg_serial {pc : NamecheapPc}
    (h : namecheapSeg nc domain i z op pc a = some (z', next))
    (hok : NamecheapTask.Ok domain i z ⟨op, pc⟩)
    (hhosts : z.hosts = z.history.foldl (TxtOp.apply domain) first) :
    Serial domain first i op z z' next := by
  cases pc with
  | lock sld tld =>
      cases a with
      | begin op' => cases h
      | goOn =>
          simp only [namecheapSeg] at h
          split at h
          · next hfree =>
              cases h
              exact .locks hhosts hfree hok
          · cases h
      | fail =>
          cases h
          exact ⟨hhosts, nofun, .refl i z⟩
  | getHosts sld tld =>
      cases a with
      | begin op' => cases h
      | goOn =>
          cases h
          exact .looks hhosts ⟨hok, map_parseHost_element z.hosts⟩
      | fail =>
          cases h
          exact .lets_go hhosts hok.1
  | gotHosts sld tld elements =>
      cases a with
      | begin op' => cases h
      | goOn => exact .computes h hok hhosts
      | fail =>
          cases h
          exact .lets_go hhosts hok.1.1
  | setHosts params =>
      obtain ⟨hholds, hparams⟩ := hok
      cases a with
      | begin op' => cases h
      | goOn =>
          cases h
          refine ⟨hholds.succeeds hhosts hparams z.holder, ?_,
            .of_holder hholds.1 _ (fun _ => mem_succeeds) fun _ hk => hk⟩
          rintro _ ⟨⟩
          exact hholds.1
      | fail =>
          cases h
          exact .lets_go hhosts hholds.1
  | wrote =>
      cases a with
      | begin op' => cases h
      | goOn =>
          cases h
          exact .lets_go hhosts hok
      | fail => cases h

end Serial

/-- The others know of the zone what they knew. -/
theorem NamecheapTask.Ok.others {i j : Nat} {z z' : NamecheapZone} {t : NamecheapTask}
    (hm : MovesAlone i z z') (hne : j ≠ i) (h : t.Ok domain j z) : t.Ok domain j z' := by
  -- A call that holds the lock sees no other move.
  have hheld : z.holder = some j → t.Ok domain j z' := by
    intro hj
    rcases hm.locked with rfl | hfree | hi
    · exact h
    · rw [hfree] at hj
      cases hj
    · rw [hi] at hj
      exact absurd (Option.some.inj hj).symm hne
  obtain ⟨op, pc⟩ := t
  cases pc with
  | lock sld tld =>
      refine ⟨fun hs => ?_, fun p hp => ?_, fun hj => ?_⟩
      · rcases hm.succeeded j hs with hs | hs
        · exact h.1 hs
        · exact hne hs
      · rcases hm.acquired p hp with hp | hp
        · exact h.2.1 p hp
        · exact fun e => hne (e.symm.trans hp)
      · rcases hm.holder j hj with hj | hj
        · exact h.2.2 hj
        · exact hne hj
  | getHosts sld tld => exact hheld h.1
  | gotHosts sld tld elements => exact hheld h.1.1
  | setHosts params => exact hheld h.1.1
  | wrote => exact hheld h

/-- The host list is what the history makes of the first, at every point of every run. -/
def namecheapInvariant (nc : Namecheap) (domain : String) (first : List Host) :
    Invariant (namecheap nc domain) (fun _ _ => True) (.start first) where
  Inv n z := z.hosts = z.history.foldl (TxtOp.apply domain) first ∧
    (∀ p ∈ z.acquired, p.1 < n) ∧ (∀ k ∈ z.succeeded, k < n) ∧ ∀ k, z.holder = some k → k < n
  Ok i z t := t.Ok domain i z
  start := ⟨rfl, nofun, nofun, nofun⟩
  run := by
    intro c i t a o hr ht ho _ hinv hok
    obtain ⟨⟨z', next⟩, hseg, rfl⟩ := Option.map_eq_some_iff.mp ho
    obtain ⟨hhosts, hacq, hsucc, hheld⟩ := hinv
    obtain ⟨hhosts', hok', hm⟩ := namecheapSeg_serial hseg hok hhosts
    have hlt := hr.lt_next ht
    refine ⟨⟨hhosts', fun p hp => ?_, fun k hk => ?_, fun k hk => ?_⟩, fun u hu => ?_, nofun,
      fun j u _ hne hu => NamecheapTask.Ok.others hm hne hu⟩
    · rcases hm.acquired p hp with hp | hp
      · exact Nat.lt_succ_of_lt (hacq p hp)
      · exact hp ▸ Nat.lt_succ_of_lt hlt
    · rcases hm.succeeded k hk with hk | hk
      · exact Nat.lt_succ_of_lt (hsucc k hk)
      · exact hk ▸ Nat.lt_succ_of_lt hlt
    · rcases hm.holder k hk with hk | hk
      · exact Nat.lt_succ_of_lt (hheld k hk)
      · exact hk ▸ Nat.lt_succ_of_lt hlt
    · obtain ⟨pc', hpc', rfl⟩ := Option.map_eq_some_iff.mp hu
      exact hok' pc' hpc'
  arrive := by
    intro c a t hr ha hinv
    obtain ⟨hhosts, hacq, hsucc, hheld⟩ := hinv
    cases a with
    | begin op =>
        obtain ⟨p, -, rfl⟩ := Option.map_eq_some_iff.mp ha
        refine ⟨⟨hhosts, fun p hp => Nat.lt_succ_of_lt (hacq p hp),
          fun k hk => Nat.lt_succ_of_lt (hsucc k hk),
          fun k hk => Nat.lt_succ_of_lt (hheld k hk)⟩, ?_, ?_, ?_⟩
        · exact fun hk => absurd (hsucc _ hk) (lt_irrefl _)
        · exact fun p hp e => absurd (hacq p hp) (e ▸ lt_irrefl _)
        · exact fun hk => absurd (hheld _ hk) (lt_irrefl _)
    | goOn | fail => cases ha
  tick := by
    intro c a s _ h
    cases h
  restart := by
    intro c a s t _ h
    cases h

/-! ### The other hosts -/

/-- The operation is about the host. -/
def TxtOp.isAbout (domain : String) (h : Host) (op : TxtOp) : Bool :=
  isTxt (relName domain op.name) h

/-- Operations leave the hosts they are not about, with their order and their fields. -/
theorem filter_foldl_apply {ops : List TxtOp} {keep : Host → Bool}
    (hkeep : ∀ op ∈ ops, ∀ h, op.isAbout domain h = true → keep h = false) (hosts : List Host) :
    (ops.foldl (TxtOp.apply domain) hosts).filter keep = hosts.filter keep := by
  induction ops generalizing hosts with
  | nil => rfl
  | cons op ops ih =>
      have hop := hkeep op List.mem_cons_self
      rw [List.foldl_cons, ih fun op' hop' => hkeep op' (List.mem_cons_of_mem _ hop')]
      cases op with
      | setTxt name value =>
          have hnew := hop ⟨relName domain name, "TXT", value, "10", "120"⟩ (by
            simp [TxtOp.isAbout, isTxt, TxtOp.name])
          simp [TxtOp.apply, hnew]
      | deleteTxt name =>
          rw [TxtOp.apply, List.filter_filter]
          refine List.filter_congr fun h _ => ?_
          by_cases ht : isTxt (relName domain name) h = true
          · simp [ht, hop h ht]
          · simp [ht]

/-! ### The lock -/

/-- A call that ends does not keep the lock. -/
theorem namecheapSeg_holder {i k : Nat} {z z' : NamecheapZone} {pc : NamecheapPc}
    {a : NamecheapInput} {next : Option NamecheapPc}
    (h : namecheapSeg nc domain i z op pc a = some (z', next))
    (hok : NamecheapTask.Ok domain i z ⟨op, pc⟩) (hk : z'.holder = some k) :
    k ≠ i ∧ z.holder = some k ∨ k = i ∧ next.isSome = true := by
  cases pc with
  | lock sld tld =>
      cases a with
      | begin op' => cases h
      | goOn =>
          simp only [namecheapSeg] at h
          split at h
          · cases h
            exact .inr ⟨(Option.some.inj hk).symm, rfl⟩
          · cases h
      | fail =>
          cases h
          exact .inl ⟨fun e => hok.2.2 (e ▸ hk), hk⟩
  | getHosts sld tld =>
      cases a with
      | begin op' => cases h
      | goOn =>
          cases h
          exact .inr ⟨Option.some.inj (hk.symm.trans hok.1), rfl⟩
      | fail =>
          cases h
          cases hk
  | gotHosts sld tld elements =>
      cases a with
      | begin op' => cases h
      | goOn =>
          simp only [namecheapSeg] at h
          split at h
          · cases h
            exact .inr ⟨Option.some.inj (hk.symm.trans hok.1.1), rfl⟩
          · cases h
            cases hk
      | fail =>
          cases h
          cases hk
  | setHosts params =>
      cases a with
      | begin op' => cases h
      | goOn =>
          cases h
          exact .inr ⟨Option.some.inj (hk.symm.trans hok.1.1), rfl⟩
      | fail =>
          cases h
          cases hk
  | wrote =>
      cases a with
      | begin op' | fail => cases h
      | goOn =>
          cases h
          cases hk

theorem holder_in_flight {first : List Host} {c : Config NamecheapZone NamecheapTask}
    (h : Reach (namecheap nc domain) (fun _ _ => True) (.start first) c) {k : Nat}
    (hk : c.shared.holder = some k) : ∃ t, c.tasks k = some t := by
  induction h generalizing k with
  | start => cases hk
  | @step c c' a hr hs _ ih =>
      rcases Machine.step_cases hs with ⟨i, b, t, o, -, hi, ho, rfl⟩ | ⟨b, t, -, ht, rfl⟩ |
          ⟨b, z, -, ht, rfl⟩ | ⟨b, z, t, -, ht, rfl⟩
      · obtain ⟨⟨z', next⟩, hseg, rfl⟩ := Option.map_eq_some_iff.mp ho
        have hok := ((namecheapInvariant nc domain first).reach hr).2 i t hi
        rcases namecheapSeg_holder hseg hok hk with ⟨hne, hk⟩ | ⟨rfl, hnext⟩
        · obtain ⟨u, hu⟩ := ih hk
          exact ⟨u, Config.after_of_ne hne (hr.lt_next hu) hu⟩
        · obtain ⟨pc, hpc⟩ := Option.isSome_iff_exists.mp hnext
          exact ⟨⟨t.op, pc⟩, by rw [Config.after_self (hr.lt_next hi), hpc, Option.map_some]⟩
      · obtain ⟨u, hu⟩ := ih hk
        exact ⟨u, (Function.update_of_ne (Nat.ne_of_lt (hr.lt_next hu)) ..).trans hu⟩
      · cases ht
      · cases ht

/-- **Read-modify-write loses nothing**: the host list is what the operations that succeeded make of
the first one, in the order in which they got the lock; the hosts that none of them is about stay as
they are and in their order; and the lock is free when no call is in flight. -/
theorem namecheap_sequential {first : List Host} {c : Config NamecheapZone NamecheapTask}
    (h : Reach (namecheap nc domain) (fun _ _ => True) (.start first) c) :
    c.shared.hosts = c.shared.history.foldl (TxtOp.apply domain) first ∧
      (∀ other : Host → Bool,
        (∀ op ∈ c.shared.history, ∀ h, op.isAbout domain h = true → other h = false) →
        c.shared.hosts.filter other = first.filter other) ∧
      ((∀ i, c.tasks i = none) → c.shared.holder = none) := by
  have hhosts := ((namecheapInvariant nc domain first).reach h).1.1
  refine ⟨hhosts, fun other hother => ?_, fun hnone => ?_⟩
  · rw [hhosts]
    exact filter_foldl_apply hother first
  · cases hk : c.shared.holder with
    | none => rfl
    | some k =>
        obtain ⟨t, ht⟩ := holder_in_flight h hk
        rw [hnone k] at ht
        cases ht

/-- Two calls at once, and one that deletes. -/
def Demo.twoChallenges : List (Action NamecheapInput) :=
  [.arrive (.begin (.setTxt "_acme-challenge.a.example.com" "tokA")),
    .arrive (.begin (.setTxt "_acme-challenge.b.example.com" "tokB")),
    .run 1 .goOn, .run 1 .goOn, .arrive (.begin (.deleteTxt "_acme-challenge.a.example.com")),
    .run 1 .goOn, .run 1 .goOn, .run 1 .goOn,
    .run 0 .goOn, .run 0 .fail, .run 4 .goOn, .run 4 .goOn, .run 4 .goOn]

/-- The second call gets the lock first and succeeds, the first one fails, and the third one has
nothing to delete. -/
theorem namecheap_sequential_run :
    ∃ c, (namecheap ⟨"user", "key", "user", "192.0.2.1"⟩ "example.com").schedule (fun _ _ => true)
        (.start (.start [⟨"@", "A", "192.0.2.7", "10", "1800"⟩])) Demo.twoChallenges = some c ∧
      c.shared.hosts = c.shared.history.foldl (TxtOp.apply "example.com")
        [⟨"@", "A", "192.0.2.7", "10", "1800"⟩] ∧
      c.shared.hosts.map (·.address) = ["192.0.2.7", "tokB"] := by
  have hrun : ((namecheap ⟨"user", "key", "user", "192.0.2.1"⟩ "example.com").schedule
      (fun _ _ => true) (.start (.start [⟨"@", "A", "192.0.2.7", "10", "1800"⟩]))
      Demo.twoChallenges).any (fun c =>
        decide (c.shared.hosts.map (·.address) = ["192.0.2.7", "tokB"])) = true := by
    decide +kernel
  obtain ⟨c, hc, h⟩ := (Option.any_eq_true _ _).mp hrun
  refine ⟨c, hc, ?_, of_decide_eq_true h⟩
  exact (namecheap_sequential (Reach.schedule (fun _ _ _ => trivial) _ .start hc)).1

end Jackdaw
