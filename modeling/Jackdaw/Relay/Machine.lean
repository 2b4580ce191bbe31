import Jackdaw.Main
import Jackdaw.Worker
import Jackdaw.Routes.Account
import Jackdaw.Routes.Challenge
import Jackdaw.Routes.Order
import Jackdaw.Routes.Resources

/-!
# Relay — the machine

All the coroutines together, over one SQLite database.

A task is a suspended coroutine: the point where it is suspended (`Pc`) and the statements of its
open transaction.  A statement that writes takes the database's one write lock and is applied to
the tables when its transaction commits; until then only its own session sees it.  A session that
ends without a commit loses its statements.  A task that needs the lock while another holds it
does not run; the failure of a statement, or of the whole task, is the step `fail`.

Requests arrive while the relay is up.  A restart drops every task, with the statements it had not
committed, and runs the startup reset before the relay serves again.  The clock may be set at any
time, to any time.

The shared state keeps the whole run: `Entry` records one segment, with the database before and
after it, and `Shared.log` is the list of all of them, newest first.  A property of runs is a
property of the logs of the reachable states.
-/

namespace Jackdaw

open Support Support.Interleave

/-! ### Tasks -/

/-- The resource a request is for. -/
inductive Route where
  | newAccount
  | keyChange
  | newOrder
  | order (id : String)
  | finalize (id : String)
  | authz (id : String)
  | challenge (id : String)
  | cert (id : String)
  | revokeCert
  deriving DecidableEq, Repr

structure Request extends HttpRequest where
  route : Route

/-- `verify_jws`, cut at its statements. -/
inductive JwsPc where
  /-- The look-up of the account, and the signature check behind it. -/
  | verify
  | consume (accountId : String) (nonce : Option String) (payload : Json) (cutoff : Int)
  | commit (accountId : String) (payload : Json) (rowcount : Nat)

/-- Where a task is suspended. -/
inductive Pc where
  | jws (req : Request) (p : JwsPc)
  | newAccount (p : NewAccountPc)
  | keyChange (accountId : String) (p : KeyChangePc)
  | newOrder (accountId : String) (p : NewOrderPc)
  | getOrder (accountId orderId : String) (p : GetOrderPc)
  | finalize (accountId orderId : String) (p : FinalizePc)
  | getAuthz (accountId authzId : String) (p : GetAuthzPc)
  | challenge (accountId authzId : String) (p : ChallengePc)
  | downloadCert (accountId certId : String) (p : DownloadCertPc)
  | revokeCert (accountId : String) (p : RevokeCertPc)
  | runChallenge (authzId orderId : String) (p : RunChallengePc)
  | processFinalize (orderId domain : String) (csrDer : List UInt8) (p : ProcessFinalizePc)
  | reset (p : ResetPc)
  | nonce (p : NoncePc)
  | prune (p : PrunePc)

/-- Where a background task starts. -/
def Bg.pc : Bg → Pc
  | .runChallenge authzId orderId => .runChallenge authzId orderId .getAuthz
  | .processFinalize orderId domain csrDer => .processFinalize orderId domain csrDer .getOrder

/-- A suspended coroutine, with the statements of its open transaction. -/
structure Task where
  pc : Pc
  tx : List Dml

/-! ### Segments -/

/-- The handler of a route, from the return of `verify_jws` to its first statement. -/
def routeStart (o : Oracle) (cfg : Settings) (req : Request) (accountId : String) (payload : Json)
    (now : Int) (ch : Choice) : Option (Seg Pc) :=
  match req.route with
  | .newAccount => some ((newAccountStart o req.toHttpRequest payload).map .newAccount)
  | .keyChange =>
      some ((keyChangeStart accountId req.toHttpRequest payload).map (.keyChange accountId))
  | .newOrder => (newOrderStart o cfg accountId payload now ch).map (.map (.newOrder accountId))
  | .order id => some (.goto (.getOrder accountId id .get))
  | .finalize id => some ((finalizeStart payload).map (.finalize accountId id))
  | .authz id => some (.goto (.getAuthz accountId id .get))
  | .challenge id => some (.goto (.challenge accountId id .get))
  | .cert id => some (.goto (.downloadCert accountId id .get))
  | .revokeCert => some ((revokeCertStart o payload).map (.revokeCert accountId))

def jwsSeg (o : Oracle) (cfg : Settings) (req : Request) (db : Db) (now : Int) (ch : Choice) :
    JwsPc → Option (Seg Pc)
  | .verify => some (.attempt (do
      let (j, _, accountId) ← authenticate o cfg db.accounts req.toHttpRequest
      let nonce ← headerNonce o j.header
      return (j, accountId, nonce)) fun (j, accountId, nonce) =>
    .goto (.jws req (.consume accountId nonce j.payloadB64 (nonceCutoff cfg now))))
  | .consume accountId nonce payload cutoff =>
      some { write := [.consumeNonce nonce cutoff]
             next := .goto (.jws req
               (.commit accountId payload (consumeRowcount db.nonces nonce cutoff))) }
  | .commit accountId payload rowcount =>
      match do checkRowcount rowcount; decodeJwsPayload o payload with
      | .error e => some { (Seg.fail e : Seg Pc) with commit := true }
      | .ok payload =>
          (routeStart o cfg req accountId payload now ch).map fun s => { s with commit := true }

/-- The segment a task runs from where it is suspended, on the database it sees. -/
def Pc.seg (o : Oracle) (cfg : Settings) (db : Db) (now : Int) (ch : Choice) :
    Pc → Option (Seg Pc)
  | .jws req p => jwsSeg o cfg req db now ch p
  | .newAccount p => (newAccountSeg cfg db now p ch).map (.map .newAccount)
  | .keyChange a p => some ((keyChangeSeg o cfg a db p).map (.keyChange a))
  | .newOrder a p => (newOrderSeg cfg a db now p ch).map (.map (.newOrder a))
  | .getOrder a id p => some ((getOrderSeg cfg a id db p).map (.getOrder a id))
  | .finalize a id p => some ((finalizeSeg cfg a id db p).map (.finalize a id))
  | .getAuthz a id p => some ((getAuthzSeg cfg a id db p).map (.getAuthz a id))
  | .challenge a id p => some ((challengeSeg cfg a id db p).map (.challenge a id))
  | .downloadCert a id p => some ((downloadCertSeg a id db p).map (.downloadCert a id))
  | .revokeCert a p => some ((revokeCertSeg o a db ch p).map (.revokeCert a))
  | .runChallenge z id p => some ((runChallengeSeg o z id db ch p).map (.runChallenge z id))
  | .processFinalize id domain csrDer p =>
      (processFinalizeSeg o id csrDer db now p ch).map (.map (.processFinalize id domain csrDer))
  | .reset p => some ((resetSeg p).map .reset)
  | .nonce p => some ((nonceSeg cfg db now ch p).map .nonce)
  | .prune p => some ((pruneSeg p).map .prune)

/-! ### The shared state -/

/-- One segment of the run: who ran it, from where, on which database, and to what effect. -/
structure Entry where
  tid : Nat
  pc : Pc
  seg : Seg Pc
  pre : Db
  post : Db
  now : Int
  /-- The number of the task it created, if it created one. -/
  child : Nat

structure Shared where
  db : Db
  now : Int
  /-- The task whose transaction holds the write lock. -/
  lock : Option Nat
  up : Bool
  log : List Entry

/-- The entry created the issuing task of order `id`. -/
def Entry.issues (e : Entry) (id : String) : Bool :=
  match e.seg.spawn with
  | some (.processFinalize id' _ _) => decide (id' = id)
  | _ => false

/-- The entry created a validating task of authorization `z`. -/
def Entry.validates (e : Entry) (z : String) : Bool :=
  match e.seg.spawn with
  | some (.runChallenge z' _) => decide (z' = z)
  | _ => false

/-- How often the issuing task was created for order `id`. -/
def issuances (l : List Entry) (id : String) : Nat := l.countP fun e => e.issues id

/-- How often a validating task was created for authorization `z`. -/
def validations (l : List Entry) (z : String) : Nat := l.countP fun e => e.validates z

/-- The relay before its first start. -/
def Shared.init : Shared := ⟨.empty, 0, none, false, []⟩

/-- The database as the task's own session sees it. -/
def Task.view (t : Task) (db : Db) : Db := (Dml.execAll t.tx db).getD db

/-- May task `i` send the statements? -/
def Shared.mayWrite (s : Shared) (i : Nat) (ds : List Dml) : Bool :=
  ds.isEmpty || decide (s.lock = none) || decide (s.lock = some i)

/-- The lock without task `i`. -/
def Shared.release (s : Shared) (i : Nat) : Option Nat := if s.lock = some i then none else s.lock

/-- The suspended task a segment leaves, with the statements it has not committed. -/
def Seg.self (seg : Seg Pc) (tx : List Dml) : Option Task :=
  match seg.next with
  | .goto p => some ⟨p, tx⟩
  | _ => none

/-- Does the relay serve after the segment? -/
def Seg.up (seg : Seg Pc) (up : Bool) : Bool :=
  match seg.next with
  | .serve => true
  | _ => up

/-- The effect of a segment of task `i`, whose child, if any, is task `n`.  A commit applies the
statements of the transaction; an integrity error leaves the commit out of reach. -/
def perform (i n : Nat) (s : Shared) (t : Task) (seg : Seg Pc) : Option (Outcome Shared Task) :=
  let tx := t.tx ++ seg.write
  let child := seg.spawn.map fun b => ⟨b.pc, []⟩
  let done (db : Db) (lock : Option Nat) (rest : List Dml) : Outcome Shared Task :=
    ⟨⟨db, s.now, lock, seg.up s.up, ⟨i, t.pc, seg, s.db, db, s.now, n⟩ :: s.log⟩,
      seg.self rest, child⟩
  if s.mayWrite i seg.write then
    if seg.commit then (Dml.execAll tx s.db).map fun db => done db (s.release i) []
    else if (seg.self tx).isSome && !seg.write.isEmpty then some (done s.db (some i) tx)
    else if (seg.self tx).isSome then some (done s.db s.lock tx)
    else some (done s.db (s.release i) [])
  else none

/-- What the environment decides. -/
inductive Input where
  | choose (ch : Choice)
  /-- The awaited statement fails, or the coroutine is cancelled. -/
  | fail
  | request (req : Request)
  /-- The middleware issues a nonce, the token it draws at hand. -/
  | issueNonce (token : String)
  | prune
  | clock (now : Int)
  | restart

/-- The relay. -/
def relay (o : Oracle) (cfg : Settings) : Machine Shared Task Input where
  run i n s t
    | .choose ch => (t.pc.seg o cfg (t.view s.db) s.now ch).bind (perform i n s t)
    | .fail => perform i n s t { next := .dbError }
    | _ => none
  arrive s
    | .request req => if s.up then some ⟨.jws req .verify, []⟩ else none
    | .issueNonce token =>
        if s.up then
          some ⟨.nonce (if 0 < cfg.nonceMax then .count else .commit token ⟨false, s.now⟩), []⟩
        else none
    | .prune => if s.up then some ⟨.prune (.delete (nonceCutoff cfg s.now)), []⟩ else none
    | _ => none
  tick s
    | .clock now => some { s with now }
    | _ => none
  restart s
    | .restart => some ({ s with lock := none, up := false }, ⟨.reset .orders, []⟩)
    | _ => none

/-- A configuration of the relay. -/
abbrev Relay := Config Shared Task

/-- `c` is reached by the relay, by any interleaving. -/
abbrev Reachable (o : Oracle) (cfg : Settings) (c : Relay) : Prop :=
  Reach (relay o cfg) (fun _ _ => True) .init c

/-! ### A small world

Clients, keys and requests small enough to run the relay on.  A key is a number, which is also its
signature; a request is five bytes; the account with key `k` signs as `10 + k` with its `kid`, and
as `k` with an embedded key. -/

namespace Demo

/-- The `n`th identifier that is drawn. -/
def uuid (n : Nat) : String := "00000000-0000-4000-8000-00000000000" ++ toString n

def jwk (k : Nat) : Json := .obj [("kty", .str "EC"), ("x", .str (toString k))]

/-- The resources, with one order and its authorization. -/
def route : UInt8 → Route
  | 0 => .newAccount
  | 1 => .newOrder
  | 2 => .challenge (uuid 4)
  | 3 => .finalize (uuid 3)
  | _ => .order (uuid 3)

def url : Route → String
  | .newAccount => "https://relay.test/acme/new-account"
  | .newOrder => "https://relay.test/acme/new-order"
  | .challenge id => "https://relay.test/acme/challenge/" ++ id
  | .finalize id => "https://relay.test/acme/order/" ++ id ++ "/finalize"
  | .order id => "https://relay.test/acme/order/" ++ id
  | _ => "https://relay.test/"

/-- A CSR for `host.test`, as a client sends it. -/
def csr : String :=
  "MIGxMGUCAQAwADAqMAUGAytlcAMhAMrAKTFh5vIHD9soI6_eJmbynB2dq6y0POfw8uKfsl5coDIwMAYJ" ++
    "KoZIhvcNAQkOMSMwITAJBgNVHRMEAjAAMBQGA1UdEQQNMAuCCWhvc3QudGVzdDAFBgMrZXADQQDnguDp" ++
    "s2Wn4eMio0jBFmMzHdw8XnTDYZKGrf_smS094EP-cHPmbFLPyangmCwii74wjZ6VBcUssPUtN8CdkXMB"

def csrDer : List UInt8 :=
  [48, 129, 177, 48, 101, 2, 1, 0, 48, 0, 48, 42, 48, 5, 6, 3, 43, 101, 112, 3,
   33, 0, 202, 192, 41, 49, 97, 230, 242, 7, 15, 219, 40, 35, 175, 222, 38, 102, 242, 156,
   29, 157, 171, 172, 180, 60, 231, 240, 242, 226, 159, 178, 94, 92, 160, 50, 48, 48, 6, 9,
   42, 134, 72, 134, 247, 13, 1, 9, 14, 49, 35, 48, 33, 48, 9, 6, 3, 85, 29, 19,
   4, 2, 48, 0, 48, 20, 6, 3, 85, 29, 17, 4, 13, 48, 11, 130, 9, 104, 111, 115,
   116, 46, 116, 101, 115, 116, 48, 5, 6, 3, 43, 101, 112, 3, 65, 0, 231, 130, 224, 233,
   179, 101, 167, 225, 227, 34, 163, 72, 193, 22, 99, 51, 29, 220, 60, 94, 116, 195, 97, 146,
   134, 173, 255, 236, 153, 45, 61, 224, 67, 254, 112, 115, 230, 108, 82, 207, 201, 169, 224, 152,
   44, 34, 139, 190, 48, 141, 158, 149, 5, 197, 44, 176, 245, 45, 55, 192, 157, 145, 115, 1]

/-- The CSR in PEM. -/
def csrPem : String :=
  "-----BEGIN CERTIFICATE REQUEST-----\n" ++
    "MIGxMGUCAQAwADAqMAUGAytlcAMhAMrAKTFh5vIHD9soI6/eJmbynB2dq6y0POfw\n" ++
    "8uKfsl5coDIwMAYJKoZIhvcNAQkOMSMwITAJBgNVHRMEAjAAMBQGA1UdEQQNMAuC\n" ++
    "CWhvc3QudGVzdDAFBgMrZXADQQDnguDps2Wn4eMio0jBFmMzHdw8XnTDYZKGrf/s\n" ++
    "mS094EP+cHPmbFLPyangmCwii74wjZ6VBcUssPUtN8CdkXMB\n" ++
    "-----END CERTIFICATE REQUEST-----\n"

def payload : UInt8 → Json
  | 1 => .obj [("identifiers", .arr [.obj [("type", .str "dns"), ("value", .str "host.test")]])]
  | 3 => .obj [("csr", .str csr)]
  | _ => .obj []

/-- The decoder: `0` starts a body, `1` a protected header, `2` a payload. -/
def decode : List UInt8 → Option Json
  | [0, signer, nonce, r] => some (.obj
      [("protected", .str (urlsafeB64encode [1, signer, nonce, r])),
       ("payload", .str (urlsafeB64encode [2, r])),
       ("signature", .str (urlsafeB64encode [signer % 10]))])
  | [1, signer, nonce, r] => some (.obj
      [("alg", .str "ES256"), ("url", .str (url (route r))),
       ("nonce", .str (toString nonce.toNat)),
       if signer < 10 then ("jwk", jwk signer.toNat)
       else ("kid", .str ("https://relay.test/acme/account/" ++ uuid (signer.toNat - 10)))])
  | [2, r] => some (payload r)
  | _ => none

def oracle : Oracle where
  Key := String
  jsonLoads := decode
  jsonLoadsText s := [jwk 1, jwk 2].find? fun j => canonicalJwk j = s
  jwkFromJson j := (j.get? "x").bind Json.text?
  verify _ key _ sig := some (sig.map (fun b => toString b.toNat) = [key])
  thumbprint _ := [0]
  repr _ := ""
  realText r := r
  derSerial _ := none
  leafSerial _ := none
  leafNotAfter _ := none
  derToPemCsr der := if der = csrDer then some csrPem else none

def settings : Settings := { relayDomain := "relay.test", nonceMax := 0 }

/-- A request, as a task that arrives. -/
def request (signer nonce r : UInt8) : Input :=
  .request ⟨⟨"application/jose+json", [0, signer, nonce, r], url (route r)⟩, route r⟩

/-- Task `i` runs, once for each choice. -/
def go (i : Nat) (chs : List Choice) : List (Action Input) :=
  chs.map fun ch => .run i (.choose ch)

/-- A task arrives as number `i` and runs. -/
def call (a : Input) (chs : List Choice) (i : Nat) : List (Action Input) := .arrive a :: go i chs

/-- `n` turns in which the world decides nothing. -/
def turns (n : Nat) : List Choice := List.replicate n {}

/-- The first start, with its reset. -/
def boot (i : Nat) : List (Action Input) := .restart .restart :: go i (turns 3)

def nonce (n : Nat) : Nat → List (Action Input) := call (.issueNonce (toString n)) (turns 1)

/-- `new_account` with key `k`, under identifier `k`. -/
def account (k n : UInt8) : Nat → List (Action Input) :=
  call (request k n 0) (turns 3 ++ [{ uuid := uuid k.toNat }] ++ turns 1)

def order (signer n : UInt8) : Nat → List (Action Input) :=
  call (request signer n 1) (turns 2 ++ [{ uuid := uuid 3, authzs := [(uuid 4, "tok")] }] ++ turns 1)

/-- How many task numbers the actions use up. -/
def numbers (as : List (Action Input)) : Nat :=
  as.countP fun
    | .tick _ => false
    | _ => true

/-- A script: each part is told the next free task number. -/
def script : Nat → List (Nat → List (Action Input)) → List (Action Input)
  | _, [] => []
  | n, part :: parts => part n ++ script (n + numbers (part n)) parts

/-- The relay after a script, every step of which passes the test. -/
def run (p : Relay → Relay → Bool) (parts : List (Nat → List (Action Input))) : Option Relay :=
  (relay oracle settings).schedule p (.start .init) (script 0 parts)

theorem reach_steps {p : Relay → Relay → Bool} {P : Relay → Relay → Prop}
    (hp : ∀ {c c' a}, Reach (relay oracle settings) P .init c →
      (relay oracle settings).step c a = some c' → p c c' = true → P c c')
    {parts : List (Nat → List (Action Input))} {c : Relay}
    (h : run p parts = some c) : Reach (relay oracle settings) P .init c :=
  Reach.schedule hp _ .start h

theorem reach {p : Relay → Relay → Bool} {P : Relay → Relay → Prop}
    (hp : ∀ {c c'}, Reach (relay oracle settings) P .init c → p c c' = true → P c c')
    {parts : List (Nat → List (Action Input))} {c : Relay}
    (h : run p parts = some c) : Reach (relay oracle settings) P .init c :=
  reach_steps (fun hr _ => hp hr) h

/-- A run to a ready order: the relay starts, six nonces are issued, and an account places an
order whose challenge is acknowledged and validated. -/
def readyOrder : List (Nat → List (Action Input)) :=
  [boot, nonce 1, nonce 2, nonce 3, nonce 4, nonce 5, nonce 6, account 1 1, order 11 2,
    call (request 11 3 2) (turns 7), fun _ => go 34 (turns 8)]

/-- The ready order, finalized. -/
def finalizedOrder : List (Nat → List (Action Input)) :=
  readyOrder ++ [call (request 11 4 3) (turns 7)]

/-- The issuing task is created, the request is answered 200, and the order is processing. -/
theorem finalizedOrder_run : ∃ c, run (fun _ _ => true) finalizedOrder = some c ∧
    (∃ r, c.shared.db.orders.get (uuid 3) = some r ∧ r.status = .processing) ∧
    (∃ e ∈ c.shared.log, e.seg.spawn = some (.processFinalize (uuid 3) "host.test" csrDer)) ∧
    ∃ e ∈ c.shared.log, ∃ a p r, e.pc = .finalize a (uuid 3) p ∧ e.seg.next = .respond r ∧
      r.status = 200 := by
  have hrun : (run (fun _ _ => true) finalizedOrder).any (fun c =>
      (c.shared.db.orders.get (uuid 3)).any (fun r => decide (r.status = .processing)) &&
      (c.shared.log.any fun e =>
        decide (e.seg.spawn = some (.processFinalize (uuid 3) "host.test" csrDer))) &&
      c.shared.log.any fun e => match e.pc, e.seg.next with
        | .finalize _ id _, .respond r => decide (id = uuid 3) && decide (r.status = 200)
        | _, _ => false) = true := by decide +kernel
  obtain ⟨c, hc, h⟩ := (Option.any_eq_true _ _).mp hrun
  obtain ⟨h, hanswer⟩ := (Bool.and_eq_true _ _).mp h
  obtain ⟨hstatus, hspawn⟩ := (Bool.and_eq_true _ _).mp h
  obtain ⟨r, hr, hst⟩ := (Option.any_eq_true _ _).mp hstatus
  obtain ⟨e, he, hs⟩ := List.any_eq_true.mp hspawn
  obtain ⟨e', he', ha⟩ := List.any_eq_true.mp hanswer
  refine ⟨c, hc, ⟨r, hr, of_decide_eq_true hst⟩, ⟨e, he, of_decide_eq_true hs⟩, e', he', ?_⟩
  split at ha
  · rename_i a id p r hpc hr
    simp only [Bool.and_eq_true, decide_eq_true_eq] at ha
    obtain ⟨rfl, hst⟩ := ha
    exact ⟨a, p, r, hpc, hr, hst⟩
  · cases ha

/-- The challenge of an order is acknowledged twice. -/
def postedTwice : List (Nat → List (Action Input)) :=
  [boot, nonce 1, nonce 2, nonce 3, nonce 4, nonce 5, nonce 6, account 1 1, order 11 2,
    call (request 11 3 2) (turns 7), call (request 11 4 2) (turns 5)]

/-- The first validation returns, the order is finalized and its certificate stored; then the
second one returns, and the order is finalized again. -/
def acknowledgedTwice : List (Nat → List (Action Input)) :=
  postedTwice ++ [fun _ => go 34 (turns 8), call (request 11 5 3) (turns 7),
    fun _ => go 55 (turns 1 ++ [{ issued := .ok "pem" }, { uuid := uuid 5 }] ++ turns 2),
    fun _ => go 40 (turns 8), call (request 11 6 3) (turns 7)]

/-- The order was valid and is not any more, and its tasks were created twice. -/
theorem acknowledgedTwice_run : ∃ c, run (fun _ _ => true) acknowledgedTwice = some c ∧
    validations c.shared.log (uuid 4) = 2 ∧ issuances c.shared.log (uuid 3) = 2 ∧
    (∃ e ∈ c.shared.log, ∃ r, e.post.orders.get (uuid 3) = some r ∧ r.status = .valid) ∧
    ∃ r, c.shared.db.orders.get (uuid 3) = some r ∧ r.status = .processing := by
  have hrun : (run (fun _ _ => true) acknowledgedTwice).any (fun c =>
      decide (validations c.shared.log (uuid 4) = 2) &&
      decide (issuances c.shared.log (uuid 3) = 2) &&
      (c.shared.log.any fun e =>
        (e.post.orders.get (uuid 3)).any fun r => decide (r.status = .valid)) &&
      (c.shared.db.orders.get (uuid 3)).any fun r => decide (r.status = .processing)) = true := by
    decide +kernel
  obtain ⟨c, hc, h⟩ := (Option.any_eq_true _ _).mp hrun
  simp only [Bool.and_eq_true, decide_eq_true_eq, List.any_eq_true, Option.any_eq_true] at h
  obtain ⟨⟨⟨hv, hi⟩, he⟩, hr⟩ := h
  exact ⟨c, hc, hv, hi, he, hr⟩

end Demo

end Jackdaw
