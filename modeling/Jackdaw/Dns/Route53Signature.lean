import Mathlib.Data.List.Sort
import Mathlib.Data.Prod.Lex
import Mathlib.Data.String.Basic
import Jackdaw.Support.Percent
import Jackdaw.Dns.Route53Xml

/-!
# Dns — Route 53 signatures

`_canonical_qs`, `_derive_key`, `_sigv4_headers` and `_auth`, with SHA-256 and HMAC as they are
given, and the three requests that `_zone_id`, `set_txt` and `delete_txt` send.

* `canonicalQs_eq_iff`: a query string stands for its parameters, in whatever order they are given.
* `canonical_injective`: a canonical request has one method, one path, one query, and the digest of
  one body.  A path may have line ends in it; the parts on either side of it have none.
* `signature_covers`: two requests of a provider with the same headers were made in the same second
  and are the same request, unless their digests or their signatures collide.
-/

namespace Jackdaw

open Support Support.Percent

namespace Route53

/-! ### Query strings -/

section Query

variable {params params' : List (String × String)}

/-- `sorted(params.items())` -/
def sortParams (params : List (String × String)) : List (String × String) :=
  params.insertionSort fun p q => toLex p ≤ toLex q

/-- `_canonical_qs` -/
def canonicalQs (params : List (String × String)) : String := query (sortParams params)

theorem sortParams_perm (params : List (String × String)) : (sortParams params).Perm params :=
  List.perm_insertionSort _ params

theorem sortParams_eq_of_perm (h : params.Perm params') : sortParams params = sortParams params' := by
  let byItem : String × String → String × String → Prop := fun p q => toLex p ≤ toLex q
  have : Std.Total byItem := ⟨fun p q => le_total (toLex p) (toLex q)⟩
  have : IsTrans (String × String) byItem := ⟨fun _ _ _ h h' => le_trans h h'⟩
  have hsorted : ∀ l, (sortParams l).Pairwise byItem := fun l =>
    List.pairwise_insertionSort byItem l
  refine List.Perm.eq_of_pairwise ?_ (hsorted params) (hsorted params')
    ((sortParams_perm params).trans (h.trans (sortParams_perm params').symm))
  intro p q _ _ hpq hqp
  exact toLex.injective (le_antisymm hpq hqp)

/-- **A query string stands for its parameters**, in any order. -/
theorem canonicalQs_eq_iff : canonicalQs params = canonicalQs params' ↔ params.Perm params' := by
  constructor
  · intro h
    have hsame : sortParams params = sortParams params' := query_injective h
    exact (sortParams_perm params).symm.trans (hsame ▸ sortParams_perm params')
  · intro h
    rw [canonicalQs, canonicalQs, sortParams_eq_of_perm h]

example : canonicalQs [("name", "_acme-challenge.a b"), ("maxitems", "1")] =
    "maxitems=1&name=_acme-challenge.a%20b" := by decide +kernel

theorem newline_not_mem_canonicalQs : '\n' ∉ (canonicalQs params).toList := by
  intro h
  rcases query_safe h with h | h | h
  · exact absurd h (by decide)
  · exact absurd h (by decide)
  · exact absurd h (by decide)

end Query

/-! ### Digests -/

/-- `hashlib.sha256(…).digest()` and `hmac.new(…, …, hashlib.sha256).digest()` -/
structure Digests where
  sha256 : List UInt8 → List UInt8
  hmac : List UInt8 → List UInt8 → List UInt8

/-- `bytes.hex` -/
def hexdigest (bs : List UInt8) : String := String.ofList (bs.flatMap fun b => Text.pair 16 b.toNat)

theorem hexdigest_injective : Function.Injective hexdigest := by
  intro bs cs h
  have hchars : (bs.flatMap fun b => Text.pair 16 b.toNat) = cs.flatMap fun b =>
    Text.pair 16 b.toNat := String.ofList_injective h
  clear h
  induction bs generalizing cs with
  | nil =>
      cases cs with
      | nil => rfl
      | cons c cs => cases hchars
  | cons b bs ih =>
      cases cs with
      | nil => cases hchars
      | cons c cs =>
          obtain ⟨hpair, hrest⟩ := List.append_inj hchars rfl
          have hb : b.toNat = c.toNat :=
            Text.pair_injective (by decide) (by decide) b.toNat_lt c.toNat_lt hpair
          rw [UInt8.toNat_inj.mp hb, ih hrest]

theorem newline_not_mem_hexdigest (bs : List UInt8) : '\n' ∉ (hexdigest bs).toList := by
  have hall : ∀ n < 256, '\n' ∉ Text.pair 16 n := by decide +kernel
  rw [hexdigest, String.toList_ofList]
  intro h
  obtain ⟨b, -, hb⟩ := List.mem_flatMap.mp h
  exact hall b.toNat b.toNat_lt hb

/-! ### The time of a request -/

/-- A second of UTC, in a year of four digits. -/
structure Second where
  year : Nat
  month : Nat
  day : Nat
  hour : Nat
  minute : Nat
  second : Nat
  year_ge : 1000 ≤ year
  year_lt : year < 10000
  month_le : month ≤ 12
  day_le : day ≤ 31
  hour_lt : hour < 24
  minute_lt : minute < 60
  second_lt : second < 60
deriving DecidableEq

/-- `strftime("%Y%m%d")` -/
def Second.date (t : Second) : String :=
  String.ofList (Text.pair 10 (t.year / 100) ++ Text.pair 10 (t.year % 100) ++
    Text.pair 10 t.month ++ Text.pair 10 t.day)

/-- `strftime("%Y%m%dT%H%M%SZ")` -/
def Second.amzdate (t : Second) : String :=
  t.date ++ "T" ++ String.ofList (Text.pair 10 t.hour ++ Text.pair 10 t.minute ++
    Text.pair 10 t.second) ++ "Z"

theorem Second.amzdate_injective : Function.Injective Second.amzdate := by
  rintro ⟨year, month, day, hour, minute, second, _, hyear, hmonth, hday, hhour, hminute, hsecond⟩
    ⟨year', month', day', hour', minute', second', _, hyear', hmonth', hday', hhour', hminute',
      hsecond'⟩ h
  have hchars := congrArg String.toList h
  simp only [amzdate, date, Text.pair, String.toList_append, String.toList_ofList, List.cons_append,
    List.nil_append, String.reduceToList, List.cons.injEq] at hchars
  have hpair : ∀ m < 100, ∀ n < 100, (m / 10).digitChar = (n / 10).digitChar →
      (m % 10).digitChar = (n % 10).digitChar → m = n := by
    intro m hm n hn h h'
    refine Text.pair_injective (b := 10) (by decide) (by decide) hm hn ?_
    rw [Text.pair, Text.pair, h, h']
  obtain ⟨hc, hc', hy, hy', hmo, hmo', hd, hd', -, hh, hh', hmi, hmi', hs, hs', -⟩ := hchars
  have hcentury := hpair (year / 100) (by omega) (year' / 100) (by omega) hc hc'
  have hyears := hpair (year % 100) (by omega) (year' % 100) (by omega) hy hy'
  have hfull : year = year' := by rw [← Nat.div_add_mod year 100, hcentury, hyears, Nat.div_add_mod]
  cases hfull
  cases hpair month (by omega) month' (by omega) hmo hmo'
  cases hpair day (by omega) day' (by omega) hd hd'
  cases hpair hour (by omega) hour' (by omega) hh hh'
  cases hpair minute (by omega) minute' (by omega) hmi hmi'
  cases hpair second (by omega) second' (by omega) hs hs'
  rfl

/-! ### Signing -/

/-- `_REGION` -/
def region : String := "us-east-1"

/-- `_SERVICE` -/
def service : String := "route53"

def host : String := "route53.amazonaws.com"

/-- What is signed of a request. -/
structure Request where
  method : String
  path : String
  query : String
  body : String
deriving DecidableEq

/-- `Route53DNSProvider.__init__`: the credentials of a provider. -/
structure Provider where
  accessKey : String
  secretKey : String
  token : String

section Signing

variable (d : Digests)

/-- `_mac` -/
def mac (key : List UInt8) (msg : String) : List UInt8 := d.hmac key (utf8 msg)

/-- `_derive_key` -/
def deriveKey (secret date : String) : List UInt8 :=
  let k := mac d (utf8 ("AWS4" ++ secret)) date
  let k := mac d k region
  let k := mac d k service
  mac d k "aws4_request"

def bodyHash (r : Request) : String := hexdigest (d.sha256 (utf8 r.body))

def canonicalHeaders (t : Second) (token : String) : String :=
  if token ≠ "" then
    "host:" ++ host ++ "\nx-amz-date:" ++ t.amzdate ++ "\nx-amz-security-token:" ++ token ++ "\n"
  else "host:" ++ host ++ "\nx-amz-date:" ++ t.amzdate ++ "\n"

def signedHeaders (token : String) : String :=
  if token ≠ "" then "host;x-amz-date;x-amz-security-token" else "host;x-amz-date"

/-- The canonical request. -/
def canonical (t : Second) (r : Request) (token : String) : String :=
  Text.join '\n' [r.method, r.path, r.query, canonicalHeaders t token, signedHeaders token,
    bodyHash d r]

def scope (t : Second) : String := t.date ++ "/" ++ region ++ "/" ++ service ++ "/aws4_request"

def stringToSign (t : Second) (r : Request) (token : String) : String :=
  Text.join '\n' ["AWS4-HMAC-SHA256", t.amzdate, scope t,
    hexdigest (d.sha256 (utf8 (canonical d t r token)))]

def sig (t : Second) (r : Request) (secretKey token : String) : String :=
  hexdigest (d.hmac (deriveKey d secretKey t.date) (utf8 (stringToSign d t r token)))

def authorization (t : Second) (r : Request) (accessKey secretKey token : String) : String :=
  "AWS4-HMAC-SHA256 Credential=" ++ accessKey ++ "/" ++ scope t ++ "," ++
    " SignedHeaders=" ++ signedHeaders token ++ ", Signature=" ++ sig d t r secretKey token

/-- `_sigv4_headers` -/
def sigv4Headers (t : Second) (r : Request) (accessKey secretKey token : String) :
    List (String × String) :=
  [("X-Amz-Date", t.amzdate), ("Authorization", authorization d t r accessKey secretKey token)] ++
    if token ≠ "" then [("X-Amz-Security-Token", token)] else []

/-- `_auth` -/
def Provider.auth (p : Provider) (t : Second) (r : Request) : List (String × String) :=
  sigv4Headers d t r p.accessKey p.secretKey p.token

end Signing

/-! ### What the provider asks for -/

/-- What the provider asks Route 53 for. -/
inductive Call where
  /-- `_zone_id` -/
  | zoneId (domain : String)
  /-- the listing in `delete_txt` -/
  | listTxt (z name : String)
  /-- the change in `set_txt` and in `delete_txt` -/
  | change (z : String) (action : ChangeAction) (name : String) (values : List String)

def rrsetPath (z : String) : String := "/2013-04-01/hostedzone/" ++ z ++ "/rrset"

/-- The request, as it is given to `_auth`. -/
def Call.request : Call → Request
  | .zoneId domain => ⟨"GET", "/2013-04-01/hostedzonesbyname",
      canonicalQs [("dnsname", domain), ("maxitems", "1")], ""⟩
  | .listTxt z name => ⟨"GET", rrsetPath z,
      canonicalQs [("maxitems", "1"), ("name", name), ("type", "TXT")], ""⟩
  | .change z action name values => ⟨"POST", rrsetPath z, "",
      changeXmlText action name values⟩

/-! ### Different calls are different requests -/

theorem escapeChar_append_inj {c c' : Char} {xs ys : List Char}
    (h : Xml.escapeChar c ++ xs = Xml.escapeChar c' ++ ys) : c = c' ∧ xs = ys := by
  unfold Xml.escapeChar at h
  split at h <;> split at h <;> simp_all <;> (rename_i hne _ _; exact absurd h.1.symm hne)

theorem escapeChar_ne_nil (c : Char) : Xml.escapeChar c ≠ [] := by
  intro h
  rcases Xml.head_escapeChar c with hc | ⟨hc, -⟩
  · rw [h] at hc
    cases hc
  · rw [h] at hc
    cases hc

theorem escape_injective : Function.Injective Xml.escape := by
  intro cs ds h
  induction cs generalizing ds with
  | nil =>
      cases ds with
      | nil => rfl
      | cons d ds => exact absurd (List.append_eq_nil_iff.mp h.symm).1 (escapeChar_ne_nil d)
  | cons c cs ih =>
      cases ds with
      | nil => exact absurd (List.append_eq_nil_iff.mp h).1 (escapeChar_ne_nil c)
      | cons d ds =>
          obtain ⟨rfl, hrest⟩ := escapeChar_append_inj h
          rw [ih hrest]

theorem lt_not_mem_escape (s : String) : '<' ∉ (escape s).toList := by
  rw [escape, String.toList_ofList, Xml.escape]
  intro h
  obtain ⟨c, -, hc⟩ := List.mem_flatMap.mp h
  unfold Xml.escapeChar at hc
  split at hc
  · exact absurd hc (by decide)
  · exact absurd hc (by decide)
  · exact absurd hc (by decide)
  · next hne _ => exact hne (List.mem_singleton.mp hc).symm

theorem escape_inj {s t : String} (h : (escape s).toList = (escape t).toList) : s = t := by
  rw [escape, escape, String.toList_ofList, String.toList_ofList] at h
  exact String.toList_injective (escape_injective h)

/-- The records of a document, and what follows them. -/
theorem recordsText_append_inj {values values' : List String} {xs ys : List Char}
    (h : (recordsText values).toList ++ ("</ResourceRecords>".toList ++ xs) =
      (recordsText values').toList ++ ("</ResourceRecords>".toList ++ ys)) : values = values' := by
  have hcons : ∀ v vs, (recordsText (v :: vs)).toList = "<ResourceRecord><Value>".toList ++
      ((escape v).toList ++ ("</Value></ResourceRecord>".toList ++ (recordsText vs).toList)) := by
    intro v vs
    simp [recordsText, String.toList_join, String.toList_append]
  have hends : ∀ xs, "</Value></ResourceRecord>".toList ++ xs =
    '<' :: ("/Value></ResourceRecord>".toList ++ xs) := fun _ => rfl
  induction values generalizing values' with
  | nil =>
      cases values' with
      | nil => rfl
      | cons v vs =>
          rw [hcons] at h
          cases h
  | cons v vs ih =>
      cases values' with
      | nil =>
          rw [hcons] at h
          cases h
      | cons w ws =>
          simp only [hcons, List.append_assoc, List.append_cancel_left_eq, hends, List.cons_append] at h
          obtain ⟨hvalue, hrest⟩ := Text.append_cons_inj (lt_not_mem_escape v)
            (lt_not_mem_escape w) h
          rw [escape_inj hvalue, ih (List.append_cancel_left hrest)]

theorem actionText_append_inj {action action' : ChangeAction} {xs ys : List Char}
    (h : (actionText action).toList ++ xs = (actionText action').toList ++ ys) :
    action = action' ∧ xs = ys := by
  cases action with
  | create =>
      cases action' with
      | create => exact ⟨rfl, List.append_cancel_left h⟩
      | delete => cases h
  | delete =>
      cases action' with
      | create => cases h
      | delete => exact ⟨rfl, List.append_cancel_left h⟩

/-- The parts of a document. -/
theorem changeXmlText_parts : ∃ opening middle closing rest, ∀ action name values,
    (changeXmlText action name values).toList = opening ++ ((actionText action).toList ++ (middle ++
      (((escape name).toList ++ ['.']) ++ '<' :: (closing ++
        ((recordsText values).toList ++ ("</ResourceRecords>".toList ++ rest)))))) := by
  refine ⟨("<?xml version=\"1.0\" encoding=\"UTF-8\"?>" ++
      ("<ChangeResourceRecordSetsRequest xmlns=\"" ++ ns ++ "\">") ++
      "<ChangeBatch><Changes><Change>" ++ "<Action>").toList,
    ("</Action>" ++ "<ResourceRecordSet>" ++ "<Name>").toList,
    ("/Name>" ++ "<Type>TXT</Type><TTL>120</TTL>" ++ "<ResourceRecords>").toList,
    ("</ResourceRecordSet>" ++ "</Change></Changes></ChangeBatch>" ++
      "</ChangeResourceRecordSetsRequest>").toList, fun action name values => ?_⟩
  have hname : ".</Name>".toList = '.' :: '<' :: "/Name>".toList := rfl
  delta changeXmlText
  simp only [String.toList_append, List.append_assoc, hname, List.cons_append, List.nil_append]

/-- **A document is of one change.** -/
theorem changeXmlText_inj {action action' : ChangeAction} {name name' : String}
    {values values' : List String}
    (h : changeXmlText action name values = changeXmlText action' name' values') :
    action = action' ∧ name = name' ∧ values = values' := by
  obtain ⟨opening, middle, closing, rest, hparts⟩ := changeXmlText_parts
  have hchars := congrArg String.toList h
  rw [hparts, hparts] at hchars
  obtain ⟨rfl, hnamed⟩ := actionText_append_inj (List.append_cancel_left hchars)
  have hname : ∀ s, '<' ∉ (escape s).toList ++ ['.'] := by
    intro s hs
    rcases List.mem_append.mp hs with hs | hs
    · exact lt_not_mem_escape s hs
    · exact absurd hs (by decide)
  obtain ⟨hnames, hrecords⟩ := Text.append_cons_inj (hname name) (hname name')
    (List.append_cancel_left hnamed)
  exact ⟨rfl, escape_inj (List.append_cancel_right hnames),
    recordsText_append_inj (List.append_cancel_left hrecords)⟩

theorem rrsetPath_injective : Function.Injective rrsetPath := by
  intro z z' h
  delta rrsetPath at h
  exact (String.append_right_inj _).mp ((String.append_left_inj _).mp h)

theorem rrsetPath_ne (z : String) : rrsetPath z ≠ "/2013-04-01/hostedzonesbyname" := by
  intro h
  have hchars : ("/2013-04-01/hostedzone/" ++ z ++ "/rrset").toList =
      "/2013-04-01/hostedzonesbyname".toList := congrArg String.toList h
  simp only [String.toList_append, String.reduceToList, List.cons_append, List.cons.injEq] at hchars
  simp at hchars

/-- **Different calls are different requests.** -/
theorem Call.request_injective : Function.Injective Call.request := by
  intro c c' h
  have hmethod := congrArg Request.method h
  have hpath := congrArg Request.path h
  have hquery := congrArg Request.query h
  have hbody := congrArg Request.body h
  cases c with
  | zoneId domain =>
      cases c' with
      | zoneId domain' =>
          have hperm := canonicalQs_eq_iff.mp hquery
          have hmem : ("dnsname", domain) ∈ [("dnsname", domain'), ("maxitems", "1")] :=
            hperm.mem_iff.mp List.mem_cons_self
          simpa using hmem
      | listTxt z name => exact absurd hpath.symm (rrsetPath_ne z)
      | change z action name values => exact absurd hpath.symm (rrsetPath_ne z)
  | listTxt z name =>
      cases c' with
      | zoneId domain => exact absurd hpath (rrsetPath_ne z)
      | listTxt z' name' =>
          have hperm := canonicalQs_eq_iff.mp hquery
          have hmem : ("name", name) ∈ [("maxitems", "1"), ("name", name'), ("type", "TXT")] :=
            hperm.mem_iff.mp (List.mem_cons_of_mem _ List.mem_cons_self)
          rw [rrsetPath_injective hpath]
          simpa using hmem
      | change z' action name values => exact absurd hmethod (by simp [request])
  | change z action name values =>
      cases c' with
      | zoneId domain => exact absurd hpath (rrsetPath_ne z)
      | listTxt z' name => exact absurd hmethod (by simp [request])
      | change z' action' name' values' =>
          obtain ⟨rfl, rfl, rfl⟩ := changeXmlText_inj hbody
          rw [rrsetPath_injective hpath]

/-! ### What a signature covers -/

/-- The method and the query of a request have no line ends; its path may have. -/
def Request.OneLine (r : Request) : Prop := '\n' ∉ r.method.toList ∧ '\n' ∉ r.query.toList

theorem Call.oneLine (c : Call) : c.request.OneLine := by
  have hget : '\n' ∉ "GET".toList := by decide
  have hpost : '\n' ∉ "POST".toList := by decide
  have hempty : '\n' ∉ "".toList := by decide
  cases c with
  | zoneId domain => exact ⟨hget, newline_not_mem_canonicalQs⟩
  | listTxt z name => exact ⟨hget, newline_not_mem_canonicalQs⟩
  | change z action name values => exact ⟨hpost, hempty⟩

/-- Two texts with one digest. -/
def Collide (digest : List UInt8 → List UInt8) (s s' : String) : Prop :=
  s ≠ s' ∧ digest (utf8 s) = digest (utf8 s')

theorem Collide.iff {digest : List UInt8 → List UInt8} {s s' : String} :
    hexdigest (digest (utf8 s)) = hexdigest (digest (utf8 s')) ↔ s = s' ∨ Collide digest s s' := by
  rw [hexdigest_injective.eq_iff]
  constructor
  · intro h
    by_cases hs : s = s'
    · exact .inl hs
    · exact .inr ⟨hs, h⟩
  · rintro (rfl | h)
    · rfl
    · exact h.2

section Covers

variable {d : Digests} {t t' : Second} {r r' : Request} {accessKey secretKey token : String}

/-- The same, but for what is sent with it. -/
def Request.SameTarget (r r' : Request) : Prop :=
  r.method = r'.method ∧ r.path = r'.path ∧ r.query = r'.query

/-- **A canonical request has its parts.** -/
theorem canonical_eq_iff (hr : r.OneLine) (hr' : r'.OneLine) :
    canonical d t r token = canonical d t r' token ↔
      r.SameTarget r' ∧ bodyHash d r = bodyHash d r' := by
  constructor
  · intro h
    have hparts := congrArg (Text.split · '\n') h
    simp only [canonical, Text.split_join_flatMap (List.cons_ne_nil _ _), List.flatMap_cons,
      List.flatMap_nil, Text.split_of_not_mem hr.1, Text.split_of_not_mem hr'.1,
      Text.split_of_not_mem hr.2, Text.split_of_not_mem hr'.2, List.append_nil,
      Text.split_of_not_mem (newline_not_mem_hexdigest _), bodyHash, List.singleton_append,
      List.cons.injEq] at hparts
    obtain ⟨hmethod, hrest⟩ := hparts
    -- The path is the only part of unknown length: what is behind it is taken from the end.
    have hends : ∀ {q q' : String} {xs ys ps ps' : List String}, xs.length = ys.length →
        ps ++ q :: xs = ps' ++ q' :: ys → ps = ps' ∧ q = q' ∧ xs = ys := by
      intro q q' xs ys ps ps' hlen heq
      obtain ⟨hps, hqs⟩ := List.append_inj' heq (by rw [List.length_cons, List.length_cons, hlen])
      exact ⟨hps, (List.cons.inj hqs).1, (List.cons.inj hqs).2⟩
    obtain ⟨hpath, hquery, htail⟩ := hends (by simp) hrest
    refine ⟨⟨hmethod, Text.split_injective '\n' hpath, hquery⟩, ?_⟩
    have hlast := List.append_cancel_left (List.append_cancel_left htail)
    exact (List.cons.inj hlast).1
  · rintro ⟨⟨hmethod, hpath, hquery⟩, hbody⟩
    rw [canonical, canonical, hmethod, hpath, hquery, hbody]

theorem stringToSign_eq_iff : stringToSign d t r token = stringToSign d t r' token ↔
    hexdigest (d.sha256 (utf8 (canonical d t r token))) =
      hexdigest (d.sha256 (utf8 (canonical d t r' token))) := by
  constructor
  · intro h
    have hchars := congrArg String.toList h
    simp only [stringToSign, Text.join, String.toList_ofList, List.map_cons, List.map_nil,
      List.intercalate_cons_cons, List.intercalate_singleton, List.append_cancel_left_eq] at hchars
    exact String.toList_injective hchars
  · intro h
    rw [stringToSign, stringToSign, h]

theorem sigv4Headers_eq_iff : sigv4Headers d t r accessKey secretKey token =
    sigv4Headers d t' r' accessKey secretKey token ↔
      t = t' ∧ sig d t r secretKey token = sig d t r' secretKey token := by
  constructor
  · intro h
    obtain ⟨hdate, hrest⟩ := List.cons.inj h
    obtain rfl := Second.amzdate_injective (congrArg Prod.snd hdate)
    have hauth : authorization d t r accessKey secretKey token =
      authorization d t r' accessKey secretKey token := congrArg Prod.snd (List.cons.inj hrest).1
    delta authorization at hauth
    exact ⟨rfl, (String.append_right_inj _).mp hauth⟩
  · rintro ⟨rfl, h⟩
    delta sigv4Headers authorization
    rw [h]

end Covers

/-- **The headers of a call are for that call, in that second**: another one has them exactly where
two bodies, two canonical requests or two texts to sign have one digest. -/
theorem signature_covers (d : Digests) (p : Provider) (t t' : Second) (c c' : Call) :
    p.auth d t c.request = p.auth d t' c'.request ↔ t = t' ∧
      (c = c' ∨
        c.request.SameTarget c'.request ∧ Collide d.sha256 c.request.body c'.request.body ∨
        Collide d.sha256 (canonical d t c.request p.token) (canonical d t c'.request p.token) ∨
        Collide (d.hmac (deriveKey d p.secretKey t.date)) (stringToSign d t c.request p.token)
          (stringToSign d t c'.request p.token)) := by
  have hcall : c = c' ↔ c.request.SameTarget c'.request ∧ c.request.body = c'.request.body := by
    constructor
    · rintro rfl
      exact ⟨⟨rfl, rfl, rfl⟩, rfl⟩
    · rintro ⟨⟨hmethod, hpath, hquery⟩, hbody⟩
      refine Call.request_injective ?_
      cases hreq : c.request
      cases hreq' : c'.request
      simp only [hreq, hreq'] at hmethod hpath hquery hbody
      rw [hmethod, hpath, hquery, hbody]
  rw [Provider.auth, Provider.auth, sigv4Headers_eq_iff, sig, sig, Collide.iff, stringToSign_eq_iff,
    Collide.iff, canonical_eq_iff c.oneLine c'.oneLine, bodyHash, bodyHash, Collide.iff, hcall,
    and_or_left (a := c.request.SameTarget c'.request), or_assoc, or_assoc]

end Route53

end Jackdaw
