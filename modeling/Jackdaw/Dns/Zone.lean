import Jackdaw.Dns.Providers
import Jackdaw.Routes.Order

/-!
# DNS — zones and challenge names

`_apex_domain` of `le_client.py`, and the calls `fulfill_dns_01` and `clear_dns_01` make of it: the
zone of a domain, the full name of the challenge record, and the relative name the Porkbun and
Namecheap providers derive from the two.

* `zone_splits_iff`: the zone is made of the last labels of the domain, the longest override or the
  last two of them, and zone and relative name make up the challenge name, exactly where the domain
  does not end with a dot behind something else.  The zone is taken without the trailing dots and
  the name with them, so the suffix is not found (`final_dot_not_split`).
-/

namespace Jackdaw

open Support

/-- `max(matches, key=len)`, which is the first of the longest. -/
def maxByLen : List String → Option String
  | [] => none
  | z :: zs =>
      match maxByLen zs with
      | none => some z
      | some w => if z.length < w.length then some w else some z

/-- `_apex_domain`. -/
def apexDomain (domain : String) (overrides : List String) : String :=
  let d := Text.rstripChar domain '.'
  match maxByLen (overrides.filter fun z => decide (d = z) || Text.endsWith d ("." ++ z)) with
  | some z => z
  | none => Text.join '.' ((Text.split d '.').drop ((Text.split d '.').length - 2))

/-- `f"_acme-challenge.{domain}"`. -/
def challengeName (domain : String) : String := "_acme-challenge." ++ domain

theorem challengeName_toList (domain : String) :
    (challengeName domain).toList = "_acme-challenge.".toList ++ domain.toList :=
  String.toList_append

/-- What `fulfill_dns_01` asks of the provider: the zone, and the operation. -/
def fulfillDns01 (cfg : Settings) (domain value : String) : String × TxtOp :=
  (apexDomain domain cfg.dnsZoneOverrideList, .setTxt (challengeName domain) value)

/-- What `clear_dns_01` asks of the provider. -/
def clearDns01 (cfg : Settings) (domain : String) : String × TxtOp :=
  (apexDomain domain cfg.dnsZoneOverrideList, .deleteTxt (challengeName domain))

/-! ### The zone -/

section Zone

variable {domain d z : String} {overrides : List String}

theorem maxByLen_eq_none_iff {zs : List String} : maxByLen zs = none ↔ zs = [] := by
  cases zs with
  | nil => simp [maxByLen]
  | cons z zs =>
      simp only [maxByLen, reduceCtorEq, iff_false]
      split
      · simp
      · split <;> simp

theorem maxByLen_eq_some {zs : List String} (h : maxByLen zs = some z) :
    z ∈ zs ∧ ∀ w ∈ zs, w.length ≤ z.length := by
  induction zs generalizing z with
  | nil => cases h
  | cons x xs ih =>
      rw [maxByLen] at h
      cases hrest : maxByLen xs with
      | none =>
          rw [hrest] at h
          cases h
          rw [maxByLen_eq_none_iff.mp hrest]
          exact ⟨List.mem_cons_self, fun w hw => (List.mem_singleton.mp hw) ▸ Nat.le_refl _⟩
      | some y =>
          rw [hrest] at h
          obtain ⟨hy, hmax⟩ := ih hrest
          simp only at h
          split at h
          · next hlt =>
              cases h
              refine ⟨List.mem_cons_of_mem _ hy, fun w hw => ?_⟩
              rcases List.mem_cons.mp hw with rfl | hw
              · exact hlt.le
              · exact hmax w hw
          · next hge =>
              cases h
              refine ⟨List.mem_cons_self, fun w hw => ?_⟩
              rcases List.mem_cons.mp hw with rfl | hw
              · exact Nat.le_refl _
              · exact (hmax w hw).trans (not_lt.mp hge)

/-- The labels of a name. -/
def labels (s : String) : List String := Text.split s '.'

/-- The domain falls under the zone. -/
def Under (d z : String) : Prop := labels z <:+ labels d

/-- The test of `_apex_domain` is the one on labels. -/
theorem under_iff : (decide (d = z) || Text.endsWith d ("." ++ z)) = true ↔ Under d z := by
  have htoList : ("." ++ z).toList = '.' :: z.toList := by simp
  rw [Bool.or_eq_true, decide_eq_true_eq, Text.endsWith_iff, htoList, Under, labels, labels,
    Text.split_suffix_iff]

/-- The zone of a domain `d` without trailing dots: the longest override it falls under, or its
last two labels. -/
structure IsZone (d : String) (overrides : List String) (z : String) : Prop where
  under : Under d z
  override : (∃ w ∈ overrides, Under d w) →
    z ∈ overrides ∧ ∀ w ∈ overrides, Under d w → w.length ≤ z.length
  lastTwo : (¬ ∃ w ∈ overrides, Under d w) → labels z = (labels d).drop ((labels d).length - 2)

theorem apexDomain_isZone (domain : String) (overrides : List String) :
    IsZone (Text.rstripChar domain '.') overrides (apexDomain domain overrides) := by
  generalize hd : Text.rstripChar domain '.' = d
  have hmatches : ∀ w, w ∈ overrides.filter (fun z => decide (d = z) || Text.endsWith d ("." ++ z)) ↔
      w ∈ overrides ∧ Under d w := by
    intro w
    rw [List.mem_filter, under_iff]
  unfold apexDomain
  simp only [hd]
  cases hmax : maxByLen (overrides.filter fun z => decide (d = z) || Text.endsWith d ("." ++ z)) with
  | some z =>
      obtain ⟨hz, hlongest⟩ := maxByLen_eq_some hmax
      obtain ⟨hmem, hunder⟩ := (hmatches z).mp hz
      exact ⟨hunder, fun _ => ⟨hmem, fun w hw hwu => hlongest w ((hmatches w).mpr ⟨hw, hwu⟩)⟩,
        fun hno => absurd ⟨z, hmem, hunder⟩ hno⟩
  | none =>
      have hnone := maxByLen_eq_none_iff.mp hmax
      have hno : ¬ ∃ w ∈ overrides, Under d w := by
        rintro ⟨w, hw, hwu⟩
        have hmem := (hmatches w).mpr ⟨hw, hwu⟩
        rw [hnone] at hmem
        cases hmem
      have hlen : 0 < (labels d).length := List.length_pos_iff.mpr (Text.split_ne_nil d '.')
      have hdrop : (labels d).drop ((labels d).length - 2) ≠ [] := by
        intro hnil
        have hle := List.drop_eq_nil_iff.mp hnil
        omega
      have hlabels : labels (Text.join '.' ((labels d).drop ((labels d).length - 2))) =
          (labels d).drop ((labels d).length - 2) :=
        Text.split_join hdrop fun w hw => Text.not_mem_of_mem_split (List.mem_of_mem_drop hw)
      refine ⟨?_, fun hex => absurd hex hno, fun _ => hlabels⟩
      show labels (Text.join '.' ((labels d).drop ((labels d).length - 2))) <:+ labels d
      rw [hlabels]
      exact List.drop_suffix _ _

end Zone

/-! ### The challenge name -/

section Reconstructs

variable {domain z : String}

/-- Zone and relative name make up the challenge name, up to trailing dots. -/
def Reconstructs (domain z : String) : Prop :=
  Text.rstripChar (relName z (challengeName domain) ++ "." ++ z) '.' =
    Text.rstripChar (challengeName domain) '.'

/-- The domain ends with a dot that stands behind something else. -/
def FinalDot (domain : String) : Prop :=
  domain.toList.getLast? = some '.' ∧ ∃ c ∈ domain.toList, c ≠ '.'

theorem reconstructs_of_suffix {q : String} (h : challengeName domain = q ++ ("." ++ z)) :
    Reconstructs domain z := by
  rw [Reconstructs, h, relName, Text.removeSuffix_append, String.append_assoc]

/-- Without trailing dots the zone ends the challenge name. -/
theorem suffix_of_under (h : Under domain z) : ∃ q, challengeName domain = q ++ ("." ++ z) := by
  rcases Text.split_suffix_iff.mp h with rfl | ⟨p, hp⟩
  · refine ⟨"_acme-challenge", String.toList_injective ?_⟩
    simp [challengeName_toList]
  · refine ⟨"_acme-challenge." ++ p, String.toList_injective ?_⟩
    simp [challengeName_toList, hp]

/-- A domain of dots has the empty zone. -/
theorem suffix_of_dots (hdots : ∀ c ∈ domain.toList, c = '.') (h : Under "" z) :
    ∃ q, challengeName domain = q ++ ("." ++ z) := by
  obtain rfl : "" = z := by
    rcases Text.split_suffix_iff.mp h with e | ⟨p, hp⟩
    · exact e
    · simp at hp
  rcases List.eq_nil_or_concat domain.toList with hnil | ⟨init, c, hcons⟩
  · refine ⟨"_acme-challenge", String.toList_injective ?_⟩
    simp [challengeName_toList, hnil]
  · obtain rfl : c = '.' := hdots c (by simp [hcons])
    refine ⟨"_acme-challenge." ++ String.ofList init, String.toList_injective ?_⟩
    simp [challengeName_toList, hcons]

theorem getLast?_append_cons (hz : z ≠ "") (p : List Char) (c : Char) :
    (p ++ c :: z.toList).getLast? = z.toList.getLast? := by
  have hne : z.toList ≠ [] := fun h => hz (String.toList_eq_nil_iff.mp h)
  rw [← List.singleton_append, List.getLast?_append, List.getLast?_append,
    List.getLast?_eq_some_getLast hne]
  rfl

/-- A zone under a domain without trailing dots has none, and is not empty. -/
theorem getLast?_of_under {d : String} (hne : d ≠ "") (hlast : d.toList.getLast? ≠ some '.')
    (h : Under d z) : z ≠ "" ∧ z.toList.getLast? ≠ some '.' := by
  rcases Text.split_suffix_iff.mp h with rfl | ⟨p, hp⟩
  · exact ⟨hne, hlast⟩
  · by_cases hz : z = ""
    · rw [hp, hz] at hlast
      simp at hlast
    · refine ⟨hz, ?_⟩
      rwa [hp, getLast?_append_cons hz] at hlast

/-- A trailing dot hides the zone. -/
theorem not_reconstructs (hlast : domain.toList.getLast? = some '.') (hne : z ≠ "")
    (hz : z.toList.getLast? ≠ some '.') : ¬ Reconstructs domain z := by
  have hdot : ("." ++ z).toList = '.' :: z.toList := by simp
  have hname : (challengeName domain).toList.getLast? = some '.' := by
    rw [challengeName_toList, List.getLast?_append, hlast]
    rfl
  have hrel : relName z (challengeName domain) = challengeName domain := by
    rw [relName, Text.removeSuffix, if_neg]
    rintro hends
    obtain ⟨q, hq⟩ := Text.endsWith_iff.mp hends
    rw [hq, hdot, getLast?_append_cons hne] at hname
    exact hz hname
  intro h
  have hlong : (challengeName domain ++ "." ++ z).toList =
      (challengeName domain).toList ++ '.' :: z.toList := by
    simp
  rw [Reconstructs, hrel, Text.rstripChar_eq_self] at h
  · have hlen := congrArg (fun s => s.toList.length) h
    have hle := (List.rdropWhile_prefix (fun x => decide (x = '.'))
      (challengeName domain).toList).length_le
    simp only [hlong, Text.rstripChar, String.toList_ofList, List.length_append,
      List.length_cons] at hlen
    omega
  · rw [hlong, getLast?_append_cons hne]
    exact hz

/-- **Zone and relative name make up the challenge name** exactly where no final dot stands behind
something else. -/
theorem reconstructs_iff (h : Under (Text.rstripChar domain '.') z) :
    Reconstructs domain z ↔ ¬ FinalDot domain := by
  by_cases hdots : ∀ c ∈ domain.toList, c = '.'
  · rw [Text.rstripChar_eq_empty_iff.mpr hdots] at h
    obtain ⟨q, hq⟩ := suffix_of_dots hdots h
    refine iff_of_true (reconstructs_of_suffix hq) ?_
    rintro ⟨-, c, hc, hne⟩
    exact hne (hdots c hc)
  · by_cases hlast : domain.toList.getLast? = some '.'
    · have hd : Text.rstripChar domain '.' ≠ "" := mt Text.rstripChar_eq_empty_iff.mp hdots
      obtain ⟨hne, hz⟩ := getLast?_of_under hd (Text.getLast?_rstripChar domain '.') h
      push Not at hdots
      exact iff_of_false (not_reconstructs hlast hne hz) (not_not.mpr ⟨hlast, hdots⟩)
    · rw [Text.rstripChar_eq_self hlast] at h
      obtain ⟨q, hq⟩ := suffix_of_under h
      exact iff_of_true (reconstructs_of_suffix hq) fun hfinal => hlast hfinal.1

end Reconstructs

/-- **The zone split of a domain**: the zone, the challenge name it is a part of, and what the
providers do with the two. -/
structure ZoneSplits (cfg : Settings) (domain z r : String) : Prop where
  zone : IsZone (Text.rstripChar domain '.') cfg.dnsZoneOverrideList z
  reconstructs : Text.rstripChar (r ++ "." ++ z) '.' =
    Text.rstripChar ("_acme-challenge." ++ domain) '.'
  namecheap : ∀ value hosts,
    (fulfillDns01 cfg domain value).2.apply (fulfillDns01 cfg domain value).1 hosts =
      hosts ++ [⟨r, "TXT", value, "10", "120"⟩] ∧
    (clearDns01 cfg domain).2.apply (clearDns01 cfg domain).1 hosts =
      hosts.filter fun h => !isTxt r h
  porkbun : ∀ value s,
    Porkbun.setTxt s (fulfillDns01 cfg domain value).1 (fulfillDns01 cfg domain value).2.name value =
      .ok (s.create (Porkbun.fullName z r) "TXT" value "120") ∧
    Porkbun.deleteTxt s (clearDns01 cfg domain).1 (clearDns01 cfg domain).2.name =
      .ok (Porkbun.deleteRecords s (s.list (Porkbun.fullName z r) "TXT"))

/-- **The zone split reconstructs the challenge name**, for every domain, accepted or not, and every
text of overrides, exactly where the domain does not end with a dot behind something else. -/
theorem zone_splits_iff (cfg : Settings) (domain : String) :
    ZoneSplits cfg domain (apexDomain domain cfg.dnsZoneOverrideList)
      (relName (apexDomain domain cfg.dnsZoneOverrideList) ("_acme-challenge." ++ domain)) ↔
    ¬ FinalDot domain := by
  have hzone := apexDomain_isZone domain cfg.dnsZoneOverrideList
  rw [← reconstructs_iff hzone.under]
  exact ⟨fun h => h.reconstructs,
    fun h => ⟨hzone, h, fun _ _ => ⟨rfl, rfl⟩, fun _ _ => ⟨rfl, rfl⟩⟩⟩

/-- **A name with a final dot is not split**: `new_order` accepts it, its zone is `example.com`, and
the relative name is still the full one. -/
theorem final_dot_not_split : ¬ ∀ (cfg : Settings) (domain : String),
    validateIdentifiers [⟨"dns", domain⟩] = .ok () →
    ZoneSplits cfg domain (apexDomain domain cfg.dnsZoneOverrideList)
      (relName (apexDomain domain cfg.dnsZoneOverrideList) ("_acme-challenge." ++ domain)) := by
  intro hall
  have h := (hall { relayDomain := "relay.test" } "host.example.com." (by rfl)).reconstructs
  exact absurd h (by decide +kernel)

end Jackdaw
