import Jackdaw.Util

/-!
# Configuration

`config.py`: the settings the modelled functions read, with the properties derived from them.
-/

namespace Jackdaw

open Support

/-- `Settings`. -/
structure Settings where
  relayDomain : String
  nonceTtl : Int := 600
  nonceMax : Int := 10000
  allowedDomains : String := ""
  challengeHttpPort : Int := 80
  challengeTimeout : Int := 5
  challengeRetries : Int := 3
  challengeRetryDelay : Int := 2
  orderRateLimit : Int := 0
  orderRateWindow : Int := 604800
  dnsZoneOverrides : String := ""

namespace Settings

/-- `relay_base_url`. -/
def relayBaseUrl (cfg : Settings) : String :=
  if Text.startsWith cfg.relayDomain "http://" || Text.startsWith cfg.relayDomain "https://" then
    Text.rstripChar cfg.relayDomain '/'
  else "https://" ++ cfg.relayDomain

/-- `allowed_domain_list`. -/
def allowedDomainList (cfg : Settings) : List String :=
  if cfg.allowedDomains = "" then []
  else ((Text.split cfg.allowedDomains ',').map Text.strip).filter (· ≠ "")

/-- `dns_zone_override_list`. -/
def dnsZoneOverrideList (cfg : Settings) : List String :=
  if cfg.dnsZoneOverrides = "" then []
  else ((Text.split cfg.dnsZoneOverrides ',').filter fun z => Text.strip z ≠ "").map fun z =>
    Text.rstripChar (Text.strip z) '.'

end Settings

end Jackdaw
