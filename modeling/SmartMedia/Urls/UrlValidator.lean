import SmartMedia.Library.IpAddress
import SmartMedia.Urls.Netloc

/-!
# The URL validator

`app/core/url_validator.py`. The texts of the addresses on the white list are compared through the
addresses, as no two have the same text. Of the digits that are not decimal `int` reads none, and no
other form has them.
-/
namespace SmartMedia.Urls
open PythonText Strm
open IpAddress (Address Network ipAddress? ipv4? ipv6? assemble)

structure URLValidator where
  allowedDomains : List Text
  allowedPrivateIps : List Address
  allowPrivateByDefault : Bool

/-- The constructor; texts that are no addresses are skipped. -/
def URLValidator.new (lowering : Lowering) (allowedDomains allowedPrivateIps : List Text)
    (allowPrivateByDefault : Bool) : URLValidator where
  allowedDomains := allowedDomains.map lowering.lower
  allowedPrivateIps := allowedPrivateIps.filterMap ipAddress?
  allowPrivateByDefault

/-- `ALLOWED_SCHEMES` -/
def allowedSchemes : List Text := ["http", "https"].map String.toList

/-- `PRIVATE_IPV4_RANGES` -/
def privateIpv4Ranges : List Network :=
  [("10.0.0.0", 8), ("172.16.0.0", 12), ("192.168.0.0", 16), ("127.0.0.0", 8),
    ("169.254.0.0", 16), ("0.0.0.0", 8)].map fun (base, bits) =>
      ⟨32, (ipv4? base.toList).getD 0, bits⟩

/-- `PRIVATE_IPV6_RANGES` -/
def privateIpv6Ranges : List Network :=
  [("::1", 128), ("fc00::", 7), ("fe80::", 10), ("::ffff:0:0", 96)].map fun (base, bits) =>
    ⟨128, (ipv6? base.toList).getD 0, bits⟩

/-- `DANGEROUS_HOSTNAMES` -/
def dangerousHostnames : List Text :=
  ["localhost", "local", "internal", "intranet", "private", "corp", "lan", "home", "host",
    "gateway", "router"].map String.toList

/-- The host is the domain or ends with it behind a dot. -/
def inDomain (hostname domain : Text) : Bool :=
  hostname = domain || ('.' :: domain).isSuffixOf hostname

def checkDangerousHostname (hostname : Text) : Except String Unit := do
  if hostname ∈ dangerousHostnames then
    throw ("Hostname '" ++ String.ofList hostname ++ "' is blocked (dangerous hostname)")
  if dangerousHostnames.any (inDomain hostname) then
    throw ("Hostname '" ++ String.ofList hostname ++ "' is blocked (dangerous hostname pattern)")

def URLValidator.isDomainAllowed (validator : URLValidator) (hostname : Text) : Bool :=
  validator.allowedDomains.any (inDomain hostname)

/-- `int(text, base)`; no value stands for the `ValueError`. -/
def toInt? (base : ℕ) (text : Text) : Option ℤ := readInt? base (Media.strip text)

/-- A whole host that is a number in decimal or behind `0x`, if there is one; an error is the
`ValueError` that ends the attempt. -/
def parseWhole (hostname : Text) : Except Unit (Option ℕ) := do
  if hostname ≠ [] ∧ hostname.all isDecimal then
    let some num := toInt? 10 hostname | throw ()
    if 0 ≤ num ∧ num ≤ 4294967295 then return some num.toNat
  if "0x".toList <+: hostname ∨ "0X".toList <+: hostname then
    let some num := toInt? 16 hostname | throw ()
    if 0 ≤ num ∧ num ≤ 4294967295 then return some num.toNat
  return none

/-- A part, in octal behind a zero. -/
def octalPart (part : Text) : Option ℤ :=
  if part.head? = some '0' ∧ 1 < part.length then toInt? 8 part else toInt? 10 part

/-- Four parts of one byte each. -/
def parseDotted (hostname : Text) : Option ℕ :=
  if (hostname.splitOn '.').length = 4 then
    ((hostname.splitOn '.').mapM octalPart).bind fun octalParts =>
      if octalParts.all fun p => 0 ≤ p && p ≤ 255 then assemble 4 (octalParts.map Int.toNat) else none
  else none

/-- The second attempt, at the other spellings. -/
def parseNumeric (hostname : Text) : Option ℕ :=
  match parseWhole hostname with
  | .error () => none
  | .ok (some n) => some n
  | .ok none => parseDotted hostname

/-- `_try_parse_ip` -/
def tryParseIp (hostname : Text) : Option Address :=
  (ipAddress? hostname).or <|
    (if hostname.head? = some '[' ∧ hostname.getLast? = some ']' then
      ipAddress? hostname.tail.dropLast
    else none).or <|
      (parseNumeric hostname).map .v4

/-- `_is_private_ip`; a mapped address is private if the one that it contains is. -/
def isPrivateIp : Address → Bool
  | .v4 n => privateIpv4Ranges.any (·.contains n)
  | .v6 n _ =>
      privateIpv6Ranges.any (·.contains n) ||
        n / 2 ^ 32 = 0xffff && privateIpv4Ranges.any (·.contains (n % 2 ^ 32))

/-- `_check_ip_address` -/
def URLValidator.checkIpAddress (validator : URLValidator) (hostname : Text) (allowPrivate : Bool) :
    Except String Unit :=
  match tryParseIp hostname with
  | none => .ok ()
  | some ip =>
      if ip ∈ validator.allowedPrivateIps then .ok ()
      else if allowPrivate || validator.allowPrivateByDefault then .ok ()
      else if isPrivateIp ip then
        .error ("Private IP address '" ++ String.ofList hostname ++ "' is not allowed")
      else .ok ()

/-- `validate`; without an error the result is true. -/
def URLValidator.validate (validator : URLValidator) (lowering : Lowering) (checks : NetlocChecks)
    (url : Option Text) (allowPrivate : Bool) : Except String Unit := do
  let some url := truthy url | throw "URL is required"
  let url := Media.strip url
  if url = [] then throw "URL cannot be empty"
  let parsed ← match urlparse checks url with
    | .ok parsed => pure parsed
    | .error e => throw ("Invalid URL format: " ++ e)
  let scheme := lowering.lower parsed.scheme
  if scheme ∉ allowedSchemes then
    throw ("Invalid URL scheme '" ++ String.ofList scheme ++ "'. Only HTTP and HTTPS are allowed.")
  let some hostname := truthy (hostname lowering parsed.netloc)
    | throw "URL must have a valid hostname"
  let hostname := lowering.lower hostname
  checkDangerousHostname hostname
  if validator.allowedDomains ≠ [] ∧ validator.isDomainAllowed hostname = false then
    throw ("Domain '" ++ String.ofList hostname ++ "' is not in the allowed list")
  validator.checkIpAddress hostname allowPrivate

end SmartMedia.Urls
