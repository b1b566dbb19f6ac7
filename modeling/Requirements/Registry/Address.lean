import Requirements.Ecosystem
import Requirements.Text.Case
import Requirements.Text.Digit

/-!
# Registry addresses

The URL under which each registry lists the releases of a package. Some names
have a shape of their own: Packagist names have a vendor, Maven names a group,
and Go module paths mark upper-case letters, so that servers need not tell case.
-/

namespace Requirements.Address

/-- A module path with every upper-case letter written as an exclamation mark
and its lower-case form. -/
def escapeCase (cs : List Char) : List Char :=
  cs.flatMap fun c => if Text.isUppercase c then '!' :: Text.lowercase c else [c]

/-- The address of the public registry of an ecosystem. -/
def publicBase : Ecosystem → String
  | .npm => "https://registry.npmjs.org"
  | .pypi => "https://pypi.org/pypi"
  | .cargo => "https://crates.io/api/v1/crates"
  | .rubygems => "https://rubygems.org/api/v1/versions"
  | .packagist => "https://repo.packagist.org/p2"
  | .maven => "https://search.maven.org/solrsearch/select"
  | .go => "https://proxy.golang.org"

/-- Whether a name has a vendor and, after the first slash, a rest. -/
def hasVendor (name : List Char) : Bool :=
  let vendor := name.takeWhile (· != '/')
  let rest := name.dropWhile (· != '/')
  !vendor.isEmpty && 1 < rest.length

/-- The URL of the releases of a package, or the shape that its name should have. -/
def url (e : Ecosystem) (base package : String) : Except String String :=
  match e with
  | .npm | .cargo => .ok s!"{base}/{package}"
  | .pypi => .ok s!"{base}/{package}/json"
  | .rubygems => .ok s!"{base}/{package}.json"
  | .packagist =>
      if hasVendor package.toList then .ok s!"{base}/{package}.json"
      else .error "expected format 'vendor/package'"
  | .maven =>
      match package.toList.splitOnP (· == ':') with
      | [group, artifact] =>
          if group.isEmpty || artifact.isEmpty then .error "expected format 'groupId:artifactId'"
          else
            let query := s!"g:{String.ofList group}+AND+a:{String.ofList artifact}"
            .ok s!"{base}?q={query}&core=gav&rows=200&wt=json"
      | _ => .error "expected format 'groupId:artifactId'"
  | .go => .ok s!"{base}/{String.ofList (escapeCase package.toList)}/@v/list"

/-- A byte as a percent sign and two hexadecimal digits in upper case. -/
def percentEncode (byte : UInt8) : List Char :=
  let n := byte.toNat
  ['%', (Text.hexChar (n / 16)).toUpper, (Text.hexChar (n % 16)).toUpper]

/-- The text of a URL on the wire: characters outside ASCII are encoded byte by
byte. -/
def encode (cs : List Char) : List Char :=
  cs.flatMap fun c =>
    if c.toNat < 0x80 then [c] else (String.utf8EncodeChar c).flatMap percentEncode

/-- The host and the rest of a URL that follows its scheme. -/
def hostAndRest (cs : List Char) : List Char × List Char :=
  let inHost (c : Char) : Bool := c != '/' && c != '?' && c != '#'
  (cs.takeWhile inHost, cs.dropWhile inHost)

/-- A URL as it is sent: encoded, and with a slash for an empty path. -/
def onWire (url : String) : String :=
  let cs := encode url.toList
  let scheme := cs.takeWhile (· != ':')
  let (host, rest) := hostAndRest (cs.drop (scheme.length + 3))
  let rest := match rest with
    | '/' :: _ => rest
    | _ => '/' :: rest
  String.ofList (scheme ++ [':', '/', '/'] ++ host ++ rest)

end Requirements.Address
