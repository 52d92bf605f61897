import AgentOrchestrator.Lib.IpAddress

/-!
# The parts of a URL

`urlparse` takes the scheme and the network location out of a URL, and `ParseResult.hostname` the host out of the
location, as Python's `urllib.parse` does.  What of it depends on the tables of Unicode is a parameter.
-/

/-- `unicodedata.normalize("NFKC", text)`, `text.lower()` and `text.upper()`. -/
structure Unicode where
  nfkc : List Char → List Char
  lower : List Char → List Char
  upper : List Char → List Char

/-- The reasons why a text is no URL; each is a `ValueError`. -/
inductive UrlError where
  | invalidIpv6Url
  | invalidIpvFuture
  | noIpAddress (host : String)
  | ipv4InBrackets
  | invalidUnderNfkc (netloc : String)
deriving DecidableEq

structure ParseResult where
  scheme : String
  netloc : String
deriving DecidableEq

namespace Url

def isControlOrSpace (c : Char) : Bool := c.toNat ≤ 0x20

def isUnsafe (c : Char) : Bool := c = '\t' || c = '\r' || c = '\n'

def isSchemeChar (c : Char) : Bool := c.isAlphanum || c = '+' || c = '-' || c = '.'

def isDelimiter (c : Char) : Bool := c = '/' || c = '?' || c = '#'

/-- The scheme in lower case, if there is one, and what follows it. -/
def splitScheme (url : List Char) : List Char × List Char :=
  let scheme := url.takeWhile (· ≠ ':')
  if ':' ∈ url ∧ scheme.head?.any Char.isAlpha ∧ scheme.all isSchemeChar then
    (scheme.map Char.toLower, url.drop (scheme.length + 1))
  else ([], url)

/-- `_check_bracketed_host`. -/
def checkBracketedHost (host : List Char) : Except UrlError Unit :=
  if host.head? = some 'v' then
    let version := host.tail.takeWhile fun c => (IpAddress.hexDigit? c).isSome
    let rest := host.tail.drop version.length
    if version ≠ [] ∧ rest.head? = some '.' ∧ rest.tail ≠ [] then .ok () else .error .invalidIpvFuture
  else
    match IpAddress.ipAddress (String.ofList host) with
    | none => .error (.noIpAddress (String.ofList host))
    | some (.v4 _) => .error .ipv4InBrackets
    | some (.v6 _) => .ok ()

/-- The host between brackets, where there are brackets. -/
def checkBrackets (netloc : List Char) : Except UrlError Unit :=
  if '[' ∈ netloc ∧ ']' ∈ netloc then
    checkBracketedHost (((netloc.dropWhile (· ≠ '[')).tail).takeWhile (· ≠ ']'))
  else if '[' ∈ netloc ∨ ']' ∈ netloc then .error .invalidIpv6Url
  else .ok ()

/-- `_checknetloc`: no character of the location expands to a delimiter. -/
def checkNetloc (u : Unicode) (netloc : List Char) : Except UrlError Unit :=
  let n := netloc.filter fun c => c ∉ ['@', ':', '#', '?']
  if (netloc.all fun c => c.toNat < 128) ∨ n = u.nfkc n then .ok ()
  else if ['/', '?', '#', '@', ':'].any (· ∈ u.nfkc n) then .error (.invalidUnderNfkc (String.ofList netloc))
  else .ok ()

def urlparse (u : Unicode) (url : String) : Except UrlError ParseResult := do
  let (scheme, rest) := splitScheme ((url.toList.dropWhile isControlOrSpace).filter fun c => !isUnsafe c)
  let netloc := if rest.take 2 = ['/', '/'] then (rest.drop 2).takeWhile fun c => !isDelimiter c else []
  checkBrackets netloc
  checkNetloc u netloc
  return { scheme := String.ofList scheme, netloc := String.ofList netloc }

/-- `_hostinfo`: the host as it is written. -/
def hostInfo (netloc : List Char) : List Char :=
  let hostinfo := (netloc.reverse.takeWhile (· ≠ '@')).reverse
  if '[' ∈ hostinfo then ((hostinfo.dropWhile (· ≠ '[')).tail).takeWhile (· ≠ ']')
  else hostinfo.takeWhile (· ≠ ':')

end Url

/-- The host in lower case; the zone of an IPv6 address keeps its case. -/
def ParseResult.hostname (u : Unicode) (parsed : ParseResult) : Option String :=
  let host := Url.hostInfo parsed.netloc.toList
  if host = [] then none
  else some (String.ofList (u.lower (host.takeWhile (· ≠ '%')) ++ host.dropWhile (· ≠ '%')))

namespace Url

/-- The tables of Unicode as far as ASCII goes. -/
def ascii : Unicode := ⟨id, List.map Char.toLower, List.map Char.toUpper⟩

example : (urlparse ascii "HTTP://user@LOCALHOST:8000/a?b").map (fun r => (r.scheme, r.hostname ascii)) =
    .ok ("http", some "localhost") := by decide +kernel

end Url
