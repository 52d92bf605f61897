import AgentOrchestrator.Lib.Url

/-!
# The tool for API calls

`apiCall` looks the host of its URL up, refuses it if the address is private or local, and leaves the request to the
library `requests`, which looks the host up again, connects to one of its addresses, and follows redirects.  The
connections it makes are part of the result here; `connects_to_public_iff` says when all of them go to public addresses.
-/

namespace AgentOrchestrator

structure HttpRequest where
  method : String
  url : String
  json : Option String

structure HttpResponse where
  statusCode : Nat
  text : String

/-- What an API call finds outside of the program: the resolver, the library `requests`, and the servers. -/
structure Web where
  unicode : Unicode
  /-- `socket.gethostbyname`: an IPv4 address, or an exception that the check catches. -/
  gethostbyname : String → Except String (BitVec 32)
  /-- The host to which `requests` connects, or its exception for a request that it does not send. -/
  host : HttpRequest → Except String String
  /-- The addresses of both families that `requests` gets for a host at its `k`-th request. -/
  getaddrinfo : Nat → String → List IpAddress
  accepts : Nat → IpAddress → Bool
  /-- The exception if no address accepts the connection. -/
  unreachable : String → String
  answer : Nat → HttpRequest → IpAddress → Except String HttpResponse
  /-- The request to which a response redirects. -/
  redirect : HttpRequest → HttpResponse → Option HttpRequest

/-- The addresses are tried in their order until one accepts the connection. -/
def tryInOrder (accepts : IpAddress → Bool) : List IpAddress → List IpAddress
  | [] => []
  | ip :: rest => if accepts ip then [ip] else ip :: tryInOrder accepts rest

namespace Web

variable (w : Web) (k : Nat) (request : HttpRequest)

/-- The addresses to which the `k`-th request connects. -/
def connections : List IpAddress :=
  match w.host request with
  | .error _ => []
  | .ok host => tryInOrder (w.accepts k) (w.getaddrinfo k host)

/-- The response to the `k`-th request. -/
def get : Except String HttpResponse :=
  match w.host request with
  | .error e => .error e
  | .ok host =>
    match (w.getaddrinfo k host).find? (w.accepts k) with
    | none => .error (w.unreachable host)
    | some ip => w.answer k request ip

/-- The `k`-th request, and what `rest` makes of its redirect. -/
def hop (rest : HttpRequest → List IpAddress × Except String HttpResponse) :
    List IpAddress × Except String HttpResponse :=
  match w.get k request with
  | .error e => (w.connections k request, .error e)
  | .ok response =>
    match w.redirect request response with
    | none => (w.connections k request, .ok response)
    | some request' => (w.connections k request ++ (rest request').1, (rest request').2)

/-- `requests.request` with at most `n` redirects, the first request being the `k`-th. -/
def follow : Nat → Nat → HttpRequest → List IpAddress × Except String HttpResponse
  | 0, k, request => w.hop k request fun _ => ([], .error "Exceeded 30 redirects.")
  | n + 1, k, request => w.hop k request (follow n (k + 1))

end Web

inductive ApiCallError where
  | invalidUrl (e : UrlError)
  | unsupportedScheme
  | privateHost (hostname : Option String)
  | requestFailed (message : String)

/-- The texts of the exceptions that the tool raises itself. -/
def ApiCallError.message? : ApiCallError → Option String
  | .unsupportedScheme => some "api_call only supports http/https URLs."
  | .privateHost hostname => some ("api_call may not target private/local host '" ++ hostname.getD "None" ++ "'.")
  | .invalidUrl _ => none
  | .requestFailed message => some message

def blockedHosts : List String := ["localhost", "0.0.0.0", "metadata.google.internal"]

/-- The test of the check on an address. -/
def privateOrLocal (ip : IpAddress) : Bool := ip.isPrivate || ip.isLoopback || ip.isLinkLocal

/-- `_is_private_or_local`. -/
def isPrivateOrLocal (w : Web) (host : String) : Bool :=
  if host ∈ blockedHosts then true
  else
    match w.gethostbyname host with
    | .ok addr => privateOrLocal (.v4 addr)
    | .error _ => false

def supportedSchemes : List String := ["http", "https"]

/-- The host that is checked. -/
def checkedHost (w : Web) (parsed : ParseResult) : String := (parsed.hostname w.unicode).getD ""

/-- The request that is made of the arguments. -/
def apiRequest (w : Web) (url method : String) (jsonBody : Option String) : HttpRequest where
  method := String.ofList (w.unicode.upper method.toList)
  url := url
  json := jsonBody

/-- `api_call`, with the addresses to which it connects. -/
def apiCall (w : Web) (url : String) (method : String := "GET") (jsonBody : Option String := none) :
    List IpAddress × Except ApiCallError String :=
  match Url.urlparse w.unicode url with
  | .error e => ([], .error (.invalidUrl e))
  | .ok parsed =>
    if parsed.scheme ∉ supportedSchemes then ([], .error .unsupportedScheme)
    else if isPrivateOrLocal w (checkedHost w parsed) then ([], .error (.privateHost (parsed.hostname w.unicode)))
    else
      match w.follow 30 0 (apiRequest w url method jsonBody) with
      | (connections, .error e) => (connections, .error (.requestFailed e))
      | (connections, .ok response) =>
        (connections, .ok ("HTTP " ++ toString response.statusCode ++ "\n" ++
          String.ofList (response.text.toList.take 2000)))

/-! ### Redirects -/

section Redirects

variable {w : Web} {k : Nat} {request : HttpRequest} {ip : IpAddress}

/-- The request to which the response to the `k`-th request redirects. -/
def Web.redirected (w : Web) (k : Nat) (request : HttpRequest) : Option HttpRequest :=
  (w.get k request).toOption.bind (w.redirect request)

/-- If `request` is the `k`-th request, a chain of redirects makes `request'` the `j`-th. -/
inductive Web.Redirects (w : Web) : Nat → HttpRequest → Nat → HttpRequest → Prop
  | here (k : Nat) (request : HttpRequest) : Redirects w k request k request
  | next {k j : Nat} {request request' request'' : HttpRequest} (h : w.redirected k request = some request')
      (hrest : Redirects w (k + 1) request' j request'') : Redirects w k request j request''

theorem Web.Redirects.le {j : Nat} {request' : HttpRequest} (h : w.Redirects k request j request') : k ≤ j := by
  induction h with
  | here => exact Nat.le_refl _
  | next _ _ ih => omega

theorem mem_hop {rest : HttpRequest → List IpAddress × Except String HttpResponse} :
    ip ∈ (w.hop k request rest).1 ↔
      ip ∈ w.connections k request ∨ ∃ request', w.redirected k request = some request' ∧ ip ∈ (rest request').1 := by
  unfold Web.hop Web.redirected
  cases w.get k request with
  | error e => simp [Except.toOption]
  | ok response =>
    cases hredirect : w.redirect request response with
    | none => simp [Except.toOption, hredirect]
    | some request' => simp [Except.toOption, hredirect]

/-- The connections are those of the requests to which at most `n` redirects lead. -/
theorem mem_follow (n : Nat) :
    ip ∈ (w.follow n k request).1 ↔
      ∃ j request', j ≤ k + n ∧ w.Redirects k request j request' ∧ ip ∈ w.connections j request' := by
  induction n generalizing k request with
  | zero =>
    unfold Web.follow
    rw [mem_hop]
    constructor
    · rintro (h | ⟨_, _, h⟩)
      · exact ⟨k, request, Nat.le_refl _, .here k request, h⟩
      · exact absurd h List.not_mem_nil
    · rintro ⟨j, request', hj, hredirects, h⟩
      cases hredirects with
      | here => exact Or.inl h
      | next _ hrest => exact absurd hrest.le (by omega)
  | succ n ih =>
    unfold Web.follow
    rw [mem_hop]
    constructor
    · rintro (h | ⟨request', hredirected, h⟩)
      · exact ⟨k, request, by omega, .here k request, h⟩
      · obtain ⟨j, request'', hj, hredirects, hmem⟩ := ih.1 h
        exact ⟨j, request'', by omega, .next hredirected hredirects, hmem⟩
    · rintro ⟨j, request', hj, hredirects, h⟩
      cases hredirects with
      | here => exact Or.inl h
      | next hredirected hrest => exact Or.inr ⟨_, hredirected, ih.2 ⟨j, request', by omega, hrest, h⟩⟩

end Redirects

/-! ### What the check covers -/

/-- The addresses that the check has not seen are public: those of the host itself, apart from the one that was looked
up, and those of the hosts to which the request is redirected. -/
structure UncheckedPublic (w : Web) (parsed : ParseResult) (request : HttpRequest) : Prop where
  own : ∀ ip ∈ w.connections 0 request,
    (∀ addr, w.gethostbyname (checkedHost w parsed) = .ok addr → ip ≠ .v4 addr) → privateOrLocal ip = false
  redirected : ∀ k request', 0 < k → k ≤ 30 → w.Redirects 0 request k request' →
    ∀ ip ∈ w.connections k request', privateOrLocal ip = false

section Check

variable {w : Web} {url method : String} {jsonBody : Option String} {parsed : ParseResult}

/-- The one address that the check covers. -/
theorem privateOrLocal_of_passed {host : String} {addr : BitVec 32} (h : isPrivateOrLocal w host = false)
    (haddr : w.gethostbyname host = .ok addr) : privateOrLocal (.v4 addr) = false := by
  unfold isPrivateOrLocal at h
  split at h
  · exact absurd h (by simp)
  · rw [haddr] at h
    exact h

/-- A call that is let through connects as its request does. -/
theorem apiCall_connections (hurl : Url.urlparse w.unicode url = .ok parsed) (hscheme : parsed.scheme ∈ supportedSchemes)
    (hpassed : isPrivateOrLocal w (checkedHost w parsed) = false) :
    (apiCall w url method jsonBody).1 = (w.follow 30 0 (apiRequest w url method jsonBody)).1 := by
  unfold apiCall
  rw [hurl]
  simp only [hscheme, not_true_eq_false, if_false, hpassed, Bool.false_eq_true]
  split <;> rename_i hfollow <;> rw [hfollow]

/-- A call that is not let through does not connect. -/
theorem apiCall_refused (h : ∀ parsed, Url.urlparse w.unicode url = .ok parsed → parsed.scheme ∈ supportedSchemes →
    isPrivateOrLocal w (checkedHost w parsed) = true) : (apiCall w url method jsonBody).1 = [] := by
  unfold apiCall
  cases hurl : Url.urlparse w.unicode url with
  | error e => rfl
  | ok parsed =>
    by_cases hscheme : parsed.scheme ∈ supportedSchemes
    · simp [h parsed hurl hscheme, hscheme]
    · simp [hscheme]

theorem public_follow_iff {request : HttpRequest} (hpassed : isPrivateOrLocal w (checkedHost w parsed) = false) :
    (∀ ip ∈ (w.follow 30 0 request).1, privateOrLocal ip = false) ↔ UncheckedPublic w parsed request := by
  constructor
  · intro h
    refine ⟨fun ip hip _ => h ip ?_, fun k request' _ hk hredirects ip hip => h ip ?_⟩
    · exact (mem_follow 30).2 ⟨0, request, by omega, .here 0 request, hip⟩
    · exact (mem_follow 30).2 ⟨k, request', by omega, hredirects, hip⟩
  · intro h ip hip
    obtain ⟨k, request', hk, hredirects, hmem⟩ := (mem_follow 30).1 hip
    by_cases hfirst : k = 0
    · subst hfirst
      -- the first request is the one whose host has been looked up
      obtain rfl : request' = request := by
        cases hredirects with
        | here => rfl
        | next _ hrest => exact absurd hrest.le (by omega)
      by_cases hchecked : ∀ addr, w.gethostbyname (checkedHost w parsed) = .ok addr → ip ≠ .v4 addr
      · exact h.own ip hmem hchecked
      · push Not at hchecked
        obtain ⟨addr, haddr, rfl⟩ := hchecked
        exact privateOrLocal_of_passed hpassed haddr
    · exact h.redirected k request' (by omega) (by omega) hredirects ip hmem

end Check

/-- A call connects to public addresses only if and only if it is refused, or the addresses that the check has not seen
are public. -/
theorem connects_to_public_iff (w : Web) (url method : String) (jsonBody : Option String) :
    (∀ ip ∈ (apiCall w url method jsonBody).1, privateOrLocal ip = false) ↔
      ∀ parsed, Url.urlparse w.unicode url = .ok parsed → parsed.scheme ∈ supportedSchemes →
        isPrivateOrLocal w (checkedHost w parsed) = false →
          UncheckedPublic w parsed (apiRequest w url method jsonBody) := by
  constructor
  · intro h parsed hurl hscheme hpassed
    rw [apiCall_connections hurl hscheme hpassed] at h
    exact (public_follow_iff hpassed).1 h
  · intro h
    by_cases hpassed : ∃ parsed, Url.urlparse w.unicode url = .ok parsed ∧ parsed.scheme ∈ supportedSchemes ∧
        isPrivateOrLocal w (checkedHost w parsed) = false
    · obtain ⟨parsed, hurl, hscheme, hpassed⟩ := hpassed
      rw [apiCall_connections hurl hscheme hpassed]
      exact (public_follow_iff hpassed).2 (h parsed hurl hscheme hpassed)
    · push Not at hpassed
      rw [apiCall_refused fun parsed hurl hscheme => by simpa using hpassed parsed hurl hscheme]
      exact fun ip hip => absurd hip List.not_mem_nil

/-! ### IPv6 literals -/

/-- How the resolver deals with addresses that are written out: `gethostbyname` knows IPv4 addresses only, `requests`
connects to addresses of both families. -/
structure Web.ResolvesLiterals (w : Web) : Prop where
  gethostbyname_v4 : ∀ host ip, IpAddress.ipAddress host = some (.v4 ip) → w.gethostbyname host = .ok ip
  gethostbyname_v6 : ∀ host ip, IpAddress.ipAddress host = some (.v6 ip) → ∃ e, w.gethostbyname host = .error e
  getaddrinfo_eq : ∀ k host ip, IpAddress.ipAddress host = some ip → w.getaddrinfo k host = [ip]

theorem mem_tryInOrder_singleton (accepts : IpAddress → Bool) (ip : IpAddress) : ip ∈ tryInOrder accepts [ip] := by
  unfold tryInOrder
  split <;> exact List.mem_cons_self

/-- A call connects to every IPv6 address that is written out in its URL. -/
theorem apiCall_connects_to_v6 {w : Web} (hw : w.ResolvesLiterals) {url method : String} {jsonBody : Option String}
    {parsed : ParseResult} {host : String} {ip : BitVec 128} (hurl : Url.urlparse w.unicode url = .ok parsed)
    (hscheme : parsed.scheme ∈ supportedSchemes) (hhost : parsed.hostname w.unicode = some host)
    (hip : IpAddress.ipAddress host = some (.v6 ip)) (hrequests : w.host (apiRequest w url method jsonBody) = .ok host) :
    .v6 ip ∈ (apiCall w url method jsonBody).1 := by
  have hblocked : host ∉ blockedHosts := by
    intro hmem
    have hblocked : ∀ h ∈ blockedHosts, IpAddress.ipAddress h = none ∨ IpAddress.ipAddress h = some (.v4 0) := by
      decide +kernel
    rcases hblocked host hmem with h | h <;> simp [h] at hip
  have hchecked : checkedHost w parsed = host := by
    unfold checkedHost
    rw [hhost]
    rfl
  obtain ⟨e, he⟩ := hw.gethostbyname_v6 host ip hip
  have hpassed : isPrivateOrLocal w (checkedHost w parsed) = false := by
    unfold isPrivateOrLocal
    rw [hchecked, if_neg hblocked, he]
  rw [apiCall_connections hurl hscheme hpassed]
  refine (mem_follow 30).2 ⟨0, _, by omega, .here 0 _, ?_⟩
  unfold Web.connections
  rw [hrequests]
  show .v6 ip ∈ tryInOrder _ (w.getaddrinfo 0 host)
  rw [hw.getaddrinfo_eq 0 host _ hip]
  exact mem_tryInOrder_singleton ..

section Sample

/-- A web without names, in which every address answers. -/
def literalWeb : Web where
  unicode := Url.ascii
  gethostbyname host :=
    match IpAddress.ipAddress host with
    | some (.v4 ip) => .ok ip
    | _ => .error "[Errno -2] Name or service not known"
  host request :=
    match Url.urlparse Url.ascii request.url with
    | .ok parsed => .ok ((parsed.hostname Url.ascii).getD "")
    | .error _ => .error "Invalid URL"
  getaddrinfo _ host := (IpAddress.ipAddress host).toList
  accepts _ _ := true
  unreachable host := "Failed to resolve '" ++ host ++ "'"
  answer _ _ _ := .ok ⟨200, "internal"⟩
  redirect _ _ := none

theorem literalWeb_resolvesLiterals : literalWeb.ResolvesLiterals where
  gethostbyname_v4 host ip h := by simp [literalWeb, h]
  gethostbyname_v6 host ip h := by simp [literalWeb, h]
  getaddrinfo_eq k host ip h := by simp [literalWeb, h]

/-- The address of the machine itself is reached under its IPv6 address. -/
theorem loopback_reached :
    literalWeb.ResolvesLiterals ∧ IpAddress.isLoopback (.v6 1) = true ∧
      .v6 1 ∈ (apiCall literalWeb "http://[::1]:8000/").1 := by
  have hurl : Url.urlparse literalWeb.unicode "http://[::1]:8000/" = .ok ⟨"http", "[::1]:8000"⟩ := by decide +kernel
  have hip : IpAddress.ipAddress "::1" = some (.v6 1) := by decide +kernel
  exact ⟨literalWeb_resolvesLiterals, rfl, apiCall_connects_to_v6 literalWeb_resolvesLiterals hurl (by decide)
    (by decide +kernel) hip (by decide +kernel)⟩

end Sample

end AgentOrchestrator
