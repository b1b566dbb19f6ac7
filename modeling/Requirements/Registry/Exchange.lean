import Requirements.Registry.Error

/-!
# Exchanges with a registry

A request is repeated while its outcome is transient and the budget lasts: too
many requests, a fault of the server, a time-out or a broken connection. Every
other outcome is decisive at once.
-/

namespace Requirements

/-- What comes of one request. -/
inductive Exchange where
  /-- An answer with a status code. -/
  | reply (status : Nat) (body : String)
  /-- The request arrived and the answer took too long. -/
  | timedOut
  /-- The request arrived and the connection broke before an answer. -/
  | dropped
  /-- No connection could be made, so the request did not arrive. -/
  | unreachable
  deriving DecidableEq, Repr

structure Request where
  url : String
  exchange : Exchange
  deriving DecidableEq, Repr

/-- A registry as a client meets it: what comes of a request may depend on all
requests before it. -/
abbrev Remote := List Request → String → Exchange

/-- A computation that sends requests, which are logged in order. -/
abbrev Asking := StateM (List Request)

def reasonPhrases : List (Nat × String) := [
  (100, "Continue"), (101, "Switching Protocols"), (102, "Processing"), (103, "Early Hints"),
  (200, "OK"), (201, "Created"), (202, "Accepted"), (203, "Non Authoritative Information"),
  (204, "No Content"), (205, "Reset Content"), (206, "Partial Content"), (207, "Multi-Status"),
  (208, "Already Reported"), (226, "IM Used"), (300, "Multiple Choices"),
  (301, "Moved Permanently"), (302, "Found"), (303, "See Other"), (304, "Not Modified"),
  (305, "Use Proxy"), (307, "Temporary Redirect"), (308, "Permanent Redirect"),
  (400, "Bad Request"), (401, "Unauthorized"), (402, "Payment Required"), (403, "Forbidden"),
  (404, "Not Found"), (405, "Method Not Allowed"), (406, "Not Acceptable"),
  (407, "Proxy Authentication Required"), (408, "Request Timeout"), (409, "Conflict"),
  (410, "Gone"), (411, "Length Required"), (412, "Precondition Failed"),
  (413, "Payload Too Large"), (414, "URI Too Long"), (415, "Unsupported Media Type"),
  (416, "Range Not Satisfiable"), (417, "Expectation Failed"), (418, "I'm a teapot"),
  (421, "Misdirected Request"), (422, "Unprocessable Entity"), (423, "Locked"),
  (424, "Failed Dependency"), (425, "Too Early"), (426, "Upgrade Required"),
  (428, "Precondition Required"), (429, "Too Many Requests"),
  (431, "Request Header Fields Too Large"), (451, "Unavailable For Legal Reasons"),
  (500, "Internal Server Error"), (501, "Not Implemented"), (502, "Bad Gateway"),
  (503, "Service Unavailable"), (504, "Gateway Timeout"), (505, "HTTP Version Not Supported"),
  (506, "Variant Also Negotiates"), (507, "Insufficient Storage"), (508, "Loop Detected"),
  (510, "Not Extended"), (511, "Network Authentication Required")]

def statusText (status : Nat) : String :=
  let phrase := (reasonPhrases.lookup status).getD "<unknown status code>"
  s!"HTTP {status} {phrase}"

namespace Exchange

def arrived : Exchange → Bool
  | .unreachable => false
  | _ => true

/-- Whether the same request may fare better later. -/
def isTransient : Exchange → Bool
  | .reply status _ => status == 429 || (500 ≤ status && status < 600)
  | .timedOut | .dropped | .unreachable => true

/-- The body of a successful answer, or why there is none. -/
def verdict (package registry url : String) : Exchange → Except RegistryError String
  | .reply status body =>
      if status == 429 then .error (.rateLimited registry)
      else if status == 404 then .error (.notFound package registry)
      else if 200 ≤ status && status < 300 then .ok body
      else .error (.network package registry (statusText status))
  | .timedOut => .error (.timedOut package registry)
  | .dropped | .unreachable =>
      .error (.network package registry s!"error sending request for url ({url})")

end Exchange

/-- A client of a registry, with the number of times it repeats a request. -/
structure Client where
  remote : Remote
  retries : Nat

namespace Client

def send (remote : Remote) (url : String) : Asking Exchange := do
  let log ← get
  let exchange := remote log url
  set (log ++ [⟨url, exchange⟩])
  return exchange

/-- Send a request until its outcome is decisive, as many times as are left. The
error of a transient outcome is kept for the end of the budget. -/
def attempt (c : Client) (package registry url : String) (last : Option RegistryError) :
    (left : Nat) → Asking (Except RegistryError String)
  -- The first attempt is always allowed, so that an error has been kept by now.
  | 0 => return .error (last.getD (.network package registry "unknown error"))
  | left + 1 => do
      let exchange ← send c.remote url
      match exchange.verdict package registry url with
      | .ok body => return .ok body
      | .error e =>
          if exchange.isTransient then attempt c package registry url (some e) left
          else return .error e

def get (c : Client) (package registry url : String) : Asking (Except RegistryError String) :=
  c.attempt package registry url none (c.retries + 1)

end Client

/-- The URLs of the requests that reached the registry, in order. -/
def arrivals (log : List Request) : List String :=
  (log.filter (·.exchange.arrived)).map (·.url)

end Requirements
