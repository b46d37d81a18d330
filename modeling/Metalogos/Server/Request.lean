import Metalogos.Lib.Text

/-!
# Requests: headers, cookies, routes

What `route_handler` reads of a request: the first header of a name, when it is text; the tokens of the
double-submit check, from the cookies and from the headers; the session cookie, whose signature is the HMAC of its
value (`hmacHex`, in hex, under the key of the process); and the route of the path and the method, an exact path
before a template.
-/
namespace Metalogos.Server

open Metalogos.Lib

/-- A header: its name in lower case, and its bytes. -/
abbrev Headers := List (String × List UInt8)

/-- `HeaderValue::to_str`: visible ASCII and tabs only. -/
def toStr (value : List UInt8) : Option (List Char) :=
  if value.all fun b => (32 ≤ b.toNat ∧ b.toNat < 127) ∨ b.toNat = 9 then
    some (value.map fun b => Char.ofNat b.toNat)
  else none

/-- `headers.get(name)`, as text. -/
def headerText (headers : Headers) (name : String) : Option (List Char) := (headers.lookup name).bind toStr

/-- The value of the first cookie of a name.
mirrors metalogos-server/src/server.rs:1955-1967 -/
def extractCookie (cookieHeader name : List Char) : Option (List Char) :=
  (cookieHeader.splitOn ';').findSome? fun pair =>
    let pair := trim pair
    if '=' ∈ pair ∧ trim (pair.takeWhile (· ≠ '=')) = name then some (trim ((pair.dropWhile (· ≠ '=')).drop 1))
    else none

/-- mirrors metalogos-server/src/server.rs:1970-1975 -/
def extractSessionCookie (headers : Headers) : Option (List Char) :=
  (headerText headers "cookie").bind fun s => extractCookie s "_mlog_session".toList

/-- mirrors metalogos-server/src/server.rs:1853-1857 -/
def cookieToken (headers : Headers) : Option (List Char) :=
  (headerText headers "cookie").bind fun s => extractCookie s "_mlog_csrf".toList

/-- mirrors metalogos-server/src/server.rs:1859-1870 -/
def headerToken (headers : Headers) : Option (List Char) :=
  (headerText headers "x-csrf-token").orElse fun _ => headerText headers "x-csrf-field"

/-- The value of a cookie whose signature, after the last dot, is right.
mirrors metalogos-server/src/server.rs:3390-3420 -/
def verifyCookie (hmacHex : List Char → List Char) (cookie : List Char) : Option (List Char) :=
  if '.' ∈ cookie then
    let signature := (cookie.reverse.takeWhile (· ≠ '.')).reverse
    let value := ((cookie.reverse.dropWhile (· ≠ '.')).drop 1).reverse
    if signature = hmacHex value then some value else none
  else none

/-- The session that a request presents. -/
def verifiedSession (hmacHex : List Char → List Char) (headers : Headers) : Option (List Char) :=
  (extractSessionCookie headers).bind (verifyCookie hmacHex)

/-! ## Routes -/

/-- mirrors src/ast.rs `RouteDecl`; what the body does is not modelled. -/
structure Route where
  path : List Char
  method : String
  requires : List String
  deriving DecidableEq, Repr

/-- mirrors metalogos-server/src/server.rs:93-110 -/
inductive PathSegment where
  | literal (s : List Char)
  | param (name : List Char)
  | wildcard (name : List Char)
  deriving DecidableEq, Repr

/-- Why a template is refused. -/
inductive TemplateError where
  | afterWildcard
  | emptyParam
  | emptyWildcard
  | badParam (inner : List Char)
  | unbalanced (segment : List Char)
  deriving DecidableEq, Repr

/-- mirrors metalogos-server/src/server.rs:134-173 -/
def parseSegment (seg : List Char) : Except TemplateError PathSegment :=
  if seg.head? = some '\x7b' ∧ seg.getLast? = some '\x7d' then
    match (seg.drop 1).dropLast with
    | [] => .error .emptyParam
    | ['*'] => .error .emptyWildcard
    | '*' :: name => .ok (.wildcard name)
    | inner => if '\x7b' ∈ inner ∨ '\x7d' ∈ inner ∨ '/' ∈ inner then .error (.badParam inner) else .ok (.param inner)
  else if '\x7b' ∈ seg ∨ '\x7d' ∈ seg then .error (.unbalanced seg)
  else .ok (.literal seg)

def PathSegment.isWildcard : PathSegment → Bool
  | .wildcard _ => true
  | _ => false

/-- mirrors metalogos-server/src/server.rs:124-176; `wildcardSeen` is whether the segment before is one. -/
def parseSegments (wildcardSeen : Bool) : List (List Char) → Except TemplateError (List PathSegment)
  | [] => .ok []
  | seg :: segs =>
    if wildcardSeen then .error .afterWildcard
    else do
      let s ← parseSegment seg
      let rest ← parseSegments s.isWildcard segs
      .ok (s :: rest)

/-- The segments of a path, without the slash in front; none where there is nothing else. -/
def pathSegments (path : List Char) : List (List Char) :=
  let stripped := if path.head? = some '/' then path.drop 1 else path
  if stripped = [] then [] else stripped.splitOn '/'

/-- mirrors metalogos-server/src/server.rs:122-177 -/
def parseRouteTemplate (path : List Char) : Except TemplateError (List PathSegment) :=
  parseSegments false (pathSegments path)

/-- mirrors metalogos-server/src/server.rs:181-183 -/
def isTemplatedRoute (path : List Char) : Bool := decide ('\x7b' ∈ path ∧ '\x7d' ∈ path)

/-- Whether the path matches; the values it binds are not modelled.
mirrors metalogos-server/src/server.rs:195-246 -/
def matchPathAgainstTemplate : List (List Char) → List PathSegment → Bool
  | [], [] => true
  | _ :: _, .wildcard _ :: _ => true
  | u :: us, .literal s :: t => decide (u = s) && matchPathAgainstTemplate us t
  | _ :: us, .param _ :: t => matchPathAgainstTemplate us t
  | _, _ => false

/-- mirrors metalogos-server/src/server.rs:256-291 -/
def matchTemplatedRoute (uriPath : List Char) (method : String) :
    List Route → Except TemplateError (Option Route)
  | [] => .ok none
  | r :: routes =>
    if r.method = method ∧ isTemplatedRoute r.path then
      match parseRouteTemplate r.path with
      | .error e => .error e
      | .ok template =>
        if matchPathAgainstTemplate (pathSegments uriPath) template then .ok (some r)
        else matchTemplatedRoute uriPath method routes
    else matchTemplatedRoute uriPath method routes

/-- The route of a request, if any.
mirrors metalogos-server/src/server.rs:1613-1640 -/
def findRoute (routes : List Route) (uriPath : List Char) (method : String) : Except TemplateError (Option Route) :=
  match routes.find? fun r => r.path = uriPath ∧ r.method = method with
  | some r => .ok (some r)
  | none => matchTemplatedRoute uriPath method routes

theorem matchTemplatedRoute_method {uriPath : List Char} {method : String} {routes : List Route} {r : Route}
    (h : matchTemplatedRoute uriPath method routes = .ok (some r)) : r.method = method := by
  induction routes with
  | nil => cases h
  | cons q routes ih =>
    unfold matchTemplatedRoute at h
    split at h
    · rename_i hq
      split at h
      · cases h
      · split at h
        · cases h
          exact hq.1
        · exact ih h
    · exact ih h

/-- A request runs a route of its own method. -/
theorem findRoute_method {routes : List Route} {uriPath : List Char} {method : String} {r : Route}
    (h : findRoute routes uriPath method = .ok (some r)) : r.method = method := by
  unfold findRoute at h
  split at h
  · rename_i q hq
    cases h
    have hroute := List.find?_some hq
    simp only [decide_eq_true_eq] at hroute
    exact hroute.2
  · exact matchTemplatedRoute_method h

end Metalogos.Server
