import Metalogos.Server.Rate
import Metalogos.Server.Request

/-!
# The request guard

`route_handler` with the checks in front of a route's body (`metalogos-server/src/server.rs:1542-1719`,
`:1849-1953`, `:2059-2260`): rate limit, double submit, session, route, roles. A request goes through them in steps,
and any steps of other requests, sweeps and new sessions may come between. A GET that was answered issues a token,
which is in the store until a sweep or a late check finds it 15 minutes old.

In every run the body of a POST, PUT or DELETE route is run only for a request whose cookie and header have one live
token, bound to the session that the request presents; and the body of a route with roles, where the session
middleware is on, only for a session with one of them (`requests_guarded`). The other methods and, without the
middleware, the roles are not looked at (`patch_unguarded`).
-/
namespace Metalogos.Server

open Metalogos.Lib

/-- Status and text of an answer. -/
abbrev Reply := Nat × String

/-- mirrors metalogos-server/src/server.rs:463-468 -/
structure SessionEntry where
  roles : List String
  expires : Nat
  deriving DecidableEq, Repr

/-- A token's session, empty for none, and when it was issued. -/
abbrev CsrfTokens := Dict (List Char) (List Char × Nat)

abbrev Sessions := Dict (List Char) SessionEntry

/-- What stays the same of `ServerState`. -/
structure Config where
  middleware : List String
  routes : List Route
  rateLimitPerMinute : Nat
  hmacHex : List Char → List Char

/-- `clientIp` is the key of the rate limit. -/
structure Request where
  method : String
  path : List Char
  headers : Headers
  clientIp : String
  deriving DecidableEq, Repr

/-! ## The checks -/

/-- mirrors metalogos-server/src/server.rs:1894 -/
def csrfTtl : Nat := secs 900

/-- mirrors metalogos-server/src/server.rs:489 -/
def maxCsrfTokens : Nat := 10000

/-- mirrors metalogos-server/src/server.rs:488 -/
def maxSessions : Nat := 10000

/-- mirrors metalogos-server/src/server.rs:1918-1922 -/
def requestSession (cfg : Config) (headers : Headers) : Option (List Char) :=
  if "session" ∈ cfg.middleware then verifiedSession cfg.hmacHex headers else none

/-- mirrors metalogos-server/src/server.rs:1923-1928 -/
def sessionOk (bound : List Char) (presented : Option (List Char)) : Bool :=
  match bound, presented with
  | [], none => true
  | [], some _ => false
  | b, some s => s = b
  | _, none => false

/-- mirrors metalogos-server/src/server.rs:1850-1953 -/
def checkCsrf (cfg : Config) (tokens : CsrfTokens) (headers : Headers) (now : Nat) : Except Reply Unit × CsrfTokens :=
  match cookieToken headers, headerToken headers with
  | some cookie, some header =>
    if cookie = header then
      match tokens.get cookie with
      | none => (.error (403, "403 Forbidden: CSRF token validation failed"), tokens)
      | some (bound, created) =>
        if now - created ≥ csrfTtl then (.error (403, "403 Forbidden: CSRF token expired"), tokens.erase cookie)
        else if sessionOk bound (requestSession cfg headers) then (.ok (), tokens)
        else (.error (403, "403 Forbidden: CSRF session binding mismatch"), tokens)
    else (.error (403, "403 Forbidden: CSRF token validation failed"), tokens)
  | _, _ => (.error (403, "403 Forbidden: CSRF token validation failed"), tokens)

/-- What the table of sessions answers. -/
inductive DbAnswer where
  | valid
  | gone
  | failed (e : String)
  deriving DecidableEq, Repr

/-- mirrors metalogos-server/src/server.rs:2338-2354 -/
def validateSessionInDb : DbAnswer → Except Reply Unit
  | .valid => .ok ()
  | .gone => .error (401, "401 Unauthorized: session expired")
  | .failed e => .error (500, "DB error: " ++ e)

/-- The session that has a role, with its value; the handler itself goes on with nothing.
mirrors metalogos-server/src/server.rs:2191-2260 -/
def checkRoles (cfg : Config) (sessions : Sessions) (headers : Headers) (required : List String) (now : Nat)
    (db : DbAnswer) : Except Reply (List Char × SessionEntry) :=
  match extractSessionCookie headers with
  | none => .error (401, "401 Unauthorized: no session")
  | some cookie =>
    match verifyCookie cfg.hmacHex cookie with
    | none => .error (401, "401 Unauthorized: invalid session signature")
    | some raw =>
      match sessions.get raw with
      | some entry =>
        if entry.expires < now then .error (401, "401 Unauthorized: session expired")
        else if required.any fun role => role ∈ entry.roles then .ok (raw, entry)
        else .error (403, "403 Forbidden: insufficient permissions")
      | none =>
        match validateSessionInDb db with
        | .error r => .error r
        | .ok () => .error (401, "401 Unauthorized: session not found in cache")

/-! ## The handler -/

/-- Where a request stands; `raw` is its session as the session middleware took it. -/
inductive Stage where
  | rate
  | rateUpdate (now : Nat)
  | csrf
  | session
  | route (raw : Option (List Char))
  | body (raw : Option (List Char)) (route : Route)
  | issue (raw : Option (List Char))
  | insert (raw : Option (List Char))
  | answered (status : Nat)
  deriving DecidableEq, Repr

/-- `checked` and `granted` record the clock at the check of the token and what the role check found. -/
structure Flight where
  req : Request
  stage : Stage
  checked : Option Nat
  granted : Option (List Char × SessionEntry)
  deriving DecidableEq, Repr

/-- A body that was run. -/
structure Ran where
  req : Request
  route : Route
  checked : Option Nat
  granted : Option (List Char × SessionEntry)
  deriving DecidableEq, Repr

/-- `issued`, `opened` and `ran` are no part of the server: the tokens issued, the sessions stored and the bodies run
so far. -/
structure State where
  clock : Nat
  limits : RateLimits
  csrfTokens : CsrfTokens
  sessions : Sessions
  flights : Nat → Option Flight
  issued : List (List Char × List Char × Nat)
  opened : List (List Char × SessionEntry)
  ran : List Ran

/-- What a step gets from outside: the table of sessions, a random token, the status of the body's answer. -/
structure Outside where
  db : DbAnswer
  token : List Char
  status : Nat

/-- mirrors metalogos-server/src/server.rs:1586-1587 -/
def checkedMethods : List String := ["POST", "PUT", "DELETE"]

/-- The next section of the handler, at the clock of `s`.
mirrors metalogos-server/src/server.rs:1577-1693 -/
def advance (cfg : Config) (s : State) (f : Flight) (out : Outside) : State × Flight :=
  match f.stage with
  | .rate =>
    if "rate_limit" ∈ cfg.middleware then
      if refusesKey s.limits f.req.clientIp then (s, { f with stage := .answered 429 })
      else (s, { f with stage := .rateUpdate s.clock })
    else (s, { f with stage := .csrf })
  | .rateUpdate now =>
    let entry := updateEntry s.limits f.req.clientIp now cfg.rateLimitPerMinute
    ({ s with limits := entry.2 }, { f with stage := if entry.1 then .csrf else .answered 429 })
  | .csrf =>
    if f.req.method ∈ checkedMethods ∧ "csrf" ∈ cfg.middleware then
      match checkCsrf cfg s.csrfTokens f.req.headers s.clock with
      | (.ok (), tokens) => ({ s with csrfTokens := tokens }, { f with stage := .session, checked := some s.clock })
      | (.error r, tokens) => ({ s with csrfTokens := tokens }, { f with stage := .answered r.1 })
    else (s, { f with stage := .session })
  | .session =>
    match requestSession cfg f.req.headers with
    | none => (s, { f with stage := .route none })
    | some raw =>
      match validateSessionInDb out.db with
      | .ok () => (s, { f with stage := .route (some raw) })
      | .error r => (s, { f with stage := .answered r.1 })
  | .route raw =>
    match findRoute cfg.routes f.req.path f.req.method with
    | .error _ => (s, { f with stage := .answered 500 })
    | .ok none => (s, { f with stage := .answered 404 })
    | .ok (some route) =>
      if route.requires ≠ [] ∧ "session" ∈ cfg.middleware then
        match checkRoles cfg s.sessions f.req.headers route.requires s.clock out.db with
        | .error r => (s, { f with stage := .answered r.1 })
        | .ok found => (s, { f with stage := .body raw route, granted := some found })
      else (s, { f with stage := .body raw route })
  | .body raw route =>
    ({ s with ran := s.ran ++ [⟨f.req, route, f.checked, f.granted⟩] },
      { f with stage := if f.req.method = "GET" ∧ "csrf" ∈ cfg.middleware then .issue raw else .answered out.status })
  | .issue raw =>
    if s.csrfTokens.keys.length ≥ maxCsrfTokens then (s, { f with stage := .answered 503 })
    else (s, { f with stage := .insert raw })
  | .insert raw =>
    ({ s with
      csrfTokens := s.csrfTokens.set out.token (raw.getD [], s.clock)
      issued := s.issued ++ [(out.token, raw.getD [], s.clock)] }, { f with stage := .answered out.status })
  | .answered _ => (s, f)

/-- mirrors metalogos-server/src/server.rs:2092-2127 -/
def sweepExpiredState (s : State) : State :=
  { s with
    csrfTokens := s.csrfTokens.retain fun _ entry => decide (s.clock - entry.2 < csrfTtl)
    limits := sweepShard s.clock s.limits s.limits.keys
    sessions := s.sessions.retain fun _ entry => decide (entry.expires > s.clock) }

/-- mirrors metalogos-server/src/server.rs:2037-2054 -/
def insertSessionCapped (s : State) (id : List Char) (entry : SessionEntry) : State :=
  if !s.sessions.has id ∧ s.sessions.keys.length ≥ maxSessions then s
  else { s with sessions := s.sessions.set id entry, opened := s.opened ++ [(id, entry)] }

/-- `elapsed` is what the clock has gone on by. -/
inductive Step where
  | arrive (id : Nat) (req : Request)
  | advance (id elapsed : Nat) (out : Outside)
  | sweep (elapsed : Nat)
  | openSession (id : List Char) (entry : SessionEntry)

namespace State

def start : State := ⟨0, .empty, .empty, .empty, fun _ => none, [], [], []⟩

def step (cfg : Config) (s : State) : Step → State
  | .arrive id req => { s with flights := Function.update s.flights id (some ⟨req, .rate, none, none⟩) }
  | .advance id elapsed out =>
    match s.flights id with
    | none => s
    | some f =>
      let r := Server.advance cfg { s with clock := s.clock + elapsed } f out
      { r.1 with flights := Function.update s.flights id (some r.2) }
  | .sweep elapsed => sweepExpiredState { s with clock := s.clock + elapsed }
  | .openSession id entry => insertSessionCapped s id entry

def run (cfg : Config) (s : State) (steps : List Step) : State := steps.foldl (step cfg) s

end State

/-! ## What a request has passed -/

/-- Its cookie and its header have one token, issued less than 15 minutes before the check and bound to its
session. -/
def Covered (cfg : Config) (issued : List (List Char × List Char × Nat)) (req : Request) (checked : Option Nat) :
    Prop :=
  ∃ token bound created, ∃ now ∈ checked, cookieToken req.headers = some token ∧ headerToken req.headers = some token ∧
    (token, bound, created) ∈ issued ∧ created ≤ now ∧ now < created + csrfTtl ∧
    bound = (requestSession cfg req.headers).getD []

/-- Its session, as it was stored, has one of the roles. -/
def RoleHeld (cfg : Config) (opened : List (List Char × SessionEntry)) (req : Request) (requires : List String)
    (granted : Option (List Char × SessionEntry)) : Prop :=
  ∃ raw entry, verifiedSession cfg.hmacHex req.headers = some raw ∧ granted = some (raw, entry) ∧
    (raw, entry) ∈ opened ∧ ∃ role ∈ requires, role ∈ entry.roles

def TokenPassed (cfg : Config) (issued : List (List Char × List Char × Nat)) (req : Request) (checked : Option Nat) :
    Prop :=
  "csrf" ∈ cfg.middleware → req.method ∈ checkedMethods → Covered cfg issued req checked

def RolePassed (cfg : Config) (opened : List (List Char × SessionEntry)) (req : Request) (route : Route)
    (granted : Option (List Char × SessionEntry)) : Prop :=
  "session" ∈ cfg.middleware → route.requires ≠ [] → RoleHeld cfg opened req route.requires granted

/-- What holds of a request at its stage. -/
def Flight.Passed (cfg : Config) (issued : List (List Char × List Char × Nat))
    (opened : List (List Char × SessionEntry)) (f : Flight) : Prop :=
  match f.stage with
  | .session | .route _ => TokenPassed cfg issued f.req f.checked
  | .body _ route => route.method = f.req.method ∧ TokenPassed cfg issued f.req f.checked ∧
      RolePassed cfg opened f.req route f.granted
  | _ => True

/-- What holds of a body that was run. -/
structure Ran.Guarded (cfg : Config) (issued : List (List Char × List Char × Nat))
    (opened : List (List Char × SessionEntry)) (r : Ran) : Prop where
  method : r.route.method = r.req.method
  token : TokenPassed cfg issued r.req r.checked
  roles : RolePassed cfg opened r.req r.route r.granted

section

variable {cfg : Config} {issued issued' : List (List Char × List Char × Nat)}
  {opened opened' : List (List Char × SessionEntry)}

theorem TokenPassed.mono {req : Request} {checked : Option Nat} (h : TokenPassed cfg issued req checked)
    (hsub : issued ⊆ issued') : TokenPassed cfg issued' req checked := by
  intro hcsrf hmethod
  obtain ⟨token, bound, created, now, hnow, hcookie, hheader, hmem, hrest⟩ := h hcsrf hmethod
  exact ⟨token, bound, created, now, hnow, hcookie, hheader, hsub hmem, hrest⟩

theorem RolePassed.mono {req : Request} {route : Route} {granted : Option (List Char × SessionEntry)}
    (h : RolePassed cfg opened req route granted) (hsub : opened ⊆ opened') : RolePassed cfg opened' req route granted := by
  intro hsession hrequires
  obtain ⟨raw, entry, hraw, hgranted, hmem, hrole⟩ := h hsession hrequires
  exact ⟨raw, entry, hraw, hgranted, hsub hmem, hrole⟩

theorem Flight.Passed.mono {f : Flight} (h : f.Passed cfg issued opened) (hissued : issued ⊆ issued')
    (hopened : opened ⊆ opened') : f.Passed cfg issued' opened' := by
  unfold Flight.Passed at h ⊢
  split at h
  · exact h.mono hissued
  · exact h.mono hissued
  · exact ⟨h.1, h.2.1.mono hissued, h.2.2.mono hopened⟩
  · trivial

theorem Ran.Guarded.mono {r : Ran} (h : r.Guarded cfg issued opened) (hissued : issued ⊆ issued')
    (hopened : opened ⊆ opened') : r.Guarded cfg issued' opened' :=
  ⟨h.method, h.token.mono hissued, h.roles.mono hopened⟩

/-- A token that passes the check. -/
theorem checkCsrf_ok {tokens tokens' : CsrfTokens} {req : Request} {now : Nat}
    (hissued : ∀ token bound created, tokens.get token = some (bound, created) →
      (token, bound, created) ∈ issued ∧ created ≤ now)
    (h : checkCsrf cfg tokens req.headers now = (.ok (), tokens')) :
    tokens' = tokens ∧ Covered cfg issued req (some now) := by
  unfold checkCsrf at h
  split at h
  · rename_i cookie header hcookie hheader
    split at h
    · rename_i heq
      split at h
      · cases h
      · rename_i bound created hget
        split at h
        · cases h
        · rename_i hage
          split at h
          · rename_i hbound
            cases h
            obtain ⟨hmem, hle⟩ := hissued cookie bound created hget
            refine ⟨rfl, cookie, bound, created, now, rfl, hcookie, heq ▸ hheader, hmem, hle, by omega, ?_⟩
            unfold sessionOk at hbound
            split at hbound <;> simp_all
          · cases h
    · cases h
  · cases h

/-- A refused token at most takes its entry away. -/
theorem checkCsrf_get {tokens tokens' : CsrfTokens} {headers : Headers} {now : Nat} {out : Except Reply Unit}
    (h : checkCsrf cfg tokens headers now = (out, tokens')) {token : List Char} {entry : List Char × Nat}
    (hget : tokens'.get token = some entry) : tokens.get token = some entry := by
  have herase {cookie : List Char} (hg : (tokens.erase cookie).get token = some entry) :
      tokens.get token = some entry := by
    rw [Dict.get_erase] at hg
    split at hg
    · cases hg
    · exact hg
  unfold checkCsrf at h
  repeat' split at h
  all_goals
    cases h
    first
      | exact hget
      | exact herase hget

theorem checkRoles_ok {sessions : Sessions} {headers : Headers} {required : List String} {now : Nat} {db : DbAnswer}
    {found : List Char × SessionEntry} (h : checkRoles cfg sessions headers required now db = .ok found) :
    verifiedSession cfg.hmacHex headers = some found.1 ∧ sessions.get found.1 = some found.2 ∧
      ∃ role ∈ required, role ∈ found.2.roles := by
  unfold checkRoles at h
  split at h
  · cases h
  · rename_i cookie hcookie
    split at h
    · cases h
    · rename_i raw hraw
      split at h
      · rename_i entry hentry
        split at h
        · cases h
        · split at h
          · rename_i hrole
            cases h
            refine ⟨?_, hentry, by simpa using hrole⟩
            rw [verifiedSession, hcookie]
            exact hraw
          · cases h
      · split at h <;> cases h

end

/-! ## Runs -/

/-- What holds in every state. -/
structure State.Sound (cfg : Config) (s : State) : Prop where
  tokens : ∀ token bound created, s.csrfTokens.get token = some (bound, created) →
    (token, bound, created) ∈ s.issued ∧ created ≤ s.clock
  sessions : ∀ id entry, s.sessions.get id = some entry → (id, entry) ∈ s.opened
  flights : ∀ id f, s.flights id = some f → f.Passed cfg s.issued s.opened
  ran : ∀ r ∈ s.ran, r.Guarded cfg s.issued s.opened

section

variable {cfg : Config} {s : State}

theorem sound_start : State.start.Sound cfg := by
  constructor
  · intro token bound created h
    cases h
  · intro id entry h
    cases h
  · intro id f h
    cases h
  · intro r h
    cases h

/-- What a request in flight does to the state, but for the steps that run a body or issue a token. -/
theorem advance_quiet {f : Flight} {out : Outside} (hbody : ∀ raw route, f.stage ≠ .body raw route)
    (hinsert : ∀ raw, f.stage ≠ .insert raw) :
    ∃ limits tokens, (advance cfg s f out).1 = { s with limits := limits, csrfTokens := tokens } ∧
      ∀ token entry, tokens.get token = some entry → s.csrfTokens.get token = some entry := by
  unfold advance
  cases hstage : f.stage with
  | body raw route => exact absurd hstage (hbody raw route)
  | insert raw => exact absurd hstage (hinsert raw)
  | rateUpdate now => exact ⟨_, s.csrfTokens, rfl, fun _ _ h => h⟩
  | csrf =>
    dsimp only
    split
    · split
      · rename_i hcheck
        exact ⟨s.limits, _, rfl, fun _ _ h => checkCsrf_get hcheck h⟩
      · rename_i hcheck
        exact ⟨s.limits, _, rfl, fun _ _ h => checkCsrf_get hcheck h⟩
    · exact ⟨s.limits, s.csrfTokens, rfl, fun _ _ h => h⟩
  | rate | session | route | issue | answered =>
    refine ⟨s.limits, s.csrfTokens, ?_, fun _ _ h => h⟩
    dsimp only
    repeat' split
    all_goals rfl

/-- What a request has passed after its next step. -/
theorem Flight.Passed.advance (h : s.Sound cfg) {f : Flight} (hf : f.Passed cfg s.issued s.opened) (out : Outside) :
    (advance cfg s f out).2.Passed cfg s.issued s.opened := by
  unfold Flight.Passed at hf
  unfold Server.advance
  cases hstage : f.stage with
  | rate | rateUpdate | body | issue | insert =>
    dsimp only
    unfold Flight.Passed
    repeat' split
    all_goals first | trivial | simp_all
  | answered status => simp [Flight.Passed, hstage]
  | csrf =>
    dsimp only
    split
    · split
      · rename_i hcheck
        exact fun _ _ => (checkCsrf_ok h.tokens hcheck).2
      · trivial
    · rename_i hskip
      exact fun hcsrf hmethod => absurd ⟨hmethod, hcsrf⟩ hskip
  | session =>
    rw [hstage] at hf
    dsimp only
    split
    · exact hf
    · split
      · exact hf
      · trivial
  | route raw =>
    rw [hstage] at hf
    dsimp only
    split
    · trivial
    · trivial
    · rename_i route hroute
      have hmethod := findRoute_method hroute
      split
      · split
        · trivial
        · rename_i found hroles
          obtain ⟨hraw, hentry, hrole⟩ := checkRoles_ok hroles
          exact ⟨hmethod, hf, fun _ _ => ⟨found.1, found.2, hraw, rfl, h.sessions _ _ hentry, hrole⟩⟩
      · rename_i hskip
        exact ⟨hmethod, hf, fun hsession hrequires => absurd ⟨hrequires, hsession⟩ hskip⟩

/-- A state with the same records, and less in its stores. -/
theorem State.Sound.less (h : s.Sound cfg) {s' : State} (hissued : s'.issued = s.issued) (hopened : s'.opened = s.opened)
    (hran : s'.ran = s.ran) (hclock : s.clock ≤ s'.clock)
    (htokens : ∀ token entry, s'.csrfTokens.get token = some entry → s.csrfTokens.get token = some entry)
    (hsessions : ∀ id entry, s'.sessions.get id = some entry → s.sessions.get id = some entry)
    (hflights : ∀ id f, s'.flights id = some f → f.Passed cfg s.issued s.opened) : s'.Sound cfg := by
  refine ⟨fun token bound created hget => ?_, fun id entry hget => ?_, fun id f hf => ?_, fun r hr => ?_⟩
  · obtain ⟨hmem, hle⟩ := h.tokens token bound created (htokens token _ hget)
    exact ⟨hissued ▸ hmem, Nat.le_trans hle hclock⟩
  · exact hopened ▸ h.sessions id entry (hsessions id entry hget)
  · rw [hissued, hopened]
    exact hflights id f hf
  · rw [hissued, hopened]
    exact h.ran r (hran ▸ hr)

theorem passed_update {flights : Nat → Option Flight} {issued : List (List Char × List Char × Nat)}
    {opened : List (List Char × SessionEntry)} {f : Flight} {id : Nat}
    (hflights : ∀ id f, flights id = some f → f.Passed cfg issued opened) (hf : f.Passed cfg issued opened) :
    ∀ j g, Function.update flights id (some f) j = some g → g.Passed cfg issued opened := by
  intro j g hj
  by_cases hji : j = id
  · subst hji
    rw [Function.update_self, Option.some.injEq] at hj
    exact hj ▸ hf
  · rw [Function.update_of_ne hji] at hj
    exact hflights j g hj

theorem State.Sound.later (h : s.Sound cfg) (elapsed : Nat) : { s with clock := s.clock + elapsed }.Sound cfg :=
  h.less rfl rfl rfl (Nat.le_add_right _ _) (fun _ _ h => h) (fun _ _ h => h) h.flights

/-- A body is run for a request that has passed. -/
theorem State.Sound.body (h : s.Sound cfg) {f : Flight} {id : Nat} {raw : Option (List Char)} {route : Route}
    (hf : f.Passed cfg s.issued s.opened) (hstage : f.stage = .body raw route) {out : Outside} :
    { (advance cfg s f out).1 with
      flights := Function.update s.flights id (some (advance cfg s f out).2) }.Sound cfg := by
  have hnext := hf.advance h out
  unfold advance at hnext ⊢
  rw [hstage] at hnext ⊢
  unfold Flight.Passed at hf
  rw [hstage] at hf
  refine ⟨h.tokens, h.sessions, passed_update h.flights hnext, fun r hr => ?_⟩
  cases List.mem_append.1 hr with
  | inl hr => exact h.ran r hr
  | inr hr =>
    rw [List.mem_singleton.1 hr]
    exact ⟨hf.1, hf.2.1, hf.2.2⟩

/-- A token is issued with the time at which it is. -/
theorem State.Sound.insert (h : s.Sound cfg) {f : Flight} {id : Nat} {raw : Option (List Char)}
    (hf : f.Passed cfg s.issued s.opened) (hstage : f.stage = .insert raw) {out : Outside} :
    { (advance cfg s f out).1 with
      flights := Function.update s.flights id (some (advance cfg s f out).2) }.Sound cfg := by
  have hnext := hf.advance h out
  unfold advance at hnext ⊢
  rw [hstage] at hnext ⊢
  have hsub : s.issued ⊆ s.issued ++ [(out.token, raw.getD [], s.clock)] := List.subset_append_left _ _
  refine ⟨fun token bound created hget => ?_, h.sessions, ?_, fun r hr => (h.ran r hr).mono hsub (List.Subset.refl _)⟩
  · simp only [Dict.get_set] at hget
    split at hget
    · rename_i heq
      cases hget
      rw [heq]
      exact ⟨List.mem_append_right _ List.mem_cons_self, Nat.le_refl _⟩
    · obtain ⟨hmem, hle⟩ := h.tokens token bound created hget
      exact ⟨List.mem_append_left _ hmem, hle⟩
  · exact passed_update (fun j g hg => (h.flights j g hg).mono hsub (List.Subset.refl _))
      (hnext.mono hsub (List.Subset.refl _))

theorem State.Sound.advance (h : s.Sound cfg) {f : Flight} {id : Nat} (hf : f.Passed cfg s.issued s.opened)
    (out : Outside) :
    { (advance cfg s f out).1 with
      flights := Function.update s.flights id (some (advance cfg s f out).2) }.Sound cfg := by
  by_cases hbody : ∃ raw route, f.stage = .body raw route
  · obtain ⟨raw, route, hstage⟩ := hbody
    exact h.body hf hstage
  by_cases hinsert : ∃ raw, f.stage = .insert raw
  · obtain ⟨raw, hstage⟩ := hinsert
    exact h.insert hf hstage
  obtain ⟨limits, tokens, heq, hget⟩ := @advance_quiet cfg s f out
    (fun raw route hstage => hbody ⟨raw, route, hstage⟩) (fun raw hstage => hinsert ⟨raw, hstage⟩)
  have hnext := hf.advance h out
  rw [heq]
  exact h.less rfl rfl rfl (Nat.le_refl _) hget (fun _ _ h => h) (passed_update h.flights hnext)

theorem State.Sound.sweep (h : s.Sound cfg) : (sweepExpiredState s).Sound cfg := by
  refine h.less rfl rfl rfl (Nat.le_refl _) (fun token entry hget => ?_) (fun id entry hget => ?_) h.flights
  · simp only [sweepExpiredState, Dict.get_retain] at hget
    exact (Option.filter_eq_some_iff.1 hget).1
  · simp only [sweepExpiredState, Dict.get_retain] at hget
    exact (Option.filter_eq_some_iff.1 hget).1

theorem State.Sound.openSession (h : s.Sound cfg) (id : List Char) (entry : SessionEntry) :
    (insertSessionCapped s id entry).Sound cfg := by
  unfold insertSessionCapped
  split
  · exact h
  · have hsub : s.opened ⊆ s.opened ++ [(id, entry)] := List.subset_append_left _ _
    refine ⟨h.tokens, fun j e hget => ?_, fun j f hf => (h.flights j f hf).mono (List.Subset.refl _) hsub,
      fun r hr => (h.ran r hr).mono (List.Subset.refl _) hsub⟩
    simp only [Dict.get_set] at hget
    split at hget
    · rename_i heq
      cases hget
      rw [heq]
      exact List.mem_append_right _ List.mem_cons_self
    · exact List.mem_append_left _ (h.sessions j e hget)

theorem State.Sound.step (h : s.Sound cfg) (a : Step) : (s.step cfg a).Sound cfg := by
  cases a with
  | arrive id req =>
    exact h.less rfl rfl rfl (Nat.le_refl _) (fun _ _ h => h) (fun _ _ h => h) (passed_update h.flights trivial)
  | advance id elapsed out =>
    unfold State.step
    dsimp only
    cases hf : s.flights id with
    | none => exact h
    | some f => exact (h.later elapsed).advance (h.flights id f hf) out
  | sweep elapsed => exact (h.later elapsed).sweep
  | openSession id entry => exact h.openSession id entry

theorem State.Sound.run (h : s.Sound cfg) (steps : List Step) : (s.run cfg steps).Sound cfg := by
  induction steps generalizing s with
  | nil => exact h
  | cons a steps ih => exact ih (h.step a)

end

/-- What the guard promises of a state: a body of a POST, PUT or DELETE route was run, with the csrf middleware on,
for a request with a token of its session in cookie and header, issued less than 15 minutes before the check; and a
body of a route with roles, with the session middleware on, for a session with one of them. -/
def State.Guarded (cfg : Config) (s : State) : Prop :=
  ("csrf" ∈ cfg.middleware → ∀ r ∈ s.ran, r.route.method ∈ checkedMethods → Covered cfg s.issued r.req r.checked) ∧
    ("session" ∈ cfg.middleware → ∀ r ∈ s.ran, r.route.requires ≠ [] →
      RoleHeld cfg s.opened r.req r.route.requires r.granted)

theorem requests_guarded (cfg : Config) (steps : List Step) : (State.start.run cfg steps).Guarded cfg := by
  have h := (@sound_start cfg).run steps
  refine ⟨fun hcsrf r hr hmethod => ?_, fun hsession r hr hrequires => (h.ran r hr).roles hsession hrequires⟩
  have hg := h.ran r hr
  exact hg.token hcsrf (hg.method ▸ hmethod)

namespace Sample

/-- A PATCH route for one role, under the csrf middleware alone. -/
def patchConfig : Config where
  middleware := ["csrf"]
  routes := [⟨['/', 'a'], "PATCH", ["admin"]⟩]
  rateLimitPerMinute := 100
  hmacHex := id

/-- `_mlog_session=u.u`, and no token. -/
def patchRequest : Request where
  method := "PATCH"
  path := ['/', 'a']
  headers := [("cookie", [95, 109, 108, 111, 103, 95, 115, 101, 115, 115, 105, 111, 110, 61, 117, 46, 117])]
  clientIp := "peer"

def patchRun : List Step :=
  .arrive 0 patchRequest :: List.replicate 5 (.advance 0 1 ⟨.valid, [], 200⟩)

theorem ran_patch : (State.start.run patchConfig patchRun).ran =
    [⟨patchRequest, ⟨['/', 'a'], "PATCH", ["admin"]⟩, none, none⟩] := by
  decide +kernel

end Sample

/-- The body of a PATCH route runs without any token, and the body of a route with roles runs for a session that was
never stored with one, when the session middleware is off. -/
theorem patch_unguarded :
    (¬ ∀ cfg steps, "csrf" ∈ cfg.middleware → ∀ r ∈ (State.start.run cfg steps).ran,
        r.route.method ∈ ["POST", "PUT", "PATCH", "DELETE"] →
        ∃ token, cookieToken r.req.headers = some token ∧ headerToken r.req.headers = some token) ∧
      ¬ ∀ cfg steps, ∀ r ∈ (State.start.run cfg steps).ran, r.route.requires ≠ [] →
        ∀ raw, verifiedSession cfg.hmacHex r.req.headers = some raw →
        ∃ entry, (raw, entry) ∈ (State.start.run cfg steps).opened ∧ ∃ role ∈ r.route.requires, role ∈ entry.roles := by
  have hran : (⟨Sample.patchRequest, ⟨['/', 'a'], "PATCH", ["admin"]⟩, none, none⟩ : Ran) ∈
      (State.start.run Sample.patchConfig Sample.patchRun).ran := by
    rw [Sample.ran_patch]
    exact List.mem_singleton_self _
  constructor
  · intro h
    obtain ⟨token, hcookie, -⟩ := h Sample.patchConfig Sample.patchRun (by decide) _ hran (by decide)
    have hnone : cookieToken Sample.patchRequest.headers = none := by decide +kernel
    rw [hnone] at hcookie
    cases hcookie
  · intro h
    have hraw : verifiedSession Sample.patchConfig.hmacHex Sample.patchRequest.headers = some ['u'] := by
      decide +kernel
    obtain ⟨entry, hopened, -⟩ := h Sample.patchConfig Sample.patchRun _ hran (by decide) _ hraw
    have hnone : (State.start.run Sample.patchConfig Sample.patchRun).opened = [] := by decide +kernel
    rw [hnone] at hopened
    cases hopened

end Metalogos.Server
