import DistributedCloud.Gintest.Server
import DistributedCloud.Misc.HandlerChain

/-!
# The web server's routes

A request goes through the handlers that `main` registers for every route and those of its own
route: `main.go`, `routers/routers.go` and `handlers/user_handlers.go`. The handlers of a request
share its body, which can be read once. `CheckLoginStatusHandler` reads it to the end, so that a
handler behind it that binds the body finds nothing left.

`encoding/json` and the query for a `LoginUser` are parameters; the insert of a user is an upsert.
What the handlers answer that look at none of the data here is left out.
-/

namespace DistributedCloud.Gintest

/-! ## Binding -/

/-- `encoding/json`, as it is used to bind bodies. -/
structure Binding where
  /-- What decoding leaves in a new `Token`; the error is not looked at. -/
  decodeToken : String → Token
  /-- What decoding leaves in a new `LoginUser`, and the error as `ctx.JSON` writes it. `none` stands
      for the value `null`, which makes the pointer to the user nil. -/
  decodeUser : String → Option (LoginUser × Option String)
  /-- `io.EOF` has no field that `encoding/json` can see. -/
  decodeUser_empty : decodeUser "" = some (⟨"", ""⟩, some "\x7b\x7d")

/-- The first of the tags `required`, `min` and `max` that a value fails. -/
def failedTag (value : String) (min : Nat) (max : Option Nat) : Option String :=
  if value = "" then some "required"
  else if value.length < min then some "min"
  else if max.any (· < value.length) then some "max"
  else none

/-- The fields of `LoginUser` that fail, each with the tag. -/
def LoginUser.failures (user : LoginUser) : List (String × String) :=
  ((failedTag user.username 3 (some 20)).map (fun tag => ("Username", tag))).toList ++
    ((failedTag user.password 6 none).map (fun tag => ("Password", tag))).toList

/-- The error, if there is one, as `ctx.JSON` writes it: `ValidationErrors` is a slice with an
    element for each field, and `encoding/json` sees nothing of what is in it. -/
def LoginUser.validate (user : LoginUser) : Option String :=
  if user.failures = [] then none
  else some ("[" ++ ",".intercalate (user.failures.map fun _ => "\x7b\x7d") ++ "]")

/-- `ShouldBindJSON` into a pointer to a new `LoginUser`. Validating the nil pointer panics, which
    is `none`. -/
def Binding.shouldBindJSON (binding : Binding) (unread : String) :
    Option (LoginUser × Option String) := do
  let (user, err) ← binding.decodeUser unread
  match err with
  | some err => return (user, some err)
  | none => return (user, user.validate)

/-! ## Users -/

/-- The table of users: the password of each username. -/
abbrev Users : Type := String → Option String

/-- Nobody is registered. -/
def Users.empty : Users := fun _ => none

/-- `Create` with `OnConflict` on the username. -/
def Users.upsert (users : Users) (user : LoginUser) : Users :=
  Function.update users user.username (some user.password)

/-- `RegisterUserIntoDB`; `err` is the error of the insert. -/
def registerUserIntoDB (users : Users) (user : LoginUser) (err : Option String) : Users × Bool :=
  match err with
  | some _ => (users, false)
  | none => (users.upsert user, true)

variable {Key : Type} (jwt : Jwt Key)

/-- `RegisterUserHandler` -/
def registerUserHandler (key : Key) (users : Users) (now : Nat) (bindErr : Option String)
    (user : LoginUser) (dbErr : Option String) (id : String) :
    Except String (Users × List Response) :=
  let bound := getUserFromContext bindErr
  let (users, ok) := registerUserIntoDB users user dbErr
  if !ok then .ok (users, bound ++ [⟨500, [("error", "register failure wait minutes!")]⟩])
  else do
    let token ← generateJWT jwt key user now id
    return (users, bound ++ [⟨200, [("message", "success registered!"), ("token", token)]⟩])

/-- `PostAuthorizationHandler` -/
def postAuthorizationHandler (key : Key) (now : Nat) (bindErr : Option String) (user : LoginUser)
    (id : String) : Except String (List Response) :=
  match bindErr with
  | some err => .ok [⟨400, [("msg", "Request data format failure!"), ("err", err)]⟩]
  | none => do
    let token ← generateJWT jwt key user now id
    return [⟨200, [("token", token)]⟩]

/-! ## Routes -/

/-- The registered routes. -/
inductive Route where
  | ping
  | color
  | info
  | nameID (name id : String)
  | register
  | login
  | setCookie
  | getCookie
  | hello
  | hello1
  | dashboard
  deriving DecidableEq, Repr

/-- `ctx.Request.URL.Path`. -/
def Route.path : Route → String
  | ping => "/user/ping"
  | color => "/user/color"
  | info => "/user/info"
  | nameID name id => "/user/" ++ name ++ "/" ++ id
  | register => "/user/register"
  | login => "/user/login"
  | setCookie => "/set_cookie"
  | getCookie => "/get_cookie"
  | hello => "/hello"
  | hello1 => "/hello1"
  | dashboard => "/admin/dashboard"

/-- A request and what is used of it. -/
structure HttpRequest where
  route : Route
  body : String
  /-- The user and the password in the header `Authorization`. -/
  credentials : Option (String × String)
  /-- The random id of a token made for this request. -/
  id : String
  deriving DecidableEq, Repr

/-- The accounts of the group `/admin`. -/
def accounts : List (String × String) := [("admin", "admin"), ("user", "123456")]

/-- The request has the credentials of one of the accounts. -/
def HttpRequest.Authorized (request : HttpRequest) : Prop :=
  ∃ account ∈ accounts, request.credentials = some account

instance (request : HttpRequest) : Decidable request.Authorized :=
  inferInstanceAs (Decidable (∃ account ∈ accounts, request.credentials = some account))

/-! ## The handlers of a request -/

/-- What the handlers share. -/
structure Context where
  /-- What is left to read of the body. -/
  unread : String
  responses : List Response
  redis : Redis
  users : Users
  /-- The route's own handler has been called. -/
  ran : Bool

/-- More is answered. -/
def Context.respond (more : List Response) (ctx : Context) : Context :=
  { ctx with responses := ctx.responses ++ more }

namespace HttpRequest

variable (binding : Binding) (key : Key) (now : Nat) (request : HttpRequest)

/-- `Logger`, `LoggerFormat` and `Sessions`. -/
def passOn : Handler String Context := fun ctx => .ok (ctx, .next fun ctx => ctx)

/-- `CheckLoginStatusHandler`. After a rejected token it returns without `Abort`. -/
def checkLoginStatus : Handler String Context := fun ctx =>
  if request.route.path ∈ excludePath then .ok (ctx, .next fun ctx => ctx)
  else do
    let token := binding.decodeToken ctx.unread
    let ctx := { ctx with unread := "" }
    if !(← validationUserToken jwt key ctx.redis now token) then
      return (ctx.respond [successResp
        [("statusCode", "200"), ("msg", "token have been invalidated, try to login!")]], .returns)
    else
      return (ctx, .next (.respond [successResp [("message", "success login check by redis!")]]))

/-- `gin.BasicAuth` -/
def basicAuth : Handler String Context := fun ctx =>
  if request.Authorized then .ok (ctx, .returns) else .ok (ctx.respond [⟨401, []⟩], .aborts)

/-- A handler that binds a pointer to a `LoginUser`. -/
def withUser (handle : LoginUser → Option String → Context → Except String Context) :
    Handler String Context := fun ctx =>
  match binding.shouldBindJSON ctx.unread with
  | none => .ok (ctx, .panics)
  | some (user, err) => do
    let ctx ← handle user err ctx
    return (ctx, .returns)

/-- The route's own handler. -/
def ownHandler : Handler String Context := fun ctx =>
  let ctx := { ctx with ran := true }
  match request.route with
  | .register =>
    withUser binding (fun user err ctx => do
      let (users, responses) ←
        registerUserHandler jwt key ctx.users now err user none request.id
      return { ctx with users := users }.respond responses) ctx
  | .login =>
    withUser binding (fun user err ctx => do
      let (redis, responses) ←
        loginUserHandler jwt key ctx.redis now err user (ctx.users user.username) request.id
      return { ctx with redis := redis }.respond responses) ctx
  | .dashboard => do
    -- what is bound here is no pointer, and the value `null` leaves it empty
    let empty : LoginUser := ⟨"", ""⟩
    let (user, err) := (binding.shouldBindJSON ctx.unread).getD (empty, empty.validate)
    let responses ← postAuthorizationHandler jwt key now err user request.id
    return (ctx.respond responses, .returns)
  | _ => .ok (ctx, .returns)

/-- The handlers of the group of a route. -/
def groupHandlers : List (Handler String Context) :=
  match request.route with
  | .dashboard => [request.basicAuth]
  | _ => []

/-- The handlers of a request in the order in which they are called. -/
def handlers : List (Handler String Context) :=
  [passOn, request.checkLoginStatus jwt binding key now, passOn] ++ request.groupHandlers ++
    [request.ownHandler jwt binding key now]

/-- The request is served. `Recovery` answers a panic. -/
def serve (redis : Redis) (users : Users) : Except String Context := do
  let (ctx, panicking) ← Handler.run (request.handlers jwt binding key now)
    ⟨request.body, [], redis, users, false⟩
  return if panicking then ctx.respond [⟨500, []⟩] else ctx

end HttpRequest

/-! ## The running site -/

/-- The server with its table of users. -/
structure Site (Key : Type) where
  clock : Nat
  process : Option Key
  redis : Redis
  users : Users

/-- A request, or a new start of the process. -/
inductive SiteEvent (Key : Type) where
  | request (now : Nat) (request : HttpRequest)
  | restart (now : Nat) (key : Key)
  deriving DecidableEq, Repr

/-- One event; the clock does not go back, and a process that has exited takes no request. -/
def Site.step (binding : Binding) (s : Site Key) : SiteEvent Key → Option (Site Key)
  | .request now request => do
    let key ← s.process
    if s.clock ≤ now then
      match request.serve jwt binding key now s.redis s.users with
      | .ok ctx => some ⟨now, some key, ctx.redis, ctx.users⟩
      | .error _ => some { s with clock := now, process := none }
    else none
  | .restart now key =>
    if s.clock ≤ now then some { s with clock := now, process := some key } else none

/-- The site from its first start on, with nobody registered. -/
def site (binding : Binding) (key : Key) (redis : Redis) : Machine (Site Key) (SiteEvent Key) where
  init := ⟨0, some key, redis, Users.empty⟩
  step := Site.step jwt binding

/-! ## What happened in a run -/

/-- An event and the site it came to. -/
structure Visit (Key : Type) where
  site : Site Key
  event : SiteEvent Key

/-- Every event is noted. -/
def recordVisit (s : Site Key) (e : SiteEvent Key) (_ : Site Key) (visits : List (Visit Key)) :
    List (Visit Key) :=
  visits ++ [⟨s, e⟩]

/-- The site with its visits. -/
def recordedSite (binding : Binding) (key : Key) (redis : Redis) :
    Machine (Site Key × List (Visit Key)) (SiteEvent Key) :=
  (site jwt binding key redis).withHistory [] recordVisit

/-- The user that a request to register is about, if its body binds and is valid. -/
def SiteEvent.registered? (binding : Binding) : SiteEvent Key → Option LoginUser
  | .request _ http =>
    match http.route, binding.shouldBindJSON http.body with
    | .register, some (user, none) => some user
    | _, _ => none
  | .restart _ _ => none

/-- The table that the requests to register call for. -/
def registered (binding : Binding) (visits : List (Visit Key)) : Users :=
  visits.foldl
    (fun users visit =>
      match visit.event.registered? binding with
      | some user => users.upsert user
      | none => users) Users.empty

end DistributedCloud.Gintest
