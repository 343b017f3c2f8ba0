import DistributedCloud.Misc.Machine

/-!
# The web server's tokens

Logging in and checking tokens in `gintest`: `handlers/user_handlers.go`, `utils/jwts_util.go`,
`utils/error_use_logger.go`, `utils/redis_util.go` and `mydb/user_sqls.go`. A result `.error text`
of a handler is the end of the process by `log.Fatalln`, which prints `text`.

`jwt/v4` is the structure `Jwt`, with what it is documented to do with a token signed by the key
it is given. The database appears as its answer to the one query that is made.
-/

namespace DistributedCloud.Gintest

/-! ## Time -/

/-- Instants and durations are counted in nanoseconds. -/
def second : Nat := 1000000000

/-- `time.Hour`. -/
def hour : Nat := 3600 * second

/-- `jwt.NewNumericDate` keeps whole seconds. -/
def newNumericDate (t : Nat) : Nat := t / second

/-! ## Tokens -/

/-- `MyClaim`; the dates are in seconds. -/
structure MyClaim where
  username : String
  issuer : String
  issuedAt : Nat
  audience : List String
  notBefore : Nat
  expiresAt : Nat
  id : String
  deriving DecidableEq, Repr

/-- `LoginUser`. -/
structure LoginUser where
  username : String
  password : String
  deriving DecidableEq, Repr

/-- `Token`, what a request has about a token. -/
structure Token where
  username : String
  token : String
  deriving DecidableEq, Repr

/-- What `ParseTokenCheckExpired` reads of a `jwt.Token`. -/
structure ParsedToken where
  valid : Bool
  deriving DecidableEq, Repr

/-- `jwt/v4` over key pairs `Key`: the private key signs and the public key checks. -/
structure Jwt (Key : Type) where
  signedString : Key → MyClaim → String
  /-- The token parsed at some instant, or the text of the error. -/
  parseWithClaims : Key → Nat → String → Except String ParsedToken
  signed_ne_empty : ∀ key claims, signedString key claims ≠ ""
  parse_unexpired : ∀ key claims now, claims.issuedAt * second ≤ now →
    claims.notBefore * second ≤ now → now < claims.expiresAt * second →
    parseWithClaims key now (signedString key claims) = .ok ⟨true⟩
  parse_expired : ∀ key claims now, claims.expiresAt * second ≤ now →
    ∃ err, parseWithClaims key now (signedString key claims) = .error err

variable {Key : Type} (jwt : Jwt Key)

/-- The claims of a token made now; `id` is the random one. -/
def claimsFor (user : LoginUser) (now : Nat) (id : String) : MyClaim where
  username := user.username
  issuer := "WebServer"
  issuedAt := newNumericDate now
  audience := [user.username]
  notBefore := newNumericDate now
  expiresAt := newNumericDate (now + 1 * hour)
  id := id

/-- `GenerateJWT` -/
def generateJWT (key : Key) (user : LoginUser) (now : Nat) (id : String) : Except String String :=
  let signalString := jwt.signedString key (claimsFor user now id)
  if signalString = "" then .error "the token was generated null!" else .ok signalString

/-- `ErrorInLog`, on a result that comes with an error. -/
def errorInLog {α : Type} : Except String α → Except String α
  | .ok result => .ok result
  | .error err => .error ("error:  " ++ err)

/-- `ParseTokenCheckExpired`. The type assertion on the claims always holds: they are the ones
    that were passed in. -/
def parseTokenCheckExpired (key : Key) (now : Nat) (token : String) : Except String Bool :=
  if token = "" then .ok false
  else do
    let claim ← errorInLog (jwt.parseWithClaims key now token)
    if claim.valid then return false else return true

/-! ## Redis -/

/-- A value and the instant at which it is gone. -/
structure Entry where
  value : String
  deadline : Nat
  deriving DecidableEq, Repr

/-- What has been set; an entry past its deadline reads as if it were not there. -/
structure Redis where
  entries : String → Option Entry

namespace Redis

/-- Nothing has been set. -/
def empty : Redis := ⟨fun _ => none⟩

/-- `Get(key).Result()` without its error, which nobody looks at. -/
def get (rdb : Redis) (key : String) (now : Nat) : String :=
  match rdb.entries key with
  | some entry => if now < entry.deadline then entry.value else ""
  | none => ""

/-- `Set` with an expiration. -/
def set (rdb : Redis) (key value : String) (expiration now : Nat) : Redis :=
  ⟨Function.update rdb.entries key (some ⟨value, now + expiration⟩)⟩

end Redis

/-- `EqualToken`. -/
def equalToken (t1 t2 : String) : Bool := t1 == t2

/-! ## Handlers -/

/-- A body that a handler writes with `ctx.JSON`; strings are without their quotes. -/
structure Response where
  status : Nat
  body : List (String × String)
  deriving DecidableEq, Repr

/-- `successResp`. -/
def successResp (msg : List (String × String)) : Response := ⟨200, msg⟩

/-- `serverErrorResp`. -/
def serverErrorResp (msg : List (String × String)) : Response := ⟨500, msg⟩

/-- `getUserFromContext` answers a body that does not bind, and the handler goes on with what was
    bound; `bindErr` is the error as `ctx.JSON` writes it. -/
def getUserFromContext (bindErr : Option String) : List Response :=
  match bindErr with
  | some err => [⟨400, [("msg", "Request data format failure!"), ("err", err)]⟩]
  | none => []

/-- `QueryUserInfo`; `found` is the password of the first user of that name, `none` if the query
    has an error. -/
def queryUserInfo (user : LoginUser) (found : Option String) : Bool :=
  match found with
  | none => false
  | some password =>
    if password = "" then false
    else if password ≠ user.password then false
    else true

/-- `validationUserToken`; the token is parsed only if it is the one in Redis. -/
def validationUserToken (key : Key) (rdb : Redis) (now : Nat) (token : Token) :
    Except String Bool :=
  if token.token ≠ "" then
    let rdbToken := rdb.get token.username now
    if equalToken token.token rdbToken then do
      let expired ← parseTokenCheckExpired jwt key now token.token
      if !expired then return true else return false
    else .ok false
  else .ok false

/-- The paths for which no token is checked. -/
def excludePath : List String := ["/user/login"]

/-- `CheckLoginStatusHandler`; the handlers of the route, which run in any case, are left out. -/
def checkLoginStatusHandler (key : Key) (rdb : Redis) (now : Nat) (path : String) (token : Token) :
    Except String (List Response) :=
  if path ∈ excludePath then .ok []
  else do
    if !(← validationUserToken jwt key rdb now token) then
      return [successResp
        [("statusCode", "200"), ("msg", "token have been invalidated, try to login!")]]
    else
      return [successResp [("message", "success login check by redis!")]]

/-- `LoginUserHandler` -/
def loginUserHandler (key : Key) (rdb : Redis) (now : Nat) (bindErr : Option String)
    (user : LoginUser) (found : Option String) (id : String) :
    Except String (Redis × List Response) :=
  let bound := getUserFromContext bindErr
  if !queryUserInfo user found then
    .ok (rdb, bound ++ [serverErrorResp [("error",
      "Input User or Password value was failure, or the account not register!")]])
  else do
    let token ← generateJWT jwt key user now id
    return (rdb.set user.username token (24 * hour) now,
      bound ++ [successResp [("message", "success login & generator token!"), ("token", token)]])

/-! ## The running server -/

/-- `process` is the key pair of the process, `none` after it has exited. -/
structure Server (Key : Type) where
  clock : Nat
  process : Option Key
  redis : Redis

/-- A request, with what the handlers find out about it. -/
inductive Request where
  /-- A request to `/user/login` with the user that was bound, the error of the binding, the
      password in the database and the random id of a token. -/
  | login (bindErr : Option String) (user : LoginUser) (found : Option String) (id : String)
  /-- A request to another path, with what was bound as its token. -/
  | other (path : String) (token : Token)
  deriving DecidableEq, Repr

/-- A request, or a new start of the process. -/
inductive Event (Key : Type) where
  | request (now : Nat) (request : Request)
  /-- `main` is started again, and `InitKey` makes a new key pair. Redis keeps what it has. -/
  | restart (now : Nat) (key : Key)
  deriving DecidableEq, Repr

/-- What is in Redis after a request, and what was answered. -/
def handle (key : Key) (rdb : Redis) (now : Nat) : Request → Except String (Redis × List Response)
  | .login bindErr user found id => loginUserHandler jwt key rdb now bindErr user found id
  | .other path token => do
    let responses ← checkLoginStatusHandler jwt key rdb now path token
    return (rdb, responses)

/-- One event; the clock does not go back, and a process that has exited takes no request. -/
def Server.step (s : Server Key) : Event Key → Option (Server Key)
  | .request now request => do
    let key ← s.process
    if s.clock ≤ now then
      match handle jwt key s.redis now request with
      | .ok (redis, _) => some { clock := now, process := some key, redis := redis }
      | .error _ => some { s with clock := now, process := none }
    else none
  | .restart now key =>
    if s.clock ≤ now then some { s with clock := now, process := some key } else none

/-- The server from its first start on, with nothing in Redis. -/
def server (key : Key) : Machine (Server Key) (Event Key) where
  init := ⟨0, some key, Redis.empty⟩
  step := Server.step jwt

/-! ## The logins of a run -/

/-- A successful login: the token it issued, when, and the key pair of the process. -/
structure Login (Key : Type) where
  username : String
  token : String
  time : Nat
  key : Key
  deriving DecidableEq, Repr

/-- The login a request is, if it is a successful one. -/
def Request.login? (key : Key) (now : Nat) : Request → Option (Login Key)
  | .login _ user found id =>
    match queryUserInfo user found, generateJWT jwt key user now id with
    | true, .ok token => some ⟨user.username, token, now, key⟩
    | _, _ => none
  | .other _ _ => none

/-- Successful logins, the latest first. -/
def recordLogins (s : Server Key) (e : Event Key) (_ : Server Key) (logins : List (Login Key)) :
    List (Login Key) :=
  match e, s.process with
  | .request now request, some key => (request.login? jwt key now).toList ++ logins
  | _, _ => logins

/-- The server with its logins. -/
def recordedServer (key : Key) : Machine (Server Key × List (Login Key)) (Event Key) :=
  (server jwt key).withHistory [] (recordLogins jwt)

/-- The most recent successful login of a user. -/
def latest (logins : List (Login Key)) (username : String) : Option (Login Key) :=
  logins.find? (fun login => login.username = username)

end DistributedCloud.Gintest
