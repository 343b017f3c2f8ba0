import DistributedCloud.Gintest.Proofs.TokenLifecycle
import DistributedCloud.Gintest.Routes
import Mathlib.Tactic

/-!
# Who gets past the check of the login

`CheckLoginStatusHandler` answers a request whose token is rejected and returns, and the rest of
the chain runs all the same. What keeps a route's own handler from running is the basic
authentication of `/admin`, or the end of the process while the token is parsed.

The site without its table of users is the server of the tokens.
-/

namespace DistributedCloud.Gintest

variable {Key : Type} {jwt : Jwt Key} {binding : Binding} {key : Key} {now : Nat}

/-! ## Binding -/

theorem Route.path_mem_excludePath (route : Route) : route.path ∈ excludePath ↔ route = .login := by
  cases route with
  | nameID name id =>
    -- the path of this route has one slash more
    have differs : (Route.nameID name id).path ≠ "/user/login" := by
      intro same
      have slashes := congrArg (fun path => path.toList.count '/') same
      simp only [Route.path, String.toList_append, List.count_append] at slashes
      have first : "/user/".toList.count '/' = 2 := by decide
      have last : "/user/login".toList.count '/' = 2 := by decide
      have middle : "/".toList.count '/' = 1 := by decide
      omega
    simpa [excludePath] using differs
  | _ => simp [Route.path, excludePath]

theorem failedTag_eq_none {value : String} {min : Nat} {max : Option Nat} :
    failedTag value min max = none ↔
      value ≠ "" ∧ min ≤ value.length ∧ ∀ most ∈ max, value.length ≤ most := by
  unfold failedTag
  split
  · simp_all
  · split
    · simp_all
    · cases max <;> simp_all

/-- A user that is bound without an error has a name. -/
theorem LoginUser.username_ne_empty {user : LoginUser} (valid : user.validate = none) :
    user.username ≠ "" := by
  have none : user.failures = [] := by
    by_contra some
    simp [LoginUser.validate, some] at valid
  have tags : failedTag user.username 3 (some 20) = .none := by
    simpa [LoginUser.failures] using (List.append_eq_nil_iff.mp none).1
  exact (failedTag_eq_none.mp tags).1

theorem Binding.shouldBindJSON_empty (binding : Binding) :
    binding.shouldBindJSON "" = some (⟨"", ""⟩, some "\x7b\x7d") := by
  rw [Binding.shouldBindJSON, binding.decodeUser_empty]
  rfl

theorem Binding.username_ne_empty {body : String} {user : LoginUser}
    (bound : binding.shouldBindJSON body = some (user, none)) : user.username ≠ "" := by
  obtain ⟨⟨decoded, err⟩, -, rest⟩ := Option.bind_eq_some_iff.mp bound
  cases err with
  | some err => simp at rest
  | none =>
    obtain ⟨rfl, valid⟩ : decoded = user ∧ decoded.validate = none := by simpa using rest
    exact decoded.username_ne_empty valid

/-! ## The chain -/

namespace HttpRequest

variable (request : HttpRequest)

/-- The basic authentication of `/admin` fails. -/
def Blocked : Prop := request.route = .dashboard ∧ ¬ request.Authorized

/-- The table after the route's own handler has run behind the check. -/
def usersAfter (users : Users) : Users :=
  if request.route = .register then users.upsert ⟨"", ""⟩ else users

/-- What a handler behind the check leaves, where it found `ctx`. -/
structure Leaves (ctx ctx' : Context) : Prop where
  redis : ctx'.redis = ctx.redis
  users : ctx'.users = if ctx'.ran then request.usersAfter ctx.users else ctx.users
  responses : ctx.responses ⊆ ctx'.responses

/-- Behind the check the route's own handler finds an empty body. -/
theorem ownHandler_unread (other : request.route ≠ .login) {ctx : Context} (read : ctx.unread = "") :
    ∃ ctx', request.ownHandler jwt binding key now ctx = .ok (ctx', .returns) ∧
      ctx'.ran = true ∧ request.Leaves ctx ctx' := by
  have bound := binding.shouldBindJSON_empty
  have plain : ∀ more, ({ ctx with ran := true }.respond more).ran = true ∧
      (request.route ≠ .register →
        request.Leaves ctx ({ ctx with ran := true }.respond more)) := by
    intro more
    refine ⟨rfl, fun away => ⟨rfl, ?_, List.subset_append_left _ _⟩⟩
    simp [Context.respond, usersAfter, away]
  cases route : request.route with
  | login => exact absurd route other
  | register =>
    refine ⟨({ ctx with users := ctx.users.upsert ⟨"", ""⟩, ran := true } : Context).respond
      (getUserFromContext (some "\x7b\x7d") ++ [⟨200, [("message", "success registered!"),
        ("token", jwt.signedString key (claimsFor ⟨"", ""⟩ now request.id))]⟩]), ?_, rfl, rfl, ?_, ?_⟩
    · simp only [ownHandler, route, withUser, read, bound, registerUserHandler, registerUserIntoDB,
        generateJWT_eq, Bool.not_true, Bool.false_eq_true, if_false]
      rfl
    · simp [Context.respond, usersAfter, route]
    · exact List.subset_append_left _ _
  | dashboard =>
    refine ⟨_, ?_,
      (plain [⟨400, [("msg", "Request data format failure!"), ("err", "\x7b\x7d")]⟩]).1,
      (plain _).2 (by simp [route])⟩
    simp only [ownHandler, route, read, bound, postAuthorizationHandler]
    rfl
  | _ =>
    refine ⟨_, ?_, (plain []).1, (plain []).2 (by simp [route])⟩
    simp [ownHandler, route, Context.respond]

theorem run_passOn (rest : List (Handler String Context)) (ctx : Context) :
    Handler.run (passOn :: rest) ctx = Handler.run rest ctx := by
  have next : passOn ctx = .ok (ctx, .next fun ctx => ctx) := rfl
  rw [Handler.run_of_next next]
  cases Handler.run rest ctx <;> simp [Except.map]

/-- The rest of the chain, behind the check. -/
theorem run_behind (other : request.route ≠ .login) {ctx : Context} (read : ctx.unread = "")
    (fresh : ctx.ran = false) :
    ∃ ctx', Handler.run ([passOn] ++ request.groupHandlers ++
        [request.ownHandler jwt binding key now]) ctx = .ok (ctx', false) ∧
      (ctx'.ran = true ↔ ¬ request.Blocked) ∧ request.Leaves ctx ctx' := by
  obtain ⟨ctx', own, ran, leaves⟩ :=
    @ownHandler_unread Key jwt binding key now request other ctx read
  have last := Handler.run_of_returns own []
  rw [List.singleton_append, List.cons_append, run_passOn]
  by_cases dashboard : request.route = .dashboard
  · have group : request.groupHandlers = [request.basicAuth] := by simp [groupHandlers, dashboard]
    rw [group, List.singleton_append]
    by_cases authorized : request.Authorized
    · have opens : request.basicAuth ctx = .ok (ctx, .returns) := if_pos authorized
      refine ⟨ctx', (Handler.run_of_returns opens _).trans last, ?_, leaves⟩
      exact iff_of_true ran fun blocked => blocked.2 authorized
    · have shuts : request.basicAuth ctx = .ok (ctx.respond [⟨401, []⟩], .aborts) :=
        if_neg authorized
      refine ⟨_, Handler.run_of_aborts shuts _, ?_, rfl, ?_, List.subset_append_left _ _⟩
      · simp [Context.respond, fresh, Blocked, dashboard, authorized]
      · simp [Context.respond, fresh]
  · have group : request.groupHandlers = [] := by
      cases route : request.route with
      | dashboard => exact absurd route dashboard
      | _ => simp [groupHandlers, route]
    rw [group, List.nil_append]
    exact ⟨ctx', last, iff_of_true ran fun blocked => dashboard blocked.1, leaves⟩

/-! ## What becomes of a request -/

variable (redis : Redis) (users : Users)

/-- The token that the check finds in the body. -/
def validation (jwt : Jwt Key) (binding : Binding) (key : Key) (now : Nat) (redis : Redis) :
    Except String Bool :=
  validationUserToken jwt key redis now (binding.decodeToken request.body)

/-- A request to any route but that of the login, whose token does not end the process. -/
structure Serves (jwt : Jwt Key) (key : Key) (now : Nat) (token : Token) (redis : Redis)
    (users : Users) (ctx : Context) : Prop where
  ran : ctx.ran = true ↔ ¬ request.Blocked
  keeps : ctx.redis = redis
  stores : ctx.users = if ctx.ran then request.usersAfter users else users
  checked : ∀ responses,
    checkLoginStatusHandler jwt key redis now request.route.path token = .ok responses →
      responses ⊆ ctx.responses

/-- The check reads the body. It answers a rejected token at once, and an accepted one behind the
    rest of the chain. -/
theorem checkLoginStatus_eq (included : request.route.path ∉ excludePath) (ctx : Context) :
    request.checkLoginStatus jwt binding key now ctx =
      (validationUserToken jwt key ctx.redis now (binding.decodeToken ctx.unread)).map
        fun valid =>
          if valid then ({ ctx with unread := "" }, .next (.respond (verdict true)))
          else ({ ctx with unread := "" }.respond (verdict false), .returns) := by
  simp only [checkLoginStatus, if_neg included]
  cases validationUserToken jwt key ctx.redis now (binding.decodeToken ctx.unread) with
  | error text => rfl
  | ok valid => cases valid <;> rfl

/-- The check reads the body, and the rest of the chain runs if the process goes on. -/
theorem serve_other (other : request.route ≠ .login) :
    (∃ err, request.validation jwt binding key now redis = .error err ∧
        request.serve jwt binding key now redis users = .error err) ∨
      ∃ accepted ctx, request.validation jwt binding key now redis = .ok accepted ∧
        request.serve jwt binding key now redis users = .ok ctx ∧
        request.Serves jwt key now (binding.decodeToken request.body) redis users ctx := by
  have included : request.route.path ∉ excludePath :=
    fun excluded => other ((Route.path_mem_excludePath _).mp excluded)
  have chain : request.handlers jwt binding key now =
      passOn :: request.checkLoginStatus jwt binding key now ::
        ([passOn] ++ request.groupHandlers ++ [request.ownHandler jwt binding key now]) := rfl
  have check := @checkLoginStatus_eq Key jwt binding key now request included
    ⟨request.body, [], redis, users, false⟩
  have server := checkLoginStatusHandler_eq jwt key redis now included
    (binding.decodeToken request.body)
  rw [serve, chain, run_passOn, validation]
  cases validated : validationUserToken jwt key redis now (binding.decodeToken request.body) with
  | error err =>
    rw [validated] at check
    refine .inl ⟨err, rfl, ?_⟩
    rw [Handler.run_of_error check]
    rfl
  | ok accepted =>
    rw [validated] at check server
    refine .inr ⟨accepted, ?_⟩
    cases accepted with
    | false =>
      obtain ⟨ctx, behind, ran, leaves⟩ := @run_behind Key jwt binding key now request other
        ⟨"", verdict false, redis, users, false⟩ rfl rfl
      refine ⟨ctx, rfl, ?_, ran, leaves.redis, leaves.users, ?_⟩
      · rw [(Handler.run_of_returns check _).trans behind]
        rfl
      · intro responses answered
        cases server.symm.trans answered
        exact leaves.responses
    | true =>
      obtain ⟨ctx, behind, ran, leaves⟩ :=
        @run_behind Key jwt binding key now request other ⟨"", [], redis, users, false⟩ rfl rfl
      refine ⟨ctx.respond (verdict true), rfl, ?_, ran, leaves.redis, leaves.users, ?_⟩
      · rw [Handler.run_of_next check, behind]
        rfl
      · intro responses answered
        cases server.symm.trans answered
        exact List.subset_append_right _ _

/-- The login skips the check and binds its body. -/
theorem serve_login (login : request.route = .login) :
    request.serve jwt binding key now redis users =
      match binding.shouldBindJSON request.body with
      | none => .ok ⟨request.body, [⟨500, []⟩], redis, users, true⟩
      | some (user, err) =>
        (loginUserHandler jwt key redis now err user (users user.username) request.id).map
          fun result => ⟨request.body, result.2, result.1, users, true⟩ := by
  have excluded : request.route.path ∈ excludePath := (Route.path_mem_excludePath _).mpr login
  have group : request.groupHandlers = [] := by simp [groupHandlers, login]
  have chain : request.handlers jwt binding key now =
      passOn :: request.checkLoginStatus jwt binding key now ::
        passOn :: [request.ownHandler jwt binding key now] := by
    simp [handlers, group]
  have next : request.checkLoginStatus jwt binding key now
      ⟨request.body, [], redis, users, false⟩ =
        .ok (⟨request.body, [], redis, users, false⟩, .next fun ctx => ctx) := if_pos excluded
  rw [serve, chain, run_passOn, Handler.run_of_next next, run_passOn]
  cases bound : binding.shouldBindJSON request.body with
  | none =>
    have panics : request.ownHandler jwt binding key now ⟨request.body, [], redis, users, false⟩ =
        .ok (⟨request.body, [], redis, users, true⟩, .panics) := by
      simp [ownHandler, login, withUser, bound]
    rw [Handler.run_of_panics panics]
    rfl
  | some found =>
    obtain ⟨user, err⟩ := found
    cases handled : loginUserHandler jwt key redis now err user (users user.username) request.id with
    | error text =>
      have exits : request.ownHandler jwt binding key now
          ⟨request.body, [], redis, users, false⟩ = .error text := by
        simp only [ownHandler, login, withUser, bound, handled]
        rfl
      simp only [handled, Handler.run_of_error exits]
      rfl
    | ok result =>
      have returns : request.ownHandler jwt binding key now
          ⟨request.body, [], redis, users, false⟩ =
            .ok (⟨request.body, result.2, result.1, users, true⟩, .returns) := by
        simp only [ownHandler, login, withUser, bound, handled]
        rfl
      simp only [handled, Handler.run_of_returns returns]
      rfl

/-- The route's own handler is called. -/
def HandlerRuns (jwt : Jwt Key) (binding : Binding) (key : Key) (now : Nat) (redis : Redis)
    (users : Users) : Prop :=
  ∃ ctx, request.serve jwt binding key now redis users = .ok ctx ∧ ctx.ran = true

theorem handlerRuns_iff (other : request.route ≠ .login) :
    request.HandlerRuns jwt binding key now redis users ↔
      (∃ accepted, request.validation jwt binding key now redis = .ok accepted) ∧
        ¬ request.Blocked := by
  rcases @serve_other Key jwt binding key now request redis users other with
    ⟨err, validated, served⟩ | ⟨accepted, ctx, validated, served, serves⟩
  · simp [HandlerRuns, validated, served]
  · simp [HandlerRuns, validated, served, serves.ran]

end HttpRequest

/-! ## The server of the tokens -/

/-- The request, as the server of the tokens sees it. A login that panics leaves everything as it
    is, like a request that the check lets pass. -/
def HttpRequest.toRequest (binding : Binding) (users : Users) (request : HttpRequest) : Request :=
  match request.route, binding.shouldBindJSON request.body with
  | .login, some (user, err) => .login err user (users user.username) request.id
  | _, _ => .other request.route.path (binding.decodeToken request.body)

/-- The part of the site that has to do with tokens. -/
def Site.server (s : Site Key) : Server Key := ⟨s.clock, s.process, s.redis⟩

/-- The effect of a request on Redis and on the process. -/
theorem HttpRequest.handle_toRequest (request : HttpRequest) (redis : Redis) (users : Users) :
    (handle jwt key redis now (request.toRequest binding users)).map Prod.fst =
      (request.serve jwt binding key now redis users).map Context.redis := by
  by_cases login : request.route = .login
  · rw [request.serve_login redis users login]
    cases bound : binding.shouldBindJSON request.body with
    | none =>
      have excluded : Route.login.path ∈ excludePath := (Route.path_mem_excludePath _).mpr rfl
      simp only [toRequest, login, bound, handle, checkLoginStatusHandler, if_pos excluded]
      rfl
    | some found =>
      obtain ⟨user, err⟩ := found
      simp only [toRequest, login, bound, handle]
      cases loginUserHandler jwt key redis now err user (users user.username) request.id <;> rfl
  · have seen : request.toRequest binding users =
        .other request.route.path (binding.decodeToken request.body) := by
      unfold toRequest
      split
      · rename_i isLogin _
        exact absurd isLogin login
      · rfl
    have included : request.route.path ∉ excludePath :=
      fun excluded => login ((Route.path_mem_excludePath _).mp excluded)
    rw [seen]
    rcases @serve_other Key jwt binding key now request redis users login with
      ⟨err, validated, served⟩ | ⟨accepted, ctx, validated, served, serves⟩
    · rw [validation] at validated
      simp only [handle, checkLoginStatusHandler_eq jwt key redis now included, validated, served]
      rfl
    · rw [validation] at validated
      simp only [handle, checkLoginStatusHandler_eq jwt key redis now included, validated, served]
      exact congrArg Except.ok serves.keeps.symm

/-- The steps of the site. -/
inductive SiteStep (jwt : Jwt Key) (binding : Binding) (s : Site Key) :
    SiteEvent Key → Site Key → Prop
  | served {now : Nat} {request : HttpRequest} {key : Key} {ctx : Context}
      (process : s.process = some key) (later : s.clock ≤ now)
      (served : request.serve jwt binding key now s.redis s.users = .ok ctx) :
      SiteStep jwt binding s (.request now request) ⟨now, some key, ctx.redis, ctx.users⟩
  | exited {now : Nat} {request : HttpRequest} {key : Key} {err : String}
      (process : s.process = some key) (later : s.clock ≤ now)
      (failed : request.serve jwt binding key now s.redis s.users = .error err) :
      SiteStep jwt binding s (.request now request) ⟨now, none, s.redis, s.users⟩
  | restarted {now : Nat} {key : Key} (later : s.clock ≤ now) :
      SiteStep jwt binding s (.restart now key) ⟨now, some key, s.redis, s.users⟩

theorem siteStep_of_step {s s' : Site Key} {e : SiteEvent Key}
    (next : s.step jwt binding e = some s') : SiteStep jwt binding s e s' := by
  cases e with
  | request now request =>
    obtain ⟨key, process, next⟩ := Option.bind_eq_some_iff.mp next
    obtain ⟨later, next⟩ := Option.ite_none_right_eq_some.mp next
    cases served : request.serve jwt binding key now s.redis s.users with
    | ok ctx =>
      rw [served] at next
      cases next
      exact .served process later served
    | error err =>
      rw [served] at next
      cases next
      exact .exited process later served
  | restart now key =>
    obtain ⟨later, moved⟩ := Option.ite_none_right_eq_some.mp next
    cases moved
    exact .restarted later

/-- The site without its table of users runs like the server of the tokens. -/
theorem server_reachable {s : Site Key}
    (reached : (site jwt binding key Redis.empty).Reachable s) :
    (server jwt key).Reachable s.server := by
  apply reached.project (f := Site.server)
  · rfl
  · intro s e s' _ next
    right
    cases siteStep_of_step next with
    | @served now request key ctx process later served =>
      refine ⟨.request now (request.toRequest binding s.users), ?_⟩
      have effect := @HttpRequest.handle_toRequest Key jwt binding key now request s.redis s.users
      rw [served] at effect
      cases handled : handle jwt key s.redis now (request.toRequest binding s.users) with
      | error text => simp [handled, Except.map] at effect
      | ok result =>
        have kept : result.1 = ctx.redis := by simpa [handled, Except.map] using effect
        simp [server, Server.step, Site.server, process, later, handled, kept]
    | @exited now request key err process later failed =>
      refine ⟨.request now (request.toRequest binding s.users), ?_⟩
      have effect := @HttpRequest.handle_toRequest Key jwt binding key now request s.redis s.users
      rw [failed] at effect
      cases handled : handle jwt key s.redis now (request.toRequest binding s.users) with
      | error text => simp [server, Server.step, Site.server, process, later, handled]
      | ok result => simp [handled, Except.map] at effect
    | @restarted now key later => exact ⟨.restart now key, if_pos later⟩

/-- For a request to a route other than that of the login: its own handler runs only with an
    accepted token, exactly if the token is accepted, or the process ends while it is parsed, or it
    is the basic authentication of `/admin` that keeps the handler from running. -/
theorem handlerRuns_accepted_iff (jwt : Jwt Key) (binding : Binding) (key : Key) (now : Nat)
    (redis : Redis) (users : Users) (request : HttpRequest) (other : request.route ≠ .login) :
    (request.HandlerRuns jwt binding key now redis users →
        validationUserToken jwt key redis now (binding.decodeToken request.body) = .ok true) ↔
      validationUserToken jwt key redis now (binding.decodeToken request.body) = .ok true ∨
        (∃ err, validationUserToken jwt key redis now (binding.decodeToken request.body) =
          .error err) ∨
        request.route = .dashboard ∧ ¬ request.Authorized := by
  rw [request.handlerRuns_iff redis users other, HttpRequest.validation]
  cases validationUserToken jwt key redis now (binding.decodeToken request.body) with
  | error err => simp
  | ok accepted =>
    cases accepted with
    | true => simp
    | false => simp [HttpRequest.Blocked]

/-! ## Bodies in the clear -/

/-- The fields of an object whose values are strings, cut at the quotation marks. -/
def readPairs : List String → Option (List (String × String))
  | [name, ":", value, "\x7d"] => some [(name, value)]
  | name :: ":" :: value :: "," :: rest => (readPairs rest).map ((name, value) :: ·)
  | _ => none

/-- The fields of an object. -/
def readBody (body : String) : Option (List (String × String)) :=
  match (body.toList.splitOn '"').map String.ofList with
  | "\x7b" :: rest => readPairs rest
  | _ => none

/-- A field of an object, empty if there is none. -/
def fieldOf (name : String) (pairs : List (String × String)) : String := (pairs.lookup name).getD ""

/-- `encoding/json` on such objects without blanks. -/
def plainBinding : Binding where
  decodeToken := fun body =>
    let pairs := (readBody body).getD []
    ⟨fieldOf "username" pairs, fieldOf "token" pairs⟩
  decodeUser := fun body =>
    if body = "" then some (⟨"", ""⟩, some "\x7b\x7d")
    else if body = "null" then none
    else
      match readBody body with
      | some pairs => some (⟨fieldOf "username" pairs, fieldOf "password" pairs⟩, none)
      | none => some (⟨"", ""⟩, some "\x7b\"Offset\":1\x7d")
  decodeUser_empty := rfl

/-- Redis after a login of `alice` at ten seconds. -/
def aliceRedis : Redis := Redis.empty.set "alice" "0.10.10.3610.alice.7" (24 * hour) (10 * second)

/-- `alice` presents the token of that login. -/
def aliceHello : HttpRequest :=
  ⟨.hello1, "\x7b\"username\":\"alice\",\"token\":\"0.10.10.3610.alice.7\"\x7d", none, "8"⟩

theorem handlerRuns_accepted_iff_alice :
    aliceHello.HandlerRuns plainJwt plainBinding 0 (3609 * second) aliceRedis Users.empty ∧
      validationUserToken plainJwt 0 aliceRedis (3609 * second)
        (plainBinding.decodeToken aliceHello.body) = .ok true := by
  have accepted : aliceHello.validation plainJwt plainBinding 0 (3609 * second) aliceRedis =
      .ok true := by decide +kernel
  have runs : aliceHello.HandlerRuns plainJwt plainBinding 0 (3609 * second) aliceRedis
      Users.empty := by
    refine (aliceHello.handlerRuns_iff aliceRedis Users.empty (by decide)).mpr
      ⟨⟨true, accepted⟩, ?_⟩
    rintro ⟨dashboard, -⟩
    cases dashboard
  exact ⟨runs, (handlerRuns_accepted_iff plainJwt plainBinding 0 _ aliceRedis Users.empty aliceHello
    (by decide)).mpr (.inl accepted) runs⟩

/-- A request to register without a token. -/
def strangerRegister : HttpRequest :=
  ⟨.register, "\x7b\"username\":\"mallory\",\"password\":\"secret\"\x7d", none, "9"⟩

/-- The check rejects the token, and the handler of the route runs all the same. -/
theorem strangerRegister_runs :
    validationUserToken plainJwt 0 Redis.empty second
        (plainBinding.decodeToken strangerRegister.body) = .ok false ∧
      strangerRegister.HandlerRuns plainJwt plainBinding 0 second Redis.empty Users.empty := by
  have rejected : strangerRegister.validation plainJwt plainBinding 0 second Redis.empty =
      .ok false := by decide +kernel
  refine ⟨rejected, (strangerRegister.handlerRuns_iff _ _ (by decide)).mpr ⟨⟨_, rejected⟩, ?_⟩⟩
  rintro ⟨dashboard, -⟩
  cases dashboard

end DistributedCloud.Gintest
