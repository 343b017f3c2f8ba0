import DistributedCloud.Gintest.Proofs.Routes

/-!
# Registering and logging in

The handler of `/user/register` runs behind the check of the login, which has read the body, so it
binds nothing. It answers that and goes on to store the user with the empty name and the empty
password. Nobody else is ever registered. The table is what the requests to register call for as
long as none of them is valid and none reaches the handler.
-/

namespace DistributedCloud.Gintest

variable {Key : Type} {jwt : Jwt Key} {binding : Binding}

/-! ## What requests do to the table -/

theorem HttpRequest.serve_users {key : Key} {now : Nat} {request : HttpRequest} {redis : Redis}
    {users : Users} {ctx : Context}
    (served : request.serve jwt binding key now redis users = .ok ctx) :
    ctx.users = request.usersAfter users := by
  by_cases login : request.route = .login
  · rw [request.serve_login redis users login] at served
    have same : request.usersAfter users = users := by simp [usersAfter, login]
    rw [same]
    cases bound : binding.shouldBindJSON request.body with
    | none =>
      rw [bound] at served
      cases served
      rfl
    | some found =>
      obtain ⟨user, err⟩ := found
      rw [bound] at served
      cases handled : loginUserHandler jwt key redis now err user (users user.username)
          request.id with
      | error text => simp [handled, Except.map] at served
      | ok result =>
        simp only [handled, Except.map, Except.ok.injEq] at served
        rw [← served]
  · rcases @serve_other Key jwt binding key now request redis users login with
      ⟨err, -, failed⟩ | ⟨accepted, ctx', -, served', serves⟩
    · rw [failed] at served
      cases served
    · obtain rfl : ctx' = ctx := Except.ok.inj (served'.symm.trans served)
      rw [serves.stores]
      split
      · rfl
      · rename_i kept
        -- the one route whose own handler may be kept from running is another one
        have blocked : request.Blocked := not_not.mp (mt serves.ran.mpr kept)
        simp [usersAfter, blocked.1]

/-- A request to register whose own handler runs. -/
def Visit.RegisterRuns (jwt : Jwt Key) (binding : Binding) (visit : Visit Key) : Prop :=
  match visit.event with
  | .request now request =>
    request.route = .register ∧ ∃ key ∈ visit.site.process, ∃ accepted,
      validationUserToken jwt key visit.site.redis now (binding.decodeToken request.body) =
        .ok accepted
  | .restart _ _ => False

/-- The table holds the empty user once the handler of a request to register has run. -/
structure Stocked (jwt : Jwt Key) (binding : Binding) (s : Site Key) (visits : List (Visit Key)) :
    Prop where
  stored : (∃ visit ∈ visits, visit.RegisterRuns jwt binding) →
    s.users = Users.empty.upsert ⟨"", ""⟩
  empty : (∀ visit ∈ visits, ¬ visit.RegisterRuns jwt binding) → s.users = Users.empty

namespace Stocked

variable {s s' : Site Key} {visits : List (Visit Key)} {e : SiteEvent Key}

theorem upsert_again (users : Users) (user : LoginUser) :
    (users.upsert user).upsert user = users.upsert user :=
  Function.update_idem _ _ _

/-- The handler of the request runs. -/
theorem runs (stocked : Stocked jwt binding s visits)
    (ran : (Visit.mk s e).RegisterRuns jwt binding)
    (users : s'.users = s.users.upsert ⟨"", ""⟩) :
    Stocked jwt binding s' (visits ++ [⟨s, e⟩]) where
  stored := by
    intro _
    rw [users]
    by_cases before : ∃ visit ∈ visits, visit.RegisterRuns jwt binding
    · rw [stocked.stored before, upsert_again]
    · rw [stocked.empty fun visit listed ran => before ⟨visit, listed, ran⟩]
  empty := fun none => absurd ran (none _ (List.mem_append_right _ (List.mem_singleton_self _)))

/-- Nothing is stored. -/
theorem same (stocked : Stocked jwt binding s visits)
    (away : ¬ (Visit.mk s e).RegisterRuns jwt binding) (users : s'.users = s.users) :
    Stocked jwt binding s' (visits ++ [⟨s, e⟩]) where
  stored := by
    rintro ⟨visit, listed, ran⟩
    rw [users]
    rcases List.mem_append.mp listed with before | last
    · exact stocked.stored ⟨visit, before, ran⟩
    · rw [List.mem_singleton.mp last] at ran
      exact absurd ran away
  empty := by
    intro none
    rw [users]
    exact stocked.empty fun visit listed => none visit (List.mem_append_left _ listed)

theorem step (stocked : Stocked jwt binding s visits) (next : SiteStep jwt binding s e s') :
    Stocked jwt binding s' (visits ++ [⟨s, e⟩]) := by
  cases next with
  | @served now request key ctx process later served =>
    have users := HttpRequest.serve_users served
    by_cases register : request.route = .register
    · have other : request.route ≠ .login := by simp [register]
      rcases @HttpRequest.serve_other Key jwt binding key now request s.redis s.users other with
        ⟨err, -, failed⟩ | ⟨accepted, -, validated, -⟩
      · rw [failed] at served
        cases served
      · refine stocked.runs ⟨register, key, process, accepted, validated⟩ (users.trans ?_)
        exact if_pos register
    · exact stocked.same (fun ran => register ran.1) (users.trans (if_neg register))
  | @exited now request key err process later failed =>
    refine stocked.same ?_ rfl
    rintro ⟨register, key', running, accepted, validated⟩
    obtain rfl : key = key' := Option.some.inj (process.symm.trans running)
    have other : request.route ≠ .login := by simp [register]
    rcases @HttpRequest.serve_other Key jwt binding key now request s.redis s.users other with
      ⟨err, rejected, -⟩ | ⟨-, ctx, -, served, -⟩
    · exact absurd (rejected.symm.trans validated) (by simp)
    · rw [failed] at served
      cases served
  | restarted later => exact stocked.same id rfl

theorem reachable {key : Key} {redis : Redis}
    (reached : (recordedSite jwt binding key redis).Reachable (s, visits)) :
    Stocked jwt binding s visits := by
  apply reached.invariant (I := fun s => Stocked jwt binding s.1 s.2)
  · refine ⟨?_, fun _ => rfl⟩
    rintro ⟨visit, listed, -⟩
    cases listed
  · rintro ⟨s, visits⟩ e ⟨s', visits'⟩ - stocked - next
    obtain ⟨stepped, recorded⟩ :
        s.step jwt binding e = some s' ∧ visits' = recordVisit s e s' visits :=
      Machine.withHistory_step.mp next
    subst recorded
    exact stocked.step (siteStep_of_step stepped)

end Stocked

/-! ## What the requests call for -/

theorem registered_concat (visits : List (Visit Key)) (visit : Visit Key) :
    registered binding (visits ++ [visit]) =
      match visit.event.registered? binding with
      | some user => (registered binding visits).upsert user
      | none => registered binding visits := by
  rw [registered, List.foldl_append]
  rfl

/-- A valid user has a name. -/
theorem SiteEvent.username_ne_empty {e : SiteEvent Key} {user : LoginUser}
    (valid : e.registered? binding = some user) : user.username ≠ "" := by
  cases e with
  | restart now key => cases valid
  | request now http =>
    simp only [registered?] at valid
    split at valid
    · rename_i bound
      cases valid
      exact Binding.username_ne_empty bound
    · cases valid

theorem registered_emptyName (visits : List (Visit Key)) : registered binding visits "" = none := by
  induction visits using List.reverseRecOn with
  | nil => rfl
  | append_singleton visits visit ih =>
    rw [registered_concat]
    cases valid : visit.event.registered? binding with
    | none => exact ih
    | some user =>
      have named := SiteEvent.username_ne_empty valid
      exact (Function.update_of_ne named.symm _ _).trans ih

/-- Who has registered stays in the table. -/
theorem registered_eq_empty_iff (visits : List (Visit Key)) :
    registered binding visits = Users.empty ↔
      ∀ visit ∈ visits, visit.event.registered? binding = none := by
  induction visits using List.reverseRecOn with
  | nil => simp [registered]
  | append_singleton visits visit ih =>
    rw [registered_concat]
    cases valid : visit.event.registered? binding with
    | none =>
      have grown : (∀ other ∈ visits ++ [visit], other.event.registered? binding = none) ↔
          ∀ other ∈ visits, other.event.registered? binding = none := by
        simp [or_imp, forall_and, valid]
      exact ih.trans grown.symm
    | some user =>
      refine iff_of_false ?_ ?_
      · intro same
        have here := congrFun same user.username
        simp [Users.upsert, Users.empty] at here
      · intro none
        have last := none visit (List.mem_append_right _ (List.mem_singleton_self _))
        rw [valid] at last
        cases last

/-! ## Logging in -/

/-- The request is answered with a token. -/
def HttpRequest.LogsIn (jwt : Jwt Key) (binding : Binding) (key : Key) (now : Nat) (redis : Redis)
    (users : Users) (request : HttpRequest) : Prop :=
  ∃ ctx token, request.serve jwt binding key now redis users = .ok ctx ∧
    successResp [("message", "success login & generator token!"), ("token", token)] ∈ ctx.responses

theorem queryUserInfo_iff (user : LoginUser) (found : Option String) :
    queryUserInfo user found = true ↔ found = some user.password ∧ user.password ≠ "" := by
  unfold queryUserInfo
  cases found with
  | none => simp
  | some password =>
    by_cases empty : password = ""
    · simp only [empty, if_true, Bool.false_eq_true, Option.some.injEq, false_iff]
      rintro ⟨same, nonempty⟩
      exact nonempty same.symm
    · by_cases same : password = user.password
      · subst same
        simp [empty]
      · simp [empty, same]

/-- A login goes by what was bound, whether or not it is valid, and needs a password. -/
theorem HttpRequest.logsIn_iff {key : Key} {now : Nat} {redis : Redis} {users : Users}
    {request : HttpRequest} (login : request.route = .login) {user : LoginUser}
    {err : Option String} (bound : binding.shouldBindJSON request.body = some (user, err)) :
    request.LogsIn jwt binding key now redis users ↔
      users user.username = some user.password ∧ user.password ≠ "" := by
  have refused : ∀ token, successResp [("message", "success login & generator token!"),
      ("token", token)] ∉ getUserFromContext err := by
    intro token listed
    cases err with
    | none => cases listed
    | some text => simp [getUserFromContext, successResp] at listed
  rw [LogsIn, request.serve_login redis users login, bound, ← queryUserInfo_iff]
  cases found : queryUserInfo user (users user.username) with
  | false =>
    refine iff_of_false ?_ (by simp)
    rintro ⟨ctx, token, served, listed⟩
    simp only [loginUserHandler, found, Bool.not_false, if_true, Except.map,
      Except.ok.injEq] at served
    subst served
    rcases List.mem_append.mp listed with early | last
    · exact refused token early
    · simp [successResp, serverErrorResp] at last
  | true =>
    refine iff_of_true ?_ rfl
    simp only [loginUserHandler, found, Bool.not_true, Bool.false_eq_true, if_false, generateJWT_eq]
    exact ⟨_, _, rfl, List.mem_append_right _ (List.mem_singleton_self _)⟩

/-! ## The law -/

/-- The table is what the requests to register call for, and it decides who can log in. -/
structure StoreLaw (jwt : Jwt Key) (binding : Binding) (s : Site Key) (visits : List (Visit Key)) :
    Prop where
  users : s.users = registered binding visits
  logins : ∀ (key : Key) now (request : HttpRequest) user err, request.route = .login →
    binding.shouldBindJSON request.body = some (user, err) →
    (request.LogsIn jwt binding key now s.redis s.users ↔
      s.users user.username = some user.password)

/-- In a run of the site the law holds exactly if no request to register has been valid, and none
    has reached its handler. -/
theorem storeLaw_iff {key : Key} {redis : Redis} {s : Site Key} {visits : List (Visit Key)}
    (reached : (recordedSite jwt binding key redis).Reachable (s, visits)) :
    StoreLaw jwt binding s visits ↔
      ∀ visit ∈ visits, visit.event.registered? binding = none ∧
        ¬ visit.RegisterRuns jwt binding := by
  have stocked := Stocked.reachable reached
  constructor
  · intro law
    have quiet : ∀ visit ∈ visits, ¬ visit.RegisterRuns jwt binding := by
      intro visit listed ran
      have here := congrFun law.users ""
      rw [stocked.stored ⟨visit, listed, ran⟩, registered_emptyName] at here
      simp [Users.upsert] at here
    have empty := (registered_eq_empty_iff visits).mp (law.users.symm.trans (stocked.empty quiet))
    exact fun visit listed => ⟨empty visit listed, quiet visit listed⟩
  · intro quiet
    have users := stocked.empty fun visit listed => (quiet visit listed).2
    refine ⟨?_, ?_⟩
    · rw [users]
      exact ((registered_eq_empty_iff visits).mpr fun visit listed => (quiet visit listed).1).symm
    · intro key now request user err login bound
      rw [HttpRequest.logsIn_iff login bound, users]
      simp [Users.empty]

/-- A request to register without a password, and with the token of a login an hour ago, which has
    expired but is still in Redis. -/
def staleRegister : SiteEvent Nat :=
  .request (3610 * second) { aliceHello with route := .register }

/-- The site after it. -/
def staleVisited : Site Nat × List (Visit Nat) :=
  (recordedSite plainJwt plainBinding 0 aliceRedis).after [staleRegister]

theorem storeLaw_iff_stale : StoreLaw plainJwt plainBinding staleVisited.1 staleVisited.2 := by
  have reached : (recordedSite plainJwt plainBinding 0 aliceRedis).Reachable staleVisited :=
    Machine.reachable_after _
  have visits : staleVisited.2 = [⟨⟨0, some 0, aliceRedis, Users.empty⟩, staleRegister⟩] := by rfl
  refine (@storeLaw_iff Nat plainJwt plainBinding 0 aliceRedis staleVisited.1 staleVisited.2
    reached).mpr ?_
  rw [visits]
  intro visit listed
  obtain rfl := List.mem_singleton.mp listed
  refine ⟨by decide +kernel, ?_⟩
  rintro ⟨-, key, ⟨⟩, accepted, validated⟩
  have ended : validationUserToken plainJwt 0 aliceRedis (3610 * second)
      (plainBinding.decodeToken aliceHello.body) = .error "error:  token is expired" := by
    decide +kernel
  exact absurd (ended.symm.trans validated) (by simp)

/-- `mallory` registers. -/
def malloryVisited : Site Nat × List (Visit Nat) :=
  (recordedSite plainJwt plainBinding 0 Redis.empty).after [.request second strangerRegister]

/-- The table has the empty user, and not `mallory`. -/
theorem malloryVisited_lost :
    (recordedSite plainJwt plainBinding 0 Redis.empty).Reachable malloryVisited ∧
      registered plainBinding malloryVisited.2 "mallory" = some "secret" ∧
      malloryVisited.1.users "mallory" = none ∧ malloryVisited.1.users "" = some "" :=
  ⟨Machine.reachable_after _, by decide +kernel, by decide +kernel, by decide +kernel⟩

end DistributedCloud.Gintest
