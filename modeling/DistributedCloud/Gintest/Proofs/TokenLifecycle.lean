import DistributedCloud.Gintest.Server
import DistributedCloud.Misc.Decimal

/-!
# The life of a token

Redis holds, for each user, the token of the most recent successful login. Such a token is
accepted for an hour. Redis keeps it for 24 hours, and parsing an expired token ends the process,
so the result is about runs in which no such token is presented.
-/

namespace DistributedCloud.Gintest

variable {Key : Type} {jwt : Jwt Key}

/-! ## What a token is good for -/

/-- The token is the one of the most recent successful login of the user, less than an hour ago. -/
def Current (logins : List (Login Key)) (token : Token) (now : Nat) : Prop :=
  ∃ login ∈ latest logins token.username, login.token = token.token ∧ now < login.time + hour

instance (logins : List (Login Key)) (token : Token) (now : Nat) :
    Decidable (Current logins token now) :=
  inferInstanceAs (Decidable (∃ login ∈ latest logins token.username,
    login.token = token.token ∧ now < login.time + hour))

/-- If a request presents the token of the most recent successful login of its user while Redis
    has it, then the token has not expired, and the process is the one that issued it. -/
def NotStale (s : Server Key × List (Login Key)) : Event Key → Prop
  | .request now (.other path token) =>
    path ∉ excludePath → ∀ login ∈ latest s.2 token.username, login.token = token.token →
      now < login.time + 24 * hour →
      s.1.process = some login.key ∧ now < newNumericDate (login.time + hour) * second
  | _ => True

instance [DecidableEq Key] (s : Server Key × List (Login Key)) : DecidablePred (NotStale s)
  | .request now (.other path token) =>
    inferInstanceAs (Decidable (path ∉ excludePath → ∀ login ∈ latest s.2 token.username,
      login.token = token.token → now < login.time + 24 * hour →
      s.1.process = some login.key ∧ now < newNumericDate (login.time + hour) * second))
  | .request _ (.login _ _ _ _) => isTrue trivial
  | .restart _ _ => isTrue trivial

/-! ## Tokens and Redis -/

@[simp] theorem generateJWT_eq (key : Key) (user : LoginUser) (now : Nat) (id : String) :
    generateJWT jwt key user now id = .ok (jwt.signedString key (claimsFor user now id)) := by
  simp [generateJWT, jwt.signed_ne_empty]

theorem newNumericDate_le (t : Nat) : newNumericDate t * second ≤ t :=
  Nat.div_mul_le_self t second

theorem parseTokenCheckExpired_unexpired {key : Key} {user : LoginUser} {time now : Nat}
    {id : String} (later : time ≤ now) (unexpired : now < newNumericDate (time + hour) * second) :
    parseTokenCheckExpired jwt key now (jwt.signedString key (claimsFor user time id)) =
      .ok false := by
  have issued : newNumericDate time * second ≤ now := (newNumericDate_le time).trans later
  have parsed : jwt.parseWithClaims key now (jwt.signedString key (claimsFor user time id)) =
      .ok ⟨true⟩ := by
    apply jwt.parse_unexpired
    · exact issued
    · exact issued
    · simpa [claimsFor] using unexpired
  rw [parseTokenCheckExpired, if_neg (jwt.signed_ne_empty _ _), parsed]
  rfl

/-! ## What a step does -/

/-- The outcomes of an event. -/
inductive ServerStep (jwt : Jwt Key) (s : Server Key) : Event Key → Server Key → Prop
  | loggedIn {now : Nat} {bindErr : Option String} {user : LoginUser} {found : Option String}
      {id : String} {key : Key} (process : s.process = some key) (later : s.clock ≤ now)
      (known : queryUserInfo user found = true) :
      ServerStep jwt s (.request now (.login bindErr user found id))
        { clock := now, process := some key,
          redis := s.redis.set user.username (jwt.signedString key (claimsFor user now id))
            (24 * hour) now }
  | turnedAway {now : Nat} {bindErr : Option String} {user : LoginUser} {found : Option String}
      {id : String} {key : Key} (process : s.process = some key) (later : s.clock ≤ now)
      (unknown : queryUserInfo user found = false) :
      ServerStep jwt s (.request now (.login bindErr user found id)) { s with clock := now }
  | checked {now : Nat} {path : String} {token : Token} {key : Key}
      (process : s.process = some key) (later : s.clock ≤ now) :
      ServerStep jwt s (.request now (.other path token)) { s with clock := now }
  | exited {now : Nat} {path : String} {token : Token} {key : Key} {text : String}
      (process : s.process = some key) (later : s.clock ≤ now) (included : path ∉ excludePath)
      (fatal : validationUserToken jwt key s.redis now token = .error text) :
      ServerStep jwt s (.request now (.other path token)) { s with clock := now, process := none }
  | restarted {now : Nat} {key : Key} (later : s.clock ≤ now) :
      ServerStep jwt s (.restart now key) { s with clock := now, process := some key }

/-- What the check answers to a token that it rejects or accepts. -/
def verdict (valid : Bool) : List Response :=
  if valid then [successResp [("message", "success login check by redis!")]]
  else [successResp [("statusCode", "200"), ("msg", "token have been invalidated, try to login!")]]

theorem checkLoginStatusHandler_eq (jwt : Jwt Key) (key : Key) (rdb : Redis) (now : Nat)
    {path : String} (included : path ∉ excludePath) (token : Token) :
    checkLoginStatusHandler jwt key rdb now path token =
      (validationUserToken jwt key rdb now token).map verdict := by
  rw [checkLoginStatusHandler, if_neg included]
  cases validationUserToken jwt key rdb now token with
  | error text => rfl
  | ok valid => cases valid <;> rfl

theorem checkLoginStatusHandler_cases (jwt : Jwt Key) (key : Key) (rdb : Redis) (now : Nat)
    (path : String) (token : Token) :
    (∃ responses, checkLoginStatusHandler jwt key rdb now path token = .ok responses) ∨
      path ∉ excludePath ∧ ∃ text, validationUserToken jwt key rdb now token = .error text ∧
        checkLoginStatusHandler jwt key rdb now path token = .error text := by
  by_cases excluded : path ∈ excludePath
  · exact .inl ⟨[], if_pos excluded⟩
  · rw [checkLoginStatusHandler_eq jwt key rdb now excluded]
    cases validationUserToken jwt key rdb now token with
    | error text => exact .inr ⟨excluded, text, rfl, rfl⟩
    | ok valid => exact .inl ⟨verdict valid, rfl⟩

theorem serverStep_of_step {s s' : Server Key} {e : Event Key} (next : s.step jwt e = some s') :
    ServerStep jwt s e s' := by
  cases e with
  | restart now key =>
    simp only [Server.step, Option.ite_none_right_eq_some, Option.some.injEq] at next
    obtain ⟨later, rfl⟩ := next
    exact .restarted later
  | request now request =>
    simp only [Server.step, Option.bind_eq_bind, Option.bind_eq_some_iff,
      Option.ite_none_right_eq_some] at next
    obtain ⟨key, process, later, next⟩ := next
    cases request with
    | login bindErr user found id =>
      simp only [handle, loginUserHandler, generateJWT_eq] at next
      cases known : queryUserInfo user found with
      | true =>
        simp only [known, Bool.not_true, Bool.false_eq_true, if_false] at next
        cases next
        exact .loggedIn process later known
      | false =>
        simp only [known, Bool.not_false, if_true, Option.some.injEq] at next
        subst next
        rw [← process]
        exact .turnedAway process later known
    | other path token =>
      obtain ⟨responses, answered⟩ | ⟨included, text, fatal, ended⟩ :=
        checkLoginStatusHandler_cases jwt key s.redis now path token
      · simp only [handle, answered] at next
        cases next
        rw [← process]
        exact .checked process later
      · simp only [handle, ended] at next
        cases next
        exact .exited process later included fatal

/-! ## The invariant -/

/-- Redis has the tokens of the most recent logins, and they were signed with the key pair of
    their time. -/
structure Stored (jwt : Jwt Key) (s : Server Key) (logins : List (Login Key)) : Prop where
  kept : ∀ username, s.redis.entries username =
    (latest logins username).map fun login => ⟨login.token, login.time + 24 * hour⟩
  past : ∀ login ∈ logins, login.time ≤ s.clock
  signed : ∀ login ∈ logins, ∃ user id,
    login.token = jwt.signedString login.key (claimsFor user login.time id)

theorem stored_init (key : Key) : Stored jwt (server jwt key).init [] where
  kept := fun _ => rfl
  past := by simp
  signed := by simp

namespace Stored

variable {s : Server Key} {logins : List (Login Key)}

/-- Time passes, or the process exits or is started again. -/
theorem wait (stored : Stored jwt s logins) {now : Nat} (later : s.clock ≤ now)
    (process : Option Key) : Stored jwt { s with clock := now, process := process } logins where
  kept := stored.kept
  past := fun login listed => (stored.past login listed).trans later
  signed := stored.signed

theorem login (stored : Stored jwt s logins) {now : Nat} (later : s.clock ≤ now) (key : Key)
    (user : LoginUser) (id : String) :
    Stored jwt { clock := now, process := some key,
                 redis := s.redis.set user.username (jwt.signedString key (claimsFor user now id))
                   (24 * hour) now }
      (⟨user.username, jwt.signedString key (claimsFor user now id), now, key⟩ :: logins) where
  kept := by
    intro username
    by_cases own : user.username = username
    · subst own
      simp [Redis.set, latest]
    · have other : username ≠ user.username := Ne.symm own
      simp [Redis.set, latest, own, other, stored.kept]
  past := by
    intro login listed
    obtain rfl | listed := List.mem_cons.mp listed
    · exact le_rfl
    · exact (stored.past login listed).trans later
  signed := by
    intro login listed
    obtain rfl | listed := List.mem_cons.mp listed
    · exact ⟨user, id, rfl⟩
    · exact stored.signed login listed

/-- What is read under a user's name. -/
theorem get_eq (stored : Stored jwt s logins) (username : String) (now : Nat) :
    s.redis.get username now = "" ∨ ∃ login ∈ latest logins username,
      s.redis.get username now = login.token ∧ now < login.time + 24 * hour := by
  rw [Redis.get, stored.kept]
  cases recent : latest logins username with
  | none => exact .inl rfl
  | some login =>
    by_cases alive : now < login.time + 24 * hour
    · exact .inr ⟨login, rfl, if_pos alive, alive⟩
    · exact .inl (if_neg alive)

end Stored

theorem mem_of_latest {logins : List (Login Key)} {username : String} {login : Login Key}
    (recent : login ∈ latest logins username) : login ∈ logins :=
  List.mem_of_find?_eq_some recent

theorem Current.get_eq {s : Server Key} {logins : List (Login Key)} {token : Token} {now : Nat}
    (stored : Stored jwt s logins) (current : Current logins token now) :
    s.redis.get token.username now = token.token := by
  obtain ⟨login, recent, same, young⟩ := current
  have alive : now < login.time + 24 * hour := by omega
  rw [Redis.get, stored.kept, recent]
  simp [alive, same]

/-- A request that does not present a stale token gets the answer that its token deserves. -/
theorem Stored.validation {s : Server Key} {logins : List (Login Key)}
    (stored : Stored jwt s logins) {key : Key} (process : s.process = some key) {now : Nat}
    (later : s.clock ≤ now) {path : String} (included : path ∉ excludePath) {token : Token}
    (fresh : NotStale (s, logins) (.request now (.other path token))) :
    validationUserToken jwt key s.redis now token = .ok (decide (Current logins token now)) := by
  by_cases equal : token.token = s.redis.get token.username now
  · obtain absent | ⟨login, recent, read, alive⟩ := stored.get_eq token.username now
    · -- The request has no token, and no login issued an empty one.
      have empty : token.token = "" := equal.trans absent
      have old : ¬ Current logins token now := by
        rintro ⟨login, recent, same, -⟩
        obtain ⟨user, id, signed⟩ := stored.signed login (mem_of_latest recent)
        exact jwt.signed_ne_empty _ _ (signed.symm.trans (same.trans empty))
      simp [validationUserToken, empty, old]
    · -- The token is the latest one and Redis still has it, so it has not expired.
      have same : login.token = token.token := (equal.trans read).symm
      obtain ⟨issuer, unexpired⟩ := fresh included login recent same alive
      obtain rfl : key = login.key := Option.some.inj (process.symm.trans issuer)
      obtain ⟨user, id, signed⟩ := stored.signed login (mem_of_latest recent)
      have current : Current logins token now :=
        ⟨login, recent, same, unexpired.trans_le (newNumericDate_le _)⟩
      have parsed : parseTokenCheckExpired jwt login.key now token.token = .ok false := by
        rw [← same, signed]
        have issued : login.time ≤ now := (stored.past login (mem_of_latest recent)).trans later
        exact parseTokenCheckExpired_unexpired issued unexpired
      have nonempty : token.token ≠ "" := by
        rw [← same, signed]
        exact jwt.signed_ne_empty _ _
      simp only [validationUserToken, if_pos nonempty, equalToken, ← equal, beq_self_eq_true,
        if_true, parsed, decide_eq_true current]
      rfl
  · have old : ¬ Current logins token now := fun current => equal (current.get_eq stored).symm
    have differs : equalToken token.token (s.redis.get token.username now) = false :=
      beq_false_of_ne equal
    simp [validationUserToken, differs, old]

/-! ## Runs -/

theorem stored_step {s s' : Server Key} {e : Event Key} {logins : List (Login Key)}
    (next : ServerStep jwt s e s') (stored : Stored jwt s logins) :
    Stored jwt s' (recordLogins jwt s e s' logins) := by
  cases next with
  | @loggedIn now bindErr user found id key process later known =>
    simp only [recordLogins, process, Request.login?, known, generateJWT_eq]
    exact stored.login later key user id
  | @turnedAway now bindErr user found id key process later unknown =>
    simp only [recordLogins, process, Request.login?, unknown]
    exact stored.wait later (some key)
  | @checked now path token key process later =>
    simp only [recordLogins, process, Request.login?]
    exact stored.wait later (some key)
  | @exited now path token key text process later included fatal =>
    simp only [recordLogins, process, Request.login?]
    exact stored.wait later none
  | @restarted now key later =>
    simp only [recordLogins]
    exact stored.wait later (some key)

/-- The process does not exit in a step that presents no stale token. -/
theorem running_step {s s' : Server Key} {e : Event Key} {logins : List (Login Key)}
    (next : ServerStep jwt s e s') (stored : Stored jwt s logins) (fresh : NotStale (s, logins) e) :
    s'.process.isSome := by
  cases next with
  | loggedIn process later known => rfl
  | turnedAway process later unknown => simp [process]
  | checked process later => simp [process]
  | exited process later included fatal =>
    rw [stored.validation process later included fresh] at fatal
    cases fatal
  | restarted later => rfl

theorem stored_running_reachable {key : Key} {s : Server Key} {logins : List (Login Key)}
    (reached : (recordedServer jwt key).ReachableWhen NotStale (s, logins)) :
    Stored jwt s logins ∧ s.process.isSome := by
  apply reached.invariant (I := fun s => Stored jwt s.1 s.2 ∧ s.1.process.isSome)
  · exact ⟨stored_init key, rfl⟩
  · rintro ⟨s, logins⟩ e ⟨s', logins'⟩ - ⟨stored, -⟩ fresh next
    obtain ⟨next, recorded⟩ := Machine.withHistory_step.mp next
    have outcome : ServerStep jwt s e s' := serverStep_of_step next
    have recorded : logins' = recordLogins jwt s e s' logins := recorded
    subst recorded
    exact ⟨stored_step outcome stored, running_step outcome stored fresh⟩

/-- In every run in which no stale token is presented, of any logins and requests at any times and
    restarts of the server, the process keeps running, and `validationUserToken` answers the next
    such request, whatever it presents: `true` if the token is the one issued by the most recent
    successful login of the username, less than an hour before, and `false` in every other case. -/
theorem tokenLifecycle {key : Key} {s : Server Key} {logins : List (Login Key)}
    (reached : (recordedServer jwt key).ReachableWhen NotStale (s, logins)) :
    ∃ key', s.process = some key' ∧
      ∀ now path token, s.clock ≤ now → path ∉ excludePath →
        NotStale (s, logins) (.request now (.other path token)) →
        validationUserToken jwt key' s.redis now token =
          .ok (decide (Current logins token now)) := by
  obtain ⟨stored, running⟩ := stored_running_reachable reached
  obtain ⟨key', process⟩ := Option.isSome_iff_exists.mp running
  refine ⟨key', process, ?_⟩
  intro now path token later included fresh
  exact stored.validation process later included fresh

/-! ## A concrete token format -/

/-- A number that is followed by a dot. -/
def readField (text : List Char) : Option (Nat × List Char) :=
  match Decimal.read text with
  | some (n, '.' :: rest) => some (n, rest)
  | _ => none

theorem readField_digits (n : Nat) (rest : List Char) :
    readField (Decimal.digits n ++ '.' :: rest) = some (n, rest) := by
  have stops : Decimal.Stops ('.' :: rest) := by
    intro c first
    obtain rfl : '.' = c := by simpa using first
    rfl
  simp [readField, Decimal.read_digits stops]

/-- Tokens in the clear that start with the number of the key pair and the three dates. -/
def plainSign (key : Nat) (claims : MyClaim) : String :=
  String.ofList (Decimal.digits key ++ '.' :: (Decimal.digits claims.issuedAt ++ '.' ::
    (Decimal.digits claims.notBefore ++ '.' :: (Decimal.digits claims.expiresAt ++ '.' ::
      (claims.username ++ "." ++ claims.id).toList))))

/-- The checks of `ParseWithClaims`: the signature first, then the dates. -/
def plainParse (key now : Nat) (token : String) : Except String ParsedToken :=
  let fields := do
    let (signer, rest) ← readField token.toList
    let (issuedAt, rest) ← readField rest
    let (notBefore, rest) ← readField rest
    let (expiresAt, _) ← readField rest
    return (signer, issuedAt, notBefore, expiresAt)
  match fields with
  | none => .error "token contains an invalid number of segments"
  | some (signer, issuedAt, notBefore, expiresAt) =>
    if signer ≠ key then .error "crypto/rsa: verification error"
    else if expiresAt * second ≤ now then .error "token is expired"
    else if now < issuedAt * second then .error "token used before issued"
    else if now < notBefore * second then .error "token is not valid yet"
    else .ok ⟨true⟩

theorem plainParse_sign (key now : Nat) (claims : MyClaim) :
    plainParse key now (plainSign key claims) =
      if claims.expiresAt * second ≤ now then .error "token is expired"
      else if now < claims.issuedAt * second then .error "token used before issued"
      else if now < claims.notBefore * second then .error "token is not valid yet"
      else .ok ⟨true⟩ := by
  simp [plainParse, plainSign, readField_digits]

/-- Tokens that have their fields in the open. -/
def plainJwt : Jwt Nat where
  signedString := plainSign
  parseWithClaims := plainParse
  signed_ne_empty := by
    intro key claims
    simp [plainSign]
  parse_unexpired := by
    intro key claims now issued begun unexpired
    rw [plainParse_sign, if_neg (Nat.not_le.mpr unexpired), if_neg (Nat.not_lt.mpr issued),
      if_neg (Nat.not_lt.mpr begun)]
  parse_expired := by
    intro key claims now expired
    exact ⟨_, by rw [plainParse_sign, if_pos expired]⟩

/-! ## One login -/

/-- A user. -/
def alice : LoginUser := ⟨"alice", "secret"⟩

/-- `alice` logs in ten seconds after the server was started. -/
def aliceLogin : Event Nat :=
  .request (10 * second) (.login none alice (some "secret") "7")

/-- The token of that login. -/
def aliceToken : Token := ⟨"alice", "0.10.10.3610.alice.7"⟩

/-- After the login and a request with its token half an hour later. -/
def aliceServed : Server Nat × List (Login Nat) :=
  ((recordedServer plainJwt 0).guarded NotStale).after
    [aliceLogin, .request (1810 * second) (.other "/hello1" aliceToken)]

theorem tokenLifecycle_accepted :
    validationUserToken plainJwt 0 aliceServed.1.redis (3609 * second) aliceToken = .ok true := by
  have reached : (recordedServer plainJwt 0).ReachableWhen NotStale aliceServed :=
    Machine.reachableWhen_of_guarded (Machine.reachable_after _)
  obtain ⟨key, process, answers⟩ :=
    @tokenLifecycle Nat plainJwt 0 aliceServed.1 aliceServed.2 reached
  have running : aliceServed.1.process = some 0 := by decide
  obtain rfl : key = 0 := Option.some.inj (process.symm.trans running)
  have answer := answers (3609 * second) "/hello1" aliceToken (by decide) (by decide) (by decide)
  have current : Current aliceServed.2 aliceToken (3609 * second) := by decide
  rw [answer, decide_eq_true current]

/-- The token that is presented an hour after the login is still the one in Redis. The answer
    should be `false`; parsing the token ends the process. -/
theorem expiredToken_exits :
    ∃ s logins, (recordedServer plainJwt 0).Reachable (s, logins) ∧
      s.process = some 0 ∧ ¬ Current logins aliceToken (3610 * second) ∧
      validationUserToken plainJwt 0 s.redis (3610 * second) aliceToken =
        .error "error:  token is expired" ∧
      ∃ s', s.step plainJwt (.request (3610 * second) (.other "/hello1" aliceToken)) = some s' ∧
        s'.process = none := by
  refine ⟨_, _, Machine.reachable_after [aliceLogin], ?_, ?_, ?_, ?_⟩
  · decide
  · decide
  · decide
  · exact ⟨_, rfl, by decide⟩

end DistributedCloud.Gintest
