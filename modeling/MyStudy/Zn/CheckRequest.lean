import MyStudy.Zn.Misc

/-!
# The migration request

`zn_connection::check_request` takes a request apart with `get_word` and checks the three words. It
accepts exactly the requests of three words with one blank between each two, as long as the
configured limits of their lengths fit into an `unsigned int`.
-/
namespace Zn

abbrev blank : UInt8 := ' '.toUInt8

/-- `RC_FORMAT_ERR` of `zn_result_code`. -/
abbrev rcFormatErr : Nat := 401

/-- `isalnum` of the C locale. -/
def isalnum (c : UInt8) : Bool := isDigit c || (65 ≤ c && c ≤ 90) || (97 ≤ c && c ≤ 122)

/-- `get_word`: the word at `pos` and the position after it and its blank. `assign` throws if `pos`
is past the end of the line. -/
def getWord (line : Bytes) (pos : Nat) : Option (Bytes × Nat) :=
  if line.length < pos then none
  else
    let word := (line.drop pos).takeWhile (· ≠ blank)
    let stop := pos + word.length
    some (word, if (line)[stop]? = some blank then stop + 1 else stop)

/-- The `long` of the configuration as the `unsigned int` it is assigned to. -/
def unsignedInt (value : Int) : Nat := (value % 2 ^ 32).toNat

/-- What `get_long` gives for the three length limits of a request. -/
structure RequestConfig where
  requestLoginIdMax : Int
  requestNodeIdMax : Int
  requestEasHostMax : Int

/-- The members of a `zn_connection` that `check_request` fills. -/
structure Members where
  loginId : Bytes
  nodeId : Bytes
  easHost : Bytes
deriving DecidableEq, Repr

/-- The two checks each word has to pass. -/
def wordAccepted (max : Nat) (allowed : UInt8 → Bool) (word : Bytes) : Bool :=
  word ≠ [] && word.length ≤ max && word.all allowed

/-- What a host name may hold. -/
def isHostChar (c : UInt8) : Bool := isalnum c || c = '.'.toUInt8 || c = '-'.toUInt8

/-- `check_request`: the return value and the members, `none` if an exception leaves it. -/
def checkRequest (config : RequestConfig) (request : Bytes) (members : Members) :
    Option (Nat × Members) :=
  if request = [] then some (rcFormatErr, members)
  else do
    let (loginId, pos) ← getWord request 0
    let members := { members with loginId := loginId }
    if !wordAccepted (unsignedInt config.requestLoginIdMax) isalnum loginId then
      some (rcFormatErr, members)
    else do
      let (nodeId, pos) ← getWord request pos
      let members := { members with nodeId := nodeId }
      if !wordAccepted (unsignedInt config.requestNodeIdMax) isalnum nodeId then
        some (rcFormatErr, members)
      else do
        let (easHost, pos) ← getWord request pos
        let members := { members with easHost := easHost }
        -- `at` throws out of range, and below 0 the position wraps to a huge one
        let last ← if pos = 0 then none else request[pos - 1]?
        if last = blank then some (rcFormatErr, members)
        else if !wordAccepted (unsignedInt config.requestEasHostMax) isHostChar easHost then
          some (rcFormatErr, members)
        else some (0, members)

/-! ### The words -/

theorem getWord_blank (front word rest : Bytes) (clean : blank ∉ word) :
    getWord (front ++ (word ++ blank :: rest)) front.length =
      some (word, front.length + word.length + 1) := by
  have apart : ∀ c ∈ word, decide (c ≠ blank) = true := by
    simpa using fun c member => ne_of_mem_of_not_mem member clean
  have scanned : (word ++ blank :: rest).takeWhile (· ≠ blank) = word := by
    rw [List.takeWhile_append_of_pos apart, List.takeWhile_cons_of_neg (by simp), List.append_nil]
  rw [getWord, if_neg (by simp), List.drop_left, scanned]
  simp

theorem getWord_end (front word : Bytes) (clean : blank ∉ word) :
    getWord (front ++ word) front.length = some (word, front.length + word.length) := by
  have scanned : word.takeWhile (· ≠ blank) = word := by
    rw [List.takeWhile_eq_self_iff]
    simpa using fun c member => ne_of_mem_of_not_mem member clean
  rw [getWord, if_neg (by simp), List.drop_left, scanned]
  simp

/-- What `get_word` does at a position inside the line: it skips the blank behind the word, or it
stops at the end of the line. -/
theorem getWord_spec (line : Bytes) (pos : Nat) (inside : pos ≤ line.length) :
    ∃ word next, getWord line pos = some (word, next) ∧ pos + word.length ≤ next ∧
      next ≤ line.length ∧
      (line.drop pos = word ++ blank :: line.drop next ∧ next = pos + word.length + 1 ∨
        line.drop pos = word ∧ next = line.length) := by
  obtain ⟨front, back, rfl, rfl⟩ : ∃ front back, line = front ++ back ∧ pos = front.length :=
    ⟨line.take pos, line.drop pos, by simp, by simp [inside]⟩
  rw [List.drop_left]
  by_cases more : blank ∈ back
  · obtain ⟨word, rest, rfl, clean⟩ := List.eq_append_cons_of_mem more
    have behind : (front ++ (word ++ blank :: rest)).drop
        (front.length + word.length + 1) = rest := by
      rw [show front ++ (word ++ blank :: rest) = front ++ word ++ [blank] ++ rest by simp]
      exact List.drop_left' (by simp [Nat.add_assoc])
    have short : front.length + word.length + 1 ≤ (front ++ (word ++ blank :: rest)).length := by
      simp [Nat.add_assoc]
    exact ⟨word, _, getWord_blank front word rest clean,
      by omega, short, .inl ⟨by rw [behind], rfl⟩⟩
  · exact ⟨back, _, getWord_end front back more, le_refl _, by simp, .inr ⟨rfl, by simp⟩⟩

/-- A word of the grammar. -/
structure IsWord (max : Nat) (allowed : UInt8 → Bool) (word : Bytes) : Prop where
  nonempty : 1 ≤ word.length
  short : word.length ≤ max
  chars : ∀ c ∈ word, allowed c = true

theorem wordAccepted_iff (max : Nat) (allowed : UInt8 → Bool) (word : Bytes) :
    wordAccepted max allowed word = true ↔ IsWord max allowed word := by
  simp only [wordAccepted, Bool.and_eq_true, decide_eq_true_eq, List.all_eq_true]
  constructor
  · rintro ⟨⟨nonempty, short⟩, chars⟩
    exact ⟨List.length_pos_iff.mpr nonempty, short, chars⟩
  · rintro ⟨nonempty, short, chars⟩
    exact ⟨⟨List.length_pos_iff.mp nonempty, short⟩, chars⟩

theorem IsWord.blank_notMem {max : Nat} {allowed : UInt8 → Bool} {word : Bytes}
    (isWord : IsWord max allowed word) (outside : allowed blank = false) : blank ∉ word := by
  intro member
  simpa [outside] using isWord.chars blank member

/-- The limits, one for each word. -/
structure Limits where
  login : Nat
  node : Nat
  host : Nat

/-- The limits as they are configured. -/
def RequestConfig.limits (config : RequestConfig) : Limits :=
  ⟨config.requestLoginIdMax.toNat, config.requestNodeIdMax.toNat, config.requestEasHostMax.toNat⟩

/-- The limits that are left of them in an `unsigned int`. -/
def RequestConfig.unsignedLimits (config : RequestConfig) : Limits :=
  ⟨unsignedInt config.requestLoginIdMax, unsignedInt config.requestNodeIdMax,
    unsignedInt config.requestEasHostMax⟩

/-- login SP node SP host. -/
structure IsRequest (limits : Limits) (request loginId nodeId easHost : Bytes) : Prop where
  text : request = loginId ++ blank :: (nodeId ++ blank :: easHost)
  login : IsWord limits.login isalnum loginId
  node : IsWord limits.node isalnum nodeId
  host : IsWord limits.host isHostChar easHost

/-! ### The request as a whole -/

theorem checkRequest_of_isRequest (config : RequestConfig) (request : Bytes) (members : Members)
    (loginId nodeId easHost : Bytes)
    (isRequest : IsRequest config.unsignedLimits request loginId nodeId easHost) :
    checkRequest config request members = some (0, ⟨loginId, nodeId, easHost⟩) := by
  obtain ⟨text, login, node, host⟩ := isRequest
  -- the three words are found one after the other
  have first : getWord request 0 = some (loginId, loginId.length + 1) := by
    rw [text]
    simpa using getWord_blank [] loginId (nodeId ++ blank :: easHost)
      (login.blank_notMem (by decide))
  have second : getWord request (loginId.length + 1) =
      some (nodeId, loginId.length + 1 + nodeId.length + 1) := by
    rw [text]
    simpa using getWord_blank (loginId ++ [blank]) nodeId easHost (node.blank_notMem (by decide))
  have third : getWord request (loginId.length + 1 + nodeId.length + 1) =
      some (easHost, loginId.length + 1 + nodeId.length + 1 + easHost.length) := by
    have found := getWord_end (loginId ++ [blank] ++ nodeId ++ [blank]) easHost
      (host.blank_notMem (by decide))
    have front : (loginId ++ [blank] ++ nodeId ++ [blank]).length =
        loginId.length + 1 + nodeId.length + 1 := by
      simp only [List.length_append, List.length_singleton]
    rw [front] at found
    rw [text]
    simpa using found
  -- the character before the last position is the last one of the host
  obtain ⟨front, c, rfl⟩ :=
    (List.eq_nil_or_concat' easHost).resolve_left (List.length_pos_iff.mp host.nonempty)
  have last : request[loginId.length + 1 + nodeId.length + 1 + (front ++ [c]).length - 1]? =
      some c := by
    have cut : request = (loginId ++ [blank] ++ nodeId ++ [blank] ++ front) ++ [c] := by simp [text]
    have position : loginId.length + 1 + nodeId.length + 1 + (front ++ [c]).length - 1 =
        (loginId ++ [blank] ++ nodeId ++ [blank] ++ front).length := by
      simp only [List.length_append, List.length_singleton]
      omega
    rw [position, cut, List.getElem?_concat_length]
  have apart : c ≠ blank := by
    have allowed := host.chars c (by simp)
    rintro rfl
    exact absurd allowed (by decide)
  rw [← wordAccepted_iff] at login node host
  simp only [RequestConfig.unsignedLimits] at login node host
  rw [checkRequest, if_neg (by simp [text])]
  simp only [first, second, third, last, apart, login, node, host, Option.bind_eq_bind,
    Option.bind_some]
  simp

/-- Whatever the request is, no exception leaves the check, and what it lets through is a request
whose words are in the members. -/
theorem checkRequest_returns (config : RequestConfig) (request : Bytes) (members : Members) :
    ∃ rc after, checkRequest config request members = some (rc, after) ∧
      (rc = 0 → IsRequest config.unsignedLimits request after.loginId after.nodeId
      after.easHost) := by
  have rejected (after : Members) : ∃ rc after', some (rcFormatErr, after) = some (rc, after') ∧
      (rc = 0 → IsRequest config.unsignedLimits request after'.loginId after'.nodeId
        after'.easHost) :=
    ⟨rcFormatErr, after, rfl, by simp⟩
  rw [checkRequest]
  split
  · exact rejected _
  next nonempty =>
  obtain ⟨loginId, pos₁, first, least₁, inside₁, cut₁⟩ := getWord_spec request 0 (Nat.zero_le _)
  simp only [first, Option.bind_eq_bind, Option.bind_some]
  split
  · exact rejected _
  next login =>
  rw [Bool.not_eq_true', Bool.not_eq_false, wordAccepted_iff] at login
  obtain ⟨nodeId, pos₂, second, least₂, inside₂, cut₂⟩ := getWord_spec request pos₁ inside₁
  simp only [second, Option.bind_some]
  split
  · exact rejected _
  next node =>
  rw [Bool.not_eq_true', Bool.not_eq_false, wordAccepted_iff] at node
  obtain ⟨easHost, pos₃, third, least₃, inside₃, cut₃⟩ := getWord_spec request pos₂ inside₂
  -- the position is not 0, because the login is not empty
  have nonzero : pos₃ ≠ 0 := by
    have := login.nonempty
    omega
  obtain ⟨last, at_⟩ : ∃ last, request[pos₃ - 1]? = some last :=
    ⟨_, List.getElem?_eq_getElem (by omega)⟩
  simp only [third, Option.bind_some, if_neg nonzero, at_]
  split
  · exact rejected _
  next closed =>
  split
  · exact rejected _
  next host =>
  rw [Bool.not_eq_true', Bool.not_eq_false, wordAccepted_iff] at host
  refine ⟨0, _, rfl, fun _ => ?_⟩
  -- each word but the last was closed by a blank, or nothing would be left for the next one
  rcases cut₁ with ⟨text₁, _⟩ | ⟨_, rfl⟩
  · rcases cut₂ with ⟨text₂, _⟩ | ⟨_, rfl⟩
    · rcases cut₃ with ⟨text₃, here⟩ | ⟨text₃, _⟩
      · -- the character the check looks at is the blank behind the host
        have there : request[pos₂ + easHost.length]? = some blank := by
          rw [← List.getElem?_drop, text₃]
          simp
        rw [here, Nat.add_sub_cancel, there] at at_
        exact absurd (Option.some.inj at_).symm closed
      · rw [List.drop_zero] at text₁
        exact ⟨by rw [text₁, text₂, text₃], login, node, host⟩
    · have := host.nonempty
      omega
  · have := node.nonempty
    omega

/-- No exception leaves the check, it lets through just the requests of the grammar, and their words
are in the members then. -/
def ChecksRequest (config : RequestConfig) (request : Bytes) (members : Members) : Prop :=
  ∃ rc after, checkRequest config request members = some (rc, after) ∧
    (rc = 0 ↔ ∃ loginId nodeId easHost, IsRequest config.limits request loginId nodeId easHost) ∧
    ∀ loginId nodeId easHost, IsRequest config.limits request loginId nodeId easHost →
      after = ⟨loginId, nodeId, easHost⟩

/-- A grammar with smaller limits has fewer requests. -/
theorem IsRequest.mono {small large : Limits} (login : small.login ≤ large.login)
    (node : small.node ≤ large.node) (host : small.host ≤ large.host)
    {request loginId nodeId easHost : Bytes}
    (isRequest : IsRequest small request loginId nodeId easHost) :
    IsRequest large request loginId nodeId easHost where
  text := isRequest.text
  login := ⟨isRequest.login.nonempty, isRequest.login.short.trans login, isRequest.login.chars⟩
  node := ⟨isRequest.node.nonempty, isRequest.node.short.trans node, isRequest.node.chars⟩
  host := ⟨isRequest.host.nonempty, isRequest.host.short.trans host, isRequest.host.chars⟩

/-- A word of the limits that the check uses is one of the configured limits. -/
theorem unsignedInt_le (value : Int) (nonnegative : 0 ≤ value) :
    unsignedInt value ≤ value.toNat := by
  rw [unsignedInt]
  omega

theorem unsignedInt_of_lt (value : Int) (small : value < 2 ^ 32) (nonnegative : 0 ≤ value) :
    unsignedInt value = value.toNat := by
  rw [unsignedInt, Int.emod_eq_of_lt nonnegative small]

/-- The limits are positive. -/
structure RequestConfig.Positive (config : RequestConfig) : Prop where
  login : 0 < config.requestLoginIdMax
  node : 0 < config.requestNodeIdMax
  host : 0 < config.requestEasHostMax

section Limits

variable {config : RequestConfig} (positive : config.Positive)

include positive

theorem IsRequest.configured {request loginId nodeId easHost : Bytes}
    (isRequest : IsRequest config.unsignedLimits request loginId nodeId easHost) :
    IsRequest config.limits request loginId nodeId easHost :=
  isRequest.mono (unsignedInt_le _ positive.login.le) (unsignedInt_le _ positive.node.le)
    (unsignedInt_le _ positive.host.le)

/-- The check is right about a request unless one of its words is within its limit, but not within
what is left of the limit. -/
theorem checksRequest_iff (request : Bytes) (members : Members) :
    ChecksRequest config request members ↔
      ∀ loginId nodeId easHost, IsRequest config.limits request loginId nodeId easHost →
        loginId.length ≤ unsignedInt config.requestLoginIdMax ∧
          nodeId.length ≤ unsignedInt config.requestNodeIdMax ∧
          easHost.length ≤ unsignedInt config.requestEasHostMax := by
  obtain ⟨rc, after, run, sound⟩ := checkRequest_returns config request members
  constructor
  · rintro ⟨rc', after', run', accepts, filled⟩ loginId nodeId easHost isRequest
    obtain ⟨rfl, rfl⟩ := Prod.mk.inj (Option.some.inj (run.symm.trans run'))
    obtain rfl := filled loginId nodeId easHost isRequest
    have passed := sound (accepts.mpr ⟨loginId, nodeId, easHost, isRequest⟩)
    exact ⟨passed.login.short, passed.node.short, passed.host.short⟩
  · intro fits
    -- what is in the grammar of the configured limits is in that of the others, too
    have complete (loginId nodeId easHost : Bytes)
        (isRequest : IsRequest config.limits request loginId nodeId easHost) :
        rc = 0 ∧ after = ⟨loginId, nodeId, easHost⟩ := by
      obtain ⟨login, node, host⟩ := fits loginId nodeId easHost isRequest
      rw [checkRequest_of_isRequest config request members loginId nodeId easHost
          ⟨isRequest.text, ⟨isRequest.login.nonempty, login, isRequest.login.chars⟩,
            ⟨isRequest.node.nonempty, node, isRequest.node.chars⟩,
            ⟨isRequest.host.nonempty, host, isRequest.host.chars⟩⟩,
        Option.some_inj, Prod.mk.injEq] at run
      exact ⟨run.1.symm, run.2.symm⟩
    refine ⟨rc, after, run, ⟨fun zero => ⟨_, _, _, (sound zero).configured positive⟩, ?_⟩, ?_⟩
    · rintro ⟨loginId, nodeId, easHost, isRequest⟩
      exact (complete loginId nodeId easHost isRequest).1
    · exact fun loginId nodeId easHost isRequest => (complete loginId nodeId easHost isRequest).2

omit positive in
/-- A request of words of these lengths. -/
theorem isRequest_letters (login node host : Nat) (someLogin : 0 < login) (someNode : 0 < node)
    (someHost : 0 < host) (shortLogin : login ≤ config.limits.login)
    (shortNode : node ≤ config.limits.node) (shortHost : host ≤ config.limits.host) :
    IsRequest config.limits
      (List.replicate login 97 ++ blank ::
      (List.replicate node 97 ++ blank :: List.replicate host 97))
      (List.replicate login 97) (List.replicate node 97) (List.replicate host 97) := by
  have word (max n : Nat) (allowed : UInt8 → Bool) (fine : allowed 97 = true) (some_ : 0 < n)
  (short : n ≤ max) :
      IsWord max allowed (List.replicate n 97) :=
    ⟨by rw [List.length_replicate]; exact some_, by simpa using short, by simpa using fun _ => fine⟩
  exact ⟨rfl, word _ _ _ (by decide) someLogin shortLogin,
    word _ _ _ (by decide) someNode shortNode,
    word _ _ _ (by decide) someHost shortHost⟩

end Limits

/-- `check_request` is right about every request exactly if no limit needs more than the 32 bits of
an `unsigned int`. -/
theorem checkRequest_correct_iff (config : RequestConfig) (positive : config.Positive) :
    (∀ request members, ChecksRequest config request members) ↔
      config.requestLoginIdMax < 2 ^ 32 ∧ config.requestNodeIdMax < 2 ^ 32 ∧
        config.requestEasHostMax < 2 ^ 32 := by
  have ⟨login, node, host⟩ := positive
  constructor
  · intro right
    -- the words are as long as they may be
    have fits := (checksRequest_iff positive _ ⟨[], [], []⟩).mp (right _ _) _ _ _
      (isRequest_letters _ _ _ (by simp [RequestConfig.limits, login])
        (by simp [RequestConfig.limits, node]) (by simp [RequestConfig.limits, host]) le_rfl
        le_rfl le_rfl)
    simp only [List.length_replicate, RequestConfig.limits, unsignedInt] at fits
    omega
  · rintro ⟨loginSmall, nodeSmall, hostSmall⟩ request members
    refine (checksRequest_iff positive request members).mpr
      fun loginId nodeId easHost isRequest => ?_
    rw [unsignedInt_of_lt _ loginSmall login.le, unsignedInt_of_lt _ nodeSmall node.le,
      unsignedInt_of_lt _ hostSmall host.le]
    exact ⟨isRequest.login.short, isRequest.node.short, isRequest.host.short⟩

theorem checkRequest_correct_iff_user :
    ChecksRequest ⟨64, 4, 50⟩ (ascii "user 257 mbs1") ⟨[], [], []⟩ :=
  (checkRequest_correct_iff ⟨64, 4, 50⟩ ⟨by decide, by decide, by decide⟩).mpr (by decide) _ _

/-- Of a limit of 2 to the 32nd nothing is left. -/
theorem checkRequest_refuses_all :
    ¬ ChecksRequest ⟨2 ^ 32, 4, 50⟩ (ascii "user 257 mbs1") ⟨[], [], []⟩ := by
  rintro ⟨rc, after, run, accepts, -⟩
  have refused : checkRequest ⟨2 ^ 32, 4, 50⟩ (ascii "user 257 mbs1") ⟨[], [], []⟩ =
      some (rcFormatErr, ⟨ascii "user", [], []⟩) := by decide +kernel
  obtain ⟨rfl, -⟩ := Prod.mk.inj (Option.some.inj (run.symm.trans refused))
  have accepted := accepts.mpr ⟨ascii "user", ascii "257", ascii "mbs1", by decide,
    (wordAccepted_iff _ _ _).mp (by decide), (wordAccepted_iff _ _ _).mp (by decide),
    (wordAccepted_iff _ _ _).mp (by decide)⟩
  exact absurd accepted (by decide)

end Zn
