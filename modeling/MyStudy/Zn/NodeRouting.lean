import MyStudy.Zn.AccessDb
import MyStudy.Zn.UntarNumber

/-!
# The node of a request

`access_db` stores the node id as a number and `main` writes the number out again to look the node
up. The two agree with the request on the ids that are decimal numbers without leading zeros.
-/
namespace Zn

/-- The INSERT of `access_db`. -/
def registerRequest (queue : Queue) (key : Nat) (members : Members) : Queue :=
  queue.insertMigrationInformation key members.loginId (fromStringUnsigned members.nodeId)
    members.easHost 0

/-- What `main` looks up in the host list: `to_string(migration_table_row.node_id)`. -/
def nodeKey (row : MigrationRow) : Bytes := decimal row.nodeId

theorem fromStringUnsigned_lt (text : Bytes) : fromStringUnsigned text < 2 ^ 32 := by
  simp only [fromStringUnsigned, extractUnsigned]
  generalize numeral 10 _ = value
  split
  · omega
  · split
    · exact Nat.mod_lt _ (by omega)
    · omega

theorem fromStringUnsigned_digits (text : Bytes) (nonempty : text ≠ [])
    (digits : ∀ d ∈ text, isDigit d = true) (fits : numeral 10 text < 2 ^ 32) :
    fromStringUnsigned text = numeral 10 text := by
  obtain ⟨d, rest, rfl⟩ := List.exists_cons_of_ne_nil nonempty
  obtain ⟨_, blank, minus, plus⟩ := digit_plain d (digits d (by simp))
  have taken : (d :: rest).takeWhile isDigit = d :: rest := List.takeWhile_eq_self_iff.mpr digits
  rw [fromStringUnsigned, extractUnsigned_of_plain d rest blank minus plus, taken,
    if_neg (by omega)]

/-- The ids that survive the way through the number. -/
structure Routable (nodeId : Bytes) : Prop where
  canonical : Canonical nodeId
  fits : numeral 10 nodeId < 2 ^ 32

theorem decimal_fromStringUnsigned_iff (text : Bytes) :
    decimal (fromStringUnsigned text) = text ↔ Routable text := by
  constructor
  · intro same
    have value := numeral_decimal (fromStringUnsigned text)
    rw [same] at value
    exact ⟨same ▸ canonical_decimal _, value ▸ fromStringUnsigned_lt text⟩
  · rintro ⟨canonical, fits⟩
    rw [fromStringUnsigned_digits text canonical.nonempty canonical.digits fits,
      decimal_numeral text canonical]

/-! ### From the request to the host list -/

/-- The row of a registered request keeps its node through the statements that follow. -/
theorem nodeId_of_registered (queue : Queue) (key : Nat) (members : Members)
    (fresh : ∀ row ∈ queue, row.key ≠ key) (later : List Statement)
    (single : ∀ loginId nodeId easHost, .insertRow key loginId nodeId easHost ∉ later)
    (row : MigrationRow)
    (member : row ∈ later.foldl Statement.run (registerRequest queue key members))
    (own : row.key = key) : row.nodeId = fromStringUnsigned members.nodeId := by
  -- the last statement is peeled off; a row behind it was there before it
  induction later using List.reverseRecOn generalizing row with
  | nil =>
    rcases List.mem_append.mp member with before | new
    · exact absurd own (fresh row before)
    · rw [List.mem_singleton.mp new]
  | append_singleton later statement ih =>
    rw [List.foldl_concat] at member
    rcases Statement.mem_run _ statement row member with ⟨old, among, kept⟩ | new
    · rw [kept.nodeId]
      apply ih _ old among (kept.key ▸ own)
      exact fun loginId nodeId easHost among => single loginId nodeId easHost (by simp [among])
    · exact absurd (by simp [new, own]) (single row.loginId row.nodeId row.easHost)

/-- Of an accepted and registered request, the node that `main` looks up is the node of the request
just when its id is a decimal number without leading zeros below 2^32. Such ids stay apart. -/
theorem nodeKey_registered_iff (config : RequestConfig) (request : Bytes) (before after : Members)
    (_accepted : checkRequest config request before = some (0, after))
    (queue : Queue) (key : Nat) (fresh : ∀ row ∈ queue, row.key ≠ key) (later : List Statement)
    (single : ∀ loginId nodeId easHost, .insertRow key loginId nodeId easHost ∉ later)
    (row : MigrationRow)
    (found : (later.foldl Statement.run (registerRequest queue key after)).getMigrationInformation
      after.loginId = some row) (own : row.key = key) :
    (nodeKey row = after.nodeId ↔ Routable after.nodeId) ∧
    ∀ other : Members, Routable after.nodeId → Routable other.nodeId → other.nodeId ≠ after.nodeId →
      decimal (fromStringUnsigned other.nodeId) ≠ nodeKey row := by
  have member := (Queue.getMigrationInformation_spec _ _ _ found).1
  have same : nodeKey row = decimal (fromStringUnsigned after.nodeId) := by
    rw [nodeKey, nodeId_of_registered queue key after fresh later single row member own]
  rw [same, decimal_fromStringUnsigned_iff]
  refine ⟨Iff.rfl, fun other routable routable' apart together => apart ?_⟩
  rw [(decimal_fromStringUnsigned_iff _).mpr routable,
    (decimal_fromStringUnsigned_iff _).mpr routable'] at together
  exact together

theorem nodeKey_registered_one :
    (nodeKey ⟨0, ascii "user2", [], 1, ascii "mbs1", notProcess⟩ = ascii "1" ↔
      Routable (ascii "1")) ∧
    ∀ other : Members, Routable (ascii "1") → Routable other.nodeId → other.nodeId ≠ ascii "1" →
      decimal (fromStringUnsigned other.nodeId) ≠
        nodeKey ⟨0, ascii "user2", [], 1, ascii "mbs1", notProcess⟩ :=
  nodeKey_registered_iff ⟨64, 4, 50⟩ (ascii "user2 1 mbs1") ⟨[], [], []⟩
    ⟨ascii "user2", ascii "1", ascii "mbs1"⟩ (by decide +kernel) [] 0 (by simp) [] (by simp)
    ⟨0, ascii "user2", [], 1, ascii "mbs1", notProcess⟩ (by decide +kernel) rfl

/-- The host list has ids such as 001: a request for it is accepted and goes to the node of a
request for 1. -/
theorem nodes_confused :
    ¬ ∀ (config : RequestConfig) (request request' : Bytes) (before after after' : Members),
      checkRequest config request before = some (0, after) →
      checkRequest config request' before = some (0, after') →
      ∀ row ∈ registerRequest [] 0 after, ∀ row' ∈ registerRequest [] 0 after',
        nodeKey row = after.nodeId ∧
        (after.nodeId ≠ after'.nodeId → nodeKey row ≠ nodeKey row') := by
  intro claim
  have both := claim ⟨64, 4, 50⟩ (ascii "user1 001 mbs1") (ascii "user2 1 mbs1") ⟨[], [], []⟩
    ⟨ascii "user1", ascii "001", ascii "mbs1"⟩ ⟨ascii "user2", ascii "1", ascii "mbs1"⟩
    (by decide +kernel) (by decide +kernel)
    ⟨0, ascii "user1", [], 1, ascii "mbs1", notProcess⟩ (by decide +kernel)
    ⟨0, ascii "user2", [], 1, ascii "mbs1", notProcess⟩ (by decide +kernel)
  have together : decimal 1 = decimal 1 := rfl
  exact both.2 (by decide) together

end Zn
