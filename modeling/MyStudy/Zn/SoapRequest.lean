import MyStudy.Lib.Bytes
import MyStudy.Lib.Program

/-!
# A SOAP request and its attempts

`zn_zimbra_soap::_send_soap_request` wraps `zn_soap_requst::post` in a `zn_retriable`, whose loop
catches one class of exceptions. libcurl is a parameter: what each transfer gives the write
callback, and its code.
-/
namespace Zn

/-! ### `zn_exception.hpp` -/

/-- The classes under `zn_http_exception`. -/
inductive HttpException where
  | common (what : String)
  -- the constructor builds the text with the code and drops it
  | transfer (what : String) (errcode : Int)
  deriving DecidableEq, Repr

/-- `zn_exception`, by the class that is derived from it: what is caught as `zn_retry_exception` is
neither of the other two. -/
inductive ZnException where
  | retry (what : String)
  | retryExceed (what : String)
  | http (e : HttpException)
  deriving DecidableEq, Repr

def HttpException.ofErrorCode (errorCode : Int) : HttpException := .transfer "" errorCode

/-! ### `zn_retriable` -/

section Retriable

variable {σ α : Type}

/-- `zn_retriable::process` from the round `i` on, without the pauses. -/
def process (adapter : EStateM ZnException σ α) (retryTimes : Int) (i : Nat) :
    EStateM ZnException σ α :=
  tryCatch adapter fun e =>
    match e with
    | .retry _ =>
      if exceeded : retryTimes ≤ i then throw (.retryExceed "max retry times exceeded.")
      else process adapter retryTimes (i + 1)
    | e => throw e
termination_by (retryTimes - i).toNat
decreasing_by omega

variable {adapter : EStateM ZnException σ α} {retryTimes : Int} {i : Nat} {s s' : σ}

theorem process_ok {a : α} (returns : adapter s = .ok a s') :
    process adapter retryTimes i s = .ok a s' := by
  rw [process]
  simp only [tryCatch, tryCatchThe, MonadExceptOf.tryCatch, EStateM.tryCatch, returns]

/-- An exception of another class leaves the loop. -/
theorem process_error {e : ZnException} (throws : adapter s = .error e s')
    (other : ∀ what, e ≠ .retry what) :
    process adapter retryTimes i s = .error e s' := by
  rw [process]
  simp only [tryCatch, tryCatchThe, MonadExceptOf.tryCatch, EStateM.tryCatch, throws]
  cases e with
  | retry what => exact absurd rfl (other what)
  | retryExceed | http => rfl

end Retriable

/-! ### `zn_http`, `zn_soap_requst` -/

/-- The options set on a handle of libcurl. -/
structure Curl where
  post : Bool
  postfields : Bytes
  url : Bytes
  cookie : Option Bytes
  deriving DecidableEq, Repr

/-- What one `curl_easy_perform` does: the pieces it gives the write callback, and its
`CURLcode`. -/
structure Transfer where
  pieces : List Bytes
  retcode : Int

def curleOk : Int := 0

/-- `zn_soap_requst`, with the options of each transfer made so far. -/
structure SoapRequst where
  content : Bytes
  soapUrl : Bytes
  curl : Curl
  transfers : List Curl

abbrev SoapM := EStateM ZnException SoapRequst

/-- `zn_soap_requst::on_write`. -/
def onWrite (ptr : Bytes) : SoapM Nat := do
  modify fun s => { s with content := s.content ++ ptr }
  return ptr.length

def setopt (option : Curl → Curl) : SoapM PUnit := modify fun s => { s with curl := option s.curl }

section Sending

variable (network : Nat → Transfer)

/-- `curl_easy_perform`. The callback returns the length of the piece, so libcurl goes on to the
next. -/
def curlEasyPerform : SoapM Int := do
  let s ← get
  set { s with transfers := s.transfers ++ [s.curl] }
  (network s.transfers.length).pieces.forM fun piece => discard (onWrite piece)
  return (network s.transfers.length).retcode

/-- `zn_http::_perform`. -/
def perform (url cookie : Bytes) : SoapM Bool := do
  setopt fun curl => { curl with url := cstr url }
  if cookie.length ≠ 0 then
    setopt fun curl => { curl with cookie := some (cstr cookie) }
  let retcode ← curlEasyPerform network
  if retcode ≠ curleOk then throw (.http (.ofErrorCode retcode))
  return true

/-- `zn_http::post`. -/
def httpPost (url data cookie : Bytes) : SoapM Bool := do
  setopt fun curl => { curl with post := true }
  setopt fun curl => { curl with postfields := cstr data }
  perform network url cookie

/-- `zn_soap_requst::post`. -/
def post (postdata : Bytes) : SoapM Bytes := do
  modify fun s => { s with content := [] }
  let s ← get
  let _ ← httpPost network s.soapUrl postdata []
  return (← get).content

/-- The default of `zn_retriable`. -/
def retryTimes : Int := 3

/-- `zn_zimbra_soap::_send_soap_request`. -/
def sendSoapRequest (soapContent : Bytes) : SoapM Bytes :=
  process (post network soapContent) retryTimes 0

end Sending

/-! ### One attempt -/

def Transfer.Succeeds (transfer : Transfer) : Prop := transfer.retcode = curleOk

instance (transfer : Transfer) : Decidable transfer.Succeeds := inferInstanceAs (Decidable (_ = _))

/-- What the response to a transfer is. -/
def Transfer.content (transfer : Transfer) : Bytes := transfer.pieces.flatten

/-- The object after a transfer, whether it succeeds or not. -/
def SoapRequst.performed (s : SoapRequst) (url : Bytes) (transfer : Transfer) : SoapRequst :=
  { content := s.content ++ transfer.content
    soapUrl := s.soapUrl
    curl := { s.curl with url := cstr url }
    transfers := s.transfers ++ [{ s.curl with url := cstr url }] }

/-- The object after an attempt to post. -/
def SoapRequst.attempted (s : SoapRequst) (data : Bytes) (transfer : Transfer) : SoapRequst :=
  let curl := { s.curl with post := true, postfields := cstr data }
  { s with content := [], curl }.performed s.soapUrl transfer

theorem forM_onWrite (pieces : List Bytes) (s : SoapRequst) :
    (pieces.forM fun piece => discard (onWrite piece)) s =
      .ok PUnit.unit { s with content := s.content ++ pieces.flatten } := by
  induction pieces generalizing s with
  | nil =>
    rw [List.flatten_nil, List.append_nil]
    rfl
  | cons piece rest ih =>
    calc (((piece :: rest).forM fun piece => discard (onWrite piece)) s)
        = (rest.forM fun piece => discard (onWrite piece))
          { s with content := s.content ++ piece } := rfl
      _ = .ok PUnit.unit { s with content := s.content ++ piece ++ rest.flatten } := ih _
      _ = .ok PUnit.unit { s with content := s.content ++ (piece :: rest).flatten } := by
        rw [List.flatten_cons, List.append_assoc]

section Attempt

variable (network : Nat → Transfer) (data : Bytes) (s : SoapRequst)

/-- Up to the check of the code, one attempt only adds to what is there. -/
theorem curlEasyPerform_run : curlEasyPerform network s =
    .ok (network s.transfers.length).retcode
      { s with
        content := s.content ++ (network s.transfers.length).content
        transfers := s.transfers ++ [s.curl] } := by
  have written :=
    forM_onWrite (network s.transfers.length).pieces { s with transfers := s.transfers ++ [s.curl] }
  have enters : curlEasyPerform network s = EStateM.bind
      ((network s.transfers.length).pieces.forM fun piece => discard (onWrite piece))
      (fun _ => pure (network s.transfers.length).retcode)
      { s with transfers := s.transfers ++ [s.curl] } := rfl
  rw [enters, EStateM.bind, written]
  rfl

/-- Without a cookie. -/
theorem perform_run (url : Bytes) (s : SoapRequst) : perform network url [] s =
    if (network s.transfers.length).Succeeds then
      .ok true (s.performed url (network s.transfers.length))
    else
      .error (.http (.ofErrorCode (network s.transfers.length).retcode))
        (s.performed url (network s.transfers.length)) := by
  have enters : perform network url [] s = EStateM.bind (curlEasyPerform network)
      (fun retcode => do
        if retcode ≠ curleOk then throw (.http (.ofErrorCode retcode))
        return true)
      { s with curl := { s.curl with url := cstr url } } := rfl
  rw [enters, EStateM.bind, curlEasyPerform_run]
  by_cases success : (network s.transfers.length).Succeeds
  · have code : (network s.transfers.length).retcode = curleOk := success
    rw [if_pos success, code]
    rfl
  · have code : (network s.transfers.length).retcode ≠ curleOk := success
    dsimp only
    rw [if_neg success, if_pos code]
    rfl

theorem post_run : post network data s =
    if (network s.transfers.length).Succeeds then
      .ok (network s.transfers.length).content (s.attempted data (network s.transfers.length))
    else
      .error (.http (.ofErrorCode (network s.transfers.length).retcode))
        (s.attempted data (network s.transfers.length)) := by
  have enters : post network data s = EStateM.bind (perform network s.soapUrl [])
      (fun _ => do return (← get).content)
      { s with content := [], curl := { s.curl with post := true, postfields := cstr data } } := rfl
  rw [enters, EStateM.bind, perform_run]
  dsimp only
  by_cases success : (network s.transfers.length).Succeeds
  · rw [if_pos success, if_pos success]
    rfl
  · rw [if_neg success, if_neg success]
    rfl

end Attempt

/-! ### The attempts of a request -/

section Request

variable (network : Nat → Transfer) (data : Bytes) (s : SoapRequst)

/-- A request is sent as often as the loop is meant to: up to four times, until a transfer
succeeds. -/
structure Retries : Prop where
  attempts : ∃ made ≤ 4, (Program.finalState (sendSoapRequest network data) s).transfers.length =
    s.transfers.length + made
  returns : ∀ k < 4, (∀ j < k, ¬ (network (s.transfers.length + j)).Succeeds) →
    (network (s.transfers.length + k)).Succeeds →
    ∃ s', sendSoapRequest network data s = .ok (network (s.transfers.length + k)).content s'
  exceeds : (∃ what s', sendSoapRequest network data s = .error (.retryExceed what) s') ↔
    ∀ k < 4, ¬ (network (s.transfers.length + k)).Succeeds

/-- The loop does not catch what a transfer throws: there is one attempt. -/
theorem sendSoapRequest_run : sendSoapRequest network data s = post network data s := by
  have posted := post_run network data s
  split at posted
  · rw [posted]
    exact process_ok posted
  · rw [posted]
    exact process_error posted nofun

theorem attempted_transfers (transfer : Transfer) :
    (s.attempted data transfer).transfers.length = s.transfers.length + 1 := by
  rw [SoapRequst.attempted, SoapRequst.performed, List.length_append, List.length_singleton]

/-- A request meets its description only if the first transfer succeeds. -/
theorem retries_iff : Retries network data s ↔ (network s.transfers.length).Succeeds := by
  have run := (sendSoapRequest_run network data s).trans (post_run network data s)
  constructor
  · intro retries
    by_contra fails
    rw [if_neg fails] at run
    by_cases later : ∃ k < 4, (network (s.transfers.length + k)).Succeeds
    · -- the first that succeeds is one the loop does not come to
      obtain ⟨bound, success⟩ := Nat.find_spec later
      obtain ⟨s', returned⟩ := retries.returns _ bound
        (fun j below success => Nat.find_min later below ⟨below.trans bound, success⟩) success
      rw [run] at returned
      cases returned
    · push Not at later
      obtain ⟨what, s', thrown⟩ := retries.exceeds.mpr later
      rw [run] at thrown
      cases thrown
  · -- with the first transfer there is nothing to try again
    intro success
    rw [if_pos success] at run
    refine ⟨⟨1, by decide, ?_⟩, ?_, ?_⟩
    · rw [Program.finalState, run]
      exact attempted_transfers data s _
    · intro k _ fails _
      cases k with
      | zero => exact ⟨_, run⟩
      | succ k => exact absurd success (fails 0 k.succ_pos)
    · constructor
      · rintro ⟨what, s', thrown⟩
        rw [run] at thrown
        cases thrown
      · intro fails
        exact absurd success (fails 0 (by decide))

end Request

/-- The first connection fails, the second would not. -/
theorem not_retried : ¬ ∀ network data s, Retries network data s := by
  intro all
  let network (k : Nat) : Transfer := if k = 0 then ⟨[], 7⟩ else ⟨[ascii "<ok/>"], curleOk⟩
  have fresh := all network (ascii "<GetInfoRequest/>") ⟨[], ascii "https://zimbra/service/soap",
    ⟨false, [], [], none⟩, []⟩
  obtain ⟨s', returned⟩ := fresh.returns 1 (by decide) (by decide) (by decide)
  rw [sendSoapRequest_run, post_run] at returned
  cases returned

end Zn
