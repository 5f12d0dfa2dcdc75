import MyStudy.Lib.XmlTemplate
import MyStudy.Zn.ModifiedUtf7

/-!
# Requests from templates

`zn_network_req_generator` puts its arguments into the text of a request, one after the other, each
at the first place where its name is found. The names may also stand in the arguments that are there
already.
-/

namespace Zn.NetworkReqGenerator

open Template (replace)
open Xml (Token Plain Part)

/-! ### The requests -/

/-! A replacement is `found = ret.find(name)` and `ret.replace(found, n, value)`, which throws if nothing was
found. -/

def modifyAccountText : String :=
  "<?xml version='1.0' encoding='UTF-8'?><soap:Envelope xmlns:soap=\"http://www.w3.org/2003/05/soap-envelope\"><soap:Header><context xmlns=\"urn:zimbra\"><authToken>$authToken</authToken><nosession/><userAgent name=\"zmprov\" version=\"7.1.3_GA_3346\"/></context></soap:Header><soap:Body><ModifyAccountRequest xmlns=\"urn:zimbraAdmin\"><id>$zimbra_id</id><a n=\"userPassword\">$user_password</a><a n=\"ezwebUserPassword\">$password</a><a n=\"zimbraPrefIncludeSpamInSearch\">$include_spam</a></ModifyAccountRequest></soap:Body></soap:Envelope>"

def getModifyAccountRequest (authtoken zimbraId userPassword password includeSpam : Bytes) :
    Option Bytes :=
  do
  let ret := ascii modifyAccountText
  let ret ← replace ret (ascii "$authToken") 10 authtoken
  let ret ← replace ret (ascii "$zimbra_id") 10 zimbraId
  let ret ← replace ret (ascii "$user_password") 14 userPassword
  let ret ← replace ret (ascii "$password") 9 password
  replace ret (ascii "$include_spam") 13 includeSpam

def setPasswordText : String :=
  "<?xml version='1.0' encoding='UTF-8'?><soap:Envelope xmlns:soap=\"http://www.w3.org/2003/05/soap-envelope\"><soap:Header><context xmlns=\"urn:zimbra\"><authToken>$authtoken</authToken><nosession/><userAgent name=\"zmprov\" version=\"7.1.3_GA_3346\"/></context></soap:Header><soap:Body><SetPasswordRequest  xmlns=\"urn:zimbraAdmin\"><id>$zimbra_id</id><newPassword>$password</newPassword></SetPasswordRequest></soap:Body></soap:Envelope>"

def getSetPasswordRequest (authtoken zimbraId password : Bytes) : Option Bytes := do
  let ret := ascii setPasswordText
  let ret ← replace ret (ascii "$authtoken") 10 authtoken
  let ret ← replace ret (ascii "$zimbra_id") 10 zimbraId
  replace ret (ascii "$password") 9 password

def delegateAuthText : String :=
  "<?xml version='1.0' encoding='UTF-8'?><soap:Envelope xmlns:soap=\"http://www.w3.org/2003/05/soap-envelope\"><soap:Header><context xmlns=\"urn:zimbra\"><authToken>$authToken</authToken><nosession/><userAgent name=\"zclient\" version=\"7.1.4_GA_2555\"/></context></soap:Header><soap:Body><DelegateAuthRequest duration=\"86400\" xmlns=\"urn:zimbraAdmin\"><account by=\"id\">$account</account></DelegateAuthRequest></soap:Body></soap:Envelope>"

def getDelegateAuthRequest (authtoken account : Bytes) : Option Bytes := do
  let ret := ascii delegateAuthText
  let ret ← replace ret (ascii "$authToken") 10 authtoken
  replace ret (ascii "$account") 8 account

/-! ### What they are to say -/

def start (el : String) (attr : List (String × String)) : Token :=
  .start el.toList (attr.map fun a => (a.1.toList, a.2.toList))

def empty (el : String) (attr : List (String × String)) : Token :=
  .empty el.toList (attr.map fun a => (a.1.toList, a.2.toList))

def stop (el : String) : Token := .stop el.toList

def text (chars : List Char) : List Token := chars.map .char

def opening : List Token :=
  [start "soap:Envelope" [("xmlns:soap", "http://www.w3.org/2003/05/soap-envelope")],
    start "soap:Header" [],
    start "context" [("xmlns", "urn:zimbra")], start "authToken" []]

def behindToken (agent version : String) : List Token :=
  [stop "authToken", empty "nosession" [],
    empty "userAgent" [("name", agent), ("version", version)],
    stop "context", stop "soap:Header", start "soap:Body" []]

def modifyAccountDocument (authtoken zimbraId userPassword password includeSpam : List Char) :
    List Token :=
  opening ++ text authtoken ++ behindToken "zmprov" "7.1.3_GA_3346" ++
  [start "ModifyAccountRequest" [("xmlns", "urn:zimbraAdmin")], start "id" []] ++ text zimbraId ++
  [stop "id", start "a" [("n", "userPassword")]] ++ text userPassword ++
  [stop "a", start "a" [("n", "ezwebUserPassword")]] ++ text password ++
  [stop "a", start "a" [("n", "zimbraPrefIncludeSpamInSearch")]] ++ text includeSpam ++
  [stop "a", stop "ModifyAccountRequest", stop "soap:Body", stop "soap:Envelope"]

def setPasswordDocument (authtoken zimbraId password : List Char) : List Token :=
  opening ++ text authtoken ++ behindToken "zmprov" "7.1.3_GA_3346" ++
  [start "SetPasswordRequest" [("xmlns", "urn:zimbraAdmin")], start "id" []] ++ text zimbraId ++
  [stop "id", start "newPassword" []] ++ text password ++
  [stop "newPassword", stop "SetPasswordRequest", stop "soap:Body", stop "soap:Envelope"]

def delegateAuthDocument (authtoken account : List Char) : List Token :=
  opening ++ text authtoken ++ behindToken "zclient" "7.1.4_GA_2555" ++
  [start "DelegateAuthRequest" [("duration", "86400"), ("xmlns", "urn:zimbraAdmin")],
    start "account" [("by", "id")]] ++ text account ++
  [stop "account", stop "DelegateAuthRequest", stop "soap:Body", stop "soap:Envelope"]

/-- An envelope is well-formed, and read as these tags and texts. -/
def Reads (envelope : Option Bytes) (document : List Token) : Prop :=
  ∃ chars, envelope = some (utf8 chars) ∧ Xml.document chars = some document

/-- No argument has markup in it, and none the name of a later one, unless that one is its own
name. -/
structure Apart (fields : List (Template.Field Char)) : Prop where
  plain : ∀ f ∈ fields, Plain f.2
  names : fields.Pairwise fun earlier later => Template.Passes earlier.2 later

/-! ### Bytes and characters -/

theorem utf8_toList (text : String) (low : text.toList.all isAscii = true) :
    utf8 text.toList = ascii text := by
  rw [ascii, utf8, List.map_eq_flatMap]
  exact List.flatMap_congr fun c member => utf8_ascii c (List.all_eq_true.mp low c member)

theorem utf8_injective : Function.Injective utf8 := by
  intro a b same
  have encoded : a.utf8Encode = b.utf8Encode := congrArg List.toByteArray same
  have decoded := congrArg ByteArray.utf8Decode? encoded
  simpa using decoded

theorem byte_inj (c d : Char) (low : isAscii c = true) (low' : isAscii d = true)
    (same : UInt8.ofNat c.toNat = UInt8.ofNat d.toNat) : c = d := by
  have code := congrArg UInt8.toNat same
  rw [toNat_ascii c low, toNat_ascii d low'] at code
  exact Char.toNat_inj.mp code

theorem utf8_prefix_iff (name text : List Char) (low : ∀ c ∈ name, isAscii c = true) :
    utf8 name <+: utf8 text ↔ name <+: text := by
  induction name generalizing text with
  | nil => simp [utf8]
  | cons d name ih =>
    have lowD := low d (by simp)
    rw [utf8_cons, utf8_ascii d lowD]
    cases text with
    | nil => simp [utf8]
    | cons c text =>
      rw [utf8_cons, List.cons_prefix_cons]
      cases lowC : isAscii c with
      | true =>
        rw [utf8_ascii c lowC]
        simp only [List.cons_append, List.nil_append, List.cons_prefix_cons,
          ih text fun e member => low e (by simp [member])]
        exact and_congr_left fun _ => ⟨byte_inj d c lowD lowC, fun same => by rw [same]⟩
      | false =>
        -- the bytes of a character that is not ASCII are all above those of the name
        obtain ⟨some_, high⟩ := utf8_high c lowC
        obtain ⟨b, rest, bytes⟩ := List.exists_cons_of_ne_nil some_
        have other : UInt8.ofNat d.toNat ≠ b := by
          intro same
          have := high b (by simp [bytes])
          rw [← same, toNat_ascii d lowD] at this
          rw [isAscii, decide_eq_true_eq] at lowD
          omega
        have differs : d ≠ c := fun same => by rw [same, lowC] at lowD; cases lowD
        simp [bytes, List.cons_prefix_cons, other, differs]

/-- Replacing works on the characters that the bytes are. -/
theorem replace_utf8 (mark : Char) (name value text : List Char)
    (low : ∀ c ∈ mark :: name, isAscii c = true) :
    replace (utf8 text) (utf8 (mark :: name)) (utf8 (mark :: name)).length (utf8 value) =
      (replace text (mark :: name) (mark :: name).length value).map utf8 := by
  have lowMark := low mark (by simp)
  have front : utf8 (mark :: name) = UInt8.ofNat mark.toNat :: utf8 name := by
    rw [utf8_cons, utf8_ascii mark lowMark]
    rfl
  induction text with
  | nil => rw [Template.replace_nil (by simp), utf8, List.flatMap_nil,
             Template.replace_nil (by simp [front])]; rfl
  | cons c text ih =>
    rw [Template.replace_cons]
    cases lowC : isAscii c with
    | true =>
      -- one character is one byte, so the name is found in both or in neither
      have bytes : utf8 (c :: text) = UInt8.ofNat c.toNat :: utf8 text := by
        rw [utf8_cons, utf8_ascii c lowC]
        rfl
      have same := utf8_prefix_iff (mark :: name) (c :: text) low
      rw [bytes, Template.replace_cons, ← bytes]
      by_cases here : mark :: name <+: c :: text
      · rw [if_pos (same.mpr here), if_pos here]
        obtain ⟨rest, whole⟩ := here
        rw [← whole, utf8_append, List.drop_left, List.drop_left, ← utf8_append, Option.map_some]
      · rw [if_neg (mt same.mp here), if_neg here, ih, Option.map_map, Option.map_map]
        congr 1
        funext result
        rw [Function.comp_apply, Function.comp_apply, utf8_cons, utf8_ascii c lowC]
        rfl
    | false =>
      have other : ¬ mark :: name <+: c :: text := by
        rw [List.cons_prefix_cons]
        rintro ⟨rfl, -⟩
        rw [lowC] at lowMark
        cases lowMark
      -- no byte of the character is the mark, so the name does not start within it
      have absent : UInt8.ofNat mark.toNat ∉ String.utf8EncodeChar c := by
        intro member
        have := (utf8_high c lowC).2 _ member
        rw [toNat_ascii mark lowMark] at this
        rw [isAscii, decide_eq_true_eq] at lowMark
        omega
      rw [if_neg other, utf8_cons]
      conv_lhs => rw [front]
      rw [Template.replace_append_of_head _ _ _ _ _ _ absent, ← front, ih, Option.map_map,
        Option.map_map]
      simp only [Function.comp_def, utf8_cons]

theorem fill_utf8 (fields : List (Template.Field Char)) (text : List Char)
    (named : ∀ f ∈ fields, f.1 ≠ [] ∧ ∀ c ∈ f.1, isAscii c = true) :
    Template.fill (utf8 text) (fields.map fun f => (utf8 f.1, utf8 f.2)) =
      (Template.fill text fields).map utf8 := by
  induction fields generalizing text with
  | nil => rfl
  | cons f fields ih =>
    obtain ⟨some_, low⟩ := named f (by simp)
    obtain ⟨mark, name, marked⟩ := List.exists_cons_of_ne_nil some_
    have step : replace (utf8 text) (utf8 f.1) (utf8 f.1).length (utf8 f.2) =
        (replace text f.1 f.1.length f.2).map utf8 := by
      rw [marked] at low ⊢
      exact replace_utf8 mark name f.2 text low
    rw [List.map_cons, Template.fill, List.foldlM_cons, step, Template.fill, List.foldlM_cons]
    cases replace text f.1 f.1.length f.2 with
    | none => rfl
    | some next => exact ih next fun g member => named g (by simp [member])

/-! ### The templates -/

def declaration : List Char :=
  Xml.spelled (String.toList_ofList : "<?xml version='1.0' encoding='UTF-8'?>".toList = _)

def front : List Char := Xml.spelled (String.toList_ofList :
  "<soap:Envelope xmlns:soap=\"http://www.w3.org/2003/05/soap-envelope\"><soap:Header><context xmlns=\"urn:zimbra\"><authToken>".toList = _)

/-- The elements that are open before the first name. -/
def opened : List (List Char) :=
  ["authToken".toList, "context".toList, "soap:Header".toList, "soap:Envelope".toList]

set_option maxRecDepth 2000 in
def modifyAccountParts : List Part :=
  [{ name := "$authToken".toList
     markup := Xml.spelled (String.toList_ofList :
      "</authToken><nosession/><userAgent name=\"zmprov\" version=\"7.1.3_GA_3346\"/></context></soap:Header><soap:Body><ModifyAccountRequest xmlns=\"urn:zimbraAdmin\"><id>".toList = _)
     tokens := behindToken "zmprov" "7.1.3_GA_3346" ++
      [start "ModifyAccountRequest" [("xmlns", "urn:zimbraAdmin")], start "id" []] },
   { name := "$zimbra_id".toList
     markup := Xml.spelled (String.toList_ofList : "</id><a n=\"userPassword\">".toList = _)
     tokens := [stop "id", start "a" [("n", "userPassword")]] },
   { name := "$user_password".toList
     markup := Xml.spelled (String.toList_ofList : "</a><a n=\"ezwebUserPassword\">".toList = _)
     tokens := [stop "a", start "a" [("n", "ezwebUserPassword")]] },
   { name := "$password".toList
     markup :=
       Xml.spelled (String.toList_ofList : "</a><a n=\"zimbraPrefIncludeSpamInSearch\">".toList = _)
     tokens := [stop "a", start "a" [("n", "zimbraPrefIncludeSpamInSearch")]] },
   { name := "$include_spam".toList
     markup := Xml.spelled (String.toList_ofList :
      "</a></ModifyAccountRequest></soap:Body></soap:Envelope>".toList = _)
     tokens := [stop "a", stop "ModifyAccountRequest", stop "soap:Body", stop "soap:Envelope"] }]

def modifyAccountForm : Xml.Form where
  mark := '$'
  declaration := declaration
  front := front
  opening := opening
  stack := opened
  parts := modifyAccountParts
  declared _ := rfl
  opens := by decide +kernel
  continues := Xml.continues_of_continuing _ _ (by decide +kernel)
  tagged := by decide +kernel
  named := by decide +kernel
  bounds := by decide +kernel
  unmarked := by decide +kernel
  apart := by decide +kernel
  plain := Xml.plain_of_all (by decide +kernel)
  noReturn := by decide +kernel
  valid := by decide +kernel
  tight := by decide +kernel

set_option maxRecDepth 2000 in
def setPasswordParts : List Part :=
  [{ name := "$authtoken".toList
     markup := Xml.spelled (String.toList_ofList :
      "</authToken><nosession/><userAgent name=\"zmprov\" version=\"7.1.3_GA_3346\"/></context></soap:Header><soap:Body><SetPasswordRequest  xmlns=\"urn:zimbraAdmin\"><id>".toList = _)
     tokens := behindToken "zmprov" "7.1.3_GA_3346" ++
      [start "SetPasswordRequest" [("xmlns", "urn:zimbraAdmin")], start "id" []] },
   { name := "$zimbra_id".toList
     markup := "</id><newPassword>".toList
     tokens := [stop "id", start "newPassword" []] },
   { name := "$password".toList
     markup := Xml.spelled (String.toList_ofList :
      "</newPassword></SetPasswordRequest></soap:Body></soap:Envelope>".toList = _)
     tokens :=
       [stop "newPassword", stop "SetPasswordRequest", stop "soap:Body", stop "soap:Envelope"] }]

def setPasswordForm : Xml.Form where
  mark := '$'
  declaration := declaration
  front := front
  opening := opening
  stack := opened
  parts := setPasswordParts
  declared _ := rfl
  opens := by decide +kernel
  continues := Xml.continues_of_continuing _ _ (by decide +kernel)
  tagged := by decide +kernel
  named := by decide +kernel
  bounds := by decide +kernel
  unmarked := by decide +kernel
  apart := by decide +kernel
  plain := Xml.plain_of_all (by decide +kernel)
  noReturn := by decide +kernel
  valid := by decide +kernel
  tight := by decide +kernel

set_option maxRecDepth 2000 in
def delegateAuthParts : List Part :=
  [{ name := "$authToken".toList
     markup := Xml.spelled (String.toList_ofList :
      "</authToken><nosession/><userAgent name=\"zclient\" version=\"7.1.4_GA_2555\"/></context></soap:Header><soap:Body><DelegateAuthRequest duration=\"86400\" xmlns=\"urn:zimbraAdmin\"><account by=\"id\">".toList = _)
     tokens := behindToken "zclient" "7.1.4_GA_2555" ++
      [start "DelegateAuthRequest" [("duration", "86400"), ("xmlns", "urn:zimbraAdmin")],
        start "account" [("by", "id")]] },
   { name := "$account".toList
     markup := Xml.spelled (String.toList_ofList :
      "</account></DelegateAuthRequest></soap:Body></soap:Envelope>".toList = _)
     tokens :=
       [stop "account", stop "DelegateAuthRequest", stop "soap:Body", stop "soap:Envelope"] }]

def delegateAuthForm : Xml.Form where
  mark := '$'
  declaration := declaration
  front := front
  opening := opening
  stack := opened
  parts := delegateAuthParts
  declared _ := rfl
  opens := by decide +kernel
  continues := Xml.continues_of_continuing _ _ (by decide +kernel)
  tagged := by decide +kernel
  named := by decide +kernel
  bounds := by decide +kernel
  unmarked := by decide +kernel
  apart := by decide +kernel
  plain := Xml.plain_of_all (by decide +kernel)
  noReturn := by decide +kernel
  valid := by decide +kernel
  tight := by decide +kernel

section

set_option maxRecDepth 10000

theorem modifyAccountText_eq : modifyAccountText.toList = modifyAccountForm.text := by
  have spelled : modifyAccountText.toList = _ := String.toList_ofList
  rw [spelled]
  decide +kernel

theorem setPasswordText_eq : setPasswordText.toList = setPasswordForm.text := by
  have spelled : setPasswordText.toList = _ := String.toList_ofList
  rw [spelled]
  decide +kernel

theorem delegateAuthText_eq : delegateAuthText.toList = delegateAuthForm.text := by
  have spelled : delegateAuthText.toList = _ := String.toList_ofList
  rw [spelled]
  decide +kernel

end

/-! ### The envelopes -/

/-- The names of the fields are those of the parts. -/
theorem ascii_name (form : Xml.Form) (low : ∀ part ∈ form.parts, part.name.all isAscii = true)
    {values : List (List Char)} (same : values.length = form.parts.length) (f : Template.Field Char)
    (member : f ∈ form.fields values) : f.1.all isAscii = true := by
  have among : f.1 ∈ Xml.names form.parts :=
    @Xml.Form.map_fst_fields form _ same ▸ List.mem_map_of_mem member
  obtain ⟨part, isPart, name⟩ := List.mem_map.mp among
  rw [← name]
  exact low part isPart

/-- A filled template that is ASCII is read as it is meant to be if and only if the arguments keep
apart. -/
theorem reads_iff (form : Xml.Form) (text : String) (whole : text.toList = form.text)
    (low : form.text.all isAscii = true)
    (lowNames : ∀ part ∈ form.parts, part.name.all isAscii = true) (values : List Xml.Chars)
    (same : values.length = form.parts.length) :
    Reads (Template.fill (ascii text)
        ((form.fields (values.map Xml.Chars.chars)).map fun f => (utf8 f.1, utf8 f.2)))
      (form.document (values.map Xml.Chars.chars)) ↔
      Apart (form.fields (values.map Xml.Chars.chars)) := by
  have sameChars : (values.map Xml.Chars.chars).length = form.parts.length := by
    rw [List.length_map, same]
  have valid : ∀ value ∈ values.map Xml.Chars.chars, ∀ c ∈ value, Xml.isChar c = true := by
    intro value among
    obtain ⟨argument, -, rfl⟩ := List.mem_map.mp among
    exact argument.valid
  have named : ∀ f ∈ form.fields (values.map Xml.Chars.chars), f.1 ≠ [] ∧
      ∀ c ∈ f.1, isAscii c = true :=
    fun f member => ⟨(Xml.Form.distinct_fields sameChars).some_ f member,
      List.all_eq_true.mp (ascii_name form lowNames sameChars f member)⟩
  rw [← utf8_toList text (by rw [whole]; exact low), whole, fill_utf8 _ _ named]
  -- different characters have different bytes
  have read : Reads ((Template.fill form.text (form.fields (values.map Xml.Chars.chars))).map utf8)
      (form.document (values.map Xml.Chars.chars)) ↔
      ∃ text, Template.fill form.text (form.fields (values.map Xml.Chars.chars)) = some text ∧
        Xml.document text = some (form.document (values.map Xml.Chars.chars)) := by
    constructor
    · rintro ⟨chars, filled, document⟩
      obtain ⟨text, done, bytes⟩ := Option.map_eq_some_iff.mp filled
      obtain rfl := utf8_injective bytes
      exact ⟨text, done, document⟩
    · rintro ⟨text, done, document⟩
      exact ⟨text, by rw [done, Option.map_some], document⟩
  rw [read, Xml.Form.document_iff sameChars valid]
  constructor
  · rintro ⟨plain, pairs⟩
    refine ⟨fun f member => plain f.2 ?_, pairs⟩
    exact @Xml.Form.map_snd_fields form _ sameChars ▸ List.mem_map_of_mem member
  · rintro ⟨plain, pairs⟩
    refine ⟨fun value among => ?_, pairs⟩
    rw [← @Xml.Form.map_snd_fields form _ sameChars] at among
    obtain ⟨f, member, rfl⟩ := List.mem_map.mp among
    exact plain f member

/-- The arguments by their names, in the order in which they are put in. -/
theorem arguments_reads_iff (form : Xml.Form) (text : String) (whole : text.toList = form.text)
    (low : form.text.all isAscii = true)
    (lowNames : ∀ part ∈ form.parts, part.name.all isAscii = true)
    (arguments : List (String × Xml.Chars)) (same : arguments.length = form.parts.length)
    (fields : form.fields (arguments.map fun argument => argument.2.chars) =
      arguments.map fun argument => (argument.1.toList, argument.2.chars)) :
    Reads (Template.fill (ascii text)
      (arguments.map fun argument => (ascii argument.1, utf8 argument.2.chars)))
      (form.document (arguments.map fun argument => argument.2.chars)) ↔
    Apart (arguments.map fun argument => (argument.1.toList, argument.2.chars)) := by
  have read :=
    reads_iff form text whole low lowNames (arguments.map Prod.snd) (by rw [List.length_map, same])
  rw [List.map_map,
    show Xml.Chars.chars ∘ Prod.snd =
      fun argument : String × Xml.Chars => argument.2.chars from rfl,
    fields, List.map_map] at read
  have bytes : arguments.map (fun argument => (ascii argument.1, utf8 argument.2.chars)) =
      arguments.map ((fun f : Template.Field Char => (utf8 f.1, utf8 f.2)) ∘
        fun argument => (argument.1.toList, argument.2.chars)) := by
    refine List.map_congr_left fun argument member => ?_
    have name := ascii_name form lowNames (by rw [List.length_map, same]) _
      (fields ▸ List.mem_map_of_mem member)
    rw [Function.comp_apply, utf8_toList argument.1 name]
  rw [bytes]
  exact read

theorem getModifyAccountRequest_reads
    (authtoken zimbraId userPassword password includeSpam : Xml.Chars) :
    Reads (getModifyAccountRequest (utf8 authtoken.chars) (utf8 zimbraId.chars)
      (utf8 userPassword.chars)
        (utf8 password.chars) (utf8 includeSpam.chars))
      (modifyAccountDocument authtoken.chars zimbraId.chars userPassword.chars password.chars
      includeSpam.chars) ↔
    Apart [("$authToken".toList, authtoken.chars), ("$zimbra_id".toList, zimbraId.chars),
      ("$user_password".toList, userPassword.chars), ("$password".toList, password.chars),
      ("$include_spam".toList, includeSpam.chars)] := by
  have read :=
    arguments_reads_iff modifyAccountForm modifyAccountText modifyAccountText_eq (by decide +kernel)
    (by decide +kernel) [("$authToken", authtoken), ("$zimbra_id", zimbraId),
      ("$user_password", userPassword),
      ("$password", password), ("$include_spam", includeSpam)] rfl rfl
  have document : modifyAccountForm.document
      [authtoken.chars, zimbraId.chars, userPassword.chars, password.chars, includeSpam.chars] =
      modifyAccountDocument authtoken.chars zimbraId.chars userPassword.chars password.chars
        includeSpam.chars := by
    -- the parts of the form in a row are the document
    simp only [modifyAccountDocument, List.append_assoc]
    rfl
  simp only [List.map_cons, List.map_nil, document, Template.fill, List.foldlM_cons,
    List.foldlM_nil, bind_pure] at read
  exact read

theorem getSetPasswordRequest_reads (authtoken zimbraId password : Xml.Chars) :
    Reads (getSetPasswordRequest (utf8 authtoken.chars) (utf8 zimbraId.chars) (utf8 password.chars))
      (setPasswordDocument authtoken.chars zimbraId.chars password.chars) ↔
    Apart [("$authtoken".toList, authtoken.chars), ("$zimbra_id".toList, zimbraId.chars),
      ("$password".toList, password.chars)] := by
  have read :=
    arguments_reads_iff setPasswordForm setPasswordText setPasswordText_eq (by decide +kernel)
    (by decide +kernel) [("$authtoken", authtoken), ("$zimbra_id", zimbraId),
      ("$password", password)] rfl rfl
  have document : setPasswordForm.document [authtoken.chars, zimbraId.chars, password.chars] =
      setPasswordDocument authtoken.chars zimbraId.chars password.chars := by
    simp only [setPasswordDocument, List.append_assoc]
    rfl
  simp only [List.map_cons, List.map_nil, document, Template.fill, List.foldlM_cons,
    List.foldlM_nil, bind_pure] at read
  exact read

theorem getDelegateAuthRequest_reads (authtoken account : Xml.Chars) :
    Reads (getDelegateAuthRequest (utf8 authtoken.chars) (utf8 account.chars))
      (delegateAuthDocument authtoken.chars account.chars) ↔
    Apart [("$authToken".toList, authtoken.chars), ("$account".toList, account.chars)] := by
  have read :=
    arguments_reads_iff delegateAuthForm delegateAuthText delegateAuthText_eq (by decide +kernel)
    (by decide +kernel) [("$authToken", authtoken), ("$account", account)] rfl rfl
  have document : delegateAuthForm.document [authtoken.chars, account.chars] =
      delegateAuthDocument authtoken.chars account.chars := by
    simp only [delegateAuthDocument, List.append_assoc]
    rfl
  simp only [List.map_cons, List.map_nil, document, Template.fill, List.foldlM_cons,
    List.foldlM_nil, bind_pure] at read
  exact read

/-- Each of the three envelopes is a document with the arguments as the texts of their elements if
and only if no argument has markup in it, or the name of a later argument. -/
theorem envelopes_iff (authtoken zimbraId userPassword password includeSpam account : Xml.Chars) :
    (Reads (getModifyAccountRequest (utf8 authtoken.chars) (utf8 zimbraId.chars)
      (utf8 userPassword.chars)
          (utf8 password.chars) (utf8 includeSpam.chars))
        (modifyAccountDocument authtoken.chars zimbraId.chars userPassword.chars password.chars
          includeSpam.chars) ↔
      Apart [("$authToken".toList, authtoken.chars), ("$zimbra_id".toList, zimbraId.chars),
        ("$user_password".toList, userPassword.chars), ("$password".toList, password.chars),
        ("$include_spam".toList, includeSpam.chars)]) ∧
    (Reads (getSetPasswordRequest (utf8 authtoken.chars) (utf8 zimbraId.chars)
      (utf8 password.chars))
        (setPasswordDocument authtoken.chars zimbraId.chars password.chars) ↔
      Apart [("$authtoken".toList, authtoken.chars), ("$zimbra_id".toList, zimbraId.chars),
        ("$password".toList, password.chars)]) ∧
    (Reads (getDelegateAuthRequest (utf8 authtoken.chars) (utf8 account.chars))
        (delegateAuthDocument authtoken.chars account.chars) ↔
      Apart [("$authToken".toList, authtoken.chars), ("$account".toList, account.chars)]) :=
  ⟨getModifyAccountRequest_reads authtoken zimbraId userPassword password includeSpam,
    getSetPasswordRequest_reads authtoken zimbraId password,
    getDelegateAuthRequest_reads authtoken account⟩

/-- A password with an ampersand makes the envelope ill-formed. -/
theorem ampersand_in_password :
    ¬ Reads (getSetPasswordRequest (ascii "token") (ascii "id") (ascii "a&b"))
      (setPasswordDocument "token".toList "id".toList "a&b".toList) := by
  have read := getSetPasswordRequest_reads ⟨"token".toList, List.all_eq_true.mp (by decide)⟩
    ⟨"id".toList, List.all_eq_true.mp (by decide)⟩ ⟨"a&b".toList, List.all_eq_true.mp (by decide)⟩
  rw [utf8_toList "token" (by decide), utf8_toList "id" (by decide), utf8_toList "a&b" (by decide)]
    at read
  rw [read]
  intro apart
  exact absurd rfl ((apart.plain ("$password".toList, "a&b".toList) (by simp)).chars '&'
    (by decide)).2.1

end Zn.NetworkReqGenerator
