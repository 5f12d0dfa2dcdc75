import MyStudy.Apue.DbStops
import MyStudy.Lib.FileService

/-!
# Processes on one database

Any number of processes call the library, and their operations on the files come in any order. Every
call takes effect when it unlocks its chain: what they all return is what a map would have returned
that had served the calls in that order.
-/
namespace Apue

open FileProgram Linearizability Separation

/-! ### The calls as a service -/

/-- Strings do not hold their terminator. -/
def Call.Text (c : Call) : Prop := 0 ∉ c.key ∧ ∀ data ∈ c.stored, 0 ∉ data

instance (c : Call) : Decidable c.Text := inferInstanceAs (Decidable (_ ∧ _))

abbrev TextCall := { c : Call // c.Text }

/-- What a part that is not locked contains when the database is this map. -/
def Shows : (part : Part) → part.Content → Mapping → Prop
  | .chain b, rs, d => Part.Fine (.chain b) rs ∧ ∀ key, bucket key = b → lookup rs key = d key
  | .free, rs, _ => Part.Fine .free rs
  | .idxEnd, n, _ => Part.Fine .idxEnd n
  | .datEnd, n, _ => Part.Fine .datEnd n

/-- What a call may leave in a part when its chain was `rs`. -/
def Call.MayLeave (c : Call) (rs : List Rec) : (part : Part) → part.Content → Prop
  | .chain b, ys => b = bucket c.key ∧ Part.Fine (.chain b) ys ∧ lookup ys = (c.onMap (lookup rs)).2
  | .free, frees => Part.Fine .free frees
  | .idxEnd, n => Part.Fine .idxEnd n
  | .datEnd, n => Part.Fine .datEnd n

/-- The mode of a process among others. -/
def sharedMode (c : Call) (rs : List Rec) : Mode parts :=
  ⟨false, false, decide (c.kind = .write), fun part => ∀ b, part ≠ .chain b, c.MayLeave rs⟩

theorem shows_fine {part : Part} {x : part.Content} {d : Mapping} (shows_ : Shows part x d) :
    part.Fine x := by
  cases part with
  | chain b => exact shows_.1
  | free | idxEnd | datEnd => exact shows_

theorem shows_other {c : Call} {part : Part} {x : part.Content} {d : Mapping}
    (other : part ≠ c.chain) (shows_ : Shows part x d) : Shows part x (c.onMap d).2 := by
  cases part with
  | chain b =>
    refine ⟨shows_.1, fun key here => ?_⟩
    rw [shows_.2 key here, onMap_other]
    rintro rfl
    exact other (congrArg Part.chain here.symm)
  | free | idxEnd | datEnd => exact shows_

theorem shows_left {c : Call} {rs ys : List Rec} {d : Mapping} (shows_ : Shows c.chain rs d)
    (left : c.MayLeave rs c.chain ys) : Shows c.chain ys (c.onMap d).2 := by
  obtain ⟨-, fine, same⟩ := left
  refine ⟨fine, fun key here => ?_⟩
  rw [same]
  by_cases its : key = c.key
  · subst its
    rw [onMap_self, onMap_self, shows_.2 c.key rfl]
  · rw [onMap_other c _ key its, onMap_other c _ key its, shows_.2 key here]

theorem shows_part {c : Call} {rs : List Rec} {part : Part} {y : part.Content}
    (other : part ≠ c.chain) (left : c.MayLeave rs part y) (d : Mapping) : Shows part y d := by
  cases part with
  | chain b => exact absurd (congrArg Part.chain left.1) other
  | free | idxEnd | datEnd => exact left

theorem onMap_read (c : Call) (d : Mapping) (reads : c.kind = .read) : (c.onMap d).2 = d := by
  cases c with
  | fetch key => exact Function.update_eq_self key d
  | delete key => cases reads
  | store key data flag => cases reads

theorem onMap_reply {c : Call} {rs : List Rec} {d : Mapping} (shows_ : Shows c.chain rs d) :
    (c.onMap d).1 = c.reply rs := by
  rw [reply_eq, shows_.2 c.key rfl]
  rfl

/-- A store of data with a length that the library does not take. -/
theorem store_invalid {key data : Bytes} {flag : Flag} (db : DB)
    (text : (Call.store key data flag).Text) (invalid : ¬ Storable key data) :
    (Call.store key data flag).run db = .stop (.errDump "db_store: invalid data length") := by
  have bad : data.length + 1 < datlenMin ∨ data.length + 1 > datlenMax := by
    by_contra fits
    refine invalid ⟨text.1, text.2 data rfl, ?_, by omega⟩
    rintro rfl
    exact fits (.inl (by decide))
  rw [Call.run, bind_apply, dbStore, if_pos bad]
  rfl

/-- What is known of the parts among other processes. -/
def fineParts : Know parts := fun part x => part.Fine x

theorem shared_body (c : Call) (rs : List Rec) (db : DB) (valid : c.Valid)
    (fine : Part.Fine (.chain (bucket c.key)) rs) :
    ∃ next, c.run db = .op (.lock c.chain.range c.kind) next ∧
      Triple (sharedMode c rs) fineParts [c.chain] (c.chain.holds rs) (next ()) fun a _ L _ =>
        a.1 = c.reply rs ∧ L = [] := by
  have serving (writes : c.kind = .write) : Serving (sharedMode c rs) := by
    refine ⟨decide_eq_true writes, fun _ other => other, fun part other x fine => ?_⟩
    cases part with
    | chain b => exact absurd rfl (other b)
    | free | idxEnd | datEnd => exact fine
  have begins : Begins (sharedMode c rs) c rs fineParts := by
    refine ⟨fine, fun _ _ fine => fine, fun s sane same fine' => ⟨rfl, fine', ?_⟩, nofun⟩
    rw [lookup_effect c s sane, same]
  obtain ⟨next, steps, does⟩ := call_body c rs fineParts db valid serving begins
  exact ⟨next, steps, does.mono fun _ _ _ _ ends => ⟨ends.1, ends.2.1⟩⟩

theorem call_begins (c : TextCall) (db : DB) : (∃ why, c.1.run db = .stop why) ∨
    ∃ next, c.1.run db = .op (.lock c.1.chain.range c.1.kind) next ∧ ∀ rs d, Shows c.1.chain rs d →
      Triple (sharedMode c.1 rs) fineParts [c.1.chain] (c.1.chain.holds rs) (next ()) fun a _ L _ =>
        a.1 = c.1.reply rs ∧ L = [] := by
  by_cases valid : c.1.Valid
  · right
    obtain ⟨next, steps, -⟩ := shared_body c.1 [] db valid ⟨by simp, List.nodup_nil⟩
    refine ⟨next, steps, fun rs d shows_ => ?_⟩
    obtain ⟨next', steps', does⟩ := shared_body c.1 rs db valid shows_.1
    rw [steps] at steps'
    cases steps'
    exact does
  · left
    obtain ⟨c, text⟩ := c
    cases c with
    | fetch key => exact absurd trivial valid
    | delete key => exact absurd trivial valid
    | store key data flag => exact ⟨_, store_invalid db text valid⟩

/-- The library. -/
def dbService : Service parts Stop TextCall Reply Mapping DB where
  apply c := c.1.onMap
  body c := c.1.run
  main c := c.1.chain
  kind c := c.1.kind
  rel := Shows
  know := fineParts
  mode c := sharedMode c.1
  answer c := c.1.reply
  known _ _ _ := shows_fine
  answers _ _ _ := onMap_reply
  reads c := onMap_read c.1
  shared _ _ := rfl
  quiet _ _ reads := decide_eq_false (by simp [reads])
  others _ _ _ lockable := lockable _
  frame _ _ _ _ := shows_other
  leaves _ _ _ _ _ := shows_left
  passes _ _ _ _ d other left := shows_part other left d
  begins := call_begins

/-! ### Runs -/

/-- Processes that have opened the database. -/
def opened {Pid : Type} (files : Files DbFile) (db : Pid → DB) : Machine DbFile Stop Pid Reply DB :=
  .unlocked files fun p => .idle (db p)

section Runs

variable {Pid : Type} [DecidableEq Pid]

/-- What the processes of a machine see, as long as none of them has ended inside of a call. -/
theorem calls_linearizable {files : Files DbFile} {s : Contents} (holds : Holds files s)
    (fine : s.Fine) (db : Pid → DB) {g : Machine DbFile Stop Pid Reply DB}
    {h : History Pid TextCall Reply}
    (run : Machine.Run (fun c : TextCall => c.1.run) (opened files db) g h)
    (alive : ∀ p why, g.tasks p ≠ .stopped why) :
    Linearizable h (fun c : TextCall => c.1.onMap) s.map := by
  obtain ⟨own, here⟩ := holds
  -- the parts of the files as parts among these processes
  let owner : Owner Unit Part → Owner Pid Part
    | .res part => .res part
    | _ => .nobody
  have owner_res (o : Owner Unit Part) (part : Part) : owner o = .res part ↔ o = .res part := by
    cases o <;> simp [owner]
  have starts : dbService.Starts (opened files db) s.map := by
    refine ⟨⟨fun x => owner (own x), fun p => ?_, fun part => ⟨s part, ?_, ?_⟩⟩, fun p => rfl,
      fun p => ⟨db p, rfl⟩⟩
    · funext x
      refine share_eq_none.mpr ?_
      cases own x <;> simp [owner]
    · have fine' := fine part
      cases part with
      | chain b =>
        refine ⟨fine', fun key here => ?_⟩
        rw [Contents.map, here]
      | free | idxEnd | datEnd => exact fine'
    · have same : share (fun x => owner (own x)) files (.res part) =
          share own files (.res part) := by
        funext x
        rw [share, share]
        exact if_congr (owner_res _ _) rfl rfl
      change part.holds (s part) (share (fun x => owner (own x)) files (.res part))
      rw [same]
      exact here part
  exact starts.linearizable run alive

/-- A call goes on to its end while the other processes wait. -/
theorem call_completes {files : Files DbFile} {tasks : Pid → Task DbFile Stop Reply DB}
    {g : Machine DbFile Stop Pid Reply DB} {h : History Pid TextCall Reply}
    (run : Machine.Run (fun c : TextCall => c.1.run) g (.unlocked files tasks) h) (p : Pid)
    (c : TextCall) {d : DB} (task : tasks p = .running (c.1.run d)) {s : Contents}
    (holds : Holds files s) (valid : c.1.Valid) (fine : s.Fine) (fits : c.1.Fits s) :
    ∃ d' files', Machine.Run (fun c : TextCall => c.1.run) g
      (.unlocked files' (Function.update tasks p (.idle d')))
      (h ++ [.reply p (c.1.reply (s (.chain (bucket c.1.key))))]) ∧
      Holds files' (c.1.effect s) := by
  obtain ⟨d', files', runs, released, holds'⟩ := call_run c.1 s files d valid fine fits holds
  exact ⟨d', files', run.complete p task runs released, holds'⟩

end Runs

/-- A fetch that begins before a store is done. -/
theorem calls_linearizable_overlapping :
    ∃ (g : Machine DbFile Stop (Bool) Reply DB) (h : History (Bool) TextCall Reply),
      h = [.call false ⟨.store [107] [97] .insert, by decide⟩, .call true ⟨.fetch [107], by decide⟩,
      .reply false (.code 0),
        .reply true (.data (some [97]))] ∧
      Machine.Run (fun c : TextCall => c.1.run) (opened freshFiles fun _ => DB.alloc) g h ∧
      Linearizable h (fun c : TextCall => c.1.onMap) fun _ => none := by
  have proper : (Call.store [107] [97] .insert).Proper := by decide
  have roomy : (Call.store [107] [97] .insert).Roomy Contents.empty := by decide
  have sane := Contents.empty_sane.effect proper roomy
  have opens : Machine.Run (fun c : TextCall => c.1.run)
    (opened freshFiles fun _ : Bool => DB.alloc)
      (opened freshFiles fun _ => DB.alloc) [] := .start
  have both :=
    (opens.begin false ⟨.store [107] [97] .insert, by decide⟩ (d := DB.alloc) rfl).begin true
    ⟨.fetch [107], by decide⟩ (d := DB.alloc) rfl
  obtain ⟨d0, files0, first, holds0⟩ :=
    call_completes both false ⟨.store [107] [97] .insert, by decide⟩
    (d := DB.alloc) rfl freshFiles_holds proper.valid Contents.empty_sane.fine
    (Contents.empty_sane.fits proper roomy)
  obtain ⟨d1, files1, second, -⟩ :=
    call_completes first true ⟨.fetch [107], by decide⟩ (d := DB.alloc) rfl
    holds0 trivial sane.fine (sane.fits (by decide) (by decide))
  refine ⟨_, _, ?_, second, ?_⟩
  · decide
  · refine calls_linearizable freshFiles_holds Contents.empty_sane.fine _ second
      fun p why stopped => ?_
    cases p <;> cases stopped

/-! ### A process that ends inside of a call -/

/-- A key that the index can hold with data of one digit in length. -/
@[irreducible] def longKey : Bytes := List.replicate 1019 107

theorem longKey_length : longKey.length = 1019 := by rw [longKey, List.length_replicate]

theorem longKey_all : ∀ c ∈ longKey, c = 107 := by
  rw [longKey]
  exact fun c member => (List.mem_replicate.mp member).2

theorem longKey_text : (0 : UInt8) ∉ longKey :=
  fun member => absurd (longKey_all 0 member) (by decide)

def storeShort : TextCall :=
  ⟨.store longKey [97] .store, longKey_text, fun _ same => by cases same; decide⟩

def storeLonger : TextCall :=
  ⟨.store longKey (List.replicate 9 97) .store, longKey_text, fun _ same => by cases same; decide⟩

def fetchLong : TextCall := ⟨.fetch longKey, longKey_text, nofun⟩

/-- A key is stored; to store it again deletes it, and ends the process; another one does not find
it. -/
def lostHistory : History Bool TextCall Reply :=
  [.call false storeShort, .reply false (.code 0), .call false storeLonger, .call true fetchLong,
    .reply true (.data none)]

/-- Stores of a key leave it in the map. -/
theorem stored_of_stores (calls : List TextCall) (d : Mapping)
    (stores : ∀ c ∈ calls, ∃ data, c.1 = .store longKey data .store)
    (some_ : calls = [] → d longKey ≠ none) :
    calls.foldl (fun d (c : TextCall) => (c.1.onMap d).2) d longKey ≠ none := by
  induction calls generalizing d with
  | nil => exact some_ rfl
  | cons c calls ih =>
    obtain ⟨⟨data, same⟩, later⟩ := List.forall_mem_cons.mp stores
    refine ih (c.1.onMap d).2 later fun _ => ?_
    rw [same]
    change (Call.onMap (.store longKey data .store) d).2
      (Call.key (.store longKey data .store)) ≠ none
    rw [onMap_self]
    simp [Call.onKey]

theorem lostHistory_not_linearizable :
    ¬ Linearizable lostHistory (fun c : TextCall => c.1.onMap) fun _ => none := by
  rintro ⟨order, linear⟩
  have first : Answered lostHistory 0 1 (.code 0) :=
    ⟨false, storeShort, rfl, by omega, rfl, fun k e behind front => by omega⟩
  have last : Answered lostHistory 3 4 (.data none) :=
    ⟨true, fetchLong, rfl, by omega, rfl, fun k e behind front => by omega⟩
  have member := linear.complete 3 4 _ last
  have before := linear.realTime 0 1 _ first 3 member (by omega)
  obtain ⟨pre, post, parts_⟩ := List.append_of_mem member
  have once := linear.once
  rw [parts_, List.nodup_middle, List.nodup_cons, List.mem_append, not_or] at once
  rw [parts_] at before
  -- the first store is before the fetch
  have stored : 0 ∈ pre := by
    obtain ⟨front, back, split, inPre, inPost⟩ := List.sublist_append_iff.mp before
    rcases List.cons_eq_append_iff.mp split with ⟨rfl, rfl⟩ | ⟨front', rfl, -⟩
    · rcases List.sublist_cons_iff.mp inPost with there | ⟨_, same, -⟩
      · exact absurd (there.subset (by simp)) once.1.2
      · cases same
    · exact inPre.subset (by simp)
  have replied := linear.replies 3 4 _ last fetchLong rfl pre post parts_
  have found : (served lostHistory (fun c : TextCall => c.1.onMap) (fun _ => none) pre)
      longKey ≠ none := by
    refine stored_of_stores _ _ (fun c among => ?_) fun nothing => ?_
    · obtain ⟨i, member, call⟩ := List.mem_filterMap.mp among
      have other : i ≠ 3 := fun same => once.1.1 (same ▸ member)
      have inside : i < 5 := lt_of_callAt (Option.isSome_iff_exists.mpr ⟨c, call⟩)
      interval_cases i
      · exact ⟨_, congrArg Subtype.val (Option.some.inj call).symm⟩
      · cases call
      · exact ⟨_, congrArg Subtype.val (Option.some.inj call).symm⟩
      · exact absurd rfl other
      · cases call
    · have empty := List.filterMap_eq_nil_iff.mp nothing 0 stored
      cases empty
  exact found (Reply.data.inj replied)

theorem longRecord_text : (Rec.mk recordsOff longKey 0 [97]).text.length = idxlenMax := by
  rw [Rec.length_text, longKey_length]
  decide

theorem storeShort_proper : storeShort.1.Proper :=
  ⟨List.ne_nil_of_length_pos
    (by rw [show storeShort.1.key = longKey from rfl, longKey_length]; decide),
    longKey_text, fun member => absurd (longKey_all sep member) (by decide),
    fun _ same => by cases same; exact ⟨longKey_text, by decide, by decide, by decide⟩⟩

/-- What a call returns is not always what a map would return: a process may end in the middle of
it. -/
theorem stopped_not_linearizable : ∃ g : Machine DbFile Stop Bool Reply DB,
    Machine.Run (fun c : TextCall => c.1.run) (opened freshFiles fun _ => DB.alloc) g lostHistory ∧
      ¬ Linearizable lostHistory (fun c : TextCall => c.1.onMap) fun _ => none := by
  have fresh : storeShort.1.appended Contents.empty = some (Rec.mk recordsOff longKey 0 [97]) := rfl
  have roomy : storeShort.1.Roomy Contents.empty := by
    intro r appended
    rw [fresh] at appended
    obtain rfl := Option.mem_some_iff.mp appended
    exact ⟨longRecord_text.le, by decide⟩
  have sane := Contents.empty_sane.effect storeShort_proper roomy
  have chain : storeShort.1.effect Contents.empty (.chain (bucket longKey)) =
      [Rec.mk recordsOff longKey 0 [97]] := by
    have effect : storeShort.1.effect Contents.empty = Contents.empty.append longKey [97] [] := rfl
    rw [effect, append_chain]
    rfl
  have opens : Machine.Run (fun c : TextCall => c.1.run)
    (opened freshFiles fun _ : Bool => DB.alloc)
      (opened freshFiles fun _ => DB.alloc) [] := .start
  -- the first store
  obtain ⟨d0, files0, first, holds0⟩ :=
    call_completes (opens.begin false storeShort (d := DB.alloc) rfl) false
    storeShort (d := DB.alloc) rfl freshFiles_holds storeShort_proper.valid Contents.empty_sane.fine
    (Contents.empty_sane.fits storeShort_proper roomy)
  -- the second one
  have storable : Storable longKey (List.replicate 9 97) :=
    ⟨longKey_text, by decide, by decide, by decide⟩
  have cut : cutAt (hasKey longKey) (storeShort.1.effect Contents.empty (.chain (bucket longKey))) =
      some ([], Rec.mk recordsOff longKey 0 [97], []) := by
    rw [chain]
    exact if_pos (hasKey_iff.mpr rfl)
  have sound : (Rec.mk recordsOff longKey 0 [97]).Sound :=
    ((sane.fine (.chain (bucket longKey))).1 _ (by rw [chain]; simp)).1
  have long : idxlenMax < (Rec.mk 0 longKey 2 (List.replicate 9 97)).text.length := by
    rw [Rec.length_text, longKey_length]
    decide
  obtain ⟨why, files1, dies, -, holds1⟩ := (store_found holds0 sane.fine (sane.readable _) storable
    (show Flag.store ≠ .insert by decide) cut (by decide) d0).long (by simp) (n :=
      2) rfl (by decide) long
  have second := (first.begin false storeLonger (d := d0) rfl).die false rfl dies
  have fine := ((sane.fine.release sound).update .datEnd (12 : Nat) trivial).update
    (.chain (bucket longKey)) []
    ⟨by simp, List.nodup_nil⟩
  -- the fetch
  have readable (r : Rec) (member : r ∈ (Contents.put (Function.update
      ((storeShort.1.effect Contents.empty).release ⟨recordsOff, longKey, 0, [97]⟩)
      .datEnd (12 : Nat))
      (bucket longKey) []) (.chain (bucket longKey))) : r.Readable := by
    rw [put_chain] at member
    cases member
  obtain ⟨d2, files2, third, -⟩ :=
    call_completes (second.begin true fetchLong (d := DB.alloc) rfl) true fetchLong
    (d := DB.alloc) rfl holds1 trivial fine ⟨readable, nofun⟩
  change Machine.Run _ _ _
    (_ ++ [.reply true (fetchLong.1.reply (Contents.put _ (bucket longKey) [] (.chain
    (bucket longKey))))]) at third
  rw [put_chain] at third
  exact ⟨_, third, lostHistory_not_linearizable⟩

end Apue
