import MyStudy.Apue.DbScan
import MyStudy.Apue.DbStops

/-!
# Records that no pointer can reach

An index file may grow beyond what a pointer can hold. A store that appends a record there ends its
process with the record in both files, and in no list: what a fetch and a scan find of the key then.
-/
namespace Apue

open FileProgram Separation

variable {files : Files DbFile} {s : Contents} {key data : Bytes} {flag : Flag}

/-! ### What is left in the files -/

/-- The key is in no chain, and a record of it is at the ends of the files. -/
def Contents.strand (s : Contents) (key data : Bytes) : Contents :=
  Function.update (Function.update ((Call.delete key).effect s) .datEnd
    (s .datEnd + (data.length + 1))) .idxEnd
    (s .idxEnd + (s.fresh key data).size)

theorem strand_chain (s : Contents) (key data : Bytes) (b : Fin nhashDef) :
    s.strand key data (.chain b) = (Call.delete key).effect s (.chain b) := by
  rw [Contents.strand, Function.update_of_ne (by simp), Function.update_of_ne (by simp)]

theorem strand_free (s : Contents) (key data : Bytes) :
    s.strand key data .free = (Call.delete key).effect s .free := by
  rw [Contents.strand, Function.update_of_ne (by simp), Function.update_of_ne (by simp)]

/-- The pointer that is too large ends the process. -/
theorem dbWriteptr_quits {α : Type} (offset : Int) {n : Nat} (far : ptrMax < n)
    (k : PUnit → DbM α) (db : DB) :
    (dbWriteptr offset n >>= k) db = .stop (.errQuit "_db_writeptr: invalid ptr: %d" n) := by
  rw [dbWriteptr, if_pos (.inr (by omega))]
  rfl

theorem length_line_legible (r : Rec) (n : Nat) (legible : r.Legible) (fits : n ≤ ptrMax) :
    (r.line n).length = r.size := by
  obtain ⟨off, sound⟩ := legible.elsewhere
  exact length_line { r with off } n sound fits

/-- The process ends after it has written the record, and its chain is without it. -/
theorem Appends.far {rs : List Rec} {prog : DbProg (Reply × DB)}
    (appends : Appends prog files key data s rs) (sound : ∀ r ∈ rs, r.Sound) {n o : Nat}
    (idxEnd : s .idxEnd = n) (datEnd : s .datEnd = o) (legible : (Rec.mk n key o data).Legible)
    (readable : sep ∉ key) (start : recordsOff ≤ n) (far : ptrMax < n) :
    ∃ files', prog.run files = (.error (.errQuit "_db_writeptr: invalid ptr: %d" n), files') ∧
      Holds files' (Contents.put
      (Function.update (Function.update s .datEnd (o + (data.length + 1) : Nat)) .idxEnd
        (n + (Rec.mk n key o data).size : Nat)) (bucket key) rs) ∧
        (Rec.mk n key o data).InFiles files' := by
  obtain ⟨k, db, files1, runs, -, alone⟩ := appends.comes
  have ptrNear := headOff_le rs sound
  obtain ⟨off, elsewhere⟩ := legible.elsewhere
  obtain ⟨_, db2, files2, _, _, runs2, once, own, kept, o', known, -, datoff2, datlen2, -, rfl,
      rfl, owned⟩ :=
    run_taking alone (dbWritedat_end soleMode_serving db data (by simp) fun _ o' known => by
      rw [show o' = o from known.trans datEnd]
      exact elsewhere.datoff_lt)
  obtain rfl : o' = o := known.trans datEnd
  rw [learn_exactly soleMode rfl] at kept
  have alone2 : Alone () files2 _ [Part.chain (bucket key)] _ := ⟨once, own, kept, owned⟩
  -- the index record
  have unlearnt (n' : Nat) (known : Know.exactly (P := parts) (Function.update s .datEnd
      (o' + (data.length + 1) : Nat)) .idxEnd n') : n' = n := by
    rw [← idxEnd, show n' = _ from known, Function.update_of_ne (by simp)]
  obtain ⟨_, db3, files3, _, _, runs3, once3, own3, kept3, n', known3, -, -, idxoff3, -, rfl,
      rfl, owned3⟩ :=
    run_taking alone2 (dbWriteidx_end soleMode_serving db2 (Rec.mk n key o' data) (headOff rs)
      ptrNear datoff2 datlen2
      (by simp) (fun n' known => (unlearnt n' known).symm ▸ start)
      fun _ => ⟨elsewhere.text_ge, elsewhere.text_le,
        fun n' known => (unlearnt n' known).symm ▸ legible.off_lt⟩)
  obtain rfl := unlearnt n' known3
  dsimp only at idxoff3
  rw [learn_exactly soleMode rfl, length_line_legible _ _ legible ptrNear] at kept3
  have alone3 : Alone () files3 _ [Part.chain (bucket key)] _ := ⟨once3, own3, kept3, owned3⟩
  refine ⟨files3, ?_, ?_, ?_⟩
  · rw [runs, bind_run runs2, bind_run runs3, get_bind, idxoff3, dbWriteptr_quits _ far]
    rfl
  · refine Alone.leave (Alone.rearrange alone3 (B := (Part.chain (bucket key)).holds rs *
      (bytes .dat o' (data ++ [newline]) *
        bytes .idx n' ((Rec.mk n' key o' data).line (headOff rs)))) ?_)
    change _ = listAt (chainOff (bucket key)) rs * _
    ac_rfl
  · have line : Reads files3 .idx n' ((Rec.mk n' key o' data).line (headOff rs)) :=
      Reads.of_share owned3
    rw [Rec.line, Reads.append, length_ptr _ ptrNear] at line
    refine ⟨legible, readable, ⟨line.2, ?_⟩, headOff rs, ptrNear, line.1⟩
    rw [mul_left_comm] at owned3
    exact Reads.of_share owned3

/-- The key of a store could also be deleted. -/
theorem Contents.Sane.deleted (sane : s.Sane) (proper : (Call.store key data flag).Proper) :
    ((Call.delete key).effect s).Sane :=
  sane.effect ⟨proper.nonempty, proper.keyText, proper.readable, nofun⟩ nofun

/-- Before it writes the record, a call has deleted what was there of its key. -/
theorem store_appends (sane : s.Sane) (holds : Holds files s) (storable : Storable key data)
    {r : Rec} (appended : (Call.store key data flag).appended s = some r) (db : DB) :
    ∃ s' rs, Appends ((Call.store key data flag).run db) files key data s' rs ∧
      s'.put (bucket key) rs = (Call.delete key).effect s ∧ s' .idxEnd = s .idxEnd ∧
      s' .datEnd = s .datEnd := by
  have readable := sane.readable (bucket key)
  rw [Call.appended] at appended
  cases cut : cutAt (hasKey key) (s (.chain (bucket key))) with
  | none =>
    rw [cut] at appended
    obtain ⟨⟨stores, none_⟩, -⟩ := Option.ite_none_right_eq_some.mp appended
    refine ⟨s, _, store_absent holds sane.fine readable storable stores cut none_ db, ?_, rfl, rfl⟩
    simp only [Call.effect, cut]
    exact Function.update_eq_self _ _
  | some parts_ =>
    obtain ⟨pre, q, post⟩ := parts_
    rw [cut] at appended
    obtain ⟨⟨stores, size⟩, -⟩ := Option.ite_none_right_eq_some.mp appended
    refine ⟨_, _, store_found holds sane.fine readable storable stores cut size db, ?_, ?_, ?_⟩
    · simp only [Call.effect, cut]
    · exact release_other s q _ (by simp)
    · exact release_other s q _ (by simp)

/-! ### How a call ends that finds no room -/

theorem Contents.Sane.near (sane : s.Sane) :
    ∃ n o : Nat, s .idxEnd = n ∧ s .datEnd = o ∧ recordsOff ≤ n ∧
    n ≤ ptrMax + (ptrSz + idxlenSz + idxlenMax) ∧ o < 2 ^ 63 := by
  obtain ⟨n, o, idxEnd, datEnd, start, bound⟩ := sane.bound
  obtain ⟨recs, same, tiles⟩ := sane.layout
  have near := tiles.near fun r member => sane.fine.sound r (by rw [← same]; exact member)
  rw [idxEnd] at near
  refine ⟨n, o, idxEnd, datEnd, start, near, ?_⟩
  simp only [ptrSz, idxlenSz, idxlenMax, ptrMax, datlenMax] at near bound
  omega

theorem appended_store {r : Rec} (appended : (Call.store key data flag).appended s = some r) :
    r = s.fresh key data := by
  obtain ⟨_, stored, same⟩ := appended_eq appended
  obtain rfl := Option.some.inj stored
  exact same

/-- The text of the record is too long, and no pointer is written. -/
theorem store_long (sane : s.Sane) (holds : Holds files s)
    (proper : (Call.store key data flag).Proper) {r : Rec}
    (appended : (Call.store key data flag).appended s = some r) (long : idxlenMax < r.text.length)
    (db : DB) :
    ∃ why files', ((Call.store key data flag).run db).run files = (.error why, files') ∧
      ∀ message ptrval, why ≠ .errQuit message ptrval := by
  have storable : Storable key data := proper.storable data rfl
  obtain ⟨s', rs, appends, put, -, datEnd'⟩ := store_appends sane holds storable appended db
  obtain ⟨n, o, idxEnd, datEnd, -, -, near⟩ := sane.near
  have chain := (sane.deleted proper).fine (.chain (bucket key))
  rw [← put, put_chain] at chain
  obtain rfl := appended_store appended
  rw [Contents.fresh, datEnd] at long
  obtain ⟨why, files', runs, other, -⟩ := appends.long (fun q member => (chain.1 q member).1)
    (datEnd'.trans datEnd) near long
  exact ⟨why, files', runs, other⟩

/-- The record is where no pointer reaches. -/
theorem store_far (sane : s.Sane) (holds : Holds files s)
    (proper : (Call.store key data flag).Proper) {r : Rec}
    (appended : (Call.store key data flag).appended s = some r)
    (short : r.text.length ≤ idxlenMax) (far : ptrMax < r.off) (db : DB) :
    ∃ files', ((Call.store key data flag).run db).run files =
        (.error (.errQuit "_db_writeptr: invalid ptr: %d" r.off), files') ∧
      Holds files' (s.strand key data) ∧ (s.fresh key data).InFiles files' := by
  have storable : Storable key data := proper.storable data rfl
  obtain ⟨s', rs, appends, put, idxEnd', datEnd'⟩ := store_appends sane holds storable appended db
  obtain ⟨n, o, idxEnd, datEnd, start, near, datNear⟩ := sane.near
  have chain := (sane.deleted proper).fine (.chain (bucket key))
  rw [← put, put_chain] at chain
  obtain rfl := appended_store appended
  have fresh : s.fresh key data = Rec.mk n key o data := by rw [Contents.fresh, idxEnd, datEnd]
  -- the data and the index line are written, and the ends of both files have moved
  have strand : s.strand key data = Contents.put (Function.update (Function.update s' .datEnd
      (o + (data.length + 1) : Nat)) .idxEnd (n + (Rec.mk n key o data).size :
        Nat)) (bucket key) rs := by
    rw [Contents.strand, ← put, fresh, idxEnd, datEnd, Contents.put, Contents.put,
      Function.update_comm (show Part.chain (bucket key) ≠ .datEnd by simp),
      Function.update_comm (show Part.chain (bucket key) ≠ .idxEnd by simp)]
  rw [fresh] at short far ⊢
  -- the record itself is as it has to be; only the pointer to it cannot be written
  have legible : (Rec.mk n key o data).Legible := by
    simp only [ptrSz, idxlenSz, idxlenMax, ptrMax, recordsOff, nhashDef] at near start
    refine ⟨show n ≠ 0 by omega, show n < 2 ^ 63 by omega, recordsOff, ?_⟩
    exact ⟨storable.keyText, storable.dataText,
      show recordsOff ≠ 0 by decide, show recordsOff ≤ ptrMax by decide,
      datNear, storable.nonempty, storable.short, text_ge_of_key proper.nonempty, short⟩
  rw [strand]
  exact appends.far (fun q member => (chain.1 q member).1) (idxEnd'.trans idxEnd)
    (datEnd'.trans datEnd) legible
    proper.readable start far

/-- A call that finds no room ends its process. -/
theorem unroomy_stops (c : Call) (sane : s.Sane) (holds : Holds files s) (proper : c.Proper)
    (full : ¬ c.Roomy s) (db : DB) : ∃ why files', (c.run db).run files = (.error why, files') := by
  simp only [Call.Roomy, not_forall] at full
  obtain ⟨r, appended, limits⟩ := full
  cases c with
  | fetch key => cases appended
  | delete key => cases appended
  | store key data flag =>
    by_cases short : r.text.length ≤ idxlenMax
    · obtain ⟨files', runs, -⟩ := store_far sane holds proper appended short (by omega) db
      exact ⟨_, files', runs⟩
    · obtain ⟨why, files', runs, -⟩ := store_long sane holds proper appended (by omega) db
      exact ⟨why, files', runs⟩

/-- Calls that all return have found room. -/
theorem runCalls_room (calls : List Call) (s : Contents) (files files' : Files DbFile) (db db' : DB)
    (replies : List Reply) (sane : s.Sane) (holds : Holds files s) (proper : ∀ c ∈ calls, c.Proper)
    (runs : (runCalls calls db).run files = (.ok (replies, db'), files')) : Room calls s := by
  induction calls generalizing s files db replies with
  | nil => trivial
  | cons c calls ih =>
    obtain ⟨here, later⟩ := List.forall_mem_cons.mp proper
    rw [runCalls, bind_apply, Prog.run_bind] at runs
    by_cases roomy : c.Roomy s
    · obtain ⟨db1, files1, runs1, -, holds1⟩ :=
        call_run c s files db here.valid sane.fine (sane.fits here roomy)
        holds
      rw [runs1] at runs
      simp only [bind_apply, Prog.run_bind] at runs
      cases others : (runCalls calls db1).run files1 with
      | mk result files2 =>
        cases result with
        | error why =>
          rw [others] at runs
          cases runs
        | ok p =>
          exact ⟨roomy, ih (c.effect s) files1 db1 p.1 (sane.effect here roomy) holds1 later (by
            rw [others] at runs
            cases runs
            exact others)⟩
    · -- a call without room stops the run
      obtain ⟨why, files1, stops⟩ := unroomy_stops c sane holds here roomy db
      rw [stops] at runs
      cases runs

/-- What the files hold when a store has ended its process so. -/
theorem store_quits (sane : s.Sane) (holds : Holds files s)
    (proper : (Call.store key data flag).Proper) {db : DB}
    {message : String} {ptrval : Int} {files' : Files DbFile}
    (quits : ((Call.store key data flag).run db).run files =
      (.error (.errQuit message ptrval), files')) :
    Holds files' (s.strand key data) ∧ (s.fresh key data).InFiles files' := by
  by_cases roomy : (Call.store key data flag).Roomy s
  · obtain ⟨db1, files1, runs, -⟩ :=
      call_run _ s files db proper.valid sane.fine (sane.fits proper roomy) holds
    rw [runs] at quits
    cases quits
  · simp only [Call.Roomy, not_forall] at roomy
    obtain ⟨r, appended, limits⟩ := roomy
    by_cases short : r.text.length ≤ idxlenMax
    · obtain ⟨files1, runs, held⟩ := store_far sane holds proper appended short (by omega) db
      rw [runs] at quits
      cases quits
      exact held
    · obtain ⟨why, files1, runs, other⟩ := store_long sane holds proper appended (by omega) db
      rw [runs] at quits
      cases quits
      exact absurd rfl (other message ptrval)

/-! ### What a fetch finds then -/

/-- Whichever process fetches a key of these files finds what the map has. -/
def Fetches (files : Files DbFile) (d : Mapping) : Prop :=
  ∀ key db, ∃ db' files', ((Call.fetch key).run db).run files = (.ok (.data (d key), db'), files')

theorem Holds.fetches (holds : Holds files s) (fine : s.Fine)
    (readable : ∀ b, ∀ r ∈ s (.chain b), r.Readable) :
    Fetches files s.map := by
  intro key db
  obtain ⟨db', files', runs, -⟩ :=
    call_run (.fetch key) s files db trivial fine ⟨readable _, nofun⟩ holds
  exact ⟨db', files', runs⟩

theorem deleted_map (s : Contents) (key : Bytes) (fine : s.Fine) :
    ((Call.delete key).effect s).map = Function.update s.map key none := by
  have left : (Call.onKey (.delete key) (s.map key)).2 = none := by cases s.map key <;> rfl
  rw [map_effect _ s fine, Call.onMap, Call.key, left]

theorem strand_map (s : Contents) (key data : Bytes) (fine : s.Fine) :
    (s.strand key data).map = Function.update s.map key none := by
  rw [← deleted_map s key fine]
  funext key'
  rw [Contents.map, strand_chain, Contents.map]

theorem strand_fine (sane : s.Sane) (proper : (Call.store key data flag).Proper) :
    (s.strand key data).Fine :=
  ((sane.deleted proper).fine.update .datEnd _ trivial).update .idxEnd _
    (Nat.le_add_right_of_le (sane.fine .idxEnd))

theorem strand_readable (sane : s.Sane) (proper : (Call.store key data flag).Proper)
    (b : Fin nhashDef) :
    ∀ r ∈ s.strand key data (.chain b), r.Readable := by
  rw [strand_chain]
  exact (sane.deleted proper).readable b

/-! ### What a scan finds then -/

/-- Whichever process scans these files finds these records, and nothing behind them. -/
def Scans (files : Files DbFile) (found : List (Bytes × Bytes)) : Prop :=
  ∀ db n, ∃ db', (scan (found.length + n) db).run files =
    (.ok (found.map some ++ List.replicate n none, db'), files)

theorem delivered_append (xs ys : List Rec) :
    delivered (xs ++ ys) = delivered xs ++ delivered ys := by
  rw [delivered, List.filter_append, List.map_append, delivered, delivered]

theorem delivered_cons (r : Rec) (rs : List Rec) :
    delivered (r :: rs) = (if r.isBlank then [] else [(r.key, r.data)]) ++ delivered rs := by
  rw [delivered, List.filter_cons]
  cases r.isBlank <;> rfl

/-- A key that is in no chain is not found. -/
theorem delivered_absent {recs : List Rec} (fine : s.Fine)
    (same : (recs : Multiset Rec) = s.records) (absent : s.map key = none) :
    ∀ p ∈ delivered recs, p.1 ≠ key := by
  intro p member its
  obtain ⟨r, among, rfl⟩ := List.mem_map.mp member
  obtain ⟨listed, plain⟩ := List.mem_filter.mp among
  change r.key = key at its
  rw [← Multiset.mem_coe, same] at listed
  rcases mem_records.mp listed with ⟨b, live⟩ | freed
  · obtain rfl : bucket r.key = b := ((fine (.chain b)).1 r live).2
    rw [its] at live
    exact absent_key absent r live its
  · rw [r.isBlank_iff.mpr (fine .free r freed).2] at plain
    cases plain

/-- A deletion leaves all other records where they are. -/
theorem deleted_listed {recs : List Rec} (sane : s.Sane)
    (deleted : ((Call.delete key).effect s).Fine) (same : (recs : Multiset Rec) = s.records) :
    ∃ recs' : List Rec, (recs' : Multiset Rec) = ((Call.delete key).effect s).records ∧
      recs'.map Rec.slot = recs.map Rec.slot ∧
      delivered recs' = (delivered recs).filter (·.1 ≠ key) := by
  have absent : ((Call.delete key).effect s).map key = none := by
    rw [deleted_map s key sane.fine, Function.update_self]
  cases cut : cutAt (hasKey key) (s (.chain (bucket key))) with
  | none =>
    have left : (Call.delete key).effect s = s := by simp only [Call.effect, cut]
    rw [left] at absent ⊢
    refine ⟨recs, same, rfl, (List.filter_eq_self.mpr fun p member => ?_).symm⟩
    simpa using delivered_absent sane.fine same absent p member
  | some parts_ =>
    obtain ⟨pre, r, post⟩ := parts_
    obtain ⟨chain, keyEq, -⟩ := cutAt_eq_some cut
    have left : (Call.delete key).effect s = (s.release r).put (bucket key) (pre ++ post) := by
      simp only [Call.effect, cut]
    have listed : r ∈ recs := by
      rw [← Multiset.mem_coe, same]
      exact mem_records.mpr (.inl ⟨_, by rw [chain]; simp⟩)
    obtain ⟨front, back, rfl⟩ := List.append_of_mem listed
    have removed := records_remove (s := s.release r) ((release_chain s r _).trans chain)
    rw [records_release, ← same, ← left] at removed
    have same' := coe_replaced removed
    refine ⟨front ++ r.blank :: back, same', by simp [slot_blank], ?_⟩
    -- neither the records before it nor those behind it are of its key
    have others := delivered_absent deleted same' absent
    rw [delivered_append, delivered_cons, if_pos (r.blank.isBlank_iff.mpr r.blank_blank),
      List.nil_append] at others ⊢
    rw [List.forall_mem_append] at others
    have its : (if r.isBlank then [] else [(r.key, r.data)]).filter (·.1 ≠ key) = [] := by
      split <;> simp [hasKey_iff.mp keyEq]
    rw [delivered_append, delivered_cons, List.filter_append, List.filter_append, its,
      List.nil_append, List.filter_eq_self.mpr (by simpa using others.1),
      List.filter_eq_self.mpr (by simpa using others.2)]

theorem Holds.listed {recs : List Rec} (holds : Holds files s) (sane : s.Sane)
    (same : (recs : Multiset Rec) = s.records)
    (tiles : Tiles recordsOff 0 (recs.map Rec.slot) (s .idxEnd) (s .datEnd)) :
    Listed files recs := by
  obtain ⟨idxLength, datLength⟩ := holds.length
  obtain ⟨n, o, idxEnd, datEnd, -, near, -⟩ := sane.near
  refine ⟨by rw [idxLength, datLength]; exact tiles, fun r member => ?_, ?_⟩
  · exact holds.inFiles sane.fine sane.readable r (by rw [← same]; exact member)
  · rw [idxLength, idxEnd]
    exact near.trans (by decide)

/-- The record without a pointer is behind all others. -/
theorem strand_listed {recs : List Rec} (sane : s.Sane) (proper : (Call.store key data flag).Proper)
    (holds : Holds files (s.strand key data)) (stranded : (s.fresh key data).InFiles files)
    (same : (recs : Multiset Rec) = ((Call.delete key).effect s).records)
    (tiles : Tiles recordsOff 0 (recs.map Rec.slot) (s .idxEnd) (s .datEnd)) :
    Listed files (recs ++ [s.fresh key data]) := by
  obtain ⟨idxLength, datLength⟩ := holds.length
  obtain ⟨n, o, idxEnd, datEnd, -, near, -⟩ := sane.near
  have idxEnd' : s.strand key data .idxEnd = s .idxEnd + (s.fresh key data).size :=
    Function.update_self _ _ _
  have datEnd' : s.strand key data .datEnd = s .datEnd + (data.length + 1) := by
    rw [Contents.strand, Function.update_of_ne (by simp), Function.update_self]
  refine ⟨?_, fun r member => ?_, ?_⟩
  · rw [idxLength, datLength, idxEnd', datEnd', List.map_append]
    exact tiles.append (s.fresh key data).slot rfl rfl
  · rcases List.mem_append.mp member with before | last
    · refine holds.inFiles (strand_fine sane proper) (strand_readable sane proper) r ?_
      rw [records_congr (strand_chain s key data) (strand_free s key data), ← same]
      exact before
    · rwa [List.mem_singleton.mp last]
  · have short := stranded.legible.text_le
    rw [idxLength, idxEnd', idxEnd, Rec.size]
    simp only [ptrSz, idxlenSz, idxlenMax, ptrMax] at near short ⊢
    omega

/-! ### The calls that lead there -/

theorem session_room (calls : List Call) (proper : ∀ c ∈ calls, c.Proper) {db : DB}
    {replies : List Reply}
    (runs : (session calls DB.alloc).run emptyFiles = (.ok (replies, db), files)) :
    Room calls Contents.empty ∧ Holds files (Contents.after calls Contents.empty) := by
  obtain ⟨db0, opens⟩ := dbOpen_run
  rw [session, bind_apply, Prog.run_bind, opens] at runs
  have room := runCalls_room calls Contents.empty freshFiles files db0 db replies
    Contents.empty_sane freshFiles_holds
    proper runs
  obtain ⟨db1, files1, runs1, holds⟩ :=
    runCalls_run calls Contents.empty freshFiles db0 Contents.empty_sane proper room
    freshFiles_holds
  change (runCalls calls db0).run freshFiles = _ at runs
  rw [runs1] at runs
  cases runs
  exact ⟨room, holds⟩

section Quitting

variable {calls : List Call} {replies : List Reply} {db db' : DB} {message : String} {ptrval : Int}
  {files' : Files DbFile}

theorem quits_fetches (proper : ∀ c ∈ calls, c.Proper)
    (reached : (session calls DB.alloc).run emptyFiles = (.ok (replies, db), files))
    (storing : (Call.store key data flag).Proper)
    (quits : ((Call.store key data flag).run db').run files =
      (.error (.errQuit message ptrval), files')) :
    Fetches files (mapAfter calls fun _ => none) ∧
      Fetches files' (Function.update (mapAfter calls fun _ => none) key none) := by
  obtain ⟨room, holds⟩ := session_room calls proper reached
  obtain ⟨sane, maps⟩ := Contents.empty_sane.after proper room
  rw [Contents.empty_map] at maps
  obtain ⟨holds', -⟩ := store_quits sane holds storing quits
  rw [← maps, ← strand_map _ key data sane.fine]
  exact ⟨holds.fetches sane.fine sane.readable,
    holds'.fetches (strand_fine sane storing) (strand_readable sane storing)⟩

theorem quits_scans (proper : ∀ c ∈ calls, c.Proper)
    (reached : (session calls DB.alloc).run emptyFiles = (.ok (replies, db), files))
    (storing : (Call.store key data flag).Proper)
    (quits : ((Call.store key data flag).run db').run files =
      (.error (.errQuit message ptrval), files')) :
    ∃ old, Scans files old ∧
      Scans files' (old.filter (·.1 ≠ key) ++
        if key.all (· = space) then [] else [(key, data)]) := by
  obtain ⟨room, holds⟩ := session_room calls proper reached
  obtain ⟨sane, -⟩ := Contents.empty_sane.after proper room
  obtain ⟨holds', stranded⟩ := store_quits sane holds storing quits
  obtain ⟨recs, same, tiles⟩ := sane.layout
  obtain ⟨recs', same', slots, delivers⟩ := deleted_listed sane (sane.deleted storing).fine same
  have last : (if key.all (· = space) then [] else [(key, data)]) =
      delivered [(Contents.after calls Contents.empty).fresh key data] := by
    rw [delivered_cons]
    exact (List.append_nil _).symm
  refine ⟨delivered recs, scan_run (holds.listed sane same tiles), ?_⟩
  rw [← delivers, last, ← delivered_append]
  exact scan_run (strand_listed sane storing holds' stranded same' (slots ▸ tiles))

end Quitting

/-- After calls that have all returned, a store comes to a place that no pointer reaches. Then a
fetch finds nothing of its key, and a scan finds its record behind all others; what they find of
other keys is as before. -/
theorem session_quits (calls : List Call) (proper : ∀ c ∈ calls, c.Proper)
    {replies : List Reply} {db : DB}
    (reached : (session calls DB.alloc).run emptyFiles = (.ok (replies, db), files))
    (storing : (Call.store key data flag).Proper) {db' : DB} {message : String} {ptrval : Int}
    {files' : Files DbFile}
    (quits : ((Call.store key data flag).run db').run files =
      (.error (.errQuit message ptrval), files')) :
    Fetches files (mapAfter calls fun _ => none) ∧
      Fetches files' (Function.update (mapAfter calls fun _ => none) key none) ∧
        ∃ old, Scans files old ∧
          Scans files' (old.filter (·.1 ≠ key) ++
            if key.all (· = space) then [] else [(key, data)]) := by
  obtain ⟨before, after⟩ := quits_fetches proper reached storing quits
  exact ⟨before, after, quits_scans proper reached storing quits⟩

/-! ### An index that grows beyond its pointers -/

/-- Stores of one key, by turns with data of one byte and of two. -/
def swinging (n : Nat) : List Call :=
  (List.range n).map fun i => .store [107] (List.replicate (i % 2 + 1) 97) .store

theorem swinging_succ (n : Nat) :
    swinging (n + 1) = swinging n ++ [.store [107] (List.replicate (n % 2 + 1) 97) .store] := by
  rw [swinging, List.range_succ, List.map_append]
  rfl

theorem swing_proper (n : Nat) :
    (Call.store [107] (List.replicate (n % 2 + 1) 97) .store).Proper := by
  rcases Nat.mod_two_eq_zero_or_one n with even | odd
  · rw [even]
    decide
  · rw [odd]
    decide

theorem swinging_proper (n : Nat) : ∀ c ∈ swinging n, c.Proper := by
  intro c member
  obtain ⟨i, -, rfl⟩ := List.mem_map.mp member
  exact swing_proper i

theorem after_concat (calls : List Call) (c : Call) (s : Contents) :
    Contents.after (calls ++ [c]) s = c.effect (Contents.after calls s) := by
  induction calls generalizing s with
  | nil => rfl
  | cons first calls ih => exact ih (first.effect s)

theorem room_concat (calls : List Call) (c : Call) (s : Contents) :
    Room (calls ++ [c]) s ↔ Room calls s ∧ c.Roomy (Contents.after calls s) := by
  induction calls generalizing s with
  | nil => exact and_comm
  | cons first calls ih =>
    rw [List.cons_append, Room, Room, ih, and_assoc]
    rfl

theorem mapAfter_concat (calls : List Call) (c : Call) (d : Mapping) :
    mapAfter (calls ++ [c]) d = (c.onMap (mapAfter calls d)).2 := by
  induction calls generalizing d with
  | nil => rfl
  | cons first calls ih => exact ih (first.onMap d).2

/-- A store of a key that is there, with data of another length, appends a record. -/
theorem moved_appends {old : Bytes} (there : s.map key = some old)
    (size : data.length ≠ old.length) :
    (Call.store key data .store).appended s = some (s.fresh key data) ∧
      (Call.store key data .store).effect s .idxEnd = s .idxEnd + (s.fresh key data).size := by
  rw [Contents.map, lookup, Option.map_eq_some_iff] at there
  obtain ⟨⟨pre, r, post⟩, cut, rfl⟩ := there
  have left : (Call.store key data .store).effect s =
      (s.release r).append key data (pre ++ post) := by
    simp only [Call.effect, cut, size, reduceCtorEq, if_false]
  refine ⟨?_, ?_⟩
  · simp only [Call.appended, cut, size, ne_eq, reduceCtorEq, not_false_eq_true, and_self, if_true]
  · rw [left, append_idxEnd, release_fresh, release_other _ _ _ (by simp)]

theorem swinging_map (n : Nat) :
    mapAfter (swinging (n + 1)) (fun _ => none) [107] = some (List.replicate (n % 2 + 1) 97) := by
  rw [swinging_succ, mapAfter_concat]
  exact onMap_self (.store [107] (List.replicate (n % 2 + 1) 97) .store) _

theorem swing_appends (n : Nat) (room : Room (swinging n) Contents.empty) :
    let s := Contents.after (swinging n) Contents.empty
    let c := Call.store [107] (List.replicate (n % 2 + 1) 97) .store
    c.appended s = some (s.fresh [107] (List.replicate (n % 2 + 1) 97)) ∧
      c.effect s .idxEnd = s .idxEnd + (s.fresh [107] (List.replicate (n % 2 + 1) 97)).size := by
  cases n with
  | zero => exact ⟨rfl, append_idxEnd Contents.empty [107] [97] []⟩
  | succ n =>
    have maps := (Contents.empty_sane.after (swinging_proper _) room).2
    have there : (Contents.after (swinging (n + 1)) Contents.empty).map [107] =
        some (List.replicate (n % 2 + 1) 97) := by
      rw [maps, Contents.empty_map]
      exact swinging_map n
    refine moved_appends there ?_
    rw [List.length_replicate, List.length_replicate]
    omega

theorem swinging_grows (n : Nat) (room : Room (swinging n) Contents.empty) :
    n ≤ (Contents.after (swinging n) Contents.empty .idxEnd : Nat) := by
  induction n with
  | zero => exact Nat.zero_le _
  | succ n ih =>
    rw [swinging_succ, room_concat] at room
    have before := ih room.1
    rw [swinging_succ, after_concat, (swing_appends n room.1).2, Rec.size, ptrSz]
    omega

theorem swing_text (n : Nat) (room : Room (swinging n) Contents.empty) :
    ((Contents.after (swinging n) Contents.empty).fresh [107]
      (List.replicate (n % 2 + 1) 97)).text.length ≤
      idxlenMax := by
  have sane := (Contents.empty_sane.after (swinging_proper n) room).1
  obtain ⟨_, o, -, datEnd, -, -, near⟩ := sane.near
  have first := length_decimal_le 19 o (by decide) (by omega)
  have second := length_decimal_le 1 (n % 2 + 1 + 1) (by decide) (by omega)
  rw [Rec.length_text, Contents.fresh, datEnd]
  simp only [List.length_singleton, List.length_replicate, idxlenMax]
  omega

/-- The index comes to an end that no pointer reaches. -/
theorem swinging_far : ∃ n, Room (swinging n) Contents.empty ∧
    ptrMax < (Contents.after (swinging n) Contents.empty .idxEnd : Nat) := by
  by_contra none_
  push Not at none_
  have all (n : Nat) : Room (swinging n) Contents.empty := by
    induction n with
    | zero => trivial
    | succ n ih =>
      rw [swinging_succ, room_concat]
      refine ⟨ih, fun r appended => ?_⟩
      rw [(swing_appends n ih).1] at appended
      obtain rfl := Option.mem_some_iff.mp appended
      exact ⟨swing_text n ih, none_ n ih⟩
  obtain ⟨n, many⟩ : ∃ n, ptrMax < n := ⟨_, Nat.lt_succ_self _⟩
  have reach := none_ n (all n)
  have grown := swinging_grows n (all n)
  omega

/-- A session of such stores, and the store that ends its process. -/
theorem swinging_quits : ∃ n replies db files ptrval files',
    (session (swinging (n + 1)) DB.alloc).run emptyFiles = (.ok (replies, db), files) ∧
      ((Call.store [107] (List.replicate ((n + 1) % 2 + 1) 97) .store).run DB.alloc).run files =
        (.error (.errQuit "_db_writeptr: invalid ptr: %d" ptrval), files') := by
  obtain ⟨n, room, far⟩ := swinging_far
  cases n with
  | zero =>
    have start : (Contents.after (swinging 0) Contents.empty .idxEnd : Nat) = recordsOff := rfl
    rw [start, ptrMax, recordsOff, nhashDef, ptrSz] at far
    omega
  | succ n =>
    obtain ⟨db, files, runs⟩ := session_run _ (swinging_proper _) room
    obtain ⟨-, holds⟩ := session_room _ (swinging_proper _) runs
    have sane := (Contents.empty_sane.after (swinging_proper _) room).1
    obtain ⟨files', quits, -⟩ :=
      store_far sane holds (swing_proper (n + 1)) (swing_appends _ room).1
      (swing_text _ room) far DB.alloc
    exact ⟨n, _, db, files, _, files', runs, quits⟩

/-- What is in the files is not always as it was before the store. -/
theorem quits_loses :
    ¬ ∀ (calls : List Call) (replies : List Reply) (db : DB) (files : Files DbFile)
      (key data : Bytes)
    (flag : Flag) (db' : DB) (message : String) (ptrval : Int) (files' : Files DbFile),
      (∀ c ∈ calls, c.Proper) →
      (session calls DB.alloc).run emptyFiles = (.ok (replies, db), files) →
      (Call.store key data flag).Proper →
        ((Call.store key data flag).run db').run files =
        (.error (.errQuit message ptrval), files') →
          (∀ d, Fetches files d → Fetches files' d) ∧ ∀ found, Scans files found →
          Scans files' found := by
  intro keeps
  obtain ⟨n, replies, db, files, ptrval, files', reached, quits⟩ := swinging_quits
  obtain ⟨before, after⟩ := quits_fetches (swinging_proper _) reached (swing_proper (n + 1)) quits
  have kept :=
    (keeps _ _ _ _ _ _ _ _ _ _ _ (swinging_proper _) reached (swing_proper (n + 1)) quits).1 _
    before
  obtain ⟨_, _, runs⟩ := kept [107] DB.alloc
  obtain ⟨_, _, runs'⟩ := after [107] DB.alloc
  rw [runs, swinging_map, Function.update_self] at runs'
  cases runs'

/-- The store that ends such a session. -/
theorem session_quits_swinging : ∃ n files files',
    Fetches files (mapAfter (swinging (n + 1)) fun _ => none) ∧
      Fetches files' (Function.update (mapAfter (swinging (n + 1)) fun _ => none) [107] none) ∧
        ∃ old, Scans files old ∧ Scans files' (old.filter (·.1 ≠ [107]) ++
          [([107], List.replicate ((n + 1) % 2 + 1) 97)]) := by
  obtain ⟨n, replies, db, files, ptrval, files', reached, quits⟩ := swinging_quits
  exact ⟨n, files, files', session_quits _ (swinging_proper _) reached (swing_proper (n + 1)) quits⟩

end Apue
