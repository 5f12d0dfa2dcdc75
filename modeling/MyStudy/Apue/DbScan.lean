import MyStudy.Apue.DbAlone

/-!
# Scans

What the files look like between two calls, and what `db_rewind` and `db_nextrec` find there: they
go over the records in the order of the file, and leave out those with a blank key.
-/
namespace Apue

open FileProgram Separation

variable {files : Files DbFile}

/-! ### The files -/

/-- A pointer of the index file. -/
def Points (files : Files DbFile) (offset n : Nat) : Prop :=
  Reads files .idx offset (formatWidth ptrSz n)

/-- The two lines of a record. -/
def Rec.Stored (r : Rec) (files : Files DbFile) : Prop :=
  Reads files .idx (r.off + ptrSz) r.tail ∧ Reads files .dat r.datoff (r.data ++ [newline])

/-- Pointers that lead from one record to the next, and a 0 at the end. -/
def Linked (files : Files DbFile) : Nat → List Rec → Prop
  | offset, [] => Points files offset 0
  | offset, r :: rs => Points files offset r.off ∧ r.Stored files ∧ Linked files r.off rs

/-- The records, and the lists that they are in. -/
structure WellFormed (files : Files DbFile) (recs : List Rec) (chains : Fin nhashDef → List Rec)
    (free : List Rec) : Prop where
  gapless : Tiles recordsOff 0 (recs.map Rec.slot) (files .idx).length (files .dat).length
  apart : recs.Pairwise fun r q =>
    r.off + r.size ≤ q.off ∧ r.datoff + (r.data.length + 1) ≤ q.datoff
  sound : ∀ r ∈ recs, r.Sound ∧ r.Stored files
  once : (recs : Multiset Rec) = (∑ b, (chains b : Multiset Rec)) + (free : Multiset Rec)
  live : ∀ b, ∀ r ∈ chains b, bucket r.key = b ∧ r.Readable ∧ ¬ r.Blank
  blank : ∀ r ∈ free, r.Blank
  linked : ∀ b, Linked files (chainOff b) (chains b)
  freed : Linked files freeOff free

theorem linked_of_share {o : Owner Unit Part} {own : Owners DbFile Unit Part} (offset : Nat)
    (rs : List Rec) (F : FileAssertion DbFile)
    (owned : (listAt offset rs * F) (share own files o)) :
    Linked files offset rs := by
  induction rs generalizing offset F with
  | nil =>
    rw [listAt, mul_assoc] at owned
    exact Reads.of_share owned
  | cons r rs ih =>
    have tail : listAt offset (r :: rs) * F =
        ptrAt offset r.off * (r.rest * (listAt r.off rs * F)) := by
      rw [listAt, chainAt, headOff, listAt]
      ac_rfl
    rw [tail] at owned
    -- the pointer, the line and the data of the record are each read from a part of their own
    refine ⟨Reads.of_share owned, ⟨?_, ?_⟩, ih r.off (ptrAt offset r.off * r.rest * F) ?_⟩
    · have same : ptrAt offset r.off * (r.rest * (listAt r.off rs * F)) =
          bytes .idx (r.off + ptrSz) r.tail *
            (bytes .dat r.datoff (r.data ++ [newline]) *
              (ptrAt offset r.off * (listAt r.off rs * F))) := by
        rw [Rec.rest]
        ac_rfl
      rw [same] at owned
      exact Reads.of_share owned
    · have same : ptrAt offset r.off * (r.rest * (listAt r.off rs * F)) =
          bytes .dat r.datoff (r.data ++ [newline]) *
            (bytes .idx (r.off + ptrSz) r.tail * (ptrAt offset r.off * (listAt r.off rs * F))) := by
        rw [Rec.rest]
        ac_rfl
      rw [same] at owned
      exact Reads.of_share owned
    · have same : ptrAt offset r.off * (r.rest * (listAt r.off rs * F)) =
          listAt r.off rs * (ptrAt offset r.off * r.rest * F) := by
        ac_rfl
      rwa [same] at owned

theorem Linked.stored {offset : Nat} {rs : List Rec} (linked : Linked files offset rs)
    (sound : ∀ r ∈ rs, r.Sound) (r : Rec) (member : r ∈ rs) :
    r.Stored files ∧ ∃ n ≤ ptrMax, Points files r.off n := by
  induction rs generalizing offset with
  | nil => cases member
  | cons q rs ih =>
    obtain ⟨-, stored, later⟩ := linked
    obtain ⟨-, others⟩ := List.forall_mem_cons.mp sound
    rcases List.mem_cons.mp member with rfl | member
    · refine ⟨stored, headOff rs, headOff_le rs others, ?_⟩
      cases rs with
      | nil => exact later
      | cons next rs => exact later.1
    · exact ih later others member

theorem Tiles.apart {n k n' k' : Nat} {slots : List Slot} (tiles : Tiles n k slots n' k') :
    (slots.Pairwise fun a b => a.off + a.size ≤ b.off ∧ a.datoff + a.datlen ≤ b.datoff) ∧
      ∀ slot ∈ slots, n ≤ slot.off ∧ k ≤ slot.datoff := by
  induction slots generalizing n k with
  | nil => exact ⟨.nil, fun _ member => absurd member List.not_mem_nil⟩
  | cons first slots ih =>
    obtain ⟨rfl, rfl, later⟩ := tiles
    obtain ⟨pairs, behind⟩ := ih later
    refine ⟨.cons behind pairs, List.forall_mem_cons.mpr ⟨⟨Nat.le_refl _, Nat.le_refl _⟩, ?_⟩⟩
    intro slot member
    have := behind slot member
    omega

/-- Where the last one starts and how large it is bounds the file. -/
theorem Tiles.end_le {n k n' k' far large : Nat} {slots : List Slot} (tiles : Tiles n k slots n' k')
    (each : ∀ slot ∈ slots, slot.off ≤ far ∧ slot.size ≤ large) (start : n ≤ far + large) :
    n' ≤ far + large := by
  induction slots generalizing n k with
  | nil => exact tiles.1 ▸ start
  | cons first slots ih =>
    obtain ⟨here, later⟩ := List.forall_mem_cons.mp each
    refine ih tiles.2.2 later ?_
    rw [← tiles.1]
    omega

theorem Tiles.count_le {n k n' k' small : Nat} {slots : List Slot} (tiles : Tiles n k slots n' k')
    (each : ∀ slot ∈ slots, small ≤ slot.size) : n + slots.length * small ≤ n' := by
  induction slots generalizing n k with
  | nil => simp [tiles.1]
  | cons first slots ih =>
    obtain ⟨here, later⟩ := List.forall_mem_cons.mp each
    have rest := ih tiles.2.2 later
    rw [List.length_cons, Nat.succ_mul]
    omega

theorem Holds.length {s : Contents} (holds : Holds files s) :
    (files .idx).length = s .idxEnd ∧ (files .dat).length = s .datEnd := by
  obtain ⟨own, here⟩ := holds
  have size (fd : DbFile) (n : Nat) (part : Part)
    (owned : share own files (.res part) = endAt fd n) :
      (files fd).length = n := by
    have cell : share own files (.res part) (.size fd) = some (.size n) := by
      rw [owned, endAt, if_pos rfl]
    exact heapOf_size.mp (share_eq_some.mp cell).2
  exact ⟨size .idx _ .idxEnd (here .idxEnd), size .dat _ .datEnd (here .datEnd)⟩

/-- A record that can be read where it is. -/
structure Rec.InFiles (r : Rec) (files : Files DbFile) : Prop where
  legible : r.Legible
  readable : r.Readable
  stored : r.Stored files
  points : ∃ n ≤ ptrMax, Points files r.off n

theorem Holds.linked {s : Contents} (holds : Holds files s) :
    (∀ b, Linked files (chainOff b) (s (.chain b))) ∧ Linked files freeOff (s .free) := by
  obtain ⟨own, here⟩ := holds
  exact ⟨fun b => linked_of_share _ _ 1 (by rw [mul_one]; exact here (.chain b)),
    linked_of_share _ _ 1 (by rw [mul_one]; exact here .free)⟩

theorem Holds.inFiles {s : Contents} (holds : Holds files s) (fine : s.Fine)
    (readable : ∀ b, ∀ r ∈ s (.chain b), r.Readable) (r : Rec) (member : r ∈ s.records) :
    r.InFiles files := by
  have sound := fine.sound r member
  obtain ⟨linked, freed⟩ := holds.linked
  rcases mem_records.mp member with ⟨b, live⟩ | free
  · have stored := (linked b).stored (fun q among => ((fine (.chain b)).1 q among).1) r live
    exact ⟨sound.legible, readable b r live, stored.1, stored.2⟩
  · have stored := freed.stored (fun q among => (fine .free q among).1) r free
    exact ⟨sound.legible, (fine .free r free).2.readable, stored.1, stored.2⟩

/-- A record of no list is in no file. -/
theorem Holds.wellFormed {s : Contents} (holds : Holds files s) (sane : s.Sane)
    (plain : ∀ b, ∀ r ∈ s (.chain b), ¬ r.Blank) :
    ∃ recs, WellFormed files recs (fun b => s (.chain b)) (s .free) := by
  obtain ⟨recs, same, tiles⟩ := sane.layout
  obtain ⟨idxLength, datLength⟩ := holds.length
  obtain ⟨linked, freed⟩ := holds.linked
  have sound (r : Rec) (member : r ∈ recs) : r.Sound ∧ r.Stored files := by
    rw [← Multiset.mem_coe, same] at member
    exact ⟨sane.fine.sound r member, (holds.inFiles sane.fine sane.readable r member).stored⟩
  rw [Contents.records] at same
  refine ⟨recs, ?_, ?_, sound, same, fun b r live => ?_, fun r free => (sane.fine .free r free).2,
    linked, freed⟩
  · rw [idxLength, datLength]
    exact tiles
  · exact List.pairwise_map.mp tiles.apart.1
  · exact ⟨((sane.fine (.chain b)).1 r live).2, sane.readable b r live, plain b r live⟩

/-! ### Reading a record -/

theorem WellFormed.inFiles {recs free : List Rec} {chains : Fin nhashDef → List Rec}
    (formed : WellFormed files recs chains free) (r : Rec) (member : r ∈ recs) :
    r.InFiles files := by
  have sound (q : Rec) (among : q ∈ recs) : q.Sound := (formed.sound q among).1
  have listed : (∃ b, r ∈ chains b) ∨ r ∈ free := by
    rw [← Multiset.mem_coe, formed.once, Multiset.mem_add, Multiset.mem_sum] at member
    simpa using member
  have within (q : Rec) (among : (∃ b, q ∈ chains b) ∨ q ∈ free) : q ∈ recs := by
    rw [← Multiset.mem_coe, formed.once, Multiset.mem_add, Multiset.mem_sum]
    simpa using among
  rcases listed with ⟨b, live⟩ | freed
  · have stored :=
      (formed.linked b).stored (fun q among => sound q (within q (.inl ⟨b, among⟩))) r live
    exact ⟨(sound r member).legible, (formed.live b r live).2.1, stored.1, stored.2⟩
  · have stored := formed.freed.stored (fun q among => sound q (within q (.inr among))) r freed
    exact ⟨(sound r member).legible, (formed.blank r freed).readable, stored.1, stored.2⟩

/-- The bytes of two files. -/
theorem region_files (off k : Nat) (line data : Bytes) :
    Heap.Disjoint (region DbFile.idx off line) (region .dat k data) := by
  intro x
  cases x with
  | size fd => exact .inl rfl
  | byte fd i =>
    cases fd with
    | idx => exact .inr (by simp [region])
    | dat => exact .inl (by simp [region])

/-- What of the files is a record. -/
theorem Rec.InFiles.owned {r : Rec} (inFiles : r.InFiles files) :
    ∃ n ≤ ptrMax, ∃ h, Heap.Within h (heapOf files) ∧ (ptrAt r.off n * r.rest) h := by
  obtain ⟨n, fits, points⟩ := inFiles.points
  have line : Reads files .idx r.off (r.line n) := by
    rw [Rec.line, Reads.append, length_ptr n fits]
    exact ⟨points, inFiles.stored.1⟩
  refine ⟨n, fits, _, line.within.union inFiles.stored.2.within, ?_⟩
  rw [Rec.rest, ← mul_assoc, ← line_eq r n fits]
  exact ⟨_, _, region_files _ _ _ _, rfl, rfl, rfl⟩

theorem dbReadidx_run (db : DB) {r : Rec} (inFiles : r.InFiles files)
    (position : db.idxpos = r.off) :
    ∃ (n : Nat) (db' : DB), (dbReadidx 0 db).run files = (.ok ((n : Int), db'), files) ∧
      db'.At r n ∧
      db'.idxpos = r.off + r.size := by
  obtain ⟨n, fits, h, within, owned⟩ := inFiles.owned
  obtain ⟨⟨_, db'⟩, runs, rfl, at_, -, behind⟩ :=
    (dbReadidx_from db 0 r n (.inr ⟨rfl, position⟩) inFiles.legible
    fits fun _ => inFiles.readable).run files h within owned
  exact ⟨n, db', runs, at_, behind⟩

theorem dbReaddat_run (db : DB) {r : Rec} {n : Nat} (inFiles : r.InFiles files) (at_ : db.At r n) :
    ∃ db', (dbReaddat db).run files = (.ok (r.data, db'), files) ∧ db'.idxbuf = db.idxbuf ∧
      db'.idxpos = db.idxpos := by
  obtain ⟨⟨_, db'⟩, runs, rfl, -, buf, position⟩ :=
    (dbReaddat_spec db r n inFiles.legible at_).run files _
    inFiles.stored.2.within rfl
  exact ⟨db', runs, buf, position⟩

theorem read_run (fd : DbFile) (len : Nat) (db : DB) (data : Bytes)
    (here : ((files fd).drop (db.pos fd)).take len = data) :
    (read fd len db).run files = (.ok (data, db.setPos (db.pos fd + data.length) fd), files) := by
  subst here
  rfl

/-- Behind the last record there is nothing. -/
theorem dbReadidx_end (db : DB) (position : db.idxpos = (files .idx).length)
    (short : (files .idx).length < 2 ^ 63) :
    ∃ db', (dbReadidx 0 db).run files = (.ok (-1, db'), files) ∧
      db'.idxpos = (files .idx).length := by
  have nothing : ((files .idx).drop (files .idx).length).take (ptrSz + idxlenSz) = [] := by
    rw [List.drop_length, List.take_nil]
  rw [dbReadidx, if_pos rfl, bind_apply,
    lseek_cur .idx _ db (by rw [DB.pos, position]; exact short), Prog.ret_bind, bind_apply,
    modify_apply, Prog.ret_bind, bind_apply, Prog.run_bind,
    read_run .idx _ _ [] (by rw [← nothing, ← position]; rfl)]
  exact ⟨_, rfl, position⟩

/-! ### The calls of a scan -/

/-- The scan has come to these records. -/
structure Ahead (files : Files DbFile) (db : DB) (rest : List Rec) : Prop where
  tiles : ∃ k, Tiles db.idxpos k (rest.map Rec.slot) (files .idx).length (files .dat).length
  inFiles : ∀ r ∈ rest, r.InFiles files
  short : (files .idx).length < 2 ^ 63

theorem Ahead.next {db db' : DB} {r : Rec} {rest : List Rec} (ahead : Ahead files db (r :: rest))
    (position : db'.idxpos = r.off + r.size) : Ahead files db' rest := by
  obtain ⟨⟨k, off, -, later⟩, inFiles, short⟩ := ahead
  change r.off = db.idxpos at off
  refine ⟨⟨k + r.slot.datlen, ?_⟩, fun q member => inFiles q (by simp [member]), short⟩
  rw [position, off]
  exact later

theorem Ahead.position {db : DB} {r : Rec} {rest : List Rec} (ahead : Ahead files db (r :: rest)) :
    db.idxpos = r.off := by
  obtain ⟨k, off, -⟩ := ahead.tiles
  exact off.symm

theorem Ahead.moved {db db' : DB} {rest : List Rec} (ahead : Ahead files db rest)
    (position : db'.idxpos = db.idxpos) : Ahead files db' rest :=
  ⟨by rw [position]; exact ahead.tiles, ahead.inFiles, ahead.short⟩

/-- A record that a scan leaves out. -/
def Rec.isBlank (r : Rec) : Bool := r.key.all (· = space)

theorem Rec.isBlank_iff (r : Rec) : r.isBlank = true ↔ r.Blank := by
  simp [isBlank, Blank]

/-- What the search for the next record comes to. -/
def Finds (files : Files DbFile) (rest : List Rec) (found : Bool) (db : DB) : Prop :=
  match rest.dropWhile Rec.isBlank with
  | [] => found = false ∧ Ahead files db []
  | r :: after => found = true ∧ (∃ n, db.At r n) ∧ Ahead files db after

theorem nextrecLoop_run (rest : List Rec) (rounds : Nat) (enough : rest.length < rounds) (db : DB)
    (ahead : Ahead files db rest) :
    ∃ found db', (nextrecLoop rounds db).run files = (.ok (found, db'), files) ∧
      Finds files rest found db' := by
  induction rest generalizing rounds db with
  | nil =>
    obtain ⟨rounds, rfl⟩ := Nat.exists_eq_add_one_of_ne_zero (Nat.ne_zero_of_lt enough)
    -- at the end of the index file there is nothing to read
    obtain ⟨k, position, -⟩ := ahead.tiles
    obtain ⟨db', runs, position'⟩ := dbReadidx_end db position ahead.short
    refine ⟨false, db', ?_, rfl, ahead.moved (position'.trans position.symm)⟩
    rw [nextrecLoop, bind_apply, Prog.run_bind, runs]
    rfl
  | cons r rest ih =>
    obtain ⟨rounds, rfl⟩ := Nat.exists_eq_add_one_of_ne_zero (Nat.ne_zero_of_lt enough)
    have inFiles := ahead.inFiles r (by simp)
    obtain ⟨n, db', runs, at_, position⟩ := dbReadidx_run db inFiles ahead.position
    have key : cstr db'.idxbuf = r.key := by rw [at_.idxbuf, cstr_buf r inFiles.legible]
    have notEnd : ¬ (n : Int) < 0 := by omega
    have steps : (nextrecLoop (rounds + 1) db).run files =
        ((if r.isBlank then nextrecLoop rounds else (pure true : DbM Bool)) db').run files := by
      rw [nextrecLoop, bind_apply, Prog.run_bind, runs]
      simp only [notEnd, if_false, bind_apply, get_apply, Prog.ret_bind, key]
      rfl
    rw [steps]
    simp only [Finds, List.dropWhile_cons]
    cases r.isBlank with
    -- a deleted record is passed over
    | true =>
      exact ih rounds (by rw [List.length_cons] at enough; omega) db' (ahead.next position)
    | false => exact ⟨true, db', rfl, rfl, ⟨n, at_⟩, ahead.next position⟩

/-- What a call of `db_nextrec` returns. -/
def Delivers (files : Files DbFile) (rest : List Rec) (result : Option (Bytes × Bytes)) (db : DB) :
    Prop :=
  match rest.dropWhile Rec.isBlank with
  | [] => result = none ∧ Ahead files db []
  | r :: after => result = some (r.key, r.data) ∧ Ahead files db after

theorem dbNextrec_run (rest : List Rec) (enough : rest.length < maxRounds) (db : DB)
    (ahead : Ahead files db rest) :
    ∃ result db', (dbNextrec db).run files = (.ok (result, db'), files) ∧
      Delivers files rest result db' := by
  obtain ⟨found, db1, runs, finds⟩ := nextrecLoop_run rest maxRounds enough db ahead
  simp only [dbNextrec, bind_apply, readwLock, perform, Prog.op_bind, Prog.ret_bind, Prog.run,
    Op.exec, Prog.run_bind, runs]
  simp only [Finds] at finds
  simp only [Delivers]
  cases cut : rest.dropWhile Rec.isBlank with
  | nil =>
    rw [cut] at finds
    obtain ⟨rfl, done⟩ := finds
    exact ⟨none, db1, rfl, rfl, done⟩
  | cons r after =>
    rw [cut] at finds
    obtain ⟨rfl, ⟨n, at_⟩, later⟩ := finds
    have inFiles : r.InFiles files :=
      ahead.inFiles r ((List.dropWhile_sublist _).subset (by rw [cut]; simp))
    obtain ⟨db2, reads, buf, position⟩ := dbReaddat_run db1 inFiles at_
    have key : cstr db1.idxbuf = r.key := by rw [at_.idxbuf, cstr_buf r inFiles.legible]
    rw [if_pos rfl, bind_apply, get_apply, Prog.ret_bind, bind_apply, Prog.run_bind, reads]
    exact ⟨some (cstr db1.idxbuf, r.data), _, rfl, by rw [key], later.moved position⟩

/-- Calls of `db_nextrec`, one after the other. -/
def nextrecs : Nat → DbM (List (Option (Bytes × Bytes)))
  | 0 => pure []
  | n + 1 => do
    let result ← dbNextrec
    let results ← nextrecs n
    pure (result :: results)

/-- The records that a scan delivers. -/
def delivered (recs : List Rec) : List (Bytes × Bytes) :=
  (recs.filter fun r => !r.isBlank).map fun r => (r.key, r.data)

theorem delivered_dropWhile (recs : List Rec) :
    delivered (recs.dropWhile Rec.isBlank) = delivered recs := by
  induction recs with
  | nil => rfl
  | cons r recs ih =>
    rw [List.dropWhile_cons]
    cases blank : r.isBlank with
    | true => rw [if_pos rfl, ih, delivered, delivered, List.filter_cons_of_neg (by simp [blank])]
    | false => rw [if_neg Bool.false_ne_true]

theorem nextrecs_run (n : Nat) (rest : List Rec) (enough : rest.length < maxRounds) (db : DB)
    (ahead : Ahead files db rest) :
    ∃ db', (nextrecs n db).run files =
      (.ok (((delivered rest).map some ++ List.replicate n none).take n, db'), files) := by
  induction n generalizing rest db with
  | zero => exact ⟨db, rfl⟩
  | succ n ih =>
    obtain ⟨result, db1, runs, delivers⟩ := dbNextrec_run rest enough db ahead
    -- the calls behind the first one
    obtain ⟨after, short, ahead1, listed⟩ : ∃ after : List Rec, after.length ≤ rest.length ∧
        Ahead files db1 after ∧
        ((delivered rest).map some ++ List.replicate (n + 1) none).take (n + 1) =
          result :: ((delivered after).map some ++ List.replicate n none).take n := by
      simp only [Delivers] at delivers
      rw [← delivered_dropWhile]
      have less := (List.dropWhile_sublist (l := rest) Rec.isBlank).length_le
      cases cut : rest.dropWhile Rec.isBlank with
      | nil =>
        rw [cut] at delivers
        obtain ⟨rfl, done⟩ := delivers
        exact ⟨[], Nat.zero_le _, done, rfl⟩
      | cons r after =>
        rw [cut] at delivers less
        obtain ⟨rfl, later⟩ := delivers
        have live := List.head?_dropWhile_not Rec.isBlank rest
        rw [cut] at live
        refine ⟨after, by rw [List.length_cons] at less; omega, later, ?_⟩
        rw [delivered, List.filter_cons_of_pos (by simpa using live), List.map_cons, List.map_cons,
          List.cons_append, List.take_succ_cons, List.take_append, List.take_append,
          List.take_replicate, List.take_replicate, min_eq_left (by omega), min_eq_left (by omega)]
        rfl
    obtain ⟨db2, runs2⟩ := ih after (by omega) db1 ahead1
    refine ⟨db2, ?_⟩
    rw [nextrecs, bind_apply, Prog.run_bind, runs]
    simp only [bind_apply, Prog.run_bind, runs2, listed]
    rfl

/-- A scan from the start. -/
def scan (n : Nat) : DbM (List (Option (Bytes × Bytes))) := do
  dbRewind
  nextrecs n

/-! ### Scans of well-formed files -/

/-- The files are full of these records; the last one may be too far away for a pointer. -/
structure Listed (files : Files DbFile) (recs : List Rec) : Prop where
  tiles : Tiles recordsOff 0 (recs.map Rec.slot) (files .idx).length (files .dat).length
  inFiles : ∀ r ∈ recs, r.InFiles files
  near : (files .idx).length ≤ 2 * ptrMax

/-- Records that pointers can tell apart do not go far beyond them. -/
theorem Tiles.near {recs : List Rec} {n k : Nat}
    (tiles : Tiles recordsOff 0 (recs.map Rec.slot) n k) (sound : ∀ r ∈ recs, r.Sound) :
    n ≤ ptrMax + (ptrSz + idxlenSz + idxlenMax) := by
  refine tiles.end_le (fun slot member => ?_) (by decide)
  obtain ⟨r, among, rfl⟩ := List.mem_map.mp member
  exact ⟨(sound r among).off_le, Nat.add_le_add_left (sound r among).text_le _⟩

theorem WellFormed.listed {recs free : List Rec} {chains : Fin nhashDef → List Rec}
    (formed : WellFormed files recs chains free) : Listed files recs := by
  refine ⟨formed.gapless, formed.inFiles, ?_⟩
  exact (formed.gapless.near fun r member => (formed.sound r member).1).trans (by decide)

theorem Listed.few {recs : List Rec} (listed : Listed files recs) : recs.length < maxRounds := by
  have each (slot : Slot) (member : slot ∈ recs.map Rec.slot) : ptrSz + idxlenSz ≤ slot.size := by
    obtain ⟨r, -, rfl⟩ := List.mem_map.mp member
    exact Nat.le_add_right _ _
  have count := listed.tiles.count_le each
  have near := listed.near
  rw [List.length_map] at count
  simp only [ptrSz, idxlenSz, ptrMax, recordsOff, nhashDef] at count near
  rw [maxRounds, ptrMax]
  omega

theorem scan_run {recs : List Rec} (listed : Listed files recs) (db : DB) (n : Nat) :
    ∃ db', (scan ((delivered recs).length + n) db).run files =
      (.ok ((delivered recs).map some ++ List.replicate n none, db'), files) := by
  have short : (files .idx).length < 2 ^ 63 := Nat.lt_of_le_of_lt listed.near (by decide)
  obtain ⟨db1, at1⟩ : ∃ db1, db1 = { db.setPos recordsOff .idx with idxoff := recordsOff } :=
    ⟨_, rfl⟩
  have rewinds : (scan ((delivered recs).length + n)) db =
      nextrecs ((delivered recs).length + n) db1 := by
    rw [scan, bind_apply, dbRewind, bind_apply, lseek_set .idx recordsOff _ db (by decide),
      Prog.ret_bind, modify_apply, Prog.ret_bind, at1]
  have ahead : Ahead files db1 recs := ⟨⟨0, by rw [at1]; exact listed.tiles⟩, listed.inFiles, short⟩
  obtain ⟨db2, runs⟩ := nextrecs_run ((delivered recs).length + n) recs listed.few db1 ahead
  refine ⟨db2, ?_⟩
  rw [rewinds, runs, List.take_append, List.length_map, Nat.add_sub_cancel_left,
    List.take_replicate, min_eq_left (Nat.le_add_left _ _),
    List.take_of_length_le (by rw [List.length_map]; omega)]

theorem lookup_eq_some {rs : List Rec} {key data : Bytes} (once : (rs.map Rec.key).Nodup) :
    lookup rs key = some data ↔ ∃ r ∈ rs, r.key = key ∧ r.data = data := by
  cases cut : cutAt (hasKey key) rs with
  | none =>
    rw [lookup, cut]
    refine iff_of_false (by simp) ?_
    rintro ⟨r, member, same, -⟩
    exact hasKey_eq_false.mp (cutAt_eq_none.mp cut r member) same
  | some parts_ =>
    obtain ⟨pre, q, post⟩ := parts_
    obtain ⟨whole, keyEq, -⟩ := cutAt_eq_some cut
    have memberQ : q ∈ rs := by rw [whole]; simp
    rw [lookup, cut, Option.map_some, Option.some_inj]
    constructor
    · exact fun same => ⟨q, memberQ, hasKey_iff.mp keyEq, same⟩
    · rintro ⟨r, member, same, rfl⟩
      rw [List.inj_on_of_nodup_map once memberQ member ((hasKey_iff.mp keyEq).trans same.symm)]

/-- What a scan delivers is what the database maps. -/
theorem delivered_map {s : Contents} {recs : List Rec} (fine : s.Fine)
    (formed : WellFormed files recs (fun b => s (.chain b)) (s .free)) :
    ((delivered recs).map Prod.fst).Nodup ∧
      ∀ key data, (key, data) ∈ delivered recs ↔ s.map key = some data := by
  -- the free records are the blank ones
  have live (r : Rec) : (r ∈ recs ∧ r.isBlank = false) ↔ r ∈ s (.chain (bucket r.key)) := by
    rw [← Multiset.mem_coe, formed.once, Multiset.mem_add, Multiset.mem_sum]
    constructor
    · rintro ⟨⟨b, -, chained⟩ | freed, plain⟩
      · rw [(formed.live b r chained).1]
        exact chained
      · rw [(r.isBlank_iff).mpr (formed.blank r freed)] at plain
        cases plain
    · intro chained
      refine ⟨.inl ⟨_, Finset.mem_univ _, chained⟩, ?_⟩
      rw [← Bool.not_eq_true, r.isBlank_iff]
      exact (formed.live _ r chained).2.2
  have mem (r : Rec) : (r ∈ recs.filter fun r => !r.isBlank) ↔ r ∈ s (.chain (bucket r.key)) := by
    rw [← live, List.mem_filter, Bool.not_eq_true']
  -- each record has a place of its own
  have distinct : recs.Nodup := by
    refine formed.apart.imp fun {r q} before same => ?_
    rw [same, Rec.size, ptrSz] at before
    omega
  constructor
  · rw [delivered, List.map_map]
    refine (distinct.filter _).map_on fun r memberR q memberQ same => ?_
    change r.key = q.key at same
    rw [mem] at memberR memberQ
    -- the two have one key, so they are on one chain
    rw [← same] at memberQ
    exact List.inj_on_of_nodup_map (fine (.chain (bucket r.key))).2 memberR memberQ same
  · intro key data
    rw [Contents.map, lookup_eq_some (fine (.chain (bucket key))).2, delivered, List.mem_map]
    constructor
    · rintro ⟨r, member, same⟩
      obtain ⟨rfl, rfl⟩ := Prod.mk.inj same
      exact ⟨r, (mem r).mp member, rfl, rfl⟩
    · rintro ⟨r, member, rfl, rfl⟩
      exact ⟨r, (mem r).mpr member, rfl⟩

/-! ### Scans of a database -/

/-- A key that is not taken for a deleted one. -/
def Call.Plain (c : Call) : Prop := ∃ x ∈ c.key, x ≠ space

instance (c : Call) : Decidable c.Plain := inferInstanceAs (Decidable (∃ x ∈ c.key, x ≠ space))

theorem after_plain (calls : List Call) (s : Contents) (plain : ∀ c ∈ calls, c.Plain)
    (before : ∀ b, ∀ r ∈ s (.chain b), ¬ r.Blank) (b : Fin nhashDef) :
    ∀ r ∈ Contents.after calls s (.chain b), ¬ r.Blank := by
  induction calls generalizing s with
  | nil => exact before b
  | cons c calls ih =>
    obtain ⟨here, later⟩ := List.forall_mem_cons.mp plain
    obtain ⟨x, member, other⟩ := here
    exact ih (c.effect s) later ((effect_change c s).keys (fun key => ¬ ∀ c ∈ key, c = space)
      (fun blank => other (blank x member)) before)

/-- Between any two calls the files are well-formed, and a scan delivers every key of the map with
its data. -/
theorem session_scan (calls : List Call) (proper : ∀ c ∈ calls, c.Proper)
    (plain : ∀ c ∈ calls, c.Plain) (room : Room calls Contents.empty) :
    ∃ db files recs chains free,
      (session calls DB.alloc).run emptyFiles =
      (.ok (repliesOnMap calls fun _ => none, db), files) ∧
      WellFormed files recs chains free ∧
      ((delivered recs).map Prod.fst).Nodup ∧
      (∀ key data, (key, data) ∈ delivered recs ↔ mapAfter calls (fun _ => none) key = some data) ∧
      ∀ db' n, ∃ db'', (scan ((delivered recs).length + n) db').run files =
        (.ok ((delivered recs).map some ++ List.replicate n none, db''), files) := by
  obtain ⟨db0, opens⟩ := dbOpen_run
  obtain ⟨db, files, runs, holds⟩ :=
    runCalls_run calls Contents.empty freshFiles db0 Contents.empty_sane
    proper room freshFiles_holds
  obtain ⟨sane, maps⟩ := Contents.empty_sane.after proper room
  have blankless :=
    after_plain calls Contents.empty plain fun b r member => absurd member List.not_mem_nil
  obtain ⟨recs, formed⟩ := holds.wellFormed sane blankless
  obtain ⟨once, delivers⟩ := delivered_map sane.fine formed
  refine ⟨db, files, recs, _, _, ?_, formed, once, fun key data => ?_, scan_run formed.listed⟩
  · rw [session, bind_apply, Prog.run_bind, opens]
    exact runs
  · rw [delivers, maps, Contents.empty_map]

/-- One key is deleted, and the other one is left. -/
theorem session_scan_deleted :
    let calls : List Call :=
      [.store [107, 49] [97] .insert, .store [107, 50] [98, 99] .insert, .delete [107, 49]]
    (∃ db files recs chains free,
      (session calls DB.alloc).run emptyFiles =
        (.ok (repliesOnMap calls fun _ => none, db), files) ∧
      WellFormed files recs chains free ∧
      ((delivered recs).map Prod.fst).Nodup ∧
      (∀ key data, (key, data) ∈ delivered recs ↔ mapAfter calls (fun _ => none) key = some data) ∧
      ∀ db' n, ∃ db'', (scan ((delivered recs).length + n) db').run files =
        (.ok ((delivered recs).map some ++ List.replicate n none, db''), files)) ∧
      mapAfter calls (fun _ => none) [107, 50] = some [98, 99] :=
  ⟨session_scan _ (by decide) (by decide) (by decide), by decide⟩

end Apue
