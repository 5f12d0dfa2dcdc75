import MyStudy.Apue.DbRecord

/-!
# Access to the records

What each step of the library does to the bytes that a process owns, and from this, what the
functions do that read and write pointers and records.
-/
namespace Apue

open FileProgram Separation

variable {Res : Type} [DecidableEq Res] {P : Protocol DbFile Res} {m : Mode P}

/-! ### Steps

A handle that has changed gets a name of its own, so that what is known of it can be told field by
field. -/

section Steps

variable {α β : Type} {X : Know P} {L : List Res} {A B F : FileAssertion DbFile} {db : DB}
  {Q : β × DB → Know P → List Res → FileHeap DbFile → Prop}

@[simp] theorem DB.pos_setPos (db : DB) (n : Nat) (fd : DbFile) : (db.setPos n fd).pos fd = n := by
  cases fd <;> rfl

theorem step_get {k : DB → DbM β} (rest : Triple m X L A (k db db) Q) :
    Triple m X L A ((get >>= k) db) Q := rest

theorem step_modify {f : DB → DB} {k : PUnit → DbM β}
    (rest : ∀ db', db' = f db → Triple m X L A (k ⟨⟩ db') Q) :
    Triple m X L A (((modify f : DbM PUnit) >>= k) db) Q := rest _ rfl

theorem step_pure {a : α} {k : α → DbM β} (rest : Triple m X L A (k a db) Q) :
    Triple m X L A (((pure a : DbM α) >>= k) db) Q := rest

theorem step_done {b : β} (here : ∀ h, A h → Q (b, db) X L h) :
    Triple m X L A ((pure b : DbM β) db) Q := Triple.ret here

theorem lseek_set (fd : DbFile) (offset : Nat) (message : String) (db : DB)
    (range : offset < 2 ^ 63) :
    lseek fd offset .set message db = .ret (offset, db.setPos offset fd) := by
  have fine : ¬ (((0 : Nat) : Int) + offset < 0 ∨ ((0 : Nat) : Int) + offset ≥ 2 ^ 63) := by omega
  simp only [lseek, bind_apply, get_apply, pure_apply, Prog.ret_bind, fine, if_false, modify_apply]
  simp

theorem lseek_cur (fd : DbFile) (message : String) (db : DB) (range : db.pos fd < 2 ^ 63) :
    lseek fd 0 .cur message db = .ret (db.pos fd, db.setPos (db.pos fd) fd) := by
  have fine : ¬ ((db.pos fd : Int) + 0 < 0 ∨ (db.pos fd : Int) + 0 ≥ 2 ^ 63) := by omega
  simp only [lseek, bind_apply, get_apply, pure_apply, Prog.ret_bind, fine, if_false, modify_apply]
  simp

theorem step_seek {fd : DbFile} {offset : Nat} {message : String} {k : Nat → DbM β}
    (range : offset < 2 ^ 63)
    (rest : ∀ db', db' = db.setPos offset fd → Triple m X L A (k offset db') Q) :
    Triple m X L A ((lseek fd offset .set message >>= k) db) Q := by
  rw [bind_apply, lseek_set fd offset message db range]
  exact rest _ rfl

/-- The end of a file may be too far for an `off_t`. -/
theorem step_seek_end {fd : DbFile} {n : Nat} {message : String} {k : Nat → DbM β}
    (range : m.strict = true → n < 2 ^ 63)
    (rest : n < 2 ^ 63 → ∀ db', db' = db.setPos n fd →
      Triple m X L (fileEnd fd n * F) (k n db') Q) :
    Triple m X L (fileEnd fd n * F) ((lseek fd 0 .end_ message >>= k) db) Q := by
  rw [bind_apply, lseek, bind_apply, get_apply, Prog.ret_bind]
  simp only [bind_apply, perform, Prog.op_bind]
  apply Triple.size
  simp only [Prog.ret_bind]
  by_cases far : n < 2 ^ 63
  · rw [if_neg (by omega)]
    simp only [bind_apply, modify_apply, pure_apply, Prog.ret_bind, add_zero, Int.toNat_natCast]
    exact rest far _ rfl
  · rw [if_pos (by omega)]
    refine Triple.stop ?_
    by_contra strict
    exact far (range (by simpa using strict))

theorem step_read {fd : DbFile} {offset len : Nat} {data : Bytes} {k : Bytes → DbM β}
    (here : db.pos fd = offset) (whole : data.length = len)
    (rest : ∀ db', db' = db.setPos (offset + len) fd →
      Triple m X L (bytes fd offset data * F) (k data db') Q) :
    Triple m X L (bytes fd offset data * F) ((read fd len >>= k) db) Q := by
  subst here whole
  exact Triple.pread rfl (rest _ rfl)

theorem step_overwrite {fd : DbFile} {offset : Nat} {old data : Bytes} {k : PUnit → DbM β}
    (writes : m.writes = true) (here : db.pos fd = offset) (same : old.length = data.length)
    (rest : ∀ db', db' = db.setPos (offset + data.length) fd →
      Triple m X L (bytes fd offset data * F) (k ⟨⟩ db') Q) :
    Triple m X L (bytes fd offset old * F) ((write fd data >>= k) db) Q := by
  subst here
  exact Triple.overwrite writes same (rest _ rfl)

theorem step_append {fd : DbFile} {n : Nat} {data : Bytes} {k : PUnit → DbM β}
    (writes : m.writes = true) (here : db.pos fd = n)
    (rest : ∀ db', db' = db.setPos (n + data.length) fd →
      Triple m X L (bytes fd n data * (fileEnd fd (n + data.length) * F)) (k ⟨⟩ db') Q) :
    Triple m X L (fileEnd fd n * F) ((write fd data >>= k) db) Q := by
  subst here
  exact Triple.append writes (rest _ rfl)

theorem step_call {x : DbM α} {R : α × DB → Prop} {k : α → DbM β} (first : Returns m A (x db) R B)
    (rest : ∀ a db', R (a, db') → Triple m X L (B * F) (k a db') Q) :
    Triple m X L (A * F) ((x >>= k) db) Q := by
  rw [bind_apply]
  exact first.next fun p returned => rest p.1 p.2 returned

/-- A function that takes resources on its way. -/
theorem step_taking {x : DbM α} {R : α × DB → Know P → List Res → FileHeap DbFile → Prop}
    {k : α → DbM β} (first : Triple m X L A (x db) R)
    (rest : ∀ a db' X' L' h, R (a, db') X' L' h → wp m (k a db') X' L' h Q) :
    Triple m X L A ((x >>= k) db) Q := by
  rw [bind_apply]
  exact first.bind fun p => rest p.1 p.2

theorem step_lock {r : Res} {start len : Nat} {fd : DbFile} {k : Unit → DbM β}
    (range : P.range r = ⟨fd, start, len⟩) (writes : m.writes = true) (lockable : m.lockable r)
    (free : r ∉ L)
    (rest : ∀ x, X r x → Triple m X (r :: L) (P.holds r x * F) (k () db) Q) :
    Triple m X L F ((writewLock fd start len >>= k) db) Q := by
  have locked : Triple m X L F (.op (.lock (P.range r) .write) fun u => (k u) db) Q :=
    Triple.lock writes lockable free rest
  rwa [range] at locked

theorem step_unlock {r : Res} {x : P.Content r} {start len : Nat} {fd : DbFile} {k : Unit → DbM β}
    (range : P.range r = ⟨fd, start, len⟩) (lockable : m.lockable r) (held : r ∈ L)
    (allowed : m.allowed r x) (rest : Triple m (m.learn X r x) (L.erase r) F (k () db) Q) :
    Triple m X L (P.holds r x * F) ((unLock fd start len >>= k) db) Q := by
  have unlocked : Triple m X L (P.holds r x * F) (.op (.unlock (P.range r)) fun u => (k u) db) Q :=
    Triple.unlock lockable held allowed rest
  rwa [range] at unlocked

/-- The first part that was taken is given up with all that is owned. -/
theorem step_unlock_last {r : Res} {x : P.Content r} {start len : Nat} {fd : DbFile}
    {k : Unit → DbM β} (range : P.range r = ⟨fd, start, len⟩) (held : r ∈ L)
    (allowed : m.allowed r x) (rest : Triple m (m.learn X r x) (L.erase r) 1 (k () db) Q) :
    Triple m X L (P.holds r x) ((unLock fd start len >>= k) db) Q := by
  have unlocked : Triple m X L (P.holds r x) (.op (.unlock (P.range r)) fun u => (k u) db) Q :=
    Triple.unlock_last held allowed rest
  rwa [range] at unlocked

/-- The last step of a function. -/
theorem step_last {x : DbM β} (rest : Triple m X L A ((x >>= pure) db) Q) :
    Triple m X L A (x db) Q := by
  have same : (x >>= pure) db = x db := Prog.bind_ret (x db)
  rwa [same] at rest

end Steps

@[simp] theorem DB.setPos_idxbuf (db : DB) (n : Nat) (fd : DbFile) :
    (db.setPos n fd).idxbuf = db.idxbuf := by cases fd <;> rfl

@[simp] theorem DB.setPos_idxoff (db : DB) (n : Nat) (fd : DbFile) :
    (db.setPos n fd).idxoff = db.idxoff := by cases fd <;> rfl

@[simp] theorem DB.setPos_datoff (db : DB) (n : Nat) (fd : DbFile) :
    (db.setPos n fd).datoff = db.datoff := by cases fd <;> rfl

@[simp] theorem DB.setPos_datlen (db : DB) (n : Nat) (fd : DbFile) :
    (db.setPos n fd).datlen = db.datlen := by cases fd <;> rfl

@[simp] theorem DB.setPos_ptrval (db : DB) (n : Nat) (fd : DbFile) :
    (db.setPos n fd).ptrval = db.ptrval := by cases fd <;> rfl

@[simp] theorem DB.setPos_ptroff (db : DB) (n : Nat) (fd : DbFile) :
    (db.setPos n fd).ptroff = db.ptroff := by cases fd <;> rfl

@[simp] theorem DB.setPos_chainoff (db : DB) (n : Nat) (fd : DbFile) :
    (db.setPos n fd).chainoff = db.chainoff := by cases fd <;> rfl

/-! ### Pointers -/

theorem dbReadptr_spec (db : DB) (offset n : Nat) (range : offset < 2 ^ 63) (fits : n ≤ ptrMax) :
    Returns m (ptrAt offset n) (dbReadptr offset db)
      (fun p => p.1 = n ∧ p.2 = db.setPos (offset + ptrSz) .idx) (ptrAt offset n) := by
  intro X L F
  have len := length_ptr n fits
  rw [ptrMax] at fits
  rw [dbReadptr]
  apply step_seek range
  rintro db1 rfl
  apply step_read (DB.pos_setPos _ _ _) len
  rintro db2 rfl
  rw [if_neg (by rw [len]; simp), atol_formatWidth ptrSz n (by omega)]
  exact step_done fun h here => ⟨⟨rfl, rfl⟩, rfl, rfl, here⟩

theorem dbWriteptr_spec (writes : m.writes = true) (db : DB) (offset k n : Nat)
    (range : offset < 2 ^ 63) (old : k ≤ ptrMax) (fits : n ≤ ptrMax) :
    Returns m (ptrAt offset k) (dbWriteptr offset n db)
      (fun p => p.2 = db.setPos (offset + ptrSz) .idx) (ptrAt offset n) := by
  intro X L F
  have len := length_ptr n fits
  rw [dbWriteptr, if_neg (by omega)]
  apply step_seek range
  rintro db1 rfl
  apply step_last
  apply step_overwrite writes (DB.pos_setPos _ _ _) ((length_ptr k old).trans len.symm)
  rintro db2 rfl
  rw [len]
  exact step_done fun h here => ⟨rfl, rfl, rfl, here⟩

/-- A pointer to a record that may be too far away. -/
theorem dbWriteptr_far (writes : m.writes = true) (db : DB) (offset k n : Nat)
    (range : offset < 2 ^ 63) (old : k ≤ ptrMax) (fits : m.strict = true → n ≤ ptrMax) :
    Returns m (ptrAt offset k) (dbWriteptr offset n db)
      (fun p => n ≤ ptrMax ∧ p.2.chainoff = db.chainoff) (ptrAt offset n) := by
  by_cases near : n ≤ ptrMax
  · apply (dbWriteptr_spec writes db offset k n range old near).mono
    intro p moved
    rw [moved]
    exact ⟨near, DB.setPos_chainoff _ _ _⟩
  · rw [dbWriteptr, if_pos (by omega)]
    refine Returns.stop ?_
    by_contra strict
    exact near (fits (by simpa using strict))

/-! ### Records -/

/-- What `_db_readidx` leaves behind. -/
structure DB.At (db : DB) (r : Rec) (n : Nat) : Prop where
  idxbuf : db.idxbuf = r.buf
  datoff : db.datoff = r.datoff
  datlen : db.datlen = r.data.length + 1
  ptrval : db.ptrval = n
  idxoff : db.idxoff = r.off

/-- Which chain a call is about, and where it is in it. -/
def DB.place (db : DB) : Int × Nat := (db.ptroff, db.chainoff)

/-- `_db_readidx` starts where the record is, by the offset that it is given or by its position. -/
def DB.Seeks (db : DB) (offset : Int) (r : Rec) : Prop :=
  offset = r.off ∨ (offset = 0 ∧ db.idxpos = r.off)

theorem DB.Seeks.lseek {db : DB} {offset : Int} {r : Rec} (seeks : db.Seeks offset r)
    (legible : r.Legible) (message : String) :
    lseek .idx offset (if offset = 0 then .cur else .set) message db =
      .ret (r.off, db.setPos r.off .idx) := by
  rcases seeks with rfl | ⟨rfl, position⟩
  · rw [if_neg (by simpa using legible.off_pos)]
    exact lseek_set .idx r.off message db legible.off_lt
  · rw [if_pos rfl, ← position]
    exact lseek_cur .idx message db (by rw [DB.pos, position]; exact legible.off_lt)

theorem dbReadidx_from (db : DB) (offset : Int) (r : Rec) (n : Nat) (seeks : db.Seeks offset r)
    (legible : r.Legible) (fits : n ≤ ptrMax) (readable : m.strict = true → r.Readable) :
    Returns m (ptrAt r.off n * r.rest) (dbReadidx offset db)
      (fun p => p.1 = n ∧ p.2.At r n ∧ p.2.place = db.place ∧
        p.2.idxpos = r.off + (ptrSz + idxlenSz + r.text.length)) (ptrAt r.off n * r.rest) := by
  intro X L F
  obtain ⟨off, sound⟩ := legible.elsewhere
  have short := legible.text_le
  have long : idxlenMin ≤ r.text.length := sound.text_ge
  have ptrLen := length_ptr n fits
  rw [idxlenMax] at short
  rw [idxlenMin] at long
  have lenLen : (formatWidth idxlenSz r.text.length).length = idxlenSz :=
    length_formatWidth idxlenSz _ (by decide) (by rw [idxlenSz]; omega)
  have frontLen : (formatWidth ptrSz n ++ formatWidth idxlenSz r.text.length).length =
      ptrSz + idxlenSz := by
    rw [List.length_append, ptrLen, lenLen]
  have ptrval : atol ((formatWidth ptrSz n ++ formatWidth idxlenSz r.text.length).take ptrSz) =
      n := by
    rw [ptrMax] at fits
    rw [List.take_left' ptrLen]
    exact atol_formatWidth ptrSz n (by omega)
  have idxlen : Zn.atoi ((formatWidth ptrSz n ++ formatWidth idxlenSz r.text.length).drop ptrSz) =
      r.text.length := by
    rw [List.drop_left' ptrLen]
    exact atoi_formatWidth idxlenSz _ (by omega)
  have textLast : r.text.getLast? = some newline := by
    rw [Rec.text, ← List.cons_append, ← List.append_assoc, ← List.cons_append, ← List.append_assoc,
      List.getLast?_concat]
  have notShort : ¬ (formatWidth ptrSz n ++ formatWidth idxlenSz r.text.length).length ≠
      ptrSz + idxlenSz := by simpa using frontLen
  have inRange : ¬ ((r.text.length : Int) < idxlenMin ∨ (r.text.length : Int) > idxlenMax) := by
    rw [idxlenMin, idxlenMax]
    omega
  rw [record_eq r n legible.text_le fits, mul_assoc, dbReadidx, bind_apply, seeks.lseek legible,
    Prog.ret_bind]
  obtain ⟨db1, at1⟩ : ∃ db1, db1 = db.setPos r.off .idx := ⟨_, rfl⟩
  rw [← at1]
  apply step_modify
  intro db2 at2
  -- the pointer and the length
  apply step_read (by rw [at2, at1]; cases db; rfl) frontLen
  intro db3 at3
  rw [if_neg notShort, ptrval, idxlen, if_neg inRange, Int.toNat_natCast]
  apply step_modify
  intro db4 at4
  -- the line
  rw [mul_left_comm, mul_assoc]
  apply step_read (by rw [at4, at3, at2, at1]; cases db; rfl) rfl
  intro db5 at5
  rw [if_neg (by simp), if_neg (by simpa using textLast)]
  apply step_modify
  intro db6 at6
  have line : db6.idxbuf = r.text.dropLast ++ [0] := by rw [at6]
  rw [bind_apply]
  by_cases parts : r.Readable
  · have parsed : dbParseidx db6 = .ret (⟨⟩, db6.parsed r) :=
      dbParseidx_readable db6 { r with off } sound parts line
    rw [parsed, Prog.ret_bind]
    refine step_done fun h here => ⟨⟨rfl, ⟨rfl, rfl, rfl, ?_, ?_⟩, ?_, ?_⟩, rfl, rfl, here⟩
    · rw [DB.parsed, at6, at5, at4]
      rfl
    · rw [DB.parsed, at6, at5, at4, at3, at2]
      rfl
    · rw [DB.parsed, at6, at5, at4, at3, at2, at1]
      rfl
    · rw [DB.parsed, at6, at5]
      exact Nat.add_assoc _ _ _
  · rw [dbParseidx_unreadable db6 { r with off } sound parts line]
    refine Triple.stop ?_
    by_contra strict
    exact parts (readable (by simpa using strict))

theorem dbReadidx_spec (db : DB) (r : Rec) (n : Nat) (sound : r.Sound) (fits : n ≤ ptrMax)
    (readable : m.strict = true → r.Readable) :
    Returns m (ptrAt r.off n * r.rest) (dbReadidx r.off db)
      (fun p => p.1 = n ∧ p.2.At r n ∧ p.2.place = db.place) (ptrAt r.off n * r.rest) :=
  (dbReadidx_from db r.off r n (.inl rfl) sound.legible fits readable).mono
    fun _ ⟨next, at_, place, _⟩ =>
    ⟨next, at_, place⟩

theorem cstr_buf (r : Rec) (legible : r.Legible) : cstr r.buf = r.key :=
  cstr_terminated _ _ legible.keyText

theorem dbReaddat_spec (db : DB) (r : Rec) (n : Nat) (legible : r.Legible) (at_ : db.At r n) :
    Returns m (bytes .dat r.datoff (r.data ++ [newline])) (dbReaddat db)
      (fun p =>
      p.1 = r.data ∧ p.2.chainoff = db.chainoff ∧ p.2.idxbuf = db.idxbuf ∧ p.2.idxpos = db.idxpos)
      (bytes .dat r.datoff (r.data ++ [newline])) := by
  intro X L F
  obtain ⟨_, sound⟩ := legible.elsewhere
  have dataText : 0 ∉ r.data := sound.dataText
  have len : (r.data ++ [newline]).length = db.datlen := by
    rw [at_.datlen, List.length_append, List.length_singleton]
  rw [dbReaddat]
  apply step_get
  rw [at_.datoff]
  apply step_seek sound.datoff_lt
  intro db1 at1
  -- the length that the index gives is that of the data with their newline
  apply step_read (by rw [at1, DB.pos_setPos]) len
  intro db2 at2
  rw [if_neg (by simpa using len), if_neg (by simp), List.dropLast_concat]
  apply step_modify
  intro db3 at3
  rw [cstr_terminated _ _ dataText]
  refine step_done fun h here => ⟨⟨rfl, ?_, ?_, ?_⟩, rfl, rfl, here⟩
  all_goals
    rw [at3, at2, at1]
    rfl

theorem dbWritedat_spec (writes : m.writes = true) (db : DB) (datoff : Nat) (old data : Bytes)
    (range : datoff < 2 ^ 63) (same : old.length = data.length + 1) :
    Returns m (bytes .dat datoff old) (dbWritedat data datoff .set db)
      (fun p => p.2.datoff = datoff ∧ p.2.datlen = data.length + 1 ∧ p.2.idxbuf = db.idxbuf ∧
        p.2.idxoff = db.idxoff ∧ p.2.ptrval = db.ptrval ∧ p.2.place = db.place)
      (bytes .dat datoff (data ++ [newline])) := by
  intro X L F
  rw [dbWritedat, if_neg (by decide)]
  apply step_seek range
  intro db1 at1
  apply step_modify
  intro db2 at2
  apply step_overwrite writes (by rw [at2, at1]; cases db; rfl) (by simpa using same)
  intro db3 at3
  rw [if_neg (by decide)]
  refine step_done fun h here => ⟨⟨?_, ?_, ?_, ?_, ?_, ?_⟩, rfl, rfl, here⟩
  · rw [at3, at2]
    rfl
  · rw [at3, at2]
    rfl
  all_goals
    rw [at3, at2, at1]
    rfl

/-- The record as it is written. -/
def Rec.line (r : Rec) (n : Nat) : Bytes := formatWidth ptrSz n ++ r.tail

theorem line_eq (r : Rec) (n : Nat) (fits : n ≤ ptrMax) :
    bytes .idx r.off (r.line n) = ptrAt r.off n * bytes .idx (r.off + ptrSz) r.tail := by
  rw [Rec.line, bytes_append, length_ptr n fits, ptrAt]

theorem length_line (r : Rec) (n : Nat) (sound : r.Sound) (fits : n ≤ ptrMax) :
    (r.line n).length = ptrSz + idxlenSz + r.text.length := by
  rw [Rec.line, List.length_append, length_ptr n fits, r.length_tail sound, Nat.add_assoc]

theorem dbWriteidx_spec (writes : m.writes = true) (db : DB) (r : Rec) (n : Nat) (old : Bytes)
    (sound : r.Sound) (fits : n ≤ ptrMax) (datoff : db.datoff = r.datoff)
    (datlen : db.datlen = r.data.length + 1) (same : old.length = (r.line n).length) :
    Returns m (bytes .idx r.off old) (dbWriteidx r.key r.off .set n db)
      (fun p => p.2.idxoff = r.off ∧ p.2.place = db.place) (bytes .idx r.off (r.line n)) := by
  intro X L F
  have short := sound.text_le
  have long := sound.text_ge
  have near := sound.off_le
  rw [ptrMax] at near
  rw [dbWriteidx]
  apply step_modify
  intro db1 at1
  rw [if_neg (by omega)]
  apply step_get
  -- the record as `sprintf` writes it
  have text : r.key ++ sep :: (decimal db1.datoff ++ sep :: (decimal db1.datlen ++ [newline])) =
      r.text := by
    rw [at1]
    simp only [datoff, datlen]
    rfl
  rw [text, if_neg (by omega)]
  apply step_modify
  intro db2 at2
  rw [if_neg (by omega), if_neg (by decide)]
  apply step_seek (by omega)
  intro db3 at3
  apply step_modify
  intro db4 at4
  -- `writev` puts the pointer and the length before it
  have line : formatWidth ptrSz n ++ formatWidth idxlenSz r.text.length ++ r.text = r.line n := by
    rw [Rec.line, Rec.tail, List.append_assoc]
  rw [line]
  apply step_overwrite writes (by rw [at4, at3]; cases db2; rfl) same
  intro db5 at5
  rw [if_neg (by decide)]
  refine step_done fun h here => ⟨⟨?_, ?_⟩, rfl, rfl, here⟩
  · rw [at5, at4]
    rfl
  · rw [at5, at4, at3, at2, at1]
    rfl

/-! ### Searches -/

def hasKey (key : Bytes) (r : Rec) : Bool := r.key = key

/-- A record that another one of the sizes fits into. -/
def hasSizes (keylen datlen : Nat) (r : Rec) : Bool :=
  r.key.length = keylen ∧ r.data.length + 1 = datlen

/-- What `_db_find_and_lock` says of the chain at an offset. -/
def Found (key : Bytes) (c : Nat) (rs : List Rec) (found : Int) (db : DB) : Prop :=
  match cutAt (hasKey key) rs with
  | none => found = -1
  | some (pre, r, post) => found = 0 ∧ db.At r (headOff post) ∧ db.ptroff = lastOff c pre

theorem findLoop_spec (key : Bytes) (rs : List Rec) (rounds : Nat) (db : DB) (c : Nat)
    (enough : rs.length < rounds) (sound : ∀ r ∈ rs, r.Sound)
    (readable : m.strict = true → ∀ r ∈ rs, r.Readable) (ptroff : db.ptroff = c) :
    Returns m (chainAt rs) (findLoop key rounds (headOff rs) db)
      (fun p => p.2.chainoff = db.chainoff ∧ Found key c rs p.1 p.2) (chainAt rs) := by
  induction rs generalizing rounds db c with
  | nil =>
    obtain ⟨rounds, rfl⟩ := Nat.exists_eq_add_of_lt enough
    intro X L F
    exact step_done fun h here => ⟨⟨rfl, rfl⟩, rfl, rfl, here⟩
  | cons r rs ih =>
    obtain ⟨rounds, rfl⟩ := Nat.exists_eq_add_one_of_ne_zero (Nat.ne_zero_of_lt enough)
    obtain ⟨here, later⟩ := List.forall_mem_cons.mp sound
    have first (strict : m.strict = true) := readable strict r (by simp)
    have others (strict : m.strict = true) (q : Rec) (member : q ∈ rs) : q.Readable :=
      readable strict q (by simp [member])
    -- a chain that goes on has a pointer that is not 0
    have notEnd : ¬ (r.off : Int) = 0 := by simpa using here.off_pos
    intro X L F
    rw [headOff, findLoop, if_neg notEnd, chainAt, mul_assoc]
    apply step_call (dbReadidx_spec db r _ here (headOff_le rs later) first)
    rintro _ db1 ⟨rfl, at1, place1⟩
    have chainoff1 := congrArg Prod.snd place1
    have ptroff1 := congrArg Prod.fst place1
    apply step_get
    rw [at1.idxbuf, cstr_buf r here.legible]
    by_cases match_ : r.key = key
    · rw [if_pos match_]
      refine step_done fun h owned => ⟨⟨chainoff1, ?_⟩, rfl, rfl, owned⟩
      rw [Found, cutAt, if_pos (by simpa [hasKey] using match_)]
      exact ⟨rfl, at1, ptroff1.trans ptroff⟩
    · rw [if_neg match_]
      -- `ptroff` follows: the next record is pointed to from this one
      apply step_modify
      intro db2 at2
      rw [mul_left_comm]
      apply (ih rounds db2 r.off (by simpa using enough) later others (by rw [at2]) X L _).mono
      rintro ⟨found, db3⟩ _ _ h ⟨⟨chainoff3, found3⟩, rfl, rfl, owned⟩
      refine ⟨⟨?_, ?_⟩, rfl, rfl, ?_⟩
      · rw [chainoff3, at2]
        exact chainoff1
      · rw [Found] at found3
        rw [Found, cutAt, if_neg (by simpa [hasKey] using match_)]
        cases cut : cutAt (hasKey key) rs with
        | none =>
          rw [cut] at found3
          exact found3
        | some parts =>
          rw [cut] at found3
          exact found3
      · exact owned

/-- What `_db_findfree` says of the chain at an offset. -/
def FoundFree (keylen datlen c : Nat) (rs : List Rec) (found : Option Int) (db : DB) : Prop :=
  match cutAt (hasSizes keylen datlen) rs with
  | none => found = none
  | some (pre, r, post) => found = some (lastOff c pre : Int) ∧ db.At r (headOff post)

theorem findfreeLoop_spec (keylen datlen : Nat) (rs : List Rec) (rounds : Nat) (db : DB) (c : Nat)
    (enough : rs.length < rounds) (sound : ∀ r ∈ rs, r.Sound)
    (readable : m.strict = true → ∀ r ∈ rs, r.Readable) :
    Returns m (chainAt rs) (findfreeLoop keylen datlen rounds c (headOff rs) db)
      (fun p => p.2.place = db.place ∧ FoundFree keylen datlen c rs p.1 p.2) (chainAt rs) := by
  induction rs generalizing rounds db c with
  | nil =>
    obtain ⟨rounds, rfl⟩ := Nat.exists_eq_add_of_lt enough
    intro X L F
    exact step_done fun h here => ⟨⟨rfl, rfl⟩, rfl, rfl, here⟩
  | cons r rs ih =>
    obtain ⟨rounds, rfl⟩ := Nat.exists_eq_add_one_of_ne_zero (Nat.ne_zero_of_lt enough)
    obtain ⟨here, later⟩ := List.forall_mem_cons.mp sound
    have first (strict : m.strict = true) := readable strict r (by simp)
    have others (strict : m.strict = true) (q : Rec) (member : q ∈ rs) : q.Readable :=
      readable strict q (by simp [member])
    have notEnd : ¬ (r.off : Int) = 0 := by simpa using here.off_pos
    intro X L F
    rw [headOff, findfreeLoop, if_neg notEnd, chainAt, mul_assoc]
    apply step_call (dbReadidx_spec db r _ here (headOff_le rs later) first)
    rintro _ db1 ⟨rfl, at1, place1⟩
    apply step_get
    rw [at1.idxbuf, cstr_buf r here.legible, at1.datlen]
    by_cases match_ : r.key.length = keylen ∧ r.data.length + 1 = datlen
    · rw [if_pos match_]
      refine step_done fun h owned => ⟨⟨place1, ?_⟩, rfl, rfl, owned⟩
      rw [FoundFree, cutAt, if_pos (by simpa [hasSizes] using match_)]
      exact ⟨rfl, at1⟩
    · -- the caller has the offset in a variable of its own here
      rw [if_neg match_, mul_left_comm]
      apply (ih rounds db1 r.off (by simpa using enough) later others X L _).mono
      rintro ⟨found, db2⟩ _ _ h ⟨⟨place2, found2⟩, rfl, rfl, owned⟩
      refine ⟨⟨place2.trans place1, ?_⟩, rfl, rfl, owned⟩
      rw [FoundFree] at found2
      rw [FoundFree, cutAt, if_neg (by simpa [hasSizes] using match_)]
      cases cut : cutAt (hasSizes keylen datlen) rs with
      | none =>
        rw [cut] at found2
        exact found2
      | some parts =>
        rw [cut] at found2
        exact found2

end Apue
