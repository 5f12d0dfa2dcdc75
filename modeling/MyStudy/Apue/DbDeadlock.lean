import MyStudy.Apue.DbAlone
import MyStudy.Lib.FileOwners
import MyStudy.Lib.LockOrder

/-!
# Processes that wait

A call locks its chain first, and then at most one of the free list and the ends of the files at a
time; a scan locks the free list only, and to open the database locks the whole index file while
nothing else is held. So no processes wait for one another in a circle, whatever is in the files.
-/
namespace Apue

open FileProgram

/-- The chains rank before the free list and the ends of the files. -/
def lockRank : DbFile → Nat → Nat
  | .idx, i => if hashOff ≤ i ∧ i < recordsOff then 0 else 1
  | .dat, _ => 1

theorem lockRank_lt (file : DbFile) (i : Nat) : lockRank file i < 2 := by
  cases file with
  | idx =>
    rw [lockRank]
    split
    · exact Nat.zero_lt_two
    · exact Nat.one_lt_two
  | dat => exact Nat.one_lt_two

/-! ### What a function holds -/

/-- A function that is called with the locks `held` returns with `held'`, and with the same
chain. -/
def Moves {α : Type} (held held' : List (Range DbFile)) (x : DbM α) : Prop :=
  ∀ db, (x db).InOrder lockRank held fun p left => left = held' ∧ p.2.chainoff = db.chainoff

abbrev Balanced {α : Type} (held : List (Range DbFile)) (x : DbM α) : Prop := Moves held held x

namespace Moves

variable {α β : Type} {held held' held'' : List (Range DbFile)}

theorem ret (a : α) : Balanced held (pure a) := fun _ => ⟨rfl, rfl⟩

theorem bind {x : DbM α} {k : α → DbM β} (first : Moves held held' x)
    (rest : ∀ a, Moves held' held'' (k a)) :
    Moves held held'' (x >>= k) := by
  intro db
  rw [bind_apply]
  refine (first db).bind fun p left same => ?_
  obtain ⟨rfl, chainoff⟩ := same
  exact (rest p.1 p.2).mono fun q left' same' => ⟨same'.1, same'.2.trans chainoff⟩

theorem get_bind {k : DB → DbM β} (rest : ∀ db, Moves held held' (k db)) :
    Moves held held' (get >>= k) :=
  fun db => rest db db

theorem change {f : DB → DB} (keeps : ∀ db, (f db).chainoff = db.chainoff) :
    Balanced held (modify f) := fun db => ⟨rfl, keeps db⟩

theorem stop (why : Stop) : Moves held held' (fun _ => .stop why : DbM α) := fun _ => trivial

theorem ite {c : Prop} [Decidable c] {x y : DbM α} (yes : c → Moves held held' x)
    (no : ¬ c → Moves held held' y) :
    Moves held held' (if c then x else y) := by
  split
  next holds => exact yes holds
  next fails => exact no fails

theorem size (fd : DbFile) : Balanced held (perform (.size fd)) :=
  fun _ => ⟨trivial, fun _ => ⟨rfl, rfl⟩⟩

theorem pread (fd : DbFile) (offset len : Nat) : Balanced held (perform (.pread fd offset len)) :=
  fun _ => ⟨trivial, fun _ => ⟨rfl, rfl⟩⟩

theorem pwrite (fd : DbFile) (offset : Nat) (data : Bytes) :
    Balanced held (perform (.pwrite fd offset data)) :=
  fun _ => ⟨trivial, fun _ => ⟨rfl, rfl⟩⟩

theorem lock {range : Range DbFile} {kind : LockKind}
    (behind : (Op.lock range kind).Behind lockRank held) :
    Moves held (range :: held) (perform (.lock range kind)) :=
      fun _ => ⟨behind, fun _ => ⟨rfl, rfl⟩⟩

theorem unlock {range : Range DbFile} (once : range ∉ held) :
    Moves (range :: held) held (perform (.unlock range)) := by
  refine fun _ => ⟨trivial, fun _ => ⟨?_, rfl⟩⟩
  rw [Op.ranges, List.filter_cons_of_neg (by simp), List.filter_eq_self]
  intro range' member
  simp only [ne_eq, decide_eq_true_eq]
  rintro rfl
  exact once member

end Moves

variable {held : List (Range DbFile)}

/-! ### Functions that take no lock -/

theorem lseek_balanced (fd : DbFile) (offset : Int) (whence : Whence) (message : String) :
    Balanced held (lseek fd offset whence message) := by
  refine .get_bind fun db => ?_
  have seek (start : Nat) :
    Balanced held (if (start : Int) + offset < 0 ∨ (start : Int) + offset ≥ 2 ^ 63 then
        errDump message
      else do
        modify fun db => db.setPos (start + offset).toNat fd
        pure (start + offset).toNat) :=
    .ite (fun _ => .stop _) fun _ =>
      .bind (.change fun _ => DB.setPos_chainoff _ _ _) fun _ => .ret _
  cases whence with
  | set => exact .bind (.ret _) seek
  | cur => exact .bind (.ret _) seek
  | end_ => exact .bind (.size fd) seek

theorem read_balanced (fd : DbFile) (len : Nat) : Balanced held (read fd len) :=
  .get_bind fun _ =>
    .bind (.pread _ _ _) fun _ => .bind (.change fun _ => DB.setPos_chainoff _ _ _) fun _ => .ret _

theorem write_balanced (fd : DbFile) (data : Bytes) : Balanced held (write fd data) :=
  .get_bind fun _ => .bind (.pwrite _ _ _) fun _ => .change fun _ => DB.setPos_chainoff _ _ _

theorem dbReadptr_balanced (offset : Int) : Balanced held (dbReadptr offset) :=
  .bind (lseek_balanced _ _ _ _) fun _ => .bind (read_balanced _ _) fun _ =>
    .ite (fun _ => .stop _) fun _ => .ret _

theorem dbWriteptr_balanced (offset ptrval : Int) : Balanced held (dbWriteptr offset ptrval) :=
  .ite (fun _ => .stop _) fun _ => .bind (lseek_balanced _ _ _ _) fun _ => write_balanced _ _

theorem dbParseidx_balanced : Balanced held dbParseidx := by
  intro db
  rw [dbParseidx, bind_apply, get_apply, Prog.ret_bind]
  dsimp only
  cases strchr db.idxbuf sep with
  | none => trivial
  | some p =>
    dsimp only
    cases strchr ((db.idxbuf.set p 0).drop (p + 1)) sep with
    | none => trivial
    | some q =>
      dsimp only
      split
      · trivial
      · split
        · trivial
        · split
          · trivial
          · exact ⟨rfl, rfl⟩

theorem dbReadidx_balanced (offset : Int) : Balanced held (dbReadidx offset) := by
  refine .bind (lseek_balanced _ _ _ _) fun _ => .bind (.change fun _ => rfl) fun _ =>
    .bind (read_balanced _ _) fun front =>
      .ite (fun _ => .ite (fun _ => .ret _) fun _ => .stop _) fun _ => ?_
  refine .ite (fun _ => .stop _) fun _ => .bind (.change fun _ => rfl) fun _ =>
    .bind (read_balanced _ _) fun text =>
      .ite (fun _ => .stop _) fun _ => .ite (fun _ => .stop _) fun _ => ?_
  exact .bind (.change fun _ => rfl) fun _ => .bind dbParseidx_balanced fun _ => .ret _

theorem dbReaddat_balanced : Balanced held dbReaddat := by
  refine .get_bind fun db =>
    .bind (lseek_balanced _ _ _ _) fun _ => .bind (read_balanced _ _) fun data => ?_
  refine .ite (fun _ => .stop _) fun _ => .ite (fun _ => .stop _) fun _ => ?_
  exact .bind (.change fun _ => rfl) fun _ => .ret _

theorem findLoop_balanced (key : Bytes) (rounds : Nat) (offset : Int) :
    Balanced held (findLoop key rounds offset) := by
  induction rounds generalizing offset with
  | zero => exact .stop _
  | succ rounds ih =>
    refine .ite (fun _ => .ret _) fun _ =>
      .bind (dbReadidx_balanced _) fun next => .get_bind fun db => ?_
    exact .ite (fun _ => .ret _) fun _ => .bind (.change fun _ => rfl) fun _ => ih next

theorem findfreeLoop_balanced (keylen datlen rounds : Nat) (saveoffset offset : Int) :
    Balanced held (findfreeLoop keylen datlen rounds saveoffset offset) := by
  induction rounds generalizing saveoffset offset with
  | zero => exact .stop _
  | succ rounds ih =>
    refine .ite (fun _ => .ret _) fun _ =>
      .bind (dbReadidx_balanced _) fun next => .get_bind fun db => ?_
    exact .ite (fun _ => .ret _) fun _ => ih offset next

theorem nextrecLoop_balanced (rounds : Nat) : Balanced held (nextrecLoop rounds) := by
  induction rounds with
  | zero => exact .stop _
  | succ rounds ih =>
    refine .bind (dbReadidx_balanced _)
      fun next => .ite (fun _ => .ret _) fun _ => .get_bind fun db => ?_
    exact .ite (fun _ => ih) fun _ => .ret _

/-! ### Functions that lock the free list or the end of a file -/

/-- The locks of a process that has locked a chain. -/
abbrev chainHeld (b : Fin nhashDef) : List (Range DbFile) := [Part.range (.chain b)]

theorem lockRank_chain (b : Fin nhashDef) {i : Nat}
    (covers : (Part.range (.chain b)).Covers .idx i) :
    lockRank .idx i = 0 := by
  obtain ⟨-, first, last⟩ := covers
  have := b.isLt
  simp only [Part.range, chainOff, hashOff, ptrSz, nhashDef] at first last this
  exact if_pos (by simp only [hashOff, recordsOff, ptrSz, nhashDef]; omega)

theorem lockRank_part {part : Part} (other : ∀ b, part ≠ .chain b) {i : Nat}
    (covers : part.range.Covers part.range.file i) :
    lockRank part.range.file i = 1 := by
  obtain ⟨-, first, last⟩ := covers
  cases part with
  | chain b => exact absurd rfl (other b)
  | free =>
    simp only [Part.range, freeOff] at last
    exact if_neg (by simp only [hashOff, ptrSz]; omega)
  | idxEnd =>
    simp only [Part.range] at first
    exact if_neg (by omega)
  | datEnd => rfl

theorem part_behind {part : Part} (other : ∀ b, part ≠ .chain b) (b : Fin nhashDef)
    (kind : LockKind) :
    (Op.lock part.range kind).Behind lockRank (chainHeld b) := by
  intro range' member i j covers covers'
  obtain rfl := List.mem_singleton.mp member
  rw [lockRank_part other covers', show (Part.range (.chain b)).file = DbFile.idx from rfl,
    lockRank_chain b covers]
  exact Nat.zero_lt_one

theorem datEnd_ne_chain (b : Fin nhashDef) : Part.datEnd ≠ .chain b := nofun

theorem idxEnd_ne_chain (b : Fin nhashDef) : Part.idxEnd ≠ .chain b := nofun

theorem part_new {part : Part} (other : ∀ b, part ≠ .chain b) (b : Fin nhashDef) :
    part.range ∉ chainHeld b := by
  intro member
  exact other b (range_inj (P := parts).mp (List.mem_singleton.mp member))

section Chain

variable {b : Fin nhashDef}

theorem lock_free (kind : LockKind) :
    Moves (chainHeld b) (Part.free.range :: chainHeld b) (perform (.lock Part.free.range kind)) :=
  .lock (part_behind (by simp) b kind)

theorem unlock_free :
    Moves (Part.free.range :: chainHeld b) (chainHeld b) (perform (.unlock Part.free.range)) :=
  .unlock (part_new (by simp) b)

/-- `_db_writedat`; at the end of the data file it locks the whole of it. -/
theorem dbWritedat_balanced (data : Bytes) (offset : Nat) (whence : Whence) :
    Balanced (chainHeld b) (dbWritedat data offset whence) := by
  rw [dbWritedat]
  refine .ite (fun atEnd => ?_) fun other => ?_
  · refine .bind (.lock (part_behind datEnd_ne_chain b .write)) fun _ => ?_
    refine .bind (lseek_balanced _ _ _ _) fun _ => .bind (.change fun _ => rfl) fun _ =>
      .bind (write_balanced _ _) fun _ => .ite (fun _ => ?_) fun other => absurd atEnd other
    exact .unlock (part_new datEnd_ne_chain b)
  · refine .bind (lseek_balanced _ _ _ _) fun _ => .bind (.change fun _ => rfl) fun _ =>
      .bind (write_balanced _ _) fun _ => .ite (fun atEnd => absurd atEnd other) fun _ => .ret _

/-- `_db_writedat` elsewhere, whatever is locked. -/
theorem set_not_end : Whence.set ≠ .end_ := by decide

theorem dbWritedat_set (data : Bytes) (offset : Nat) :
    Balanced held (dbWritedat data offset .set) := by
  rw [dbWritedat]
  refine .ite (fun atEnd => absurd atEnd set_not_end)
    fun _ => .bind (lseek_balanced _ _ _ _) fun _ =>
    .bind (.change fun _ => rfl) fun _ => .bind (write_balanced _ _) fun _ => ?_
  exact .ite (fun atEnd => absurd atEnd set_not_end) fun _ => .ret _

theorem dbWriteidx_balanced (key : Bytes) (offset : Nat) (whence : Whence) (ptrval : Int) :
    Balanced (chainHeld b) (dbWriteidx key offset whence ptrval) := by
  refine .bind (.change fun _ => rfl) fun _ => .ite (fun _ => .stop _) fun _ => .get_bind fun db =>
    .ite (fun _ => .stop _) fun _ =>
      .bind (.change fun _ => rfl) fun _ => .ite (fun _ => .stop _) fun _ => ?_
  refine .ite (fun atEnd => ?_) fun other => ?_
  · refine .bind (.lock (part_behind idxEnd_ne_chain b .write)) fun _ => ?_
    refine .bind (lseek_balanced _ _ _ _) fun _ => .bind (.change fun _ => rfl) fun _ =>
      .bind (write_balanced _ _) fun _ => .ite (fun _ => ?_) fun other => absurd atEnd other
    exact .unlock (part_new idxEnd_ne_chain b)
  · refine .bind (lseek_balanced _ _ _ _) fun _ => .bind (.change fun _ => rfl) fun _ =>
      .bind (write_balanced _ _) fun _ => .ite (fun atEnd => absurd atEnd other) fun _ => .ret _

theorem dbWriteidx_set (key : Bytes) (offset : Nat) (ptrval : Int) :
    Balanced held (dbWriteidx key offset .set ptrval) := by
  refine .bind (.change fun _ => rfl) fun _ => .ite (fun _ => .stop _) fun _ => .get_bind fun db =>
    .ite (fun _ => .stop _) fun _ =>
      .bind (.change fun _ => rfl) fun _ => .ite (fun _ => .stop _) fun _ => ?_
  refine .ite (fun atEnd => absurd atEnd set_not_end)
    fun _ => .bind (lseek_balanced _ _ _ _) fun _ =>
    .bind (.change fun _ => rfl) fun _ => .bind (write_balanced _ _) fun _ => ?_
  exact .ite (fun atEnd => absurd atEnd set_not_end) fun _ => .ret _

theorem dbDodelete_balanced : Balanced (chainHeld b) dbDodelete := by
  refine .bind (.change fun _ => rfl)
    fun _ => .bind (lock_free .write) fun _ => .get_bind fun db => ?_
  refine .bind (dbWritedat_set _ _) fun _ =>
    .bind (dbReadptr_balanced _) fun freeptr => .get_bind fun db => ?_
  refine .bind (dbWriteidx_set _ _ _)
    fun _ => .get_bind fun db => .bind (dbWriteptr_balanced _ _) fun _ => ?_
  exact .bind (dbWriteptr_balanced _ _) fun _ => unlock_free

theorem dbFindfree_balanced (keylen datlen : Nat) :
    Balanced (chainHeld b) (dbFindfree keylen datlen) := by
  refine .bind (lock_free .write) fun _ => .bind (dbReadptr_balanced _) fun offset =>
    .bind (findfreeLoop_balanced _ _ _ _ _) fun found => ?_
  cases found with
  | none => exact .bind (.ret _) fun _ => .bind unlock_free fun _ => .ret _
  | some saveoffset =>
    exact .get_bind fun db => .bind (dbWriteptr_balanced _ _) fun _ => .bind (.ret _) fun _ =>
      .bind unlock_free fun _ => .ret _

theorem dbStoreAbsent_balanced (key data : Bytes) :
    Balanced (chainHeld b) (dbStoreAbsent key data) := by
  refine .get_bind fun db =>
    .bind (dbReadptr_balanced _) fun ptrval => .bind (dbFindfree_balanced _ _) fun found =>
    .ite (fun _ => ?_) fun _ => ?_
  · exact .bind (dbWritedat_balanced _ _ _)
      fun _ => .bind (dbWriteidx_balanced _ _ _ _) fun _ => .get_bind fun db =>
      .bind (dbWriteptr_balanced _ _) fun _ => .change fun _ => rfl
  · exact .get_bind fun db => .bind (dbWritedat_balanced _ _ _) fun _ => .get_bind fun db =>
      .bind (dbWriteidx_balanced _ _ _ _)
        fun _ => .get_bind fun db => .bind (dbWriteptr_balanced _ _) fun _ =>
      .change fun _ => rfl

theorem dbStoreFound_balanced (key data : Bytes) :
    Balanced (chainHeld b) (dbStoreFound key data) := by
  refine .get_bind fun db => .ite (fun _ => ?_) fun _ => ?_
  · refine .bind dbDodelete_balanced
      fun _ => .get_bind fun db => .bind (dbReadptr_balanced _) fun ptrval => ?_
    exact .bind (dbWritedat_balanced _ _ _)
      fun _ => .bind (dbWriteidx_balanced _ _ _ _) fun _ => .get_bind fun db =>
      .bind (dbWriteptr_balanced _ _) fun _ => .change fun _ => rfl
  · exact .bind (dbWritedat_balanced _ _ _) fun _ => .change fun _ => rfl

end Chain

/-! ### Calls -/

/-- A function that holds nothing when it is called, and when it returns. -/
def Whole {α : Type} (x : DbM α) : Prop := ∀ db, (x db).InOrder lockRank [] fun _ left => left = []

/-- A function that is called with a chain locked, and unlocks it. -/
def Closes {α : Type} (b : Fin nhashDef) (x : DbM α) : Prop :=
  ∀ db, db.chainoff = chainOff b → (x db).InOrder lockRank (chainHeld b) fun _ left => left = []

namespace Closes

variable {α β : Type} {b : Fin nhashDef}

theorem bind {x : DbM α} {k : α → DbM β} (first : Balanced (chainHeld b) x)
    (rest : ∀ a, Closes b (k a)) :
    Closes b (x >>= k) := by
  intro db here
  rw [bind_apply]
  refine (first db).bind fun p left same => ?_
  obtain ⟨rfl, chainoff⟩ := same
  exact rest p.1 p.2 (chainoff.trans here)

theorem ite {c : Prop} [Decidable c] {x y : DbM α} (yes : Closes b x) (no : Closes b y) :
    Closes b (if c then x else y) := by
  split
  · exact yes
  · exact no

/-- The end of every call. -/
theorem unlock (a : α) :
    Closes b (get >>= fun db => unLock .idx db.chainoff 1 >>= fun _ => pure a) := by
  intro db here
  change Prog.InOrder _ ((unLock .idx db.chainoff 1 >>= fun _ => pure a) db) _ _
  rw [here]
  refine ⟨trivial, fun _ => ?_⟩
  change (Op.unlock (Part.range (.chain b))).ranges (chainHeld b) = []
  simp [Op.ranges]

end Closes

theorem nothing_behind {range : Range DbFile} {kind : LockKind} :
    (Op.lock range kind).Behind lockRank [] :=
  nofun

/-- `_db_find_and_lock`, and what is done with the chain locked. -/
theorem Closes.whole {α : Type} {key : Bytes} {writelock : Bool} {k : Int → DbM α}
    (closes : ∀ found, Closes (bucket key) (k found)) :
    Whole (dbFindAndLock key writelock >>= k) := by
  intro db
  rw [dbFindAndLock_bind]
  refine ⟨nothing_behind, fun _ => ?_⟩
  have search : Balanced (chainHeld (bucket key)) (dbFindLocked key) :=
    .get_bind fun db => .bind (dbReadptr_balanced _) fun offset => findLoop_balanced _ _ _
  exact Closes.bind search closes (db.aim key) rfl

theorem Moves.whole {α : Type} {x : DbM α} (balanced : Balanced [] x) : Whole x :=
  fun db => (balanced db).mono fun _ _ same => same.1

theorem Whole.bind {α β : Type} {x : DbM α} {k : α → DbM β} (first : Whole x)
    (rest : ∀ a, Whole (k a)) :
    Whole (x >>= k) := by
  intro db
  rw [bind_apply]
  refine (first db).bind fun p left same => ?_
  subst same
  exact rest p.1 p.2

theorem dbFetch_whole (key : Bytes) : Whole (dbFetch key) := by
  refine Closes.whole fun found => .ite ?_ ?_
  · exact .bind (.change fun _ => rfl) fun _ => .bind (.ret _) .unlock
  · refine .bind dbReaddat_balanced fun data => .bind (.change fun _ => rfl) fun _ => ?_
    exact .bind (.ret _) .unlock

theorem dbDelete_whole (key : Bytes) : Whole (dbDelete key) := by
  refine Closes.whole fun found => .ite ?_ ?_
  · refine .bind dbDodelete_balanced fun _ => .bind (.change fun _ => rfl) fun _ => ?_
    exact .bind (.ret _) .unlock
  · exact .bind (.change fun _ => rfl) fun _ => .bind (.ret _) .unlock

theorem dbStore_whole (key data : Bytes) (flag : Flag) : Whole (dbStore key data flag) := by
  rw [dbStore]
  split
  · exact fun _ => trivial
  · refine Closes.whole fun found => .ite (.ite ?_ ?_) (.ite ?_ ?_)
    · exact .bind (.change fun _ => rfl) fun _ => .bind (.ret _) .unlock
    · exact .bind (dbStoreAbsent_balanced _ _) fun _ => .bind (.ret _) .unlock
    · exact .bind (.change fun _ => rfl) fun _ => .bind (.ret _) .unlock
    · exact .bind (dbStoreFound_balanced _ _) fun _ => .bind (.ret _) .unlock

theorem dbRewind_balanced : Balanced held dbRewind :=
  .bind (lseek_balanced _ _ _ _) fun _ => .change fun _ => rfl

theorem dbNextrec_whole : Whole dbNextrec := by
  refine Moves.whole (.bind (.lock nothing_behind)
    fun _ => .bind (nextrecLoop_balanced _) fun found =>
    .ite (fun _ => ?_) fun _ => ?_)
  · refine .get_bind fun db =>
      .bind dbReaddat_balanced fun data => .bind (.change fun _ => rfl) fun _ => ?_
    exact .bind (.ret _) fun _ => .bind (.unlock List.not_mem_nil) fun _ => .ret _
  · exact .bind (.ret _) fun _ => .bind (.unlock List.not_mem_nil) fun _ => .ret _

theorem dbOpen_whole : Whole dbOpen := by
  refine Moves.whole (.bind (.lock nothing_behind) fun _ => .bind (.size _) fun size =>
    .ite (fun _ => ?_) fun _ => ?_)
  · exact .bind (write_balanced _ _)
      fun _ => .bind (.unlock List.not_mem_nil) fun _ => dbRewind_balanced
  · exact .bind (.unlock List.not_mem_nil) fun _ => dbRewind_balanced

/-! ### Processes -/

/-- What a process asks of the library. -/
inductive Request where
  | open_
  | call (c : Call)
  | rewind
  | nextrec
  deriving DecidableEq, Repr

inductive Answer where
  | done
  | reply (r : Reply)
  | record (found : Option (Bytes × Bytes))
  deriving DecidableEq, Repr

def Request.run : Request → DbM Answer
  | .open_ => do
    dbOpen
    pure .done
  | .call c => return .reply (← c.run)
  | .rewind => do
    dbRewind
    pure .done
  | .nextrec => return .record (← dbNextrec)

theorem request_whole (request : Request) : Whole request.run := by
  cases request with
  | open_ => exact dbOpen_whole.bind fun _ => (Moves.ret _).whole
  | call c =>
    refine Whole.bind ?_ fun _ => (Moves.ret _).whole
    cases c with
    | fetch key => exact (dbFetch_whole key).bind fun _ => (Moves.ret _).whole
    | delete key => exact (dbDelete_whole key).bind fun _ => (Moves.ret _).whole
    | store key data flag => exact (dbStore_whole key data flag).bind fun _ => (Moves.ret _).whole
  | rewind => exact (dbRewind_balanced.whole).bind fun _ => (Moves.ret _).whole
  | nextrec => exact dbNextrec_whole.bind fun _ => (Moves.ret _).whole

variable {Pid : Type} [DecidableEq Pid]

/-- **No deadlock**: whatever the files hold, and whatever any number of processes ask of the
library and however their operations fall among one another, as long as one of them is in a call,
one of them can go on. -/
theorem requests_go_on (files : Files DbFile) (db : Pid → DB)
    {g : Machine DbFile Stop Pid Answer DB} {h : Linearizability.History Pid Request Answer}
    (run : Machine.Run Request.run (.unlocked files fun p => .idle (db p)) g h) {p : Pid}
    {prog : DbProg (Answer × DB)} (running : g.tasks p = .running prog) :
    ∃ e g', Machine.Step Request.run g e g' ∧ ∀ p c, e ≠ some (.call p c) := by
  have starts :
      Machine.Ordered lockRank
      (.unlocked files fun p => .idle (db p) : Machine DbFile Stop Pid Answer DB) :=
    fun _ _ _ => rfl
  exact (starts.run request_whole run).goesOn lockRank_lt running

/-- A fetch that waits for a process that makes the database. -/
theorem requests_go_on_waiting :
    ∃ (g : Machine DbFile Stop Bool Answer DB) (h : Linearizability.History Bool Request Answer),
      Machine.Run Request.run (.unlocked emptyFiles fun _ => .idle DB.alloc) g h ∧
      (∃ o next, g.tasks true = .running (.op o next) ∧ ¬ o.Granted g.locks true) ∧
      ∃ e g', Machine.Step Request.run g e g' ∧ ∀ p c, e ≠ some (.call p c) := by
  have starts : Machine.Run Request.run (.unlocked emptyFiles fun _ : Bool => .idle DB.alloc)
      (.unlocked emptyFiles fun _ => .idle DB.alloc : Machine DbFile Stop Bool Answer DB) [] :=
        .start
  obtain ⟨next, begins⟩ : ∃ next, Request.open_.run DB.alloc =
      .op (.lock ⟨.idx, 0, 0⟩ .write) next := ⟨_, rfl⟩
  obtain ⟨next', waits⟩ : ∃ next, (Request.call (.fetch [])).run DB.alloc =
      .op (.lock ⟨.idx, chainOff (bucket []), 1⟩ .read) next := ⟨_, rfl⟩
  have opens := starts.begin false .open_ rfl
  rw [begins] at opens
  have locks := opens.step (.op false (.lock ⟨DbFile.idx, 0, 0⟩ .write) next rfl fun _ _ _ _ => rfl)
  have fetches := locks.step (.call true DB.alloc (.call (.fetch [])) rfl)
  refine ⟨_, _, fetches, ⟨_, next', congrArg _ waits, fun granted => ?_⟩,
    requests_go_on emptyFiles (fun _ => DB.alloc) fetches (p := true) rfl⟩
  -- the whole file is locked, and so the pointer of the chain
  have free :=
    granted false (by decide) (chainOff (bucket [])) ⟨rfl, Nat.le_refl _, .inr (Nat.lt_succ_self _)⟩
  have covers : (⟨.idx, 0, 0⟩ : Range DbFile).Covers .idx (chainOff (bucket [])) :=
    ⟨rfl, Nat.zero_le _, .inl rfl⟩
  exact free (@if_pos _ _ covers _ (some LockKind.write) none)

end Apue
