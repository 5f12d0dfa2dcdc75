import MyStudy.Lib.FileProgram
import MyStudy.Zn.Misc

/-!
# The database library

The functions of `db.c`, as programs on the index file and the data file. `nhash` and `hashoff` are
constants: `db_open` sets them, and nothing changes them. A call of the system that the library does
not expect to fail does not fail.
-/
namespace Apue

open FileProgram

/-! ### Constants -/

def idxlenSz : Nat := 4
abbrev sep : UInt8 := ':'.toUInt8
abbrev space : UInt8 := ' '.toUInt8
abbrev newline : UInt8 := '\n'.toUInt8

def ptrSz : Nat := 7
def ptrMax : Nat := 9999999
def nhashDef : Nat := 137
def freeOff : Nat := 0
def hashOff : Nat := ptrSz

def idxlenMin : Nat := 6
def idxlenMax : Nat := 1024
def datlenMin : Nat := 2
def datlenMax : Nat := 1024

inductive DbFile where
  | idx
  | dat
  deriving DecidableEq, Repr

/-! ### Handles -/

structure Counts where
  delok : Nat
  delerr : Nat
  fetchok : Nat
  fetcherr : Nat
  nextrec : Nat
  stor1 : Nat
  stor2 : Nat
  stor3 : Nat
  stor4 : Nat
  storerr : Nat
  deriving DecidableEq, Repr

/-- `DB`, and the positions of its two descriptors. The buffers hold what was written into them. -/
structure DB where
  idxpos : Nat
  datpos : Nat
  idxbuf : Bytes
  datbuf : Bytes
  idxoff : Nat
  idxlen : Nat
  datoff : Nat
  datlen : Nat
  ptrval : Int
  ptroff : Int
  chainoff : Nat
  cnt : Counts
  deriving DecidableEq, Repr

/-- How a process ends inside of a function: through `err_dump` or `err_quit`, with a text that does
not fit into the index buffer, or in a chain that has no end. -/
inductive Stop where
  | errDump (message : String)
  | errQuit (message : String) (ptrval : Int)
  | overflow
  | loops
  deriving DecidableEq, Repr

abbrev DbProg := Prog DbFile Stop

abbrev DbM := StateT DB DbProg

def errDump {α : Type} (message : String) : DbM α := fun _ => .stop (.errDump message)

def errQuit {α : Type} (message : String) (ptrval : Int) : DbM α := fun _ =>
  .stop (.errQuit message ptrval)

def perform (o : Op DbFile) : DbM o.Result := fun db => .op o fun r => .ret (r, db)

/-! ### Input and output -/

inductive Whence where
  | set
  | cur
  | end_
  deriving DecidableEq, Repr

def DB.pos (db : DB) : DbFile → Nat
  | .idx => db.idxpos
  | .dat => db.datpos

def DB.setPos (db : DB) (pos : Nat) : DbFile → DB
  | .idx => { db with idxpos := pos }
  | .dat => { db with datpos := pos }

/-- `lseek`, with the text for its failure: an `off_t` cannot hold the position. -/
def lseek (fd : DbFile) (offset : Int) (whence : Whence) (message : String) : DbM Nat := do
  let db ← get
  let start ← match whence with
    | .set => pure 0
    | .cur => pure (db.pos fd)
    | .end_ => perform (.size fd)
  if (start : Int) + offset < 0 ∨ (start : Int) + offset ≥ 2 ^ 63 then errDump message
  else do
    modify fun db => db.setPos (start + offset).toNat fd
    pure (start + offset).toNat

def read (fd : DbFile) (len : Nat) : DbM Bytes := do
  let db ← get
  let data ← perform (.pread fd (db.pos fd) len)
  modify fun db => db.setPos (db.pos fd + data.length) fd
  pure data

def write (fd : DbFile) (data : Bytes) : DbM Unit := do
  let db ← get
  let _ ← perform (.pwrite fd (db.pos fd) data)
  modify fun db => db.setPos (db.pos fd + data.length) fd

def readwLock (fd : DbFile) (start len : Nat) : DbM Unit := perform (.lock ⟨fd, start, len⟩ .read)

def writewLock (fd : DbFile) (start len : Nat) : DbM Unit := perform (.lock ⟨fd, start, len⟩ .write)

def unLock (fd : DbFile) (start len : Nat) : DbM Unit := perform (.unlock ⟨fd, start, len⟩)

/-! ### Texts -/

/-- `strtol` stops at the ends of a `long`. -/
def atol (text : Bytes) : Int := max (-2 ^ 63) (min (2 ^ 63 - 1) (Zn.leadingInt text))

/-- `sprintf` of a number with a width. -/
def formatWidth (width : Nat) (n : Int) : Bytes :=
  List.replicate (width - (Zn.toStringInt n).length) space ++ Zn.toStringInt n

/-- `strchr`, with the place of the character. -/
def strchr (s : Bytes) (c : UInt8) : Option Nat := (cstr s).idxOf? c

/-- `_db_hash`. A `char` has a sign, and the sum is a `DBHASH`. -/
def dbHash (key : Bytes) : Nat :=
  let char (c : UInt8) : Int := if c.toNat < 128 then c.toNat else c.toNat - 256
  let hval : Int := (key.mapIdx fun i c => char c * (i + 1)).sum
  (hval % 2 ^ 64).toNat % nhashDef

/-! ### Pointers and records -/

/-- `_db_readptr`. -/
def dbReadptr (offset : Int) : DbM Int := do
  let _ ← lseek .idx offset .set "_db_readptr: lseek error to ptr field"
  let asciiptr ← read .idx ptrSz
  if asciiptr.length ≠ ptrSz then errDump "_db_readptr: read error of ptr field"
  else pure (atol asciiptr)

/-- `_db_writeptr`. -/
def dbWriteptr (offset ptrval : Int) : DbM Unit := do
  if ptrval < 0 ∨ ptrval > ptrMax then errQuit "_db_writeptr: invalid ptr: %d" ptrval
  else do
    let _ ← lseek .idx offset .set "_db_writeptr: lseek error to ptr field"
    write .idx (formatWidth ptrSz ptrval)

/-- The end of `_db_readidx`: the separators of the record in the buffer, and the numbers behind
them. -/
def dbParseidx : DbM Unit := do
  let db ← get
  match strchr db.idxbuf sep with
  | none => errDump "_db_readidx: missing first separator"
  | some p =>
    let buf := db.idxbuf.set p 0
    let ptr1 := p + 1
    match strchr (buf.drop ptr1) sep with
    | none => errDump "_db_readidx: missing second separator"
    | some q =>
      let buf := buf.set (ptr1 + q) 0
      let ptr2 := ptr1 + q + 1
      if strchr (buf.drop ptr2) sep ≠ none then errDump "_db_readidx: too many separators"
      else
        let datoff := atol (buf.drop ptr1)
        let datlen := atol (buf.drop ptr2)
        if datoff < 0 then errDump "_db_readidx: starting offset < 0"
        else if datlen ≤ 0 ∨ datlen > datlenMax then errDump "_db_readidx: invalid length"
        else
          set { db with
            idxbuf := buf
            datoff := datoff.toNat
            datlen := datlen.toNat }

/-- `_db_readidx`: the record at an offset, or with 0 the one at the position of the descriptor. -/
def dbReadidx (offset : Int) : DbM Int := do
  let idxoff ← lseek .idx offset (if offset = 0 then .cur else .set) "_db_readidx: lseek error"
  modify fun db => { db with idxoff }
  -- both texts are read at once
  let front ← read .idx (ptrSz + idxlenSz)
  if front.length ≠ ptrSz + idxlenSz then
    if front.length = 0 ∧ offset = 0 then pure (-1)
    else errDump "_db_readidx: readv error of index record"
  else
    let ptrval := atol (front.take ptrSz)
    let idxlen := Zn.atoi (front.drop ptrSz)
    if idxlen < idxlenMin ∨ idxlen > idxlenMax then errDump "_db_readidx: invalid length"
    else do
      modify fun db =>
        { db with
          ptrval
          idxlen := idxlen.toNat }
      let text ← read .idx idxlen.toNat
      if text.length ≠ idxlen.toNat then errDump "_db_readidx: read error of index record"
      else if text.getLast? ≠ some newline then errDump "_db_readidx: missing newline"
      else do
        modify fun db => { db with idxbuf := text.dropLast ++ [0] }
        dbParseidx
        pure ptrval

/-- `_db_readdat`, with the text that the buffer holds then. -/
def dbReaddat : DbM Bytes := do
  let db ← get
  let _ ← lseek .dat db.datoff .set "_db_readdat: lseek error"
  let data ← read .dat db.datlen
  if data.length ≠ db.datlen then errDump "_db_readdat: read error"
  else if data.getLast? ≠ some newline then errDump "_db_readdat: missing newline"
  else do
    modify fun db => { db with datbuf := data.dropLast ++ [0] }
    pure (cstr (data.dropLast ++ [0]))

/-- `_db_writedat`. The whole file is locked for a record at its end. -/
def dbWritedat (data : Bytes) (offset : Nat) (whence : Whence) : DbM Unit := do
  if whence = .end_ then writewLock .dat 0 0
  let datoff ← lseek .dat offset whence "_db_writedat: lseek error"
  modify fun db =>
    { db with
      datoff
      datlen := data.length + 1 }
  write .dat (data ++ [newline])
  if whence = .end_ then unLock .dat 0 0

/-- Where the records start. -/
def recordsOff : Nat := (nhashDef + 1) * ptrSz + 1

/-- `_db_writeidx`. `sprintf` writes the text into the index buffer, which may hold the key, too;
the key is then taken as it was before. -/
def dbWriteidx (key : Bytes) (offset : Nat) (whence : Whence) (ptrval : Int) : DbM Unit := do
  modify fun db => { db with ptrval }
  if ptrval < 0 ∨ ptrval > ptrMax then errQuit "_db_writeidx: invalid ptr: %d" ptrval
  else do
    let db ← get
    let text := key ++ sep :: (decimal db.datoff ++ sep :: (decimal db.datlen ++ [newline]))
    if text.length + 1 > idxlenMax + 2 then fun _ => .stop .overflow
    else do
      modify fun db => { db with idxbuf := text ++ [0] }
      if text.length < idxlenMin ∨ text.length > idxlenMax then
        errDump "_db_writeidx: invalid length"
      else do
        if whence = .end_ then writewLock .idx recordsOff 0
        let idxoff ← lseek .idx offset whence "_db_writeidx: lseek error"
        modify fun db => { db with idxoff }
        write .idx (formatWidth ptrSz ptrval ++ formatWidth idxlenSz text.length ++ text)
        if whence = .end_ then unLock .idx recordsOff 0

/-! ### Chains -/

/-- A chain of more records than pointers can tell apart has no end. -/
def maxRounds : Nat := ptrMax + 1

/-- The loop of `_db_find_and_lock`. -/
def findLoop (key : Bytes) : Nat → Int → DbM Int
  | 0, _ => fun _ => .stop .loops
  | rounds + 1, offset =>
    if offset = 0 then pure (-1)
    else do
      let nextoffset ← dbReadidx offset
      let db ← get
      if cstr db.idxbuf = key then pure 0
      else do
        modify fun db => { db with ptroff := offset }
        findLoop key rounds nextoffset

/-- `_db_find_and_lock`. -/
def dbFindAndLock (key : Bytes) (writelock : Bool) : DbM Int := do
  let chainoff := dbHash key * ptrSz + hashOff
  modify fun db =>
    { db with
      chainoff
      ptroff := chainoff }
  if writelock then writewLock .idx chainoff 1 else readwLock .idx chainoff 1
  let offset ← dbReadptr chainoff
  findLoop key maxRounds offset

/-- `_db_dodelete`. -/
def dbDodelete : DbM Unit := do
  modify fun db =>
    { db with
      datbuf := List.replicate (db.datlen - 1) space ++ 0 :: db.datbuf.drop db.datlen
      idxbuf := (cstr db.idxbuf).map (fun _ => space) ++ db.idxbuf.drop (cstr db.idxbuf).length }
  writewLock .idx freeOff 1
  let db ← get
  dbWritedat (cstr db.datbuf) db.datoff .set
  let freeptr ← dbReadptr freeOff
  let db ← get
  let saveptr := db.ptrval
  dbWriteidx (cstr db.idxbuf) db.idxoff .set freeptr
  let db ← get
  dbWriteptr freeOff db.idxoff
  dbWriteptr db.ptroff saveptr
  unLock .idx freeOff 1

/-- The loop of `_db_findfree`: the pointer to the record that was found, if one was. -/
def findfreeLoop (keylen datlen : Nat) : Nat → Int → Int → DbM (Option Int)
  | 0, _, _ => fun _ => .stop .loops
  | rounds + 1, saveoffset, offset =>
    if offset = 0 then pure none
    else do
      let nextoffset ← dbReadidx offset
      let db ← get
      if (cstr db.idxbuf).length = keylen ∧ db.datlen = datlen then pure (some saveoffset)
      else findfreeLoop keylen datlen rounds offset nextoffset

/-- `_db_findfree`. -/
def dbFindfree (keylen datlen : Nat) : DbM Int := do
  writewLock .idx freeOff 1
  let offset ← dbReadptr freeOff
  let rc ← match ← findfreeLoop keylen datlen maxRounds freeOff offset with
    | none => pure (-1)
    | some saveoffset => do
      let db ← get
      dbWriteptr saveoffset db.ptrval
      pure 0
  unLock .idx freeOff 1
  pure rc

/-! ### Calls -/

/-- `db_fetch`. -/
def dbFetch (key : Bytes) : DbM (Option Bytes) := do
  let found ← dbFindAndLock key false
  let ptr ← if found < 0 then do
      modify fun db => { db with cnt.fetcherr := db.cnt.fetcherr + 1 }
      pure none
    else do
      let data ← dbReaddat
      modify fun db => { db with cnt.fetchok := db.cnt.fetchok + 1 }
      pure (some data)
  let db ← get
  unLock .idx db.chainoff 1
  pure ptr

/-- `db_delete`. -/
def dbDelete (key : Bytes) : DbM Int := do
  let found ← dbFindAndLock key true
  let rc ← if found = 0 then do
      dbDodelete
      modify fun db => { db with cnt.delok := db.cnt.delok + 1 }
      pure 0
    else do
      modify fun db => { db with cnt.delerr := db.cnt.delerr + 1 }
      pure (-1)
  let db ← get
  unLock .idx db.chainoff 1
  pure rc

/-- The flags of `db_store`, which returns -1 at once for any other. -/
inductive Flag where
  | insert
  | replace
  | store
  deriving DecidableEq, Repr

/-- `db_store` for a key that is not there. -/
def dbStoreAbsent (key data : Bytes) : DbM Unit := do
  let db ← get
  let ptrval ← dbReadptr db.chainoff
  let found ← dbFindfree key.length (data.length + 1)
  if found < 0 then do
    dbWritedat data 0 .end_
    dbWriteidx key 0 .end_ ptrval
    let db ← get
    dbWriteptr db.chainoff db.idxoff
    modify fun db => { db with cnt.stor1 := db.cnt.stor1 + 1 }
  else do
    let db ← get
    dbWritedat data db.datoff .set
    let db ← get
    dbWriteidx key db.idxoff .set ptrval
    let db ← get
    dbWriteptr db.chainoff db.idxoff
    modify fun db => { db with cnt.stor2 := db.cnt.stor2 + 1 }

/-- `db_store` for a key that is there. -/
def dbStoreFound (key data : Bytes) : DbM Unit := do
  let db ← get
  if data.length + 1 ≠ db.datlen then do
    dbDodelete
    let db ← get
    -- the deletion may have changed the pointer
    let ptrval ← dbReadptr db.chainoff
    dbWritedat data 0 .end_
    dbWriteidx key 0 .end_ ptrval
    let db ← get
    dbWriteptr db.chainoff db.idxoff
    modify fun db => { db with cnt.stor3 := db.cnt.stor3 + 1 }
  else do
    dbWritedat data db.datoff .set
    modify fun db => { db with cnt.stor4 := db.cnt.stor4 + 1 }

/-- `db_store`. -/
def dbStore (key data : Bytes) (flag : Flag) : DbM Int := do
  if data.length + 1 < datlenMin ∨ data.length + 1 > datlenMax then
    errDump "db_store: invalid data length"
  else do
    let found ← dbFindAndLock key true
    let rc ← if found < 0 then
        if flag = .replace then do
          modify fun db => { db with cnt.storerr := db.cnt.storerr + 1 }
          pure (-1)
        else do
          dbStoreAbsent key data
          pure 0
      else if flag = .insert then do
        modify fun db => { db with cnt.storerr := db.cnt.storerr + 1 }
        pure 1
      else do
        dbStoreFound key data
        pure 0
    let db ← get
    unLock .idx db.chainoff 1
    pure rc

/-! ### Scans -/

/-- `db_rewind`. -/
def dbRewind : DbM Unit := do
  let idxoff ← lseek .idx recordsOff .set "db_rewind: lseek error"
  modify fun db => { db with idxoff }

/-- The loop of `db_nextrec`: whether a record was found. -/
def nextrecLoop : Nat → DbM Bool
  | 0 => fun _ => .stop .loops
  | rounds + 1 => do
    let next ← dbReadidx 0
    if next < 0 then pure false
    else do
      let db ← get
      if (cstr db.idxbuf).all (· = space) then nextrecLoop rounds else pure true

/-- `db_nextrec`, with the key that it copies. -/
def dbNextrec : DbM (Option (Bytes × Bytes)) := do
  readwLock .idx freeOff 1
  let result ← if ← nextrecLoop maxRounds then do
      let db ← get
      let data ← dbReaddat
      modify fun db => { db with cnt.nextrec := db.cnt.nextrec + 1 }
      pure (some (cstr db.idxbuf, data))
    else pure none
  unLock .idx freeOff 1
  pure result

/-! ### Opening -/

/-- `_db_alloc`. -/
def DB.alloc : DB := ⟨0, 0, [], [], 0, 0, 0, 0, 0, 0, 0, ⟨0, 0, 0, 0, 0, 0, 0, 0, 0, 0⟩⟩

/-- `db_open` with `O_CREAT` and `O_TRUNC`, from where the files are open, and empty. -/
def dbOpen : DbM Unit := do
  writewLock .idx 0 0
  let size ← perform (.size .idx)
  if size = 0 then
    write .idx ((List.replicate (nhashDef + 1) (formatWidth ptrSz 0)).flatten ++ [newline])
  unLock .idx 0 0
  dbRewind

end Apue
