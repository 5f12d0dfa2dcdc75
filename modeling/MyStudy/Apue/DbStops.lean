import MyStudy.Apue.DbAlone

/-!
# Calls that end their process

A record that `db_store` writes at the ends of the files may be one that the index cannot hold. Then
the process ends inside of the call, after it has deleted the record that was there before.
-/
namespace Apue

open FileProgram Separation

/-! ### Runs of a process that is alone -/

/-- The mode of a process that is alone in the middle of a call. -/
def soleMode : Mode parts := ⟨true, true, true, fun part => ∀ b, part ≠ .chain b, fun _ _ => True⟩

theorem soleMode_serving : Serving soleMode := ⟨rfl, fun _ other => other, fun _ _ _ _ => trivial⟩

section Running

variable {α β : Type} {files : Files DbFile} {X : Know parts} {L : List Part}
    {A B F : FileAssertion DbFile}
  {x : DbM α} {db : DB}

theorem bind_run {a : α} {db' : DB} {files' : Files DbFile}
    (runs : (x db).run files = (.ok (a, db'), files')) (k : α → DbM β) :
    ((x >>= k) db).run files = (k a db').run files' := by
  rw [bind_apply, Prog.run_bind, runs]

theorem bind_bind {γ : Type} (x : DbM α) (f : α → DbM β) (g : β → DbM γ) :
    ((x >>= f) >>= g) = x >>= fun a => f a >>= g := funext fun _ => Prog.bind_assoc _ _ _

theorem get_bind (k : DB → DbM β) (db : DB) : (get >>= k) db = k db db := rfl

theorem run_taking {Q : α × DB → Know parts → List Part → FileHeap DbFile → Prop}
    (here : Alone () files X L A) (does : Triple soleMode X L A (x db) Q) :
    ∃ a db' files' X' L', (x db).run files = (.ok (a, db'), files') ∧
      Alone () files' X' L' (Q (a, db') X' L') := by
  obtain ⟨p, files', X', L', runs, -, after⟩ := here.run rfl rfl does
  exact ⟨p.1, p.2, files', X', L', runs, after⟩

theorem run_call {R : α × DB → Prop} (here : Alone () files X L (A * F))
    (does : Returns soleMode A (x db) R B) :
    ∃ a db' files', (x db).run files = (.ok (a, db'), files') ∧ R (a, db') ∧
      Alone () files' X L (B * F) := by
  obtain ⟨a, db', files', X', L', runs, once, own, kept, returned, rfl, rfl, owned⟩ :=
    run_taking here (does X L F)
  exact ⟨a, db', files', runs, returned, once, own, kept, owned⟩

theorem Alone.rearrange (here : Alone () files X L A) (same : A = B) : Alone () files X L B :=
  same ▸ here

/-- A process that ends loses its lock, and leaves the part as it is. -/
theorem Alone.leave {s : Contents} {part : Part} {y : part.Content}
    (here : Alone () files (Know.exactly (P := parts) s) [part] (part.holds y * F)) :
    Holds files (Function.update s part y) := by
  obtain ⟨-, own, kept, a, b, disjoint, parts_, holds, -⟩ := here
  have free : ∀ z, own z ≠ .res part := by
    have held := kept part
    rwa [if_pos (List.mem_singleton_self part)] at held
  obtain ⟨given, -, others⟩ := share_give disjoint parts_ (by simp) free
  refine ⟨give own part a, fun part' => ?_⟩
  by_cases same : part' = part
  · subst same
    rw [given, Function.update_self]
    exact holds
  · rw [others _ (by simp) (by simpa using same), Function.update_of_ne same]
    have there := kept part'
    rw [if_neg (by simpa using same)] at there
    obtain ⟨z, rfl, holds'⟩ := there
    exact holds'

end Running

/-! ### Before the record is written -/

/-- A call comes to write a record at the ends of the files, its chain being locked, and these being
the contents of the other parts. -/
structure Appends (prog : DbProg (Reply × DB)) (files : Files DbFile) (key data : Bytes)
    (s : Contents)
    (rs : List Rec) : Prop where
  comes : ∃ (k : PUnit → DbM Reply) (db : DB) (files' : Files DbFile),
    prog.run files =
      ((dbWritedat data 0 .end_ >>= fun _ => dbWriteidx key 0 .end_ (headOff rs) >>= fun _ =>
      get >>= fun db : DB => dbWriteptr db.chainoff db.idxoff >>= k) db).run files' ∧
    db.chainoff = chainOff (bucket key) ∧
    Alone () files' (Know.exactly (P := parts) s) [.chain (bucket key)]
      (listAt (chainOff (bucket key)) rs)

section Storing

variable {files : Files DbFile} {s : Contents} {key data : Bytes} {flag : Flag}

/-- A call finds the record of its key, or none. -/
theorem find_run (holds : Holds files s) (fine : s.Fine)
    (readable : ∀ r ∈ s (.chain (bucket key)), r.Readable) (db : DB) :
    ∃ found db' files', (dbFindAndLock key true db).run files = (.ok (found, db'), files') ∧
      db'.chainoff = chainOff (bucket key) ∧
      Found key (chainOff (bucket key)) (s (.chain (bucket key))) found db' ∧
      Alone () files' (Know.exactly (P := parts) s) [.chain (bucket key)]
        (listAt (chainOff (bucket key)) (s (.chain (bucket key)))) := by
  have here : Alone () files (Know.exactly (P := parts) s) [.chain (bucket key)]
      (listAt (chainOff (bucket key)) (s (.chain (bucket key))) * 1) := by
    rw [mul_one]
    exact holds.lock (.chain (bucket key))
  obtain ⟨found, db', files', runs, ⟨chainoff, found'⟩, after⟩ := run_call here
    (dbFindLocked_spec key _ _ (db.aim key) (chainOff_le _)
      (fun r member => ((fine (.chain _)).1 r member).1)
      (fun _ => readable) rfl rfl)
  refine ⟨found, db', files', ?_, chainoff, found', ?_⟩
  · -- the lock comes first, and `holds.lock` has it already
    have steps := dbFindAndLock_bind key true pure db
    rw [bind_apply] at steps
    change (dbFindAndLock key true db).bind .ret = _ at steps
    rw [Prog.bind_ret] at steps
    rw [steps]
    change ((dbFindLocked key (db.aim key)).bind .ret).run files = _
    rw [Prog.bind_ret]
    exact runs
  · rwa [mul_one] at after

/-- A record is there, with data of another length: it is deleted first. -/
theorem store_found (holds : Holds files s) (fine : s.Fine)
    (readable : ∀ r ∈ s (.chain (bucket key)), r.Readable) (storable : Storable key data)
    (stores : flag ≠ .insert) {pre post : List Rec} {r : Rec}
    (cut : cutAt (hasKey key) (s (.chain (bucket key))) = some (pre, r, post))
    (size : data.length ≠ r.data.length) (db : DB) :
    Appends ((Call.store key data flag).run db) files key data (s.release r) (pre ++ post) := by
  have long := List.length_pos_of_ne_nil storable.nonempty
  have short := storable.short
  have near := chainOff_le (bucket key)
  have farthest : ptrMax < 2 ^ 63 := by decide
  have chain := fine (.chain (bucket key))
  obtain ⟨found, db1, files1, runs1, chainoff1, found1, alone1⟩ := find_run holds fine readable db
  rw [Found, cut] at found1
  obtain ⟨rfl, at1, ptroff1⟩ : found = 0 ∧ _ ∧ _ := found1
  have whole := (cutAt_eq_some cut).1
  rw [whole] at alone1 chain
  have sound (q : Rec) (member : q ∈ pre ++ r :: post) : q.Sound := (chain.1 q member).1
  have soundRest (q : Rec) (member : q ∈ pre ++ post) : q.Sound :=
    sound q ((sublist_without pre post r).subset member)
  -- it is deleted
  rw [← mul_one (listAt _ _)] at alone1
  obtain ⟨_, db2, files2, _, _, runs2, once, own, kept, frees, rfl, chainoff2, rfl, rfl, owned⟩ :=
    run_taking alone1
    (dbDodelete_spec soleMode_serving db1 _ pre post r near sound at1 ptroff1 (by simp)
      fun _ same => same ▸ fine .free)
  rw [learn_exactly soleMode rfl] at kept
  have alone2 : Alone () files2 (Know.exactly (P := parts) (s.release r)) [.chain (bucket key)]
      (ptrAt (chainOff (bucket key)) (headOff (pre ++ post)) * chainAt (pre ++ post)) := by
    rw [mul_one] at owned
    exact ⟨once, own, kept, owned⟩
  obtain ⟨_, db3, files3, runs3, ⟨rfl, at3⟩, alone3⟩ := run_call alone2
    (dbReadptr_spec db2 _ _ (by omega) (headOff_le _ soundRest))
  dsimp only at chainoff1 chainoff2 at3
  apply Appends.mk
  apply Exists.intro
  refine ⟨db3, files3, ?_, ?_, alone3⟩
  · rw [Call.run, dbStore, if_neg (by rw [datlenMin]; omega), bind_bind, bind_run runs1]
    dsimp only
    rw [if_neg (by decide), if_neg stores, bind_bind, dbStoreFound, bind_bind, get_bind, at1.datlen,
      if_pos (by omega), bind_bind, bind_run runs2]
    dsimp only
    rw [bind_bind, get_bind, bind_bind, chainoff2, chainoff1, bind_run runs3]
    simp only [bind_bind]
    rfl
  · rw [at3, DB.setPos_chainoff, chainoff2, chainoff1]

/-- There is no record, and none of its sizes is free. -/
theorem store_absent (holds : Holds files s) (fine : s.Fine)
    (readable : ∀ r ∈ s (.chain (bucket key)), r.Readable) (storable : Storable key data)
    (stores : flag ≠ .replace) (cut : cutAt (hasKey key) (s (.chain (bucket key))) = none)
    (none_ : cutAt (hasSizes key.length (data.length + 1)) (s .free) = none) (db : DB) :
    Appends ((Call.store key data flag).run db) files key data s (s (.chain (bucket key))) := by
  have long := List.length_pos_of_ne_nil storable.nonempty
  have short := storable.short
  have near := chainOff_le (bucket key)
  have farthest : ptrMax < 2 ^ 63 := by decide
  obtain ⟨found, db1, files1, runs1, chainoff1, found1, alone1⟩ := find_run holds fine readable db
  rw [Found, cut] at found1
  obtain rfl : found = -1 := found1
  obtain ⟨_, db2, files2, runs2, ⟨rfl, at2⟩, alone2⟩ := run_call alone1
    (dbReadptr_spec db1 _ _ (by omega)
      (headOff_le _ fun r member => ((fine (.chain _)).1 r member).1))
  dsimp only at chainoff1 at2
  -- the free list
  obtain ⟨found, db3, files3, _, _, runs3, once, own, kept, frees, rfl, chainoff3, rfl, search⟩ :=
    run_taking alone2
    (dbFindfree_spec soleMode_serving db2 key.length (data.length + 1) (by simp)
      fun _ same => same ▸ fine .free)
  rw [none_] at search
  obtain ⟨rfl, rfl, owned⟩ : found = -1 ∧ _ ∧ _ := search
  rw [learn_exactly soleMode rfl, Function.update_eq_self] at kept
  dsimp only at chainoff3
  apply Appends.mk
  apply Exists.intro
  refine ⟨db3, files3, ?_, ?_, once, own, kept, owned⟩
  · rw [Call.run, dbStore, if_neg (by rw [datlenMin]; omega), bind_bind, bind_run runs1]
    dsimp only
    rw [if_pos (by decide), if_neg stores, bind_bind, dbStoreAbsent, bind_bind, get_bind, chainoff1,
      bind_bind, bind_run runs2]
    dsimp only
    rw [bind_bind, bind_run runs3, if_pos (by decide)]
    simp only [bind_bind]
    rfl
  · rw [chainoff3, at2, DB.setPos_chainoff, chainoff1]

/-! ### A text that is too long -/

theorem dbWriteidx_long {α : Type} (db : DB) (r : Rec) (ptr : Nat) (fits : ptr ≤ ptrMax)
    (datoff : db.datoff = r.datoff) (datlen : db.datlen = r.data.length + 1)
    (long : idxlenMax < r.text.length) (k : PUnit → DbM α) :
    ∃ why, (∀ message ptrval, why ≠ .errQuit message ptrval) ∧
      (dbWriteidx r.key 0 .end_ ptr >>= k) db = .stop why := by
  have text : r.key ++ sep :: (decimal db.datoff ++ sep :: (decimal db.datlen ++ [newline])) =
      r.text := by
    rw [datoff, datlen]
    rfl
  by_cases overflows : r.text.length + 1 > idxlenMax + 2
  · refine ⟨.overflow, by simp, ?_⟩
    rw [dbWriteidx, bind_bind, bind_apply, modify_apply, Prog.ret_bind, if_neg (by omega),
      bind_bind, get_bind]
    dsimp only
    rw [text, if_pos overflows]
    rfl
  · refine ⟨.errDump "_db_writeidx: invalid length", by simp, ?_⟩
    rw [dbWriteidx, bind_bind, bind_apply, modify_apply, Prog.ret_bind, if_neg (by omega),
      bind_bind, get_bind]
    dsimp only
    rw [text, if_neg overflows, bind_bind, bind_apply, modify_apply, Prog.ret_bind,
      if_pos (.inr (by omega))]
    rfl

/-- The process ends before it has written the record, and its chain is without it. -/
theorem Appends.long {rs : List Rec} {prog : DbProg (Reply × DB)}
    (appends : Appends prog files key data s rs) (sound : ∀ r ∈ rs, r.Sound) {n : Nat}
    (datEnd : s .datEnd = n) (near : n < 2 ^ 63)
    (long : idxlenMax < (Rec.mk 0 key n data).text.length) :
    ∃ why files', prog.run files = (.error why, files') ∧
      (∀ message ptrval, why ≠ .errQuit message ptrval) ∧
      Holds files' (Contents.put (Function.update s .datEnd (n + (data.length + 1)))
      (bucket key) rs) := by
  obtain ⟨k, db, files1, runs, chainoff, alone⟩ := appends.comes
  obtain ⟨_, db2, files2, _, _, runs2, once, own, kept, n', known, -, datoff2, datlen2, -, rfl,
      rfl, owned⟩ :=
    run_taking alone (dbWritedat_end soleMode_serving db data (by simp) fun _ n' known => by
      rw [show n' = n from known.trans datEnd]
      exact near)
  obtain rfl : n' = n := known.trans datEnd
  rw [learn_exactly soleMode rfl] at kept
  obtain ⟨why, other, stops⟩ :=
    dbWriteidx_long db2 (Rec.mk 0 key n' data) (headOff rs) (headOff_le _ sound) datoff2
    datlen2 long fun _ => get >>= fun db : DB => dbWriteptr db.chainoff db.idxoff >>= k
  refine ⟨why, files2, ?_, other, ?_⟩
  · rw [runs, bind_run runs2, stops]
    rfl
  · rw [mul_comm] at owned
    have here : Alone () files2 _ [Part.chain (bucket key)]
        ((Part.chain (bucket key)).holds rs * bytes .dat n' (data ++ [newline])) :=
          ⟨once, own, kept, owned⟩
    exact Alone.leave here

end Storing

end Apue
