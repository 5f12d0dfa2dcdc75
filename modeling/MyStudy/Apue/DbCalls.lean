import MyStudy.Apue.DbParts

/-!
# Calls

What a call makes of the contents of the parts, in terms of lists of records, and that the functions
of the library do that: a call locks its chain, and works on the records from then on.
-/
namespace Apue

open FileProgram Separation

/-! ### Effects -/

inductive Call where
  | fetch (key : Bytes)
  | delete (key : Bytes)
  | store (key data : Bytes) (flag : Flag)
  deriving DecidableEq, Repr

inductive Reply where
  | data (data : Option Bytes)
  | code (rc : Int)
  deriving DecidableEq, Repr

def Call.key : Call → Bytes
  | .fetch key => key
  | .delete key => key
  | .store key _ _ => key

/-- The chain that a call is about. -/
def Call.chain (c : Call) : Part := .chain (bucket c.key)

def Call.run : Call → DbM Reply
  | .fetch key => return .data (← dbFetch key)
  | .delete key => return .code (← dbDelete key)
  | .store key data flag => return .code (← dbStore key data flag)

/-- What a call returns. -/
def Call.reply : Call → List Rec → Reply
  | .fetch key, rs => .data ((cutAt (hasKey key) rs).map fun (_, r, _) => r.data)
  | .delete key, rs => .code (if (cutAt (hasKey key) rs).isSome then 0 else -1)
  | .store key _ flag, rs =>
    .code (if (cutAt (hasKey key) rs).isSome then
        if flag = .insert then 1 else 0
      else if flag = .replace then -1 else 0)

/-- The bytes of the index file that a record takes. -/
def Rec.size (r : Rec) : Nat := ptrSz + idxlenSz + r.text.length

namespace Contents

def put (s : Contents) (b : Fin nhashDef) (rs : List Rec) : Contents :=
  Function.update s (.chain b) rs

/-- The free list is given a record. -/
def release (s : Contents) (r : Rec) : Contents := Function.update s .free (r.blank :: s .free)

/-- The record that is written at the ends of the files. -/
def fresh (s : Contents) (key data : Bytes) : Rec := ⟨s .idxEnd, key, s .datEnd, data⟩

/-- A new record before those of the chain. -/
def append (s : Contents) (key data : Bytes) (rs : List Rec) : Contents :=
  put (Function.update (Function.update s .datEnd (s .datEnd + (data.length + 1))) .idxEnd
    (s .idxEnd + (s.fresh key data).size)) (bucket key) (s.fresh key data :: rs)

/-- A record of the free list before those of the chain, or else a new one. -/
def insert (s : Contents) (key data : Bytes) (rs : List Rec) : Contents :=
  match cutAt (hasSizes key.length (data.length + 1)) (s .free) with
  | none => s.append key data rs
  | some (pre, f, post) =>
    put (Function.update s .free (pre ++ post)) (bucket key) ({ f with key, data } :: rs)

end Contents

def Call.effect : Call → Contents → Contents
  | .fetch _, s => s
  | .delete key, s =>
    match cutAt (hasKey key) (s (.chain (bucket key))) with
    | none => s
    | some (pre, r, post) => (s.release r).put (bucket key) (pre ++ post)
  | .store key data flag, s =>
    match cutAt (hasKey key) (s (.chain (bucket key))) with
    | none => if flag = .replace then s else s.insert key data (s (.chain (bucket key)))
    | some (pre, r, post) =>
      if flag = .insert then s
      else if data.length = r.data.length then s.put (bucket key) (pre ++ { r with data } :: post)
      else (s.release r).append key data (pre ++ post)

/-- The record that a call appends to the files, if it does. -/
def Call.appended : Call → Contents → Option Rec
  | .fetch _, _ => none
  | .delete _, _ => none
  | .store key data flag, s =>
    match cutAt (hasKey key) (s (.chain (bucket key))) with
    | none =>
      if flag ≠ .replace ∧ cutAt (hasSizes key.length (data.length + 1)) (s .free) = none then
        some (s.fresh key data)
      else none
    | some (_, r, _) =>
      if flag ≠ .insert ∧ data.length ≠ r.data.length then some (s.fresh key data) else none

/-! ### Finding a record -/

/-- What `_db_find_and_lock` does with the lock. -/
def dbFindLocked (key : Bytes) : DbM Int := do
  let db ← get
  let offset ← dbReadptr db.chainoff
  findLoop key maxRounds offset

/-- Where a search starts. -/
def DB.aim (db : DB) (key : Bytes) : DB :=
  { db with
    chainoff := chainOff (bucket key)
    ptroff := chainOff (bucket key) }

theorem dbFindAndLock_bind {α : Type} (key : Bytes) (writelock : Bool) (k : Int → DbM α) (db : DB) :
    (dbFindAndLock key writelock >>= k) db =
      .op (.lock ⟨.idx, chainOff (bucket key), 1⟩ (if writelock then .write else .read)) fun _ =>
        (dbFindLocked key >>= k) (db.aim key) := by
  cases writelock <;> rfl

variable {m : Mode parts}

theorem dbFindLocked_spec (key : Bytes) (c : Nat) (rs : List Rec) (db : DB) (near : c ≤ ptrMax)
    (sound : ∀ r ∈ rs, r.Sound) (readable : m.strict = true → ∀ r ∈ rs, r.Readable)
    (chainoff : db.chainoff = c) (ptroff : db.ptroff = c) :
    Returns m (listAt c rs) (dbFindLocked key db)
      (fun p => p.2.chainoff = c ∧ Found key c rs p.1 p.2) (listAt c rs) := by
  have farthest : ptrMax < 2 ^ 63 := by decide
  intro X L F
  rw [dbFindLocked]
  apply step_get
  rw [chainoff, listAt, mul_assoc]
  apply step_call (dbReadptr_spec db c (headOff rs) (by omega) (headOff_le rs sound))
  rintro _ db1 ⟨rfl, at1⟩
  dsimp only at at1
  rw [← mul_assoc]
  apply Triple.of_owned (chain_short sound)
  intro short
  rw [mul_assoc, mul_left_comm]
  apply (findLoop_spec key rs maxRounds db1 c short sound readable
    (by rw [at1, DB.setPos_ptroff, ptroff]) X L _).mono
  rintro p _ _ h ⟨⟨chainoff', found⟩, rfl, rfl, owned⟩
  refine ⟨⟨?_, found⟩, rfl, rfl, owned⟩
  rw [chainoff', at1, DB.setPos_chainoff, chainoff]

/-! ### What a call does -/

/-- What a call relies on, besides the records of its chain. -/
structure Call.Fits (c : Call) (s : Contents) : Prop where
  readable : ∀ r ∈ s (.chain (bucket c.key)), r.Readable
  appended : ∀ r, c.appended s = some r →
    idxlenMin ≤ r.text.length ∧ r.text.length ≤ idxlenMax ∧ r.off ≤ ptrMax ∧ r.datoff < 2 ^ 63

def Contents.Fine (s : Contents) : Prop := ∀ part : Part, part.Fine (s part)

/-- What is known when a call has locked its chain. -/
structure Begins (m : Mode parts) (c : Call) (rs : List Rec) (X : Know parts) : Prop where
  known : X (.chain (bucket c.key)) rs
  fine : ∀ (part : Part) x, X part x → part.Fine x
  allowed : ∀ s : Contents, s.Fine → s (.chain (bucket c.key)) = rs →
    Part.Fine (.chain (bucket c.key)) (c.effect s (.chain (bucket c.key))) →
      m.allowed (.chain (bucket c.key)) (c.effect s (.chain (bucket c.key)))
  strict : m.strict = true → ∃ s, X = Know.exactly s ∧ c.Fits s

/-- What is known when it has unlocked it again. -/
def Ends (m : Mode parts) (c : Call) (rs : List Rec) (X : Know parts) (reply : Reply)
    (X' : Know parts) (L' : List Part) : Prop :=
  reply = c.reply rs ∧ L' = [] ∧
    (m.alone = true → ∀ s : Contents, X = Know.exactly s → X' = Know.exactly (c.effect s))

theorem Begins.chain {c : Call} {rs : List Rec} {X : Know parts} (begins : Begins m c rs X) :
    Part.Fine (.chain (bucket c.key)) rs := begins.fine (.chain (bucket c.key)) rs begins.known

theorem Begins.sound {c : Call} {rs : List Rec} {X : Know parts} (begins : Begins m c rs X) :
    ∀ r ∈ rs, r.Sound := fun r member => (begins.chain.1 r member).1

theorem Begins.readable {c : Call} {rs : List Rec} {X : Know parts} (begins : Begins m c rs X)
    (strict : m.strict = true) : ∀ r ∈ rs, r.Readable := by
  obtain ⟨s, rfl, fits⟩ := begins.strict strict
  have same : rs = s (.chain (bucket c.key)) := begins.known
  rw [same]
  exact fits.readable

/-- Contents with these parts, and nothing in the other chains. -/
def Contents.of (b : Fin nhashDef) (rs frees : List Rec) (n k : Nat) : Contents
  | .chain b' => if b' = b then rs else []
  | .free => frees
  | .idxEnd => n
  | .datEnd => k

theorem Contents.of_fine {b : Fin nhashDef} {rs frees : List Rec} {n k : Nat}
    (chain : Part.Fine (.chain b) rs) (free : Part.Fine .free frees)
    (idxEnd : Part.Fine .idxEnd n) :
    (Contents.of b rs frees n k).Fine := by
  intro part
  cases part with
  | chain b' =>
    by_cases same : b' = b
    · subst same
      rwa [Contents.of, if_pos rfl]
    · rw [Contents.of, if_neg same]
      exact ⟨by simp, List.nodup_nil⟩
  | free => exact free
  | idxEnd => exact idxEnd
  | datEnd => trivial

theorem fine_nil : Part.Fine .free [] := fun _ member => absurd member List.not_mem_nil

/-- The chain may be unlocked as the call leaves it. -/
theorem Begins.allows {c : Call} {rs ys frees : List Rec} {n k : Nat} {X : Know parts}
    (begins : Begins m c rs X) (free : Part.Fine .free frees) (idxEnd : recordsOff ≤ n)
    (leaves : c.effect (Contents.of (bucket c.key) rs frees n k) (.chain (bucket c.key)) = ys)
    (fine : Part.Fine (.chain (bucket c.key)) ys) : m.allowed (.chain (bucket c.key)) ys := by
  have allowed := begins.allowed (Contents.of (bucket c.key) rs frees n k)
    (Contents.of_fine begins.chain free idxEnd) (if_pos rfl)
  rw [leaves] at allowed
  exact allowed fine

/-- How a call ends. -/
theorem unlock_chain {α : Type} {a : α} (toReply : α → Reply) {c : Call} {rs ys : List Rec}
    {X X0 : Know parts} {db : DB} (chainoff : db.chainoff = chainOff (bucket c.key))
    (allowed : m.allowed (.chain (bucket c.key)) ys) (reply : toReply a = c.reply rs)
    (learned : m.alone = true → ∀ s : Contents, X = Know.exactly s →
      m.learn X0 (.chain (bucket c.key)) ys = Know.exactly (c.effect s)) :
    Triple m X0 [.chain (bucket c.key)] (listAt (chainOff (bucket c.key)) ys)
      ((get >>= fun db : DB => unLock .idx db.chainoff 1 >>= fun _ => (pure a : DbM α)) db)
      fun p X' L' _ => Ends m c rs X (toReply p.1) X' L' := by
  apply step_get
  rw [chainoff]
  refine step_unlock_last rfl (List.mem_singleton_self _) allowed ?_
  exact step_done fun h _ => ⟨reply, by simp, learned⟩

/-- A call that has changed nothing ends so. -/
theorem unlock_unchanged {α : Type} {a : α} (toReply : α → Reply) {c : Call} {rs : List Rec}
    {X : Know parts} {db : DB} (begins : Begins m c rs X)
    (chainoff : db.chainoff = chainOff (bucket c.key)) (reply : toReply a = c.reply rs)
    (same : ∀ s : Contents, s (.chain (bucket c.key)) = rs → c.effect s = s) :
    Triple m X [.chain (bucket c.key)] (listAt (chainOff (bucket c.key)) rs)
      ((get >>= fun db : DB => unLock .idx db.chainoff 1 >>= fun _ => (pure a : DbM α)) db)
      fun p X' L' _ => Ends m c rs X (toReply p.1) X' L' := by
  have here : Contents.of (bucket c.key) rs [] recordsOff 0 (.chain (bucket c.key)) =
      rs := if_pos rfl
  have allowed := begins.allows (k := 0) fine_nil (Nat.le_refl recordsOff)
    (by rw [same _ here, here]) begins.chain
  refine unlock_chain toReply chainoff allowed reply fun alone s exactly_ => ?_
  have known := begins.known
  rw [exactly_] at known
  rw [exactly_, learn_exactly m alone, same s known.symm]
  exact congrArg Know.exactly (known ▸ Function.update_eq_self _ _)

/-- `db_fetch`. -/
theorem dbFetch_body (key : Bytes) (rs : List Rec) (X : Know parts) (db : DB)
    (begins : Begins m (.fetch key) rs X) :
    ∃ next, dbFetch key db = .op (.lock (Part.range (.chain (bucket key))) .read) next ∧
      Triple m X [.chain (bucket key)] (listAt (chainOff (bucket key)) rs) (next ())
      fun p X' L' _ =>
        Ends m (.fetch key) rs X (.data p.1) X' L' := by
  refine ⟨_, dbFindAndLock_bind key false _ db, ?_⟩
  rw [← mul_one (listAt _ rs)]
  apply step_call (dbFindLocked_spec key _ rs _ (chainOff_le _) begins.sound
    begins.readable rfl rfl)
  rintro found db1 ⟨chainoff1, found1⟩
  rw [Found] at found1
  cases cut : cutAt (hasKey key) rs with
  | none =>
    rw [cut] at found1
    obtain rfl : found = -1 := found1
    rw [if_pos (by decide)]
    apply step_modify
    intro db2 at2
    apply step_pure
    rw [mul_one]
    have same : .data none = (Call.fetch key).reply rs := by
      rw [Call.reply, cut]
      rfl
    exact unlock_unchanged (c := .fetch key) Reply.data begins (by rw [at2]; exact chainoff1) same
      fun _ _ => rfl
  | some parts_ =>
    obtain ⟨pre, r, post⟩ := parts_
    rw [cut] at found1
    obtain ⟨rfl, at1, _⟩ : found = 0 ∧ _ := found1
    obtain ⟨rfl, _, _⟩ := cutAt_eq_some cut
    have here : r.Sound := begins.sound r (by simp)
    rw [if_neg (by decide)]
    -- the data record
    refine Triple.rearrange (B := bytes .dat r.datoff (r.data ++ [newline]) *
      (beforeAt (chainOff (bucket key)) pre * ptrAt (lastOff (chainOff (bucket key)) pre) r.off *
        ptrAt r.off (headOff post) * bytes .idx (r.off + ptrSz) r.tail * chainAt post)) ?_ ?_
    · rw [mul_one, listAt_append, listAt, chainAt, headOff, Rec.rest]
      ac_rfl
    apply step_call (dbReaddat_spec db1 r _ here.legible at1)
    rintro _ db2 ⟨rfl, chainoff2, -⟩
    apply step_modify
    intro db3 at3
    apply step_pure
    refine Triple.rearrange (B := listAt (chainOff (bucket key)) (pre ++ r :: post)) ?_ ?_
    · rw [listAt_append, listAt, chainAt, headOff, Rec.rest]
      ac_rfl
    exact unlock_unchanged (c := .fetch key) Reply.data begins
      (by rw [at3]; exact chainoff2.trans chainoff1)
      (by rw [Call.reply, cut]; rfl) fun _ _ => rfl

/-! ### Chains that change -/

theorem Part.Fine.sublist {b : Fin nhashDef} {rs ys : List Rec} (fine : Part.Fine (.chain b) rs)
    (less : ys.Sublist rs) : Part.Fine (.chain b) ys :=
  ⟨fun r member => fine.1 r (less.subset member), fine.2.sublist (less.map Rec.key)⟩

theorem Part.Fine.cons {b : Fin nhashDef} {rs : List Rec} {r : Rec} (fine : Part.Fine (.chain b) rs)
    (sound : r.Sound) (here : bucket r.key = b) (new : ∀ q ∈ rs, q.key ≠ r.key) :
    Part.Fine (.chain b) (r :: rs) := by
  refine ⟨List.forall_mem_cons.mpr ⟨⟨sound, here⟩, fine.1⟩, List.nodup_cons.mpr ⟨?_, fine.2⟩⟩
  intro member
  obtain ⟨q, among, same⟩ := List.mem_map.mp member
  exact new q among same

theorem Part.Fine.replace {b : Fin nhashDef} {pre post : List Rec} {r : Rec} {data : Bytes}
    (fine : Part.Fine (.chain b) (pre ++ r :: post)) (sound : ({ r with data } : Rec).Sound) :
    Part.Fine (.chain b) (pre ++ { r with data } :: post) := by
  refine ⟨?_, ?_⟩
  · intro q member
    rw [List.mem_append, List.mem_cons] at member
    rcases member with before | rfl | behind
    · exact fine.1 q (by simp [before])
    · exact ⟨sound, (fine.1 r (by simp)).2⟩
    · exact fine.1 q (by simp [behind])
  · have keys := fine.2
    rwa [List.map_append, List.map_cons] at keys ⊢

theorem sublist_without (pre post : List Rec) (r : Rec) :
    (pre ++ post).Sublist (pre ++ r :: post) :=
  List.Sublist.append_left (List.sublist_cons_self r post) pre

theorem hasKey_iff {key : Bytes} {r : Rec} : hasKey key r = true ↔ r.key = key := by simp [hasKey]

theorem hasKey_eq_false {key : Bytes} {r : Rec} : hasKey key r = false ↔ r.key ≠ key := by
  simp [hasKey]

/-- `db_delete`. -/
theorem dbDelete_body (key : Bytes) (rs : List Rec) (X : Know parts) (db : DB)
    (serving : Serving m) (begins : Begins m (.delete key) rs X) :
    ∃ next, dbDelete key db = .op (.lock (Part.range (.chain (bucket key))) .write) next ∧
      Triple m X [.chain (bucket key)] (listAt (chainOff (bucket key)) rs) (next ())
      fun p X' L' _ =>
        Ends m (.delete key) rs X (.code p.1) X' L' := by
  refine ⟨_, dbFindAndLock_bind key true _ db, ?_⟩
  rw [← mul_one (listAt _ rs)]
  apply step_call (dbFindLocked_spec key _ rs _ (chainOff_le _) begins.sound
    begins.readable rfl rfl)
  rintro found db1 ⟨chainoff1, found1⟩
  rw [Found] at found1
  cases cut : cutAt (hasKey key) rs with
  | none =>
    rw [cut] at found1
    obtain rfl : found = -1 := found1
    -- no record has the key: the lock is given back with all as it was
    rw [if_neg (by decide)]
    apply step_modify
    intro db2 at2
    apply step_pure
    rw [mul_one]
    refine unlock_unchanged (c := .delete key) Reply.code begins (by rw [at2]; exact chainoff1)
      (by rw [Call.reply, cut]; rfl) fun s same => ?_
    change s (.chain (bucket key)) = rs at same
    simp only [Call.effect, same, cut]
  | some parts_ =>
    obtain ⟨pre, r, post⟩ := parts_
    rw [cut] at found1
    obtain ⟨rfl, at1, ptroff1⟩ : found = 0 ∧ _ ∧ _ := found1
    obtain ⟨rfl, _, _⟩ := cutAt_eq_some cut
    rw [if_pos rfl]
    -- the free list is locked, changed and unlocked on the way
    apply step_taking (dbDodelete_spec serving db1 _ pre post r (chainOff_le _)
      begins.sound at1 ptroff1
      (by simp) (begins.fine .free))
    rintro _ db2 _ _ h ⟨frees, known, chainoff2, rfl, rfl, owned⟩
    rw [mul_one] at owned
    revert h
    apply step_modify
    intro db3 at3
    apply step_pure
    have leaves (s : Contents) (same : s (.chain (bucket key)) = pre ++ r :: post) :
        (Call.delete key).effect s = (s.release r).put (bucket key) (pre ++ post) := by
      simp only [Call.effect, same, cut]
    refine unlock_chain (c := .delete key) Reply.code (by rw [at3]; exact chainoff2.trans chainoff1)
      ?_ (by rw [Call.reply, cut]; rfl) ?_
    · refine begins.allows (n := recordsOff) (k := 0) fine_nil (Nat.le_refl _) ?_
        (begins.chain.sublist (sublist_without pre post r))
      rw [leaves _ (if_pos rfl)]
      exact Function.update_self _ _ _
    · -- alone in the files, the call knows the free list as it is
      rintro alone s rfl
      have same : s (.chain (bucket key)) = pre ++ r :: post := begins.known.symm
      obtain rfl : frees = s .free := known
      rw [learn_exactly m alone, learn_exactly m alone, leaves s same]
      rfl

/-! ### New records -/

/-- Only one that is alone has learnt anything of a part. -/
theorem learn_of_ne (m : Mode parts) (X : Know parts) {part part' : Part} (x : part.Content)
    (other : part' ≠ part) : m.learn X part x part' = X part' := by
  rw [Mode.learn]
  split
  · rw [Function.update_of_ne other]
  · rfl

/-- The steps of `db_store` that write a record at the ends of the files. -/
theorem step_append_record {β : Type} {k : PUnit → DbM β} {X : Know parts} {db : DB} {rs : List Rec}
    {b : Fin nhashDef} {Q : β × DB → Know parts → List Part → FileHeap DbFile → Prop}
    (serving : Serving m) (key data : Bytes) (sound : ∀ r ∈ rs, r.Sound) (keyText : 0 ∉ key)
    (dataText : 0 ∉ data) (nonempty : data ≠ []) (short : data.length + 1 ≤ datlenMax)
    (fine : ∀ n : Nat, X .idxEnd n → recordsOff ≤ n) (chainoff : db.chainoff = chainOff b)
    (fits : m.strict = true → (∀ o : Nat, X .datEnd o → o < 2 ^ 63 ∧
      idxlenMin ≤ (Rec.mk 0 key o data).text.length ∧ (Rec.mk 0 key o data).text.length ≤
        idxlenMax) ∧
        ∀ n : Nat, X .idxEnd n → n ≤ ptrMax)
    (rest : ∀ n o : Nat, X .idxEnd n → X .datEnd o → (Rec.mk n key o data).Sound →
      ∀ db', db'.chainoff = chainOff b →
        Triple m (m.learn (m.learn X .datEnd (o + (data.length + 1))) .idxEnd
          (n + (Rec.mk n key o data).size)) [.chain b] (listAt (chainOff b)
          (Rec.mk n key o data :: rs))
            (k ⟨⟩ db') Q) :
    Triple m X [.chain b] (listAt (chainOff b) rs)
      ((dbWritedat data 0 .end_ >>=
        fun _ => dbWriteidx key 0 .end_ (headOff rs) >>= fun _ => get >>=
        fun db : DB => dbWriteptr db.chainoff db.idxoff >>= k) db) Q := by
  have farthest : ptrMax < 2 ^ 63 := by decide
  have near := chainOff_le b
  have ptrNear := headOff_le rs sound
  have unlearnt (o : Nat) : m.learn X .datEnd o .idxEnd = X .idxEnd := learn_of_ne m X _ (by simp)
  apply step_taking (dbWritedat_end serving db data (by simp) fun strict o known =>
    ((fits strict).1 o known).1)
  rintro _ db1 _ _ h ⟨o, known, range, datoff1, datlen1, place1, rfl, rfl, owned⟩
  revert h
  -- the index record
  have line :=
    dbWriteidx_end (X := m.learn X .datEnd (o + (data.length + 1) : Nat)) (L := [.chain b])
    (F := bytes .dat o (data ++ [newline]) * listAt (chainOff b) rs) serving db1 ⟨0, key, o, data⟩
    (headOff rs) ptrNear datoff1 datlen1 (by simp) (by rw [unlearnt]; exact fine)
  apply step_taking (line fun strict =>
    ⟨((fits strict).1 o known).2.1, ((fits strict).1 o known).2.2,
    fun n known' => Nat.lt_of_le_of_lt ((fits strict).2 n (by rwa [unlearnt] at known')) farthest⟩)
  rintro _ db2 _ _ h ⟨n, knownIdx, textLong, textShort, idxoff2, place2, rfl, rfl, owned⟩
  rw [unlearnt] at knownIdx
  dsimp only at idxoff2
  have chainoff2 : db2.chainoff = chainOff b :=
    (congrArg Prod.snd (place2.trans place1)).trans chainoff
  revert h
  apply step_get
  rw [chainoff2, idxoff2]
  -- the pointer to it
  refine Triple.rearrange (B := ptrAt (chainOff b) (headOff rs) * (bytes .idx n
    ((Rec.mk n key o data).line (headOff rs)) * bytes .dat o (data ++ [newline]) *
    chainAt rs)) ?_ ?_
  · rw [listAt]
    change bytes DbFile.idx n ((Rec.mk n key o data).line (headOff rs)) * _ = _
    ac_rfl
  apply step_call (dbWriteptr_far serving.writes db2 (chainOff b) (headOff rs) n (by omega) ptrNear
    fun strict => (fits strict).2 n knownIdx)
  rintro _ db3 ⟨nNear, chainoff3⟩
  have pos : recordsOff ≤ n := fine n knownIdx
  have new : (Rec.mk n key o data).Sound :=
    ⟨keyText, dataText, by rw [recordsOff, nhashDef, ptrSz] at pos; show n ≠ 0; omega, nNear, range,
      nonempty, short, textLong, textShort⟩
  have size : (Rec.line ⟨0, key, o, data⟩ (headOff rs)).length = (Rec.mk n key o data).size :=
    length_line (Rec.mk n key o data) _ new ptrNear
  rw [size]
  refine Triple.rearrange (B := listAt (chainOff b) (Rec.mk n key o data :: rs)) ?_
    (rest n o knownIdx known new db3 (chainoff3.trans chainoff2))
  have parts_ := line_eq (Rec.mk n key o data) (headOff rs) ptrNear
  rw [listAt, chainAt, headOff, Rec.rest, ← mul_assoc (ptrAt _ (headOff rs)), ← parts_]

/-! ### Storing -/

/-- What a function leaves in the chain, for its caller to unlock. -/
structure Leaves (m : Mode parts) (b : Fin nhashDef) (rs : List Rec) (X : Know parts)
    (effect : Contents → Contents) (X' : Know parts) (ys : List Rec) : Prop where
  fine : Part.Fine (.chain b) ys
  seen : ∃ (frees : List Rec) (n k : Nat), Part.Fine .free frees ∧ recordsOff ≤ n ∧
    effect (Contents.of b rs frees n k) (.chain b) = ys
  learnt : m.alone = true → ∀ s : Contents, X = Know.exactly s →
    m.learn X' (.chain b) ys = Know.exactly (effect s)

/-- A caller unlocks what a function has left. -/
theorem Leaves.unlock {α : Type} {a : α} (toReply : α → Reply) {c : Call} {rs ys : List Rec}
    {X X0 : Know parts} {db : DB} {effect : Contents → Contents} (begins : Begins m c rs X)
    (leaves : Leaves m (bucket c.key) rs X effect X0 ys)
    (chainoff : db.chainoff = chainOff (bucket c.key)) (reply : toReply a = c.reply rs)
    (same : ∀ s : Contents, s (.chain (bucket c.key)) = rs → c.effect s = effect s) :
    Triple m X0 [.chain (bucket c.key)] (listAt (chainOff (bucket c.key)) ys)
      ((get >>= fun db : DB => unLock .idx db.chainoff 1 >>= fun _ => (pure a : DbM α)) db)
      fun p X' L' _ => Ends m c rs X (toReply p.1) X' L' := by
  refine unlock_chain toReply chainoff ?_ reply ?_
  · obtain ⟨frees, n, k, free, idxEnd, there⟩ := leaves.seen
    have here : Contents.of (bucket c.key) rs frees n k (.chain (bucket c.key)) = rs := if_pos rfl
    exact begins.allows free idxEnd (by rw [same _ here, there]) leaves.fine
  · rintro alone s rfl
    rw [leaves.learnt alone s rfl, same s begins.known.symm]

theorem hasSizes_iff {keylen datlen : Nat} {r : Rec} : hasSizes keylen datlen r = true ↔
    r.key.length = keylen ∧ r.data.length + 1 = datlen := by simp [hasSizes]

/-- What a text is that can be stored. -/
structure Storable (key data : Bytes) : Prop where
  keyText : 0 ∉ key
  dataText : 0 ∉ data
  nonempty : data ≠ []
  short : data.length + 1 ≤ datlenMax

theorem insert_none {s : Contents} {key data : Bytes} {rs : List Rec}
    (cut : cutAt (hasSizes key.length (data.length + 1)) (s .free) = none) :
    s.insert key data rs = s.append key data rs := by
  rw [Contents.insert, cut]

theorem insert_some {s : Contents} {key data : Bytes} {rs pre post : List Rec} {f : Rec}
    (cut : cutAt (hasSizes key.length (data.length + 1)) (s .free) = some (pre, f, post)) :
    s.insert key data rs =
      Contents.put (Function.update s .free (pre ++ post)) (bucket key)
      ({ f with key, data } :: rs) := by
  rw [Contents.insert, cut]

/-- Where a call appends a record, there is room for it. -/
theorem Begins.room {key data : Bytes} {flag : Flag} {rs : List Rec} {X X1 : Know parts}
    (begins : Begins m (.store key data flag) rs X) (strict : m.strict = true)
    (appends : ∀ s : Contents, X = Know.exactly s →
      (Call.store key data flag).appended s = some (s.fresh key data))
    (idxSame : X1 .idxEnd = X .idxEnd) (datSame : X1 .datEnd = X .datEnd) :
    (∀ o : Nat, X1 .datEnd o → o < 2 ^ 63 ∧ idxlenMin ≤ (Rec.mk 0 key o data).text.length ∧
      (Rec.mk 0 key o data).text.length ≤ idxlenMax) ∧ ∀ n : Nat, X1 .idxEnd n → n ≤ ptrMax := by
  obtain ⟨s, rfl, fits⟩ := begins.strict strict
  obtain ⟨long, short, near, range⟩ := fits.appended _ (appends s rfl)
  rw [idxSame, datSame]
  constructor
  · rintro o rfl
    exact ⟨range, long, short⟩
  · rintro n rfl
    exact near

theorem dbStoreAbsent_spec {key data : Bytes} {flag : Flag} {rs : List Rec} {X : Know parts}
    (db : DB) (serving : Serving m) (begins : Begins m (.store key data flag) rs X)
    (storable : Storable key data) (stores : flag ≠ .replace) (cut : cutAt (hasKey key) rs = none)
    (chainoff : db.chainoff = chainOff (bucket key)) :
    Triple m X [.chain (bucket key)] (listAt (chainOff (bucket key)) rs) (dbStoreAbsent key data db)
      fun p X' L' h => p.2.chainoff = chainOff (bucket key) ∧ L' = [.chain (bucket key)] ∧
        ∃ ys, Leaves m (bucket key) rs X (fun s => s.insert key data rs) X' ys ∧
          listAt (chainOff (bucket key)) ys h := by
  have sound := begins.sound
  have chain : Part.Fine (.chain (bucket key)) rs := begins.chain
  have near := chainOff_le (bucket key)
  have farthest : ptrMax < 2 ^ 63 := by decide
  have ptrNear := headOff_le rs sound
  have new (r : Rec) (same : r.key = key) (q : Rec) (member : q ∈ rs) : q.key ≠ r.key := by
    rw [same]
    exact hasKey_eq_false.mp (cutAt_eq_none.mp cut q member)
  rw [dbStoreAbsent]
  apply step_get
  rw [chainoff, listAt]
  apply step_call (dbReadptr_spec db _ (headOff rs) (by omega) ptrNear)
  rintro _ db1 ⟨rfl, at1⟩
  dsimp only at at1
  have chainoff1 : db1.chainoff = chainOff (bucket key) := by rw [at1, DB.setPos_chainoff, chainoff]
  apply step_taking (dbFindfree_spec serving db1 key.length (data.length + 1) (by simp)
    (begins.fine .free))
  rintro found db2 X2 _ h ⟨frees, known, chainoff2, rfl, search⟩
  have freesFine : Part.Fine .free frees := begins.fine .free frees known
  dsimp only at search
  cases cutFree : cutAt (hasSizes key.length (data.length + 1)) frees with
  | none =>
    rw [cutFree] at search
    obtain ⟨rfl, rfl, owned⟩ := search
    rw [if_pos (by decide)]
    revert h
    have idxSame : m.learn X .free frees .idxEnd = X .idxEnd := learn_of_ne m X _ (by simp)
    have datSame : m.learn X .free frees .datEnd = X .datEnd := learn_of_ne m X _ (by simp)
    refine step_append_record serving key data sound storable.keyText storable.dataText
      storable.nonempty storable.short (by rw [idxSame]; exact begins.fine .idxEnd)
      (chainoff2.trans chainoff1) (fun strict => begins.room strict ?_ idxSame datSame) ?_
    · rintro s rfl
      obtain rfl : frees = s .free := known
      have same : s (.chain (bucket key)) = rs := begins.known.symm
      simp only [Call.appended, same, cut, cutFree, ne_eq, stores, not_false_eq_true, and_self,
        if_true]
    · intro n o knownIdx knownDat soundNew db3 chainoff3
      apply step_last
      apply step_modify
      intro db4 at4
      refine step_done fun h owned => ⟨by rw [at4]; exact chainoff3, rfl, _, ⟨?_, ?_, ?_⟩, owned⟩
      · exact chain.cons soundNew rfl (new _ rfl)
      · refine ⟨frees, n, o, freesFine, begins.fine .idxEnd n (by rwa [idxSame] at knownIdx), ?_⟩
        rw [insert_none cutFree]
        exact Function.update_self _ _ _
      · rintro alone s rfl
        obtain rfl : frees = s .free := known
        obtain rfl : n = s .idxEnd := by rwa [idxSame] at knownIdx
        obtain rfl : o = s .datEnd := by rwa [datSame] at knownDat
        rw [insert_none cutFree, learn_exactly m alone, learn_exactly m alone,
          learn_exactly m alone, learn_exactly m alone, Function.update_eq_self]
        rfl
  | some parts_ =>
    obtain ⟨pre, f, post⟩ := parts_
    rw [cutFree] at search
    obtain ⟨rfl, idxoff2, datoff2, rfl, owned⟩ := search
    obtain ⟨rfl, matches_, _⟩ := cutAt_eq_some cutFree
    obtain ⟨keyLen, dataLen⟩ := hasSizes_iff.mp matches_
    have here : f.Sound := (freesFine f (by simp)).1
    have postNear := headOff_le post fun q member => (freesFine q (by simp [member])).1
    have soundNew : ({ f with key, data } : Rec).Sound :=
      here.other key data storable.keyText storable.dataText keyLen.symm (by omega)
    rw [if_neg (by decide)]
    revert h
    apply step_get
    rw [datoff2]
    -- the data record
    refine Triple.rearrange (B := bytes .dat f.datoff (f.data ++ [newline]) *
      (ptrAt f.off (headOff post) * bytes .idx (f.off + ptrSz) f.tail *
        (ptrAt (chainOff (bucket key)) (headOff rs) * chainAt rs))) (by rw [Rec.rest]; ac_rfl) ?_
    apply step_call (dbWritedat_spec serving.writes db2 f.datoff (f.data ++ [newline]) data
      here.datoff_lt (by simpa using dataLen))
    rintro _ db3 ⟨datoff3, datlen3, _, idxoff3, _, place3⟩
    apply step_get
    dsimp only at idxoff3
    rw [idxoff3, idxoff2]
    -- the index record
    refine Triple.rearrange (B := bytes .idx f.off (f.line (headOff post)) *
      (bytes .dat f.datoff (data ++ [newline]) *
        (ptrAt (chainOff (bucket key)) (headOff rs) *
          chainAt rs))) (by rw [line_eq f _ postNear]; ac_rfl) ?_
    have sameLine : (f.line (headOff post)).length =
        (Rec.line { f with key, data } (headOff rs)).length := by
      rw [length_line f _ here postNear, length_line _ _ soundNew ptrNear, Rec.length_text,
        Rec.length_text, keyLen, dataLen]
    apply step_call (dbWriteidx_spec serving.writes db3 { f with key, data } (headOff rs)
      (f.line (headOff post)) soundNew ptrNear datoff3 datlen3 sameLine)
    rintro _ db4 ⟨idxoff4, place4⟩
    apply step_get
    have chainoff4 : db4.chainoff = chainOff (bucket key) :=
      (congrArg Prod.snd (place4.trans place3)).trans (chainoff2.trans chainoff1)
    dsimp only at idxoff4
    rw [chainoff4, idxoff4]
    -- the pointer to it
    refine Triple.rearrange (B := ptrAt (chainOff (bucket key)) (headOff rs) *
      (bytes .idx f.off (Rec.line { f with key, data } (headOff rs)) *
        bytes .dat f.datoff (data ++ [newline]) * chainAt rs)) (by ac_rfl) ?_
    apply step_call (dbWriteptr_spec serving.writes db4 (chainOff (bucket key)) (headOff rs)
      f.off (by omega)
      ptrNear here.off_le)
    intro _ db5 at5
    dsimp only at at5
    refine Triple.rearrange (B := listAt (chainOff (bucket key)) ({ f with key, data } :: rs)) ?_ ?_
    · have parts_ := line_eq { f with key, data } (headOff rs) ptrNear
      rw [listAt, chainAt, headOff, Rec.rest, ← mul_assoc (ptrAt _ (headOff rs)), ← parts_]
    apply step_last
    apply step_modify
    intro db6 at6
    refine step_done fun h owned => ⟨?_, rfl, _, ⟨?_, ?_, ?_⟩, owned⟩
    · rw [at6]
      exact (by rw [at5, DB.setPos_chainoff, chainoff4])
    · exact chain.cons soundNew rfl (new _ rfl)
    · refine ⟨pre ++ f :: post, recordsOff, 0, freesFine, Nat.le_refl _, ?_⟩
      rw [insert_some cutFree]
      exact Function.update_self _ _ _
    · rintro alone s rfl
      have same : pre ++ f :: post = s .free := known
      rw [same] at cutFree
      rw [insert_some cutFree, learn_exactly m alone, learn_exactly m alone]
      rfl

/-- What becomes of a record that is there. -/
def Contents.overwrite (s : Contents) (key data : Bytes) (pre : List Rec) (r : Rec)
    (post : List Rec) :
    Contents :=
  if data.length = r.data.length then s.put (bucket key) (pre ++ { r with data } :: post)
  else (s.release r).append key data (pre ++ post)

theorem dbStoreFound_spec {key data : Bytes} {flag : Flag} {rs pre post : List Rec} {r : Rec}
    {X : Know parts} (db : DB) (serving : Serving m)
    (begins : Begins m (.store key data flag) rs X) (storable : Storable key data)
    (stores : flag ≠ .insert) (cut : cutAt (hasKey key) rs = some (pre, r, post))
    (at_ : db.At r (headOff post)) (ptroff : db.ptroff = lastOff (chainOff (bucket key)) pre)
    (chainoff : db.chainoff = chainOff (bucket key)) :
    Triple m X [.chain (bucket key)] (listAt (chainOff (bucket key)) rs) (dbStoreFound key data db)
      fun p X' L' h => p.2.chainoff = chainOff (bucket key) ∧ L' = [.chain (bucket key)] ∧
        ∃ ys, Leaves m (bucket key) rs X (fun s => s.overwrite key data pre r post) X' ys ∧
          listAt (chainOff (bucket key)) ys h := by
  have sound := begins.sound
  have chain : Part.Fine (.chain (bucket key)) rs := begins.chain
  have near := chainOff_le (bucket key)
  have farthest : ptrMax < 2 ^ 63 := by decide
  have rsEq := (cutAt_eq_some cut).1
  have keyEq := hasKey_iff.mp (cutAt_eq_some cut).2.1
  rw [rsEq] at sound chain ⊢
  have here : r.Sound := sound r (by simp)
  rw [dbStoreFound]
  apply step_get
  rw [at_.datlen]
  by_cases size : data.length = r.data.length
  · rw [if_neg (by omega), at_.datoff]
    -- the data record
    refine Triple.rearrange (B := bytes .dat r.datoff (r.data ++ [newline]) *
      (beforeAt (chainOff (bucket key)) pre * ptrAt (lastOff (chainOff (bucket key)) pre) r.off *
        ptrAt r.off (headOff post) * bytes .idx (r.off + ptrSz) r.tail * chainAt post)) ?_ ?_
    · rw [listAt_append, listAt, chainAt, headOff, Rec.rest]
      ac_rfl
    apply step_call (dbWritedat_spec serving.writes db r.datoff (r.data ++ [newline]) data
      here.datoff_lt
      (by simpa using size.symm))
    rintro _ db1 ⟨_, _, _, _, _, place1⟩
    apply step_last
    apply step_modify
    intro db2 at2
    have tail : Rec.tail { r with data } = r.tail := by
      rw [Rec.tail, Rec.tail, Rec.text, Rec.text, size]
    refine Triple.rearrange
      (B := listAt (chainOff (bucket key)) (pre ++ { r with data } :: post)) ?_ ?_
    · rw [listAt_append, listAt, chainAt, headOff, Rec.rest, tail]
      ac_rfl
    have soundNew : ({ r with data } : Rec).Sound :=
      here.other r.key data here.keyText storable.dataText rfl size
    have same (s : Contents) : s.overwrite key data pre r post =
        s.put (bucket key) (pre ++ { r with data } :: post) := if_pos size
    refine step_done fun h owned => ⟨?_, rfl, _, ⟨chain.replace soundNew, ?_, ?_⟩, owned⟩
    · rw [at2]
      exact (congrArg Prod.snd place1).trans chainoff
    · refine ⟨[], recordsOff, 0, by simp [Part.Fine], Nat.le_refl _, ?_⟩
      rw [same]
      exact Function.update_self _ _ _
    · rintro alone s rfl
      rw [same, learn_exactly m alone]
      rfl
  · rw [if_pos (by omega), ← mul_one (listAt _ _)]
    apply step_taking (dbDodelete_spec serving db _ pre post r near sound at_ ptroff (by simp)
      (begins.fine .free))
    rintro _ db1 _ _ h ⟨frees, known, chainoff1, rfl, rfl, owned⟩
    have freesFine : Part.Fine .free frees := begins.fine .free frees known
    have less := sublist_without pre post r
    have soundRest (q : Rec) (member : q ∈ pre ++ post) : q.Sound := sound q (less.subset member)
    have ptrNear := headOff_le _ soundRest
    rw [mul_one] at owned
    revert h
    apply step_get
    dsimp only at chainoff1
    rw [chainoff1, chainoff, listAt]
    apply step_call (dbReadptr_spec db1 _ (headOff (pre ++ post)) (by omega) ptrNear)
    rintro _ db2 ⟨rfl, at2⟩
    dsimp only at at2
    have idxSame : m.learn X .free (r.blank :: frees) .idxEnd = X .idxEnd :=
      learn_of_ne m X _ (by simp)
    have datSame : m.learn X .free (r.blank :: frees) .datEnd = X .datEnd :=
      learn_of_ne m X _ (by simp)
    have same (s : Contents) : s.overwrite key data pre r post =
        (s.release r).append key data (pre ++ post) := if_neg size
    refine step_append_record serving key data soundRest storable.keyText storable.dataText
      storable.nonempty storable.short (by rw [idxSame]; exact begins.fine .idxEnd)
      (by rw [at2, DB.setPos_chainoff, chainoff1, chainoff])
      (fun strict => begins.room strict ?_ idxSame datSame) ?_
    · rintro s rfl
      have rsSame : s (.chain (bucket key)) = rs := begins.known.symm
      simp only [Call.appended, rsSame, cut, ne_eq, stores, size, not_false_eq_true, and_self,
        if_true]
    · intro n o knownIdx knownDat soundNew db3 chainoff3
      apply step_last
      apply step_modify
      intro db4 at4
      refine step_done fun h owned => ⟨by rw [at4]; exact chainoff3, rfl, _, ⟨?_, ?_, ?_⟩, owned⟩
      · refine (chain.sublist less).cons soundNew rfl fun q member => ?_
        -- there was only one record with the key
        have keys := chain.2
        rw [List.map_append, List.map_cons, keyEq] at keys
        intro again
        have twice := List.nodup_middle.mp keys
        rw [List.nodup_cons, ← List.map_append] at twice
        exact twice.1 (List.mem_map.mpr ⟨q, member, again⟩)
      · refine ⟨frees, n, o, freesFine, begins.fine .idxEnd n (by rwa [idxSame] at knownIdx), ?_⟩
        rw [same]
        exact Function.update_self _ _ _
      · rintro alone s rfl
        obtain rfl : frees = s .free := known
        obtain rfl : n = s .idxEnd := by rwa [idxSame] at knownIdx
        obtain rfl : o = s .datEnd := by rwa [datSame] at knownDat
        rw [same, learn_exactly m alone, learn_exactly m alone, learn_exactly m alone,
          learn_exactly m alone]
        rfl

/-- `db_store`, for data of a length that it takes. -/
theorem dbStore_body (key data : Bytes) (flag : Flag) (rs : List Rec) (X : Know parts) (db : DB)
    (storable : Storable key data) (serving : Serving m)
    (begins : Begins m (.store key data flag) rs X) :
    ∃ next, dbStore key data flag db = .op (.lock (Part.range (.chain (bucket key))) .write) next ∧
      Triple m X [.chain (bucket key)] (listAt (chainOff (bucket key)) rs) (next ())
      fun p X' L' _ =>
        Ends m (.store key data flag) rs X (.code p.1) X' L' := by
  have long := List.length_pos_of_ne_nil storable.nonempty
  have short := storable.short
  rw [dbStore, if_neg (by rw [datlenMin]; omega)]
  refine ⟨_, dbFindAndLock_bind key true _ db, ?_⟩
  rw [← mul_one (listAt _ rs)]
  apply step_call (dbFindLocked_spec key _ rs _ (chainOff_le _) begins.sound
    begins.readable rfl rfl)
  rintro found db1 ⟨chainoff1, found1⟩
  dsimp only at chainoff1
  rw [Found] at found1
  rw [mul_one]
  cases cut : cutAt (hasKey key) rs with
  | none =>
    rw [cut] at found1
    obtain rfl : found = -1 := found1
    rw [if_pos (by decide)]
    -- `replace` needs a record, and `ENOENT` leaves all as it was
    by_cases replaces : flag = .replace
    · subst replaces
      rw [if_pos rfl]
      apply step_modify
      intro db2 at2
      apply step_pure
      refine unlock_unchanged (c := .store key data .replace) Reply.code begins
        (by rw [at2]; exact chainoff1) (by rw [Call.reply, cut]; rfl) fun s same => ?_
      change s (.chain (bucket key)) = rs at same
      simp only [Call.effect, same, cut, if_true]
    · rw [if_neg replaces]
      apply step_taking (dbStoreAbsent_spec db1 serving begins storable replaces cut chainoff1)
      rintro _ db2 X2 _ h ⟨chainoff2, rfl, ys, leaves, owned⟩
      revert h
      apply step_pure
      refine Leaves.unlock (c := .store key data flag) Reply.code begins leaves chainoff2
        (by rw [Call.reply, cut]; simp [replaces]) fun s same => ?_
      change s (.chain (bucket key)) = rs at same
      simp only [Call.effect, same, cut, replaces, if_false]
  | some parts_ =>
    obtain ⟨pre, r, post⟩ := parts_
    rw [cut] at found1
    obtain ⟨rfl, at1, ptroff1⟩ : found = 0 ∧ _ ∧ _ := found1
    rw [if_neg (by decide)]
    -- `insert` refuses a second record of the key
    by_cases inserts : flag = .insert
    · subst inserts
      rw [if_pos rfl]
      apply step_modify
      intro db2 at2
      apply step_pure
      refine unlock_unchanged (c := .store key data .insert) Reply.code begins
        (by rw [at2]; exact chainoff1) (by rw [Call.reply, cut]; rfl) fun s same => ?_
      change s (.chain (bucket key)) = rs at same
      simp only [Call.effect, same, cut, if_true]
    · rw [if_neg inserts]
      apply step_taking (dbStoreFound_spec db1 serving begins storable inserts cut at1
        ptroff1 chainoff1)
      rintro _ db2 X2 _ h ⟨chainoff2, rfl, ys, leaves, owned⟩
      revert h
      apply step_pure
      refine Leaves.unlock (c := .store key data flag) Reply.code begins leaves chainoff2
        (by rw [Call.reply, cut]; simp [inserts]) fun s same => ?_
      change s (.chain (bucket key)) = rs at same
      simp only [Call.effect, same, cut, inserts, if_false]
      rfl

/-! ### All calls -/

/-- `db_fetch` takes its lock for reading. -/
def Call.kind : Call → LockKind
  | .fetch _ => .read
  | .delete _ => .write
  | .store .. => .write

/-- The arguments of a call that does not end at once. -/
def Call.Valid : Call → Prop
  | .fetch _ => True
  | .delete _ => True
  | .store key data _ => Storable key data

/-- The steps of a function, with what its value means. -/
theorem replies {α : Type} {x : DbM α} {toReply : α → Reply} {db : DB} {range : Range DbFile}
    {kind : LockKind} {c : Call} {rs : List Rec} {X : Know parts} {A : FileAssertion DbFile}
    (body : ∃ next, x db = .op (.lock range kind) next ∧
      Triple m X [c.chain] A (next ()) fun p X' L' _ => Ends m c rs X (toReply p.1) X' L') :
    ∃ next, (x >>= fun a => (pure (toReply a) : DbM Reply)) db = .op (.lock range kind) next ∧
      Triple m X [c.chain] A (next ()) fun p X' L' _ => Ends m c rs X p.1 X' L' := by
  obtain ⟨next, steps, does⟩ := body
  refine ⟨fun r => (next r).bind fun p => .ret (toReply p.1, p.2), ?_, ?_⟩
  · rw [bind_apply, steps, Prog.op_bind]
    rfl
  · exact does.bind fun p X' L' h ends => ends

/-- A call locks its chain, does what it is for, and unlocks it. -/
theorem call_body (c : Call) (rs : List Rec) (X : Know parts) (db : DB) (valid : c.Valid)
    (serving : c.kind = .write → Serving m) (begins : Begins m c rs X) :
    ∃ next, c.run db = .op (.lock c.chain.range c.kind) next ∧
      Triple m X [c.chain] (c.chain.holds rs) (next ())
      fun p X' L' _ => Ends m c rs X p.1 X' L' := by
  cases c with
  | fetch key => exact replies (dbFetch_body key rs X db begins)
  | delete key => exact replies (dbDelete_body key rs X db (serving rfl) begins)
  | store key data flag =>
    exact replies (dbStore_body key data flag rs X db valid (serving rfl) begins)

end Apue
