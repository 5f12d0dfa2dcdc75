import MyStudy.Apue.DbAccess

/-!
# Parts of the database

The record locks divide the two files into the chains, the free list and the two ends. What the
functions do that lock a part on their way: each takes it, changes it, and gives it back.
-/
namespace Apue

open FileProgram Separation

/-! ### Parts -/

theorem dbHash_lt (key : Bytes) : dbHash key < nhashDef := Nat.mod_lt _ (by decide)

/-- The chain of a key. -/
def bucket (key : Bytes) : Fin nhashDef := ⟨dbHash key, dbHash_lt key⟩

def chainOff (b : Fin nhashDef) : Nat := b * ptrSz + hashOff

inductive Part where
  | chain (b : Fin nhashDef)
  | free
  | idxEnd
  | datEnd
  deriving DecidableEq, Repr

namespace Part

/-- Lists of records, and lengths of files. -/
abbrev Content : Part → Type
  | .chain _ => List Rec
  | .free => List Rec
  | .idxEnd => Nat
  | .datEnd => Nat

def range : Part → Range DbFile
  | .chain b => ⟨.idx, chainOff b, 1⟩
  | .free => ⟨.idx, freeOff, 1⟩
  | .idxEnd => ⟨.idx, recordsOff, 0⟩
  | .datEnd => ⟨.dat, 0, 0⟩

def holds : (part : Part) → part.Content → FileAssertion DbFile
  | .chain b, rs => listAt (chainOff b) rs
  | .free, rs => listAt freeOff rs
  | .idxEnd, n => fileEnd .idx n
  | .datEnd, n => fileEnd .dat n

theorem separate (part part' : Part) :
    part'.range.Covers part.range.file part.range.start ↔ part' = part := by
  constructor
  · intro covers
    cases part with
    | chain b =>
      -- no pointer of the table is behind the table
      have := b.isLt
      cases part' with
      | chain b' =>
        simp only [range, Range.Covers, chainOff, ptrSz, hashOff] at covers
        exact congrArg Part.chain (Fin.ext (by omega))
      | free => simp [range, Range.Covers, chainOff, ptrSz, hashOff, freeOff] at covers
      | idxEnd =>
        simp only [range, Range.Covers, chainOff, ptrSz, hashOff, recordsOff, nhashDef]
          at covers this
        omega
      | datEnd => simp [range, Range.Covers] at covers
    | free =>
      cases part' with
      | chain b' => simp [range, Range.Covers, chainOff, ptrSz, hashOff, freeOff] at covers
      | free => rfl
      | idxEnd => simp [range, Range.Covers, recordsOff, freeOff, ptrSz] at covers
      | datEnd => simp [range, Range.Covers] at covers
    | idxEnd =>
      cases part' with
      | chain b' =>
        have := b'.isLt
        simp only [range, Range.Covers, chainOff, ptrSz, hashOff, recordsOff, nhashDef]
          at covers this
        omega
      | free => simp [range, Range.Covers, recordsOff, freeOff, ptrSz] at covers
      | idxEnd => rfl
      | datEnd => simp [range, Range.Covers] at covers
    | datEnd =>
      cases part' with
      | datEnd => rfl
      | chain | free | idxEnd => simp [range, Range.Covers] at covers
  · rintro rfl
    refine ⟨rfl, Nat.le_refl _, ?_⟩
    cases part' with
    | chain | free => exact .inr (Nat.lt_succ_self _)
    | idxEnd | datEnd => exact .inl rfl

end Part

abbrev parts : Protocol DbFile Part := ⟨Part.Content, Part.holds, Part.range, Part.separate⟩

/-- What all parts contain. -/
abbrev Contents := (part : Part) → part.Content

/-! ### What is fine -/

namespace Rec

/-- A record of the free list. -/
def Blank (r : Rec) : Prop := ∀ c ∈ r.key, c = space

/-- The record that a deleted one becomes. -/
def blank (r : Rec) : Rec :=
  { r with
    key := r.key.map fun _ => space
    data := r.data.map fun _ => space }

theorem blank_blank (r : Rec) : r.blank.Blank := by
  intro c member
  obtain ⟨_, _, rfl⟩ := List.mem_map.mp member
  rfl

theorem Blank.readable {r : Rec} (blank : r.Blank) : r.Readable := fun member =>
  absurd (blank sep member) (by decide)

/-- Other texts of the same lengths fit in. -/
theorem Sound.other {r : Rec} (sound : r.Sound) (key data : Bytes) (keyText : 0 ∉ key)
    (dataText : 0 ∉ data) (keyLen : key.length = r.key.length)
    (dataLen : data.length = r.data.length) :
    ({ r with key, data } : Rec).Sound := by
  have same : ({ r with key, data } : Rec).text.length = r.text.length := by
    rw [length_text, length_text, keyLen, dataLen]
  refine ⟨keyText, dataText, sound.off_pos, sound.off_le, sound.datoff_lt, ?_, ?_, ?_, ?_⟩
  · rw [ne_eq, ← List.length_eq_zero_iff, dataLen, List.length_eq_zero_iff]
    exact sound.data_pos
  · rw [dataLen]
    exact sound.data_le
  · rw [same]
    exact sound.text_ge
  · rw [same]
    exact sound.text_le

theorem notMem_spaces (s : Bytes) : (0 : UInt8) ∉ s.map fun _ => space := by
  intro member
  obtain ⟨_, _, zero⟩ := List.mem_map.mp member
  exact absurd zero (by decide)

theorem Sound.blank {r : Rec} (sound : r.Sound) : r.blank.Sound :=
  sound.other _ _ (notMem_spaces _) (notMem_spaces _) (List.length_map _) (List.length_map _)

end Rec

/-- What is true of a part whenever nobody has locked it. -/
def Part.Fine : (part : Part) → part.Content → Prop
  | .chain b, rs => (∀ r ∈ rs, r.Sound ∧ bucket r.key = b) ∧ (rs.map Rec.key).Nodup
  | .free, rs => ∀ r ∈ rs, r.Sound ∧ r.Blank
  | .idxEnd, n => recordsOff ≤ n
  | .datEnd, _ => True

theorem lastOff_le (offset : Nat) (rs : List Rec) (near : offset ≤ ptrMax)
    (sound : ∀ r ∈ rs, r.Sound) : lastOff offset rs ≤ ptrMax := by
  induction rs generalizing offset with
  | nil => exact near
  | cons r rs ih =>
    exact ih r.off (sound r (by simp)).off_le fun q member => sound q (by simp [member])

theorem chainOff_le (b : Fin nhashDef) : chainOff b ≤ ptrMax := by
  have := b.isLt
  simp only [nhashDef] at this
  rw [chainOff, hashOff, ptrSz, ptrMax]
  omega

/-! ### How many records there can be -/

theorem offset_owned (rs : List Rec) (sound : ∀ r ∈ rs, r.Sound) (h : FileHeap DbFile)
    (owned : chainAt rs h) (r : Rec) (member : r ∈ rs) : h (.byte .idx r.off) ≠ none := by
  induction rs generalizing h with
  | nil => cases member
  | cons q rs ih =>
    obtain ⟨later, _⟩ := (List.forall_mem_cons.mp sound).symm
    rw [chainAt, mul_assoc] at owned
    obtain ⟨ptr, _, disjoint, rfl, rfl, a, b, disjoint', rfl, _, chain⟩ := owned
    rcases List.mem_cons.mp member with rfl | member
    · have len := length_ptr (headOff rs) (headOff_le rs later)
      have first := region_byte DbFile.idx r.off (formatWidth ptrSz (headOff rs)) 0
      rw [Nat.add_zero, List.getElem?_eq_getElem (by rw [len]; decide)] at first
      rw [Heap.union_left first]
      simp
    · have found := ih later b chain member
      rw [ne_eq, Heap.union_eq_none, Heap.union_eq_none]
      exact fun none_ => found none_.2.2

/-- Records that are owned at once are different records. -/
theorem offsets_nodup (rs : List Rec) (sound : ∀ r ∈ rs, r.Sound) (h : FileHeap DbFile)
    (owned : chainAt rs h) : (rs.map Rec.off).Nodup := by
  induction rs generalizing h with
  | nil => exact List.nodup_nil
  | cons q rs ih =>
    obtain ⟨later, _⟩ := (List.forall_mem_cons.mp sound).symm
    rw [chainAt, mul_assoc] at owned
    obtain ⟨ptr, _, disjoint, rfl, rfl, a, b, disjoint', rfl, _, chain⟩ := owned
    refine List.nodup_cons.mpr ⟨?_, ih later b chain⟩
    intro member
    obtain ⟨r, member, same⟩ := List.mem_map.mp member
    have len := length_ptr (headOff rs) (headOff_le rs later)
    have first := region_byte DbFile.idx q.off (formatWidth ptrSz (headOff rs)) 0
    rw [Nat.add_zero, List.getElem?_eq_getElem (by rw [len]; decide)] at first
    have none_ := (disjoint (.byte .idx q.off)).resolve_left (by rw [first]; simp)
    rw [Heap.union_eq_none, ← same] at none_
    exact offset_owned rs later b chain r member none_.2

/-- A chain comes to its end before the rounds do. -/
theorem length_lt_maxRounds (rs : List Rec) (sound : ∀ r ∈ rs, r.Sound) (h : FileHeap DbFile)
    (owned : chainAt rs h) : rs.length < maxRounds := by
  have subset : rs.map Rec.off ⊆ List.range' 1 ptrMax := by
    intro off member
    obtain ⟨r, among, rfl⟩ := List.mem_map.mp member
    have pos := (sound r among).off_pos
    have near := (sound r among).off_le
    rw [List.mem_range'_1]
    omega
  have short := ((offsets_nodup rs sound h owned).subperm subset).length_le
  rw [List.length_map, List.length_range'] at short
  exact Nat.lt_succ_of_le short

/-! ### Taking parts -/

variable {m : Mode parts}

/-- What is owned may tell something. -/
theorem Triple.of_owned {α : Type} {A : FileAssertion DbFile} {p : DbProg α} {X : Know parts}
    {L : List Part} {Q : α → Know parts → List Part → FileHeap DbFile → Prop} {fact : Prop}
    (tells : ∀ h, A h → fact) (rest : fact → Triple m X L A p Q) : Triple m X L A p Q :=
  fun h owned => rest (tells h owned) h owned

theorem chain_short {rs : List Rec} {A F : FileAssertion DbFile} (sound : ∀ r ∈ rs, r.Sound)
    (h : FileHeap DbFile) (owned : (A * chainAt rs * F) h) : rs.length < maxRounds := by
  obtain ⟨_, _, _, _, ⟨_, c, _, _, _, chain⟩, _⟩ := owned
  exact length_lt_maxRounds rs sound c chain

/-- A mode in which the library can write, with its chain locked before. -/
structure Serving (m : Mode parts) : Prop where
  writes : m.writes = true
  lockable : ∀ part, (∀ b, part ≠ .chain b) → m.lockable part
  allowed : ∀ part, (∀ b, part ≠ .chain b) → ∀ x, part.Fine x → m.allowed part x

section Taking

variable {X : Know parts} {L : List Part} {F : FileAssertion DbFile}

/-- A data record at the end of the data file. -/
theorem dbWritedat_end (serving : Serving m) (db : DB) (data : Bytes) (free : .datEnd ∉ L)
    (range : m.strict = true → ∀ n : Nat, X .datEnd n → n < 2 ^ 63) :
    Triple m X L F (dbWritedat data 0 .end_ db)
      fun p X' L' h => ∃ n : Nat, X .datEnd n ∧ n < 2 ^ 63 ∧
      p.2.datoff = n ∧ p.2.datlen = data.length + 1 ∧ p.2.place = db.place ∧
        X' = m.learn X .datEnd (n + (data.length + 1)) ∧ L' = L ∧
          (bytes DbFile.dat n (data ++ [newline]) * F) h := by
  have other (b : Fin nhashDef) : Part.datEnd ≠ .chain b := by simp
  rw [dbWritedat, if_pos rfl]
  apply step_lock rfl serving.writes (serving.lockable _ other) free
  intro (n : Nat) known
  change Triple m X _ (fileEnd .dat n * F) _ _
  apply step_seek_end fun strict => range strict n known
  intro near db1 at1
  apply step_modify
  intro db2 at2
  apply step_append serving.writes (by rw [at2, at1]; cases db; rfl)
  intro db3 at3
  rw [if_pos rfl, mul_left_comm, List.length_append, List.length_singleton]
  apply step_last
  -- the end has moved when the lock is given back
  have later := serving.allowed .datEnd other (n + (data.length + 1) : Nat) trivial
  refine step_unlock rfl (serving.lockable _ other) (by simp) later ?_
  refine step_done fun h owned => ⟨n, known, near, ?_, ?_, ?_, rfl, ?_, owned⟩
  · rw [at3, at2]
    rfl
  · rw [at3, at2]
    rfl
  · rw [at3, at2, at1]
    rfl
  · simp

/-- An index record at the end of the index file. -/
theorem dbWriteidx_end (serving : Serving m) (db : DB) (r : Rec) (ptr : Nat) (fits : ptr ≤ ptrMax)
    (datoff : db.datoff = r.datoff) (datlen : db.datlen = r.data.length + 1) (free : .idxEnd ∉ L)
    (fine : ∀ n : Nat, X .idxEnd n → recordsOff ≤ n)
    (range : m.strict = true → idxlenMin ≤ r.text.length ∧ r.text.length ≤ idxlenMax ∧
      ∀ n : Nat, X .idxEnd n → n < 2 ^ 63) :
    Triple m X L F (dbWriteidx r.key 0 .end_ ptr db) fun p X' L' h => ∃ n : Nat, X .idxEnd n ∧
      idxlenMin ≤ r.text.length ∧ r.text.length ≤ idxlenMax ∧ p.2.idxoff = n ∧
      p.2.place = db.place ∧
        X' = m.learn X .idxEnd (n + (r.line ptr).length) ∧ L' = L ∧
          (bytes DbFile.idx n (r.line ptr) * F) h := by
  have other (b : Fin nhashDef) : Part.idxEnd ≠ .chain b := by simp
  -- a text that is too long or too short ends the process
  have stops (bad : ¬ (idxlenMin ≤ r.text.length ∧ r.text.length ≤ idxlenMax)) :
      m.strict = false := by
    by_contra strict
    obtain ⟨long, short, _⟩ := range (by simpa using strict)
    exact bad ⟨long, short⟩
  rw [dbWriteidx]
  apply step_modify
  intro db1 at1
  rw [if_neg (by omega)]
  apply step_get
  have text : r.key ++ sep :: (decimal db1.datoff ++ sep :: (decimal db1.datlen ++ [newline])) =
      r.text := by
    rw [at1]
    simp only [datoff, datlen]
    rfl
  rw [text]
  by_cases overflows : r.text.length + 1 > idxlenMax + 2
  · rw [if_pos overflows]
    exact Triple.stop (stops (by omega))
  rw [if_neg overflows]
  apply step_modify
  intro db2 at2
  by_cases bad : r.text.length < idxlenMin ∨ r.text.length > idxlenMax
  · rw [if_pos bad]
    exact Triple.stop (stops (by omega))
  rw [if_neg bad, if_pos rfl]
  apply step_lock rfl serving.writes (serving.lockable _ other) free
  intro (n : Nat) known
  change Triple m X _ (fileEnd .idx n * F) _ _
  apply step_seek_end fun strict => (range strict).2.2 n known
  intro near db3 at3
  apply step_modify
  intro db4 at4
  have line : formatWidth ptrSz ptr ++ formatWidth idxlenSz r.text.length ++ r.text =
      r.line ptr := by
    rw [Rec.line, Rec.tail, List.append_assoc]
  rw [line]
  apply step_append serving.writes (by rw [at4, at3]; cases db2; rfl)
  intro db5 at5
  rw [if_pos rfl, mul_left_comm]
  apply step_last
  have later := serving.allowed .idxEnd other (n + (r.line ptr).length : Nat)
    (Nat.le_add_right_of_le (fine n known))
  refine step_unlock rfl (serving.lockable _ other) (by simp) later ?_
  refine step_done fun h owned => ⟨n, known, by omega, by omega, ?_, ?_, rfl, ?_, owned⟩
  · rw [at5, at4]
    rfl
  · rw [at5, at4, at3, at2, at1]
    rfl
  · simp

theorem dbDodelete_spec (serving : Serving m) (db : DB) (c : Nat) (pre post : List Rec) (r : Rec)
    (near : c ≤ ptrMax) (sound : ∀ q ∈ pre ++ r :: post, q.Sound) (at_ : db.At r (headOff post))
    (ptroff : db.ptroff = lastOff c pre) (free : .free ∉ L)
    (fine : ∀ frees : List Rec, X .free frees → Part.Fine .free frees) :
    Triple m X L (listAt c (pre ++ r :: post) * F) (dbDodelete db) fun p X' L' h =>
      ∃ frees : List Rec, X .free frees ∧ p.2.chainoff = db.chainoff ∧
        X' = m.learn X .free (r.blank :: frees) ∧ L' = L ∧ (listAt c (pre ++ post) * F) h := by
  have other (b : Fin nhashDef) : Part.free ≠ .chain b := by simp
  have here : r.Sound := sound r (by simp)
  have later : ∀ q ∈ post, q.Sound := fun q member => sound q (by simp [member])
  have lastNear := lastOff_le c pre near fun q member => sound q (by simp [member])
  have postNear := headOff_le post later
  have farthest : ptrMax < 2 ^ 63 := by decide
  rw [dbDodelete]
  apply step_modify
  intro db1 at1
  have data1 : cstr db1.datbuf = r.blank.data := by
    rw [at1]
    simp only [at_.datlen, Nat.add_sub_cancel]
    rw [cstr_terminated _ _ fun member => absurd (List.mem_replicate.mp member).2 (by decide),
      Rec.blank]
    simp
  have key1 : cstr db1.idxbuf = r.blank.key := by
    rw [at1]
    simp only [at_.idxbuf, cstr_buf r here.legible]
    rw [Rec.buf, List.drop_left, cstr_terminated _ _ (Rec.notMem_spaces _), Rec.blank]
  apply step_lock rfl serving.writes (serving.lockable _ other) free
  intro (frees : List Rec) known
  have freesFine := fine frees known
  have freesNear := headOff_le frees fun q member => (freesFine q member).1
  apply step_get
  rw [data1, show db1.datoff = r.datoff by rw [at1]; exact at_.datoff]
  -- the data record
  refine Triple.rearrange (B := bytes .dat r.datoff (r.data ++ [newline]) *
    (ptrAt r.off (headOff post) * bytes .idx (r.off + ptrSz) r.tail * ptrAt (lastOff c pre) r.off *
      ptrAt freeOff (headOff frees) * beforeAt c pre * chainAt post * chainAt frees * F)) ?_ ?_
  · change listAt freeOff frees * (listAt c (pre ++ r :: post) * F) = _
    rw [listAt_append, listAt, listAt, chainAt, headOff, Rec.rest]
    ac_rfl
  apply step_call (dbWritedat_spec serving.writes db1 r.datoff (r.data ++ [newline]) r.blank.data
    here.datoff_lt (by simp [Rec.blank]))
  rintro _ db2 ⟨datoff2, datlen2, idxbuf2, idxoff2, ptrval2, place2⟩
  -- the pointer to the free list
  refine Triple.rearrange (B := ptrAt freeOff (headOff frees) *
    (ptrAt r.off (headOff post) * bytes .idx (r.off + ptrSz) r.tail * ptrAt (lastOff c pre) r.off *
      bytes .dat r.datoff (r.blank.data ++ [newline]) * beforeAt c pre * chainAt post *
      chainAt frees *
        F)) (by ac_rfl) ?_
  apply step_call (dbReadptr_spec db2 freeOff (headOff frees) (by decide) freesNear)
  rintro _ db3 ⟨rfl, at3⟩
  dsimp only at at3
  apply step_get
  have key3 : cstr db3.idxbuf = r.blank.key := by rw [at3, DB.setPos_idxbuf, idxbuf2, key1]
  have idxoff3 : db3.idxoff = r.blank.off := by
    rw [at3, DB.setPos_idxoff, idxoff2, at1]
    exact at_.idxoff
  have ptrval3 : db3.ptrval = headOff post := by
    rw [at3, DB.setPos_ptrval, ptrval2, at1]
    exact at_.ptrval
  have place3 : db3.place = db.place := by
    rw [at3, DB.place, DB.setPos_ptroff, DB.setPos_chainoff]
    rw [at1] at place2
    exact place2
  rw [key3, idxoff3, ptrval3]
  -- the index record
  refine Triple.rearrange (B := bytes .idx r.blank.off (r.line (headOff post)) *
    (ptrAt freeOff (headOff frees) * ptrAt (lastOff c pre) r.off *
      bytes .dat r.datoff (r.blank.data ++ [newline]) * beforeAt c pre * chainAt post *
      chainAt frees *
        F)) ?_ ?_
  · change _ = bytes DbFile.idx r.off (r.line (headOff post)) * _
    rw [line_eq r _ postNear]
    ac_rfl
  apply step_call (dbWriteidx_spec serving.writes db3 r.blank (headOff frees) _ here.blank freesNear
    (by rw [at3, DB.setPos_datoff]; exact datoff2)
    (by rw [at3, DB.setPos_datlen]; exact datlen2) ?_)
  rintro _ db4 ⟨idxoff4, place4⟩
  · apply step_get
    have ptroff4 : db4.ptroff = lastOff c pre :=
      (congrArg Prod.fst (place4.trans place3)).trans ptroff
    rw [idxoff4, ptroff4]
    -- the pointers
    refine Triple.rearrange (B := ptrAt freeOff (headOff frees) *
      (ptrAt (lastOff c pre) r.off * ptrAt r.off (headOff frees) *
        bytes .idx (r.off + ptrSz) r.blank.tail *
        bytes .dat r.datoff (r.blank.data ++ [newline]) * beforeAt c pre * chainAt post *
          chainAt frees * F)) ?_ ?_
    · rw [line_eq r.blank _ freesNear]
      change ptrAt r.off (headOff frees) * bytes DbFile.idx (r.off + ptrSz) r.blank.tail * _ = _
      ac_rfl
    apply step_call (dbWriteptr_spec serving.writes db4 freeOff _ r.blank.off (by decide) freesNear
      here.off_le)
    intro _ db5 at5
    dsimp only at at5
    refine Triple.rearrange (B := ptrAt (lastOff c pre) r.off *
      (ptrAt freeOff r.off * ptrAt r.off (headOff frees) * bytes .idx (r.off + ptrSz) r.blank.tail *
        bytes .dat r.datoff (r.blank.data ++ [newline]) * beforeAt c pre * chainAt post *
          chainAt frees * F)) ?_ ?_
    · change ptrAt freeOff r.off * _ = _
      ac_rfl
    apply step_call (dbWriteptr_spec serving.writes db5 (lastOff c pre) _ (headOff post) (by omega)
      here.off_le postNear)
    intro _ db6 at6
    dsimp only at at6
    have listed : Part.Fine .free (r.blank :: frees) :=
      List.forall_mem_cons.mpr ⟨⟨here.blank, r.blank_blank⟩, freesFine⟩
    refine Triple.rearrange
      (B := parts.holds .free (r.blank :: frees) * (listAt c (pre ++ post) * F)) ?_ ?_
    · change _ = listAt freeOff (r.blank :: frees) * _
      rw [listAt_append, listAt, listAt, chainAt, headOff, Rec.rest]
      change _ = ptrAt freeOff r.off * (ptrAt r.off (headOff frees) *
        (bytes DbFile.idx (r.off + ptrSz) r.blank.tail *
          bytes DbFile.dat r.datoff (r.blank.data ++ [newline])) * chainAt frees) * _
      ac_rfl
    apply step_last
    refine step_unlock rfl (serving.lockable _ other) (by simp)
      (serving.allowed .free other (r.blank :: frees) listed) ?_
    refine step_done fun h owned => ⟨frees, known, ?_, rfl, by simp, owned⟩
    rw [at6, at5, DB.setPos_chainoff, DB.setPos_chainoff]
    exact congrArg Prod.snd (place4.trans place3)
  · rw [length_line r _ here postNear, length_line r.blank _ here.blank freesNear, Rec.length_text,
      Rec.length_text]
    simp [Rec.blank]

/-- The free list without one of its records. -/
theorem dbFindfree_spec (serving : Serving m) (db : DB) (keylen datlen : Nat) (free : .free ∉ L)
    (fine : ∀ frees : List Rec, X .free frees → Part.Fine .free frees) :
    Triple m X L F (dbFindfree keylen datlen db) fun p X' L' h =>
      ∃ frees : List Rec, X .free frees ∧ p.2.chainoff = db.chainoff ∧ L' = L ∧
        match cutAt (hasSizes keylen datlen) frees with
        | none => p.1 = -1 ∧ X' = m.learn X .free frees ∧ F h
        | some (pre, f, post) => p.1 = 0 ∧ p.2.idxoff = f.off ∧ p.2.datoff = f.datoff ∧
            X' = m.learn X .free (pre ++ post) ∧ (ptrAt f.off (headOff post) * f.rest * F) h := by
  have other (b : Fin nhashDef) : Part.free ≠ .chain b := by simp
  rw [dbFindfree]
  apply step_lock rfl serving.writes (serving.lockable _ other) free
  intro (frees : List Rec) known
  have freesFine := fine frees known
  have sound (q : Rec) (member : q ∈ frees) := (freesFine q member).1
  change Triple m X _ (ptrAt freeOff (headOff frees) * chainAt frees * F) _ _
  rw [mul_assoc]
  apply step_call (dbReadptr_spec db freeOff (headOff frees) (by decide) (headOff_le frees sound))
  rintro _ db1 ⟨rfl, at1⟩
  dsimp only at at1
  rw [← mul_assoc]
  apply Triple.of_owned (chain_short sound)
  intro short
  rw [mul_assoc, mul_left_comm]
  apply step_call (findfreeLoop_spec keylen datlen frees maxRounds db1 freeOff short sound
    fun _ q member => (freesFine q member).2.readable)
  rintro found db2 ⟨place2, found2⟩
  have chainoff2 : db2.chainoff = db.chainoff := by
    rw [show db2.chainoff = db1.chainoff from congrArg Prod.snd place2, at1, DB.setPos_chainoff]
  rw [FoundFree] at found2
  cases cut : cutAt (hasSizes keylen datlen) frees with
  | none =>
    rw [cut] at found2
    obtain rfl : found = none := found2
    dsimp only
    refine Triple.rearrange (B := parts.holds .free frees * F) ?_ ?_
    · change _ = ptrAt freeOff (headOff frees) * chainAt frees * F
      ac_rfl
    refine step_unlock rfl (serving.lockable _ other) (by simp)
      (serving.allowed .free other frees freesFine) ?_
    exact step_done fun h owned =>
      ⟨frees, known, chainoff2, by simp, by rw [cut]; exact ⟨rfl, rfl, owned⟩⟩
  | some parts_ =>
    obtain ⟨pre, f, post⟩ := parts_
    rw [cut] at found2
    obtain ⟨rfl, at2⟩ : found = _ ∧ _ := found2
    obtain ⟨rfl, _, _⟩ := cutAt_eq_some cut
    have here : f.Sound := sound f (by simp)
    have postNear := headOff_le post fun q member => sound q (by simp [member])
    have lastNear := lastOff_le freeOff pre (by decide) fun q member => sound q (by simp [member])
    have farthest : ptrMax < 2 ^ 63 := by decide
    dsimp only
    apply step_get
    rw [at2.ptrval]
    -- the pointer to it
    refine Triple.rearrange (B := ptrAt (lastOff freeOff pre) f.off *
      (beforeAt freeOff pre * chainAt post * (ptrAt f.off (headOff post) * f.rest * F))) ?_ ?_
    · have whole := listAt_append freeOff pre (f :: post)
      rw [listAt, listAt, chainAt, headOff] at whole
      rw [mul_left_comm, ← mul_assoc, whole]
      ac_rfl
    apply step_call (dbWriteptr_spec serving.writes db2 (lastOff freeOff pre) _
      (headOff post) (by omega)
      here.off_le postNear)
    intro _ db3 at3
    dsimp only at at3
    have listed : Part.Fine .free (pre ++ post) := by
      intro q member
      rw [List.mem_append] at member
      refine freesFine q ?_
      rw [List.mem_append, List.mem_cons]
      exact member.imp_right .inr
    refine Triple.rearrange (B := parts.holds .free (pre ++ post) *
      (ptrAt f.off (headOff post) * f.rest * F)) ?_ ?_
    · change _ = listAt freeOff (pre ++ post) * _
      rw [listAt_append, listAt]
      ac_rfl
    refine step_unlock rfl (serving.lockable _ other) (by simp)
      (serving.allowed .free other (pre ++ post) listed) ?_
    refine step_done fun h owned => ⟨pre ++ f :: post, known, ?_, by simp, ?_⟩
    · rw [at3, DB.setPos_chainoff]
      exact chainoff2
    · rw [cut]
      refine ⟨rfl, ?_, ?_, rfl, owned⟩
      · rw [at3, DB.setPos_idxoff]
        exact at2.idxoff
      · rw [at3, DB.setPos_datoff]
        exact at2.datoff

end Taking

end Apue
