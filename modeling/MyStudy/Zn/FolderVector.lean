import MyStudy.Zn.FolderInfo
import MyStudy.Zn.ModifiedUtf7

/-!
# The encoder on its vector

`zn_folder_name_encoder` goes over a `std::vector` with an iterator and adds an entry to it on the
way. `push_back` makes the iterator invalid when the entries have to be moved to a larger place.
-/
namespace Zn

/-- A `std::vector`: its entries, and how many there is room for. -/
structure FolderVector where
  entries : List FolderInfo
  capacity : Nat
  fits : entries.length ≤ capacity

namespace FolderVector

def set (v : FolderVector) (it : Nat) (f : FolderInfo) : FolderVector :=
  ⟨v.entries.set it f, v.capacity, by rw [List.length_set]; exact v.fits⟩

/-- `push_back` into the room that is there. -/
def push (v : FolderVector) (f : FolderInfo) (room : v.entries.length < v.capacity) :
    FolderVector :=
  ⟨v.entries ++ [f], v.capacity, by rw [List.length_append]; exact room⟩

/-- `erase` moves the entries behind the iterator, which points to the first of them then. -/
def erase (v : FolderVector) (it : Nat) : FolderVector :=
  ⟨v.entries.eraseIdx it, v.capacity, v.entries.length_eraseIdx_le it |>.trans v.fits⟩

@[simp] theorem entries_set (v : FolderVector) (it : Nat) (f : FolderInfo) :
    (v.set it f).entries = v.entries.set it f := rfl

@[simp] theorem entries_push (v : FolderVector) (f : FolderInfo)
    (room : v.entries.length < v.capacity) :
    (v.push f room).entries = v.entries ++ [f] := rfl

@[simp] theorem entries_erase (v : FolderVector) (it : Nat) :
    (v.erase it).entries = v.entries.eraseIdx it := rfl

end FolderVector

inductive EncoderRun where
  | returns (v : FolderVector) (replaced : List Int)
  | throws (e : FilterError)
  /-- An invalid iterator is used, which is undefined. -/
  | invalidIterator
  /-- The rounds are used up. -/
  | goesOn

variable (cfg : Config) (iconv : Iconv)

/-- The loop of `perform`, from an iterator that is valid. -/
def encodeRounds : Nat → FolderVector → Nat → List Int → EncoderRun
  | 0, _, _, _ => .goesOn
  | rounds + 1, v, it, replaced =>
    match v.entries[it]? with
    | none => .returns v replaced
    | some f =>
      match convertFolderPath iconv f.name with
      | .ok utf7name =>
        encodeRounds rounds (v.set it { f with utf7name := utf7name }) (it + 1) replaced
      | .error _ =>
        if v.entries.getLast?.map (·.id) ≠ some cfg.nsimBackupFolderId then
          match convertFolderPath iconv (backupFolderName cfg) with
          | .ok utf7name =>
            if room : v.entries.length < v.capacity then
              encodeRounds rounds
                ((v.push ⟨backupFolderName cfg, utf7name, cfg.nsimBackupFolderId⟩ room).erase it) it
                (replaced ++ [f.id])
            -- the entries are moved, and `it->id` is read where they were
            else .invalidIterator
          | .error e => .throws (.folderName e)
        else encodeRounds rounds (v.erase it) it (replaced ++ [f.id])

/-- `zn_folder_name_encoder::perform`. No round but the one that adds the backup folder leaves as
many entries ahead as before. -/
def folderVectorEncoder (v : FolderVector) : EncoderRun :=
  encodeRounds cfg iconv (v.entries.length + 2) v 0 []

/-- The last entry is the backup folder, or there is none. -/
def Settled (rest : List FolderInfo) : Prop :=
  rest = [] ∨ rest.getLast?.map (·.id) = some cfg.nsimBackupFolderId

theorem Settled.tail {f : FolderInfo} {rest : List FolderInfo} (settled : Settled cfg (f :: rest)) :
    Settled cfg rest := by
  have last := settled.resolve_left (by simp)
  cases rest with
  | nil => exact .inl rfl
  | cons g rest => exact .inr (by rwa [List.getLast?_cons_cons] at last)

/-! ### Rounds -/

section Rounds

variable (rounds : Nat) (v : FolderVector) (done : List FolderInfo) (replaced : List Int)

theorem encodeRounds_end (whole : v.entries = done) :
    encodeRounds cfg iconv (rounds + 1) v done.length replaced = .returns v replaced := by
  have ended : v.entries[done.length]? = none := by
    rw [whole, List.getElem?_eq_none (Nat.le_refl _)]
  rw [encodeRounds, ended]

variable (f : FolderInfo) (rest : List FolderInfo) (whole : v.entries = done ++ f :: rest)

include whole

theorem getElem?_here : v.entries[done.length]? = some f := by
  rw [whole, List.getElem?_append_right (Nat.le_refl _), Nat.sub_self]
  rfl

theorem getLast?_ahead : v.entries.getLast? = (f :: rest).getLast? := by
  rw [whole]
  exact List.getLast?_append_of_ne_nil done (by simp)

theorem encodeRounds_ok (utf7name : Bytes)
    (converted : convertFolderPath iconv f.name = .ok utf7name) :
    ∃ v' : FolderVector, v'.entries = (done ++ [{ f with utf7name := utf7name }]) ++ rest ∧
      v'.capacity = v.capacity ∧
      encodeRounds cfg iconv (rounds + 1) v done.length replaced =
        encodeRounds cfg iconv rounds v' (done ++ [{ f with utf7name := utf7name }]).length
          replaced := by
  refine ⟨v.set done.length { f with utf7name := utf7name }, ?_, rfl, ?_⟩
  · rw [FolderVector.entries_set, whole, List.set_append_right _ _ (Nat.le_refl _), Nat.sub_self]
    simp
  · rw [encodeRounds, getElem?_here v done f rest whole, List.length_append]
    simp only [converted]
    rfl

theorem encodeRounds_settled (e : FolderNameError)
    (converted : convertFolderPath iconv f.name = .error e) (settled : Settled cfg (f :: rest)) :
    ∃ v' : FolderVector, v'.entries = done ++ rest ∧ v'.capacity = v.capacity ∧
      encodeRounds cfg iconv (rounds + 1) v done.length replaced =
        encodeRounds cfg iconv rounds v' done.length (replaced ++ [f.id]) := by
  refine ⟨v.erase done.length, ?_, rfl, ?_⟩
  · rw [FolderVector.entries_erase, whole, List.eraseIdx_append_of_length_le (Nat.le_refl _),
      Nat.sub_self]
    rfl
  · have last := settled.resolve_left (by simp)
    rw [encodeRounds, getElem?_here v done f rest whole]
    simp only [converted, getLast?_ahead v done f rest whole, last, ne_eq, not_true_eq_false,
      if_false]

variable (utf7name : Bytes) (backup : convertFolderPath iconv (backupFolderName cfg) = .ok utf7name)

include backup

theorem encodeRounds_push (e : FolderNameError)
    (converted : convertFolderPath iconv f.name = .error e)
    (unsettled : ¬ Settled cfg (f :: rest)) (room : v.entries.length < v.capacity) :
    ∃ v' : FolderVector,
      v'.entries = done ++ (rest ++ [⟨backupFolderName cfg, utf7name, cfg.nsimBackupFolderId⟩]) ∧
      v'.capacity = v.capacity ∧
      encodeRounds cfg iconv (rounds + 1) v done.length replaced =
        encodeRounds cfg iconv rounds v' done.length (replaced ++ [f.id]) := by
  refine ⟨(v.push ⟨backupFolderName cfg, utf7name, cfg.nsimBackupFolderId⟩ room).erase done.length,
    ?_, rfl, ?_⟩
  · rw [FolderVector.entries_erase, FolderVector.entries_push, whole, List.append_assoc,
      List.eraseIdx_append_of_length_le (Nat.le_refl _), Nat.sub_self]
    rfl
  · rw [encodeRounds, getElem?_here v done f rest whole]
    simp only [converted, getLast?_ahead v done f rest whole, backup, room, dif_pos]
    exact if_pos fun last => unsettled (.inr last)

theorem encodeRounds_full (e : FolderNameError)
    (converted : convertFolderPath iconv f.name = .error e)
    (unsettled : ¬ Settled cfg (f :: rest)) (full : ¬ v.entries.length < v.capacity) :
    encodeRounds cfg iconv (rounds + 1) v done.length replaced = .invalidIterator := by
  rw [encodeRounds, getElem?_here v done f rest whole]
  simp only [converted, getLast?_ahead v done f rest whole, backup, full, not_false_iff, dif_neg]
  exact if_pos fun last => unsettled (.inr last)

end Rounds

/-! ### Runs -/

/-- Names that can be encoded are replaced in place. -/
theorem encodeRounds_front (rounds : Nat) (front rest done : List FolderInfo) (v : FolderVector)
    (replaced : List Int) (whole : v.entries = done ++ (front ++ rest))
    (fine : ∀ f ∈ front, encodes iconv f.name = true) :
    ∃ v' : FolderVector, v'.entries = (done ++ front.filterMap (encodeFolder iconv)) ++ rest ∧
      v'.capacity = v.capacity ∧ v'.entries.length = v.entries.length ∧
      encodeRounds cfg iconv (front.length + rounds) v done.length replaced =
        encodeRounds cfg iconv rounds v' (done ++ front.filterMap (encodeFolder iconv)).length
          replaced := by
  induction front generalizing done v with
  | nil => exact ⟨v, by simp [whole], rfl, rfl, by simp⟩
  | cons f front ih =>
    obtain ⟨here, later⟩ := List.forall_mem_cons.mp fine
    cases converted : convertFolderPath iconv f.name with
    | error e =>
      rw [encodes_error converted] at here
      cases here
    | ok utf7name =>
      obtain ⟨v₁, whole₁, capacity₁, step⟩ :=
        encodeRounds_ok cfg iconv (front.length + rounds) v done
        replaced f (front ++ rest) whole utf7name converted
      obtain ⟨v', whole', capacity, length, run⟩ := ih _ v₁ whole₁ later
      have first : (f :: front).filterMap (encodeFolder iconv) =
          { f with utf7name := utf7name } :: front.filterMap (encodeFolder iconv) := by
        rw [List.filterMap_cons, encodeFolder_ok converted]
      have append : done ++ { f with utf7name := utf7name } ::
        front.filterMap (encodeFolder iconv) =
          (done ++ [{ f with utf7name := utf7name }]) ++ front.filterMap (encodeFolder iconv) := by
        rw [List.append_assoc, List.singleton_append]
      rw [first, append]
      refine ⟨v', whole', capacity.trans capacity₁, length.trans (by simp [whole, whole₁]), ?_⟩
      have count : (f :: front).length + rounds = front.length + rounds + 1 := by
        rw [List.length_cons]
        omega
      rw [count, step, run]

/-- With the backup folder at the end the loop only encodes and erases. -/
theorem encodeRounds_settled_run (rounds : Nat) (rest done : List FolderInfo) (v : FolderVector)
    (replaced : List Int) (whole : v.entries = done ++ rest) (enough : rest.length < rounds)
    (settled : Settled cfg rest) :
    ∃ v' : FolderVector, v'.entries = done ++ rest.filterMap (encodeFolder iconv) ∧
      encodeRounds cfg iconv rounds v done.length replaced =
        .returns v' (replaced ++ givenUpIds iconv rest) := by
  obtain ⟨rounds, rfl⟩ := Nat.exists_eq_add_one.mpr (Nat.zero_lt_of_lt enough)
  induction rest generalizing rounds done v replaced with
  | nil =>
    rw [List.append_nil] at whole
    refine ⟨v, by simp [whole], ?_⟩
    rw [encodeRounds_end cfg iconv rounds v done replaced whole]
    simp [givenUpIds]
  | cons f rest ih =>
    rw [List.length_cons] at enough
    obtain ⟨rounds, rfl⟩ := Nat.exists_eq_add_one.mpr (show 0 < rounds by omega)
    cases converted : convertFolderPath iconv f.name with
    | ok utf7name =>
      obtain ⟨v₁, whole₁, -, step⟩ :=
        encodeRounds_ok cfg iconv (rounds + 1) v done replaced f rest whole utf7name converted
      obtain ⟨v', whole', run⟩ := ih _ v₁ replaced whole₁ (settled.tail cfg) rounds (by omega)
      refine ⟨v', ?_, ?_⟩
      · rw [whole', List.filterMap_cons, encodeFolder_ok converted, List.append_assoc,
          List.singleton_append]
      · rw [step, run, givenUpIds_ok converted]
    | error e =>
      obtain ⟨v₁, whole₁, -, step⟩ :=
        encodeRounds_settled cfg iconv (rounds + 1) v done replaced f rest whole e converted settled
      obtain ⟨v', whole', run⟩ :=
        ih _ v₁ (replaced ++ [f.id]) whole₁ (settled.tail cfg) rounds (by omega)
      refine ⟨v', ?_, ?_⟩
      · rw [whole', List.filterMap_cons, encodeFolder_error converted]
      · rw [step, run, givenUpIds_error converted, List.append_assoc, List.singleton_append]

/-- What the encoder's loop comes to: the folders whose names can be encoded stay, and the backup
folder goes behind them when it has to and there is room for it. -/
inductive Encoded (v : FolderVector) : EncoderRun → Prop
  | kept (v' : FolderVector) (not : addsBackup cfg iconv v.entries = false)
      (entries : v'.entries = v.entries.filterMap (encodeFolder iconv)) :
      Encoded v (.returns v' (givenUpIds iconv v.entries))
  | fails (e : FolderNameError) (adds : addsBackup cfg iconv v.entries = true)
      (backup : convertFolderPath iconv (backupFolderName cfg) = .error e) :
      Encoded v (.throws (.folderName e))
  | added (v' : FolderVector) (utf7name : Bytes) (adds : addsBackup cfg iconv v.entries = true)
      (backup : convertFolderPath iconv (backupFolderName cfg) = .ok utf7name)
      (room : v.entries.length < v.capacity)
      (entries : v'.entries = v.entries.filterMap (encodeFolder iconv) ++
        [⟨backupFolderName cfg, utf7name, cfg.nsimBackupFolderId⟩]) :
      Encoded v (.returns v' (givenUpIds iconv v.entries))
  | moved (utf7name : Bytes) (adds : addsBackup cfg iconv v.entries = true)
      (backup : convertFolderPath iconv (backupFolderName cfg) = .ok utf7name)
      (full : ¬ v.entries.length < v.capacity) : Encoded v .invalidIterator

/-- The first name that cannot be encoded, where the backup folder is not the last one. -/
theorem encodeRounds_backup (rounds : Nat) (v v₁ : FolderVector) (front rest : List FolderInfo)
    (f : FolderInfo) (e : FolderNameError) (split : v.entries = front ++ f :: rest)
    (fine : ∀ g ∈ front, encodes iconv g.name = true)
    (bad : convertFolderPath iconv f.name = .error e) (unsettled : ¬ Settled cfg (f :: rest))
    (whole : v₁.entries = front.filterMap (encodeFolder iconv) ++ f :: rest)
    (capacity : v₁.capacity = v.capacity) (length : v₁.entries.length = v.entries.length)
    (enough : rest.length + 1 < rounds) :
    Encoded cfg iconv v
      (encodeRounds cfg iconv (rounds + 1) v₁
      (front.filterMap (encodeFolder iconv)).length []) := by
  have last : (f :: rest).getLast?.map (·.id) ≠ some cfg.nsimBackupFolderId :=
    fun last => unsettled (.inr last)
  have adds : addsBackup cfg iconv v.entries = true := by
    rw [addsBackup, split, List.getLast?_append_of_ne_nil front (by simp)]
    simp [encodes_error bad, last]
  have ids : givenUpIds iconv v.entries = f.id :: givenUpIds iconv rest := by
    rw [split, givenUpIds_append, givenUpIds_of_encodes fine, givenUpIds_error bad, List.nil_append]
  have stay : v.entries.filterMap (encodeFolder iconv) =
      front.filterMap (encodeFolder iconv) ++ rest.filterMap (encodeFolder iconv) := by
    rw [split, List.filterMap_append, List.filterMap_cons, encodeFolder_error bad]
  cases backup : convertFolderPath iconv (backupFolderName cfg) with
  | error e' =>
    rw [encodeRounds, getElem?_here v₁ _ f rest whole]
    simp only [bad, getLast?_ahead v₁ _ f rest whole, backup]
    rw [if_pos last]
    exact .fails e' adds backup
  | ok utf7name =>
    by_cases room : v₁.entries.length < v₁.capacity
    · obtain ⟨v₂, whole₂, -, step⟩ :=
        encodeRounds_push cfg iconv rounds v₁ _ [] f rest whole utf7name
        backup e bad unsettled room
      -- from here on the backup folder is the last one
      obtain ⟨v', whole', run⟩ :=
        encodeRounds_settled_run cfg iconv rounds _ _ v₂ ([] ++ [f.id]) whole₂
        (by simpa using enough) (.inr (by simp))
      have none_ : givenUpIds iconv
          (rest ++ [⟨backupFolderName cfg, utf7name, cfg.nsimBackupFolderId⟩]) =
            givenUpIds iconv rest := by
        rw [givenUpIds_append, givenUpIds_ok (by exact backup)]
        exact List.append_nil _
      rw [step, run, none_, List.nil_append, List.singleton_append, ← ids]
      refine .added v' utf7name adds backup (by rwa [length, capacity] at room) ?_
      rw [whole', stay, List.filterMap_append, List.filterMap_cons,
        encodeFolder_ok (by exact backup), List.append_assoc]
      rfl
    · rw [encodeRounds_full cfg iconv rounds v₁ _ [] f rest whole utf7name backup e bad
        unsettled room]
      exact .moved utf7name adds backup (by rwa [length, capacity] at room)

theorem folderVectorEncoder_encoded (v : FolderVector) :
    Encoded cfg iconv v (folderVectorEncoder cfg iconv v) := by
  rw [folderVectorEncoder]
  by_cases settled : Settled cfg v.entries
  -- no folder, or the backup folder is there
  · obtain ⟨v', entries, run⟩ :=
      encodeRounds_settled_run cfg iconv (v.entries.length + 2) v.entries [] v
      [] rfl (by omega) settled
    have not : addsBackup cfg iconv v.entries = false := by
      rcases settled with none_ | last
      · rw [none_]
        rfl
      · simp [addsBackup, last]
    rw [← List.length_nil (α := FolderInfo), run]
    exact .kept v' not entries
  cases first : v.entries.find? fun f => !encodes iconv f.name with
  | none =>
    have fine (f : FolderInfo) (member : f ∈ v.entries) : encodes iconv f.name = true := by
      simpa using List.find?_eq_none.mp first f member
    obtain ⟨v', entries, -, -, run⟩ :=
      encodeRounds_front cfg iconv 2 v.entries [] [] v [] (by simp) fine
    have not : addsBackup cfg iconv v.entries = false := by
      rw [addsBackup, Bool.and_eq_false_iff]
      exact .inl (List.any_eq_false.mpr fun f member => by simp [fine f member])
    rw [List.append_nil] at entries
    rw [← List.length_nil (α := FolderInfo), run, encodeRounds_end cfg iconv 1 v' _ [] entries,
      ← givenUpIds_of_encodes fine]
    exact .kept v' not entries
  | some f =>
    obtain ⟨bad, front, rest, split, before⟩ := List.find?_eq_some_iff_append.mp first
    have fine (g : FolderInfo) (member : g ∈ front) : encodes iconv g.name = true := by
      simpa using before g member
    cases converted : convertFolderPath iconv f.name with
    | ok utf7name =>
      rw [encodes_ok converted] at bad
      cases bad
    | error e =>
      obtain ⟨v₁, whole, capacity, length, run⟩ :=
        encodeRounds_front cfg iconv (rest.length + 3) front
        (f :: rest) [] v [] (by simpa using split) fine
      have unsettled : ¬ Settled cfg (f :: rest) := by
        rintro (none_ | last)
        · cases none_
        · refine settled (.inr ?_)
          rw [split, List.getLast?_append_of_ne_nil front (by simp)]
          exact last
      have rounds : v.entries.length + 2 = front.length + (rest.length + 3) := by
        rw [split, List.length_append, List.length_cons]
        omega
      rw [rounds, ← List.length_nil (α := FolderInfo), run]
      exact encodeRounds_backup cfg iconv (rest.length + 2) v v₁ front rest f e split fine converted
        unsettled whole capacity length (by omega)

/-! ### The encoder -/

/-- The folders whose names can be encoded stay, in their order and with the encoded name, the ids
of the others are noted, and the backup folder is at the end if there are others. -/
structure FoldersEncoded (utf7name : Bytes) (folders entries : List FolderInfo)
    (replaced : List Int) : Prop where
  entries : entries = folders.filterMap (encodeFolder iconv) ++
    if ∀ f ∈ folders, encodes iconv f.name = true then []
    else [⟨backupFolderName cfg, utf7name, cfg.nsimBackupFolderId⟩]
  replaced : ∀ id, id ∈ replaced ↔ ∃ f ∈ folders, encodes iconv f.name = false ∧ f.id = id

theorem folderVectorEncoder_iff (v : FolderVector)
    (proper : ∀ f ∈ v.entries, f.id ≠ cfg.nsimBackupFolderId) (utf7name : Bytes)
    (backup : convertFolderPath iconv (backupFolderName cfg) = .ok utf7name) :
    (∃ v' replaced, folderVectorEncoder cfg iconv v = .returns v' replaced ∧
        FoldersEncoded cfg iconv utf7name v.entries v'.entries replaced) ↔
      (∀ f ∈ v.entries, encodes iconv f.name = true) ∨ v.entries.length < v.capacity := by
  -- no folder of the account has the id of the backup folder
  have last : v.entries.getLast?.map (·.id) ≠ some cfg.nsimBackupFolderId := by
    intro last
    obtain ⟨f, isLast, same⟩ := Option.map_eq_some_iff.mp last
    exact proper f (List.mem_of_getLast? isLast) same
  have adds : addsBackup cfg iconv v.entries = true ↔
      ¬ ∀ f ∈ v.entries, encodes iconv f.name = true := by
    simp [addsBackup, last]
  have ids (id : Int) : id ∈ givenUpIds iconv v.entries ↔
      ∃ f ∈ v.entries, encodes iconv f.name = false ∧ f.id = id := by
    simp [givenUpIds, and_assoc]
  have spec := folderVectorEncoder_encoded cfg iconv v
  generalize folderVectorEncoder cfg iconv v = run at spec ⊢
  cases spec with
  | kept v' not entries =>
    have all : ∀ f ∈ v.entries, encodes iconv f.name = true := by
      by_contra some_
      rw [adds.mpr some_] at not
      cases not
    exact iff_of_true ⟨v', _, rfl, by rw [if_pos all, List.append_nil, entries], ids⟩ (.inl all)
  | fails e adds' error =>
    rw [backup] at error
    cases error
  | added v' utf7name' adds' backup' room entries =>
    obtain rfl := Except.ok.inj (backup.symm.trans backup')
    exact iff_of_true ⟨v', _, rfl, by rw [if_neg (adds.mp adds'), entries], ids⟩ (.inr room)
  | moved utf7name' adds' backup' full =>
    refine iff_of_false ?_ (not_or.mpr ⟨adds.mp adds', full⟩)
    rintro ⟨v', replaced, returns, -⟩
    cases returns

/-- The number of the backup folder, and its name. -/
def Config.backup : Config := ⟨ascii "2,4,5,6", 257, 1000000, ascii "Backup", 0, 0⟩

/-- A name of 65 characters. -/
def longName : FolderInfo := ⟨slash :: List.replicate 65 'a'.toUInt8, [], 257⟩

theorem folderVectorEncoder_room :
    ∃ v' replaced, folderVectorEncoder .backup iconvAcute ⟨[longName], 2, by decide⟩ =
      .returns v' replaced ∧
      FoldersEncoded .backup iconvAcute (ascii "/Backup") [longName] v'.entries replaced :=
  (folderVectorEncoder_iff .backup iconvAcute ⟨[longName], 2, by decide⟩ (by decide +kernel)
    (ascii "/Backup")
    (by decide +kernel)).mpr (.inr (by decide))

/-- There is room for the one folder only. -/
theorem folderVectorEncoder_moved :
    ¬ ∃ v' replaced, folderVectorEncoder .backup iconvAcute ⟨[longName], 1, by decide⟩ =
      .returns v' replaced ∧
      FoldersEncoded .backup iconvAcute (ascii "/Backup") [longName] v'.entries replaced := by
  rintro ⟨v', replaced, returns, -⟩
  have invalid : folderVectorEncoder .backup iconvAcute ⟨[longName], 1, by decide⟩ =
      .invalidIterator := by
    rfl
  cases invalid.symm.trans returns

end Zn
