import MyStudy.SimNsim.ConfigText

/-!
# Loading a configuration text

A loop ends at an empty line or at the next header, and a header that it ends at is lost. What is
left of the text then depends on the blank lines between the sections.

## Main result

`loadConfig_iff`: a text is loaded with just its entries exactly when an empty line keeps each
header away from the loop for the section before it, and no name stands for two entries.
-/
namespace SimNsim

/-! ### What is expected -/

/-- What a member for a setting holds. -/
inductive Held where
  | text (value : Bytes)
  | log (path : Option Bytes)
  | timer (value : Option Int)
  deriving DecidableEq, Repr

def Configuration.held (conf : Configuration) : Setting → Held
  | .serverPort => .text conf.port
  | .logfilePath => .log conf.log
  | .connectStr => .text conf.strConnect
  | .disconnectStr => .text conf.strDisconnect
  | .logoutStr => .text conf.strLogout
  | .exetimer => .timer conf.exeTimer

/-- What it should hold for a value. -/
def Host.heldFor (host : Host) (hostname value : Bytes) : Setting → Held
  | .serverPort => .text value
  | .logfilePath => .log (some value)
  | .connectStr => .text (cstr (host.sprintf value hostname host.getlogin))
  | .disconnectStr => .text (cstr (host.sprintf value hostname host.getlogin))
  | .logoutStr => .text value
  | .exetimer => .timer (some (Zn.atoi value))

def CommandItem.command (c : CommandItem) : Bytes × Command :=
  (c.key, ⟨ascii "unknown", c.key, c.type, c.cmd⟩)

/-- The entry of a queue: its command under its own id, which a star makes close the session. -/
def QueueItem.entry (commands : List CommandItem) (item : QueueItem) : Option Command :=
  (commands.find? fun c => c.key = item.name).map fun c =>
    ⟨item.key, item.name, if item.starred then '2'.toUInt8 else c.type, c.cmd⟩

/-- A configuration that holds what a text says: each setting, and nothing for those that the text
does not give, the commands, and the queues in the order of the file. -/
structure HoldsExactly (host : Host) (hostname : Bytes) (doc : ConfigText) (conf : Configuration) :
    Prop where
  given : ∀ item ∈ itemsOf doc.settings,
    conf.held item.setting = host.heldFor hostname item.value item.setting
  others : ∀ s, (∀ item ∈ itemsOf doc.settings, item.setting ≠ s) →
    conf.held s = Configuration.initial.held s
  commands : conf.mapCmd = (itemsOf doc.commands).map CommandItem.command
  queues : conf.mapCmdQue = doc.queues.map fun q =>
    (q.header.name, (itemsOf q.body).filterMap (QueueItem.entry (itemsOf doc.commands)))

/-- A blank line comes before the header. -/
def HasBlank (gap : List GapLine) : Prop := ∃ b, GapLine.blank b ∈ gap

/-- Blank lines have no blanks in them. -/
def BlanksEmpty (gap : List GapLine) : Prop := ∀ b, GapLine.blank b ∈ gap → b.pad = []

/-- A blank line comes before each header but the first. Without one the header of a section without
commands may get lost; the next header is then found where it stands. -/
def Separated (doc : ConfigText) : Prop :=
  (HasBlank doc.gap ∧ ∀ q ∈ doc.queues, HasBlank q.gap) ∨
    (¬ HasBlank doc.gap ∧ itemsOf doc.commands = [] ∧ ∀ q ∈ doc.queues.tail, HasBlank q.gap)

/-- What the system has to provide for a setting. -/
def Host.Provides (host : Host) (hostname : Bytes) (item : SettingItem) : Prop :=
  match item.setting with
  | .logfilePath => host.opens item.value = true
  | .connectStr | .disconnectStr =>
    (cstr (host.sprintf item.value hostname host.getlogin)).length < configLineMax
  | _ => True

structure Loadable (host : Host) (hostname : Bytes) (doc : ConfigText) : Prop where
  empty : BlanksEmpty doc.before ∧ BlanksEmpty doc.gap ∧ ∀ q ∈ doc.queues, BlanksEmpty q.gap
  separated : Separated doc
  provided : ∀ item ∈ itemsOf doc.settings, host.Provides hostname item
  agree : ∀ item ∈ itemsOf doc.settings, ∀ other ∈ itemsOf doc.settings, item.setting =
    other.setting →
    host.heldFor hostname item.value item.setting = host.heldFor hostname other.value other.setting
  distinctCommands : ((itemsOf doc.commands).map fun c => c.key).Nodup
  distinctQueues : (doc.queues.map fun q => q.header.name).Nodup

/-! ### The loops -/

theorem sectionLoop_length {α : Type} (store : α → Bytes → Bytes → Except LoadError α)
    (lines rest : List Bytes) (a b : α) (done : sectionLoop store a lines = .ok (b, rest)) :
    rest.length ≤ lines.length := by
  induction lines generalizing a with
  | nil =>
    rw [sectionLoop] at done
    rw [← (Prod.mk.inj (Except.ok.inj done)).2]
  | cons line lines ih =>
    rw [sectionLoop] at done
    rw [List.length_cons]
    split at done
    · exact Nat.le_succ_of_le (ih a done)
    · rw [← (Prod.mk.inj (Except.ok.inj done)).2]
      exact Nat.le_succ _
    · split at done
      · exact Nat.le_succ_of_le (ih _ done)
      · simp at done
    · simp at done
    · simp at done

theorem loadSection_length (host : Host) (conf conf' : Configuration) (lines rest : List Bytes)
    (strLine : Bytes) (done : loadSection host conf lines strLine = .ok (conf', rest)) :
    rest.length ≤ lines.length := by
  rw [loadSection] at done
  split at done
  · rw [loadConfigHead] at done
    split at done
    · simp at done
    · exact sectionLoop_length _ lines rest conf conf' done
  · split at done
    · exact sectionLoop_length _ lines rest conf conf' done
    · rw [loadCommandQues] at done
      split at done
      · simp at done
      next ques rest' loop =>
        rw [← (Prod.mk.inj (Except.ok.inj done)).2]
        exact sectionLoop_length _ lines rest' [] ques loop

/-- More rounds than lines make no difference. -/
theorem loadLoop_enough (host : Host) (rounds rounds' : Nat) (conf : Configuration)
    (lines : List Bytes) (enough : lines.length ≤ rounds) (enough' : lines.length ≤ rounds') :
    loadLoop host rounds conf lines = loadLoop host rounds' conf lines := by
  induction rounds generalizing rounds' conf lines with
  | zero =>
    obtain rfl := List.eq_nil_of_length_eq_zero (Nat.le_zero.mp enough)
    cases rounds' <;> rfl
  | succ rounds ih =>
    cases lines with
    | nil => cases rounds' <;> rfl
    | cons line lines =>
      rw [List.length_cons] at enough enough'
      obtain ⟨rounds', rfl⟩ : ∃ n, rounds' = n + 1 := ⟨rounds' - 1, by omega⟩
      rw [loadLoop, loadLoop]
      split
      · rfl
      · split
        · exact ih rounds' conf lines (by omega) (by omega)
        · split
          · rfl
          · split
            -- a section takes its header at least
            next conf' rest done =>
              have fewer := loadSection_length host conf conf' lines rest _ done
              exact ih rounds' conf' rest (by omega) (by omega)
            · rfl

/-- The outer loop with as many rounds as it needs. -/
def load (host : Host) (conf : Configuration) (lines : List Bytes) :
    Except LoadError Configuration :=
  loadLoop host lines.length conf lines

section Load

variable (host : Host) (conf : Configuration) (lines : List Bytes)

theorem load_comment (c : CommentLine) :
    load host conf (c.line :: lines) = load host conf lines := by
  obtain ⟨strLine, trimmed, first⟩ := c.trim_line
  rw [load, List.length_cons, loadLoop, trimmed]
  simp [first, load]

theorem load_blank (b : BlankLine) : load host conf (b.pad :: lines) =
    if b.pad = [] then load host conf lines else .error .undefined := by
  rw [load, List.length_cons, loadLoop, b.trim_line]
  by_cases empty : b.pad = []
  · simp [empty, load]
  · simp [empty]

theorem load_item (i : ItemLine) : load host conf (i.line :: lines) = .error .refused := by
  obtain ⟨some_, noComment, noHeader⟩ := i.text_head
  rw [load, List.length_cons, loadLoop, i.trim_line]
  simp [some_, noComment, noHeader]

theorem load_header (h : HeaderLine) : load host conf (h.line :: lines) =
    match loadSection host conf lines h.text with
    | .ok (conf, rest) => load host conf rest
    | .error e => .error e := by
  have last : h.text.getLast? = some ']'.toUInt8 := by
    rw [HeaderLine.text, ← List.cons_append, List.getLast?_concat]
  have first : h.text.head? = some '['.toUInt8 := rfl
  have some_ : h.text ≠ [] := by simp [HeaderLine.text]
  have noComment : ¬ '['.toUInt8 = '#'.toUInt8 := by decide
  rw [load, List.length_cons, loadLoop, h.trim_line]
  simp only [some_, first, last, Option.some_inj, noComment, decide_false, Bool.or_self,
    Bool.false_eq_true, if_false, ne_eq, not_true_eq_false]
  cases done : loadSection host conf lines h.text with
  | ok loaded =>
    obtain ⟨conf', rest⟩ := loaded
    exact loadLoop_enough host _ _ conf' rest (loadSection_length host conf conf' lines rest _ done)
      (Nat.le_refl _)
  | error e => rfl

theorem load_gap (gap : List GapLine) (empty : BlanksEmpty gap) :
    load host conf (gap.map GapLine.line ++ lines) = load host conf lines := by
  induction gap with
  | nil => rfl
  | cons g gap ih =>
    have later : BlanksEmpty gap := fun b member => empty b (List.mem_cons_of_mem g member)
    rw [List.map_cons, List.cons_append]
    cases g with
    | comment c => rw [GapLine.line, load_comment, ih later]
    | blank b => rw [GapLine.line, load_blank, if_pos (empty b (by simp)), ih later]

theorem load_gap_undefined (gap : List GapLine) (some_ : ¬ BlanksEmpty gap) :
    load host conf (gap.map GapLine.line ++ lines) = .error .undefined := by
  induction gap with
  | nil => exact absurd (fun b member => by simp at member) some_
  | cons g gap ih =>
    rw [List.map_cons, List.cons_append]
    cases g with
    | comment c =>
      rw [GapLine.line, load_comment]
      exact ih fun later => some_ fun b member => later b (by simpa using member)
    | blank b =>
      rw [GapLine.line, load_blank]
      split
      next empty =>
        apply ih
        intro later
        apply some_
        intro b' member
        rcases List.mem_cons.mp member with same | rest
        · rw [GapLine.blank.inj same, empty]
        · exact later b' rest
      · rfl

/-- A section whose header was lost: its comments are passed over, and an item is no header. -/
theorem load_lost {α : Type} (item : α → ItemLine) (body : List (BodyLine α)) :
    load host conf (bodyLines (fun a => (item a).line) body ++ lines) =
      if itemsOf body = [] then load host conf lines else .error .refused := by
  induction body with
  | nil => rfl
  | cons b body ih =>
    rw [bodyLines, List.map_cons, ← bodyLines, List.cons_append]
    cases b with
    | comment c =>
      have same : itemsOf (.comment c :: body) = itemsOf body := rfl
      rw [load_comment, ih, same]
    | item a => rw [load_item, if_neg (by simp [itemsOf])]

end Load

/-- What follows a section: the loop for it is still running. -/
def afterSection (host : Host) (conf : Configuration) (lines : List Bytes) :
    Except LoadError Configuration :=
  match sectionLoop (fun _ _ _ => .ok ()) () lines with
  | .ok (_, rest) => load host conf rest
  | .error e => .error e

/-- Lines that a section does not go on with. -/
def EndsSection (lines : List Bytes) : Prop :=
  ∃ (gap : List GapLine) (rest : List Bytes), lines = gap.map GapLine.line ++ rest ∧
    (rest = [] ∨ ∃ (h : HeaderLine) (more : List Bytes), rest = h.line :: more)

/-- Behind the items of a section no loop stores anything. -/
theorem sectionLoop_ends {α : Type} (store : α → Bytes → Bytes → Except LoadError α) (a : α)
    (lines : List Bytes) (ends : EndsSection lines) :
    sectionLoop store a lines =
      (sectionLoop (fun _ _ _ => .ok ()) () lines).map fun done => (a, done.2) := by
  obtain ⟨gap, rest, rfl, last⟩ := ends
  induction gap with
  | nil =>
    rcases last with rfl | ⟨h, more, rfl⟩
    · rfl
    · rw [List.map_nil, List.nil_append, sectionLoop, sectionLoop, parseLine_header]
      rfl
  | cons g gap ih =>
    rw [List.map_cons, List.cons_append]
    cases g with
    | comment c =>
      rw [GapLine.line, sectionLoop, sectionLoop, parseLine_comment]
      exact ih
    | blank b =>
      rw [GapLine.line, sectionLoop, sectionLoop, parseLine_blank]
      -- an empty line ends the section; what `trim` does with one of blanks is undefined
      by_cases empty : b.pad = []
      · rw [if_pos empty]
        rfl
      · rw [if_neg empty]
        rfl

/-- The items of a section are stored one after the other. -/
theorem sectionLoop_body {α β : Type} (store : α → Bytes → Bytes → Except LoadError α)
    (item : β → ItemLine) (body : List (BodyLine β)) (lines : List Bytes) (a : α) :
    sectionLoop store a (bodyLines (fun b => (item b).line) body ++ lines) =
      match (itemsOf body).foldlM (fun a b => store a (item b).key (item b).value) a with
      | .ok a => sectionLoop store a lines
      | .error e => .error e := by
  induction body generalizing a with
  | nil => rfl
  | cons b body ih =>
    rw [bodyLines, List.map_cons, ← bodyLines, List.cons_append, sectionLoop]
    cases b with
    | comment c =>
      -- a comment is skipped
      have same : itemsOf (.comment c :: body) = itemsOf body := rfl
      rw [parseLine_comment, same]
      exact ih a
    | item b =>
      have same : itemsOf (.item b :: body) = b :: itemsOf body := rfl
      rw [parseLine_item, same, List.foldlM_cons]
      cases stored : store a (item b).key (item b).value with
      | ok a' =>
        simp only [stored]
        exact ih a'
      | error e =>
        simp only [stored]
        rfl

section After

variable (host : Host) (conf : Configuration)

theorem afterSection_comment (c : CommentLine) (lines : List Bytes) :
    afterSection host conf (c.line :: lines) = afterSection host conf lines := by
  rw [afterSection, sectionLoop, parseLine_comment]
  rfl

theorem afterSection_blank (b : BlankLine) (lines : List Bytes) :
    afterSection host conf (b.pad :: lines) =
      if b.pad = [] then load host conf lines else .error .undefined := by
  rw [afterSection, sectionLoop, parseLine_blank]
  by_cases empty : b.pad = []
  · rw [if_pos empty, if_pos empty]
  · rw [if_neg empty, if_neg empty]

/-- The loop of the section takes a header that comes without a blank line before it. -/
theorem afterSection_lost (gap : List GapLine) (h : HeaderLine) (lines : List Bytes)
    (none_ : ¬ HasBlank gap) :
    afterSection host conf (gap.map GapLine.line ++ h.line :: lines) = load host conf lines := by
  induction gap with
  | nil =>
    rw [List.map_nil, List.nil_append, afterSection, sectionLoop, parseLine_header]
  | cons g gap ih =>
    rw [List.map_cons, List.cons_append]
    cases g with
    | comment c =>
      rw [GapLine.line, afterSection_comment]
      exact ih fun ⟨b, member⟩ => none_ ⟨b, List.mem_cons_of_mem _ member⟩
    | blank b => exact absurd ⟨b, by simp⟩ none_

theorem afterSection_found (gap : List GapLine) (lines : List Bytes) (some_ : HasBlank gap)
    (empty : BlanksEmpty gap) :
    afterSection host conf (gap.map GapLine.line ++ lines) = load host conf lines := by
  induction gap with
  | nil =>
    obtain ⟨b, member⟩ := some_
    simp at member
  | cons g gap ih =>
    have later : BlanksEmpty gap := fun b member => empty b (List.mem_cons_of_mem g member)
    rw [List.map_cons, List.cons_append]
    cases g with
    | comment c =>
      rw [GapLine.line, afterSection_comment]
      obtain ⟨b, member⟩ := some_
      exact ih ⟨b, by simpa using member⟩ later
    | blank b =>
      rw [GapLine.line, afterSection_blank, if_pos (empty b (by simp))]
      exact load_gap host conf lines gap later

theorem afterSection_undefined (gap : List GapLine) (lines : List Bytes)
    (some_ : ¬ BlanksEmpty gap) :
    afterSection host conf (gap.map GapLine.line ++ lines) = .error .undefined := by
  induction gap with
  | nil => exact absurd (fun b member => by simp at member) some_
  | cons g gap ih =>
    rw [List.map_cons, List.cons_append]
    cases g with
    | comment c =>
      rw [GapLine.line, afterSection_comment]
      exact ih fun later => some_ fun b member => later b (by simpa using member)
    | blank b =>
      rw [GapLine.line, afterSection_blank]
      split
      next empty =>
        apply load_gap_undefined
        intro later
        apply some_
        intro b' member
        rcases List.mem_cons.mp member with same | rest
        · rw [GapLine.blank.inj same, empty]
        · exact later b' rest
      · rfl

end After

/-! ### Maps -/

/-- Pairs put into a map one after the other. -/
def insertAll {α : Type} (m pairs : List (Bytes × α)) : List (Bytes × α) :=
  pairs.foldl (fun m pair => mapInsert m pair.1 pair.2) m

section Maps

variable {α : Type}

theorem length_mapInsert_le (m : List (Bytes × α)) (key : Bytes) (a : α) :
    (mapInsert m key a).length ≤ m.length + 1 := by
  rw [mapInsert]
  split
  · omega
  · simp

theorem length_insertAll_le (m pairs : List (Bytes × α)) :
    (insertAll m pairs).length ≤ m.length + pairs.length := by
  induction pairs generalizing m with
  | nil => exact Nat.le_refl _
  | cons pair pairs ih =>
    have first := length_mapInsert_le m pair.1 pair.2
    have rest := ih (mapInsert m pair.1 pair.2)
    rw [insertAll, List.foldl_cons, ← insertAll, List.length_cons]
    omega

theorem mem_keys_mapInsert (m : List (Bytes × α)) (key k : Bytes) (a : α) :
    k ∈ (mapInsert m key a).map Prod.fst ↔ k ∈ m.map Prod.fst ∨ k = key := by
  rw [mapInsert]
  split
  next there =>
    constructor
    · exact .inl
    · rintro (old | rfl)
      · exact old
      · exact there
  · simp

/-- Nothing is left out exactly when all keys are new. -/
theorem insertAll_length_iff (m pairs : List (Bytes × α)) :
    (insertAll m pairs).length = m.length + pairs.length ↔
      (pairs.map Prod.fst).Nodup ∧ ∀ key ∈ pairs.map Prod.fst, key ∉ m.map Prod.fst := by
  induction pairs generalizing m with
  | nil => simp [insertAll]
  | cons pair pairs ih =>
    rw [insertAll, List.foldl_cons, ← insertAll, List.map_cons, List.nodup_cons, List.length_cons]
    by_cases there : pair.1 ∈ m.map Prod.fst
    · -- a key that is there already is not counted twice
      have bound := length_insertAll_le m pairs
      rw [mapInsert, if_pos there]
      refine iff_of_false (by omega) fun all => ?_
      exact all.2 pair.1 (by simp) there
    · have longer : (mapInsert m pair.1 pair.2).length = m.length + 1 := by
        rw [mapInsert, if_neg there]
        simp
      have rest := ih (mapInsert m pair.1 pair.2)
      rw [longer, Nat.add_assoc, Nat.add_comm 1] at rest
      rw [rest]
      simp only [mem_keys_mapInsert, not_or, List.forall_mem_cons]
      constructor
      · rintro ⟨distinct, new⟩
        refine ⟨⟨fun again => (new _ again).2 rfl, distinct⟩, there,
          fun key member => (new key member).1⟩
      · rintro ⟨⟨once, distinct⟩, _, new⟩
        refine ⟨distinct, fun key member => ⟨new key member, ?_⟩⟩
        rintro rfl
        exact once member

theorem insertAll_eq (m pairs : List (Bytes × α)) (distinct : (pairs.map Prod.fst).Nodup)
    (new : ∀ key ∈ pairs.map Prod.fst, key ∉ m.map Prod.fst) : insertAll m pairs = m ++ pairs := by
  induction pairs generalizing m with
  | nil => simp [insertAll]
  | cons pair pairs ih =>
    rw [List.map_cons, List.nodup_cons] at distinct
    rw [insertAll, List.foldl_cons, ← insertAll, mapInsert, if_neg (new pair.1 (by simp)),
      ih _ distinct.2 ?_, List.append_assoc, List.singleton_append]
    intro key member
    rw [List.map_append, List.mem_append, not_or]
    refine ⟨new key (List.mem_cons_of_mem _ member), ?_⟩
    intro same
    rw [List.map_singleton, List.mem_singleton] at same
    exact distinct.1 (same ▸ member)

end Maps

/-! ### Settings -/

section Settings

variable (host : Host) (hostname : Bytes)

/-- What an item does when it is stored: the path of a log is passed over when one is open, and
every other item sets its member and nothing else. -/
inductive Stored (item : SettingItem) (conf conf' : Configuration) : Prop where
  | passed (isLog : item.setting = .logfilePath) (opened : conf.log ≠ none) (same : conf' = conf)
  | set (sets : ∀ s, conf'.held s =
      if s = item.setting then host.heldFor hostname item.value s else conf.held s)
    (tables : conf'.mapCmd = conf.mapCmd ∧ conf'.mapCmdQue = conf.mapCmdQue)
    (provided : host.Provides hostname item)

abbrev storeItem (conf : Configuration) (item : SettingItem) : Except LoadError Configuration :=
  storeSetting host hostname conf item.key item.value

theorem formatLine_map (value : Bytes) (change : Bytes → Configuration) :
    (formatLine host hostname value).map change =
      if (cstr (host.sprintf value hostname host.getlogin)).length < configLineMax then
        .ok (change (cstr (host.sprintf value hostname host.getlogin)))
      else .error .undefined := by
  rw [formatLine]
  split <;> rfl

/-- The branch of `storeSetting` for each setting. -/
theorem storeItem_eq (conf : Configuration) (item : SettingItem) :
    storeItem host hostname conf item =
      match item.setting with
      | .serverPort => .ok { conf with port := item.value }
      | .logfilePath =>
        match conf.log with
        | some _ => .ok conf
        | none =>
          if host.opens item.value then .ok { conf with log := some item.value }
            else .error .refused
      | .connectStr =>
        (formatLine host hostname item.value).map fun text => { conf with strConnect := text }
      | .disconnectStr =>
        (formatLine host hostname item.value).map fun text => { conf with strDisconnect := text }
      | .logoutStr => .ok { conf with strLogout := item.value }
      | .exetimer => .ok { conf with exeTimer := some (Zn.atoi item.value) } := by
  rw [storeItem, item.known, storeSetting]
  cases item.setting with
  | serverPort => rfl
  | logfilePath => rfl
  | connectStr => rfl
  | disconnectStr => rfl
  | logoutStr => rfl
  | exetimer => rfl

theorem formatLine_ok {value : Bytes} {change : Bytes → Configuration} {conf' : Configuration}
    (done : (formatLine host hostname value).map change = .ok conf') :
    (cstr (host.sprintf value hostname host.getlogin)).length < configLineMax ∧
      change (cstr (host.sprintf value hostname host.getlogin)) = conf' := by
  rw [formatLine_map] at done
  split at done
  next fits => exact ⟨fits, Except.ok.inj done⟩
  · simp at done

/-- What is stored is the member of the setting, which one that is. -/
theorem Stored.member {item : SettingItem} {conf conf' : Configuration} {own : Setting}
    (setting : item.setting = own)
    (sets : ∀ s, conf'.held s = if s = own then host.heldFor hostname item.value s else conf.held s)
    (tables : conf'.mapCmd = conf.mapCmd ∧ conf'.mapCmdQue = conf.mapCmdQue)
    (provided : host.Provides hostname item) : Stored host hostname item conf conf' :=
  .set (setting ▸ sets) tables provided

theorem storeItem_stored (conf conf' : Configuration) (item : SettingItem)
    (done : storeItem host hostname conf item = .ok conf') :
    Stored host hostname item conf conf' := by
  rw [storeItem_eq] at done
  cases setting : item.setting with
  | serverPort =>
    simp only [setting] at done
    obtain rfl := Except.ok.inj done
    refine .member host hostname setting (fun s => ?_) ⟨rfl, rfl⟩
      (by simp only [Host.Provides, setting])
    cases s <;> rfl
  | logfilePath =>
    simp only [setting] at done
    cases log : conf.log with
    | some path =>
      -- a log that is open stays, and the path is dropped
      simp only [log] at done
      exact .passed setting (by simp [log]) (Except.ok.inj done).symm
    | none =>
      simp only [log] at done
      split at done
      next opens =>
        obtain rfl := Except.ok.inj done
        have provided : host.Provides hostname item := by
          simpa only [Host.Provides, setting] using opens
        refine .member host hostname setting (fun s => ?_) ⟨rfl, rfl⟩ provided
        cases s <;> rfl
      · simp at done
  | connectStr =>
    simp only [setting] at done
    obtain ⟨fits, rfl⟩ := formatLine_ok host hostname done
    have provided : host.Provides hostname item := by simpa only [Host.Provides, setting] using fits
    refine .member host hostname setting (fun s => ?_) ⟨rfl, rfl⟩ provided
    cases s <;> rfl
  | disconnectStr =>
    simp only [setting] at done
    obtain ⟨fits, rfl⟩ := formatLine_ok host hostname done
    have provided : host.Provides hostname item := by simpa only [Host.Provides, setting] using fits
    refine .member host hostname setting (fun s => ?_) ⟨rfl, rfl⟩ provided
    cases s <;> rfl
  | logoutStr =>
    simp only [setting] at done
    obtain rfl := Except.ok.inj done
    refine .member host hostname setting (fun s => ?_) ⟨rfl, rfl⟩
      (by simp only [Host.Provides, setting])
    cases s <;> rfl
  | exetimer =>
    simp only [setting] at done
    obtain rfl := Except.ok.inj done
    refine .member host hostname setting (fun s => ?_) ⟨rfl, rfl⟩
      (by simp only [Host.Provides, setting])
    cases s <;> rfl

theorem storeItem_ok (conf : Configuration) (item : SettingItem)
    (provided : host.Provides hostname item) :
    ∃ conf', storeItem host hostname conf item = .ok conf' := by
  rw [storeItem_eq]
  cases setting : item.setting with
  | serverPort => exact ⟨_, rfl⟩
  | logfilePath =>
    have opens : host.opens item.value = true := by
      simpa only [Host.Provides, setting] using provided
    cases log : conf.log with
    | some path => exact ⟨conf, by simp only⟩
    | none => exact ⟨_, by simp only [opens, if_true]; rfl⟩
  | connectStr =>
    have fits : (cstr (host.sprintf item.value hostname host.getlogin)).length < configLineMax := by
      simpa only [Host.Provides, setting] using provided
    exact ⟨_, by simp only [formatLine_map, fits, if_true]; rfl⟩
  | disconnectStr =>
    have fits : (cstr (host.sprintf item.value hostname host.getlogin)).length < configLineMax := by
      simpa only [Host.Provides, setting] using provided
    exact ⟨_, by simp only [formatLine_map, fits, if_true]; rfl⟩
  | logoutStr => exact ⟨_, rfl⟩
  | exetimer => exact ⟨_, rfl⟩

/-- The log that is open could be opened. -/
def LogOpen (conf : Configuration) : Prop := ∀ path, conf.log = some path → host.opens path = true

theorem log_of_held {conf : Configuration} {path : Option Bytes}
    (held : conf.held .logfilePath = .log path) : conf.log = path := Held.log.inj held

theorem Stored.logOpen {conf conf' : Configuration} {item : SettingItem}
    (stored : Stored host hostname item conf conf') (logOpen : LogOpen host conf) :
    LogOpen host conf' := by
  cases stored with
  | passed _ _ same => rwa [same]
  | set sets _ provided =>
    intro path log
    have held := sets .logfilePath
    by_cases isLog : Setting.logfilePath = item.setting
    · rw [if_pos isLog] at held
      have same : some path = some item.value := log.symm.trans (log_of_held held)
      rw [Option.some.inj same]
      simpa only [Host.Provides, ← isLog] using provided
    · rw [if_neg isLog] at held
      exact logOpen path ((log_of_held held).symm.trans log)

theorem Stored.others {conf conf' : Configuration} {item : SettingItem}
    (stored : Stored host hostname item conf conf') (s : Setting) (other : item.setting ≠ s) :
    conf'.held s = conf.held s := by
  cases stored with
  | passed _ _ same => rw [same]
  | set sets _ _ => rw [sets, if_neg (Ne.symm other)]

theorem Stored.tables {conf conf' : Configuration} {item : SettingItem}
    (stored : Stored host hostname item conf conf') :
    conf'.mapCmd = conf.mapCmd ∧ conf'.mapCmdQue = conf.mapCmdQue := by
  cases stored with
  | passed _ _ same => simp [same]
  | set _ tables _ => exact tables

/-- The settings of a section that is read to its end. -/
structure StoredAll (items : List SettingItem) (conf conf' : Configuration) : Prop where
  logOpen : LogOpen host conf → LogOpen host conf'
  others : ∀ s, (∀ item ∈ items, item.setting ≠ s) → conf'.held s = conf.held s
  tables : conf'.mapCmd = conf.mapCmd ∧ conf'.mapCmdQue = conf.mapCmdQue
  provided : ∀ item ∈ items, item.setting ≠ .logfilePath → host.Provides hostname item

theorem storeItems_stored (items : List SettingItem) (conf conf' : Configuration)
    (done : items.foldlM (storeItem host hostname) conf = .ok conf') :
    StoredAll host hostname items conf conf' := by
  induction items generalizing conf with
  | nil =>
    obtain rfl := Except.ok.inj done
    exact ⟨id, fun _ _ => rfl, ⟨rfl, rfl⟩, by simp⟩
  | cons item items ih =>
    rw [List.foldlM_cons] at done
    cases first : storeItem host hostname conf item with
    | error e =>
      rw [first] at done
      simp [bind, Except.bind] at done
    | ok next =>
      rw [first] at done
      have stored := storeItem_stored host hostname conf next item first
      have rest := ih next done
      refine ⟨fun logOpen => rest.logOpen (stored.logOpen host hostname logOpen), fun s none_ => ?_,
        ⟨rest.tables.1.trans (stored.tables host hostname).1,
          rest.tables.2.trans (stored.tables host hostname).2⟩, ?_⟩
      · rw [rest.others s fun other member => none_ other (List.mem_cons_of_mem item member),
          stored.others host hostname s (none_ item (by simp))]
      · intro other member noLog
        -- only the path of a log can be passed over
        rcases List.mem_cons.mp member with rfl | later
        · cases stored with
          | passed isLog _ _ => exact absurd isLog noLog
          | set _ _ provided => exact provided
        · exact rest.provided other later noLog

/-- The log is not open yet, or with the path that the items give. -/
def LogAgrees (items : List SettingItem) (conf : Configuration) : Prop :=
  ∀ item ∈ items, item.setting = .logfilePath → conf.log = none ∨ conf.log = some item.value

theorem storeItems_ok (items : List SettingItem) (conf : Configuration)
    (provided : ∀ item ∈ items, host.Provides hostname item)
    (agree : ∀ item ∈ items, ∀ other ∈ items, item.setting = other.setting →
      host.heldFor hostname item.value item.setting =
        host.heldFor hostname other.value other.setting)
    (logAgrees : LogAgrees items conf) :
    ∃ conf', items.foldlM (storeItem host hostname) conf = .ok conf' ∧
      ∀ item ∈ items, conf'.held item.setting = host.heldFor hostname item.value item.setting := by
  induction items generalizing conf with
  | nil => exact ⟨conf, rfl, by simp⟩
  | cons item items ih =>
    obtain ⟨next, first⟩ := storeItem_ok host hostname conf item (provided item (by simp))
    have stored := storeItem_stored host hostname conf next item first
    -- the item holds now, be it stored or there before
    have own : next.held item.setting = host.heldFor hostname item.value item.setting := by
      cases stored with
      | passed isLog opened same =>
        have log := (logAgrees item (by simp) isLog).resolve_left opened
        rw [same, isLog]
        exact congrArg Held.log log
      | set sets _ _ => rw [sets, if_pos rfl]
    -- a later path of a log is the one that is open
    have logLater : LogAgrees items next := by
      intro other member isLog
      by_cases same : item.setting = .logfilePath
      · have agreed :=
          agree item (by simp) other (List.mem_cons_of_mem item member) (same.trans isLog.symm)
        rw [agreed, same, isLog] at own
        exact .inr (log_of_held own)
      · have kept : next.log = conf.log :=
          log_of_held (stored.others host hostname .logfilePath same)
        rw [kept]
        exact logAgrees other (List.mem_cons_of_mem item member) isLog
    obtain ⟨conf', done, held⟩ := ih next
      (fun other member => provided other (List.mem_cons_of_mem item member))
      (fun one mem other member => agree one (List.mem_cons_of_mem item mem) other
        (List.mem_cons_of_mem item member)) logLater
    have rest := storeItems_stored host hostname items next conf' done
    refine ⟨conf', by rw [List.foldlM_cons, first]; exact done, fun other member => ?_⟩
    rcases List.mem_cons.mp member with rfl | later
    · -- a later item for the same member says the same
      by_cases again : ∃ later ∈ items, later.setting = other.setting
      · obtain ⟨later, member, same⟩ := again
        rw [agree other (by simp) later (List.mem_cons_of_mem other member) same.symm, ← same]
        exact held later member
      · rw [rest.others other.setting fun later member same => again ⟨later, member, same⟩, own]
    · exact held other later

end Settings

/-! ### Sections -/

/-- A section: its items are stored, and the loop for it goes on behind them. -/
theorem sectionLoop_section {α β : Type} (store : α → Bytes → Bytes → Except LoadError α)
    (item : β → ItemLine) (body : List (BodyLine β)) (lines : List Bytes) (a : α)
    (ends : EndsSection lines) :
    sectionLoop store a (bodyLines (fun b => (item b).line) body ++ lines) =
      match (itemsOf body).foldlM (fun a b => store a (item b).key (item b).value) a with
      | .ok a => (sectionLoop (fun _ _ _ => .ok ()) () lines).map fun done => (a, done.2)
      | .error e => .error e := by
  rw [sectionLoop_body]
  cases (itemsOf body).foldlM (fun a b => store a (item b).key (item b).value) a with
  | ok a => exact sectionLoop_ends store a lines ends
  | error e => rfl

section Sections

variable (host : Host) (conf : Configuration) (h : HeaderLine) (lines : List Bytes)

theorem load_config (hostname : Bytes) (body : List (BodyLine SettingItem))
    (isConfig : h.text = headConfig) (named : host.gethostname = some hostname)
    (ends : EndsSection lines) :
    load host conf (h.line :: (bodyLines (fun item => item.line) body ++ lines)) =
      match (itemsOf body).foldlM (storeItem host hostname) conf with
      | .ok conf => afterSection host conf lines
      | .error e => .error e := by
  rw [load_header, loadSection, if_pos isConfig, loadConfigHead, named]
  simp only
  rw [sectionLoop_section _ SettingItem.toItemLine body lines conf ends]
  cases (itemsOf body).foldlM (storeItem host hostname) conf with
  | ok conf =>
    simp only [afterSection]
    cases sectionLoop (fun _ _ _ => .ok ()) () lines <;> rfl
  | error e => rfl

theorem storeCommands (items : List CommandItem) :
    items.foldlM (fun conf item => storeCommand conf item.key item.value) conf =
      .ok { conf with mapCmd := insertAll conf.mapCmd (items.map CommandItem.command) } := by
  induction items generalizing conf with
  | nil => rfl
  | cons item items ih =>
    have first : storeCommand conf item.key item.value =
        .ok { conf with mapCmd := mapInsert conf.mapCmd item.command.1 item.command.2 } := by
      rw [item.form]
      rfl
    rw [List.foldlM_cons, first]
    exact ih _

theorem load_commands (body : List (BodyLine CommandItem)) (isCommands : h.text = headCommands)
    (ends : EndsSection lines) :
    load host conf (h.line :: (bodyLines (fun item => item.line) body ++ lines)) =
      afterSection host
        { conf with mapCmd := insertAll conf.mapCmd ((itemsOf body).map CommandItem.command) }
        lines := by
  have noConfig : ¬ h.text = headConfig := by
    rw [isCommands]
    decide
  rw [load_header, loadSection, if_neg noConfig, if_pos isCommands, loadCommandHead,
    sectionLoop_section _ CommandItem.toItemLine body lines conf ends, storeCommands]
  simp only [afterSection]
  cases sectionLoop (fun _ _ _ => .ok ()) () lines <;> rfl

def addQueue (conf : Configuration) (name : Bytes) (ques : List Command) : Configuration :=
  { conf with
    mapCmdQue := mapInsert conf.mapCmdQue name ques
    mapCmdQueCount := mapInsert conf.mapCmdQueCount name 0 }

theorem load_queue (body : List (BodyLine QueueItem)) (noConfig : h.text ≠ headConfig)
    (noCommands : h.text ≠ headCommands) (ends : EndsSection lines) :
    load host conf (h.line :: (bodyLines (fun item => item.line) body ++ lines)) =
      match (itemsOf body).foldlM
      (fun ques item => storeQueueItem conf.mapCmd ques item.key item.value)
        [] with
      | .ok ques => afterSection host (addQueue conf h.name ques) lines
      | .error e => .error e := by
  have inner : (h.text.drop 1).dropLast = h.name := by
    rw [HeaderLine.text, List.drop_one, List.tail_cons, List.dropLast_concat]
  rw [load_header, loadSection, if_neg noConfig, if_neg noCommands, loadCommandQues,
    sectionLoop_section _ QueueItem.toItemLine body lines [] ends]
  cases (itemsOf body).foldlM (fun ques item => storeQueueItem conf.mapCmd ques item.key item.value)
    [] with
  | ok ques =>
    simp only [afterSection, inner]
    cases sectionLoop (fun _ _ _ => .ok ()) () lines <;> rfl
  | error e => rfl

end Sections

/-! ### Queues -/

theorem lookup_commands (commands : List CommandItem) (name : Bytes) :
    (commands.map CommandItem.command).lookup name =
      (commands.find? fun c => c.key = name).map fun c => c.command.2 := by
  induction commands with
  | nil => rfl
  | cons c commands ih =>
    rw [List.map_cons, CommandItem.command, List.lookup_cons, List.find?_cons]
    by_cases same : c.key = name
    · simp [same, CommandItem.command]
    · have other : (name == c.key) = false := by simpa using Ne.symm same
      rw [other, decide_eq_false same]
      exact ih

theorem storeQueueItem_entry (commands : List CommandItem) (ques : List Command)
    (item : QueueItem) (entry : Command) (found : item.entry commands = some entry) :
    storeQueueItem (commands.map CommandItem.command) ques item.key item.value =
      .ok (ques ++ [entry]) := by
  obtain ⟨c, defined, rfl⟩ := Option.map_eq_some_iff.mp found
  have looked := lookup_commands commands item.name
  rw [defined] at looked
  rw [item.form, storeQueueItem]
  cases item.starred with
  | true => simp [looked, CommandItem.command]
  | false => simp [item.plain, looked, CommandItem.command]

theorem storeQueueItems (commands : List CommandItem) (items : List QueueItem) (ques : List Command)
    (defined : ∀ item ∈ items, ∃ c ∈ commands, c.key = item.name) :
    items.foldlM (fun ques item =>
      storeQueueItem (commands.map CommandItem.command) ques item.key item.value) ques =
        .ok (ques ++ items.filterMap (QueueItem.entry commands)) := by
  induction items generalizing ques with
  | nil => exact congrArg Except.ok (List.append_nil ques).symm
  | cons item items ih =>
    obtain ⟨c, member, same⟩ := defined item (by simp)
    have some_ : (item.entry commands).isSome = true := by
      rw [QueueItem.entry, Option.isSome_map, List.find?_isSome]
      exact ⟨c, member, by simpa using same⟩
    obtain ⟨entry, found⟩ := Option.isSome_iff_exists.mp some_
    rw [List.foldlM_cons, storeQueueItem_entry commands ques item entry found,
      List.filterMap_cons_some found]
    have rest :=
      ih (ques ++ [entry]) fun other later => defined other (List.mem_cons_of_mem item later)
    rw [List.append_assoc] at rest
    exact rest

theorem endsSection_queues (queues : List QueueSection) :
    EndsSection (queues.flatMap QueueSection.lines) := by
  cases queues with
  | nil => exact ⟨[], [], rfl, .inl rfl⟩
  | cons q queues =>
    rw [List.flatMap_cons, QueueSection.lines, List.append_assoc, List.cons_append]
    exact ⟨q.gap, _, rfl, .inr ⟨q.header, _, rfl⟩⟩

section Queues

variable (host : Host)

/-- What the queues leave of the rest, and what they put into their map. -/
structure QueuesLoaded (queues : List QueueSection) (pairs : List (Bytes × List Command))
    (conf conf' : Configuration) : Prop where
  held : ∀ s, conf'.held s = conf.held s
  mapCmd : conf'.mapCmd = conf.mapCmd
  mapCmdQue : conf'.mapCmdQue = insertAll conf.mapCmdQue pairs
  names : (pairs.map Prod.fst).Sublist (queues.map fun q => q.header.name)

/-- The queues that the outer loop and the loop of the section before them find, when either gets to
its end: one whose header is lost is missing. -/
theorem queues_sound (queues : List QueueSection) (conf conf' : Configuration) :
    (load host conf (queues.flatMap QueueSection.lines) = .ok conf' →
      (∀ q ∈ queues, BlanksEmpty q.gap) ∧ ∃ pairs, QueuesLoaded queues pairs conf conf' ∧
        (pairs.length = queues.length → ∀ q ∈ queues.tail, HasBlank q.gap)) ∧
    (afterSection host conf (queues.flatMap QueueSection.lines) = .ok conf' →
      (∀ q ∈ queues, BlanksEmpty q.gap) ∧ ∃ pairs, QueuesLoaded queues pairs conf conf' ∧
        (pairs.length = queues.length → ∀ q ∈ queues, HasBlank q.gap)) := by
  induction queues generalizing conf with
  | nil =>
    constructor
    · intro done
      obtain rfl := Except.ok.inj done
      exact ⟨by simp, [], ⟨fun _ => rfl, rfl, rfl, .slnil⟩, by simp⟩
    · intro done
      obtain rfl := Except.ok.inj done
      exact ⟨by simp, [], ⟨fun _ => rfl, rfl, rfl, .slnil⟩, by simp⟩
  | cons q queues ih =>
    have ends := endsSection_queues queues
    have outer : load host conf ((q :: queues).flatMap QueueSection.lines) = .ok conf' →
        (∀ each ∈ q :: queues, BlanksEmpty each.gap) ∧
        ∃ pairs, QueuesLoaded (q :: queues) pairs conf conf' ∧
          (pairs.length = (q :: queues).length → ∀ q ∈ queues, HasBlank q.gap) := by
      intro done
      rw [List.flatMap_cons, QueueSection.lines, List.append_assoc, List.cons_append] at done
      by_cases empty : BlanksEmpty q.gap
      · rw [load_gap host conf _ q.gap empty,
          load_queue host conf q.header _ q.body q.noConfig q.noCommands ends] at done
        split at done
        next ques _ =>
          obtain ⟨empties, pairs, loaded, all⟩ := (ih (addQueue conf q.header.name ques)).2 done
          refine ⟨List.forall_mem_cons.mpr ⟨empty, empties⟩, (q.header.name, ques) :: pairs,
            ⟨?_, loaded.mapCmd, loaded.mapCmdQue, loaded.names.cons_cons _⟩, fun same => all ?_⟩
          · intro s
            rw [loaded.held]
            cases s <;> rfl
          · simpa using same
        · simp at done
      · rw [load_gap_undefined host conf _ q.gap empty] at done
        simp at done
    refine ⟨outer, fun done => ?_⟩
    by_cases some_ : HasBlank q.gap
    · by_cases empty : BlanksEmpty q.gap
      · have same : afterSection host conf ((q :: queues).flatMap QueueSection.lines) =
            load host conf ((q :: queues).flatMap QueueSection.lines) := by
          rw [List.flatMap_cons, QueueSection.lines, List.append_assoc,
            afterSection_found host conf q.gap _ some_ empty, load_gap host conf _ q.gap empty]
        obtain ⟨empties, pairs, loaded, all⟩ := outer (same.symm.trans done)
        exact ⟨empties, pairs, loaded, fun same => List.forall_mem_cons.mpr ⟨some_, all same⟩⟩
      · rw [List.flatMap_cons, QueueSection.lines, List.append_assoc,
          afterSection_undefined host conf q.gap _ empty] at done
        simp at done
    · rw [List.flatMap_cons, QueueSection.lines, List.append_assoc, List.cons_append,
        afterSection_lost host conf q.gap q.header _ some_,
        load_lost host conf _ QueueItem.toItemLine q.body] at done
      split at done
      · obtain ⟨empties, pairs, loaded, _⟩ := (ih conf).1 done
        have noBlank : BlanksEmpty q.gap := fun b member => absurd ⟨b, member⟩ some_
        refine ⟨List.forall_mem_cons.mpr ⟨noBlank, empties⟩, pairs,
          ⟨loaded.held, loaded.mapCmd, loaded.mapCmdQue, loaded.names.cons _⟩, fun same => ?_⟩
        -- the queue is missing, so these are too few
        have fewer := loaded.names.length_le
        rw [List.length_map, List.length_map] at fewer
        rw [List.length_cons] at same
        omega
      · simp at done

/-- The loop of the section before the queues finds the header of the first one behind a blank
line. -/
theorem afterSection_queues (queues : List QueueSection) (conf : Configuration)
    (empty : ∀ q ∈ queues, BlanksEmpty q.gap) (blank : ∀ q ∈ queues, HasBlank q.gap) :
    afterSection host conf (queues.flatMap QueueSection.lines) =
      load host conf (queues.flatMap QueueSection.lines) := by
  cases queues with
  | nil => rfl
  | cons q queues =>
    rw [List.flatMap_cons, QueueSection.lines, List.append_assoc,
      afterSection_found host conf q.gap _ (blank q (by simp)) (empty q (by simp)),
      load_gap host conf _ q.gap (empty q (by simp))]

theorem queues_complete (commands : List CommandItem) (queues : List QueueSection)
    (conf : Configuration) (table : conf.mapCmd = commands.map CommandItem.command)
    (defined : ∀ q ∈ queues, ∀ item ∈ itemsOf q.body, ∃ c ∈ commands, c.key = item.name)
    (empty : ∀ q ∈ queues, BlanksEmpty q.gap) (blank : ∀ q ∈ queues.tail, HasBlank q.gap) :
    ∃ conf', load host conf (queues.flatMap QueueSection.lines) = .ok conf' ∧
      QueuesLoaded queues
        (queues.map fun q => (q.header.name, (itemsOf q.body).filterMap (QueueItem.entry commands)))
        conf conf' := by
  induction queues generalizing conf with
  | nil => exact ⟨conf, rfl, ⟨fun _ => rfl, rfl, rfl, .slnil⟩⟩
  | cons q queues ih =>
    rw [List.tail_cons] at blank
    -- the entries of a queue are found among the commands, so the section is read to its end
    have found := storeQueueItems commands (itemsOf q.body) [] (defined q (by simp))
    rw [← table, List.nil_append] at found
    obtain ⟨conf', done, loaded⟩ := ih
      (addQueue conf q.header.name ((itemsOf q.body).filterMap (QueueItem.entry commands))) table
      (fun q later => defined q (by simp [later])) (fun q later => empty q (by simp [later]))
      (fun q later => blank q (List.mem_of_mem_tail later))
    refine ⟨conf', ?_, ⟨fun s => ?_, loaded.mapCmd, loaded.mapCmdQue, ?_⟩⟩
    · rw [List.flatMap_cons, QueueSection.lines, List.append_assoc, List.cons_append,
        load_gap host conf _ q.gap (empty q (by simp)),
        load_queue host conf q.header _ q.body q.noConfig q.noCommands (endsSection_queues queues),
        found]
      exact (afterSection_queues host queues _ (fun q later => empty q (by simp [later]))
        blank).trans done
    · rw [loaded.held]
      cases s <;> rfl
    · simp [Function.comp_def]

end Queues

/-! ### The text -/

section Text

variable (host : Host) (hostname : Bytes) (doc : ConfigText)

/-- The lines from behind the settings on. -/
def tables : List Bytes :=
  doc.gap.map GapLine.line ++ doc.commandsHeader.line ::
    (bodyLines (fun item => item.line) doc.commands ++ doc.queues.flatMap QueueSection.lines)

theorem endsSection_tables : EndsSection (tables doc) := ⟨doc.gap, _, rfl, .inr ⟨_, _, rfl⟩⟩

theorem loadConfig_text : loadConfig host (some doc.text) = load host .initial
    (doc.before.map GapLine.line ++
      doc.configHeader.line :: (bodyLines (fun item => item.line) doc.settings ++ tables doc)) := by
  rw [loadConfig, ConfigText.readLines_text]
  rfl

/-- A queue for each pair is only there when no queue is missing. -/
theorem names_of_length {queues : List QueueSection} {pairs : List (Bytes × List Command)}
    (names : (pairs.map Prod.fst).Sublist (queues.map fun q => q.header.name))
    (complete : (insertAll [] pairs).length = queues.length) :
    pairs.length = queues.length ∧ (queues.map fun q => q.header.name).Nodup := by
  have fewer := names.length_le
  rw [List.length_map, List.length_map] at fewer
  have bound := length_insertAll_le [] pairs
  rw [List.length_nil, Nat.zero_add] at bound
  have same : pairs.length = queues.length := by omega
  have all : pairs.map Prod.fst = queues.map fun q => q.header.name :=
    names.eq_of_length (by simpa using same)
  refine ⟨same, all ▸ ((insertAll_length_iff [] pairs).mp ?_).1⟩
  rw [complete, same, List.length_nil, Nat.zero_add]

/-- The commands and the queues, as the loop for the settings leaves them. -/
theorem tables_sound (conf conf' : Configuration) (noCommands : conf.mapCmd = [])
    (noQueues : conf.mapCmdQue = []) (done : afterSection host conf (tables doc) = .ok conf') :
    (∀ s, conf'.held s = conf.held s) ∧ BlanksEmpty doc.gap ∧
      (∀ q ∈ doc.queues, BlanksEmpty q.gap) ∧
      (conf'.mapCmd.length = (itemsOf doc.commands).length →
      conf'.mapCmdQue.length = doc.queues.length →
        Separated doc ∧ ((itemsOf doc.commands).map fun c => c.key).Nodup ∧
          (doc.queues.map fun q => q.header.name).Nodup) := by
  rw [tables] at done
  by_cases empty : BlanksEmpty doc.gap
  · by_cases some_ : HasBlank doc.gap
    · rw [afterSection_found host conf doc.gap _ some_ empty,
        load_commands host conf doc.commandsHeader _ doc.commands doc.isCommands
          (endsSection_queues doc.queues)] at done
      obtain ⟨empties, pairs, loaded, all⟩ := (queues_sound host doc.queues _ conf').2 done
      refine ⟨fun s => ?_, empty, empties, fun commands queues => ?_⟩
      · rw [loaded.held]
        cases s <;> rfl
      · have queues' := loaded.mapCmdQue
        have commands' := loaded.mapCmd
        simp only [noQueues, noCommands] at queues' commands'
        rw [queues'] at queues
        rw [commands'] at commands
        obtain ⟨same, names⟩ := names_of_length loaded.names queues
        have distinct :=
          ((insertAll_length_iff [] ((itemsOf doc.commands).map CommandItem.command)).mp
          (by simpa only [List.length_nil, Nat.zero_add, List.length_map] using commands)).1
        rw [List.map_map] at distinct
        exact ⟨.inl ⟨some_, all same⟩, distinct, names⟩
    · -- without a blank line the loop for the settings has taken the header, and the items are lost
      rw [afterSection_lost host conf doc.gap doc.commandsHeader _ some_,
        load_lost host conf _ CommandItem.toItemLine doc.commands] at done
      split at done
      next none_ =>
        obtain ⟨empties, pairs, loaded, all⟩ := (queues_sound host doc.queues conf conf').1 done
        refine ⟨loaded.held, empty, empties, fun _ queues => ?_⟩
        have queues' := loaded.mapCmdQue
        rw [noQueues] at queues'
        rw [queues'] at queues
        obtain ⟨same, names⟩ := names_of_length loaded.names queues
        refine ⟨.inr ⟨some_, none_, all same⟩, ?_, names⟩
        rw [none_]
        exact List.nodup_nil
      · simp at done
  · rw [afterSection_undefined host conf doc.gap _ empty] at done
    simp at done

theorem tables_complete (conf : Configuration) (noCommands : conf.mapCmd = [])
    (noQueues : conf.mapCmdQue = []) (loadable : Loadable host hostname doc) :
    ∃ conf', afterSection host conf (tables doc) = .ok conf' ∧ (∀ s, conf'.held s = conf.held s) ∧
      conf'.mapCmd = (itemsOf doc.commands).map CommandItem.command ∧
      conf'.mapCmdQue = doc.queues.map fun q =>
        (q.header.name, (itemsOf q.body).filterMap (QueueItem.entry (itemsOf doc.commands))) := by
  obtain ⟨_, empty, empties⟩ := loadable.empty
  have inserted : insertAll [] ((itemsOf doc.commands).map CommandItem.command) =
      (itemsOf doc.commands).map CommandItem.command := by
    apply insertAll_eq
    · rw [List.map_map]
      exact loadable.distinctCommands
    · simp
  have queues : insertAll [] (doc.queues.map fun q =>
      (q.header.name, (itemsOf q.body).filterMap (QueueItem.entry (itemsOf doc.commands)))) =
      doc.queues.map fun q =>
        (q.header.name, (itemsOf q.body).filterMap (QueueItem.entry (itemsOf doc.commands))) := by
    apply insertAll_eq
    · rw [List.map_map]
      exact loadable.distinctQueues
    · simp
  rw [tables]
  -- the section of the commands is found, or it has no items that could be lost
  rcases loadable.separated with ⟨some_, blank⟩ | ⟨none_, noItems, blank⟩
  · obtain ⟨conf', done, loaded⟩ := queues_complete host (itemsOf doc.commands) doc.queues
      { conf with mapCmd := insertAll conf.mapCmd ((itemsOf doc.commands).map CommandItem.command) }
      (by rw [noCommands]; exact inserted) doc.defined empties
      (fun q later => blank q (List.mem_of_mem_tail later))
    refine ⟨conf', ?_, fun s => ?_, ?_, ?_⟩
    · rw [afterSection_found host conf doc.gap _ some_ empty,
        load_commands host conf doc.commandsHeader _ doc.commands doc.isCommands
          (endsSection_queues doc.queues), afterSection_queues host doc.queues _ empties blank]
      exact done
    · rw [loaded.held]
      cases s <;> rfl
    · rw [loaded.mapCmd]
      simp only [noCommands]
      exact inserted
    · rw [loaded.mapCmdQue]
      simp only [noQueues]
      exact queues
  · obtain ⟨conf', done, loaded⟩ := queues_complete host (itemsOf doc.commands) doc.queues conf
      (by rw [noCommands, noItems]; rfl) doc.defined empties blank
    refine ⟨conf', ?_, loaded.held, ?_, ?_⟩
    · rw [afterSection_lost host conf doc.gap doc.commandsHeader _ none_,
        load_lost host conf _ CommandItem.toItemLine doc.commands, if_pos noItems]
      exact done
    · rw [loaded.mapCmd, noCommands, noItems]
      rfl
    · rw [loaded.mapCmdQue, noQueues]
      exact queues

end Text

/-! ### Two headers in a row -/

theorem isPad_nil : IsPad [] := by simp [IsPad]

/-- `server_port=7777`. -/
def portItem : SettingItem where
  key := serverPort
  value := ascii "7777"
  left := []
  beforeSign := []
  behindSign := []
  right := []
  keyTrimmed := ⟨by decide, by decide +kernel, by decide +kernel⟩
  valueTrimmed := ⟨by decide, by decide +kernel, by decide +kernel⟩
  keyText := by unfold IsText; decide +kernel
  valueText := by unfold IsText; decide +kernel
  noSign := by decide
  noComment := by decide
  noHeader := by decide
  padLeft := isPad_nil
  padBefore := isPad_nil
  padBehind := isPad_nil
  padRight := isPad_nil
  short := by decide
  setting := .serverPort
  known := rfl

/-- `NOOP_OK=0:OK`. -/
def noopItem : CommandItem where
  key := ascii "NOOP_OK"
  value := ascii "0:OK"
  left := []
  beforeSign := []
  behindSign := []
  right := []
  keyTrimmed := ⟨by decide, by decide +kernel, by decide +kernel⟩
  valueTrimmed := ⟨by decide, by decide +kernel, by decide +kernel⟩
  keyText := by unfold IsText; decide +kernel
  valueText := by unfold IsText; decide +kernel
  noSign := by decide
  noComment := by decide
  noHeader := by decide
  padLeft := isPad_nil
  padBefore := isPad_nil
  padBehind := isPad_nil
  padRight := isPad_nil
  short := by decide
  type := '0'.toUInt8
  cmd := ascii "OK"
  form := by decide

def bareHeader (name : Bytes) (isText : IsText name) (short : name.length < 1022) : HeaderLine where
  name
  left := []
  right := []
  isText
  padLeft := isPad_nil
  padRight := isPad_nil
  short := by
    rw [List.nil_append, List.length_cons, List.length_append, List.length_singleton]
    omega

/-- No blank line comes before `[COMMANDS]`. -/
def adjacent : ConfigText where
  before := []
  configHeader := bareHeader (ascii "CONFIGURATION") (by unfold IsText; decide +kernel) (by decide)
  settings := [.item portItem]
  gap := []
  commandsHeader := bareHeader (ascii "COMMANDS") (by unfold IsText; decide +kernel) (by decide)
  commands := [.item noopItem]
  queues := []
  isConfig := by decide
  isCommands := by decide
  defined := by simp
  finalNewline := true

theorem adjacent_text :
    adjacent.text = ascii "[CONFIGURATION]\nserver_port=7777\n[COMMANDS]\nNOOP_OK=0:OK\n" := by
  decide +kernel

end SimNsim
