import MyStudy.Apue.PrintdClients
import MyStudy.Apue.PrintdPrinter
import MyStudy.Lib.Transition

/-!
# No job is lost

A job whose client was told its number stays in the spool directory until the printer has got it
whole, wherever the daemon ends, and while the daemon runs some thread has it to do. For that no two
jobs may have one number: the daemon must not end between the time that a client gets a number and
the time that the printer thread writes the next number down.
-/
namespace Apue.Printd

open Directory Transition

variable {Tid : Type} {s s' : State Tid}

/-! ### The start -/

theorem atoi_jobid {jobid : Int} (pos : 0 < jobid) (range : jobid < 2 ^ 31) :
    Zn.atoi (Zn.toStringInt jobid) = jobid :=
  Zn.atoi_toStringInt jobid ⟨by omega, range⟩

/-- `build_qonstart` goes on, or throws something away. -/
theorem Sound.builds (sound : Sound s) (quiet : ∀ t, s.clients t = .idle) (up : s.main ≠ .down)
    {main : Main}
    {fs : Directory Name} (job : s.main.job = none) (job' : main.job = none) (still : main ≠ .down)
    (unharmed : main ≠ .overflow)
    (fewer : (main.drops.toList ++ main.entries).Sublist (s.main.drops.toList ++ s.main.entries))
    (others : ∀ n, (∀ dName, s.main.drops = some dName → n ≠ .data dName ∧ n ≠ .reqs dName) →
      Agree s.fs fs n)
    (shrinks : ∀ n, Agree s.fs fs n ∨ fs.text n = none)
    (drops : ∀ dName, main.drops = some dName → ∀ a ∈ s.past.accepted,
      Zn.toStringInt a.job.jobid = dName →
      IsPrinted s.past a)
    (left : ∀ a ∈ s.past.accepted, Zn.toStringInt a.job.jobid ∈ s.main.entries →
      Zn.toStringInt a.job.jobid ∈ main.entries ∨ IsPrinted s.past a) :
        Sound { s with fs, main } := by
  have work : ({ s with fs, main } : State Tid).work = s.work := by simp [State.work, job, job']
  have foreign {jobid : Int} (other : ∀ dName, s.main.drops = some dName →
    Zn.toStringInt jobid ≠ dName) :
      ∀ n : Name, n.Of jobid → Agree s.fs fs n := by
    rintro n (rfl | rfl) <;> refine others _ fun dName dropped => ⟨?_, ?_⟩
    · simpa [dataName] using other dName dropped
    · simp [dataName]
    · simp [reqsName]
    · simpa [reqsName] using other dName dropped
  have worked {job : Job} (member : job ∈ s.work) : ∀ dName, s.main.drops = some dName →
      Zn.toStringInt job.jobid ≠ dName := by
    intro dName dropped same
    obtain ⟨jobid, -, -, name, notWork⟩ := sound.entries dName (by simp [dropped])
    rw [← same] at name
    exact notWork (toStringInt_injective name ▸ List.mem_map_of_mem member)
  refine { sound with
    down := fun down => absurd down still
    unharmed := unharmed
    names := fun n found => ?_
    quiet := fun _ => quiet
    client := fun u jobid mine => ?_
    fine := fun u => ?_
    work := fun job member => ?_
    once := by rw [work]; exact sound.once
    entries := fun dName member => ?_
    entriesOnce := sound.entriesOnce.sublist fewer
    drops := drops
    printer := ?_
    recorded := sound.recorded.shrinks fun _ => shrinks _
    kept := fun a member => ?_
    own := fun a member => (sound.own a member).shrinks shrinks
    atHand := fun _ a member => ?_ }
  · by_cases its : ∃ dName, s.main.drops = some dName ∧ (n = .data dName ∨ n = .reqs dName)
    · obtain ⟨dName, dropped, its⟩ := its
      obtain ⟨jobid, pos, range, rfl, -⟩ := sound.entries dName (by simp [dropped])
      exact ⟨jobid, pos, range, its⟩
    · rw [not_exists] at its
      have agree := (others n fun dName dropped => by simpa [dropped] using its dName).1
      exact sound.names n (agree ▸ found)
  · change (s.clients u).jobid = some jobid at mine
    rw [quiet u] at mine
    cases mine
  · change (s.clients u).Fine fs
    rw [quiet u]
    trivial
  · rw [work] at member
    obtain ⟨pos, range, controlled⟩ := sound.work job member
    exact ⟨pos, range, controlled.agree (foreign (worked member))⟩
  · rw [work]
    exact sound.entries dName (fewer.subset member)
  · refine sound.printer.agree fun job its => foreign (worked ?_)
    simp [State.work, its]
  · rcases sound.kept a member with spooled | printed
    · by_cases its : s.main.drops = some (Zn.toStringInt a.job.jobid)
      · exact .inr (sound.drops _ its a member rfl)
      · refine .inl (spooled.agree (foreign fun dName dropped same => its ?_))
        rw [same, dropped]
    · exact .inr printed
  · rcases sound.atHand up a member with printed | here | done | ⟨u, adds⟩ | entry
    · exact .inl printed
    · exact .inr (.inl (by rw [work]; exact here))
    · exact .inr (.inr (.inl done))
    · rw [quiet u] at adds
      cases adds
    · rcases left a member entry with entry | printed
      · exact .inr (.inr (.inr (.inr entry)))
      · exact .inl printed

/-- `build_qonstart` has read a control file. -/
theorem Sound.reads (sound : Sound s) {dName bytes : Bytes} {entries : List Bytes} {req : Printreq}
    (at_ : s.main = .build (dName :: entries)) (text : s.fs.text (.reqs dName) = some bytes)
    (reads : Printreq.ofImage (bytes.take sizeofPrintreq) = some req) :
    Sound { s with main := .addJob ⟨Zn.atoi dName, req⟩ entries } := by
  have quiet := sound.quiet (by simp [at_])
  have entriesOnce := sound.entriesOnce
  have all := sound.entries
  rw [at_] at entriesOnce all
  obtain ⟨new, restOnce⟩ := List.nodup_cons.mp entriesOnce
  obtain ⟨jobid, pos, range, rfl, notWork⟩ := all dName (by simp [Main.entries])
  have number := atoi_jobid pos (range.trans sound.range)
  rw [number]
  have controlled : Controlled s.fs ⟨jobid, req⟩ := ⟨bytes, text, reads⟩
  have work : ({ s with main := .addJob ⟨jobid, req⟩ entries } : State Tid).work =
    ⟨jobid, req⟩ :: s.work := by
    simp [State.work, at_, Main.job]
  refine { sound with
    down := by simp
    unharmed := by simp
    quiet := fun _ => quiet
    client := fun u jobid' mine => ?_
    work := fun job member => ?_
    once := ?_
    entries := fun dName member => ?_
    entriesOnce := restOnce
    drops := by simp [Main.drops]
    atHand := fun _ a member => ?_ }
  · change (s.clients u).jobid = some jobid' at mine
    rw [quiet u] at mine
    cases mine
  · rw [work] at member
    rcases List.mem_cons.mp member with rfl | member
    · exact ⟨pos, range, controlled⟩
    · exact sound.work job member
  · rw [work]
    exact List.nodup_cons.mpr ⟨notWork, sound.once⟩
  · obtain ⟨jobid', pos', range', rfl, notWork'⟩ := all dName (List.mem_cons_of_mem _ member)
    refine ⟨jobid', pos', range', rfl, ?_⟩
    rw [work, List.map_cons, List.mem_cons, not_or]
    refine ⟨?_, notWork'⟩
    rintro rfl
    exact new member
  · rcases sound.kept a member with spooled | printed
    · rcases sound.atHand (by simp [at_]) a member with printed | here | done | ⟨u, adds⟩ | entry
      · exact .inl printed
      · exact .inr (.inl (by rw [work]; exact List.mem_cons_of_mem _ here))
      · exact .inr (.inr (.inl done))
      · rw [quiet u] at adds
        cases adds
      · rw [at_] at entry
        rcases List.mem_cons.mp entry with same | entry
        · have its := toStringInt_injective same
          refine .inr (.inl ?_)
          rw [work, spooled.controlled.unique controlled its]
          exact List.mem_cons_self
        · exact .inr (.inr (.inr (.inr entry)))
    · exact .inl printed

/-- `build_qonstart` puts a job on the list. -/
theorem Sound.queued (sound : Sound s) {job : Job} {entries : List Bytes}
    (at_ : s.main = .addJob job entries) :
    Sound { s.addJob job with main := .build entries } := by
  have quiet := sound.quiet (by simp [at_])
  have entriesOnce := sound.entriesOnce
  have all := sound.entries
  have atHand := sound.atHand
  rw [at_] at entriesOnce all atHand
  have work : ({ s.addJob job with main := .build entries } : State Tid).work.Perm s.work := by
    simp only [State.work, State.addJob, at_, Main.job, Option.toList_none, Option.toList_some,
      List.nil_append]
    rw [← List.append_assoc]
    exact List.perm_append_comm
  have ids := work.map Job.jobid
  refine { sound with
    down := by simp
    unharmed := by simp
    quiet := fun _ => quiet
    client := fun u jobid mine => ?_
    work := fun job member => sound.work job (work.mem_iff.mp member)
    once := ids.nodup_iff.mpr sound.once
    entries := fun dName member => ?_
    entriesOnce := entriesOnce
    drops := by simp [Main.drops]
    atHand := fun _ a member => ?_ }
  · change (s.clients u).jobid = some jobid at mine
    rw [quiet u] at mine
    cases mine
  · obtain ⟨jobid, pos, range, name, notWork⟩ := all dName member
    exact ⟨jobid, pos, range, name, fun member => notWork (ids.mem_iff.mp member)⟩
  · rcases atHand (by simp) a member with printed | here | done | adds | entry
    · exact .inl printed
    · exact .inr (.inl (work.mem_iff.mpr here))
    · exact .inr (.inr (.inl done))
    · exact .inr (.inr (.inr (.inl adds)))
    · rw [at_] at entry
      exact .inr (.inr (.inr (.inr entry)))

/-- The next step of the first thread. -/
theorem Sound.goMain (sound : Sound s) (up : s.main ≠ .down) {answer : Answer}
    (readable : ∀ dName entries, s.main = .build (dName :: entries) → answer = .ok)
    (steps : s.goMain s.main answer = some s') : Sound s' := by
  have drops := sound.drops
  cases at_ : s.main with
  | down => exact absurd at_ up
  | build entries =>
    have quiet := sound.quiet (by simp [at_])
    have same (n : Name) (_ : ∀ dName, s.main.drops = some dName → n ≠ .data dName ∧
      n ≠ .reqs dName) :
        Agree s.fs s.fs n := agree_refl
    rw [at_] at steps
    cases entries with
    | nil =>
      cases answer with
      | ok =>
        obtain rfl := Option.some.inj steps
        exact sound.builds quiet up (by simp [at_, Main.job]) rfl (by simp) (by simp)
          (by simp [at_, Main.drops, Main.entries]) same (fun _ => .inl agree_refl)
          (by simp [Main.drops])
          (by simp [at_, Main.entries])
      | _ => cases steps
    | cons dName entries =>
      obtain rfl := readable dName entries at_
      -- a job with a control file that cannot be read has been printed
      have unread (none_ : ∀ bytes, s.fs.text (.reqs dName) = some bytes →
          Printreq.ofImage (bytes.take sizeofPrintreq) = none) (a : Accepted) (member :
          a ∈ s.past.accepted)
          (its : Zn.toStringInt a.job.jobid = dName) : IsPrinted s.past a := by
        rcases sound.kept a member with spooled | printed
        · obtain ⟨bytes, text, read⟩ := spooled.controlled
          rw [none_ bytes (its ▸ text)] at read
          cases read
        · exact printed
      have left (none_ : ∀ bytes, s.fs.text (.reqs dName) = some bytes →
          Printreq.ofImage (bytes.take sizeofPrintreq) = none) (a : Accepted) (member :
          a ∈ s.past.accepted)
          (entry : Zn.toStringInt a.job.jobid ∈ s.main.entries) :
          Zn.toStringInt a.job.jobid ∈ entries ∨ IsPrinted s.past a := by
        rw [at_] at entry
        rcases List.mem_cons.mp entry with its | entry
        · exact .inr (unread none_ a member its)
        · exact .inl entry
      simp only [State.goMain] at steps
      split at steps
      next missing =>
        obtain rfl := Option.some.inj steps
        exact sound.builds quiet up (by simp [at_, Main.job]) rfl (by simp) (by simp)
          (by simp [at_, Main.drops, Main.entries]) same (fun _ => .inl agree_refl)
          (by simp [Main.drops])
          (left fun bytes text => by rw [missing] at text; cases text)
      next bytes text =>
        split at steps
        next short =>
          obtain rfl := Option.some.inj steps
          have none_ (bytes' : Bytes) (text' : s.fs.text (.reqs dName) = some bytes') :
              Printreq.ofImage (bytes'.take sizeofPrintreq) = none := by
            rw [text, Option.some_inj] at text'
            rw [← text', short]
          refine sound.builds quiet up (by simp [at_, Main.job]) rfl (by simp) (by simp)
            (by simp [at_, Main.drops, Main.entries]) same (fun _ => .inl agree_refl) ?_
            (left none_)
          rintro _ ⟨⟩
          exact unread none_
        next req read =>
          obtain rfl := Option.some.inj steps
          exact sound.reads at_ text read
  | unlinkReqs dName entries =>
    rw [at_] at steps drops
    cases answer with
    | ok =>
      obtain rfl := Option.some.inj steps
      refine sound.builds (sound.quiet (by simp [at_])) up (by simp [at_, Main.job]) rfl
        (by simp) (by simp)
        (by simp [at_, Main.drops, Main.entries])
        (fun n others => agree_unlink (others dName (by rw [at_]; rfl)).2)
        (fun _ => agree_or_gone) drops fun a _ entry => .inl (by rw [at_] at entry; exact entry)
    | _ => cases steps
  | unlinkData dName entries =>
    rw [at_] at steps
    cases answer with
    | ok =>
      obtain rfl := Option.some.inj steps
      refine sound.builds (sound.quiet (by simp [at_])) up (by simp [at_, Main.job]) rfl
        (by simp) (by simp)
        (by simp [at_, Main.drops, Main.entries])
        (fun n others => agree_unlink (others dName (by rw [at_]; rfl)).1)
        (fun _ => agree_or_gone) (by simp [Main.drops])
        fun a _ entry => .inl (by rw [at_] at entry; exact entry)
    | _ => cases steps
  | addJob job entries =>
    rw [at_] at steps
    cases answer with
    | ok =>
      obtain rfl := Option.some.inj steps
      exact sound.queued at_
    | _ => cases steps
  | serving | overflow =>
    rw [at_] at steps
    cases answer <;> cases steps

/-! ### Steps -/

/-- What a step must not meet: a number that no job can have any more, a request that is too long
for the headers, a control file that cannot be read, and the end of the daemon while the job file is
behind. -/
def Careful (s : State Tid) : Label Tid → Prop
  | .main answer => ∀ dName entries, s.main = .build (dName :: entries) → answer = .ok
  | .client t _ => ∀ req, s.clients t = .number req → s.nextjob + 1 < 2 ^ 31
  | .printer _ =>
    ∀ job file size, s.printer = .headers job file size → (ippHeader s.printerName job).isSome
  | .crash => readJobno s.jobfile = s.nextjob
  | _ => True

/-- As soon as the printer thread has taken a job, the job file is not behind, and the daemon may
end. -/
theorem Sound.updates (sound : Sound s) {job : Job}
    (steps : s.goPrinter (.updateJobno job) .ok = some s') :
    Careful s' .crash := by
  obtain rfl := Option.some.inj steps
  have written := sound.numbered.write sound.pos
  have read := readJobno_toStringInt sound.pos sound.range
  simp [Careful, written, read]

theorem mem_reqsEntries {fs : Directory Name} {dName : Bytes} :
    dName ∈ reqsEntries fs ↔ (fs.find (.reqs dName)).isSome := by
  have some_ (n : Name) : n.inReqs = some dName ↔ n = .reqs dName := by
    cases n <;> simp [Name.inReqs]
  rw [reqsEntries, List.mem_filterMap]
  simp only [some_, exists_eq_right]
  exact AList.lookup_isSome.symm

theorem nodup_reqsEntries (fs : Directory Name) : (reqsEntries fs).Nodup := by
  refine List.Nodup.filterMap (fun m n dName first second => ?_) fs.entries.keys_nodup
  cases m <;> cases n <;> simp_all [Name.inReqs]

/-- The daemon starts, and finds all jobs in the spool directory. -/
theorem Sound.start (sound : Sound s) (down : s.main = .down) {entries : List Bytes}
    {printerName : Bytes} (all : entries.Perm (reqsEntries s.fs)) :
    Sound (s.start entries printerName) := by
  obtain ⟨same, queue, printer⟩ := sound.down down
  have quiet := sound.quiet (by simp [down])
  have work : (s.start entries printerName).work = [] := by
    simp [State.work, State.start, queue, printer, Main.job, Printer.job]
  have names (dName : Bytes) (member : dName ∈ entries) :
      ∃ jobid, 0 < jobid ∧ jobid < s.nextjob ∧ dName = Zn.toStringInt jobid := by
    obtain ⟨jobid, pos, range, its⟩ := sound.names _ (mem_reqsEntries.mp (all.mem_iff.mp member))
    refine ⟨jobid, pos, range, ?_⟩
    rcases its with its | its
    · cases its
    · exact Name.reqs.inj its
  refine {
    pos := by rw [State.start, same]; exact sound.pos
    range := by rw [State.start, same]; exact sound.range
    numbered := by rw [State.start, same]; exact sound.numbered
    down := by simp [State.start]
    unharmed := by simp [State.start]
    names := by rw [State.start, same]; exact sound.names
    quiet := fun _ => quiet
    client := fun u jobid mine => ?_
    apart := sound.apart
    fine := sound.fine
    fresh := sound.fresh
    whole := sound.whole
    work := by simp [work]
    once := by simp [work]
    entries := fun dName member => ?_
    entriesOnce := all.nodup_iff.mpr (nodup_reqsEntries s.fs)
    drops := by simp [State.start, Main.drops]
    printer := by simp [State.start, printer, Printer.Fine]
    received := by rw [State.start, same]; exact sound.received
    recorded := sound.recorded
    accepted := sound.accepted
    kept := sound.kept
    own := sound.own
    printed := by rw [State.start, same]; exact sound.printed
    atHand := fun _ a member => ?_ }
  · change (s.clients u).jobid = some jobid at mine
    rw [quiet u] at mine
    cases mine
  · obtain ⟨jobid, pos, range, name⟩ := names dName member
    refine ⟨jobid, pos, ?_, name, by simp [work]⟩
    rw [State.start, same]
    exact range
  · rcases sound.kept a member with spooled | printed
    · refine .inr (.inr (.inr (.inr (all.mem_iff.mpr (mem_reqsEntries.mpr ?_)))))
      obtain ⟨file, found, -⟩ := text_eq_some.mp spooled.2
      exact Option.isSome_iff_exists.mpr ⟨file, found⟩
    · exact .inl printed

/-- The daemon ends with the job file up to date. -/
theorem Sound.crash (sound : Sound s) (current : readJobno s.jobfile = s.nextjob) :
    Sound s.crash := by
  refine { sound with
    down := fun _ => ⟨current, rfl, rfl⟩
    unharmed := by simp [State.crash]
    quiet := fun _ _ => rfl
    client := by simp [State.crash, Client.jobid]
    apart := by simp [State.crash, Client.jobid]
    fine := fun _ => trivial
    fresh := by simp [State.crash, Client.jobid]
    whole := by simp [State.crash, Client.whole]
    work := by simp [State.crash, State.work, Main.job, Printer.job]
    once := by simp [State.crash, State.work, Main.job, Printer.job]
    entries := by simp [State.crash, Main.drops, Main.entries]
    entriesOnce := by simp [State.crash, Main.drops, Main.entries]
    drops := by simp [State.crash, Main.drops]
    printer := trivial
    printed := fun p member =>
      ⟨(sound.printed p member).1,
        by simp [State.crash, Client.jobid], (sound.printed p member).2.2⟩
    atHand := by simp [State.crash] }

theorem sound_init : Sound (.init : State Tid) := by
  constructor
  all_goals simp [State.init, State.work, Main.job, Main.drops, Main.entries, Printer.job,
    Printer.Fine, Client.jobid,
    Client.whole, Client.Fine, readJobno, Numbered, Recorded, Controlled]

variable [DecidableEq Tid]

theorem Sound.step (sound : Sound s) {label : Label Tid} (careful : Careful s label)
    (steps : step s label = some s') : Sound s' := by
  have running (up : s.up = true) : s.main ≠ .down := by
    rintro down
    simp [State.up, down] at up
  cases label with
  | start entries printerName =>
    rw [Printd.step] at steps
    split at steps
    next ready =>
      obtain rfl := Option.some.inj steps
      exact sound.start ready.1 ready.2
    next => cases steps
  | main answer =>
    rw [Printd.step] at steps
    split at steps
    next up => exact sound.goMain (running up) careful steps
    next => cases steps
  | accept t =>
    rw [Printd.step] at steps
    split at steps
    next ready =>
      obtain rfl := Option.some.inj steps
      exact sound.setClient ready.1 (fun _ _ => agree_refl) (by simp [Client.jobid]) trivial
        sound.recorded
        (by rw [ready.2]; rfl) rfl
    next => cases steps
  | client t answer =>
    rw [Printd.step] at steps
    split at steps
    next => exact sound.goClient careful steps
    next => cases steps
  | printer answer =>
    rw [Printd.step] at steps
    split at steps
    next up => exact sound.goPrinter (running up) careful steps
    next => cases steps
  | hangup =>
    rw [Printd.step] at steps
    split at steps
    next up =>
      obtain rfl := Option.some.inj steps
      exact sound.goes (running up) sound.numbered rfl sound.printer
    next => cases steps
  | crash =>
    rw [Printd.step] at steps
    split at steps
    next =>
      obtain rfl := Option.some.inj steps
      exact sound.crash careful
    next => cases steps

/-! ### Runs -/

/-- What the clients rely on. -/
structure Reliable (s : State Tid) : Prop where
  kept : ∀ a ∈ s.past.accepted, Spooled s.fs a ∨ IsPrinted s.past a
  atHand : s.main ≠ .down → ∀ a ∈ s.past.accepted, IsPrinted s.past a ∨ AtHand s a
  unharmed : s.main ≠ .overflow

/-- **No job is lost**: in every careful run of the daemon, through any number of its ends and
starts, a job whose client was told its number is in the spool directory, with all its bytes, or the
printer has got it whole; and while the daemon runs, it is at hand. -/
theorem accepted_jobs_kept (labels : List (Label Tid))
    (careful : EachStep step Careful State.init labels) :
    Throughout step Reliable State.init labels :=
  throughout_of_invariant (fun _ _ _ sound careful steps => sound.step careful steps)
    (fun _ sound => ⟨sound.kept, sound.atHand, sound.unharmed⟩) State.init labels sound_init careful

/-! ### Two clients -/

instance (s : State Tid) : ∀ label, Decidable (Careful s label)
  | .main answer => by
    cases at_ : s.main with
    | build entries =>
      cases entries with
      | nil => exact isTrue (by simp [Careful, at_])
      | cons dName entries => exact decidable_of_iff (answer = .ok) (by simp [Careful, at_])
    | _ => exact isTrue (by simp [Careful, at_])
  | .client t _ => by
    cases at_ : s.clients t with
    | number req => exact decidable_of_iff (s.nextjob + 1 < 2 ^ 31) (by simp [Careful, at_])
    | _ => exact isTrue (by simp [Careful, at_])
  | .printer _ => by
    cases at_ : s.printer with
    | headers job file size =>
      exact decidable_of_iff ((ippHeader s.printerName job).isSome) (by simp [Careful, at_])
    | _ => exact isTrue (by simp [Careful, at_])
  | .crash => inferInstanceAs (Decidable (readJobno s.jobfile = s.nextjob))
  | .start _ _ => isTrue trivial
  | .accept _ => isTrue trivial
  | .hangup => isTrue trivial

def annReq : Printreq where
  size := 1
  flags := 0
  usernm := ascii "ann" ++ List.replicate 61 0
  jobnm := ascii "a.txt" ++ List.replicate 251 0
  usernm_length := by decide +kernel
  jobnm_length := by decide +kernel

/-- A client sends a document in one piece. -/
def submit (t : Bool) (data : Bytes) : List (Label Bool) :=
  [.accept t, .client t (.got annReq.net []), .client t .ok, .client t .ok,
    .client t (.got data []),
    .client t (.wrote data.length), .client t (.got [] []), .client t .ok,
    .client t (.wrote sizeofPrintreq),
    .client t .ok, .client t .ok]

/-- The printer gets a document whose headers have a length. -/
def deliver (headers : Nat) : List (Label Bool) :=
  [.printer .ok, .printer .ok, .printer (.named []), .printer .ok, .printer .ok, .printer .ok,
    .printer (.wrote headers), .printer .ok, .printer .ok, .printer .ok, .printer .ok, .printer .ok,
    .printer .ok,
    .printer .ok]

/-- A document is printed, and the daemon is started again for another one. -/
theorem accepted_jobs_kept_restart :
    let labels := [.start [] (ascii "p"), .main .ok] ++ submit true (ascii "a") ++ deliver 266 ++
      [.crash, .start [] (ascii "p"), .main .ok] ++ submit false (ascii "b")
    (labels.foldlM step State.init).isSome ∧ Throughout step Reliable State.init labels := by
  refine ⟨by decide +kernel, accepted_jobs_kept _ (by decide +kernel)⟩

/-- The daemon ends before the printer thread takes the first job. When it is started again, another
job gets the same number. -/
theorem accepted_jobs_lost :
    ∃ labels : List (Label Bool), ¬ Throughout step Reliable State.init labels := by
  let labels := [.start [] (ascii "p"), .main .ok] ++ submit true (ascii "a") ++
    [.crash, .start [ascii "1"] (ascii "p"), .main .ok, .main .ok, .main .ok] ++
    submit false (ascii "b")
  let first : Accepted := ⟨⟨1, annReq.setText⟩, ascii "a"⟩
  refine ⟨labels, fun all => ?_⟩
  have ends : (labels.foldlM step State.init).isSome := by decide +kernel
  have lost : (labels.foldlM step State.init).all fun t =>
      first ∈ t.past.accepted ∧ t.past.printed = [] ∧ t.fs.text (dataName 1) ≠ some (ascii "a") :=
        by decide +kernel
  obtain ⟨t, reached⟩ := Option.isSome_iff_exists.mp ends
  rw [reached, Option.all_some, decide_eq_true_eq] at lost
  obtain ⟨accepted, nothing, other⟩ := lost
  rcases (all.reached reached).kept first accepted with spooled | ⟨p, member, -⟩
  · exact other spooled.1
  · rw [nothing] at member
    cases member

end Apue.Printd
