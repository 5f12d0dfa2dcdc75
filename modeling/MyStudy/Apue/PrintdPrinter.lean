import MyStudy.Apue.PrintdSound

/-!
# The printer thread

What the printer thread has sent is always the front of what the printer is to get, and it removes
the files of a job only when the printer has got it whole.
-/
namespace Apue.Printd

open Directory

variable {Tid : Type} {s s' : State Tid}

theorem Sound.apartFrom (sound : Sound s) {job : Job} (at_ : s.printer.job = some job) {job' : Job}
    (member : job' ∈ s.queue) : job'.jobid ≠ job.jobid := by
  have once := sound.once
  rw [State.work, at_, List.map_append, List.nodup_append] at once
  have behind := (List.nodup_cons.mp once.2.1).1
  intro same
  exact behind (same ▸ List.mem_map_of_mem member)

/-- The printer thread does something with its job, puts it back or is done with it. -/
theorem Sound.print (sound : Sound s) (up : s.main ≠ .down) {fs : Directory Name}
    {jobfile printerName : Bytes}
    {reread : Bool} {queue done : List Job} {printer : Printer} {printed : List Printed}
    (others : ∀ n, (∀ job, s.printer.job = some job → ¬ n.Of job.jobid) → Agree s.fs fs n)
    (shrinks : ∀ n, Agree s.fs fs n ∨ fs.text n = none)
    (numbered : Numbered jobfile s.nextjob)
    (jobs : (printer.job.toList ++ queue).Sublist (s.printer.job.toList ++ s.queue))
    (controlled : ∀ job ∈ printer.job.toList ++ queue, Controlled fs job)
    (fine : printer.Fine fs printerName { s.past with printed, done })
    (prints : s.past.printed ⊆ printed)
    (sent : ∀ p ∈ printed, p ∈ s.past.printed ∨ s.printer.job = some p.job ∧
      ∃ data, s.fs.text (dataName p.job.jobid) = some data ∧ request p.printerName p.job data =
        some p.wire)
    (kept : ∀ a ∈ s.past.accepted, ∀ job, s.printer.job = some job → a.job.jobid = job.jobid →
      Spooled fs a ∨ IsPrinted { s.past with printed, done } a)
    (hand : ∀ job ∈ s.printer.job.toList ++ s.queue, job ∈ printer.job.toList ++ queue ∨ job ∈ done)
    (still : s.past.done ⊆ done) :
    Sound { s with
      fs, jobfile, printerName, reread, queue, printer
      past := { s.past with printed, done } } := by
  have work : (s.main.job.toList ++ (printer.job.toList ++ queue)).Sublist s.work :=
    jobs.append_left _
  have ids : ((s.main.job.toList ++ (printer.job.toList ++ queue)).map Job.jobid).Sublist
      (s.work.map Job.jobid) :=
    work.map _
  have foreign {jobid : Int} (other : ∀ job, s.printer.job = some job → jobid ≠ job.jobid) :
      ∀ n : Name, n.Of jobid → Agree s.fs fs n := by
    intro n its
    apply others
    intro job mine its'
    exact other job mine (its.unique its')
  have mine {job : Job} (its : s.printer.job = some job) : job ∈ s.work := by simp [State.work, its]
  refine { sound with
    numbered := numbered
    down := fun down => absurd down up
    names := fun n found => ?_
    client := fun u jobid its => ?_
    fine := fun u => ?_
    work := fun job member => ?_
    once := sound.once.sublist ids
    entries := fun dName member => ?_
    drops := fun dName drops a member same => (sound.drops dName drops a member same).mono prints
    printer := fine
    recorded := sound.recorded.shrinks fun _ => shrinks _
    kept := fun a member => ?_
    own := fun a member => (sound.own a member).shrinks shrinks
    printed := fun p member => ?_
    atHand := fun _ a member => ?_ }
  · by_cases its : ∃ job, s.printer.job = some job ∧ n.Of job.jobid
    · obtain ⟨job, at_, its⟩ := its
      have range := sound.work job (mine at_)
      exact ⟨job.jobid, range.1, range.2.1, its⟩
    · rw [not_exists] at its
      have agree := (others n fun job at_ its' => its job ⟨at_, its'⟩).1
      exact sound.names n (agree ▸ found)
  · obtain ⟨pos, range, notWork⟩ := sound.client u jobid its
    exact ⟨pos, range, fun member => notWork (ids.subset member)⟩
  · refine (sound.fine u).agree fun jobid its => foreign fun job at_ same => ?_
    exact (sound.client u jobid its).2.2 (same ▸ List.mem_map_of_mem (mine at_))
  · obtain ⟨pos, range, before⟩ := sound.work job (work.subset member)
    refine ⟨pos, range, ?_⟩
    rcases List.mem_append.mp member with first | rest
    · refine before.agree (foreign fun job' at_ same => ?_)
      -- the first thread has another job
      have once := sound.once
      rw [State.work, List.map_append, List.nodup_append] at once
      refine once.2.2 _ (List.mem_map_of_mem first) _ (List.mem_map_of_mem ?_) same
      simp [at_]
    · exact controlled job rest
  · obtain ⟨jobid, pos, range, name, notWork⟩ := sound.entries dName member
    exact ⟨jobid, pos, range, name, fun member => notWork (ids.subset member)⟩
  · by_cases its : ∃ job, s.printer.job = some job ∧ a.job.jobid = job.jobid
    · obtain ⟨job, at_, same⟩ := its
      exact kept a member job at_ same
    · rw [not_exists] at its
      refine (sound.kept a member).imp (fun spooled => ?_) fun done => done.mono prints
      exact spooled.agree (foreign fun job at_ same => its job ⟨at_, same⟩)
  · rcases sent p member with old | ⟨at_, data, text, all⟩
    · exact sound.printed p old
    · obtain ⟨-, range, controlled⟩ := sound.work p.job (mine at_)
      -- a number is that of one job, and its document is what was read of the client
      have one (b : Accepted) (member : b ∈ s.past.received) (same : b.job.jobid = p.job.jobid) :
          b = ⟨p.job, data⟩ := by
        have own := sound.own b member
        rw [← own.job controlled same, own.1 data (same ▸ text)]
      obtain ⟨a, member, same⟩ := sound.recorded p.job controlled
      have its := one a member (congrArg Job.jobid same)
      refine ⟨range, fun u its => ?_, a, member, same,
        by rw [its]; exact all, fun b member same => ?_⟩
      · exact (sound.client u _ its).2.2 (List.mem_map_of_mem (mine at_))
      · rw [its]
        exact one b member same
  · rcases sound.atHand up a member with done | here | done | adds | entry
    · exact .inl (done.mono prints)
    · refine .inr ?_
      rcases List.mem_append.mp here with first | rest
      · exact .inl (List.mem_append_left _ first)
      · rcases hand _ rest with still | done
        · exact .inl (List.mem_append_right _ still)
        · exact .inr (.inl done)
    · exact .inr (.inr (.inl (still done)))
    · exact .inr (.inr (.inr (.inl adds)))
    · exact .inr (.inr (.inr (.inr entry)))

theorem Sound.rest (sound : Sound s) {job : Job} (member : job ∈ s.printer.job.toList ++ s.queue) :
    Controlled s.fs job := (sound.work job (List.mem_append_right _ member)).2.2

/-- The printer thread leaves the files as they are. -/
theorem Sound.goes (sound : Sound s) (up : s.main ≠ .down) {jobfile printerName : Bytes}
    {reread : Bool} {queue : List Job} {printer : Printer} (numbered : Numbered jobfile s.nextjob)
    (same : printer.job.toList ++ queue = s.printer.job.toList ++ s.queue)
    (fine : printer.Fine s.fs printerName s.past) :
    Sound { s with jobfile, printerName, reread, queue, printer } := by
  refine sound.print up (fun _ _ => agree_refl) (fun _ => .inl agree_refl) numbered
    (same ▸ List.Sublist.refl _)
    (fun job member => ?_) fine (List.Subset.refl _) (fun _ => .inl)
    (fun a member _ _ _ => sound.kept a member)
    (fun job member => .inl (same ▸ member)) (List.Subset.refl _)
  exact sound.rest (same ▸ member)

/-- The printer thread cannot open a file, and is done with the job. -/
theorem Sound.finish (sound : Sound s) (up : s.main ≠ .down) {job : Job}
    (at_ : s.printer.job = some job) :
    Sound (s.finish job) := by
  refine sound.print up (fun _ _ => agree_refl) (fun _ => .inl agree_refl) sound.numbered
    (by simp [Printer.job])
    (fun job' member => ?_) trivial (List.Subset.refl _) (fun _ => .inl)
    (fun a member _ _ _ => sound.kept a member)
    (fun job' member => ?_) (by simp)
  · refine sound.rest (List.mem_append_right _ ?_)
    simpa [Printer.job] using member
  · rw [at_] at member
    rcases List.mem_cons.mp member with rfl | member
    · exact .inr (by simp)
    · exact .inl (by simpa [Printer.job] using member)

/-- The printer thread removes a file of a job that is printed. -/
theorem Sound.unlinked (sound : Sound s) (up : s.main ≠ .down) {job : Job} {n : Name}
    {printer : Printer} {done : List Job} (at_ : s.printer.job = some job) (its : n.Of job.jobid)
    (stays : printer.job = none ∨ printer.job = some job ∧ n = dataName job.jobid)
    (printed : ∀ a ∈ s.past.accepted, a.job.jobid = job.jobid → IsPrinted s.past a)
    (fine : printer.Fine (s.fs.unlink n) s.printerName { s.past with done })
    (grows : s.past.done ⊆ done) (finished : printer.job = none → job ∈ done) :
    Sound { s with fs := s.fs.unlink n, printer, past := { s.past with done } } := by
  have sub : printer.job.toList.Sublist [job] := by
    rcases stays with none_ | ⟨same, -⟩ <;> simp [*]
  refine sound.print up (fun m others => ?_) (fun _ => agree_or_gone) sound.numbered ?_
    (fun job' member => ?_) fine
    (List.Subset.refl _) (fun _ => .inl) (fun a member job' at_' same => ?_)
    (fun job' member => ?_) grows
  · refine agree_unlink fun same => others job at_ (same ▸ its)
  · rw [at_]
    exact sub.append_right _
  · rcases List.mem_append.mp member with first | behind
    · rcases stays with none_ | ⟨same, rfl⟩
      · rw [none_] at first
        cases first
      · -- its control file is still there
        obtain rfl : job' = job := by simpa [same] using first
        have here : job' ∈ s.printer.job.toList ++ s.queue := by simp [at_]
        obtain ⟨bytes, text, read⟩ := sound.rest here
        exact ⟨bytes, (text_unlink_of_ne (reqsName_ne_dataName _ _)).trans text, read⟩
    · refine (sound.rest (List.mem_append_right _ behind)).agree fun m theirs => agree_unlink ?_
      rintro rfl
      exact sound.apartFrom at_ behind (theirs.unique its)
  · rw [at_, Option.some_inj] at at_'
    subst at_'
    exact .inr (printed a member same)
  · rw [at_] at member
    rcases List.mem_cons.mp member with rfl | behind
    · rcases stays with none_ | ⟨same, -⟩
      · exact .inr (finished none_)
      · exact .inl (by simp [same])
    · exact .inl (List.mem_append_right _ behind)

theorem take_append_rest {α : Type} (l : List α) (n : Nat) :
    l.take n ++ l.drop (l.take n).length = l := by
  rw [List.length_take]
  rcases Nat.le_total n l.length with short | long
  · rw [min_eq_left short, List.take_append_drop]
  · rw [min_eq_right long, List.take_of_length_le long, List.drop_length, List.append_nil]

/-! ### The next step of the printer thread -/

/-- The thread keeps its job, and the files. -/
theorem Sound.keeps (sound : Sound s) (up : s.main ≠ .down) {job : Job}
    (at_ : s.printer.job = some job) {printer : Printer} (same : printer.job = some job)
    (fine : printer.Fine s.fs s.printerName s.past) :
    Sound { s with printer } := sound.goes up sound.numbered (by rw [same, at_]) fine

variable {job : Job} {file size offset : Nat} {wire : Bytes} {answer : Answer}

theorem Sound.openData (sound : Sound s) (up : s.main ≠ .down) (at_ : s.printer = .openData job)
    (steps : s.goPrinter (.openData job) answer = some s') : Sound s' := by
  have mine : s.printer.job = some job := by rw [at_]; rfl
  cases answer with
  | ok =>
    simp only [State.goPrinter] at steps
    split at steps
    · obtain rfl := Option.some.inj steps
      exact sound.finish up mine
    next file found =>
      obtain rfl := Option.some.inj steps
      exact sound.keeps up mine rfl found
  | fails =>
    obtain rfl := Option.some.inj steps
    exact sound.finish up mine
  | _ => cases steps

theorem Sound.fstat (sound : Sound s) (up : s.main ≠ .down) (at_ : s.printer = .fstat job file)
    (steps : s.goPrinter (.fstat job file) answer = some s') : Sound s' := by
  have mine : s.printer.job = some job := by rw [at_]; rfl
  have fine := sound.printer
  rw [at_] at fine
  cases answer with
  | ok =>
    obtain rfl := Option.some.inj steps
    exact sound.keeps up mine rfl ⟨fine, rfl⟩
  | fails =>
    obtain rfl := Option.some.inj steps
    exact sound.finish up mine
  | _ => cases steps

theorem Sound.headers (sound : Sound s) (up : s.main ≠ .down)
    (at_ : s.printer = .headers job file size) (fits : (ippHeader s.printerName job).isSome)
    (steps : s.goPrinter (.headers job file size) answer = some s') : Sound s' := by
  have mine : s.printer.job = some job := by rw [at_]; rfl
  have fine := sound.printer
  rw [at_] at fine
  obtain ⟨ibuf, header⟩ := Option.isSome_iff_exists.mp fits
  obtain ⟨found, rfl⟩ := fine
  cases answer with
  | wrote n =>
    simp only [State.goPrinter, header] at steps
    split at steps
    · obtain rfl := Option.some.inj steps
      refine sound.keeps up mine (by split <;> rfl) ?_
      split
      next text => exact ⟨found, by simp [request, header, text]⟩
      next plain => exact ⟨found, by simp [request, header, plain]⟩
    · obtain rfl := Option.some.inj steps
      exact sound.keeps up mine rfl trivial
  | _ => cases steps

/-- What is left to send of the document gets shorter by a piece of it. -/
theorem Sound.read (sound : Sound s) (up : s.main ≠ .down)
    (at_ : s.printer = .read job file offset wire)
    (steps : s.goPrinter (.read job file offset wire) answer = some s') : Sound s' := by
  have mine : s.printer.job = some job := by rw [at_]; rfl
  have fine := sound.printer
  rw [at_] at fine
  obtain ⟨found, sent⟩ := fine
  cases answer with
  | ok =>
    simp only [State.goPrinter] at steps
    split at steps
    next ends =>
      obtain rfl := Option.some.inj steps
      have all : (s.fs.content file).drop offset = [] := by
        rcases List.take_eq_nil_iff.mp ends with zero | all
        · cases zero
        · exact all
      refine sound.keeps up mine rfl ⟨_, text_of_find found, ?_⟩
      simpa [all] using sent
    next =>
      obtain rfl := Option.some.inj steps
      refine sound.keeps up mine rfl ⟨found, ?_⟩
      rw [sent, ← List.drop_drop, take_append_rest]
  | fails =>
    obtain rfl := Option.some.inj steps
    exact sound.keeps up mine rfl trivial
  | _ => cases steps

/-- The printer has got the job whole. -/
theorem Sound.status (sound : Sound s) (up : s.main ≠ .down) (at_ : s.printer = .status job wire)
    (steps : s.goPrinter (.status job wire) answer = some s') : Sound s' := by
  have mine : s.printer.job = some job := by rw [at_]; rfl
  have fine := sound.printer
  rw [at_] at fine
  obtain ⟨data, text, sent⟩ := fine
  cases answer with
  | ok =>
    obtain rfl := Option.some.inj steps
    -- the document that was sent is that of the client
    have whole (a : Accepted) (member : a ∈ s.past.accepted) (same : a.job.jobid = job.jobid) :
        IsPrinted { s.past with printed := ⟨job, s.printerName, wire⟩ :: s.past.printed } a := by
      rcases sound.kept a member with spooled | printed
      · have here : job ∈ s.printer.job.toList ++ s.queue := by simp [mine]
        have its : job = a.job := (sound.rest here).unique spooled.controlled same.symm
        have document : a.data = data := by
          rw [← Option.some_inj, ← text, ← same]
          exact spooled.1.symm
        exact ⟨_, List.mem_cons_self, its, by rw [← its, document]; exact sent⟩
      · exact printed.mono (List.subset_cons_self _ _)
    refine sound.print up (fun _ _ => agree_refl) (fun _ => .inl agree_refl) sound.numbered
      (by simp [at_, Printer.job]) (fun job' member => ?_) whole (List.subset_cons_self _ _)
      (fun p member => ?_)
      (fun a member job' its same => ?_)
      (fun job' member => .inl (by simpa [at_, Printer.job] using member))
      (List.Subset.refl _)
    · exact sound.rest (by simpa [at_, Printer.job] using member)
    · rcases List.mem_cons.mp member with rfl | old
      · exact .inr ⟨mine, data, text, sent⟩
      · exact .inl old
    · rw [mine] at its
      obtain rfl := Option.some.inj its
      exact .inr (whole a member same)
  | fails =>
    obtain rfl := Option.some.inj steps
    exact sound.keeps up mine rfl trivial
  | _ => cases steps

theorem Sound.goPrinter (sound : Sound s) (up : s.main ≠ .down)
    (fits : ∀ job file size, s.printer = .headers job file size →
      (ippHeader s.printerName job).isSome)
    (steps : s.goPrinter s.printer answer = some s') : Sound s' := by
  have fine := sound.printer
  have numbered := sound.numbered
  cases at_ : s.printer with
  | waiting =>
    rw [at_] at steps
    cases answer with
    | ok =>
      simp only [State.goPrinter] at steps
      split at steps
      · cases steps
      next job queue listed =>
        obtain rfl := Option.some.inj steps
        exact sound.goes up numbered (by simp [at_, listed, Printer.job]) trivial
    | _ => cases steps
  | updateJobno job =>
    rw [at_] at steps
    cases answer with
    | ok =>
      obtain rfl := Option.some.inj steps
      refine sound.goes up ?_ (by simp [at_, Printer.job]) trivial
      exact .inr ⟨s.nextjob, sound.pos, le_refl _, numbered.write sound.pos⟩
    | _ => cases steps
  | config job =>
    rw [at_] at steps
    cases answer with
    | named printerName =>
      obtain rfl := Option.some.inj steps
      exact sound.goes up numbered (by simp [at_, Printer.job]) trivial
    | _ => cases steps
  | openData job => exact sound.openData up at_ (by rwa [at_] at steps)
  | fstat job file => exact sound.fstat up at_ (by rwa [at_] at steps)
  | connect job file size =>
    rw [at_] at steps fine
    cases answer with
    | ok =>
      obtain rfl := Option.some.inj steps
      exact sound.keeps up (by rw [at_]; rfl) rfl fine
    | fails =>
      obtain rfl := Option.some.inj steps
      exact sound.keeps up (by rw [at_]; rfl) rfl trivial
    | _ => cases steps
  | headers job file size =>
    exact sound.headers up at_ (fits job file size at_) (by rwa [at_] at steps)
  | backspace job file wire =>
    rw [at_] at steps fine
    cases answer with
    | ok =>
      obtain rfl := Option.some.inj steps
      exact sound.keeps up (by rw [at_]; rfl) rfl ⟨fine.1, by simp [fine.2]⟩
    | fails =>
      obtain rfl := Option.some.inj steps
      exact sound.keeps up (by rw [at_]; rfl) rfl trivial
    | _ => cases steps
  | read job file offset wire => exact sound.read up at_ (by rwa [at_] at steps)
  | write job file offset chunk wire =>
    rw [at_] at steps fine
    cases answer with
    | ok =>
      obtain rfl := Option.some.inj steps
      exact sound.keeps up (by rw [at_]; rfl) rfl ⟨fine.1, by simp [fine.2]⟩
    | fails =>
      obtain rfl := Option.some.inj steps
      exact sound.keeps up (by rw [at_]; rfl) rfl trivial
    | _ => cases steps
  | status job wire => exact sound.status up at_ (by rwa [at_] at steps)
  | unlinkData job =>
    rw [at_] at steps fine
    cases answer with
    | ok =>
      obtain rfl := Option.some.inj steps
      exact sound.unlinked up (by rw [at_]; rfl) (dataName_of _) (.inr ⟨rfl, rfl⟩) fine fine
        (List.Subset.refl _)
        (by simp [Printer.job])
    | _ => cases steps
  | unlinkReqs job =>
    rw [at_] at steps fine
    cases answer with
    | ok =>
      obtain rfl := Option.some.inj steps
      exact sound.unlinked up (by rw [at_]; rfl) (reqsName_of _) (.inl rfl) fine trivial
        (by simp) (by simp)
    | _ => cases steps
  | replace job =>
    rw [at_] at steps
    cases answer with
    | ok =>
      obtain rfl := Option.some.inj steps
      exact sound.goes up numbered (by simp [at_, Printer.job]) trivial
    | _ => cases steps

end Apue.Printd
