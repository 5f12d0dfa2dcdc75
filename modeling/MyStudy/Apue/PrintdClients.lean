import MyStudy.Apue.PrintdSound

/-!
# Clients

What a client thread does keeps what the others know: its number is new, and its files are its own
until the job is on the list.
-/
namespace Apue.Printd

open Directory

variable {Tid : Type} [DecidableEq Tid] {s s' : State Tid} {t : Tid}

theorem setClient_self (s : State Tid) (t : Tid) (x : Client) : (s.setClient t x).clients t = x :=
  Function.update_self _ _ _

theorem setClient_of_ne {u : Tid} (s : State Tid) (x : Client) (other : u ≠ t) :
    (s.setClient t x).clients u = s.clients u := Function.update_of_ne other _ _

omit [DecidableEq Tid] in
theorem Sound.serving (sound : Sound s) (busy : s.clients t ≠ .idle) : s.main = .serving := by
  by_contra other
  exact busy (sound.quiet other t)

omit [DecidableEq Tid] in
/-- Nobody else has files of the job of a client. -/
theorem agree_foreign {fs : Directory Name} {jobid : Int}
    (others : ∀ n, (∀ jobid, (s.clients t).jobid = some jobid → ¬ n.Of jobid) → Agree s.fs fs n)
    (foreign : (s.clients t).jobid ≠ some jobid) : ∀ n : Name, n.Of jobid → Agree s.fs fs n := by
  intro n its
  apply others
  intro jobid' mine its'
  exact foreign (its.unique its' ▸ mine)

/-- A client thread does something to its own files and goes on. -/
theorem Sound.setClient (sound : Sound s) (serving : s.main = .serving) {x : Client}
    {fs : Directory Name}
    (others : ∀ n, (∀ jobid, (s.clients t).jobid = some jobid → ¬ n.Of jobid) → Agree s.fs fs n)
    (same : ∀ jobid, x.jobid = some jobid → (s.clients t).jobid = some jobid) (fine : x.Fine fs)
    (recorded : Recorded fs s.past) (early : (s.clients t).whole = none) (still : x.whole = none) :
    Sound ({ s with fs }.setClient t x) := by
  have work (job : Job) (member : job ∈ s.work) : (s.clients t).jobid ≠ some job.jobid := by
    intro mine
    exact (sound.client t _ mine).2.2 (List.mem_map_of_mem member)
  refine { sound with
    names := fun n found => ?_
    quiet := fun other => absurd serving other
    client := fun u jobid mine => ?_
    apart := fun u v jobid first second => ?_
    fine := fun u => ?_
    fresh := fun u jobid mine early' => ?_
    whole := fun u a its => ?_
    work := fun job member => ?_
    printer := ?_
    recorded := recorded
    kept := fun a member => ?_
    own := fun a member => ?_
    printed := fun p member => ?_
    atHand := fun up a member => ?_ }
  · by_cases its : ∃ jobid, (s.clients t).jobid = some jobid ∧ n.Of jobid
    · obtain ⟨jobid, mine, its⟩ := its
      have range := sound.client t jobid mine
      exact ⟨jobid, range.1, range.2.1, its⟩
    · rw [not_exists] at its
      have agree := (others n fun jobid mine its' => its jobid ⟨mine, its'⟩).1
      exact sound.names n (agree ▸ found)
  · by_cases its : u = t
    · rw [its, setClient_self] at mine
      exact sound.client t jobid (same jobid mine)
    · rw [setClient_of_ne _ _ its] at mine
      exact sound.client u jobid mine
  · have before (w : Tid) (mine : (({ s with fs }.setClient t x).clients w).jobid = some jobid) :
        (s.clients w).jobid = some jobid := by
      by_cases its : w = t
      · rw [its, setClient_self] at mine
        exact its ▸ same jobid mine
      · rwa [setClient_of_ne _ _ its] at mine
    exact sound.apart u v jobid (before u first) (before v second)
  · by_cases its : u = t
    · rw [its, setClient_self]
      exact fine
    · rw [setClient_of_ne _ _ its]
      refine (sound.fine u).agree fun jobid mine => agree_foreign others fun mine' => ?_
      exact its (sound.apart u t jobid mine mine')
  · by_cases its : u = t
    · rw [its, setClient_self] at mine
      exact sound.fresh t jobid (same jobid mine) early
    · rw [setClient_of_ne _ _ its] at mine early'
      exact sound.fresh u jobid mine early'
  · by_cases here : u = t
    · rw [here, setClient_self, still] at its
      cases its
    · rw [setClient_of_ne _ _ here] at its
      exact sound.whole u a its
  · obtain ⟨pos, range, controlled⟩ := sound.work job member
    exact ⟨pos, range, controlled.agree (agree_foreign others (work job member))⟩
  · refine sound.printer.agree fun job its => agree_foreign others (work job ?_)
    simp [State.work, its]
  · rcases sound.kept a member with spooled | printed
    · refine .inl (spooled.agree (agree_foreign others fun mine => ?_))
      exact sound.fresh t _ mine early a (sound.accepted a member) rfl
    · exact .inr printed
  · exact (sound.own a member).agree
      (agree_foreign others fun mine => sound.fresh t _ mine early a member rfl)
  · obtain ⟨below, foreign, delivered⟩ := sound.printed p member
    refine ⟨below, fun u mine => ?_, delivered⟩
    by_cases its : u = t
    · rw [its, setClient_self] at mine
      exact foreign t (same _ mine)
    · rw [setClient_of_ne _ _ its] at mine
      exact foreign u mine
  · rcases sound.atHand up a member with printed | here | done | ⟨u, adds⟩ | entry
    · exact .inl printed
    · exact .inr (.inl here)
    · exact .inr (.inr (.inl done))
    · refine .inr (.inr (.inr (.inl ⟨u, ?_⟩)))
      have other : u ≠ t := by
        rintro rfl
        rw [Client.adding_eq_none early] at adds
        cases adds
      rwa [setClient_of_ne _ _ other]
    · exact .inr (.inr (.inr (.inr entry)))

/-- A client gets a number that nobody has. -/
theorem Sound.number (sound : Sound s) {req : Printreq} (at_ : s.clients t = .number req)
    (range : s.nextjob + 1 < 2 ^ 31) :
    Sound ({ s with nextjob := increment s.nextjob }.setClient t (.creatData req s.nextjob)) := by
  have pos := sound.pos
  have serving := sound.serving (t := t) (by simp [at_])
  rw [increment_eq pos range]
  have new (job : Job) (member : job ∈ s.work) : job.jobid ≠ s.nextjob :=
    (sound.work job member).2.1.ne
  have before (u : Tid) (jobid : Int)
      (mine :
        (({ s with nextjob := s.nextjob + 1 }.setClient t (.creatData req s.nextjob)).clients
        u).jobid =
        some jobid) :
      u = t ∧ jobid = s.nextjob ∨ u ≠ t ∧ (s.clients u).jobid = some jobid := by
    by_cases its : u = t
    · rw [its, setClient_self] at mine
      exact .inl ⟨its, (Option.some.inj mine).symm⟩
    · rw [setClient_of_ne _ _ its] at mine
      exact .inr ⟨its, mine⟩
  refine { sound with
    pos := by change 0 < s.nextjob + 1; omega
    range := range
    numbered := sound.numbered.mono (by simp [State.setClient])
    down := fun down => by rw [show s.main = .down from down] at serving; cases serving
    names := fun n found => ?_
    quiet := fun other => absurd serving other
    client := fun u jobid mine => ?_
    apart := fun u v jobid first second => ?_
    fine := fun u => ?_
    fresh := fun u jobid mine early => ?_
    whole := fun u a its => ?_
    work := fun job member => ?_
    entries := fun dName member => ?_
    received := fun a member => ?_
    printed := fun p member => ?_
    atHand := fun up a member => ?_ }
  · obtain ⟨jobid, some_, below, its⟩ := sound.names n found
    exact ⟨jobid, some_, below.trans (by simp [State.setClient]), its⟩
  · rcases before u jobid mine with ⟨-, rfl⟩ | ⟨-, mine⟩
    · refine ⟨pos, by simp [State.setClient], fun member => ?_⟩
      obtain ⟨job, member, its⟩ := List.mem_map.mp member
      exact new job member its
    · obtain ⟨some_, below, notWork⟩ := sound.client u jobid mine
      exact ⟨some_, below.trans (by simp [State.setClient]), notWork⟩
  · rcases before u jobid first with ⟨rfl, rfl⟩ | ⟨-, mine⟩ <;>
      rcases before v _ second with ⟨rfl, same⟩ | ⟨-, mine'⟩
    · rfl
    · exact absurd (sound.client v _ mine').2.1 (lt_irrefl _)
    · rw [same] at mine
      exact absurd (sound.client u _ mine).2.1 (lt_irrefl _)
    · exact sound.apart u v jobid mine mine'
  · by_cases its : u = t
    · rw [its, setClient_self]
      trivial
    · rw [setClient_of_ne _ _ its]
      exact sound.fine u
  · rcases before u jobid mine with ⟨-, rfl⟩ | ⟨other, mine⟩
    · exact fun a member => (sound.received a member).2.ne
    · rw [setClient_of_ne _ _ other] at early
      exact sound.fresh u jobid mine early
  · by_cases here : u = t
    · rw [here, setClient_self] at its
      cases its
    · rw [setClient_of_ne _ _ here] at its
      exact sound.whole u a its
  · obtain ⟨some_, below, controlled⟩ := sound.work job member
    exact ⟨some_, below.trans (by simp [State.setClient]), controlled⟩
  · obtain ⟨jobid, some_, below, rest⟩ := sound.entries dName member
    exact ⟨jobid, some_, below.trans (by simp [State.setClient]), rest⟩
  · obtain ⟨some_, below⟩ := sound.received a member
    exact ⟨some_, below.trans (by simp [State.setClient])⟩
  · obtain ⟨below, foreign, delivered⟩ := sound.printed p member
    refine ⟨below.trans (by simp [State.setClient]), fun u mine => ?_, delivered⟩
    rcases before u _ mine with ⟨-, same⟩ | ⟨-, mine⟩
    · exact below.ne same
    · exact foreign u mine
  · rcases sound.atHand up a member with printed | here | done | ⟨u, adds⟩ | entry
    · exact .inl printed
    · exact .inr (.inl here)
    · exact .inr (.inr (.inl done))
    · refine .inr (.inr (.inr (.inl ⟨u, ?_⟩)))
      have other : u ≠ t := by
        rintro rfl
        rw [at_] at adds
        cases adds
      rwa [setClient_of_ne _ _ other]
    · exact .inr (.inr (.inr (.inr entry)))

/-- The control file of a client is written whole. -/
theorem Sound.receive (sound : Sound s) {req : Printreq} {jobid : Int} {file : Nat} {got : Bytes}
    (at_ : s.clients t = .writeReqs req jobid file got) :
    Sound ({ s with
      fs := s.fs.write file 0 req.image
      past := { s.past with received := ⟨⟨jobid, req⟩, got⟩ :: s.past.received } }.setClient t
      (.respond req jobid got)) := by
  have serving := sound.serving (t := t) (by simp [at_])
  have mine : (s.clients t).jobid = some jobid := by rw [at_]; rfl
  have fine := sound.fine t
  rw [at_] at fine
  obtain ⟨data, found, none_⟩ := fine
  have agree (n : Name) (other : n ≠ reqsName jobid) : Agree s.fs (s.fs.write file 0 req.image) n :=
    agree_write found other
  have content : s.fs.content file = [] := Option.some.inj ((text_of_find found).symm.trans none_)
  have text : (s.fs.write file 0 req.image).text (reqsName jobid) = some req.image := by
    rw [write_end (by rw [content]; rfl), text_put_self found, content, List.nil_append]
  have spooled : Spooled (s.fs.write file 0 req.image) ⟨⟨jobid, req⟩, got⟩ :=
    ⟨(agree _ (dataName_ne_reqsName _ _)).2.trans data, text⟩
  -- the number is that of no other job
  have foreign {n : Name} {jobid' : Int} (other : jobid' ≠ jobid) (its : n.Of jobid') :
      Agree s.fs (s.fs.write file 0 req.image) n := by
    refine agree n ?_
    rintro rfl
    exact other (its.unique (reqsName_of jobid))
  have new (a : Accepted) (member : a ∈ s.past.received) : a.job.jobid ≠ jobid :=
    sound.fresh t jobid mine (by rw [at_]; rfl) a member
  have notWork (job : Job) (member : job ∈ s.work) : job.jobid ≠ jobid := by
    rintro rfl
    exact (sound.client t _ mine).2.2 (List.mem_map_of_mem member)
  have before (u : Tid) (jobid' : Int)
      (its : (({ s with
        fs := s.fs.write file 0 req.image
        past := { s.past with received := ⟨⟨jobid, req⟩, got⟩ :: s.past.received } }.setClient t
          (.respond req jobid got)).clients u).jobid = some jobid') :
            (s.clients u).jobid = some jobid' := by
    by_cases same : u = t
    · rw [same, setClient_self] at its
      exact same ▸ mine.trans its
    · rwa [setClient_of_ne _ _ same] at its
  refine { sound with
    names := fun n found' => ?_
    quiet := fun other => absurd serving other
    client := fun u jobid' its => sound.client u jobid' (before u jobid' its)
    apart :=
      fun u v jobid' first second => sound.apart u v jobid' (before u _ first) (before v _ second)
    fine := fun u => ?_
    fresh := fun u jobid' its early a member => ?_
    whole := fun u a its => ?_
    work := fun job member => ?_
    printer := ?_
    received := fun a member => ?_
    recorded := fun job controlled => ?_
    accepted := fun a member => List.mem_cons_of_mem _ (sound.accepted a member)
    kept := fun a member => ?_
    own := fun a member => ?_
    printed := fun p member => ?_
    atHand := fun up a member => ?_ }
  · exact sound.names n (by rwa [← find_write])
  · by_cases its : u = t
    · rw [its, setClient_self]
      exact spooled
    · rw [setClient_of_ne _ _ its]
      refine (sound.fine u).agree fun jobid' theirs n its' => foreign ?_ its'
      rintro rfl
      exact its (sound.apart u t _ theirs mine)
  · by_cases same : u = t
    · rw [same, setClient_self] at early
      cases early
    · rw [setClient_of_ne _ _ same] at its early
      rcases List.mem_cons.mp member with rfl | member
      · rintro rfl
        exact same (sound.apart u t _ its mine)
      · exact sound.fresh u jobid' its early a member
  · by_cases same : u = t
    · rw [same, setClient_self] at its
      exact Option.some.inj its ▸ List.mem_cons_self
    · rw [setClient_of_ne _ _ same] at its
      exact List.mem_cons_of_mem _ (sound.whole u a its)
  · obtain ⟨pos, range, controlled⟩ := sound.work job member
    exact ⟨pos, range, controlled.agree fun n its => foreign (notWork job member) its⟩
  · have kept : s.printer.Fine (s.fs.write file 0 req.image) s.printerName s.past :=
      sound.printer.agree fun job its n its' =>
        foreign (notWork job (by simp [State.work, its])) its'
    cases at' : s.printer <;> simpa [at', Printer.Fine, IsPrinted] using at' ▸ kept
  · rcases List.mem_cons.mp member with rfl | member
    · exact ⟨(sound.client t _ mine).1, (sound.client t _ mine).2.1⟩
    · exact sound.received a member
  · by_cases same : job.jobid = jobid
    · exact ⟨_, List.mem_cons_self, (spooled.controlled.unique controlled same.symm)⟩
    · obtain ⟨bytes, text', read⟩ := controlled
      obtain ⟨a, member, its⟩ := sound.recorded job
        ⟨bytes, (foreign same (reqsName_of _)).2.symm.trans text', read⟩
      exact ⟨a, List.mem_cons_of_mem _ member, its⟩
  · rcases sound.kept a member with spooled' | printed
    · exact .inl (spooled'.agree fun n its => foreign (new a (sound.accepted a member)) its)
    · exact .inr printed
  · rcases List.mem_cons.mp member with rfl | member
    · exact spooled.own
    · exact (sound.own a member).agree fun n its => foreign (new a member) its
  · obtain ⟨below, others, a, member', same, sent, all⟩ := sound.printed p member
    refine ⟨below, fun u its => others u (before u _ its), a,
      List.mem_cons_of_mem _ member', same, sent,
      fun b member'' same' => ?_⟩
    rcases List.mem_cons.mp member'' with rfl | member''
    · exact absurd (mine.trans (congrArg some same')) (others t)
    · exact all b member'' same'
  · rcases sound.atHand up a member with printed | here | done | ⟨u, adds⟩ | entry
    · exact .inl printed
    · exact .inr (.inl here)
    · exact .inr (.inr (.inl done))
    · refine .inr (.inr (.inr (.inl ⟨u, ?_⟩)))
      have other : u ≠ t := by
        rintro rfl
        rw [at_] at adds
        cases adds
      rwa [setClient_of_ne _ _ other]
    · exact .inr (.inr (.inr (.inr entry)))

/-- A client is told the number of its job. -/
theorem Sound.respond (sound : Sound s) {req : Printreq} {jobid : Int} {got : Bytes}
    (at_ : s.clients t = .respond req jobid got) :
    Sound ({ s with
      past := { s.past with accepted := ⟨⟨jobid, req⟩, got⟩ :: s.past.accepted } }.setClient t
        (.addJob req jobid got)) := by
  have serving := sound.serving (t := t) (by simp [at_])
  have mine : (s.clients t).jobid = some jobid := by rw [at_]; rfl
  have spooled : Spooled s.fs ⟨⟨jobid, req⟩, got⟩ := by
    have fine := sound.fine t
    rwa [at_] at fine
  have known : (⟨⟨jobid, req⟩, got⟩ : Accepted) ∈ s.past.received :=
    sound.whole t _ (by rw [at_]; rfl)
  have before (u : Tid) (jobid' : Int)
      (its :
        (({ s with
          past := { s.past with accepted := ⟨⟨jobid, req⟩, got⟩ :: s.past.accepted } }.setClient t
            (.addJob req jobid got)).clients u).jobid = some jobid') :
          (s.clients u).jobid = some jobid' := by
    by_cases same : u = t
    · rw [same, setClient_self] at its
      exact same ▸ mine.trans its
    · rwa [setClient_of_ne _ _ same] at its
  -- the printer thread has another job
  have printer : s.printer.Fine s.fs s.printerName
      { s.past with accepted := ⟨⟨jobid, req⟩, got⟩ :: s.past.accepted } := by
    have fine := sound.printer
    have foreign (job : Job) (its : s.printer.job = some job) : jobid ≠ job.jobid := by
      rintro rfl
      exact (sound.client t _ mine).2.2 (List.mem_map_of_mem (by simp [State.work, its]))
    cases at_ : s.printer with
    | unlinkData job | unlinkReqs job =>
      rw [at_] at fine foreign
      intro a member same
      rcases List.mem_cons.mp member with rfl | member
      · exact absurd same (foreign job rfl)
      · exact fine a member same
    | _ =>
      rw [at_] at fine
      exact fine
  refine { sound with
    quiet := fun other => absurd serving other
    client := fun u jobid' its => sound.client u jobid' (before u jobid' its)
    apart :=
      fun u v jobid' first second => sound.apart u v jobid' (before u _ first) (before v _ second)
    fine := fun u => ?_
    fresh := fun u jobid' its early => ?_
    whole := fun u a its => ?_
    drops := fun dName drops => ?_
    printer := printer
    accepted := fun a member => ?_
    kept := fun a member => ?_
    printed := fun p member => ?_
    atHand := fun up a member => ?_ }
  · by_cases its : u = t
    · rw [its, setClient_self]
      exact spooled
    · rw [setClient_of_ne _ _ its]
      exact sound.fine u
  · by_cases same : u = t
    · rw [same, setClient_self] at early
      cases early
    · rw [setClient_of_ne _ _ same] at its early
      exact sound.fresh u jobid' its early
  · by_cases same : u = t
    · rw [same, setClient_self] at its
      exact Option.some.inj its ▸ known
    · rw [setClient_of_ne _ _ same] at its
      exact sound.whole u a its
  · change s.main.drops = some dName at drops
    rw [serving] at drops
    cases drops
  · rcases List.mem_cons.mp member with rfl | member
    · exact known
    · exact sound.accepted a member
  · rcases List.mem_cons.mp member with rfl | member
    · exact .inl spooled
    · exact sound.kept a member
  · obtain ⟨below, foreign, delivered⟩ := sound.printed p member
    exact ⟨below, fun u its => foreign u (before u _ its), delivered⟩
  · rcases List.mem_cons.mp member with rfl | member
    · refine .inr (.inr (.inr (.inl ⟨t, ?_⟩)))
      rw [setClient_self]
      rfl
    · rcases sound.atHand up a member with printed | here | done | ⟨u, adds⟩ | entry
      · exact .inl printed
      · exact .inr (.inl here)
      · exact .inr (.inr (.inl done))
      · refine .inr (.inr (.inr (.inl ⟨u, ?_⟩)))
        have other : u ≠ t := by
          rintro rfl
          rw [at_] at adds
          cases adds
        rwa [setClient_of_ne _ _ other]
      · exact .inr (.inr (.inr (.inr entry)))

omit [DecidableEq Tid] in
theorem work_addJob (s : State Tid) (job : Job) : (s.addJob job).work = s.work ++ [job] := by
  simp [State.work, State.addJob]

/-- A client puts its job on the list. -/
theorem Sound.addJob (sound : Sound s) {req : Printreq} {jobid : Int} {got : Bytes}
    (at_ : s.clients t = .addJob req jobid got) :
    Sound ((s.addJob ⟨jobid, req⟩).setClient t .idle) := by
  have serving := sound.serving (t := t) (by simp [at_])
  have mine : (s.clients t).jobid = some jobid := by rw [at_]; rfl
  have spooled : Spooled s.fs ⟨⟨jobid, req⟩, got⟩ := by
    have fine := sound.fine t
    rwa [at_] at fine
  have range := sound.client t jobid mine
  have work : ((s.addJob ⟨jobid, req⟩).setClient t .idle).work = s.work ++ [⟨jobid, req⟩] :=
    work_addJob s _
  have before (u : Tid) (jobid' : Int)
      (its : (((s.addJob ⟨jobid, req⟩).setClient t .idle).clients u).jobid = some jobid') :
      u ≠ t ∧ (s.clients u).jobid = some jobid' := by
    by_cases same : u = t
    · rw [same, setClient_self] at its
      cases its
    · rw [setClient_of_ne _ _ same] at its
      exact ⟨same, its⟩
  refine { sound with
    down := fun down => by rw [show s.main = .down from down] at serving; cases serving
    quiet := fun other => absurd serving other
    client := fun u jobid' its => ?_
    apart :=
      fun u v jobid' first second =>
      sound.apart u v jobid' (before u _ first).2 (before v _ second).2
    fine := fun u => ?_
    fresh := fun u jobid' its early => ?_
    whole := fun u a its => ?_
    work := fun job member => ?_
    once := ?_
    entries := fun dName member => ?_
    printed := fun p member => ?_
    atHand := fun up a member => ?_ }
  · obtain ⟨other, theirs⟩ := before u jobid' its
    obtain ⟨some_, below, notWork⟩ := sound.client u jobid' theirs
    refine ⟨some_, below, ?_⟩
    rw [work, List.map_append, List.mem_append, not_or]
    refine ⟨notWork, fun same => ?_⟩
    rw [List.map_singleton, List.mem_singleton] at same
    exact other (sound.apart u t _ (theirs.trans (congrArg some same)) mine)
  · by_cases its : u = t
    · rw [its, setClient_self]
      trivial
    · rw [setClient_of_ne _ _ its]
      exact sound.fine u
  · obtain ⟨other, theirs⟩ := before u jobid' its
    rw [setClient_of_ne _ _ other] at early
    exact sound.fresh u jobid' theirs early
  · by_cases same : u = t
    · rw [same, setClient_self] at its
      cases its
    · rw [setClient_of_ne _ _ same] at its
      exact sound.whole u a its
  · rw [work] at member
    rcases List.mem_append.mp member with old | new
    · exact sound.work job old
    · rw [List.mem_singleton.mp new]
      exact ⟨range.1, range.2.1, spooled.controlled⟩
  · rw [work, List.map_append, List.nodup_append]
    refine ⟨sound.once, by simp, fun jobid' old _ new => ?_⟩
    rw [List.map_singleton, List.mem_singleton] at new
    rw [new]
    rintro rfl
    exact range.2.2 old
  · change dName ∈ s.main.drops.toList ++ s.main.entries at member
    rw [serving] at member
    cases member
  · obtain ⟨below, foreign, delivered⟩ := sound.printed p member
    exact ⟨below, fun u its => foreign u (before u _ its).2, delivered⟩
  · rcases sound.atHand up a member with printed | here | done | ⟨u, adds⟩ | entry
    · exact .inl printed
    · refine .inr (.inl ?_)
      rw [work]
      exact List.mem_append_left _ here
    · exact .inr (.inr (.inl done))
    · by_cases its : u = t
      · rw [its, at_] at adds
        refine .inr (.inl ?_)
        rw [work, ← Option.some.inj adds]
        simp
      · refine .inr (.inr (.inr (.inl ⟨u, ?_⟩)))
        rwa [setClient_of_ne _ _ its]
    · exact .inr (.inr (.inr (.inr entry)))

/-! ### The next step of a client thread -/

/-- A client thread goes on, and leaves the files as they are. -/
theorem Sound.moves (sound : Sound s) (busy : s.clients t ≠ .idle) {x : Client}
    (same : ∀ jobid, x.jobid = some jobid → (s.clients t).jobid = some jobid) (fine : x.Fine s.fs)
    (early : (s.clients t).whole = none) (still : x.whole = none) : Sound (s.setClient t x) :=
  sound.setClient (sound.serving busy) (fun _ _ => agree_refl) same fine sound.recorded early still

/-- It does something to its files, but for a control file that can be read. -/
theorem Sound.files (sound : Sound s) {jobid : Int} (mine : (s.clients t).jobid = some jobid)
    {x : Client} {fs : Directory Name} (agree : ∀ n : Name, ¬ n.Of jobid → Agree s.fs fs n)
    (same : ∀ jobid', x.jobid = some jobid' → jobid' = jobid) (fine : x.Fine fs)
    (recorded : Recorded fs s.past) (early : (s.clients t).whole = none) (still : x.whole = none) :
    Sound ({ s with fs }.setClient t x) := by
  have busy : s.clients t ≠ .idle := fun idle => by simp [idle, Client.jobid] at mine
  refine sound.setClient (sound.serving busy) (fun n others => agree n (others jobid mine))
    (fun jobid' its => ?_)
    fine recorded early still
  rw [same jobid' its]
  exact mine

variable {req : Printreq} {jobid : Int} {got : Bytes} {answer : Answer}

theorem Sound.creatData (sound : Sound s) (at_ : s.clients t = .creatData req jobid)
    (steps : s.goClient t (.creatData req jobid) answer = some s') : Sound s' := by
  cases answer with
  | ok =>
    obtain rfl := Option.some.inj steps
    have agree (n : Name) (other : n ≠ dataName jobid) :
        Agree s.fs (s.fs.creat (dataName jobid)).1 n :=
      agree_creat other
    refine sound.files (by rw [at_]; rfl) (fun n other => agree n fun same => other (.inl same))
      (by simp [Client.jobid]) ⟨find_creat_self, text_creat_self⟩
      (sound.recorded.shrinks fun i => .inl ?_)
      (by rw [at_]; rfl) rfl
    exact agree _ (reqsName_ne_dataName _ _)
  | fails =>
    obtain rfl := Option.some.inj steps
    exact sound.moves (by simp [at_]) (by simp [Client.jobid]) trivial (by rw [at_]; rfl) rfl
  | _ => cases steps

theorem Sound.reading (sound : Sound s) {file : Nat} {first : Bool}
    (at_ : s.clients t = .reading req jobid file first got)
    (steps : s.goClient t (.reading req jobid file first got) answer = some s') : Sound s' := by
  have fine := sound.fine t
  rw [at_] at fine
  cases answer with
  | got bytes stale =>
    simp only [State.goClient] at steps
    split at steps
    · obtain rfl := Option.some.inj steps
      exact sound.moves (by simp [at_]) (by simp [at_, Client.jobid]) fine.2 (by rw [at_]; rfl) rfl
    · split at steps
      · cases steps
      · obtain rfl := Option.some.inj steps
        exact sound.moves (by simp [at_]) (by simp [at_, Client.jobid]) fine (by rw [at_]; rfl) rfl
  | _ => cases steps

/-- The document grows by what was read, or is to be removed. -/
theorem Sound.writing (sound : Sound s) {file : Nat} {chunk : Bytes}
    (at_ : s.clients t = .writing req jobid file got chunk)
    (steps : s.goClient t (.writing req jobid file got chunk) answer = some s') : Sound s' := by
  have fine := sound.fine t
  rw [at_] at fine
  have mine : (s.clients t).jobid = some jobid := by rw [at_]; rfl
  have agree (bytes : Bytes) (n : Name) (other : n ≠ dataName jobid) :
      Agree s.fs (s.fs.write file got.length bytes) n := agree_write fine.1 other
  have recorded (bytes : Bytes) : Recorded (s.fs.write file got.length bytes) s.past :=
    sound.recorded.shrinks fun i => .inl (agree bytes _ (reqsName_ne_dataName _ _))
  cases answer with
  | wrote n =>
    simp only [State.goClient] at steps
    split at steps
    · obtain rfl := Option.some.inj steps
      refine sound.files mine (fun n other => agree chunk n fun same => other (.inl same))
        (by simp [Client.jobid])
        ⟨fine.1, ?_⟩ (recorded chunk) (by rw [at_]; rfl) rfl
      have content : s.fs.content file = got :=
        Option.some.inj ((text_of_find fine.1).symm.trans fine.2)
      rw [write_end (by rw [content]), text_put_self fine.1, content]
    · split at steps
      · obtain rfl := Option.some.inj steps
        exact sound.files mine (fun n other => agree _ n fun same => other (.inl same))
          (by simp [Client.jobid])
          trivial (recorded _) (by rw [at_]; rfl) rfl
      · cases steps
  | fails =>
    obtain rfl := Option.some.inj steps
    exact sound.moves (by simp [at_]) (by simp [at_, Client.jobid]) trivial (by rw [at_]; rfl) rfl
  | _ => cases steps

/-- The control file is there, and empty. -/
theorem Sound.creatReqs (sound : Sound s) (at_ : s.clients t = .creatReqs req jobid got)
    (steps : s.goClient t (.creatReqs req jobid got) answer = some s') : Sound s' := by
  have fine := sound.fine t
  rw [at_] at fine
  cases answer with
  | ok =>
    obtain rfl := Option.some.inj steps
    have agree (n : Name) (other : n ≠ reqsName jobid) :
        Agree s.fs (s.fs.creat (reqsName jobid)).1 n :=
      agree_creat other
    refine sound.files (by rw [at_]; rfl) (fun n other => agree n fun same => other (.inr same))
      (by simp [Client.jobid]) ⟨?_, find_creat_self, text_creat_self⟩
      (sound.recorded.short agree text_creat_self (by decide)) (by rw [at_]; rfl) rfl
    exact (text_creat_of_ne (dataName_ne_reqsName _ _)).trans fine
  | fails =>
    obtain rfl := Option.some.inj steps
    exact sound.moves (by simp [at_]) (by simp [at_, Client.jobid]) trivial (by rw [at_]; rfl) rfl
  | _ => cases steps

theorem Sound.writeReqs (sound : Sound s) {file : Nat}
    (at_ : s.clients t = .writeReqs req jobid file got)
    (steps : s.goClient t (.writeReqs req jobid file got) answer = some s') : Sound s' := by
  have fine := sound.fine t
  rw [at_] at fine
  obtain ⟨-, found, none_⟩ := fine
  cases answer with
  | wrote n =>
    simp only [State.goClient] at steps
    split at steps
    · obtain rfl := Option.some.inj steps
      exact sound.receive at_
    · split at steps
      next fewer =>
        obtain rfl := Option.some.inj steps
        have agree (m : Name) (other : m ≠ reqsName jobid) :
            Agree s.fs (s.fs.write file 0 (req.image.take n)) m := agree_write found other
        have content : s.fs.content file = [] :=
          Option.some.inj ((text_of_find found).symm.trans none_)
        have text : (s.fs.write file 0 (req.image.take n)).text (reqsName jobid) =
            some (req.image.take n) := by
          rw [write_end (by rw [content]; rfl), text_put_self found, content, List.nil_append]
        exact sound.files (by rw [at_]; rfl) (fun m other => agree m fun same => other (.inr same))
          (by simp [Client.jobid]) trivial
          (sound.recorded.short agree text (by rw [List.length_take]; omega)) (by rw [at_]; rfl) rfl
      next => cases steps
  | fails =>
    obtain rfl := Option.some.inj steps
    exact sound.moves (by simp [at_]) (by simp [at_, Client.jobid]) trivial (by rw [at_]; rfl) rfl
  | _ => cases steps

/-- A client thread removes one of its files. -/
theorem Sound.removes (sound : Sound s) (mine : (s.clients t).jobid = some jobid) {n : Name}
    (its : n.Of jobid) {x : Client} (same : ∀ jobid', x.jobid = some jobid' → jobid' = jobid)
    (fine : x.Fine (s.fs.unlink n)) (early : (s.clients t).whole = none) (still : x.whole = none) :
    Sound ({ s with fs := s.fs.unlink n }.setClient t x) := by
  refine sound.files mine (fun m other => agree_unlink ?_) same fine
    (sound.recorded.shrinks fun i => agree_or_gone) early still
  rintro rfl
  exact other its

/-- The next step of a client thread. -/
theorem Sound.goClient (sound : Sound s)
    (range : ∀ req, s.clients t = .number req → s.nextjob + 1 < 2 ^ 31)
    (steps : s.goClient t (s.clients t) answer = some s') : Sound s' := by
  cases at_ : s.clients t with
  | idle =>
    rw [at_] at steps
    cases answer <;> cases steps
  | header =>
    rw [at_] at steps
    cases answer with
    | got bytes stale =>
      simp only [State.goClient] at steps
      split at steps
      all_goals
        obtain rfl := Option.some.inj steps
        exact sound.moves (by simp [at_]) (by simp [Client.jobid]) trivial (by rw [at_]; rfl) rfl
    | _ => cases steps
  | number req =>
    rw [at_] at steps
    cases answer with
    | ok =>
      obtain rfl := Option.some.inj steps
      exact sound.number at_ (range req at_)
    | _ => cases steps
  | creatData req jobid => exact sound.creatData at_ (by rwa [at_] at steps)
  | reading req jobid file first got => exact sound.reading at_ (by rwa [at_] at steps)
  | writing req jobid file got chunk => exact sound.writing at_ (by rwa [at_] at steps)
  | creatReqs req jobid got => exact sound.creatReqs at_ (by rwa [at_] at steps)
  | writeReqs req jobid file got => exact sound.writeReqs at_ (by rwa [at_] at steps)
  | respond req jobid got =>
    rw [at_] at steps
    cases answer with
    | ok =>
      obtain rfl := Option.some.inj steps
      exact sound.respond at_
    | _ => cases steps
  | addJob req jobid got =>
    rw [at_] at steps
    cases answer with
    | ok =>
      obtain rfl := Option.some.inj steps
      exact sound.addJob at_
    | _ => cases steps
  | unlinkReqs jobid =>
    rw [at_] at steps
    cases answer with
    | ok =>
      obtain rfl := Option.some.inj steps
      exact sound.removes (by rw [at_]; rfl) (reqsName_of jobid) (by simp [Client.jobid]) trivial
        (by rw [at_]; rfl)
        rfl
    | _ => cases steps
  | unlinkData jobid =>
    rw [at_] at steps
    cases answer with
    | ok =>
      obtain rfl := Option.some.inj steps
      exact sound.removes (by rw [at_]; rfl) (dataName_of jobid) (by simp [Client.jobid]) trivial
        (by rw [at_]; rfl)
        rfl
    | _ => cases steps

end Apue.Printd
