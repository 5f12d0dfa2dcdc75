import MyStudy.TestProject.Urlparse
import Mathlib.Data.Finset.Insert
import Mathlib.Logic.Relation

/-!
# The crawler

`crawl.py`: a crawler that starts at one page, follows the links that have the text of its domain in
them, and keeps the URLs that are still to come in `q` and the processed ones in `seen`. The
directories for the local files can be made, and a page that can be downloaded can be read.
-/
namespace TestProject

/-- The pages that can be downloaded, and their links; every other URL fails. -/
abbrev Web := List (Bytes × List Bytes)

/-! ### One page -/

/-- `netloc.split("@")[-1].split(":")[0]` -/
def hostOf (netloc : Bytes) : Bytes := ((netloc.splitOn 64).getLastD []).takeWhile (· ≠ 58)

structure Retriever where
  url : Bytes
  file : Bytes

/-- `get_file` -/
def getFile (url : Bytes) : Option Retriever :=
  (urlparse url []).map fun parsed =>
    let filepath := hostOf parsed.netloc ++ parsed.path
    { url
      file := if splitext parsed.path = [] then join filepath (ascii "index.html") else filepath }

/-- The name of the local file, or the error; what is in front is all that is read of it. -/
def Retriever.download (web : Web) (r : Retriever) : Bytes :=
  match web.lookup r.url with
  | some _ => r.file
  | none => ascii "*** Error: bad URL '" ++ r.url ++ ascii "'"

def Retriever.parseLinks (web : Web) (r : Retriever) : List Bytes := (web.lookup r.url).getD []

/-! ### The crawler -/

/-- A crawler, the downloads it has asked for so far, and whether an exception has ended it. -/
structure Crawler where
  q : List Bytes
  seen : Finset Bytes
  dom : Bytes
  requested : List Bytes
  raised : Bool

/-- `".".join(host.split(".")[-2:])` -/
def domOf (host : Bytes) : Bytes :=
  let labels := host.splitOn 46
  [46].intercalate (labels.drop (labels.length - 2))

/-- `__init__` -/
def Crawler.init (url : Bytes) : Option Crawler :=
  (urlparse url []).map fun parsed =>
    { q := [url], seen := ∅, dom := domOf (hostOf parsed.netloc), requested := [], raised := false }

def mediaTypes : List Bytes := [".mp3", ".mp4", ".m4v", ".wav"].map ascii

def pageTypes : List Bytes := [".html", ".htm", "shtml"].map ascii

/-- A link that is not discarded for what it is, as a whole URL. -/
def complete (media : Bool) (url link : Bytes) : Option (Option Bytes) :=
  if ascii "mailto:" <+: link then some none
  else if ¬ media ∧ mediaTypes.contains (splitext link) then some none
  else if ascii "http://" <+: link then some (some link)
  else (urljoin url link).map some

def Crawler.addLink (media : Bool) (url : Bytes) (c : Crawler) (link : Bytes) : Crawler :=
  if c.raised then c
  else
    match complete media url link with
    | none => { c with raised := true }
    | some none => c
    | some (some link) =>
      if link ∈ c.seen then c
      else if ¬ c.dom <:+: link then c
      else if c.q.contains link then c
      else { c with q := c.q ++ [link] }

def Crawler.getPage (web : Web) (media : Bool) (url : Bytes) (c : Crawler) : Crawler :=
  match getFile url with
  | none => { c with raised := true }
  | some r =>
    let c := { c with requested := c.requested ++ [url] }
    let fname := r.download web
    if fname.head? = some 42 then c
    else
      let c := { c with seen := insert url c.seen }
      if ¬ pageTypes.contains (splitext fname) then c
        else (r.parseLinks web).foldl (Crawler.addLink media url) c

/-- One turn of the loop of `go`. -/
def Crawler.turn (web : Web) (media : Bool) (c : Crawler) : Option Crawler :=
  if c.raised then none
  else c.q.getLast?.map fun url => Crawler.getPage web media url { c with q := c.q.dropLast }

/-- `go`, for as many turns. -/
def Crawler.go (web : Web) (media : Bool) : Nat → Crawler → Option Crawler
  | turns, c =>
    match c.turn web media with
    | none => some c
    | some c' =>
      match turns with
      | 0 => none
      | turns + 1 => c'.go web media turns

/-! ### What one turn does -/

variable {web : Web} {media : Bool} {url : Bytes} {c c' : Crawler}

/-- The links of a page that is parsed: it was downloaded to a local file with the name of a
page. -/
def pageLinks (web : Web) (url : Bytes) : List Bytes :=
  match getFile url with
  | none => []
  | some r =>
    if (r.download web).head? = some 42 ∨ ¬ pageTypes.contains (splitext (r.download web)) then []
    else r.parseLinks web

/-- The URL is one that the next page links to with the text of the domain in it, and that is not
processed yet. -/
def Kept (web : Web) (media : Bool) (c : Crawler) (v : Bytes) : Prop :=
  ∃ url link, c.q.getLast? = some url ∧ link ∈ pageLinks web url ∧
    complete media url link = some (some v) ∧
    c.dom <:+: v ∧ v ∉ c.seen ∧ v ≠ url

/-- What the links of a page add to the queue. -/
structure Added (media : Bool) (url : Bytes) (links : List Bytes) (c c' : Crawler) : Prop where
  seen_eq : c'.seen = c.seen
  dom_eq : c'.dom = c.dom
  requested_eq : c'.requested = c.requested
  grows : c.q <+: c'.q
  nodup : c.q.Nodup → c'.q.Nodup
  added : ∀ v ∈ c'.q, v ∈ c.q ∨ ∃ link ∈ links, complete media url link = some (some v) ∧
    c.dom <:+: v ∧ v ∉ c.seen
  all : c'.raised = false → ∀ link ∈ links, ∀ v, complete media url link = some (some v) →
    c.dom <:+: v →
    v ∉ c.seen → v ∈ c'.q

theorem Added.nil : Added media url [] c c :=
  ⟨rfl, rfl, rfl, List.prefix_refl _, id, fun _ member => .inl member,
    fun _ _ member => nomatch member⟩

theorem Added.more {links : List Bytes} (before : Added media url links c c') (link : Bytes) :
    ∀ v ∈ c'.q,
    v ∈ c.q ∨ ∃ l ∈ links ++ [link], complete media url l = some (some v) ∧ c.dom <:+: v ∧
      v ∉ c.seen := by
  intro v member
  rcases before.added v member with old | ⟨l, inLinks, new⟩
  · exact .inl old
  · exact .inr ⟨l, List.mem_append_left _ inLinks, new⟩

/-- A link that adds nothing. -/
theorem Added.skip {links : List Bytes} (before : Added media url links c c') {link : Bytes}
    (nothing : c'.raised = false → ∀ v, complete media url link = some (some v) → c.dom <:+: v →
      v ∉ c.seen →
      v ∈ c'.q) : Added media url (links ++ [link]) c c' := by
  refine { before with added := before.more link, all := fun running l member v => ?_ }
  rcases List.mem_append.mp member with inLinks | last
  · exact before.all running l inLinks v
  · rw [List.mem_singleton.mp last]
    exact nothing running v

theorem Added.concat {links : List Bytes} (before : Added media url links c c') (link : Bytes) :
    Added media url (links ++ [link]) c (c'.addLink media url link) := by
  rw [Crawler.addLink]
  split
  case isTrue raised => exact before.skip fun running => absurd raised (by rw [running]; decide)
  case isFalse running =>
    split
    · exact ⟨before.seen_eq, before.dom_eq, before.requested_eq, before.grows, before.nodup,
        before.more link,
        fun running => nomatch running⟩
    case h_2 discarded =>
      exact before.skip fun _ v completed => by rw [discarded] at completed; cases completed
    case h_3 v completed =>
      -- `urljoin` gives one address for the link
      have only {w : Bytes} (other : complete media url link = some (some w)) : w = v := by
        rw [completed] at other
        exact (Option.some.inj (Option.some.inj other)).symm
      split_ifs with seen inside queued
      · exact before.skip fun _ w other _ new => absurd (before.seen_eq ▸ only other ▸ seen) new
      · exact before.skip fun _ w other _ _ => only other ▸ List.contains_iff_mem.mp queued
      · rw [before.dom_eq] at inside
        rw [before.seen_eq] at seen
        -- the address is new and in the domain, and goes to the end of the queue
        refine ⟨before.seen_eq, before.dom_eq, before.requested_eq,
          before.grows.trans (List.prefix_append _ _),
          fun unique => ?_, fun w member => ?_, fun running l member w other dom new => ?_⟩
        · exact List.nodup_append.mpr
            ⟨before.nodup unique, List.nodup_singleton v, fun w old x new same =>
            queued (List.contains_iff_mem.mpr (List.mem_singleton.mp new ▸ same ▸ old))⟩
        · rcases List.mem_append.mp member with old | new
          · exact before.more link w old
          · obtain rfl := List.mem_singleton.mp new
            exact .inr ⟨link, by simp, completed, inside, seen⟩
        · rcases List.mem_append.mp member with inLinks | last
          · exact List.mem_append_left _ (before.all running l inLinks w other dom new)
          · rw [List.mem_singleton.mp last] at other
            exact List.mem_append_right _ (List.mem_singleton.mpr (only other))
      · exact before.skip fun _ w other dom _ => absurd (only other ▸ dom) (before.dom_eq ▸ inside)

theorem foldl_addLink (media : Bool) (url : Bytes) (links : List Bytes) (c : Crawler) :
    Added media url links c (links.foldl (Crawler.addLink media url) c) := by
  induction links using List.reverseRecOn with
  | nil => exact .nil
  | append_singleton links link ih =>
    rw [List.foldl_append, List.foldl_cons, List.foldl_nil]
    exact ih.concat link

/-- A turn that asks for a download. -/
structure Requested (web : Web) (media : Bool) (c : Crawler) (rest : List Bytes) (url : Bytes)
    (c' : Crawler) :
    Prop where
  file : getFile url ≠ none
  dom_eq : c'.dom = c.dom
  requested_eq : c'.requested = c.requested ++ [url]
  grows : rest <+: c'.q
  nodup : rest.Nodup → c'.q.Nodup
  added : ∀ v ∈ c'.q, v ∈ rest ∨ Kept web media c v
  all : c'.raised = false → ∀ v, Kept web media c v → v ∈ c'.q
  seen : (c'.seen = c.seen ∧ c'.q = rest) ∨ (c'.seen = insert url c.seen ∧ url ∈ web.map Prod.fst)

theorem downloaded {r : Retriever} (found : getFile url = some r)
    (fine : (r.download web).head? ≠ some 42) :
    url ∈ web.map Prod.fst := by
  obtain ⟨parsed, -, rfl⟩ := Option.map_eq_some_iff.mp found
  rw [Retriever.download] at fine
  cases page : web.lookup url with
  | none =>
    rw [page] at fine
    exact absurd rfl fine
  | some links =>
    obtain ⟨front, back, rfl, -⟩ := List.lookup_eq_some_iff.mp page
    simp

theorem getPage_requested {rest : List Bytes} (last : c.q = rest ++ [url])
    (file : getFile url ≠ none) :
    Requested web media c rest url (Crawler.getPage web media url { c with q := rest }) := by
  obtain ⟨r, found⟩ := Option.ne_none_iff_exists'.mp file
  have isLast : c.q.getLast? = some url := by rw [last, List.getLast?_concat]
  have next {u : Bytes} (at_ : c.q.getLast? = some u) : u = url :=
    Option.some.inj (at_.symm.trans isLast)
  -- where the page is not parsed, no link of it is kept
  have unparsed (none_ : pageLinks web url = []) (v : Bytes) : ¬ Kept web media c v := by
    rintro ⟨u, link, at_, member, -⟩
    rw [next at_, none_] at member
    cases member
  rw [Crawler.getPage, found]
  dsimp only
  by_cases failed : (r.download web).head? = some 42
  · rw [if_pos failed]
    have none_ : pageLinks web url = [] := by
      rw [pageLinks, found]
      exact if_pos (.inl failed)
    exact ⟨file, rfl, rfl, List.prefix_refl _, id, fun v => .inl,
      fun _ v kept => absurd kept (unparsed none_ v),
      .inl ⟨rfl, rfl⟩⟩
  · rw [if_neg failed]
    have page := downloaded found failed
    by_cases other : ¬ pageTypes.contains (splitext (r.download web))
    · rw [if_pos other]
      have none_ : pageLinks web url = [] := by
        rw [pageLinks, found]
        exact if_pos (.inr other)
      exact ⟨file, rfl, rfl, List.prefix_refl _, id, fun v => .inl,
        fun _ v kept => absurd kept (unparsed none_ v),
        .inr ⟨rfl, page⟩⟩
    · rw [if_neg other]
      have links : pageLinks web url = r.parseLinks web := by
        rw [pageLinks, found]
        exact if_neg (not_or.mpr ⟨failed, other⟩)
      have added := foldl_addLink media url (r.parseLinks web)
        { c with q := rest, requested := c.requested ++ [url], seen := insert url c.seen }
      refine ⟨file, added.dom_eq, added.requested_eq, added.grows, added.nodup, fun v member => ?_,
        fun running v kept => ?_, .inr ⟨added.seen_eq, page⟩⟩
      · rcases added.added v member with old | ⟨link, inPage, completed, dom, new⟩
        · exact .inl old
        · obtain ⟨notUrl, new⟩ := not_or.mp (mt Finset.mem_insert.mpr new)
          exact .inr ⟨url, link, isLast, links ▸ inPage, completed, dom, new, notUrl⟩
      · obtain ⟨u, link, at_, member, completed, dom, new, notUrl⟩ := kept
        obtain rfl := next at_
        refine added.all running link (links ▸ member) v completed dom fun seen => ?_
        exact (Finset.mem_insert.mp seen).elim notUrl new

theorem turn_cases (turned : c.turn web media = some c') :
    ∃ rest url, c.raised = false ∧ c.q = rest ++ [url] ∧
    (c' = { c with q := rest, raised := true } ∨ Requested web media c rest url c') := by
  rw [Crawler.turn] at turned
  split_ifs at turned with raised
  obtain ⟨url, last, rfl⟩ := Option.map_eq_some_iff.mp turned
  have parts : c.q = c.q.dropLast ++ [url] := (List.dropLast_append_getLast? url last).symm
  refine ⟨c.q.dropLast, url, by simpa using raised, parts, ?_⟩
  by_cases file : getFile url = none
  · left
    rw [Crawler.getPage, file]
  · exact .inr (getPage_requested parts file)

/-! ### The end of the loop -/

/-- No URL is in the queue twice, and none that is processed. -/
structure Crawler.Fresh (c : Crawler) : Prop where
  nodup : c.q.Nodup
  fresh : ∀ v ∈ c.q, v ∉ c.seen

theorem Crawler.Fresh.turn (fresh : c.Fresh) (turned : c.turn web media = some c') : c'.Fresh := by
  obtain ⟨rest, url, -, last, rfl | requested⟩ := turn_cases turned
  · obtain ⟨nodup, fresh⟩ := fresh
    rw [last] at nodup fresh
    exact ⟨nodup.sublist (List.sublist_append_left _ _),
      fun v member => fresh v (List.mem_append_left _ member)⟩
  · obtain ⟨nodup, fresh⟩ := fresh
    rw [last] at nodup fresh
    obtain ⟨restNodup, -, apart⟩ := List.nodup_append.mp nodup
    refine ⟨requested.nodup restNodup, fun v member => ?_⟩
    -- what a page adds was neither seen before nor is it the page itself
    have new : v ∉ c.seen ∧ v ≠ url := by
      rcases requested.added v member with old | ⟨u, -, at_, -, -, -, new, other⟩
      · exact ⟨fresh v (List.mem_append_left _ old), apart v old url (List.mem_singleton_self url)⟩
      · rw [last, List.getLast?_concat] at at_
        exact ⟨new, Option.some.inj at_ ▸ other⟩
    rcases requested.seen with ⟨same, -⟩ | ⟨grown, -⟩
    · rw [same]
      exact new.1
    · rw [grown, Finset.mem_insert]
      exact not_or.mpr ⟨new.2, new.1⟩

theorem Crawler.go_of_turn (turned : c.turn web media = some c') (turns : Nat) :
    c.go web media (turns + 1) = c'.go web media turns := by
  rw [Crawler.go, turned]

theorem Crawler.go_of_end (ended : c.turn web media = none) (turns : Nat) :
    c.go web media turns = some c := by
  rw [Crawler.go, ended]

/-- The pages that can be downloaded and are not processed yet. -/
def unseen (web : Web) (c : Crawler) : Finset Bytes := (web.map Prod.fst).toFinset \ c.seen

/-- A turn processes a page that can be downloaded, or takes a URL out of the queue and adds
none. -/
theorem turn_decreases (fresh : c.Fresh) (turned : c.turn web media = some c') :
    (unseen web c').card < (unseen web c).card ∨
      (unseen web c' = unseen web c ∧ c'.q.length < c.q.length) := by
  obtain ⟨rest, url, -, last, rfl | requested⟩ := turn_cases turned
  · right
    rw [last]
    exact ⟨rfl, by simp⟩
  · rcases requested.seen with ⟨same, queue⟩ | ⟨grown, page⟩
    · right
      rw [unseen, same, queue, last]
      exact ⟨rfl, by simp⟩
    · left
      have new : url ∉ c.seen := fresh.fresh url (by simp [last])
      rw [unseen, grown]
      refine Finset.card_lt_card
        ⟨Finset.sdiff_subset_sdiff (subset_refl _) (Finset.subset_insert _ _), fun sub => ?_⟩
      have := sub (Finset.mem_sdiff.mpr ⟨List.mem_toFinset.mpr page, new⟩)
      exact (Finset.mem_sdiff.mp this).2 (Finset.mem_insert_self _ _)

theorem go_ends (web : Web) (media : Bool) (c : Crawler) (fresh : c.Fresh) :
    ∃ turns ended, c.go web media turns = some ended := by
  -- first by the pages that are not seen yet, then by the length of the queue
  generalize left : (unseen web c).card = n
  induction n using Nat.strong_induction_on generalizing c with
  | _ n pages =>
    generalize queue : c.q.length = m
    induction m using Nat.strong_induction_on generalizing c with
    | _ m urls =>
      cases turned : c.turn web media with
      | none => exact ⟨0, c, Crawler.go_of_end turned 0⟩
      | some c' =>
        have ends : ∃ turns ended, c'.go web media turns = some ended := by
          rcases turn_decreases fresh turned with fewer | ⟨same, shorter⟩
          · exact pages _ (left ▸ fewer) c' (fresh.turn turned) rfl
          · exact urls _ (queue ▸ shorter) c' (fresh.turn turned) (same ▸ left) rfl
        obtain ⟨turns, ended, run⟩ := ends
        exact ⟨turns + 1, ended, by rw [Crawler.go_of_turn turned, run]⟩

/-- One turn after the other. -/
def Turn (web : Web) (media : Bool) (c c' : Crawler) : Prop := c.turn web media = some c'

theorem go_reaches {turns : Nat} {ended : Crawler} (run : c.go web media turns = some ended) :
    Relation.ReflTransGen (Turn web media) c ended ∧ ended.turn web media = none := by
  induction turns generalizing c with
  | zero =>
    rw [Crawler.go] at run
    cases turned : c.turn web media with
    | none =>
      rw [turned] at run
      exact Option.some.inj run ▸ ⟨.refl, turned⟩
    | some c' =>
      rw [turned] at run
      cases run
  | succ turns ih =>
    cases turned : c.turn web media with
    | none =>
      rw [Crawler.go_of_end turned] at run
      exact Option.some.inj run ▸ ⟨.refl, turned⟩
    | some c' =>
      rw [Crawler.go_of_turn turned] at run
      obtain ⟨later, stopped⟩ := ih run
      exact ⟨.head turned later, stopped⟩

/-- Where the loop has ended, every state it reached lies before the end. -/
theorem reached_before {start ended : Crawler} (stopped : ended.turn web media = none)
    (run : Relation.ReflTransGen (Turn web media) start ended)
    (reached : Relation.ReflTransGen (Turn web media) start c) :
    Relation.ReflTransGen (Turn web media) c ended := by
  have unique : Relator.RightUnique (Turn web media) := fun a b b' first second =>
    Option.some.inj (first.symm.trans second)
  rcases Relation.ReflTransGen.total_of_right_unique unique reached run with later | later
  · exact later
  · rcases later.cases_head with rfl | ⟨_, turned, -⟩
    · exact .refl
    · rw [Turn, stopped] at turned
      cases turned

/-- The loop from this state on ends without an exception. -/
structure Finished (web : Web) (media : Bool) (c ended : Crawler) : Prop where
  run : Relation.ReflTransGen (Turn web media) c ended
  stopped : ended.turn web media = none
  running : ended.raised = false

theorem Finished.here {ended : Crawler} (finished : Finished web media c ended) :
    c.raised = false := by
  rcases finished.run.cases_head with rfl | ⟨c', turned, -⟩
  · exact finished.running
  · obtain ⟨rest, url, here, -⟩ := turn_cases turned
    exact here

theorem Finished.empty {ended : Crawler} (finished : Finished web media c ended) :
    ended.q = [] := by
  have stopped := finished.stopped
  rw [Crawler.turn, if_neg (by rw [finished.running]; decide), Option.map_eq_none_iff,
    List.getLast?_eq_none_iff] at stopped
  exact stopped

/-- A state of such a loop is the last, or a turn that asks for a download leads on from it. -/
theorem Finished.next {ended : Crawler} (finished : Finished web media c ended) :
    c = ended ∨ ∃ rest url c',
    c.q = rest ++ [url] ∧ Requested web media c rest url c' ∧ Finished web media c' ended := by
  rcases finished.run.cases_head with rfl | ⟨c', turned, later⟩
  · exact .inl rfl
  · have after : Finished web media c' ended := ⟨later, finished.stopped, finished.running⟩
    have running := after.here
    obtain ⟨rest, url, -, last, rfl | requested⟩ := turn_cases turned
    · cases running
    · exact .inr ⟨rest, url, c', last, requested, after⟩

theorem Finished.induction {ended : Crawler} {P : Crawler → Prop}
    (finished : Finished web media c ended) (end_ : P ended)
    (turn : ∀ c rest url c', c.q = rest ++ [url] → Requested web media c rest url c' → P c' → P c) :
    P c := by
  obtain ⟨run, stopped, running⟩ := finished
  induction run using Relation.ReflTransGen.head_induction_on with
  | refl => exact end_
  | @head c c' turned later ih =>
    have after := (Finished.mk later stopped running).here
    obtain ⟨rest, url, -, last, rfl | requested⟩ := turn_cases turned
    · cases after
    · exact turn c rest url c' last requested ih

/-- Every URL of the queue is requested in the end. -/
theorem Finished.requested {ended : Crawler} (finished : Finished web media c ended) :
    ∀ v, v ∈ c.requested ∨ v ∈ c.q → v ∈ ended.requested := by
  have empty := finished.empty
  refine finished.induction
    (P := fun c => ∀ v, v ∈ c.requested ∨ v ∈ c.q → v ∈ ended.requested) ?_ ?_
  · rintro v (done | queued)
    · exact done
    · rw [empty] at queued
      cases queued
  · intro c rest url c' last requested later v
    rw [last, List.mem_append]
    rintro (done | queued | this)
    · exact later v (.inl (requested.requested_eq ▸ List.mem_append_left _ done))
    · exact later v (.inr (requested.grows.subset queued))
    · exact later v (.inl (requested.requested_eq ▸ List.mem_append_right _ this))

/-! ### Requests -/

/-- No link that the next page adds was requested before: it would have failed then. -/
def NoRetry (web : Web) (media : Bool) (c : Crawler) : Prop :=
  ∀ v, Kept web media c v → v ∉ c.requested

theorem nodup_turn (nodup : (c.requested ++ c.q).Nodup) (noRetry : NoRetry web media c)
    (turned : c.turn web media = some c') : (c'.requested ++ c'.q).Nodup := by
  obtain ⟨rest, url, -, last, rfl | requested⟩ := turn_cases turned
  · rw [last] at nodup
    exact nodup.sublist ((List.sublist_append_left rest [url]).append_left _)
  · rw [last] at nodup
    obtain ⟨doneNodup, queueNodup, apart⟩ := List.nodup_append.mp nodup
    obtain ⟨restNodup, -, notUrl⟩ := List.nodup_append.mp queueNodup
    -- the queue and the pages requested so far have no address in common
    have urlNew : url ∉ c.requested := fun done => apart url done url (by simp) rfl
    rw [requested.requested_eq]
    refine List.nodup_append.mpr ⟨List.nodup_append.mpr ⟨doneNodup, List.nodup_singleton url, ?_⟩,
      requested.nodup restNodup, ?_⟩
    · rintro v done w this rfl
      exact urlNew (List.mem_singleton.mp this ▸ done)
    · rintro v before w queued rfl
      have new : v ∉ c.requested ∧ v ≠ url := by
        rcases requested.added v queued with old | kept
        · exact ⟨fun done => apart v done v (List.mem_append_left _ old) rfl,
            notUrl v old url (by simp)⟩
        · refine ⟨noRetry v kept, ?_⟩
          obtain ⟨u, -, at_, -, -, -, -, other⟩ := kept
          rw [last, List.getLast?_concat] at at_
          exact Option.some.inj at_ ▸ other
      rcases List.mem_append.mp before with done | this
      · exact new.1 done
      · exact new.2 (List.mem_singleton.mp this)

/-- Requests that are all different in the end come from pages that add nothing that was requested
before. -/
theorem Finished.nodup {ended : Crawler} (finished : Finished web media c ended)
    (nodup : ended.requested.Nodup) :
    (c.requested ++ c.q).Nodup := by
  have empty := finished.empty
  refine finished.induction (P := fun c => (c.requested ++ c.q).Nodup) ?_ ?_
  · rwa [empty, List.append_nil]
  · intro c rest url c' last requested later
    rw [requested.requested_eq, List.append_assoc] at later
    rw [last]
    have fewer : (c.requested ++ ([url] ++ rest)).Sublist (c.requested ++ ([url] ++ c'.q)) :=
      (requested.grows.sublist.append_left _).append_left _
    exact (List.perm_append_comm.append_left _).nodup_iff.mp (later.sublist fewer)

theorem Finished.noRetry {ended : Crawler} (finished : Finished web media c ended)
    (nodup : ended.requested.Nodup) : NoRetry web media c := by
  intro v kept done
  rcases finished.next with rfl | ⟨rest, url, c', last, requested, after⟩
  · obtain ⟨_, _, at_, -⟩ := kept
    rw [finished.empty] at at_
    cases at_
  · obtain ⟨-, -, apart⟩ := List.nodup_append.mp (after.nodup nodup)
    refine apart v ?_ v (requested.all after.here v kept) rfl
    rw [requested.requested_eq]
    exact List.mem_append_left _ done

/-- The crawler comes to an end on every web. It requests no URL twice as long as no page adds one
that was requested before; and where it came to its end without an exception and requested none
twice, no page did. -/
theorem go_requests_once (web : Web) (media : Bool) (url : Bytes) (c : Crawler)
    (made : Crawler.init url = some c) :
    (∃ turns ended, c.go web media turns = some ended) ∧
    (∀ c', Relation.ReflTransGen (fun c c' => NoRetry web media c ∧ Turn web media c c') c c' →
      c'.requested.Nodup) ∧
    ∀ turns ended, c.go web media turns = some ended → ended.raised = false →
      ended.requested.Nodup →
      ∀ c', Relation.ReflTransGen (Turn web media) c c' → NoRetry web media c' := by
  obtain ⟨parsed, -, rfl⟩ := Option.map_eq_some_iff.mp made
  refine ⟨go_ends web media _ ⟨List.nodup_singleton _, fun v _ => Finset.notMem_empty v⟩,
    fun c' run => ?_,
    fun turns ended run running nodup c' reached => ?_⟩
  · have nodup : (c'.requested ++ c'.q).Nodup := by
      induction run with
      | refl => exact List.nodup_singleton url
      | tail _ turned ih => exact nodup_turn ih turned.1 turned.2
    exact nodup.sublist (List.sublist_append_left _ _)
  · obtain ⟨toEnd, stopped⟩ := go_reaches run
    exact Finished.noRetry ⟨reached_before stopped toEnd reached, stopped, running⟩ nodup

def homePage : Bytes := ascii "http://www.example.com/"

/-- The page that fails is linked to again by a page that is processed later. -/
def newsWeb : Web :=
  [(homePage, [ascii "/news.html", ascii "/gone.html"]),
    (ascii "http://www.example.com/news.html", [ascii "/gone.html"])]

/-- The crawler that starts there. -/
def homeCrawler : Crawler :=
  { q := [homePage], seen := ∅, dom := ascii "example.com", requested := [], raised := false }

theorem go_requests_once_home :
    (∃ turns ended, homeCrawler.go newsWeb false turns = some ended) ∧
    (∀ c', Relation.ReflTransGen (fun c c' => NoRetry newsWeb false c ∧ Turn newsWeb false c c')
      homeCrawler c' →
      c'.requested.Nodup) ∧
    ∀ turns ended, homeCrawler.go newsWeb false turns = some ended → ended.raised = false →
      ended.requested.Nodup →
      ∀ c', Relation.ReflTransGen (Turn newsWeb false) homeCrawler c' → NoRetry newsWeb false c' :=
  go_requests_once newsWeb false homePage homeCrawler rfl

theorem go_requests_twice :
    ((Crawler.init homePage).bind fun c => c.go newsWeb false 4).map Crawler.requested =
    some [homePage, ascii "http://www.example.com/gone.html",
      ascii "http://www.example.com/news.html",
      ascii "http://www.example.com/gone.html"] := by
  decide +kernel

/-! ### The domain -/

/-- The host of a URL, as the crawler reads it. -/
def hostName (url : Bytes) : Option Bytes :=
  (urlparse url []).map fun parsed => hostOf parsed.netloc

/-- The host is the domain, or one inside it. -/
def InDomain (dom host : Bytes) : Prop := host = dom ∨ 46 :: dom <:+ host

theorem intercalate_append (sep : UInt8) (front back : List Bytes) (some_ : front ≠ [])
    (more : back ≠ []) :
    [sep].intercalate (front ++ back) =
      [sep].intercalate front ++ sep :: [sep].intercalate back := by
  induction front with
  | nil => exact absurd rfl some_
  | cons label front ih =>
    rw [List.cons_append, List.intercalate_cons_of_ne_nil (by simp [more])]
    by_cases last : front = []
    · subst last
      simp
    · rw [ih last, List.intercalate_cons_of_ne_nil last]
      simp

/-- A host is in the domain of its last two labels. -/
theorem inDomain_domOf (host : Bytes) : InDomain (domOf host) host := by
  have whole : [46].intercalate (host.splitOn 46) = host := List.intercalate_splitOn 46
  rw [domOf]
  generalize host.splitOn 46 = labels at whole
  rcases Nat.lt_or_ge 2 labels.length with more | few
  · -- with more than two labels there is a dot in front of the last two
    right
    have front : labels.take (labels.length - 2) ≠ [] := by
      rw [ne_eq, ← List.length_eq_zero_iff, List.length_take]
      omega
    have back : labels.drop (labels.length - 2) ≠ [] := by
      rw [ne_eq, List.drop_eq_nil_iff]
      omega
    have joined := intercalate_append 46 _ _ front back
    rw [List.take_append_drop, whole] at joined
    exact ⟨_, joined.symm⟩
  · left
    rw [Nat.sub_eq_zero_of_le few, List.drop_zero, whole]

/-- The URLs that the next page adds have hosts in the domain. -/
def KeepsWithin (web : Web) (media : Bool) (c : Crawler) : Prop :=
  ∀ v, Kept web media c v → ∀ host, hostName v = some host → InDomain c.dom host

/-- What is requested has a host in the domain, and what is in the queue has none outside of it. -/
structure Crawler.Within (dom : Bytes) (c : Crawler) : Prop where
  dom_eq : c.dom = dom
  requested : ∀ v ∈ c.requested, ∃ host, hostName v = some host ∧ InDomain dom host
  queued : ∀ v ∈ c.q, ∀ host, hostName v = some host → InDomain dom host

theorem Crawler.Within.turn {dom : Bytes} (within : c.Within dom) (keeps : KeepsWithin web media c)
    (turned : c.turn web media = some c') : c'.Within dom := by
  obtain ⟨dom_eq, requested, queued⟩ := within
  obtain ⟨rest, url, -, last, rfl | asked⟩ := turn_cases turned
  · exact ⟨dom_eq, requested, fun v member => queued v (last ▸ List.mem_append_left _ member)⟩
  · refine ⟨asked.dom_eq.trans dom_eq, fun v member => ?_, fun v member => ?_⟩
    · rw [asked.requested_eq] at member
      rcases List.mem_append.mp member with done | this
      · exact requested v done
      · obtain rfl := List.mem_singleton.mp this
        -- a URL is requested only after its host was read
        obtain ⟨r, file⟩ := Option.ne_none_iff_exists'.mp asked.file
        obtain ⟨parsed, parse, -⟩ := Option.map_eq_some_iff.mp file
        have host : hostName v = some (hostOf parsed.netloc) := by
          rw [hostName, parse, Option.map_some]
        exact ⟨_, host, queued v (by simp [last]) _ host⟩
    · rcases asked.added v member with old | kept
      · exact queued v (last ▸ List.mem_append_left _ old)
      · exact dom_eq ▸ keeps v kept

theorem reached_dom (reached : Relation.ReflTransGen (Turn web media) c c') : c'.dom = c.dom := by
  induction reached with
  | refl => rfl
  | tail _ turned ih =>
    obtain ⟨rest, url, -, -, rfl | requested⟩ := turn_cases turned
    · exact ih
    · exact requested.dom_eq.trans ih

/-- The crawler stays in the domain of its start as long as every page adds only URLs with hosts in
it; and where it came to its end without an exception and stayed there, every page did. -/
theorem go_in_domain (web : Web) (media : Bool) (url host : Bytes)
    (start : hostName url = some host) :
    ∃ c, Crawler.init url = some c ∧ c.dom = domOf host ∧
      (∀ c', Relation.ReflTransGen
      (fun c c' => KeepsWithin web media c ∧ Turn web media c c') c c' →
        ∀ v ∈ c'.requested, ∃ h, hostName v = some h ∧ InDomain (domOf host) h) ∧
      ∀ turns ended, c.go web media turns = some ended → ended.raised = false →
        (∀ v ∈ ended.requested, ∃ h, hostName v = some h ∧ InDomain (domOf host) h) →
        ∀ c', Relation.ReflTransGen (Turn web media) c c' → KeepsWithin web media c' := by
  obtain ⟨parsed, parse, rfl⟩ := Option.map_eq_some_iff.mp start
  refine ⟨_, by rw [Crawler.init, parse]; rfl, rfl, fun c' run => ?_,
    fun turns ended run running inside c' reached => ?_⟩
  · have within : c'.Within (domOf (hostOf parsed.netloc)) := by
      induction run with
      | refl =>
        refine ⟨rfl, by simp, fun v member h at_ => ?_⟩
        obtain rfl := List.mem_singleton.mp member
        obtain rfl := Option.some.inj (start.symm.trans at_)
        exact inDomain_domOf _
      | tail _ turned ih => exact ih.turn turned.1 turned.2
    exact within.requested
  · obtain ⟨toEnd, stopped⟩ := go_reaches run
    have finished : Finished web media c' ended :=
      ⟨reached_before stopped toEnd reached, stopped, running⟩
    have dom_eq : c'.dom = domOf (hostOf parsed.netloc) := reached_dom reached
    intro v kept h at_
    -- a turn that takes a link puts it on the queue, and at the end it has been requested
    rcases finished.next with rfl | ⟨rest, url, c'', last, requested, after⟩
    · obtain ⟨_, _, at_, -⟩ := kept
      rw [finished.empty] at at_
      cases at_
    · obtain ⟨h', at', inside'⟩ :=
        inside v (after.requested v (.inr (requested.all after.here v kept)))
      obtain rfl := Option.some.inj (at_.symm.trans at')
      exact dom_eq ▸ inside'

/-- A page outside the domain, with the text of the domain in its query. -/
def elsewhereWeb : Web := [(homePage, [ascii "http://elsewhere.org/?example.com"])]

theorem go_in_domain_home :
    ∃ c, Crawler.init homePage = some c ∧ c.dom = domOf (ascii "www.example.com") ∧
      (∀ c', Relation.ReflTransGen
          (fun c c' => KeepsWithin elsewhereWeb false c ∧ Turn elsewhereWeb false c c') c c' →
        ∀ v ∈ c'.requested, ∃ h, hostName v = some h ∧
        InDomain (domOf (ascii "www.example.com")) h) ∧
      ∀ turns ended, c.go elsewhereWeb false turns = some ended → ended.raised = false →
        (∀ v ∈ ended.requested, ∃ h, hostName v = some h ∧
        InDomain (domOf (ascii "www.example.com")) h) →
        ∀ c', Relation.ReflTransGen (Turn elsewhereWeb false) c c' →
        KeepsWithin elsewhereWeb false c' :=
  go_in_domain elsewhereWeb false homePage (ascii "www.example.com") (by decide +kernel)

theorem go_leaves_domain :
    ((Crawler.init homePage).bind fun c => c.go elsewhereWeb false 2).map Crawler.requested =
        some [homePage, ascii "http://elsewhere.org/?example.com"] ∧
      domOf (ascii "www.example.com") = ascii "example.com" ∧
      hostName (ascii "http://elsewhere.org/?example.com") = some (ascii "elsewhere.org") ∧
      ¬ (46 :: ascii "example.com" <:+ ascii "elsewhere.org") := by
  decide +kernel

end TestProject
