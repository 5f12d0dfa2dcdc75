import MyStudy.Lib.Bytes

/-!
# Decompressing in rounds

`zn_gunzip_stream::consume` gives the buffered input to `inflate`, empties the output buffer
whenever it is full and input is left, and puts the input that was not taken back into the buffer.
What is held back when the input ends is lost, and so is what comes behind the first member of a
stream.
-/

namespace Zn

/-! ### The stream -/

/-- What a call of `inflate` leaves: its state, the input it has not taken, its output and its
return value. -/
structure Inflated (σ : Type) where
  stream : σ
  nextIn : Bytes
  out : Bytes
  ret : Int

/-- `inflate` of zlib, on a state, the input and the room in the output buffer. -/
abbrev Inflate (σ : Type) := σ → Bytes → Nat → Inflated σ

/-- `zn_gunzip_stream`. -/
structure GunzipStream (σ : Type) where
  buf : Bytes
  stream : σ

namespace GunzipStream

variable {σ : Type}

def feed (s : GunzipStream σ) (buf : Bytes) : GunzipStream σ := { s with buf := s.buf ++ buf }

def shift (s : GunzipStream σ) : Bytes × GunzipStream σ := (s.buf, { s with buf := [] })

def unshift (s : GunzipStream σ) (buf : Bytes) : GunzipStream σ := { s with buf := buf ++ s.buf }

/-- The loop of `consume`. At the end it has the input that was not taken and the data; an error has
neither. -/
def inflateLoop (inflate : Inflate σ) :
    Nat → σ → Bytes → Bytes → Option (σ × Option (Bytes × Bytes))
  | 0, _, _, _ => none
  | fuel + 1, stream, nextIn, deflatedData =>
    let call := inflate stream nextIn 4096
    if call.ret < 0 then some (call.stream, none)
    else if call.out.length = 4096 ∧ call.nextIn ≠ [] then
      inflateLoop inflate fuel call.stream call.nextIn (deflatedData ++ call.out)
    else some (call.stream, some (call.nextIn, deflatedData ++ call.out))

def consume (inflate : Inflate σ) (fuel : Nat) (s : GunzipStream σ) :
    Option (Bytes × GunzipStream σ) :=
  let (inBuf, s) := s.shift
  match inflateLoop inflate fuel s.stream inBuf [] with
  | none => none
  | some (stream, none) => some ([], { s with stream })
  | some (stream, some (nextIn, deflatedData)) =>
    if nextIn ≠ [] then some (deflatedData, { s with stream }.unshift nextIn)
    else some (deflatedData, { s with stream })

/-- The strings that the rounds return. Each one feeds a piece and consumes. -/
def rounds (inflate : Inflate σ) (fuel : Nat) : GunzipStream σ → List Bytes → Option (List Bytes)
  | _, [] => some []
  | s, piece :: pieces => do
    let (data, s) ← consume inflate fuel (s.feed piece)
    let more ← rounds inflate fuel s pieces
    some (data :: more)

/-! ### What `inflate` does

A stream is a member `gz` with the data `data`, and what comes behind it, `more`. `At s k j` says
that `inflate` in the state `s` has taken `k` bytes and put `j` bytes out. -/

section

variable {σ : Type} (inflate : Inflate σ) (gz more data : Bytes) (At : σ → Nat → Nat → Prop)

/-- One call, on input that continues the stream. -/
structure Proceeds (k j : Nat) (input : Bytes) (room : Nat) (call : Inflated σ) : Prop where
  takes : call.nextIn <:+ input
  gives : call.out <+: data.drop j
  counts : At call.stream (k + (input.length - call.nextIn.length)) (j + call.out.length)
  /-- It does not go on behind the end of the member. -/
  member : k + (input.length - call.nextIn.length) ≤ gz.length
  /-- It stops when the input is used up or the buffer is full, or at the end of the member. Output
  may be held back when the buffer is full. -/
  stops : call.nextIn = [] ∨ call.out.length = room ∨
    k + (input.length - call.nextIn.length) = gz.length ∧ j + call.out.length = data.length
  /-- The stream is valid, so only that there is nothing to do is an error. -/
  negative : call.ret < 0 → input = [] ∧ call.out = []

/-- `inflate` decompresses the first member of the stream. -/
structure Inflates (start : σ) : Prop where
  begins : At start 0 0
  proceeds : ∀ s k j input room, At s k j → input <+: (gz ++ more).drop k → 0 < room →
    Proceeds gz data At k j input room (inflate s input room)

/-- `inflate` is called with a buffer of 4096 bytes until it has taken a piece, and puts `n` bytes
out. -/
inductive Taken : σ → Bytes → σ → Nat → Prop where
  | last {s : σ} {input : Bytes} (used : (inflate s input 4096).nextIn = []) :
    Taken s input (inflate s input 4096).stream (inflate s input 4096).out.length
  | again {s s' : σ} {input : Bytes} {n : Nat} (left : (inflate s input 4096).nextIn ≠ [])
    (rest : Taken (inflate s input 4096).stream (inflate s input 4096).nextIn s' n) :
    Taken s input s' ((inflate s input 4096).out.length + n)

/-- `inflate` has taken the first `k` bytes of a stream, in some pieces, and has put `j` bytes
out. -/
inductive Given (start : σ) (whole : Bytes) : σ → Nat → Nat → Prop where
  | start : Given start whole start 0 0
  | piece {s s' : σ} {k j n : Nat} {piece : Bytes} (given : Given start whole s k j)
    (part : piece <+: whole.drop k) (taken : Taken inflate s piece s' n) :
    Given start whole s' (k + piece.length) (j + n)

/-- With the last byte of the member taken `inflate` holds nothing back. -/
def NothingHeld (start : σ) : Prop :=
  ∀ s j, Given inflate start gz s gz.length j → j = data.length

end

variable {inflate : Inflate σ} {gz more data : Bytes} {At : σ → Nat → Nat → Prop} {start : σ}

/-! ### A call -/

/-- The input that was not taken is what continues the stream behind the part that was. -/
theorem suffix_continues {whole input nextIn : Bytes} {k : Nat} (takes : nextIn <:+ input)
    (part : input <+: whole.drop k) :
    nextIn <+: whole.drop (k + (input.length - nextIn.length)) := by
  obtain ⟨taken, rfl⟩ := takes
  have length : (taken ++ nextIn).length - nextIn.length = taken.length := by simp
  obtain ⟨rest, front⟩ := part
  refine ⟨rest, ?_⟩
  rw [length, ← List.drop_drop, ← front, List.append_assoc, List.drop_left]

theorem prefix_append_of_drop {front more rest : Bytes} (first : front <+: rest)
    (second : more <+: rest.drop front.length) : front ++ more <+: rest := by
  obtain ⟨behind, rfl⟩ := first
  rw [List.drop_left] at second
  exact (List.prefix_append_right_inj front).mpr second

/-- What was taken of a piece is counted, and it is a part of the first member. -/
theorem Taken.counts (inflates : Inflates inflate gz more data At start) {s s' : σ} {input : Bytes}
    {n : Nat} (taken : Taken inflate s input s' n) (k j : Nat) (at_ : At s k j)
    (part : input <+: (gz ++ more).drop k) :
    At s' (k + input.length) (j + n) ∧ k + input.length ≤ gz.length := by
  induction taken generalizing k j with
  | @last s input used =>
    have does := inflates.proceeds s k j input 4096 at_ part (by decide)
    have counts := does.counts
    have member := does.member
    rw [used, List.length_nil, Nat.sub_zero] at counts member
    exact ⟨counts, member⟩
  | @again s s' input n left rest ih =>
    have does := inflates.proceeds s k j input 4096 at_ part (by decide)
    have shorter := does.takes.length_le
    have later := ih _ _ does.counts (suffix_continues does.takes part)
    rw [Nat.add_assoc, Nat.sub_add_cancel shorter, Nat.add_assoc] at later
    exact later

theorem Given.counts (inflates : Inflates inflate gz more data At start) {s : σ} {k j : Nat}
    (given : Given inflate start (gz ++ more) s k j) : At s k j := by
  induction given with
  | start => exact inflates.begins
  | piece _ part taken ih => exact (taken.counts inflates _ _ ih part).1

/-! ### A round -/

/-- Where a round leaves a stream: everything was taken that was fed, or the first member has ended,
and what was fed behind it is in the buffer. -/
inductive Stands (inflate : Inflate σ) (gz more data : Bytes) (At : σ → Nat → Nat → Prop)
    (start : σ) :
    GunzipStream σ → Bytes → Nat → Prop where
  | taking {stream : σ} {k j : Nat} (given : Given inflate start (gz ++ more) stream k j) :
    Stands inflate gz more data At start ⟨[], stream⟩ ((gz ++ more).drop k) j
  | ended {buf rest : Bytes} {stream : σ} (at_ : At stream gz.length data.length)
    (left : buf ++ rest = more) :
    Stands inflate gz more data At start ⟨buf, stream⟩ rest data.length

/-- What the loop has put out when it ends: the input was taken, or the member has ended in it. -/
structure Drained (inflate : Inflate σ) (gz data : Bytes) (At : σ → Nat → Nat → Prop) (k j : Nat)
    (stream : σ) (input : Bytes) (stream' : σ) (nextIn out : Bytes) : Prop where
  gives : out <+: data.drop j
  takes : nextIn <:+ input
  ends : nextIn = [] ∧ Taken inflate stream input stream' out.length ∨
    At stream' gz.length data.length ∧ k + (input.length - nextIn.length) = gz.length ∧
      j + out.length = data.length

/-- The loop goes on as long as the buffer is filled and input is left. -/
theorem inflateLoop_spec (inflates : Inflates inflate gz more data At start) (fuel : Nat)
    {stream : σ} {k j : Nat} {input : Bytes} (deflatedData : Bytes) (at_ : At stream k j)
    (part : input <+: (gz ++ more).drop k) (some_input : input ≠ [])
    (enough : data.length - j < fuel) :
    ∃ stream' nextIn out, inflateLoop inflate fuel stream input deflatedData =
        some (stream', some (nextIn, deflatedData ++ out)) ∧
      Drained inflate gz data At k j stream input stream' nextIn out := by
  induction fuel generalizing stream k j input deflatedData with
  | zero => omega
  | succ fuel ih =>
    have does := inflates.proceeds stream k j input 4096 at_ part (by decide)
    have going : ¬ (inflate stream input 4096).ret < 0 :=
      fun failed => some_input (does.negative failed).1
    rw [inflateLoop]
    simp only [if_neg going]
    by_cases full : (inflate stream input 4096).out.length = 4096 ∧
      (inflate stream input 4096).nextIn ≠ []
    -- another call, on what is left of the input
    · have within : (inflate stream input 4096).out.length ≤ data.length - j := by
        simpa using does.gives.length_le
      obtain ⟨stream', nextIn, out, run, drained⟩ :=
        ih (deflatedData ++ (inflate stream input 4096).out) does.counts
          (suffix_continues does.takes part) full.2 (by omega)
      have shorter := does.takes.length_le
      have shorter' := drained.takes.length_le
      refine ⟨stream', nextIn, (inflate stream input 4096).out ++ out, ?_, ?_, ?_, ?_⟩
      · rw [if_pos full, run, List.append_assoc]
      · have behind := drained.gives
        rw [← List.drop_drop] at behind
        exact prefix_append_of_drop does.gives behind
      · exact drained.takes.trans does.takes
      · rw [List.length_append]
        rcases drained.ends with ⟨used, taken⟩ | ⟨ended, taken, out_⟩
        · exact .inl ⟨used, .again full.2 taken⟩
        · exact .inr ⟨ended, by omega, by omega⟩
    -- the last call has used up the input or come to the end of the member
    · rw [if_neg full]
      refine ⟨_, _, (inflate stream input 4096).out, rfl, does.gives, does.takes, ?_⟩
      by_cases used : (inflate stream input 4096).nextIn = []
      · exact .inl ⟨used, .last used⟩
      · obtain ⟨taken, out_⟩ :=
          (does.stops.resolve_left used).resolve_left fun filled => full ⟨filled, used⟩
        have counts := does.counts
        rw [taken, out_] at counts
        exact .inr ⟨counts, taken, out_⟩

/-- A round takes its piece, or what is left of it stays in the buffer. -/
theorem consume_spec (inflates : Inflates inflate gz more data At start) (fuel : Nat)
    (enough : data.length < fuel) {s : GunzipStream σ} {piece rest : Bytes} {j : Nat}
    (stands : Stands inflate gz more data At start s (piece ++ rest) j) :
    ∃ s' out, consume inflate fuel (s.feed piece) = some (out, s') ∧
      Stands inflate gz more data At start s' rest (j + out.length) ∧ out <+: data.drop j := by
  obtain ⟨fuel, rfl⟩ : ∃ less, fuel = less + 1 := ⟨fuel - 1, by omega⟩
  generalize pieces : piece ++ rest = fed at stands
  cases stands with
  | @taking stream k j given =>
    have at_ := given.counts inflates
    have part : piece <+: (gz ++ more).drop k := ⟨rest, pieces⟩
    have behind : rest = (gz ++ more).drop (k + piece.length) := by
      rw [← List.drop_drop, ← pieces, List.drop_left]
    by_cases empty : piece = []
    -- one call, which can put out what was held back, or fail because there is nothing
    · subst empty
      have does := inflates.proceeds stream k j [] 4096 at_ part (by decide)
      have used : (inflate stream [] 4096).nextIn = [] := List.suffix_nil.mp does.takes
      refine ⟨⟨[], (inflate stream [] 4096).stream⟩, (inflate stream [] 4096).out, ?_,
        ?_, does.gives⟩
      · simp only [consume, shift, feed, List.nil_append, inflateLoop, used]
        by_cases failed : (inflate stream [] 4096).ret < 0
        · rw [if_pos failed, (does.negative failed).2]
        · rw [if_neg failed, if_neg (by simp)]
          simp
      · rw [behind]
        exact .taking (given.piece part (.last used))
    · obtain ⟨stream', nextIn, out, run, drained⟩ :=
        inflateLoop_spec inflates (fuel + 1) [] at_ part empty (by omega)
      refine ⟨⟨nextIn, stream'⟩, out, ?_, ?_, drained.gives⟩
      · simp only [consume, shift, feed, List.nil_append, run]
        by_cases used : nextIn = []
        · simp [used]
        · simp [used, unshift]
      · rcases drained.ends with ⟨rfl, taken⟩ | ⟨ended, taken, out_⟩
        · rw [behind]
          exact .taking (given.piece part taken)
        -- the rest of the piece begins what comes behind the member
        · rw [out_]
          refine .ended ended ?_
          obtain ⟨front, rfl⟩ := drained.takes
          rw [List.append_assoc] at pieces
          rw [List.length_append, Nat.add_sub_cancel] at taken
          have cut := congrArg (List.drop front.length) pieces
          rw [List.drop_left, List.drop_drop, taken, List.drop_left] at cut
          exact cut
  | @ended buf _ stream at_ left =>
    -- nothing is taken and nothing put out any more
    have part : buf ++ piece <+: (gz ++ more).drop gz.length := by
      rw [List.drop_left]
      exact ⟨rest, by rw [List.append_assoc, pieces, left]⟩
    have does :=
      inflates.proceeds stream gz.length data.length (buf ++ piece) 4096 at_ part (by decide)
    have none_ : (inflate stream (buf ++ piece) 4096).out = [] := by simpa using does.gives
    have shorter := does.takes.length_le
    have member := does.member
    have untaken : (inflate stream (buf ++ piece) 4096).nextIn = buf ++ piece :=
      does.takes.eq_of_length (by omega)
    have counts := does.counts
    rw [untaken, none_, Nat.sub_self] at counts
    refine ⟨⟨if (inflate stream (buf ++ piece) 4096).ret < 0 then [] else buf ++ piece,
      (inflate stream (buf ++ piece) 4096).stream⟩, [], ?_, ?_, List.nil_prefix⟩
    · simp only [consume, shift, feed, inflateLoop, none_, untaken]
      by_cases failed : (inflate stream (buf ++ piece) 4096).ret < 0
      · rw [if_pos failed, if_pos failed]
      · simp only [if_neg failed, List.length_nil, Nat.reduceEqDiff, false_and, if_false,
          List.append_nil]
        by_cases used : buf ++ piece = []
        · simp [used]
        · simp [used, unshift]
    · refine .ended counts ?_
      split
      next failed =>
        rw [← left, ← pieces, ← List.append_assoc, (does.negative failed).1]
      · rw [← left, ← pieces, List.append_assoc]

/-! ### All rounds -/

/-- However the input is cut, the rounds return the data up to where they leave the stream. -/
theorem rounds_spec (inflates : Inflates inflate gz more data At start) (fuel : Nat)
    (enough : data.length < fuel) (pieces : List Bytes) {s : GunzipStream σ} {rest : Bytes}
    {j : Nat} (stands : Stands inflate gz more data At start s (pieces.flatten ++ rest) j) :
    ∃ s' strings, rounds inflate fuel s pieces = some strings ∧
      Stands inflate gz more data At start s' rest (j + strings.flatten.length) ∧
      strings.flatten <+: data.drop j := by
  induction pieces generalizing s j with
  | nil => exact ⟨s, [], rfl, stands, List.nil_prefix⟩
  | cons piece pieces ih =>
    rw [List.flatten_cons, List.append_assoc] at stands
    obtain ⟨next, out, run, stands', gives⟩ := consume_spec inflates fuel enough stands
    obtain ⟨s', strings, runs, all, behind⟩ := ih stands'
    refine ⟨s', out :: strings, by simp [rounds, run, runs], ?_, ?_⟩
    · rw [List.flatten_cons, List.length_append, ← Nat.add_assoc]
      exact all
    · rw [← List.drop_drop] at behind
      exact prefix_append_of_drop gives behind

/-- What `inflate` puts out of a piece is what the round returns. -/
theorem inflateLoop_of_taken (inflates : Inflates inflate gz more data At start) (fuel : Nat)
    {s s' : σ} {k j n : Nat} {input : Bytes} (deflatedData : Bytes) (at_ : At s k j)
    (part : input <+: (gz ++ more).drop k) (some_input : input ≠ [])
    (enough : data.length - j < fuel) (only : more = []) (taken : Taken inflate s input s' n) :
    ∃ out, inflateLoop inflate fuel s input deflatedData =
      some (s', some ([], deflatedData ++ out)) ∧
      out.length = n := by
  induction taken generalizing fuel k j deflatedData with
  | @last s input used =>
    have does := inflates.proceeds s k j input 4096 at_ part (by decide)
    obtain ⟨fuel, rfl⟩ : ∃ less, fuel = less + 1 := ⟨fuel - 1, by omega⟩
    refine ⟨(inflate s input 4096).out, ?_, rfl⟩
    rw [inflateLoop]
    simp only [if_neg fun failed => some_input (does.negative failed).1, used]
    simp
  | @again s s' input n left rest ih =>
    have does := inflates.proceeds s k j input 4096 at_ part (by decide)
    have behind := suffix_continues does.takes part
    -- with no other member the input is not left because this one has ended
    have filled : (inflate s input 4096).out.length = 4096 := by
      rcases does.stops with used | filled | ⟨ended, -⟩
      · exact absurd used left
      · exact filled
      · rw [ended, only, List.append_nil, List.drop_length] at behind
        exact absurd (List.prefix_nil.mp behind) left
    have within : (inflate s input 4096).out.length ≤ data.length - j := by
      simpa using does.gives.length_le
    obtain ⟨fuel, rfl⟩ : ∃ less, fuel = less + 1 := ⟨fuel - 1, by omega⟩
    obtain ⟨out, run, length⟩ :=
      ih fuel (deflatedData ++ (inflate s input 4096).out) does.counts behind
      left (by omega)
    refine ⟨(inflate s input 4096).out ++ out, ?_, by rw [List.length_append, length]⟩
    rw [inflateLoop]
    simp only [if_neg fun failed => some_input (does.negative failed).1, filled, true_and, left,
      ne_eq, not_false_eq_true, if_true, run, List.append_assoc]

/-- Some rounds go where `inflate` can be brought. -/
theorem rounds_of_given (inflates : Inflates inflate gz more data At start) (fuel : Nat)
    (enough : data.length < fuel) (only : more = []) {s : σ} {k j : Nat}
    (given : Given inflate start (gz ++ more) s k j) :
    ∃ pieces strings, (gz ++ more).take k = pieces.flatten ∧ strings.flatten.length = j ∧
      ∀ rest, rounds inflate fuel ⟨[], start⟩ (pieces ++ rest) =
        (rounds inflate fuel ⟨[], s⟩ rest).map (strings ++ ·) := by
  induction given with
  | start => exact ⟨[], [], by simp, rfl, by simp⟩
  | @piece s s' k j n piece given part taken ih =>
    obtain ⟨pieces, strings, cut, length, run⟩ := ih
    have at_ := given.counts inflates
    obtain ⟨out, consumed, outLength⟩ : ∃ out,
        consume inflate fuel (feed ⟨[], s⟩ piece) = some (out, ⟨[], s'⟩) ∧ out.length = n := by
      by_cases empty : piece = []
      · subst empty
        have does := inflates.proceeds s k j [] 4096 at_ part (by decide)
        obtain ⟨fuel, rfl⟩ : ∃ less, fuel = less + 1 := ⟨fuel - 1, by omega⟩
        have used : (inflate s [] 4096).nextIn = [] := List.suffix_nil.mp does.takes
        cases taken with
        | again left _ => exact absurd used left
        | last _ =>
          refine ⟨_, ?_, rfl⟩
          simp only [consume, shift, feed, List.nil_append, inflateLoop, used]
          by_cases failed : (inflate s [] 4096).ret < 0
          · rw [if_pos failed, (does.negative failed).2]
          · rw [if_neg failed, if_neg (by simp)]
            simp
      · obtain ⟨out, looped, outLength⟩ :=
          inflateLoop_of_taken inflates fuel [] at_ part empty (by omega) only taken
        exact ⟨out, by simp [consume, shift, feed, looped], outLength⟩
    refine ⟨pieces ++ [piece], strings ++ [out], ?_, by simp [length, outLength], fun rest => ?_⟩
    · obtain ⟨behind, whole⟩ := part
      rw [List.take_add, cut, ← whole, List.take_left, List.flatten_append, List.flatten_singleton]
    · rw [List.append_assoc, run, List.singleton_append]
      simp only [rounds, consumed, Option.bind_eq_bind, Option.bind_some]
      cases rounds inflate fuel ⟨[], s'⟩ rest <;> simp

/-- However a gzip stream is cut into rounds, the strings they return are together the data, exactly
if no data are in the members behind the first one and, where there are none, nothing is held back
when the last byte has been taken. -/
theorem rounds_whole_iff (inflates : Inflates inflate gz more data At start) (moreData : Bytes)
    (fuel : Nat) (enough : data.length < fuel) :
    (∀ pieces : List Bytes, pieces.flatten = gz ++ more →
      ∃ strings, rounds inflate fuel ⟨[], start⟩ pieces = some strings ∧
        strings.flatten = data ++ moreData) ↔
      moreData = [] ∧ (more = [] → NothingHeld inflate gz data start) := by
  have begins (pieces : List Bytes) (cuts : pieces.flatten = gz ++ more) :
      Stands inflate gz more data At start ⟨[], start⟩ (pieces.flatten ++ []) 0 := by
    rw [List.append_nil, cuts]
    exact .taking .start
  constructor
  · intro whole
    -- no string is longer than the data of the first member
    obtain ⟨strings, run, all⟩ := whole [gz ++ more] (by simp)
    obtain ⟨-, strings', run', -, gives⟩ := 
      rounds_spec inflates fuel enough _ (begins [gz ++ more] (by simp))
    obtain rfl := Option.some.inj (run.symm.trans run')
    have short := gives.length_le
    rw [all, List.drop_zero, List.length_append] at short
    have none_ : moreData = [] := List.eq_nil_of_length_eq_zero (by omega)
    refine ⟨none_, fun only s j given => ?_⟩
    obtain ⟨pieces, strings, cut, length, run⟩ :=
      rounds_of_given inflates fuel enough only (by rw [only, List.append_nil]; exact given)
    rw [only, List.append_nil, List.take_length] at cut
    obtain ⟨strings', run', all⟩ := whole pieces (by rw [← cut, only, List.append_nil])
    have ends := run []
    rw [List.append_nil, run', rounds, Option.map_some, List.append_nil] at ends
    obtain rfl := Option.some.inj ends
    rw [← length, all, none_, List.append_nil]
  · rintro ⟨rfl, nothingHeld⟩ pieces cuts
    obtain ⟨s', strings, run, stands, gives⟩ :=
      rounds_spec inflates fuel enough _ (begins pieces cuts)
    refine ⟨strings, run, ?_⟩
    rw [Nat.zero_add] at stands
    rw [List.drop_zero] at gives
    -- where the rounds end all the data are out
    have length : strings.flatten.length = data.length := by
      generalize behind : ([] : Bytes) = rest at stands
      generalize strings.flatten.length = j at stands ⊢
      cases stands with
      | @taking stream k j given =>
        have at_ := given.counts inflates
        have last : (gz ++ more).length ≤ k := List.drop_eq_nil_iff.mp behind.symm
        have does := inflates.proceeds stream k _ [] 4096 at_ List.nil_prefix (by decide)
        have member := does.member
        rw [List.length_append] at last
        have only : more = [] := List.eq_nil_of_length_eq_zero (by omega)
        obtain rfl : k = gz.length := by omega
        exact nothingHeld only stream _ (by rw [only, List.append_nil] at given; exact given)
      | ended _ _ => rfl
    rw [List.append_nil]
    exact gives.eq_of_length length

/-- Holding nothing back comes from working in order: a byte is taken when everything that the bytes
before it decide has been put out, and no data come from the last one. -/
theorem nothingHeld_of_inOrder (inflates : Inflates inflate gz [] data At start)
    (decided : Nat → Nat) (nonempty : gz ≠ []) (trailer : data.length ≤ decided (gz.length - 1))
    (inOrder : ∀ s k j, At s k j → k = 0 ∨ decided (k - 1) ≤ j)
    (bounded : ∀ s k j, At s k j → j ≤ data.length) :
    NothingHeld inflate gz data start := by
  intro s j given
  have at_ := Given.counts inflates (by rw [List.append_nil]; exact given)
  have none_ : gz.length ≠ 0 := fun empty => nonempty (List.eq_nil_of_length_eq_zero empty)
  have before := (inOrder s _ _ at_).resolve_left none_
  have most := bounded s _ _ at_
  omega

/-! A member that holds the letter `a`, and `inflate` on it: the letter is decided by the first twelve
bytes. -/

def letterA : Bytes := [31, 139, 8, 0, 0, 0, 0, 0, 0, 255, 75, 4, 0, 67, 190, 183, 232, 1, 0, 0, 0]

def decidedA (k : Nat) : Nat := if 12 ≤ k then 1 else 0

/-- The state is the number of bytes taken. -/
def inflateA : Inflate Nat := fun k input _ =>
  let taken := min input.length (21 - k)
  { stream := k + taken
    nextIn := input.drop taken
    out := if k < 12 ∧ 12 ≤ k + taken then [97] else []
    ret := if k + taken = 21 then 1 else if taken = 0 then -5 else 0 }

theorem inflateA_inflates (more : Bytes) :
    Inflates inflateA letterA more [97] (fun s k j => s = k ∧ k ≤ 21 ∧ j = decidedA k) 0 where
  begins := by decide
  proceeds := by
    rintro s k j input room ⟨rfl, within, rfl⟩ part _
    have size : letterA.length = 21 := by decide
    have taken : input.length - (inflateA s input room).nextIn.length =
        min input.length (21 - s) := by
      simp only [inflateA, List.length_drop]
      omega
    have wrote : decidedA s + (inflateA s input room).out.length =
        decidedA (s + min input.length (21 - s)) := by
      simp only [inflateA, decidedA]
      split_ifs <;> first | rfl | omega
    refine ⟨List.drop_suffix _ _, ?_, ?_, ?_, ?_, ?_⟩
    · simp only [inflateA, decidedA]
      split_ifs with crosses
      · omega
      · exact List.prefix_rfl
      · exact List.nil_prefix
      · exact List.nil_prefix
    · rw [wrote, taken]
      exact ⟨rfl, by omega, rfl⟩
    · rw [taken]
      omega
    · rw [wrote, taken]
      -- the input is used up, or it goes on behind the member
      by_cases used : input.length ≤ 21 - s
      · left
        simp [inflateA, used]
      · right
        right
        have ended : s + min input.length (21 - s) = 21 := by omega
        rw [ended]
        exact ⟨size.symm, rfl⟩
    · intro failed
      -- it only fails to proceed when there is no input
      have nothing : input.length = 0 := by
        by_contra some_
        simp only [inflateA] at failed
        split at failed
        · omega
        · split at failed <;> omega
      have empty : input = [] := List.length_eq_zero_iff.mp nothing
      subst empty
      refine ⟨rfl, if_neg ?_⟩
      rw [List.length_nil, Nat.zero_min, Nat.add_zero]
      omega

theorem inflateA_holds_nothing : NothingHeld inflateA letterA [97] 0 := by
  refine nothingHeld_of_inOrder (inflateA_inflates []) decidedA (by decide) (by decide) ?_ ?_
  · rintro s k j ⟨-, -, rfl⟩
    simp only [decidedA]
    split_ifs <;> omega
  · rintro s k j ⟨-, -, rfl⟩
    simp only [decidedA]
    split_ifs <;> decide

theorem rounds_whole_iff_letter :
    ∃ strings, rounds inflateA 2 ⟨[], 0⟩ [letterA.take 11, [], letterA.drop 11] = some strings ∧
      strings.flatten = [97] :=
  (rounds_whole_iff (inflateA_inflates []) [] 2 (by decide)).mpr
    ⟨rfl, fun _ => inflateA_holds_nothing⟩
    _ (by decide)

/-- Of two members only the first one is returned. -/
theorem second_member_lost :
    ¬ ∀ pieces : List Bytes, pieces.flatten = letterA ++ letterA →
      ∃ strings, rounds inflateA 2 ⟨[], 0⟩ pieces = some strings ∧ strings.flatten = [97, 97] := by
  intro whole
  obtain ⟨strings, run, all⟩ := whole [letterA ++ letterA] (by simp)
  have result : rounds inflateA 2 ⟨[], 0⟩ [letterA ++ letterA] = some [[97]] := by decide
  obtain rfl := Option.some.inj (run.symm.trans result)
  exact absurd all (by decide)

end GunzipStream

end Zn
