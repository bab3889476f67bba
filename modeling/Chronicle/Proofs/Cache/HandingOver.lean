import Chronicle.Proofs.Access.Apart
import Chronicle.Proofs.Cache.Replaying

/-!
# Handing over to the source

A read through a cache replays what its segments yield, and then the source takes over. Whatever becomes of
the writing behind it changes the files and nothing else, so the source is pulled as if it were read alone,
and what it finds is what the read answers. After the first end of the source, or its refusal to be opened,
the read answers nothing more.
-/

namespace Chronicle

variable {W P : Type}

namespace Cache

variable (files : Place W FileSystem) (options : Options) (source : EventReader W P)

section Worlds

/-- Ending the writing changes the files and nothing else. -/
theorem stopWriting_world (hplace : files.Lawful) (w : W) (read : CachedRead source.Cursor P) :
    ∃ fs, (stopWriting files source w read).1 = files.set w fs := by
  unfold stopWriting
  cases read.sink with
  | none => exact ⟨files.get w, (hplace.set_get w).symm⟩
  | some sink => exact ⟨_, rfl⟩

/-- Ending the writing leaves where a read stands. -/
theorem stopWriting_phase (w : W) (read : CachedRead source.Cursor P) :
    (stopWriting files source w read).2.phase = read.phase := by
  unfold stopWriting
  cases read.sink <;> rfl

/-- Finishing the new segment leaves where a read stands. -/
theorem finishSegment_phase (w : W) (read : CachedRead source.Cursor P) :
    (finishSegment files source w read).2.phase = read.phase := by
  unfold finishSegment
  cases read.sink <;> rfl

/-- The file for an event of the tail is had by changing the files and nothing else. -/
theorem sinkFor_world (hplace : files.Lawful) (w : W) (read : CachedRead source.Cursor P) :
    ∃ fs, (sinkFor files options source w read).1 = files.set w fs := by
  unfold sinkFor
  cases read.sink with
  | none => exact ⟨_, rfl⟩
  | some sink => exact ⟨files.get w, (hplace.set_get w).symm⟩

/-- Writing an event of the tail changes the files and nothing else, and leaves where a read stands. -/
theorem writeThrough_world (hplace : files.Lawful) (w : W) (read : CachedRead source.Cursor P)
    (event : Placed P) :
    (∃ fs, (writeThrough files options source w read event).1 = files.set w fs) ∧
      (writeThrough files options source w read event).2.phase = read.phase := by
  obtain ⟨fs, hworld⟩ := sinkFor_world files options source hplace w read
  have hstopped : ∀ read' : CachedRead source.Cursor P, ∃ fs',
      (stopWriting files source (files.set w fs) read').1 = files.set w fs' := by
    intro read'
    obtain ⟨fs', hstop⟩ := stopWriting_world files source hplace (files.set w fs) read'
    exact ⟨fs', hstop.trans (hplace.set_set w fs fs')⟩
  unfold writeThrough
  split
  · rcases hsink : sinkFor files options source w read with ⟨w', _ | sink⟩
    · rw [hsink] at hworld
      obtain rfl : w' = files.set w fs := hworld
      exact ⟨hstopped read, stopWriting_phase files source _ read⟩
    · rw [hsink] at hworld
      obtain rfl : w' = files.set w fs := hworld
      dsimp only
      split
      · exact ⟨⟨fs, rfl⟩, rfl⟩
      · exact ⟨hstopped _, stopWriting_phase files source _ _⟩
  · exact ⟨⟨files.get w, (hplace.set_get w).symm⟩, rfl⟩

end Worlds

section Finding

variable {files options source} {w later : W} {read : CachedRead source.Cursor P}
  {c next : source.Cursor} {found : Found P}

/-- A pull of an open read steps the read through the cache. -/
theorem pull_cached {read' : CachedRead source.Cursor P}
    (h : pullCached files options source w read = (later, read', found)) :
    (reads files options source).pull w (.cached read) = (later, .cached read', found) := by
  have hpull : (reads files options source).pull w (.cached read) =
      ((pullCached files options source w read).1, .cached (pullCached files options source w read).2.1,
        (pullCached files options source w read).2.2) := rfl
  rw [hpull, h]

/-- A read that has reached the source steps it. -/
theorem pullCached_tail (hphase : read.phase = .tail c) :
    pullCached files options source w read = pullTail files options source w read c := by
  unfold pullCached
  rw [hphase]

/-- A read that has ended stays where it is. -/
theorem pullCached_done (hphase : read.phase = .done) :
    pullCached files options source w read = (w, read, .finished) := by
  unfold pullCached
  rw [hphase]

/-- A read that has ended finds nothing more. -/
theorem finds_of_done (hphase : read.phase = .done) :
    (reads files options source).Finds w (.cached read) w (.cached read) .finished :=
  .here (pull_cached (pullCached_done hphase)) nofun

/-- What becomes of a read when its read of the source has found something. -/
structure Follows (files : Place W FileSystem) (later world : W) (next : source.Cursor)
    (read : CachedRead source.Cursor P) (found : Found P) : Prop where
  /-- After the end of the source it has ended. -/
  ended : found = .finished → read.phase = .done
  /-- Otherwise it goes on with the source, and nothing but the files is different. -/
  goesOn : found ≠ .finished → read.phase = .tail next ∧ ∃ fs, world = files.set later fs

variable (files options) in
/-- A read skips when its source does. -/
theorem pullTail_skipped (hpull : source.pull w c = (later, next, .skipped))
    (read : CachedRead source.Cursor P) :
    pullTail files options source w read c = (later, { read with phase := .tail next }, .skipped) := by
  unfold pullTail
  rw [hpull]

variable (options) in
/-- A step of a read finds what a step of its source finds. -/
theorem pullTail_follows (hplace : files.Lawful) (hpull : source.pull w c = (later, next, found))
    (read : CachedRead source.Cursor P) : ∃ world read',
      pullTail files options source w read c = (world, read', found) ∧
        Follows files later world next read' found := by
  unfold pullTail
  rw [hpull]
  cases found with
  | event e =>
    obtain ⟨hworld, hstays⟩ := writeThrough_world files options source hplace later
      { read with phase := .tail next } e
    exact ⟨_, _, rfl, nofun, fun _ => ⟨hstays, hworld⟩⟩
  | failure e =>
    have hworld := stopWriting_world files source hplace later { read with phase := .tail next }
    have hstays := stopWriting_phase files source later { read with phase := .tail next }
    exact ⟨_, _, rfl, nofun, fun _ => ⟨hstays, hworld⟩⟩
  | skipped => exact ⟨_, _, rfl, nofun, fun _ => ⟨rfl, files.get later, (hplace.set_get later).symm⟩⟩
  | finished =>
    have hended := finishSegment_phase files source (source.close later next) { read with phase := .done }
    exact ⟨_, _, rfl, fun _ => hended, fun hne => absurd rfl hne⟩

variable (options) in
/-- A read finds what its source finds. -/
theorem finds_of_tail (hplace : files.Lawful) (hf : source.Finds w c later next found)
    (hphase : read.phase = .tail c) : ∃ world read',
      (reads files options source).Finds w (.cached read) world (.cached read') found ∧
        Follows files later world next read' found := by
  induction hf generalizing read with
  | here hpull hne =>
    obtain ⟨world, read', hstep, hfollows⟩ := pullTail_follows options hplace hpull read
    exact ⟨world, read', .here (pull_cached ((pullCached_tail hphase).trans hstep)) hne, hfollows⟩
  | @skip _ _ _ _ cursor _ _ hpull _ ih =>
    have hstep := (pullCached_tail hphase).trans (pullTail_skipped files options hpull read)
    have hgoesOn : ({ read with phase := .tail cursor } : CachedRead source.Cursor P).phase = .tail cursor :=
      rfl
    obtain ⟨world, read', hf, hfollows⟩ := ih hgoesOn
    exact ⟨world, read', .skip (pull_cached hstep) hf, hfollows⟩

variable (options) in
/-- A read that has something to replay finds its first event. -/
theorem finds_of_replaying (hphase : read.phase = .replaying) {e : Placed P} {rest : List (Placed P)}
    (hleft : leftToReplay files source w read = e :: rest) : ∃ read',
      (reads files options source).Finds w (.cached read) w (.cached read') (.event e) ∧
        read'.phase = .replaying ∧ leftToReplay files source w read' = rest ∧
          handover files source w read' = handover files source w read := by
  induction hn : skipsLeft read using Nat.strongRecOn generalizing read with
  | ind n ih =>
    subst hn
    rcases pullCached_replaying files source w options hphase with
      ⟨read', found, hpull, hsteps⟩ | ⟨hfile, hsegments, -⟩
    · have hstep : (reads files options source).pull w (.cached read) = (w, .cached read', found) :=
        pull_cached hpull
      have hphase' := hsteps.phase_eq.trans hphase
      rcases hsteps.found with ⟨rfl, hsame, hskips⟩ | ⟨e', rfl, hfirst⟩
      · obtain ⟨last, hf, hlast, hrest, hover⟩ := ih _ hskips hphase' (hsame.trans hleft) rfl
        exact ⟨last, .skip hstep hf, hlast, hrest, hover.trans hsteps.handover_eq⟩
      · rw [hleft] at hfirst
        obtain ⟨rfl, rfl⟩ := List.cons.inj hfirst
        exact ⟨read', .here hstep nofun, hphase', rfl, hsteps.handover_eq⟩
    · rw [(handover_of_nil files source w hfile hsegments).1] at hleft
      nomatch hleft

variable (options) in
/-- A read that has nothing to replay skips to where it turns to the source. -/
theorem skips_to_turn (hphase : read.phase = .replaying) (hleft : leftToReplay files source w read = []) :
    ∃ read', (reads files options source).Skips w (.cached read) w (.cached read') ∧
      (reads files options source).pull w (.cached read') =
        match source.forwardsFrom w (handover files source w read) with
        | .ok c => (w, .cached { read' with phase := .tail c }, .skipped)
        | .error e => (w, .cached { read' with phase := .done }, .failure e) := by
  induction hn : skipsLeft read using Nat.strongRecOn generalizing read with
  | ind n ih =>
    subst hn
    rcases pullCached_replaying files source w options hphase with
      ⟨read', found, hpull, hsteps⟩ | ⟨hfile, hsegments, hpull⟩
    · have hstep : (reads files options source).pull w (.cached read) = (w, .cached read', found) :=
        pull_cached hpull
      rcases hsteps.found with ⟨rfl, hsame, hskips⟩ | ⟨e, rfl, hfirst⟩
      · obtain ⟨last, hs, hturn⟩ := ih _ hskips (hsteps.phase_eq.trans hphase) (hsame.trans hleft) rfl
        rw [hsteps.handover_eq] at hturn
        exact ⟨last, (Reads.Skips.refl.step hstep).trans hs, hturn⟩
      · rw [hleft] at hfirst
        nomatch hfirst
    · refine ⟨read, .refl, ?_⟩
      rw [(handover_of_nil files source w hfile hsegments).2.1]
      cases hopened : source.forwardsFrom w read.lastPosition with
      | ok c =>
        rw [hopened] at hpull
        exact pull_cached hpull
      | error e =>
        rw [hopened] at hpull
        exact pull_cached hpull

end Finding

section Promptness

variable {files options source} {w later : W} {read : CachedRead source.Cursor P} {c next : source.Cursor}

/-- The open reads of a caching reader whose reads of the source were opened, and pulled since. -/
def Below (source : EventReader W P) : Cursor source.Cursor P → Prop
  | .direct c => source.Held c
  | .cached read => ∀ c, read.phase = .tail c → source.Held c

/-- A read that has not reached the source holds none of its reads. -/
theorem below_of_replaying (hphase : read.phase = .replaying) : Below source (.cached read) := by
  intro c hc
  rw [hphase] at hc
  nomatch hc

/-- A read that has ended holds no read of the source. -/
theorem below_of_done (hphase : read.phase = .done) : Below source (.cached read) := by
  intro c hc
  rw [hphase] at hc
  nomatch hc

/-- A read that has reached the source holds the read of it. -/
theorem below_of_tail (hphase : read.phase = .tail c) (hc : source.Held c) :
    Below source (.cached read) := by
  intro other ho
  rw [hphase] at ho
  cases ho
  exact hc

/-- Whatever pull comes next, the read of the source stays one that was opened, and pulled since. -/
theorem below_pull (hplace : files.Lawful) {c : Cursor source.Cursor P} (hc : Below source c) (w : W) :
    Below source ((reads files options source).pull w c).2.1 := by
  cases c with
  | direct c =>
    have hheld : source.Held c := hc
    exact hheld.pulled
  | cached read =>
    cases hphase : read.phase with
    | done =>
      rw [pull_cached (pullCached_done hphase)]
      exact hc
    | tail c =>
      rcases hpull : source.pull w c with ⟨later, next, found⟩
      have hnext : source.Held (source.pull w c).2.1 := (hc c hphase).pulled
      rw [hpull] at hnext
      obtain ⟨world, read', hstep, hfollows⟩ := pullTail_follows options hplace hpull read
      rw [pull_cached ((pullCached_tail hphase).trans hstep)]
      by_cases hend : found = .finished
      · exact below_of_done (hfollows.ended hend)
      · exact below_of_tail (hfollows.goesOn hend).1 hnext
    | replaying =>
      rcases pullCached_replaying files source w options hphase with
        ⟨read', found, hpull, hsteps⟩ | ⟨-, -, hpull⟩
      · rw [pull_cached hpull]
        exact below_of_replaying (hsteps.phase_eq.trans hphase)
      · cases hopened : source.forwardsFrom w read.lastPosition with
        | ok c =>
          rw [hopened] at hpull
          rw [pull_cached hpull]
          exact below_of_tail rfl (.opened hopened)
        | error e =>
          rw [hopened] at hpull
          rw [pull_cached hpull]
          exact below_of_done rfl

variable (options) in
/-- A read that passes a read of the source seeks as that does. -/
theorem seek_tail (steps : Nat) (hplace : files.Lawful) (hphase : read.phase = .tail c) :
    ((source.seek steps w c).2.2 ≠ .skipped →
        ((reads files options source).seek steps w (.cached read)).2.2 ≠ .skipped) ∧
      ∀ later next, source.seek steps w c = (later, next, .skipped) →
        ∃ read', (reads files options source).seek steps w (.cached read) =
          (later, .cached read', .skipped) ∧ read'.phase = .tail next := by
  induction steps generalizing w c read with
  | zero =>
    refine ⟨fun hne => absurd rfl hne, ?_⟩
    intro later next h
    cases h
    exact ⟨read, rfl, hphase⟩
  | succ steps ih =>
    have hmine := (reads files options source).seek_succ steps w (.cached read)
    rw [hmine, source.seek_succ]
    rcases hpull : source.pull w c with ⟨later, next, found⟩
    cases found with
    | skipped =>
      rw [pull_cached ((pullCached_tail hphase).trans (pullTail_skipped files options hpull read))]
      exact ih rfl
    | _ =>
      obtain ⟨world, read', hstep, -⟩ := pullTail_follows options hplace hpull read
      rw [pull_cached ((pullCached_tail hphase).trans hstep)]
      exact ⟨fun _ => nofun, fun _ _ h => nomatch (congrArg (·.2.2) h)⟩

/-- A read that passes a read of the source searches as that does. -/
theorem search_tail (rounds : Nat) (hplace : files.Lawful) (hphase : read.phase = .tail c)
    (hne : (source.search rounds w c).2.2 ≠ .skipped) :
    ((reads files options source).search rounds w (.cached read)).2.2 ≠ .skipped := by
  induction rounds generalizing w c read with
  | zero => exact hne
  | succ rounds ih =>
    have hextent : (reads files options source).extent w (.cached read) = source.extent w c := by
      change extentCached files source w read = _
      unfold extentCached
      rw [hphase]
    have hmine := (reads files options source).search_succ rounds w (.cached read)
    rw [source.search_succ] at hne
    rw [hmine, hextent]
    obtain ⟨hfound, hskipped⟩ := seek_tail options (source.extent w c + 1) hplace hphase (w := w)
    rcases hseek : source.seek (source.extent w c + 1) w c with ⟨later, next, found⟩
    rw [hseek] at hne hfound
    cases found with
    | skipped =>
      obtain ⟨read', hsame, hphase'⟩ := hskipped later next hseek
      rw [hsame]
      exact ih hphase' hne
    | _ =>
      rcases hmine : (reads files options source).seek (source.extent w c + 1) w (.cached read) with
        ⟨world, cursor, what⟩
      have hwhat := hfound nofun
      rw [hmine] at hwhat
      cases what with
      | skipped => exact absurd rfl hwhat
      | _ => exact nofun

variable (files options source) in
/-- A read of the source alone seeks as the source does. -/
theorem seek_direct (steps : Nat) (w : W) (c : source.Cursor) :
    (reads files options source).seek steps w (.direct c) =
      ((source.seek steps w c).1, .direct (source.seek steps w c).2.1, (source.seek steps w c).2.2) := by
  induction steps generalizing w c with
  | zero => rfl
  | succ steps ih =>
    have hmine := (reads files options source).seek_succ steps w (.direct c)
    have hpull : (reads files options source).pull w (.direct c) =
        ((source.pull w c).1, .direct (source.pull w c).2.1, (source.pull w c).2.2) := rfl
    rw [hmine, hpull, source.seek_succ]
    rcases source.pull w c with ⟨later, next, found⟩
    cases found with
    | skipped => exact ih later next
    | _ => rfl

variable (files options source) in
/-- A read of the source alone searches as the source does. -/
theorem search_direct (rounds : Nat) (w : W) (c : source.Cursor) :
    (reads files options source).search rounds w (.direct c) =
      ((source.search rounds w c).1, .direct (source.search rounds w c).2.1,
        (source.search rounds w c).2.2) := by
  induction rounds generalizing w c with
  | zero => rfl
  | succ rounds ih =>
    have hmine := (reads files options source).search_succ rounds w (.direct c)
    have hextent : (reads files options source).extent w (.direct c) = source.extent w c := rfl
    rw [hmine, hextent, seek_direct, source.search_succ]
    rcases source.seek (source.extent w c + 1) w c with ⟨later, next, found⟩
    cases found with
    | skipped => exact ih later next
    | _ => rfl

/-- A read of the tail that has only skipped still passes the tail. -/
theorem seek_stays (steps : Nat) (hplace : files.Lawful) (hphase : read.phase = .tail c)
    {cursor : Cursor source.Cursor P}
    (hseek : (reads files options source).seek steps w (.cached read) = (later, cursor, .skipped)) :
    ∃ read' c', cursor = .cached read' ∧ read'.phase = .tail c' := by
  obtain ⟨hfound, hskipped⟩ := seek_tail options steps hplace hphase (w := w)
  rcases hbelow : source.seek steps w c with ⟨world, next, found⟩
  rw [hbelow] at hfound
  cases found with
  | skipped =>
    obtain ⟨read', hsame, hphase'⟩ := hskipped world next hbelow
    rw [hsame] at hseek
    exact ⟨read', next, (congrArg (·.2.1) hseek).symm, hphase'⟩
  | _ => exact absurd (congrArg (·.2.2) hseek) (hfound nofun)

/-- A read that skips more often than there is to skip before the source takes over has reached it. -/
theorem seek_reaches (steps : Nat) (hplace : files.Lawful) (hpos : 0 < steps)
    (hskips : read.phase = .replaying → skipsLeft read < steps) {cursor : Cursor source.Cursor P}
    (hseek : (reads files options source).seek steps w (.cached read) = (later, cursor, .skipped)) :
    ∃ read' c', cursor = .cached read' ∧ read'.phase = .tail c' := by
  induction steps generalizing read with
  | zero => exact absurd hpos (Nat.lt_irrefl 0)
  | succ steps ih =>
    have hmine := (reads files options source).seek_succ steps w (.cached read)
    rw [hseek] at hmine
    cases hphase : read.phase with
    | done =>
      rw [pull_cached (pullCached_done hphase)] at hmine
      nomatch congrArg (·.2.2) hmine
    | tail c => exact seek_stays (steps + 1) hplace hphase hseek
    | replaying =>
      have hless := hskips hphase
      rcases pullCached_replaying files source w options hphase with
        ⟨read', found, hpull, hsteps⟩ | ⟨-, -, hpull⟩
      · rw [pull_cached hpull] at hmine
        rcases hsteps.found with ⟨rfl, -, hfewer⟩ | ⟨e, rfl, -⟩
        · exact ih (by omega) (fun _ => by omega) hmine.symm
        · nomatch congrArg (·.2.2) hmine
      · cases hopened : source.forwardsFrom w read.lastPosition with
        | ok c =>
          rw [hopened] at hpull
          rw [pull_cached hpull] at hmine
          exact seek_stays steps hplace rfl hmine.symm
        | error e =>
          rw [hopened] at hpull
          rw [pull_cached hpull] at hmine
          nomatch congrArg (·.2.2) hmine

/-- The extent of a read that replays segments covers its skips. -/
theorem skipsLeft_le_extent (w : W) (hphase : read.phase = .replaying) :
    skipsLeft read < extentCached files source w read + 1 := by
  have hcurrent : read.current.toList.length ≤ 1 := by
    cases read.current <;> simp
  unfold skipsLeft extentCached
  rw [hphase]
  dsimp only
  omega

/-- The reads of a caching reader are prompt if those of its source are. -/
theorem prompt_reads (hplace : files.Lawful) (hsource : source.Prompt) :
    (reads files options source).Prompt (Below source) where
  keeps w _ hc := below_pull hplace hc w
  finds w c hc := by
    have hrounds : (reads files options source).growths + 1 = source.growths + 1 + 1 := rfl
    rw [hrounds]
    cases c with
    | direct c =>
      have hfound := hsource.finds w c hc
      have hmine : ((reads files options source).search (source.growths + 1 + 1) w (.direct c)).2.2 =
          (source.search (source.growths + 1 + 1) w c).2.2 :=
        congrArg (·.2.2) (search_direct files options source (source.growths + 1 + 1) w c)
      rw [hmine, Reads.search_succ_of_ne hfound]
      exact hfound
    | cached read =>
      -- after the first round the source has taken over, and its own rounds suffice
      have hmine := (reads files options source).search_succ (source.growths + 1) w (.cached read)
      rw [hmine]
      rcases hseek : (reads files options source).seek
          ((reads files options source).extent w (.cached read) + 1) w (.cached read) with
        ⟨later, cursor, found⟩
      cases found with
      | skipped =>
        have hreaches : ∃ read' c', cursor = .cached read' ∧ read'.phase = .tail c' :=
          seek_reaches _ hplace (Nat.succ_pos _) (skipsLeft_le_extent w) hseek
        obtain ⟨read', c', rfl, hphase⟩ := hreaches
        have hkeeps : ∀ w c, Below source c → Below source ((reads files options source).pull w c).2.1 :=
          fun w _ hc => below_pull hplace hc w
        have hbelow : Below source (.cached read') := Reads.Skips.keeps hkeeps (Reads.skips_of_seek hseek) hc
        exact search_tail _ hplace hphase (hsource.finds later c' (hbelow c' hphase))
      | _ => exact nofun

section Opening

variable [DecidableEq P]

/-- Whatever was opened and pulled of a caching reader holds reads of the source that were. -/
theorem below_of_held (hplace : files.Lawful) {c : (eventReader files options source).Cursor}
    (hc : (eventReader files options source).Held c) : Below source c := by
  induction hc with
  | @opened w position c hopened =>
    change (if position = source.emptyPosition then .ok (.cached (startRead files options source w))
      else Cursor.direct <$> source.forwardsFrom w position) = _ at hopened
    split at hopened
    · cases hopened
      exact below_of_replaying rfl
    · cases hbelow : source.forwardsFrom w position with
      | error e =>
        rw [hbelow] at hopened
        nomatch hopened
      | ok below =>
        rw [hbelow] at hopened
        cases hopened
        exact EventReader.Held.opened hbelow
  | @pulled w c _ ih => exact below_pull hplace ih w

/-- A caching reader is prompt if its source is, so a cache can be put on another. -/
theorem prompt_eventReader (hplace : files.Lawful) (hsource : source.Prompt) :
    (eventReader files options source).Prompt where
  keeps _ _ hc := hc.pulled
  finds w c hc := (prompt_reads hplace hsource).finds w c (below_of_held hplace hc)

end Opening

end Promptness

section Answering

variable {files options source} {w : W} {read : CachedRead source.Cursor P} {c : source.Cursor}

/-- The answers to some number of questions when there are these results to be had: one after the other, and
nothing more after the last. -/
def answersOf (items : List (Item P)) (count : Nat) : List (Option (Item P)) :=
  (List.range count).map (items[·]?)

/-- The first result is answered first. -/
theorem answersOf_cons (item : Item P) (items : List (Item P)) (count : Nat) :
    answersOf (item :: items) (count + 1) = some item :: answersOf items count := by
  unfold answersOf
  rw [List.range_succ_eq_map, List.map_cons, List.map_map]
  rfl

/-- Without any result to be had nothing is answered. -/
theorem answersOf_nil (count : Nat) : answersOf ([] : List (Item P)) count = List.replicate count none := by
  unfold answersOf
  rw [List.eq_replicate_iff]
  refine ⟨by rw [List.length_map, List.length_range], fun answer ha => ?_⟩
  obtain ⟨index, -, rfl⟩ := List.mem_map.1 ha
  rfl

/-- When there are fewer results than questions, all of them are answered, and then nothing. -/
theorem answersOf_of_lt {items : List (Item P)} {count : Nat} (h : items.length < count) :
    ∃ rest, answersOf items count = items.map some ++ none :: rest := by
  induction items generalizing count with
  | nil =>
    obtain ⟨more, rfl⟩ := Nat.exists_eq_succ_of_ne_zero (Nat.ne_of_gt h)
    exact ⟨List.replicate more none, answersOf_nil (more + 1)⟩
  | cons item items ih =>
    obtain ⟨more, rfl⟩ := Nat.exists_eq_succ_of_ne_zero (Nat.ne_of_gt (Nat.zero_lt_of_lt h))
    obtain ⟨rest, hrest⟩ := ih (Nat.lt_of_succ_lt_succ h)
    exact ⟨rest, by rw [answersOf_cons, hrest, List.map_cons, List.cons_append]⟩

/-- Nothing is answered only when there are fewer results than questions. -/
theorem lt_of_none_mem_answersOf {items : List (Item P)} {count : Nat} (h : none ∈ answersOf items count) :
    items.length < count := by
  obtain ⟨index, hindex, hnone⟩ := List.mem_map.1 h
  exact Nat.lt_of_le_of_lt (List.getElem?_eq_none_iff.1 hnone) (List.mem_range.1 hindex)

/-- A read that has ended answers nothing more. -/
theorem answers_of_done (hplace : files.Lawful) (hsource : source.Prompt) (hphase : read.phase = .done)
    (count : Nat) : ((reads files options source).ask count w (.cached read)).2.2 = answersOf [] count := by
  have hprompt : (reads files options source).Prompt (Below source) := prompt_reads hplace hsource
  rw [answersOf_nil]
  induction count with
  | zero => rfl
  | succ count ih =>
    rw [hprompt.ask_succ (below_of_done hphase) (finds_of_done hphase), List.replicate_succ, ← ih]
    rfl

variable (options) in
/-- A read that has reached the source answers what the source yields, up to its first end. -/
theorem answers_of_tail (hplace : files.Lawful) (hsource : source.Prompt) (hphase : read.phase = .tail c)
    (hc : source.Held c) (count : Nat) : ∃ items, source.Yields files count w c items ∧
      ((reads files options source).ask count w (.cached read)).2.2 = answersOf items count := by
  have hprompt : (reads files options source).Prompt (Below source) := prompt_reads hplace hsource
  induction count generalizing w c read with
  | zero => exact ⟨[], .limit w c, rfl⟩
  | succ count ih =>
    obtain ⟨later, next, found, hf⟩ := hsource.exists_finds hc w
    obtain ⟨world, read', hmine, hfollows⟩ := finds_of_tail options hplace hf hphase
    have hnext := hsource.next_eq hc hf
    rw [hprompt.ask_succ (below_of_tail hphase hc) hmine]
    cases hitem : found.item? with
    | none =>
      have hend : found = .finished := by
        cases found with
        | finished => rfl
        | skipped => exact absurd rfl hf.ne_skipped
        | _ => nomatch hitem
      rw [hitem] at hnext
      refine ⟨[], .ended hnext, ?_⟩
      rw [answers_of_done hplace hsource (hfollows.ended hend), answersOf_nil, answersOf_nil,
        List.replicate_succ]
    | some item =>
      have hmore : found ≠ .finished := by
        rintro rfl
        nomatch hitem
      obtain ⟨hphase', fs, rfl⟩ := hfollows.goesOn hmore
      rw [hitem] at hnext
      obtain ⟨items, hyields, hanswers⟩ := ih (w := files.set later fs) hphase' (hsource.kept hc hf)
      refine ⟨item :: items, .item hnext fs hyields, ?_⟩
      rw [hanswers, answersOf_cons]

/-- What the source yields once it has taken over after a position: what a read of it yields up to its first
end, or the refusal to be opened. -/
def TakesOver (files : Place W FileSystem) (source : EventReader W P) (w : W) (position : P) (limit : Nat)
    (items : List (Item P)) : Prop :=
  match source.forwardsFrom w position with
  | .ok c => source.Yields files limit w c items
  | .error e => items = [.error e]

/-- A source from which nothing is asked yields something, if only its refusal. -/
theorem exists_takesOver_zero (files : Place W FileSystem) (source : EventReader W P) (w : W) (position : P) :
    ∃ items, TakesOver files source w position 0 items := by
  unfold TakesOver
  cases source.forwardsFrom w position with
  | ok c => exact ⟨[], .limit w c⟩
  | error e => exact ⟨_, rfl⟩

variable (options) in
/-- A read that replays segments answers what they yield, and then what the source yields. -/
theorem answers_of_replaying (hplace : files.Lawful) (hsource : source.Prompt)
    (hphase : read.phase = .replaying) (count : Nat) : ∃ items,
      TakesOver files source w (handover files source w read)
        (count - (leftToReplay files source w read).length) items ∧
      ((reads files options source).ask count w (.cached read)).2.2 =
        answersOf ((leftToReplay files source w read).map .ok ++ items) count := by
  have hprompt : (reads files options source).Prompt (Below source) := prompt_reads hplace hsource
  -- by the events that are left to replay: the pulls between them only skip, and prompt reads pass skips
  induction hleft : leftToReplay files source w read generalizing count read with
  | nil =>
    obtain ⟨read', hskips, hpull⟩ := skips_to_turn options hphase hleft
    have hanswers := hprompt.answers_skip (below_of_replaying hphase) hskips count
    unfold TakesOver
    cases hopened : source.forwardsFrom w (handover files source w read) with
    | ok c =>
      rw [hopened] at hpull
      obtain ⟨items, hyields, htail⟩ := answers_of_tail options hplace hsource
        (rfl : ({ read' with phase := .tail c } : CachedRead source.Cursor P).phase = .tail c)
        (.opened hopened) (w := w) count
      refine ⟨items, hyields, ?_⟩
      rw [hprompt.answers_skip (below_of_replaying hphase) (hskips.step hpull), htail]
      rfl
    | error e =>
      rw [hopened] at hpull
      refine ⟨[.error e], rfl, hanswers.trans ?_⟩
      cases count with
      | zero => rfl
      | succ count =>
        rw [hprompt.ask_succ (hskips.keeps hprompt.keeps (below_of_replaying hphase)) (.here hpull nofun),
          answers_of_done hplace hsource rfl]
        exact (answersOf_cons _ _ _).symm
  | cons e rest ih =>
    cases count with
    | zero =>
      obtain ⟨items, htakes⟩ := exists_takesOver_zero files source w (handover files source w read)
      exact ⟨items, by rwa [Nat.zero_sub], rfl⟩
    | succ count =>
      obtain ⟨read', hf, hphase', hrest, hover⟩ := finds_of_replaying options hphase hleft
      obtain ⟨items, htakes, hanswers⟩ := ih hphase' count hrest
      rw [hover] at htakes
      refine ⟨items, ?_, ?_⟩
      · rw [List.length_cons, Nat.add_sub_add_right]
        exact htakes
      · rw [hprompt.ask_succ (below_of_replaying hphase) hf, hanswers, List.map_cons, List.cons_append,
          answersOf_cons]
        rfl

/-- Whatever stands in the directory of a cache, a read through it answers what the segments replay up to the
first damage, and from then on what the source yields when it is read from the last position replayed: its
results up to its first end, with failures in their places, or its refusal to be opened. After that it answers
nothing more. Whether the tail is written, and what becomes of the writing, makes no difference: it changes
nothing but the files, and a source that stands apart from them yields what it yields when it is read alone. -/
theorem cached_reads_hand_over [DecidableEq P] (hplace : files.Lawful) (hsource : source.Prompt)
    (options : Options) (w : W) (count : Nat) :
    let replayed := replayable source.codec (files.get w) options.directory options.stem
    let last := (replayed.getLast?.map (·.position)).getD source.emptyPosition
    ∃ c tail, (eventReader files options source).forwardsFrom w source.emptyPosition = .ok c ∧
      ((eventReader files options source).ask count w c).2.2 = answersOf (replayed.map .ok ++ tail) count ∧
      TakesOver files source w last (count - replayed.length) tail ∧
      (source.Apart files → tail =
        match source.forwardsFrom w last with
        | .ok below => (source.take (count - replayed.length) w below).2.2
        | .error e => [.error e]) := by
  intro replayed last
  have hphase : (startRead files options source w).phase = .replaying := rfl
  have hleft : leftToReplay files source w (startRead files options source w) = replayed :=
    leftToReplay_startRead files options source w
  have hover : handover files source w (startRead files options source w) = last := by
    unfold handover
    rw [hleft]
    rfl
  obtain ⟨tail, htakes, hanswers⟩ := answers_of_replaying options hplace hsource hphase count
  rw [hleft] at htakes hanswers
  rw [hover] at htakes
  refine ⟨.cached (startRead files options source w), tail, if_pos rfl, hanswers, htakes, fun hapart => ?_⟩
  unfold TakesOver at htakes
  cases hopened : source.forwardsFrom w last with
  | error e =>
    rw [hopened] at htakes
    exact htakes
  | ok below =>
    rw [hopened] at htakes
    dsimp only at htakes ⊢
    rw [← hplace.set_get w] at htakes
    exact hapart.take_eq hplace hsource (.opened hopened) htakes

end Answering

section Sources

/-- The next event of a store is found at once. -/
theorem Site.pull_ne_skipped (site : Site) (c : Site.source.Cursor) :
    (Site.source.pull site c).2.2 ≠ .skipped :=
  site.store.log.pull_ne_skipped c

/-- A store stands apart from the files beside it. -/
theorem Site.apart_source : Site.source.Apart Site.filesPlace := fun _ _ _ _ => rfl

/-- A segment of a cache holds one of three events and is cut short in the next. The source fails in the place
of the second event of its own read, and goes on after that. -/
theorem cached_reads_hand_over_cut :
    let orders : StreamId := ⟨"orders", "1", by decide⟩
    let store := (Store.withClock fun _ => .epoch).append orders
      [⟨"Placed", [1], []⟩, ⟨"Paid", [2], []⟩, ⟨"Sent", [3], []⟩]
    let first : Placed Nat := ⟨1, ⟨.epoch, orders, 0, "Placed", [1], []⟩⟩
    let second : Placed Nat := ⟨2, ⟨.epoch, orders, 1, "Paid", [2], []⟩⟩
    let third : Placed Nat := ⟨3, ⟨.epoch, orders, 2, "Sent", [3], []⟩⟩
    let cut := Gzip.pack (encodeAll [cachedOf first] ++ [0])
    let site : Site := ⟨store, { nodes := [
      ([.given "d"], .directory), ([.given "d", .given "cache-00000000.gz"], .file cut)] }⟩
    let failure : StoreError := .illegalState "out of order"
    let reader := FaultPlan.eventReader { items := [(1, failure)] } Site.source
    let options : Options := { directory := "d" }
    let caching := eventReader Site.filesPlace options reader
    Site.filesPlace.Lawful ∧ reader.Prompt ∧ reader.Apart Site.filesPlace ∧
      ∃ c, caching.forwardsFrom site 0 = .ok c ∧ (caching.ask 6 site c).2.2 =
        [some (.ok first), some (.ok second), some (.error failure), some (.ok third), none, none] := by
  intro orders store first second third cut site failure reader options caching
  have hplace : Site.filesPlace.Lawful := ⟨fun _ _ => rfl, fun _ => rfl, fun _ _ _ => rfl⟩
  have hprompt : reader.Prompt := reader.prompt_of_pulls (FaultPlan.pull_ne_skipped _ Site.pull_ne_skipped)
  have hapart : reader.Apart Site.filesPlace := FaultPlan.apart _ Site.apart_source
  have hreplayed : replayable reader.codec (Site.filesPlace.get site) options.directory options.stem =
      [first] := by
    have hscan : scanSegments site.files "d" defaultStem = .ok ⟨[0], []⟩ := by
      have hindices : [Name.given "cache-00000000.gz"].filterMap (segmentIndex? defaultStem ·.text) = [0] := by
        decide +kernel
      have hnames : site.files.list "d" = .ok [.given "cache-00000000.gz"] := rfl
      unfold scanSegments scanNames
      rw [hnames]
      dsimp only
      rw [hindices, List.mergeSort_singleton]
      rfl
    have hread : readFile site.files (segmentPath "d" defaultStem 0) =
        ([cachedOf first], some (.truncated .position)) := by
      have hopen : FileReader.open site.files (segmentPath "d" defaultStem 0) =
          .ok { path := segmentPath "d" defaultStem 0, source := Gzip.unpack cut } := rfl
      unfold readFile
      rw [hopen]
      dsimp only
      rw [show Gzip.unpack cut = _ from Gzip.unpack_pack _]
      decide +kernel
    unfold replayable
    rw [show scanSegments (Site.filesPlace.get site) options.directory options.stem = _ from hscan]
    change replaySegments reader.codec site.files [segmentPath "d" defaultStem 0] = [first]
    rw [replaySegments, hread]
    decide +kernel
  obtain ⟨c, tail, hopened, hanswers, -, htail⟩ := cached_reads_hand_over hplace hprompt options site 6
  rw [hreplayed] at hanswers htail
  have hbelow : reader.forwardsFrom site (([first].getLast?.map (·.position)).getD reader.emptyPosition) =
      .ok (0, Log.readAfter 1 .all) := rfl
  have htake : (reader.take 5 site (0, Log.readAfter 1 .all)).2.2 =
      [.ok second, .error failure, .ok third] := by
    decide +kernel
  have hyields := htail hapart
  rw [hbelow] at hyields
  refine ⟨hplace, hprompt, hapart, c, hopened, ?_⟩
  rw [hanswers, hyields.trans htake]
  rfl

end Sources

end Cache

end Chronicle
