import Chronicle.Proofs.Access.Aside

/-!
# What an open read finds

The next result of a read is what its pulls find when skips are passed over. How many pulls are tried for it
depends on the extent of the read, and so on more than the read; what they find does not. Reads are prompt if
the pulls that are tried always suffice. Then two reads answer alike if their pulls find alike, however far
each of them is from its end.
-/

namespace Chronicle

variable {W P : Type}

/-- What a consumer is answered when this is found, nothing for a skip. -/
def Found.answers : Found P → List (Option (Item P))
  | .skipped => []
  | found => [found.item?]

/-- Whatever is no skip is one answer. -/
theorem Found.answers_of_ne {found : Found P} (h : found ≠ .skipped) : found.answers = [found.item?] := by
  cases found with
  | skipped => exact absurd rfl h
  | _ => rfl

namespace Reads

section Finding

variable {r : Reads W P}

/-- An open read skips, some number of times. -/
inductive Skips (r : Reads W P) (w : W) (c : r.Cursor) : W → r.Cursor → Prop where
  /-- It was not pulled. -/
  | refl : Skips r w c w c
  /-- It skipped once more. -/
  | step {world later : W} {cursor next : r.Cursor} (h : Skips r w c world cursor)
    (hpull : r.pull world cursor = (later, next, .skipped)) : Skips r w c later next

/-- An open read finds something, and nothing before it. -/
inductive Finds (r : Reads W P) : W → r.Cursor → W → r.Cursor → Found P → Prop where
  /-- It is found at once. -/
  | here {w later : W} {c next : r.Cursor} {found : Found P} (hpull : r.pull w c = (later, next, found))
    (hne : found ≠ .skipped) : Finds r w c later next found
  /-- It is found after a skip. -/
  | skip {w world later : W} {c cursor next : r.Cursor} {found : Found P}
    (hpull : r.pull w c = (world, cursor, .skipped)) (rest : Finds r world cursor later next found) :
    Finds r w c later next found

variable {w world later other : W} {c cursor next next' : r.Cursor} {found found' : Found P}

/-- What is found is no skip. -/
theorem Finds.ne_skipped (h : r.Finds w c later next found) : found ≠ .skipped := by
  induction h with
  | here _ hne => exact hne
  | skip _ _ ih => exact ih

/-- An open read finds one thing only. -/
theorem Finds.unique (h : r.Finds w c later next found) (h' : r.Finds w c other next' found') :
    later = other ∧ next = next' ∧ found = found' := by
  induction h with
  | here hpull hne =>
    cases h' with
    | here hpull' _ =>
      rw [hpull] at hpull'
      exact ⟨congrArg (·.1) hpull', congrArg (·.2.1) hpull', congrArg (·.2.2) hpull'⟩
    | skip hpull' _ =>
      rw [hpull] at hpull'
      exact absurd (congrArg (·.2.2) hpull') hne
  | skip hpull _ ih =>
    cases h' with
    | here hpull' hne =>
      rw [hpull] at hpull'
      exact absurd (congrArg (·.2.2) hpull').symm hne
    | skip hpull' rest =>
      rw [hpull] at hpull'
      cases hpull'
      exact ih rest

/-- What is found after skips is found. -/
theorem Finds.after (hs : r.Skips w c world cursor) (h : r.Finds world cursor later next found) :
    r.Finds w c later next found := by
  induction hs with
  | refl => exact h
  | step _ hpull ih => exact ih (.skip hpull h)

/-- Whatever each pull keeps is kept until something is found. -/
theorem Finds.keeps {inv : W → r.Cursor → Prop}
    (hskip : ∀ {w c later next}, inv w c → r.pull w c = (later, next, .skipped) → inv later next)
    (h : r.Finds w c later next found) (hinv : inv w c) :
    ∃ world cursor, inv world cursor ∧ r.pull world cursor = (later, next, found) := by
  induction h with
  | here hpull _ => exact ⟨_, _, hinv, hpull⟩
  | skip hpull _ ih => exact ih (hskip hinv hpull)

/-- Reads stay of a kind while they skip. -/
theorem Skips.keeps {held : r.Cursor → Prop} (hkeeps : ∀ w c, held c → held (r.pull w c).2.1)
    (h : r.Skips w c later next) (hc : held c) : held next := by
  induction h with
  | refl => exact hc
  | @step world _ cursor _ _ hpull ih =>
    have hkept := hkeeps world cursor ih
    rw [hpull] at hkept
    exact hkept

/-- Skips go on. -/
theorem Skips.trans (h : r.Skips w c world cursor) (h' : r.Skips world cursor later next) :
    r.Skips w c later next := by
  induction h' with
  | refl => exact h
  | step _ hpull ih => exact ih.step hpull

/-- Seeking passes skips only. -/
theorem skips_of_seek {steps : Nat} (h : r.seek steps w c = (later, next, .skipped)) :
    r.Skips w c later next := by
  induction steps generalizing w c with
  | zero =>
    cases h
    exact .refl
  | succ steps ih =>
    unfold seek at h
    split at h
    · rename_i hpull
      exact (Skips.refl.step hpull).trans (ih h)
    · rename_i hne
      exact absurd h (hne later next)

/-- What is sought is found. -/
theorem finds_of_seek {steps : Nat} (h : r.seek steps w c = (later, next, found)) (hne : found ≠ .skipped) :
    r.Finds w c later next found := by
  induction steps generalizing w c with
  | zero =>
    cases h
    exact absurd rfl hne
  | succ steps ih =>
    unfold seek at h
    split at h
    · rename_i hpull
      exact .skip hpull (ih h)
    · exact .here h hne

/-- What is searched for is found. -/
theorem finds_of_search {rounds : Nat} (h : r.search rounds w c = (later, next, found))
    (hne : found ≠ .skipped) : r.Finds w c later next found := by
  induction rounds generalizing w c with
  | zero =>
    cases h
    exact absurd rfl hne
  | succ rounds ih =>
    unfold search at h
    split at h
    · rename_i hseek
      exact .after (skips_of_seek hseek) (ih h)
    · exact finds_of_seek h hne

/-- A search that has found something finds it in more rounds, too. -/
theorem search_succ_of_ne {rounds : Nat} (hne : (r.search rounds w c).2.2 ≠ .skipped) :
    r.search (rounds + 1) w c = r.search rounds w c := by
  induction rounds generalizing w c with
  | zero => exact absurd rfl hne
  | succ rounds ih =>
    rw [r.search_succ rounds] at hne ⊢
    rw [search_succ]
    rcases hseek : r.seek (r.extent w c + 1) w c with ⟨world, cursor, found⟩
    rw [hseek] at hne
    cases found with
    | skipped => exact ih hne
    | _ => rfl

end Finding

/-- Open reads of a kind are prompt: the pulls that are tried for the next result find one, or the end. -/
structure Prompt (r : Reads W P) (held : r.Cursor → Prop) : Prop where
  /-- Reads stay of the kind. -/
  keeps : ∀ w c, held c → held (r.pull w c).2.1
  /-- The pulls suffice. -/
  finds : ∀ w c, held c → (r.search (r.growths + 1) w c).2.2 ≠ .skipped

/-- As many pulls as a read may skip, and one more, find something. -/
theorem seek_ne_skipped {r : Reads W P} {skips : W → r.Cursor → Nat}
    (hskip : ∀ {w c later next}, r.pull w c = (later, next, .skipped) → skips later next < skips w c)
    {steps : Nat} {w : W} {c : r.Cursor} (hlt : skips w c < steps) : (r.seek steps w c).2.2 ≠ .skipped := by
  induction steps generalizing w c with
  | zero => exact absurd hlt (Nat.not_lt_zero _)
  | succ steps ih =>
    rw [r.seek_succ]
    rcases hpull : r.pull w c with ⟨later, next, found⟩
    cases found with
    | skipped => exact ih (Nat.lt_of_lt_of_le (hskip hpull) (Nat.le_of_lt_succ hlt))
    | _ => exact nofun

/-- Reads are prompt if their extent counts what they may skip. -/
theorem prompt_of_skips {r : Reads W P} (skips : W → r.Cursor → Nat) (hle : ∀ w c, skips w c ≤ r.extent w c)
    (hskip : ∀ {w c later next}, r.pull w c = (later, next, .skipped) → skips later next < skips w c) :
    r.Prompt fun _ => True where
  keeps _ _ _ := trivial
  finds w c _ := by
    have hfound := seek_ne_skipped hskip (Nat.lt_succ_of_le (hle w c))
    rw [r.search_succ]
    rcases hseek : r.seek (r.extent w c + 1) w c with ⟨later, next, found⟩
    rw [hseek] at hfound
    cases found with
    | skipped => exact absurd rfl hfound
    | _ => exact nofun

namespace Prompt

variable {r : Reads W P} {held : r.Cursor → Prop} {w later : W} {c next : r.Cursor} {found : Found P}

/-- Reads stay of the kind when they have found something. -/
theorem kept (h : r.Prompt held) (hc : held c) (hf : r.Finds w c later next found) : held next := by
  obtain ⟨world, cursor, hheld, hpull⟩ : ∃ world cursor, held cursor ∧
      r.pull world cursor = (later, next, found) := by
    refine hf.keeps ?_ hc
    intro w c later next hc hpull
    have hkept := h.keeps w c hc
    rw [hpull] at hkept
    exact hkept
  have hkept := h.keeps world cursor hheld
  rw [hpull] at hkept
  exact hkept

/-- A prompt read finds something. -/
theorem exists_finds (h : r.Prompt held) (hc : held c) (w : W) :
    ∃ later next found, r.Finds w c later next found :=
  ⟨_, _, _, finds_of_search rfl (h.finds w c hc)⟩

/-- The next result of a prompt read is what it finds. -/
theorem next_eq (h : r.Prompt held) (hc : held c) (hf : r.Finds w c later next found) :
    r.next w c = (later, next, found.item?) := by
  have hanswer : ∀ {world cursor what}, r.Finds w c world cursor what →
      (world, cursor, what.item?) = (later, next, found.item?) := by
    intro world cursor what hfinds
    obtain ⟨rfl, rfl, rfl⟩ := hfinds.unique hf
    rfl
  rw [Reads.next_eq]
  rcases hseek : r.seek glance w c with ⟨world, cursor, what⟩
  cases what with
  | skipped =>
    have hskips := skips_of_seek hseek
    have hheld := hskips.keeps h.keeps hc
    have hsearch : r.Finds world cursor _ _ _ := finds_of_search rfl (h.finds world cursor hheld)
    exact hanswer (.after hskips hsearch)
  | _ => exact hanswer (finds_of_seek hseek nofun)

end Prompt

section Asking

variable (r : Reads W P)

/-- The answers of an open read that is asked for its next result some number of times, also after its
end. -/
def ask : Nat → W → r.Cursor → W × r.Cursor × List (Option (Item P))
  | 0, w, c => (w, c, [])
  | count + 1, w, c =>
    let (w, c, answer) := r.next w c
    let (w, c, answers) := ask count w c
    (w, c, answer :: answers)

variable {r} {held : r.Cursor → Prop} {w later : W} {c next : r.Cursor} {found : Found P}

/-- A prompt read answers what it finds first. -/
theorem Prompt.ask_succ (h : r.Prompt held) (hc : held c) (hf : r.Finds w c later next found) (count : Nat) :
    r.ask (count + 1) w c =
      ((r.ask count later next).1, (r.ask count later next).2.1,
        found.item? :: (r.ask count later next).2.2) := by
  rw [ask, h.next_eq hc hf]

/-- A prompt read answers as it does where it has skipped to. -/
theorem Prompt.answers_skip (h : r.Prompt held) (hc : held c) (hs : r.Skips w c later next) (count : Nat) :
    (r.ask count w c).2.2 = (r.ask count later next).2.2 := by
  cases count with
  | zero => rfl
  | succ count =>
    have hnext := hs.keeps h.keeps hc
    obtain ⟨world, cursor, found, hf⟩ := h.exists_finds hnext later
    rw [h.ask_succ hc (.after hs hf), h.ask_succ hnext hf]

/-- Whatever each pull keeps, with what it finds noted, is kept by asking, with the answers noted. -/
theorem Prompt.ask_keeps (h : r.Prompt held) (inv : W → r.Cursor → List (Option (Item P)) → Prop)
    (hpull : ∀ {w c later next found noted}, held c → inv w c noted → r.pull w c = (later, next, found) →
      inv later next (noted ++ found.answers))
    (noted : List (Option (Item P))) (hc : held c) (hinv : inv w c noted) (count : Nat) :
    inv (r.ask count w c).1 (r.ask count w c).2.1 (noted ++ (r.ask count w c).2.2) ∧
      held (r.ask count w c).2.1 := by
  induction count generalizing w c noted with
  | zero =>
    rw [ask, List.append_nil]
    exact ⟨hinv, hc⟩
  | succ count ih =>
    obtain ⟨later, next, found, hf⟩ := h.exists_finds hc w
    obtain ⟨world, cursor, ⟨hbefore, hheld⟩, hlast⟩ : ∃ world cursor, (inv world cursor noted ∧ held cursor) ∧
        r.pull world cursor = (later, next, found) := by
      refine hf.keeps ?_ ⟨hinv, hc⟩
      rintro w c later next ⟨hi, hheld⟩ hskip
      have hkept := h.keeps w c hheld
      have hstill := hpull hheld hi hskip
      rw [hskip] at hkept
      rw [Found.answers, List.append_nil] at hstill
      exact ⟨hstill, hkept⟩
    have hafter := hpull hheld hbefore hlast
    rw [Found.answers_of_ne hf.ne_skipped] at hafter
    rw [h.ask_succ hc hf, List.append_cons]
    exact ih _ (h.kept hc hf) hafter

end Asking

section Answering

/-- The answers of an open read that is asked for one result after another, also behind an end. Skips are
passed over, however many there are. -/
inductive Answers (r : Reads W P) : W → r.Cursor → List (Option (Item P)) → W → r.Cursor → Prop where
  /-- It is not asked. -/
  | nil (w : W) (c : r.Cursor) : Answers r w c [] w c
  /-- It is asked, and then asked on. -/
  | cons {w later last : W} {c next cursor : r.Cursor} {found : Found P} {answers : List (Option (Item P))}
    (h : r.Finds w c later next found) (rest : Answers r later next answers last cursor) :
    Answers r w c (found.item? :: answers) last cursor

variable {r : Reads W P} {w world later last : W} {c cursor next : r.Cursor} {found : Found P}

/-- A read that finds no result has ended. -/
theorem Finds.eq_finished (h : r.Finds w c later next found) (hnone : found.item? = none) :
    found = .finished := by
  cases found with
  | finished => rfl
  | skipped => exact absurd rfl h.ne_skipped
  | event e => nomatch hnone
  | failure e => nomatch hnone

/-- A read finds what another finds whose next pull is the same. -/
theorem Finds.of_pull_eq (h : r.Finds world cursor later next found)
    (hsame : r.pull w c = r.pull world cursor) : r.Finds w c later next found := by
  cases h with
  | here hpull hne => exact .here (hsame.trans hpull) hne
  | skip hpull rest => exact .skip (hsame.trans hpull) rest

/-- A read is asked and gives a result, and is then asked on. -/
theorem Answers.cons_item {item : Item P} {answers : List (Option (Item P))}
    (rest : r.Answers later next answers world cursor) (h : r.Finds w c later next found)
    (hitem : found.item? = some item) : r.Answers w c (some item :: answers) world cursor := by
  rw [← hitem]
  exact .cons h rest

/-- A read that is asked as often gives the same answers. -/
theorem Answers.unique {answers others : List (Option (Item P))} (h : r.Answers w c answers later next)
    (ho : r.Answers w c others last cursor) (hlength : answers.length = others.length) :
    answers = others ∧ later = last ∧ next = cursor := by
  induction h generalizing others with
  | nil w c =>
    cases ho with
    | nil => exact ⟨rfl, rfl, rfl⟩
    | cons => nomatch hlength
  | cons hfinds _ ih =>
    cases ho with
    | nil => nomatch hlength
    | cons hothers hrest =>
      obtain ⟨rfl, rfl, rfl⟩ := hfinds.unique hothers
      obtain ⟨rfl, hlast⟩ := ih hrest (Nat.succ.inj hlength)
      exact ⟨rfl, hlast⟩

/-- A read goes on answering from where it was left. -/
theorem Answers.append {answers others : List (Option (Item P))} (h : r.Answers w c answers later next)
    (ho : r.Answers later next others last cursor) : r.Answers w c (answers ++ others) last cursor := by
  induction h with
  | nil => exact ho
  | cons hfinds _ ih => exact .cons hfinds (ih ho)

/-- What is answered behind skips is answered. -/
theorem Answers.after {answers : List (Option (Item P))} (hs : r.Skips w c world cursor)
    (h : r.Answers world cursor answers later next) (hne : answers ≠ []) : r.Answers w c answers later next := by
  cases h with
  | nil => exact absurd rfl hne
  | cons hfinds hrest => exact .cons (.after hs hfinds) hrest

/-- What a prompt read returns are its answers. -/
theorem Prompt.answers_ask {held : r.Cursor → Prop} (h : r.Prompt held) (hc : held c) (count : Nat) (w : W) :
    r.Answers w c (r.ask count w c).2.2 (r.ask count w c).1 (r.ask count w c).2.1 ∧
      (r.ask count w c).2.2.length = count := by
  induction count generalizing w c with
  | zero => exact ⟨.nil w c, rfl⟩
  | succ count ih =>
    obtain ⟨later, next, found, hfinds⟩ := h.exists_finds hc w
    obtain ⟨hrest, hlength⟩ := ih (h.kept hc hfinds) later
    rw [h.ask_succ hc hfinds]
    exact ⟨.cons hfinds hrest, congrArg Nat.succ hlength⟩

end Answering

end Reads

namespace EventReader

variable (r : EventReader W P)

/-- The reads of a source are prompt, wherever they stand and however the world has changed since they were
opened. -/
def Prompt : Prop := r.toReads.Prompt r.Held

/-- Reads that never skip are prompt. -/
theorem prompt_of_pulls (h : ∀ w c, (r.pull w c).2.2 ≠ .skipped) : r.Prompt where
  keeps _ _ hc := hc.pulled
  finds w c _ := by
    have hfound := h w c
    rw [Reads.search_succ, Reads.seek_succ]
    rcases hpull : r.pull w c with ⟨world, cursor, found⟩
    rw [hpull] at hfound
    cases found with
    | skipped => exact absurd rfl hfound
    | _ => exact nofun

end EventReader

end Chronicle
