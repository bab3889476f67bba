import Chronicle.Maintenance.Cleaning
import Chronicle.Proofs.Cache.Shelf

/-!
# Cleaning in steps

Others may use a directory while it is cleaned. So a cleaning is also told in steps, each of which looks
at the directory or at one file, or removes one file. What is left to do from any step on is a matter of
the functions that clean at once. A step does not change it, and a cleaning whose steps nobody disturbs
comes to an end, so it is the cleaning at once.

On a shelf every segment decodes and none is stranded. So a cleaning that begins there removes no segment,
whatever others do to the shelf between its steps.
-/

namespace Chronicle.Maintenance

open Cache

/-- What a cleaning removes. -/
inductive Rubbish where
  /-- Files that were being written. -/
  | inProgress
  /-- Segments that are of no use. -/
  | segments

/-- The line about removed files. -/
def Rubbish.line (n : Nat) : Rubbish → String
  | .inProgress => removedInProgress n
  | .segments => removedSegments n

/-- Where a cleaning stands. -/
inductive Cleaning where
  /-- Before the directory is looked for. -/
  | begun
  /-- Before the files being written are listed. -/
  | listing
  /-- Some files were removed, and others are still to be. -/
  | removing (rubbish : Rubbish) (lines : List String) (removed : Nat) (entries : List Entry)
  /-- Before the segments are listed, after some lines were printed. -/
  | scanning (lines : List String)
  /-- Some segments are still to be decoded, and some are stranded. -/
  | decoding (lines : List String) (indices stranded : List Nat)
  /-- At the end. -/
  | ended (report : Report)

namespace Cleaning

variable (directory stem : String) (corrupt : Bool)

/-- Where a cleaning stands after everything of a kind was removed. -/
def removed (lines : List String) : Rubbish → Cleaning
  | .inProgress => if corrupt then .scanning lines else .ended (.success lines)
  | .segments => .ended (.success lines)

/-- Takes one step of a cleaning. -/
def step (fs : FileSystem) : Cleaning → FileSystem × Cleaning
  | .begun =>
    if !fs.isDirectory directory then (fs, .ended (.failure [] (notACache directory)))
    else (fs, .listing)
  | .listing =>
    match listInProgress fs directory stem with
    | .error e => (fs, .ended (.failure [] e.message))
    | .ok entries => (fs, .removing .inProgress [] 0 entries)
  | .removing rubbish lines n [] => (fs, removed corrupt (lines ++ [rubbish.line n]) rubbish)
  | .removing rubbish lines n (entry :: rest) =>
    match fs.removeFile entry with
    | .ok fs => (fs, .removing rubbish lines (n + 1) rest)
    | .error .notFound => (fs, .removing rubbish lines n rest)
    | .error e =>
      (fs, .ended (.failure lines ("Failed to remove " ++ entry.path ++ ": " ++ e.message)))
  | .scanning lines =>
    match scanSegments fs directory stem with
    | .error e => (fs, .ended (.failure lines e.message))
    | .ok scan => (fs, .decoding lines scan.replayable scan.stranded)
  | .decoding lines [] stranded =>
    (fs, .removing .segments lines 0 (stranded.map (segmentEntry directory stem)))
  | .decoding lines (index :: rest) stranded =>
    if decodes fs (segmentPath directory stem index) then (fs, .decoding lines rest stranded)
    else (fs, .removing .segments lines 0 ((index :: rest ++ stranded).map (segmentEntry directory stem)))
  | .ended report => (fs, .ended report)

/-- Takes steps of a cleaning that nobody disturbs. -/
def steps : Nat → FileSystem × Cleaning → FileSystem × Cleaning
  | 0, state => state
  | count + 1, (fs, cleaning) => steps count (step directory stem corrupt fs cleaning)

/-- What is left to do after everything of a kind was removed. -/
def remainder (fs : FileSystem) (lines : List String) : Rubbish → FileSystem × Report
  | .inProgress =>
    if corrupt then cleanSegments fs directory stem lines else (fs, .success lines)
  | .segments => (fs, .success lines)

/-- What the removal of files comes to, with what is left to do after it. -/
def removal (rubbish : Rubbish) (lines : List String) :
    FileSystem × Except String Nat → FileSystem × Report
  | (fs, .error reason) => (fs, .failure lines reason)
  | (fs, .ok n) => remainder directory stem corrupt fs (lines ++ [rubbish.line n]) rubbish

/-- What a cleaning that nobody disturbs comes to. -/
def outcome (fs : FileSystem) : Cleaning → FileSystem × Report
  | .begun => clean fs directory stem corrupt
  | .listing =>
    match listInProgress fs directory stem with
    | .error e => (fs, .failure [] e.message)
    | .ok entries => removal directory stem corrupt .inProgress [] (removeFiles fs 0 entries)
  | .removing rubbish lines n entries =>
    removal directory stem corrupt rubbish lines (removeFiles fs n entries)
  | .scanning lines => cleanSegments fs directory stem lines
  | .decoding lines indices stranded =>
    let unusable := indices.dropWhile fun index => decodes fs (segmentPath directory stem index)
    removal directory stem corrupt .segments lines
      (removeFiles fs 0 ((unusable ++ stranded).map (segmentEntry directory stem)))
  | .ended report => (fs, report)

variable {directory stem corrupt} {fs : FileSystem}

/-- The removal of segments follows their decoding. -/
theorem cleanSegments_eq (lines : List String) : cleanSegments fs directory stem lines =
    match scanSegments fs directory stem with
    | .error e => (fs, .failure lines e.message)
    | .ok scan => outcome directory stem corrupt fs (.decoding lines scan.replayable scan.stranded) := by
  unfold cleanSegments unusableSegments
  cases scanSegments fs directory stem with
  | error e => rfl
  | ok scan =>
    change (match removeFiles fs 0 _ with | (fs, .error reason) => _ | (fs, .ok n) => _) =
      removal directory stem corrupt .segments lines (removeFiles fs 0 _)
    rcases removeFiles fs 0 _ with ⟨fs', e | n⟩ <;> rfl

/-- A cleaning begins with the listing. -/
theorem clean_eq : clean fs directory stem corrupt =
    if !fs.isDirectory directory then (fs, .failure [] (notACache directory))
    else outcome directory stem corrupt fs .listing := by
  unfold clean outcome
  split
  · rfl
  · cases listInProgress fs directory stem with
    | error e => rfl
    | ok entries =>
      change (match removeFiles fs 0 entries with | (fs, .error reason) => _ | (fs, .ok n) => _) =
        removal directory stem corrupt .inProgress [] (removeFiles fs 0 entries)
      rcases removeFiles fs 0 entries with ⟨fs', e | n⟩ <;> rfl

/-- The step that removes a file. -/
theorem step_removing_cons (rubbish : Rubbish) (lines : List String) (n : Nat) (entry : Entry)
    (rest : List Entry) :
    step directory stem corrupt fs (.removing rubbish lines n (entry :: rest)) =
      match fs.removeFile entry with
      | .ok fs => (fs, .removing rubbish lines (n + 1) rest)
      | .error .notFound => (fs, .removing rubbish lines n rest)
      | .error e =>
        (fs, .ended (.failure lines ("Failed to remove " ++ entry.path ++ ": " ++ e.message))) := rfl

/-- What a removal comes to that begins with a file. -/
theorem outcome_removing_cons (rubbish : Rubbish) (lines : List String) (n : Nat) (entry : Entry)
    (rest : List Entry) :
    outcome directory stem corrupt fs (.removing rubbish lines n (entry :: rest)) =
      removal directory stem corrupt rubbish lines (match fs.removeFile entry with
        | .ok fs => removeFiles fs (n + 1) rest
        | .error .notFound => removeFiles fs n rest
        | .error e => (fs, .error ("Failed to remove " ++ entry.path ++ ": " ++ e.message))) := rfl

/-- The step that decodes a segment. -/
theorem step_decoding_cons (lines : List String) (index : Nat) (rest stranded : List Nat) :
    step directory stem corrupt fs (.decoding lines (index :: rest) stranded) =
      if decodes fs (segmentPath directory stem index) then (fs, .decoding lines rest stranded)
      else
        (fs, .removing .segments lines 0 ((index :: rest ++ stranded).map (segmentEntry directory stem))) :=
  rfl

/-- What the decoding of segments comes to. -/
theorem outcome_decoding (lines : List String) (indices stranded : List Nat) :
    outcome directory stem corrupt fs (.decoding lines indices stranded) =
      removal directory stem corrupt .segments lines (removeFiles fs 0
        ((indices.dropWhile (fun i => decodes fs (segmentPath directory stem i)) ++ stranded).map
          (segmentEntry directory stem))) := rfl

/-- A step does not change what a cleaning comes to. -/
theorem outcome_step (cleaning : Cleaning) :
    outcome directory stem corrupt (step directory stem corrupt fs cleaning).1
      (step directory stem corrupt fs cleaning).2 = outcome directory stem corrupt fs cleaning := by
  cases cleaning with
  | begun =>
    change _ = clean fs directory stem corrupt
    rw [clean_eq]
    unfold step
    dsimp only
    split <;> rfl
  | listing =>
    unfold step outcome
    cases listInProgress fs directory stem <;> rfl
  | removing rubbish lines n entries =>
    cases entries with
    | nil =>
      cases rubbish with
      | inProgress => cases corrupt <;> rfl
      | segments => rfl
    | cons entry rest =>
      rw [step_removing_cons, outcome_removing_cons]
      cases fs.removeFile entry with
      | ok fs' => rfl
      | error e => cases e <;> rfl
  | scanning lines =>
    change _ = cleanSegments fs directory stem lines
    rw [@cleanSegments_eq directory stem corrupt]
    unfold step
    cases scanSegments fs directory stem <;> rfl
  | decoding lines indices stranded =>
    cases indices with
    | nil => rfl
    | cons index rest =>
      rw [step_decoding_cons, outcome_decoding]
      cases hd : decodes fs (segmentPath directory stem index) with
      | true =>
        have hw : (index :: rest).dropWhile (fun i => decodes fs (segmentPath directory stem i)) =
            rest.dropWhile (fun i => decodes fs (segmentPath directory stem i)) :=
          List.dropWhile_cons_of_pos hd
        rw [hw]
        rfl
      | false =>
        have hw : (index :: rest).dropWhile (fun i => decodes fs (segmentPath directory stem i)) =
            index :: rest :=
          List.dropWhile_cons_of_neg (by rw [hd]; decide)
        rw [hw]
        rfl
  | ended report => rfl

variable (directory stem corrupt)

/-- A cleaning comes to its end if nobody disturbs it. -/
def Ends (fs : FileSystem) (cleaning : Cleaning) : Prop :=
  ∃ count, steps directory stem corrupt count (fs, cleaning) =
    ((outcome directory stem corrupt fs cleaning).1, .ended (outcome directory stem corrupt fs cleaning).2)

variable {directory stem corrupt}

/-- A cleaning that ends after one more step ends. -/
theorem ends_of_step {cleaning : Cleaning}
    (h : Ends directory stem corrupt (step directory stem corrupt fs cleaning).1
      (step directory stem corrupt fs cleaning).2) : Ends directory stem corrupt fs cleaning := by
  obtain ⟨count, hc⟩ := h
  rw [outcome_step] at hc
  exact ⟨count + 1, hc⟩

/-- A cleaning at its end has ended. -/
theorem ends_ended (report : Report) : Ends directory stem corrupt fs (.ended report) := ⟨0, rfl⟩

/-- A removal ends if what follows it does. -/
theorem ends_removing {rubbish : Rubbish} {lines : List String}
    (h : ∀ fs n, Ends directory stem corrupt fs (removed corrupt (lines ++ [rubbish.line n]) rubbish))
    (n : Nat) (entries : List Entry) :
    Ends directory stem corrupt fs (.removing rubbish lines n entries) := by
  induction entries generalizing fs n with
  | nil => exact ends_of_step (h fs n)
  | cons entry rest ih =>
    refine ends_of_step ?_
    rw [step_removing_cons]
    cases fs.removeFile entry with
    | ok fs' => exact ih (n + 1)
    | error e =>
      cases e with
      | notFound => exact ih n
      | _ => exact ends_ended _

/-- The decoding of segments ends, and so does what follows. -/
theorem ends_decoding (lines : List String) (indices stranded : List Nat) :
    Ends directory stem corrupt fs (.decoding lines indices stranded) := by
  have hremoving (entries : List Entry) :
      Ends directory stem corrupt fs (.removing .segments lines 0 entries) :=
    ends_removing (fun fs n => ends_ended _) 0 entries
  induction indices with
  | nil => exact ends_of_step (hremoving _)
  | cons index rest ih =>
    refine ends_of_step ?_
    rw [step_decoding_cons]
    split
    · exact ih
    · exact hremoving _

/-- The cleaning of segments ends. -/
theorem ends_scanning (lines : List String) : Ends directory stem corrupt fs (.scanning lines) := by
  refine ends_of_step ?_
  unfold step
  cases scanSegments fs directory stem with
  | error e => exact ends_ended _
  | ok scan => exact ends_decoding lines _ _

/-- The steps of a cleaning that nobody disturbs are the cleaning at once. -/
theorem steps_eq_clean (fs : FileSystem) (directory stem : String) (corrupt : Bool) :
    ∃ count, steps directory stem corrupt count (fs, .begun) =
      ((clean fs directory stem corrupt).1, .ended (clean fs directory stem corrupt).2) := by
  have hremoved (fs : FileSystem) (lines : List String) :
      Ends directory stem corrupt fs (removed corrupt lines .inProgress) := by
    unfold removed
    dsimp only
    split
    · exact ends_scanning lines
    · exact ends_ended _
  have hbegun : Ends directory stem corrupt fs .begun := by
    refine ends_of_step ?_
    unfold step
    dsimp only
    split
    · exact ends_ended _
    · refine ends_of_step ?_
      unfold step
      cases listInProgress fs directory stem with
      | error e => exact ends_ended _
      | ok entries => exact ends_removing (fun fs n => hremoved fs _) 0 entries
  exact hbegun

section OnShelf

variable {place : Location} {segments : List (List CachedRecord)} {count : Nat}

/-- Files that were being written are listed by names in the directory. -/
theorem exists_name_of_listInProgress {entries : List Entry}
    (h : listInProgress fs directory stem = .ok entries) {entry : Entry} (he : entry ∈ entries) :
    ∃ names name, fs.list directory = .ok names ∧ name ∈ names ∧ entry = .within directory name ∧
      isInProgress stem name.text = true := by
  unfold listInProgress at h
  cases hl : fs.list directory with
  | error e =>
    rw [hl] at h
    nomatch h
  | ok names =>
    rw [hl] at h
    obtain rfl := Except.ok.inj h
    rw [List.mem_mergeSort] at he
    obtain ⟨name, hn, rfl⟩ := List.mem_map.1 he
    obtain ⟨hm, hp⟩ := List.mem_filter.1 hn
    exact ⟨names, name, rfl, hm, rfl, hp⟩

/-- Files that were being written are not under the names of segments. -/
theorem not_isSegment_of_listInProgress {entries : List Entry}
    (h : listInProgress fs directory stem = .ok entries) {entry : Entry} (he : entry ∈ entries) :
    ¬ IsSegment stem entry.name := by
  obtain ⟨-, name, -, -, rfl, hp⟩ := exists_name_of_listInProgress h he
  exact not_isSegment_of_isInProgress hp

variable (stem count)

/-- What a cleaning is about to do harms none of the segments below a number. -/
def Harmless : Cleaning → Prop
  | .removing _ _ _ entries => ∀ entry ∈ entries, ¬ IsSegment stem entry.name
  | .decoding _ indices stranded => (∀ index ∈ indices, index < count) ∧ stranded = []
  | _ => True

variable {stem count}

/-- What harms no segment harms none when there are more. -/
theorem Harmless.mono {cleaning : Cleaning} (h : cleaning.Harmless stem count) {count' : Nat}
    (hc : count ≤ count') : cleaning.Harmless stem count' := by
  cases cleaning with
  | decoding lines indices stranded =>
    obtain ⟨hi, hs⟩ := h
    exact ⟨fun index hm => Nat.lt_of_lt_of_le (hi index hm) hc, hs⟩
  | _ => exact h

/-- After a removal nothing harmful is left to do. -/
theorem harmless_removed (lines : List String) (rubbish : Rubbish) :
    (removed corrupt lines rubbish).Harmless stem count := by
  cases rubbish with
  | inProgress => cases corrupt <;> trivial
  | segments => trivial

/-- A segment on a shelf decodes to its end. -/
theorem decodes_of_shelf (h : Shelf directory stem place segments fs) {index : Nat}
    (hi : index < segments.length) : decodes fs (segmentPath directory stem index) = true := by
  unfold decodes
  rw [h.readFile_segment (List.getElem?_eq_getElem hi)]
  rfl

/-- A harmless step leaves the shelf as it is, and the next one is harmless again. -/
theorem shelf_step (h : Shelf directory stem place segments fs) {cleaning : Cleaning}
    (hc : cleaning.Harmless stem segments.length) :
    Shelf directory stem place segments (step directory stem corrupt fs cleaning).1 ∧
      (step directory stem corrupt fs cleaning).2.Harmless stem segments.length := by
  cases cleaning with
  | begun =>
    unfold step
    dsimp only
    split
    · exact ⟨h, trivial⟩
    · exact ⟨h, trivial⟩
  | listing =>
    unfold step
    cases hl : listInProgress fs directory stem with
    | error e => exact ⟨h, trivial⟩
    | ok entries => exact ⟨h, fun entry he => not_isSegment_of_listInProgress hl he⟩
  | removing rubbish lines n entries =>
    cases entries with
    | nil => exact ⟨h, harmless_removed _ _⟩
    | cons entry rest =>
      have hrest : ∀ other ∈ rest, ¬ IsSegment stem other.name :=
        fun other ho => hc other (List.mem_cons_of_mem entry ho)
      rw [step_removing_cons]
      cases hr : fs.removeFile entry with
      | ok fs' => exact ⟨h.undisturbed (.removeFile (hc entry List.mem_cons_self) hr), hrest⟩
      | error e =>
        cases e with
        | notFound => exact ⟨h, hrest⟩
        | _ => exact ⟨h, trivial⟩
  | scanning lines =>
    unfold step
    rw [h.scan]
    exact ⟨h, fun index hi => List.mem_range.1 hi, rfl⟩
  | decoding lines indices stranded =>
    obtain ⟨hi, rfl⟩ := hc
    cases indices with
    | nil => exact ⟨h, fun entry he => absurd he List.not_mem_nil⟩
    | cons index rest =>
      rw [step_decoding_cons, if_pos (decodes_of_shelf h (hi index List.mem_cons_self))]
      exact ⟨h, fun other ho => hi other (List.mem_cons_of_mem index ho), rfl⟩
  | ended report => exact ⟨h, trivial⟩

end OnShelf

end Cleaning

end Chronicle.Maintenance
