import Mathlib.Data.List.Infix
import Mathlib.Data.List.TakeWhile
import Chronicle.Maintenance.Verification
import Chronicle.Proofs.Cache.Rebuilding
import Chronicle.Proofs.Cache.Scanning

/-!
# Repairing a cache

In a directory of files segments may be missing, cut short or damaged. A cleaning that removes all that is
of no use leaves the segments before the first that is missing or does not decode, as they were. After
that there is nothing left to remove and a strict verification succeeds. However early the cleaning is
stopped, what can be replayed is the beginning of what could be replayed before. And if the segments that
are left hold the first records of a log, one read through the cache adds the rest.
-/

namespace Chronicle.Maintenance

open Cache

section Removing

variable {directory : String} {place : Location} {fs fs' : FileSystem} {entries : List Entry} {n m : Nat}

/-- Files are removed and nothing else is done, however the removal ends. -/
theorem thinned_removeFiles (fs : FileSystem) (n : Nat) (entries : List Entry) :
    fs.Thinned (removeFiles fs n entries).1 := by
  induction entries generalizing fs n with
  | nil => exact .refl fs
  | cons entry rest ih =>
    unfold removeFiles
    cases h : fs.removeFile entry with
    | ok fs' => exact (FileSystem.Thinned.removeFile h).trans (ih fs' (n + 1))
    | error e =>
      cases e with
      | notFound => exact ih fs n
      | _ => exact .refl fs

/-- Entries of different files in a directory. -/
structure Listed (directory : String) (place : Location) (fs : FileSystem) (entries : List Entry) :
    Prop where
  /-- They are entries as the directory lists them. -/
  within : ∀ entry ∈ entries, entry = .within directory entry.name ∧ entry.name.text ≠ ""
  /-- The files are there. -/
  present : ∀ entry ∈ entries, (fs.node? (place ++ [entry.name])).isSome = true
  /-- Each is listed once. -/
  distinct : entries.Pairwise fun a b => a.name ≠ b.name

/-- Files under some entries were removed, and nothing else. -/
structure Cleared (place : Location) (entries : List Entry) (fs fs' : FileSystem) : Prop where
  /-- The files are gone. -/
  gone : ∀ entry ∈ entries, fs'.node? (place ++ [entry.name]) = none
  /-- Everything else is as it was. -/
  changed : ∀ {other}, fs'.node? other ≠ fs.node? other → ∃ entry ∈ entries, other = place ++ [entry.name]

/-- If no file is refused, all are removed and counted. -/
theorem removeFiles_listed (h : Plain directory place fs) (hl : Listed directory place fs entries)
    (hr : removeFiles fs n entries = (fs', .ok m)) :
    m = n + entries.length ∧ Cleared place entries fs fs' := by
  induction entries generalizing fs n with
  | nil =>
    cases hr
    exact ⟨rfl, fun entry he => absurd he List.not_mem_nil, fun hne => absurd rfl hne⟩
  | cons entry rest ih =>
    obtain ⟨hwithin, hpresent, hdistinct⟩ := hl
    obtain ⟨hother, hdistinct⟩ := List.pairwise_cons.1 hdistinct
    obtain ⟨hentry, hne⟩ := hwithin entry List.mem_cons_self
    have hthere := hpresent entry List.mem_cons_self
    obtain ⟨bytes, hfile⟩ := h.exists_file hthere
    have hremove := FileSystem.removeFile_within h.found (h.named _ hthere).1 hne hfile
    rw [← hentry] at hremove
    unfold removeFiles at hr
    rcases hremove with hok | ⟨e, herror, hnot⟩
    · rw [hok] at hr
      have hplaces : ∀ other ∈ rest, place ++ [other.name] ≠ place ++ [entry.name] := by
        intro other ho he
        exact hother other ho (List.singleton_inj.1 (List.append_cancel_left he)).symm
      have hrest : Listed directory place (fs.erase (place ++ [entry.name])) rest := by
        refine ⟨fun other ho => hwithin other (List.mem_cons_of_mem _ ho), ?_, hdistinct⟩
        intro other ho
        rw [FileSystem.node?_erase_ne (hplaces other ho)]
        exact hpresent other (List.mem_cons_of_mem _ ho)
      obtain ⟨hcount, hgone, hchanged⟩ := ih (h.thinned (.removeFile hok)) hrest hr
      have herased : (fs.erase (place ++ [entry.name])).node? (place ++ [entry.name]) = none :=
        FileSystem.node?_erase_self place entry.name
      refine ⟨?_, ?_, ?_⟩
      · rw [hcount, List.length_cons]
        omega
      · intro other ho
        rcases List.mem_cons.1 ho with rfl | ho
        · by_contra hne
          obtain ⟨later, hlater, he⟩ := hchanged (fun hsame => hne (hsame.trans herased))
          exact hplaces later hlater he.symm
        · exact hgone other ho
      · intro other hne
        by_cases he : other = place ++ [entry.name]
        · exact ⟨entry, List.mem_cons_self, he⟩
        · have hkept : (fs.erase (place ++ [entry.name])).node? other = fs.node? other :=
            FileSystem.node?_erase_ne he
          obtain ⟨later, hlater, heq⟩ := hchanged fun hsame => hne (hsame.trans hkept)
          exact ⟨later, List.mem_cons_of_mem _ hlater, heq⟩
    · rw [herror] at hr
      cases e with
      | notFound => exact absurd rfl hnot
      | _ => nomatch hr

end Removing

section Usable

variable {directory stem : String} {place : Location} {fs fs' : FileSystem}

/-- A segment that is there and decodes to its end. -/
def Usable (directory stem : String) (place : Location) (fs : FileSystem) (index : Nat) : Prop :=
  Present stem place fs index ∧ decodes fs (segmentPath directory stem index) = true

/-- A segment that is as it was decodes if it did. -/
theorem decodes_congr (h : Plain directory place fs) (h' : Plain directory place fs') {index : Nat}
    (hp : Present stem place fs index)
    (hsame : fs'.node? (place ++ [.given (segmentName stem index)]) =
      fs.node? (place ++ [.given (segmentName stem index)])) :
    decodes fs' (segmentPath directory stem index) = decodes fs (segmentPath directory stem index) := by
  have hfind : ∀ target node, fs'.find (segmentPath directory stem index) = .ok (target, node) ↔
      fs.find (segmentPath directory stem index) = .ok (target, node) :=
    fun target node => h.find_segment_congr h' hp hsame
  unfold decodes readFile FileReader.open
  cases hf : fs.find (segmentPath directory stem index) with
  | ok found => rw [(hfind found.1 found.2).2 hf]
  | error e =>
    cases hf' : fs'.find (segmentPath directory stem index) with
    | ok found =>
      have hnot := (hfind found.1 found.2).1 hf'
      rw [hf] at hnot
      nomatch hnot
    | error e' => rfl

/-- A segment that is as it was is usable if it was. -/
theorem usable_congr (h : Plain directory place fs) (h' : Plain directory place fs') {index : Nat}
    (hsame : fs'.node? (place ++ [.given (segmentName stem index)]) =
      fs.node? (place ++ [.given (segmentName stem index)])) :
    Usable directory stem place fs' index ↔ Usable directory stem place fs index := by
  have hpresent : Present stem place fs' index ↔ Present stem place fs index := by
    unfold Present
    rw [hsame]
  unfold Usable
  rw [hpresent]
  exact and_congr_right fun hp => by rw [decodes_congr h h' hp hsame]

/-- What is left of some first numbers from the first on that fails. -/
theorem dropWhile_range (p : Nat → Bool) (count : Nat) :
    ∃ first ≤ count, (List.range count).dropWhile p = List.range' first (count - first) ∧
      (∀ index < first, p index = true) ∧ (first < count → p first = false) := by
  induction count with
  | zero => exact ⟨0, Nat.le_refl 0, rfl, fun index hi => absurd hi (Nat.not_lt_zero index), nofun⟩
  | succ count ih =>
    obtain ⟨first, hle, hdrop, hall, hfails⟩ := ih
    rw [List.range_succ, List.dropWhile_append, hdrop]
    rcases Nat.lt_or_eq_of_le hle with hlt | rfl
    · refine ⟨first, Nat.le_succ_of_le hle, ?_, hall, fun _ => hfails hlt⟩
      have hsome : (List.range' first (count - first)).isEmpty = false := by
        rw [List.isEmpty_eq_false_iff, ne_eq, List.range'_eq_nil_iff]
        omega
      rw [hsome, if_neg Bool.false_ne_true, Nat.succ_sub hle, List.range'_concat, Nat.one_mul,
        Nat.add_sub_of_le hle]
    · rw [Nat.sub_self]
      cases hp : p first with
      | true =>
        refine ⟨first + 1, Nat.le_refl _, ?_, ?_, fun hlt => absurd hlt (Nat.lt_irrefl _)⟩
        · simp [hp]
        · intro index hi
          rcases Nat.lt_succ_iff_lt_or_eq.1 hi with hlt | rfl
          · exact hall index hlt
          · exact hp
      | false =>
        refine ⟨first, Nat.le_succ first, ?_, hall, fun _ => hp⟩
        simp [hp]

/-- The segments that are of no use are those from the first number on under which no usable one stands. -/
theorem unusableSegments_eq (h : Plain directory place fs) (stem : String) :
    ∃ (first : Nat) (indices : List Nat),
      unusableSegments fs directory stem = .ok (indices.map (segmentEntry directory stem)) ∧
      indices.Nodup ∧ (∀ index, index ∈ indices ↔ Present stem place fs index ∧ first ≤ index) ∧
      (∀ index < first, Usable directory stem place fs index) ∧
      ¬ Usable directory stem place fs first := by
  obtain ⟨count, stranded, hscan, hnodup, hpresent, hbeyond⟩ := h.scan stem
  obtain ⟨first, hle, hdrop, hall, hfails⟩ :=
    dropWhile_range (fun index => decodes fs (segmentPath directory stem index)) count
  refine ⟨first, List.range' first (count - first) ++ stranded, ?_, ?_, ?_, ?_, ?_⟩
  · unfold unusableSegments
    rw [hscan]
    dsimp only [Bind.bind, Except.bind, Pure.pure, Except.pure]
    rw [hdrop]
  · refine List.nodup_append.2 ⟨List.nodup_range', hnodup, ?_⟩
    intro a ha b hb
    have hlt := hbeyond b hb
    have hrange := List.mem_range'_1.1 ha
    omega
  · intro index
    rw [hpresent, List.mem_append, List.mem_range'_1]
    constructor
    · rintro (hi | hi)
      · exact ⟨.inl (by omega), hi.1⟩
      · have hlt := hbeyond index hi
        exact ⟨.inr hi, by omega⟩
    · rintro ⟨hi | hi, hge⟩
      · exact .inl (by omega)
      · exact .inr hi
  · intro index hi
    exact ⟨(hpresent index).2 (.inl (Nat.lt_of_lt_of_le hi hle)), hall index hi⟩
  · rintro ⟨hthere, hdecodes⟩
    rcases Nat.lt_or_eq_of_le hle with hlt | rfl
    · rw [hfails hlt] at hdecodes
      nomatch hdecodes
    · rcases (hpresent first).1 hthere with hi | hi
      · exact Nat.lt_irrefl first hi
      · exact Nat.lt_irrefl first (hbeyond first hi)

/-- A verification finds nothing wrong if and only if all segments that are there stand before the first
number under which no usable one stands. -/
theorem inspect_ok_iff (h : Plain directory place fs) {first : Nat}
    (husable : ∀ index < first, Usable directory stem place fs index)
    (hfirst : ¬ Usable directory stem place fs first) :
    (∃ v, inspect fs directory stem = .ok v ∧ v.ok = true ∧ v.stranded = 0) ↔
      ∀ index, Present stem place fs index → index < first := by
  obtain ⟨count, stranded, hscan, -, hpresent, hbeyond⟩ := h.scan stem
  obtain ⟨names, hl, -, -⟩ := FileSystem.list_of_find h.found
  have hinspect : ∃ inProgress, inspect fs directory stem =
      .ok ⟨(List.range count).map (checkSegment fs directory stem), stranded.length, inProgress⟩ := by
    unfold inspect listInProgress
    rw [hscan, hl]
    exact ⟨_, rfl⟩
  obtain ⟨inProgress, hinspect⟩ := hinspect
  have hok : ((List.range count).map (checkSegment fs directory stem)).all (·.ok) = true ↔
      ∀ index < count, decodes fs (segmentPath directory stem index) = true := by
    rw [List.all_map, List.all_eq_true]
    exact forall_congr' fun index => by rw [List.mem_range]; rfl
  constructor
  · rintro ⟨v, hv, hall, hnone⟩
    rw [hinspect] at hv
    cases hv
    obtain rfl : stranded = [] := List.length_eq_zero_iff.1 hnone
    intro index hi
    have hlt : index < count := ((hpresent index).1 hi).resolve_right List.not_mem_nil
    by_contra hge
    have hthere : first < count := by omega
    exact hfirst ⟨(hpresent first).2 (.inl hthere), hok.1 hall first hthere⟩
  · intro hall
    refine ⟨_, hinspect, hok.2 ?_, ?_⟩
    · intro index hi
      exact (husable index (hall index ((hpresent index).2 (.inl hi)))).2
    · refine List.length_eq_zero_iff.2 (List.eq_nil_iff_forall_not_mem.2 fun index hi => ?_)
      have hlt := hall index ((hpresent index).2 (.inr hi))
      have hgt := hbeyond index hi
      rcases (hpresent count).1 (husable count (Nat.lt_trans hgt hlt)).1 with hc | hc
      · exact Nat.lt_irrefl count hc
      · exact Nat.lt_irrefl count (hbeyond count hc)

end Usable

section InProgress

variable {directory stem : String} {place : Location} {fs : FileSystem}

/-- The files being written in a directory are listed once. -/
theorem listInProgress_eq (h : Plain directory place fs) (stem : String) :
    ∃ entries, listInProgress fs directory stem = .ok entries ∧ Listed directory place fs entries ∧
      (∀ entry ∈ entries, isInProgress stem entry.name.text = true) ∧
      ∀ name, isInProgress stem name.text = true → (fs.node? (place ++ [name])).isSome = true →
        ∃ entry ∈ entries, entry.name = name := by
  obtain ⟨names, hl, hd, hm⟩ := FileSystem.list_of_find h.found
  generalize hentries : ((names.filter (isInProgress stem ·.text)).map (Entry.within directory)).mergeSort
    (·.path ≤ ·.path) = entries
  have hmem : ∀ entry, entry ∈ entries ↔ ∃ name ∈ names, isInProgress stem name.text = true ∧
      Entry.within directory name = entry := by
    intro entry
    rw [← hentries, List.mem_mergeSort, List.mem_map]
    simp only [List.mem_filter, and_assoc]
  refine ⟨entries, ?_, ⟨?_, ?_, ?_⟩, ?_, ?_⟩
  · unfold listInProgress
    rw [hl, ← hentries]
  · intro entry he
    obtain ⟨name, -, hname, rfl⟩ := (hmem entry).1 he
    refine ⟨rfl, ?_⟩
    intro hempty
    rw [show name.text = "" from hempty] at hname
    exact absurd (Bool.and_eq_true_iff.1 hname).2 (by decide)
  · intro entry he
    obtain ⟨name, hn, -, rfl⟩ := (hmem entry).1 he
    exact (hm name).1 hn
  · have hperm := List.mergeSort_perm ((names.filter (isInProgress stem ·.text)).map (Entry.within directory))
      (·.path ≤ ·.path)
    rw [hentries] at hperm
    refine (hperm.pairwise_iff fun hab => hab.symm).2 ?_
    rw [List.pairwise_map]
    exact (hd.filter _)
  · intro entry he
    obtain ⟨name, -, hname, rfl⟩ := (hmem entry).1 he
    exact hname
  · intro name hname hn
    exact ⟨_, (hmem _).2 ⟨name, (hm name).2 hn, hname, rfl⟩, rfl⟩

end InProgress

section Settled

variable {directory stem : String} {place : Location} {count : Nat} {fs : FileSystem}

/-- Usable segments stand in a row if there are no others. -/
theorem row_of_usable (h : Plain directory place fs)
    (husable : ∀ index < count, Usable directory stem place fs index)
    (hleft : ∀ index, Present stem place fs index ↔ index < count) :
    Row directory stem place count fs where
  found := h.found
  limited := by
    by_contra hlt
    exact Nat.lt_irrefl _ ((hleft segmentLimit).2 (Nat.lt_of_not_le hlt)).1
  segment index hi := by
    obtain ⟨hp, hdecodes⟩ := husable index hi
    unfold decodes readFile FileReader.open at hdecodes
    cases hf : fs.find (segmentPath directory stem index) with
    | error e =>
      rw [hf] at hdecodes
      nomatch hdecodes
    | ok found =>
      obtain ⟨target, node⟩ := found
      obtain ⟨-, -, rfl, -⟩ := (h.find_segment_iff hp).1 hf
      exact ⟨node, rfl⟩
  only := by
    intro name hs hn
    obtain ⟨index, hi⟩ := Option.isSome_iff_exists.1 hs
    obtain ⟨hlimit, htext⟩ := eq_segmentName hi
    have hgiven := h.eq_given hn hs
    rw [htext] at hgiven
    subst hgiven
    exact ⟨index, (hleft index).1 ⟨hlimit, hn⟩, rfl⟩

variable (hrow : Row directory stem place count fs)
  (hdecodes : ∀ index < count, decodes fs (segmentPath directory stem index) = true)
  (hnone : ∀ name, isInProgress stem name.text = true → fs.node? (place ++ [name]) = none)

include hrow hnone

/-- Where no file is being written none is listed. -/
theorem listInProgress_of_none : listInProgress fs directory stem = .ok [] := by
  obtain ⟨names, hl, -, hm⟩ := FileSystem.list_of_find hrow.found
  have hfilter : names.filter (isInProgress stem ·.text) = [] := by
    rw [List.filter_eq_nil_iff]
    intro name hn hname
    have hthere := (hm name).1 hn
    rw [hnone name hname] at hthere
    nomatch hthere
  unfold listInProgress
  rw [hl]
  dsimp only
  rw [hfilter, List.map_nil, List.mergeSort_nil]

include hdecodes

/-- Where all segments are of use, cleaning removes nothing. -/
theorem clean_of_row :
    clean fs directory stem true = (fs, .success [removedInProgress 0, removedSegments 0]) := by
  have hdrop : (List.range count).dropWhile
      (fun index => decodes fs (segmentPath directory stem index)) = [] := by
    rw [List.dropWhile_eq_nil_iff]
    exact fun index hi => hdecodes index (List.mem_range.1 hi)
  have hunusable : unusableSegments fs directory stem = .ok [] := by
    unfold unusableSegments
    rw [hrow.scan]
    dsimp only [Bind.bind, Except.bind, Pure.pure, Except.pure]
    rw [hdrop]
    rfl
  unfold clean cleanSegments FileSystem.isDirectory
  rw [hrow.found, listInProgress_of_none hrow hnone]
  dsimp only [removeFiles]
  rw [hunusable]
  rfl

/-- Where all segments are of use, a verification finds nothing wrong. -/
theorem inspect_of_row : ∃ v, inspect fs directory stem = .ok v ∧ v.ok = true ∧ v.stranded = 0 ∧
    v.inProgress = 0 ∧ ∀ json, (verify fs directory stem true json).code = 0 := by
  have hinspect : inspect fs directory stem =
      .ok ⟨(List.range count).map (checkSegment fs directory stem), 0, 0⟩ := by
    unfold inspect
    rw [hrow.scan, listInProgress_of_none hrow hnone]
    rfl
  have hok : (⟨(List.range count).map (checkSegment fs directory stem), 0, 0⟩ : Verification).ok = true := by
    unfold Verification.ok
    dsimp only
    rw [List.all_map, List.all_eq_true]
    exact fun index hi => hdecodes index (List.mem_range.1 hi)
  refine ⟨_, hinspect, hok, rfl, rfl, fun json => ?_⟩
  unfold verify FileSystem.isDirectory
  rw [hrow.found, hinspect]
  dsimp only
  rw [hok]
  rfl

end Settled

section Cleaned

variable {directory stem : String} {place : Location} {fs : FileSystem}

/-- A cleaning that ends well has removed the files being written, and then the segments of no use. -/
theorem clean_success (h : (clean fs directory stem true).2.code = 0) :
    ∃ inProgress segments fs₁ fs₂ p s, listInProgress fs directory stem = .ok inProgress ∧
      removeFiles fs 0 inProgress = (fs₁, .ok p) ∧ unusableSegments fs₁ directory stem = .ok segments ∧
      removeFiles fs₁ 0 segments = (fs₂, .ok s) ∧
      clean fs directory stem true = (fs₂, .success [removedInProgress p, removedSegments s]) := by
  unfold clean at h ⊢
  split at h
  · nomatch h
  rename_i hdirectory
  rw [if_neg hdirectory]
  cases hl : listInProgress fs directory stem with
  | error e =>
    rw [hl] at h
    nomatch h
  | ok inProgress =>
    rw [hl] at h
    dsimp only at h ⊢
    rcases hr : removeFiles fs 0 inProgress with ⟨fs₁, reason | p⟩
    · rw [hr] at h
      nomatch h
    rw [hr] at h
    dsimp only [if_true] at h ⊢
    rw [if_pos rfl] at h
    unfold cleanSegments at h ⊢
    cases hu : unusableSegments fs₁ directory stem with
    | error e =>
      rw [hu] at h
      nomatch h
    | ok segments =>
      rw [hu] at h
      dsimp only at h ⊢
      rcases hs : removeFiles fs₁ 0 segments with ⟨fs₂, reason | s⟩
      · rw [hs] at h
        nomatch h
      exact ⟨inProgress, segments, fs₁, fs₂, p, s, rfl, hr, hu, hs, rfl⟩

/-- A step of a cleaning removes a file or leaves everything as it is. -/
theorem Cleaning.thinned_step (corrupt : Bool) (cleaning : Cleaning) :
    fs.Thinned (Cleaning.step directory stem corrupt fs cleaning).1 := by
  cases cleaning with
  | begun =>
    unfold Cleaning.step
    dsimp only
    split <;> exact .refl fs
  | listing =>
    unfold Cleaning.step
    cases listInProgress fs directory stem <;> exact .refl fs
  | removing rubbish lines n entries =>
    cases entries with
    | nil => exact .refl fs
    | cons entry rest =>
      rw [Cleaning.step_removing_cons]
      cases hr : fs.removeFile entry with
      | ok fs' => exact .removeFile hr
      | error e => cases e <;> exact .refl fs
  | scanning lines =>
    unfold Cleaning.step
    cases scanSegments fs directory stem <;> exact .refl fs
  | decoding lines indices stranded =>
    cases indices with
    | nil => exact .refl fs
    | cons index rest =>
      rw [Cleaning.step_decoding_cons]
      split <;> exact .refl fs
  | ended report => exact .refl fs

/-- However many steps of a cleaning are taken, files are removed and nothing else is done. -/
theorem Cleaning.thinned_steps (corrupt : Bool) (steps : Nat) (cleaning : Cleaning) :
    fs.Thinned (Cleaning.steps directory stem corrupt steps (fs, cleaning)).1 := by
  induction steps generalizing fs cleaning with
  | zero => exact .refl fs
  | succ steps ih =>
    have hfirst : fs.Thinned (Cleaning.step directory stem corrupt fs cleaning).1 :=
      Cleaning.thinned_step corrupt cleaning
    exact hfirst.trans (ih _)

/-- What a cleaning leaves that removed all that is of no use: the segments below a number, as they were. -/
structure Repaired (directory stem : String) (place : Location) (count : Nat) (fs fs' : FileSystem)
    (report : Report) : Prop where
  /-- These segments were there and decoded. -/
  usable : ∀ index < count, Usable directory stem place fs index
  /-- The next was missing or did not decode. -/
  unusable : ¬ Usable directory stem place fs count
  /-- No other segments are left. -/
  segments : ∀ index, Present stem place fs' index ↔ index < count
  /-- They hold what they held. -/
  same : ∀ index < count, fs'.node? (place ++ [.given (segmentName stem index)]) =
    fs.node? (place ++ [.given (segmentName stem index)])
  /-- No file is being written. -/
  settled : ∀ name, isInProgress stem name.text = true → fs'.node? (place ++ [name]) = none
  /-- Only segments and files being written are gone. -/
  others : ∀ {other}, fs'.node? other ≠ fs.node? other → ∃ name, other = place ++ [name] ∧
    (isInProgress stem name.text = true ∨
      ∃ index, count ≤ index ∧ segmentIndex? stem name.text = some index)
  /-- No segment is gone if and only if a verification had found nothing wrong. -/
  intact : (∀ index, Present stem place fs index → Present stem place fs' index) ↔
    ∃ v, inspect fs directory stem = .ok v ∧ v.ok = true ∧ v.stranded = 0
  /-- The report says how many files of either kind are gone. -/
  reported : ∃ inProgress segments, report = .success [removedInProgress inProgress, removedSegments segments] ∧
    (segments = 0 ↔ ∀ index, Present stem place fs index → Present stem place fs' index)
  /-- Cleaning again removes nothing. -/
  again : clean fs' directory stem true = (fs', .success [removedInProgress 0, removedSegments 0])
  /-- A verification finds nothing wrong, not even if it is strict. -/
  verified : ∃ v, inspect fs' directory stem = .ok v ∧ v.ok = true ∧ v.stranded = 0 ∧ v.inProgress = 0 ∧
    ∀ json, (verify fs' directory stem true json).code = 0

/-- Once the files being written are removed none is left, and nothing else has changed, so all segments are
as they were. -/
theorem sweep_inProgress {fs' : FileSystem} {entries : List Entry} {n m : Nat}
    (h : Plain directory place fs) (hl : listInProgress fs directory stem = .ok entries)
    (hr : removeFiles fs n entries = (fs', .ok m)) : fs.Thinned fs' ∧
      (∀ name, isInProgress stem name.text = true → fs'.node? (place ++ [name]) = none) ∧
      (∀ index < segmentLimit, fs'.node? (place ++ [.given (segmentName stem index)]) =
        fs.node? (place ++ [.given (segmentName stem index)])) ∧
      ∀ {other}, fs'.node? other ≠ fs.node? other →
        ∃ name, other = place ++ [name] ∧ isInProgress stem name.text = true := by
  obtain ⟨listed, hl', hlisted, honly, hall⟩ := listInProgress_eq h stem
  rw [hl] at hl'
  cases hl'
  obtain ⟨-, hgone, hchanged⟩ := removeFiles_listed h hlisted hr
  have hthinned := thinned_removeFiles fs n entries
  rw [hr] at hthinned
  have hinProgress : ∀ {other}, fs'.node? other ≠ fs.node? other →
      ∃ name, other = place ++ [name] ∧ isInProgress stem name.text = true := by
    intro other hne
    obtain ⟨entry, he, heq⟩ := hchanged hne
    exact ⟨entry.name, heq, honly entry he⟩
  refine ⟨hthinned, ?_, ?_, hinProgress⟩
  · intro name hname
    by_contra hne
    obtain ⟨node, hnode⟩ := Option.ne_none_iff_exists'.1 hne
    obtain ⟨entry, he, rfl⟩ := hall name hname (Option.isSome_iff_exists.2 ⟨node, hthinned.nodes hnode⟩)
    exact hne (hgone entry he)
  · intro index hi
    by_contra hne
    obtain ⟨name, heq, hname⟩ := hinProgress hne
    rw [← List.singleton_inj.1 (List.append_cancel_left heq)] at hname
    exact not_isSegment_of_isInProgress hname (isSegment_segmentName hi)

/-- Once the segments of no use are removed those before the first such number are left as they were, and
nothing else has changed. -/
theorem sweep_segments {fs' : FileSystem} {entries : List Entry} {n m : Nat}
    (h : Plain directory place fs) (hu : unusableSegments fs directory stem = .ok entries)
    (hr : removeFiles fs n entries = (fs', .ok m)) : fs.Thinned fs' ∧
      ∃ count, (∀ index < count, Usable directory stem place fs index) ∧
        ¬ Usable directory stem place fs count ∧
        (∀ index, Present stem place fs' index ↔ index < count) ∧
        (∀ index < count, fs'.node? (place ++ [.given (segmentName stem index)]) =
          fs.node? (place ++ [.given (segmentName stem index)])) ∧
        (m = n ↔ ∀ index, Present stem place fs index → index < count) ∧
        ∀ {other}, fs'.node? other ≠ fs.node? other →
          ∃ index, count ≤ index ∧ index < segmentLimit ∧
            other = place ++ [.given (segmentName stem index)] := by
  obtain ⟨count, indices, hu', hnodup, hmem, husable, hunusable⟩ := unusableSegments_eq h stem
  rw [hu] at hu'
  cases hu'
  have hlisted : Listed directory place fs (indices.map (segmentEntry directory stem)) := by
    refine ⟨?_, ?_, ?_⟩
    · intro entry he
      obtain ⟨index, -, rfl⟩ := List.mem_map.1 he
      exact ⟨rfl, (segmentName_ne stem index).1⟩
    · intro entry he
      obtain ⟨index, hi, rfl⟩ := List.mem_map.1 he
      exact ((hmem index).1 hi).1.2
    · rw [List.pairwise_map]
      refine List.Pairwise.imp_of_mem ?_ hnodup
      intro a b ha hb hne hname
      exact hne (segmentName_injective ((hmem a).1 ha).1.1 ((hmem b).1 hb).1.1 hname)
  obtain ⟨hcount, hgone, hchanged⟩ := removeFiles_listed h hlisted hr
  have hthinned := thinned_removeFiles fs n (indices.map (segmentEntry directory stem))
  rw [hr] at hthinned
  have hbeyond : ∀ {other}, fs'.node? other ≠ fs.node? other → ∃ index, count ≤ index ∧
      index < segmentLimit ∧ other = place ++ [.given (segmentName stem index)] := by
    intro other hne
    obtain ⟨entry, he, rfl⟩ := hchanged hne
    obtain ⟨index, hi, rfl⟩ := List.mem_map.1 he
    obtain ⟨hthere, hge⟩ := (hmem index).1 hi
    exact ⟨index, hge, hthere.1, rfl⟩
  have hsame : ∀ index < count, fs'.node? (place ++ [.given (segmentName stem index)]) =
      fs.node? (place ++ [.given (segmentName stem index)]) := by
    intro index hi
    by_contra hne
    obtain ⟨other, hge, hother, heq⟩ := hbeyond hne
    have hindex := segmentName_injective (husable index hi).1.1 hother
      (List.singleton_inj.1 (List.append_cancel_left heq))
    omega
  refine ⟨hthinned, count, husable, hunusable, ?_, hsame, ?_, hbeyond⟩
  · intro index
    constructor
    · intro hp
      by_contra hge
      have hi := (hmem index).2 ⟨hp.of_thinned hthinned, Nat.le_of_not_lt hge⟩
      have hnone := hgone _ (List.mem_map_of_mem hi)
      have hsome := hp.2
      rw [show fs'.node? (place ++ [.given (segmentName stem index)]) = none from hnone] at hsome
      nomatch hsome
    · intro hi
      obtain ⟨hlimit, hsome⟩ := (husable index hi).1
      refine ⟨hlimit, ?_⟩
      rw [hsame index hi]
      exact hsome
  · rw [hcount, List.length_map, Nat.add_eq_left, List.length_eq_zero_iff, List.eq_nil_iff_forall_not_mem]
    refine forall_congr' fun index => ?_
    rw [hmem, not_and, Nat.not_le]

/-- A cleaning that ends well leaves what is of use. -/
theorem repaired_of_success (h : Plain directory place fs)
    (hcode : (clean fs directory stem true).2.code = 0) :
    ∃ count, Repaired directory stem place count fs (clean fs directory stem true).1
        (clean fs directory stem true).2 ∧
      Row directory stem place count (clean fs directory stem true).1 ∧
      ∀ index < count,
        decodes (clean fs directory stem true).1 (segmentPath directory stem index) = true := by
  obtain ⟨inProgress, segments, fs₁, fs₂, p, s, hl, hr₁, hu, hr₂, hclean⟩ := clean_success hcode
  rw [hclean]
  obtain ⟨hthinned₁, hnone₁, hsame₁, hchanged₁⟩ := sweep_inProgress h hl hr₁
  have h₁ := h.thinned hthinned₁
  obtain ⟨hthinned₂, count, husable, hunusable, hleft, hsame₂, hremoved, hchanged₂⟩ :=
    sweep_segments h₁ hu hr₂
  have h₂ := h₁.thinned hthinned₂
  have hpresent₁ : ∀ index, Present stem place fs₁ index ↔ Present stem place fs index := by
    intro index
    refine and_congr_right fun hi => ?_
    rw [hsame₁ index hi]
  have husable₁ : ∀ index, Usable directory stem place fs₁ index ↔ Usable directory stem place fs index := by
    intro index
    by_cases hi : index < segmentLimit
    · exact usable_congr h h₁ (hsame₁ index hi)
    · exact ⟨fun hn => absurd hn.1.1 hi, fun hn => absurd hn.1.1 hi⟩
  have husable₂ : ∀ index < count, Usable directory stem place fs₂ index :=
    fun index hi => (usable_congr h₁ h₂ (hsame₂ index hi)).2 (husable index hi)
  have hnone₂ : ∀ name, isInProgress stem name.text = true → fs₂.node? (place ++ [name]) = none := by
    intro name hname
    rcases hthinned₂.node?_eq_or_eq_none (place ++ [name]) with heq | heq
    · exact heq.trans (hnone₁ name hname)
    · exact heq
  have hrow := row_of_usable h₂ husable₂ hleft
  have hdecodes : ∀ index < count, decodes fs₂ (segmentPath directory stem index) = true :=
    fun index hi => (husable₂ index hi).2
  have hintact : (∀ index, Present stem place fs index → Present stem place fs₂ index) ↔
      ∀ index, Present stem place fs index → index < count := by
    simp only [hleft]
  refine ⟨count, ?_, hrow, hdecodes⟩
  refine ⟨?_, ?_, hleft, ?_, hnone₂, ?_, ?_, ⟨p, s, rfl, ?_⟩, clean_of_row hrow hdecodes hnone₂,
    inspect_of_row hrow hdecodes hnone₂⟩
  · exact fun index hi => (husable₁ index).1 (husable index hi)
  · exact fun hu => hunusable ((husable₁ count).2 hu)
  · exact fun index hi => (hsame₂ index hi).trans (hsame₁ index (husable index hi).1.1)
  · intro other hne
    by_cases heq : fs₂.node? other = fs₁.node? other
    · rw [heq] at hne
      obtain ⟨name, rfl, hname⟩ := hchanged₁ hne
      exact ⟨name, rfl, .inl hname⟩
    · obtain ⟨index, hge, hlimit, rfl⟩ := hchanged₂ heq
      exact ⟨_, rfl, .inr ⟨index, hge, segmentIndex?_segmentName hlimit⟩⟩
  · rw [hintact, inspect_ok_iff h (fun index hi => (husable₁ index).1 (husable index hi))
      fun hu => hunusable ((husable₁ count).2 hu)]
  · rw [hintact, hremoved]
    simp only [hpresent₁]

/-- What a stopped cleaning leaves of a directory of files yields the beginning of what the directory
yielded before it. -/
theorem readFresh_prefix {fs' : FileSystem} (h : Plain directory place fs) (ht : fs.Thinned fs')
    {options : Options} (hdirectory : options.directory = directory) (clock : Nat → Timestamp)
    (limit : Nat) : ∃ before after, readFresh options clock fs limit = .ok before ∧
      readFresh options clock fs' limit = .ok after ∧ after <+: before := by
  subst hdirectory
  rw [readFresh_eq, readFresh_eq]
  exact ⟨_, _, rfl, rfl, ((h.replayable_prefix _ ht options.stem).map _).take limit⟩

/-- In a directory of files, a cleaning that removes all that is of no use and ends well leaves the segments
before the first that was missing or did not decode, as they were. There is nothing left to remove then,
and a strict verification succeeds. However early the cleaning is stopped, in whichever of its steps, whoever
reads the cache is replayed the beginning of what was replayed before. If the segments that are left hold
the first records of a log, one read through the cache yields the whole log and leaves a cache that yields
it. -/
theorem clean_repairs (stem : String) (h : Plain directory place fs) :
    let cleaned := (clean fs directory stem true).1
    let report := (clean fs directory stem true).2
    (∃ steps, Cleaning.steps directory stem true steps (fs, .begun) = (cleaned, .ended report)) ∧
    (∀ steps, let stopped := (Cleaning.steps directory stem true steps (fs, .begun)).1
      (∀ {P : Type} (codec : PositionCodec P),
        replayable codec stopped directory stem <+: replayable codec fs directory stem) ∧
      ∀ (options : Options) (clock : Nat → Timestamp) (limit : Nat), options.directory = directory →
        options.stem = stem → ∃ before after, readFresh options clock fs limit = .ok before ∧
          readFresh options clock stopped limit = .ok after ∧ after <+: before) ∧
    (report.code = 0 → ∃ count, Repaired directory stem place count fs cleaned report ∧
      ∀ (store : Store) (options : Options) (limit : Nat),
        Continues directory stem count cleaned store → options.directory = directory →
        options.stem = stem → options.readOnly = false → store.log.events.length < limit →
          ∃ items later, readWhole options ⟨store, cleaned⟩ limit = .ok (items, later) ∧
            Rebuilt directory stem store (recordsOf cleaned directory stem count).length items later) := by
  intro cleaned report
  refine ⟨Cleaning.steps_eq_clean fs directory stem true, fun steps => ?_, fun hcode => ?_⟩
  · have hthinned : fs.Thinned (Cleaning.steps directory stem true steps (fs, .begun)).1 :=
      Cleaning.thinned_steps true steps .begun
    exact ⟨fun codec => h.replayable_prefix codec hthinned stem,
      fun options clock limit hdirectory _ => readFresh_prefix h hthinned hdirectory clock limit⟩
  · obtain ⟨count, hrepaired, hrow, hdecodes⟩ := repaired_of_success h hcode
    refine ⟨count, hrepaired, ?_⟩
    intro store options limit hcontinues hdirectory hstem hwrites hmore
    exact hcontinues.readWhole hrow (fun index hi => Option.isNone_iff_eq_none.1 (hdecodes index hi))
      hdirectory hstem hwrites hmore

section Mixed

/-- The category of the orders is one that a stream may have. -/
theorem undashed_orders : '-' ∉ "orders".toList := by decide

/-- The first event of a log. -/
def firstPlaced : Placed Nat := ⟨1, .epoch, ⟨"orders", "1", undashed_orders⟩, 0, "Placed", [1], []⟩

/-- A directory with a segment, one that is cut short, one after a gap and a file that is being written. -/
def mixedFiles : FileSystem where
  nodes := [([.given "cache"], .directory),
    ([.given "cache", .given "events-00000000.gz"], .file (Gzip.pack (encodeAll [cachedOf firstPlaced]))),
    ([.given "cache", .given "events-00000001.gz"], .file [31, 139]),
    ([.given "cache", .given "events-00000003.gz"], .file []),
    ([.given "cache", .drawn ".events-" ".tmp" 0], .file [])]
  temporaries := 1

/-- The directory with its first entries alone. -/
def mixedFilesUpTo (count : Nat) : FileSystem := { mixedFiles with nodes := mixedFiles.nodes.take count }

/-- The event is within the limits of the format. -/
theorem storable_firstPlaced : (cachedOf firstPlaced).Storable := by
  constructor <;> decide

/-- The first segment is read back as long as it is there. -/
theorem readFile_mixedFiles {files : FileSystem}
    (h : files.find (segmentPath "cache" "events" 0) =
      .ok ([.given "cache", .given "events-00000000.gz"],
        .file (Gzip.pack (encodeAll [cachedOf firstPlaced])))) :
    readFile files (segmentPath "cache" "events" 0) = ([(cachedOf firstPlaced).floored], none) := by
  refine readFile_packed h fun r hr => ?_
  rw [List.mem_singleton.1 hr]
  exact storable_firstPlaced.fits

/-- It is a directory of files. -/
theorem plain_mixedFiles : Plain "cache" [.given "cache"] mixedFiles := by
  refine .of_entries rfl fun entry he name hname => ?_
  simp only [mixedFiles, List.mem_cons, List.not_mem_nil, or_false] at he
  rcases he with rfl | rfl | rfl | rfl | rfl
  · nomatch hname
  · cases hname
    exact ⟨nofun, by unfold Path.Slashless; decide, .inl rfl⟩
  · cases hname
    exact ⟨nofun, by unfold Path.Slashless; decide, .inl rfl⟩
  · cases hname
    exact ⟨nofun, by unfold Path.Slashless; decide, .inl rfl⟩
  · cases hname
    exact ⟨nofun, by unfold Path.Slashless; decide +kernel, .inr ⟨_, _, rfl⟩⟩

/-- The file that is being written is listed. -/
theorem listInProgress_mixedFiles : listInProgress mixedFiles "cache" "events" =
    .ok [.within "cache" (.drawn ".events-" ".tmp" 0)] := by
  have hnames : mixedFiles.list "cache" = .ok [.given "events-00000000.gz", .given "events-00000001.gz",
    .given "events-00000003.gz", .drawn ".events-" ".tmp" 0] := rfl
  have hfilter : [Name.given "events-00000000.gz", .given "events-00000001.gz",
      .given "events-00000003.gz", .drawn ".events-" ".tmp" 0].filter (isInProgress "events" ·.text) =
        [.drawn ".events-" ".tmp" 0] := by
    decide
  unfold listInProgress
  rw [hnames]
  dsimp only
  rw [hfilter, List.map_singleton, List.mergeSort_singleton]

/-- Without that file, two of the segments can be replayed and one comes after the gap. -/
theorem scanSegments_mixedFiles : scanSegments (mixedFilesUpTo 4) "cache" "events" = .ok ⟨[0, 1], [3]⟩ := by
  have hnames : (mixedFilesUpTo 4).list "cache" = .ok [.given "events-00000000.gz",
    .given "events-00000001.gz", .given "events-00000003.gz"] := rfl
  have hindices : [Name.given "events-00000000.gz", .given "events-00000001.gz",
      .given "events-00000003.gz"].filterMap (segmentIndex? "events" ·.text) = [0, 1, 3] := by
    decide
  rw [scanSegments_of_list hnames]
  unfold scanNames
  rw [hindices, List.mergeSort_of_pairwise (by decide)]
  rfl

/-- The first segment decodes. -/
theorem decodes_mixedFiles_zero : decodes (mixedFilesUpTo 4) (segmentPath "cache" "events" 0) = true := by
  unfold decodes
  rw [readFile_mixedFiles rfl]
  rfl

/-- The second is cut short before its first record. -/
theorem readFile_mixedFiles_one : readFile (mixedFilesUpTo 4) (segmentPath "cache" "events" 1) =
    ([], some (.io "unexpected end of file")) := rfl

/-- So it does not decode. -/
theorem decodes_mixedFiles_one : decodes (mixedFilesUpTo 4) (segmentPath "cache" "events" 1) = false := by
  unfold decodes
  rw [readFile_mixedFiles_one]
  rfl

/-- Without that file, the segment that is cut short and the one after the gap are of no use. -/
theorem unusableSegments_mixedFiles : unusableSegments (mixedFilesUpTo 4) "cache" "events" =
    .ok [segmentEntry "cache" "events" 1, segmentEntry "cache" "events" 3] := by
  have hdrop : [0, 1].dropWhile
      (fun index => decodes (mixedFilesUpTo 4) (segmentPath "cache" "events" index)) = [1] := by
    simp only [List.dropWhile_cons, decodes_mixedFiles_zero, decodes_mixedFiles_one, if_true,
      Bool.false_eq_true, if_false]
  unfold unusableSegments
  rw [scanSegments_mixedFiles]
  dsimp only [Bind.bind, Except.bind, Pure.pure, Except.pure]
  rw [hdrop]
  rfl

/-- Cleaning leaves the first segment. -/
theorem clean_mixedFiles : clean mixedFiles "cache" "events" true =
    (mixedFilesUpTo 2, .success [removedInProgress 1, removedSegments 2]) := by
  have hswept : removeFiles mixedFiles 0 [.within "cache" (.drawn ".events-" ".tmp" 0)] =
      (mixedFilesUpTo 4, .ok 1) := rfl
  have hleft : removeFiles (mixedFilesUpTo 4) 0
      [segmentEntry "cache" "events" 1, segmentEntry "cache" "events" 3] = (mixedFilesUpTo 2, .ok 2) := rfl
  unfold clean cleanSegments
  rw [listInProgress_mixedFiles]
  dsimp only
  rw [hswept]
  dsimp only
  rw [unusableSegments_mixedFiles]
  dsimp only
  rw [hleft]
  rfl

/-- Of a segment, one that is cut short, one after a gap and a file that is being written, cleaning leaves
the segment, and a read adds the second event of the log. -/
theorem clean_repairs_of_four :
    let store := ((Store.withClock fun _ => .epoch).append firstPlaced.record.stream
      [⟨"Placed", [1], []⟩]).append firstPlaced.record.stream [⟨"Paid", [2], []⟩]
    let cleaned := (clean mixedFiles "cache" "events" true).1
    Plain "cache" [.given "cache"] mixedFiles ∧
      (clean mixedFiles "cache" "events" true).2 = .success [removedInProgress 1, removedSegments 2] ∧
      Continues "cache" "events" 1 cleaned store ∧
      ∃ items later, readWhole { directory := "cache", stem := "events" } ⟨store, cleaned⟩ 3 =
        .ok (items, later) ∧ Rebuilt "cache" "events" store 1 items later := by
  intro store cleaned
  have hcleaned : cleaned = mixedFilesUpTo 2 := congrArg Prod.fst clean_mixedFiles
  have hevents : store.log.events =
      [firstPlaced, ⟨2, .epoch, firstPlaced.record.stream, 1, "Paid", [2], []⟩] := by
    decide +kernel
  have hstorable : ∀ e ∈ store.log.events, (cachedOf e).Storable := by
    intro e he
    rw [hevents] at he
    simp only [List.mem_cons, List.not_mem_nil, or_false] at he
    rcases he with rfl | rfl
    · exact storable_firstPlaced
    · constructor <;> decide +kernel
  have hrecords : recordsOf (mixedFilesUpTo 2) "cache" "events" 1 = [(cachedOf firstPlaced).floored] := by
    change [(readFile (mixedFilesUpTo 2) (segmentPath "cache" "events" 0)).1].flatten = _
    rw [readFile_mixedFiles rfl]
    rfl
  have hcontinues : Continues "cache" "events" 1 (mixedFilesUpTo 2) store := by
    refine ⟨.append _ _ (.append _ _ (.start _)), by decide +kernel, hstorable, ?_, by decide,
      ⟨by unfold Path.Slashless; decide, by decide +kernel, by decide +kernel⟩⟩
    rw [hrecords]
    exact ⟨_, rfl⟩
  have hcode : (clean mixedFiles "cache" "events" true).2.code = 0 := by
    rw [clean_mixedFiles]
    rfl
  have hrepairs := (clean_repairs "events" plain_mixedFiles).2.2 hcode
  rw [clean_mixedFiles] at hrepairs
  obtain ⟨count, hrepaired, hrebuilds⟩ := hrepairs
  obtain rfl : count = 1 := by
    have hzero := (hrepaired.segments 0).1 ⟨by decide, rfl⟩
    have hone : ¬ 1 < count := fun hlt => nomatch ((hrepaired.segments 1).2 hlt).2
    omega
  obtain ⟨items, later, hread, hrebuilt⟩ := hrebuilds store { directory := "cache", stem := "events" } 3
    hcontinues rfl rfl rfl (by decide +kernel)
  rw [hrecords] at hrebuilt
  rw [hcleaned]
  exact ⟨plain_mixedFiles, congrArg Prod.snd clean_mixedFiles, hcontinues, items, later, hread, hrebuilt⟩

end Mixed

/-- With a slash in the stem the file for a segment would have to stand in a directory that is not there. So
one read through the cache yields the log after a cleaning, and the cache yields nothing. -/
theorem slashed_stem_rebuilds_nothing :
    let orders : StreamId := ⟨"orders", "1", by decide⟩
    let fs : FileSystem := { nodes := [([.given "cache"], .directory)] }
    let store := (Store.withClock fun _ => .epoch).append orders [⟨"Placed", [1], []⟩]
    let options : Options := { directory := "cache", stem := "a/b" }
    let cleaned := (clean fs "cache" "a/b" true).1
    Plain "cache" [.given "cache"] fs ∧ (clean fs "cache" "a/b" true).2.code = 0 ∧ store.Reached ∧
      2 * store.size ≤ Bytes.modulus64 ∧ (∀ e ∈ store.log.events, (cachedOf e).Storable) ∧
      recordsOf cleaned "cache" "a/b" 0 <+: (store.log.events.map cachedOf).map (·.floored) ∧
      (readWhole options ⟨store, cleaned⟩ 2).toOption.map (fun read =>
        (read.1, readFresh options (fun _ => .epoch) read.2.files 2)) =
          some (results store.log.events, .ok []) := by
  intro orders fs store options cleaned
  have hplain : Plain "cache" [.given "cache"] fs := by
    refine .of_entries rfl fun entry he name hname => ?_
    rw [List.mem_singleton.1 he] at hname
    nomatch hname
  have hstorable : ∀ e ∈ store.log.events, (cachedOf e).Storable := by
    intro e he
    have hevents : store.log.events = [⟨1, .epoch, orders, 0, "Placed", [1], []⟩] := by
      decide +kernel
    rw [hevents] at he
    rw [List.mem_singleton.1 he]
    constructor <;> decide +kernel
  exact ⟨hplain, by decide +kernel, .append _ _ (.start _), by decide +kernel, hstorable, List.nil_prefix,
    by decide +kernel⟩

end Cleaned

end Chronicle.Maintenance
