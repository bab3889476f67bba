import Chronicle.Files.FileSystem
import Chronicle.Proofs.Files.Paths
import Chronicle.Proofs.Lists

/-!
# Ways through a tree

A path leads along names from the root, and through directories only. What it takes for a path to lead
somewhere is said once for every operation that follows paths. A name that is put behind the path of a
directory names something in that directory, and the path of its own directory leads back there.
-/

namespace Chronicle

/-- A bound computation gives a result when both parts do. -/
theorem Except.bind_eq_ok_iff {ε α β : Type} {x : Except ε α} {f : α → Except ε β} {b : β} :
    (x >>= f) = .ok b ↔ ∃ a, x = .ok a ∧ f a = .ok b := by
  cases x with
  | error e =>
    refine ⟨fun h => ?_, fun ⟨a, h, _⟩ => ?_⟩
    · cases h
    · cases h
  | ok a =>
    refine ⟨fun h => ⟨a, rfl, h⟩, fun ⟨a', h, hf⟩ => ?_⟩
    cases h
    exact hf

/-- A bound computation does not fail in a way in which neither part does. -/
theorem Except.bind_ne_error {ε α β : Type} {x : Except ε α} {f : α → Except ε β} {e : ε}
    (hx : x ≠ .error e) (hf : ∀ a, x = .ok a → f a ≠ .error e) : (x >>= f) ≠ .error e := by
  cases x with
  | error other =>
    intro he
    cases he
    exact hx rfl
  | ok a => exact hf a rfl

/-- A computation that may be refused first gives a result when it is not. -/
theorem Except.refuse_eq_ok_iff {ε α β : Type} {p : Prop} [Decidable p] {e : ε} {f : α → Except ε β}
    {x : Except ε β} {b : β} :
    (if p then ((throw e : Except ε α) >>= f) else x) = .ok b ↔ ¬ p ∧ x = .ok b := by
  by_cases h : p
  · rw [if_pos h]
    refine ⟨fun hx => ?_, fun hx => absurd h hx.1⟩
    cases hx
  · rw [if_neg h]
    exact ⟨fun hx => ⟨h, hx⟩, fun hx => hx.2⟩

/-- A computation that may be refused first does not fail in a way in which it is neither refused nor fails. -/
theorem Except.refuse_ne_error {ε α β : Type} {p : Prop} [Decidable p] {e e' : ε} {f : α → Except ε β}
    {x : Except ε β} (hne : e ≠ e') (hx : ¬ p → x ≠ .error e') :
    (if p then ((throw e : Except ε α) >>= f) else x) ≠ .error e' := by
  by_cases h : p
  · rw [if_pos h]
    intro he
    cases he
    exact hne rfl
  · rw [if_neg h]
    exact hx h

/-- Two computations that begin alike end alike, up to what is made of the results. -/
theorem Except.bind_eq_map {ε α β γ : Type} {x : Except ε α} {f : α → Except ε β} {f' : α → Except ε γ}
    {g : γ → β} (h : ∀ a, x = .ok a → f a = (f' a).map g) : (x >>= f) = (x >>= f').map g := by
  cases x with
  | error e => rfl
  | ok a => exact h a rfl

/-- Two computations that refuse alike end alike, up to what is made of the results. -/
theorem Except.refuse_eq_map {ε α β γ : Type} {p : Prop} [Decidable p] {e : ε} {f : α → Except ε β}
    {f' : α → Except ε γ} {g : γ → β} {x : Except ε β} {y : Except ε γ} (h : ¬ p → x = y.map g) :
    (if p then ((throw e : Except ε α) >>= f) else x) =
      (if p then ((throw e : Except ε α) >>= f') else y).map g := by
  by_cases hp : p
  · rw [if_pos hp, if_pos hp]
    rfl
  · rw [if_neg hp, if_neg hp]
    exact h hp

/-- A name that is spelled out in a path. -/
def Name.IsGiven : Name → Prop
  | given _ => True
  | drawn _ _ _ => False

/-- A place that a path can lead to. -/
def Location.Given (place : Location) : Prop := ∀ name ∈ place, name.IsGiven

namespace FileSystem

variable {fs fs' : FileSystem}

section Nodes

/-- What is put at a place stands there. -/
theorem node?_put_self (place : Location) (name : Name) (node : Node) :
    (fs.put (place ++ [name]) node).node? (place ++ [name]) = some node := by
  simp [node?, put]

/-- What is put at a place stands nowhere else. -/
theorem node?_put_ne {place other : Location} (hne : other ≠ place) (node : Node) :
    (fs.put place node).node? other = fs.node? other := by
  have hb : (other == place) = false := by simpa using hne
  unfold node? put
  dsimp only
  rw [List.lookup_cons, hb]
  dsimp only
  rw [lookup_filter_ne hne]

/-- What is erased at a place stays everywhere else. -/
theorem node?_erase_ne {place other : Location} (hne : other ≠ place) :
    (fs.erase place).node? other = fs.node? other := by
  unfold node? erase
  dsimp only
  rw [lookup_filter_ne hne]

/-- What is erased at a place no longer stands there. -/
theorem node?_erase_self (place : Location) (name : Name) :
    (fs.erase (place ++ [name])).node? (place ++ [name]) = none := by
  have hne : (place ++ [name]).isEmpty = false := by simp
  unfold node? erase
  rw [hne, if_neg Bool.false_ne_true, List.lookup_eq_none_iff]
  intro entry he
  have hkept : entry.1 ≠ place ++ [name] := of_decide_eq_true (List.mem_filter.1 he).2
  exact bne_iff_ne.2 hkept.symm

/-- Something is listed for every place below the root where something stands. -/
theorem exists_entry_iff (place : Location) (name : Name) :
    (∃ entry ∈ fs.nodes, entry.1 = place ++ [name]) ↔ (fs.node? (place ++ [name])).isSome = true := by
  have hne : (place ++ [name]).isEmpty = false := by simp
  unfold node?
  rw [hne, if_neg Bool.false_ne_true, List.lookup_isSome_iff]
  constructor
  · rintro ⟨entry, he, hp⟩
    exact ⟨entry, he, by simpa using hp.symm⟩
  · rintro ⟨entry, he, hp⟩
    exact ⟨entry, he, by simpa using (beq_iff_eq.1 hp).symm⟩

end Nodes

section Following

/-- A directory is needed where one stands. -/
theorem needDirectory_eq_ok_iff {place : Location} :
    fs.needDirectory place = .ok () ↔ fs.node? place = some .directory := by
  unfold needDirectory
  cases hn : fs.node? place with
  | none => simp
  | some node => cases node <;> simp

/-- One name is followed and then the others. -/
theorem follow_cons (fs : FileSystem) (place : Location) (name : String) (rest : List String) :
    fs.follow place (name :: rest) = (fs.needDirectory place >>= fun _ =>
      if name = "." then fs.follow place rest
      else if name = ".." then fs.follow place.dropLast rest
      else Path.checkName name >>= fun _ => fs.follow (place ++ [.given name]) rest) := rfl

/-- A name is followed in a directory: a dot stays, two dots lead up, and any other name leads on. -/
theorem follow_cons_eq_ok_iff {place target : Location} {name : String} {rest : List String} :
    fs.follow place (name :: rest) = .ok target ↔ fs.node? place = some .directory ∧
      if name = "." then fs.follow place rest = .ok target
      else if name = ".." then fs.follow place.dropLast rest = .ok target
      else Path.checkName name = .ok () ∧ fs.follow (place ++ [.given name]) rest = .ok target := by
  have hunit {p : Unit → Prop} : (∃ u, p u) ↔ p () := ⟨fun ⟨⟨⟩, h⟩ => h, fun h => ⟨(), h⟩⟩
  rw [follow_cons, Except.bind_eq_ok_iff, hunit, needDirectory_eq_ok_iff]
  refine and_congr_right fun _ => ?_
  by_cases h1 : name = "."
  · rw [if_pos h1, if_pos h1]
  · rw [if_neg h1, if_neg h1]
    by_cases h2 : name = ".."
    · rw [if_pos h2, if_pos h2]
    · rw [if_neg h2, if_neg h2, Except.bind_eq_ok_iff, hunit]

/-- Names are followed one after the other. -/
theorem follow_append (place : Location) (xs ys : List String) : fs.follow place (xs ++ ys) =
    (fs.follow place xs >>= fun between => fs.follow between ys) := by
  induction xs generalizing place with
  | nil => rfl
  | cons name xs ih =>
    rw [List.cons_append, follow_cons, follow_cons]
    cases fs.needDirectory place with
    | error e => rfl
    | ok u =>
      dsimp only [Bind.bind, Except.bind]
      split
      · exact ih place
      · split
        · exact ih place.dropLast
        · cases Path.checkName name with
          | error e => rfl
          | ok u => exact ih (place ++ [.given name])

/-- Names lead somewhere if the first lead somewhere, and the others lead on. -/
theorem follow_append_eq_ok_iff {place target : Location} {xs ys : List String} :
    fs.follow place (xs ++ ys) = .ok target ↔
      ∃ between, fs.follow place xs = .ok between ∧ fs.follow between ys = .ok target := by
  rw [follow_append, Except.bind_eq_ok_iff]

/-- Dots lead nowhere else. -/
theorem follow_dots {place target : Location} {dots : List String} (hd : ∀ name ∈ dots, name = ".")
    (h : fs.follow place dots = .ok target) : target = place := by
  induction dots with
  | nil =>
    cases h
    rfl
  | cons name rest ih =>
    have hn : name = "." := hd name List.mem_cons_self
    have hf := (follow_cons_eq_ok_iff.1 h).2
    rw [if_pos hn] at hf
    exact ih (fun other ho => hd other (List.mem_cons_of_mem name ho)) hf

/-- What holds of the names that lead to a place, and of those that are followed, holds of the names that
lead to where these lead. -/
theorem forall_of_follow {P : Name → Prop} {place target : Location} {names : List String}
    (hp : ∀ name ∈ place, P name) (hn : ∀ name ∈ names, P (.given name))
    (h : fs.follow place names = .ok target) : ∀ name ∈ target, P name := by
  induction names generalizing place with
  | nil =>
    cases h
    exact hp
  | cons name rest ih =>
    have hrest : ∀ other ∈ rest, P (.given other) := fun other ho => hn other (List.mem_cons_of_mem name ho)
    have hf := (follow_cons_eq_ok_iff.1 h).2
    by_cases h1 : name = "."
    · rw [if_pos h1] at hf
      exact ih hp hrest hf
    · rw [if_neg h1] at hf
      by_cases h2 : name = ".."
      · rw [if_pos h2] at hf
        exact ih (fun other ho => hp other (List.dropLast_subset place ho)) hrest hf
      · rw [if_neg h2] at hf
        refine ih ?_ hrest hf.2
        intro other ho
        rcases List.mem_append.1 ho with ho | ho
        · exact hp other ho
        · rw [List.mem_singleton.1 ho]
          exact hn name List.mem_cons_self

/-- Paths lead to places that paths can lead to. -/
theorem given_of_follow {place target : Location} {names : List String} (hp : place.Given)
    (h : fs.follow place names = .ok target) : target.Given :=
  forall_of_follow hp (fun _ _ => trivial) h

/-- Names that can be followed are dots or names that something can have. -/
theorem checkName_of_follow {place target : Location} {names : List String}
    (h : fs.follow place names = .ok target) {name : String} (hn : name ∈ names)
    (hrel : Path.isRelative name = false) : Path.checkName name = .ok () := by
  have hr : name ≠ "." ∧ name ≠ ".." := by simpa [Path.isRelative] using hrel
  induction names generalizing place with
  | nil => exact absurd hn List.not_mem_nil
  | cons first rest ih =>
    have hf := (follow_cons_eq_ok_iff.1 h).2
    rcases List.mem_cons.1 hn with rfl | hn
    · rw [if_neg hr.1, if_neg hr.2] at hf
      exact hf.1
    · split at hf
      · exact ih hf hn
      · split at hf
        · exact ih hf hn
        · exact ih hf.2 hn

/-- Names lead to the same place in a tree that keeps the directories. -/
theorem follow_of_keeps
    (hk : ∀ place : Location, place.Given → fs.node? place = some .directory →
      fs'.node? place = some .directory)
    {place target : Location} {names : List String} (hp : place.Given)
    (h : fs.follow place names = .ok target) : fs'.follow place names = .ok target := by
  induction names generalizing place with
  | nil => exact h
  | cons name rest ih =>
    obtain ⟨hd, hf⟩ := follow_cons_eq_ok_iff.1 h
    refine follow_cons_eq_ok_iff.2 ⟨hk place hp hd, ?_⟩
    by_cases h1 : name = "."
    · rw [if_pos h1] at hf ⊢
      exact ih hp hf
    · rw [if_neg h1] at hf ⊢
      by_cases h2 : name = ".."
      · rw [if_pos h2] at hf ⊢
        exact ih (fun other ho => hp other (List.dropLast_subset place ho)) hf
      · rw [if_neg h2] at hf ⊢
        refine ⟨hf.1, ih ?_ hf.2⟩
        intro other ho
        rcases List.mem_append.1 ho with ho | ho
        · exact hp other ho
        · rw [List.mem_singleton.1 ho]
          exact trivial

/-- A path leads to something when it may be followed and something stands where it leads. -/
theorem find_eq_ok_iff {path : String} {place : Location} {node : Node} :
    fs.find path = .ok (place, node) ↔ Path.check path = .ok () ∧
      fs.follow [] (Path.names path) = .ok place ∧ fs.node? place = some node := by
  unfold find resolve
  rw [Except.bind_eq_ok_iff]
  constructor
  · rintro ⟨target, hr, hf⟩
    obtain ⟨⟨⟩, hc, hr⟩ := Except.bind_eq_ok_iff.1 hr
    cases hn : fs.node? target with
    | none =>
      rw [hn] at hf
      cases hf
    | some found =>
      rw [hn] at hf
      cases hf
      exact ⟨hc, hr, hn⟩
  · rintro ⟨hc, hr, hn⟩
    refine ⟨place, Except.bind_eq_ok_iff.2 ⟨(), hc, hr⟩, ?_⟩
    rw [hn]
    rfl

/-- A path names something in a directory. -/
theorem slot_eq_ok_iff {path name : String} {place : Location} :
    fs.slot path = .ok (place, name) ↔ Path.check path = .ok () ∧
      fs.follow [] (Path.entry path).1 = .ok place ∧ fs.node? place = some .directory ∧
        (Path.entry path).2 = name := by
  unfold slot
  rw [Except.bind_eq_ok_iff]
  constructor
  · rintro ⟨⟨⟩, hc, hf⟩
    obtain ⟨target, hfollow, hf⟩ := Except.bind_eq_ok_iff.1 hf
    obtain ⟨⟨⟩, hd, hf⟩ := Except.bind_eq_ok_iff.1 hf
    cases hf
    exact ⟨hc, hfollow, needDirectory_eq_ok_iff.1 hd, rfl⟩
  · rintro ⟨hc, hfollow, hd, rfl⟩
    exact ⟨(), hc, Except.bind_eq_ok_iff.2
      ⟨place, hfollow, Except.bind_eq_ok_iff.2 ⟨(), needDirectory_eq_ok_iff.2 hd, rfl⟩⟩⟩

/-- A path names the same in a tree that keeps the directories. -/
theorem slot_of_keeps
    (hk : ∀ place : Location, place.Given → fs.node? place = some .directory →
      fs'.node? place = some .directory)
    {path name : String} {place : Location} (h : fs.slot path = .ok (place, name)) :
    fs'.slot path = .ok (place, name) := by
  obtain ⟨hcheck, hfollow, hd, hname⟩ := slot_eq_ok_iff.1 h
  have hroot : Location.Given [] := fun _ hn => absurd hn List.not_mem_nil
  exact slot_eq_ok_iff.2 ⟨hcheck, follow_of_keeps hk hroot hfollow,
    hk place (given_of_follow hroot hfollow) hd, hname⟩

/-- What a path leads to is at a place whose names hold no slash. -/
theorem slashless_of_find {path : String} {place : Location} {node : Node}
    (h : fs.find path = .ok (place, node)) : ∀ name ∈ place, Path.Slashless name.text := by
  refine forall_of_follow (fun _ hn => absurd hn List.not_mem_nil) ?_ (find_eq_ok_iff.1 h).2.1
  intro name hn
  rcases List.mem_append.1 hn with hn | hn
  · exact Path.slashless_of_mem_parts (List.mem_filter.1 hn).1
  · split at hn
    · rw [List.mem_singleton.1 hn]
      change '/' ∉ ".".toList
      decide
    · cases hn

/-- What a path leads to is at a place that paths can lead to. -/
theorem given_of_find {path : String} {place : Location} {node : Node}
    (h : fs.find path = .ok (place, node)) : place.Given :=
  given_of_follow (fun _ hn => absurd hn List.not_mem_nil) (find_eq_ok_iff.1 h).2.1

end Following

section Directory

variable {directory : String} {place : Location}

/-- The path of a directory is not empty. -/
theorem ne_empty_of_check {path : String} (h : Path.check path = .ok ()) : path ≠ "" := by
  rintro rfl
  cases h

/-- The names of a directory's path lead to it, whatever stands at the end of the path. -/
theorem follow_filled (h : fs.find directory = .ok (place, .directory)) :
    fs.follow [] (Path.filled (Path.parts directory)) = .ok place := by
  obtain ⟨-, hf, -⟩ := find_eq_ok_iff.1 h
  obtain ⟨between, hb, hd⟩ := follow_append_eq_ok_iff.1 hf
  have hdots : ∀ name ∈ (if Path.endsInSlash directory then ["."] else []), name = "." := by
    intro name hn
    split at hn
    · exact List.mem_singleton.1 hn
    · cases hn
  rw [follow_dots hdots hd]
  exact hb

/-- A directory lists each name under which something stands in it once, and no other. -/
theorem list_of_find (h : fs.find directory = .ok (place, .directory)) :
    ∃ names, fs.list directory = .ok names ∧ names.Nodup ∧
      ∀ name, name ∈ names ↔ (fs.node? (place ++ [name])).isSome = true := by
  refine ⟨_, by unfold list; rw [h]; rfl, nodup_eraseDups _, ?_⟩
  intro name
  rw [List.mem_eraseDups, List.mem_filterMap, ← exists_entry_iff]
  constructor
  · rintro ⟨entry, he, hn⟩
    refine ⟨entry, he, ?_⟩
    unfold nameIn at hn
    cases hl : entry.1.getLast? with
    | none =>
      rw [hl] at hn
      cases hn
    | some last =>
      rw [hl] at hn
      dsimp only at hn
      split at hn
      · rename_i hd
        cases hn
        obtain ⟨ys, hy⟩ := List.getLast?_eq_some_iff.1 hl
        rw [hy, List.dropLast_concat] at hd
        rw [hy, hd]
      · cases hn
  · rintro ⟨entry, he, hn⟩
    refine ⟨entry, he, ?_⟩
    unfold nameIn
    rw [hn, List.getLast?_concat, List.dropLast_concat]
    exact if_pos rfl

/-- A listed path is that of a directory. -/
theorem find_of_list {names : List Name} (h : fs.list directory = .ok names) :
    ∃ place, fs.find directory = .ok (place, .directory) := by
  unfold list at h
  obtain ⟨⟨place, node⟩, hf, hn⟩ := Except.bind_eq_ok_iff.1 h
  cases node with
  | file bytes => cases hn
  | directory => exact ⟨place, hf⟩

variable {name : String}

/-- A name behind the path of a directory is named in that directory. -/
theorem slot_join (h : fs.find directory = .ok (place, .directory)) (hn : Path.Slashless name)
    (hne : name ≠ "") (hc : Path.check (Path.join directory name) = .ok ()) :
    fs.slot (Path.join directory name) = .ok (place, name) := by
  obtain ⟨hcheck, -, hd⟩ := find_eq_ok_iff.1 h
  have he := Path.entry_join (ne_empty_of_check hcheck) hn hne
  refine slot_eq_ok_iff.2 ⟨hc, ?_, hd, ?_⟩
  · rw [he]
    exact follow_filled h
  · rw [he]

/-- What is found behind the path of a directory, and which refusal comes first. -/
theorem find_join_eq (h : fs.find directory = .ok (place, .directory)) (hn : Path.Slashless name)
    (hne : name ≠ "") (hrel : Path.isRelative name = false) : fs.find (Path.join directory name) = (do
      Path.check (Path.join directory name)
      Path.checkName name
      match fs.node? (place ++ [.given name]) with
      | none => .error .notFound
      | some node => .ok (place ++ [.given name], node)) := by
  obtain ⟨hcheck, -, hd⟩ := find_eq_ok_iff.1 h
  obtain ⟨above, hp, hf⟩ := Path.parts_join (ne_empty_of_check hcheck) hn
  have hr : name ≠ "." ∧ name ≠ ".." := by simpa [Path.isRelative] using hrel
  have hlast : fs.follow place [name] = Path.checkName name >>= fun _ => .ok (place ++ [.given name]) := by
    rw [follow_cons, needDirectory_eq_ok_iff.2 hd, if_neg hr.1, if_neg hr.2]
    rfl
  unfold find resolve
  rw [Path.names_of_parts hp hne, hf, follow_append, follow_filled h]
  cases Path.check (Path.join directory name) with
  | error e => rfl
  | ok u =>
    dsimp only [Bind.bind, Except.bind] at hlast ⊢
    rw [hlast]
    cases Path.checkName name <;> rfl

/-- Behind the path of a directory is found what stands under a name in it, if the name and the path are not
refused. -/
theorem find_join_eq_ok_iff (h : fs.find directory = .ok (place, .directory)) (hn : Path.Slashless name)
    (hne : name ≠ "") (hrel : Path.isRelative name = false) {target : Location} {node : Node} :
    fs.find (Path.join directory name) = .ok (target, node) ↔
      Path.check (Path.join directory name) = .ok () ∧ Path.checkName name = .ok () ∧
        target = place ++ [.given name] ∧ fs.node? target = some node := by
  rw [find_join_eq h hn hne hrel]
  simp only [Except.bind_eq_ok_iff]
  constructor
  · rintro ⟨⟨⟩, hc, ⟨⟩, hname, hnode⟩
    split at hnode
    · nomatch hnode
    · rename_i node' hat
      cases hnode
      exact ⟨hc, hname, rfl, hat⟩
  · rintro ⟨hc, hname, rfl, hnode⟩
    exact ⟨(), hc, (), hname, by rw [hnode]⟩

/-- What stands under a name in a directory is found behind the path of the directory. -/
theorem find_join (h : fs.find directory = .ok (place, .directory)) (hn : Path.Slashless name)
    (hne : name ≠ "") (hrel : Path.isRelative name = false)
    (hc : Path.check (Path.join directory name) = .ok ()) (hname : Path.checkName name = .ok ())
    {node : Node} (hnode : fs.node? (place ++ [.given name]) = some node) :
    fs.find (Path.join directory name) = .ok (place ++ [.given name], node) :=
  (find_join_eq_ok_iff h hn hne hrel).2 ⟨hc, hname, rfl, hnode⟩

/-- A path that is refused for its text is refused in another way than for what is there. -/
theorem check_error {path : String} {e : FileError} (hempty : path ≠ "") (h : Path.check path = .error e) :
    e ≠ .notFound ∧ e ≠ .alreadyExists := by
  have he : path.isEmpty = false := by
    rw [Bool.eq_false_iff]
    exact fun hp => hempty (String.isEmpty_iff.1 hp)
  unfold Path.check at h
  rw [he, if_neg Bool.false_ne_true] at h
  split at h
  · cases h
    exact ⟨nofun, nofun⟩
  · split at h
    · cases h
      exact ⟨nofun, nofun⟩
    · cases h

/-- A path leads to a directory, and names it where it is not a dot. -/
structure Leads (fs : FileSystem) (path : String) (place above : Location) : Prop where
  /-- The names of the path lead to the directory. -/
  follow_names : fs.follow [] (Path.names path) = .ok place
  /-- A directory stands there. -/
  node_eq : fs.node? place = some .directory
  /-- The names before the last lead to a place above. -/
  follow_above : fs.follow [] (Path.entry path).1 = .ok above
  /-- A directory stands there, too. -/
  above_eq : fs.node? above = some .directory
  /-- The last name is a dot or the name of the directory. -/
  last_eq : Path.isRelative (Path.entry path).2 = true ∨ above ++ [.given (Path.entry path).2] = place

/-- A path that leads to a directory finds it, if its text is not refused. -/
theorem Leads.find {path : String} {above : Location} (h : Leads fs path place above)
    (hc : Path.check path = .ok ()) : fs.find path = .ok (place, .directory) :=
  find_eq_ok_iff.2 ⟨hc, h.follow_names, h.node_eq⟩

/-- A directory that a path leads to is had as it is, if its path is not refused for its text. -/
theorem Leads.haveDirectory_ok {path : String} {above : Location} (h : Leads fs path place above)
    (hc : Path.check path = .ok ()) : fs.haveDirectory path = .ok fs := by
  have hs : fs.slot path = .ok (above, (Path.entry path).2) :=
    slot_eq_ok_iff.2 ⟨hc, h.follow_above, h.above_eq, rfl⟩
  have hfind : fs.isDirectory path = true := by
    unfold isDirectory
    rw [h.find hc]
  unfold FileSystem.haveDirectory createDirectory
  rw [hs]
  dsimp only [Bind.bind, Except.bind]
  cases hrel : Path.isRelative (Path.entry path).2 with
  | true =>
    rw [if_pos rfl]
    exact if_pos hfind
  | false =>
    have hat : above ++ [.given (Path.entry path).2] = place :=
      h.last_eq.resolve_left (by rw [hrel]; exact Bool.false_ne_true)
    have hsome : (fs.node? (above ++ [.given (Path.entry path).2])).isSome = true := by
      rw [hat, h.node_eq]
      rfl
    rw [if_neg Bool.false_ne_true, checkName_of_follow h.follow_names (Path.entry_mem_names hrel) hrel]
    dsimp only [Pure.pure, Except.pure]
    rw [if_pos hsome]
    exact if_pos hfind

/-- A directory is not had if its path is refused for its text. -/
theorem haveDirectory_of_check {path : String} {e : FileError} (hempty : path ≠ "")
    (hc : Path.check path = .error e) : fs.haveDirectory path = .error e := by
  have hs : fs.slot path = .error e := by
    unfold slot
    rw [hc]
    rfl
  unfold haveDirectory createDirectory
  rw [hs]
  dsimp only [Bind.bind, Except.bind]
  split
  · rename_i he
    exact absurd (Except.error.inj he) (check_error hempty hc).2
  · rfl

/-- A directory that is there is created without doing anything, unless its path is refused for its text. -/
theorem Leads.createDirectories {path : String} {above : Location} (h : Leads fs path place above)
    (hne : path ≠ "") : fs.createDirectories path = (fs, Path.check path) := by
  have hempty : path.isEmpty = false := by
    rw [Bool.eq_false_iff]
    exact fun hp => hne (String.isEmpty_iff.1 hp)
  unfold FileSystem.createDirectories haveInnermost
  rw [hempty, if_neg Bool.false_ne_true]
  cases hc : Path.check path with
  | ok u =>
    rw [h.haveDirectory_ok hc]
    rfl
  | error e =>
    rw [haveDirectory_of_check hne hc]
    cases e with
    | notFound => exact absurd rfl (check_error hne hc).1
    | _ => rfl

/-- The directory of a name that is put behind the path of one is that directory. -/
theorem leads_parent_join (h : fs.find directory = .ok (place, .directory))
    (hn : Path.Slashless name) (hne : name ≠ "") (hdot : name ≠ ".") :
    ∃ above, Leads fs (Path.parent (Path.join directory name)) place above := by
  obtain ⟨hcheck, -, hd⟩ := find_eq_ok_iff.1 h
  have hfilled := follow_filled h
  rcases Path.parent_join (ne_empty_of_check hcheck) hn hne hdot with
    ⟨hparent, hall⟩ | ⟨above, last, dots, hp, hl, hf, hall⟩
  · have hroot : place = [] := follow_dots hall hfilled
    subst hroot
    have hr : fs.node? [] = some .directory := rfl
    rw [hparent]
    exact ⟨[], follow_cons_eq_ok_iff.2 ⟨hr, rfl⟩, hr, rfl, hr, .inl rfl⟩
  · rw [hf] at hfilled
    obtain ⟨between, hb, hd'⟩ := follow_append_eq_ok_iff.1 hfilled
    have hpb := follow_dots hall hd'
    subst hpb
    obtain ⟨outer, ho, hlast⟩ := follow_append_eq_ok_iff.1 hb
    obtain ⟨hod, hstep⟩ := follow_cons_eq_ok_iff.1 hlast
    have hentry := Path.entry_of_parts hp hl
    refine ⟨outer, ?_, hd, ?_, hod, ?_⟩
    · rw [Path.names_of_parts hp hl]
      exact hb
    · rw [hentry]
      exact ho
    · rw [hentry]
      dsimp only
      by_cases h1 : last = "."
      · exact .inl (by simp [Path.isRelative, h1])
      · rw [if_neg h1] at hstep
        by_cases h2 : last = ".."
        · exact .inl (by simp [Path.isRelative, h2])
        · rw [if_neg h2] at hstep
          exact .inr (Except.ok.inj hstep.2)

/-- Creating the directory of a name that is put behind the path of one that is there does nothing. -/
theorem createDirectories_parent_join (h : fs.find directory = .ok (place, .directory))
    (hn : Path.Slashless name) (hne : name ≠ "") (hdot : name ≠ ".") :
    fs.createDirectories (Path.parent (Path.join directory name)) =
      (fs, Path.check (Path.parent (Path.join directory name))) := by
  obtain ⟨above, hleads⟩ := leads_parent_join h hn hne hdot
  have hdirectory := ne_empty_of_check (find_eq_ok_iff.1 h).1
  exact hleads.createDirectories (Path.parent_join_ne_empty hdirectory hn hne hdot)

end Directory

end FileSystem

end Chronicle
