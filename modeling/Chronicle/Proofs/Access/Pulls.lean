import Chronicle.Access.Reads

/-!
# Pulls of an open read

What a consumer of an open read meets is what its pulls find, in order. Between two pulls the world may
change, so a read is followed here along a trace: changes that others make and pulls of its own. Asking
for the next result, or for several, is nothing but pulls, so what holds of every trace holds of them.

If nobody interferes, it may be known beforehand what a read will yield. A forecast says what is still to
come and after how many skips at most. It is proved for one pull, and then holds for as many results as
anyone asks for.
-/

namespace Chronicle

/-- The event that was found, none for anything else. -/
def Found.events {P : Type} : Found P → List (Placed P)
  | .event e => [e]
  | _ => []

/-- The events among results. -/
def Item.events {P : Type} (items : List (Item P)) : List (Placed P) :=
  items.filterMap Except.toOption

/-- A result holds the event that was found. -/
theorem Found.events_item {P : Type} (found : Found P) :
    Item.events found.item?.toList = found.events := by
  cases found <;> rfl

namespace Reads

variable {W P : Type} {r : Reads W P} {env : W → W → Prop}

/-- A read whose next pull is no skip takes just that pull. -/
theorem next_of_pull {w w' : W} {c c' : r.Cursor} {found : Found P}
    (h : r.pull w c = (w', c', found)) (hs : found ≠ .skipped) :
    r.next w c = (w', c', found.item?) := by
  have hg : r.seek glance w c = (w', c', found) := by
    unfold glance seek
    rw [h]
    cases found with
    | skipped => exact absurd rfl hs
    | event e => rfl
    | failure e => rfl
    | finished => rfl
  unfold next
  rw [hg]
  cases found with
  | skipped => exact absurd rfl hs
  | event e => rfl
  | failure e => rfl
  | finished => rfl

/-- The results of a read whose next one is known. -/
theorem take_of_next {w later : W} {c next : r.Cursor} {item : Item P}
    (h : r.next w c = (later, next, some item)) (limit : Nat) :
    (r.take (limit + 1) w c).2.2 = item :: (r.take limit later next).2.2 := by
  simp only [take, h]

/-- A read that has ended has no results. -/
theorem take_of_end {w later : W} {c next : r.Cursor} (h : r.next w c = (later, next, none)) (limit : Nat) :
    (r.take limit w c).2.2 = [] := by
  cases limit with
  | zero => rfl
  | succ limit => simp only [take, h]

/-- Reads whose next result is the same have the same results. -/
theorem take_congr {w : W} {c d : r.Cursor} (h : r.next w c = r.next w d) (limit : Nat) :
    (r.take limit w c).2.2 = (r.take limit w d).2.2 := by
  cases limit with
  | zero => rfl
  | succ limit => simp only [take, h]

/-- Reads whose next pull is the same give the same result. -/
theorem next_congr {w : W} {c d : r.Cursor} (h : r.pull w c = r.pull w d) : r.next w c = r.next w d := by
  have hseek : r.seek glance w c = r.seek glance w d := by
    unfold glance seek
    rw [h]
  unfold next
  rw [hseek]

variable (r env) in
/-- The events that an open read yields along a trace, while the world changes by steps of a kind. -/
inductive Emits : W → r.Cursor → List (Placed P) → Prop where
  /-- The trace ends. -/
  | nil (w : W) (c : r.Cursor) : Emits w c []
  /-- The world changes. -/
  | change {w later : W} {c : r.Cursor} {events : List (Placed P)} (h : env w later)
    (rest : Emits later c events) : Emits w c events
  /-- The read is pulled. -/
  | pull {w later : W} {c next : r.Cursor} {found : Found P} {events : List (Placed P)}
    (h : r.pull w c = (later, next, found)) (rest : Emits later next events) :
    Emits w c (found.events ++ events)

/-- Pulling past skips is a trace. -/
theorem Emits.of_seek {steps : Nat} {w later : W} {c next : r.Cursor} {found : Found P}
    {events : List (Placed P)} (h : r.seek steps w c = (later, next, found))
    (rest : r.Emits env later next events) : r.Emits env w c (found.events ++ events) := by
  induction steps generalizing w c with
  | zero =>
    simp only [seek, Prod.mk.injEq] at h
    obtain ⟨rfl, rfl, rfl⟩ := h
    exact rest
  | succ steps ih =>
    unfold seek at h
    split at h
    · rename_i hpull
      have hskip : r.Emits env w c (Found.skipped.events ++ (found.events ++ events)) :=
        .pull hpull (ih h)
      exact hskip
    · exact rest.pull h

/-- Searching on, with the extent measured anew, is a trace. -/
theorem Emits.of_search {rounds : Nat} {w later : W} {c next : r.Cursor} {found : Found P}
    {events : List (Placed P)} (h : r.search rounds w c = (later, next, found))
    (rest : r.Emits env later next events) : r.Emits env w c (found.events ++ events) := by
  induction rounds generalizing w c with
  | zero =>
    simp only [search, Prod.mk.injEq] at h
    obtain ⟨rfl, rfl, rfl⟩ := h
    exact rest
  | succ rounds ih =>
    unfold search at h
    split at h
    · rename_i hseek
      have hskip : r.Emits env w c (Found.skipped.events ++ (found.events ++ events)) :=
        .of_seek hseek (ih h)
      exact hskip
    · exact .of_seek h rest

/-- Asking for the next result is a trace. -/
theorem Emits.of_next {w later : W} {c next : r.Cursor} {item : Option (Item P)}
    {events : List (Placed P)} (h : r.next w c = (later, next, item))
    (rest : r.Emits env later next events) :
    r.Emits env w c (Item.events item.toList ++ events) := by
  unfold Reads.next at h
  split at h
  · rename_i hseek
    simp only [Prod.mk.injEq] at h
    obtain ⟨rfl, rfl, rfl⟩ := h
    rw [Found.events_item]
    have hskip : r.Emits env w c (Found.skipped.events ++ (_ ++ events)) :=
      .of_seek hseek (.of_search rfl rest)
    exact hskip
  · rename_i hseek
    simp only [Prod.mk.injEq] at h
    obtain ⟨rfl, rfl, rfl⟩ := h
    rw [Found.events_item]
    exact .of_seek hseek rest

/-- Asking for results until the read ends is a trace. -/
theorem Emits.of_take {limit : Nat} {w later : W} {c next : r.Cursor} {items : List (Item P)}
    {events : List (Placed P)} (h : r.take limit w c = (later, next, items))
    (rest : r.Emits env later next events) : r.Emits env w c (Item.events items ++ events) := by
  induction limit generalizing w c items with
  | zero =>
    simp only [take, Prod.mk.injEq] at h
    obtain ⟨rfl, rfl, rfl⟩ := h
    exact rest
  | succ limit ih =>
    unfold take at h
    split at h
    · rename_i hnext
      simp only [Prod.mk.injEq] at h
      obtain ⟨rfl, rfl, rfl⟩ := h
      exact .of_next hnext rest
    · rename_i world cursor item hnext
      simp only [Prod.mk.injEq] at h
      obtain ⟨rfl, rfl, rfl⟩ := h
      have hall := Emits.of_next hnext (ih rfl)
      unfold Item.events at hall ⊢
      rw [← List.append_assoc, ← List.filterMap_append] at hall
      exact hall

section Forecasts

variable {inv ended : W → r.Cursor → Prop} {owes : W → r.Cursor → List (Item P)}
  {skips : W → r.Cursor → Nat}

/-- A result is the first of what was still to come, and a read ends where nothing was. -/
def Foretold (ended : W → r.Cursor → Prop) (owes : W → r.Cursor → List (Item P)) (w : W) (c : r.Cursor)
    (later : W) (next : r.Cursor) : Option (Item P) → Prop
  | some item => owes w c = item :: owes later next
  | none => owes w c = [] ∧ owes later next = [] ∧ ended later next

/-- What the reads of a kind are still to yield, if nobody interferes. -/
structure Forecast (r : Reads W P) (inv ended : W → r.Cursor → Prop)
    (owes : W → r.Cursor → List (Item P)) (skips : W → r.Cursor → Nat) : Prop where
  /-- The next result comes within the extent of the read. -/
  skips_le : ∀ {w c}, inv w c → skips w c ≤ r.extent w c
  /-- The read stays of its kind. -/
  keeps : ∀ {w c later next found}, inv w c → r.pull w c = (later, next, found) → inv later next
  /-- A skip leaves what is to come, and is one of the last. -/
  skipped : ∀ {w c later next}, inv w c → r.pull w c = (later, next, .skipped) →
    owes w c = owes later next ∧ skips later next < skips w c
  /-- Anything else is the next of what is to come, or the end. -/
  found : ∀ {w c later next found}, inv w c → r.pull w c = (later, next, found) → found ≠ .skipped →
    Foretold ended owes w c later next found.item?

/-- What is foretold before and after skips is the same. -/
theorem Foretold.of_owes {w world later : W} {c cursor next : r.Cursor} {item : Option (Item P)}
    (howes : owes w c = owes world cursor) (h : Foretold ended owes world cursor later next item) :
    Foretold ended owes w c later next item := by
  cases item with
  | none => exact ⟨howes.trans h.1, h.2⟩
  | some item => exact howes.trans h

/-- Pulling past skips finds what is foretold, or skips on as often as allowed. -/
theorem Forecast.of_seek (h : Forecast r inv ended owes skips) {steps : Nat} {w later : W}
    {c next : r.Cursor} {found : Found P} (hinv : inv w c)
    (hseek : r.seek steps w c = (later, next, found)) :
    inv later next ∧
      (found = .skipped → owes w c = owes later next ∧ steps ≤ skips w c) ∧
      (found ≠ .skipped → Foretold ended owes w c later next found.item?) := by
  induction steps generalizing w c with
  | zero =>
    simp only [seek, Prod.mk.injEq] at hseek
    obtain ⟨rfl, rfl, rfl⟩ := hseek
    exact ⟨hinv, fun _ => ⟨rfl, Nat.zero_le _⟩, fun hne => absurd rfl hne⟩
  | succ steps ih =>
    unfold seek at hseek
    split at hseek
    · rename_i hpull
      obtain ⟨howes, hlt⟩ := h.skipped hinv hpull
      obtain ⟨hlater, hskipped, hfound⟩ := ih (h.keeps hinv hpull) hseek
      refine ⟨hlater, ?_, fun hne => (hfound hne).of_owes howes⟩
      intro hs
      obtain ⟨hsame, hle⟩ := hskipped hs
      exact ⟨howes.trans hsame, by omega⟩
    · rename_i hnot
      refine ⟨h.keeps hinv hseek, ?_, h.found hinv hseek⟩
      intro hs
      subst hs
      exact absurd hseek (hnot _ _)

/-- Searching on finds what is foretold. -/
theorem Forecast.of_search (h : Forecast r inv ended owes skips) {rounds : Nat} {w later : W}
    {c next : r.Cursor} {found : Found P} (hinv : inv w c)
    (hsearch : r.search (rounds + 1) w c = (later, next, found)) :
    inv later next ∧ Foretold ended owes w c later next found.item? := by
  unfold search at hsearch
  rcases hseek : r.seek (r.extent w c + 1) w c with ⟨world, cursor, met⟩
  obtain ⟨hkept, hskipped, hfound⟩ := h.of_seek hinv hseek
  -- the extent allows for all skips
  have hne : met ≠ .skipped := by
    intro hs
    have hle := (hskipped hs).2
    have hextent := h.skips_le hinv
    omega
  rw [hseek] at hsearch
  cases met with
  | skipped => exact absurd rfl hne
  | _ =>
    cases hsearch
    exact ⟨hkept, hfound hne⟩

/-- The next result is what is foretold. -/
theorem Forecast.of_next (h : Forecast r inv ended owes skips) {w later : W} {c next : r.Cursor}
    {item : Option (Item P)} (hinv : inv w c) (hnext : r.next w c = (later, next, item)) :
    inv later next ∧ Foretold ended owes w c later next item := by
  unfold Reads.next at hnext
  rcases hseek : r.seek glance w c with ⟨world, cursor, met⟩
  obtain ⟨hkept, hskipped, hfound⟩ := h.of_seek hinv hseek
  rw [hseek] at hnext
  cases met with
  | skipped =>
    rcases hsearch : r.search (r.growths + 1) world cursor with ⟨last, cursor, found⟩
    dsimp only at hnext
    rw [hsearch] at hnext
    cases hnext
    obtain ⟨hlater, htold⟩ := h.of_search hkept hsearch
    exact ⟨hlater, htold.of_owes (hskipped rfl).1⟩
  | _ =>
    cases hnext
    exact ⟨hkept, hfound nofun⟩

/-- The results of a read are those that are foretold, and it has ended if there were more to be had. -/
theorem Forecast.of_take (h : Forecast r inv ended owes skips) {limit : Nat} {w later : W}
    {c next : r.Cursor} {items : List (Item P)} (hinv : inv w c)
    (htake : r.take limit w c = (later, next, items)) :
    items = (owes w c).take limit ∧ inv later next ∧
      ((owes w c).length < limit → ended later next) := by
  induction limit generalizing w c items with
  | zero =>
    simp only [take, Prod.mk.injEq] at htake
    obtain ⟨rfl, rfl, rfl⟩ := htake
    exact ⟨rfl, hinv, fun hlt => absurd hlt (Nat.not_lt_zero _)⟩
  | succ limit ih =>
    unfold take at htake
    rcases hnext : r.next w c with ⟨world, cursor, item⟩
    obtain ⟨hkept, htold⟩ := h.of_next hinv hnext
    rw [hnext] at htake
    cases item with
    | none =>
      obtain ⟨hnil, -, hended⟩ := htold
      cases htake
      rw [hnil]
      exact ⟨rfl, hkept, fun _ => hended⟩
    | some item =>
      have howes : owes w c = item :: owes world cursor := htold
      rcases hrest : r.take limit world cursor with ⟨last, cursor, rest⟩
      dsimp only at htake
      rw [hrest] at htake
      cases htake
      obtain ⟨hitems, hlater, hended⟩ := ih hkept hrest
      rw [howes, hitems]
      exact ⟨rfl, hlater, fun hlt => hended (Nat.lt_of_succ_lt_succ hlt)⟩

/-- A forecast holds of those reads that have some property that pulls keep. -/
theorem Forecast.restrict (h : Forecast r inv ended owes skips) {also : W → r.Cursor → Prop}
    (hkeeps : ∀ {w c later next found}, inv w c → also w c → r.pull w c = (later, next, found) →
      also later next) :
    Forecast r (fun w c => inv w c ∧ also w c) ended owes skips where
  skips_le hinv := h.skips_le hinv.1
  keeps hinv hpull := ⟨h.keeps hinv.1 hpull, hkeeps hinv.1 hinv.2 hpull⟩
  skipped hinv hpull := h.skipped hinv.1 hpull
  found hinv hpull hne := h.found hinv.1 hpull hne

end Forecasts

end Reads

end Chronicle
