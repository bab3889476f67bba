/-!
# Lists

Facts about lists that logs, trees of files and names rely on alike.
-/

namespace Chronicle

/-- What a list begins with is what it began with before it grew. -/
theorem take_of_grown {α : Type} {xs ys : List α} (h : xs <+: ys) {count : Nat}
    (hc : count ≤ xs.length) : ys.take count = xs.take count := by
  obtain ⟨more, rfl⟩ := h
  exact List.take_append_of_le_length hc

/-- The last element of two lists is that of the second, if it has one. -/
theorem getLast?_append_of_some {α : Type} {xs ys : List α} {last : α} (h : ys.getLast? = some last) :
    (xs ++ ys).getLast? = some last := by
  rw [List.getLast?_append, h]
  rfl

/-- What comes before the first gap of a list is told by the list. -/
theorem eq_of_map_some_append {α : Type} {xs ys : List α} {rest rest' : List (Option α)}
    (h : xs.map some ++ none :: rest = ys.map some ++ none :: rest') : xs = ys := by
  induction xs generalizing ys with
  | nil =>
    cases ys with
    | nil => rfl
    | cons y ys => nomatch (List.cons.inj h).1
  | cons x xs ih =>
    cases ys with
    | nil => nomatch (List.cons.inj h).1
    | cons y ys =>
      obtain ⟨hfirst, hrest⟩ := List.cons.inj h
      rw [Option.some.inj hfirst, ih hrest]

/-- What is paired with two lists is paired with the first, and the rest of it with the second. -/
theorem zip_append_drop {α β : Type} (xs ys : List α) (l : List β) :
    (xs ++ ys).zip l = xs.zip l ++ ys.zip (l.drop xs.length) := by
  induction xs generalizing l with
  | nil => rfl
  | cons x rest ih =>
    cases l with
    | nil => rw [List.zip_nil_right, List.zip_nil_right, List.drop_nil, List.zip_nil_right, List.append_nil]
    | cons a l =>
      rw [List.cons_append, List.zip_cons_cons, List.zip_cons_cons, ih, List.length_cons,
        List.drop_succ_cons, List.cons_append]

/-- A list with more than `n` hits has a hit after exactly `n` others. -/
theorem exists_split_of_lt_countP {α : Type} {p : α → Bool} {n : Nat} {l : List α}
    (h : n < l.countP p) : ∃ xs x ys, l = xs ++ x :: ys ∧ p x = true ∧ xs.countP p = n := by
  induction l generalizing n with
  | nil => simp at h
  | cons a rest ih =>
    by_cases ha : p a = true
    · rw [List.countP_cons_of_pos ha] at h
      cases n with
      | zero => exact ⟨[], a, rest, rfl, ha, rfl⟩
      | succ n =>
        obtain ⟨xs, x, ys, rfl, hx, hn⟩ := ih (Nat.lt_of_succ_lt_succ h)
        exact ⟨a :: xs, x, ys, rfl, hx, by rw [List.countP_cons_of_pos ha, hn]⟩
    · rw [List.countP_cons_of_neg ha] at h
      obtain ⟨xs, x, ys, rfl, hx, hn⟩ := ih h
      exact ⟨a :: xs, x, ys, rfl, hx, by rw [List.countP_cons_of_neg ha, hn]⟩

/-- Entries that are chosen by their keys are found where they were, or not at all. -/
theorem lookup_filter_key {α β : Type} [BEq α] [LawfulBEq α] (kept : α → Bool) (key : α)
    (entries : List (α × β)) :
    (entries.filter fun entry => kept entry.1).lookup key = if kept key then entries.lookup key else none := by
  induction entries with
  | nil =>
    rw [List.filter_nil, List.lookup_nil, ite_self]
  | cons entry rest ih =>
    rw [List.filter_cons, List.lookup_cons]
    by_cases he : key = entry.1
    · subst he
      by_cases hkept : kept entry.1 = true
      · rw [if_pos hkept, if_pos hkept, List.lookup_cons, beq_self_eq_true]
      · rw [if_neg hkept, ih, if_neg hkept, if_neg hkept]
    · have hb : (key == entry.1) = false := beq_false_of_ne he
      by_cases hkept : kept entry.1 = true
      · rw [if_pos hkept, List.lookup_cons, hb, ih]
      · rw [if_neg hkept, ih, hb]

/-- Entries for one key do not hide those for another. -/
theorem lookup_filter_ne {α β : Type} [BEq α] [LawfulBEq α] [DecidableEq α] {key other : α}
    (hne : other ≠ key) (entries : List (α × β)) :
    (entries.filter (·.1 ≠ key)).lookup other = entries.lookup other := by
  have hkey := lookup_filter_key (fun k => decide (k ≠ key)) other entries
  rwa [if_pos (decide_eq_true hne)] at hkey

/-- Replacing an element by one that looks the same changes nothing of how the list looks. -/
theorem map_set_of_eq {α β : Type} {f : α → β} {l : List α} {i : Nat} {a b : α} (h : l[i]? = some a)
    (hb : f b = f a) : (l.set i b).map f = l.map f := by
  obtain ⟨hi, rfl⟩ := List.getElem?_eq_some_iff.1 h
  have hlen : i < (l.map f).length := by rwa [List.length_map]
  have hat : (l.map f)[i] = f l[i] := List.getElem_map f
  rw [List.map_set, hb, ← hat, List.set_getElem_self]

/-- What is left without repetitions is there once. -/
theorem nodup_eraseDups {α : Type} [DecidableEq α] (l : List α) : l.eraseDups.Nodup := by
  match l with
  | [] => exact List.nodup_nil
  | a :: rest =>
    rw [List.eraseDups_cons, List.nodup_cons, List.mem_eraseDups]
    constructor
    · intro hm
      simp at hm
    · exact nodup_eraseDups (rest.filter fun b => !b == a)
termination_by l.length
decreasing_by exact Nat.lt_succ_of_le (List.length_filter_le _ rest)

/-- Choosing elements and leaving out repetitions can be done in either order. -/
theorem filter_eraseDups {α : Type} [DecidableEq α] (kept : α → Bool) (l : List α) :
    l.eraseDups.filter kept = (l.filter kept).eraseDups := by
  match l with
  | [] => rfl
  | a :: rest =>
    have hrest := filter_eraseDups kept (rest.filter fun b => !b == a)
    have hswap : (rest.filter fun b => !b == a).filter kept = (rest.filter kept).filter fun b => !b == a := by
      rw [List.filter_filter, List.filter_filter]
      congr 1
      funext b
      exact Bool.and_comm _ _
    rw [List.eraseDups_cons]
    by_cases ha : kept a = true
    · rw [List.filter_cons_of_pos ha, List.filter_cons_of_pos ha, List.eraseDups_cons, hrest, hswap]
    · have hall : (rest.filter kept).filter (fun b => !b == a) = rest.filter kept := by
        rw [List.filter_eq_self]
        intro b hb
        have hne : b ≠ a := by
          rintro rfl
          exact ha (List.mem_filter.1 hb).2
        rw [beq_false_of_ne hne]
        rfl
      rw [List.filter_cons_of_neg ha, List.filter_cons_of_neg ha, hrest, hswap, hall]
termination_by l.length
decreasing_by exact Nat.lt_succ_of_le (List.length_filter_le _ rest)

section Merging

variable {α β : Type} {le : α → α → Bool} {l : List α}

/-- Two parts of an ordered list, merged, are the part that belongs to either. -/
theorem merge_filter (htrans : ∀ a b c, le a b = true → le b c = true → le a c = true)
    (htotal : ∀ a b, (le a b || le b a) = true) (hordered : l.Pairwise fun a b => le a b = true)
    (hanti : ∀ a b, a ∈ l → b ∈ l → le a b = true → le b a = true → a = b) {p q : α → Bool}
    (hapart : ∀ a, p a = true → q a = false) :
    (l.filter p).merge (l.filter q) le = l.filter fun a => p a || q a := by
  have hperm : ((l.filter p).merge (l.filter q) le).Perm (l.filter fun a => p a || q a) := by
    have hsplit := List.filter_append_perm p (l.filter fun a => p a || q a)
    rw [List.filter_filter, List.filter_filter] at hsplit
    have hfirst : (l.filter fun a => p a && (p a || q a)) = l.filter p :=
      List.filter_congr fun a _ => by cases p a <;> rfl
    have hsecond : (l.filter fun a => !p a && (p a || q a)) = l.filter q := by
      refine List.filter_congr fun a _ => ?_
      cases hp : p a with
      | false => rfl
      | true => exact (hapart a hp).symm
    rw [hfirst, hsecond] at hsplit
    exact (List.merge_perm_append le).trans hsplit
  refine hperm.eq_of_pairwise ?_
    (List.pairwise_merge htrans htotal _ _ (hordered.filter p) (hordered.filter q)) (hordered.filter _)
  intro a b ha hb
  exact hanti a b (List.mem_filter.1 (hperm.mem_iff.1 ha)).1 (List.mem_filter.1 hb).1

/-- The groups of an ordered list, merged one after the other, are the part that belongs to any of them. -/
theorem foldr_merge_filter [DecidableEq β] (htrans : ∀ a b c, le a b = true → le b c = true → le a c = true)
    (htotal : ∀ a b, (le a b || le b a) = true) (hordered : l.Pairwise fun a b => le a b = true)
    (hanti : ∀ a b, a ∈ l → b ∈ l → le a b = true → le b a = true → a = b) (group : α → β) {names : List β}
    (hnodup : names.Nodup) :
    (names.map fun name => l.filter fun a => group a = name).foldr (fun xs ys => xs.merge ys le) [] =
      l.filter fun a => names.contains (group a) := by
  induction names with
  | nil => exact (List.filter_eq_nil_iff.2 fun a _ => Bool.false_ne_true).symm
  | cons name rest ih =>
    obtain ⟨hnew, hrest⟩ := List.nodup_cons.1 hnodup
    have hapart : ∀ a, decide (group a = name) = true → rest.contains (group a) = false := by
      intro a ha
      rw [of_decide_eq_true ha]
      simpa using hnew
    rw [List.map_cons, List.foldr_cons, ih hrest, merge_filter htrans htotal hordered hanti hapart]
    refine List.filter_congr fun a _ => ?_
    rw [List.contains_cons]
    rfl

end Merging

end Chronicle
