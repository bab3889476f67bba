import Chronicle.Idempotent.Compatibility

/-!
# Conjunctions of tests

A compatibility is a tree of conjunctions with single tests at its leaves. What it says of a stored and a new
event depends on the leaves alone: it accepts the pair if all of them do, and otherwise gives the reason of the
first that rejects, from the left. How the conjunctions are grouped makes no difference, and in which order
the tests stand makes none to whether a pair is accepted. So a writer that compares the notes too accepts no
more pairs, and what was rejected without them is rejected for the same reason.
-/

namespace Chronicle.Compatibility

/-- The single tests of a compatibility, from the left. -/
def tests : Compatibility → List Compatibility
  | both first second => first.tests ++ second.tests
  | test => [test]

section Judging

variable {compatible other : Compatibility} {current : EventRecord} {new : NewEvent} {reason : String}

/-- No single test is a conjunction. -/
theorem both_not_mem_tests (first second compatible : Compatibility) :
    both first second ∉ compatible.tests := by
  induction compatible with
  | both left right hleft hright =>
    rw [tests, List.mem_append, not_or]
    exact ⟨hleft, hright⟩
  | types | data | metadata | judged => simp [tests]

/-- The reason of a compatibility is the first that one of its tests gives. -/
theorem reason?_eq_findSome? (compatible : Compatibility) (current : EventRecord) (new : NewEvent) :
    compatible.reason? current new = compatible.tests.findSome? (·.reason? current new) := by
  induction compatible with
  | both first second hfirst hsecond =>
    rw [tests, List.findSome?_append, ← hfirst, ← hsecond]
    rfl
  | types | data | metadata | judged => simp only [tests, List.findSome?_singleton]

/-- A pair is accepted when every test accepts it. -/
theorem reason?_eq_none_iff : compatible.reason? current new = none ↔
    ∀ test ∈ compatible.tests, test.reason? current new = none := by
  rw [reason?_eq_findSome?, List.findSome?_eq_none_iff]

/-- A pair is rejected for the reason of the first test that rejects it. -/
theorem reason?_eq_some_iff : compatible.reason? current new = some reason ↔
    ∃ before test after, compatible.tests = before ++ test :: after ∧
      test.reason? current new = some reason ∧ ∀ earlier ∈ before, earlier.reason? current new = none := by
  rw [reason?_eq_findSome?, List.findSome?_eq_some_iff]

/-- Conjunctions of the same tests in the same order give the same reasons. -/
theorem reason?_of_tests_eq (h : other.tests = compatible.tests) :
    other.reason? current new = compatible.reason? current new := by
  rw [reason?_eq_findSome?, reason?_eq_findSome?, h]

/-- Conjunctions of the same tests in any order accept the same pairs. -/
theorem accepts_iff_of_tests_perm (h : other.tests.Perm compatible.tests) :
    other.reason? current new = none ↔ compatible.reason? current new = none := by
  rw [reason?_eq_none_iff, reason?_eq_none_iff]
  exact forall_congr' fun test => imp_congr_left h.mem_iff

end Judging

section Presets

variable {current : EventRecord} {new : NewEvent}

/-- A reason is given unless a comparison holds. -/
theorem reasonUnless_eq_none_iff {holds : Bool} {reason : String} :
    reasonUnless holds reason = none ↔ holds = true := by
  cases holds <;> simp [reasonUnless]

/-- Without the notes, equal types and equal payloads are accepted. -/
theorem basic_accepts_iff : basic.reason? current new = none ↔
    current.eventType = new.eventType ∧ current.data = new.data := by
  rw [basic, reason?, Option.or_eq_none_iff, sameType, sameData, reason?, reason?, reasonUnless_eq_none_iff,
    reasonUnless_eq_none_iff, beq_iff_eq, beq_iff_eq]

/-- With the notes, these must be equal as well. -/
theorem withMetadata_accepts_iff : withMetadata.reason? current new = none ↔
    basic.reason? current new = none ∧ current.metadata = new.metadata := by
  rw [withMetadata, reason?, Option.or_eq_none_iff, sameMetadata, reason?, reasonUnless_eq_none_iff,
    beq_iff_eq]

/-- What is rejected without the notes is rejected with them, for the same reason. -/
theorem withMetadata_reason?_of_basic {reason : String} (h : basic.reason? current new = some reason) :
    withMetadata.reason? current new = some reason := by
  rw [withMetadata, reason?, h, Option.some_or]

end Presets

/-- However its conjunctions are nested, a compatibility accepts a pair exactly when each of its single tests
does, and otherwise rejects it for the reason of the first test from the left that rejects it. So another that
has the same tests in the same order gives the same answers, and one that has them in another order accepts the
same pairs. Comparing the notes too narrows what is accepted, and what was rejected before keeps its reason. -/
theorem judged_by_first_rejecting_test (current : EventRecord) (new : NewEvent) :
    (∀ compatible : Compatibility,
      (∀ first second, both first second ∉ compatible.tests) ∧
      (compatible.reason? current new = none ↔
        ∀ test ∈ compatible.tests, test.reason? current new = none) ∧
      (∀ reason, compatible.reason? current new = some reason ↔
        ∃ before test after, compatible.tests = before ++ test :: after ∧
          test.reason? current new = some reason ∧
          ∀ earlier ∈ before, earlier.reason? current new = none) ∧
      ∀ other : Compatibility,
        (other.tests = compatible.tests → other.reason? current new = compatible.reason? current new) ∧
        (other.tests.Perm compatible.tests →
          (other.reason? current new = none ↔ compatible.reason? current new = none))) ∧
    (basic.reason? current new = none ↔ current.eventType = new.eventType ∧ current.data = new.data) ∧
    (withMetadata.reason? current new = none ↔
      basic.reason? current new = none ∧ current.metadata = new.metadata) ∧
    ∀ reason, basic.reason? current new = some reason → withMetadata.reason? current new = some reason := by
  refine ⟨fun compatible => ⟨?_, reason?_eq_none_iff, fun reason => reason?_eq_some_iff, fun other =>
    ⟨reason?_of_tests_eq, accepts_iff_of_tests_perm⟩⟩, basic_accepts_iff, withMetadata_accepts_iff,
    fun reason => withMetadata_reason?_of_basic⟩
  exact fun first second => both_not_mem_tests first second compatible

/-- An event of another type and payload, judged by three tests in two groupings and in another order, and with
and without its notes. -/
theorem judged_by_first_rejecting_test_regrouped :
    let current : EventRecord := ⟨.epoch, ⟨"test", "1", by decide⟩, 0, "A", [120], []⟩
    let new : NewEvent := ⟨"B", [121], []⟩
    let left : Compatibility := both (both sameMetadata sameData) never
    let right : Compatibility := both sameMetadata (both sameData never)
    let swapped : Compatibility := both never (both sameMetadata sameData)
    let reason := "Event types don't match -- old: A, new: B (bodies old: x, new y)"
    right.tests = left.tests ∧ swapped.tests.Perm left.tests ∧ basic.reason? current new = some reason ∧
      left.reason? current new = some "Event bodies don't match -- old: x, new: y (type A)" ∧
      right.reason? current new = left.reason? current new ∧
      (swapped.reason? current new = none ↔ left.reason? current new = none) ∧
      withMetadata.reason? current new = some reason := by
  intro current new left right swapped reason
  obtain ⟨hjudged, -, -, hkept⟩ := judged_by_first_rejecting_test current new
  have hregrouped : right.tests = left.tests := rfl
  have hreordered : swapped.tests.Perm left.tests :=
    (List.perm_append_comm : ([never] ++ [sameMetadata, sameData]).Perm _)
  have hbasic : basic.reason? current new = some reason := by decide +kernel
  have hleft : left.reason? current new = some "Event bodies don't match -- old: x, new: y (type A)" := by
    decide +kernel
  exact ⟨hregrouped, hreordered, hbasic, hleft, ((hjudged left).2.2.2 right).1 hregrouped,
    ((hjudged left).2.2.2 swapped).2 hreordered, hkept reason hbasic⟩

end Chronicle.Compatibility
