/-!
# Stream names

A stream belongs to a category. Its name is the category, a dash and the id; since no category
holds a dash, the first dash of a name is the separator, and the name determines both halves.
-/

namespace Chronicle

/-- The name of a stream. -/
structure StreamId where
  /-- The category of the stream. -/
  category : String
  /-- The stream's name within its category. -/
  id : String
  /-- The separator does not occur in a category. -/
  category_undashed : '-' ∉ category.toList
  deriving DecidableEq, Repr

namespace StreamId

/-- The displayed name of a stream. -/
def text (s : StreamId) : String := s.category ++ "-" ++ s.id

/-- The stream of a category and an id, if the category holds no separator. -/
def ofParts? (category id : String) : Option StreamId :=
  if h : '-' ∈ category.toList then none else some ⟨category, id, h⟩

/-- The halves of a text around its first dash. -/
def halves? (text : List Char) : Option (List Char × List Char) :=
  match text.dropWhile (· != '-') with
  | [] => none
  | _ :: id => some (text.takeWhile (· != '-'), id)

/-- Streams are ordered by category and then by id, each by its code points. -/
def le (a b : StreamId) : Bool :=
  match compare a.category b.category with
  | .lt => true
  | .gt => false
  | .eq => (compare a.id b.id).isLE

/-- Streams in ascending order. -/
def sort (streams : List StreamId) : List StreamId := streams.mergeSort le

end StreamId

end Chronicle
