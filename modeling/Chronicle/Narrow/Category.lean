import Chronicle.Access.Reader

/-!
# One category as a source

A category read of a source, presented as a source of its own with the positions of that category.
-/

namespace Chronicle

/-- One category of a source as a whole source. -/
def CategoryReader.asSource {W P : Type} (r : CategoryReader W P) (category : String) :
    EventReader W P where
  toReads := r.toReads
  codec := r.codec category
  emptyPosition := r.emptyPosition category
  forwardsFrom w position := r.forwardsFrom w category position
  backwards w := r.backwards w category
  backwardsFrom w position := r.backwardsFrom w category position

end Chronicle
