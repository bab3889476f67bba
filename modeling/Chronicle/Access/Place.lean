/-!
# Places in a world

A world holds several stores, directories and other things that change. A place says where one of
them is kept: how to look at it and how to put a changed one back.
-/

namespace Chronicle

/-- Where a world of type `W` keeps a part of type `S`. -/
structure Place (W S : Type) where
  /-- The part as it is. -/
  get : W → S
  /-- The world with another part in its place. -/
  set : W → S → W

/-- The place of a part that is the whole world. -/
def Place.whole (S : Type) : Place S S := ⟨id, fun _ s => s⟩

/-- What is put in a place is found there, a part put back unchanged changes nothing, and only the
last of two parts put there counts. -/
structure Place.Lawful {W S : Type} (place : Place W S) : Prop where
  /-- What is put is found. -/
  get_set : ∀ w s, place.get (place.set w s) = s
  /-- Putting back what is there changes nothing. -/
  set_get : ∀ w, place.set w (place.get w) = w
  /-- The last part put counts. -/
  set_set : ∀ w s t, place.set (place.set w s) t = place.set w t

theorem Place.whole_lawful (S : Type) : (Place.whole S).Lawful :=
  ⟨fun _ _ => rfl, fun _ => rfl, fun _ _ _ => rfl⟩

end Chronicle
