import TagLang.Source.Library

/-!
# Sightings

What is known about the files of a disk that is looked at only when a script asks.  A path that
nobody has looked at is an error of its own, so that whoever runs the script can look and run it
again.
-/

namespace TagLang

/-- What was seen at a path. -/
structure Sighting where
  /-- The path by which the file is known. -/
  path : Path
  content : Except IoError String

/-- What has been seen so far, by the path as it was asked for. -/
abbrev Sightings := Table String Sighting

namespace Sightings

/-- The path that a target means, as far as it is known. -/
def resolve (seen : Sightings) (base : Path) (target : String) : Path :=
  let path := base.join target
  match seen.get? path.text with
  | some sighting => sighting.path
  | none => path

/-- The text at a path, as far as it is known. -/
def load (seen : Sightings) (path : Path) : Except IoError String :=
  match seen.entries.find? fun (_, sighting) => sighting.path = path with
  | some (_, sighting) => sighting.content
  | none => .error (.unseen path.text)

/-- What has been seen, as a library. -/
def library (seen : Sightings) : Library where
  resolve := seen.resolve
  load := seen.load

end Sightings

end TagLang
