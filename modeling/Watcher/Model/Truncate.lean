import Watcher.Json.RawMap
import Watcher.Model.Cdc

/-!
# Reducing an event to its key (`internal/cdc/truncate.go`)

`keyOnly` decodes the data of a row event one level deep, keeps the key columns
and encodes them again. The data of an UPDATE has a row in each of its two
images. `Event.truncated` of `Model.Cdc` is `Truncated` with this `keyOnly`.
-/

namespace Cdc

open Json (RawMap)

/-- `keyColumns` -/
def keyColumns (row : RawMap) (key : List GoString) : RawMap :=
  .ofList (row.entries.filter fun e => key.contains e.1)

/-- `marshalRow` -/
def marshalRow (row : RawMap) : GoString := (Json.marshal row).getD (ascii "\x7b\x7d")

/-- The images of an UPDATE. -/
def images : List GoString := [ascii "old", ascii "new"]

/-- One pass of the loop of `keyOnly` over the images: an image that is missing, `null` or no
    object is left out. -/
def keepImage (row : RawMap) (key : List GoString) (kept : RawMap) (image : GoString) : RawMap :=
  match Json.unmarshal ((row.get? image).getD []) with
  | some (some values) => kept.set image (marshalRow (keyColumns values key))
  | _ => kept

/-- `keyOnly` -/
def keyOnly (eventType : EventType) (data : GoString) (key : List GoString) : GoString :=
  match Json.unmarshal data with
  | none => ascii "\x7b\x7d"
  | some row =>
    -- a nil map reads as an empty one
    let row := row.getD .empty
    if eventType ≠ .update then marshalRow (keyColumns row key)
    else marshalRow (images.foldl (keepImage row key) .empty)

end Cdc
