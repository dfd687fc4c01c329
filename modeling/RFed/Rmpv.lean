import RFed.Basic
import RFed.Lib.MsgpackValue

/-!
# Values in msgpack

The node and the bridges read and write msgpack with one library, which is not theirs.  What they
rely on is that it reads what it writes.
-/

namespace RFed

open Msgpack (Value)

/-- `rmpv`, as it is used here. -/
structure Rmpv where
  /-- `read_value`, of a cursor at the front of the bytes. -/
  readValue : Bytes → Option Value
  /-- `write_value`, into an empty vector. -/
  writeValue : Value → Bytes

/-- What is relied on: a value that msgpack has room for, far from the limit on its depth, is read
as it was written. -/
def Rmpv.ReadsBack (m : Rmpv) : Prop :=
  ∀ v : Value, v.fits = true → v.depth ≤ 256 → m.readValue (m.writeValue v) = some v

/-- Msgpack with every value in its shortest form. -/
def plainRmpv : Rmpv := ⟨Value.ofBytes, Value.write⟩

theorem plainRmpv_readsBack : plainRmpv.ReadsBack := fun v hfits hdepth => by
  have hread := Value.ofBytes_write hfits (hdepth.trans (by decide)) []
  rwa [List.append_nil] at hread

end RFed
