import RFed.Basic
import Mathlib.Data.List.Dedup

/-!
# The distro table

Which devices are registered here for which distro.  A routing hash is a distro's when a device is
registered for it, and a channel's otherwise: nothing in the hash itself tells.

## Judging a hash

A node judges a hash against its own table each time, and serves a distro's hash by the distro's
devices alone.  So a hash is a distro's from the registration of its first device until the last one
is dropped, and two nodes may judge one hash differently.

The table has a lock.  A caller that finds it poisoned reads no table, and what it makes of that is
its own: `judgeRoutingHash` answers `unjudged`, and others take the table for empty.

## Reading the table

* `devicesSnapshot`: the devices of a distro, in the order in which they registered;
* `registeredDistroHashes`: every hash that has a device.
-/

namespace RFed

/-- A device registered for a distro. -/
structure DistroEntry where
  distroLxmfHash : Bytes
  deviceLxmfHash : Bytes
  devicePubkey : Bytes
  added : Secs
  ownerNodeHash : Option Bytes
  lastRefreshed : Secs
  deriving DecidableEq

/-- The registered devices, in the order they registered. -/
abbrev DistroTable := List DistroEntry

namespace DistroTable

/-- `is_distro`. -/
def isDistro (t : DistroTable) (hash : Bytes) : Bool := t.any (·.distroLxmfHash == hash)

/-- `devices_snapshot`. -/
def devicesSnapshot (t : DistroTable) (hash : Bytes) : List DistroEntry :=
  t.filter (·.distroLxmfHash == hash)

/-- `registered_distro_hashes`, as a set. -/
def registeredDistroHashes (t : DistroTable) : List Bytes := (t.map (·.distroLxmfHash)).dedup

/-- The distros are the hashes that a device is registered for. -/
theorem mem_registeredDistroHashes {t : DistroTable} {hash : Bytes} :
    hash ∈ t.registeredDistroHashes ↔ t.isDistro hash = true := by
  simp [registeredDistroHashes, isDistro]

end DistroTable

/-- What a routing hash is at this node. -/
inductive RoutingHashKind where
  | channel
  | distro (devices : List DistroEntry)
  /-- the table's lock is poisoned -/
  | unjudged
  deriving DecidableEq

/-- `judge_routing_hash`.  A table whose lock is poisoned is `none`. -/
def judgeRoutingHash (table : Option DistroTable) (hash : Bytes) : RoutingHashKind :=
  match table with
  | some t => if t.isDistro hash then .distro (t.devicesSnapshot hash) else .channel
  | none => .unjudged

end RFed
