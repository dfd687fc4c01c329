import RFed.DeferredQueue.Imported
import RFed.Subscription.Imported
import RFed.Notify.Registry
import RFed.Distro.Stored

/-!
# The old files are imported once

Five stores had a file before they had a database: the deferred queue, the subscriptions, the notify
registrations, the distro devices and the distro announces.  Each inserts with a conflict rule of
its own, and no database says whether the file has been imported.  Only the rename does.

## The condition

A start commits the file's rows if its database opens and the transaction goes through, and it moves
the file if it then gets to the rename and the rename goes through.  Both are said of what the start
meets.  A step is harmless unless it commits the rows a second time, where no start before it has
moved the file, to a database that they change.

* `imported_once`: over harmless steps each store is what it is where its rows go in at the first
  commit and never again.  Starts may stop anywhere, and any write may fail.  Every run in which
  each start that commits also moves the file is harmless.
* `pulled_comes_back`: a rename that fails, or that the process does not live to make, leaves the
  file for the next start.  A blob that was pulled in between is in the queue again.
-/

namespace RFed

open ImportingStore (Host Start)

/-- **The files are imported once.**  Each of the five stores is the one that its `load` starts.  In
every run of it in which no start commits the rows of its file again, unmoved, to a database that
they change, the store is at every point what it is where they go in at the first commit and never
again; it never comes to have more than it had, the file's rows once, and what operations brought
in; and what it has no longer stays away until an operation brings it.  That is so in particular
where every start that commits also moves the file. -/
theorem imported_once (notifyKey : Bytes → Bytes) :
    ImportedOnce DeferredQueue.items DeferredQueue.LoadMet.importFault
    (·.map DeferredDb.insertEntry)
      (fun met db file => DeferredQueue.load db file met.importFault met.readable) ∧
    ImportedOnce SubscriptionTable.items SubscriptionTable.LoadMet.importFault
    (·.map SubscriptionDb.putEntry)
      (fun met db file => SubscriptionTable.load (met.args db file)) ∧
    ImportedOnce (NotifyRegistry.items notifyKey) NotifyRegistry.LoadMet.importFault
      (·.map NotifyDb.putRegistration) NotifyRegistry.load ∧
    ImportedOnce StoredDistroTable.items DistroLoadMet.importFault (·.map DistroDb.putDevice)
      StoredDistroTable.load ∧
    ImportedOnce StoredAnnounces.items DistroLoadMet.importFault (·.map AnnounceDb.putAnnounce)
      StoredAnnounces.load :=
  ⟨DeferredQueue.kept.importedOnce DeferredQueue.loads,
    SubscriptionTable.kept.importedOnce SubscriptionTable.loads,
    NotifyRegistry.kept.importedOnce (NotifyRegistry.loads notifyKey),
    StoredDistroTable.kept.importedOnce StoredDistroTable.loads,
    StoredAnnounces.kept.importedOnce StoredAnnounces.loads⟩

namespace DeferredQueue

/-! ## A pull between two starts -/

/-- The disk and the queue that runs. -/
abbrev QueueHost := Host DeferredDb (List DeferredEntry) DeferredQueue

/-- An old file with one blob, and a database without rows. -/
def oneBlob : QueueHost where
  disk := []
  file := some [⟨[1], [2], [3], 0⟩]
  legacy := some [⟨[1], [2], [3], 0⟩]
  imported := false
  moved := false
  running := none

/-- A start that completes. -/
def completing (renames : Bool) (fault : Option WriteFault) : Start LoadMet :=
  ⟨.kept, renames, .loaded, ⟨fault, 10⟩⟩

/-- The queue that such a start runs. -/
def startedQueue (st : Start LoadMet) (s : QueueHost) : DeferredQueue :=
  load (connOf store st s) s.file st.met.importFault st.met.readable

/-- What such a start leads to. -/
def afterStart (st : Start LoadMet) (s : QueueHost) : QueueHost :=
  { store.under (store.afterRename false st s) (startedQueue st s) with
    running := some (startedQueue st s) }

/-- A pull of everything the subscriber has. -/
def pull (q : DeferredQueue) : ImportingStore.Event DeferredQueue Event LoadMet :=
  .operate q (q.act (.drain [1] none))

/-- What the pull leads to. -/
def afterPull (q : DeferredQueue) (s : QueueHost) : QueueHost :=
  { store.under s (q.exec (.drain [1] none)).1 with running := some (q.exec (.drain [1] none)).1 }

theorem init_oneBlob : store.machine.init oneBlob := ⟨rfl, rfl, rfl, rfl⟩

theorem step_completing (renames : Bool) (fault : Option WriteFault) (s : QueueHost) :
    store.machine.step s (.start (completing renames fault))
    (afterStart (completing renames fault) s) :=
  loads.started (completing renames fault) rfl s

theorem step_pull {q : DeferredQueue} {s : QueueHost} (h : s.running = some q) :
    store.machine.step s (pull q) (afterPull q s) :=
  ⟨h, _, step_exec q (.drain [1] none), rfl⟩

/-- A start whose rename fails, and the pull after it. -/
def pulledOnce : QueueHost :=
  afterPull (startedQueue (completing false none) oneBlob)
    (afterStart (completing false none) oneBlob)

/-- The rename fails after the commit, and the blob is pulled.  The next start finds the file and
puts the blob in again. -/
theorem pulled_comes_back : ¬ items.OnceIn store.machine := by
  intro h
  have hbefore : store.machine.Path oneBlob [.start (completing false none),
      pull (startedQueue (completing false none) oneBlob)] pulledOnce :=
    System.Path.tail (System.Path.single (step_completing false none oneBlob)) (step_pull rfl)
  have hagain : store.machine.Path pulledOnce [.start (completing true none)]
      (afterStart (completing true none) pulledOnce) :=
    System.Path.single (step_completing true none pulledOnce)
  have hgone : (([1], [2], [3], 0) : DeferredContent) ∉ items.has pulledOnce := by decide +kernel
  have hback : (([1], [2], [3], 0) : DeferredContent) ∈ items.has
    (afterStart (completing true none) pulledOnce) := by
    decide +kernel
  exact h.stays_gone _ _ _ _ _ init_oneBlob hbefore hagain rfl _ hgone
    (Multiset.notMem_zero _) hback

/-- A start whose commit fails, one whose rename goes through, and the pull after them. -/
def pulledLater : QueueHost :=
  let s := afterStart (completing true (some .commit)) oneBlob
  afterPull (startedQueue (completing true none) s) (afterStart (completing true none) s)

/-- The first commit fails, the second start imports the file, and the blob is pulled.  The next
start finds nothing to import, and the blob stays away. -/
theorem imported_once_later :
    items.pending (afterStart (completing true (some .commit)) oneBlob) = {([1], [2], [3], 0)} ∧
      pulledLater.imported = true ∧
      (([1], [2], [3], 0) : DeferredContent) ∉ items.has
      (afterStart (completing true none) pulledLater) := by
  have hfirst : (store.machine.restrict store.Moves).step oneBlob
    (.start (completing true (some .commit)))
      (afterStart (completing true (some .commit)) oneBlob) :=
    ⟨step_completing true (some .commit) oneBlob, fun _ h => absurd h (by decide +kernel)⟩
  have hsecond : (store.machine.restrict store.Moves).step
      (afterStart (completing true (some .commit)) oneBlob) (.start (completing true none))
      (afterStart (completing true none) (afterStart (completing true (some .commit)) oneBlob)) :=
    ⟨step_completing true none _, fun _ _ => ⟨by decide, rfl⟩⟩
  have hpull : (store.machine.restrict store.Moves).step
      (afterStart (completing true none) (afterStart (completing true (some .commit)) oneBlob))
      (pull (startedQueue (completing true none)
        (afterStart (completing true (some .commit)) oneBlob)))
      pulledLater := ⟨step_pull rfl, trivial⟩
  have hthird : (store.machine.restrict store.Harmless).step pulledLater
    (.start (completing true none))
      (afterStart (completing true none) pulledLater) :=
    ⟨step_completing true none pulledLater, fun _ hmoved => absurd hmoved (by decide +kernel)⟩
  obtain ⟨-, honce, hharmless⟩ := (imported_once id).1
  refine ⟨by decide +kernel, by decide +kernel, ?_⟩
  exact honce.stays_gone _ _ _ _ _ init_oneBlob
    (hharmless _ _ _ init_oneBlob (((System.Path.single hfirst).tail hsecond).tail hpull))
    (System.Path.single hthird) (by decide +kernel) _ (by decide +kernel) (Multiset.notMem_zero _)

end DeferredQueue

end RFed
