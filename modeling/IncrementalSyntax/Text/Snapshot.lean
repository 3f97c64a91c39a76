import IncrementalSyntax.Text.Change

/-!
# Snapshots and their history

A snapshot is one version of a text. It knows the version that it was derived from and the changes that
led to it, but does not keep that version alive: a history lists the snapshots that somebody still
holds, and a base that nobody holds any more cannot be followed.

## Main definitions

* `Snapshot`: a text with its version, its lineage and where it came from
* `History`: the snapshots that are held, with the numbers for the next ones
* `History.begin`, `History.derive`, `History.release`: the steps of a history
* `History.changesBetween`: the changes that lead from one held snapshot to another
-/

namespace IncrementalSyntax

/-- **Origin.** The version of the base and the changes made to it. -/
structure Origin where
  base : Nat
  changes : ChangeSet
  deriving DecidableEq, Repr

/-- **Snapshot.** An immutable version of a text. Versions grow, and all snapshots derived from the same
first one share its lineage. -/
structure Snapshot where
  text : Text
  version : Nat
  lineage : Nat
  origin : Option Origin
  deriving DecidableEq, Repr

/-- A snapshot is known by its version. -/
def Snapshot.isSame (a b : Snapshot) : Bool := a.version == b.version

/-- **History.** The snapshots that are held, one entry for each holder, and the next free numbers. -/
structure History where
  held : List Snapshot := []
  nextVersion : Nat := 1
  nextLineage : Nat := 1
  deriving DecidableEq, Repr

/-- **Bounding box.** One replacement that covers a set of changes: the range from `start` to `oldEnd`
became the one from `start` to `newEnd`. -/
structure Box where
  start : Int
  oldEnd : Int
  newEnd : Int
  deriving DecidableEq, Repr

namespace Box

/-- The box from the first change of a set to its last one. -/
def ofChanges? (set : ChangeSet) : Option Box :=
  match set.changes.head?, set.changes.getLast? with
  | some first, some last =>
    some ⟨first.range.start, last.range.stop,
      last.range.stop + set.changes.foldr (fun c rest => c.delta + rest) 0⟩
  | _, _ => none

/-- The box of one replacement followed by another one, whose offsets speak of the text after the
first. -/
def followedBy (a b : Box) : Box where
  start := min a.start b.start
  oldEnd := if a.newEnd < b.oldEnd then b.oldEnd - (a.newEnd - a.oldEnd) else a.oldEnd
  newEnd := if b.oldEnd ≤ a.newEnd then a.newEnd + (b.newEnd - b.oldEnd) else b.newEnd

/-- The box of several sets, made one after the other. -/
def ofHops (hops : List ChangeSet) : Option Box :=
  (hops.filterMap ofChanges?).foldl (fun box b => some ((box.map (followedBy · b)).getD b)) none

/-- The replacement that a box stands for, its new text read off the latest text. -/
def toChangeSet (box : Box) (latest : Text) : ChangeSet :=
  .single ⟨.between box.start.toNat box.oldEnd.toNat,
    latest.between box.start.toNat box.newEnd.toNat⟩

end Box

namespace History

/-- The first snapshot of a new lineage, held once. -/
def begin (h : History) (text : Text) : Snapshot × History :=
  let s : Snapshot := ⟨text, h.nextVersion, h.nextLineage, none⟩
  (s, { held := s :: h.held, nextVersion := h.nextVersion + 1, nextLineage := h.nextLineage + 1 })

/-- A snapshot derived from another one, held once. -/
def derive (h : History) (base : Snapshot) (changes : ChangeSet) :
    Except TextError (Snapshot × History) :=
  (changes.applyTo base.text).map fun text =>
    let s : Snapshot := ⟨text, h.nextVersion, base.lineage, some ⟨base.version, changes⟩⟩
    (s, { h with held := s :: h.held, nextVersion := h.nextVersion + 1 })

/-- One more holder of a snapshot. -/
def hold (h : History) (s : Snapshot) : History := { h with held := s :: h.held }

/-- One holder less. -/
def release (h : History) (s : Snapshot) : History :=
  { h with held := h.held.eraseP s.isSame }

/-- The held snapshot of a version. -/
def find? (h : History) (version : Nat) : Option Snapshot :=
  h.held.find? (·.version == version)

/-- The way back from a snapshot to the version of an older one. -/
inductive Trail where
  /-- The changes of each hop, the oldest first. -/
  | found (hops : List ChangeSet)
  /-- A snapshot on the way is no longer held. -/
  | broken
  /-- The snapshot does not come from the older version. -/
  | unrelated
  deriving DecidableEq, Repr

/-- Follows the origins from `new` back to the version `old`; `later` holds the hops passed so far. Each
hop leads to a smaller version, so as many hops as the version says are enough. -/
def trail (h : History) (old : Nat) : Nat → Snapshot → List ChangeSet → Trail
  | 0, _, _ => .unrelated
  | fuel + 1, new, later =>
    match new.origin with
    | none => .unrelated
    | some o =>
      if o.base < old then .unrelated
      else if o.base = old then .found (o.changes :: later)
      else
        match h.find? o.base with
        | some base => h.trail old fuel base (o.changes :: later)
        | none => .broken

/-- The changes that lead from one snapshot to another. One hop gives the changes it was made with, and
several hops one replacement that covers them all. If a snapshot on the way is gone, the whole text
counts as replaced. -/
def changesBetween (h : History) (old new : Snapshot) : Except TextError ChangeSet :=
  if old.lineage ≠ new.lineage ∨ new.version < old.version then
    .error (.stale old.version new.version)
  else if old.isSame new then .ok .empty
  else
    match h.trail old.version new.version new [] with
    | .found [set] => .ok set
    | .found hops =>
      match Box.ofHops hops with
      | some box => .ok (box.toChangeSet new.text)
      | none => .ok .empty
    | .broken => .ok (.single ⟨⟨0, Text.width old.text⟩, new.text⟩)
    | .unrelated => .error (.stale old.version new.version)

end History

end IncrementalSyntax
