import Minnow.ByteStream
import Minnow.Lib.Except
import Minnow.Lib.OrdMap
import Minnow.Lib.StringView

/-!
# The reassembler (`src/reassembler.cc`)

`insert` takes a substring of the stream and its index, stores what is new in it in `cache`, and
pushes the run of stored bytes that starts at the next expected index. It is cut here at its
natural joints, in the order of the source:

* `markEnd`: the end of the stream, from a last substring that seems to lie in the window;
* `outsideWindow`: the two early returns;
* `overlay` and `appendTail`: the loop over `cache_` and the statement after it, which store the
  parts of the substring between and behind the cached segments;
* `popReady`: the loop that takes the ready segments off the front.

A cached segment is an entry `(first index, last index, bytes)`. The new part of the data is a
`StringView`, a pointer and a length, which may reach beyond the data: what counts is whether its
bytes are read, where a segment is stored. A read behind the terminator of the data is undefined in
the source and `substr` throws past the end of its view; both are a `Fault` here, so a run of the
model is one in which neither happens.
-/

namespace Minnow

/-- `string_view( data + offset, len )`. The terminator of the string is in its memory too. -/
def view (data : Bytes) (offset len : Nat) : StringView UInt8 := ⟨(data ++ [0]).drop offset, len⟩

theorem view_inside {data : Bytes} {offset len : Nat} :
    (view data offset len).Inside ↔ len = 0 ∨ offset + len ≤ data.length + 1 := by
  show len ≤ ((data ++ [0]).drop offset).length ↔ _
  rw [List.length_drop, List.length_append, List.length_singleton]
  omega

theorem toList_view {data : Bytes} {offset len : Nat} (h : offset + len ≤ data.length) :
    (view data offset len).toList = (data.drop offset).take len := by
  show ((data ++ [0]).drop offset).take len = _
  rw [List.drop_append_of_le_length (by omega),
    List.take_append_of_le_length (by rw [List.length_drop]; omega)]

/-- A cached segment: its first index, its last index and its bytes. -/
abbrev Segment := Nat × Nat × Bytes

/-- `std::map<uint64_t, std::pair<uint64_t, std::string>>`. -/
abbrev Cache := OrdMap Nat (Nat × Bytes)

structure Reassembler where
  output : ByteStream
  cache : Cache := OrdMap.empty
  finish : Bool := false
  finishSet : Nat := 2 ^ 64 - 1
  deriving DecidableEq

namespace Reassembler

/-- What the insertion loop carries: the map, and the part of the data that is not stored yet
with its index. -/
structure Cursor where
  cache : Cache
  writeIndex : Nat
  trimmedData : StringView UInt8
  deriving DecidableEq

def bytesPushed (r : Reassembler) : Nat := r.output.bytesPushed

/-- `last_available_index`. -/
def lastAvailableIndex (r : Reassembler) : Nat :=
  clampInt (sub64 (add64 r.bytesPushed r.output.availableCapacity) 1)

/-- `last_data_index`, as it is first computed. -/
def lastDataIndex (firstIndex dataSize : Nat) : Nat :=
  clampInt (sub64 (add64 firstIndex dataSize) 1)

/-- `last_data_index` after it is cut to the window. -/
def lastIndex (r : Reassembler) (firstIndex dataSize : Nat) : Nat :=
  min r.lastAvailableIndex (lastDataIndex firstIndex dataSize)

/-- The test under which a last substring records the end of the stream. -/
def marksEnd (r : Reassembler) (firstIndex dataSize : Nat) : Bool :=
  lastDataIndex firstIndex dataSize ≤ r.lastAvailableIndex

def markEnd (r : Reassembler) (firstIndex dataSize : Nat) (isLastSubstring : Bool) :
    Reassembler :=
  if isLastSubstring && r.marksEnd firstIndex dataSize then
    { r with finish := true, finishSet := add64 firstIndex dataSize }
  else r

/-- The test of the early return. -/
def outsideWindow (r : Reassembler) (firstIndex dataSize : Nat) : Bool :=
  firstIndex > sub64 (add64 r.bytesPushed r.output.availableCapacity) 1 ||
    add64 dataSize firstIndex < r.bytesPushed

/-- The loop over `cache_`. The first argument is the entries from the iterator on: the body only
inserts at `write_index`, before the key under the iterator, so the entries still to come are
those that the map had when the loop began. -/
def overlay (lastDataIndex : Nat) : List Segment → Cursor → Except Fault Cursor
  | [], c => .ok c
  | (segmentStart, segmentEnd, _) :: rest, c =>
    if c.writeIndex < segmentStart then
      if lastDataIndex < segmentStart then do
        let bytes ← c.trimmedData.string
        return { c with cache := c.cache.set c.writeIndex (lastDataIndex, bytes) }
      else do
        let trimSize := sub64 segmentStart c.writeIndex
        let head ← c.trimmedData.substr 0 trimSize
        let bytes ← head.string
        let cache := c.cache.set c.writeIndex (sub64 segmentStart 1, bytes)
        let newSegmentStart := max (add64 c.writeIndex trimSize) (add64 segmentEnd 1)
        if lastDataIndex < newSegmentStart then
          .ok { c with cache }
        else
          let tail ← c.trimmedData.substr (sub64 newSegmentStart c.writeIndex)
            (add64 (sub64 lastDataIndex newSegmentStart) 1)
          let c := { cache, writeIndex := newSegmentStart, trimmedData := tail }
          if c.writeIndex > lastDataIndex then .ok c else overlay lastDataIndex rest c
    else
      if lastDataIndex ≤ segmentEnd then .ok c
      else do
        let newSegmentStart := max (add64 segmentEnd 1) c.writeIndex
        let tail ← c.trimmedData.substr (sub64 newSegmentStart c.writeIndex)
          (add64 (sub64 lastDataIndex segmentStart) 1)
        let c := { c with writeIndex := newSegmentStart, trimmedData := tail }
        if c.writeIndex > lastDataIndex then .ok c else overlay lastDataIndex rest c

/-- The statement after the loop: what lies behind the last cached segment. -/
def appendTail (lastDataIndex : Nat) (c : Cursor) : Except Fault Cache :=
  match c.cache.last? with
  | none => .ok c.cache
  | some (_, lastEnd, _) =>
    if lastDataIndex > lastEnd && !c.trimmedData.isEmpty then do
      let start := max c.writeIndex (add64 lastEnd 1)
      let tail ← c.trimmedData.substr (sub64 start c.writeIndex)
        (add64 (sub64 lastDataIndex start) 1)
      let bytes ← tail.string
      return c.cache.set start (lastDataIndex, bytes)
    else .ok c.cache

/-- The map after the substring is stored. -/
def store (r : Reassembler) (firstIndex : Nat) (data : Bytes) : Except Fault Cache := do
  let writeIndex := max r.bytesPushed firstIndex
  let lastDataIndex := r.lastIndex firstIndex data.length
  let trimmedData := view data (sub64 writeIndex firstIndex)
    (min (add64 (sub64 lastDataIndex writeIndex) 1) data.length)
  if r.cache.entries.isEmpty && lastDataIndex ≥ writeIndex then
    let bytes ← trimmedData.string
    appendTail lastDataIndex
      { cache := r.cache.set writeIndex (lastDataIndex, bytes), writeIndex, trimmedData }
  else
    let c ← overlay lastDataIndex r.cache.entries { cache := r.cache, writeIndex, trimmedData }
    appendTail lastDataIndex c

/-- The loop that takes the ready segments off the front: how many, the index after them, and
their bytes. -/
def popReady : List Segment → Nat → Nat × Nat × Bytes
  | [], nextExpected => (0, nextExpected, [])
  | (segmentStart, segmentEnd, bytes) :: rest, nextExpected =>
    if segmentStart = nextExpected then
      let (n, next, dataToPush) :=
        popReady rest (add64 nextExpected (add64 (sub64 segmentEnd segmentStart) 1))
      (n + 1, next, bytes ++ dataToPush)
    else (0, nextExpected, [])

/-- The push of the ready bytes. -/
def pushReady (r : Reassembler) (dataToPush : Bytes) : Reassembler :=
  if dataToPush.isEmpty then r else { r with output := r.output.push dataToPush }

/-- The last statement of `insert`. -/
def closeIfDone (r : Reassembler) (nextExpected : Nat) : Reassembler :=
  if r.finish && r.cache.entries.isEmpty && nextExpected ≥ r.finishSet then
    { r with output := r.output.close }
  else r

/-- The end of `insert`: pop the ready segments, push their bytes, and close the stream. -/
def flush (r : Reassembler) : Reassembler :=
  let (n, next, dataToPush) := popReady r.cache.entries r.bytesPushed
  ({ r with cache := r.cache.drop n }.pushReady dataToPush).closeIfDone next

def insert (r : Reassembler) (firstIndex : Nat) (data : Bytes) (isLastSubstring : Bool) :
    Except Fault Reassembler := do
  let r := r.markEnd firstIndex data.length isLastSubstring
  if r.outsideWindow firstIndex data.length then
    return r
  else
    let cache ← r.store firstIndex data
    return flush { r with cache }

def countBytesPending (r : Reassembler) : Nat :=
  (r.cache.entries.map fun x => x.2.2.length).sum

/-- A pop of the output reader. -/
def pop (r : Reassembler) (len : Nat) : Reassembler := { r with output := r.output.pop len }

end Reassembler

end Minnow
