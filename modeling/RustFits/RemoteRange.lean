import RustFits.Parse
import RustFits.Lib.LruCache
import RustFits.Lib.Outcome

/-!
# Ranged reading of a remote file

`remote_range.rs`: a lazy view of a remote file, read block by block through a cache.

* `HttpRangeStore` is the state of the view, together with the byte ranges that it has
  requested.  `seek` is arithmetic; `read` serves a span from the cache and fetches the
  missing blocks in runs (`planBlockFetches`, `fetchBlocks`).
* The answers of the server are a parameter (`Server`).
* `Cursor` is the reading of a byte string in memory, which `read` and `seek` are
  compared with.

Sums and products that do not fit 64 bits, differences below zero, indices out of range
and a block that was not fetched are faults.  The two counters of the statistics wrap.
-/

namespace RustFits.RemoteRange

open Ascii ByteFile Machine Outcome

inductive ErrorKind where
  | invalidInput
  | other
  deriving DecidableEq, Repr

/-- Why a call ends without a result. -/
inductive Stop where
  | io (kind : ErrorKind) (message : Str)
  | fault
  deriving DecidableEq, Repr

/-- The answer to a request for the bytes from the first to the last one, both included:
a failure of the connection, or a status and a body. -/
abbrev Server := Nat → Nat → Except Str (Nat × Bytes)

/-- `HttpRangeStore`.  `requested` is the record of the byte ranges of the requests. -/
structure HttpRangeStore where
  url : Str
  len : Nat
  pos : Nat
  blockBytes : Nat
  cache : LruCache Nat
  bytesFetched : Nat
  requests : Nat
  requested : List (Nat × Nat)
  deriving DecidableEq, Repr

/-- The view that `open` returns, when the probe has given the length. -/
def opened (url : Str) (len : Nat) (blockBytes cacheBytes : UInt64) : HttpRangeStore :=
  ⟨url, len, 0, blockBytes.toNat, LruCache.new cacheBytes.toNat, 0, 1, []⟩

abbrev RangeM := EStateM Stop HttpRangeStore

/-- A guarded computation as a step of a call. -/
def lift {α : Type} : Outcome Stop α → RangeM α
  | .ok a => pure a
  | .error e => throw e
  | .fault => throw .fault

/-! ## Fetching -/

/-- The header of a request. -/
def rangeHeader (firstByte lastByte : Nat) : Str :=
  str "bytes=" ++ natDec firstByte ++ str "-" ++ natDec lastByte

/-- The loop of `fetch_blocks` over the body. -/
def readBlocks (range : Str) (startBlock : Nat) : List Nat → Bytes → RangeM (List Bytes)
  | [], _ => return []
  | i :: rest, body => do
    let st ← get
    let block ← lift (addWord 64 startBlock i)
    let blockStart ← lift (mulWord 64 block st.blockBytes)
    let left ← lift (subWord st.len blockStart)
    let expect := min st.blockBytes left
    if body.length < expect then
      throw (.io .other (str "short body for Range request '" ++ range ++ str "' on '" ++ st.url ++
        str "': failed to fill whole buffer"))
    else do
      modify fun s => { s with bytesFetched := (s.bytesFetched + expect) % u64Size }
      let blocks ← readBlocks range startBlock rest (body.drop expect)
      return body.take expect :: blocks

/-- `fetch_blocks`. -/
def fetchBlocks (server : Server) (startBlock nBlocks : Nat) : RangeM (List Bytes) := do
  let st ← get
  let firstByte ← lift (mulWord 64 startBlock st.blockBytes)
  let endBlock ← lift (addWord 64 startBlock nBlocks)
  let endByte ← lift (mulWord 64 endBlock st.blockBytes)
  let lastByte ← lift (subWord (min endByte st.len) 1)
  let range := rangeHeader firstByte lastByte
  modify fun s => { s with requested := s.requested ++ [(firstByte, lastByte)] }
  match server firstByte lastByte with
  | .error e =>
    throw (.io .other (str "Range request '" ++ range ++ str "' for '" ++ st.url ++
      str "' failed: " ++ e))
  | .ok (status, body) =>
    if status ≠ 206 then
      throw (.io .other (str "Range request '" ++ range ++ str "' for '" ++ st.url ++
        str "' returned status " ++ natDec status ++ str " (expected 206)"))
    else do
      let out ← readBlocks range startBlock (List.range nBlocks) body
      modify fun s => { s with requests := (s.requests + 1) % u64Size }
      return out

/-- The loop of `plan_block_fetches` at the index `i`. -/
def planLoop (firstBlock i : Nat) : List Bool → List (Nat × Nat)
  | [] => []
  | true :: rest => planLoop firstBlock (i + 1) rest
  | false :: rest =>
    let run := 1 + (rest.takeWhile fun b => !b).length
    (firstBlock + i, run) :: planLoop firstBlock (i + run) (rest.dropWhile fun b => !b)
termination_by flags => flags.length
decreasing_by
  · exact Nat.lt_succ_self _
  · exact Nat.lt_succ_of_le (List.length_dropWhile_le _ _)

/-- `plan_block_fetches`: the runs of missing blocks. -/
def planBlockFetches (firstBlock : Nat) (held : List Bool) : List (Nat × Nat) :=
  planLoop firstBlock 0 held

/-! ## Calls -/

/-- A look-up of a block. -/
def cacheGet (block : Nat) : RangeM (Option Bytes) := do
  let st ← get
  match st.cache.get? block with
  | some hit => do
    set { st with cache := hit.2 }
    return some hit.1
  | none => return none

/-- Keep a fetched block, in the cache and in the blocks of the span. -/
def keepBlock (firstBlock runStart : Nat) (blocks : List (Option Bytes)) (blk : Bytes × Nat) :
    RangeM (List (Option Bytes)) := do
  let idx ← lift (addWord 64 runStart blk.2)
  modify fun s => { s with cache := s.cache.put idx blk.1 }
  let slot ← lift (subWord idx firstBlock)
  lift (setAt blocks slot (some blk.1))

/-- Fetch a run of missing blocks. -/
def fetchRun (server : Server) (firstBlock : Nat) (blocks : List (Option Bytes)) (run : Nat × Nat) :
    RangeM (List (Option Bytes)) := do
  let fetched ← fetchBlocks server run.1 run.2
  fetched.zipIdx.foldlM (keepBlock firstBlock run.1) blocks

/-- Copy what a block has of the span. -/
def copyBlock (firstBlock spanStart spanEnd blockBytes : Nat) (buf : Bytes)
    (blk : Option Bytes × Nat) :
    Outcome Stop Bytes :=
  match blk.1 with
  | none => .fault
  | some bytes => do
    let block ← addWord 64 firstBlock blk.2
    let blockStart ← mulWord 64 block blockBytes
    let blockEnd ← addWord 64 blockStart bytes.length
    let copyFrom := max spanStart blockStart
    let copyTo := min spanEnd blockEnd
    let s ← subWord copyFrom blockStart
    let e ← subWord copyTo blockStart
    let d ← subWord copyFrom spanStart
    let n ← subWord e s
    let part ← getRange bytes s e
    putRange buf d (d + n) part

/-- `read`: the count and the buffer. -/
def read (server : Server) (buf : Bytes) : RangeM (Nat × Bytes) := do
  let st ← get
  if buf = [] ∨ st.len ≤ st.pos then return (0, buf)
  else do
    let want := min buf.length (st.len - st.pos)
    let spanStart := st.pos
    let spanEnd := spanStart + want
    let firstBlock := spanStart / st.blockBytes
    let lastBlock := (spanEnd - 1) / st.blockBytes
    let blocks ← (List.range' firstBlock (lastBlock + 1 - firstBlock)).mapM cacheGet
    let held := blocks.map Option.isSome
    let blocks ← (planBlockFetches firstBlock held).foldlM (fetchRun server firstBlock) blocks
    let buf ← lift (blocks.zipIdx.foldlM (copyBlock firstBlock spanStart spanEnd st.blockBytes) buf)
    modify fun s => { s with pos := spanEnd }
    return (want, buf)

inductive SeekFrom where
  | start (p : UInt64)
  | fromEnd (d : Int64)
  | current (d : Int64)
  deriving DecidableEq

/-- `add_offset`. -/
def addOffset (base : Nat) (delta : Int) : Option Nat :=
  if 0 ≤ delta then if base + delta.toNat < u64Size then some (base + delta.toNat) else none
  else if delta.natAbs ≤ base then some (base - delta.natAbs)
  else none

/-- The end of `seek`: the new position, if there is one. -/
def moveTo : Option Nat → RangeM Nat
  | some p => do
    modify fun st => { st with pos := p }
    return p
  | none => throw (.io .invalidInput (str "seek to a negative position"))

/-- `seek`. -/
def seek (pos : SeekFrom) : RangeM Nat := do
  let st ← get
  moveTo (match pos with
    | .start p => some p.toNat
    | .fromEnd d => addOffset st.len d.toInt
    | .current d => addOffset st.pos d.toInt)

/-- A call of the two interfaces, with the buffer that a read is given. -/
inductive Call where
  | seek (pos : SeekFrom)
  | read (buf : Bytes)
  deriving DecidableEq

/-- What a call returns: a position, or a count and the buffer. -/
inductive Reply where
  | position (p : Nat)
  | filled (count : Nat) (buf : Bytes)
  deriving DecidableEq, Repr

/-- A call on the store, with the store behind it. -/
def perform (server : Server) (st : HttpRangeStore) : Call → Except Stop Reply × HttpRangeStore
  | .seek pos =>
    match seek pos st with
    | .ok p st' => (.ok (.position p), st')
    | .error e st' => (.error e, st')
  | .read buf =>
    match read server buf st with
    | .ok (count, buf') st' => (.ok (.filled count buf'), st')
    | .error e st' => (.error e, st')

/-- The replies to calls, and the store behind them. -/
def performAll (server : Server) :
    HttpRangeStore → List Call → List (Except Stop Reply) × HttpRangeStore
  | st, [] => ([], st)
  | st, call :: calls =>
    let first := perform server st call
    let rest := performAll server first.2 calls
    (first.1 :: rest.1, rest.2)

/-! ## The cursor -/

/-- A byte string in memory with a position. -/
structure Cursor where
  content : Bytes
  pos : Nat
  deriving DecidableEq, Repr

/-- A position that is moved, where the new one is a position. -/
def Cursor.moved (base : Nat) (delta : Int) : Except Stop Nat :=
  if 0 ≤ (base : Int) + delta ∧ (base : Int) + delta < (u64Size : Int) then
    .ok ((base : Int) + delta).toNat
  else .error (.io .invalidInput (str "invalid seek to a negative or overflowing position"))

def Cursor.seek (c : Cursor) (pos : SeekFrom) : Except Stop Nat :=
  match pos with
  | .start p => .ok p.toNat
  | .fromEnd d => Cursor.moved c.content.length d.toInt
  | .current d => Cursor.moved c.pos d.toInt

/-- The bytes that a read takes. -/
def Cursor.taken (c : Cursor) (buf : Bytes) : Bytes := slice c.content c.pos buf.length

def Cursor.perform (c : Cursor) : Call → Except Stop Reply × Cursor
  | .seek pos =>
    match c.seek pos with
    | .ok p => (.ok (.position p), { c with pos := p })
    | .error e => (.error e, c)
  | .read buf =>
    (.ok (.filled (c.taken buf).length (c.taken buf ++ buf.drop (c.taken buf).length)),
      { c with pos := c.pos + (c.taken buf).length })

def Cursor.performAll : Cursor → List Call → List (Except Stop Reply) × Cursor
  | c, [] => ([], c)
  | c, call :: calls =>
    let first := c.perform call
    let rest := Cursor.performAll first.2 calls
    (first.1 :: rest.1, rest.2)

end RustFits.RemoteRange
